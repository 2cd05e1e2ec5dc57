import ClassAsm.Proofs.Method.Locals
import ClassAsm.Proofs.Trimming.Safe

/-! The locals of a trimmed method beside those of the whole method. They have the same types, and
only names that dropped code has bound are missing. So there is room for every new one. -/

namespace ClassAsm

namespace Locals

variable {l l' : Locals} {name other : String} {type : TypeRef}

theorem find?_add_of_ne (new : l.find? name = none) (h : other ≠ name) :
    (l.add name type new).find? other = l.find? other := by
  apply Option.ext
  rintro ⟨slot, t⟩
  rw [find?_eq_some_iff, find?_eq_some_iff, entries_add new, Array.getElem?_push]
  by_cases hs : slot = l.entries.size
  · simp [hs, Ne.symm h]
  · rw [if_neg hs]

def names (l : Locals) : List String := l.toList.map Prod.fst

theorem length_names : l.names.length = l.size := by
  rw [names, List.length_map, Table.toList, Array.length_toList, Table.size]

theorem getElem?_names {slot : Nat} :
    l.names[slot]? = some name ↔ ∃ type, l.find? name = some (slot, type) := by
  simp only [names, Table.toList, List.getElem?_map, Array.getElem?_toList, Option.map_eq_some_iff,
    Prod.exists, find?_eq_some_iff]
  constructor
  · rintro ⟨_, type, h, rfl⟩
    exact ⟨type, h⟩
  · rintro ⟨type, h⟩
    exact ⟨name, type, h, rfl⟩

theorem mem_names : name ∈ l.names ↔ l.find? name ≠ none := by
  simp only [List.mem_iff_getElem?, getElem?_names, ne_eq, ← Option.isSome_iff_ne_none,
    Option.isSome_iff_exists, Prod.exists]

theorem nodup_names (l : Locals) : l.names.Nodup := by
  rw [List.nodup_iff_injective_getElem]
  rintro ⟨i, hi⟩ ⟨j, hj⟩ same
  obtain ⟨_, h⟩ := getElem?_names.1 (List.getElem?_eq_getElem hi)
  obtain ⟨_, h'⟩ := getElem?_names.1 (List.getElem?_eq_getElem hj)
  change l.names[i] = l.names[j] at same
  rw [same, h'] at h
  cases h
  rfl

theorem size_le_of_names (h : ∀ n, l'.find? n ≠ none → l.find? n ≠ none) : l'.size ≤ l.size := by
  rw [← length_names, ← length_names]
  exact (l'.nodup_names.subperm fun n hn => mem_names.2 (h n (mem_names.1 hn))).length_le

theorem size_lt_of_names (h : ∀ n, l'.find? n ≠ none → l.find? n ≠ none)
    (hl : l.find? name ≠ none) (hl' : l'.find? name = none) : l'.size < l.size := by
  rw [← length_names, ← length_names]
  have new : (name :: l'.names).Nodup :=
    List.nodup_cons.2 ⟨fun hm => mem_names.1 hm hl', l'.nodup_names⟩
  refine (new.subperm fun n hn => ?_).length_le
  rcases List.mem_cons.1 hn with rfl | hn
  · exact mem_names.2 hl
  · exact mem_names.2 (h n (mem_names.1 hn))

end Locals

/-- The locals of the whole and of the trimmed method, where the trimmed one has bound the names. If
no unreachable code is dropped, they are the same. -/
structure Kin (o : Options) (names : List String) (l l' : Locals) : Prop where
  same : o.trimUnreachableCode = false → l' = l
  kept : o.trimUnreachableCode = true → ∀ n ∈ names,
    ∃ slot slot' type, l.find? n = some (slot, type) ∧ l'.find? n = some (slot', type)
  lost : o.trimUnreachableCode = true → ∀ n ∉ names, l'.find? n = none

namespace Kin

variable {o : Options} {names : List String} {l l' k : Locals} {name : String} {type : TypeRef}

/-- Every local of the trimmed method is one of the whole method. -/
theorem within (h : Kin o names l l') {slot' : Nat} (hl : l'.find? name = some (slot', type)) :
    ∃ slot, l.find? name = some (slot, type) := by
  cases on : o.trimUnreachableCode with
  | false =>
    rw [h.same on] at hl
    exact ⟨slot', hl⟩
  | true =>
    by_cases hn : name ∈ names
    · obtain ⟨slot, _, type', hs, hs'⟩ := h.kept on name hn
      rw [hs'] at hl
      cases hl
      exact ⟨slot, hs⟩
    · rw [h.lost on name hn] at hl
      cases hl

theorem ne_none (h : Kin o names l l') (n : String) (hn : l'.find? n ≠ none) :
    l.find? n ≠ none := by
  obtain ⟨⟨slot', type⟩, hl⟩ := Option.ne_none_iff_exists'.1 hn
  obtain ⟨slot, hs⟩ := h.within hl
  rw [hs]
  exact Option.some_ne_none _

theorem eq_none (h : Kin o names l l') (hl : l.find? name = none) : l'.find? name = none := by
  by_contra hn
  exact h.ne_none name hn hl

theorem agree_of_mem (h : Kin o names l l') (on : o.trimUnreachableCode = true)
    (hn : name ∈ names) : l.Agree l' name := by
  obtain ⟨_, _, _, hs, hs'⟩ := h.kept on name hn
  rw [Locals.Agree, hs, hs']
  rfl

theorem agree (h : Kin o names l l')
    (spared : o.trimUnreachableCode = true → l.find? name ≠ none → name ∈ names) :
    l.Agree l' name := by
  cases on : o.trimUnreachableCode with
  | false => rw [h.same on, Locals.Agree]
  | true =>
    by_cases hl : l.find? name = none
    · rw [Locals.Agree, hl, h.eq_none hl]
    · exact h.agree_of_mem on (spared on hl)

theorem grow (h : Kin o names l l') (on : o.trimUnreachableCode = true)
    (hg : ∀ n x, l.find? n = some x → k.find? n = some x) : Kin o names k l' where
  same off := by rw [on] at off; cases off
  kept _ n hn := by
    obtain ⟨slot, slot', type, hs, hs'⟩ := h.kept on n hn
    exact ⟨slot, slot', type, hg _ _ hs, hs'⟩
  lost := h.lost

/-- Names count only as a set, and only if code is dropped. -/
theorem congr (h : Kin o names l l') {names' : List String}
    (hn : o.trimUnreachableCode = true → ∀ n, n ∈ names' ↔ n ∈ names) : Kin o names' l l' where
  same := h.same
  kept on n hm := h.kept on n ((hn on n).1 hm)
  lost on n hm := h.lost on n fun hm' => hm ((hn on n).2 hm')

theorem note (h : Kin o names l l') {slot slot' : Nat} (hl : l.find? name = some (slot, type))
    (hl' : l'.find? name = some (slot', type)) : Kin o (name :: names) l l' where
  same := h.same
  kept on n hn := by
    rcases List.mem_cons.1 hn with rfl | hn
    · exact ⟨slot, slot', type, hl, hl'⟩
    · exact h.kept on n hn
  lost on n hn := h.lost on n fun hm => hn (List.mem_cons_of_mem _ hm)

/-- A name that is new in the trimmed method gets a slot there. -/
theorem add (h : Kin o names l l') (hl' : l'.find? name = none)
    (hg : ∀ n x, l.find? n = some x → k.find? n = some x) {slot : Nat}
    (hk : k.find? name = some (slot, type))
    (same : o.trimUnreachableCode = false → l'.add name type hl' = k) :
    Kin o (name :: names) k (l'.add name type hl') where
  same := same
  kept on n hn := by
    by_cases he : n = name
    · subst he
      exact ⟨slot, _, type, hk, Locals.find?_add hl'⟩
    · obtain ⟨s, s', t, hs, hs'⟩ := h.kept on n ((List.mem_cons.1 hn).resolve_left he)
      exact ⟨s, s', t, hg _ _ hs, by rw [Locals.find?_add_of_ne hl' he, hs']⟩
  lost on n hn := by
    simp only [List.mem_cons, not_or] at hn
    rw [Locals.find?_add_of_ne hl' hn.1, h.lost on n hn.2]

end Kin

namespace Draft

variable {o : Options} {site : Site} {names : List String} {d d' e : Draft}

/-- What an expression looks up agrees if it spares the names that are missing. -/
theorem agree_of_spares (h : Kin o names d.locals d'.locals) {e : Expr}
    (hs : d.spares o site names e = true) :
    ∀ name ∈ (site.scope d.locals).lookups e, d.locals.Agree d'.locals name := by
  intro name hn
  refine h.agree fun on hl => ?_
  simp only [spares, on, Bool.not_true, Bool.false_or, List.all_eq_true] at hs
  have bound : d.locals.find? name = none ∨ name ∈ names := by simpa using hs name hn
  exact bound.resolve_left hl

/-- The slots of a method are numbered, so there are not too many. -/
def Roomy (d : Draft) : Prop := d.locals.size ≤ Locals.limit

/-- What the whole method binds, the trimmed one can bind. -/
theorem bind_kin (h : Kin o names d.locals d'.locals) {name : String} {type : TypeRef}
    {slot : Nat} (hb : Binds d name type slot e) (hr : e.Roomy) (site : Site) (span : Span) :
    ∃ slot' e', d'.bind site name type span = .ok (slot', e') ∧
      Kin o (name :: names) e.locals e'.locals ∧ e.locals.find? name = some (slot, type) ∧
      e'.locals.find? name = some (slot', type) ∧ Binds d' name type slot' e' := by
  have known (slot') (hl' : d'.locals.find? name = some (slot', type)) :
      d'.bind site name type span = .ok (slot', d') := by
    rw [bind_of_some hl', if_pos rfl]
  have fresh (hl' : d'.locals.find? name = none) (room : d'.locals.size < Locals.limit) :
      d'.bind site name type span = .ok (d'.locals.size, d'.addLocal name type hl') := by
    have notFull : ¬ d'.locals.isFull = true := by
      simp only [Locals.isFull, decide_eq_true_eq]
      omega
    rw [bind_of_none hl', if_neg notFull]
  cases hb with
  | known hl =>
    cases hl' : d'.locals.find? name with
    | some x =>
      obtain ⟨slot', type'⟩ := x
      obtain ⟨_, hs⟩ := h.within hl'
      rw [hl] at hs
      cases hs
      exact ⟨slot', d', known slot' hl', h.note hl hl', hl, hl', .known hl'⟩
    | none =>
      have room := Locals.size_lt_of_names h.ne_none (by simp [hl]) hl'
      refine ⟨_, _, fresh hl' (lt_of_lt_of_le room hr), ?_, hl, Locals.find?_add hl', .new hl'⟩
      refine h.add hl' (fun _ _ => id) hl fun off => ?_
      rw [h.same off, hl] at hl'
      cases hl'
  | new hl =>
    have hl' := h.eq_none hl
    have found : (d.locals.add name type hl).find? name = some (d.locals.size, type) :=
      Locals.find?_add hl
    have room : d'.locals.size < Locals.limit := by
      have := Locals.size_le_of_names h.ne_none
      rw [Roomy, addLocal, Locals.size_add hl] at hr
      omega
    refine ⟨_, _, fresh hl' room, ?_, found, Locals.find?_add hl', .new hl'⟩
    exact h.add hl' (fun _ _ => Locals.find?_add_of_some hl) found
      fun off => by simp only [h.same off]; rfl

/-! A method never has more locals than slots. -/

theorem bind_roomy {name : String} {type : TypeRef} {span : Span} {slot : Nat} (hr : d.Roomy)
    (h : d.bind site name type span = .ok (slot, e)) : e.Roomy := by
  unfold bind at h
  split at h
  · split at h <;> cases h
    exact hr
  · next new =>
    split at h
    · cases h
    next room =>
    cases h
    rw [Roomy, addLocal, Locals.size_add new]
    simp only [Locals.isFull, decide_eq_true_eq] at room
    omega

theorem declare_roomy {name : String} {span : Span} {typeName : String} (hr : d.Roomy)
    (h : d.declare site name span typeName = .ok e) : e.Roomy := by
  simp only [declare, bind_eq_ok, Prod.exists, Except.ok.injEq] at h
  obtain ⟨_, -, _, _, hb, rfl⟩ := h
  exact bind_roomy hr hb

theorem Roomy.of_locals (hr : d.Roomy) (h : e.locals = d.locals) : e.Roomy := by
  rw [Roomy, h]
  exact hr

theorem assign_roomy {name : String} {span : Span} {typeName : Option String} {value : Expr}
    (hr : d.Roomy) (h : d.assign site name span typeName value = .ok e) : e.Roomy := by
  have viaLocal {typeName : Option String}
      (h : d.assignLocal site name span typeName value = .ok e) : e.Roomy := by
    obtain ⟨c, slot, d₁, -, -, hb, rfl⟩ := assignLocal_eq_ok h
    have bound : d₁.Roomy := bind_roomy (hr.of_locals (locals_emitAll c.instructions)) hb
    exact bound.of_locals rfl
  unfold assign at h
  split at h
  · next hl =>
    split at h
    · next f hf =>
      cases assignField_emits hl hf h with
      | toStatic | toInstance => exact hr.of_locals (locals_emitAll _)
      | through hl' => simp [hl] at hl'
      | toLocal hn => simp [hn rfl hl] at hf
    · exact viaLocal h
  · next slot type hl =>
    split at h
    · next ha =>
      cases assignThrough_emits hl ha h with
      | toStatic hl' | toInstance hl' => simp [hl] at hl'
      | through => exact hr.of_locals (locals_emitAll _)
      | toLocal _ ha' => simp [ha' rfl _ _ hl] at ha
    · exact viaLocal h
  · exact viaLocal h

theorem Run.roomy {t : Task} (h : Run site t d e) : d.Roomy → e.Roomy := by
  induction h with
  | done | noArms => exact id
  | drop h => exact fun hr => hr.of_locals (admits h).locals
  | next h _ _ ihs ihr => exact fun hr => ihr (ihs (hr.of_locals (admits h).locals))
  | expr h =>
    intro hr
    rcases exprStmt_emits h with ⟨-, -, rfl⟩ | ⟨_, -, rfl⟩
    · exact hr.of_locals (locals_noted _ _ _)
    · exact hr.of_locals (by rw [locals_emitAll, locals_noted])
  | declare h => exact fun hr => declare_roomy hr h
  | assign h => exact fun hr => assign_roomy hr h
  | ret h =>
    intro hr
    rcases returnStmt_emits h with ⟨-, -, rfl⟩ | ⟨_, _, -, -, -, rfl⟩
    · exact hr
    · exact hr.of_locals (locals_emitAll _)
  | loop h _ ih =>
    exact fun hr => (ih (hr.of_locals (locals_loopStart h))).of_locals (locals_join _ _)
  | cond h _ _ iho iha =>
    intro hr
    exact iha ((iho (hr.of_locals (locals_condStart h))).of_locals (locals_join _ _))
  | arm _ _ ih iht => exact fun hr => iht ((ih hr).of_locals (locals_join _ _))

end Draft
end ClassAsm
