import ClassAsm.Proofs.Draft.Segments

/-! Every operation on a draft only adds to it. Segments keep their names and whether they are
muted, their code gets longer at its end, a live segment stays live, and a local keeps its slot and
its type. So what holds of the code of an early draft can be read off the finished method. -/

namespace ClassAsm

namespace Locals

variable {l : Locals} {name : String} {slot : Nat} {type : TypeRef}

theorem find?_eq_some_iff :
    l.find? name = some (slot, type) ↔ l.entries[slot]? = some (name, type) := by
  have hi := l.indexes name slot
  constructor
  · intro h
    simp only [find?, Option.bind_eq_bind, Option.bind_eq_some_iff] at h
    obtain ⟨k, hk, ⟨n, t⟩, hs, he⟩ := h
    obtain ⟨rfl, rfl⟩ : k = slot ∧ t = type := by simpa using he
    have := hi.1 hk
    simp_all
  · intro h
    have hk : l.index[name]? = some slot := hi.2 (by simp [h])
    simp [find?, hk, h]

/-- A local that is there is found. -/
theorem getElem?_toList :
    l.toList[slot]? = some (name, type) ↔ l.find? name = some (slot, type) := by
  rw [Table.toList, Array.getElem?_toList, find?_eq_some_iff]

/-- A new name gets the next slot. -/
theorem entries_add (new : l.find? name = none) :
    (l.add name type new).entries = l.entries.push (name, type) := rfl

@[simp] theorem toList_add (new : l.find? name = none) :
    (l.add name type new).toList = l.toList ++ [(name, type)] := Array.toList_push

@[simp] theorem size_add (new : l.find? name = none) : (l.add name type new).size = l.size + 1 :=
  Array.size_push _

theorem find?_add (new : l.find? name = none) :
    (l.add name type new).find? name = some (l.size, type) :=
  find?_eq_some_iff.2 Array.getElem?_push_size

/-- A name keeps its slot and its type. -/
theorem find?_add_of_some {n : String} {t : TypeRef} (new : l.find? n = none)
    (h : l.find? name = some (slot, type)) :
    (l.add n t new).find? name = some (slot, type) := by
  rw [find?_eq_some_iff] at h ⊢
  obtain ⟨hlt, -⟩ := Array.getElem?_eq_some_iff.1 h
  rw [entries_add, Array.getElem?_push_lt hlt, ← h, Array.getElem?_eq_getElem hlt]

/-- Two names never share a slot. -/
theorem name_unique {n n' : String} {t t' : TypeRef} (h : l.find? n = some (slot, t))
    (h' : l.find? n' = some (slot, t')) : n = n' := by
  rw [find?_eq_some_iff] at h h'
  rw [h] at h'
  exact (Prod.mk.inj (Option.some.inj h')).1

theorem lookup_toList : l.toList.lookup name = (l.find? name).map Prod.snd := by
  cases hl : l.toList.lookup name with
  | none =>
    cases h : l.find? name with
    | none => rfl
    | some x =>
      have hs := find?_eq_some_iff.1 h
      rw [← Array.getElem?_toList] at hs
      have := List.lookup_eq_none_iff.1 hl _ (List.mem_of_getElem? hs)
      simp at this
  | some type =>
    obtain ⟨before, after, he, -⟩ := List.lookup_eq_some_iff.1 hl
    have hs : l.find? name = some (before.length, type) := by
      rw [← getElem?_toList]
      simp [he]
    rw [hs]
    rfl

end Locals

namespace Draft

/-- One draft extends another. -/
structure Grows (d d' : Draft) : Prop where
  size : d.segments.size ≤ d'.segments.size
  name : ∀ i < d.segments.size, (d'.segment i).name = (d.segment i).name
  muted : ∀ i < d.segments.size, (d'.segment i).isMuted = (d.segment i).isMuted
  live : ∀ i, (d.segment i).isLive = true → (d'.segment i).isLive = true
  targeted : ∀ i, (d.segment i).isTargeted = true → (d'.segment i).isTargeted = true
  code : ∀ i, d.codeAt i <+: d'.codeAt i
  labels : d.labels ≤ d'.labels
  locals : ∀ n x, d.locals.find? n = some x → d'.locals.find? n = some x
  warnings : d.warnings.toList <+: d'.warnings.toList

variable {d : Draft} {t : Nat}

theorem Grows.refl (d : Draft) : Grows d d :=
  ⟨le_rfl, fun _ _ => rfl, fun _ _ => rfl, fun _ => id, fun _ => id, fun _ => List.prefix_refl _,
    le_rfl, fun _ _ => id, List.prefix_refl _⟩

theorem Grows.trans {a b c : Draft} (h : Grows a b) (h' : Grows b c) : Grows a c where
  size := h.size.trans h'.size
  name i hi := (h'.name i (hi.trans_le h.size)).trans (h.name i hi)
  muted i hi := (h'.muted i (hi.trans_le h.size)).trans (h.muted i hi)
  live i hi := h'.live i (h.live i hi)
  targeted i hi := h'.targeted i (h.targeted i hi)
  code i := (h.code i).trans (h'.code i)
  labels := h.labels.trans h'.labels
  locals n x hx := h'.locals n x (h.locals n x hx)
  warnings := h.warnings.trans h'.warnings

theorem grows_emit (h : d.InRange) (x : Instruction) : Grows d (d.emit x) where
  size := by simp
  name := by simp
  muted := by simp
  live := by simp
  targeted := by simp
  code i := by rw [codeAt_emit h]; split <;> simp
  labels := le_rfl
  locals _ _ := id
  warnings := List.prefix_refl _

theorem grows_emitAll (h : d.InRange) (c : List Instruction) : Grows d (d.emitAll c) := by
  induction c generalizing d with
  | nil => exact Grows.refl d
  | cons x c ih => exact (grows_emit h x).trans (ih (h.emit x))

theorem grows_branch (h : d.InRange) (ht : t < d.segments.size) (make : String → Instruction) :
    Grows d (d.branch make t) where
  size := by simp
  name := by simp
  muted := by simp
  live i hi := by rw [isLive_branch _ ht, hi]; rfl
  targeted i hi := by rw [isTargeted_branch _ ht, hi]; rfl
  code i := by rw [codeAt_branch _ h]; split <;> simp
  labels := le_rfl
  locals _ _ := id
  warnings := List.prefix_refl _

theorem grows_spawnFresh (stem : String) (muted : Bool) :
    Grows d (d.spawnFresh stem muted).2 where
  size := by simp
  name i hi := by rw [segment_spawnFresh_of_lt _ _ hi]
  muted i hi := by rw [segment_spawnFresh_of_lt _ _ hi]
  live i hi := by
    rw [segment_spawnFresh]
    split
    · next h => subst h; simp [segment] at hi; exact hi
    · exact hi
  targeted i hi := by
    rw [segment_spawnFresh]
    split
    · next h => subst h; simp [segment] at hi; exact hi
    · exact hi
  code i := by rw [codeAt_spawnFresh]
  labels := Nat.le_succ _
  locals _ _ := id
  warnings := List.prefix_refl _

theorem grows_switchTo : Grows d (d.switchTo t) :=
  ⟨le_rfl, fun _ _ => rfl, fun _ _ => rfl, fun _ => id, fun _ => id, fun _ => List.prefix_refl _,
    le_rfl, fun _ _ => id, List.prefix_refl _⟩

theorem grows_warn (c : Concern) (span : Span) : Grows d (d.warn c span) :=
  ⟨le_rfl, fun _ _ => rfl, fun _ _ => rfl, fun _ => id, fun _ => id, fun _ => List.prefix_refl _,
    le_rfl, fun _ _ => id, by simp [warn]⟩

theorem grows_addLocal {n : String} (type : TypeRef) (new : d.locals.find? n = none) :
    Grows d (d.addLocal n type) :=
  ⟨le_rfl, fun _ _ => rfl, fun _ _ => rfl, fun _ => id, fun _ => id, fun _ => List.prefix_refl _,
    le_rfl, fun _ ⟨_, _⟩ h => Locals.find?_add_of_some new h, List.prefix_refl _⟩

theorem grows_enterUnreachable : Grows d d.enterUnreachable :=
  (grows_spawnFresh _ _).trans grows_switchTo

end Draft
end ClassAsm
