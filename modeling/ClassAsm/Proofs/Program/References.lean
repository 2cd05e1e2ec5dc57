import ClassAsm.Proofs.Method.References
import ClassAsm.Proofs.Program.Emitted

/-! Every reference of an accepted program is resolved. Calls are written while the methods they name
are still to be compiled; in the finished program each of them fits exactly one method of the
assembly text, and each access to a field fits a field of the class that it stands in. -/

namespace ClassAsm

/-- The field that an instruction accesses, and whether it takes it to be static. -/
def Instruction.field? : Instruction → Option (Bool × String)
  | ldsfld target | stsfld target => some (true, target)
  | ldfld target | stfld target => some (false, target)
  | _ => none

def Builtins.voidClass : ClassId := (install Registry.empty).2.void

namespace Program

/-- The call fits one of the methods in the assembly text and no other: it has a receiver if the
head of the method says so, takes the arguments with the receiver, and leaves a value unless the
method returns nothing. -/
def CallsOne (p : Program) (target : String) (pops pushes : Nat) : Prop :=
  ∃ m, p.emitted.filter (fun m => p.registry.callTarget m.sig == target) = [m] ∧
    ("instance ".toList <+: target.toList ↔
      Registry.SaysInstance (p.registry.methodHeader m.sig)) ∧
    pops = m.sig.params.length + (if m.sig.takesReceiver then 1 else 0) ∧
    pushes = if m.sig.returnType.cls = Builtins.voidClass then 0 else 1

structure Resolved (p : Program) : Prop where
  calls : ∀ m ∈ p.methods, ∀ segments, m.body = .segments segments → ∀ s ∈ segments,
    ∀ target pops pushes, .call target pops pushes ∈ s.code → p.CallsOne target pops pushes
  fields : ∀ id c, p.registry.class? id = some c → ∀ m ∈ c.methods, ∀ segments,
    m.body = .segments segments → ∀ s ∈ segments, ∀ i ∈ s.code, ∀ isStatic target,
    i.field? = some (isStatic, target) →
      ∃ f ∈ c.fields, f.isStatic = isStatic ∧ target = p.registry.fieldTarget id f
  /-- What is not built in has segments. -/
  compiled : ∀ m ∈ p.methods, m.sig.isBuiltin = false → ∃ segments, m.body = .segments segments

theorem filter_eq_singleton {α β : Type} [DecidableEq β] {f : α → β} {l : List α} {a : α}
    (h : (l.map f).Nodup) (ha : a ∈ l) : l.filter (fun x => f x == f a) = [a] := by
  induction l with
  | nil => cases ha
  | cons b l ih =>
    obtain ⟨apart, rest⟩ := List.nodup_cons.1 h
    rcases List.mem_cons.1 ha with rfl | ha
    · have others : l.filter (fun x => f x == f a) = [] := by
        rw [List.filter_eq_nil_iff]
        intro x hx same
        exact apart (eq_of_beq same ▸ List.mem_map_of_mem hx)
      rw [List.filter_cons_of_pos (by simp), others]
    · have other : f b ≠ f a := fun same => apart (same ▸ List.mem_map_of_mem ha)
      rw [List.filter_cons_of_neg (by simpa using other), ih rest ha]

theorem Declared.Becomes.done {d : Declared} {options : Options} {o : Outline} {c : Class}
    (h : d.Becomes options o c) (ho : o.cls.Owns) : c.Done := by
  refine ⟨fun m hm => ?_, fun m hm => ?_⟩
  · have hs : m.sig ∈ o.cls.methods.map (·.sig) := h.sigs ▸ List.mem_map_of_mem hm
    obtain ⟨m', hm', he⟩ := List.mem_map.1 hs
    obtain ⟨hns, howner, hname, -⟩ := ho.sigs m' hm'
    rw [h.eq, ← he]
    exact ⟨hns, howner, hname⟩
  · obtain ⟨i, hi, rfl⟩ := List.mem_iff_getElem.1 hm
    obtain ⟨_, _, _, _, hc⟩ := h.methods.get (h.methods.length_eq ▸ hi) hi
    exact Method.isEmitted_iff.2 (Method.sig_compile hc).2

theorem Declared.sees {d : Declared} (ordered : d.Ordered) (owned : d.Owned) {options : Options}
    {o : Outline} (ho : o ∈ d.outlines) {m : Member} (hm : m ∈ d.membersOf options o) :
    m.site.Sees ∧ m.site.owner = o.id ∧ m.site.registry = d.registry ∧
      m.site.builtins = d.builtins := by
  rw [(sits_of_mem hm).site]
  refine ⟨fun locals => ⟨ordered.installed, ?_, ?_⟩, rfl, rfl, rfl⟩
  · intro (id : Nat) op m hn hop
    obtain ⟨c, hc, hop⟩ := Option.bind_eq_some_iff.1 hop
    by_cases hi : 6 ≤ id
    · have late := hc
      rw [Site.scope, Registry.class?, ← Array.getElem?_toList, ordered.classes,
        List.getElem?_append_right (by simpa [Registry.size_base] using hi)] at late
      obtain ⟨o, ho, rfl⟩ := List.mem_map.1 (List.mem_of_getElem? late)
      exact (owned.owns o ho).isOperator hop
    · -- of the built-in classes only the numeric ones have methods
      have early : Registry.base.class? id = some c := by
        rw [← ordered.declares.base id (not_le.1 hi)]
        exact hc
      have other : 4 ≤ id := by
        by_contra hlt
        obtain ⟨n, rfl⟩ := Numeric.exists_classId (not_le.1 hlt)
        rw [Site.scope, ordered.builtins, Numeric.numeric?_eq_some_iff.2 rfl] at hn
        cases hn
      have := Class.mem_of_operator? hop
      rw [Registry.methods_base early other] at this
      cases this
  · intro c hc m hm
    have own := (ordered.class?_id ho).2
    rw [Site.scope, own] at hc
    obtain rfl := Option.some.inj hc
    exact (ordered.linked o ho).pending hm

variable {options : Options} {d : Declared} {p : Program}

theorem Finished.done (h : Finished options d p) (ordered : d.Ordered) (owned : d.Owned) :
    p.registry.Done := by
  intro id c hi hc
  obtain ⟨lt, -⟩ | ⟨o, ho, -, -, hb⟩ := h.class_cases ordered hc
  · exact absurd lt (not_lt.2 hi)
  · exact hb.done (owned.owns o ho)

theorem Finished.housed (h : Finished options d p) (owned : d.Owned) : p.registry.Housed :=
  owned.housed.of_agrees h.agrees h.namespaces

theorem Finished.class?_id (h : Finished options d p) (ordered : d.Ordered) {o : Outline}
    (ho : o ∈ d.outlines) : ∃ c, p.registry.class? o.id = some c ∧ d.Becomes options o c := by
  obtain ⟨hi, hc⟩ := ordered.class?_id ho
  have := h.agrees o.id
  rw [hc] at this
  obtain ⟨c, hc, -⟩ := Option.map_eq_some_iff.1 this
  obtain ⟨lt, -⟩ | ⟨o', ho', hid, -, hb⟩ := h.class_cases ordered hc
  · exact absurd lt (not_lt.2 hi)
  · -- numbers are given once
    have nodup : (d.outlines.map (·.id)).Nodup := ordered.ids ▸ List.nodup_range'
    obtain rfl := List.inj_on_of_nodup_map nodup ho' ho hid
    exact ⟨c, hc, hb⟩

theorem Finished.known (h : Finished options d p) (ordered : d.Ordered) (owned : d.Owned)
    {id : Nat} {c : Class} (hc : p.registry.class? id = some c) {m : Method} (hm : m ∈ c.methods)
    {segments : List Segment} (hb : m.body = .segments segments) :
    (∃ c', d.registry.class? id = some c' ∧ c'.fields = c.fields) ∧
      ∀ s ∈ segments, AllKnown d.registry Builtins.voidClass id s.code := by
  obtain ⟨-, base⟩ | ⟨o, ho, rfl, -, becomes⟩ := h.class_cases ordered hc
  · obtain ⟨code, inline⟩ := Registry.inline_of_class?_base base hm
    rw [inline] at hb
    cases hb
  · have own := (ordered.class?_id ho).2
    obtain ⟨i, hi, rfl⟩ := List.mem_iff_getElem.1 hm
    have lt : i < (d.membersOf options o).length := becomes.methods.length_eq ▸ hi
    obtain ⟨_, _, _, _, compiled⟩ := becomes.methods.get lt hi
    obtain ⟨sees, owner, registry, builtins⟩ :=
      Declared.sees ordered owned ho (List.getElem_mem lt)
    have known := Method.compile_known sees ⟨o.cls, by rw [registry, owner]; exact own⟩ compiled hb
    rw [registry, owner, builtins, ordered.builtins] at known
    exact ⟨⟨o.cls, own, by rw [becomes.eq]; rfl⟩, known⟩

/-- A declared method is emitted in its class under its own signature, and no other is called like
it. -/
theorem Finished.exists_emitted (h : Finished options d p) (ordered : d.Ordered) (owned : d.Owned)
    {o : Outline} (ho : o ∈ d.outlines) {m : Method} (hm : m ∈ o.cls.methods) :
    ∃ c m', p.registry.class? o.id = some c ∧ m' ∈ c.methods ∧ m'.isEmitted = true ∧ m'.sig = m.sig ∧
      p.emitted.filter (fun x => p.registry.callTarget x.sig == p.registry.callTarget m.sig) =
        [m'] := by
  obtain ⟨c, hc, becomes⟩ := h.class?_id ordered ho
  -- the finished class has a method with the signature
  have hs : m.sig ∈ c.methods.map (·.sig) :=
    becomes.sigs ▸ List.mem_map_of_mem hm
  obtain ⟨m', hm', same⟩ := List.mem_map.1 hs
  have housed := h.housed owned
  have done := h.done ordered owned
  have late := (ordered.class?_id ho).1
  refine ⟨c, m', hc, hm', (done _ c late hc).emitted m' hm', same, ?_⟩
  rw [← same]
  exact filter_eq_singleton (nodup_targets housed done)
    ((mem_emitted housed done).2 ⟨_, c, late, hc, hm'⟩)

theorem Finished.emits (h : Finished options d p) (ordered : d.Ordered) (owned : d.Owned)
    {o : Outline} (ho : o ∈ d.outlines) {m : Method} (hm : m ∈ o.cls.methods) :
    ∃ m', m'.sig = m.sig ∧
      p.emitted.filter (fun x => p.registry.callTarget x.sig == p.registry.callTarget m.sig) =
        [m'] := by
  obtain ⟨-, m', -, -, -, same, one⟩ := h.exists_emitted ordered owned ho hm
  exact ⟨m', same, one⟩

/-- A method that is still to be compiled is of a declared class. -/
theorem Finished.exists_outline (h : Finished options d p) (ordered : d.Ordered) {id : ClassId}
    {c : Class} (hc : d.registry.class? id = some c) {m : Method} (hm : m ∈ c.methods)
    (pending : m.body = .pending) : ∃ o ∈ d.outlines, o.id = id ∧ o.cls = c := by
  have agrees := h.agrees id
  rw [hc] at agrees
  obtain ⟨c', hc', -⟩ := Option.map_eq_some_iff.1 agrees
  obtain ⟨early, base⟩ | ⟨o, ho, rfl, -, -⟩ := h.class_cases ordered hc'
  · rw [ordered.declares.base id early] at hc
    obtain ⟨code, inline⟩ := Registry.inline_of_class?_base hc hm
    rw [pending] at inline
    cases inline
  · exact ⟨o, ho, rfl, Option.some.inj ((ordered.class?_id ho).2.symm.trans hc)⟩

/-- A method that was declared is called by what was written for it. -/
theorem Finished.callsOne (h : Finished options d p) (ordered : d.Ordered) (owned : d.Owned)
    {target : String} {pops pushes : Nat}
    (hk : d.registry.HasMethod Builtins.voidClass target pops pushes) :
    p.CallsOne target pops pushes := by
  obtain ⟨id, c, m, hc, hm, pending, rfl, hpops, hpushes⟩ := hk
  obtain ⟨o, ho, -, rfl⟩ := h.exists_outline ordered hc hm pending
  obtain ⟨m', same, one⟩ := h.emits ordered owned ho hm
  refine ⟨m', ?_, ?_, ?_, ?_⟩
  · rw [← h.agrees.callTarget]
    exact one
  · rw [← same, ← h.agrees.callTarget, Registry.saysInstance_methodHeader]
    exact Registry.instance_callTarget (h.housed owned).writes m'.sig
  · rw [hpops, ← same]
    rfl
  · rw [hpushes, ← same]

/-- Every call fits one method of the assembly text, every access to a field a field of its class,
and nothing is left to be compiled. -/
theorem references_resolve {source : List Char} {options : Options} {tokens : List Token}
    {items : List Item} {p : Program} {warnings : Array Warning}
    (lexed : (Lexed.ofSource source).tokens = .ok tokens)
    (read : Item.ofTokens tokens = .ok items)
    (built : build options items = .ok (p, warnings)) : p.Resolved := by
  obtain ⟨d, declared, finished⟩ := build_finished built
  have ordered := declare_ordered declared
  have owned := declare_owned (Item.isWorded_of_source lexed read) declared
  refine ⟨?_, ?_, ?_⟩
  · intro m hm segments hb s hs target pops pushes call
    obtain ⟨c, hc, hm⟩ := List.mem_flatMap.1 hm
    obtain ⟨id, hid⟩ := List.mem_iff_getElem?.1 hc
    rw [Array.getElem?_toList] at hid
    have known := (finished.known ordered owned hid hm hb).2 s hs _ call
    exact finished.callsOne ordered owned known
  · intro id c hc m hm segments hb s hs i hi isStatic target access
    obtain ⟨⟨c₀, own, fields⟩, known⟩ := finished.known ordered owned hc hm hb
    have field : d.registry.HasField id isStatic target := by
      have := known s hs i hi
      cases i <;> cases access <;> exact this
    obtain ⟨c', f, hc', hf, kind, rfl⟩ := field
    rw [own] at hc'
    obtain rfl := Option.some.inj hc'
    exact ⟨f, fields ▸ hf, kind, (finished.agrees.fieldTarget id f).symm⟩
  · intro m hm user
    obtain ⟨c, hc, hm⟩ := List.mem_flatMap.1 hm
    obtain ⟨id, hid⟩ := List.mem_iff_getElem?.1 hc
    rw [Array.getElem?_toList] at hid
    obtain ⟨early, base⟩ | ⟨o, ho, -, -, becomes⟩ := finished.class_cases ordered hid
    · obtain ⟨n, op, key, code, rfl⟩ := Registry.template_base
        (Array.mem_toList_iff.2 (Array.mem_of_getElem? base)) hm
      cases user
    · have done := becomes.done (owned.owns o ho)
      exact Method.isEmitted_iff.1 (done.emitted m hm)

/-- A class with an operator that uses itself, fields of both kinds and a method with a receiver. -/
def tally : List Char :=
  ("class Tally: field public static total i32 = 0 field public last i32 " ++
    "def public class Tally opAdd(a: Tally, b: Tally): return a + b ; " ++
    "def public i32 note(n: i32): last = n total = total + n return note(last) ; ;").toList

theorem references_resolve_tally : ∃ tokens items p warnings,
    (Lexed.ofSource tally).tokens = .ok tokens ∧ Item.ofTokens tokens = .ok items ∧
      build {} items = .ok (p, warnings) ∧ p.Resolved := by
  obtain ⟨⟨p, warnings⟩, h⟩ := exists_eq_ok
    (x := (Lexed.ofSource tally).tokens >>= fun tokens => Item.ofTokens tokens >>= fun items =>
      (build {} items).mapError Stop.failure) (by
        unfold tally
        simp only [String.toList_append]
        repeat rewrite [String.toList_ofList]
        decide +kernel)
  simp only [bind_eq_ok, mapError_eq_ok] at h
  obtain ⟨tokens, lexed, items, read, built⟩ := h
  exact ⟨tokens, items, p, warnings, lexed, read, built, references_resolve lexed read built⟩

end Program
end ClassAsm
