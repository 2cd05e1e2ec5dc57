import ClassAsm.Proofs.Assembly.Declarations
import ClassAsm.Proofs.Kinds.Programs
import ClassAsm.Proofs.Program.Origins
import ClassAsm.Proofs.Program.References

/-! The visibility of what is called. A call by its name stays in the class. An operator is looked up
in the class of its first operand, which may be any class, and whether its method is public is not asked
for: so the calls of private methods of other classes are exactly those that operators make. -/

namespace ClassAsm

open Registry Draft

theorem Registry.Housed.id_unique {r : Registry} (h : r.Housed) {id id' : Nat} {c c' : Class}
    (late : 6 ≤ id) (late' : 6 ≤ id') (hc : r.class? id = some c) (hc' : r.class? id' = some c')
    (nspace : c.nspace = c'.nspace) (name : c.name = c'.name) : id = id' := by
  obtain ⟨n, hn, listed, own⟩ := h.listed late hc
  obtain ⟨n', hn', listed', own'⟩ := h.listed late' hc'
  obtain rfl := List.inj_on_of_nodup_map h.nspaces hn hn' (own.trans (nspace.trans own'.symm))
  rw [← n.indexes] at listed listed'
  rw [name, listed'] at listed
  exact (Option.some.inj listed).symm

namespace Program

def MayCall (p : Program) (owner : ClassId) (target : String) : Prop :=
  ∃ m, p.emitted.filter (fun m => p.registry.callTarget m.sig == target) = [m] ∧
    ((∃ c, p.registry.class? owner = some c ∧ m ∈ c.methods) ∨ m.sig.isPublic = true)

end Program

namespace Scope.Applies

variable {s : Scope} {inlining : List String} {op : Operation} {operands : List Expr}
  {values values' : List Code} {m m' : Method}

theorem unique (h : s.Applies inlining op operands values m)
    (h' : s.Applies inlining op operands values' m') : values = values' ∧ m = m' := by
  have same : values = values' := by
    have gives := h.gives
    have gives' := h'.gives
    clear h h'
    induction gives generalizing values' with
    | nil =>
      cases gives'
      rfl
    | cons first _ ih =>
      cases gives' with
      | cons first' rest' =>
        rw [Except.ok.inj (first.1.symm.trans first'.1), ih rest']
  subst same
  obtain ⟨v, c, head, hc, found⟩ := h.found
  obtain ⟨v', c', head', hc', found'⟩ := h'.found
  obtain rfl := Option.some.inj (head.symm.trans head')
  obtain rfl := Option.some.inj (hc.symm.trans hc')
  exact ⟨rfl, Option.some.inj (found.symm.trans found')⟩

end Scope.Applies

namespace Job

/-- A private method of another class is called for an operator in the method, or in a default that
stands for a field in it: the class is that of the first operand. -/
inductive Trespasses (j : Job) : String → Prop where
  | operator {l : Locals} {e use : Expr} {inlining : List String} {op : Operation}
      {operands : List Expr} {first : Code} {values : List Code} {m : Method} (has : j.Has l e)
      (parts : (j.site.scope l).Parts ([], e) (inlining, use)) (uses : use.Uses op operands)
      (applies : (j.site.scope l).Applies inlining op operands (first :: values) m)
      (other : first.type.cls ≠ j.site.owner) (hidden : m.sig.isPublic = false) :
      Trespasses j (j.site.registry.callTarget m.sig)

end Job

namespace Program

variable {options : Options} {items : List Item} {d : Declared} {p : Program}

theorem Finished.id_unique (h : Finished options d p) (ordered : d.Ordered) (owned : d.Owned)
    {id id' : Nat} {c c' : Class} {m m' : Method} (hc : p.registry.class? id = some c)
    (hm : m ∈ c.methods) (hc' : p.registry.class? id' = some c') (hm' : m' ∈ c'.methods)
    (emitted : m.isEmitted = true) (emitted' : m'.isEmitted = true) (same : m.sig = m'.sig) :
    id = id' := by
  have late {id : Nat} {c : Class} {m : Method} (hc : p.registry.class? id = some c)
      (hm : m ∈ c.methods) (emitted : m.isEmitted = true) : 6 ≤ id := by
    obtain ⟨-, base⟩ | ⟨-, -, -, late, -⟩ := h.class_cases ordered hc
    · obtain ⟨code, inline⟩ := Registry.inline_of_class?_base base hm
      rw [Method.isEmitted, inline] at emitted
      cases emitted
    · exact late
  have first := late hc hm emitted
  have second := late hc' hm' emitted'
  have done := h.done ordered owned
  obtain ⟨nspace, owner, -⟩ := (done id c first hc).sigs m hm
  obtain ⟨nspace', owner', -⟩ := (done id' c' second hc').sigs m' hm'
  rw [same] at nspace owner
  exact (h.housed owned).id_unique first second hc hc' (nspace.symm.trans nspace')
    (owner.symm.trans owner')

theorem Finished.mayCall_iff (h : Finished options d p) (ordered : d.Ordered) (owned : d.Owned)
    {o : Outline} (ho : o ∈ d.outlines) {m : Method} (hm : m ∈ o.cls.methods) {owner : ClassId} :
    p.MayCall owner (p.registry.callTarget m.sig) ↔ o.id = owner ∨ m.sig.isPublic = true := by
  obtain ⟨c, m', hc, hm', emitted, same, one⟩ := h.exists_emitted ordered owned ho hm
  constructor
  · rintro ⟨m₁, one', allowed⟩
    obtain rfl : m' = m₁ := by simpa using one.symm.trans one'
    refine allowed.imp ?_ fun visible => same ▸ visible
    rintro ⟨c₁, hc₁, hm₁⟩
    exact h.id_unique ordered owned hc hm' hc₁ hm₁ emitted emitted rfl
  · intro allowed
    refine ⟨m', one, allowed.imp ?_ fun visible => same ▸ visible⟩
    rintro rfl
    exact ⟨c, hc, hm'⟩

theorem Finished.exists_job (h : Finished options d p) (ordered : d.Ordered) (owned : d.Owned)
    (declared : declare items = .ok d) {warnings : Array Warning}
    (built : build options items = .ok (p, warnings)) {id : ClassId} {c : Class}
    (hc : p.registry.class? id = some c) {m : Method} (hm : m ∈ c.methods)
    (emitted : m.isEmitted = true) : ∃ j ∈ jobs options items,
      (∃ labels ws, j.compile = .ok (m, labels, ws)) ∧
        ∃ o ∈ d.outlines, o.id = id ∧ j.toMember ∈ d.membersOf options o := by
  obtain ⟨segments, hb⟩ := Method.isEmitted_iff.1 emitted
  have mem : m ∈ p.methods := List.mem_flatMap.2 ⟨c, Array.mem_toList_iff.2 (Array.mem_of_getElem? hc), hm⟩
  obtain ⟨j, hj, labels, ws, compiled⟩ := Program.exists_job built mem hb
  obtain ⟨d', declared', o, ho, member⟩ := Program.exists_outline hj
  obtain rfl : d = d' := Except.ok.inj (declared.symm.trans declared')
  refine ⟨j, hj, ⟨labels, ws, compiled⟩, o, ho, ?_, member⟩
  have listed := (List.of_mem_zip (Declared.sits_of_mem member).listed).1
  obtain ⟨c', m', hc', hm', emitted', same, -⟩ := h.exists_emitted ordered owned ho listed
  exact h.id_unique ordered owned hc' hm' hc hm emitted' emitted
    (same.trans (Method.sig_compile compiled).1.symm)

/-- A call in a method may be made from its class, or an operator makes it. -/
theorem Finished.mayCall_or_trespasses (h : Finished options d p) (ordered : d.Ordered)
    (owned : d.Owned) {o : Outline} (ho : o ∈ d.outlines) {j : Job}
    (member : j.toMember ∈ d.membersOf options o) {target : String} {pops pushes : Nat}
    (origin : j.Origin (.call target pops pushes)) : p.MayCall o.id target ∨ j.Trespasses target := by
  obtain ⟨-, owner, registry, builtins⟩ := Declared.sees ordered owned ho member
  have hs : j.site.registry.Installed j.site.builtins := by
    rw [registry, builtins]
    exact ordered.installed
  have calls (sig : Signature) : j.site.registry.callTarget sig = p.registry.callTarget sig := by
    rw [registry]
    exact (h.agrees.callTarget sig).symm
  cases origin with
  | argument mem =>
    obtain ⟨k, -, mem⟩ := List.mem_flatMap.1 mem
    simp at mem
  | inner inner => cases inner
  | @value l e c _ has hc mem =>
    rw [Scope.code_eq_codeAmid] at hc
    obtain ⟨⟨inlining, use⟩, parts, puts⟩ := Scope.exists_puts hs (x := ([], e)) hc mem
    cases puts with
    | inner inner => cases inner
    | call called =>
      obtain ⟨own, m, hown, hm, rfl⟩ := Scope.callee_eq_ok (Scope.calledWith_eq_ok.1 called).1
      change j.site.registry.class? j.site.owner = some own at hown
      rw [registry, owner, (ordered.class?_id ho).2] at hown
      obtain rfl := Option.some.inj hown
      refine .inl ?_
      change p.MayCall o.id (j.site.registry.callTarget m.sig)
      rw [calls]
      exact (h.mayCall_iff ordered owned ho hm).2 (.inl rfl)
    | @operator _ _ op operands values m uses applies pending =>
      obtain ⟨first, cls, head, hcls, found⟩ := applies.found
      obtain ⟨rest, rfl⟩ := List.head?_eq_some_iff.1 head
      change j.site.registry.class? first.type.cls = some cls at hcls
      have hm := Class.mem_of_operator? found
      obtain ⟨o', ho', place, rfl⟩ := h.exists_outline ordered (registry ▸ hcls) hm pending
      change p.MayCall o.id (j.site.registry.callTarget m.sig) ∨
        j.Trespasses (j.site.registry.callTarget m.sig)
      rw [or_iff_not_imp_left]
      intro refused
      rw [calls, h.mayCall_iff ordered owned ho' hm, not_or] at refused
      refine .operator has parts uses applies ?_ (by simpa using refused.2)
      rw [owner, ← place]
      exact refused.1

theorem Finished.called_of_trespasses (h : Finished options d p) (ordered : d.Ordered)
    (owned : d.Owned) {o : Outline} (ho : o ∈ d.outlines) {j : Job}
    (member : j.toMember ∈ d.membersOf options o) {m : Method} {labels : Nat} {ws : Array Warning}
    (compiled : j.compile = .ok (m, labels, ws)) {target : String} (trespasses : j.Trespasses target) :
    (∃ s ∈ m.segments, ∃ pops pushes, .call target pops pushes ∈ s.code) ∧ ¬ p.MayCall o.id target := by
  obtain ⟨-, owner, registry, builtins⟩ := Declared.sees ordered owned ho member
  have hs : j.site.registry.Installed j.site.builtins := by
    rw [registry, builtins]
    exact ordered.installed
  cases trespasses with
  | @operator l e use inlining op operands first values m' has parts uses applies other hidden =>
    obtain ⟨v, cls, head, hcls, found⟩ := applies.found
    obtain rfl : first = v := Option.some.inj head
    change j.site.registry.class? first.type.cls = some cls at hcls
    -- what numbers do is public
    have pending : m'.body = .pending := by
      obtain ⟨-, -, -, -, visible⟩ | pending := applies.template_or_pending hs
      · rw [hidden] at visible
        cases visible
      · exact pending
    constructor
    · obtain ⟨c, hc, s, mem, stretch⟩ := has.compiles hs compiled
      obtain ⟨values', m₁, applies', within⟩ := Scope.applies_of_parts hc parts uses
      obtain ⟨rfl, rfl⟩ := applies.unique applies'
      rw [Scope.useOperator_of_pending pending] at within
      exact ⟨s, mem, _, _, (within.trans stretch).subset (List.mem_append_right _ List.mem_cons_self)⟩
    · have hm := Class.mem_of_operator? found
      obtain ⟨o', ho', place, rfl⟩ := h.exists_outline ordered (registry ▸ hcls) hm pending
      rw [registry, ← h.agrees.callTarget, h.mayCall_iff ordered owned ho' hm]
      rintro (same | visible)
      · exact other (place.symm.trans (same.trans owner.symm))
      · rw [hidden] at visible
        cases visible

/-- In a program that is accepted the calls of methods that are private in another class are exactly
those that operators make. -/
theorem calls_respect_visibility_but_for_operators {source : List Char} {tokens : List Token}
    {warnings : Array Warning} (lexed : (Lexed.ofSource source).tokens = .ok tokens)
    (read : Item.ofTokens tokens = .ok items)
    (built : build options items = .ok (p, warnings)) :
    ∀ id c, p.registry.class? id = some c → ∀ m ∈ c.methods, ∀ segments,
      m.body = .segments segments → ∃ j ∈ jobs options items, j.site.owner = id ∧
        (∃ labels ws, j.compile = .ok (m, labels, ws)) ∧
        ∀ target, ((∃ s ∈ segments, ∃ pops pushes, .call target pops pushes ∈ s.code) ∧
          ¬ p.MayCall id target) ↔ j.Trespasses target := by
  intro id c hc m hm segments hb
  obtain ⟨d, declared, finished⟩ := build_finished built
  have ordered := declare_ordered declared
  have owned := declare_owned (Item.isWorded_of_source lexed read) declared
  obtain ⟨j, hj, ⟨labels, ws, compiled⟩, o, ho, rfl, member⟩ :=
    finished.exists_job ordered owned declared built hc hm (Method.isEmitted_iff.2 ⟨segments, hb⟩)
  have same : m.segments = segments := by rw [Method.segments, hb]
  refine ⟨j, hj, (Declared.sees ordered owned ho member).2.1, ⟨labels, ws, compiled⟩,
    fun target => ⟨?_, ?_⟩⟩
  · rintro ⟨⟨s, mem, pops, pushes, call⟩, refused⟩
    have linked : j.IsLinked := fun decl hd => params_of_mem_jobs hj hd
    have origin := Job.exists_origin (installed_of_mem_jobs hj) linked (receiver_of_initializer hj)
      compiled s (same ▸ mem) _ call
    exact (finished.mayCall_or_trespasses ordered owned ho member origin).resolve_left refused
  · intro trespasses
    have called := finished.called_of_trespasses ordered owned ho member compiled trespasses
    rwa [same] at called

/-- A private operator that its class uses, and a public one that another class uses. -/
def lengths : List Char :=
  ("class V: def private class V opadd(a: V, b: V): return a ; " ++
    "def public class V opsub(a: V, b: V): return a + b ; ; " ++
    "class W: def public static V f(v: V): return v - v ; ;").toList

theorem calls_respect_visibility_but_for_operators_lengths : ∃ tokens items p warnings,
    (Lexed.ofSource lengths).tokens = .ok tokens ∧ Item.ofTokens tokens = .ok items ∧
      build {} items = .ok (p, warnings) ∧
      ∀ id c, p.registry.class? id = some c → ∀ m ∈ c.methods, ∀ segments,
        m.body = .segments segments → ∃ j ∈ jobs {} items, j.site.owner = id ∧
          (∃ labels ws, j.compile = .ok (m, labels, ws)) ∧
          ∀ target, ((∃ s ∈ segments, ∃ pops pushes, .call target pops pushes ∈ s.code) ∧
            ¬ p.MayCall id target) ↔ j.Trespasses target := by
  have checked : passes lengths (fun _ _ => true) = true := by
    unfold lengths
    simp only [String.toList_append]
    repeat rewrite [String.toList_ofList]
    decide +kernel
  obtain ⟨tokens, items, p, warnings, lexed, read, built, -⟩ := exists_of_passes checked
  exact ⟨tokens, items, p, warnings, lexed, read, built,
    calls_respect_visibility_but_for_operators lexed read built⟩

/-- The call names one method, and it is neither public nor named like one of the class. -/
def isForeign (p : Program) (c : Class) : Instruction → Bool
  | .call target _ _ =>
    match p.emitted.filter fun m => p.registry.callTarget m.sig == target with
    | [m] => !m.sig.isPublic && c.methods.all (·.sig.name != m.sig.name)
    | _ => false
  | _ => false

theorem exists_of_isForeign {p : Program} {id : ClassId} {c : Class}
    (hc : p.registry.class? id = some c) {i : Instruction} (h : p.isForeign c i = true) :
    ∃ target pops pushes, i = .call target pops pushes ∧ ¬ p.MayCall id target := by
  unfold isForeign at h
  split at h
  · next target pops pushes =>
    refine ⟨target, pops, pushes, rfl, ?_⟩
    split at h
    · next m one =>
      obtain ⟨hidden, apart⟩ := Bool.and_eq_true_iff.1 h
      rintro ⟨m', one', allowed⟩
      obtain rfl : m = m' := by simpa using one.symm.trans one'
      rcases allowed with ⟨c', hc', hm⟩ | visible
      · obtain rfl := Option.some.inj (hc.symm.trans hc')
        simpa using List.all_eq_true.1 apart m hm
      · simp [visible] at hidden
    · cases h
  · cases h

/-- The sum of two values of a class, in another class. -/
def borrowed : List Char :=
  ("class V: def private class V opadd(a: V, b: V): return a ; ; " ++
    "class W: def public static V f(v: V): return v + v ; ;").toList

/-- A private method of one class is called in another. -/
theorem private_operator_called_elsewhere : ∃ tokens items p warnings,
    (Lexed.ofSource borrowed).tokens = .ok tokens ∧ Item.ofTokens tokens = .ok items ∧
      build {} items = .ok (p, warnings) ∧ ∃ id c, p.registry.class? id = some c ∧
        ∃ m ∈ c.methods, ∃ segments, m.body = .segments segments ∧ ∃ s ∈ segments,
          ∃ target pops pushes, .call target pops pushes ∈ s.code ∧ ¬ p.MayCall id target := by
  have checked : passes borrowed (fun _ p => (p.registry.class? 7).any fun c =>
      c.methods.any fun m => m.segments.any fun s => s.code.any (p.isForeign c)) = true := by
    unfold borrowed
    simp only [String.toList_append]
    repeat rewrite [String.toList_ofList]
    decide +kernel
  obtain ⟨tokens, items, p, warnings, lexed, read, built, checked⟩ := exists_of_passes checked
  obtain ⟨c, hc, checked⟩ := (Option.any_eq_true _ _).1 checked
  obtain ⟨m, hm, checked⟩ := List.any_eq_true.1 checked
  obtain ⟨s, hs, checked⟩ := List.any_eq_true.1 checked
  obtain ⟨i, hi, foreign⟩ := List.any_eq_true.1 checked
  obtain ⟨target, pops, pushes, rfl, refused⟩ := exists_of_isForeign hc foreign
  exact ⟨tokens, items, p, warnings, lexed, read, built, 7, c, hc, m, hm, m.segments,
    Method.body_of_mem hs, s, hs, target, pops, pushes, hi, refused⟩

end Program
end ClassAsm
