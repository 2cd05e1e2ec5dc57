import ClassAsm.Proofs.Bounds.Classes
import ClassAsm.Proofs.Code.References
import ClassAsm.Proofs.Program.Members

/-! The numbers in the bodies of methods. A type comes into a body by its name, by a field, by a
signature or from a built-in class, and in each case its class is there. So the locals have types
with classes wherever the compilation is, and each of them has the slot that its name is found by. -/

namespace ClassAsm

variable {n : Nat}

/-- The types of the locals have classes below a number. -/
def Locals.Below (n : Nat) (l : Locals) : Prop := ∀ x ∈ l.toList, x.2.cls < n

namespace Locals

variable {l : Locals}

theorem below_empty : Below n {} := nofun

theorem Below.add (h : l.Below n) {type : TypeRef} (ht : type.cls < n) {name : String}
    (new : l.find? name = none) : (l.add name type new).Below n := by
  rw [Below, toList_add new]
  exact List.forall_mem_append.2 ⟨h, List.forall_mem_singleton.2 ht⟩

theorem Below.find? (h : l.Below n) {name : String} {slot : Nat} {type : TypeRef}
    (hf : l.find? name = some (slot, type)) : type.cls < n :=
  h (name, type) (Array.mem_toList_iff.2 (Array.mem_of_getElem? (find?_eq_some_iff.1 hf)))

end Locals

/-! Expressions. -/

namespace Scope

/-- The declarations around an expression have the classes of all types in them. -/
structure Closed (s : Scope) : Prop where
  registry : s.registry.Closed
  builtins : s.builtins.Below s.registry.classes.size
  locals : s.locals.Below s.registry.classes.size

variable {s : Scope} {standIn : StandIn}

theorem cls_loadLocal (slot : Nat) (type : TypeRef) :
    (s.loadLocal slot type).type.cls = type.cls := by
  unfold loadLocal
  split <;> rfl

namespace Closed

variable (h : s.Closed)

include h

theorem nameCode {name : String} {span : Span} {c : Code}
    (hc : s.nameCode standIn name span = .ok c) : c.type.cls < s.registry.classes.size := by
  unfold Scope.nameCode at hc
  split at hc
  · next found =>
    cases hc
    rw [cls_loadLocal]
    exact h.locals.find? found
  dsimp only at hc
  split at hc
  · cases hc
  next f hf =>
  obtain ⟨cls, hcls, member⟩ := exists_field hf
  have below := (h.registry.class? hcls).fields f member
  split at hc
  · cases hc
    exact below
  split at hc
  · cases hc
    exact below
  split at hc
  · cases hc
  · obtain ⟨_, -, rfl⟩ := map_eq_ok.1 hc
    exact below

theorem operator {t : TypeRef} {op : Operation} {span : Span} {m : Method}
    (hm : s.operator t op span = .ok m) : m.sig.Below s.registry.classes.size := by
  obtain ⟨cls, hcls, found⟩ := Option.bind_eq_some_iff.1 (operator_eq_ok.1 hm).1
  exact (h.registry.class? hcls).sigs m (Class.mem_of_operator? found)

theorem codeWith {e : Expr} {c : Code} (hc : s.codeWith standIn e = .ok c) :
    c.type.cls < s.registry.classes.size := by
  cases e with
  | int v =>
    simp only [Scope.codeWith, Except.ok.injEq, intCode] at hc
    split at hc
    · exact hc ▸ h.builtins.i32
    · exact hc ▸ h.builtins.i64
  | float v =>
    simp only [Scope.codeWith, Except.ok.injEq, floatCode] at hc
    split at hc
    · exact hc ▸ h.builtins.f64
    · exact hc ▸ h.builtins.f32
  | str v =>
    simp only [Scope.codeWith, Except.ok.injEq] at hc
    exact hc ▸ h.builtins.string
  | ident name =>
    rw [Scope.codeWith] at hc
    exact h.nameCode hc
  | binary op left right =>
    simp only [Scope.codeWith, bind_eq_ok, needValue_eq_ok] at hc
    obtain ⟨l, -, _, ⟨-, rfl⟩, m, hm, r, -, _, ⟨-, rfl⟩, hc⟩ := hc
    split at hc
    · cases hc
    cases hc
    exact (h.operator hm).result
  | unary op operand =>
    simp only [Scope.codeWith, bind_eq_ok, needValue_eq_ok] at hc
    obtain ⟨o, ho, _, ⟨-, rfl⟩, hc⟩ := hc
    cases op with
    | not =>
      obtain ⟨m, hm, hc⟩ := bind_eq_ok.1 hc
      cases hc
      exact (h.operator hm).result
    | neg | pos =>
      -- the one case where the type is that of a part of the expression
      dsimp only at hc
      split at hc <;> cases hc
      exact (codeWith ho :)
  | call name nameSpan args =>
    simp only [Scope.codeWith, bind_eq_ok] at hc
    obtain ⟨sig, hsig, hc⟩ := hc
    split at hc
    · cases hc
    obtain ⟨_, -, hc⟩ := bind_eq_ok.1 hc
    cases hc
    obtain ⟨cls, m, hcls, hm, rfl⟩ := callee_eq_ok hsig
    exact ((h.registry.class? hcls).sigs m hm).result
  | cast operand target =>
    simp only [Scope.codeWith, bind_eq_ok, needValue_eq_ok] at hc
    obtain ⟨_, -, _, ⟨-, rfl⟩, type, resolved, hc⟩ := hc
    split at hc
    · cases hc
      exact h.registry.resolve? (resolveType_eq_ok.1 resolved)
    · cases hc

theorem codeInside {n : Nat} {inlining : List String} {e : Expr} {c : Code}
    (hc : s.codeInside n inlining e = .ok c) : c.type.cls < s.registry.classes.size := by
  cases n <;> exact h.codeWith hc

theorem valueCode {e : Expr} {c : Code} (hc : s.valueCode e = .ok c) :
    c.type.cls < s.registry.classes.size :=
  h.codeInside (valueCode_eq_ok.1 hc).1

end Closed

theorem operator_second {t : TypeRef} {op : BinaryOp} {span : Span} {m : Method}
    (h : s.operator t op.operation span = .ok m) : ∃ p, m.sig.params[1]? = some p := by
  have two : op.operation.arity = 2 := by cases op <;> rfl
  have arity := (operator_eq_ok.1 h).2
  exact ⟨_, List.getElem?_eq_getElem (by omega)⟩

end Scope

/-! Bodies. -/

/-- What is at the numbers of a method that is being compiled, and in its signature, is there. -/
structure Site.InRange (s : Site) : Prop where
  registry : s.registry.Closed
  builtins : s.builtins.Below s.registry.classes.size
  owner : s.owner < s.registry.classes.size
  nspace : s.nspace < s.registry.namespaces.length
  sig : s.sig.Below s.registry.classes.size

namespace Site.InRange

variable {site : Site} (h : site.InRange)

include h

theorem scope {l : Locals} (hl : l.Below site.registry.classes.size) : (site.scope l).Closed :=
  ⟨h.registry, h.builtins, hl⟩

theorem lasts : Draft.Lasts site (Locals.Below site.registry.classes.size) where
  resolved new hl ht := hl.add (h.registry.resolve? (Scope.resolveType_eq_ok.1 ht)) new
  value new hl hc := hl.add ((h.scope hl).valueCode hc) new

/-- The compiled method has the signature that it was declared with, and locals with classes. -/
theorem compile {m m' : Method} {source : MethodSource} {labels labels' : Nat}
    {warnings warnings' : Array Warning} (sig : site.sig = m.sig)
    (hm : m.compile site source labels warnings = .ok (m', labels', warnings')) :
    m'.sig.Below site.registry.classes.size ∧
      ∀ l ∈ m'.locals, l.2.cls < site.registry.classes.size := by
  obtain ⟨locals, same, below⟩ := h.lasts.compile Locals.below_empty
    (fun p hp l name new hl => hl.add (h.sig.params p hp) new) hm
  refine ⟨?_, same ▸ below⟩
  rw [(Method.sig_compile hm).1, ← sig]
  exact h.sig

end Site.InRange
end ClassAsm
