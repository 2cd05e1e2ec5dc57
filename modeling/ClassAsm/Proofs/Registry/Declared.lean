import ClassAsm.Proofs.Code.Operands
import ClassAsm.Proofs.Registry.Operations
import ClassAsm.Proofs.Registry.Targets

/-! What is declared in a registry. While a program is compiled, one method after the other gets its
segments. Names, types, signatures, operator tables and the templates of built-in operators stay
what they are, and an expression is compiled from these alone: none of what it asks a registry for
shows if a method is compiled already. -/

namespace ClassAsm

/-- A template belongs to the declaration of its method; segments do not. -/
def MethodBody.declared : MethodBody → MethodBody
  | .inline code => .inline code
  | .pending | .segments _ => .pending

/-- The method before it is compiled. -/
def Method.declaration (m : Method) : Method :=
  { sig := m.sig, span := m.span, body := m.body.declared }

@[simp] theorem Method.declaration_declaration (m : Method) :
    m.declaration.declaration = m.declaration := by
  rw [declaration, declaration]
  cases m.body <;> rfl

/-- The class before its methods are compiled. -/
def Class.declaration (c : Class) : Class :=
  { c with methodTable := c.methodTable.map Method.declaration fun _ => rfl }

/-- The registry before any method is compiled. -/
def Registry.declarations (r : Registry) : Registry :=
  { r with classes := r.classes.map Class.declaration }

namespace Class

@[simp] theorem methods_declaration (c : Class) :
    c.declaration.methods = c.methods.map Method.declaration :=
  c.methodTable.toList_map Method.declaration fun _ => rfl

theorem method?_declaration (c : Class) (name : String) :
    c.declaration.method? name = (c.method? name).map Method.declaration := by
  rw [method?_eq, method?_eq, methods_declaration]
  exact List.find?_map ..

/-- A method may be exchanged for one that is declared the same. -/
theorem declaration_updateMethod {c : Class} {m : Method}
    (listed : m.declaration ∈ c.declaration.methods) :
    (c.updateMethod m.sig.name fun _ => m).declaration = c.declaration := by
  refine ext_members rfl rfl ?_
  rw [methods_declaration, methods_updateMethod, methods_declaration, List.map_map]
  refine List.map_congr_left fun m' hm' => ?_
  rw [Function.comp_apply]
  split
  · next named =>
    -- names are unique, so this is the method that is declared the same
    have other : m'.declaration ∈ c.declaration.methods := by
      rw [methods_declaration]
      exact List.mem_map_of_mem hm'
    have same := List.inj_on_of_nodup_map c.declaration.names_nodup other listed named
    have sig : m'.sig = m.sig := (congrArg Method.sig same :)
    rw [sig, same]
  · rfl

theorem operator?_declaration (c : Class) (op : Operation) :
    c.declaration.operator? op = (c.operator? op).map Method.declaration := by
  simp only [operator?, method?_declaration, Option.bind_eq_bind, Option.map_bind, Function.comp_def]
  rfl

end Class

namespace Registry

variable {r : Registry} {id : ClassId}

theorem class?_declarations (r : Registry) (id : ClassId) :
    r.declarations.class? id = (r.class? id).map Class.declaration := Array.getElem?_map ..

/-- What is not said by the methods of a class is said by its declaration. -/
theorem elim_declarations {α : Type} (r : Registry) (id : ClassId) (none' : α) (f : Class → α)
    (hf : ∀ c : Class, f c.declaration = f c) :
    (r.declarations.class? id).elim none' f = (r.class? id).elim none' f := by
  rw [class?_declarations, Option.elim_map]
  exact congrArg (Option.elim _ none') (funext hf)

theorem agrees_declarations (r : Registry) : Agrees r r.declarations := fun id => by
  rw [class?_declarations, Option.map_map]
  rfl

theorem className_declarations (r : Registry) (id : ClassId) :
    r.declarations.className id = r.className id := r.elim_declarations id "" _ fun _ => rfl

theorem showType_declarations (r : Registry) (t : TypeRef) :
    r.declarations.showType t = r.showType t := by
  simp only [showType, className_declarations]

theorem field?_declarations (r : Registry) (id : ClassId) (name : String) :
    (r.declarations.class? id).bind (·.field? name) = (r.class? id).bind (·.field? name) := by
  rw [class?_declarations, Option.bind_map]
  rfl

theorem method?_declarations (r : Registry) (id : ClassId) (name : String) :
    (r.declarations.class? id).bind (·.method? name) =
      ((r.class? id).bind (·.method? name)).map Method.declaration := by
  rw [class?_declarations, Option.bind_map, Option.map_bind]
  exact congrArg (Option.bind _) (funext fun c => c.method?_declaration name)

theorem operator?_declarations (r : Registry) (id : ClassId) (op : Operation) :
    (r.declarations.class? id).bind (·.operator? op) =
      ((r.class? id).bind (·.operator? op)).map Method.declaration := by
  rw [class?_declarations, Option.bind_map, Option.map_bind]
  exact congrArg (Option.bind _) (funext fun c => c.operator?_declaration op)

/-- The place of the namespace that a class names. -/
def home (r : Registry) (id : ClassId) : Nat := (r.class? id).elim 0 (r.spaces.idxOf ·.nspace)

theorem home_declarations (r : Registry) (id : ClassId) : r.declarations.home id = r.home id :=
  r.elim_declarations id 0 _ fun _ => rfl

theorem Installed.declarations {b : Builtins} (h : r.Installed b) : r.declarations.Installed b where
  builtins := h.builtins
  numeric {id n m op} hn hm := by
    rw [operator?_declarations, Option.map_eq_some_iff] at hm
    obtain ⟨m, found, rfl⟩ := hm
    obtain ⟨key, code, hk, ht, rfl⟩ := h.numeric hn found
    exact ⟨key, code, hk, ht, rfl⟩
  pending {id m op} hn hm := by
    rw [operator?_declarations, Option.map_eq_some_iff] at hm
    obtain ⟨m, found, rfl⟩ := hm
    rw [Method.declaration, h.pending hn found]
    rfl

theorem declarations_updateClass {f : Class → Class}
    (hf : ∀ c, r.class? id = some c → (f c).declaration = c.declaration) :
    (r.updateClass id f).declarations = r.declarations := by
  have classes : (r.classes.modify id f).map Class.declaration = r.classes.map Class.declaration := by
    refine Array.ext_getElem? fun i => ?_
    rw [Array.getElem?_map, Array.getElem?_map, Array.getElem?_modify]
    split
    · next here =>
      subst here
      cases hc : r.classes[id]? with
      | none => rfl
      | some c => exact congrArg some (hf c hc)
    · rfl
  simp only [declarations, updateClass, classes]

end Registry

namespace Scope

variable {s : Scope}

/-- The same place in a registry in which nothing is compiled. -/
def declared (s : Scope) : Scope := { s with registry := s.registry.declarations }

theorem showType_declared (s : Scope) (t : TypeRef) : s.declared.showType t = s.showType t :=
  s.registry.showType_declarations t

theorem field?_declared (s : Scope) (name : String) : s.declared.field? name = s.field? name :=
  s.registry.field?_declarations s.owner name

theorem fieldTarget_declared (s : Scope) (f : Field) :
    s.declared.registry.fieldTarget s.declared.owner f = s.registry.fieldTarget s.owner f :=
  s.registry.agrees_declarations.fieldTarget s.owner f

theorem callTarget_declared (s : Scope) (sig : Signature) :
    s.declared.registry.callTarget sig = s.registry.callTarget sig :=
  s.registry.agrees_declarations.callTarget sig

theorem callee_declared (s : Scope) (name : String) (span : Span) :
    s.declared.callee name span = s.callee name span := by
  have found : s.declared.method? name = (s.method? name).map Method.declaration :=
    s.registry.method?_declarations s.owner name
  rw [callee, callee, found]
  cases s.method? name <;> rfl

theorem operator_declared (s : Scope) (t : TypeRef) (op : Operation) (span : Span) :
    s.declared.operator t op span = (s.operator t op span).map Method.declaration := by
  have found : (s.declared.registry.class? t.cls).bind (·.operator? op) =
      ((s.registry.class? t.cls).bind (·.operator? op)).map Method.declaration :=
    s.registry.operator?_declarations t.cls op
  have named : s.declared.registry.className t.cls = s.registry.className t.cls :=
    s.registry.className_declarations t.cls
  rw [operator, operator, found, named]
  cases (s.registry.class? t.cls).bind (·.operator? op) with
  | none => rfl
  | some m =>
    simp only [Option.map_some, Method.declaration]
    split <;> rfl

/-- An operator is used the same whether it is compiled or not. -/
theorem useOperator_declared (s : Scope) (m : Method) :
    s.declared.useOperator m.declaration = s.useOperator m := by
  rw [useOperator, useOperator, Method.declaration, callTarget_declared]
  cases m.body <;> rfl

theorem addressArgument_declared (s : Scope) (callee param : String) (type : TypeRef) (arg : Expr) :
    s.declared.addressArgument callee param type arg = s.addressArgument callee param type arg := by
  simp only [addressArgument, showType_declared]
  rfl

/-- What a found operator puts behind its operands is straight. -/
theorem straight_of_declared (installed : s.registry.declarations.Installed s.builtins) {t : TypeRef}
    {op : Operation} {span : Span} {m : Method} (h : s.operator t op span = .ok m) :
    Straight (s.useOperator m) := by
  rw [← useOperator_declared]
  exact useOperator_straight (s := s.declared) installed
    (by rw [operator_declared, h]; rfl)

end Scope
end ClassAsm
