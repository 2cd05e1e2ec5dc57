import ClassAsm.Assembly
import ClassAsm.Proofs.Draft.Label
import ClassAsm.Proofs.Registry.Declared
import ClassAsm.Proofs.Renaming.Trees

/-! Renamings. What comes before a class, a method or a statement decides which number a class has,
at which offsets things stand, which number the next label has and which warnings are given already.
A renaming replaces all of these and leaves alone what the assembly text is made of. Which methods are
compiled already makes no difference, so registries are compared by what they declare. -/

namespace ClassAsm

structure Renaming where
  cls : ClassId → ClassId
  span : Span → Span
  label : String → String
  /-- How far the numbers of labels are moved. -/
  labels : Nat
  /-- Warnings given earlier. -/
  earlier : Array Warning
  cls_injective : Function.Injective cls
  /-- Built-in classes keep their numbers. -/
  cls_builtin : ∀ id < 6, cls id = id
  span_origin : span ⟨0, 0⟩ = ⟨0, 0⟩
  label_fresh : ∀ stem n, label (Draft.label stem n) = Draft.label stem (n + labels)
  /-- Names without a number stay. -/
  label_other : ∀ name, (∀ stem n, name ≠ Draft.label stem n) → label name = name

variable (ρ : Renaming)

def TypeRef.rename (t : TypeRef) : TypeRef := { t with cls := ρ.cls t.cls }

/-- Typed names, such as parameters. -/
def Renaming.types (l : List (String × TypeRef)) : List (String × TypeRef) :=
  l.map fun (name, type) => (name, type.rename ρ)

def Failure.rename (f : Failure) : Failure := { f with span := f.span.map ρ.span }

def Warning.rename (w : Warning) : Warning := { w with span := w.span.map ρ.span }

def Stop.rename (s : Stop) : Stop :=
  ⟨s.failure.rename ρ, ρ.earlier ++ s.warnings.map (·.rename ρ)⟩

/-- Other labels to branch to. -/
def Instruction.relabel (label : String → String) : Instruction → Instruction
  | .br l => .br (label l)
  | .brtrue l => .brtrue (label l)
  | .brfalse l => .brfalse (label l)
  | i => i

def Segment.relabel (label : String → String) (s : Segment) : Segment :=
  ⟨label s.name, s.code.map (·.relabel label)⟩

def Instruction.rename (i : Instruction) : Instruction := i.relabel ρ.label

def Segment.rename (s : Segment) : Segment := s.relabel ρ.label

def MethodBody.rename : MethodBody → MethodBody
  | .segments ss => .segments (ss.map (·.rename ρ))
  | b => b

def Field.rename (f : Field) : Field :=
  { f with type := f.type.rename ρ, default := f.default.map (·.mapSpan ρ.span),
           span := ρ.span f.span }

def Signature.rename (s : Signature) : Signature :=
  { s with returnType := s.returnType.rename ρ, params := ρ.types s.params }

def Method.rename (m : Method) : Method :=
  { m with sig := m.sig.rename ρ, span := ρ.span m.span, body := m.body.rename ρ,
           locals := ρ.types m.locals }

def Class.rename (c : Class) : Class :=
  { c with fieldTable := c.fieldTable.map (·.rename ρ) fun _ => rfl
           methodTable := c.methodTable.map (·.rename ρ) fun _ => rfl }

/-- What each side of a result becomes. -/
def carry {ε ε' α β : Type} (F : ε → ε') (f : α → β) : Except ε α → Except ε' β
  | .ok a => .ok (f a)
  | .error e => .error (F e)

/-- The classes of the second registry are declared as those of the first one, renamed. -/
def Registry.RenamesTo (r r' : Registry) : Prop :=
  ∀ id, (r'.class? (ρ.cls id)).map Class.declaration =
    (r.class? id).map fun c => (c.rename ρ).declaration

/-- Spans are moved, and nothing else changes. -/
def Renaming.spans (f : Span → Span) (origin : f ⟨0, 0⟩ = ⟨0, 0⟩) : Renaming where
  cls := fun c => c
  span := f
  label := fun name => name
  labels := 0
  earlier := #[]
  cls_injective := Function.injective_id
  cls_builtin _ _ := rfl
  span_origin := origin
  label_fresh _ _ := rfl
  label_other _ _ := rfl

theorem Renaming.id_origin : (id ⟨0, 0⟩ : Span) = ⟨0, 0⟩ := rfl

/-- Nothing changes. -/
def Renaming.still : Renaming := .spans id id_origin

variable {ρ}

/-! Chains of steps. -/

section

variable {ε ε' α α' β β' : Type} {F : ε → ε'} {f : α → α'} {g : β → β'}

theorem carry_bind {x : Except ε α} {x' : Except ε' α'} {k : α → Except ε β}
    {k' : α' → Except ε' β'} (hx : x' = carry F f x)
    (hk : ∀ a, x = .ok a → k' (f a) = carry F g (k a)) : x' >>= k' = carry F g (x >>= k) := by
  subst hx
  cases x with
  | error e => rfl
  | ok a => exact hk a rfl

theorem carry_map {γ γ' : Type} {h : β → γ} {h' : β' → γ'} {k : γ → γ'} (x : Except ε β)
    (hh : ∀ b, h' (g b) = k (h b)) : (carry F g x).map h' = carry F k (x.map h) := by
  cases x with
  | error e => rfl
  | ok b => exact congrArg Except.ok (hh b)

theorem carry_eq_ok {x : Except ε α} {b : α'} :
    carry F f x = .ok b ↔ ∃ a, x = .ok a ∧ f a = b := by
  cases x <;> simp [carry]

theorem carry_foldlM {s : β → α → Except ε β} {t : β' → α' → Except ε' β'} {l : List α}
    (h : ∀ b, ∀ a ∈ l, t (g b) (f a) = carry F g (s b a)) (b : β) :
    (l.map f).foldlM t (g b) = carry F g (l.foldlM s b) := by
  induction l generalizing b with
  | nil => rfl
  | cons a as ih =>
    rw [List.map_cons, List.foldlM_cons, List.foldlM_cons]
    exact carry_bind (h b a List.mem_cons_self) fun b _ =>
      ih (fun b a ha => h b a (List.mem_cons_of_mem _ ha)) b

theorem carry_mapM {s : α → Except ε β} {s' : α' → Except ε' β'} {as : List α}
    (h : ∀ a, s' (f a) = carry F g (s a)) :
    (as.map f).mapM s' = carry F (List.map g) (as.mapM s) := by
  induction as with
  | nil => rfl
  | cons a as ih =>
    rw [List.map_cons, List.mapM_cons, List.mapM_cons]
    exact carry_bind (h a) fun _ _ => carry_bind ih fun _ _ => rfl

end

/-! Types and members. -/

namespace TypeRef

@[simp] theorem rename_inj {t u : TypeRef} : t.rename ρ = u.rename ρ ↔ t = u := by
  cases t
  cases u
  simp [rename, ρ.cls_injective.eq_iff]

@[simp] theorem isAddress_rename (t : TypeRef) : (t.rename ρ).isAddress = t.isAddress := rfl

theorem valueType_rename (t : TypeRef) : (t.rename ρ).valueType = t.valueType.rename ρ := rfl

theorem rename_builtin {id : ClassId} (h : id < 6) :
    ({ cls := id } : TypeRef).rename ρ = ⟨id, false, false⟩ := by
  rw [rename, ρ.cls_builtin id h]

end TypeRef

namespace Signature

variable (s : Signature)

@[simp] theorem name_rename : (s.rename ρ).name = s.name := rfl

@[simp] theorem isPublic_rename : (s.rename ρ).isPublic = s.isPublic := rfl

@[simp] theorem isSpecial_rename : (s.rename ρ).isSpecial = s.isSpecial := rfl

@[simp] theorem returnType_rename : (s.rename ρ).returnType = s.returnType.rename ρ := rfl

@[simp] theorem params_rename : (s.rename ρ).params = ρ.types s.params := rfl

@[simp] theorem takesReceiver_rename : (s.rename ρ).takesReceiver = s.takesReceiver := rfl

end Signature

@[simp] theorem Renaming.length_types (l : List (String × TypeRef)) :
    (ρ.types l).length = l.length := List.length_map ..

theorem Instruction.rename_of_not_isControl {i : Instruction} (h : i.isControl = false) :
    i.rename ρ = i := by
  cases i <;> first | rfl | cases h

namespace Builtins

variable {b : Builtins}

theorem numeric?_rename (h : b = ⟨0, 1, 2, 3, 4, 5⟩) (id : ClassId) :
    b.numeric? (ρ.cls id) = b.numeric? id := by
  have same (k : ClassId) (hk : k < 6) : ρ.cls id = k ↔ id = k := by
    rw [← ρ.cls_builtin k hk, ρ.cls_injective.eq_iff, ρ.cls_builtin k hk]
  subst h
  simp only [numeric?, same 0 (by decide), same 1 (by decide), same 2 (by decide),
    same 3 (by decide)]

theorem cls_eq_void (h : b = ⟨0, 1, 2, 3, 4, 5⟩) (id : ClassId) :
    ρ.cls id = b.void ↔ id = b.void := by
  subst h
  rw [← ρ.cls_builtin 5 (by decide), ρ.cls_injective.eq_iff, ρ.cls_builtin 5 (by decide)]

end Builtins

namespace Class

@[simp] theorem fields_rename (c : Class) : (c.rename ρ).fields = c.fields.map (·.rename ρ) :=
  c.fieldTable.toList_map (·.rename ρ) fun _ => rfl

@[simp] theorem methods_rename (c : Class) : (c.rename ρ).methods = c.methods.map (·.rename ρ) :=
  c.methodTable.toList_map (·.rename ρ) fun _ => rfl

theorem field?_rename (c : Class) (name : String) :
    (c.rename ρ).field? name = (c.field? name).map (·.rename ρ) := by
  rw [field?_eq, field?_eq, fields_rename, List.find?_map]
  rfl

theorem method?_rename (c : Class) (name : String) :
    (c.rename ρ).method? name = (c.method? name).map (·.rename ρ) := by
  rw [method?_eq, method?_eq, methods_rename, List.find?_map]
  rfl

theorem operator?_rename (c : Class) (op : Operation) :
    (c.rename ρ).operator? op = (c.operator? op).map (·.rename ρ) := by
  simp only [operator?, Option.bind_eq_bind, method?_rename, Option.map_bind, Function.comp_def]
  rfl

theorem addField?_rename (c : Class) (f : Field) :
    (c.rename ρ).addField? (f.rename ρ) = (c.addField? f).map (·.rename ρ) := by
  have added : (c.rename ρ).addField (f.rename ρ) =
      ((c.addField f).1.rename ρ, (c.addField f).2) := by
    simp only [addField, rename, c.fieldTable.add_map (·.rename ρ) (fun _ => rfl) f]
  rw [addField?, addField?, added]
  split <;> rfl

theorem addMethod?_rename (c : Class) (m : Method) :
    (c.rename ρ).addMethod? (m.rename ρ) = (c.addMethod? m).map (·.rename ρ) := by
  have added : (c.rename ρ).addMethod (m.rename ρ) =
      ((c.addMethod m).1.rename ρ, (c.addMethod m).2) := by
    simp only [addMethod, rename, c.methodTable.add_map (·.rename ρ) (fun _ => rfl) m]
  rw [addMethod?, addMethod?, added]
  split <;> rfl

/-- A class names no other if its members do not. -/
theorem rename_eq_self {c : Class} (fields : ∀ f ∈ c.fields, f.rename ρ = f)
    (methods : ∀ m ∈ c.methods, m.rename ρ = m) : c.rename ρ = c := by
  refine ext_members rfl ?_ ?_
  · rw [fields_rename, List.map_congr_left fields, List.map_id']
  · rw [methods_rename, List.map_congr_left methods, List.map_id']

theorem rename_of_bare {c : Class} (fields : c.fields = []) (methods : c.methods = []) :
    c.rename ρ = c :=
  rename_eq_self (by simp [fields]) (by simp [methods])

/-- Built-in classes name no others. -/
theorem rename_base {c : Class} (hc : c ∈ Registry.base.classes.toList) : c.rename ρ = c := by
  refine rename_eq_self (by simp [Registry.fields_base hc]) fun m hm => ?_
  obtain ⟨n, op, key, code, rfl⟩ := Registry.template_base hc hm
  have builtin : ρ.cls n.classId = n.classId := ρ.cls_builtin _ (by cases n <;> decide)
  simp only [Numeric.method, Method.rename, Signature.rename, Renaming.types, TypeRef.rename,
    builtin, ρ.span_origin, List.map_map, Function.comp_def, MethodBody.rename, List.map_nil]

end Class

/-! Where classes keep their numbers and spans stay, the same is declared. -/

section

variable (cls : ρ.cls = id) (span : ρ.span = id)

include cls

theorem Renaming.types_eq_self (l : List (String × TypeRef)) : ρ.types l = l := by
  simp [types, TypeRef.rename, cls]

theorem Signature.rename_eq_self (s : Signature) : s.rename ρ = s := by
  rw [rename, Renaming.types_eq_self cls, TypeRef.rename, cls]
  rfl

include span

theorem Field.rename_eq_self (f : Field) : f.rename ρ = f := by
  rw [rename, TypeRef.rename, cls, span, funext Expr.mapSpan_id, Option.map_id']
  rfl

theorem Method.declaration_rename (m : Method) : (m.rename ρ).declaration = m.declaration := by
  rw [declaration, rename, Signature.rename_eq_self cls, span]
  cases m with
  | mk _ _ body => cases body <;> rfl

theorem Class.declaration_rename (c : Class) : (c.rename ρ).declaration = c.declaration := by
  refine ext_members rfl ?_ ?_
  · exact (fields_rename c).trans (by simp [Field.rename_eq_self cls span]; rfl)
  · simp [Method.declaration_rename cls span]

theorem Registry.RenamesTo.of_declarations {r r' : Registry}
    (same : r'.declarations = r.declarations) : r.RenamesTo ρ r' := fun id => by
  rw [cls, ← Registry.class?_declarations, same, Registry.class?_declarations]
  simp only [Class.declaration_rename cls span]
  rfl

end

/-! Names. -/

namespace Registry.RenamesTo

variable {r r' : Registry} (h : r.RenamesTo ρ r')

include h

/-- What is read from the declaration of a class is read from the renamed class. -/
theorem elim {α : Type} (id : ClassId) (none' : α) (f : Class → α)
    (hf : ∀ c : Class, f c.declaration = f c) :
    (r'.class? (ρ.cls id)).elim none' f = (r.class? id).elim none' fun c => f (c.rename ρ) := by
  have same := congrArg (Option.elim · none' f) (h id)
  simpa only [Option.elim_map, Function.comp_def, hf] using same

theorem bind {α : Type} (id : ClassId) (f : Class → Option α)
    (hf : ∀ c : Class, f c.declaration = f c) :
    (r'.class? (ρ.cls id)).bind f = (r.class? id).bind fun c => f (c.rename ρ) := by
  have same := h.elim id none f hf
  cases hc : r'.class? (ρ.cls id) <;> cases hc' : r.class? id <;> rw [hc, hc'] at same <;> exact same

theorem method? (id : ClassId) (name : String) :
    ((r'.class? (ρ.cls id)).bind (·.method? name)).map Method.declaration =
      ((r.class? id).bind (·.method? name)).map fun m => (m.rename ρ).declaration := by
  have found := h.bind id (fun c => (c.method? name).map Method.declaration) fun c => by
    simp only [Class.method?_declaration, Option.map_map, Function.comp_def,
      Method.declaration_declaration]
  rw [Option.map_bind, Option.map_bind]
  simpa only [Class.method?_rename, Option.map_map, Function.comp_def] using found

theorem operator? (id : ClassId) (op : Operation) :
    ((r'.class? (ρ.cls id)).bind (·.operator? op)).map Method.declaration =
      ((r.class? id).bind (·.operator? op)).map fun m => (m.rename ρ).declaration := by
  have found := h.bind id (fun c => (c.operator? op).map Method.declaration) fun c => by
    simp only [Class.operator?_declaration, Option.map_map, Function.comp_def,
      Method.declaration_declaration]
  rw [Option.map_bind, Option.map_bind]
  simpa only [Class.operator?_rename, Option.map_map, Function.comp_def] using found

theorem asmName (id : ClassId) : r'.asmName (ρ.cls id) = r.asmName id :=
  h.elim id "" (·.asmName) fun _ => rfl

theorem className (id : ClassId) : r'.className (ρ.cls id) = r.className id :=
  h.elim id "" (·.name) fun _ => rfl

theorem declaredType (t : TypeRef) : r'.declaredType (t.rename ρ) = r.declaredType t := by
  simp only [Registry.declaredType, TypeRef.rename, h.asmName]

theorem plainType (t : TypeRef) : r'.plainType (t.rename ρ) = r.plainType t := by
  rw [Registry.plainType, Registry.plainType, TypeRef.isAddress_rename, TypeRef.rename, h.asmName]

theorem showType (t : TypeRef) : r'.showType (t.rename ρ) = r.showType t := by
  simp only [Registry.showType, TypeRef.rename, h.className]

theorem callTarget (s : Signature) : r'.callTarget (s.rename ρ) = r.callTarget s := by
  have params : (ρ.types s.params).map (fun p => r'.plainType p.2) =
      s.params.map fun p => r.plainType p.2 := by
    simp only [Renaming.types, List.map_map, Function.comp_def, h.plainType]
  rw [Registry.callTarget, Registry.callTarget, Signature.takesReceiver_rename]
  simp only [Signature.rename, h.declaredType, params]

theorem fieldTarget (owner : ClassId) (f : Field) :
    r'.fieldTarget (ρ.cls owner) (f.rename ρ) = r.fieldTarget owner f := by
  have place := h.elim owner "" (fun c => c.nspace ++ "." ++ c.name) fun _ => rfl
  simp only [Registry.fieldTarget, Field.rename, h.declaredType, place]
  rfl

theorem methodHeader (s : Signature) : r'.methodHeader (s.rename ρ) = r.methodHeader s := by
  have params : (ρ.types s.params).map (fun p => r'.declaredType p.2 ++ " " ++ p.1) =
      s.params.map fun p => r.declaredType p.2 ++ " " ++ p.1 := by
    simp only [Renaming.types, List.map_map, Function.comp_def, h.declaredType]
  unfold Registry.methodHeader
  rw [s.isPublic_rename, s.isSpecial_rename, s.name_rename, s.takesReceiver_rename,
    s.returnType_rename, s.params_rename, h.declaredType, params]

theorem fieldLine (f : Field) : Assembly.fieldLine r' (f.rename ρ) = Assembly.fieldLine r f := by
  rw [Assembly.fieldLine, Assembly.fieldLine, show (f.rename ρ).type = f.type.rename ρ from rfl,
    h.declaredType]
  rfl

theorem localLines (l : List (String × TypeRef)) :
    Assembly.localLines r' (ρ.types l) = Assembly.localLines r l := by
  have empty : (ρ.types l).isEmpty = l.isEmpty := List.isEmpty_map
  have rows : (ρ.types l).zipIdx =
      l.zipIdx.map fun ((name, t), i) => ((name, t.rename ρ), i) := List.zipIdx_map ..
  unfold Assembly.localLines
  rw [empty]
  split
  · rfl
  · simp only [rows, List.map_map, Function.comp_def, Renaming.length_types, h.plainType]

end Registry.RenamesTo
end ClassAsm
