import ClassAsm.Proofs.Machine.Meaning
import ClassAsm.Method.Compiled

/-! The source of a static method, read directly. An expression is evaluated from left to right, and
its operators mean the templates of their classes. A statement takes the variables and the world to
new ones, or ends the run. Only loops can go on forever, so they get a number of turns. -/

namespace ClassAsm

/-- What the names in a static method stand for. -/
structure Context where
  site : Site
  /-- The parameters and the other locals with their types. -/
  locals : List (String × TypeRef)

/-- The variables and the world between two statements. -/
structure Store (V E : Type) where
  vars : String → V
  world : World V E

/-- Where a statement leads. -/
inductive Flow (V E : Type) where
  | next (s : Store V E)
  | ended (e : Ending V E)
  /-- A loop has no turns left. -/
  | running (w : World V E)

def Flow.andThen {V E : Type} : Flow V E → (Store V E → Flow V E) → Flow V E
  | .next s, g => g s
  | .ended e, _ => .ended e
  | .running w, _ => .running w

namespace Context

variable (c : Context)

def local? (name : String) : Option TypeRef := c.locals.lookup name

def field? (name : String) : Option Field :=
  (c.site.registry.class? c.site.owner).bind (·.field? name)

def method? (name : String) : Option Method :=
  (c.site.registry.class? c.site.owner).bind (·.method? name)

def cell (f : Field) : String := c.site.registry.fieldTarget c.site.owner f

def numeric? (t : TypeRef) : Option Numeric := c.site.builtins.numeric? t.cls

/-- The numeric class that a cast names. -/
def named? (typeName : String) : Option Numeric :=
  (c.site.registry.resolve? (TypeName.parse typeName) c.site.nspace).bind c.numeric?

/-- The class of the value of an expression. -/
def classOf : Expr → Option Numeric
  | .int v _ => some (if v < pow2 31 then .i32 else .i64)
  | .float v _ => some (if v.exceedsSingle then .f64 else .f32)
  | .str .. => none
  | .ident name _ => ((c.local? name).or ((c.field? name).map (·.type))).bind c.numeric?
  | .binary _ left _ _ => classOf left
  | .unary _ operand _ => classOf operand
  | .call name _ _ _ => (c.method? name).bind fun m => c.numeric? m.sig.returnType
  | .cast _ target _ _ => c.named? target

variable {V E : Type} (M : Meaning V E)

mutual

/-- The value of an expression, and the world after its calls. -/
def eval (vars : String → V) : Expr → World V E → Except (Halted V E) (V × World V E)
  | .int v _, w => .ok (if v < pow2 31 then M.int32 (.ofNat v) else M.int64 (.ofNat v), w)
  | .float v _, w => .ok (if v.exceedsSingle then M.double v else M.single v.narrow, w)
  | .str .., w => .error (.wrong, w)
  | .ident name _, w =>
    if (c.local? name).isSome then .ok (vars name, w)
    else match c.field? name with
      | some f => .ok (w.fields (c.cell f), w)
      | none => .error (.wrong, w)
  | .binary op left right _, w => do
    let (a, w) ← eval vars left w
    let (b, w) ← eval vars right w
    w.give (M.combine (c.classOf left) op a b)
  | .unary op operand _, w => do
    let (a, w) ← eval vars operand w
    w.give <| match op with
      | .not => M.operate (c.classOf operand) .not [a]
      | .neg => Meaning.orTrap (M.neg a)
      | .pos => .ok a
  | .call name _ args _, w => do
    let (vs, w) ← evalArgs vars args w
    match c.method? name with
    | some m => M.invoke (c.site.registry.callTarget m.sig) vs w
    | none => .error (.wrong, w)
  | .cast operand target _ _, w => do
    let (a, w) ← eval vars operand w
    w.give <| match c.named? target with
      | some n => Meaning.orTrap (M.conv n.kind a)
      | none => .error .wrong

def evalArgs (vars : String → V) : List Expr → World V E → Except (Halted V E) (List V × World V E)
  | [], w => .ok ([], w)
  | arg :: args, w => do
    let (v, w) ← eval vars arg w
    let (vs, w) ← evalArgs vars args w
    .ok (v :: vs, w)

end

/-- Goes on with the value of an expression. -/
def withValue (e : Expr) (s : Store V E) (g : V → Store V E → Flow V E) : Flow V E :=
  match c.eval M s.vars e s.world with
  | .ok (v, w) => g v { s with world := w }
  | .error (why, w) => .ended (.halted why w)

def choose (condition : Expr) (body other : Store V E → Flow V E) (s : Store V E) : Flow V E :=
  c.withValue M condition s fun v s => if M.isTrue v then body s else other s

def turns (condition : Expr) (body : Store V E → Flow V E) : Nat → Store V E → Flow V E
  | 0, s => .running s.world
  | n + 1, s =>
    c.choose M condition (fun s => (body s).andThen (turns condition body n)) .next s

def assign (name : String) (v : V) (s : Store V E) : Flow V E :=
  if (c.local? name).isSome then .next { s with vars := Function.update s.vars name v }
  else match c.field? name with
    | some f => .next { s with world := s.world.store (c.cell f) v }
    | none => .ended (.halted .wrong s.world)

mutual

def exec (n : Nat) : Stmt → Store V E → Flow V E
  | .expr e, s => c.withValue M e s fun _ s => .next s
  | .declare .., s => .next s
  | .assign name _ _ value _, s => c.withValue M value s (c.assign name)
  | .ret none _, s => .ended (.returned none s.world)
  | .ret (some e) _, s => c.withValue M e s fun v s =>
    .ended (.returned (if c.site.returnsVoid then none else some v) s.world)
  | .loop condition (.mk body _) _, s => c.turns M condition (execBlock n body) n s
  | .cond (.mk condition (.mk body _) _) rest none _, s =>
    c.choose M condition (execBlock n body) (execArms n .next rest) s
  | .cond (.mk condition (.mk body _) _) rest (some (.mk otherwise _)) _, s =>
    c.choose M condition (execBlock n body) (execArms n (execBlock n otherwise) rest) s

def execBlock (n : Nat) : List Stmt → Store V E → Flow V E
  | [], s => .next s
  | stmt :: rest, s => (exec n stmt s).andThen (execBlock n rest)

/-- The first arm whose condition is true, or else the other statements. -/
def execArms (n : Nat) (other : Store V E → Flow V E) : List Arm → Store V E → Flow V E
  | [], s => other s
  | .mk condition (.mk body _) _ :: rest, s =>
    c.choose M condition (execBlock n body) (execArms n other rest) s

end

def zero (t : TypeRef) : V := (c.numeric? t).elim (M.int32 0) M.zero

def zeros (name : String) : V := (c.local? name).elim (M.int32 0) (c.zero M)

end Context

def bindAll {V : Type} : List Param → List V → (String → V) → String → V
  | p :: ps, v :: vs, vars => bindAll ps vs (Function.update vars p.name v)
  | _, _, vars => vars

namespace Context

variable (c : Context) {V E : Type} (M : Meaning V E)

/-- A whole method. Only a method without a result may reach the end of its body. -/
def interpret (decl : MethodDecl) (args : List V) (w : World V E) (n : Nat) : Flow V E :=
  (c.execBlock M n decl.body.stmts ⟨bindAll decl.params args (c.zeros M), w⟩).andThen fun s =>
    .ended (if c.site.returnsVoid then .returned none s.world else .halted .wrong s.world)

/-! Methods that use numbers only. -/

def isNumber (t : TypeRef) : Bool := !t.isAddress && (c.numeric? t).isSome

def isNumberField (f : Field) : Bool := f.isStatic && c.isNumber f.type

/-- A method from numbers to a number or to nothing. -/
def isNumberMethod (m : Method) : Bool :=
  m.sig.params.all (fun p => c.isNumber p.2) &&
    (c.isNumber m.sig.returnType || m.sig.returnType == { cls := c.site.builtins.void })

mutual

def usesNumbers : Expr → Bool
  | .int .. | .float .. => true
  | .str .. => false
  | .ident name _ => (c.local? name).isSome || (c.field? name).all c.isNumberField
  | .binary _ left right _ => usesNumbers left && usesNumbers right
  | .unary _ operand _ => usesNumbers operand
  | .call name _ args _ => (c.method? name).all c.isNumberMethod && allUseNumbers args
  | .cast operand _ _ _ => usesNumbers operand

def allUseNumbers : List Expr → Bool
  | [] => true
  | arg :: args => usesNumbers arg && allUseNumbers args

end

mutual

def stmtUsesNumbers : Stmt → Bool
  | .expr e | .ret (some e) _ => c.usesNumbers e
  | .declare .. | .ret none _ => true
  | .assign name _ _ value _ =>
    ((c.local? name).isSome || (c.field? name).all c.isNumberField) && c.usesNumbers value
  | .loop condition (.mk body _) _ => c.usesNumbers condition && blockUsesNumbers body
  | .cond (.mk condition (.mk body _) _) rest none _ =>
    c.usesNumbers condition && blockUsesNumbers body && armsUseNumbers rest
  | .cond (.mk condition (.mk body _) _) rest (some (.mk otherwise _)) _ =>
    c.usesNumbers condition && blockUsesNumbers body && armsUseNumbers rest &&
      blockUsesNumbers otherwise

def blockUsesNumbers : List Stmt → Bool
  | [] => true
  | stmt :: rest => stmtUsesNumbers stmt && blockUsesNumbers rest

def armsUseNumbers : List Arm → Bool
  | [] => true
  | .mk condition (.mk body _) _ :: rest =>
    c.usesNumbers condition && blockUsesNumbers body && armsUseNumbers rest

end

variable {c}

theorem usesNumbers_of_arms {as : List Arm} (h : c.armsUseNumbers as = true) :
    ∀ a ∈ as, c.usesNumbers a.condition = true ∧ c.blockUsesNumbers a.body.stmts = true := by
  induction as with
  | nil => nofun
  | cons a as ih =>
    obtain ⟨e, ⟨body, _⟩, _⟩ := a
    simp only [armsUseNumbers, Bool.and_eq_true] at h
    intro a ha
    rcases List.mem_cons.1 ha with rfl | ha
    · exact h.1
    · exact ih h.2 a ha

variable (c)

/-- No local shares its name with a field, and all names stand for numbers. -/
structure IsNumeric (decl : MethodDecl) : Prop where
  isStatic : c.site.sig.takesReceiver = false
  locals : ∀ p ∈ c.locals, c.isNumber p.2 = true ∧ c.field? p.1 = none
  body : c.blockUsesNumbers decl.body.stmts = true

instance (decl : MethodDecl) : Decidable (c.IsNumeric decl) :=
  decidable_of_iff
    (c.site.sig.takesReceiver = false ∧
      (∀ p ∈ c.locals, c.isNumber p.2 = true ∧ c.field? p.1 = none) ∧
      c.blockUsesNumbers decl.body.stmts = true)
    ⟨fun ⟨isStatic, locals, body⟩ => ⟨isStatic, locals, body⟩,
      fun h => ⟨h.isStatic, h.locals, h.body⟩⟩

end Context
end ClassAsm
