import ClassAsm.Proofs.Method.Run

/-! Truth values. Comparisons and `!` leave an `int32` whatever the type of their operands is, and
their own type is that of the operands. Where such a value of another type than `i32` is used for
its type, it has the wrong kind; a condition, a cast and a statement that drops it do not mind. -/

namespace ClassAsm

def BinaryOp.compares : BinaryOp → Bool
  | eq | ne | lt | gt | le | ge => true
  | add | sub | mul | div | rem | and | or => false

/-- The value of a comparison or of `!`, perhaps behind signs. -/
def Expr.isTruth : Expr → Bool
  | .binary op .. => op.compares
  | .unary .not .. => true
  | .unary .neg e _ | .unary .pos e _ => e.isTruth
  | .int .. | .float .. | .str .. | .ident .. | .call .. | .cast .. => false

namespace Scope

/-- The value is on the stack as its type says: if it is a truth value, the type is `i32`. -/
def IsExact (s : Scope) (e : Expr) : Prop := e.isTruth = true →
  ∀ standIn c, s.codeWith standIn e = .ok c → c.type.cls = s.builtins.i32

mutual

/-- The operands and arguments in an expression are exact. -/
def OperandsExact (s : Scope) : Expr → Prop
  | .int .. | .float .. | .str .. | .ident .. => True
  | .binary _ l r _ => (s.OperandsExact l ∧ s.IsExact l) ∧ s.OperandsExact r ∧ s.IsExact r
  | .unary .not e _ => s.OperandsExact e ∧ s.IsExact e
  | .unary .neg e _ | .unary .pos e _ | .cast e .. => s.OperandsExact e
  | .call _ _ args _ => s.ArgsExact args

def ArgsExact (s : Scope) : List Expr → Prop
  | [] => True
  | arg :: args => (s.OperandsExact arg ∧ s.IsExact arg) ∧ s.ArgsExact args

end

def ValueExact (s : Scope) (e : Expr) : Prop := s.OperandsExact e ∧ s.IsExact e

/-- The defaults of the fields that are visible are values of their types. -/
def DefaultsExact (s : Scope) : Prop := ∀ c, s.registry.class? s.owner = some c →
  ∀ f ∈ c.fields, ∀ e, f.default = some e → s.ValueExact e

/-- The values that a statement uses for their types are exact. -/
def StmtExact (s : Scope) : Stmt → Prop
  | .expr e | .loop e _ _ => s.OperandsExact e
  | .assign _ _ _ e _ | .ret (some e) _ => s.ValueExact e
  | .cond first rest _ _ => ∀ a ∈ first :: rest, s.OperandsExact a.condition
  | .ret none _ | .declare .. => True

end Scope

namespace Draft

/-- All statements that a task leads to use exact values, and so do the defaults of fields where
they stand in for the fields. -/
def AllExact (site : Site) (t : Task) (d : Draft) : Prop :=
  ∀ s x, Relation.ReflTransGen (Leads site) (t, d) (.one s, x) →
    (site.scope x.locals).StmtExact s ∧
      ((site.scope x.locals).hasReceiver = false → (site.scope x.locals).DefaultsExact)

theorem AllExact.leads {site : Site} {t t' : Task} {d d' : Draft} (h : AllExact site t d)
    (hl : Leads site (t, d) (t', d')) : AllExact site t' d' :=
  fun s x hx => h s x (hx.head hl)

end Draft
/-! A check of the source that makes values exact. -/

mutual

/-- No operand and no argument in the expression is a truth value. -/
def Expr.usesNoTruth : Expr → Bool
  | .int .. | .float .. | .str .. | .ident .. => true
  | .binary _ l r _ => l.usesNoTruth && !l.isTruth && (r.usesNoTruth && !r.isTruth)
  | .unary .not e _ => e.usesNoTruth && !e.isTruth
  | .unary .neg e _ | .unary .pos e _ | .cast e .. => e.usesNoTruth
  | .call _ _ args _ => Expr.useNoTruth args

def Expr.useNoTruth : List Expr → Bool
  | [] => true
  | arg :: args => arg.usesNoTruth && !arg.isTruth && Expr.useNoTruth args

end

/-- Truth values are used as conditions only, are converted, or are dropped. -/
def Stmt.usesNoTruth : Stmt → Bool
  | .expr e | .loop e _ _ => e.usesNoTruth
  | .assign _ _ _ e _ | .ret (some e) _ => e.usesNoTruth && !e.isTruth
  | .cond first rest _ _ => (first :: rest).all (·.condition.usesNoTruth)
  | .ret none _ | .declare .. => true

namespace Scope

variable {s : Scope}

theorem isExact_of_not_isTruth {e : Expr} (h : e.isTruth = false) : s.IsExact e := by
  intro truth
  rw [h] at truth
  cases truth

mutual

theorem operandsExact_of_usesNoTruth : ∀ {e : Expr}, e.usesNoTruth = true → s.OperandsExact e
  | .int .., _ | .float .., _ | .str .., _ | .ident .., _ => by
    rw [OperandsExact]
    trivial
  | .binary _ l r _, h => by
    simp only [Expr.usesNoTruth, Bool.and_eq_true, Bool.not_eq_true'] at h
    rw [OperandsExact]
    exact ⟨⟨operandsExact_of_usesNoTruth h.1.1, isExact_of_not_isTruth h.1.2⟩,
      operandsExact_of_usesNoTruth h.2.1, isExact_of_not_isTruth h.2.2⟩
  | .unary .not e _, h => by
    simp only [Expr.usesNoTruth, Bool.and_eq_true, Bool.not_eq_true'] at h
    rw [OperandsExact]
    exact ⟨operandsExact_of_usesNoTruth h.1, isExact_of_not_isTruth h.2⟩
  | .unary .neg e _, h | .unary .pos e _, h | .cast e .., h => by
    rw [OperandsExact]
    exact operandsExact_of_usesNoTruth (by rwa [Expr.usesNoTruth] at h)
  | .call _ _ args _, h => by
    rw [OperandsExact]
    exact argsExact_of_useNoTruth (by rwa [Expr.usesNoTruth] at h)

theorem argsExact_of_useNoTruth : ∀ {args : List Expr}, Expr.useNoTruth args = true →
    s.ArgsExact args
  | [], _ => by
    rw [ArgsExact]
    trivial
  | arg :: args, h => by
    simp only [Expr.useNoTruth, Bool.and_eq_true, Bool.not_eq_true'] at h
    rw [ArgsExact]
    exact ⟨⟨operandsExact_of_usesNoTruth h.1.1, isExact_of_not_isTruth h.1.2⟩,
      argsExact_of_useNoTruth h.2⟩

end

theorem valueExact_of_usesNoTruth {e : Expr} (h : (e.usesNoTruth && !e.isTruth) = true) :
    s.ValueExact e := by
  simp only [Bool.and_eq_true, Bool.not_eq_true'] at h
  exact ⟨operandsExact_of_usesNoTruth h.1, isExact_of_not_isTruth h.2⟩

theorem stmtExact_of_usesNoTruth {x : Stmt} (h : x.usesNoTruth = true) : s.StmtExact x := by
  cases x with
  | expr | loop => exact operandsExact_of_usesNoTruth h
  | assign => exact valueExact_of_usesNoTruth h
  | ret e =>
    cases e with
    | none => trivial
    | some => exact valueExact_of_usesNoTruth h
  | cond => exact fun a ha => operandsExact_of_usesNoTruth (List.all_eq_true.1 h a ha)
  | declare => trivial

end Scope

mutual

def Stmt.inside : Stmt → List Stmt
  | .loop c body span => .loop c body span :: body.inside
  | .cond first rest otherwise span => .cond first rest otherwise span ::
    (first.inside ++ Arm.insideEach rest ++ Block.insideElse otherwise)
  | .expr e => [.expr e]
  | .declare name nameSpan typeName span => [.declare name nameSpan typeName span]
  | .assign name nameSpan typeName value span => [.assign name nameSpan typeName value span]
  | .ret value span => [.ret value span]

def Arm.inside : Arm → List Stmt
  | .mk _ body _ => body.inside

def Arm.insideEach : List Arm → List Stmt
  | [] => []
  | a :: as => a.inside ++ Arm.insideEach as

def Block.insideElse : Option Block → List Stmt
  | none => []
  | some body => body.inside

def Block.inside : Block → List Stmt
  | .mk stmts _ => Stmt.insideEach stmts

def Stmt.insideEach : List Stmt → List Stmt
  | [] => []
  | s :: rest => s.inside ++ Stmt.insideEach rest

end

theorem Stmt.mem_inside (s : Stmt) : s ∈ s.inside := by
  cases s <;> exact List.mem_cons_self

theorem Block.inside_eq (b : Block) : b.inside = Stmt.insideEach b.stmts := by
  cases b
  rw [Block.inside]
  rfl

namespace Draft

/-- The statements that a task is about, with those in them. -/
def Task.inside : Task → List Stmt
  | .block ss => Stmt.insideEach ss
  | .one s => s.inside
  | .arms _ xs => Arm.insideEach (xs.map Prod.snd)

theorem Leads.inside_subset {site : Site} {t t' : Task} {d d' : Draft}
    (h : Leads site (t, d) (t', d')) : t'.inside ⊆ t.inside := by
  cases h with
  | first => exact List.subset_append_left _ _
  | rest => exact List.subset_append_right _ _
  | @body _ _ c body span =>
    rw [Task.inside, Task.inside, Stmt.inside, Block.inside_eq]
    exact List.subset_cons_self _ _
  | @otherwise _ _ first rest otherwise span =>
    rw [Task.inside, Task.inside, Stmt.inside]
    have same : Stmt.insideEach (elseStmts otherwise) = Block.insideElse otherwise := by
      cases otherwise with
      | none => rfl
      | some b => exact b.inside_eq.symm
    rw [same]
    exact List.subset_cons_of_subset _ (List.subset_append_right _ _)
  | @arms _ _ _ first rest otherwise span after segments hc =>
    rw [Task.inside, Task.inside, Stmt.inside, List.map_snd_zip (length_condStart hc).ge]
    exact List.subset_cons_of_subset _ (List.subset_append_left _ _)
  | @arm _ after segment a =>
    rw [Task.inside, Task.inside, ← Block.inside_eq]
    obtain ⟨_, _, _⟩ := a
    exact List.subset_append_left _ _
  | nextArms => exact List.subset_append_right _ _

end Draft
end ClassAsm
