import ClassAsm.Proofs.Grammar.Bare

/-! Trees whose spans are moved. A bare tree is one whose spans are all moved to nowhere. -/

namespace ClassAsm

variable (f : Span → Span)

mutual

/-- Moves each span by itself, so spans that were nested need not stay so. -/
def Expr.mapSpan : Expr → Expr
  | .int v s => .int v (f s)
  | .float v s => .float v (f s)
  | .str v s => .str v (f s)
  | .ident name s => .ident name (f s)
  | .binary op l r s => .binary op (l.mapSpan) (r.mapSpan) (f s)
  | .unary op e s => .unary op (e.mapSpan) (f s)
  | .call callee cs args s => .call callee (f cs) (Expr.mapSpanEach args) (f s)
  | .cast e target ts s => .cast (e.mapSpan) target (f ts) (f s)

def Expr.mapSpanEach : List Expr → List Expr
  | [] => []
  | e :: es => e.mapSpan :: Expr.mapSpanEach es

end

mutual

/-- Blocks and arms have spans of their own, which are moved too. -/
def Stmt.mapSpan : Stmt → Stmt
  | .expr e => .expr (e.mapSpan f)
  | .declare name ns type s => .declare name (f ns) type (f s)
  | .assign name ns type e s => .assign name (f ns) type (e.mapSpan f) (f s)
  | .ret value s => .ret (value.map (·.mapSpan f)) (f s)
  | .cond first rest otherwise s =>
    .cond first.mapSpan (Arm.mapSpanEach rest) (Block.mapSpanElse otherwise) (f s)
  | .loop e b s => .loop (e.mapSpan f) b.mapSpan (f s)

def Arm.mapSpan : Arm → Arm
  | .mk e b s => .mk (e.mapSpan f) b.mapSpan (f s)

def Arm.mapSpanEach : List Arm → List Arm
  | [] => []
  | a :: as => a.mapSpan :: Arm.mapSpanEach as

def Block.mapSpanElse : Option Block → Option Block
  | none => none
  | some b => some b.mapSpan

def Block.mapSpan : Block → Block
  | .mk ss s => .mk (Stmt.mapSpanEach ss) (f s)

def Stmt.mapSpanEach : List Stmt → List Stmt
  | [] => []
  | s :: ss => s.mapSpan :: Stmt.mapSpanEach ss

end

def FieldDecl.mapSpan (d : FieldDecl) : FieldDecl :=
  { d with default := d.default.map (·.mapSpan f), span := f d.span }

def Param.mapSpan (p : Param) : Param := { p with span := f p.span }

def MethodDecl.mapSpan (m : MethodDecl) : MethodDecl :=
  { m with nameSpan := f m.nameSpan, returnTypeSpan := f m.returnTypeSpan,
           params := m.params.map (·.mapSpan f), body := m.body.mapSpan f, span := f m.span }

def ClassDecl.mapSpan (c : ClassDecl) : ClassDecl :=
  { c with nameSpan := f c.nameSpan, fields := c.fields.map (·.mapSpan f),
           methods := c.methods.map (·.mapSpan f), span := f c.span }

def Item.mapSpan : Item → Item
  | .nspace name s => .nspace name (f s)
  | .cls c => .cls (c.mapSpan f)

variable {f}

@[simp] theorem Expr.span_mapSpan (e : Expr) : (e.mapSpan f).span = f e.span := by
  cases e <;> rfl

@[simp] theorem Expr.isCall_mapSpan (e : Expr) : (e.mapSpan f).isCall = e.isCall := by
  cases e <;> rfl

@[simp] theorem Stmt.span_mapSpan (s : Stmt) : (s.mapSpan f).span = f s.span := by
  cases s <;> simp [Stmt.mapSpan, Stmt.span]

/-- A call keeps the number of its arguments. -/
theorem Expr.length_mapSpanEach (es : List Expr) : (Expr.mapSpanEach f es).length = es.length := by
  induction es with
  | nil => rfl
  | cons e es ih => rw [Expr.mapSpanEach, List.length_cons, List.length_cons, ih]

/-! Nowhere. What is proved for moved trees holds of bare ones. -/

mutual

-- The induction is on the tree, with the lists of its parts as a second case.
theorem Expr.mapSpan_nowhere : ∀ e : Expr, e.mapSpan (fun _ => .nowhere) = e.bare
  | .int .. | .float .. | .str .. | .ident .. => rfl
  | .binary _ l r _ => by rw [mapSpan, bare, l.mapSpan_nowhere, r.mapSpan_nowhere]
  | .unary _ e _ => by rw [mapSpan, bare, e.mapSpan_nowhere]
  | .call _ _ args _ => by rw [mapSpan, bare, mapSpanEach_nowhere args]
  | .cast e _ _ _ => by rw [mapSpan, bare, e.mapSpan_nowhere]

theorem Expr.mapSpanEach_nowhere : ∀ es : List Expr,
    Expr.mapSpanEach (fun _ => .nowhere) es = Expr.bareEach es
  | [] => rfl
  | e :: es => by rw [mapSpanEach, bareEach, e.mapSpan_nowhere, mapSpanEach_nowhere es]

end

mutual

theorem Stmt.mapSpan_nowhere : ∀ s : Stmt, s.mapSpan (fun _ => .nowhere) = s.bare
  | .expr _ | .declare .. | .assign .. | .ret .. => by
    simp only [Stmt.mapSpan, Stmt.bare, Expr.mapSpan_nowhere]
  | .cond first rest otherwise _ => by
    rw [Stmt.mapSpan, Stmt.bare, first.mapSpan_nowhere, Arm.mapSpanEach_nowhere rest,
      Block.mapSpanElse_nowhere otherwise]
  | .loop e b _ => by rw [Stmt.mapSpan, Stmt.bare, e.mapSpan_nowhere, b.mapSpan_nowhere]

theorem Arm.mapSpan_nowhere : ∀ a : Arm, a.mapSpan (fun _ => .nowhere) = a.bare
  | .mk e b _ => by rw [Arm.mapSpan, Arm.bare, e.mapSpan_nowhere, b.mapSpan_nowhere]

theorem Arm.mapSpanEach_nowhere : ∀ as : List Arm,
    Arm.mapSpanEach (fun _ => .nowhere) as = Arm.bareEach as
  | [] => rfl
  | a :: as => by
    rw [Arm.mapSpanEach, Arm.bareEach, a.mapSpan_nowhere, Arm.mapSpanEach_nowhere as]

theorem Block.mapSpanElse_nowhere : ∀ b : Option Block,
    Block.mapSpanElse (fun _ => .nowhere) b = Block.bareElse b
  | none => rfl
  | some b => by rw [Block.mapSpanElse, Block.bareElse, b.mapSpan_nowhere]

theorem Block.mapSpan_nowhere : ∀ b : Block, b.mapSpan (fun _ => .nowhere) = b.bare
  | .mk ss _ => by rw [Block.mapSpan, Block.bare, Stmt.mapSpanEach_nowhere ss]

theorem Stmt.mapSpanEach_nowhere : ∀ ss : List Stmt,
    Stmt.mapSpanEach (fun _ => .nowhere) ss = Stmt.bareEach ss
  | [] => rfl
  | s :: ss => by
    rw [Stmt.mapSpanEach, Stmt.bareEach, s.mapSpan_nowhere, Stmt.mapSpanEach_nowhere ss]

end

theorem FieldDecl.mapSpan_nowhere (d : FieldDecl) : d.mapSpan (fun _ => .nowhere) = d.bare := by
  simp only [mapSpan, bare, Expr.mapSpan_nowhere]

/-- A bare method is the method with all its spans moved to one place. -/
theorem MethodDecl.mapSpan_nowhere (m : MethodDecl) : m.mapSpan (fun _ => .nowhere) = m.bare := by
  rw [mapSpan, bare, Block.mapSpan_nowhere]
  rfl

theorem ClassDecl.mapSpan_nowhere (c : ClassDecl) : c.mapSpan (fun _ => .nowhere) = c.bare := by
  simp only [mapSpan, bare, FieldDecl.mapSpan_nowhere, MethodDecl.mapSpan_nowhere]

/-! Spans that stay. -/

mutual

theorem Expr.mapSpan_id : ∀ e : Expr, e.mapSpan id = e
  | .int .. | .float .. | .str .. | .ident .. => rfl
  | .binary _ l r _ => by rw [mapSpan, l.mapSpan_id, r.mapSpan_id, id]
  | .unary _ e _ => by rw [mapSpan, e.mapSpan_id, id]
  | .call _ _ args _ => by rw [mapSpan, mapSpanEach_id args, id, id]
  | .cast e _ _ _ => by rw [mapSpan, e.mapSpan_id, id, id]

theorem Expr.mapSpanEach_id : ∀ es : List Expr, Expr.mapSpanEach id es = es
  | [] => rfl
  | e :: es => by rw [mapSpanEach, e.mapSpan_id, mapSpanEach_id es]

end

mutual

theorem Stmt.mapSpan_id : ∀ s : Stmt, s.mapSpan id = s
  | .expr _ | .declare .. | .assign .. | .ret .. => by
    simp only [Stmt.mapSpan, Expr.mapSpan_id, id, Option.map_id']
  | .cond first rest otherwise _ => by
    rw [Stmt.mapSpan, first.mapSpan_id, Arm.mapSpanEach_id rest, Block.mapSpanElse_id otherwise, id]
  | .loop e b _ => by rw [Stmt.mapSpan, e.mapSpan_id, b.mapSpan_id, id]

theorem Arm.mapSpan_id : ∀ a : Arm, a.mapSpan id = a
  | .mk e b _ => by rw [Arm.mapSpan, e.mapSpan_id, b.mapSpan_id, id]

theorem Arm.mapSpanEach_id : ∀ as : List Arm, Arm.mapSpanEach id as = as
  | [] => rfl
  | a :: as => by rw [Arm.mapSpanEach, a.mapSpan_id, Arm.mapSpanEach_id as]

theorem Block.mapSpanElse_id : ∀ b : Option Block, Block.mapSpanElse id b = b
  | none => rfl
  | some b => by rw [Block.mapSpanElse, b.mapSpan_id]

theorem Block.mapSpan_id : ∀ b : Block, b.mapSpan id = b
  | .mk ss _ => by rw [Block.mapSpan, Stmt.mapSpanEach_id ss, id]

theorem Stmt.mapSpanEach_id : ∀ ss : List Stmt, Stmt.mapSpanEach id ss = ss
  | [] => rfl
  | s :: ss => by rw [Stmt.mapSpanEach, s.mapSpan_id, Stmt.mapSpanEach_id ss]

end

theorem FieldDecl.mapSpan_id (d : FieldDecl) : d.mapSpan id = d := by
  simp only [mapSpan, Expr.mapSpan_id, id, Option.map_id']

/-- A declaration whose spans stay is the same declaration. -/
theorem MethodDecl.mapSpan_id (m : MethodDecl) : m.mapSpan id = m := by
  have params : m.params.map (Param.mapSpan id) = m.params := List.map_id' m.params
  rw [mapSpan, Block.mapSpan_id, params]
  rfl

theorem ClassDecl.mapSpan_id (c : ClassDecl) : c.mapSpan id = c := by
  simp only [mapSpan, FieldDecl.mapSpan_id, MethodDecl.mapSpan_id, id, List.map_id']

end ClassAsm
