import ClassAsm.Grammar.Items

/-! How trees are written as tokens. A tree has many spellings, since parentheses may be added where
they change nothing, fields and methods may be mixed, and a few tokens are optional. Statements stand
side by side without a token between them, so a spelling also says which tokens would continue a
statement: none of them may begin the next one. Spans have no part in this. -/

namespace ClassAsm

def UnaryOp.kind : UnaryOp → Kind
  | neg => .symbol .minus | pos => .symbol .plus | not => .symbol .bang

def BinaryOp.kind : BinaryOp → Kind
  | add => .symbol .plus | sub => .symbol .minus | mul => .symbol .star | div => .symbol .slash
  | rem => .symbol .percent | eq => .symbol .eqEq | ne => .symbol .bangEq | lt => .symbol .lt
  | gt => .symbol .gt | le => .symbol .ltEq | ge => .symbol .gtEq | and => .symbol .and
  | or => .symbol .or

@[simp] theorem Operator.ofKind?_kind (op : BinaryOp) :
    Operator.ofKind? op.kind = some (.binary op) := by
  cases op <;> rfl

theorem Operator.kind_of_binary {k : Kind} {op : BinaryOp}
    (h : Operator.ofKind? k = some (.binary op)) : k = op.kind := by
  unfold Operator.ofKind? at h
  split at h <;> cases h <;> rfl

theorem Operator.kind_of_cast {k : Kind} (h : Operator.ofKind? k = some .cast) :
    k = .keyword .asKw := by
  unfold Operator.ofKind? at h
  split at h <;> cases h
  rfl

namespace Grammar

def tightest : Nat := 7

theorem level_le_tightest (op : Operator) : op.level ≤ tightest := by
  rcases op with op | _
  · cases op <;> decide
  · decide

theorem level_pos (op : Operator) : 0 < op.level := by
  rcases op with op | _
  · cases op <;> decide
  · decide

namespace Pending

/-- Only what binds tighter than this goes into the operand that the operator waits for. -/
def floor : Pending → Nat
  | unary .. => tightest
  | binary op _ => op.level

def floorOf : List Pending → Nat
  | [] => 0
  | p :: _ => p.floor

theorem isTight_iff {p : Pending} (op : Operator) : p.isTight op.level = true ↔
    op.level ≤ p.floor := by
  cases p with
  | unary => simpa [isTight, floor] using level_le_tightest op
  | binary => simp [isTight, floor]

end Pending

mutual

/-- The tokens spell the expression, with operators outside parentheses that all bind tighter than
`floor`. An operator behind them takes the whole expression for its left operand if it binds no
tighter than `cap`. If `named`, the last token is a name that a parenthesis would make a call. -/
inductive Spells : (floor cap : Nat) → (named : Bool) → Expr → List Kind → Prop where
  | int {floor v : Nat} {s : Span} : Spells floor tightest false (.int v s) [.int v]
  | float {floor : Nat} {v : Binary64} {s : Span} :
      Spells floor tightest false (.float v s) [.float v]
  | str {floor : Nat} {v : String} {s : Span} : Spells floor tightest false (.str v s) [.str v]
  | ident {floor : Nat} {name : String} {s : Span} :
      Spells floor tightest true (.ident name s) [.ident name]
  | unary {floor : Nat} {named : Bool} {op : UnaryOp} {e : Expr} {s : Span} {ks : List Kind}
      (h : Spells tightest tightest named e ks) :
      Spells floor tightest named (.unary op e s) (op.kind :: ks)
  | paren {floor cap : Nat} {named : Bool} {e : Expr} {s : Span} {ks : List Kind}
      (h : Spells 0 cap named e ks) :
      Spells floor tightest false (e.withSpan s)
        (.symbol .lparen :: (ks ++ [.symbol .rparen]))
  | call {floor : Nat} {callee : String} {cs s : Span} :
      Spells floor tightest false (.call callee cs [] s)
        [.ident callee, .symbol .lparen, .symbol .rparen]
  | callWith {floor cap : Nat} {named : Bool} {callee : String} {cs s : Span} {es : List Expr}
      {e : Expr} {ks ks' : List Kind} (h : SpellsEach es ks) (h' : Spells 0 cap named e ks') :
      Spells floor tightest false (.call callee cs (es ++ [e]) s)
        (.ident callee :: .symbol .lparen :: (ks ++ ks' ++ [.symbol .rparen]))
  | binary {floor cap cap' : Nat} {named named' : Bool} {op : BinaryOp} {l r : Expr} {s : Span}
      {ks ks' : List Kind} (h : Spells floor cap named l ks) (above : floor < op.level)
      (below : op.level ≤ cap) (h' : Spells op.level cap' named' r ks') :
      Spells floor op.level named' (.binary op l r s) (ks ++ op.kind :: ks')
  | cast {floor cap : Nat} {named : Bool} {e : Expr} {target : String} {ts s : Span}
      {ks : List Kind} (h : Spells floor cap named e ks) (above : floor < Operator.cast.level)
      (below : Operator.cast.level ≤ cap) :
      Spells floor tightest false (.cast e target ts s)
        (ks ++ [.keyword .asKw, .ident target])

/-- Arguments, each with the comma behind it. -/
inductive SpellsEach : List Expr → List Kind → Prop where
  | nil : SpellsEach [] []
  | snoc {cap : Nat} {named : Bool} {es : List Expr} {e : Expr} {ks ks' : List Kind}
      (h : SpellsEach es ks) (h' : Spells 0 cap named e ks') :
      SpellsEach (es ++ [e]) (ks ++ (ks' ++ [.symbol .comma]))

end

/-- What the end of a statement leaves open. -/
inductive Tail where
  | closed
  /-- The statement ends in an expression. -/
  | value (named : Bool)
  /-- The statement is a `return` without a value. -/
  | bare

/-- The token does not continue the statement. -/
def Tail.Admits : Tail → Kind → Prop
  | closed, _ => True
  | value named, k => Operator.ofKind? k = none ∧ (named = true → k ≠ .symbol .lparen)
  | bare, k => k = .symbol .semicolon

mutual

inductive SpellsStmt : Tail → Stmt → List Kind → Prop where
  | expr {cap : Nat} {named : Bool} {e : Expr} {ks : List Kind} (h : Spells 0 cap named e ks) :
      SpellsStmt (.value named) (.expr e) ks
  | declare {name type : String} {ns s : Span} :
      SpellsStmt .closed (.declare name ns type s) [.ident name, .symbol .colon, .ident type]
  | assign {cap : Nat} {named : Bool} {name : String} {ns s : Span} {e : Expr} {ks : List Kind}
      (h : Spells 0 cap named e ks) :
      SpellsStmt (.value named) (.assign name ns none e s) (.ident name :: .symbol .eq :: ks)
  | define {cap : Nat} {named : Bool} {name type : String} {ns s : Span} {e : Expr}
      {ks : List Kind} (h : Spells 0 cap named e ks) :
      SpellsStmt (.value named) (.assign name ns (some type) e s)
        (.ident name :: .symbol .colon :: .ident type :: .symbol .eq :: ks)
  | bareReturn {s : Span} : SpellsStmt .bare (.ret none s) [.keyword .returnKw]
  | ret {cap : Nat} {named : Bool} {e : Expr} {s : Span} {ks : List Kind}
      (h : Spells 0 cap named e ks) :
      SpellsStmt (.value named) (.ret (some e) s) (.keyword .returnKw :: ks)
  | loop {cap : Nat} {named : Bool} {e : Expr} {tail : Tail} {ss : List Stmt} {bs s : Span}
      {ks ks' : List Kind} (h : Spells 0 cap named e ks) (h' : SpellsStmts tail ss ks') :
      SpellsStmt .closed (.loop e (.mk ss bs) s)
        (.keyword .whileKw :: (ks ++ .symbol .colon :: (ks' ++ [.symbol .semicolon])))
  | cond {first : Arm} {rest : List Arm} {s : Span} {ks : List Kind}
      (h : SpellsArms first rest ks) : SpellsStmt .closed (.cond first rest none s) ks
  | condElse {first : Arm} {rest : List Arm} {tail : Tail} {ss : List Stmt} {bs s : Span}
      {ks ks' : List Kind} (h : SpellsArms first rest ks) (h' : SpellsStmts tail ss ks') :
      SpellsStmt .closed (.cond first rest (some (.mk ss bs)) s)
        (ks ++ .keyword .elseKw :: .symbol .colon :: (ks' ++ [.symbol .semicolon]))

/-- Statements side by side. -/
inductive SpellsStmts : Tail → List Stmt → List Kind → Prop where
  | nil : SpellsStmts .closed [] []
  | snoc {tail tail' : Tail} {ss : List Stmt} {s : Stmt} {ks ks' : List Kind}
      (h : SpellsStmts tail ss ks) (h' : SpellsStmt tail' s ks')
      (apart : ∀ k ∈ ks'.head?, tail.Admits k) : SpellsStmts tail' (ss ++ [s]) (ks ++ ks')

inductive SpellsArms : Arm → List Arm → List Kind → Prop where
  | first {cap : Nat} {named : Bool} {e : Expr} {tail : Tail} {ss : List Stmt} {bs s : Span}
      {ks ks' : List Kind} (h : Spells 0 cap named e ks) (h' : SpellsStmts tail ss ks') :
      SpellsArms (.mk e (.mk ss bs) s) []
        (.keyword .ifKw :: (ks ++ .symbol .colon :: (ks' ++ [.symbol .semicolon])))
  | snoc {cap : Nat} {named : Bool} {a : Arm} {as : List Arm} {e : Expr} {tail : Tail}
      {ss : List Stmt} {bs s : Span} {ks₀ ks ks' : List Kind} (h₀ : SpellsArms a as ks₀)
      (h : Spells 0 cap named e ks) (h' : SpellsStmts tail ss ks') :
      SpellsArms a (as ++ [.mk e (.mk ss bs) s])
        (ks₀ ++ .keyword .elifKw :: (ks ++ .symbol .colon :: (ks' ++ [.symbol .semicolon])))

end

theorem SpellsArms.head {first : Arm} {rest : List Arm} {ks : List Kind} :
    SpellsArms first rest ks → ∃ ks', ks = .keyword .ifKw :: ks'
  | .first .. => ⟨_, rfl⟩
  | .snoc h .. => by
    obtain ⟨ks', rfl⟩ := h.head
    exact ⟨_, rfl⟩

def visibilityKind (isPublic : Bool) : Kind :=
  .keyword (if isPublic then .publicKw else .privateKw)

def staticKinds (isStatic : Bool) : List Kind := if isStatic then [.keyword .staticKw] else []

inductive SpellsField : FieldDecl → List Kind → Prop where
  | plain {name type : String} {isPublic isStatic : Bool} {s : Span} :
      SpellsField ⟨name, type, isPublic, isStatic, none, s⟩
        (.keyword .fieldKw :: visibilityKind isPublic ::
          (staticKinds isStatic ++ [.ident name, .ident type]))
  | withDefault {cap : Nat} {named : Bool} {name type : String} {isPublic isStatic : Bool}
      {e : Expr} {s : Span} {ks : List Kind} (h : Spells 0 cap named e ks) :
      SpellsField ⟨name, type, isPublic, isStatic, some e, s⟩
        (.keyword .fieldKw :: visibilityKind isPublic ::
          (staticKinds isStatic ++ .ident name :: .ident type :: .symbol .eq :: ks))

def paramKinds (p : Param) : List Kind := [.ident p.name, .symbol .colon, .ident p.typeName]

/-- Parameters, each with the comma behind it. -/
def eachParam (ps : List Param) : List Kind := ps.flatMap fun p => paramKinds p ++ [.symbol .comma]

inductive SpellsParams : List Param → List Kind → Prop where
  | absent : SpellsParams [] []
  | empty : SpellsParams [] [.symbol .lparen, .symbol .rparen]
  | some {ps : List Param} {p : Param} :
      SpellsParams (ps ++ [p]) (.symbol .lparen :: (eachParam ps ++ paramKinds p ++
        [.symbol .rparen]))

def modifierKinds : MethodKind → List Kind
  | .plain => []
  | .static => [.keyword .staticKw]
  | .operator => [.keyword .classKw]

inductive SpellsMethod : MethodDecl → List Kind → Prop where
  | mk {name returnType : String} {ns rs bs s : Span} {params : List Param} {isPublic : Bool}
      {kind : MethodKind} {tail : Tail} {ss : List Stmt} {ks ks' : List Kind}
      (h : SpellsParams params ks) (h' : SpellsStmts tail ss ks') :
      SpellsMethod ⟨name, ns, returnType, rs, params, .mk ss bs, isPublic, kind, s⟩
        (.keyword .defKw :: visibilityKind isPublic :: (modifierKinds kind ++
          .ident returnType :: .ident name :: (ks ++ .symbol .colon ::
            (ks' ++ [.symbol .semicolon]))))

/-- Fields and methods may be mixed. -/
inductive SpellsMembers : List FieldDecl → List MethodDecl → List Kind → Prop where
  | nil : SpellsMembers [] [] []
  | field {fs : List FieldDecl} {ms : List MethodDecl} {f : FieldDecl} {ks ks' : List Kind}
      (h : SpellsMembers fs ms ks) (h' : SpellsField f ks') :
      SpellsMembers (fs ++ [f]) ms (ks ++ ks')
  | method {fs : List FieldDecl} {ms : List MethodDecl} {m : MethodDecl} {ks ks' : List Kind}
      (h : SpellsMembers fs ms ks) (h' : SpellsMethod m ks') :
      SpellsMembers fs (ms ++ [m]) (ks ++ ks')

/-- The keyword of a class, with the visibility before it, behind it or left out. -/
inductive SpellsHead : Bool → List Kind → Prop where
  | absent : SpellsHead true [.keyword .classKw]
  | before {isPublic : Bool} : SpellsHead isPublic [visibilityKind isPublic, .keyword .classKw]
  | behind {isPublic : Bool} : SpellsHead isPublic [.keyword .classKw, visibilityKind isPublic]

inductive SpellsItem : Item → List Kind → Prop where
  | nspace {name : String} {s : Span} :
      SpellsItem (.nspace name s) [.keyword .namespaceKw, .ident name]
  | cls {name : String} {ns s : Span} {isPublic : Bool} {fs : List FieldDecl}
      {ms : List MethodDecl} {ks ks' : List Kind} (h : SpellsHead isPublic ks)
      (h' : SpellsMembers fs ms ks') :
      SpellsItem (.cls ⟨name, ns, isPublic, fs, ms, s⟩)
        (ks ++ .ident name :: .symbol .colon :: (ks' ++ [.symbol .semicolon]))

inductive SpellsItems : List Item → List Kind → Prop where
  | nil : SpellsItems [] []
  | snoc {is : List Item} {i : Item} {ks ks' : List Kind} (h : SpellsItems is ks)
      (h' : SpellsItem i ks') : SpellsItems (is ++ [i]) (ks ++ ks')

end Grammar
end ClassAsm
