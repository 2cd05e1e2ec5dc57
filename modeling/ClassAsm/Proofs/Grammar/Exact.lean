import ClassAsm.Proofs.Grammar.Bare
import ClassAsm.Proofs.Grammar.Spelling

/-! Trees with the tokens that they come from. Where a spelling is about the kinds of the tokens, this
is about the tokens themselves: every span in the tree is one that its tokens give it. A parenthesis
widens the expression in it, a block begins with its first token, and anything else goes from its
first part to its last. Each spelling of a tree gives it spans in this way. -/

namespace ClassAsm.Grammar

mutual

/-- The tokens yield the expression, with the bounds on operators that spellings have. -/
inductive Yields : (floor cap : Nat) → (named : Bool) → Expr → List Token → Prop where
  | int {floor v : Nat} {t : Token} (ht : t.kind = .int v) :
      Yields floor tightest false (.int v t.span) [t]
  | float {floor : Nat} {v : Binary64} {t : Token} (ht : t.kind = .float v) :
      Yields floor tightest false (.float v t.span) [t]
  | str {floor : Nat} {v : String} {t : Token} (ht : t.kind = .str v) :
      Yields floor tightest false (.str v t.span) [t]
  | ident {floor : Nat} {name : String} {t : Token} (ht : t.kind = .ident name) :
      Yields floor tightest true (.ident name t.span) [t]
  | unary {floor : Nat} {named : Bool} {op : UnaryOp} {e : Expr} {t : Token} {ts : List Token}
      (ht : t.kind = op.kind) (h : Yields tightest tightest named e ts) :
      Yields floor tightest named (.unary op e (t.span.join e.span)) (t :: ts)
  | paren {floor cap : Nat} {named : Bool} {e : Expr} {o c : Token} {ts : List Token}
      (ho : o.kind = .symbol .lparen) (h : Yields 0 cap named e ts)
      (hc : c.kind = .symbol .rparen) :
      Yields floor tightest false (e.withSpan (o.span.join c.span)) (o :: (ts ++ [c]))
  | call {floor : Nat} {callee : String} {n o c : Token} (hn : n.kind = .ident callee)
      (ho : o.kind = .symbol .lparen) (hc : c.kind = .symbol .rparen) :
      Yields floor tightest false (.call callee n.span [] (n.span.join c.span)) [n, o, c]
  | callWith {floor cap : Nat} {named : Bool} {callee : String} {es : List Expr} {e : Expr}
      {n o c : Token} {ts ts' : List Token} (hn : n.kind = .ident callee)
      (ho : o.kind = .symbol .lparen) (h : YieldsEach es ts) (h' : Yields 0 cap named e ts')
      (hc : c.kind = .symbol .rparen) :
      Yields floor tightest false (.call callee n.span (es ++ [e]) (n.span.join c.span))
        (n :: o :: (ts ++ ts' ++ [c]))
  | binary {floor cap cap' : Nat} {named named' : Bool} {op : BinaryOp} {l r : Expr} {o : Token}
      {ts ts' : List Token} (h : Yields floor cap named l ts) (ho : o.kind = op.kind)
      (above : floor < op.level) (below : op.level ≤ cap) (h' : Yields op.level cap' named' r ts') :
      Yields floor op.level named' (.binary op l r (l.span.join r.span)) (ts ++ o :: ts')
  | cast {floor cap : Nat} {named : Bool} {e : Expr} {target : String} {a t : Token}
      {ts : List Token} (h : Yields floor cap named e ts) (ha : a.kind = .keyword .asKw)
      (ht : t.kind = .ident target) (above : floor < Operator.cast.level)
      (below : Operator.cast.level ≤ cap) :
      Yields floor tightest false (.cast e target t.span (e.span.join t.span)) (ts ++ [a, t])

/-- Arguments, each with the comma behind it. -/
inductive YieldsEach : List Expr → List Token → Prop where
  | nil : YieldsEach [] []
  | snoc {cap : Nat} {named : Bool} {es : List Expr} {e : Expr} {c : Token} {ts ts' : List Token}
      (h : YieldsEach es ts) (h' : Yields 0 cap named e ts') (hc : c.kind = .symbol .comma) :
      YieldsEach (es ++ [e]) (ts ++ (ts' ++ [c]))

end

mutual

inductive YieldsStmt : Tail → Stmt → List Token → Prop where
  | expr {cap : Nat} {named : Bool} {e : Expr} {ts : List Token} (h : Yields 0 cap named e ts) :
      YieldsStmt (.value named) (.expr e) ts
  | declare {name type : String} {n c t : Token} (hn : n.kind = .ident name)
      (hc : c.kind = .symbol .colon) (ht : t.kind = .ident type) :
      YieldsStmt .closed (.declare name n.span type (n.span.join t.span)) [n, c, t]
  | assign {cap : Nat} {named : Bool} {name : String} {e : Expr} {n a : Token} {ts : List Token}
      (hn : n.kind = .ident name) (ha : a.kind = .symbol .eq) (h : Yields 0 cap named e ts) :
      YieldsStmt (.value named) (.assign name n.span none e (n.span.join e.span)) (n :: a :: ts)
  | define {cap : Nat} {named : Bool} {name type : String} {e : Expr} {n c t a : Token}
      {ts : List Token} (hn : n.kind = .ident name) (hc : c.kind = .symbol .colon)
      (ht : t.kind = .ident type) (ha : a.kind = .symbol .eq) (h : Yields 0 cap named e ts) :
      YieldsStmt (.value named) (.assign name n.span (some type) e (n.span.join e.span))
        (n :: c :: t :: a :: ts)
  | bareReturn {r : Token} (hr : r.kind = .keyword .returnKw) :
      YieldsStmt .bare (.ret none r.span) [r]
  | ret {cap : Nat} {named : Bool} {e : Expr} {r : Token} {ts : List Token}
      (hr : r.kind = .keyword .returnKw) (h : Yields 0 cap named e ts) :
      YieldsStmt (.value named) (.ret (some e) (r.span.join e.span)) (r :: ts)
  | loop {cap : Nat} {named : Bool} {e : Expr} {b : Block} {w c : Token} {ts ts' : List Token}
      (hw : w.kind = .keyword .whileKw) (h : Yields 0 cap named e ts)
      (hc : c.kind = .symbol .colon) (h' : YieldsBlock b ts') :
      YieldsStmt .closed (.loop e b (w.span.join b.span)) (w :: (ts ++ c :: ts'))
  | cond {start : Span} {first : Arm} {rest : List Arm} {ts : List Token}
      (h : YieldsArms start first rest ts) :
      YieldsStmt .closed (.cond first rest none (start.join (rest.getLastD first).span)) ts
  | condElse {start : Span} {first : Arm} {rest : List Arm} {b : Block} {w c : Token}
      {ts ts' : List Token} (h : YieldsArms start first rest ts) (hw : w.kind = .keyword .elseKw)
      (hc : c.kind = .symbol .colon) (h' : YieldsBlock b ts') :
      YieldsStmt .closed (.cond first rest (some b) (start.join b.span)) (ts ++ w :: c :: ts')

/-- Statements side by side. -/
inductive YieldsStmts : Tail → List Stmt → List Token → Prop where
  | nil : YieldsStmts .closed [] []
  | snoc {tail tail' : Tail} {ss : List Stmt} {s : Stmt} {ts ts' : List Token}
      (h : YieldsStmts tail ss ts) (h' : YieldsStmt tail' s ts')
      (apart : ∀ t ∈ ts'.head?, tail.Admits t.kind) : YieldsStmts tail' (ss ++ [s]) (ts ++ ts')

/-- A block begins with its first token, which may be the closing one. -/
inductive YieldsBlock : Block → List Token → Prop where
  | mk {tail : Tail} {ss : List Stmt} {z : Token} {ts : List Token} (h : YieldsStmts tail ss ts)
      (hz : z.kind = .symbol .semicolon) :
      YieldsBlock (.mk ss (((ts.head?.map Token.span).getD z.span).join z.span)) (ts ++ [z])

/-- The arms of an `if`, which starts with the first keyword. -/
inductive YieldsArms : (start : Span) → Arm → List Arm → List Token → Prop where
  | first {cap : Nat} {named : Bool} {e : Expr} {b : Block} {i c : Token} {ts ts' : List Token}
      (hi : i.kind = .keyword .ifKw) (h : Yields 0 cap named e ts)
      (hc : c.kind = .symbol .colon) (h' : YieldsBlock b ts') :
      YieldsArms i.span (.mk e b (i.span.join b.span)) [] (i :: (ts ++ c :: ts'))
  | snoc {cap : Nat} {named : Bool} {start : Span} {a : Arm} {as : List Arm} {e : Expr}
      {b : Block} {i c : Token} {ts₀ ts ts' : List Token} (h₀ : YieldsArms start a as ts₀)
      (hi : i.kind = .keyword .elifKw) (h : Yields 0 cap named e ts)
      (hc : c.kind = .symbol .colon) (h' : YieldsBlock b ts') :
      YieldsArms start a (as ++ [.mk e b (i.span.join b.span)]) (ts₀ ++ i :: (ts ++ c :: ts'))

end

inductive YieldsField : FieldDecl → List Token → Prop where
  | plain {name type : String} {isPublic isStatic : Bool} {k v n t : Token} {ms : List Token}
      (hk : k.kind = .keyword .fieldKw) (hv : v.kind = visibilityKind isPublic)
      (hm : ms.map Token.kind = staticKinds isStatic) (hn : n.kind = .ident name)
      (ht : t.kind = .ident type) :
      YieldsField ⟨name, type, isPublic, isStatic, none, k.span.join t.span⟩
        (k :: v :: (ms ++ [n, t]))
  | withDefault {cap : Nat} {named : Bool} {name type : String} {isPublic isStatic : Bool}
      {e : Expr} {k v n t a : Token} {ms ts : List Token}
      (hk : k.kind = .keyword .fieldKw) (hv : v.kind = visibilityKind isPublic)
      (hm : ms.map Token.kind = staticKinds isStatic) (hn : n.kind = .ident name)
      (ht : t.kind = .ident type) (ha : a.kind = .symbol .eq) (h : Yields 0 cap named e ts) :
      YieldsField ⟨name, type, isPublic, isStatic, some e, k.span.join e.span⟩
        (k :: v :: (ms ++ n :: t :: a :: ts))

inductive YieldsParam : Param → List Token → Prop where
  | mk {name type : String} {n c t : Token} (hn : n.kind = .ident name)
      (hc : c.kind = .symbol .colon) (ht : t.kind = .ident type) :
      YieldsParam ⟨name, type, n.span.join t.span⟩ [n, c, t]

/-- Parameters, each with the comma behind it. -/
inductive YieldsEachParam : List Param → List Token → Prop where
  | nil : YieldsEachParam [] []
  | snoc {ps : List Param} {p : Param} {c : Token} {ts ts' : List Token}
      (h : YieldsEachParam ps ts) (h' : YieldsParam p ts') (hc : c.kind = .symbol .comma) :
      YieldsEachParam (ps ++ [p]) (ts ++ (ts' ++ [c]))

inductive YieldsParams : List Param → List Token → Prop where
  | absent : YieldsParams [] []
  | empty {o c : Token} (ho : o.kind = .symbol .lparen) (hc : c.kind = .symbol .rparen) :
      YieldsParams [] [o, c]
  | some {ps : List Param} {p : Param} {o c : Token} {ts ts' : List Token}
      (ho : o.kind = .symbol .lparen) (h : YieldsEachParam ps ts) (h' : YieldsParam p ts')
      (hc : c.kind = .symbol .rparen) : YieldsParams (ps ++ [p]) (o :: (ts ++ ts' ++ [c]))

inductive YieldsMethod : MethodDecl → List Token → Prop where
  | mk {name returnType : String} {params : List Param} {body : Block} {isPublic : Bool}
      {kind : MethodKind} {d v r n c : Token} {ms ts ts' : List Token}
      (hd : d.kind = .keyword .defKw) (hv : v.kind = visibilityKind isPublic)
      (hm : ms.map Token.kind = modifierKinds kind) (hr : r.kind = .ident returnType)
      (hn : n.kind = .ident name) (h : YieldsParams params ts) (hc : c.kind = .symbol .colon)
      (h' : YieldsBlock body ts') :
      YieldsMethod ⟨name, n.span, returnType, r.span, params, body, isPublic, kind,
        d.span.join body.span⟩ (d :: v :: (ms ++ r :: n :: (ts ++ c :: ts')))

/-- Fields and methods may be mixed. -/
inductive YieldsMembers : List FieldDecl → List MethodDecl → List Token → Prop where
  | nil : YieldsMembers [] [] []
  | field {fs : List FieldDecl} {ms : List MethodDecl} {f : FieldDecl} {ts ts' : List Token}
      (h : YieldsMembers fs ms ts) (h' : YieldsField f ts') :
      YieldsMembers (fs ++ [f]) ms (ts ++ ts')
  | method {fs : List FieldDecl} {ms : List MethodDecl} {m : MethodDecl} {ts ts' : List Token}
      (h : YieldsMembers fs ms ts) (h' : YieldsMethod m ts') :
      YieldsMembers fs (ms ++ [m]) (ts ++ ts')

/-- The keyword of a class and its visibility, and the span of the first of them. -/
inductive YieldsHead : (isPublic : Bool) → (start : Span) → List Token → Prop where
  | absent {c : Token} (hc : c.kind = .keyword .classKw) : YieldsHead true c.span [c]
  | before {isPublic : Bool} {v c : Token} (hv : v.kind = visibilityKind isPublic)
      (hc : c.kind = .keyword .classKw) : YieldsHead isPublic v.span [v, c]
  | behind {isPublic : Bool} {c v : Token} (hc : c.kind = .keyword .classKw)
      (hv : v.kind = visibilityKind isPublic) : YieldsHead isPublic c.span [c, v]

inductive YieldsItem : Item → List Token → Prop where
  | nspace {name : String} {k n : Token} (hk : k.kind = .keyword .namespaceKw)
      (hn : n.kind = .ident name) : YieldsItem (.nspace name (k.span.join n.span)) [k, n]
  | cls {name : String} {start : Span} {isPublic : Bool} {fs : List FieldDecl}
      {ms : List MethodDecl} {n c z : Token} {ts ts' : List Token}
      (h : YieldsHead isPublic start ts) (hn : n.kind = .ident name)
      (hc : c.kind = .symbol .colon) (h' : YieldsMembers fs ms ts')
      (hz : z.kind = .symbol .semicolon) :
      YieldsItem (.cls ⟨name, n.span, isPublic, fs, ms, start.join z.span⟩)
        (ts ++ n :: c :: (ts' ++ [z]))

inductive YieldsItems : List Item → List Token → Prop where
  | nil : YieldsItems [] []
  | snoc {is : List Item} {i : Item} {ts ts' : List Token} (h : YieldsItems is ts)
      (h' : YieldsItem i ts') : YieldsItems (is ++ [i]) (ts ++ ts')

/-! Every spelling gives spans to its tree. -/

section

open List

variable {ts : List Token}

mutual

theorem Spells.yields {floor cap : Nat} {named : Bool} {e : Expr} {ks : List Kind} :
    Spells floor cap named e ks → ∀ {ts}, ts.map Token.kind = ks →
      ∃ e', Yields floor cap named e' ts ∧ e'.bare = e.bare
  | .int, ts, hts => by
    obtain ⟨t, rfl, ht⟩ := map_eq_singleton_iff.1 hts
    exact ⟨_, .int ht, rfl⟩
  | .float, ts, hts => by
    obtain ⟨t, rfl, ht⟩ := map_eq_singleton_iff.1 hts
    exact ⟨_, .float ht, rfl⟩
  | .str, ts, hts => by
    obtain ⟨t, rfl, ht⟩ := map_eq_singleton_iff.1 hts
    exact ⟨_, .str ht, rfl⟩
  | .ident, ts, hts => by
    obtain ⟨t, rfl, ht⟩ := map_eq_singleton_iff.1 hts
    exact ⟨_, .ident ht, rfl⟩
  | .unary h, ts, hts => by
    obtain ⟨t, us, rfl, ht, hus⟩ := map_eq_cons_iff.1 hts
    obtain ⟨e', yields, he⟩ := h.yields hus
    exact ⟨_, .unary ht yields, by simp [Expr.bare, he]⟩
  | .paren h, ts, hts => by
    obtain ⟨o, vs, rfl, ho, hvs⟩ := map_eq_cons_iff.1 hts
    obtain ⟨us, cs, rfl, hus, hcs⟩ := map_eq_append_iff.1 hvs
    obtain ⟨c, rfl, hc⟩ := map_eq_singleton_iff.1 hcs
    obtain ⟨e', yields, he⟩ := h.yields hus
    exact ⟨_, .paren ho yields hc, by simp [he]⟩
  | .call, ts, hts => by
    obtain ⟨n, vs, rfl, hn, hvs⟩ := map_eq_cons_iff.1 hts
    obtain ⟨o, cs, rfl, ho, hcs⟩ := map_eq_cons_iff.1 hvs
    obtain ⟨c, rfl, hc⟩ := map_eq_singleton_iff.1 hcs
    exact ⟨_, .call hn ho hc, rfl⟩
  | .callWith h h', ts, hts => by
    obtain ⟨n, vs, rfl, hn, hvs⟩ := map_eq_cons_iff.1 hts
    obtain ⟨o, ws, rfl, ho, hws⟩ := map_eq_cons_iff.1 hvs
    obtain ⟨as, cs, rfl, has, hcs⟩ := map_eq_append_iff.1 hws
    obtain ⟨us, us', rfl, hus, hus'⟩ := map_eq_append_iff.1 has
    obtain ⟨c, rfl, hc⟩ := map_eq_singleton_iff.1 hcs
    obtain ⟨es', each, hes⟩ := h.yields hus
    obtain ⟨e', yields, he⟩ := h'.yields hus'
    exact ⟨_, .callWith hn ho each yields hc, by simp [Expr.bare, Expr.bareEach_eq_map, hes, he]⟩
  | .binary h above below h', ts, hts => by
    obtain ⟨us, vs, rfl, hus, hvs⟩ := map_eq_append_iff.1 hts
    obtain ⟨o, us', rfl, ho, hus'⟩ := map_eq_cons_iff.1 hvs
    obtain ⟨l', left, hl⟩ := h.yields hus
    obtain ⟨r', right, hr⟩ := h'.yields hus'
    exact ⟨_, .binary left ho above below right, by simp [Expr.bare, hl, hr]⟩
  | .cast h above below, ts, hts => by
    obtain ⟨us, vs, rfl, hus, hvs⟩ := map_eq_append_iff.1 hts
    obtain ⟨a, ws, rfl, ha, hws⟩ := map_eq_cons_iff.1 hvs
    obtain ⟨t, rfl, ht⟩ := map_eq_singleton_iff.1 hws
    obtain ⟨e', yields, he⟩ := h.yields hus
    exact ⟨_, .cast yields ha ht above below, by simp [Expr.bare, he]⟩

theorem SpellsEach.yields {es : List Expr} {ks : List Kind} :
    SpellsEach es ks → ∀ {ts}, ts.map Token.kind = ks →
      ∃ es', YieldsEach es' ts ∧ es'.map Expr.bare = es.map Expr.bare
  | .nil, ts, hts => by
    obtain rfl := map_eq_nil_iff.1 hts
    exact ⟨[], .nil, rfl⟩
  | .snoc h h', ts, hts => by
    obtain ⟨us, vs, rfl, hus, hvs⟩ := map_eq_append_iff.1 hts
    obtain ⟨us', cs, rfl, hus', hcs⟩ := map_eq_append_iff.1 hvs
    obtain ⟨c, rfl, hc⟩ := map_eq_singleton_iff.1 hcs
    obtain ⟨es', each, hes⟩ := h.yields hus
    obtain ⟨e', yields, he⟩ := h'.yields hus'
    exact ⟨_, .snoc each yields hc, by simp [hes, he]⟩

end

/-- A closed list of statements gives a block. -/
theorem YieldsStmts.block {tail : Tail} {ss ss' : List Stmt} {z : Token}
    (h : YieldsStmts tail ss' ts) (bs : Span) (hz : z.kind = .symbol .semicolon)
    (hss : ss'.map Stmt.bare = ss.map Stmt.bare) :
    ∃ b, YieldsBlock b (ts ++ [z]) ∧ b.bare = (Block.mk ss bs).bare :=
  ⟨_, .mk h hz, by simp [Block.bare, Stmt.bareEach_eq_map, hss]⟩

mutual

theorem SpellsStmt.yields {tail : Tail} {s : Stmt} {ks : List Kind} :
    SpellsStmt tail s ks → ∀ {ts}, ts.map Token.kind = ks →
      ∃ s', YieldsStmt tail s' ts ∧ s'.bare = s.bare
  | .expr h, ts, hts => by
    obtain ⟨e', yields, he⟩ := h.yields hts
    exact ⟨_, .expr yields, by simp [Stmt.bare, he]⟩
  | .declare, ts, hts => by
    obtain ⟨n, us, rfl, hn, hus⟩ := map_eq_cons_iff.1 hts
    obtain ⟨c, vs, rfl, hc, hvs⟩ := map_eq_cons_iff.1 hus
    obtain ⟨t, rfl, ht⟩ := map_eq_singleton_iff.1 hvs
    exact ⟨_, .declare hn hc ht, rfl⟩
  | .assign h, ts, hts => by
    obtain ⟨n, us, rfl, hn, hus⟩ := map_eq_cons_iff.1 hts
    obtain ⟨a, vs, rfl, ha, hvs⟩ := map_eq_cons_iff.1 hus
    obtain ⟨e', yields, he⟩ := h.yields hvs
    exact ⟨_, .assign hn ha yields, by simp [Stmt.bare, he]⟩
  | .define h, ts, hts => by
    obtain ⟨n, us, rfl, hn, hus⟩ := map_eq_cons_iff.1 hts
    obtain ⟨c, vs, rfl, hc, hvs⟩ := map_eq_cons_iff.1 hus
    obtain ⟨t, ws, rfl, ht, hws⟩ := map_eq_cons_iff.1 hvs
    obtain ⟨a, xs, rfl, ha, hxs⟩ := map_eq_cons_iff.1 hws
    obtain ⟨e', yields, he⟩ := h.yields hxs
    exact ⟨_, .define hn hc ht ha yields, by simp [Stmt.bare, he]⟩
  | .bareReturn, ts, hts => by
    obtain ⟨r, rfl, hr⟩ := map_eq_singleton_iff.1 hts
    exact ⟨_, .bareReturn hr, rfl⟩
  | .ret h, ts, hts => by
    obtain ⟨r, us, rfl, hr, hus⟩ := map_eq_cons_iff.1 hts
    obtain ⟨e', yields, he⟩ := h.yields hus
    exact ⟨_, .ret hr yields, by simp [Stmt.bare, he]⟩
  | @SpellsStmt.loop _ _ _ _ _ bs _ _ _ h h', ts, hts => by
    obtain ⟨w, us, rfl, hw, hus⟩ := map_eq_cons_iff.1 hts
    obtain ⟨vs, ws, rfl, hvs, hws⟩ := map_eq_append_iff.1 hus
    obtain ⟨c, xs, rfl, hc, hxs⟩ := map_eq_cons_iff.1 hws
    obtain ⟨ys, zs, rfl, hys, hzs⟩ := map_eq_append_iff.1 hxs
    obtain ⟨z, rfl, hz⟩ := map_eq_singleton_iff.1 hzs
    obtain ⟨e', yields, he⟩ := h.yields hvs
    obtain ⟨ss', stmts, hss⟩ := h'.yields hys
    obtain ⟨b, block, hb⟩ := stmts.block bs hz hss
    exact ⟨_, .loop hw yields hc block, by simp [Stmt.bare, he, hb]⟩
  | .cond h, ts, hts => by
    obtain ⟨start, first', rest', arms, hf, hr⟩ := h.yields hts
    exact ⟨_, .cond arms, by simp [Stmt.bare, Arm.bareEach_eq_map, Block.bareElse, hf, hr]⟩
  | @SpellsStmt.condElse _ _ _ _ bs _ _ _ h h', ts, hts => by
    obtain ⟨us, vs, rfl, hus, hvs⟩ := map_eq_append_iff.1 hts
    obtain ⟨w, ws, rfl, hw, hws⟩ := map_eq_cons_iff.1 hvs
    obtain ⟨c, xs, rfl, hc, hxs⟩ := map_eq_cons_iff.1 hws
    obtain ⟨ys, zs, rfl, hys, hzs⟩ := map_eq_append_iff.1 hxs
    obtain ⟨z, rfl, hz⟩ := map_eq_singleton_iff.1 hzs
    obtain ⟨start, first', rest', arms, hf, hr⟩ := h.yields hus
    obtain ⟨ss', stmts, hss⟩ := h'.yields hys
    obtain ⟨b, block, hb⟩ := stmts.block bs hz hss
    exact ⟨_, .condElse arms hw hc block,
      by simp [Stmt.bare, Arm.bareEach_eq_map, Block.bareElse, hf, hr, hb]⟩

theorem SpellsStmts.yields {tail : Tail} {ss : List Stmt} {ks : List Kind} :
    SpellsStmts tail ss ks → ∀ {ts}, ts.map Token.kind = ks →
      ∃ ss', YieldsStmts tail ss' ts ∧ ss'.map Stmt.bare = ss.map Stmt.bare
  | .nil, ts, hts => by
    obtain rfl := map_eq_nil_iff.1 hts
    exact ⟨[], .nil, rfl⟩
  | .snoc h h' apart, ts, hts => by
    obtain ⟨us, vs, rfl, hus, hvs⟩ := map_eq_append_iff.1 hts
    obtain ⟨ss', stmts, hss⟩ := h.yields hus
    obtain ⟨s', stmt, hs⟩ := h'.yields hvs
    refine ⟨_, .snoc stmts stmt fun t ht => apart _ ?_, by simp [hss, hs]⟩
    rw [← hvs, List.head?_map, Option.mem_def.1 ht]
    rfl

theorem SpellsArms.yields {first : Arm} {rest : List Arm} {ks : List Kind} :
    SpellsArms first rest ks → ∀ {ts}, ts.map Token.kind = ks →
      ∃ start first' rest', YieldsArms start first' rest' ts ∧ first'.bare = first.bare ∧
        rest'.map Arm.bare = rest.map Arm.bare
  | @SpellsArms.first _ _ _ _ _ bs _ _ _ h h', ts, hts => by
    obtain ⟨i, us, rfl, hi, hus⟩ := map_eq_cons_iff.1 hts
    obtain ⟨vs, ws, rfl, hvs, hws⟩ := map_eq_append_iff.1 hus
    obtain ⟨c, xs, rfl, hc, hxs⟩ := map_eq_cons_iff.1 hws
    obtain ⟨ys, zs, rfl, hys, hzs⟩ := map_eq_append_iff.1 hxs
    obtain ⟨z, rfl, hz⟩ := map_eq_singleton_iff.1 hzs
    obtain ⟨e', yields, he⟩ := h.yields hvs
    obtain ⟨ss', stmts, hss⟩ := h'.yields hys
    obtain ⟨b, block, hb⟩ := stmts.block bs hz hss
    exact ⟨_, _, [], .first hi yields hc block, by simp [Arm.bare, he, hb], rfl⟩
  | @SpellsArms.snoc _ _ _ _ _ _ _ bs _ _ _ _ h₀ h h', ts, hts => by
    obtain ⟨us₀, us, rfl, hus₀, hus'⟩ := map_eq_append_iff.1 hts
    obtain ⟨i, us, rfl, hi, hus⟩ := map_eq_cons_iff.1 hus'
    obtain ⟨vs, ws, rfl, hvs, hws⟩ := map_eq_append_iff.1 hus
    obtain ⟨c, xs, rfl, hc, hxs⟩ := map_eq_cons_iff.1 hws
    obtain ⟨ys, zs, rfl, hys, hzs⟩ := map_eq_append_iff.1 hxs
    obtain ⟨z, rfl, hz⟩ := map_eq_singleton_iff.1 hzs
    obtain ⟨start, first', rest', arms, hf, hr⟩ := h₀.yields hus₀
    obtain ⟨e', yields, he⟩ := h.yields hvs
    obtain ⟨ss', stmts, hss⟩ := h'.yields hys
    obtain ⟨b, block, hb⟩ := stmts.block bs hz hss
    exact ⟨_, _, _, .snoc arms hi yields hc block, hf, by simp [Arm.bare, hr, he, hb]⟩

end

theorem SpellsField.yields {f : FieldDecl} {ks : List Kind} (h : SpellsField f ks)
    (hts : ts.map Token.kind = ks) : ∃ f', YieldsField f' ts ∧ f'.bare = f.bare := by
  cases h with
  | plain =>
    obtain ⟨k, us, rfl, hk, hus⟩ := map_eq_cons_iff.1 hts
    obtain ⟨v, vs, rfl, hv, hvs⟩ := map_eq_cons_iff.1 hus
    obtain ⟨ms, ws, rfl, hms, hws⟩ := map_eq_append_iff.1 hvs
    obtain ⟨n, xs, rfl, hn, hxs⟩ := map_eq_cons_iff.1 hws
    obtain ⟨t, rfl, ht⟩ := map_eq_singleton_iff.1 hxs
    exact ⟨_, .plain hk hv hms hn ht, rfl⟩
  | withDefault h =>
    obtain ⟨k, us, rfl, hk, hus⟩ := map_eq_cons_iff.1 hts
    obtain ⟨v, vs, rfl, hv, hvs⟩ := map_eq_cons_iff.1 hus
    obtain ⟨ms, ws, rfl, hms, hws⟩ := map_eq_append_iff.1 hvs
    obtain ⟨n, xs, rfl, hn, hxs⟩ := map_eq_cons_iff.1 hws
    obtain ⟨t, ys, rfl, ht, hys⟩ := map_eq_cons_iff.1 hxs
    obtain ⟨a, zs, rfl, ha, hzs⟩ := map_eq_cons_iff.1 hys
    obtain ⟨e', yields, he⟩ := h.yields hzs
    exact ⟨_, .withDefault hk hv hms hn ht ha yields, by simp [FieldDecl.bare, he]⟩

theorem yieldsParam_of_map {p : Param} (hts : ts.map Token.kind = paramKinds p) :
    ∃ p', YieldsParam p' ts ∧ p'.bare = p.bare := by
  obtain ⟨n, us, rfl, hn, hus⟩ := map_eq_cons_iff.1 hts
  obtain ⟨c, vs, rfl, hc, hvs⟩ := map_eq_cons_iff.1 hus
  obtain ⟨t, rfl, ht⟩ := map_eq_singleton_iff.1 hvs
  exact ⟨_, .mk hn hc ht, rfl⟩

theorem yieldsEachParam_of_map {ps : List Param} (hts : ts.map Token.kind = eachParam ps) :
    ∃ ps', YieldsEachParam ps' ts ∧ ps'.map Param.bare = ps.map Param.bare := by
  induction ps using List.reverseRecOn generalizing ts with
  | nil =>
    obtain rfl := map_eq_nil_iff.1 hts
    exact ⟨[], .nil, rfl⟩
  | append_singleton ps p ih =>
    rw [eachParam, List.flatMap_append] at hts
    obtain ⟨us, vs, rfl, hus, hvs⟩ := map_eq_append_iff.1 hts
    rw [List.flatMap_singleton] at hvs
    obtain ⟨us', cs, rfl, hus', hcs⟩ := map_eq_append_iff.1 hvs
    obtain ⟨c, rfl, hc⟩ := map_eq_singleton_iff.1 hcs
    obtain ⟨ps', each, hps⟩ := ih hus
    obtain ⟨p', param, hp⟩ := yieldsParam_of_map hus'
    exact ⟨_, .snoc each param hc, by simp [hps, hp]⟩

theorem SpellsParams.yields {ps : List Param} {ks : List Kind} (h : SpellsParams ps ks)
    (hts : ts.map Token.kind = ks) :
    ∃ ps', YieldsParams ps' ts ∧ ps'.map Param.bare = ps.map Param.bare := by
  cases h with
  | absent =>
    obtain rfl := map_eq_nil_iff.1 hts
    exact ⟨[], .absent, rfl⟩
  | empty =>
    obtain ⟨o, cs, rfl, ho, hcs⟩ := map_eq_cons_iff.1 hts
    obtain ⟨c, rfl, hc⟩ := map_eq_singleton_iff.1 hcs
    exact ⟨[], .empty ho hc, rfl⟩
  | some =>
    obtain ⟨o, vs, rfl, ho, hvs⟩ := map_eq_cons_iff.1 hts
    obtain ⟨ws, cs, rfl, hws, hcs⟩ := map_eq_append_iff.1 hvs
    obtain ⟨us, us', rfl, hus, hus'⟩ := map_eq_append_iff.1 hws
    obtain ⟨c, rfl, hc⟩ := map_eq_singleton_iff.1 hcs
    obtain ⟨ps', each, hps⟩ := yieldsEachParam_of_map hus
    obtain ⟨p', param, hp⟩ := yieldsParam_of_map hus'
    exact ⟨_, .some ho each param hc, by simp [hps, hp]⟩

theorem SpellsMethod.yields {m : MethodDecl} {ks : List Kind} (h : SpellsMethod m ks)
    (hts : ts.map Token.kind = ks) : ∃ m', YieldsMethod m' ts ∧ m'.bare = m.bare := by
  cases h with
  | @mk _ _ _ _ bs _ _ _ _ _ _ _ _ h h' =>
    obtain ⟨d, us, rfl, hd, hus⟩ := map_eq_cons_iff.1 hts
    obtain ⟨v, vs, rfl, hv, hvs⟩ := map_eq_cons_iff.1 hus
    obtain ⟨ms, ws, rfl, hms, hws⟩ := map_eq_append_iff.1 hvs
    obtain ⟨r, xs, rfl, hr, hxs⟩ := map_eq_cons_iff.1 hws
    obtain ⟨n, ys, rfl, hn, hys⟩ := map_eq_cons_iff.1 hxs
    obtain ⟨as, bs', rfl, has, hbs⟩ := map_eq_append_iff.1 hys
    obtain ⟨c, es, rfl, hc, hes⟩ := map_eq_cons_iff.1 hbs
    obtain ⟨fs, zs, rfl, hfs, hzs⟩ := map_eq_append_iff.1 hes
    obtain ⟨z, rfl, hz⟩ := map_eq_singleton_iff.1 hzs
    obtain ⟨ps', params, hps⟩ := h.yields has
    obtain ⟨ss', stmts, hss⟩ := h'.yields hfs
    obtain ⟨b, block, hb⟩ := stmts.block bs hz hss
    exact ⟨_, .mk hd hv hms hr hn params hc block, by simp [MethodDecl.bare, hps, hb]⟩

theorem SpellsMembers.yields {fs : List FieldDecl} {ms : List MethodDecl} {ks : List Kind}
    (h : SpellsMembers fs ms ks) (hts : ts.map Token.kind = ks) :
    ∃ fs' ms', YieldsMembers fs' ms' ts ∧ fs'.map FieldDecl.bare = fs.map FieldDecl.bare ∧
      ms'.map MethodDecl.bare = ms.map MethodDecl.bare := by
  induction h generalizing ts with
  | nil =>
    obtain rfl := map_eq_nil_iff.1 hts
    exact ⟨[], [], .nil, rfl, rfl⟩
  | field _ h' ih =>
    obtain ⟨us, vs, rfl, hus, hvs⟩ := map_eq_append_iff.1 hts
    obtain ⟨fs', ms', members, hfs, hms⟩ := ih hus
    obtain ⟨f', field, hf⟩ := h'.yields hvs
    exact ⟨_, _, .field members field, by simp [hfs, hf], hms⟩
  | method _ h' ih =>
    obtain ⟨us, vs, rfl, hus, hvs⟩ := map_eq_append_iff.1 hts
    obtain ⟨fs', ms', members, hfs, hms⟩ := ih hus
    obtain ⟨m', method, hm⟩ := h'.yields hvs
    exact ⟨_, _, .method members method, hfs, by simp [hms, hm]⟩

theorem SpellsHead.yields {isPublic : Bool} {ks : List Kind} (h : SpellsHead isPublic ks)
    (hts : ts.map Token.kind = ks) : ∃ start, YieldsHead isPublic start ts := by
  cases h with
  | absent =>
    obtain ⟨c, rfl, hc⟩ := map_eq_singleton_iff.1 hts
    exact ⟨_, .absent hc⟩
  | before =>
    obtain ⟨v, us, rfl, hv, hus⟩ := map_eq_cons_iff.1 hts
    obtain ⟨c, rfl, hc⟩ := map_eq_singleton_iff.1 hus
    exact ⟨_, .before hv hc⟩
  | behind =>
    obtain ⟨c, us, rfl, hc, hus⟩ := map_eq_cons_iff.1 hts
    obtain ⟨v, rfl, hv⟩ := map_eq_singleton_iff.1 hus
    exact ⟨_, .behind hc hv⟩

theorem SpellsItem.yields {i : Item} {ks : List Kind} (h : SpellsItem i ks)
    (hts : ts.map Token.kind = ks) : ∃ i', YieldsItem i' ts ∧ i'.bare = i.bare := by
  cases h with
  | nspace =>
    obtain ⟨k, us, rfl, hk, hus⟩ := map_eq_cons_iff.1 hts
    obtain ⟨n, rfl, hn⟩ := map_eq_singleton_iff.1 hus
    exact ⟨_, .nspace hk hn, rfl⟩
  | cls h h' =>
    obtain ⟨us, vs, rfl, hus, hvs⟩ := map_eq_append_iff.1 hts
    obtain ⟨n, ws, rfl, hn, hws⟩ := map_eq_cons_iff.1 hvs
    obtain ⟨c, xs, rfl, hc, hxs⟩ := map_eq_cons_iff.1 hws
    obtain ⟨ys, zs, rfl, hys, hzs⟩ := map_eq_append_iff.1 hxs
    obtain ⟨z, rfl, hz⟩ := map_eq_singleton_iff.1 hzs
    obtain ⟨start, head⟩ := h.yields hus
    obtain ⟨fs', ms', members, hfs, hms⟩ := h'.yields hys
    exact ⟨_, .cls head hn hc members hz, by simp [Item.bare, ClassDecl.bare, hfs, hms]⟩

theorem SpellsItems.yields {is : List Item} {ks : List Kind} (h : SpellsItems is ks)
    (hts : ts.map Token.kind = ks) :
    ∃ is', YieldsItems is' ts ∧ is'.map Item.bare = is.map Item.bare := by
  induction h generalizing ts with
  | nil =>
    obtain rfl := map_eq_nil_iff.1 hts
    exact ⟨[], .nil, rfl⟩
  | snoc _ h' ih =>
    obtain ⟨us, vs, rfl, hus, hvs⟩ := map_eq_append_iff.1 hts
    obtain ⟨is', items, his⟩ := ih hus
    obtain ⟨i', item, hi⟩ := h'.yields hvs
    exact ⟨_, .snoc items item, by simp [his, hi]⟩

end

end ClassAsm.Grammar
