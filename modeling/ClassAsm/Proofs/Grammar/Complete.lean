import ClassAsm.Proofs.Grammar.Exact
import ClassAsm.Proofs.Grammar.Walk

/-! Every spelling is read. An expression is read in front of whatever waits for it: its tokens never
complete an operator that was waiting before them, and when they are read, the operators that still
wait would all be applied before one that may not reach into the expression. What is read is the tree
that the tokens yield, spans included. -/

namespace ClassAsm.Grammar

theorem needIdent_eq {t : Token} {name : String} {expected : Expected} {k : String → Place}
    (h : t.kind = .ident name) : needIdent t expected k = goto (k name) := by
  rw [needIdent, h]

theorem needColon_eq {t : Token} {expected : Expected} {p : Place} (h : t.kind = .symbol .colon) :
    needColon t expected p = goto p := if_pos h

namespace Pending

variable {qs ps : List Pending} {e : Expr}

theorem applyAll_snoc (q : Pending) : applyAll (qs ++ [q]) e = q.apply (applyAll qs e) := by
  simp [applyAll]

theorem applyTight_append (op : Operator) (hq : ∀ q ∈ qs, op.level ≤ q.floor)
    (hp : floorOf ps < op.level) : applyTight op.level (qs ++ ps) e = (ps, applyAll qs e) := by
  induction qs generalizing e with
  | nil =>
    cases ps with
    | nil => rfl
    | cons p ps =>
      rw [List.nil_append, applyTight, if_neg]
      · rfl
      · rw [isTight_iff]
        exact Nat.not_le.2 hp
  | cons q qs ih =>
    rw [List.cons_append, applyTight, if_pos ((isTight_iff op).2 (hq q (by simp)))]
    exact ih fun q h => hq q (by simp [h])

end Pending

open Pending

/-- The place where the expression has just been read among its surroundings. -/
inductive Holds : Bool → Surroundings → Expr → Place → Prop where
  | operator {s : Surroundings} {e : Expr} : Holds false s e (.operator s e)
  | callee {s : Surroundings} {name : String} {ns : Span} :
      Holds true s (.ident name ns) (.callee s name ns)
  | name {b : Body} {name : String} {ns : Span} :
      Holds true (.of (.statement b)) (.ident name ns) (.afterName b name ns)

/-- The token does not make the name that it follows the target of an assignment. -/
def Surroundings.Apart (s : Surroundings) (k : Kind) : Prop :=
  ∀ b, s.purpose = .statement b → k ≠ .symbol .colon ∧ k ≠ .symbol .eq

theorem Holds.step {named : Bool} {s : Surroundings} {e : Expr} {p : Place} {t : Token}
    (h : Holds named s e p) (hn : named = true → t.kind ≠ .symbol .lparen) (ha : s.Apart t.kind) :
    Grammar.step p t = atOperator s e t := by
  cases h with
  | operator => rfl
  | callee => exact if_neg (hn rfl)
  | name =>
    obtain ⟨hc, he⟩ := ha _ rfl
    simp only [Grammar.step]
    exact if_neg (hn rfl)

theorem Holds.step_lparen {s : Surroundings} {name : String} {ns : Span} {p : Place} {t : Token}
    (h : Holds true s (.ident name ns) p) (ht : t.kind = .symbol .lparen) :
    Grammar.step p t = goto (.firstArgument s name ns) := by
  cases h <;> simp [Grammar.step, atCallee, ht]

/-- Where an operator leads that has the expression for its left operand. -/
def afterLeft (s : Surroundings) (e : Expr) : Operator → Step
  | .cast => goto (.castTarget s e)
  | .binary op => goto (.operand (s.wait (.binary op e)))

/-- The expression has been read; the operators that have come with it and still wait are applied
before any that binds no tighter than `cap`. -/
def Held (cap : Nat) (named : Bool) (s : Surroundings) (e : Expr) (p : Place) : Prop :=
  ∃ qs e', Holds named { s with pending := qs ++ s.pending } e' p ∧ (∀ q ∈ qs, cap ≤ q.floor) ∧
    applyAll qs e' = e

namespace Held

variable {cap : Nat} {named : Bool} {s : Surroundings} {e : Expr} {p : Place} {t : Token}

theorem of_holds (h : Holds named s e p) : Held cap named s e p := ⟨[], e, h, nofun, rfl⟩

theorem operator (h : Held cap named s e p) (op : Operator)
    (ht : Operator.ofKind? t.kind = some op) (above : floorOf s.pending < op.level)
    (below : op.level ≤ cap) :
    Grammar.step p t = afterLeft s e op := by
  obtain ⟨qs, e', holds, hq, rfl⟩ := h
  have paren : t.kind ≠ .symbol .lparen := fun h => by simp [h, Operator.ofKind?] at ht
  have apart : t.kind ≠ .symbol .colon ∧ t.kind ≠ .symbol .eq :=
    ⟨fun h => by simp [h, Operator.ofKind?] at ht, fun h => by simp [h, Operator.ofKind?] at ht⟩
  rw [holds.step (fun _ => paren) fun _ _ => apart, atOperator, ht]
  cases op <;>
    simp only [afterLeft, applyTight_append _ (fun q h => below.trans (hq q h)) above]

/-- Any other token finds the whole expression, with no operator waiting for it. -/
theorem rest (h : Held cap named s e p) (hs : s.pending = [])
    (ht : (Tail.value named).Admits t.kind) (ha : s.Apart t.kind) :
    Grammar.step p t = atOperator s e t := by
  obtain ⟨qs, e', holds, -, rfl⟩ := h
  rw [holds.step ht.2 ha, atOperator, atOperator, ht.1]
  simp only [hs, List.append_nil]
  rfl

end Held

/-- The token, if it can begin an expression, is read at the place as the first one of an expression
in these surroundings. -/
def Opens (s : Surroundings) (p : Place) (t : Token) : Prop :=
  ∀ q, atOperand s t = goto q → Grammar.step p t = goto q ∨
    ∃ b name, s = .of (.statement b) ∧ t.kind = .ident name ∧
      Grammar.step p t = goto (.afterName b name t.span)

theorem Opens.operand (s : Surroundings) (t : Token) : Opens s (.operand s) t := fun _ h => .inl h

theorem Opens.step {s : Surroundings} {p q : Place} {t : Token} (h : Opens s p t)
    (ht : ∀ name, t.kind ≠ .ident name) (hq : atOperand s t = goto q) :
    Grammar.step p t = goto q := by
  rcases h q hq with h | ⟨_, name, -, hk, -⟩
  · exact h
  · exact absurd hk (ht name)

theorem Opens.name {s : Surroundings} {p : Place} {t : Token} (h : Opens s p t) {name : String}
    (ht : t.kind = .ident name) :
    ∃ q, Grammar.step p t = goto q ∧ Holds true s (.ident name t.span) q := by
  rcases h (.callee s name t.span) (by rw [atOperand, ht]) with h | ⟨b, name', rfl, hk, h⟩
  · exact ⟨_, h, .callee⟩
  · obtain rfl : name = name' := by
      rw [ht] at hk
      cases hk
      rfl
    exact ⟨_, h, .name⟩

theorem Yields.floor_le_cap {floor cap : Nat} {named : Bool} {e : Expr} {ts : List Token}
    (h : Yields floor cap named e ts) (hf : floor ≤ tightest) : floor ≤ cap := by
  cases h with
  | int | float | str | ident | unary | paren | call | callWith | cast => exact hf
  | binary _ _ above => exact above.le

mutual

/-- The tokens of an expression are read in front of operators that they leave alone. -/
theorem Yields.leads {floor cap : Nat} {named : Bool} {e : Expr} {ts : List Token} :
    Yields floor cap named e ts → ∀ {s p}, (∀ t ∈ ts.head?, Opens s p t) →
      floorOf s.pending ≤ floor → floor ≤ tightest → ∃ q, Leads p ts q ∧ Held cap named s e q
  | .int hk, s, p, hp, _, _ =>
    ⟨_, .one ((hp _ rfl).step (by simp [hk]) (by rw [atOperand, hk])), .of_holds .operator⟩
  | .float hk, s, p, hp, _, _ =>
    ⟨_, .one ((hp _ rfl).step (by simp [hk]) (by rw [atOperand, hk])), .of_holds .operator⟩
  | .str hk, s, p, hp, _, _ =>
    ⟨_, .one ((hp _ rfl).step (by simp [hk]) (by rw [atOperand, hk])), .of_holds .operator⟩
  | .ident hk, s, p, hp, _, _ => by
    obtain ⟨q, step, holds⟩ := (hp _ rfl).name hk
    exact ⟨q, .one step, .of_holds holds⟩
  | @Yields.unary _ _ op _ t us hk h, s, p, hp, hf, ht => by
    have step := (hp t rfl).step (q := .operand (s.wait (.unary op t.span)))
      (by cases op <;> simp [hk, UnaryOp.kind]) (by cases op <;> rw [atOperand, hk] <;> rfl)
    obtain ⟨q, leads, qs, e', holds, hq, he⟩ := h.leads (s := s.wait (.unary op t.span))
      (fun t _ => .operand _ t) le_rfl le_rfl
    refine ⟨q, .cons step leads, qs ++ [.unary op t.span], e',
      by simpa [Surroundings.wait] using holds, ?_, ?_⟩
    · simp only [List.mem_append, List.mem_singleton]
      rintro q (hm | rfl)
      · exact hq q hm
      · exact le_rfl
    · rw [applyAll_snoc, he]
      rfl
  | @Yields.paren _ _ _ _ o c _ hk h hc, s, p, hp, _, _ => by
    have step := (hp o rfl).step (by simp [hk]) (by rw [atOperand, hk])
    obtain ⟨q, leads, held⟩ := h.leads (s := s.bracket (.paren o.span))
      (fun t _ => .operand _ t) le_rfl (Nat.zero_le _)
    have close := held.rest (t := c) rfl (by simp [Tail.Admits, hc, Operator.ofKind?])
      fun _ _ => by simp [hc]
    simp only [atOperator, hc, Surroundings.bracket, applyAll, List.foldl_nil] at close
    exact ⟨_, .cons step (leads.append (.one close)), .of_holds .operator⟩
  | .call hk ho hc, s, p, hp, _, _ => by
    obtain ⟨q, step, holds⟩ := (hp _ rfl).name hk
    exact ⟨_, .cons step (.cons (holds.step_lparen ho) (.one (if_pos hc))), .of_holds .operator⟩
  | @Yields.callWith _ _ _ _ _ _ n _ c _ _ hk ho h h' hc, s, p, hp, _, _ => by
    obtain ⟨q, step, holds⟩ := (hp _ rfl).name hk
    obtain ⟨q', leads, opens⟩ := h.leads s _ n.span
    obtain ⟨q'', leads', held⟩ := h'.leads (fun t _ => opens t) le_rfl (Nat.zero_le _)
    have close := held.rest (t := c) rfl (by simp [Tail.Admits, hc, Operator.ofKind?])
      fun _ _ => by simp [hc]
    simp only [atOperator, hc, Surroundings.bracket, applyAll, List.foldl_nil, List.reverse_cons,
      List.reverse_reverse] at close
    exact ⟨_, .cons step (.cons (holds.step_lparen ho)
      ((leads.append leads').append (.one close))), .of_holds .operator⟩
  | @Yields.binary _ _ _ _ _ op l r _ _ _ h ho above below h', s, p, hp, hf, ht => by
    obtain ⟨q, leads, held⟩ :=
      h.leads (fun t h => hp t (List.mem_head?_append_of_mem_head? h)) hf ht
    have step := held.operator (.binary op) (by rw [ho, Operator.ofKind?_kind])
      (hf.trans_lt above) below
    obtain ⟨q', leads', qs, r', holds, hq, hr⟩ := h'.leads (s := s.wait (.binary op l))
      (fun t _ => .operand _ t) le_rfl (level_le_tightest (.binary op))
    refine ⟨q', leads.append (.cons step leads'), qs ++ [.binary op l], r',
      by simpa [Surroundings.wait] using holds, ?_, ?_⟩
    · have cap := h'.floor_le_cap (level_le_tightest (.binary op))
      simp only [List.mem_append, List.mem_singleton]
      rintro q (hm | rfl)
      · exact cap.trans (hq q hm)
      · exact le_rfl
    · rw [applyAll_snoc, hr]
      rfl
  | .cast h ho hk above below, s, p, hp, hf, ht => by
    obtain ⟨q, leads, held⟩ :=
      h.leads (fun t h => hp t (List.mem_head?_append_of_mem_head? h)) hf ht
    have step := held.operator .cast (by rw [ho]; rfl) (hf.trans_lt above) below
    exact ⟨_, leads.append (.cons step (.one (needIdent_eq hk))), .of_holds .operator⟩

/-- Arguments are read behind the parenthesis of the call, up to where one more can begin. -/
theorem YieldsEach.leads {es : List Expr} {ts : List Token} : YieldsEach es ts →
    ∀ s callee ns, ∃ q, Leads (.firstArgument s callee ns) ts q ∧
      ∀ t, Opens (s.bracket (.call callee ns es.reverse)) q t
  | .nil, s, callee, ns => by
    refine ⟨_, .nil, fun t q hq => .inl ?_⟩
    have : t.kind ≠ .symbol .rparen := fun h => by
      rw [atOperand, h] at hq
      cases hq
    exact (if_neg this).trans hq
  | @YieldsEach.snoc _ _ _ _ c _ _ h h' hc, s, callee, ns => by
    obtain ⟨q, leads, opens⟩ := h.leads s callee ns
    obtain ⟨q', leads', held⟩ := h'.leads (fun t _ => opens t) le_rfl (Nat.zero_le _)
    have comma := held.rest (t := c) rfl (by simp [Tail.Admits, hc, Operator.ofKind?])
      fun _ _ => by simp [hc]
    simp only [atOperator, hc, Surroundings.bracket] at comma
    refine ⟨_, leads.append (leads'.append (.one comma)), ?_⟩
    rw [List.reverse_append]
    exact .operand _

end

/-- The token can begin a statement or end a block. -/
def Fresh (k : Kind) : Prop :=
  k ≠ .symbol .colon ∧ k ≠ .symbol .eq ∧ k ≠ .keyword .elifKw ∧ k ≠ .keyword .elseKw

theorem Yields.head {floor cap : Nat} {named : Bool} {e : Expr} {ts : List Token} :
    Yields floor cap named e ts → ∃ t us, ts = t :: us ∧ Fresh t.kind
  | .int ht | .float ht | .str ht | .ident ht | .paren ht .. | .call ht .. | .callWith ht .. =>
    ⟨_, _, rfl, by simp [Fresh, ht]⟩
  | @Yields.unary _ _ op _ _ _ ht _ =>
    ⟨_, _, rfl, by cases op <;> simp [Fresh, ht, UnaryOp.kind]⟩
  | .binary h .. | .cast h .. => by
    obtain ⟨t, us, rfl, ht⟩ := h.head
    exact ⟨t, _, rfl, ht⟩

theorem YieldsArms.head {start : Span} {first : Arm} {rest : List Arm} {ts : List Token} :
    YieldsArms start first rest ts → ∃ i us, ts = i :: us ∧ i.kind = .keyword .ifKw ∧ i.span = start
  | .first hi .. => ⟨_, _, rfl, hi, rfl⟩
  | .snoc h₀ .. => by
    obtain ⟨i, us, rfl, hi⟩ := h₀.head
    exact ⟨i, _, rfl, hi⟩

theorem YieldsStmt.head {tail : Tail} {s : Stmt} {ts : List Token} (h : YieldsStmt tail s ts) :
    ∃ t us, ts = t :: us ∧ Fresh t.kind := by
  cases h with
  | expr h => exact h.head
  | declare ht | assign ht | define ht | bareReturn ht | ret ht | loop ht =>
    exact ⟨_, _, rfl, by simp [Fresh, ht]⟩
  | cond h | condElse h =>
    obtain ⟨i, us, rfl, hi, -⟩ := h.head
    exact ⟨i, _, rfl, by simp [Fresh, hi]⟩

theorem Tail.admits_semicolon (tail : Tail) : tail.Admits (.symbol .semicolon) := by
  cases tail <;> simp [Admits, Operator.ofKind?]

/-- At the place a token that does not continue the last statement is read as the next token of the
body. -/
def Rests (tail : Tail) (b : Body) (p : Place) : Prop :=
  ∀ t, Fresh t.kind → tail.Admits t.kind → step p t = atStatement b t

theorem Rests.statement (b : Body) : Rests .closed b (.statement b) := fun _ _ _ => rfl

theorem Rests.close {tail : Tail} {b : Body} {p : Place} (h : Rests tail b p) {t : Token}
    (ht : t.kind = .symbol .semicolon) : step p t = goto (closeBlock (b.started t.span) t.span) := by
  rw [h t (by simp [Fresh, ht]) (by simpa [ht] using tail.admits_semicolon), atStatement, ht]

theorem atOperator_of {purpose : Purpose} {e : Expr} {t : Token}
    (h : Operator.ofKind? t.kind = none) :
    atOperator (.of purpose) e t = afterExpr purpose e t := by
  rw [atOperator, h]
  rfl

/-- A value that has been read ends its statement where the next token does not continue it. -/
theorem Held.rests {cap : Nat} {named : Bool} {purpose : Purpose} {e : Expr} {p : Place}
    {b : Body} {s : Stmt} (h : Held cap named (.of purpose) e p)
    (hp : ∀ t, afterExpr purpose e t = atStatement (b.push s) t) :
    Rests (.value named) (b.push s) p := fun t fresh admits => by
  rw [h.rest rfl admits fun _ _ => ⟨fresh.1, fresh.2.1⟩, atOperator_of admits.1, hp]

theorem Opens.statement {b : Body} {p : Place} {t : Token} (h : Grammar.step p t = atStatement b t) :
    Opens (.of (.statement (b.started t.span))) p t := by
  intro q hq
  cases hk : t.kind with
  | ident name =>
    refine .inr ⟨_, name, rfl, rfl, ?_⟩
    rw [h, atStatement, hk]
  | int | float | str =>
    left
    rw [h, atStatement, hk]
    simp only [hq]
    rfl
  | keyword | eof =>
    rw [atOperand, hk] at hq
    cases hq
  | symbol sign =>
    left
    rw [h, atStatement, hk]
    cases sign with
    | semicolon =>
      rw [atOperand, hk] at hq
      cases hq
    | _ =>
      simp only [hq]
      rfl

section Steps

variable {b : Body} {t : Token} {name type : String} {ns ts : Span} {chain : Chain}

theorem atStatement_name (h : t.kind = .ident name) :
    atStatement b t = goto (.afterName (b.started t.span) name t.span) := by
  rw [atStatement, h]

theorem atStatement_return (h : t.kind = .keyword .returnKw) :
    atStatement b t = goto (.returned (b.started t.span) t.span) := by
  rw [atStatement, h]

theorem atStatement_while (h : t.kind = .keyword .whileKw) :
    atStatement b t = goto (.operand (.of (.loop (b.started t.span) t.span))) := by
  rw [atStatement, h]

theorem atStatement_if (h : t.kind = .keyword .ifKw) :
    atStatement b t = goto (.operand (.of (.arm (b.started t.span) none t.span))) := by
  rw [atStatement, h]

theorem afterName_colon (h : t.kind = .symbol .colon) :
    step (.afterName b name ns) t = goto (.variableType b name ns) := by
  rw [step, h]

theorem afterName_eq (h : t.kind = .symbol .eq) :
    step (.afterName b name ns) t = goto (.operand (.of (.value b name ns none))) := by
  rw [step, h]

theorem afterType_eq (h : t.kind = .symbol .eq) :
    step (.afterType b name ns type ts) t = goto (.operand (.of (.value b name ns (some type)))) :=
  if_pos h

theorem afterArm_elif (h : t.kind = .keyword .elifKw) :
    step (.afterArm b chain) t = goto (.operand (.of (.arm b (some chain) t.span))) := by
  rw [step, h]

theorem afterArm_else (h : t.kind = .keyword .elseKw) :
    step (.afterArm b chain) t = goto (.elseColon b chain) := by
  rw [step, h]

theorem Rests.afterType :
    Rests .closed (b.push (.declare name ns type (ns.join ts))) (.afterType b name ns type ts) :=
  fun _ fresh _ => if_neg fresh.2.1

theorem Rests.afterArm : Rests .closed (b.push (chain.close none)) (.afterArm b chain) := by
  intro t fresh _
  simp only [step]
  split
  · exact absurd ‹_› fresh.2.2.1
  · exact absurd ‹_› fresh.2.2.2
  · rfl

theorem Opens.returned {start : Span} : Opens (.of (.returned b start)) (.returned b start) t := by
  intro q hq
  refine .inl ((if_neg fun h => ?_).trans hq)
  rw [atOperand, h] at hq
  cases hq

end Steps

/-- What reading some statements makes of a body. -/
def Body.holding (b : Body) (start : Option Span) (stmts : List Stmt) : Body :=
  { b with block := ⟨start, stmts⟩ }

/-- Where the end of a block leads that stands in a body. -/
def Owner.close (owner : Owner) (b : Body) (block : Block) : Place :=
  match owner with
  | .loop start e => .statement (b.push (.loop e block (start.join block.span)))
  | .arm chain keyword e =>
    .afterArm b (Chain.extend chain keyword (.mk e block (keyword.join block.span)))
  | .otherwise chain => .statement (b.push (chain.close (some block)))

/-- Statements that have been read in a new body end at its semicolon. -/
theorem Rests.closes {tail : Tail} {b : Body} {ss : List Stmt} {ts : List Token} {p : Place}
    {z : Token} (h : Rests tail (b.holding (ts.head?.map Token.span) ss.reverse) p)
    (hz : z.kind = .symbol .semicolon) :
    let block := Block.mk ss (((ts.head?.map Token.span).getD z.span).join z.span)
    step p z = goto (match b.outer with
      | [] => .member (b.cls.addMethod (b.method.close block))
      | (owner, enclosing) :: outer => owner.close { b with block := enclosing, outer } block) := by
  rw [h.close hz]
  simp only [closeBlock, Body.started, Body.holding, Option.getD_some, List.reverse_reverse]
  rcases b.outer with _ | ⟨⟨_ | _ | _, _⟩, _⟩ <;> rfl

/-- The tokens are read as the block of whatever stands in a body. -/
def ReadAsBlock (block : Block) (ts : List Token) : Prop :=
  ∀ (b : Body) (owner : Owner), Leads (.statement (b.enter owner)) ts (owner.close b block)

theorem ReadAsBlock.conditional {block : Block} {cap : Nat} {named : Bool} {e : Expr} {c : Token}
    {ts ts' : List Token} (h : ReadAsBlock block ts') (he : Yields 0 cap named e ts)
    (hc : c.kind = .symbol .colon) (purpose : Purpose) (b : Body) (owner : Expr → Owner)
    (hb : ∀ b, purpose ≠ .statement b)
    (hp : afterExpr purpose e c = goto (.statement (b.enter (owner e)))) :
    Leads (.operand (.of purpose)) (ts ++ c :: ts') ((owner e).close b block) := by
  obtain ⟨q, leads, held⟩ := he.leads (s := .of purpose) (fun t _ => .operand _ t) le_rfl
    (Nat.zero_le _)
  have colon : step q c = goto (.statement (b.enter (owner e))) := by
    rw [held.rest rfl (by simp [Tail.Admits, hc, Operator.ofKind?]) fun b h => absurd h (hb b),
      atOperator_of (by simp [hc, Operator.ofKind?]), hp]
  exact leads.append (.cons colon (h b (owner e)))

theorem Body.started_push_holding {b : Body} {ts us : List Token} {t : Token} {ss : List Stmt}
    {s : Stmt} : ((b.holding (ts.head?.map Token.span) ss.reverse).started t.span).push s =
      b.holding ((ts ++ t :: us).head?.map Token.span) (ss ++ [s]).reverse := by
  cases ts <;> simp [holding, started, push]

theorem Chain.close_none {start : Span} {first : Arm} {rest : List Arm} :
    Chain.close ⟨start, first, rest.reverse⟩ none =
      .cond first rest none (start.join (rest.getLastD first).span) := by
  cases rest using List.reverseRecOn <;> simp [close]

mutual

/-- A statement is read where its first token is taken as the next one of a body. -/
theorem YieldsStmt.leads {tail : Tail} {s : Stmt} {ts : List Token} : YieldsStmt tail s ts →
    ∀ {b p}, (∀ t ∈ ts.head?, step p t = atStatement b t) →
      ∃ q, Leads p ts q ∧ ∀ t ∈ ts.head?, Rests tail ((b.started t.span).push s) q
  | .expr h, b, p, hp => by
    obtain ⟨t, us, rfl, -⟩ := h.head
    obtain ⟨q, leads, held⟩ := h.leads (s := .of (.statement (b.started t.span)))
      (fun t' ht => by cases ht; exact .statement (hp t rfl)) le_rfl (Nat.zero_le _)
    exact ⟨q, leads, fun _ ht => by cases ht; exact held.rests fun _ => rfl⟩
  | .declare hn hc ht, b, p, hp => by
    have name := (hp _ rfl).trans (atStatement_name hn)
    exact ⟨_, .cons name (.cons (afterName_colon hc) (.one (needIdent_eq ht))),
      fun _ ht => by cases ht; exact .afterType⟩
  | @YieldsStmt.assign _ _ _ _ n _ _ hn ha h, b, p, hp => by
    have name := (hp _ rfl).trans (atStatement_name hn)
    obtain ⟨q, leads, held⟩ := h.leads (s := .of (.value (b.started n.span) _ n.span none))
      (fun t _ => .operand _ t) le_rfl (Nat.zero_le _)
    exact ⟨q, .cons name (.cons (afterName_eq ha) leads),
      fun _ ht => by cases ht; exact held.rests fun _ => rfl⟩
  | @YieldsStmt.define _ _ _ type _ n _ _ _ _ hn hc ht ha h, b, p, hp => by
    have name := (hp _ rfl).trans (atStatement_name hn)
    obtain ⟨q, leads, held⟩ := h.leads (s := .of (.value (b.started n.span) _ n.span (some type)))
      (fun t _ => .operand _ t) le_rfl (Nat.zero_le _)
    exact ⟨q, .cons name (.cons (afterName_colon hc) (.cons (needIdent_eq ht)
      (.cons (afterType_eq ha) leads))), fun _ ht => by cases ht; exact held.rests fun _ => rfl⟩
  | .bareReturn hr, b, p, hp =>
    ⟨_, .one ((hp _ rfl).trans (atStatement_return hr)),
      fun _ ht => by cases ht; exact fun t _ admits => if_pos admits⟩
  | .ret hr h, b, p, hp => by
    obtain ⟨q, leads, held⟩ := h.leads (fun _ _ => .returned) le_rfl (Nat.zero_le _)
    exact ⟨q, .cons ((hp _ rfl).trans (atStatement_return hr)) leads,
      fun _ ht => by cases ht; exact held.rests fun _ => rfl⟩
  | @YieldsStmt.loop _ _ _ _ w _ _ _ hw h hc h', b, p, hp => by
    have body : ReadAsBlock _ _ := h'.leads
    have leads := body.conditional h hc (.loop (b.started w.span) w.span) _ (.loop w.span)
      (fun _ h => nomatch h) (if_pos hc)
    exact ⟨_, .cons ((hp _ rfl).trans (atStatement_while hw)) leads,
      fun _ ht => by cases ht; exact .statement _⟩
  | .cond h, b, p, hp => by
    have leads := h.leads hp
    obtain ⟨i, us, rfl, -, rfl⟩ := h.head
    refine ⟨_, leads, fun _ ht => ?_⟩
    cases ht
    rw [← Chain.close_none]
    exact .afterArm
  | @YieldsStmt.condElse start first rest _ _ _ _ _ h hw hc h', b, p, hp => by
    have leads := h.leads fun t ht => hp t (List.mem_head?_append_of_mem_head? ht)
    have leads' := h'.leads (b.started start) (.otherwise ⟨start, first, rest.reverse⟩)
    refine ⟨_, leads.append (.cons (afterArm_else hw) (.cons (needColon_eq hc) leads')),
      fun t ht => ?_⟩
    obtain ⟨i, us, rfl, -, rfl⟩ := h.head
    cases ht
    simp only [Owner.close, Chain.close, List.reverse_reverse]
    exact .statement _

theorem YieldsArms.leads {start : Span} {first : Arm} {rest : List Arm} {ts : List Token} :
    YieldsArms start first rest ts →
    ∀ {b p}, (∀ t ∈ ts.head?, step p t = atStatement b t) →
      Leads p ts (.afterArm (b.started start) ⟨start, first, rest.reverse⟩)
  | @YieldsArms.first _ _ _ _ i _ _ _ hi h hc h', b, p, hp => by
    have body : ReadAsBlock _ _ := h'.leads
    exact .cons ((hp _ rfl).trans (atStatement_if hi)) (body.conditional h hc
      (.arm (b.started i.span) none i.span) _ (.arm none i.span) (fun _ h => nomatch h) (if_pos hc))
  | @YieldsArms.snoc _ _ start a as _ _ i _ _ _ _ h₀ hi h hc h', b, p, hp => by
    have leads := h₀.leads fun t ht => hp t (List.mem_head?_append_of_mem_head? ht)
    have body : ReadAsBlock _ _ := h'.leads
    have leads' := body.conditional h hc
      (.arm (b.started start) (some ⟨start, a, as.reverse⟩) i.span) _
      (.arm (some ⟨start, a, as.reverse⟩) i.span) (fun _ h => nomatch h) (if_pos hc)
    rw [List.reverse_append]
    exact leads.append (.cons (afterArm_elif hi) leads')

theorem YieldsBlock.leads {block : Block} {ts : List Token} : YieldsBlock block ts →
    ∀ (b : Body) (owner : Owner), Leads (.statement (b.enter owner)) ts (owner.close b block)
  | .mk h hz, b, owner => by
    obtain ⟨q, leads, rests⟩ := h.leads (b := b.enter owner) rfl
    exact leads.append (.one (rests.closes hz))

/-- Statements are read one behind the other: the first token of each is admitted by the tail of the
one before it, so it does not continue that one. -/
theorem YieldsStmts.leads {tail : Tail} {ss : List Stmt} {ts : List Token} :
    YieldsStmts tail ss ts → ∀ {b}, b.block = ⟨none, []⟩ →
      ∃ q, Leads (.statement b) ts q ∧
        Rests tail (b.holding (ts.head?.map Token.span) ss.reverse) q
  | .nil, b, hb => by
    obtain ⟨cls, m, block, outer⟩ := b
    obtain rfl : block = ⟨none, []⟩ := hb
    exact ⟨_, .nil, .statement _⟩
  | @YieldsStmts.snoc _ _ _ _ _ ts' h h' apart, b, hb => by
    obtain ⟨q, leads, rests⟩ := h.leads hb
    have next : ∀ t ∈ ts'.head?, step q t = atStatement _ t := fun t ht => by
      obtain ⟨_, us, rfl, fresh⟩ := h'.head
      cases ht
      exact rests _ fresh (apart _ rfl)
    obtain ⟨q', leads', rests'⟩ := h'.leads next
    obtain ⟨t, us, rfl, -⟩ := h'.head
    refine ⟨q', leads.append leads', ?_⟩
    rw [← Body.started_push_holding]
    exact rests' t rfl

end

/-- The token is read at the place as it would be between the members of the class. -/
def RestsAtMember (cls : OpenClass) (p : Place) : Prop :=
  ∀ t, t.kind ∈ [.keyword .defKw, .keyword .fieldKw, .symbol .semicolon] →
    step p t = atMember cls t

theorem visibility_eq (isPublic : Bool) : visibility? (visibilityKind isPublic) = some isPublic := by
  cases isPublic <;> rfl

theorem RestsAtMember.member (cls : OpenClass) : RestsAtMember cls (.member cls) := fun _ _ => rfl

theorem field_leads {cls : OpenClass} {p : Place} (hp : RestsAtMember cls p) {name type : String}
    {isPublic isStatic : Bool} {k v n t : Token} {ms : List Token}
    (hk : k.kind = .keyword .fieldKw) (hv : v.kind = visibilityKind isPublic)
    (hm : ms.map Token.kind = staticKinds isStatic) (hn : n.kind = .ident name)
    (ht : t.kind = .ident type) : Leads p (k :: v :: (ms ++ [n, t]))
      (.fieldDefault cls ⟨k.span, isPublic, isStatic, name, type, t.span⟩) := by
  have word : step p k = goto (.fieldVisibility cls k.span) := by
    rw [hp k (by simp [hk]), atMember, hk]
  have visibility : step (.fieldVisibility cls k.span) v =
      goto (.fieldModifier cls k.span isPublic) := by
    simp [step, hv, visibility_eq]
  cases isStatic with
  | true =>
    obtain ⟨m, rfl, hs⟩ := List.map_eq_singleton_iff.1 hm
    exact .cons word (.cons visibility
      (.cons (if_pos hs) (.cons (needIdent_eq hn) (.one (needIdent_eq ht)))))
  | false =>
    obtain rfl := List.map_eq_nil_iff.1 hm
    have modifier : step (.fieldModifier cls k.span isPublic) n =
        goto (.fieldType cls k.span isPublic false name) := by
      simp [step, hn, needIdent]
    exact .cons word (.cons visibility (.cons modifier (.one (needIdent_eq ht))))

theorem YieldsField.leads {f : FieldDecl} {ts : List Token} (h : YieldsField f ts)
    {cls : OpenClass} {p : Place} (hp : RestsAtMember cls p) :
    ∃ q, Leads p ts q ∧ RestsAtMember (cls.addField f) q := by
  cases h with
  | plain hk hv hm hn ht =>
    refine ⟨_, field_leads hp hk hv hm hn ht, fun t ht => if_neg fun h => ?_⟩
    simp [h] at ht
  | @withDefault _ named _ _ _ _ _ _ _ _ _ _ _ _ hk hv hm hn ht ha h =>
    obtain ⟨q, leads, held⟩ := h.leads (s := .of (.fieldDefault cls _))
      (fun t _ => .operand _ t) le_rfl (Nat.zero_le _)
    have before := (field_leads hp hk hv hm hn ht).append (.cons (if_pos ha) leads)
    refine ⟨q, by simpa using before, fun t ht => ?_⟩
    have admits : (Tail.value named).Admits t.kind ∧ Operator.ofKind? t.kind = none := by
      simp only [List.mem_cons, List.not_mem_nil, or_false] at ht
      rcases ht with ht | ht | ht <;> simp [ht, Tail.Admits, Operator.ofKind?]
    exact (held.rest rfl admits.1 fun _ h => nomatch h).trans (atOperator_of admits.2)

theorem YieldsParam.leads {q : Param} {ts : List Token} (h : YieldsParam q ts) {cls : OpenClass}
    {m : OpenMethod} {p : Place} {ps : List Param}
    (hp : ∀ t name, t.kind = .ident name →
      step p t = goto (.paramColon cls { m with params := ps } name t.span)) :
    Leads p ts (.paramEnd cls { m with params := q :: ps }) := by
  obtain ⟨hn, hc, ht⟩ := h
  exact .cons (hp _ _ hn) (.cons (needColon_eq hc) (.one (needIdent_eq ht)))

/-- Parameters with the comma behind each, up to where one more can begin. -/
theorem YieldsEachParam.leads {ps : List Param} {ts : List Token} (h : YieldsEachParam ps ts)
    (cls : OpenClass) {m : OpenMethod} (hm : m.params = []) :
    ∃ q, Leads (.firstParam cls m) ts q ∧ ∀ t name, t.kind = .ident name →
      step q t = goto (.paramColon cls { m with params := ps.reverse } name t.span) := by
  induction h with
  | nil =>
    obtain ⟨_, _, _, _, _, _, _, _⟩ := m
    obtain rfl := hm
    refine ⟨_, .nil, fun t name ht => ?_⟩
    simp [step, ht, needIdent]
  | @snoc ps p c _ _ _ h' hc ih =>
    obtain ⟨q, leads, next⟩ := ih
    have comma : step (.paramEnd cls { m with params := p :: ps.reverse }) c =
        goto (.nextParam cls { m with params := p :: ps.reverse }) := by
      rw [step, hc]
    rw [List.reverse_append]
    exact ⟨_, leads.append ((h'.leads next).append (.one comma)), fun _ _ h => needIdent_eq h⟩

theorem YieldsParams.leads {ps : List Param} {ts : List Token} (h : YieldsParams ps ts)
    (cls : OpenClass) {m : OpenMethod} (hm : m.params = []) :
    ∃ q, Leads (.methodParams cls m) ts q ∧ ∀ t, t.kind = .symbol .colon →
      step q t = goto (bodyStart cls { m with params := ps.reverse }) := by
  have same : { m with params := [] } = m := by
    obtain ⟨_, _, _, _, _, _, _, _⟩ := m
    cases hm
    rfl
  cases h with
  | absent =>
    refine ⟨_, .nil, fun t ht => ?_⟩
    simp [step, ht, needColon, same]
  | empty ho hc =>
    exact ⟨.methodColon cls m, .cons (if_pos ho) (.one (if_pos hc)),
      fun t ht => by rw [List.reverse_nil, same]; exact needColon_eq ht⟩
  | @some ps p o c _ _ ho h h' hc =>
    obtain ⟨q, leads, next⟩ := h.leads cls hm
    have close : step (.paramEnd cls { m with params := p :: ps.reverse }) c =
        goto (.methodColon cls { m with params := p :: ps.reverse }) := by
      rw [step, hc]
    rw [List.reverse_append]
    exact ⟨_, .cons (if_pos ho) ((leads.append (h'.leads next)).append (.one close)),
      fun _ h => needColon_eq h⟩

theorem method_leads {cls : OpenClass} {p : Place} (hp : RestsAtMember cls p) {isPublic : Bool}
    {kind : MethodKind} {name type : String} {d v r n : Token} {ms : List Token}
    (hd : d.kind = .keyword .defKw) (hv : v.kind = visibilityKind isPublic)
    (hm : ms.map Token.kind = modifierKinds kind) (hr : r.kind = .ident type)
    (hn : n.kind = .ident name) : Leads p (d :: v :: (ms ++ [r, n]))
      (.methodParams cls ⟨d.span, isPublic, kind, type, r.span, name, n.span, []⟩) := by
  have word : step p d = goto (.methodVisibility cls d.span) := by
    rw [hp d (by simp [hd]), atMember, hd]
  have visibility : step (.methodVisibility cls d.span) v =
      goto (.methodModifier cls d.span isPublic) := by
    simp [step, hv, visibility_eq]
  by_cases hk : kind = .plain
  · subst hk
    obtain rfl := List.map_eq_nil_iff.1 hm
    have modifier : step (.methodModifier cls d.span isPublic) r =
        goto (.methodName cls d.span isPublic .plain type r.span) := by
      simp [step, hr, needIdent]
    exact .cons word (.cons visibility (.cons modifier (.one (needIdent_eq hn))))
  · obtain ⟨m, rfl, modifier⟩ : ∃ m, ms = [m] ∧ step (.methodModifier cls d.span isPublic) m =
        goto (.returnType cls d.span isPublic kind) := by
      cases kind with
      | plain => contradiction
      | static | operator =>
        obtain ⟨m, rfl, hk⟩ := List.map_eq_singleton_iff.1 hm
        exact ⟨m, rfl, by simp [step, hk]⟩
    exact .cons word (.cons visibility
      (.cons modifier (.cons (needIdent_eq hr) (.one (needIdent_eq hn)))))

theorem YieldsMethod.leads {m : MethodDecl} {ts : List Token} (h : YieldsMethod m ts)
    {cls : OpenClass} {p : Place} (hp : RestsAtMember cls p) :
    Leads p ts (.member (cls.addMethod m)) := by
  obtain ⟨hd, hv, hm, hr, hn, hps, hc, ⟨hss, hz⟩⟩ := h
  obtain ⟨q, leads, colon⟩ := hps.leads cls (m := ⟨_, _, _, _, _, _, _, []⟩) rfl
  obtain ⟨q', leads', rests⟩ := hss.leads (b := ⟨cls, _, ⟨none, []⟩, []⟩) rfl
  have whole := (method_leads hp hd hv hm hr hn).append
    (leads.append (.cons (colon _ hc) (leads'.append (.one (rests.closes hz)))))
  simpa [OpenMethod.close] using whole

theorem YieldsMembers.leads {fs : List FieldDecl} {ms : List MethodDecl} {ts : List Token}
    (h : YieldsMembers fs ms ts) (cls : OpenClass) (hf : cls.fields = []) (hm : cls.methods = []) :
    ∃ q, Leads (.member cls) ts q ∧
      RestsAtMember { cls with fields := fs.reverse, methods := ms.reverse } q := by
  induction h with
  | nil =>
    obtain ⟨start, isPublic, name, ns, fields, methods⟩ := cls
    obtain rfl : fields = [] := hf
    obtain rfl : methods = [] := hm
    exact ⟨_, .nil, .member _⟩
  | field _ h' ih =>
    obtain ⟨q, leads, rests⟩ := ih
    obtain ⟨q', leads', rests'⟩ := h'.leads rests
    rw [List.reverse_append]
    exact ⟨q', leads.append leads', rests'⟩
  | method _ h' ih =>
    obtain ⟨q, leads, rests⟩ := ih
    rw [List.reverse_append]
    exact ⟨_, leads.append (h'.leads rests), .member _⟩

theorem YieldsHead.leads {isPublic : Bool} {start : Span} {ts : List Token}
    (h : YieldsHead isPublic start ts) :
    ∃ seen, Leads .top ts (.className start seen) ∧ seen.getD true = isPublic := by
  cases h with
  | @absent c hc =>
    have word : step .top c = goto (.className c.span none) := by simp [step, atTop, hc]
    exact ⟨none, .one word, rfl⟩
  | @before isPublic v _ hv hc =>
    have visibility : step .top v = goto (.classKeyword v.span isPublic) := by
      cases isPublic <;> simp [step, atTop, hv, visibilityKind, visibility?]
    exact ⟨some isPublic, .cons visibility (.one (if_pos hc)), rfl⟩
  | @behind isPublic c v hc hv =>
    have word : step .top c = goto (.className c.span none) := by simp [step, atTop, hc]
    have visibility : step (.className c.span none) v = goto (.className c.span (some isPublic)) := by
      simp [step, hv, visibility_eq]
    exact ⟨some isPublic, .cons word (.one visibility), rfl⟩

theorem YieldsItem.walks {i : Item} {ts : List Token} (h : YieldsItem i ts) (is : List Item) :
    Spot.walk ⟨is, .top⟩ ts = .ok ⟨i :: is, .top⟩ := by
  cases h with
  | nspace hk hn =>
    simp [Spot.step, step, atTop, hk, hn, goto, Except.map, Spot.advance, bind, Except.bind]
  | @cls name start isPublic fs ms n c z us vs h hn hc h' hz =>
    obtain ⟨seen, leads, rfl⟩ := h.leads
    have named : step (.className start seen) n =
        goto (.classColon start (seen.getD true) name n.span) := by
      cases seen <;> simp [step, hn, visibility?, needIdent]
    obtain ⟨q, leads', rests⟩ := h'.leads ⟨start, seen.getD true, name, n.span, [], []⟩ rfl rfl
    have close := rests z (by simp [hz])
    simp only [atMember, hz, OpenClass.close, List.reverse_reverse] at close
    have before := leads.append (.cons named (.cons (needColon_eq hc) leads'))
    rw [show us ++ n :: c :: (vs ++ [z]) = us ++ n :: c :: vs ++ [z] by simp]
    exact Spot.walk_append_eq_ok.2 ⟨_, before is, by rw [Spot.walk_cons, Spot.step, close]; rfl⟩

/-- The tokens of some items are read as these items. -/
theorem YieldsItems.walks {items : List Item} {ts : List Token} (h : YieldsItems items ts) :
    Spot.start.walk ts = .ok ⟨items.reverse, .top⟩ := by
  induction h with
  | nil => rfl
  | snoc _ h' ih =>
    rw [List.reverse_append]
    exact Spot.walk_append_eq_ok.2 ⟨_, ih, h'.walks _⟩

/-- Whatever spells some items is read as items that are the same up to spans. -/
theorem SpellsItems.walks {items : List Item} {ks : List Kind} (h : SpellsItems items ks)
    {ts : List Token} (hts : ts.map Token.kind = ks) :
    ∃ is, Spot.start.walk ts = .ok ⟨is, .top⟩ ∧ is.reverse.map Item.bare = items.map Item.bare := by
  obtain ⟨items', yields, same⟩ := h.yields hts
  exact ⟨items'.reverse, yields.walks, by rw [List.reverse_reverse, same]⟩

end ClassAsm.Grammar
