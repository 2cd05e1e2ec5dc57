import ClassAsm.Proofs.Grammar.Printing
import ClassAsm.Proofs.Grammar.Complete

/-! Printing an expression with the fewest parentheses. Whether a left operand or the operand of a
cast needs them depends on its own operator. A right operand is taken apart by an operator that binds
as loose as the one before it, wherever such an operator is reached without passing a parenthesis:
all of them stand on the left spine of the operand. A cast is one of them, and what it is applied to
may bind looser than what the cast is an operand of. What is printed in this way is read back. -/

namespace ClassAsm

open Grammar

namespace Expr

def looser (level : Nat) : Expr → Bool
  | binary op _ _ _ => op.level < level
  | _ => false

/-- The levels of the binary operators and casts that are reached through left operands and operands
of casts without a parenthesis on the way. -/
def spine : Expr → List Nat
  | binary op l _ _ => op.level :: if l.looser op.level then [] else l.spine
  | cast e _ _ _ => Operator.cast.level :: if e.looser Operator.cast.level then [] else e.spine
  | _ => []

/-- Some operator of the spine would be applied after one of the level that stands before it. -/
def torn (level : Nat) (e : Expr) : Bool := e.spine.any (· ≤ level)

def isInfix : Expr → Bool
  | binary .. | cast .. => true
  | _ => false

/-- The last token of the terse print is the name of a variable; that of a cast is one of a type. -/
def trailsName : Expr → Bool
  | ident .. => true
  | unary _ e _ => !e.isInfix && e.trailsName
  | binary op _ r _ => !r.torn op.level && r.trailsName
  | _ => false

end Expr

mutual

def Expr.terse : Expr → List Kind
  | .int v _ => [.int v]
  | .float v _ => [.float v]
  | .str v _ => [.str v]
  | .ident name _ => [.ident name]
  | .binary op l r _ =>
    parensIf (l.looser op.level) l.terse ++ op.kind :: parensIf (r.torn op.level) r.terse
  | .unary op e _ => op.kind :: parensIf e.isInfix e.terse
  | .call callee _ args _ =>
    .ident callee :: parens ([.symbol .comma].intercalate (Expr.terseEach args))
  | .cast e target _ _ =>
    parensIf (e.looser Operator.cast.level) e.terse ++ [.keyword .asKw, .ident target]

def Expr.terseEach : List Expr → List (List Kind)
  | [] => []
  | e :: es => e.terse :: Expr.terseEach es

end

theorem Expr.terseEach_eq_map (es : List Expr) : Expr.terseEach es = es.map Expr.terse := by
  induction es with
  | nil => rfl
  | cons e es ih => simp [Expr.terseEach, ih]

namespace Expr

/-- The tightest level of an operator behind the expression that takes all of it. -/
def cap : Expr → Nat
  | binary op _ _ _ => op.level
  | _ => tightest

theorem le_cap {e : Expr} {op : Operator} (h : e.looser op.level = false) : op.level ≤ e.cap := by
  cases e with
  | binary op' => simpa [looser, cap] using h
  | _ => exact level_le_tightest op

theorem cap_eq_tightest {e : Expr} (h : e.isInfix = false) : e.cap = tightest := by
  cases e with
  | binary => cases h
  | _ => rfl

theorem spine_eq_nil {e : Expr} (h : e.isInfix = false) : e.spine = [] := by
  cases e with
  | binary | cast => cases h
  | _ => rfl

theorem spine_pos : (e : Expr) → ∀ n ∈ e.spine, 0 < n
  | binary op l r s => by
    simp only [spine, List.forall_mem_cons]
    refine ⟨level_pos (.binary op), fun n hn => l.spine_pos n ?_⟩
    split at hn
    · cases hn
    · exact hn
  | cast e _ _ _ => by
    simp only [spine, List.forall_mem_cons]
    refine ⟨level_pos .cast, fun n hn => e.spine_pos n ?_⟩
    split at hn
    · cases hn
    · exact hn
  | int .. | float .. | str .. | ident .. | unary .. | call .. => nofun

/-- In parentheses or not, a first operand is spelled in such a way that the operator behind it takes
all of it. -/
theorem spells_first {e : Expr} {floor : Nat} (op : Operator)
    (h : ∀ {floor}, (∀ n ∈ e.spine, floor < n) → Spells floor e.cap e.trailsName e e.terse)
    (hs : ∀ n ∈ if e.looser op.level then [] else e.spine, floor < n) :
    ∃ cap named, Spells floor cap named e (parensIf (e.looser op.level) e.terse) ∧
      op.level ≤ cap := by
  cases hl : e.looser op.level with
  | true => exact ⟨_, _, spells_parens (h e.spine_pos), level_le_tightest op⟩
  | false =>
    rw [hl] at hs
    exact ⟨_, _, h hs, le_cap hl⟩

mutual

/-- Where every operator of the spine binds tighter than the floor, the terse print spells the
expression. -/
theorem spells_terse : (e : Expr) → ∀ {floor}, (∀ n ∈ e.spine, floor < n) →
    Spells floor e.cap e.trailsName e e.terse
  | .int .., _, _ => .int
  | .float .., _, _ => .float
  | .str .., _, _ => .str
  | .ident .., _, _ => .ident
  | .binary op l r s, floor, hs => by
    rw [spine, List.forall_mem_cons] at hs
    obtain ⟨_, _, left, below⟩ := spells_first (.binary op) (spells_terse l) hs.2
    have right : ∃ cap, Spells op.level cap (!r.torn op.level && r.trailsName) r
        (parensIf (r.torn op.level) r.terse) := by
      cases hr : r.torn op.level with
      | true => exact ⟨_, spells_parens (spells_terse r r.spine_pos)⟩
      | false => exact ⟨_, spells_terse r (by simpa [torn] using hr)⟩
    obtain ⟨_, right⟩ := right
    exact .binary left hs.1 below right
  | .unary op e s, _, _ => by
    have operand : Spells tightest tightest (!e.isInfix && e.trailsName) e
        (parensIf e.isInfix e.terse) := by
      cases he : e.isInfix with
      | true => exact spells_parens (spells_terse e e.spine_pos)
      | false => exact cap_eq_tightest he ▸ spells_terse e (by simp [spine_eq_nil he])
    exact .unary operand
  | .call callee cs args s, floor, _ => by
    have each := spells_terseEach args
    rcases List.eq_nil_or_concat args with rfl | ⟨init, last, rfl⟩
    · exact .call
    · have call : Spells floor tightest false (.call callee cs (init ++ [last]) s) _ :=
        .callWith (spellsEach_of_forall init fun e he => ⟨_, _, each e (by simp [he])⟩)
          (each last (by simp))
      simpa [terse, terseEach_eq_map, intercalate_snoc, parens, trailsName, cap,
        List.flatMap_map] using call
  | .cast e target ts s, floor, hs => by
    rw [spine, List.forall_mem_cons] at hs
    obtain ⟨_, _, left, below⟩ := spells_first .cast (spells_terse e) hs.2
    exact .cast left hs.1 below

theorem spells_terseEach : (es : List Expr) →
    ∀ e ∈ es, Spells 0 e.cap e.trailsName e e.terse
  | [], _, h => nomatch h
  | e :: es, e', h => by
    cases h with
    | head => exact spells_terse e e.spine_pos
    | tail _ h => exact spells_terseEach es e' h

end

end Expr

namespace Grammar

theorem Holds.ne_top {named : Bool} {s : Surroundings} {e : Expr} {p : Place}
    (h : Holds named s e p) : p ≠ .top := by
  cases h <;> nofun

theorem Held.ne_top {cap : Nat} {named : Bool} {s : Surroundings} {e : Expr} {p : Place}
    (h : Held cap named s e p) : p ≠ .top := by
  obtain ⟨_, _, holds, -, -⟩ := h
  exact holds.ne_top

theorem Holds.step_or_name {named : Bool} {s : Surroundings} {e : Expr} {p : Place} {t : Token}
    (h : Holds named s e p) (hn : named = true → t.kind ≠ .symbol .lparen) :
    Grammar.step p t = atOperator s e t ∨
      named = true ∧ s.pending = [] ∧ ∃ name ns, e = .ident name ns := by
  cases h with
  | operator => exact .inl rfl
  | callee => exact .inl (if_neg (hn rfl))
  | name => exact .inr ⟨rfl, rfl, _, _, rfl⟩

/-- Where an operand is expected, tokens that yield an expression are read as it, and a token behind
them that does not continue it finds all of it. A name is not the target of an assignment there. -/
theorem Yields.leads_operand {cap : Nat} {named : Bool} {e : Expr} {ts : List Token} {t : Token}
    {s : Surroundings} (h : Yields 0 cap named e ts) (hs : s.pending = [])
    (ht : (Tail.value named).Admits t.kind) :
    ∃ q, Leads (.operand s) ts q ∧ q ≠ .top ∧ step q t = atOperator s e t := by
  obtain ⟨q, leads, qs, e', holds, -, rfl⟩ :=
    h.leads (s := s) (fun t _ => .operand s t) (by simp [hs, Pending.floorOf]) (Nat.zero_le _)
  rcases holds.step_or_name (t := t) ht.2 with next | ⟨rfl, alone, name, ns, rfl⟩
  · refine ⟨q, leads, holds.ne_top, next.trans ?_⟩
    rw [atOperator, atOperator, ht.1, hs, List.append_nil]
    rfl
  · obtain ⟨rfl, -⟩ := List.append_eq_nil_iff.1 alone
    cases h with
    | @ident _ _ n hk =>
      exact ⟨.callee s name n.span, .one (by rw [step, atOperand, hk]), nofun, if_neg (ht.2 rfl)⟩

theorem read_congr {p q : Place} {t : Token} (h : step p t = step q t) (hp : p ≠ .top)
    (hq : q ≠ .top) (items : List Item) (last : Option Token) (rest : List Token) :
    read items last p (t :: rest) = read items last q (t :: rest) := by
  have ends : read.atEnd items last p t = read.atEnd items last q t := by
    rw [read.atEnd, read.atEnd, h]
    · exact hq
    · exact hp
  rw [read, read, h, ends]

theorem Leads.read {p q r : Place} {t : Token} {ts : List Token} (h : Leads p ts q)
    (hq : q ≠ .top) (hr : r ≠ .top) (hne : ts ≠ []) (hs : step q t = step r t)
    (items : List Item) (last : Option Token) (rest : List Token) :
    Grammar.read items last p (ts ++ t :: rest) =
      Grammar.read items ts.getLast? r (t :: rest) := by
  have walked := read_append last (.of_walk (h items)) (h items) (t :: rest)
  rw [List.getLast?_eq_some_getLast hne] at walked ⊢
  exact walked.trans (read_congr hs hq hr ..)

end Grammar

/-- The terse print of an expression is read as this expression, up to spans, in front of any token
that is no operator and, behind a variable, no parenthesis. All of the tokens are read and the next
one is not: it finds the reader at the end of the expression. This holds wherever an operand is
expected that no operator waits for, and at every other place that reads a first token as that of an
expression, unless the expression is a statement and the token would make it a declaration or an
assignment. -/
theorem Expr.read_terse (e : Expr) {ts : List Token} {t : Token}
    (hts : ts.map Token.kind = e.terse) (ht : Operator.ofKind? t.kind = none)
    (hp : e.trailsName = true → t.kind ≠ .symbol .lparen) :
    ∃ e', e'.bare = e.bare ∧
      (∀ (s : Surroundings) items last rest, s.pending = [] →
        read items last (.operand s) (ts ++ t :: rest) =
          read items ts.getLast? (.operator s e') (t :: rest)) ∧
      (∀ (s : Surroundings) p items last rest, s.pending = [] →
        (∀ first ∈ ts.head?, Opens s p first) → s.Apart t.kind →
        read items last p (ts ++ t :: rest) =
          read items ts.getLast? (.operator s e') (t :: rest)) ∧
      ∀ purpose, step (.operator (.of purpose) e') t = afterExpr purpose e' t := by
  obtain ⟨e', yields, same⟩ := (e.spells_terse e.spine_pos).yields hts
  have hne : ts ≠ [] := by
    obtain ⟨_, _, rfl, -⟩ := yields.head
    simp
  refine ⟨e', same, fun s items last rest hs => ?_, fun s p items last rest hs opens apart => ?_,
    fun purpose => atOperator_of ht⟩
  · obtain ⟨q, leads, hq, next⟩ := yields.leads_operand hs ⟨ht, hp⟩
    exact leads.read (r := .operator s e') hq nofun hne next ..
  · obtain ⟨q, leads, held⟩ := yields.leads opens (by simp [hs, Pending.floorOf]) (Nat.zero_le _)
    exact leads.read (r := .operator s e') held.ne_top nofun hne (held.rest hs ⟨ht, hp⟩ apart) ..

/-- A cast of a sum as the left operand of a product, with a remainder on the right. -/
def castProduct : Expr :=
  .binary .mul
    (.cast (.binary .add (.ident "a" .nowhere) (.ident "b" .nowhere) .nowhere) "i32" .nowhere
      .nowhere)
    (.binary .rem (.ident "c" .nowhere) (.ident "d" .nowhere) .nowhere) .nowhere

/-- It is printed as `a + b as i32 * (c % d)`. -/
theorem castProduct_terse_read :
    castProduct.terse =
      [.ident "a", .symbol .plus, .ident "b", .keyword .asKw, .ident "i32", .symbol .star,
        .symbol .lparen, .ident "c", .symbol .percent, .ident "d", .symbol .rparen] ∧
    ∃ e', e'.bare = castProduct.bare ∧ ∀ s : Surroundings, s.pending = [] →
      read [] none (.operand s) (castProduct.terse.map sample ++ [sample (.symbol .lparen)]) =
        read [] (some (sample (.symbol .rparen))) (.operator s e') [sample (.symbol .lparen)] := by
  have kinds : (castProduct.terse.map sample).map Token.kind = castProduct.terse := rfl
  have next : Operator.ofKind? (sample (.symbol .lparen)).kind = none := rfl
  obtain ⟨e', same, reads, -⟩ := castProduct.read_terse kinds next (by decide)
  exact ⟨rfl, e', same, fun s hs => reads s [] none [] hs⟩

end ClassAsm
