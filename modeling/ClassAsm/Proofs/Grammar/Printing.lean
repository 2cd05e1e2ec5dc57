import Mathlib.Tactic
import ClassAsm.Proofs.Grammar.Spelling

/-! Printing a tree as tokens. Every compound operand stands in parentheses, and so does every
expression that is a statement: it then begins with a parenthesis and cannot go on from the statement
before it, unless that statement ends in a name, which the parenthesis would make a call. A printer
that is `guarded` puts the value before it in parentheses too. -/

namespace ClassAsm

theorem intercalate_snoc {α : Type} (sep : List α) (xs : List (List α)) (x : List α) :
    sep.intercalate (xs ++ [x]) = (xs.flatMap fun y => y ++ sep) ++ x := by
  induction xs with
  | nil => simp [List.intercalate]
  | cons y ys ih =>
    obtain ⟨z, zs, hz⟩ : ∃ z zs, ys ++ [x] = z :: zs := by
      cases ys <;> simp
    simp only [List.intercalate, List.cons_append, List.flatMap_cons, List.append_assoc] at ih ⊢
    rw [← ih, hz, List.intersperse_cons_cons, List.flatten_cons, List.flatten_cons]

def parens (ks : List Kind) : List Kind := .symbol .lparen :: (ks ++ [.symbol .rparen])

def parensIf (p : Bool) (ks : List Kind) : List Kind := if p then parens ks else ks

namespace Expr

def isCompound : Expr → Bool
  | binary .. | unary .. | cast .. => true
  | _ => false

def isName : Expr → Bool
  | ident .. => true
  | _ => false

/-- The last token of the printed expression is a name that a parenthesis would make a call. -/
def endsInName : Expr → Bool
  | ident .. => true
  | unary _ e _ | binary _ _ e _ => e.isName
  | _ => false

end Expr

mutual

def Expr.print : Expr → List Kind
  | .int v _ => [.int v]
  | .float v _ => [.float v]
  | .str v _ => [.str v]
  | .ident name _ => [.ident name]
  | .binary op l r _ => parensIf l.isCompound l.print ++ op.kind :: parensIf r.isCompound r.print
  | .unary op e _ => op.kind :: parensIf e.isCompound e.print
  | .call callee _ args _ =>
    .ident callee :: parens ([.symbol .comma].intercalate (Expr.printEach args))
  | .cast e target _ _ => parensIf e.isCompound e.print ++ [.keyword .asKw, .ident target]

def Expr.printEach : List Expr → List (List Kind)
  | [] => []
  | e :: es => e.print :: Expr.printEach es

end

def Stmt.isExpr : Stmt → Bool
  | .expr _ => true
  | _ => false

def Stmt.isBareReturn : Stmt → Bool
  | .ret none _ => true
  | _ => false

mutual

/-- If the statement is `apart`, no parenthesis behind it may continue it. -/
def Stmt.print (guarded apart : Bool) : Stmt → List Kind
  | .expr e => parens e.print
  | .declare name _ type _ => [.ident name, .symbol .colon, .ident type]
  | .assign name _ none e _ =>
    .ident name :: .symbol .eq :: parensIf (apart && e.endsInName) e.print
  | .assign name _ (some type) e _ =>
    .ident name :: .symbol .colon :: .ident type :: .symbol .eq ::
      parensIf (apart && e.endsInName) e.print
  | .ret none _ => [.keyword .returnKw]
  | .ret (some e) _ => .keyword .returnKw :: parensIf (apart && e.endsInName) e.print
  | .cond first rest otherwise _ =>
    first.print guarded .ifKw ++ (Arm.printEach guarded rest ++ Block.printElse guarded otherwise)
  | .loop e b _ => .keyword .whileKw :: (e.print ++ .symbol .colon :: b.print guarded)

def Arm.print (guarded : Bool) (word : Keyword) : Arm → List Kind
  | .mk e b _ => .keyword word :: (e.print ++ .symbol .colon :: b.print guarded)

def Arm.printEach (guarded : Bool) : List Arm → List Kind
  | [] => []
  | a :: as => a.print guarded .elifKw ++ Arm.printEach guarded as

def Block.printElse (guarded : Bool) : Option Block → List Kind
  | none => []
  | some b => .keyword .elseKw :: .symbol .colon :: b.print guarded

def Block.print (guarded : Bool) : Block → List Kind
  | .mk ss _ => Stmt.printEach guarded ss ++ [.symbol .semicolon]

def Stmt.printEach (guarded : Bool) : List Stmt → List Kind
  | [] => []
  | s :: ss => s.print guarded (guarded && ss.head?.any Stmt.isExpr) ++ Stmt.printEach guarded ss

end

mutual

/-- A `return` without a value is the last statement of its block. -/
def Stmt.tidy : Stmt → Bool
  | .cond first rest otherwise _ => first.tidy && Arm.tidyEach rest && Block.tidyElse otherwise
  | .loop _ b _ => b.tidy
  | _ => true

def Arm.tidy : Arm → Bool
  | .mk _ b _ => b.tidy

def Arm.tidyEach : List Arm → Bool
  | [] => true
  | a :: as => a.tidy && Arm.tidyEach as

def Block.tidyElse : Option Block → Bool
  | none => true
  | some b => b.tidy

def Block.tidy : Block → Bool
  | .mk ss _ => Stmt.tidyEach ss

def Stmt.tidyEach : List Stmt → Bool
  | [] => true
  | s :: ss => (ss.isEmpty || !s.isBareReturn) && s.tidy && Stmt.tidyEach ss

end

open Grammar

def FieldDecl.print (f : FieldDecl) : List Kind :=
  .keyword .fieldKw :: visibilityKind f.isPublic ::
    (staticKinds f.isStatic ++ .ident f.name :: .ident f.typeName ::
      match f.default with
      | some e => .symbol .eq :: e.print
      | none => [])

def MethodDecl.print (guarded : Bool) (m : MethodDecl) : List Kind :=
  .keyword .defKw :: visibilityKind m.isPublic ::
    (modifierKinds m.kind ++ .ident m.returnType :: .ident m.name ::
      (parens ([.symbol .comma].intercalate (m.params.map paramKinds)) ++
        .symbol .colon :: m.body.print guarded))

def Item.print (guarded : Bool) : Item → List Kind
  | .nspace name _ => [.keyword .namespaceKw, .ident name]
  | .cls c =>
    visibilityKind c.isPublic :: .keyword .classKw :: .ident c.name :: .symbol .colon ::
      (c.fields.flatMap FieldDecl.print ++ c.methods.flatMap (MethodDecl.print guarded) ++
        [.symbol .semicolon])

def Item.tidy : Item → Bool
  | .nspace .. => true
  | .cls c => c.methods.all fun m => m.body.tidy

namespace Grammar

theorem spells_parens {floor cap : Nat} {named : Bool} {e : Expr} {ks : List Kind}
    (h : Spells 0 cap named e ks) : Spells floor tightest false e (parens ks) := by
  have : Spells floor tightest false (e.withSpan e.span) (parens ks) := .paren h
  cases e <;> exact this

theorem spellsEach_of_forall {print : Expr → List Kind} (es : List Expr)
    (h : ∀ e ∈ es, ∃ cap named, Spells 0 cap named e (print e)) :
    SpellsEach es (es.flatMap fun e => print e ++ [.symbol .comma]) := by
  induction es using List.reverseRecOn with
  | nil => exact .nil
  | append_singleton es e ih =>
    obtain ⟨cap, named, he⟩ := h e (by simp)
    simp only [List.flatMap_append, List.flatMap_cons, List.flatMap_nil, List.append_nil]
    exact .snoc (ih fun e' h' => h e' (by simp [h'])) he

end Grammar

theorem Expr.printEach_eq_map (es : List Expr) : Expr.printEach es = es.map Expr.print := by
  induction es with
  | nil => rfl
  | cons e es ih => simp [Expr.printEach, ih]

/-- An expression that is no operation can stand where any operator would bind. -/
theorem Grammar.Spells.of_atom {floor cap : Nat} {named : Bool} {e : Expr} {ks : List Kind}
    (h : Spells 0 cap named e ks) (he : e.isCompound = false) :
    Spells floor tightest named e ks := by
  cases h with
  | int => exact .int
  | float => exact .float
  | str => exact .str
  | ident => exact .ident
  | paren h => exact .paren h
  | call => exact .call
  | callWith h h' => exact .callWith h h'
  | unary | binary | cast => cases he

theorem Expr.spells_operand {floor cap : Nat} {e : Expr}
    (h : Spells 0 cap e.endsInName e e.print) :
    Spells floor tightest e.isName e (parensIf e.isCompound e.print) := by
  cases e with
  | int | float | str | ident | call => exact h.of_atom rfl
  | binary | unary | cast => exact spells_parens h

mutual

theorem Expr.spells_print : (e : Expr) → ∃ cap, Spells 0 cap e.endsInName e e.print
  | .int .. => ⟨_, .int⟩
  | .float .. => ⟨_, .float⟩
  | .str .. => ⟨_, .str⟩
  | .ident .. => ⟨_, .ident⟩
  | .binary op l r s => by
    obtain ⟨_, hl⟩ := Expr.spells_print l
    obtain ⟨_, hr⟩ := Expr.spells_print r
    exact ⟨_, .binary (Expr.spells_operand hl) (by cases op <;> decide)
      (by cases op <;> decide) (Expr.spells_operand hr)⟩
  | .unary op e s => by
    obtain ⟨_, he⟩ := Expr.spells_print e
    exact ⟨_, .unary (Expr.spells_operand he)⟩
  | .call callee cs args s => by
    have each := Expr.spells_printEach args
    rcases List.eq_nil_or_concat args with rfl | ⟨init, last, rfl⟩
    · exact ⟨_, .call⟩
    · obtain ⟨cap, hlast⟩ := each last (by simp)
      have : Spells 0 tightest false (.call callee cs (init ++ [last]) s) _ := .callWith
        (spellsEach_of_forall init fun e he => (each e (by simp [he])).imp fun _ h => ⟨_, h⟩) hlast
      refine ⟨tightest, ?_⟩
      simpa [Expr.print, Expr.printEach_eq_map, intercalate_snoc, parens, Expr.endsInName,
        List.flatMap_map] using this
  | .cast e target ts s => by
    obtain ⟨_, he⟩ := Expr.spells_print e
    exact ⟨_, .cast (Expr.spells_operand he) (by decide) (by decide)⟩

theorem Expr.spells_printEach : (es : List Expr) →
    ∀ e ∈ es, ∃ cap, Spells 0 cap e.endsInName e e.print
  | [], _, h => nomatch h
  | e :: es, e', h => by
    cases h with
    | head => exact Expr.spells_print e
    | tail _ h => exact Expr.spells_printEach es e' h

end

/-- A value in parentheses does not end in a name. -/
theorem Expr.spells_value (apart : Bool) (e : Expr) :
    ∃ cap named, Spells 0 cap named e (parensIf (apart && e.endsInName) e.print) ∧
      (apart = true → named = false) := by
  obtain ⟨cap, h⟩ := e.spells_print
  cases hp : apart && e.endsInName with
  | true => exact ⟨_, _, spells_parens h, fun _ => rfl⟩
  | false => exact ⟨_, _, h, fun ha => by simpa [ha] using hp⟩

/-- What the end of a printed statement admits. -/
def Grammar.Tail.Parts (tail : Tail) (apart : Bool) (s : Stmt) : Prop :=
  s.isBareReturn = false → ∀ k, Operator.ofKind? k = none →
    (apart = false → k ≠ .symbol .lparen) → tail.Admits k

theorem Grammar.Tail.Parts.value {apart named : Bool} {s : Stmt}
    (h : apart = true → named = false) : (Tail.value named).Parts apart s := by
  intro _ k ho hk
  refine ⟨ho, fun hn => hk ?_⟩
  cases apart with
  | true => rw [h rfl] at hn; cases hn
  | false => rfl

/-- The first token of a printed statement is no operator, and a parenthesis only if the statement is
an expression. -/
theorem Stmt.print_head (guarded apart : Bool) (s : Stmt) :
    ∃ k ks, s.print guarded apart = k :: ks ∧ Operator.ofKind? k = none ∧
      (s.isExpr = false → k ≠ .symbol .lparen) := by
  rcases s with _ | _ | ⟨_, _, _ | _, _, _⟩ | ⟨_ | _, _⟩ | ⟨⟨_, _, _⟩, _, _, _⟩ | _ <;>
    exact ⟨_, _, rfl, rfl, nofun⟩

mutual

theorem Stmt.spells_print (apart : Bool) : (s : Stmt) → s.tidy = true →
    ∃ tail, SpellsStmt tail s (s.print true apart) ∧ tail.Parts apart s
  | .expr e, _ => by
    obtain ⟨_, h⟩ := e.spells_print
    exact ⟨_, .expr (spells_parens h), .value fun _ => rfl⟩
  | .declare .., _ => ⟨_, .declare, fun _ _ _ _ => trivial⟩
  | .assign _ _ none e _, _ => by
    obtain ⟨_, _, h, hn⟩ := e.spells_value apart
    exact ⟨_, .assign h, .value hn⟩
  | .assign _ _ (some _) e _, _ => by
    obtain ⟨_, _, h, hn⟩ := e.spells_value apart
    exact ⟨_, .define h, .value hn⟩
  | .ret none _, _ => ⟨_, .bareReturn, nofun⟩
  | .ret (some e) _, _ => by
    obtain ⟨_, _, h, hn⟩ := e.spells_value apart
    exact ⟨_, .ret h, .value hn⟩
  | .cond first rest otherwise s, ht => by
    simp only [Stmt.tidy, Bool.and_eq_true] at ht
    have arms := Arm.spells_printEach rest ht.1.2 _ _ _ (Arm.spells_print first ht.1.1)
    match otherwise, ht with
    | none, _ =>
      exact ⟨.closed, by simpa [Stmt.print, Block.printElse] using SpellsStmt.cond (s := s) arms,
        fun _ _ _ _ => trivial⟩
    | some (.mk ss bs), ht =>
      obtain ⟨_, body⟩ := Block.spells_print (.mk ss bs) ht.2
      have stmt : SpellsStmt .closed (.cond first rest (some (.mk ss bs)) s) _ :=
        .condElse arms body
      exact ⟨.closed, by simpa [Stmt.print, Block.printElse, Block.print, Block.stmts] using stmt,
        fun _ _ _ _ => trivial⟩
  | .loop e (.mk ss bs) s, ht => by
    obtain ⟨_, h⟩ := e.spells_print
    obtain ⟨_, body⟩ := Block.spells_print (.mk ss bs) ht
    exact ⟨_, .loop h body, fun _ _ _ _ => trivial⟩

theorem Arm.spells_print : (a : Arm) → a.tidy = true → SpellsArms a [] (a.print true .ifKw)
  | .mk e (.mk ss bs) s, ht => by
    obtain ⟨_, h⟩ := e.spells_print
    obtain ⟨_, body⟩ := Block.spells_print (.mk ss bs) ht
    exact .first h body

theorem Arm.spells_printEach : (rest : List Arm) → Arm.tidyEach rest = true → ∀ a as ks,
    SpellsArms a as ks → SpellsArms a (as ++ rest) (ks ++ Arm.printEach true rest)
  | [], _, _, _, _, h => by simpa [Arm.printEach] using h
  | .mk e (.mk ss bs) s :: rest, ht, a, as, ks, h => by
    simp only [Arm.tidyEach, Bool.and_eq_true] at ht
    obtain ⟨_, he⟩ := e.spells_print
    obtain ⟨_, body⟩ := Block.spells_print (.mk ss bs) ht.1
    have arms : SpellsArms a (as ++ [.mk e (.mk ss bs) s]) _ := .snoc h he body
    simpa [Arm.printEach, Arm.print, Block.print, Block.stmts] using
      Arm.spells_printEach rest ht.2 _ _ _ arms

theorem Block.spells_print : (b : Block) → b.tidy = true →
    ∃ tail, SpellsStmts tail b.stmts (Stmt.printEach true b.stmts)
  | .mk ss _, ht => by
    simpa [Block.stmts] using Stmt.spells_printEach ss ht .closed [] [] .nil fun _ _ => trivial

theorem Stmt.spells_printEach : (ss : List Stmt) → Stmt.tidyEach ss = true →
    ∀ tail before ks, SpellsStmts tail before ks →
      (∀ k ∈ (Stmt.printEach true ss).head?, tail.Admits k) →
      ∃ tail', SpellsStmts tail' (before ++ ss) (ks ++ Stmt.printEach true ss)
  | [], _, tail, _, _, h, _ => ⟨tail, by simpa [Stmt.printEach] using h⟩
  | s :: ss, ht, _, _, _, h, ha => by
    simp only [Stmt.tidyEach, Bool.and_eq_true] at ht
    obtain ⟨⟨last, hs⟩, hss⟩ := ht
    obtain ⟨tail', hs', parts⟩ :=
      Stmt.spells_print (true && ss.head?.any Stmt.isExpr) s hs
    have apart : ∀ k ∈ (Stmt.printEach true ss).head?, tail'.Admits k := by
      intro k hk
      match ss, last, parts, hk with
      | next :: ss, last, parts, hk =>
        obtain ⟨_, _, print_eq, operator, paren⟩ :=
          Stmt.print_head true (true && ss.head?.any Stmt.isExpr) next
        rw [Stmt.printEach, print_eq] at hk
        cases hk
        exact parts (by simpa using last) _ operator (by simpa using paren)
    have := Stmt.spells_printEach ss hss tail' _ _ (.snoc h hs' fun k hk => ha k ?_) apart
    · simpa [Stmt.printEach] using this
    · rw [Stmt.printEach, List.head?_append, hk]
      rfl

end

theorem FieldDecl.spells_print (f : FieldDecl) : SpellsField f f.print := by
  obtain ⟨name, type, isPublic, isStatic, default, s⟩ := f
  cases default with
  | none => exact .plain
  | some e =>
    obtain ⟨_, h⟩ := e.spells_print
    exact .withDefault h

theorem Grammar.spellsParams_print (ps : List Param) :
    SpellsParams ps (parens ([.symbol .comma].intercalate (ps.map paramKinds))) := by
  rcases List.eq_nil_or_concat ps with rfl | ⟨ps, p, rfl⟩
  · exact .empty
  · have params : SpellsParams (ps ++ [p]) _ := .some
    simpa [intercalate_snoc, parens, eachParam, List.flatMap_map] using params

theorem MethodDecl.spells_print (m : MethodDecl) (ht : m.body.tidy = true) :
    SpellsMethod m (m.print true) := by
  obtain ⟨name, ns, returnType, rs, params, ⟨ss, bs⟩, isPublic, kind, s⟩ := m
  obtain ⟨_, body⟩ := Block.spells_print (.mk ss bs) ht
  exact .mk (spellsParams_print params) body

theorem Grammar.spellsMembers_print (fs : List FieldDecl) (ms : List MethodDecl)
    (ht : ∀ m ∈ ms, m.body.tidy = true) :
    SpellsMembers fs ms (fs.flatMap FieldDecl.print ++ ms.flatMap (MethodDecl.print true)) := by
  induction ms using List.reverseRecOn with
  | nil =>
    induction fs using List.reverseRecOn with
    | nil => exact .nil
    | append_singleton fs f ih => simpa using ih.field f.spells_print
  | append_singleton ms m ih =>
    simpa using (ih fun m hm => ht m (by simp [hm])).method (m.spells_print (ht m (by simp)))

theorem Item.spells_print (i : Item) (ht : i.tidy = true) : SpellsItem i (i.print true) := by
  cases i with
  | nspace => exact .nspace
  | cls c =>
    have members := spellsMembers_print c.fields c.methods (by simpa [Item.tidy] using ht)
    exact .cls .before members

/-- What the guarded printer gives for tidy items is a spelling of them. -/
theorem Grammar.spellsItems_print (items : List Item) (ht : ∀ i ∈ items, i.tidy = true) :
    SpellsItems items (items.flatMap (Item.print true)) := by
  induction items using List.reverseRecOn with
  | nil => exact .nil
  | append_singleton items i ih =>
    simpa using (ih fun i hi => ht i (by simp [hi])).snoc (i.spells_print (ht i (by simp)))

end ClassAsm
