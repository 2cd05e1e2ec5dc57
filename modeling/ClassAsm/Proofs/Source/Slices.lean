import ClassAsm.Proofs.Grammar.Complete
import ClassAsm.Proofs.Grammar.Nested
import ClassAsm.Proofs.Renaming.Trees
import ClassAsm.Proofs.Source.Boundaries

/-! Spans are exact. The text under the span of an expression is split into the tokens that the
expression was read from, and these are read as the same expression again: a piece of a source ends
where it does because of the character behind it at most, and no operator of an expression reaches
out of it. -/

namespace ClassAsm

open Grammar

/-! The expressions of a tree. -/

mutual

/-- The expressions inside an expression. -/
def Expr.inner : Expr → List Expr
  | .int .. | .float .. | .str .. | .ident .. => []
  | .binary _ l r _ => l :: l.inner ++ r :: r.inner
  | .unary _ e _ | .cast e _ _ _ => e :: e.inner
  | .call _ _ args _ => Expr.nodesEach args

def Expr.nodesEach : List Expr → List Expr
  | [] => []
  | e :: es => e :: e.inner ++ Expr.nodesEach es

end

/-- An expression with those inside it. -/
def Expr.nodes (e : Expr) : List Expr := e :: e.inner

mutual

def Stmt.nodes : Stmt → List Expr
  | .expr e | .assign _ _ _ e _ => e.nodes
  | .declare .. => []
  | .ret value _ => value.toList.flatMap Expr.nodes
  | .cond first rest otherwise _ =>
    first.nodes ++ (Arm.nodesEach rest ++ Block.nodesElse otherwise)
  | .loop e b _ => e.nodes ++ b.nodes

def Arm.nodes : Arm → List Expr
  | .mk e b _ => e.nodes ++ b.nodes

def Arm.nodesEach : List Arm → List Expr
  | [] => []
  | a :: as => a.nodes ++ Arm.nodesEach as

def Block.nodesElse : Option Block → List Expr
  | none => []
  | some b => b.nodes

def Block.nodes : Block → List Expr
  | .mk ss _ => Stmt.nodesEach ss

def Stmt.nodesEach : List Stmt → List Expr
  | [] => []
  | s :: ss => s.nodes ++ Stmt.nodesEach ss

end

def FieldDecl.nodes (f : FieldDecl) : List Expr := f.default.toList.flatMap Expr.nodes

def MethodDecl.nodes (m : MethodDecl) : List Expr := m.body.nodes

/-- All expressions of an item. -/
def Item.nodes : Item → List Expr
  | .nspace .. => []
  | .cls c => c.fields.flatMap FieldDecl.nodes ++ c.methods.flatMap MethodDecl.nodes

@[simp] theorem Expr.inner_withSpan (e : Expr) (s : Span) : (e.withSpan s).inner = e.inner := by
  cases e <;> rfl

@[simp] theorem Expr.nodesEach_append (es es' : List Expr) :
    nodesEach (es ++ es') = nodesEach es ++ nodesEach es' := by
  induction es with
  | nil => rfl
  | cons e es ih => simp [nodesEach, ih]

@[simp] theorem Arm.nodesEach_append (as as' : List Arm) :
    nodesEach (as ++ as') = nodesEach as ++ nodesEach as' := by
  induction as with
  | nil => rfl
  | cons a as ih => simp [nodesEach, ih]

@[simp] theorem Stmt.nodesEach_append (ss ss' : List Stmt) :
    nodesEach (ss ++ ss') = nodesEach ss ++ nodesEach ss' := by
  induction ss with
  | nil => rfl
  | cons s ss ih => simp [nodesEach, ih]

namespace Grammar

/-! Each expression is yielded by a run of the tokens. -/

/-- Some of the tokens, without a gap, yield each of the expressions. -/
def Occur (es : List Expr) (ts : List Token) : Prop :=
  ∀ e ∈ es, ∃ cap named run, run <:+: ts ∧ Yields 0 cap named e run

variable {ts us : List Token} {es es' : List Expr}

theorem Occur.nil : Occur [] ts := nofun

theorem Occur.mono (h : Occur es ts) (hs : ts <:+: us) : Occur es us := fun e he => by
  obtain ⟨cap, named, run, hr, yields⟩ := h e he
  exact ⟨cap, named, run, hr.trans hs, yields⟩

theorem Occur.append (h : Occur es ts) (h' : Occur es' us) : Occur (es ++ es') (ts ++ us) := by
  intro e he
  rcases List.mem_append.1 he with he | he
  · exact h.mono (List.prefix_append ts us).isInfix e he
  · exact h'.mono (List.suffix_append ts us).isInfix e he

theorem Occur.skip {t : Token} (h : Occur es ts) : Occur es (t :: ts) :=
  h.mono (List.suffix_cons t ts).isInfix

theorem Occur.left (h : Occur es ts) : Occur es (ts ++ us) := h.mono (List.prefix_append ..).isInfix

theorem Occur.right (h : Occur es us) : Occur es (ts ++ us) := h.mono (List.suffix_append ..).isInfix

/-- What binds tighter than `floor` binds tighter than anything below it. -/
theorem Yields.loosen {floor floor' cap : Nat} {named : Bool} {e : Expr} {ts : List Token} :
    Yields floor cap named e ts → floor' ≤ floor → Yields floor' cap named e ts
  | .int ht, _ => .int ht
  | .float ht, _ => .float ht
  | .str ht, _ => .str ht
  | .ident ht, _ => .ident ht
  | .unary ht h, _ => .unary ht h
  | .paren ho h hc, _ => .paren ho h hc
  | .call hn ho hc, _ => .call hn ho hc
  | .callWith hn ho h h' hc, _ => .callWith hn ho h h' hc
  | .binary h ho above below h', hf => .binary (h.loosen hf) ho (hf.trans_lt above) below h'
  | .cast h ha ht above below, hf => .cast (h.loosen hf) ha ht (hf.trans_lt above) below

/-- What is inside an expression and the expression itself. -/
theorem Occur.node {floor cap : Nat} {named : Bool} {e : Expr} (h : Yields floor cap named e ts)
    (inner : Occur e.inner ts) : Occur e.nodes ts :=
  List.forall_mem_cons.2 ⟨⟨cap, named, ts, List.infix_rfl, h.loosen (Nat.zero_le _)⟩, inner⟩

mutual

theorem Yields.inner {floor cap : Nat} {named : Bool} {e : Expr} {ts : List Token} :
    Yields floor cap named e ts → Occur e.inner ts
  | .int _ | .float _ | .str _ | .ident _ | .call .. => .nil
  | .unary _ h => (Occur.node h h.inner).skip
  | .paren _ h _ => by simpa using h.inner.left.skip
  | .callWith _ _ h h' _ => by
    have args := h.nodes.append (Occur.node h' h'.inner)
    simpa [Expr.inner, Expr.nodesEach, Expr.nodes] using args.left.skip.skip
  | .binary h _ _ _ h' => (Occur.node h h.inner).append (Occur.node h' h'.inner).skip
  | .cast h .. => (Occur.node h h.inner).left

theorem YieldsEach.nodes {es : List Expr} {ts : List Token} :
    YieldsEach es ts → Occur (Expr.nodesEach es) ts
  | .nil => .nil
  | .snoc h h' _ => by
    simpa [Expr.nodesEach, Expr.nodes] using h.nodes.append (Occur.node h' h'.inner).left

end

theorem Yields.nodes {floor cap : Nat} {named : Bool} {e : Expr} (h : Yields floor cap named e ts) :
    Occur e.nodes ts := .node h h.inner

mutual

theorem YieldsStmt.nodes {tail : Tail} {s : Stmt} {ts : List Token} :
    YieldsStmt tail s ts → Occur s.nodes ts
  | .expr h => h.nodes
  | .declare .. | .bareReturn .. => .nil
  | .assign _ _ h => h.nodes.skip.skip
  | .define _ _ _ _ h => h.nodes.skip.skip.skip.skip
  | .ret _ h => by simpa [Stmt.nodes] using h.nodes.skip
  | .loop _ h _ h' => (h.nodes.append h'.nodes.skip).skip
  | .cond h => by simpa [Stmt.nodes, Block.nodesElse] using h.nodes
  | .condElse h _ _ h' => by
    simpa [Stmt.nodes, Block.nodesElse] using h.nodes.append h'.nodes.skip.skip

theorem YieldsStmts.nodes {tail : Tail} {ss : List Stmt} {ts : List Token} :
    YieldsStmts tail ss ts → Occur (Stmt.nodesEach ss) ts
  | .nil => .nil
  | .snoc h h' _ => by simpa [Stmt.nodesEach] using h.nodes.append h'.nodes

theorem YieldsBlock.nodes {b : Block} {ts : List Token} : YieldsBlock b ts → Occur b.nodes ts
  | .mk h _ => h.nodes.left

theorem YieldsArms.nodes {start : Span} {first : Arm} {rest : List Arm} {ts : List Token} :
    YieldsArms start first rest ts → Occur (first.nodes ++ Arm.nodesEach rest) ts
  | .first _ h _ h' => by
    simpa [Arm.nodes, Arm.nodesEach] using (h.nodes.append h'.nodes.skip).skip
  | .snoc h₀ _ h _ h' => by
    simpa [Arm.nodes, Arm.nodesEach] using h₀.nodes.append (h.nodes.append h'.nodes.skip).skip

end

theorem YieldsField.nodes {f : FieldDecl} (h : YieldsField f ts) : Occur f.nodes ts := by
  cases h with
  | plain => exact .nil
  | withDefault _ _ _ _ _ _ h =>
    simpa [FieldDecl.nodes] using h.nodes.skip.skip.skip.right.skip.skip

theorem YieldsMethod.nodes {m : MethodDecl} (h : YieldsMethod m ts) : Occur m.nodes ts := by
  obtain ⟨_, _, _, _, _, _, _, h⟩ := h
  exact h.nodes.skip.right.skip.skip.right.skip.skip

theorem YieldsMembers.nodes {fs : List FieldDecl} {ms : List MethodDecl}
    (h : YieldsMembers fs ms ts) :
    Occur (fs.flatMap FieldDecl.nodes) ts ∧ Occur (ms.flatMap MethodDecl.nodes) ts := by
  induction h with
  | nil => exact ⟨.nil, .nil⟩
  | field _ h' ih => exact ⟨by simpa using ih.1.append h'.nodes, ih.2.left⟩
  | method _ h' ih => exact ⟨ih.1.left, by simpa using ih.2.append h'.nodes⟩

theorem YieldsItem.nodes {i : Item} (h : YieldsItem i ts) : Occur i.nodes ts := by
  cases h with
  | nspace => exact .nil
  | cls _ _ _ h _ =>
    obtain ⟨fields, methods⟩ := h.nodes
    refine fun e he => ?_
    rcases List.mem_append.1 he with he | he
    · exact fields.left.skip.skip.right e he
    · exact methods.left.skip.skip.right e he

theorem YieldsItems.nodes {is : List Item} (h : YieldsItems is ts) :
    Occur (is.flatMap Item.nodes) ts := by
  induction h with
  | nil => exact .nil
  | snoc _ h' ih => simpa using ih.append h'.nodes

end Grammar

/-! Reading an expression and nothing else. -/

namespace Grammar

/-- A field that waits for its default, in a class without members. -/
def defaultOnly : Purpose :=
  .fieldDefault ⟨.nowhere, true, "", .nowhere, [], []⟩
    ⟨.nowhere, true, true, "", "", .nowhere⟩

end Grammar

/-- The expression that the tokens are read as: it is the default of the only field of a class that
ends behind it. -/
def Expr.ofTokens? (ts : List Token) : Option Expr :=
  match Grammar.read [] none (.operand (.of defaultOnly))
      (ts ++ [sample (.symbol .semicolon), sample .eof]) with
  | .ok [.cls ⟨_, _, _, [f], [], _⟩] => f.default
  | _ => none

/-- The tokens of an expression are read as the expression. -/
theorem Grammar.Yields.read {cap : Nat} {named : Bool} {e : Expr} {ts : List Token}
    (h : Yields 0 cap named e ts) : Expr.ofTokens? ts = some e := by
  obtain ⟨q, leads, held⟩ := h.leads (s := .of defaultOnly) (fun t _ => .operand _ t) le_rfl
    (Nat.zero_le _)
  have close : step q (sample (.symbol .semicolon)) = .ok (.item (.cls _)) :=
    (held.rest rfl (by simp [Tail.Admits, sample, Operator.ofKind?]) fun _ h => nomatch h).trans rfl
  have walk := leads []
  have reads := read_append none (.of_walk walk) walk [sample (.symbol .semicolon), sample .eof]
  rw [read_cons (by simp [sample]) close] at reads
  rw [Expr.ofTokens?, reads]
  rfl

/-! Trees whose spans are moved. -/

def Token.mapSpan (f : Span → Span) (t : Token) : Token := { t with span := f t.span }

@[simp] theorem Token.span_mapSpan (f : Span → Span) (t : Token) :
    (t.mapSpan f).span = f t.span := rfl

/-- The span, moved on by some bytes. -/
def Span.shift (n : Nat) (s : Span) : Span := ⟨n + s.start, n + s.stop⟩

theorem Span.shift_join (n : Nat) (a b : Span) :
    (a.join b).shift n = (a.shift n).join (b.shift n) := by
  simp [shift, join]

/-- The span, moved back by some bytes. -/
def Span.back (n : Nat) (s : Span) : Span := ⟨s.start - n, s.stop - n⟩

theorem Span.back_join (n : Nat) (a b : Span) :
    (a.join b).back n = (a.back n).join (b.back n) := by
  simp only [back, join, Span.mk.injEq]
  omega

@[simp] theorem Span.back_shift (n : Nat) (s : Span) : (s.shift n).back n = s := by
  simp [back, shift]

theorem Expr.mapSpan_withSpan (f : Span → Span) (e : Expr) (s : Span) :
    (e.withSpan s).mapSpan f = (e.mapSpan f).withSpan (f s) := by
  cases e <;> rfl

theorem Expr.mapSpanEach_append (f : Span → Span) (es es' : List Expr) :
    mapSpanEach f (es ++ es') = mapSpanEach f es ++ mapSpanEach f es' := by
  induction es with
  | nil => rfl
  | cons e es ih => simp [mapSpanEach, ih]

namespace Grammar

mutual

/-- Moved tokens yield the moved expression. -/
theorem Yields.mapSpan {f : Span → Span} (hf : ∀ a b, f (a.join b) = (f a).join (f b))
    {floor cap : Nat} {named : Bool} {e : Expr} {ts : List Token} :
    Yields floor cap named e ts → Yields floor cap named (e.mapSpan f) (ts.map (Token.mapSpan f))
  | .int (t := t) ht => .int (t := t.mapSpan f) ht
  | .float (t := t) ht => .float (t := t.mapSpan f) ht
  | .str (t := t) ht => .str (t := t.mapSpan f) ht
  | .ident (t := t) ht => .ident (t := t.mapSpan f) ht
  | .unary (t := t) ht h => by
    simpa [Expr.mapSpan, hf] using Yields.unary (t := t.mapSpan f) ht (h.mapSpan hf)
  | .paren (o := o) (c := c) ho h hc => by
    simpa [Expr.mapSpan_withSpan, hf] using
      Yields.paren (o := o.mapSpan f) (c := c.mapSpan f) ho (h.mapSpan hf) hc
  | .call (n := n) (o := o) (c := c) hn ho hc => by
    simpa [Expr.mapSpan, Expr.mapSpanEach, hf] using
      Yields.call (n := n.mapSpan f) (o := o.mapSpan f) (c := c.mapSpan f) hn ho hc
  | .callWith (n := n) (o := o) (c := c) hn ho h h' hc => by
    simpa [Expr.mapSpan, Expr.mapSpanEach_append, Expr.mapSpanEach, hf] using
      Yields.callWith (n := n.mapSpan f) (o := o.mapSpan f) (c := c.mapSpan f) hn ho
        (h.mapSpan hf) (h'.mapSpan hf) hc
  | .binary (o := o) h ho above below h' => by
    simpa [Expr.mapSpan, hf] using
      Yields.binary (o := o.mapSpan f) (h.mapSpan hf) ho above below (h'.mapSpan hf)
  | .cast (a := a) (t := t) h ha ht above below => by
    simpa [Expr.mapSpan, hf] using
      Yields.cast (a := a.mapSpan f) (t := t.mapSpan f) (h.mapSpan hf) ha ht above below

theorem YieldsEach.mapSpan {f : Span → Span} (hf : ∀ a b, f (a.join b) = (f a).join (f b))
    {es : List Expr} {ts : List Token} :
    YieldsEach es ts → YieldsEach (Expr.mapSpanEach f es) (ts.map (Token.mapSpan f))
  | .nil => .nil
  | .snoc (c := c) h h' hc => by
    simpa [Expr.mapSpanEach_append, Expr.mapSpanEach] using
      YieldsEach.snoc (c := c.mapSpan f) (h.mapSpan hf) (h'.mapSpan hf) hc

end

/-- Where tokens have been moved on, what they yield has been moved on with them. -/
theorem Yields.read_moved {cap : Nat} {named : Bool} {e : Expr} {ts : List Token} {n : Nat}
    (h : Yields 0 cap named e (ts.map (Token.mapSpan (.shift n)))) :
    ∃ e', Expr.ofTokens? ts = some e' ∧ e'.mapSpan (.shift n) = e := by
  have back := h.mapSpan (f := Span.back n) (Span.back_join n)
  have same : (ts.map (Token.mapSpan (.shift n))).map (Token.mapSpan (.back n)) = ts := by
    simp [Function.comp_def, Token.mapSpan]
  rw [same] at back
  refine ⟨_, back.read, ?_⟩
  exact Option.some.inj ((back.mapSpan (Span.shift_join n)).read.symm.trans h.read)

end Grammar

/-! Slices of a source. -/

namespace Piece

variable {ps qs : List Piece} {n : Nat} {t : Token} {ts us : List Token}

theorem tokensFrom_shift (n m : Nat) (ps : List Piece) :
    tokensFrom (n + m) ps = (tokensFrom m ps).map (Token.mapSpan (.shift n)) := by
  induction ps generalizing m with
  | nil => rfl
  | cons p ps ih =>
    cases p <;> simp [tokensFrom, Nat.add_assoc, ih, Token.mapSpan, Span.shift]

theorem tokensFrom_append (n : Nat) (ps qs : List Piece) : tokensFrom n (ps ++ qs) =
    tokensFrom n ps ++ tokensFrom (n + byteLength (ps.flatMap text)) qs := by
  induction ps generalizing n with
  | nil => rfl
  | cons p ps ih =>
    cases p <;> simp [tokensFrom, ih, byteLength_append, Nat.add_assoc]

/-- A token among pieces is one of the pieces. -/
theorem exists_of_tokensFrom (h : tokensFrom n ps = ts ++ t :: us) :
    ∃ before kind cs after, ps = before ++ token kind cs :: after ∧ tokensFrom n before = ts ∧
      let start := n + byteLength (before.flatMap text)
      t.span = ⟨start, start + byteLength cs⟩ := by
  induction ps generalizing n ts with
  | nil => cases ts <;> cases h
  | cons p ps ih =>
    have further {ts' : List Token} (h : tokensFrom (n + byteLength p.text) ps = ts' ++ t :: us) :
        ∃ before kind cs after, p :: ps = p :: before ++ token kind cs :: after ∧
          tokensFrom (n + byteLength p.text) before = ts' ∧
          let start := n + byteLength ((p :: before).flatMap text)
          t.span = ⟨start, start + byteLength cs⟩ := by
      obtain ⟨before, kind, cs, after, rfl, hb, hs⟩ := ih h
      refine ⟨before, kind, cs, after, rfl, hb, ?_⟩
      rw [List.flatMap_cons, byteLength_append, ← Nat.add_assoc]
      exact hs
    cases p with
    | blank | comment =>
      obtain ⟨before, kind, cs, after, hp, hb, hs⟩ := further h
      exact ⟨_, kind, cs, after, hp, hb, hs⟩
    | token kind cs =>
      cases ts with
      | nil =>
        obtain ⟨rfl, -⟩ := List.cons.inj h
        exact ⟨[], kind, cs, ps, rfl, rfl, rfl⟩
      | cons x ts =>
        obtain ⟨rfl, rest⟩ := List.cons.inj h
        obtain ⟨before, kind', cs', after, hp, rfl, hs⟩ := further rest
        exact ⟨_, kind', cs', after, hp, rfl, hs⟩

/-- A run of tokens is made of the pieces from its first one to its last. -/
theorem exists_run {run : List Token} {s : Span} (h : tokensFrom n ps = ts ++ (run ++ us))
    (hs : Covers run s) : ∃ before inside after, ps = before ++ (inside ++ after) ∧
      tokensFrom s.start inside = run ∧
      let start := n + byteLength (before.flatMap text)
      s = ⟨start, start + byteLength (inside.flatMap text)⟩ := by
  obtain ⟨f, hf, l, hl, rfl⟩ := hs
  obtain ⟨rest, rfl⟩ : ∃ rest, run = f :: rest := by
    cases run with
    | nil => cases hf
    | cons => cases hf; exact ⟨_, rfl⟩
  obtain ⟨before, kind, cs, after, rfl, rfl, first⟩ := exists_of_tokensFrom h
  rw [tokensFrom_append, List.append_cancel_left_eq] at h
  obtain ⟨init, hi⟩ := List.getLast?_eq_some_iff.1 hl
  rw [hi, List.append_assoc] at h
  obtain ⟨inside, kind', cs', after', hp, hb, last⟩ := exists_of_tokensFrom h
  refine ⟨before, inside ++ [token kind' cs'], after', ?_, ?_, ?_⟩
  · rw [hp]
    simp
  · rw [hp, tokensFrom_append, hb, List.append_cancel_left_eq] at h
    simp only [first]
    rw [tokensFrom_append, hb, hi]
    exact congrArg (init ++ [·]) (List.cons.inj h).1
  · simp [first, last, byteLength_append, text, Nat.add_assoc]

variable {cs left : List Char}

theorem Laid.drop (h : Laid cs (ps ++ qs) left) : Laid (qs.flatMap text ++ left) qs left := by
  induction ps generalizing cs with
  | nil => exact h.eq_append ▸ h
  | cons p ps ih =>
    cases h with
    | next _ laid => exact ih laid

/-- Pieces are split in the same way where the text ends behind them. -/
theorem Laid.take (h : Laid cs (ps ++ qs) left) : Laid (ps.flatMap text) ps [] := by
  induction ps generalizing cs with
  | nil => exact .done
  | cons p ps ih =>
    cases h with
    | @next _ _ tail _ _ _ hn laid =>
      have cuts : Cuts p tail (ps.flatMap text) := by
        have whole : tail = (ps ++ qs).flatMap text ++ left := laid.eq_append
        rw [List.flatMap_append, List.append_assoc] at whole
        cases hp : ps.flatMap text with
        | nil => exact .ends
        | cons d rest => exact .same (hp ▸ whole)
      exact .cons (before_of_next? hn cuts) (ih laid)

end Piece

namespace Piece

variable {source left : List Char} {ps : List Piece}

/-- The tokens of a source lie one behind the other. -/
theorem Laid.ordered (h : Laid source ps left) : Ordered (tokensFrom 0 ps) :=
  have whole : source = [] ++ source := rfl
  ⟨fun t ht => (h.of_mem_tokensFrom whole t ht).2.1, h.pairwise_tokensFrom whole⟩

theorem Laid.endless (h : Laid source ps left) : Endless (tokensFrom 0 ps) := by
  obtain ⟨qs, hq, laid⟩ := scan_laid [] source
  obtain ⟨rfl, -⟩ := h.unique laid
  have tokens : Lexed.read source = tokensFrom 0 ps := by
    rw [Lexed.read, hq, foldl_gathered]
    simp
  exact tokens ▸ Lexed.kind_ne_eof_of_mem_read

theorem Laid.stop_le (h : Laid source ps []) {run : List Token} {s : Span} (hs : Covers run s)
    (hr : run.Sublist (tokensFrom 0 ps)) : s.stop ≤ byteLength source := by
  obtain ⟨_, -, t, ht, rfl⟩ := hs
  have whole := h.eq_append
  rw [List.append_nil] at whole
  have inside : source = [] ++ source := rfl
  obtain ⟨-, -, stop, -⟩ := h.of_mem_tokensFrom inside t (hr.subset (List.mem_of_getLast? ht))
  rwa [← whole, byteLength_nil, Nat.zero_add] at stop

/-- The text under a run of tokens is split into the same tokens again. -/
theorem Laid.slice (h : Laid source ps []) {run : List Token} {s : Span}
    (hr : run <:+: tokensFrom 0 ps) (hs : Covers run s) :
    ∃ cs ts, s.slice? source = some cs ∧ run = ts.map (Token.mapSpan (.shift s.start)) ∧
      (Lexed.ofSource cs).tokens = .ok (ts ++ [⟨.eof, "", .point (byteLength cs)⟩]) := by
  obtain ⟨ts, us, hr⟩ := hr
  rw [List.append_assoc] at hr
  obtain ⟨before, inside, after, rfl, rfl, rfl⟩ := exists_run hr.symm hs
  refine ⟨inside.flatMap text, tokensFrom 0 inside, ?_, (tokensFrom_shift _ 0 inside), ?_⟩
  · rw [h.eq_append]
    simpa using Span.slice?_append (before.flatMap text) (inside.flatMap text) (after.flatMap text)
  · rw [Lexed.ofSource_of_laid h.drop.take]

end Piece

/-- The items that are read are those that the tokens yield. -/
theorem Grammar.YieldsItems.of_read {ts : List Token} {t : Token} {items : List Item}
    (he : Endless ts) (ht : t.kind = .eof) (h : Item.ofTokens (ts ++ [t]) = .ok items) :
    YieldsItems items ts := by
  obtain ⟨is, walk, rfl⟩ := (ofTokens_eq_ok he ht).1 h
  obtain ⟨items, yields, -⟩ := (spells_of_walk walk).yields rfl
  obtain rfl : is = items.reverse := congrArg Spot.items (Except.ok.inj (walk.symm.trans yields.walks))
  rwa [List.reverse_reverse]

/-- The spans of what is read from a source nest and keep the order of the source; and the text under
each expression is read as this expression again, with all spans moved back to where it begins. -/
theorem Item.spans_are_exact {source : List Char} {tokens : List Token} {items : List Item}
    (lexed : (Lexed.ofSource source).tokens = .ok tokens)
    (parsed : Item.ofTokens tokens = .ok items) :
    (∀ i ∈ items, i.Nested ∧ i.span.stop ≤ byteLength source) ∧
    (items.map Item.span).Pairwise Span.Before ∧
    ∀ i ∈ items, ∀ e ∈ i.nodes, ∃ cs ts e', e.span.slice? source = some cs ∧
      (Lexed.ofSource cs).tokens = .ok (ts ++ [⟨.eof, "", .point (byteLength cs)⟩]) ∧
      Expr.ofTokens? ts = some e' ∧ e'.mapSpan (.shift e.span.start) = e := by
  obtain ⟨ps, laid, rfl⟩ := Lexed.laid_of_ofSource lexed
  have yields := YieldsItems.of_read laid.endless rfl parsed
  have ordered := laid.ordered
  obtain ⟨parts, nested⟩ := yields.nested ordered
  refine ⟨fun i hi => ⟨nested i hi, ?_⟩, parts.ordered ordered, fun i hi e he => ?_⟩
  · obtain ⟨run, covers, hr⟩ := parts.exists_run (List.mem_map_of_mem hi)
    exact laid.stop_le covers hr
  · obtain ⟨cap, named, run, hr, expr⟩ := yields.nodes e (List.mem_flatMap.2 ⟨i, hi, he⟩)
    obtain ⟨covers, -⟩ := expr.nested (ordered.sublist hr.sublist)
    obtain ⟨cs, ts, slice, rfl, tokens⟩ := laid.slice hr covers
    obtain ⟨e', read, moved⟩ := expr.read_moved
    exact ⟨cs, ts, e', slice, tokens, read, moved⟩

/-- A comment in a parenthesis, which belongs to the sum and widens it. -/
def brackets : List Char := "class A:field public x i32=-(a#*)*#+1);".toList

theorem Item.spans_are_exact_brackets :
    ∃ tokens items, (Lexed.ofSource brackets).tokens = .ok tokens ∧
      Item.ofTokens tokens = .ok items ∧
      (items.flatMap Item.nodes).map Expr.span = [⟨27, 38⟩, ⟨28, 38⟩, ⟨29, 30⟩, ⟨36, 37⟩] ∧
      (∀ i ∈ items, i.Nested ∧ i.span.stop ≤ byteLength brackets) ∧
      (items.map Item.span).Pairwise Span.Before ∧
      ∀ i ∈ items, ∀ e ∈ i.nodes, ∃ cs ts e', e.span.slice? brackets = some cs ∧
        (Lexed.ofSource cs).tokens = .ok (ts ++ [⟨.eof, "", .point (byteLength cs)⟩]) ∧
        Expr.ofTokens? ts = some e' ∧ e'.mapSpan (.shift e.span.start) = e := by
  obtain ⟨tokens, lexed⟩ := exists_eq_ok (x := (Lexed.ofSource brackets).tokens) (by decide +kernel)
  have read : ((Lexed.ofSource brackets).tokens.bind Item.ofTokens).isOk = true := by decide +kernel
  have spans : ((((Lexed.ofSource brackets).tokens.bind Item.ofTokens).toOption.getD []).flatMap
      Item.nodes).map Expr.span = [⟨27, 38⟩, ⟨28, 38⟩, ⟨29, 30⟩, ⟨36, 37⟩] := by decide +kernel
  rw [lexed] at read spans
  obtain ⟨items, parsed⟩ := exists_eq_ok read
  simp only [Except.bind] at parsed spans
  rw [parsed] at spans
  exact ⟨tokens, items, lexed, parsed, spans, spans_are_exact lexed parsed⟩

end ClassAsm
