import ClassAsm.Proofs.Grammar.Exact

/-! Spans of a tree nest. Tokens that come from a text lie one behind the other, and what some of them
yield goes from the first of them to the last. The parts of a node are yielded by runs of its tokens
that do not overlap, so they lie inside the node and keep their order. -/

namespace ClassAsm

/-- `a` ends before `b` begins. -/
def Span.Before (a b : Span) : Prop := a.stop ≤ b.start

/-- The parts lie inside the span, one behind the other, and nothing is empty. -/
structure Span.Holds (s : Span) (parts : List Span) : Prop where
  inside : ∀ p ∈ parts, s.contains p = true
  ordered : parts.Pairwise Span.Before
  nonempty : ∀ p ∈ s :: parts, p.start < p.stop

theorem Span.join_self (a b : Span) : a.join (a.join b) = a.join b := by
  simp [join]

/-! Trees in which every node holds its parts. -/

mutual

def Expr.Nested : Expr → Prop
  | .int _ s | .float _ s | .str _ s | .ident _ s => s.Holds []
  | .binary _ l r s => s.Holds [l.span, r.span] ∧ l.Nested ∧ r.Nested
  | .unary _ e s => s.Holds [e.span] ∧ e.Nested
  | .call _ cs args s => s.Holds (cs :: args.map Expr.span) ∧ Expr.NestedEach args
  | .cast e _ ts s => s.Holds [e.span, ts] ∧ e.Nested

def Expr.NestedEach : List Expr → Prop
  | [] => True
  | e :: es => e.Nested ∧ Expr.NestedEach es

end

mutual

def Stmt.Nested : Stmt → Prop
  | .expr e => e.Nested
  | .declare _ ns _ s => s.Holds [ns]
  | .assign _ ns _ e s => s.Holds [ns, e.span] ∧ e.Nested
  | .ret value s => s.Holds (value.map Expr.span).toList ∧ ∀ e ∈ value, e.Nested
  | .cond first rest otherwise s =>
    s.Holds (first.span :: (rest.map Arm.span ++ (otherwise.map Block.span).toList)) ∧
      first.Nested ∧ Arm.NestedEach rest ∧ Block.NestedElse otherwise
  | .loop e b s => s.Holds [e.span, b.span] ∧ e.Nested ∧ b.Nested

def Arm.Nested : Arm → Prop
  | .mk e b s => s.Holds [e.span, b.span] ∧ e.Nested ∧ b.Nested

def Arm.NestedEach : List Arm → Prop
  | [] => True
  | a :: as => a.Nested ∧ Arm.NestedEach as

def Block.NestedElse : Option Block → Prop
  | none => True
  | some b => b.Nested

def Block.Nested : Block → Prop
  | .mk ss s => s.Holds (ss.map Stmt.span) ∧ Stmt.NestedEach ss

def Stmt.NestedEach : List Stmt → Prop
  | [] => True
  | s :: ss => s.Nested ∧ Stmt.NestedEach ss

end

def FieldDecl.Nested (f : FieldDecl) : Prop :=
  f.span.Holds (f.default.map Expr.span).toList ∧ ∀ e ∈ f.default, e.Nested

def MethodDecl.Nested (m : MethodDecl) : Prop :=
  m.span.Holds (m.returnTypeSpan :: m.nameSpan :: (m.params.map Param.span ++ [m.body.span])) ∧
    m.body.Nested

/-- Fields and methods each keep their order, and none of the two lies across the other. -/
structure ClassDecl.Nested (c : ClassDecl) : Prop where
  fields : c.span.Holds (c.nameSpan :: c.fields.map FieldDecl.span)
  methods : c.span.Holds (c.nameSpan :: c.methods.map MethodDecl.span)
  apart : ∀ f ∈ c.fields, ∀ m ∈ c.methods, f.span.Before m.span ∨ m.span.Before f.span
  each : (∀ f ∈ c.fields, f.Nested) ∧ ∀ m ∈ c.methods, m.Nested

def Item.span : Item → Span
  | .nspace _ s => s
  | .cls c => c.span

def Item.Nested : Item → Prop
  | .nspace _ s => s.Holds []
  | .cls c => c.Nested

@[simp] theorem Expr.span_withSpan (e : Expr) (s : Span) : (e.withSpan s).span = s := by
  cases e <;> rfl

@[simp] theorem Expr.nestedEach_append {es es' : List Expr} :
    NestedEach (es ++ es') ↔ NestedEach es ∧ NestedEach es' := by
  induction es with
  | nil => simp [NestedEach]
  | cons e es ih => simp [NestedEach, ih, and_assoc]

@[simp] theorem Arm.nestedEach_append {as as' : List Arm} :
    NestedEach (as ++ as') ↔ NestedEach as ∧ NestedEach as' := by
  induction as with
  | nil => simp [NestedEach]
  | cons a as ih => simp [NestedEach, ih, and_assoc]

@[simp] theorem Stmt.nestedEach_append {ss ss' : List Stmt} :
    NestedEach (ss ++ ss') ↔ NestedEach ss ∧ NestedEach ss' := by
  induction ss with
  | nil => simp [NestedEach]
  | cons s ss ih => simp [NestedEach, ih, and_assoc]

/-- What holds its parts may be widened. -/
theorem Span.Holds.widen {s s' : Span} {parts : List Span} (h : s.Holds parts)
    (hs : s'.contains s = true) : s'.Holds parts where
  inside p hp := by
    have := h.inside p hp
    simp only [contains, Bool.and_eq_true, decide_eq_true_eq] at *
    omega
  ordered := h.ordered
  nonempty := by
    have := h.nonempty s (by simp)
    simp only [contains, Bool.and_eq_true, decide_eq_true_eq] at hs
    exact List.forall_mem_cons.2 ⟨by omega, fun p hp => h.nonempty p (by simp [hp])⟩

theorem Expr.Nested.withSpan {e : Expr} {s : Span} (h : e.Nested) (hs : s.contains e.span = true) :
    (e.withSpan s).Nested := by
  cases e with
  | int | float | str | ident => exact h.widen hs
  | binary | unary | call | cast => exact ⟨h.1.widen hs, h.2⟩

namespace Grammar

/-! Runs of tokens. -/

/-- The tokens lie one behind the other, and none is empty. -/
structure Ordered (ts : List Token) : Prop where
  nonempty : ∀ t ∈ ts, t.span.start < t.span.stop
  ordered : ts.Pairwise fun t u => t.span.stop ≤ u.span.start

/-- The span goes from the first of the tokens to the last. -/
def Covers (ts : List Token) (s : Span) : Prop :=
  ∃ t ∈ ts.head?, ∃ u ∈ ts.getLast?, s = ⟨t.span.start, u.span.stop⟩

/-- The spans are those of runs of the tokens that do not overlap, in order. -/
def Parts (ts : List Token) (parts : List Span) : Prop :=
  ∃ runs, List.Forall₂ Covers runs parts ∧ runs.flatten.Sublist ts

variable {ts us : List Token} {a b s : Span} {parts parts' : List Span}

theorem Ordered.sublist (h : Ordered us) (hs : ts.Sublist us) : Ordered ts :=
  ⟨fun t ht => h.nonempty t (hs.subset ht), h.ordered.sublist hs⟩

theorem Ordered.left (h : Ordered (ts ++ us)) : Ordered ts := h.sublist (List.sublist_append_left ..)

theorem Ordered.right (h : Ordered (ts ++ us)) : Ordered us :=
  h.sublist (List.sublist_append_right ..)

theorem Ordered.tail {t : Token} (h : Ordered (t :: ts)) : Ordered ts :=
  h.sublist (List.sublist_cons_self ..)

theorem Covers.one (t : Token) : Covers [t] t.span := ⟨t, rfl, t, rfl, rfl⟩

theorem Covers.ne_nil (h : Covers ts s) : ts ≠ [] := by
  rintro rfl
  obtain ⟨_, ht, -⟩ := h
  cases ht

/-- Every token lies in the span. -/
theorem Covers.mem (h : Covers ts s) (o : Ordered ts) {t : Token} (ht : t ∈ ts) :
    s.start ≤ t.span.start ∧ t.span.stop ≤ s.stop := by
  obtain ⟨f, hf, l, hl, rfl⟩ := h
  constructor
  · cases ts with
    | nil => cases ht
    | cons x ts =>
      cases hf
      rcases List.mem_cons.1 ht with rfl | ht
      · exact Nat.le_refl _
      · have := o.nonempty f (by simp)
        exact this.le.trans ((List.pairwise_cons.1 o.ordered).1 t ht)
  · obtain ⟨init, rfl⟩ := List.getLast?_eq_some_iff.1 hl
    rcases List.mem_append.1 ht with ht | ht
    · have := o.nonempty l (by simp)
      exact ((List.pairwise_append.1 o.ordered).2.2 t ht l (by simp)).trans this.le
    · rw [List.mem_singleton.1 ht]

theorem Covers.nonempty (h : Covers ts s) (o : Ordered ts) : s.start < s.stop := by
  obtain ⟨t, us, rfl⟩ := List.exists_cons_of_ne_nil h.ne_nil
  have inside := h.mem o (t := t) (by simp)
  have := o.nonempty t (by simp)
  omega

/-- A run of tokens lies inside one that holds it. -/
theorem Covers.contains (h : Covers ts a) (h' : Covers us b) (o : Ordered us)
    (hs : ts.Sublist us) : b.contains a = true := by
  obtain ⟨t, ht, u, hu, rfl⟩ := h
  have first := h'.mem o (hs.subset (List.mem_of_head? ht))
  have last := h'.mem o (hs.subset (List.mem_of_getLast? hu))
  simp [Span.contains, first.1, last.2]

/-- A run of tokens ends before one behind it begins. -/
theorem Covers.before (h : Covers ts a) (h' : Covers us b) (o : Ordered (ts ++ us)) :
    a.Before b := by
  obtain ⟨_, -, t, ht, rfl⟩ := h
  obtain ⟨u, hu, _, -, rfl⟩ := h'
  exact (List.pairwise_append.1 o.ordered).2.2 t (List.mem_of_getLast? ht) u (List.mem_of_head? hu)

/-- Joining the spans at both ends gives the span of the whole. -/
theorem Covers.join (h : Covers ts a) (vs : List Token) (h' : Covers us b)
    (o : Ordered (ts ++ (vs ++ us))) : Covers (ts ++ (vs ++ us)) (a.join b) := by
  have apart := h.before h' (o.sublist (by simp))
  have left := h.nonempty o.left
  have right := h'.nonempty o.right.right
  obtain ⟨t, ht, _, -, rfl⟩ := h
  obtain ⟨_, -, u, hu, rfl⟩ := h'
  refine ⟨t, List.mem_head?_append_of_mem_head? ht, u, ?_, ?_⟩
  · rw [List.getLast?_append, List.getLast?_append, Option.mem_def.1 hu]
    rfl
  · simp only [Span.Before] at apart left right
    simp only [Span.join, Span.mk.injEq]
    omega

theorem Covers.cons {t : Token} (h : Covers us b) (vs : List Token)
    (o : Ordered (t :: (vs ++ us))) : Covers (t :: (vs ++ us)) (t.span.join b) :=
  join (.one t) vs h o

theorem Parts.nil : Parts ts [] := ⟨[], .nil, List.nil_sublist _⟩

theorem Parts.one (h : Covers ts s) : Parts ts [s] := ⟨[ts], .cons h .nil, by simp⟩

theorem Parts.mono (h : Parts ts parts) (hs : ts.Sublist us) : Parts us parts := by
  obtain ⟨runs, covers, sub⟩ := h
  exact ⟨runs, covers, sub.trans hs⟩

theorem Parts.append (h : Parts ts parts) (h' : Parts us parts') :
    Parts (ts ++ us) (parts ++ parts') := by
  obtain ⟨runs, covers, sub⟩ := h
  obtain ⟨runs', covers', sub'⟩ := h'
  exact ⟨runs ++ runs', List.rel_append covers covers', by simpa using sub.append sub'⟩

/-- A part that begins with a token and parts behind it. -/
theorem Parts.token {t : Token} (h : Parts ts parts) : Parts (t :: ts) (t.span :: parts) :=
  append (one (.one t)) h

theorem Parts.skip {t : Token} (h : Parts ts parts) : Parts (t :: ts) parts :=
  h.mono (List.sublist_cons_self ..)

theorem Parts.exists_run {p : Span} (h : Parts ts parts) (hp : p ∈ parts) :
    ∃ run, Covers run p ∧ run.Sublist ts := by
  obtain ⟨runs, covers, sub⟩ := h
  induction covers generalizing ts with
  | nil => cases hp
  | cons here _ ih =>
    rcases List.mem_cons.1 hp with rfl | hp
    · exact ⟨_, here, (List.sublist_append_left ..).trans sub⟩
    · exact ih hp ((List.sublist_append_right ..).trans sub)

/-- Parts come before what stands behind their tokens. -/
theorem Parts.before (h : Parts ts parts) (h' : Covers us b) (o : Ordered (ts ++ us)) :
    ∀ p ∈ parts, p.Before b := fun p hp => by
  obtain ⟨run, cover, hr⟩ := h.exists_run hp
  exact cover.before h' (o.sublist (hr.append (List.Sublist.refl _)))

theorem Parts.ordered (h : Parts ts parts) (o : Ordered ts) : parts.Pairwise Span.Before := by
  obtain ⟨runs, covers, sub⟩ := h
  replace o := o.sublist sub
  clear sub
  induction covers with
  | nil => exact .nil
  | cons here rest ih =>
    refine .cons (fun q hq => ?_) (ih o.right)
    obtain ⟨run, cover, hr⟩ := Parts.exists_run ⟨_, rest, List.Sublist.refl _⟩ hq
    exact here.before cover (o.sublist ((List.Sublist.refl _).append hr))

/-- What covers tokens holds the parts that they are made of. -/
theorem Covers.holds (h : Covers ts s) (o : Ordered ts) (hp : Parts ts parts) : s.Holds parts := by
  refine ⟨fun p hp' => ?_, hp.ordered o, List.forall_mem_cons.2 ⟨h.nonempty o, fun p hp' => ?_⟩⟩
  · obtain ⟨run, cover, hr⟩ := hp.exists_run hp'
    exact cover.contains h o hr
  · obtain ⟨run, cover, hr⟩ := hp.exists_run hp'
    exact cover.nonempty (o.sublist hr)

/-- A keyword, a condition, a colon and a block. -/
theorem Covers.conditional {w c : Token} (h : Covers ts a) (h' : Covers us b)
    (o : Ordered (w :: (ts ++ c :: us))) : Covers (w :: (ts ++ c :: us)) (w.span.join b) ∧
      (w.span.join b).Holds [a, b] := by
  have whole : Covers (w :: (ts ++ c :: us)) (w.span.join b) := by
    simpa using h'.cons (ts ++ [c]) (by simpa using o)
  exact ⟨whole, whole.holds o ((Parts.one h).append (Parts.one h').skip).skip⟩

/-! What tokens yield is nested. -/

mutual

theorem Yields.nested {floor cap : Nat} {named : Bool} {e : Expr} {ts : List Token} :
    Yields floor cap named e ts → Ordered ts → Covers ts e.span ∧ e.Nested
  | .int _, o | .float _, o | .str _, o | .ident _, o => ⟨.one _, (Covers.one _).holds o .nil⟩
  | .unary _ h, o => by
    obtain ⟨covers, nested⟩ := h.nested o.tail
    have whole := covers.cons [] o
    exact ⟨whole, whole.holds o (Parts.one covers).skip, nested⟩
  | .paren (c := c) _ h _, o => by
    obtain ⟨covers, nested⟩ := h.nested o.tail.left
    have whole := (Covers.one c).cons _ o
    exact ⟨by simpa using whole, nested.withSpan (covers.contains whole o (by simp))⟩
  | .call (n := n) (o := p) (c := c) .., o => by
    have whole := (Covers.one c).cons [p] (t := n) o
    exact ⟨whole, whole.holds o (Parts.token .nil), trivial⟩
  | @Yields.callWith _ _ _ _ es e n p c us us' _ _ h h' _, o => by
    obtain ⟨parts, each⟩ := h.nested o.tail.tail.left.left
    obtain ⟨covers, nested⟩ := h'.nested o.tail.tail.left.right
    have whole := (Covers.one c).cons (p :: (us ++ us')) (t := n) o
    have args := (parts.append (.one covers)).mono (List.sublist_append_left _ [c])
    refine ⟨whole, whole.holds o ?_, ?_⟩
    · simpa using args.skip.token
    · simpa [Expr.NestedEach] using ⟨each, nested⟩
  | .binary h _ _ _ h', o => by
    obtain ⟨left, nested⟩ := h.nested o.left
    obtain ⟨right, nested'⟩ := h'.nested o.right.tail
    have whole := left.join [_] right o
    exact ⟨whole, whole.holds o ((Parts.one left).append (Parts.one right).skip), nested, nested'⟩
  | .cast (a := a) (t := t) h .., o => by
    obtain ⟨left, nested⟩ := h.nested o.left
    have whole := left.join [a] (.one t) o
    exact ⟨whole, whole.holds o ((Parts.one left).append (Parts.one (.one t)).skip), nested⟩

theorem YieldsEach.nested {es : List Expr} {ts : List Token} :
    YieldsEach es ts → Ordered ts → Parts ts (es.map Expr.span) ∧ Expr.NestedEach es
  | .nil, _ => ⟨.nil, trivial⟩
  | .snoc h h' _, o => by
    obtain ⟨parts, each⟩ := h.nested o.left
    obtain ⟨covers, nested⟩ := h'.nested o.right.left
    rw [List.map_append]
    exact ⟨parts.append ((Parts.one covers).mono (List.sublist_append_left ..)),
      by simpa [Expr.NestedEach] using ⟨each, nested⟩⟩

end

mutual

theorem YieldsStmt.nested {tail : Tail} {s : Stmt} {ts : List Token} :
    YieldsStmt tail s ts → Ordered ts → Covers ts s.span ∧ s.Nested
  | .expr h, o => h.nested o
  | .declare (n := n) (c := c) (t := t) .., o => by
    have whole := (Covers.one t).cons [c] (t := n) o
    exact ⟨whole, whole.holds o (Parts.token .nil)⟩
  | .assign (a := a) _ _ h, o => by
    obtain ⟨covers, nested⟩ := h.nested o.tail.tail
    have whole := covers.cons [a] o
    exact ⟨whole, whole.holds o (Parts.one covers).skip.token, nested⟩
  | .define (c := c) (t := t) (a := a) _ _ _ _ h, o => by
    obtain ⟨covers, nested⟩ := h.nested o.tail.tail.tail.tail
    have whole := covers.cons [c, t, a] o
    exact ⟨whole, whole.holds o (Parts.one covers).skip.skip.skip.token, nested⟩
  | .bareReturn _, o => ⟨.one _, (Covers.one _).holds o .nil, nofun⟩
  | .ret _ h, o => by
    obtain ⟨covers, nested⟩ := h.nested o.tail
    have whole := covers.cons [] o
    exact ⟨whole, whole.holds o (Parts.one covers).skip, fun _ he => by cases he; exact nested⟩
  | .loop _ h _ h', o => by
    obtain ⟨condition, nested⟩ := h.nested o.tail.left
    obtain ⟨body, nested'⟩ := h'.nested o.tail.right.tail
    obtain ⟨whole, holds⟩ := condition.conditional body o
    exact ⟨whole, holds, nested, nested'⟩
  | .cond h, o => by
    obtain ⟨parts, -, whole, first, rest⟩ := h.nested o
    exact ⟨whole, whole.holds o (by simpa using parts), first, rest, trivial⟩
  | @YieldsStmt.condElse _ _ _ b w c _ us' h _ _ h', o => by
    obtain ⟨parts, ⟨i, more, rfl, rfl⟩, -, first, rest⟩ := h.nested o.left
    obtain ⟨body, nested⟩ := h'.nested o.right.tail.tail
    have whole : Covers (i :: more ++ w :: c :: us') (i.span.join b.span) := by
      simpa using body.cons (more ++ [w, c]) (by simpa using o)
    exact ⟨whole, whole.holds o (by simpa using parts.append (Parts.one body).skip.skip), first,
      rest, nested⟩

theorem YieldsStmts.nested {tail : Tail} {ss : List Stmt} {ts : List Token} :
    YieldsStmts tail ss ts → Ordered ts → Parts ts (ss.map Stmt.span) ∧ Stmt.NestedEach ss
  | .nil, _ => ⟨.nil, trivial⟩
  | .snoc h h' _, o => by
    obtain ⟨parts, each⟩ := h.nested o.left
    obtain ⟨covers, nested⟩ := h'.nested o.right
    rw [List.map_append]
    exact ⟨parts.append (.one covers), by simpa [Stmt.NestedEach] using ⟨each, nested⟩⟩

theorem YieldsBlock.nested {b : Block} {ts : List Token} :
    YieldsBlock b ts → Ordered ts → Covers ts b.span ∧ b.Nested
  | @YieldsBlock.mk _ _ z us h _, o => by
    obtain ⟨parts, each⟩ := h.nested o.left
    have whole : Covers (us ++ [z]) (((us.head?.map Token.span).getD z.span).join z.span) := by
      cases us with
      | nil => simpa [Span.join] using Covers.one z
      | cons t us => exact (Covers.one z).cons _ o
    exact ⟨whole, whole.holds o (parts.mono (List.sublist_append_left ..)), each⟩

/-- The first keyword is where the whole `if` begins. -/
theorem YieldsArms.nested {start : Span} {first : Arm} {rest : List Arm} {ts : List Token} :
    YieldsArms start first rest ts → Ordered ts →
      Parts ts (first.span :: rest.map Arm.span) ∧ (∃ i us, ts = i :: us ∧ i.span = start) ∧
        Covers ts (start.join (rest.getLastD first).span) ∧ first.Nested ∧ Arm.NestedEach rest
  | .first _ h _ h', o => by
    obtain ⟨condition, nested⟩ := h.nested o.tail.left
    obtain ⟨body, nested'⟩ := h'.nested o.tail.right.tail
    obtain ⟨whole, holds⟩ := condition.conditional body o
    exact ⟨.one whole, ⟨_, _, rfl, rfl⟩, by simpa [Arm.span, Span.join_self] using whole,
      ⟨holds, nested, nested'⟩, trivial⟩
  | .snoc h₀ _ h _ h', o => by
    obtain ⟨parts, ⟨i, more, rfl, rfl⟩, -, first, rest⟩ := h₀.nested o.left
    obtain ⟨condition, nested⟩ := h.nested o.right.tail.left
    obtain ⟨body, nested'⟩ := h'.nested o.right.tail.right.tail
    obtain ⟨arm, holds⟩ := condition.conditional body o.right
    have whole := arm.cons more (t := i) o
    refine ⟨by simpa [Arm.span] using parts.append (Parts.one arm), ⟨i, _, rfl, rfl⟩, ?_, first, ?_⟩
    · simpa [Arm.span] using whole
    · simpa [Arm.NestedEach, Arm.Nested] using ⟨rest, holds, nested, nested'⟩

end

theorem YieldsField.nested {f : FieldDecl} (h : YieldsField f ts) (o : Ordered ts) :
    Covers ts f.span ∧ f.Nested := by
  cases h with
  | @plain _ _ _ _ k v n t ms =>
    have whole : Covers (k :: v :: (ms ++ [n, t])) (k.span.join t.span) := by
      simpa using (Covers.one t).cons (v :: (ms ++ [n])) (t := k) (by simpa using o)
    exact ⟨whole, whole.holds o .nil, nofun⟩
  | @withDefault _ _ _ _ _ _ e k v n t a ms us _ _ _ _ _ _ h =>
    obtain ⟨covers, nested⟩ := h.nested o.tail.tail.right.tail.tail.tail
    have whole : Covers (k :: v :: (ms ++ n :: t :: a :: us)) (k.span.join e.span) := by
      simpa using covers.cons (v :: (ms ++ [n, t, a])) (t := k) (by simpa using o)
    have value := (Parts.one covers).skip.skip.skip.mono
      (List.sublist_append_right ms (n :: t :: a :: us))
    exact ⟨whole, whole.holds o value.skip.skip, fun _ he => by cases he; exact nested⟩

theorem YieldsParam.covers {p : Param} (h : YieldsParam p ts) (o : Ordered ts) :
    Covers ts p.span := by
  obtain ⟨hn, hc, ht⟩ := h
  exact (Covers.one _).cons [_] o

theorem YieldsEachParam.spans {ps : List Param} (h : YieldsEachParam ps ts) (o : Ordered ts) :
    Parts ts (ps.map Param.span) := by
  induction h with
  | nil => exact .nil
  | snoc _ h' _ ih =>
    rw [List.map_append]
    exact (ih o.left).append ((Parts.one (h'.covers o.right.left)).mono (by simp))

theorem YieldsParams.spans {ps : List Param} (h : YieldsParams ps ts) (o : Ordered ts) :
    Parts ts (ps.map Param.span) := by
  cases h with
  | absent | empty => exact .nil
  | some _ h h' _ =>
    have each := h.spans o.tail.left.left
    have last := h'.covers o.tail.left.right
    rw [List.map_append]
    exact ((each.append (.one last)).mono (List.sublist_append_left ..)).skip

theorem YieldsMethod.nested {m : MethodDecl} (h : YieldsMethod m ts) (o : Ordered ts) :
    Covers ts m.span ∧ m.Nested := by
  cases h with
  | @mk _ _ ps body _ _ d v r n c ms us us' _ _ _ _ _ h _ h' =>
    have params := h.spans o.tail.tail.right.tail.tail.left
    obtain ⟨covers, nested⟩ := h'.nested o.tail.tail.right.tail.tail.right.tail
    have whole : Covers (d :: v :: (ms ++ r :: n :: (us ++ c :: us'))) (d.span.join body.span) := by
      simpa using covers.cons (v :: (ms ++ r :: n :: (us ++ [c]))) (t := d)
        (by simpa using o)
    have parts : Parts (r :: n :: (us ++ c :: us')) _ :=
      (params.append (Parts.one covers).skip).token.token
    exact ⟨whole, whole.holds o (parts.mono (List.sublist_append_right ..)).skip.skip, nested⟩

/-- Fields and methods come in any order, but each of them ends before the next one begins. -/
theorem YieldsMembers.nested {fs : List FieldDecl} {ms : List MethodDecl}
    (h : YieldsMembers fs ms ts) (o : Ordered ts) :
    Parts ts (fs.map FieldDecl.span) ∧ Parts ts (ms.map MethodDecl.span) ∧
      (∀ f ∈ fs, ∀ m ∈ ms, f.span.Before m.span ∨ m.span.Before f.span) ∧
      (∀ f ∈ fs, f.Nested) ∧ ∀ m ∈ ms, m.Nested := by
  induction h with
  | nil => exact ⟨.nil, .nil, nofun, nofun, nofun⟩
  | @field fs ms f _ _ _ h' ih =>
    obtain ⟨fields, methods, apart, nestedF, nestedM⟩ := ih o.left
    obtain ⟨covers, nested⟩ := h'.nested o.right
    have behind := methods.before covers o
    simp only [List.forall_mem_map] at behind
    rw [List.map_append]
    refine ⟨fields.append (.one covers), methods.mono (List.sublist_append_left ..), ?_,
      List.forall_mem_append.2 ⟨nestedF, by simpa using nested⟩, nestedM⟩
    simp only [List.mem_append, List.mem_singleton]
    rintro g (hg | rfl) m hm
    · exact apart g hg m hm
    · exact .inr (behind m hm)
  | @method fs ms m _ _ _ h' ih =>
    obtain ⟨fields, methods, apart, nestedF, nestedM⟩ := ih o.left
    obtain ⟨covers, nested⟩ := h'.nested o.right
    have behind := fields.before covers o
    simp only [List.forall_mem_map] at behind
    rw [List.map_append]
    refine ⟨fields.mono (List.sublist_append_left ..), methods.append (.one covers), ?_, nestedF,
      List.forall_mem_append.2 ⟨nestedM, by simpa using nested⟩⟩
    simp only [List.mem_append, List.mem_singleton]
    rintro f hf m (hm | rfl)
    · exact apart f hf m hm
    · exact .inl (behind f hf)

theorem YieldsHead.start {isPublic : Bool} {start : Span} (h : YieldsHead isPublic start ts) :
    ∃ t us, ts = t :: us ∧ t.span = start := by
  cases h <;> exact ⟨_, _, rfl, rfl⟩

theorem YieldsItem.nested {i : Item} (h : YieldsItem i ts) (o : Ordered ts) :
    Covers ts i.span ∧ i.Nested := by
  cases h with
  | nspace =>
    have whole := (Covers.one _).cons [] o
    exact ⟨whole, whole.holds o .nil⟩
  | @cls _ start _ fs ms n c z us us' h _ _ h' _ =>
    obtain ⟨t, us, rfl, rfl⟩ := h.start
    obtain ⟨fields, methods, apart, nested⟩ := h'.nested o.right.tail.tail.left
    have whole : Covers (t :: us ++ n :: c :: (us' ++ [z])) (t.span.join z.span) := by
      simpa using (Covers.one z).cons (us ++ n :: c :: us') (t := t) (by simpa using o)
    have inner {parts : List Span} (h : Parts us' parts) :
        Parts (t :: us ++ n :: c :: (us' ++ [z])) (n.span :: parts) :=
      (h.mono (List.sublist_append_left us' [z])).skip.token.mono (List.sublist_append_right ..)
    exact ⟨whole, whole.holds o (inner fields), whole.holds o (inner methods), apart, nested⟩

theorem YieldsItems.nested {is : List Item} (h : YieldsItems is ts) (o : Ordered ts) :
    Parts ts (is.map Item.span) ∧ ∀ i ∈ is, i.Nested := by
  induction h with
  | nil => exact ⟨.nil, nofun⟩
  | snoc _ h' ih =>
    obtain ⟨parts, each⟩ := ih o.left
    obtain ⟨covers, nested⟩ := h'.nested o.right
    rw [List.map_append]
    exact ⟨parts.append (.one covers), List.forall_mem_append.2 ⟨each, by simpa using nested⟩⟩

end Grammar
end ClassAsm
