import ClassAsm.Proofs.Source.Slices

/-! Spans that stay. A map of spans that leaves the spans of the tokens alone, and the joins of what
it leaves alone, leaves the whole tree alone: every span in a tree is the span of a token or joined
of two others. -/

namespace ClassAsm

variable {f : Span → Span}

theorem Expr.span_of_mapSpan {e : Expr} (h : e.mapSpan f = e) : f e.span = e.span :=
  e.span_mapSpan.symm.trans (congrArg Expr.span h)

theorem Block.span_of_mapSpan {b : Block} (h : b.mapSpan f = b) : f b.span = b.span := by
  cases b
  rw [Block.mapSpan] at h
  exact (Block.mk.inj h).2

theorem Arm.mapSpanEach_append (as as' : List Arm) :
    Arm.mapSpanEach f (as ++ as') = Arm.mapSpanEach f as ++ Arm.mapSpanEach f as' := by
  induction as with
  | nil => rfl
  | cons a as ih => simp [Arm.mapSpanEach, ih]

theorem Stmt.mapSpanEach_append (ss ss' : List Stmt) :
    Stmt.mapSpanEach f (ss ++ ss') = Stmt.mapSpanEach f ss ++ Stmt.mapSpanEach f ss' := by
  induction ss with
  | nil => rfl
  | cons s ss ih => simp [Stmt.mapSpanEach, ih]

namespace Grammar

/-- The map leaves the spans of the tokens alone. -/
def Unmoved (f : Span → Span) (ts : List Token) : Prop := ∀ t ∈ ts, f t.span = t.span

/-- With two spans the map leaves their join alone. -/
def KeepsJoins (f : Span → Span) : Prop := ∀ a b, f a = a → f b = b → f (a.join b) = a.join b

variable {ts us : List Token} {t : Token}

@[simp] theorem unmoved_nil : Unmoved f [] := nofun

@[simp] theorem unmoved_cons : Unmoved f (t :: ts) ↔ f t.span = t.span ∧ Unmoved f ts :=
  List.forall_mem_cons

@[simp] theorem unmoved_append : Unmoved f (ts ++ us) ↔ Unmoved f ts ∧ Unmoved f us :=
  List.forall_mem_append

mutual

theorem Yields.unmoved (hf : KeepsJoins f) {floor cap : Nat} {named : Bool} {e : Expr}
    {ts : List Token} : Yields floor cap named e ts → Unmoved f ts → e.mapSpan f = e
  | .int _, h | .float _, h | .str _, h | .ident _, h => by simpa [Expr.mapSpan] using h
  | .unary _ y, h => by
    obtain ⟨ht, h⟩ := unmoved_cons.1 h
    have same := y.unmoved hf h
    rw [Expr.mapSpan, same, hf _ _ ht (Expr.span_of_mapSpan same)]
  | .paren _ y _, h => by
    simp only [unmoved_cons, unmoved_append] at h
    obtain ⟨ho, h, hc, -⟩ := h
    rw [Expr.mapSpan_withSpan, y.unmoved hf h, hf _ _ ho hc]
  | .call _ _ _, h => by
    simp only [unmoved_cons] at h
    obtain ⟨hn, -, hc, -⟩ := h
    rw [Expr.mapSpan, Expr.mapSpanEach, hn, hf _ _ hn hc]
  | .callWith _ _ ys y _, h => by
    simp only [unmoved_cons, unmoved_append] at h
    obtain ⟨hn, -, ⟨hs, h⟩, hc, -⟩ := h
    rw [Expr.mapSpan, Expr.mapSpanEach_append, ys.unmoved hf hs, Expr.mapSpanEach, y.unmoved hf h,
      Expr.mapSpanEach, hn, hf _ _ hn hc]
  | .binary y _ _ _ y', h => by
    simp only [unmoved_cons, unmoved_append] at h
    obtain ⟨h, -, h'⟩ := h
    have left := y.unmoved hf h
    have right := y'.unmoved hf h'
    rw [Expr.mapSpan, left, right,
      hf _ _ (Expr.span_of_mapSpan left) (Expr.span_of_mapSpan right)]
  | .cast y _ _ _ _, h => by
    simp only [unmoved_cons, unmoved_append] at h
    obtain ⟨h, -, ht, -⟩ := h
    have same := y.unmoved hf h
    rw [Expr.mapSpan, same, ht, hf _ _ (Expr.span_of_mapSpan same) ht]

theorem YieldsEach.unmoved (hf : KeepsJoins f) {es : List Expr} {ts : List Token} :
    YieldsEach es ts → Unmoved f ts → Expr.mapSpanEach f es = es
  | .nil, _ => rfl
  | .snoc ys y _, h => by
    simp only [unmoved_append] at h
    obtain ⟨hs, h, -⟩ := h
    rw [Expr.mapSpanEach_append, ys.unmoved hf hs, Expr.mapSpanEach, y.unmoved hf h, Expr.mapSpanEach]

end

mutual

theorem YieldsStmt.unmoved (hf : KeepsJoins f) {tail : Tail} {s : Stmt} {ts : List Token} :
    YieldsStmt tail s ts → Unmoved f ts → s.mapSpan f = s
  | .expr y, h => by rw [Stmt.mapSpan, y.unmoved hf h]
  | .declare _ _ _, h => by
    simp only [unmoved_cons] at h
    obtain ⟨hn, -, ht, -⟩ := h
    rw [Stmt.mapSpan, hn, hf _ _ hn ht]
  | .assign _ _ y, h => by
    simp only [unmoved_cons] at h
    obtain ⟨hn, -, h⟩ := h
    have same := y.unmoved hf h
    rw [Stmt.mapSpan, same, hn, hf _ _ hn (Expr.span_of_mapSpan same)]
  | .define _ _ _ _ y, h => by
    simp only [unmoved_cons] at h
    obtain ⟨hn, -, -, -, h⟩ := h
    have same := y.unmoved hf h
    rw [Stmt.mapSpan, same, hn, hf _ _ hn (Expr.span_of_mapSpan same)]
  | .bareReturn _, h => by
    rw [Stmt.mapSpan, (unmoved_cons.1 h).1, Option.map_none]
  | .ret _ y, h => by
    obtain ⟨hr, h⟩ := unmoved_cons.1 h
    have same := y.unmoved hf h
    rw [Stmt.mapSpan, Option.map_some, same, hf _ _ hr (Expr.span_of_mapSpan same)]
  | .loop _ y _ b, h => by
    simp only [unmoved_cons, unmoved_append] at h
    obtain ⟨hw, h, -, h'⟩ := h
    have body := b.unmoved hf h'
    rw [Stmt.mapSpan, y.unmoved hf h, body, hf _ _ hw (Block.span_of_mapSpan body)]
  | .cond y, h => by
    obtain ⟨hs, hfirst, hrest, hlast⟩ := y.unmoved hf h
    rw [Stmt.mapSpan, hfirst, hrest, Block.mapSpanElse, hf _ _ hs hlast]
  | .condElse y _ _ b, h => by
    simp only [unmoved_cons, unmoved_append] at h
    obtain ⟨h, -, -, h'⟩ := h
    obtain ⟨hs, hfirst, hrest, -⟩ := y.unmoved hf h
    have body := b.unmoved hf h'
    rw [Stmt.mapSpan, hfirst, hrest, Block.mapSpanElse, body,
      hf _ _ hs (Block.span_of_mapSpan body)]

theorem YieldsStmts.unmoved (hf : KeepsJoins f) {tail : Tail} {ss : List Stmt} {ts : List Token} :
    YieldsStmts tail ss ts → Unmoved f ts → Stmt.mapSpanEach f ss = ss
  | .nil, _ => rfl
  | .snoc ys y _, h => by
    obtain ⟨hs, h⟩ := unmoved_append.1 h
    rw [Stmt.mapSpanEach_append, ys.unmoved hf hs, Stmt.mapSpanEach, y.unmoved hf h, Stmt.mapSpanEach]

theorem YieldsBlock.unmoved (hf : KeepsJoins f) {b : Block} {ts : List Token} :
    YieldsBlock b ts → Unmoved f ts → b.mapSpan f = b
  | @YieldsBlock.mk _ _ z ts ys _, h => by
    simp only [unmoved_append, unmoved_cons] at h
    obtain ⟨h, hz, -⟩ := h
    -- The block begins with its first token, which may be the closing one.
    have first : f ((ts.head?.map Token.span).getD z.span) =
        (ts.head?.map Token.span).getD z.span := by
      cases ts with
      | nil => exact hz
      | cons t ts => exact h t List.mem_cons_self
    rw [Block.mapSpan, ys.unmoved hf h, hf _ _ first hz]

/-- With the arms stay the keyword that they start with and the arm that ends them. -/
theorem YieldsArms.unmoved (hf : KeepsJoins f) {start : Span} {first : Arm} {rest : List Arm}
    {ts : List Token} :
    YieldsArms start first rest ts → Unmoved f ts → f start = start ∧ first.mapSpan f = first ∧
      Arm.mapSpanEach f rest = rest ∧ f (rest.getLastD first).span = (rest.getLastD first).span
  | .first _ y _ b, h => by
    simp only [unmoved_cons, unmoved_append] at h
    obtain ⟨hi, h, -, h'⟩ := h
    have body := b.unmoved hf h'
    have span := hf _ _ hi (Block.span_of_mapSpan body)
    refine ⟨hi, ?_, rfl, span⟩
    rw [Arm.mapSpan, y.unmoved hf h, body, span]
  | .snoc ys _ y _ b, h => by
    simp only [unmoved_cons, unmoved_append] at h
    obtain ⟨hs, hi, h, -, h'⟩ := h
    obtain ⟨hstart, hfirst, hrest, -⟩ := ys.unmoved hf hs
    have body := b.unmoved hf h'
    have span := hf _ _ hi (Block.span_of_mapSpan body)
    refine ⟨hstart, hfirst, ?_, ?_⟩
    · rw [Arm.mapSpanEach_append, hrest, Arm.mapSpanEach, Arm.mapSpan, y.unmoved hf h, body, span,
        Arm.mapSpanEach]
    · rw [List.getLastD_concat]
      exact span

end

theorem YieldsField.unmoved (hf : KeepsJoins f) {d : FieldDecl} (y : YieldsField d ts)
    (h : Unmoved f ts) : d.mapSpan f = d := by
  cases y with
  | plain =>
    simp only [unmoved_cons, unmoved_append] at h
    obtain ⟨hk, -, -, -, ht, -⟩ := h
    rw [FieldDecl.mapSpan, hf _ _ hk ht, Option.map_none]
  | withDefault _ _ _ _ _ _ y =>
    simp only [unmoved_cons, unmoved_append] at h
    obtain ⟨hk, -, -, -, -, -, h⟩ := h
    have same := y.unmoved hf h
    rw [FieldDecl.mapSpan, Option.map_some, same, hf _ _ hk (Expr.span_of_mapSpan same)]

theorem YieldsParam.unmoved (hf : KeepsJoins f) {p : Param} (y : YieldsParam p ts)
    (h : Unmoved f ts) : p.mapSpan f = p := by
  cases y
  simp only [unmoved_cons] at h
  obtain ⟨hn, -, ht, -⟩ := h
  rw [Param.mapSpan, hf _ _ hn ht]

theorem YieldsEachParam.unmoved (hf : KeepsJoins f) {ps : List Param}
    (y : YieldsEachParam ps ts) (h : Unmoved f ts) :
    ps.map (·.mapSpan f) = ps := by
  induction y with
  | nil => rfl
  | snoc _ y _ ih =>
    simp only [unmoved_append] at h
    obtain ⟨hs, h, -⟩ := h
    rw [List.map_append, ih hs, List.map_singleton, y.unmoved hf h]

theorem YieldsParams.unmoved (hf : KeepsJoins f) {ps : List Param} (y : YieldsParams ps ts)
    (h : Unmoved f ts) : ps.map (·.mapSpan f) = ps := by
  cases y with
  | absent | empty => rfl
  | some _ ys y _ =>
    simp only [unmoved_cons, unmoved_append] at h
    obtain ⟨-, ⟨hs, h⟩, -, -⟩ := h
    rw [List.map_append, ys.unmoved hf hs, List.map_singleton, y.unmoved hf h]

theorem YieldsMethod.unmoved (hf : KeepsJoins f) {m : MethodDecl} (y : YieldsMethod m ts)
    (h : Unmoved f ts) : m.mapSpan f = m := by
  obtain ⟨_, _, _, _, _, ps, _, b⟩ := y
  simp only [unmoved_cons, unmoved_append] at h
  obtain ⟨hd, -, -, hr, hn, hps, -, hb⟩ := h
  have body := b.unmoved hf hb
  rw [MethodDecl.mapSpan, ps.unmoved hf hps, body, hn, hr, hf _ _ hd (Block.span_of_mapSpan body)]

theorem YieldsMembers.unmoved (hf : KeepsJoins f) {fs : List FieldDecl} {ms : List MethodDecl}
    (y : YieldsMembers fs ms ts) (h : Unmoved f ts) :
    fs.map (·.mapSpan f) = fs ∧ ms.map (·.mapSpan f) = ms := by
  induction y with
  | nil => exact ⟨rfl, rfl⟩
  | field _ y ih =>
    obtain ⟨hs, h⟩ := unmoved_append.1 h
    obtain ⟨fields, methods⟩ := ih hs
    rw [List.map_append, fields, List.map_singleton, y.unmoved hf h]
    exact ⟨rfl, methods⟩
  | method _ y ih =>
    obtain ⟨hs, h⟩ := unmoved_append.1 h
    obtain ⟨fields, methods⟩ := ih hs
    rw [List.map_append, methods, List.map_singleton, y.unmoved hf h]
    exact ⟨fields, rfl⟩

theorem YieldsHead.unmoved {isPublic : Bool} {start : Span} (y : YieldsHead isPublic start ts)
    (h : Unmoved f ts) : f start = start := by
  cases y with
  | absent | before | behind => exact (unmoved_cons.1 h).1

theorem YieldsItem.unmoved (hf : KeepsJoins f) {i : Item} (y : YieldsItem i ts) (h : Unmoved f ts) :
    i.mapSpan f = i := by
  cases y with
  | nspace =>
    simp only [unmoved_cons] at h
    obtain ⟨hk, hn, -⟩ := h
    rw [Item.mapSpan, hf _ _ hk hn]
  | cls head _ _ members _ =>
    simp only [unmoved_cons, unmoved_append] at h
    obtain ⟨hhead, hn, -, hmembers, hz, -⟩ := h
    obtain ⟨fields, methods⟩ := members.unmoved hf hmembers
    rw [Item.mapSpan, ClassDecl.mapSpan, fields, methods, hn, hf _ _ (head.unmoved hhead) hz]

/-- Items whose tokens stay where they are stay as they are. -/
theorem YieldsItems.unmoved (hf : KeepsJoins f) {is : List Item} (y : YieldsItems is ts)
    (h : Unmoved f ts) : is.map (·.mapSpan f) = is := by
  induction y with
  | nil => rfl
  | snoc _ y ih =>
    obtain ⟨hs, h⟩ := unmoved_append.1 h
    rw [List.map_append, ih hs, List.map_singleton, y.unmoved hf h]

end Grammar
end ClassAsm
