import ClassAsm.Proofs.Bounds.Bodies
import ClassAsm.Proofs.Bounds.Texts
import ClassAsm.Proofs.Program.Bodies

/-! Nothing is looked up where it is not: in the source and its lines, in the tokens, and in the
tables of a program while it is placed, declared and compiled. This is so up to any failure. -/

namespace ClassAsm

/-- What a draft looks up is there, if there are that many classes. -/
structure Draft.InBounds (n : Nat) (d : Draft) : Prop where
  current : d.InRange
  types : d.locals.Below n
  slots : ∀ (name : String) (slot : Nat), d.locals.index[name]? = some slot →
    slot < d.locals.entries.size

/-- In a registry that declares the same, a task leads to the same ones. -/
theorem Draft.Leads.declared {site site' : Site} (h : site.RenamesTo .still site')
    {x y : Task × Draft} (hl : Leads site' x y) : Leads site x y := by
  cases hl with
  | first ha => exact .first ((admit?_still h _ _).symm.trans ha)
  | rest ha hs => exact .rest ((admit?_still h _ _).symm.trans ha) ((stmt_still h _ _).symm.trans hs)
  | body hb => exact .body ((loopStart_still h _ _).symm.trans hb)
  | otherwise hc => exact .otherwise ((condStart_still h _ _).symm.trans hc)
  | arms hc ho =>
    exact .arms ((condStart_still h _ _).symm.trans hc) ((stmts_still h _ _).symm.trans ho)
  | arm => exact .arm
  | nextArms hs => exact .nextArms ((stmts_still h _ _).symm.trans hs)

namespace Job

open Draft

/-- What the compilation of a method looks up is there. -/
structure InBounds (j : Job) : Prop where
  site : j.site.InRange
  /-- The signature has an entry for each parameter that is copied. -/
  params : ∀ decl, j.source = .declared decl → j.site.sig.params.length = decl.params.length
  drafts : ∀ t d, j.Visits t d → d.InBounds j.site.registry.classes.size
  names : ∀ l name span t, (j.site.scope l).resolveType name span = .ok t →
    t.cls < j.site.registry.classes.size
  /-- An expression has a type that has a class, also inside the defaults of fields. -/
  types : ∀ l : Locals, l.Below j.site.registry.classes.size → ∀ n inlining e c,
    (j.site.scope l).codeInside n inlining e = .ok c → c.type.cls < j.site.registry.classes.size
  /-- A method that is given two operands has a second parameter. -/
  operands : ∀ l t (op : BinaryOp) span m, (j.site.scope l).operator t op.operation span = .ok m →
    ∃ p, m.sig.params[1]? = some p

variable {j : Job} {d : Draft}

theorem opening_inRange (site : j.site.InRange) (h : j.opening = .ok d) :
    d.InRange ∧ d.locals.Below j.site.registry.classes.size := by
  have hr := inRange_start j.labels j.warnings
  unfold opening at h
  split at h
  · refine ⟨(params_step False hr (fallsThrough_start _ _) h).1.inRange, ?_⟩
    refine params_locals (fun p hp l new hl => ?_) h Locals.below_empty
    obtain ⟨q, hq, same⟩ := List.mem_map.1 (List.of_mem_zip hp).2
    exact hl.add (same ▸ site.sig.params q hq) new
  · cases h
    exact ⟨hr, Locals.below_empty⟩

/-- What is compiled already does not show in the drafts. -/
theorem Visits.inBounds {site : Site} (alike : site.RenamesTo .still j.site)
    (inRange : j.site.InRange) {t : Task} (h : j.Visits t d) :
    d.InBounds j.site.registry.classes.size := by
  obtain ⟨d₀, opened, leads⟩ := h
  obtain ⟨hr, below⟩ := opening_inRange inRange opened
  have leads' := Relation.ReflTransGen.mono (fun _ _ => Leads.declared alike) _ _ leads
  exact
    { current := (Ready.reaches (p := (.block j.stmts, d₀)) alike.installed hr trivial leads').1
      types := inRange.lasts.reaches leads below
      slots := fun _ _ => d.locals.lt_size }

end Job

namespace Program

open Registry

variable {options : Options} {items : List Item} {d : Declared} {p p' : Progress} {o : Outline}
  {m : Method × MethodSource}

/-- The method that is compiled next, in the registry that is filled so far. -/
def Progress.job (p : Progress) (builtins : Builtins) (options : Options) (o : Outline)
    (m : Method × MethodSource) : Job :=
  ⟨⟨m.1, ⟨p.program.registry, builtins, o.id, o.nspace, m.1.sig, options⟩, m.2⟩, p.labels,
    p.warnings⟩

def Declared.start (d : Declared) : Progress := ⟨⟨d.registry, false⟩, 0, d.warnings⟩

def Declared.Reaches (d : Declared) (options : Options) (p : Progress) (o : Outline)
    (m : Method × MethodSource) : Prop :=
  ∃ before after q, d.outlines = before ++ o :: after ∧
    before.foldlM (Program.compileClass d.builtins options) d.start = .ok q ∧
    ∃ done rest, o.cls.methods.zip o.sources = done ++ m :: rest ∧
      done.foldlM (compileMethod d.builtins options o) q = .ok p

/-- The registry that is filled has the class of every type, and declares what it did at first. -/
structure Declared.Running (d : Declared) (r : Registry) : Prop where
  closed : r.Closed
  same : r.declarations = d.registry.declarations

namespace Declared.Running

variable {r : Registry}

theorem start (inRange : d.InRange) : d.Running d.start.program.registry := ⟨inRange.closed, rfl⟩

theorem size (h : d.Running r) : r.classes.size = d.registry.classes.size := by
  have := congrArg (·.classes.size) h.same
  simpa only [declarations, Array.size_map] using this

theorem spaces (h : d.Running r) : r.namespaces = d.registry.namespaces :=
  (congrArg Registry.namespaces h.same :)

theorem site (h : d.Running p.program.registry) (inRange : d.InRange) (ho : o ∈ d.outlines)
    (hm : m.1 ∈ o.cls.methods) : (p.job d.builtins options o m).site.InRange := by
  obtain ⟨id, nspace, below⟩ := inRange.outlines o ho
  rw [← h.size] at id below
  rw [← h.spaces] at nspace
  exact ⟨h.closed, h.size ▸ inRange.builtins, id, nspace, below.sigs _ hm⟩

theorem compileMethod (h : d.Running p.program.registry) (ordered : d.Ordered)
    (inRange : d.InRange) (ho : o ∈ d.outlines) (hm : m ∈ o.cls.methods.zip o.sources)
    (compiled : Program.compileMethod d.builtins options o p m = .ok p') :
    d.Running p'.program.registry := by
  have listed := (List.of_mem_zip hm).1
  have pending := (ordered.linked o ho).pending listed
  obtain ⟨⟨c, labels, warnings⟩, hc, made⟩ := bind_eq_ok.1 compiled
  cases made
  have locals := ((h.site inRange ho listed).compile rfl hc).2
  exact
    { closed := h.closed.updateClass fun _ found =>
        (h.closed.class? found).updateMethod _ fun _ => locals
      same := ordered.declarations_entered ho h.same listed (Method.declaration_compile pending hc) }

theorem compileClasses (h : d.Running p.program.registry) (ordered : d.Ordered)
    (inRange : d.InRange) {os : List Outline} (listed : ∀ o ∈ os, o ∈ d.outlines)
    (compiled : os.foldlM (Program.compileClass d.builtins options) p = .ok p') :
    d.Running p'.program.registry :=
  foldlM_invariant (P := fun _ p => d.Running p.program.registry) compiled h
    fun _ o ho _ _ h compiled =>
      foldlM_invariant (P := fun _ p => d.Running p.program.registry) compiled h
        fun _ _ hm _ _ h compiled => h.compileMethod ordered inRange (listed o ho) hm compiled

end Declared.Running

/-- Nothing that a method needs is missing when it is compiled. -/
theorem Declared.Reaches.inBounds (declared : declare items = .ok d)
    (h : d.Reaches options p o m) : (p.job d.builtins options o m).InBounds := by
  obtain ⟨before, after, q, outlines, classes, done, rest, listed, methods⟩ := h
  have ordered := declare_ordered declared
  have inRange := declare_inRange declared
  have ho : o ∈ d.outlines := by simp [outlines]
  have hm : m ∈ o.cls.methods.zip o.sources := by simp [listed]
  have running : d.Running p.program.registry := by
    have reached := (Running.start inRange).compileClasses ordered inRange
      (fun o ho => by simp [outlines, ho]) classes
    exact foldlM_invariant (P := fun _ p => d.Running p.program.registry) methods reached
      fun _ m hm _ _ h => h.compileMethod ordered inRange ho (by simp [listed, hm])
  have site : (p.job d.builtins options o m).site.InRange :=
    running.site inRange ho (List.of_mem_zip hm).1
  have alike : (d.siteIn options o m.1).RenamesTo .still (p.job d.builtins options o m).site :=
    Site.renamesTo_still ordered.installed running.same
  refine
    { site
      params := fun decl hd => ?_
      drafts := fun _ _ => Job.Visits.inBounds alike site
      names := fun _ _ _ _ ht => site.registry.resolve? (Scope.resolveType_eq_ok.1 ht)
      types := fun l hl _ _ _ _ hc => (site.scope hl).codeInside hc
      operands := fun _ _ _ _ _ => Scope.operator_second }
  have stands := (List.forall₂_iff_zip.1 (ordered.linked o ho)).2 hm
  have lengths := congrArg List.length (stands.2 decl hd)
  rwa [List.length_map, List.length_map] at lengths

theorem build_closed {p : Program} {ws : Array Warning}
    (h : build options items = .ok (p, ws)) : p.registry.Closed := by
  simp only [build_eq_declare, bind_eq_ok, Except.ok.injEq, Prod.mk.injEq] at h
  obtain ⟨d, declared, progress, compiled, rfl, -⟩ := h
  have inRange := declare_inRange declared
  exact ((Declared.Running.start inRange).compileClasses (declare_ordered declared) inRange
    (fun _ => id) compiled).closed

/-- What a program looks up in its tables is there, from its first item to the assembly text. -/
structure InBounds (options : Options) (items : List Item) : Prop where
  placing : ∀ before p, before <+: items →
    before.foldlM Placement.add { registry := base } = .ok p → p.InRange
  naming : ∀ p, items.foldlM Placement.add { registry := base } = .ok p → ∀ name ns t,
    p.registry.resolve? name ns = some t → t.cls < p.registry.classes.size
  declaring : ∀ d, declare items = .ok d → d.InRange
  compiling : ∀ d, declare items = .ok d → ∀ p o m, d.Reaches options p o m →
    (p.job d.builtins options o m).InBounds
  compiled : ∀ p ws, build options items = .ok (p, ws) → p.registry.Closed
  /-- At any time, the fields and methods of a class are where its indexes say. -/
  members : ∀ c : Class, c.Indexed

theorem inBounds (options : Options) (items : List Item) : InBounds options items where
  placing _ _ _ := Placement.InRange.start.addAll
  naming _ placed _ _ _ := (Placement.InRange.start.addAll placed).closed.resolve?
  declaring _ := declare_inRange
  compiling _ declared _ _ _ := Declared.Reaches.inBounds declared
  compiled _ _ := build_closed
  members c := c.indexed

end Program

/-! Sources. -/

namespace Compilation

variable (source : List Char) (options : Options)

/-- What the compilation of a source looks up is there, and what a report on it shows. -/
structure InBounds : Prop where
  /-- The scanner looks up bytes and cuts out texts, each where there is one. -/
  scanning : Cursor.tokenize? source {} = some (Lexed.ofSource source)
  reading : ∀ tokens, (Lexed.ofSource source).tokens = .ok tokens →
    Grammar.readAt tokens [] .top 0 = some (Item.ofTokens tokens)
  types : ∀ name : String, TypeName.parse? name.toList = some (TypeName.parse name)
  program : ∀ tokens items, (Lexed.ofSource source).tokens = .ok tokens →
    Item.ofTokens tokens = .ok items → Program.InBounds (ofSource source options).1 items
  positions : ∀ offset, Position.ofOffset? source offset = some (Position.ofOffset source offset)
  lines : ∀ path span,
    Diagnostic.excerpt? source path span = some (Diagnostic.excerpt source path span)

theorem lookups_are_in_bounds : InBounds source options where
  scanning := Cursor.tokenize?_eq source
  reading _ := Item.readAt_eq
  types := TypeName.parse?_eq
  program _ items _ _ := Program.inBounds _ items
  positions := Position.ofOffset?_eq source
  lines := Diagnostic.excerpt?_eq source

end Compilation
end ClassAsm
