import ClassAsm.Proofs.Method.Scans
import ClassAsm.Proofs.Program.Slots

/-! What the identifiers of a method denote, and the order of its locals. Where nothing is trimmed,
both are as the scan says that follows the compilation. They are as the scan of the text says exactly
if the two scans find the same. -/

namespace ClassAsm

open Draft

def Touches (locals : List (String × TypeRef)) (name : String) (code : List Instruction) : Prop :=
  ∃ slot, HasSlot locals name slot ∧ ∃ i ∈ code, i.slot? = some slot

theorem touches_iff {l l' : Locals} {names : List String} {code : List Instruction}
    (slotted : Slotted l.toList names code)
    (later : ∀ name x, l.find? name = some x → l'.find? name = some x) {name : String} :
    Touches l'.toList name code ↔ name ∈ names := by
  have still {name : String} {slot : Nat} (h : HasSlot l.toList name slot) :
      HasSlot l'.toList name slot :=
    h.imp fun type found => Locals.getElem?_toList.2 (later _ _ (Locals.getElem?_toList.1 found))
  constructor
  · rintro ⟨slot, ⟨type, found⟩, i, hi, uses⟩
    obtain ⟨name', mem, has⟩ := exists_of_mem_forall₂ slotted (List.mem_filterMap.2 ⟨i, hi, uses⟩)
    obtain ⟨type', found'⟩ := still has
    obtain ⟨rfl, -⟩ := Prod.mk.inj (Option.some.inj (found'.symm.trans found))
    exact mem
  · intro mem
    obtain ⟨slot, mem, has⟩ := exists_of_mem_forall₂ slotted.flip mem
    obtain ⟨i, hi, uses⟩ := List.mem_filterMap.1 mem
    exact ⟨slot, still has, i, hi, uses⟩

theorem Slotted.mem_names {l : Locals} {names : List String} {code : List Instruction}
    (slotted : Slotted l.toList names code) {name : String} (mem : name ∈ names) :
    name ∈ l.names := by
  obtain ⟨slot, -, type, found⟩ := exists_of_mem_forall₂ slotted.flip mem
  exact Locals.mem_names.2 (by simp [Locals.getElem?_toList.1 found])

namespace Draft

variable {site : Site} {x y : Draft} {name : String} {span : Span} {e : Expr}
  {code : List Instruction}

theorem not_isLocal_of_field {f : Field} (hl : x.locals.find? name = none)
    (found : (site.scope x.locals).field? name = some f) :
    ¬ (name ∈ x.locals.names ∨ site.isField name = false) := by
  have field : site.isField name = true := by rw [← field?_isSome_eq site x.locals, found]; rfl
  rintro (mem | other)
  · exact Locals.mem_names.1 mem hl
  · simp [field] at other

theorem isLocal_of_unless_field
    (h : x.locals.find? name = none → (site.scope x.locals).field? name = none) :
    name ∈ x.locals.names ∨ site.isField name = false := by
  by_cases hl : x.locals.find? name = none
  · right
    rw [← field?_isSome_eq site x.locals, h hl]
    rfl
  · exact .inl (Locals.mem_names.2 hl)

theorem assign_adds (hs : site.registry.Installed site.builtins) (hr : x.InRange)
    (compiled : x.assign site name span none e = .ok y) :
    ∃ names code, y.codeAt x.current = x.codeAt x.current ++ code ∧
      Slotted y.locals.toList names code ∧
      (name ∈ names ↔ name ∈ x.locals.names ∨ site.isField name = false) := by
  have emitted (code : List Instruction) :
      (x.emitAll code).codeAt x.current = x.codeAt x.current ++ code := by
    rw [codeAt_emitAll hr, if_pos rfl]
  have value {c : Code} (hc : (site.scope x.locals).valueCode e = .ok c) :
      Slotted x.locals.toList ((site.scope x.locals).reads e) c.instructions :=
    (Scope.code_loads hs (Scope.valueCode_eq_ok.1 hc).1).slots
  cases assign_emits compiled with
  | @toStatic f c hl found _ hc =>
    have store : ∀ i ∈ [Instruction.stsfld (site.registry.fieldTarget site.owner f)],
        i.slot? = none := by simp [Instruction.slot?]
    have uses := (value hc).followed store
    rw [locals_emitAll]
    exact ⟨_, _, emitted _, uses, iff_of_false
      (fun mem => Locals.mem_names.1 (uses.mem_names mem) hl) (not_isLocal_of_field hl found)⟩
  | @toInstance f c hl found _ _ hc =>
    have receiver : Slotted x.locals.toList [] [.ldarg 0] := .of_none (by simp [Instruction.slot?])
    have store : ∀ i ∈ [Instruction.stfld (site.registry.fieldTarget site.owner f)],
        i.slot? = none := by simp [Instruction.slot?]
    have uses := (receiver.append (value hc)).followed store
    rw [locals_emitAll]
    exact ⟨_, _, emitted _, uses, iff_of_false
      (fun mem => Locals.mem_names.1 (uses.mem_names mem) hl) (not_isLocal_of_field hl found)⟩
  | @through slot type c hl _ hc =>
    have load : Slotted x.locals.toList [name] [.ldloc slot] := .one rfl (Locals.hasSlot hl)
    have store : ∀ i ∈ [Instruction.stind (site.builtins.elementKind type.cls)],
        i.slot? = none := by simp [Instruction.slot?]
    have uses := (load.append (value hc)).followed store
    rw [locals_emitAll]
    exact ⟨_, _, emitted _, uses, iff_of_true List.mem_cons_self
      (.inl (Locals.mem_names.2 (by simp [hl])))⟩
  | @toLocal _ slot c d₀ field _ _ hc hb =>
    have store : Slotted d₀.locals.toList [name] [.stloc slot] := .one rfl (Locals.hasSlot hb.find?)
    obtain ⟨before, added⟩ : x.locals.toList <+: d₀.locals.toList ∧
        (d₀.emitAll (c.instructions ++ [.stloc slot])).codeAt x.current =
          x.codeAt x.current ++ (c.instructions ++ [.stloc slot]) := by
      cases hb with
      | known => exact ⟨List.prefix_refl _, emitted _⟩
      | new h =>
        refine ⟨⟨_, (Locals.toList_add h).symm⟩, ?_⟩
        exact (codeAt_emitAll (d := x.addLocal name c.type) hr _).trans (if_pos rfl)
    rw [locals_emitAll]
    exact ⟨_, _, added, ((value hc).mono before).append store,
      iff_of_true (List.mem_append_right _ List.mem_cons_self) (isLocal_of_unless_field (field rfl))⟩

end Draft

namespace Job

def scan (j : Job) (order : Sequence) : Scan :=
  Stmt.scanAll order j.site.isField (j.parameters.map Prod.fst) j.stmts

/-- The code for an identifier where it is used. To read it is to load its value or its address. What
an assignment adds is all for the name that it assigns to. -/
inductive Makes (j : Job) : Use → String → Span → List Instruction → Prop where
  | read {s : Stmt} {x : Draft} {e : Expr} {name : String} {span : Span} {code : List Instruction}
      (visits : j.Visits (.one s) x) (value : e ∈ s.values) (mem : (name, span) ∈ e.idents)
      (takes : (j.site.scope x.locals).Takes name span code) : Makes j .read name span code
  | assign {name : String} {span whole : Span} {e : Expr} {x y : Draft} {code : List Instruction}
      (visits : j.Visits (.one (.assign name span none e whole)) x)
      (compiled : x.assign j.site name span none e = .ok y)
      (added : y.codeAt x.current = x.codeAt x.current ++ code) : Makes j .assign name span code

/-- A compiled method agrees with a scan. Its locals are those names in that order, and an identifier
denotes the local of its name where the scan takes it for a local: the code for it uses that slot. -/
structure Resolves (j : Job) (order : Sequence) (m : Method) : Prop where
  locals : m.locals.map Prod.fst = (j.scan order).names
  sights : ∀ sight, sight ∈ (j.scan order).sights ↔
    ∃ code, j.Makes sight.use sight.name sight.span code ∧
      (∃ g ∈ m.segments, code <:+: g.code) ∧
      (sight.isLocal = true ↔ Touches m.locals sight.name code)

/-- The identifiers of all statements that the compilation comes to are met as in the scan, also if the
method is refused in the end. -/
def Follows (j : Job) (order : Sequence) : Prop :=
  ∀ s x, j.Visits (.one s) x → s.sights j.site.isField x.locals.names ⊆ (j.scan order).sights

/-- Nothing depends on the order in which the parts of conditions are taken. -/
def InOrder (j : Job) : Prop :=
  (j.scan .textual).names = (j.scan .emitted).names ∧
    ∀ sight, sight ∈ (j.scan .textual).sights ↔ sight ∈ (j.scan .emitted).sights

instance (j : Job) : Decidable j.InOrder :=
  decidable_of_iff ((j.scan .textual).names = (j.scan .emitted).names ∧
      (j.scan .textual).sights ⊆ (j.scan .emitted).sights ∧
      (j.scan .emitted).sights ⊆ (j.scan .textual).sights)
    (and_congr_right fun _ => ⟨fun h _ => ⟨@h.1 _, @h.2 _⟩, fun h => ⟨fun _ => (h _).1, fun _ => (h _).2⟩⟩)

variable {j : Job} {m : Method} {d d' x : Draft} {t : Task} {s : Stmt} {labels : Nat}
  {warnings : Array Warning}

theorem InOrder.follows (h : j.InOrder) (follows : j.Follows .emitted) : j.Follows .textual :=
  fun s x visits _ mem => (h.2 _).2 (follows s x visits mem)

/-- A method that agrees with the compilation agrees with the text exactly if the two do. -/
theorem Resolves.textual_iff (h : j.Resolves .emitted m) : j.Resolves .textual m ↔ j.InOrder := by
  constructor
  · intro h'
    exact ⟨h'.locals.symm.trans h.locals, fun sight => (h'.sights sight).trans (h.sights sight).symm⟩
  · intro same
    exact ⟨h.locals.trans same.1.symm, fun sight => (same.2 sight).trans (h.sights sight)⟩

/-! The identifiers that are met are those of the scan. -/

theorem names_of_opening (linked : j.IsLinked) (opened : j.opening = .ok d) :
    d.locals.names = j.parameters.map Prod.fst :=
  congrArg (List.map Prod.fst) (opens linked opened).locals

section

variable (kept : j.site.options.trimUnreachableCode = false)

include kept

theorem follows_emitted (linked : j.IsLinked) : j.Follows .emitted := by
  rintro s x ⟨d₀, opened, leads⟩
  have all : ∀ y, Relation.ReflTransGen (Leads j.site) (.block j.stmts, d₀) y →
      (y.1.scan j.site.isField y.2.locals.names).sights ⊆ (j.scan .emitted).sights := by
    intro y hy
    induction hy with
    | refl =>
      rw [names_of_opening linked opened]
      exact List.Subset.refl _
    | tail _ step ih => exact List.Subset.trans (step.sights_subset kept) ih
  exact List.Subset.trans (sights_subset_scan s) (all _ leads)

theorem exists_visits (run : Draft.Run j.site t d d') (visits : j.Visits t d) {sight : Sight}
    (mem : sight ∈ (t.scan j.site.isField d.locals.names).sights) :
    ∃ s x, j.Visits (.one s) x ∧ sight ∈ s.sights j.site.isField x.locals.names := by
  induction run with
  | done | noArms => cases mem
  | drop ha =>
    cases Draft.admits ha with
    | dropped _ _ trim => simp [kept] at trim
  | next ha hs _ ihs ihr =>
    have same := congrArg Locals.names (Draft.admits ha).locals
    rcases List.mem_append.1 mem with mem | mem
    · exact ihs (visits.leads (.first ha)) (by rw [same]; exact mem)
    · refine ihr (visits.leads (.rest ha hs.compile_eq_ok)) ?_
      rw [names_of_run kept hs, same]
      exact mem
  | expr | declare | assign | ret => exact ⟨_, _, visits, mem⟩
  | @loop d _ _ c body span _ _ hl _ ih =>
    rw [scan_loop] at mem
    rcases List.mem_append.1 mem with mem | mem
    · exact ⟨_, d, visits, by simpa [Stmt.sights, Stmt.values, Stmt.target?] using mem⟩
    · exact ih (visits.leads (.body hl)) (by rwa [locals_loopStart hl])
  | @cond d d₁ d₂ _ first rest otherwise span after segments hc ho _ iho iha =>
    have same := congrArg Locals.names (locals_condStart hc)
    rw [scan_cond first rest otherwise span after (length_condStart hc)] at mem
    rcases List.mem_append.1 mem with mem | mem
    · rcases List.mem_append.1 mem with mem | mem
      · exact ⟨_, d, visits, by simpa [Stmt.sights, Stmt.values, Stmt.target?, List.flatMap_map] using mem⟩
      · exact iho (visits.leads (.otherwise hc)) (by rw [same]; exact mem)
    · refine iha (visits.leads (.arms hc ho.compile_eq_ok)) ?_
      rw [locals_join, names_of_run kept ho, same]
      exact mem
  | @arm d d₁ _ after segment a xs h _ ih iht =>
    rw [scan_arms_cons] at mem
    rcases List.mem_append.1 mem with mem | mem
    · exact ih (visits.leads .arm) mem
    · refine iht (visits.leads (.nextArms h.compile_eq_ok)) ?_
      rw [locals_join, names_of_run kept h]
      exact mem

theorem names_of_compile (hs : j.site.registry.Installed j.site.builtins) (linked : j.IsLinked)
    (h : j.compile = .ok (m, labels, warnings)) :
    m.locals.map Prod.fst = (j.scan .emitted).names := by
  cases src : j.source with
  | declared decl =>
    obtain ⟨d, gives⟩ := Job.gives False hs False.elim h
    obtain ⟨d₀, d₁, opened, -, -, body, -, last⟩ := gives.opened
    obtain rfl := last decl src
    rw [gives.locals]
    refine (names_of_run kept (run_block _ body)).trans ?_
    rw [names_of_opening linked opened]
    rfl
  | initializer isStatic =>
    have none' : j.parameters = [] := by rw [parameters, src]
    rw [locals_eq_nil_of_initializer hs linked src h, scan, none', stmts, src]
    rfl

end

/-! The code for the identifiers. -/

section

variable (hs : j.site.registry.Installed j.site.builtins)
  (h : j.compile = .ok (m, labels, warnings))

include hs h

theorem later_of_visits (visits : j.Visits (.one s) x) : ∃ d y, j.Gives False d m labels warnings ∧
    x.InRange ∧ x.stmt j.site s = .ok y ∧ Grows y d ∧ Grows x y := by
  obtain ⟨d, gives⟩ := Job.gives False hs False.elim h
  have visited := gives.visited hs visits
  obtain ⟨y, compiled, grows⟩ := visited.compiles
  have step : Step j.site False x y := visited.done hs compiled
  exact ⟨d, y, gives, visited.inRange, compiled, grows, step.grows⟩

theorem touches_of_takes (visits : j.Visits (.one s) x) {name : String} {span : Span}
    {code : List Instruction} (takes : (j.site.scope x.locals).Takes name span code) :
    Touches m.locals name code ↔ name ∈ x.locals.names := by
  obtain ⟨d, y, gives, -, -, grows, grows'⟩ := later_of_visits hs h visits
  obtain ⟨names, slotted, alone⟩ := takes.slotted hs
  rw [gives.locals, touches_iff slotted (grows'.trans grows).locals]
  refine ⟨slotted.mem_names, fun mem => ?_⟩
  rw [alone (Option.isSome_iff_ne_none.2 (Locals.mem_names.1 mem))]
  exact List.mem_singleton_self _

theorem touches_of_assign {name : String} {span whole : Span} {e : Expr} {y : Draft}
    {code : List Instruction} (visits : j.Visits (.one (.assign name span none e whole)) x)
    (compiled : x.assign j.site name span none e = .ok y)
    (added : y.codeAt x.current = x.codeAt x.current ++ code) :
    Touches m.locals name code ↔ name ∈ x.locals.names ∨ j.site.isField name = false := by
  obtain ⟨d, y', gives, hr, compiled', grows, -⟩ := later_of_visits hs h visits
  rw [Draft.stmt] at compiled'
  obtain rfl := Except.ok.inj (compiled.symm.trans compiled')
  obtain ⟨names, code', added', slotted, uses⟩ := assign_adds hs hr compiled
  obtain rfl := List.append_cancel_left (added.symm.trans added')
  rw [gives.locals, touches_iff slotted grows.locals, uses]

theorem exists_makes (useless : j.site.options.trimUselessCode = false)
    (visits : j.Visits (.one s) x) {sight : Sight}
    (mem : sight ∈ s.sights j.site.isField x.locals.names) :
    ∃ code, j.Makes sight.use sight.name sight.span code ∧
      (∃ g ∈ m.segments, code <:+: g.code) ∧
      (sight.isLocal = true ↔ Touches m.locals sight.name code) := by
  obtain ⟨d, y, gives, hr, compiled, grows, -⟩ := later_of_visits hs h visits
  rcases Stmt.mem_sights.1 mem with ⟨e, value, name, span, ident, rfl⟩ | ⟨name, span, e, whole, rfl, rfl⟩
  · have whole : ¬ j.site.Omits s := by
      rintro ⟨_, -, -, trim⟩
      simp [useless] at trim
    obtain ⟨c, hc, contains⟩ := visits.computes hs gives value whole
    obtain ⟨code, takes, within⟩ := Scope.takes_of_mem_idents hc ident
    obtain ⟨g, hg, stretch⟩ := gives.contains contains
    exact ⟨code, .read visits value ident takes, ⟨g, hg, within.trans stretch⟩, by
      simp [touches_of_takes hs h visits takes]⟩
  · rw [Draft.stmt] at compiled
    obtain ⟨-, code, added, -⟩ := assign_adds hs hr compiled
    have contains : y.Contains code := ⟨x.current, added ▸ (List.suffix_append _ _).isInfix⟩
    exact ⟨code, .assign visits compiled added, gives.contains (contains.grows grows), by
      simp [touches_of_assign hs h visits compiled added]⟩

theorem Makes.exists_visits {use : Use} {name : String} {span : Span} {code : List Instruction}
    (makes : j.Makes use name span code) {isLocal : Bool}
    (touches : isLocal = true ↔ Touches m.locals name code) : ∃ s x, j.Visits (.one s) x ∧
      ⟨use, name, span, isLocal⟩ ∈ s.sights j.site.isField x.locals.names := by
  cases makes with
  | read visits value ident takes =>
    refine ⟨_, _, visits, Stmt.mem_sights.2 (.inl ⟨_, value, _, _, ident, ?_⟩)⟩
    congr 1
    exact Bool.eq_iff_iff.2 (touches.trans (by simp [touches_of_takes hs h visits takes]))
  | assign visits compiled added =>
    refine ⟨_, _, visits, Stmt.mem_sights.2 (.inr ⟨_, _, _, _, rfl, ?_⟩)⟩
    congr 1
    exact Bool.eq_iff_iff.2 (touches.trans (by simp [touches_of_assign hs h visits compiled added]))

end

/-- A compiled method agrees with the scan that follows its compilation. -/
theorem resolves_emitted (hs : j.site.registry.Installed j.site.builtins) (linked : j.IsLinked)
    (unreachable : j.site.options.trimUnreachableCode = false)
    (useless : j.site.options.trimUselessCode = false)
    (h : j.compile = .ok (m, labels, warnings)) : j.Resolves .emitted m where
  locals := names_of_compile unreachable hs linked h
  sights sight := by
    constructor
    · intro mem
      obtain ⟨d, gives⟩ := Job.gives False hs False.elim h
      obtain ⟨d₀, d₁, opened, -, -, body, -⟩ := gives.opened
      have all : sight ∈ (Task.scan j.site.isField d₀.locals.names (.block j.stmts)).sights := by
        rw [names_of_opening linked opened]
        exact mem
      obtain ⟨s, x, visits, mem⟩ :=
        exists_visits unreachable (run_block _ body) ⟨d₀, opened, .refl⟩ all
      exact exists_makes hs h useless visits mem
    · rintro ⟨code, makes, -, touches⟩
      obtain ⟨s, x, visits, mem⟩ := makes.exists_visits hs h touches
      exact follows_emitted unreachable linked s x visits mem

end Job

namespace Program

variable {options : Options} {items : List Item} {j : Job}

/-- Names are resolved in the order of the compilation, in every method, and the locals come in that
order. It is the order of the text exactly where the two scans agree. -/
theorem names_resolved_in_order (hj : j ∈ jobs options items)
    (unreachable : options.trimUnreachableCode = false)
    (useless : options.trimUselessCode = false) :
    j.Follows .emitted ∧ (j.InOrder → j.Follows .textual) ∧
      ∀ m labels warnings, j.compile = .ok (m, labels, warnings) →
        j.Resolves .emitted m ∧ (j.Resolves .textual m ↔ j.InOrder) := by
  obtain ⟨d, -, held⟩ := holds_of_mem_jobs hj
  rw [← held.options] at unreachable useless
  have linked : j.IsLinked := fun decl hd => params_of_mem_jobs hj hd
  have follows := Job.follows_emitted unreachable linked
  refine ⟨follows, fun same => same.follows follows, fun m labels warnings h => ?_⟩
  have resolves := Job.resolves_emitted (installed_of_mem_jobs hj) linked unreachable useless h
  exact ⟨resolves, resolves.textual_iff⟩

/-- A loop with a choice, where a name is new in the loop and one in the `else` block. -/
def stride : List Char :=
  ("class Stride: field public static total i32 = 0 def public static i32 f(n: i32): " ++
    "k: i32 = n while k > 0: step = k " ++
    "if step == 2: total = total + step ; elif step > 3: step = 1 ; " ++
    "else: other: i32 = step total = other ; k = k - 1 ; return total ; ;").toList

theorem names_resolved_in_order_stride : ∃ tokens items,
    (Lexed.ofSource stride).tokens = .ok tokens ∧ Item.ofTokens tokens = .ok items ∧
      ∃ j ∈ jobs {} items, j.InOrder ∧ j.Follows .textual ∧ ∃ m labels warnings,
        j.compile = .ok (m, labels, warnings) ∧ j.Resolves .textual m ∧
          (j.scan .textual).names = ["n", "k", "step", "other"] := by
  have checked : anyJob stride (fun j => decide (j.InOrder ∧
      (j.scan .textual).names = ["n", "k", "step", "other"])) = true := by
    unfold stride
    simp only [String.toList_append]
    repeat rewrite [String.toList_ofList]
    decide +kernel
  obtain ⟨tokens, items, p, warnings, lexed, read, built, j, hj, checked⟩ :=
    exists_of_anyJob checked
  obtain ⟨same, names⟩ := of_decide_eq_true checked
  obtain ⟨m, -, labels, ws, compiled⟩ := exists_compiled built hj
  obtain ⟨-, follows, resolves⟩ := names_resolved_in_order hj rfl rfl
  exact ⟨tokens, items, lexed, read, j, hj, same, follows same, m, labels, ws, compiled,
    (resolves m labels ws compiled).2.2 same, names⟩

/-- The arm reads a name that is new in the `else` block behind it. -/
def hindsight : List Char :=
  ("class A: def public static i32 f(c: i32): " ++
    "if c: a = b ; else: b = 2 ; return c ; ;").toList

/-- The program is accepted, and the name is that of a local in the arm already. The locals come in
another order than in the text. -/
theorem arm_reads_else : ∃ tokens items p warnings,
    (Lexed.ofSource hindsight).tokens = .ok tokens ∧ Item.ofTokens tokens = .ok items ∧
      build {} items = .ok (p, warnings) ∧ ∃ j ∈ jobs {} items, ∃ m labels ws,
        j.compile = .ok (m, labels, ws) ∧ ¬ j.Resolves .textual m ∧
          m.locals.map Prod.fst = ["c", "b", "a"] ∧ (j.scan .textual).names = ["c", "a", "b"] ∧
          ⟨.read, "b", ⟨52, 53⟩, false⟩ ∈ (j.scan .textual).sights ∧
          ⟨.read, "b", ⟨52, 53⟩, true⟩ ∈ (j.scan .emitted).sights := by
  have checked : anyJob hindsight (fun j => decide (
      (j.scan .emitted).names = ["c", "b", "a"] ∧ (j.scan .textual).names = ["c", "a", "b"] ∧
      ⟨.read, "b", ⟨52, 53⟩, false⟩ ∈ (j.scan .textual).sights ∧
      ⟨.read, "b", ⟨52, 53⟩, true⟩ ∈ (j.scan .emitted).sights)) = true := by
    unfold hindsight
    simp only [String.toList_append]
    repeat rewrite [String.toList_ofList]
    decide +kernel
  obtain ⟨tokens, items, p, warnings, lexed, read, built, j, hj, checked⟩ :=
    exists_of_anyJob checked
  obtain ⟨emitted, textual, missed, found⟩ := of_decide_eq_true checked
  obtain ⟨m, -, labels, ws, compiled⟩ := exists_compiled built hj
  obtain ⟨d, -, held⟩ := holds_of_mem_jobs hj
  have resolves : j.Resolves .emitted m := Job.resolves_emitted (installed_of_mem_jobs hj)
    (fun decl hd => params_of_mem_jobs hj hd) (by rw [held.options]) (by rw [held.options]) compiled
  have locals := resolves.locals.trans emitted
  refine ⟨tokens, items, p, warnings, lexed, read, built, j, hj, m, labels, ws, compiled, ?_,
    locals, textual, missed, found⟩
  intro other
  have same := other.locals.symm.trans locals
  rw [textual] at same
  exact absurd same (by decide)

end Program
end ClassAsm
