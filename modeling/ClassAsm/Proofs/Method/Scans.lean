import ClassAsm.Proofs.Code.Identifiers
import ClassAsm.Proofs.Method.Locals
import ClassAsm.Proofs.Program.Values

/-! The identifiers of a body, from the text alone. A scan goes from statement to statement with the
names that are locals so far, and says of each identifier whether it is one of them. A condition is
scanned as it is written, or as it is compiled: all its tests, then its `else` block, and the blocks
of its arms at the end. The compilation of a body agrees with the second scan, wherever it is. -/

namespace ClassAsm

/-- The order of the parts of a condition: as they are written, or as their code is emitted. -/
inductive Sequence where
  | textual
  | emitted
deriving DecidableEq

/-- What is done with an identifier. It is assigned to where no type is declared with it. -/
inductive Use where
  | read
  | assign
deriving DecidableEq

/-- An identifier in the text, and whether it is taken for a local. -/
structure Sight where
  use : Use
  name : String
  span : Span
  isLocal : Bool
deriving DecidableEq

/-- The locals after some statements, in order, and the identifiers in these. -/
structure Scan where
  names : List String
  sights : List Sight

namespace Scan

/-- A scan that is taken up with the names after another one. -/
def andThen (s : Scan) (next : List String → Scan) : Scan :=
  ⟨(next s.names).names, s.sights ++ (next s.names).sights⟩

@[simp] theorem names_andThen (s : Scan) (next : List String → Scan) :
    (s.andThen next).names = (next s.names).names := rfl

@[simp] theorem sights_andThen (s : Scan) (next : List String → Scan) :
    (s.andThen next).sights = s.sights ++ (next s.names).sights := rfl

end Scan

/-- A name comes behind the others unless it is one of them. -/
def bound (known : List String) (name : String) : List String :=
  if name ∈ known then known else known ++ [name]

def Expr.sights (known : List String) (e : Expr) : List Sight :=
  e.idents.map fun (name, span) => ⟨.read, name, span, decide (name ∈ known)⟩

namespace Stmt

/-- The name that is assigned to without a type. -/
def target? : Stmt → Option (String × Span)
  | .assign name span none _ _ => some (name, span)
  | .assign _ _ (some _) _ _ | .expr _ | .declare .. | .ret .. | .loop .. | .cond .. => none

/-- The identifiers of a statement, without those in its blocks. An assignment goes to a local unless
its name is new and that of a field. -/
def sights (isField : String → Bool) (known : List String) (s : Stmt) : List Sight :=
  s.values.flatMap (·.sights known) ++ s.target?.toList.map fun (name, span) =>
    ⟨.assign, name, span, decide (name ∈ known) || !isField name⟩

theorem target?_eq_some_iff {s : Stmt} {name : String} {span : Span} :
    s.target? = some (name, span) ↔ ∃ e whole, s = .assign name span none e whole := by
  cases s with
  | assign name' span' typeName => cases typeName <;> simp [target?]
  | _ => simp [target?]

theorem mem_sights {isField : String → Bool} {known : List String} {s : Stmt} {sight : Sight} :
    sight ∈ s.sights isField known ↔
      (∃ e ∈ s.values, ∃ name span, (name, span) ∈ e.idents ∧
        sight = ⟨.read, name, span, decide (name ∈ known)⟩) ∨
      ∃ name span e whole, s = .assign name span none e whole ∧
        sight = ⟨.assign, name, span, decide (name ∈ known) || !isField name⟩ := by
  rw [sights, List.mem_append]
  refine or_congr ?_ ?_
  · simp only [List.mem_flatMap, Expr.sights, List.mem_map, Prod.exists, eq_comm]
  · simp only [List.mem_map, Option.mem_toList, Prod.exists, target?_eq_some_iff,
      exists_and_right]
    exact exists_congr fun _ => exists_congr fun _ => and_congr_right fun _ => eq_comm

/-- The locals after a statement without blocks. -/
def binds (isField : String → Bool) (known : List String) : Stmt → List String
  | .declare name _ _ _ | .assign name _ (some _) _ _ => bound known name
  | .assign name _ none _ _ => if isField name then known else bound known name
  | .expr _ | .ret .. | .loop .. | .cond .. => known

end Stmt

mutual

def Stmt.scan (order : Sequence) (isField : String → Bool) (known : List String) : Stmt → Scan
  | .loop c (.mk body _) _ =>
    Scan.andThen ⟨known, c.sights known⟩ fun known => Stmt.scanAll order isField known body
  | .cond first rest otherwise _ =>
    match order with
    | .textual =>
      ((first.scan .textual isField known).andThen fun known =>
        Arm.scanAll .textual isField known rest).andThen fun known =>
          Block.scanElse .textual isField known otherwise
    | .emitted =>
      (Scan.andThen ⟨known, (first :: rest).flatMap (·.condition.sights known)⟩ fun known =>
        Block.scanElse .emitted isField known otherwise).andThen fun known =>
          (first.scan .emitted isField known).andThen fun known =>
            Arm.scanAll .emitted isField known rest
  | s => ⟨s.binds isField known, s.sights isField known⟩

/-- An arm, with its test where that comes right before its block. -/
def Arm.scan (order : Sequence) (isField : String → Bool) (known : List String) : Arm → Scan
  | .mk c (.mk body _) _ =>
    Scan.andThen ⟨known, if order = .textual then c.sights known else []⟩ fun known =>
      Stmt.scanAll order isField known body

def Arm.scanAll (order : Sequence) (isField : String → Bool) (known : List String) :
    List Arm → Scan
  | [] => ⟨known, []⟩
  | a :: rest => (a.scan order isField known).andThen fun known =>
      Arm.scanAll order isField known rest

def Block.scanElse (order : Sequence) (isField : String → Bool) (known : List String) :
    Option Block → Scan
  | none => ⟨known, []⟩
  | some (.mk body _) => Stmt.scanAll order isField known body

def Stmt.scanAll (order : Sequence) (isField : String → Bool) (known : List String) :
    List Stmt → Scan
  | [] => ⟨known, []⟩
  | s :: rest => (s.scan order isField known).andThen fun known =>
      Stmt.scanAll order isField known rest

end

def Site.isField (site : Site) (name : String) : Bool :=
  ((site.registry.class? site.owner).bind (·.field? name)).isSome

namespace Draft

def Task.scan (isField : String → Bool) (known : List String) : Task → Scan
  | .block ss => Stmt.scanAll .emitted isField known ss
  | .one s => s.scan .emitted isField known
  | .arms _ xs => Arm.scanAll .emitted isField known (xs.map Prod.snd)

variable {site : Site} {d d' : Draft} {isField : String → Bool} {known : List String}

/-! The scan of a task in terms of the tasks in it. -/

theorem scanElse_eq (order : Sequence) (otherwise : Option Block) :
    Block.scanElse order isField known otherwise =
      Stmt.scanAll order isField known (elseStmts otherwise) := by
  rcases otherwise with _ | ⟨_, _⟩ <;> rfl

theorem scan_loop (c : Expr) (body : Block) (span : Span) :
    Task.scan isField known (.one (.loop c body span)) =
      (⟨known, c.sights known⟩ : Scan).andThen (Task.scan isField · (.block body.stmts)) := by
  obtain ⟨_, _⟩ := body
  rfl

theorem scan_arm (a : Arm) :
    a.scan .emitted isField known = Task.scan isField known (.block a.body.stmts) := by
  obtain ⟨_, ⟨_, _⟩, _⟩ := a
  rfl

theorem scan_arms_cons (after segment : Nat) (a : Arm) (xs : List (Nat × Arm)) :
    Task.scan isField known (.arms after ((segment, a) :: xs)) =
      (Task.scan isField known (.block a.body.stmts)).andThen (Task.scan isField · (.arms after xs)) := by
  rw [← scan_arm]
  rfl

theorem scan_cond (first : Arm) (rest : List Arm) (otherwise : Option Block) (span : Span)
    {segments : List Nat} (after : Nat) (length : segments.length = (first :: rest).length) :
    Task.scan isField known (.one (.cond first rest otherwise span)) =
      ((⟨known, (first :: rest).flatMap (·.condition.sights known)⟩ : Scan).andThen
        (Task.scan isField · (.block (elseStmts otherwise)))).andThen
          (Task.scan isField · (.arms after (segments.zip (first :: rest)))) := by
  simp only [Task.scan, List.map_snd_zip length.ge, ← scanElse_eq]
  rfl

theorem sights_subset_scan (s : Stmt) :
    s.sights isField known ⊆ (Task.scan isField known (.one s)).sights := by
  cases s with
  | expr | declare | assign | ret => exact List.Subset.refl _
  | loop c body span =>
    rw [scan_loop]
    simp [Stmt.sights, Stmt.values, Stmt.target?]
  | cond first rest otherwise span =>
    rw [scan_cond first rest otherwise span 0 (List.length_replicate (n := _) (a := 0))]
    simp [Stmt.sights, Stmt.values, Stmt.target?, List.flatMap_map]

/-! The names of the locals along a run. -/

theorem field?_isSome_eq (site : Site) (l : Locals) (name : String) :
    ((site.scope l).field? name).isSome = site.isField name := rfl

theorem names_of_binds {name : String} {type : TypeRef} {slot : Nat}
    (h : Binds d name type slot d') : d'.locals.names = bound d.locals.names name := by
  cases h with
  | known h =>
    have mem : name ∈ d.locals.names := Locals.mem_names.2 (by simp [h])
    rw [bound, if_pos mem]
  | new h =>
    have new : name ∉ d.locals.names := fun mem => Locals.mem_names.1 mem h
    rw [bound, if_neg new, addLocal, Locals.names, Locals.toList_add h, List.map_append]
    rfl

theorem bound_of_find? {l : Locals} {name : String} {x : Nat × TypeRef}
    (h : l.find? name = some x) : bound l.names name = l.names :=
  if_pos (Locals.mem_names.2 (by simp [h]))

theorem names_of_assigned {name : String} {nameSpan span : Span} {typeName : Option String}
    {e : Expr} (h : Assigned site d name e typeName d') :
    d'.locals.names =
      (Stmt.assign name nameSpan typeName e span).binds site.isField d.locals.names := by
  cases h with
  | toStatic _ found | toInstance _ found =>
    have field : site.isField name = true := by rw [← field?_isSome_eq site d.locals, found]; rfl
    rw [locals_emitAll]
    simp [Stmt.binds, field]
  | through hl =>
    rw [locals_emitAll]
    simp [Stmt.binds, bound_of_find? hl]
  | @toLocal typeName slot c d₀ field _ _ _ hb =>
    rw [locals_emitAll, names_of_binds hb]
    cases typeName with
    | some => rfl
    | none =>
      cases hl : d.locals.find? name with
      | none =>
        have other : site.isField name = false := by
          rw [← field?_isSome_eq site d.locals, field rfl hl]
          rfl
        simp [Stmt.binds, other]
      | some x => simp [Stmt.binds, bound_of_find? hl]

theorem names_of_run (kept : site.options.trimUnreachableCode = false) {t : Task}
    (h : Run site t d d') : d'.locals.names = (t.scan site.isField d.locals.names).names := by
  induction h with
  | done | noArms => rfl
  | drop ha =>
    cases Draft.admits ha with
    | dropped _ _ trim => simp [kept] at trim
  | @next d d₁ _ _ s rest ha _ _ ihs ihr =>
    rw [ihr, ihs, (Draft.admits ha).locals]
    rfl
  | @expr d _ e he =>
    obtain ⟨-, -, rfl⟩ | ⟨_, -, rfl⟩ := exprStmt_emits he
    · rw [locals_noted]
      rfl
    · rw [locals_emitAll, locals_noted]
      rfl
  | declare hd =>
    obtain ⟨_, _, -, hb⟩ := declare_emits hd
    exact names_of_binds hb
  | assign ha => exact names_of_assigned (assign_emits ha)
  | ret hret =>
    obtain ⟨-, -, rfl⟩ | ⟨_, _, -, -, -, rfl⟩ := returnStmt_emits hret
    · rfl
    · exact congrArg Locals.names (locals_emitAll (d := _) _)
  | loop hl _ ih =>
    rw [scan_loop, Scan.names_andThen, ← locals_loopStart hl]
    exact (congrArg Locals.names (locals_join _ _)).trans ih
  | @cond d d₁ d₂ d₃ first rest otherwise span after segments hc _ _ iho iha =>
    rw [scan_cond first rest otherwise span after (length_condStart hc)]
    simp only [Scan.names_andThen]
    rw [← locals_condStart hc, ← iho, ← locals_join d₂ after]
    exact iha
  | arm _ _ ih iht =>
    rw [scan_arms_cons, Scan.names_andThen, iht, locals_join, ih]
    rfl

theorem Leads.sights_subset (kept : site.options.trimUnreachableCode = false) {t t' : Task}
    (h : Leads site (t, d) (t', d')) :
    (t'.scan site.isField d'.locals.names).sights ⊆
      (t.scan site.isField d.locals.names).sights := by
  cases h with
  | first ha =>
    rw [(Draft.admits ha).locals]
    exact List.subset_append_left _ _
  | @rest _ d₁ _ s rest ha hs =>
    rw [names_of_run kept (run_one _ hs), (Draft.admits ha).locals]
    exact List.subset_append_right _ _
  | body hs =>
    rw [scan_loop, locals_loopStart hs]
    exact List.subset_append_right _ _
  | @otherwise _ _ first rest otherwise span after _ hs =>
    rw [scan_cond first rest otherwise span after (length_condStart hs), locals_condStart hs]
    exact fun x hx => List.mem_append_left _ (List.mem_append_right _ hx)
  | @arms _ d₁ _ first rest otherwise span after _ hs ho =>
    rw [scan_cond first rest otherwise span after (length_condStart hs), locals_join,
      names_of_run kept (run_block _ ho), locals_condStart hs]
    exact List.subset_append_right _ _
  | arm =>
    rw [scan_arms_cons]
    exact List.subset_append_left _ _
  | nextArms hs =>
    rw [scan_arms_cons, locals_join, names_of_run kept (run_block _ hs)]
    exact List.subset_append_right _ _

end Draft
end ClassAsm
