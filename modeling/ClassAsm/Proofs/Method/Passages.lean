import ClassAsm.Proofs.Code.Reads
import ClassAsm.Proofs.Flow.Falls
import ClassAsm.Proofs.Method.Scans

/-! What a body does to the address in a local, from the text alone. A body is gone through as its
code is, with the names that are locals so far, and each part says whether control can come out of
it before the local is bound to an address, and whether it can come to a use of the local before
that. Conditions are taken to hold and to fail. -/

namespace ClassAsm

/-- A part that control has come to before the local is bound, and the locals after it. -/
structure Passage where
  names : List String
  /-- Control can come out with the local still unbound. -/
  leaves : Bool
  /-- Control can come to a use of the unbound local. -/
  uses : Bool
deriving DecidableEq

namespace Passage

def andThen (p : Passage) (next : List String → Passage) : Passage where
  names := (next p.names).names
  leaves := p.leaves && (next p.names).leaves
  uses := p.uses || p.leaves && (next p.names).uses

def orElse (p : Passage) (next : List String → Passage) : Passage where
  names := (next p.names).names
  leaves := p.leaves || (next p.names).leaves
  uses := p.uses || (next p.names).uses

def repeated (p : Passage) : Passage := { p with leaves := true }

end Passage

namespace Site

/-- The default that stands for the name of a field where there is no object. -/
def default? (site : Site) (name : String) : Option Expr :=
  ((site.registry.class? site.owner).bind (·.field? name)).bind fun f =>
    if f.isStatic || site.sig.takesReceiver then none else f.default

/-- The locals that the code of a name uses. The number bounds how many defaults can be nested. -/
def readsInside (site : Site) (known : List String) : Nat → String → List String
  | 0, name => if name ∈ known then [name] else []
  | n + 1, name =>
    if name ∈ known then [name]
    else ((site.default? name).map fun default =>
      default.names.flatMap (site.readsInside known n)).getD []

/-- The locals that the code of an expression uses, also in the defaults that stand in it. -/
def reads (site : Site) (known : List String) (e : Expr) : List String :=
  e.names.flatMap
    (site.readsInside known ((site.registry.class? site.owner).elim [] (·.fields)).length)

theorem mem_names_iff_isLocal (site : Site) {l : Locals} {name : String} :
    name ∈ l.names ↔ (site.scope l).isLocal name = true :=
  Locals.mem_names.trans Option.isSome_iff_ne_none.symm

theorem default?_scope {site : Site} {l : Locals} {name : String} (new : name ∉ l.names) :
    (site.scope l).default? name = site.default? name := by
  have unknown : l.find? name = none := by simpa [Locals.mem_names] using new
  have here : ((site.scope l).locals.find? name).isSome = false := by
    simpa [scope] using unknown
  rw [Scope.default?, here, if_neg Bool.false_ne_true]
  rfl

theorem readsInside_scope (site : Site) (l : Locals) (n : Nat) (name : String) :
    (site.scope l).readsInside n name = site.readsInside l.names n name := by
  induction n generalizing name with
  | zero => simp [Scope.readsInside, readsInside, mem_names_iff_isLocal site]
  | succ n ih =>
    have inner : (site.scope l).readsInside n = site.readsInside l.names n := funext ih
    by_cases known : name ∈ l.names
    · rw [Scope.readsInside_of_isLocal _ ((mem_names_iff_isLocal site).1 known), readsInside,
        if_pos known]
    · have other : ¬ (site.scope l).isLocal name = true := (mem_names_iff_isLocal site).not.1 known
      rw [Scope.readsInside, if_neg other, readsInside, if_neg known, default?_scope known, inner]

theorem reads_scope (site : Site) (l : Locals) (e : Expr) :
    (site.scope l).reads e = site.reads l.names e := by
  rw [Scope.reads, reads, funext (readsInside_scope site l _)]
  rfl

end Site

namespace Stmt

/-- The local is bound to an address: a type stands with the name, or the name is new and not that
of a field. -/
def stores (site : Site) (name : String) (known : List String) : Stmt → Bool
  | .assign target _ typeName _ _ =>
    target == name && (typeName.isSome || !known.contains target && !site.isField target)
  | .expr _ | .declare .. | .ret .. | .loop .. | .cond .. => false

def storesThrough (name : String) (known : List String) : Stmt → Bool
  | .assign target _ none _ _ => target == name && known.contains target
  | .assign _ _ (some _) _ _ | .expr _ | .declare .. | .ret .. | .loop .. | .cond .. => false

/-- The expressions of a statement whose code is emitted, without those in its blocks. -/
def kept (site : Site) (s : Stmt) : List Expr :=
  match s with
  | .expr e => if !e.isCall && site.options.trimUselessCode then [] else [e]
  | .declare .. | .assign .. | .ret .. | .loop .. | .cond .. => s.values

/-- The statement, without its blocks, uses the local before it may bind it. -/
def uses (site : Site) (name : String) (known : List String) (s : Stmt) : Bool :=
  (s.kept site).any (fun e => name ∈ site.reads known e) || s.storesThrough name known

end Stmt

mutual

def Stmt.passage (site : Site) (name : String) (known : List String) : Stmt → Passage
  | .loop c (.mk body b) span =>
    (Passage.andThen ⟨known, true, (Stmt.loop c (.mk body b) span).uses site name known⟩
      fun known => Stmt.passageAll site name known body).repeated
  | .cond first rest otherwise span =>
    Passage.andThen ⟨known, true, (Stmt.cond first rest otherwise span).uses site name known⟩
      fun known => (Block.passageElse site name known otherwise).orElse fun known =>
        (first.passage site name known).orElse fun known => Arm.passageAll site name known rest
  | s => ⟨s.binds site.isField known, s.mayFall && !s.stores site name known,
      s.uses site name known⟩

def Arm.passage (site : Site) (name : String) (known : List String) : Arm → Passage
  | .mk _ (.mk body _) _ => Stmt.passageAll site name known body

def Arm.passageAll (site : Site) (name : String) (known : List String) : List Arm → Passage
  | [] => ⟨known, false, false⟩
  | a :: rest => (a.passage site name known).orElse fun known =>
      Arm.passageAll site name known rest

def Block.passageElse (site : Site) (name : String) (known : List String) :
    Option Block → Passage
  | none => ⟨known, true, false⟩
  | some (.mk body _) => Stmt.passageAll site name known body

/-- Statements in order. What control cannot come to may be left out. -/
def Stmt.passageAll (site : Site) (name : String) (known : List String) : List Stmt → Passage
  | [] => ⟨known, true, false⟩
  | s :: rest => (s.passage site name known).andThen fun known =>
      if site.options.trimUnreachableCode && !s.mayFall then ⟨known, true, false⟩
      else Stmt.passageAll site name known rest

end

namespace Draft

def Task.passage (site : Site) (name : String) (known : List String) : Task → Passage
  | .block ss => Stmt.passageAll site name known ss
  | .one s => s.passage site name known
  | .arms _ xs => Arm.passageAll site name known (xs.map Prod.snd)

variable {site : Site} {name : String} {known : List String}

theorem passageElse_eq (otherwise : Option Block) :
    Block.passageElse site name known otherwise =
      Task.passage site name known (.block (elseStmts otherwise)) := by
  rcases otherwise with _ | ⟨_, _⟩ <;> rfl

theorem passage_loop (c : Expr) (body : Block) (span : Span) :
    Task.passage site name known (.one (.loop c body span)) =
      (Passage.andThen ⟨known, true, (Stmt.loop c body span).uses site name known⟩
        (Task.passage site name · (.block body.stmts))).repeated := by
  obtain ⟨_, _⟩ := body
  rfl

theorem passage_arms_cons (after segment : Nat) (a : Arm) (xs : List (Nat × Arm)) :
    Task.passage site name known (.arms after ((segment, a) :: xs)) =
      (Task.passage site name known (.block a.body.stmts)).orElse
        (Task.passage site name · (.arms after xs)) := by
  obtain ⟨_, ⟨_, _⟩, _⟩ := a
  rfl

theorem passage_cond (first : Arm) (rest : List Arm) (otherwise : Option Block) (span : Span)
    {segments : List Nat} (after : Nat) (length : segments.length = (first :: rest).length) :
    Task.passage site name known (.one (.cond first rest otherwise span)) =
      Passage.andThen ⟨known, true, (Stmt.cond first rest otherwise span).uses site name known⟩
        fun known => (Task.passage site name known (.block (elseStmts otherwise))).orElse
          (Task.passage site name · (.arms after (segments.zip (first :: rest)))) := by
  simp only [Task.passage, List.map_snd_zip length.ge]
  rw [Stmt.passage]
  simp only [passageElse_eq]
  rfl

end Draft
end ClassAsm
