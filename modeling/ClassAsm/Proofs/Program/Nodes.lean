import ClassAsm.Proofs.Program.Initializers
import ClassAsm.Proofs.Program.Origins
import ClassAsm.Proofs.Source.Slices

/-! The expressions that a method is compiled from are expressions of the source: those of its own
statements, the defaults of the fields of its class, and what is inside of them. So whatever the tokens
of a source say of its expressions holds of all that is compiled. -/

namespace ClassAsm

open Draft

/-! Members of lists. -/

theorem Expr.mem_nodesEach {e : Expr} {es : List Expr} :
    e ∈ nodesEach es ↔ ∃ a ∈ es, e ∈ a.nodes := by
  induction es with
  | nil => simp [nodesEach]
  | cons a es ih => simp [nodesEach, nodes, ih, or_assoc]

theorem Arm.mem_nodesEach {e : Expr} {as : List Arm} :
    e ∈ nodesEach as ↔ ∃ a ∈ as, e ∈ a.nodes := by
  induction as with
  | nil => simp [nodesEach]
  | cons a as ih => simp [nodesEach, ih]

/-! Statements. -/

theorem Stmt.nodes_eq_cond (first : Arm) (rest : List Arm) (otherwise : Option Block) (span : Span) :
    (Stmt.cond first rest otherwise span).nodes =
      Arm.nodesEach (first :: rest) ++ Stmt.nodesEach (elseStmts otherwise) := by
  rcases otherwise with _ | ⟨ss, blockSpan⟩ <;>
    simp [nodes, nodesEach, Arm.nodesEach, Block.nodesElse, Block.nodes, Block.stmts, elseStmts]

/-- The expressions that a task goes through. -/
def Draft.Task.nodes : Task → List Expr
  | .block ss => Stmt.nodesEach ss
  | .one s => s.nodes
  | .arms _ xs => Arm.nodesEach (xs.map Prod.snd)

theorem Draft.Leads.mem_nodes {site : Site} {x y : Task × Draft} {e : Expr} (h : Leads site x y)
    (he : e ∈ y.1.nodes) : e ∈ x.1.nodes := by
  cases h with
  | first => exact List.mem_append_left _ he
  | rest | nextArms => exact List.mem_append_right _ he
  | @body _ _ _ body =>
    cases body
    exact List.mem_append_right _ he
  | otherwise =>
    rw [Task.nodes, Stmt.nodes_eq_cond]
    exact List.mem_append_right _ he
  | arms =>
    obtain ⟨a, ha, he⟩ := Arm.mem_nodesEach.1 he
    obtain ⟨x, hx, rfl⟩ := List.mem_map.1 ha
    rw [Task.nodes, Stmt.nodes_eq_cond]
    exact List.mem_append_left _ (Arm.mem_nodesEach.2 ⟨_, (List.of_mem_zip hx).2, he⟩)
  | @arm _ _ _ a =>
    obtain ⟨_, ⟨_, _⟩, _⟩ := a
    exact List.mem_append_left _ (List.mem_append_right _ he)

theorem Draft.Leads.mem_nodes_of_many {site : Site} {x y : Task × Draft} {e : Expr}
    (h : Relation.ReflTransGen (Leads site) x y) (he : e ∈ y.1.nodes) : e ∈ x.1.nodes := by
  induction h with
  | refl => exact he
  | tail _ leads ih => exact ih (leads.mem_nodes he)

/-- The expressions that a statement compiles itself are among its expressions. -/
theorem Stmt.mem_nodes_of_values {s : Stmt} {e e' : Expr} (he : e ∈ s.values) (h : e' ∈ e.nodes) :
    e' ∈ s.nodes := by
  cases s with
  | declare => cases he
  | expr | assign =>
    obtain rfl := List.mem_singleton.1 he
    exact h
  | ret value =>
    rw [Option.mem_toList.1 he]
    simpa [nodes] using h
  | loop =>
    obtain rfl := List.mem_singleton.1 he
    exact List.mem_append_left _ h
  | cond first rest otherwise span =>
    obtain ⟨⟨condition, block, armSpan⟩, ha, rfl⟩ := List.mem_map.1 he
    rw [Stmt.nodes_eq_cond]
    exact List.mem_append_left _ (Arm.mem_nodesEach.2 ⟨_, ha, List.mem_append_left _ h⟩)

/-! Jobs. -/

/-- What a job can be compiled from is among the given expressions. -/
structure Job.IsFrom (j : Job) (es : List Expr) : Prop where
  body : ∀ e ∈ Stmt.nodesEach j.stmts, e ∈ es
  defaults : ∀ {c f e}, j.site.registry.class? j.site.owner = some c → f ∈ c.fields →
    f.default = some e → ∀ e' ∈ e.nodes, e' ∈ es

namespace Job.IsFrom

variable {j : Job} {es : List Expr}

theorem visits (h : j.IsFrom es) {t : Task} {d : Draft} (hv : j.Visits t d) {e : Expr}
    (he : e ∈ t.nodes) : e ∈ es := by
  obtain ⟨d₀, -, leads⟩ := hv
  exact h.body e (Leads.mem_nodes_of_many leads he)

theorem has (h : j.IsFrom es) {l : Locals} {e e' : Expr} (has : j.Has l e) (he : e' ∈ e.nodes) :
    e' ∈ es := by
  cases has with
  | stmt visits mem _ => exact h.visits visits (Stmt.mem_nodes_of_values mem he)
  | default cls field _ stored => exact h.defaults cls field stored e' he

/-- A part of an expression is inside of it, or the default of a field. -/
theorem part (h : j.IsFrom es) {l : Locals} {x y : List String × Expr} (part : (j.site.scope l).Part x y)
    (hx : ∀ e ∈ x.2.nodes, e ∈ es) : ∀ e ∈ y.2.nodes, e ∈ es := by
  cases part with
  | left =>
    exact fun e he => hx e (List.mem_cons_of_mem _ (List.mem_append_left _ he))
  | right =>
    exact fun e he => hx e (List.mem_cons_of_mem _ (List.mem_append_right _ he))
  | operand | converted => exact fun e he => hx e (List.mem_cons_of_mem _ he)
  | argument _ given _ =>
    exact fun e he => hx e (List.mem_cons_of_mem _
      (Expr.mem_nodesEach.2 ⟨_, (List.of_mem_zip given).1, he⟩))
  | default stands =>
    obtain ⟨-, -, f, found, -, stored⟩ := Scope.default?_eq_some_iff.1 stands
    obtain ⟨c, hc, found⟩ := Option.bind_eq_some_iff.1 found
    exact h.defaults hc (Class.mem_of_field? found).1 stored

theorem parts (h : j.IsFrom es) {l : Locals} {x y : List String × Expr}
    (parts : (j.site.scope l).Parts x y) (hx : ∀ e ∈ x.2.nodes, e ∈ es) : ∀ e ∈ y.2.nodes, e ∈ es := by
  induction parts with
  | refl => exact hx
  | tail _ part ih => exact h.part part ih

end Job.IsFrom

namespace Program

variable {options : Options} {items : List Item} {j : Job}

theorem isFrom_of_mem_jobs (hj : j ∈ jobs options items) : j.IsFrom (items.flatMap Item.nodes) := by
  obtain ⟨d, declared, o, ho, member⟩ := exists_outline hj
  obtain ⟨place, arises⟩ := declare_arises declared
  have agrees := Placement.agrees_of_placed arises.placed
  obtain ⟨q, hq, w, w', made⟩ := exists_of_mem_forall₂ arises.outlines ho
  obtain ⟨decl, hm, same, -⟩ := exists_of_mem_forall₂ agrees.placed.flip hq
  have listed : .cls q.decl ∈ items := same ▸ Item.mem_of_mem_declarations hm
  have sits := Declared.sits_of_mem member
  have inside {e : Expr} (he : e ∈ (Item.cls q.decl).nodes) : e ∈ items.flatMap Item.nodes :=
    List.mem_flatMap.2 ⟨_, listed, he⟩
  constructor
  · intro e he
    rw [Job.stmts] at he
    split at he
    · next m source =>
      obtain ⟨kinds, sources⟩ := Outline.sources_ofPlaced made
      have mem : m ∈ q.decl.methods := by
        have hm := (List.of_mem_zip sits.listed).2
        rw [source, sources] at hm
        simpa using hm
      refine inside (List.mem_append_right _ (List.mem_flatMap.2 ⟨m, mem, ?_⟩))
      rw [MethodDecl.nodes]
      generalize m.body = b at he
      cases b
      exact he
    · cases he
  · intro c f e hc hf stored e' he
    rw [sits.site, (declare_ordered declared).class?_id ho |>.2] at hc
    obtain rfl := Option.some.inj hc
    have shell : ∀ c, place.registry.class? q.id = some c → c.fields = [] := by
      intro c hc
      obtain ⟨c', hc', -, -, fields, -⟩ := agrees.shells q (List.mem_reverse.1 hq)
      obtain rfl := Option.some.inj (hc.symm.trans hc')
      exact fields
    obtain ⟨g, hg, gives⟩ := exists_of_mem_forall₂ (Outline.gives_ofPlaced shell made) hf
    have default : g.default = some e := by
      rw [gives.eq] at stored
      exact stored
    refine inside (List.mem_append_left _ (List.mem_flatMap.2 ⟨g, hg, ?_⟩))
    simpa [FieldDecl.nodes, default] using he

end Program

end ClassAsm
