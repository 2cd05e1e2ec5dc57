import ClassAsm.Proofs.Code.Positions
import ClassAsm.Proofs.Order.Places
import ClassAsm.Proofs.Program.Members
import ClassAsm.Proofs.Program.Placed
import ClassAsm.Proofs.Program.Values

/-! Where the expressions of a program stand. The registry that methods are compiled against and the
one in which classes are compiled already declare the same. In both the operators of numbers are
templates, and a class stands in the namespace that it names. So an expression compiles alike at any
time and in any position. -/

namespace ClassAsm

namespace Outline

variable {r : Registry}

theorem head_addInitializer (void : ClassId) (o : Outline) (isStatic : Bool) :
    (addInitializer void o isStatic).cls.head = o.cls.head := by
  obtain same | ⟨_, added⟩ := addInitializer_cases void o isStatic
  · rw [same]
  · rw [added]
    rfl

theorem head_ofPlaced {void : ClassId} {w w' : Array Warning} {p : Placed} {o : Outline}
    {shell : Class} (found : r.class? p.id = some shell) (h : ofPlaced r void w p = .ok (o, w')) :
    o.cls.head = shell.head := by
  simp only [ofPlaced, bind_eq_ok, mapError_eq_ok, Prod.exists, Except.ok.injEq, Prod.mk.injEq,
    found, Option.getD_some] at h
  obtain ⟨c, fields, c', _, methods, rfl, -⟩ := h
  rw [List.foldl_cons, List.foldl_cons, List.foldl_nil, head_addInitializer, head_addInitializer]
  exact (entry_addMethods methods).2.2.trans (face_addFields fields).2.2

end Outline

namespace Program

variable {options : Options} {items : List Item} {d : Declared}

theorem home_of_declare (declared : declare items = .ok d) {o : Outline} (ho : o ∈ d.outlines) :
    d.registry.home o.id = o.nspace := by
  obtain ⟨place, arises⟩ := declare_arises declared
  obtain ⟨nodup, ns, holds⟩ := Placement.holds_of_addAll arises.placed
  have placed := Placement.Ordered.start.addAll arises.placed
  obtain ⟨q, hq, w, w', made⟩ := exists_of_mem_forall₂ arises.outlines ho
  have spaces : d.registry.spaces = place.registry.spaces := by
    rw [arises.registry]
    exact congrArg (List.map _) (namespaces_members d.outlines place.registry)
  have number := (Outline.ofPlaced_eq_ok (placed.shell q hq) made).1
  have here := Outline.nspace_ofPlaced made
  obtain ⟨decl, hd, rfl⟩ := List.mem_map.1 (holds.placed ▸ hq)
  have head := Outline.head_ofPlaced (holds.class? nodup hd) made
  have named : o.cls.nspace = decl.nspace := (congrArg Class.nspace head :)
  rw [Registry.home, ((declare_ordered declared).class?_id ho).2, Option.elim_some, spaces, named, here]
  rfl

/-- What is compiled of a program already is declared as before. -/
theorem declarations_of_stage (declared : declare items = .ok d) {os : List Outline}
    (listed : ∀ o ∈ os, o ∈ d.outlines) {p p' : Progress}
    (h : os.foldlM (d.compileClass options) p = .ok p')
    (start : p.program.registry.declarations = d.registry.declarations) :
    p'.program.registry.declarations = d.registry.declarations := by
  have ordered := declare_ordered declared
  rw [← ordered.compileClasses_eq listed start] at h
  exact foldlM_invariant
    (P := fun _ p => p.program.registry.declarations = d.registry.declarations) h start
    fun _ o ho _ _ same compiled => ordered.declarations_compileClass (listed o ho) same compiled

theorem declarations_of_build {p : Program} {ws : Array Warning}
    (built : build options items = .ok (p, ws)) :
    ∃ d, declare items = .ok d ∧ p.registry.declarations = d.registry.declarations := by
  simp only [build_eq, bind_eq_ok, Except.ok.injEq, Prod.mk.injEq] at built
  obtain ⟨d, declared, progress, compiled, rfl, -⟩ := built
  exact ⟨d, declared, declarations_of_stage declared (fun _ => id) compiled rfl⟩

theorem stands_of_mem_jobs {j : Job} (hj : j ∈ jobs options items) : j.site.Stands := by
  obtain ⟨d, declared, o, ho, member⟩ := exists_outline hj
  refine ⟨(installed_of_mem_jobs hj).declarations, ?_⟩
  rw [(Declared.sits_of_mem member).site]
  exact (home_of_declare declared ho).symm

end Program

/-- What is compiled meanwhile does not matter. -/
theorem Site.Stands.compiled {site : Site} (h : site.Stands) {r : Registry}
    (same : r.declarations = site.registry.declarations) :
    Site.Stands { site with registry := r } ∧ site.Resembles { site with registry := r } where
  left :=
    { installed := by rw [same]; exact h.installed
      nspace := by rw [← Registry.home_declarations, same, Registry.home_declarations, ← h.nspace] }
  right := ⟨same, rfl, rfl⟩

/-- Expressions compile alike in any position. Compiling one into a draft is lowering it instruction by
instruction, also where it has to leave a value, and a default is lowered where its field is read,
without a bound. Lowering puts instructions that are no branches and no returns at the end of the
current segment; everything else of the draft but the height of the stack stays, and so does the list
of the fields whose defaults are being compiled. On another site that resembles the first one, and on
any draft with the same locals, the same instructions are emitted with the same result. -/
theorem expressions_compile_alike {site : Site} (stands : site.Stands) (e : Expr) :
    (∀ d : Draft, d.expr site e = (site.lower e).on d ∧
      d.value site e = (site.needed e (site.lower e)).on d) ∧
    site.lower e = site.lowerWith (site.fillWith site.lower) e ∧
    (∀ b r b', site.lower e b = (r, b') → b'.inlining = b.inlining ∧
      ∃ code, Straight code ∧ b.draft.Appends code b'.draft) ∧
    (∀ site' : Site, site'.Stands → site.Resembles site' → ∀ b b' : Bench,
      b'.draft.locals = b.draft.locals → b'.inlining = b.inlining →
      ∃ r code, site.lower e b = (r, b.emitAll code) ∧ site'.lower e b' = (r, b'.emitAll code)) := by
  refine ⟨fun d => ⟨Site.expr_eq_lower site d e, Site.value_eq_lower site d e⟩,
    Site.lower_eq stands.installed e, ?_, ?_⟩
  · intro b r b' lowered
    have alike : Lowering.Alike b.draft.locals b.inlining (site.lower e) (site.lower e) :=
      Site.lower_alike rfl stands.installed e
    obtain ⟨r', code, straight, does, -⟩ := alike
    obtain ⟨rfl, rfl⟩ := Prod.mk.inj (lowered.symm.trans (does b rfl rfl))
    exact ⟨rfl, code, straight, b.draft.appends_emitAll code⟩
  · intro site' stands' resembles b b' locals inlining
    have alike : Lowering.Alike b.draft.locals b.inlining (site.lower e) (site'.lower e) :=
      Site.lower_alike (resembles.declared stands stands' b.draft.locals) stands.installed e
    obtain ⟨r, code, -, does, does'⟩ := alike
    exact ⟨r, code, does b rfl rfl, does' b' locals inlining⟩

namespace Program

/-- A field with a call in its default, read where there is no receiver. -/
def flask : List Char :=
  ("class Flask: field public static scale i32 = 10 field public volume i32 = twice(scale) + 1 " ++
    "def public static i32 twice(n: i32): return n + n ; " ++
    "def public static i32 read(): return volume ; ;").toList

def volume : Expr := .ident "volume" ⟨0, 0⟩

def fresh : Bench := ⟨Draft.start 0 #[], []⟩

/-- A draft behind a return, which is in a segment of its own that never runs. -/
def stale : Bench := ⟨(((Draft.start 7 #[]).emit (.ldcI4 3)).emit (.ret true)).enterUnreachable, []⟩

/-- The expression compiles at the beginning of a method, where nothing is compiled yet, to the same
instructions as in dead code, where all of the program is compiled. -/
theorem expressions_compile_alike_flask : ∃ tokens items p warnings,
    (Lexed.ofSource flask).tokens = .ok tokens ∧ Item.ofTokens tokens = .ok items ∧
      build {} items = .ok (p, warnings) ∧ ∃ j ∈ jobs {} items,
        j.site.Stands ∧ Site.Stands { j.site with registry := p.registry } ∧
          j.site.Resembles { j.site with registry := p.registry } ∧
          fresh.draft.isDead = false ∧ stale.draft.isDead = true ∧
          ∃ type code, code ≠ [] ∧ j.site.lower volume fresh = (.ok type, fresh.emitAll code) ∧
            Site.lower { j.site with registry := p.registry } volume stale =
              (.ok type, stale.emitAll code) := by
  have checked : anyJob flask (fun j => (j.site.lower volume fresh).1.isOk &&
      (j.site.lower volume fresh).2.draft.depth == 1) = true := by
    unfold flask
    simp only [String.toList_append]
    repeat rewrite [String.toList_ofList]
    decide +kernel
  obtain ⟨tokens, items, p, warnings, lexed, read, built, j, hj, checked⟩ :=
    exists_of_anyJob checked
  obtain ⟨accepted, height⟩ := Bool.and_eq_true_iff.1 checked
  obtain ⟨d, declared, same⟩ := declarations_of_build built
  obtain ⟨d', declared', held⟩ := holds_of_mem_jobs hj
  obtain rfl : d = d' := Except.ok.inj (declared.symm.trans declared')
  have stands := stands_of_mem_jobs hj
  obtain ⟨stands', resembles⟩ := stands.compiled (same.trans (congrArg _ held.registry.symm))
  obtain ⟨r, code, first, second⟩ :=
    (expressions_compile_alike stands volume).2.2.2 _ stands' resembles fresh stale rfl rfl
  rw [first] at accepted height
  obtain ⟨type, rfl⟩ := exists_eq_ok accepted
  refine ⟨tokens, items, p, warnings, lexed, read, built, j, hj, stands, stands', resembles, rfl, rfl,
    type, code, ?_, first, second⟩
  rintro rfl
  cases height

end Program
end ClassAsm
