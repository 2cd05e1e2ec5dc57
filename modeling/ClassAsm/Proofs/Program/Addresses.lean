import ClassAsm.Proofs.Flow.Bindings
import ClassAsm.Proofs.Program.Resolution

/-! Addresses in the locals of compiled methods. The address of a parameter is there from the start.
Any other local starts without one, and whether its body binds it before it uses it is up to the
source: the compiler does not ask for it, and the text of the body decides. -/

namespace ClassAsm

open Draft

namespace Job

/-- On all ways through the body the local is bound to an address before it is used. -/
def bindsFirst (j : Job) (name : String) : Bool :=
  !(Stmt.passageAll j.site name (j.parameters.map Prod.fst) j.stmts).uses

variable {j : Job} {d d₀ : Draft} {m : Method} {labels : Nat} {warnings : Array Warning}
  {name : String} {slot : Nat} {type : TypeRef}

theorem passes_opening (linked : j.IsLinked) {decl : MethodDecl} (src : j.source = .declared decl)
    (opened : j.opening = .ok d₀) {final : Locals} (found : final.find? name = some (slot, type))
    (within : d₀.locals.Within final) : Fair j.site d₀ ∧ d₀.fallsThrough = true ∧
      (d₀.BareHere slot ↔ name ∉ j.parameters.map Prod.fst) ∧ ¬ d₀.Exposes slot := by
  have fair := Fair.start j.site j.labels j.warnings
  have ho := fallsThrough_start j.labels j.warnings
  have params := (opening_eq_params src).symm.trans opened
  obtain ⟨step, ho₀⟩ := params_step False fair.inRange ho params
  have passes := params_passes found fair ho params within
  have empty (i : Nat) : (start j.labels j.warnings).codeAt i = [] := codeAt_start _ _ i
  have here : (start j.labels j.warnings).BareHere slot :=
    ⟨.start, by simp [empty], isTerminated_of_empty (empty _)⟩
  have quiet : ¬ (start j.labels j.warnings).Exposes slot := by
    rintro ⟨i, -, x, hx, -⟩
    simp [empty, unstored] at hx
  have names : (decl.params.zip (j.site.sig.params.map (·.2))).map (·.1.name) =
      j.parameters.map Prod.fst := by
    have zipped := congrArg (List.map Prod.fst) (zip_params (linked decl src))
    rw [List.map_map] at zipped
    rw [parameters, src]
    exact zipped
  refine ⟨fair.step step, ho₀, ?_, by simp [passes.exposes, quiet]⟩
  rw [passes.here, and_iff_right here, ← names]
  simp

/-- A method stores to an address before it uses it if it is a parameter, or if the body binds it
first. -/
theorem storedFirst_iff (hs : j.site.registry.Installed j.site.builtins) (linked : j.IsLinked)
    (h : j.compile = .ok (m, labels, warnings)) (found : m.locals[slot]? = some (name, type))
    (address : type.isAddress = true) :
    StoredFirst m.segments slot ↔
      name ∈ j.parameters.map Prod.fst ∨ j.bindsFirst name = true := by
  cases src : j.source with
  | initializer isStatic =>
    rw [locals_eq_nil_of_initializer hs linked src h] at found
    cases found
  | declared decl =>
    obtain ⟨d, gives⟩ := Job.gives False hs False.elim h
    obtain ⟨d₀, d₁, opened, inRange, -, body, -, last⟩ := gives.opened
    obtain rfl := last decl src
    rw [gives.locals, Locals.getElem?_toList] at found
    have run := run_block _ body
    have step : Step j.site False d₀ d₁ := run_done hs run inRange trivial False.elim
    have within : d₀.locals.Within d₁.locals := step.grows.locals
    obtain ⟨fair, ho, here, quiet⟩ := passes_opening linked src opened found within
    have passes := run_passes found hs address run fair trivial (fun _ _ => id) fun trims =>
      fair.isDead_of_open ho trims
    have fair₁ : Fair j.site d₁ := ⟨⟨_, _, gives.step.edits⟩, gives.step.inRange⟩
    rw [gives.segments, storedFirst_finished_iff fair₁, passes.exposes, or_iff_right quiet, here,
      names_of_opening linked opened, not_and_or, not_not, bindsFirst, Bool.not_eq_true']
    exact or_congr_right (Bool.not_eq_true _ ▸ Iff.rfl)

end Job

namespace Program

/-- On every path through a method from its start, an address is stored to a local before the local
is used, if the local is a parameter. For any other local this is so exactly if the body binds it
first on all ways through its text. -/
theorem addresses_bound_first {options : Options} {items : List Item} {j : Job}
    (hj : j ∈ jobs options items) {m : Method} {labels : Nat} {warnings : Array Warning}
    (h : j.compile = .ok (m, labels, warnings)) {slot : Nat} {name : String} {type : TypeRef}
    (found : m.locals[slot]? = some (name, type)) (address : type.isAddress = true) :
    StoredFirst m.segments slot ↔
      name ∈ j.parameters.map Prod.fst ∨ j.bindsFirst name = true :=
  Job.storedFirst_iff (installed_of_mem_jobs hj) (fun _ src => params_of_mem_jobs hj src) h found
    address

/-- An address is bound in both blocks of a condition, and then used in a loop and passed on. -/
def cursor : List Char :=
  ("class Cursor: field public static here i32_ field public static there i32_ " ++
    "def public static void bump(v: i32_): v = v + 1 return ; " ++
    "def public static i32 f(n: i32): if n > 0: x: i32_ = here ; else: x: i32_ = there ; " ++
    "while n > 0: x = n bump(x) n = n - 1 ; return x ; ;").toList

def loadsAddress (j : Job) (slot : Nat) (name : String) : Bool :=
  match j.compile with
  | .ok (m, _, _) => (m.locals[slot]?.any fun x => x.1 == name && x.2.isAddress) &&
      m.segments.any fun s => s.code.contains (.ldloc slot)
  | .error _ => false

theorem addresses_bound_first_cursor : ∃ tokens items p warnings,
    (Lexed.ofSource cursor).tokens = .ok tokens ∧ Item.ofTokens tokens = .ok items ∧
      build {} items = .ok (p, warnings) ∧ ∃ j ∈ jobs {} items, ∃ m ∈ p.methods, ∃ labels ws,
        j.compile = .ok (m, labels, ws) ∧ ∃ type, m.locals[1]? = some ("x", type) ∧
          type.isAddress = true ∧ (∃ s ∈ m.segments, .ldloc 1 ∈ s.code) ∧
          "x" ∉ j.parameters.map Prod.fst ∧ j.bindsFirst "x" = true ∧ StoredFirst m.segments 1 := by
  have checked : anyJob cursor (fun j => loadsAddress j 1 "x" && j.bindsFirst "x" &&
      decide ("x" ∉ j.parameters.map Prod.fst)) = true := by
    unfold cursor
    simp only [String.toList_append]
    repeat rewrite [String.toList_ofList]
    decide +kernel
  obtain ⟨tokens, items, p, warnings, lexed, read, built, j, hj, checked⟩ :=
    exists_of_anyJob checked
  obtain ⟨⟨loads, binds⟩, apart⟩ := (Bool.and_eq_true_iff.1 checked).imp_left Bool.and_eq_true_iff.1
  obtain ⟨m, mem, labels, ws, compiled⟩ := exists_compiled built hj
  rw [loadsAddress, compiled, Bool.and_eq_true] at loads
  obtain ⟨local', used⟩ := loads
  obtain ⟨⟨name, type⟩, found, same⟩ := (Option.any_eq_true _ _).1 local'
  obtain ⟨rfl, address⟩ : name = "x" ∧ type.isAddress = true := by simpa using same
  have loaded : ∃ s ∈ m.segments, Instruction.ldloc 1 ∈ s.code := by simpa using used
  exact ⟨tokens, items, p, warnings, lexed, read, built, j, hj, m, mem, labels, ws, compiled, type,
    found, address, loaded, of_decide_eq_true apart, binds,
    (addresses_bound_first hj compiled found address).2 (.inr binds)⟩

/-- An address that is declared only, and then stored through. -/
def dangling : List Char :=
  "class A: def public static void f(): x: i32_ x = 1 return ; ;".toList

def startsWithLoad (j : Job) (slot : Nat) : Bool :=
  match j.compile with
  | .ok (m, _, _) => (m.locals[slot]?.any (·.2.isAddress)) &&
      m.segments.any fun s => s.name == startName && s.code.head? == some (.ldloc slot)
  | .error _ => false

/-- The program is accepted, and a path comes to the use of an address with nothing stored. -/
theorem address_used_unbound : ∃ tokens items p warnings,
    (Lexed.ofSource dangling).tokens = .ok tokens ∧ Item.ofTokens tokens = .ok items ∧
      build {} items = .ok (p, warnings) ∧ ∃ m ∈ p.methods, ∃ slot name type,
        m.locals[slot]? = some (name, type) ∧ type.isAddress = true ∧
          ∃ rest, Arrives m.segments [] (.ldloc slot :: rest) := by
  have checked : anyJob dangling (startsWithLoad · 0) = true := by decide +kernel
  obtain ⟨tokens, items, p, warnings, lexed, read, built, j, hj, checked⟩ :=
    exists_of_anyJob checked
  obtain ⟨m, mem, labels, ws, compiled⟩ := exists_compiled built hj
  rw [startsWithLoad, compiled, Bool.and_eq_true] at checked
  obtain ⟨local', starts⟩ := checked
  obtain ⟨⟨name, type⟩, found, address⟩ := (Option.any_eq_true _ _).1 local'
  obtain ⟨s, hs, named, first⟩ : ∃ s ∈ m.segments, s.name = startName ∧
      s.code.head? = some (.ldloc 0) := by simpa using starts
  obtain ⟨rest, code⟩ := List.head?_eq_some_iff.1 first
  exact ⟨tokens, items, p, warnings, lexed, read, built, m, mem, 0, name, type, found, address,
    rest, code ▸ .start hs named⟩

end Program
end ClassAsm
