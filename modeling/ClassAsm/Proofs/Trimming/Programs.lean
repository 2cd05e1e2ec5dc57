import ClassAsm.Proofs.Trimming.Methods

/-! Whole programs. If all methods of an accepted program pass the check, the program is accepted
with trimming as well. It has the same declarations then, and its methods do the same. -/

namespace ClassAsm

/-- The classes differ in their methods only, and these do the same. -/
structure Class.Resembles (skips : Prop) (c c' : Class) : Prop where
  eq : c' = { c with methodTable := c'.methodTable }
  methods : List.Forall₂ (Method.Resembles skips) c.methods c'.methods

theorem Class.Resembles.refl (skips : Prop) (c : Class) : c.Resembles skips c :=
  ⟨rfl, List.forall₂_same.2 fun m _ => .refl skips m⟩

/-- The same names and classes, but for methods that do the same. -/
structure Registry.Resembles (skips : Prop) (r r' : Registry) : Prop where
  builtins : r'.builtins = r.builtins
  namespaces : r'.namespaces = r.namespaces
  classes : ∀ id, Option.Rel (Class.Resembles skips) (r.class? id) (r'.class? id)

namespace Registry.Resembles

variable {skips : Prop} {r r' : Registry}

theorem refl (skips : Prop) (r : Registry) : r.Resembles skips r := by
  refine ⟨rfl, rfl, fun id => ?_⟩
  cases r.class? id with
  | none => exact .none
  | some c => exact .some (.refl skips c)

theorem updateClass (h : r.Resembles skips r') {id : ClassId} {ms ms' : List Method}
    (hm : List.Forall₂ (Method.Resembles skips) ms ms')
    (sigs : ∀ c, r.class? id = some c → ms.map (·.sig) = c.methods.map (·.sig)) :
    (r.updateClass id (·.complete ms)).Resembles skips (r'.updateClass id (·.complete ms')) := by
  refine ⟨h.builtins, h.namespaces, fun other => ?_⟩
  have same := h.classes other
  simp only [class?, Registry.updateClass, Array.getElem?_modify] at same ⊢
  split
  · next here =>
    rw [← here] at same ⊢
    unfold class? at sigs
    generalize r.classes[id]? = c, r'.classes[id]? = c' at same sigs
    cases same with
    | none => exact .none
    | @some c c' hc =>
      have sigs := sigs c rfl
      have sigs' : ms'.map (·.sig) = c'.methods.map (·.sig) := by
        have alike {ms ms' : List Method} (h : List.Forall₂ (Method.Resembles skips) ms ms') :
            ms.map (·.sig) = ms'.map (·.sig) :=
          map_eq_of_forall₂ (h.imp fun _ _ like => like.sig.symm)
        rw [← alike hm, sigs, alike hc.methods]
      refine .some ⟨?_, ?_⟩
      · change c'.complete ms' = { c.complete ms with methodTable := (c'.complete ms').methodTable }
        rw [c.complete_eq ms, c'.complete_eq ms']
        exact congrArg (fun d : Class => { d with methodTable := (c'.complete ms').methodTable }) hc.eq
      · rwa [Class.methods_complete sigs, Class.methods_complete sigs']
  · exact same

end Registry.Resembles

/-- The same declarations, and methods that do the same. -/
structure Program.Resembles (skips : Prop) (p p' : Program) : Prop where
  registry : p.registry.Resembles skips p'.registry
  hasMain : p'.hasMain = p.hasMain

/-- A host that notes the calls made and the fields stored. No operand is true, and no division
succeeds. -/
def Host.journal : Host Unit (List String) Unit where
  run deed _ notes :=
    match deed with
    | .other (.call target _ _) => .ok ((), notes ++ [target])
    | .other (.stsfld field) => .ok ((), notes ++ [field])
    | .other (.arith .div) => .error ((), notes)
    | _ => .ok ((), notes)
  isTrue _ := false
  calm deed quiet vs notes := by
    rcases deed with _ | _ | _ | i
    · rfl
    · rfl
    · rfl
    · cases i with
      | call | stsfld => cases quiet
      | arith op => cases op <;> rfl
      | _ => rfl

def Member.under (m : Member) (o : Options) : Member := { m with site := m.site.under o }

namespace Job

theorem schedule_cons {m : Member} {rest : List Member} {labels labels' : Nat}
    {warnings warnings' : Array Warning} {c : Method}
    (h : m.method.compile m.site m.source labels warnings = .ok (c, labels', warnings')) :
    schedule (m :: rest) labels warnings =
      { toMember := m, labels := labels, warnings := warnings } ::
        schedule rest labels' warnings' := by
  simp only [schedule, compile, h]

theorem Compiles.schedule_append {ms rest : List Member} {labels labels' : Nat}
    {warnings warnings' : Array Warning} {cs : List Method}
    (h : Compiles ms labels warnings cs labels' warnings') :
    schedule (ms ++ rest) labels warnings =
      schedule ms labels warnings ++ schedule rest labels' warnings' := by
  induction h with
  | nil => rfl
  | cons hc _ ih => rw [List.cons_append, schedule_cons hc, schedule_cons hc, ih, List.cons_append]

theorem Compiles.trims {o : Options} {ms : List Member} {labels labels' : Nat}
    {warnings warnings' : Array Warning} {cs : List Method}
    (h : Compiles ms labels warnings cs labels' warnings')
    (installed : ∀ m ∈ ms, m.site.registry.Installed m.site.builtins)
    (whole : ∀ m ∈ ms, m.site.options = o.untrimmed)
    (safe : ∀ j ∈ schedule ms labels warnings, j.trims o = true)
    (start : Nat) (before : Array Warning) :
    ∃ cs' stop after, Compiles (ms.map (·.under o)) start before cs' stop after ∧
      List.Forall₂ (Method.Resembles (o.trimUselessCode = true)) cs cs' := by
  induction h generalizing start before with
  | nil => exact ⟨[], start, before, .nil, .nil⟩
  | @cons m rest l l' _ w w' _ c cs hc _ ih =>
    rw [schedule_cons hc] at safe
    have flags := whole m (by simp)
    obtain ⟨c', l₁, w₁, hc', resembles⟩ :=
      compile_trims (j := { toMember := m, labels := l, warnings := w }) (installed m (by simp))
        (by rw [flags]; rfl) (by rw [flags]; rfl) (safe _ (by simp)) hc start before
    obtain ⟨cs', stop, after, rest', all⟩ := ih (fun n hn => installed n (by simp [hn]))
      (fun n hn => whole n (by simp [hn])) (fun j hj => safe j (by simp [hj])) l₁ w₁
    exact ⟨c' :: cs', stop, after, .cons hc' rest', .cons resembles all⟩

end Job

namespace Program

open Job

variable {d : Declared} {o : Options}

theorem Declared.membersOf_under (d : Declared) (o : Options) (outline : Outline) :
    d.membersOf o outline = (d.membersOf o.untrimmed outline).map (·.under o) := by
  rw [membersOf, membersOf, List.map_map]
  rfl

/-- Class by class, the trimmed program follows the whole one. -/
theorem compileClasses_trims {os : List Outline} (ordered : d.Ordered)
    (listed : ∀ outline ∈ os, outline ∈ d.outlines) {p p₁ q : Progress}
    (stage : p.program.registry.declarations = d.registry.declarations)
    (h : os.foldlM (d.compileClass o.untrimmed) p = .ok p₁)
    (safe : ∀ j ∈ schedule (os.flatMap (d.membersOf o.untrimmed)) p.labels p.warnings,
      j.trims o = true)
    (same : p.program.Resembles (o.trimUselessCode = true) q.program) :
    ∃ q₁, os.foldlM (d.compileClass o) q = .ok q₁ ∧
      p₁.program.Resembles (o.trimUselessCode = true) q₁.program := by
  induction os generalizing p q with
  | nil =>
    obtain rfl := foldlM_nil_eq_ok.1 h
    exact ⟨q, rfl, same⟩
  | cons outline os ih =>
    obtain ⟨here, rest⟩ := List.forall_mem_cons.1 listed
    obtain ⟨p', hp, h⟩ := foldlM_cons_eq_ok.1 h
    have stage' := ordered.declarations_compileClass here stage
      ((ordered.compileClass_eq here stage).trans hp)
    obtain ⟨cs, hcs, -⟩ := compileClass_eq_ok hp
    have built := compileClass_ok hcs
    rw [hp] at built
    rw [List.flatMap_cons, hcs.schedule_append] at safe
    have members {m : Member} (hm : m ∈ d.membersOf o.untrimmed outline) :
        d.Holds o.untrimmed m := (Declared.sits_of_mem hm).holds
    obtain ⟨cs', stop, after, hcs', all⟩ := hcs.trims
      (fun m hm => by rw [(members hm).registry, (members hm).builtins]; exact ordered.installed)
      (fun m hm => (members hm).options)
      (fun j hj => safe j (List.mem_append_left _ hj)) q.labels q.warnings
    rw [← Declared.membersOf_under] at hcs'
    have built' := compileClass_ok hcs'
    have same' : p'.program.Resembles (o.trimUselessCode = true)
        ⟨q.program.registry.updateClass outline.id (·.complete cs'),
          q.program.hasMain || outline.sources.any MethodSource.isEntryPoint⟩ := by
      rw [Except.ok.inj built]
      refine ⟨same.registry.updateClass all fun c found => ?_, by rw [same.hasMain]⟩
      rw [sigs_of_compiles (ordered.linked outline here) hcs]
      exact (ordered.sigs_eq here stage found).symm
    obtain ⟨q₁, hq, resembles⟩ := ih rest (q := ⟨_, stop, after⟩) stage' h
      (fun j hj => safe j (List.mem_append_right _ hj)) same'
    exact ⟨q₁, foldlM_cons_eq_ok.2 ⟨_, built', hq⟩, resembles⟩

/-! Programs to try the statements on. -/

/-- A dropped binding that comes back later, and a useless statement:
```
Gauge =>
  hits: i32 = 0
  count n: i32 =>
    if n > 0 => return n, k = n;
    hits + n
    k = 2
    return k + hits
``` -/
def gauge : List Item :=
  let s : Span := ⟨0, 0⟩
  let name (n : String) : Expr := .ident n s
  let num (n : Nat) : Expr := .int n s
  let op (o : BinaryOp) (a b : Expr) : Expr := .binary o a b s
  let set (n : String) (e : Expr) : Stmt := .assign n s none e s
  let leave : Arm := .mk (op .gt (name "n") (num 0))
    (.mk [.ret (some (name "n")) s, set "k" (name "n")] s) s
  [.cls ⟨"Gauge", s, true, [⟨"hits", "i32", true, true, some (num 0), s⟩],
    [⟨"count", s, "i32", s, [⟨"n", "i32", s⟩], .mk [.cond leave [] none s,
      .expr (op .add (name "hits") (name "n")), set "k" (num 2),
      .ret (some (op .add (name "k") (name "hits"))) s] s, true, .static, s⟩], s⟩]

/-- Only a statement behind a return binds the name that is looked up at the end:
```
Stray =>
  pick n: i32 =>
    if n => return 1, k = 2;
    return k
``` -/
def stray : List Item :=
  let s : Span := ⟨0, 0⟩
  let name (n : String) : Expr := .ident n s
  let leave : Arm := .mk (name "n")
    (.mk [.ret (some (.int 1 s)) s, .assign "k" s none (.int 2 s) s] s) s
  [.cls ⟨"Stray", s, true, [], [⟨"pick", s, "i32", s, [⟨"n", "i32", s⟩],
    .mk [.cond leave [] none s, .ret (some (name "k")) s] s, true, .static, s⟩], s⟩]

/-- Statements that count for more than their values, or that bind a name for others:
```
Waste =>
  k: i32
  tick: i32 => return 1
  call: void => tick() + 1
  divide: void => 1 / 0
  store n: i32 =>
    if n => return 1, k: i32 = 2;
    k = 3
    return 0
``` -/
def waste : List Item :=
  let s : Span := ⟨0, 0⟩
  let num (n : Nat) : Expr := .int n s
  let ret (n : Nat) : Stmt := .ret (some (num n)) s
  let method (n type : String) (params : List Param) (body : List Stmt) : MethodDecl :=
    ⟨n, s, type, s, params, .mk body s, true, .static, s⟩
  let leave : Arm := .mk (.ident "n" s) (.mk [ret 1, .assign "k" s (some "i32") (num 2) s] s) s
  [.cls ⟨"Waste", s, true, [⟨"k", "i32", true, true, none, s⟩],
    [method "tick" "i32" [] [ret 1],
      method "call" "void" [] [.expr (.binary .add (.call "tick" s [] s) (num 1) s)],
      method "divide" "void" [] [.expr (.binary .div (num 1) (num 0) s)],
      method "store" "i32" [⟨"n", "i32", s⟩]
        [.cond leave [] none s, .assign "k" s none (num 3) s, ret 0]], s⟩]

def notesOf? (o : Options) (items : List Item) (method : String) (time : Nat) :
    Option (List String) := do
  let (p, _) ← (build o items).toOption
  let m ← p.methods.find? (·.sig.name == method)
  match Host.journal.after m time (Host.start m []) with
  | .done (.returned _ notes) => some notes
  | _ => none

/-- A program that is accepted without trimming, and whose methods all pass the check, is accepted
with trimming, and every method has the same endings and comes to the same worlds. -/
theorem trimming_keeps_meaning {items : List Item} {p : Program} {warnings : Array Warning}
    (h : build o.untrimmed items = .ok (p, warnings))
    (safe : ∀ j ∈ jobs o.untrimmed items, j.trims o = true) :
    ∃ p' warnings', build o items = .ok (p', warnings') ∧
      p.Resembles (o.trimUselessCode = true) p' := by
  simp only [build_eq, bind_eq_ok, Except.ok.injEq, Prod.mk.injEq] at h
  obtain ⟨d, hd, progress, hp, rfl, -⟩ := h
  simp only [jobs, hd] at safe
  obtain ⟨progress', hp', resembles⟩ := compileClasses_trims (declare_ordered hd) (fun _ => id) rfl
    hp safe ⟨.refl _ _, rfl⟩
  refine ⟨progress'.program,
    progress'.warnings ++ mainWarning o progress'.program.hasMain, ?_, resembles⟩
  rw [build_eq, hd, ok_bind, hp', ok_bind]

theorem trimming_keeps_meaning_gauge : ∃ p warnings p' warnings',
    build {} gauge = .ok (p, warnings) ∧ build (Options.setTrim {} true) gauge = .ok (p', warnings') ∧
      p.Resembles ((Options.setTrim {} true).trimUselessCode = true) p' := by
  obtain ⟨⟨p, warnings⟩, h⟩ := exists_eq_ok (x := build {} gauge) (by decide +kernel)
  have safe : ((jobs {} gauge).all (·.trims (Options.setTrim {} true))) = true := by
    decide +kernel
  obtain ⟨p', warnings', h', resembles⟩ := trimming_keeps_meaning (o := Options.setTrim {} true) h
    (List.all_eq_true.1 safe)
  exact ⟨p, warnings, p', warnings', h, h', resembles⟩

/-- Without the check it fails. A program may need what unreachable code binds, and then it is
refused or stores a field in place of a local. A statement that is taken for useless may make a call,
or it may fail. -/
theorem trimming_can_change_meaning :
    ((build {} stray).isOk = true ∧ (build { trimUnreachableCode := true } stray).isOk = false) ∧
      (notesOf? {} waste "store" 12 = some [] ∧
        notesOf? { trimUnreachableCode := true } waste "store" 12 =
          some ["int32 Program.Waste::k"]) ∧
      (notesOf? {} waste "call" 12 = some ["int32 Program.Waste::tick()"] ∧
        notesOf? { trimUselessCode := true } waste "call" 12 = some []) ∧
      (notesOf? {} waste "divide" 12 = none ∧
        notesOf? { trimUselessCode := true } waste "divide" 12 = some []) := by
  decide +kernel

end Program
end ClassAsm
