import ClassAsm.Proofs.Order.Outlines
import ClassAsm.Proofs.Program.Members

/-! Each method on its own. What a method compiles to, and the warnings about it, depend on the
declarations of the program and not on the methods before it, but for the numbers of its labels. -/

namespace ClassAsm

theorem Method.compile_after (m : Method) (e : Exchange) {site site' : Site} {labels : Nat}
    {earlier : Array Warning} (h : site.RenamesTo (e.after labels earlier) site')
    (source : MethodSource) :
    (m.rename (e.after labels earlier)).compile site' source labels earlier =
      carry (·.rename (e.after labels earlier)) (e.after labels earlier).compiled
        (m.compile site source 0 #[]) := by
  have moved := m.compile_rename h source 0 #[]
  rw [e.source_after, e.warnings_after, Array.append_empty, Nat.zero_add] at moved
  exact moved

def Member.alone (m : Member) : Except Stop (Method × Nat × Array Warning) :=
  m.method.compile m.site m.source 0 #[]

namespace Job

/-- After others it gives the same, with other numbers for its labels. -/
def Steady (m : Member) : Prop := ∀ labels earlier,
  m.method.compile m.site m.source labels earlier =
    carry (·.rename (Exchange.same.after labels earlier))
      (Exchange.same.after labels earlier).compiled m.alone

theorem compiles_iff {ms : List Member} (steady : ∀ m ∈ ms, Steady m) {labels : Nat}
    {warnings warnings' : Array Warning} :
    (∃ cs labels', Compiles ms labels warnings cs labels' warnings') ↔
      ∃ made, List.Forall₂ (fun m r => m.alone = .ok r) ms made ∧
        warnings' = warnings ++ (made.flatMap (·.2.2.toList)).toArray := by
  induction ms generalizing labels warnings with
  | nil =>
    constructor
    · rintro ⟨_, _, h⟩
      cases h
      exact ⟨[], .nil, by simp⟩
    · rintro ⟨_, h, rfl⟩
      cases h
      exact ⟨[], labels, by simpa using .nil⟩
  | cons m ms ih =>
    obtain ⟨here, rest⟩ := List.forall_mem_cons.1 steady
    constructor
    · rintro ⟨_, _, h⟩
      cases h with
      | cons hc t =>
        rw [here, carry_eq_ok] at hc
        obtain ⟨r, hr, he⟩ := hc
        simp only [Renaming.compiled, Exchange.warnings_after, Prod.mk.injEq] at he
        obtain ⟨-, -, rfl⟩ := he
        obtain ⟨made, hm, rfl⟩ := (ih rest).1 ⟨_, _, t⟩
        exact ⟨r :: made, .cons hr hm, Array.toList_inj.1 (by simp)⟩
    · rintro ⟨_, h, rfl⟩
      cases h with
      | @cons _ r _ made hr hm =>
        have compiled := (here labels warnings).trans
          (congrArg (carry _ (Exchange.same.after labels warnings).compiled) hr)
        rw [carry, Renaming.compiled, Exchange.warnings_after] at compiled
        have all : warnings ++ ((r :: made).flatMap (·.2.2.toList)).toArray =
            warnings ++ r.2.2 ++ (made.flatMap (·.2.2.toList)).toArray :=
          Array.toList_inj.1 (by simp)
        obtain ⟨cs, labels', t⟩ := (ih rest).2 ⟨made, hm, all⟩
        exact ⟨_, labels', .cons compiled t⟩

theorem Compiles.split {ms ms' : List Member} {l l' : Nat} {w w' : Array Warning}
    {cs : List Method} (h : Compiles (ms ++ ms') l w cs l' w') :
    ∃ cs₁ l₁ w₁ cs₂, Compiles ms l w cs₁ l₁ w₁ ∧ Compiles ms' l₁ w₁ cs₂ l' w' := by
  induction ms generalizing l w cs with
  | nil => exact ⟨[], l, w, cs, .nil, h⟩
  | cons m ms ih =>
    cases h with
    | cons hc t =>
      obtain ⟨cs₁, l₁, w₁, cs₂, first, second⟩ := ih t
      exact ⟨_ :: cs₁, l₁, w₁, cs₂, .cons hc first, second⟩

end Job

namespace Program

open Job

variable {d : Declared} {options : Options}

theorem Declared.Ordered.site_same (h : d.Ordered) (owner : ClassId) (nspace : Nat)
    (sig : Signature) (options : Options) (labels : Nat) (earlier : Array Warning) :
    Site.RenamesTo (Exchange.same.after labels earlier)
      ⟨d.registry, d.builtins, owner, nspace, sig, options⟩
      ⟨d.registry, d.builtins, owner, nspace, sig, options⟩ :=
  ⟨h.installed, .of_declarations rfl rfl rfl, rfl, rfl,
    fun name => (Option.map_id' (x := d.registry.resolve? name nspace)).symm,
    (sig.rename_eq_self rfl).symm, rfl⟩

theorem Declared.Ordered.steady (h : d.Ordered) {m : Member} (hm : m ∈ d.members options) :
    Steady m := by
  intro labels earlier
  obtain ⟨o, ho, hm⟩ := List.mem_flatMap.1 hm
  obtain ⟨⟨method, source⟩, hz, rfl⟩ := List.mem_map.1 hm
  have pending : ∀ ss, method.body ≠ .segments ss := fun ss hs => by
    rw [(h.linked o ho).pending (List.of_mem_zip hz).1] at hs
    cases hs
  have compiled := method.compile_after Exchange.same
    (h.site_same o.id o.nspace method.sig options labels earlier) source
  rwa [Exchange.method_same pending] at compiled

theorem foldlM_of_compiles {os : List Outline} {p : Progress} {cs : List Method} {labels : Nat}
    {warnings : Array Warning}
    (h : Compiles (os.flatMap (d.membersOf options)) p.labels p.warnings cs labels warnings) :
    ∃ p', os.foldlM (d.compileClass options) p = .ok p' ∧
      p'.warnings = warnings := by
  induction os generalizing p cs with
  | nil =>
    cases h
    exact ⟨p, foldlM_nil_eq_ok.2 rfl, rfl⟩
  | cons o os ih =>
    obtain ⟨cs₁, l₁, w₁, cs₂, first, second⟩ := Compiles.split h
    obtain ⟨p', h', rfl⟩ := ih (p := ⟨_, l₁, w₁⟩) second
    exact ⟨p', foldlM_cons_eq_ok.2 ⟨_, compileClass_ok first, h'⟩, rfl⟩

/-- Declarations and members each on their own: what they give, and the warnings about them. -/
structure Gives (options : Options) (items : List Item) (p : Placement)
    (made : List (Outline × Array Warning)) (results : List (Method × Nat × Array Warning)) :
    Prop where
  arranged : Arranged items p made
  compiled : List.Forall₂ (fun m r => m.alone = .ok r) ((Declared.of p made).members options)
    results

def reports (options : Options) (made : List (Outline × Array Warning))
    (results : List (Method × Nat × Array Warning)) : List Warning :=
  made.flatMap (·.2.toList) ++ results.flatMap (·.2.2.toList) ++
    (mainWarning options (entered (made.map (·.1)))).toList

/-- A program is accepted if each declaration and each member is accepted on its own. -/
theorem build_gives {items : List Item} {p : Program} {ws : Array Warning}
    (h : build options items = .ok (p, ws)) : ∃ place made results,
      Gives options items place made results ∧ p.hasMain = entered (made.map (·.1)) ∧
        ws.toList = reports options made results := by
  simp only [build_eq, bind_eq_ok, Except.ok.injEq, Prod.mk.injEq] at h
  obtain ⟨d, hd, progress, hp, rfl, rfl⟩ := h
  have ordered := declare_ordered hd
  obtain ⟨place, made, arranged, rfl⟩ := declare_eq_ok.1 hd
  obtain ⟨⟨cs, -, -, hcs⟩, -, -, main⟩ := classes_eq_ok ordered.linked ordered.classes
    (by simpa [Registry.size_base] using ordered.ids) hp
  obtain ⟨results, hr, warned⟩ := (compiles_iff fun m hm => ordered.steady hm).1 ⟨_, _, hcs⟩
  refine ⟨place, made, results, ⟨arranged, hr⟩, main, ?_⟩
  rw [main, warned]
  simp [Declared.of, reports]

theorem Gives.build {items : List Item} {place : Placement} {made : List (Outline × Array Warning)}
    {results : List (Method × Nat × Array Warning)} (h : Gives options items place made results) :
    ∃ p ws, build options items = .ok (p, ws) ∧ p.hasMain = entered (made.map (·.1)) ∧
      ws.toList = reports options made results := by
  have hd := declare_eq_ok.2 ⟨place, made, h.arranged, rfl⟩
  have ordered := declare_ordered hd
  have gathered : (Declared.of place made).warnings ++
      (results.flatMap (·.2.2.toList)).toArray = _ := rfl
  obtain ⟨cs, labels, hcs⟩ := (compiles_iff fun m hm => ordered.steady hm).2
    ⟨results, h.compiled, gathered⟩
  obtain ⟨p', hp, warned⟩ :=
    foldlM_of_compiles (p := ⟨⟨(Declared.of place made).registry, false⟩, 0, _⟩) hcs
  obtain ⟨-, -, -, main⟩ := classes_eq_ok ordered.linked ordered.classes
    (by simpa [Registry.size_base] using ordered.ids) hp
  refine ⟨p'.program, p'.warnings ++ mainWarning options p'.program.hasMain, ?_, main, ?_⟩
  · rw [build_eq, hd, ok_bind, hp]
    rfl
  · rw [main, warned]
    simp [Declared.of, reports]

end Program
end ClassAsm
