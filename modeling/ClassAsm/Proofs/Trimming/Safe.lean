import ClassAsm.Proofs.Trimming.Names
import ClassAsm.Proofs.Method.Emits

/-! When a method can be trimmed. All locals of a method share one scope, so dropped code may have
bound a name that other code looks up; then the name is missing or stands for a field. And a useless
statement may be worth its calls. The check goes through the method as the compiler does, with the
names that the trimmed method has bound so far. -/

namespace ClassAsm

def Options.untrimmed (o : Options) : Options :=
  { o with trimUnreachableCode := false, trimUselessCode := false }

namespace Draft

variable (o : Options) (site : Site) (d : Draft) (names : List String)

/-- The expression looks up no local that only dropped code has bound. -/
def spares (e : Expr) : Bool :=
  !o.trimUnreachableCode || ((site.scope d.locals).lookups e).all fun name =>
    (d.locals.find? name).isNone || names.contains name

/-- The expression makes no call and leaves what its type says. -/
def idles (e : Expr) : Bool :=
  match (site.scope d.locals).code e with
  | .ok c => c.instructions.all Instruction.isQuiet &&
      !(Scope.mayStray e && (site.scope d.locals).isVoid c.type)
  | .error _ => false

/-- The names after an assignment. With a declared type it binds the name in any case; without one,
a local that only dropped code has bound must not become a field, or lose an address. -/
def assignKeeps (name : String) (typeName : Option String) : Option (List String) :=
  let isField := ((site.scope d.locals).field? name).isSome
  if typeName.isSome then some (name :: names)
  else if names.contains name then some names
  else match d.locals.find? name with
    | none => some (if isField then names else name :: names)
    | some (_, type) =>
      if o.trimUnreachableCode && (isField || type.isAddress) then none else some (name :: names)

mutual

/-- The names that are bound after a statement when the method is trimmed. There are none if the
statement looks up a name that only dropped code has bound, or if it is dropped but does something
that counts. -/
def stmtKeeps (d : Draft) (names : List String) : Stmt → Option (List String)
  | .expr e =>
    if !e.isCall && o.trimUselessCode then
      if d.isDead || d.idles site e then some names else none
    else if d.spares o site names e then some names else none
  | .declare name _ _ _ => some (name :: names)
  | .assign name _ typeName value _ =>
    if d.spares o site names value then d.assignKeeps o site names name typeName else none
  | .ret none _ => some names
  | .ret (some e) _ => if d.spares o site names e then some names else none
  | .loop c (.mk body _) _ =>
    if d.spares o site names c then do
      let (_, _, d) ← (d.loopStart site c).toOption
      blockKeeps d names body
    else none
  | .cond first rest otherwise _ =>
    if (first :: rest).all fun a => d.spares o site names a.condition then do
      let (after, segments, d) ← (d.condStart site (first :: rest)).toOption
      let names ← elseKeeps d names otherwise
      let d ← (d.stmts site (elseStmts otherwise)).toOption
      let d := d.join after
      match segments with
      | segment :: segments => do
        let names ← armKeeps (d.switchTo segment) names first
        let d ← ((d.switchTo segment).stmts site first.body.stmts).toOption
        armsKeep (d.join after) after names segments rest
      | [] => none
    else none

def elseKeeps (d : Draft) (names : List String) : Option Block → Option (List String)
  | some (.mk body _) => blockKeeps d names body
  | none => some names

def armKeeps (d : Draft) (names : List String) : Arm → Option (List String)
  | .mk _ (.mk body _) _ => blockKeeps d names body

def armsKeep (d : Draft) (after : Nat) (names : List String) :
    List Nat → List Arm → Option (List String)
  | segment :: segments, a :: rest => do
    let names ← armKeeps (d.switchTo segment) names a
    let d ← ((d.switchTo segment).stmts site a.body.stmts).toOption
    armsKeep (d.join after) after names segments rest
  | _, _ => some names

/-- What is left of a block that control has left is dropped. -/
def blockKeeps (d : Draft) (names : List String) : List Stmt → Option (List String)
  | [] => some names
  | s :: rest =>
    if o.trimUnreachableCode && d.isDead then some names
    else do
      let d := (d.admit? site s.span).1
      let names ← stmtKeeps d names s
      let d ← (d.stmt site s).toOption
      blockKeeps d names rest

end

def Task.keeps (o : Options) (site : Site) (names : List String) :
    Task → Draft → Option (List String)
  | .block ss, d => blockKeeps o site d names ss
  | .one s, d => stmtKeeps o site d names s
  | .arms after xs, d => armsKeep o site d after names (xs.map Prod.fst) (xs.map Prod.snd)

variable {o site d names} {names' : List String} {d₁ d₂ : Draft}

/-! The check, rule by rule. -/

theorem keeps_dead {ss : List Stmt} (on : o.trimUnreachableCode = true) (hd : d.isDead = true)
    (h : (Task.block ss).keeps o site names d = some names') : names' = names := by
  cases ss with
  | nil =>
    simp only [Task.keeps, blockKeeps, Option.some.injEq] at h
    exact h.symm
  | cons s rest =>
    simp only [Task.keeps, blockKeeps, on, hd, Bool.and_self, if_true, Option.some.injEq] at h
    exact h.symm

theorem keeps_next {s : Stmt} {rest : List Stmt} {b : Bool}
    (hd : o.trimUnreachableCode = true → d.isDead = false)
    (ha : d.admit? site s.span = (d₁, b)) (hs : d₁.stmt site s = .ok d₂)
    (h : (Task.block (s :: rest)).keeps o site names d = some names') :
    ∃ names₁, (Task.one s).keeps o site names d₁ = some names₁ ∧
      (Task.block rest).keeps o site names₁ d₂ = some names' := by
  have passes : (o.trimUnreachableCode && d.isDead) = false := by
    cases on : o.trimUnreachableCode with
    | false => rfl
    | true => simp [hd on]
  simp only [Task.keeps, blockKeeps, passes, Bool.false_eq_true, if_false, ha,
    Option.bind_eq_bind, Option.bind_eq_some_iff] at h
  obtain ⟨names₁, h₁, d₂', h₂, h₃⟩ := h
  simp only [hs, Except.toOption, Option.some.injEq] at h₂
  exact ⟨names₁, h₁, h₂ ▸ h₃⟩

theorem keeps_ret {value : Option Expr} {span : Span}
    (h : (Task.one (.ret value span)).keeps o site names d = some names') :
    names' = names ∧ ∀ e, value = some e → d.spares o site names e = true := by
  cases value with
  | none =>
    simp only [Task.keeps, stmtKeeps, Option.some.injEq] at h
    exact ⟨h.symm, nofun⟩
  | some e =>
    simp only [Task.keeps, stmtKeeps] at h
    split at h
    · next spared =>
      cases h
      exact ⟨rfl, fun _ he => Option.some.inj he ▸ spared⟩
    · cases h

theorem keeps_loop {c : Expr} {body : Block} {span : Span} {cond after : Nat}
    (hl : d.loopStart site c = .ok (cond, after, d₁))
    (h : (Task.one (.loop c body span)).keeps o site names d = some names') :
    d.spares o site names c = true ∧
      (Task.block body.stmts).keeps o site names d₁ = some names' := by
  obtain ⟨body, _⟩ := body
  simp only [Task.keeps, stmtKeeps] at h
  split at h
  · next hc =>
    simp only [hl, Except.toOption, Option.bind_eq_bind, Option.bind_some] at h
    exact ⟨hc, h⟩
  · cases h

theorem keeps_arm {after segment : Nat} {a : Arm} {xs : List (Nat × Arm)}
    (hb : (d.switchTo segment).stmts site a.body.stmts = .ok d₁)
    (h : (Task.arms after ((segment, a) :: xs)).keeps o site names d = some names') :
    ∃ names₁, (Task.block a.body.stmts).keeps o site names (d.switchTo segment) = some names₁ ∧
      (Task.arms after xs).keeps o site names₁ (d₁.join after) = some names' := by
  obtain ⟨_, ⟨body, _⟩, _⟩ := a
  simp only [Task.keeps, List.map_cons, armsKeep, armKeeps, hb, Except.toOption,
    Option.bind_eq_bind, Option.bind_eq_some_iff, Option.some.injEq] at h
  obtain ⟨names₁, h₁, _, rfl, h₂⟩ := h
  exact ⟨names₁, h₁, h₂⟩

theorem keeps_cond {first : Arm} {rest : List Arm} {otherwise : Option Block} {span : Span}
    {after : Nat} {segments : List Nat}
    (hs : d.condStart site (first :: rest) = .ok (after, segments, d₁))
    (ho : d₁.stmts site (elseStmts otherwise) = .ok d₂)
    (h : (Task.one (.cond first rest otherwise span)).keeps o site names d = some names') :
    (∀ a ∈ first :: rest, d.spares o site names a.condition = true) ∧ ∃ names₁,
      (Task.block (elseStmts otherwise)).keeps o site names d₁ = some names₁ ∧
      (Task.arms after (segments.zip (first :: rest))).keeps o site names₁ (d₂.join after) =
        some names' := by
  have hl := length_condStart hs
  obtain _ | ⟨segment, segments⟩ := segments
  · simp at hl
  have lengths : segments.length = rest.length := by simpa using hl
  simp only [Task.keeps, stmtKeeps] at h
  split at h
  · next hc =>
    simp only [hs, ho, Except.toOption, Option.bind_eq_bind, Option.bind_some,
      Option.bind_eq_some_iff] at h
    obtain ⟨names₁, h₁, names₂, h₂, d₃, h₃, h₄⟩ := h
    refine ⟨List.all_eq_true.1 hc, names₁, ?_, ?_⟩
    · rcases otherwise with _ | ⟨_, _⟩
      · simpa only [Task.keeps, elseStmts, blockKeeps, elseKeeps] using h₁
      · simpa only [Task.keeps, elseStmts, Block.stmts, elseKeeps] using h₁
    · simp only [Task.keeps, List.zip_cons_cons, List.map_cons, List.map_fst_zip lengths.le,
        List.map_snd_zip lengths.ge, armsKeep, h₂, Option.bind_eq_bind, Option.bind_some,
        Option.bind_eq_some_iff]
      exact ⟨d₃, h₃, h₄⟩
  · cases h

end Draft
end ClassAsm
