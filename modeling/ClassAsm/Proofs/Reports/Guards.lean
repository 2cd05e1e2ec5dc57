import ClassAsm.Proofs.Program.References
import ClassAsm.Proofs.Reports.Spans

/-! What a compilation reports, and what it never has to. Three things could be missing that never
are: the type or the value of a variable, where one is read and again where one is compiled, and the
method that a body belongs to. Each is looked for here, and the look changes nothing. -/

namespace ClassAsm

/-- Something that is missing where it cannot be. -/
inductive Guard where
  /-- A variable is read that has neither a type nor a value. -/
  | unassigned (name : String)
  /-- A variable is compiled that has neither a type nor a value. -/
  | untyped (name : String)
  /-- A method is compiled that its class does not know. -/
  | unregistered (name : String)
deriving DecidableEq, Repr

namespace Guard

def code : Guard → ErrorCode
  | unassigned _ | untyped _ => .syntaxError
  | unregistered _ => .unknownFunction

def message : Guard → String
  | unassigned name =>
    s!"expected a value or type annotation for the declared variable '{name}'"
  | untyped name => s!"Expected a value or type annotation for '{name}'"
  | unregistered name => s!"The function '{name}' was never registered"

end Guard

/-! What is said. -/

theorem Expected.text_head (e : Expected) : e.text.toList.headD 'T' ≠ 'T' := by
  cases e <;> (rewrite [text, String.toList_ofList]; decide)

namespace Fault

theorem code_ne_syntaxError (f : Fault) : f.code ≠ .syntaxError := by
  cases f <;> simp [code]

private theorem plain (s : String) : toString s = s := rfl

theorem message_cases (f : Fault) :
    f.message.toList.take 5 ≠ "The f".toList ∨ f.message.toList.getLast? ≠ some 'd' := by
  cases f with
  | fieldRedeclared | methodRedeclared | bareReturn | returnMismatch | unknownMethod
  | argumentCount =>
    refine .inr ?_
    dsimp only [message]
    simp only [plain, String.toList_append, List.getLast?_append]
    repeat rewrite [String.toList_ofList]
    simp
  | unexpectedToken expected found =>
    refine .inl fun h => ?_
    have lower := expected.text_head
    dsimp only [message] at h
    rw [String.append_assoc, String.toList_append] at h
    cases shown : expected.text.toList with
    | nil => simp [shown] at lower
    | cons c cs =>
      rw [shown, List.cons_append, List.take_succ_cons] at h
      rw [shown, List.headD_cons] at lower
      exact lower (List.cons.inj h).1
  | tooManyLocals | noValue => exact .inl (by decide)
  | _ =>
    refine .inl ?_
    dsimp only [message]
    simp only [plain, String.toList_append, List.append_assoc]
    repeat rewrite [String.toList_ofList]
    rw [List.take_append_of_le_length (by decide)]
    decide

theorem message_ne_unregistered (f : Fault) (name : String) :
    f.message ≠ (Guard.unregistered name).message := by
  intro h
  rcases f.message_cases with first | last
  · refine first ?_
    rw [h]
    dsimp only [Guard.message]
    simp [plain]
  · refine last ?_
    rw [h]
    dsimp only [Guard.message]
    simp only [plain, String.toList_append, List.getLast?_append]
    simp

end Fault

/-! Reading. -/

namespace Grammar

/-- The name before the token is that of a variable. -/
def givesVariable : Kind → Bool
  | .symbol .colon | .symbol .eq => true
  | _ => false

/-- The place behind the name of a variable: its type comes next, or its value. -/
def atVariable (b : Body) (name : String) (nameSpan : Span) (t : Token) : Except Guard Next :=
  match t.kind with
  | .symbol .colon => .ok (.place (.variableType b name nameSpan))
  | .symbol .eq => .ok (.place (.operand (.of (.value b name nameSpan none))))
  | _ => .error (.unassigned name)

/-- The step of every place, where a statement about a variable is looked at once more. -/
def guardedStep (p : Place) (t : Token) : Except (Guard ⊕ Expected) Next :=
  match p with
  | .afterName b name nameSpan =>
    if givesVariable t.kind then (atVariable b name nameSpan t).mapError .inl
    else (atCallee (.of (.statement b)) name nameSpan t).mapError .inr
  | p => (step p t).mapError .inr

theorem guardedStep_eq (p : Place) (t : Token) :
    guardedStep p t = (step p t).mapError .inr := by
  cases p with
  | afterName b name nameSpan =>
    by_cases colon : t.kind = .symbol .colon
    · simp [guardedStep, step, givesVariable, atVariable, colon]
      rfl
    by_cases eq : t.kind = .symbol .eq
    · simp [guardedStep, step, givesVariable, atVariable, eq]
      rfl
    have other : givesVariable t.kind = false := by
      unfold givesVariable
      split <;> simp_all
    simp [guardedStep, step, other]
  | _ => rfl

/-- Reads on with the guarded step. -/
def guardedRead (items : List Item) (last : Option Token) (p : Place) :
    List Token → Except (Guard ⊕ Failure) (List Item)
  | [] => (read items last p []).mapError .inr
  | t :: rest =>
    if t.kind = .eof then (read items last p (t :: rest)).mapError .inr
    else match guardedStep p t with
      | .ok (.place p) => guardedRead items (some t) p rest
      | .ok (.item i) => guardedRead (i :: items) (some t) .top rest
      | .error (.inl g) => .error (.inl g)
      | .error (.inr expected) => .error (.inr (failure last t expected))

theorem guardedRead_eq (items : List Item) (last : Option Token) (p : Place) (ts : List Token) :
    guardedRead items last p ts = (read items last p ts).mapError .inr := by
  induction ts generalizing items last p with
  | nil => rw [guardedRead]
  | cons t ts ih =>
    rw [guardedRead, guardedStep_eq]
    split
    · rfl
    · next h =>
      rw [read, if_neg h]
      cases step p t with
      | error expected => rfl
      | ok next =>
        cases next with
        | place p => exact ih ..
        | item i => exact ih ..

end Grammar

/-! Compiling. -/

/-- The variable that a statement is about, with its type and its value as far as there are. -/
def Stmt.variable? : Stmt → Option (String × Span × Option String × Option Expr)
  | .declare name nameSpan type _ => some (name, nameSpan, some type, none)
  | .assign name nameSpan type e _ => some (name, nameSpan, type, some e)
  | _ => none

namespace Draft

variable (d : Draft) (site : Site)

def give (name : String) (span : Span) :
    Option String → Option Expr → Except (Guard ⊕ Stop) Draft
  | none, none => .error (.inl (.untyped name))
  | some type, none => (d.declare site name span type).mapError .inr
  | type, some e => (d.assign site name span type e).mapError .inr

/-- Compiles a statement, where one about a variable is looked at once more. -/
def guardedStmt (s : Stmt) : Except (Guard ⊕ Stop) Draft :=
  match s.variable? with
  | some (name, span, type, e) => d.give site name span type e
  | none => (d.stmt site s).mapError .inr

theorem guardedStmt_eq (s : Stmt) : d.guardedStmt site s = (d.stmt site s).mapError .inr := by
  cases s with
  | declare => rw [stmt]; rfl
  | assign _ _ type => cases type <;> rw [stmt] <;> rfl
  | _ => rfl

end Draft

def Registry.signature (r : Registry) (owner : ClassId) (name : String) : Except Guard Signature :=
  match (r.class? owner).bind (·.method? name) with
  | some m => .ok m.sig
  | none => .error (.unregistered name)

namespace Program

theorem signature_of_mem_jobs {items : List Item} {options : Options} {j : Job}
    (hj : j ∈ jobs options items) {decl : MethodDecl} (hd : j.source = .declared decl) :
    j.site.registry.signature j.site.owner decl.name = .ok j.site.sig := by
  obtain ⟨d, declared, o, ho, member⟩ := exists_outline hj
  have ordered := declare_ordered declared
  obtain ⟨_, _, _, _, shell, made⟩ := exists_ofPlaced declared ho
  have sits := Declared.sits_of_mem member
  have name := (List.forall₂_iff_zip.1 (Outline.names_ofPlaced shell made)).2 sits.listed
  rw [hd, MethodSource.name] at name
  have found := Class.method?_of_mem (List.of_mem_zip sits.listed).1
  rw [sits.site, ← name, Registry.signature, (ordered.class?_id ho).2, Option.bind_some, found]

end Program

/-! Sources. -/

namespace Compilation

variable {source : List Char} {options : Options}

/-- The warning is at a place in the source, or is that the whole program has no entry point. -/
def Reported (source : List Char) (w : Warning) : Prop :=
  if w.concern = .mainNotDefined then w.span = none else ∃ s, w.span = some s ∧ s.Inside source

theorem reported_of_located {w : Warning} (located : w.Located)
    (inside : SpanInside source w.span) : Reported source w := by
  obtain ⟨s, hs⟩ := Option.isSome_iff_exists.1 located.1
  rw [Reported, if_neg located.2]
  exact ⟨s, hs, inside s hs⟩

theorem reported_of_mainWarning {hasMain : Bool} {w : Warning}
    (h : w ∈ Program.mainWarning options hasMain) : Reported source w := by
  unfold Program.mainWarning at h
  split at h
  · obtain rfl := Array.mem_singleton.1 h
    rfl
  · exact absurd h (Array.not_mem_empty w)

/-- What a program is reported for, as far as places go. -/
theorem reports_of_program {tokens : List Token} {items : List Item} (options : Options)
    (lexed : (Lexed.ofSource source).tokens = .ok tokens) (read : Item.ofTokens tokens = .ok items) :
    (∀ f, (Program.ofItems options items).result = .error f →
      ∃ s, f.span = some s ∧ s.Inside source) ∧
    ∀ w ∈ (Program.ofItems options items).warnings, Reported source w := by
  have tells := Program.build_tells options items
  have inside := Program.spanInside_of_build options lexed read
  unfold Program.ofItems
  cases hb : Program.build options items with
  | error stop =>
    rw [hb] at tells inside
    obtain ⟨failed, warned⟩ := ends_error.1 tells
    refine ⟨fun f hf => ?_, fun w hw => ?_⟩
    · cases hf
      obtain ⟨s, hs⟩ := Option.isSome_iff_exists.1 failed
      exact ⟨s, hs, inside.1 s hs⟩
    · have member := Array.mem_toList_iff.1 hw
      exact reported_of_located (warned w member) (inside.2 w member)
  | ok built =>
    rw [hb] at tells inside
    obtain ⟨ws, warned, whole⟩ := ends_ok.1 tells
    refine ⟨fun _ => nofun, fun w hw => ?_⟩
    have member := Array.mem_toList_iff.1 hw
    rcases Array.mem_append.1 (whole ▸ member) with located | missing
    · exact reported_of_located (warned w located) (inside w member)
    · exact reported_of_mainWarning missing

variable (source options)

theorem reports_have_places :
    (∀ f, (ofSource source options).2.result = .error f →
      ∃ s, f.span = some s ∧ s.Inside source) ∧
    ∀ w ∈ (ofSource source options).2.warnings, Reported source w := by
  unfold ofSource
  cases lexed : (Lexed.ofSource source).tokens with
  | error f =>
    simp only [lexed]
    exact ⟨fun _ hf => Except.error.inj hf ▸ Lexed.inside_of_error lexed, fun _ => nofun⟩
  | ok tokens =>
    cases read : Item.ofTokens tokens with
    | error f =>
      simp only [lexed, read]
      exact ⟨fun _ hf => Except.error.inj hf ▸ Item.inside_of_error lexed read, fun _ => nofun⟩
    | ok items =>
      simp only [lexed, read]
      obtain ⟨failed, warned⟩ := reports_of_program
        (options.applyAll (Lexed.ofSource source).directives) lexed read
      exact ⟨fun f hf => failed f (map_eq_error.1 hf), warned⟩

/-- What is reported for a source is at a place in it, and is never that something is missing which
cannot be. -/
structure Accounted : Prop where
  failure : ∀ f, (ofSource source options).2.result = .error f →
    ∃ s, f.span = some s ∧ s.Inside source
  warning : ∀ w ∈ (ofSource source options).2.warnings, Reported source w
  code : ∀ f, (ofSource source options).2.result = .error f → f.code ≠ .syntaxError
  message : ∀ f, (ofSource source options).2.result = .error f →
    ∀ name, f.message ≠ (Guard.unregistered name).message
  /-- Reading never meets a variable without type and value. -/
  reading : ∀ tokens, (Lexed.ofSource source).tokens = .ok tokens →
    Grammar.guardedRead [] none .top tokens = (Item.ofTokens tokens).mapError .inr
  /-- Compiling never does either, at any statement and in any state. -/
  compiling : ∀ (d : Draft) (site : Site) (s : Stmt),
    d.guardedStmt site s = (d.stmt site s).mapError .inr
  /-- The method of every body is known to its class. -/
  registered : ∀ tokens items, (Lexed.ofSource source).tokens = .ok tokens →
    Item.ofTokens tokens = .ok items → ∀ j ∈ Program.jobs (ofSource source options).1 items,
      ∀ decl, j.source = .declared decl →
        j.site.registry.signature j.site.owner decl.name = .ok j.site.sig

theorem reports_are_accounted : Accounted source options where
  failure := (reports_have_places source options).1
  warning := (reports_have_places source options).2
  code := fun f _ => f.fault.code_ne_syntaxError
  message := fun f _ => f.fault.message_ne_unregistered
  reading := fun _ _ => Grammar.guardedRead_eq ..
  compiling := Draft.guardedStmt_eq
  registered := fun _ _ _ _ _ hj _ hd => Program.signature_of_mem_jobs hj hd

end Compilation
end ClassAsm
