import ClassAsm.Proofs.Code.Reads
import ClassAsm.Proofs.Program.Bodies

/-! The code of a method in pieces. A statement adds pieces to the segments, and each piece is the
code of an expression with what is done to its value. So it uses the locals that the expression
reads and the one that the statement names, and a local comes with a parameter or with a statement
that binds its name. -/

namespace ClassAsm

def Stmt.tests : Stmt → List Expr
  | .loop condition _ _ => [condition]
  | .cond first rest _ _ => (first :: rest).map Arm.condition
  | .expr _ | .declare .. | .assign .. | .ret .. => []

/-- The statement binds a name to values of a type. An assignment does not if the name is that of a
field or of a local that holds an address. -/
inductive Site.Binding (site : Site) (l : Locals) : Stmt → String → TypeRef → Span → Prop where
  | declare {name text : String} {nameSpan span : Span} {type : TypeRef}
      (h : (site.scope l).resolveType text nameSpan = .ok type) :
      Binding site l (.declare name nameSpan text span) name type nameSpan
  | assign {name : String} {nameSpan span : Span} {typeName : Option String} {e : Expr} {c : Code}
      (field : typeName = none → l.find? name = none → (site.scope l).field? name = none)
      (address : typeName = none → ∀ slot t, l.find? name = some (slot, t) → t.isAddress = false)
      (typed : ∀ text, typeName = some text →
        (site.scope l).resolveType text nameSpan = .ok c.type)
      (value : (site.scope l).valueCode e = .ok c) :
      Binding site l (.assign name nameSpan typeName e span) name c.type nameSpan

namespace Job

open Draft

/-- The code of an expression of a statement that is compiled, and the locals that it uses. -/
def Evaluates (j : Job) (locals : List (String × TypeRef)) (s : Stmt) (e : Expr)
    (names : List String) (c : Code) : Prop :=
  ∃ x, j.Visits (.one s) x ∧ x.locals.toList <+: locals ∧
    (j.site.scope x.locals).code e = .ok c ∧ names = (j.site.scope x.locals).reads e

/-- A statement that is compiled binds the name to the type. -/
def Registers (j : Job) (name : String) (type : TypeRef) : Prop :=
  ∃ s x span, j.Visits (.one s) x ∧ j.site.Binding x.locals s name type span

/-- A piece of code, with the names of the locals that it uses in order. -/
inductive Stretch (j : Job) (locals : List (String × TypeRef)) :
    List String → List Instruction → Prop where
  | jump (label : String) : Stretch j locals [] [.br label]
  | leave (hv : j.site.returnsVoid = true) : Stretch j locals [] [.ret false]
  | base : Stretch j locals [] [.ldarg 0, .callBaseCtor]
  | default {f : Field} {e : Expr} {c : Code} (hf : f.default = some e)
      (hc : (j.site.scope {}).code e = .ok c) :
      Stretch j locals ((j.site.scope {}).reads e) (storing j.site f c.instructions)
  | drop {e : Expr} {names : List String} {c : Code}
      (h : j.Evaluates locals (.expr e) e names c) :
      Stretch j locals names
        (c.instructions ++ if c.type.cls = j.site.builtins.void then [] else [.pop])
  | give {e : Expr} {span : Span} {names : List String} {c : Code}
      (h : j.Evaluates locals (.ret (some e) span) e names c)
      (ht : c.type = j.site.sig.returnType) :
      Stretch j locals names (c.instructions ++ [.ret (!j.site.returnsVoid)])
  | test {s : Stmt} {e : Expr} {names : List String} {c : Code} (hm : e ∈ s.tests)
      (h : j.Evaluates locals s e names c) {make : String → Instruction} (hj : Jump make 1)
      (label : String) : Stretch j locals names (c.instructions ++ [make label])
  | toField {name : String} {nameSpan span : Span} {e : Expr} {names : List String} {c : Code}
      {f : Field} (h : j.Evaluates locals (.assign name nameSpan none e span) e names c)
      (hf : (j.site.scope {}).field? name = some f) :
      Stretch j locals names (storing j.site f c.instructions)
  | through {name : String} {nameSpan span : Span} {e : Expr} {names : List String} {c : Code}
      {slot : Nat} {type : TypeRef}
      (h : j.Evaluates locals (.assign name nameSpan none e span) e names c)
      (hl : locals[slot]? = some (name, type)) (ha : type.isAddress = true) :
      Stretch j locals (name :: names)
        ([.ldloc slot] ++ c.instructions ++ [.stind (j.site.builtins.elementKind type.cls)])
  | toLocal {name : String} {nameSpan span : Span} {typeName : Option String} {e : Expr}
      {names : List String} {c : Code} {slot : Nat}
      (h : j.Evaluates locals (.assign name nameSpan typeName e span) e names c)
      (hl : locals[slot]? = some (name, c.type)) :
      Stretch j locals (names ++ [name]) (c.instructions ++ [.stloc slot])

/-- Code made of pieces. -/
inductive Woven (j : Job) (locals : List (String × TypeRef)) :
    List String → List Instruction → Prop where
  | nil : Woven j locals [] []
  | append {names names' : List String} {code code' : List Instruction}
      (h : Woven j locals names code) (next : Stretch j locals names' code') :
      Woven j locals (names ++ names') (code ++ code')

variable {j : Job} {locals locals' : List (String × TypeRef)} {names names' : List String}
  {code code' : List Instruction} {s : Stmt} {e : Expr} {c : Code}

theorem Evaluates.mono (h : j.Evaluates locals s e names c) (within : locals <+: locals') :
    j.Evaluates locals' s e names c := by
  obtain ⟨x, hv, hl, hc, hn⟩ := h
  exact ⟨x, hv, hl.trans within, hc, hn⟩

theorem Stretch.mono (h : j.Stretch locals names code) (within : locals <+: locals') :
    j.Stretch locals' names code := by
  cases h with
  | jump label => exact .jump label
  | leave hv => exact .leave hv
  | base => exact .base
  | default hf hc => exact .default hf hc
  | drop h => exact .drop (h.mono within)
  | give h ht => exact .give (h.mono within) ht
  | test hm h hj label => exact .test hm (h.mono within) hj label
  | toField h hf => exact .toField (h.mono within) hf
  | through h hl ha => exact .through (h.mono within) (getElem?_mono within hl) ha
  | toLocal h hl => exact .toLocal (h.mono within) (getElem?_mono within hl)

theorem Woven.mono (h : j.Woven locals names code) (within : locals <+: locals') :
    j.Woven locals' names code := by
  induction h with
  | nil => exact .nil
  | append _ next ih => exact ih.append (next.mono within)

theorem Stretch.woven (h : j.Stretch locals names code) : j.Woven locals names code := by
  simpa using Woven.nil.append h

theorem Woven.trans (h : j.Woven locals names code) (h' : j.Woven locals names' code') :
    j.Woven locals (names ++ names') (code ++ code') := by
  induction h' with
  | nil => simpa using h
  | append _ next ih =>
    rw [← List.append_assoc, ← List.append_assoc]
    exact ih.append next

/-! What is in a piece. -/

/-- The code neither branches nor returns, and it stores to no local. -/
def Calm (code : List Instruction) : Prop :=
  ∀ i ∈ code, i.isControl = false ∧ ∀ slot, i ≠ .stloc slot

theorem Calm.append (h : Calm code) (h' : Calm code') : Calm (code ++ code') :=
  fun i hi => (List.mem_append.1 hi).elim (h i) (h' i)

theorem calm_of_code {site : Site} {locals : Locals}
    (hs : site.registry.Installed site.builtins) (h : (site.scope locals).code e = .ok c) :
    Calm c.instructions := by
  refine fun i hi => ⟨(Scope.code_leaves hs h).straight i hi, fun slot store => ?_⟩
  exact (Scope.code_loads hs h).stores slot (store ▸ hi)

theorem storing_eq (site : Site) (f : Field) (code : List Instruction) : ∃ before after,
    storing site f code = before ++ code ++ after ∧
      (∀ i ∈ before, i.slot? = none ∧ i.isControl = false) ∧
      ∀ i ∈ after, i.slot? = none ∧ i.isControl = false := by
  unfold storing
  split
  · exact ⟨[], _, rfl, List.forall_mem_nil _, by simp [Instruction.slot?, Instruction.isControl]⟩
  · exact ⟨_, _, rfl, by simp [Instruction.slot?, Instruction.isControl],
      by simp [Instruction.slot?, Instruction.isControl]⟩

theorem loads_storing (site : Site) (f : Field) (h : Loads locals names code) :
    Loads locals names (storing site f code) := by
  obtain ⟨before, after, he, hb, ha⟩ := storing_eq site f code
  rw [he]
  exact ((Loads.of_none fun i hi => (hb i hi).1).append h).followed fun i hi => (ha i hi).1

theorem calm_storing (site : Site) (f : Field) (h : Calm code) : Calm (storing site f code) := by
  obtain ⟨before, after, he, hb, ha⟩ := storing_eq site f code
  have around {code : List Instruction}
      (h : ∀ i ∈ code, i.slot? = none ∧ i.isControl = false) : Calm code :=
    fun i hi => ⟨(h i hi).2, fun slot store => by cases store ▸ (h i hi).1⟩
  exact he ▸ ((around hb).append h).append (around ha)

section

variable (hs : j.site.registry.Installed j.site.builtins)

include hs

theorem Evaluates.loads (h : j.Evaluates locals s e names c) :
    Loads locals names c.instructions := by
  obtain ⟨x, -, within, hc, rfl⟩ := h
  exact (Scope.code_loads hs hc).mono within

theorem Evaluates.calm (h : j.Evaluates locals s e names c) : Calm c.instructions := by
  obtain ⟨x, -, -, hc, -⟩ := h
  exact calm_of_code hs hc

theorem Stretch.slotted (h : j.Stretch locals names code) : Slotted locals names code := by
  cases h with
  | jump | leave | base => exact .of_none (by simp [Instruction.slot?])
  | default _ hc =>
    exact (loads_storing _ _ ((Scope.code_loads hs hc).mono List.nil_prefix)).slots
  | drop h => exact (h.loads hs).slots.followed (by split <;> simp [Instruction.slot?])
  | give h => exact (h.loads hs).slots.followed (by simp [Instruction.slot?])
  | test _ h hj =>
    refine (h.loads hs).slots.followed ?_
    cases hj <;> simp [Instruction.slot?]
  | toField h => exact (loads_storing _ _ (h.loads hs)).slots
  | @through _ _ _ _ _ _ slot _ h hl =>
    have load : Slotted locals _ [.ldloc slot] := .one rfl ⟨_, hl⟩
    exact (load.append (h.loads hs).slots).followed (by simp [Instruction.slot?])
  | toLocal h hl => exact (h.loads hs).slots.append (.one rfl ⟨_, hl⟩)

/-- What an instruction in a piece is, if it is none of those between which values go. -/
inductive Turn (j : Job) (locals : List (String × TypeRef)) (code : List Instruction) :
    Instruction → Prop where
  | calm {i : Instruction} (h : i.isControl = false ∧ ∀ slot, i ≠ .stloc slot) :
      Turn j locals code i
  | branch {i : Instruction} {label : String} (h : i.target? = some label) : Turn j locals code i
  | ret {hasValue : Bool} (h : hasValue = !j.site.returnsVoid) : Turn j locals code (.ret hasValue)
  /-- The value of an expression is stored to a local of its type, and this ends the piece. -/
  | store {s : Stmt} {e : Expr} {names : List String} {c : Code} {name : String} {slot : Nat}
      (h : j.Evaluates locals s e names c) (ends : code = c.instructions ++ [.stloc slot])
      (typed : locals[slot]? = some (name, c.type)) : Turn j locals code (.stloc slot)

theorem Stretch.turn (h : j.Stretch locals names code) {i : Instruction} (hi : i ∈ code) :
    j.Turn locals code i := by
  have last {before : List Instruction} (calm : Calm before) {z : Instruction}
      (hz : j.Turn locals code z) (hi : i ∈ before ++ [z]) : j.Turn locals code i := by
    rcases List.mem_append.1 hi with hi | hi
    · exact .calm (calm i hi)
    · exact List.mem_singleton.1 hi ▸ hz
  cases h with
  | jump label => exact last (List.forall_mem_nil _) (.branch rfl) hi
  | leave hv => exact last (List.forall_mem_nil _) (.ret (by simp [hv])) hi
  | base => exact .calm (by simp at hi; rcases hi with rfl | rfl <;> simp [Instruction.isControl])
  | default _ hc => exact .calm (calm_storing _ _ (calm_of_code hs hc) i hi)
  | drop h =>
    refine .calm (((h.calm hs).append ?_) i hi)
    split <;> simp [Calm, Instruction.isControl]
  | give h => exact last (h.calm hs) (.ret rfl) hi
  | test _ h hj label => exact last (h.calm hs) (.branch (hj.target? label)) hi
  | toField h => exact .calm (calm_storing _ _ (h.calm hs) i hi)
  | through h =>
    have load (slot : Nat) : Calm [.ldloc slot] := by simp [Calm, Instruction.isControl]
    exact .calm ((((load _).append (h.calm hs)).append
      (by simp [Calm, Instruction.isControl])) i hi)
  | toLocal h hl => exact last (h.calm hs) (.store h rfl hl) hi

theorem Woven.slotted (h : j.Woven locals names code) : Slotted locals names code := by
  induction h with
  | nil => exact .nil
  | append _ next ih => exact ih.append (next.slotted hs)

theorem Woven.of_mem_ret (h : j.Woven locals names code) {hasValue : Bool}
    (hm : .ret hasValue ∈ code) : hasValue = !j.site.returnsVoid := by
  induction h with
  | nil => cases hm
  | append _ next ih =>
    rcases List.mem_append.1 hm with hm | hm
    · exact ih hm
    · cases next.turn hs hm with
      | calm h => cases h.1
      | branch h => cases h
      | ret h => exact h

theorem Woven.stores (h : j.Woven locals names code) {before after : List Instruction} {slot : Nat}
    (he : code = before ++ .stloc slot :: after) : ∃ s e names' c name,
      j.Evaluates locals s e names' c ∧ c.instructions <:+ before ∧
        locals[slot]? = some (name, c.type) := by
  induction h generalizing before after with
  | nil => simp at he
  | @append _ _ front piece _ next ih =>
    have within (mid : List Instruction) (hp : piece = mid ++ .stloc slot :: after)
        (hb : before = front ++ mid) : ∃ s e names' c name, j.Evaluates locals s e names' c ∧
          c.instructions <:+ before ∧ locals[slot]? = some (name, c.type) := by
      cases next.turn hs (i := .stloc slot) (by simp [hp]) with
      | calm h => exact absurd rfl (h.2 slot)
      | branch h => cases h
      | @store s e names' c name _ evaluates ends typed =>
        refine ⟨s, e, names', c, name, evaluates, ?_, typed⟩
        -- the piece stores once, at its end
        have none : .stloc slot ∉ c.instructions := fun hm => (evaluates.calm hs _ hm).2 slot rfl
        obtain ⟨rfl, -⟩ := (List.append_cons_inj_of_notMem none List.not_mem_nil).1
          (ends.symm.trans hp)
        exact ⟨front, hb.symm⟩
    rcases List.append_eq_append_iff.1 he with ⟨mid, hb, hp⟩ | ⟨mid, hf, hr⟩
    · exact within mid hp hb
    · cases mid with
      | nil => exact within [] (by simpa using hr.symm) (by simpa using hf.symm)
      | cons x mid =>
        obtain ⟨rfl, -⟩ := List.cons.inj hr
        exact ih hf

end

end Job
end ClassAsm
