import ClassAsm.Proofs.Program.Declared
import ClassAsm.Proofs.Trimming.Names

/-! The locals that the code of an expression uses. Its slots are those of the names in it, from
left to right, with the names in a default where that stands for a field. -/

namespace ClassAsm

/-- The slot is that of the name. -/
def HasSlot (locals : List (String × TypeRef)) (name : String) (slot : Nat) : Prop :=
  ∃ type, locals[slot]? = some (name, type)

/-- The slots in the code are those of the names, in order. -/
def Slotted (locals : List (String × TypeRef)) (names : List String) (code : List Instruction) :
    Prop :=
  List.Forall₂ (HasSlot locals) names (code.filterMap Instruction.slot?)

variable {locals locals' : List (String × TypeRef)}

/-- What comes behind does not move the locals that are there. -/
theorem getElem?_mono (within : locals <+: locals') {slot : Nat} {x : String × TypeRef}
    (h : locals[slot]? = some x) : locals'[slot]? = some x := by
  obtain ⟨lt, rfl⟩ := List.getElem?_eq_some_iff.1 h
  exact List.prefix_iff_getElem?.1 within slot lt

theorem HasSlot.mono {name : String} {slot : Nat} (h : HasSlot locals name slot)
    (within : locals <+: locals') : HasSlot locals' name slot :=
  h.imp fun _ => getElem?_mono within

namespace Slotted

variable {names names' : List String} {code code' : List Instruction}

theorem append (h : Slotted locals names code) (h' : Slotted locals names' code') :
    Slotted locals (names ++ names') (code ++ code') := by
  rw [Slotted, List.filterMap_append]
  exact List.rel_append h h'

theorem of_none (h : ∀ i ∈ code, i.slot? = none) : Slotted locals [] code := by
  rw [Slotted, List.filterMap_eq_nil_iff.2 h]
  exact .nil

theorem one {i : Instruction} {name : String} {slot : Nat} (hi : i.slot? = some slot)
    (h : HasSlot locals name slot) : Slotted locals [name] [i] := by
  simp only [Slotted, List.filterMap_cons, hi, List.filterMap_nil]
  exact .cons h .nil

theorem followed (h : Slotted locals names code) (h' : ∀ i ∈ code', i.slot? = none) :
    Slotted locals names (code ++ code') := by
  simpa using h.append (of_none h')

theorem mono (h : Slotted locals names code) (within : locals <+: locals') :
    Slotted locals' names code :=
  h.imp fun _ _ hs => hs.mono within

theorem lt_length (h : Slotted locals names code) {i : Instruction} (hi : i ∈ code) {slot : Nat}
    (hs : i.slot? = some slot) : slot < locals.length := by
  have mem : slot ∈ code.filterMap Instruction.slot? := List.mem_filterMap.2 ⟨i, hi, hs⟩
  obtain ⟨_, -, _, found⟩ := exists_of_mem_forall₂ h mem
  exact (List.getElem?_eq_some_iff.1 found).1

end Slotted

/-- The code uses the locals of the names, in order, and stores to none of them. -/
structure Loads (locals : List (String × TypeRef)) (names : List String)
    (code : List Instruction) : Prop where
  slots : Slotted locals names code
  stores : ∀ slot, .stloc slot ∉ code

namespace Loads

variable {names names' : List String} {code code' : List Instruction}

theorem append (h : Loads locals names code) (h' : Loads locals names' code') :
    Loads locals (names ++ names') (code ++ code') :=
  ⟨h.slots.append h'.slots, fun slot hm =>
    (List.mem_append.1 hm).elim (h.stores slot) (h'.stores slot)⟩

theorem of_none (h : ∀ i ∈ code, i.slot? = none) : Loads locals [] code :=
  ⟨.of_none h, fun slot hm => by cases h _ hm⟩

theorem followed (h : Loads locals names code) (h' : ∀ i ∈ code', i.slot? = none) :
    Loads locals names (code ++ code') := by
  simpa using h.append (of_none h')

theorem mono (h : Loads locals names code) (within : locals <+: locals') :
    Loads locals' names code := ⟨h.slots.mono within, h.stores⟩

theorem load {name : String} {slot : Nat} (h : HasSlot locals name slot) :
    Loads locals [name] [.ldloc slot] := ⟨.one rfl h, by simp⟩

theorem address {name : String} {slot : Nat} (h : HasSlot locals name slot) :
    Loads locals [name] [.ldloca slot] := ⟨.one rfl h, by simp⟩

end Loads

theorem Locals.hasSlot {l : Locals} {name : String} {slot : Nat} {type : TypeRef}
    (h : l.find? name = some (slot, type)) : HasSlot l.toList name slot :=
  ⟨type, getElem?_toList.2 h⟩

namespace Scope

variable {s : Scope} {standIn : StandIn}

def isLocal (s : Scope) (name : String) : Bool := (s.locals.find? name).isSome

/-- The locals that the code of a name uses: the local that it is, or those in the default that
stands for it. The number bounds how many defaults can be nested. -/
def readsInside (s : Scope) : Nat → String → List String
  | 0, name => if s.isLocal name then [name] else []
  | n + 1, name =>
    if s.isLocal name then [name]
    else ((s.default? name).map fun default => default.names.flatMap (s.readsInside n)).getD []

/-- The locals that the code of an expression uses, in order. -/
def reads (s : Scope) (e : Expr) : List String :=
  e.names.flatMap (s.readsInside ((s.registry.class? s.owner).elim [] (·.fields)).length)

theorem readsInside_of_isLocal (n : Nat) {name : String} (h : s.isLocal name = true) :
    s.readsInside n name = [name] := by
  cases n <;> exact if_pos h

theorem isLocal_of_find? {name : String} {x : Nat × TypeRef} (h : s.locals.find? name = some x) :
    s.isLocal name = true := by
  rw [isLocal, h]
  rfl

theorem loadLocal_loads {name : String} {slot : Nat} {type : TypeRef}
    (h : s.locals.find? name = some (slot, type)) :
    Loads s.locals.toList [name] (s.loadLocal slot type).instructions := by
  have load : Loads s.locals.toList [name] [.ldloc slot] := Loads.load (Locals.hasSlot h)
  unfold loadLocal
  split
  · have behind : ∀ i ∈ [Instruction.ldind (s.builtins.elementKind type.cls)], i.slot? = none := by
      simp [Instruction.slot?]
    exact load.followed behind
  · exact load

/-- The names are accounted for: a local by itself, a field by what stands in for it. -/
def Accounts (s : Scope) (standIn : StandIn) (names : String → List String) : Prop :=
  (∀ name, s.isLocal name = true → names name = [name]) ∧
    ∀ name span c, s.nameCode standIn name span = .ok c →
      Loads s.locals.toList (names name) c.instructions

theorem nameCode_loads {names : List String} {name : String} {span : Span} {c : Code}
    (h : s.nameCode standIn name span = .ok c) (here : s.isLocal name = true → names = [name])
    (other : s.isLocal name = false → ∀ f, s.field? name = some f → f.isStatic = true ∨
      s.hasReceiver = true → names = [])
    (stands : s.isLocal name = false → ∀ f, s.field? name = some f → f.isStatic = false →
      s.hasReceiver = false → ∀ code, standIn f = some (.ok code) → Loads s.locals.toList names code) :
    Loads s.locals.toList names c.instructions := by
  unfold nameCode at h
  split at h
  · next slot type found =>
    cases h
    exact here (isLocal_of_find? found) ▸ loadLocal_loads found
  next unknown =>
  have new : s.isLocal name = false := by rw [isLocal, unknown]; rfl
  dsimp only at h
  split at h
  · cases h
  next f hf =>
  split at h
  · next hst =>
    cases h
    exact other new f hf (.inl hst) ▸ .of_none (by simp [Instruction.slot?])
  next hst =>
  split at h
  · next hr =>
    cases h
    exact other new f hf (.inr hr) ▸ .of_none (by simp [Instruction.slot?])
  next hr =>
  split at h
  · cases h
  · next code hc =>
    obtain ⟨code, rfl, rfl⟩ := map_eq_ok.1 h
    exact stands new f hf (by simpa using hst) (by simpa using hr) code hc

theorem addressArgument_loads {names : String → List String}
    (local' : ∀ name, s.isLocal name = true → names name = [name]) {callee param : String}
    {type : TypeRef} {arg : Expr} {code : List Instruction}
    (h : s.addressArgument callee param type arg = .ok code) :
    Loads s.locals.toList (arg.names.flatMap names) code := by
  cases arg with
  | ident name span =>
    simp only [addressArgument] at h
    split at h
    · cases h
    next slot got found =>
    split at h
    · cases h
      rw [Expr.names, List.flatMap_singleton, local' name (isLocal_of_find? found)]
      split
      · exact .load (Locals.hasSlot found)
      · exact .address (Locals.hasSlot found)
    · cases h
  | _ => cases h

mutual

theorem codeWith_loads (hs : s.registry.Installed s.builtins) {names : String → List String}
    (accounts : s.Accounts standIn names) : ∀ (e : Expr) {c : Code},
    s.codeWith standIn e = .ok c → Loads s.locals.toList (e.names.flatMap names) c.instructions
  | .int v span, _, h => by
    rw [codeWith] at h
    cases h
    exact .of_none fun i hi => (intCode_same s v i hi).1
  | .float v span, _, h => by
    rw [codeWith] at h
    cases h
    exact .of_none fun i hi => (floatCode_same s v i hi).1
  | .str v span, _, h => by
    rw [codeWith] at h
    cases h
    exact .of_none (by simp [Instruction.slot?])
  | .ident name span, c, h => by
    rw [codeWith] at h
    rw [Expr.names, List.flatMap_singleton]
    exact accounts.2 name span c h
  | .binary op left right span, _, h => by
    simp only [codeWith, bind_eq_ok, needValue_eq_ok] at h
    obtain ⟨a, ha, _, ⟨-, rfl⟩, m, hm, b, hb, _, ⟨-, rfl⟩, h⟩ := h
    split at h
    · cases h
    cases h
    have operands := (codeWith_loads hs accounts left ha).append
      (codeWith_loads hs accounts right hb)
    rw [Expr.names, List.flatMap_append]
    refine (operands.followed fun i hi => (useOperator_same hs hm i hi).1).followed ?_
    split <;> simp [Instruction.slot?]
  | .unary op operand span, c, h => by
    simp only [codeWith, bind_eq_ok, needValue_eq_ok] at h
    obtain ⟨a, ha, _, ⟨-, rfl⟩, h⟩ := h
    have inner := codeWith_loads hs accounts operand ha
    rw [Expr.names]
    cases op with
    | not =>
      simp only [bind_eq_ok] at h
      obtain ⟨m, hm, h⟩ := h
      cases h
      exact inner.followed fun i hi => (useOperator_same hs hm i hi).1
    | neg | pos =>
      dsimp only at h
      split at h <;> cases h
      exact inner.followed (by simp [Instruction.slot?])
  | .call name nameSpan args span, _, h => by
    simp only [codeWith, bind_eq_ok] at h
    obtain ⟨sig, hsig, h⟩ := h
    split at h
    · cases h
    next same =>
    simp only [bind_eq_ok] at h
    obtain ⟨given, hg, h⟩ := h
    cases h
    have receiver : Loads s.locals.toList [] (if sig.takesReceiver then [.ldarg 0] else []) :=
      .of_none (by split <;> simp [Instruction.slot?])
    rw [Expr.names]
    refine (receiver.append (argsWith_loads hs accounts args (not_not.1 same) hg)).followed ?_
    simp [Instruction.slot?]
  | .cast operand target targetSpan span, _, h => by
    simp only [codeWith, bind_eq_ok, needValue_eq_ok] at h
    obtain ⟨a, ha, _, ⟨-, rfl⟩, type, -, h⟩ := h
    split at h
    · cases h
      rw [Expr.names]
      exact (codeWith_loads hs accounts operand ha).followed (by simp [Instruction.slot?])
    · cases h

theorem argsWith_loads (hs : s.registry.Installed s.builtins) {names : String → List String}
    (accounts : s.Accounts standIn names) {callee : String} : ∀ (args : List Expr)
    {params : List (String × TypeRef)} {code : List Instruction}, args.length = params.length →
    s.argsWith standIn callee args params = .ok code →
    Loads s.locals.toList ((Expr.namesOfAll args).flatMap names) code
  | [], _, code, _, h => by
    simp only [argsWith, Except.ok.injEq] at h
    exact h ▸ .of_none nofun
  | _ :: _, [], _, hl, _ => by cases hl
  | arg :: args, (param, type) :: params, _, hl, h => by
    simp only [argsWith_cons, bind_eq_ok, Except.ok.injEq] at h
    obtain ⟨here, hh, rest, hr, rfl⟩ := h
    have first : Loads s.locals.toList (arg.names.flatMap names) here := by
      obtain ⟨-, hh⟩ | ⟨-, a, ha, -, -, rfl⟩ := argCode_eq_ok.1 hh
      · exact addressArgument_loads accounts.1 hh
      · exact codeWith_loads hs accounts arg ha
    rw [Expr.namesOfAll, List.flatMap_append]
    exact first.append (argsWith_loads hs accounts args (Nat.succ.inj hl) hr)

end

/-- At each depth of nested defaults the names stand for what their code uses. -/
theorem codeInside_loads (hs : s.registry.Installed s.builtins) {n : Nat}
    {inlining : List String} {e : Expr} {c : Code} (h : s.codeInside n inlining e = .ok c) :
    Loads s.locals.toList (e.names.flatMap (s.readsInside n)) c.instructions := by
  induction n generalizing inlining e c with
  | zero =>
    refine codeWith_loads hs ⟨fun _ => readsInside_of_isLocal 0, fun name span c h => ?_⟩ e h
    refine nameCode_loads h (readsInside_of_isLocal 0) (fun new _ _ _ => ?_)
      fun _ f _ _ _ code hc => by cases hc
    simp [readsInside, new]
  | succ n ih =>
    rw [codeInside_succ] at h
    refine codeWith_loads hs ⟨fun _ => readsInside_of_isLocal _, fun name span c h => ?_⟩ e h
    refine nameCode_loads h (readsInside_of_isLocal _) (fun new f hf kind => ?_)
      fun new f hf hst hr code hc => ?_
    · have none : s.default? name = none := by
        have unknown : s.locals.find? name = none := by simpa [isLocal] using new
        rcases kind with hst | hr <;> simp [default?, *]
      simp [readsInside, new, none]
    · have unknown : s.locals.find? name = none := by simpa [isLocal] using new
      have default := default?_eq_some unknown hf hst hr
      obtain ⟨-, value, a, hv, ha, -, -, rfl⟩ := standsInside_eq_ok.1 hc
      simpa [readsInside, new, default, hv] using ih ha

/-- The code of an expression uses the slots of the locals that it reads, in order. -/
theorem code_loads (hs : s.registry.Installed s.builtins) {e : Expr} {c : Code}
    (h : s.code e = .ok c) : Loads s.locals.toList (s.reads e) c.instructions :=
  codeInside_loads hs h

end Scope
end ClassAsm
