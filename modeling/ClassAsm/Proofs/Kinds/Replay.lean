import ClassAsm.Proofs.Registry.Installed

/-! Code replayed over kinds of operands. A constant has the kind of its number, and what is loaded
or called has the kind of its declared type. Instructions that combine two operands need them to be
of one kind, and what is stored, passed or returned needs the kind of its declared type; an
instruction that finds anything else ends the replay. -/

namespace ClassAsm

/-- What an operand is on the stack. Both sizes of floats are one kind. -/
inductive StackKind where
  | int32 | int64 | float | object
deriving DecidableEq, Repr

/-- What a conversion leaves. -/
def NumberKind.onStack : NumberKind → StackKind
  | i4 => .int32
  | i8 => .int64
  | r4 | r8 => .float

/-- Comparisons leave zero or one. -/
def Arith.compares : Arith → Bool
  | ceq | cgt | cgtUn | clt => true
  | add | sub | mul | div | rem | xor | and | or => false

theorem TypeRef.eq_of_isAddress {t : TypeRef} (h : t.isAddress = false) : t = { cls := t.cls } := by
  obtain ⟨cls, byRef, out⟩ := t
  simp only [isAddress, Bool.or_eq_false_iff] at h
  rw [h.1, h.2]

namespace Builtins

/-- The kind of the values of a type: numbers and strings have one, but not addresses, and not what
is of class `void` or of a declared class. -/
def stackKind? (b : Builtins) (t : TypeRef) : Option StackKind :=
  if t.isAddress then none
  else if t.cls = b.string then some .object
  else (b.numeric? t.cls).map (·.kind.onStack)

variable {b : Builtins} {t : TypeRef} {k : StackKind}

theorem stackKind?_numeric (h : b = ⟨0, 1, 2, 3, 4, 5⟩) {id : ClassId} {n : Numeric}
    (hn : b.numeric? id = some n) : b.stackKind? { cls := id } = some n.kind.onStack := by
  have other : id ≠ b.string := by
    rintro rfl
    subst h
    cases hn
  simp [stackKind?, TypeRef.isAddress, other, hn]

theorem stackKind?_string (b : Builtins) :
    b.stackKind? { cls := b.string } = some .object := by
  simp [stackKind?, TypeRef.isAddress]

/-- A type that has a kind is a numeric class or that of strings, by value. -/
theorem stackKind?_eq_some (h : b.stackKind? t = some k) : t = { cls := t.cls } ∧
    (t.cls = b.string ∨ ∃ n, b.numeric? t.cls = some n ∧ n.kind.onStack = k) := by
  unfold stackKind? at h
  split at h
  · cases h
  next value =>
  have plain := TypeRef.eq_of_isAddress ((Bool.not_eq_true _).mp value)
  split at h
  · next string => exact ⟨plain, .inl string⟩
  · exact ⟨plain, .inr (Option.map_eq_some_iff.1 h)⟩

theorem isAddress_of_stackKind? (h : b.stackKind? t = some k) : t.isAddress = false := by
  rw [(stackKind?_eq_some h).1]
  rfl

theorem stackKind?_void (h : b = ⟨0, 1, 2, 3, 4, 5⟩) (hv : t.cls = b.void) :
    b.stackKind? t = none := by
  cases hk : b.stackKind? t with
  | none => rfl
  | some k =>
    obtain ⟨-, hs | ⟨n, hn, -⟩⟩ := stackKind?_eq_some hk
    · rw [hv, h] at hs
      cases hs
    · rw [hv, numeric?_void h] at hn
      cases hn

end Builtins

/-- The kinds of what the code of a method refers to. -/
structure Kinding where
  arg? : Nat → Option StackKind
  local? : Nat → Option StackKind
  /-- Fields by their references, static or not. -/
  field? : Bool → String → Option StackKind
  /-- What a call takes, the last operand first, and what it leaves. -/
  call? : String → Option (List StackKind × List StackKind)
  /-- What a return takes, if it takes anything. -/
  result? : Option StackKind

namespace Kinding

/-- The stack after an instruction that finds what it needs. Addresses are not followed. -/
def step (κ : Kinding) : Instruction → List StackKind → Option (List StackKind)
  | .ldcI4 _, st => some (.int32 :: st)
  | .ldcI8 _, st => some (.int64 :: st)
  | .ldcR4 _, st | .ldcR8 _, st => some (.float :: st)
  | .ldstr _, st => some (.object :: st)
  | .ldloc slot, st => (κ.local? slot).map (· :: st)
  | .ldarg slot, st => (κ.arg? slot).map (· :: st)
  | .ldsfld target, st => (κ.field? true target).map (· :: st)
  | .ldfld target, .object :: st => (κ.field? false target).map (· :: st)
  | .stloc slot, k :: st => if κ.local? slot = some k then some st else none
  | .stsfld target, k :: st => if κ.field? true target = some k then some st else none
  | .stfld target, k :: .object :: st => if κ.field? false target = some k then some st else none
  | .pop, _ :: st => some st
  | .arith op, k :: k' :: st =>
    if k = k' then some ((if op.compares then .int32 else k) :: st) else none
  | .neg, k :: st => some (k :: st)
  | .conv kind, _ :: st => some (kind.onStack :: st)
  | .call target _ _, st => do
    let (takes, leaves) ← κ.call? target
    if takes <+: st then some (leaves ++ st.drop takes.length) else none
  | .callBaseCtor, .object :: st => some st
  | .br _, st => some st
  | .brtrue _, _ :: st | .brfalse _, _ :: st => some st
  | .ret true, k :: st => if κ.result? = some k then some st else none
  | .ret false, st => if κ.result? = none then some st else none
  | _, _ => none

def replay (κ : Kinding) : List Instruction → List StackKind → Option (List StackKind)
  | [], st => some st
  | i :: code, st => (κ.step i st).bind (κ.replay code)

/-- On top of any stack, the code takes such operands and leaves others. -/
def Turns (κ : Kinding) (code : List Instruction) (takes leaves : List StackKind) : Prop :=
  ∀ st, κ.replay code (takes ++ st) = some (leaves ++ st)

variable {κ : Kinding} {a b : List Instruction} {ks ks' ks'' : List StackKind}

theorem replay_append (a b : List Instruction) (st : List StackKind) :
    κ.replay (a ++ b) st = (κ.replay a st).bind (κ.replay b) := by
  induction a generalizing st with
  | nil => rfl
  | cons i a ih =>
    rw [List.cons_append, replay, replay]
    cases κ.step i st with
    | none => rfl
    | some st' => exact ih st'

namespace Turns

theorem nil (κ : Kinding) (ks : List StackKind) : κ.Turns [] ks ks := fun _ => rfl

theorem append (ha : κ.Turns a ks ks') (hb : κ.Turns b ks' ks'') : κ.Turns (a ++ b) ks ks'' :=
  fun st => by rw [replay_append, ha st, Option.bind_some, hb st]

/-- What lies below stays there. -/
theorem above (h : κ.Turns a ks ks') (below : List StackKind) :
    κ.Turns a (ks ++ below) (ks' ++ below) :=
  fun st => by rw [List.append_assoc, h, List.append_assoc]

/-- More code on top of operands that were left before. -/
theorem on (hb : κ.Turns b [] ks') (ha : κ.Turns a [] ks) : κ.Turns (a ++ b) [] (ks' ++ ks) :=
  ha.append (hb.above ks)

theorem one {i : Instruction} (h : ∀ st, κ.step i (ks ++ st) = some (ks' ++ st)) :
    κ.Turns [i] ks ks' :=
  fun st => by rw [replay, h]; rfl

theorem ldloc {slot : Nat} {k : StackKind} (h : κ.local? slot = some k) :
    κ.Turns [.ldloc slot] [] [k] := one fun st => congrArg (Option.map (· :: st)) h

theorem stloc {slot : Nat} {k : StackKind} (h : κ.local? slot = some k) :
    κ.Turns [.stloc slot] [k] [] := one fun _ => if_pos h

theorem ldarg {slot : Nat} {k : StackKind} (h : κ.arg? slot = some k) :
    κ.Turns [.ldarg slot] [] [k] := one fun st => congrArg (Option.map (· :: st)) h

theorem ldsfld {target : String} {k : StackKind} (h : κ.field? true target = some k) :
    κ.Turns [.ldsfld target] [] [k] := one fun st => congrArg (Option.map (· :: st)) h

theorem ldfld {target : String} {k : StackKind} (h : κ.field? false target = some k) :
    κ.Turns [.ldfld target] [.object] [k] := one fun st => congrArg (Option.map (· :: st)) h

theorem stsfld {target : String} {k : StackKind} (h : κ.field? true target = some k) :
    κ.Turns [.stsfld target] [k] [] := one fun _ => if_pos h

theorem stfld {target : String} {k : StackKind} (h : κ.field? false target = some k) :
    κ.Turns [.stfld target] [k, .object] [] := one fun _ => if_pos h

theorem pop (κ : Kinding) (k : StackKind) : κ.Turns [.pop] [k] [] := one fun _ => rfl

theorem neg (κ : Kinding) (k : StackKind) : κ.Turns [.neg] [k] [k] := one fun _ => rfl

theorem conv (κ : Kinding) (n : NumberKind) (k : StackKind) :
    κ.Turns [.conv n] [k] [n.onStack] := one fun _ => rfl

theorem call {target : String} (h : κ.call? target = some (ks, ks')) (pops pushes : Nat) :
    κ.Turns [.call target pops pushes] ks ks' := by
  refine one fun st => ?_
  have applied : κ.step (.call target pops pushes) (ks ++ st) =
      if ks <+: ks ++ st then some (ks' ++ (ks ++ st).drop ks.length) else none :=
    congrArg (Option.bind · _) h
  rw [applied, if_pos (List.prefix_append ks st), List.drop_left]

theorem callBaseCtor (κ : Kinding) : κ.Turns [.callBaseCtor] [.object] [] := one fun _ => rfl

theorem retValue {k : StackKind} (h : κ.result? = some k) : κ.Turns [.ret true] [k] [] :=
  one fun _ => if_pos h

theorem retVoid (h : κ.result? = none) : κ.Turns [.ret false] [] [] := one fun _ => if_pos h

theorem arith (κ : Kinding) (op : Arith) (k : StackKind) :
    κ.Turns [.arith op] [k, k] [if op.compares then .int32 else k] := one fun _ => if_pos rfl

end Turns
end Kinding
end ClassAsm
