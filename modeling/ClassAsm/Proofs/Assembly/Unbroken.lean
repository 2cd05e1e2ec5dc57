import ClassAsm.Assembly
import ClassAsm.Proofs.Method.Names
import ClassAsm.Proofs.Program.Emitted

/-! Lines stay lines. Nothing that goes into the assembly text has a newline in it: names are words,
numbers are digits with a few marks, and the newlines of strings are escaped. So no string of a
source can look like a declaration in the text. -/

namespace ClassAsm

/-- The text fits on one line. -/
def IsUnbroken (s : String) : Prop := '\n' ∉ s.toList

instance (s : String) : Decidable (IsUnbroken s) := inferInstanceAs (Decidable (_ ∉ _))

namespace IsUnbroken

variable {s t : String}

theorem append (hs : IsUnbroken s) (ht : IsUnbroken t) : IsUnbroken (s ++ t) := by
  rw [IsUnbroken, String.toList_append, List.mem_append, not_or]
  exact ⟨hs, ht⟩

theorem ofList {cs : List Char} (h : '\n' ∉ cs) : IsUnbroken (String.ofList cs) := by
  rwa [IsUnbroken, String.toList_ofList]

theorem of_isWord (h : IsWord s) : IsUnbroken s := h.notMem rfl

theorem toString_nat (n : Nat) : IsUnbroken (toString n) := of_isWord (isWord_toString n)

theorem toString_int (n : Int) : IsUnbroken (toString n) := by
  cases n with
  | ofNat n => exact toString_nat n
  | negSucc n => exact .append (by decide) (toString_nat (n + 1))

theorem ite {p : Prop} [Decidable p] (hs : IsUnbroken s) (ht : IsUnbroken t) :
    IsUnbroken (if p then s else t) := by
  split
  · exact hs
  · exact ht

theorem intercalate {sep : String} (hs : IsUnbroken sep) {l : List String}
    (hl : ∀ s ∈ l, IsUnbroken s) : IsUnbroken (sep.intercalate l) := by
  rw [IsUnbroken, String.toList_intercalate, List.intercalate]
  induction l with
  | nil => simp
  | cons s l ih =>
    obtain ⟨here, rest⟩ := List.forall_mem_cons.1 hl
    cases l with
    | nil => simpa [IsUnbroken] using here
    | cons s' l =>
      simp only [List.map_cons, List.intersperse_cons_cons, List.flatten_cons, List.mem_append,
        not_or]
      exact ⟨here, hs, ih rest⟩

theorem pushn (n : Nat) {c : Char} (hc : c ≠ '\n') : IsUnbroken ("".pushn c n) := by
  rw [IsUnbroken, String.pushn_eq_repeat_push]
  induction n with
  | zero => simp [Nat.repeat]
  | succ n ih => simpa [Nat.repeat, Ne.symm hc] using ih

theorem indent {n : Nat} (h : IsUnbroken s) : IsUnbroken (Assembly.indent n s) :=
  (pushn _ (by decide)).append h

theorem opened (h : IsUnbroken s) : IsUnbroken (Assembly.opened s) := h.append (by decide)

end IsUnbroken

open IsUnbroken

/-! Numbers and strings. -/

namespace FloatLayout

theorem isUnbroken_pointed {digits : String} (h : IsUnbroken digits) (n : Int) :
    IsUnbroken (operand.pointed digits n) := by
  have zeros (k : Nat) : IsUnbroken (zeros k) := pushn k (by decide)
  unfold pointed
  dsimp only
  split
  · exact .append (.append (by decide) (zeros _)) h
  split
  · have first : IsUnbroken (String.ofList (digits.toList.take n.toNat)) :=
      ofList fun hm => h (List.mem_of_mem_take hm)
    have more : IsUnbroken (String.ofList (digits.toList.drop n.toNat)) :=
      ofList fun hm => h (List.mem_of_mem_drop hm)
    exact .append (first.append (by decide)) more
  · exact .append (h.append (zeros _)) (by decide)

theorem isUnbroken_withExponent {digits : String} (h : IsUnbroken digits) (e : Int) :
    IsUnbroken (operand.withExponent digits e) := by
  have first : IsUnbroken (String.ofList (digits.toList.take 1)) :=
    ofList fun hm => h (List.mem_of_mem_take hm)
  have more : IsUnbroken (String.ofList (digits.toList.drop 1)) :=
    ofList fun hm => h (List.mem_of_mem_drop hm)
  have fraction : IsUnbroken (if (String.ofList (digits.toList.drop 1)).isEmpty then
      (if operand.pointBeforeExponent then ".0" else "")
      else "." ++ String.ofList (digits.toList.drop 1)) :=
    .ite (by decide) (.append (by decide) more)
  have mark : IsUnbroken operand.exponentMark := by decide
  exact first.append fraction |>.append mark |>.append (toString_int e)

theorem isUnbroken_render (x : Binary64) : IsUnbroken (operand.render x) := by
  have body : IsUnbroken (operand.magnitude x.magnitude) := by
    cases x.magnitude with
    | finite v =>
      refine .ite (by decide) ?_
      rw [decimal]
      exact .ite (isUnbroken_pointed (toString_nat _) _) (isUnbroken_withExponent (toString_nat _) _)
    | infinite | notANumber => decide
  exact .ite (.append (by decide) body) body

end FloatLayout

theorem Text.isUnbroken_escape (s : String) : IsUnbroken (escape s) := by
  refine ofList fun hm => ?_
  obtain ⟨c, -, hc⟩ := List.mem_flatMap.1 hm
  have digit (n : Nat) : octalDigit n ≠ '\n' := by
    have bound : n % 8 < 8 := Nat.mod_lt _ (by decide)
    unfold octalDigit
    interval_cases n % 8 <;> decide
  unfold escapeChar at hc
  split_ifs at hc with _ _ h
  · simp at hc
  · simp at hc
  · simp at hc
  · simp [Ne.symm (digit _)] at hc
  · exact h (List.mem_singleton.1 hc).symm

/-! Instructions. -/

namespace Instruction

/-- The members and segments that an instruction names. -/
def names : Instruction → List String
  | ldsfld f | ldfld f | stsfld f | stfld f => [f]
  | call target _ _ => [target]
  | br label | brtrue label | brfalse label => [label]
  | _ => []

theorem isUnbroken_slotText {mnemonic : String} (h : IsUnbroken mnemonic) (slot : Nat) :
    IsUnbroken (slotText mnemonic slot) := by
  have numbered {mark : String} (hm : IsUnbroken mark) :
      IsUnbroken (mnemonic ++ mark ++ toString slot) := (h.append hm).append (toString_nat slot)
  exact .ite (numbered (by decide)) (.ite (numbered (by decide)) (numbered (by decide)))

theorem isUnbroken_smallConstant (v : Int) : IsUnbroken (smallConstant v) := by
  have written {mnemonic : String} (hm : IsUnbroken mnemonic) :
      IsUnbroken (mnemonic ++ toString v) := hm.append (toString_int v)
  exact .ite (by decide) (.ite (written (by decide)) (.ite (written (by decide))
    (written (by decide))))

theorem isUnbroken_text {i : Instruction} (h : ∀ n ∈ i.names, IsUnbroken n) :
    IsUnbroken i.text := by
  cases i with
  | ldcI4 v => exact isUnbroken_smallConstant _
  | ldcI8 v => exact .append (by decide) (toString_int _)
  | ldcR4 v => exact .append (by decide) (FloatLayout.isUnbroken_render _)
  | ldcR8 v => exact .append (by decide) (FloatLayout.isUnbroken_render _)
  | ldstr s => exact .append (.append (by decide) (Text.isUnbroken_escape s)) (by decide)
  | ldloc n | stloc n | ldarg n => exact isUnbroken_slotText (by decide) n
  | ldloca n => exact .ite (.append (by decide) (toString_nat n)) (.append (by decide) (toString_nat n))
  | ldind k | stind k =>
    refine .append (by decide) ?_
    rcases k with k | _
    · cases k <;> decide
    · decide
  | conv k => cases k <;> decide
  | arith op => cases op <;> decide
  | pop | neg | callBaseCtor => decide
  | ret hasValue => exact (by decide : IsUnbroken "ret")
  | ldsfld n | ldfld n | stsfld n | stfld n | call n _ _ | br n | brtrue n | brfalse n =>
    exact .append (by decide) (h n List.mem_cons_self)

end Instruction

/-! Lines of methods. -/

/-- Methods are named by words, and initializers by words behind a dot. -/
def IsMethodName (s : String) : Prop :=
  IsWord s ∨ ∃ isStatic, s = Outline.constructorName isStatic

theorem IsMethodName.notMem {s : String} (h : IsMethodName s) {c : Char}
    (hc : Piece.isWordPart c = false) (hd : c ≠ '.') : c ∉ s.toList := by
  obtain word | ⟨isStatic, rfl⟩ := h
  · exact word.notMem hc
  · have words : ∀ name ∈ ["ctor", "cctor"], c ∉ name.toList := fun name hm =>
      IsWord.notMem ((by decide : ∀ name ∈ ["ctor", "cctor"], IsWord name) name hm) hc
    cases isStatic with
    | true => exact List.not_mem_cons_of_ne_of_not_mem hd (words "cctor" (by decide))
    | false => exact List.not_mem_cons_of_ne_of_not_mem hd (words "ctor" (by decide))

theorem IsMethodName.isUnbroken {s : String} (h : IsMethodName s) : IsUnbroken s :=
  h.notMem rfl (by decide)

namespace Registry

variable {r : Registry} (h : r.Writes)
include h

theorem isUnbroken_declaredType (t : TypeRef) : IsUnbroken (r.declaredType t) :=
  notMem_declaredType h t rfl (by decide)

theorem isUnbroken_plainType (t : TypeRef) : IsUnbroken (r.plainType t) := by
  have name : IsUnbroken (r.asmName t.cls) := notMem_asmName h t.cls rfl (by decide)
  exact .ite (name.append (by decide)) name

theorem isUnbroken_callTarget {s : Signature} (nspace : IsWord s.nspace) (owner : IsWord s.owner)
    (name : IsMethodName s.name) : IsUnbroken (r.callTarget s) := by
  have receiver : IsUnbroken (if s.takesReceiver then "instance " else "") :=
    .ite (by decide) (by decide)
  have types : IsUnbroken (", ".intercalate (s.params.map fun p => r.plainType p.2)) :=
    .intercalate (by decide) (List.forall_mem_map.2 fun p _ => isUnbroken_plainType h _)
  exact receiver.append (isUnbroken_declaredType h _) |>.append (by decide)
    |>.append (of_isWord nspace) |>.append (by decide) |>.append (of_isWord owner)
    |>.append (by decide) |>.append name.isUnbroken |>.append (by decide) |>.append types
    |>.append (by decide)

theorem isUnbroken_fieldTarget {owner : ClassId}
    (place : ∀ c, r.class? owner = some c → IsWord c.nspace ∧ IsWord c.name) {f : Field}
    (name : IsWord f.name) : IsUnbroken (r.fieldTarget owner f) := by
  have path : IsUnbroken ((r.class? owner).elim "" fun c => c.nspace ++ "." ++ c.name) := by
    cases hc : r.class? owner with
    | none => exact (by decide : IsUnbroken "")
    | some c =>
      obtain ⟨nspace, owner⟩ := place c hc
      have dot : IsUnbroken "." := by decide
      exact ((of_isWord nspace).append dot).append (of_isWord owner)
  exact (isUnbroken_declaredType h _).append (by decide) |>.append path |>.append (by decide)
    |>.append (of_isWord name)

theorem isUnbroken_methodHeader {s : Signature} (name : IsMethodName s.name)
    (params : ∀ p ∈ s.params, IsWord p.1) : IsUnbroken (r.methodHeader s) := by
  have blank : IsUnbroken " " := by decide
  have words : IsUnbroken (", ".intercalate
      (s.params.map fun p => r.declaredType p.2 ++ " " ++ p.1)) := by
    refine .intercalate (by decide) (List.forall_mem_map.2 fun p hp => ?_)
    exact ((isUnbroken_declaredType h _).append blank).append (of_isWord (params p hp))
  have access : IsUnbroken (if s.isPublic then "public" else "private") :=
    .ite (by decide) (by decide)
  have special : IsUnbroken (if s.isSpecial && s.name.toList.head? == some '.' then
      " hidebysig specialname rtspecialname" else "") := .ite (by decide) (by decide)
  have receiver : IsUnbroken (if s.takesReceiver then " instance" else " static") :=
    .ite (by decide) (by decide)
  have start : IsUnbroken ".method " := by decide
  exact start.append access |>.append special |>.append receiver |>.append blank
    |>.append (isUnbroken_declaredType h _) |>.append blank |>.append name.isUnbroken
    |>.append (by decide) |>.append words |>.append (by decide)

end Registry

/-- What a method names: itself as methods are named, all else by words, or in its code by texts on
one line. -/
structure Method.IsLegible (m : Method) : Prop where
  name : IsMethodName m.sig.name
  params : ∀ p ∈ m.sig.params, IsWord p.1
  locals : ∀ l ∈ m.locals, IsWord l.1
  segments : ∀ segments, m.body = .segments segments → ∀ s ∈ segments,
    IsWord s.name ∧ ∀ i ∈ s.code, ∀ n ∈ i.names, IsUnbroken n

structure Class.IsLegible (c : Class) : Prop where
  name : IsWord c.name
  fields : ∀ f ∈ c.fields, IsWord f.name
  methods : ∀ m ∈ c.methods, m.IsLegible

structure Registry.IsLegible (r : Registry) : Prop where
  writes : r.Writes
  nspaces : ∀ n ∈ r.namespaces, IsWord n.name
  classes : ∀ n ∈ r.namespaces, ∀ c ∈ r.classesOf n, c.IsLegible

namespace Assembly

theorem isUnbroken_access (isPublic : Bool) : IsUnbroken (access isPublic) :=
  .ite (by decide) (by decide)

variable {r : Registry} (h : r.Writes)
include h

theorem isUnbroken_fieldLine {f : Field} (hf : IsWord f.name) : IsUnbroken (fieldLine r f) := by
  have static : IsUnbroken (if f.isStatic then " static" else "") := .ite (by decide) (by decide)
  have start : IsUnbroken ".field " := by decide
  exact start.append (isUnbroken_access _) |>.append static |>.append (by decide)
    |>.append (Registry.isUnbroken_declaredType h _) |>.append (by decide) |>.append (of_isWord hf)

theorem isUnbroken_localLines {locals : List (String × TypeRef)} (hl : ∀ l ∈ locals, IsWord l.1) :
    ∀ l ∈ localLines r locals, IsUnbroken l := by
  unfold localLines
  split
  · exact List.forall_mem_nil _
  dsimp only
  intro l hm
  simp only [List.mem_append, List.mem_singleton, List.mem_map] at hm
  obtain (rfl | ⟨⟨⟨name, type⟩, i⟩, hx, rfl⟩) | rfl := hm
  · exact .indent (by decide)
  · have word := hl _ (List.fst_mem_of_mem_zipIdx hx)
    have comma : IsUnbroken (if i + 1 < locals.length then "," else "") :=
      .ite (by decide) (by decide)
    have slot : IsUnbroken s!"[{i}] " := .append (.append (by decide) (toString_nat i)) (by decide)
    exact .indent (slot.append (Registry.isUnbroken_plainType h _) |>.append (by decide)
      |>.append (of_isWord word) |>.append comma)
  · exact .indent (by decide)

theorem isUnbroken_methodLines {m : Method} (hm : m.IsLegible) :
    ∀ l ∈ methodLines r m, IsUnbroken l := by
  unfold methodLines
  split
  · next segments hb =>
    intro l hl
    simp only [List.mem_append, List.mem_singleton] at hl
    obtain ((((rfl | hl) | rfl) | hl) | hl) | rfl := hl
    · exact .indent (.opened (Registry.isUnbroken_methodHeader h hm.name hm.params))
    · split at hl
      · rw [List.mem_singleton.1 hl]
        exact .indent (by decide)
      · cases hl
    · exact .indent (.append (by decide) (toString_nat _))
    · exact isUnbroken_localLines h hm.locals l hl
    · obtain ⟨s, hs, hl⟩ := List.mem_flatMap.1 hl
      obtain ⟨name, code⟩ := hm.segments segments hb s hs
      rcases List.mem_cons.1 hl with rfl | hl
      · exact .indent ((of_isWord name).append (by decide))
      · obtain ⟨i, hi, rfl⟩ := List.mem_map.1 hl
        exact .indent (Instruction.isUnbroken_text (code i hi))
    · exact .indent (by decide)
  · exact List.forall_mem_nil _

theorem isUnbroken_classLines {c : Class} (hc : c.IsLegible) :
    ∀ l ∈ classLines r c, IsUnbroken l := by
  intro l hl
  simp only [classLines, List.mem_append, List.mem_singleton, List.mem_map] at hl
  obtain ((rfl | ⟨f, hf, rfl⟩) | hl) | rfl := hl
  · have start : IsUnbroken ".class " := by decide
    exact .indent (.opened (start.append (isUnbroken_access _) |>.append (by decide)
      |>.append (of_isWord hc.name) |>.append (by decide)))
  · exact .indent (isUnbroken_fieldLine h (hc.fields f hf))
  · obtain ⟨m, hm, hl⟩ := List.mem_flatMap.1 hl
    exact isUnbroken_methodLines h (hc.methods m hm) l hl
  · exact .indent (by decide)

omit h in
/-- No line behind the head of the text is broken. -/
theorem isUnbroken_namespaceLines (h : r.IsLegible) {n : Namespace} (hn : n ∈ r.namespaces) :
    ∀ l ∈ namespaceLines r n, IsUnbroken l := by
  unfold namespaceLines
  split
  · exact List.forall_mem_nil _
  intro l hl
  simp only [List.mem_append, List.mem_cons, List.not_mem_nil, or_false] at hl
  obtain ((rfl | rfl) | hl) | rfl := hl
  · decide
  · exact .opened (.append (by decide) (of_isWord (h.nspaces n hn)))
  · obtain ⟨c, hc, hl⟩ := List.mem_flatMap.1 hl
    exact isUnbroken_classLines h.writes (h.classes n hn c hc) l hl
  · decide

end Assembly
end ClassAsm
