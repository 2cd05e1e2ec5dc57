import Std.Data.String.ToInt
import ClassAsm.Proofs.Assembly.Contents

/-! The line of an instruction, read back. The first word says which instruction it is and how its
operand is written; a word alone is an instruction without operand or one with its operand in the
word. Short and long forms of one instruction are read alike. Strings are written with three kinds
of escapes, which are told apart by the character behind the backslash. -/

namespace ClassAsm

/-! Strings. -/

namespace Text

def octalValue? (c : Char) : Option Nat :=
  if '0' ≤ c ∧ c ≤ '7' then some (c.toNat - '0'.toNat) else none

/-- What the next character of an operand belongs to. -/
inductive Pending where
  | nothing
  /-- A backslash stands before. -/
  | escape
  /-- The value of the digits so far, and how many follow. -/
  | octal (value more : Nat)

/-- Reads one character of an operand; what is read so far stands in front. -/
def unescapeStep? : List Char × Pending → Char → Option (List Char × Pending)
  | (done, .nothing), c =>
    if c = '"' then none else if c = '\\' then some (done, .escape) else some (done ++ [c], .nothing)
  | (done, .escape), c =>
    if c = '\\' ∨ c = '"' then some (done ++ [c], .nothing)
    else if c = 'n' then some (done ++ ['\n'], .nothing)
    else (octalValue? c).map fun value => (done, .octal value 1)
  | (done, .octal value 0), c =>
    (octalValue? c).map fun last => (done ++ [Char.ofNat (8 * value + last)], .nothing)
  | (done, .octal value (more + 1)), c =>
    (octalValue? c).map fun next => (done, .octal (8 * value + next) more)

def unescape? (cs : List Char) : Option (List Char) :=
  match cs.foldlM unescapeStep? ([], .nothing) with
  | some (done, .nothing) => some done
  | _ => none

theorem octalDigit_cases (n : Nat) : octalValue? (octalDigit n) = some (n % 8) ∧
    octalDigit n ∉ ['\\', '"', 'n'] := by
  have bound : n % 8 < 8 := Nat.mod_lt _ (by decide)
  unfold octalDigit
  interval_cases n % 8 <;> decide

theorem foldlM_escapeChar (done : List Char) (c : Char) :
    (escapeChar c).foldlM unescapeStep? (done, .nothing) = some (done ++ [c], .nothing) := by
  unfold escapeChar
  split_ifs with backslash quote newline control
  · rw [backslash]
    rfl
  · rw [quote]
    rfl
  · rw [newline]
    rfl
  · obtain ⟨first, mark⟩ := octalDigit_cases (c.toNat / 64)
    have second := (octalDigit_cases (c.toNat / 8)).1
    have third := (octalDigit_cases c.toNat).1
    simp only [List.mem_cons, List.not_mem_nil, or_false, not_or] at mark
    -- three digits are enough, since no control character is beyond them
    have small : c.toNat < 512 := by
      simp only [isControl, Bool.or_eq_true, Bool.and_eq_true, decide_eq_true_eq] at control
      omega
    have whole : 8 * (8 * (c.toNat / 64 % 8) + c.toNat / 8 % 8) + c.toNat % 8 = c.toNat := by
      omega
    simp [unescapeStep?, mark, first, second, third, whole]
  · simp [unescapeStep?, backslash, quote]

theorem unescape?_escape (s : String) : unescape? (escape s).toList = some s.toList := by
  have run (cs done : List Char) : (cs.flatMap escapeChar).foldlM unescapeStep? (done, .nothing) =
      some (done ++ cs, .nothing) := by
    induction cs generalizing done with
    | nil => simp
    | cons c cs ih =>
      rw [List.flatMap_cons, List.foldlM_append, foldlM_escapeChar, Option.bind_eq_bind,
        Option.bind_some, ih, List.append_assoc, List.singleton_append]
  rw [unescape?, escape, String.toList_ofList, run, List.nil_append]

/-- One of each kind of escape. -/
example : unescape? "a\\n\\\"\\205\\\\".toList = some ['a', '\n', '"', '\x85', '\\'] := by decide

end Text

namespace Assembly

/-! Operands. -/

inductive Operand where
  | none
  | number (value : Int)
  | slot (n : Nat)
  /-- A floating-point constant, as it is written. -/
  | decimal (text : String)
  | string (content : String)
  /-- A segment, or the full reference to a member. -/
  | target (name : String)
deriving DecidableEq, Repr

/-- An instruction as the text shows it. -/
structure Listed where
  mnemonic : String
  operand : Operand
deriving DecidableEq, Repr

/-- What is seen of an instruction: the mnemonic of its long form, and its operand. -/
def Listed.ofInstruction : Instruction → Listed
  | .ldcI4 v => ⟨"ldc.i4", .number v.toInt⟩
  | .ldcI8 v => ⟨"ldc.i8", .number v.toInt⟩
  | .ldcR4 v => ⟨"ldc.r4", .decimal (FloatLayout.operand.render v.widen)⟩
  | .ldcR8 v => ⟨"ldc.r8", .decimal (FloatLayout.operand.render v)⟩
  | .ldstr s => ⟨"ldstr", .string s⟩
  | .ldloc n => ⟨"ldloc", .slot n⟩
  | .stloc n => ⟨"stloc", .slot n⟩
  | .ldloca n => ⟨"ldloca", .slot n⟩
  | .ldarg n => ⟨"ldarg", .slot n⟩
  | .ldsfld f => ⟨"ldsfld", .target f⟩
  | .ldfld f => ⟨"ldfld", .target f⟩
  | .stsfld f => ⟨"stsfld", .target f⟩
  | .stfld f => ⟨"stfld", .target f⟩
  | .ldind k => ⟨"ldind." ++ k.suffix, .none⟩
  | .stind k => ⟨"stind." ++ k.suffix, .none⟩
  | .pop => ⟨"pop", .none⟩
  | .arith op => ⟨op.mnemonic, .none⟩
  | .neg => ⟨"neg", .none⟩
  | .conv k => ⟨"conv." ++ k.suffix, .none⟩
  | .call target _ _ => ⟨"call", .target target⟩
  | .callBaseCtor => ⟨"call", .target "instance void [mscorlib]System.Object::.ctor()"⟩
  | .br label => ⟨"br", .target label⟩
  | .brtrue label => ⟨"brtrue", .target label⟩
  | .brfalse label => ⟨"brfalse", .target label⟩
  | .ret _ => ⟨"ret", .none⟩

def operandless : List String :=
  ["ldind", "stind", "conv"].flatMap (fun word =>
    ["i4", "i8", "r4", "r8", "ref"].map fun suffix => word ++ "." ++ suffix) ++
  ["add", "sub", "mul", "div", "rem", "xor", "and", "or", "ceq", "cgt", "cgt.un", "clt", "neg", "pop",
    "ret"]

def bare : List (String × Listed) :=
  ("ldc.i4.m1", ⟨"ldc.i4", .number (-1)⟩) ::
    (List.range 9).map (fun n => (s!"ldc.i4.{n}", ⟨"ldc.i4", .number n⟩)) ++
    ["ldloc", "stloc", "ldarg"].flatMap (fun word =>
      (List.range 4).map fun n => (s!"{word}.{n}", ⟨word, .slot n⟩)) ++
    operandless.map fun word => (word, ⟨word, .none⟩)

/-- How an operand is written. -/
inductive Form where
  | number
  | slot
  | decimal
  | string
  | target
deriving DecidableEq

/-- Words that an operand follows, with the mnemonic of the long form. -/
def led : List (String × String × Form) :=
  [("ldc.i4", "ldc.i4", .number), ("ldc.i4.s", "ldc.i4", .number), ("ldc.i8", "ldc.i8", .number),
    ("ldc.r4", "ldc.r4", .decimal), ("ldc.r8", "ldc.r8", .decimal), ("ldstr", "ldstr", .string)] ++
    ["ldloc", "stloc", "ldloca", "ldarg"].flatMap (fun word =>
      [(word, word, .slot), (word ++ ".s", word, .slot)]) ++
    ["ldsfld", "ldfld", "stsfld", "stfld", "call", "br", "brtrue", "brfalse"].map fun word =>
      (word, word, .target)

def unquote? (cs : List Char) : Option (List Char) := do
  let cs ← cs.dropPrefix? ['"']
  if cs.getLast? = some '"' then some cs.dropLast else none

def Form.read? (cs : List Char) : Form → Option Operand
  | number => (String.ofList cs).toInt?.map .number
  | slot => (String.ofList cs).toNat?.map .slot
  | decimal => some (.decimal (String.ofList cs))
  | string => do
    let cs ← Text.unescape? (← unquote? cs)
    pure (.string (String.ofList cs))
  | target => some (.target (String.ofList cs))

def Listed.ofChars? (cs : List Char) : Option Listed :=
  let word := firstWord cs
  match cs.dropWhile (· ≠ ' ') with
  | [] => bare.lookup word
  | _ :: operand => do
    let (mnemonic, form) ← led.lookup word
    pure ⟨mnemonic, ← form.read? operand⟩

/-! What is written is read. -/

namespace Listed

theorem ofChars?_bare {word : String} {l : Listed} (h : ' ' ∉ word.toList)
    (known : bare.lookup word = some l) : ofChars? word.toList = some l := by
  have clean : ∀ c ∈ word.toList, decide (c ≠ ' ') = true := fun c hc => by
    simpa using fun he : c = ' ' => h (he ▸ hc)
  rw [ofChars?, List.dropWhile_eq_nil_iff.2 clean, firstWord, List.takeWhile_eq_self_iff.2 clean,
    String.ofList_toList]
  exact known

theorem ofChars?_led (word : String) {mnemonic operand : String} {form : Form} {o : Operand}
    (h : ' ' ∉ word.toList) (known : led.lookup word = some (mnemonic, form))
    (read : form.read? operand.toList = some o) :
    ofChars? (word ++ " " ++ operand).toList = some ⟨mnemonic, o⟩ := by
  have line : (word ++ " " ++ operand).toList = word.toList ++ ' ' :: operand.toList := by simp
  obtain ⟨first, rest⟩ := split_mark h operand.toList
  simp only [ofChars?, firstWord, line, first, rest, String.ofList_toList, known, read,
    Option.bind_eq_bind, Option.bind_some, Option.pure_def]

theorem read?_slot (n : Nat) : Form.slot.read? (toString n).toList = some (.slot n) := by
  rw [Form.read?, String.ofList_toList, show toString n = n.repr from rfl, Nat.toNat?_repr]
  rfl

theorem read?_number (v : Int) : Form.number.read? (toString v).toList = some (.number v) := by
  rw [Form.read?, String.ofList_toList, show toString v = v.repr from rfl, Int.toInt?_repr]
  rfl

theorem read?_decimal (s : String) : Form.decimal.read? s.toList = some (.decimal s) := by
  rw [Form.read?, String.ofList_toList]

theorem read?_target (s : String) : Form.target.read? s.toList = some (.target s) := by
  rw [Form.read?, String.ofList_toList]

theorem read?_string (s : String) :
    Form.string.read? ("\"" ++ Text.escape s ++ "\"").toList = some (.string s) := by
  have quoted : ("\"" ++ Text.escape s ++ "\"").toList =
      ['"'] ++ ((Text.escape s).toList ++ ['"']) := by simp
  rw [Form.read?, unquote?, quoted, dropPrefix?_append]
  simp [Text.unescape?_escape]

theorem ofChars?_slotText {mnemonic : String} (h : mnemonic ∈ ["ldloc", "stloc", "ldarg"])
    (n : Nat) : ofChars? (Instruction.slotText mnemonic n).toList = some ⟨mnemonic, .slot n⟩ := by
  have low : ∀ m ∈ ["ldloc", "stloc", "ldarg"], ∀ n < 4, ' ' ∉ s!"{m}.{n}".toList ∧
      bare.lookup s!"{m}.{n}" = some ⟨m, .slot n⟩ := by decide
  have words : ∀ m ∈ ["ldloc", "stloc", "ldarg"], (' ' ∉ m.toList ∧ ' ' ∉ (m ++ ".s").toList) ∧
      led.lookup m = some (m, .slot) ∧ led.lookup (m ++ ".s") = some (m, .slot) := by decide
  obtain ⟨⟨clean, clean'⟩, known, known'⟩ := words mnemonic h
  unfold Instruction.slotText
  split_ifs with inWord inByte
  · obtain ⟨clean, known⟩ := low mnemonic h n (by omega)
    exact ofChars?_bare clean known
  · have line : s!"{mnemonic}.s {n}" = mnemonic ++ ".s" ++ " " ++ toString n := by
      rw [← String.toList_inj]
      simp [toString]
    exact line ▸ ofChars?_led _ clean' known' (read?_slot n)
  · exact ofChars?_led _ clean known (read?_slot n)

theorem ofChars?_smallConstant (v : Int) :
    ofChars? (Instruction.smallConstant v).toList = some ⟨"ldc.i4", .number v⟩ := by
  have low : ∀ n < 9, ' ' ∉ s!"ldc.i4.{n}".toList ∧
      bare.lookup s!"ldc.i4.{n}" = some ⟨"ldc.i4", .number (n : Nat)⟩ := by decide
  have led (word : String) (clean : ' ' ∉ word.toList)
      (known : led.lookup word = some ("ldc.i4", .number)) :
      ofChars? (word ++ " " ++ toString v).toList = some ⟨"ldc.i4", .number v⟩ :=
    ofChars?_led _ clean known (read?_number v)
  unfold Instruction.smallConstant
  split_ifs with minusOne inWord inByte
  · rw [minusOne]
    exact ofChars?_bare (by decide) (by decide)
  · obtain ⟨n, rfl⟩ := Int.eq_ofNat_of_zero_le inWord.1
    obtain ⟨clean, known⟩ := low n (by omega)
    exact ofChars?_bare clean known
  · exact led "ldc.i4.s" (by decide) (by decide)
  · exact led "ldc.i4" (by decide) (by decide)

theorem ofChars?_operandless (word : String) (h : word ∈ operandless) :
    ofChars? word.toList = some ⟨word, .none⟩ := by
  have all : ∀ word ∈ operandless, ' ' ∉ word.toList ∧ bare.lookup word = some ⟨word, .none⟩ := by
    decide
  obtain ⟨clean, known⟩ := all word h
  exact ofChars?_bare clean known

/-- The line of an instruction shows its mnemonic and its operand, whatever form it is written in. -/
theorem ofChars?_text (i : Instruction) : ofChars? i.text.toList = some (ofInstruction i) := by
  have target (word s : String) (clean : ' ' ∉ word.toList)
      (known : led.lookup word = some (word, .target)) :
      ofChars? (word ++ " " ++ s).toList = some ⟨word, .target s⟩ :=
    ofChars?_led _ clean known (read?_target s)
  cases i with
  | ldcI4 v => exact ofChars?_smallConstant _
  | ldcI8 v => exact ofChars?_led "ldc.i8" (by decide) (by decide) (read?_number _)
  | ldcR4 v => exact ofChars?_led "ldc.r4" (by decide) (by decide) (read?_decimal _)
  | ldcR8 v => exact ofChars?_led "ldc.r8" (by decide) (by decide) (read?_decimal _)
  | ldstr s =>
    have line : Instruction.text (.ldstr s) = "ldstr" ++ " " ++ ("\"" ++ Text.escape s ++ "\"") := by
      rw [← String.toList_inj]
      simp [Instruction.text]
    exact line ▸ ofChars?_led _ (by decide) (by decide) (read?_string s)
  | ldloc n | stloc n | ldarg n => exact ofChars?_slotText (by decide) n
  | ldloca n =>
    rw [Instruction.text]
    split_ifs
    · exact ofChars?_led "ldloca.s" (by decide) (by decide) (read?_slot n)
    · exact ofChars?_led "ldloca" (by decide) (by decide) (read?_slot n)
  | ldind k | stind k =>
    obtain k | _ := k
    · cases k <;> exact ofChars?_operandless _ (by decide)
    · exact ofChars?_operandless _ (by decide)
  | conv k => cases k <;> exact ofChars?_operandless _ (by decide)
  | arith op => cases op <;> exact ofChars?_operandless _ (by decide)
  | pop | neg => exact ofChars?_operandless _ (by decide)
  | ret hasValue => exact ofChars?_operandless "ret" (by decide)
  | ldsfld f => exact target "ldsfld" f (by decide) (by decide)
  | ldfld f => exact target "ldfld" f (by decide) (by decide)
  | stsfld f => exact target "stsfld" f (by decide) (by decide)
  | stfld f => exact target "stfld" f (by decide) (by decide)
  | call f => exact target "call" f (by decide) (by decide)
  | callBaseCtor =>
    have line : Instruction.text .callBaseCtor =
        "call" ++ " " ++ "instance void [mscorlib]System.Object::.ctor()" := by decide
    exact line ▸ target _ _ (by decide) (by decide)
  | br l => exact target "br" l (by decide) (by decide)
  | brtrue l => exact target "brtrue" l (by decide) (by decide)
  | brfalse l => exact target "brfalse" l (by decide) (by decide)

end Listed

end Assembly
end ClassAsm
