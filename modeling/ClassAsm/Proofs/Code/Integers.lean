import ClassAsm.Proofs.Assembly.Operands
import ClassAsm.Proofs.Code.Defaults
import ClassAsm.Proofs.Code.Operands
import ClassAsm.Proofs.Machine.Meaning
import ClassAsm.Proofs.Source.Slices

/-! Integers from the source to the assembly text. Digits that write a number below 2^63 are read as
that number, whatever zeros stand in front. It is compiled to one constant of 32 bits, or of 64 if
it does not fit them, and the line of this constant says the number again. A minus sign is an
operator, which comes after the number has got its type: the least number of each width is therefore
written with the magnitude of the next width, and for 64 bits there is none. -/

namespace ClassAsm

open Grammar

/-! Digits. -/

/-- The text consists of decimal digits and writes the number. -/
structure IsNumeral (ds : List Char) (v : Nat) : Prop where
  nonempty : ds ≠ []
  digits : ∀ d ∈ ds, Piece.isDigit d = true
  value : Nat.ofDigitChars 10 ds 0 = v

theorem isNumeral_toDigits (v : Nat) : IsNumeral (Nat.toDigits 10 v) v where
  nonempty := Nat.toDigits_ne_nil
  digits := fun _ hd => Nat.isDigit_of_mem_toDigits (by decide) (by decide) hd
  value := Nat.ofDigitChars_ten_toDigits

namespace IsNumeral

variable {ds rest : List Char} {v : Nat}

theorem digitsValue (h : IsNumeral ds v) : Piece.digitsValue ds = v :=
  Nat.ofDigitChars_eq_foldl.symm.trans h.value

def kind (v : Nat) : Kind :=
  if v < Piece.intBound then .int v else .float (Binary64.ofDecimal v 0)

theorem kind_eq_int_iff {w : Nat} : kind v = .int w ↔ w = v ∧ v < Piece.intBound := by
  unfold kind
  split_ifs with small
  · simp [small, eq_comm]
  · simp [small]

theorem before (h : IsNumeral ds v) (ends : Stops Piece.isDigit rest)
    (whole : rest.head? ≠ some '.') : Piece.Before (.token (kind v) ds) rest := by
  obtain ⟨d, more, rfl⟩ := List.exists_cons_of_ne_nil h.nonempty
  have first : Piece.isDigit d = true := h.digits d List.mem_cons_self
  have others : ∀ c ∈ more, Piece.isDigit c = true :=
    fun c hc => h.digits c (List.mem_cons_of_mem _ hc)
  obtain ⟨taken, left⟩ := takeWhile_append_stops others ends
  refine ⟨d, more, rfl, ?_⟩
  have apart : Piece.isBlank d = false ∧ d ≠ '#' ∧ d ≠ '"' := by
    simp only [Piece.isDigit, Bool.and_eq_true, decide_eq_true_eq] at first
    refine ⟨?_, ?_, ?_⟩
    · rw [Bool.eq_false_iff, Ne, Piece.isBlank_iff]
      rintro (rfl | rfl | rfl | rfl | rfl) <;> exact absurd first (by decide)
    all_goals
      rintro rfl
      exact absurd first (by decide)
  rw [Piece.next?, if_neg (by simp [apart.1]), if_neg apart.2.1, if_neg apart.2.2, if_pos first,
    Piece.afterDigit]
  simp only [taken, left]
  split
  · exact absurd rfl whole
  · rw [h.digitsValue]
    rfl

end IsNumeral

def Expr.ofText? (cs : List Char) : Option Expr :=
  match (Lexed.ofSource cs).tokens with
  | .ok tokens => Expr.ofTokens? tokens.dropLast
  | .error _ => none

theorem Expr.ofText?_of_laid {cs : List Char} {ps : List Piece} (h : Piece.Laid cs ps []) :
    Expr.ofText? cs = Expr.ofTokens? (Piece.tokensFrom 0 ps) := by
  rw [ofText?, Lexed.ofSource_of_laid h]
  simp

namespace IsNumeral

variable {ds : List Char} {v : Nat}

theorem laid (h : IsNumeral ds v) : Piece.Laid ds [.token (kind v) ds] [] := by
  obtain ⟨d, more, rfl, next⟩ : Piece.Before (.token (kind v) ds) [] := h.before .nil nofun
  rw [List.append_nil] at next
  exact .next next .done

theorem laid_signed (h : IsNumeral ds v) : Piece.Laid ('-' :: ds)
    [.token (.symbol .minus) ['-'], .token (kind v) ds] [] :=
  .next rfl h.laid

theorem read (h : IsNumeral ds v) (small : v < Piece.intBound) :
    ∃ here, Expr.ofText? ds = some (.int v here) := by
  have known : kind v = .int v := kind_eq_int_iff.2 ⟨rfl, small⟩
  rw [Expr.ofText?_of_laid h.laid, known]
  have yields (n : Token) (hn : n.kind = .int v) :
      Yields 0 tightest false (.int v n.span) [n] := .int hn
  exact ⟨_, (yields _ rfl).read⟩

theorem read_signed (h : IsNumeral ds v) (small : v < Piece.intBound) :
    ∃ here whole, Expr.ofText? ('-' :: ds) = some (.unary .neg (.int v here) whole) := by
  have known : kind v = .int v := kind_eq_int_iff.2 ⟨rfl, small⟩
  rw [Expr.ofText?_of_laid h.laid_signed, known]
  simp only [Piece.tokensFrom]
  have yields (n : Token) (hn : n.kind = .int v) (m : Token) (hm : m.kind = .symbol .minus) :
      Yields 0 tightest false (.unary .neg (.int v n.span) (m.span.join n.span)) [m, n] :=
    .unary hm (.int hn)
  exact ⟨_, _, (yields _ rfl _ rfl).read⟩

end IsNumeral

/-! Constants. -/

namespace Assembly

/-- How many bits there are for the operand behind a word. -/
def operandBits (word : String) : Nat :=
  if word = "ldc.i4.s" then 8 else if word = "ldc.i8" then 64 else 32

/-- The integer that a line loads, with the mnemonic of the long form. An operand has to fit the
bits that its form has for it. -/
def constant? (line : List Char) : Option (String × Int) :=
  match Listed.ofChars? line with
  | some ⟨mnemonic, .number v⟩ =>
    if v.bmod (2 ^ operandBits (firstWord line)) = v then some (mnemonic, v) else none
  | _ => none

theorem bmod_of_bits (bits : Nat) {v : Int} (pos : 0 < bits) (low : -2 ^ (bits - 1) ≤ v)
    (high : v < 2 ^ (bits - 1)) : v.bmod (2 ^ bits) = v := by
  obtain ⟨n, rfl⟩ := Nat.exists_eq_succ_of_ne_zero pos.ne'
  have double : 2 ^ (n + 1) = 2 * 2 ^ n := Nat.pow_succ'
  rw [Nat.succ_sub_one] at low high
  apply Int.bmod_eq_of_le <;> rw [Nat.succ_eq_add_one, double] <;> push_cast <;> omega

theorem smallConstant_fits {v : Int} (low : -2 ^ 31 ≤ v) (high : v < 2 ^ 31) :
    v.bmod (2 ^ operandBits (firstWord (Instruction.smallConstant v).toList)) = v := by
  have led (word : String) (clean : ' ' ∉ word.toList) :
      firstWord (word ++ " " ++ toString v).toList = word := by
    have line : (word ++ " " ++ toString v).toList = word.toList ++ ' ' :: (toString v).toList := by
      simp
    rw [line, firstWord_append clean, String.ofList_toList]
  unfold Instruction.smallConstant
  split_ifs with minusOne inWord inByte
  · rw [minusOne]
    decide
  · obtain ⟨n, rfl⟩ := Int.eq_ofNat_of_zero_le inWord.1
    have all : ∀ n : Nat, n < 9 → (n : Int).bmod
        (2 ^ operandBits (firstWord s!"ldc.i4.{(n : Int)}".toList)) = n := by decide
    exact all n (by omega)
  · have word : firstWord s!"ldc.i4.s {v}".toList = "ldc.i4.s" := led "ldc.i4.s" (by decide)
    rw [word]
    exact bmod_of_bits 8 (by decide) (by omega) (by omega)
  · have word : firstWord s!"ldc.i4 {v}".toList = "ldc.i4" := led "ldc.i4" (by decide)
    rw [word]
    exact bmod_of_bits 32 (by decide) (by omega) (by omega)

theorem constant?_ldcI4 (v : Int32) :
    constant? (Instruction.ldcI4 v).text.toList = some ("ldc.i4", v.toInt) := by
  have fits := smallConstant_fits (v := v.toInt) v.le_toInt v.toInt_lt
  rw [constant?, Listed.ofChars?_text, Listed.ofInstruction]
  exact if_pos fits

theorem constant?_ldcI8 (v : Int64) :
    constant? (Instruction.ldcI8 v).text.toList = some ("ldc.i8", v.toInt) := by
  have line : (Instruction.ldcI8 v).text.toList =
      "ldc.i8".toList ++ ' ' :: (toString v.toInt).toList := by simp [Instruction.text]
  have word : firstWord (Instruction.ldcI8 v).text.toList = "ldc.i8" := by
    rw [line, firstWord_append (by decide), String.ofList_toList]
  rw [constant?, Listed.ofChars?_text, Listed.ofInstruction]
  simp only [word]
  exact if_pos (bmod_of_bits 64 (by decide) v.le_toInt v.toInt_lt)

end Assembly

/-! Code. -/

namespace Scope

variable {s : Scope} {v : Nat}

theorem intCode_small (h : v ≤ 2 ^ 31 - 1) :
    s.intCode v = ⟨[.ldcI4 (.ofNat v)], { cls := s.builtins.i32 }⟩ :=
  if_pos (show v < 2 ^ 31 by omega)

theorem intCode_large (h : 2 ^ 31 - 1 < v) :
    s.intCode v = ⟨[.ldcI8 (.ofNat v)], { cls := s.builtins.i64 }⟩ :=
  if_neg (show ¬ v < 2 ^ 31 by omega)

theorem code_int (v : Nat) (span : Span) : s.code (.int v span) = .ok (s.intCode v) := by
  rw [code_eq_codeAmid, codeAmid_eq, codeWith]

theorem numeric?_intCode (hs : s.registry.Installed s.builtins) (v : Nat) :
    ∃ n, s.builtins.numeric? (s.intCode v).type.cls = some n := by
  rw [hs.builtins]
  unfold intCode
  rw [hs.builtins]
  split
  · exact ⟨.i32, rfl⟩
  · exact ⟨.i64, rfl⟩

theorem code_neg_int (hs : s.registry.Installed s.builtins) (v : Nat) (span span' : Span) :
    s.code (.unary .neg (.int v span) span') =
      .ok ⟨(s.intCode v).instructions ++ [.neg], (s.intCode v).type⟩ := by
  obtain ⟨n, numeric⟩ := numeric?_intCode hs v
  have given : s.needValue span (s.intCode v) = .ok (s.intCode v) :=
    needValue_eq_ok.2 ⟨isVoid_of_numeric? hs numeric, rfl⟩
  have isNumeric : s.builtins.isNumeric (s.intCode v).type.cls = true := by
    rw [Builtins.isNumeric, numeric]
    rfl
  rw [code_eq_codeAmid, codeAmid_eq, codeWith, codeWith, ok_bind]
  change s.needValue span (s.intCode v) >>= _ = _
  rw [given, ok_bind]
  exact if_pos isNumeric

end Scope

namespace Expr

/-- Digits are read as the number that they write exactly if it is at most 2^63 - 1, in front of
whatever does not continue them; and a literal with this number is compiled, wherever it stands, to
one constant that says the number in the assembly text. -/
theorem literals_keep_their_number {ds : List Char} {v : Nat} (h : IsNumeral ds v) :
    (∃ kind, (∀ w, kind = .int w ↔ w = v ∧ v ≤ 2 ^ 63 - 1) ∧
      (Lexed.ofSource ds).tokens = .ok [⟨kind, String.ofList ds, ⟨0, byteLength ds⟩⟩,
        ⟨.eof, "", .point (byteLength ds)⟩] ∧
      ∀ rest, Stops Piece.isDigit rest → rest.head? ≠ some '.' →
        Piece.Before (.token kind ds) rest) ∧
    (v ≤ 2 ^ 63 - 1 → ∃ e, ofText? ds = some e ∧ ∀ (s : Scope) (f : Span → Span), ∃ i,
      s.code (e.mapSpan f) =
        .ok ⟨[i], { cls := if v ≤ 2 ^ 31 - 1 then s.builtins.i32 else s.builtins.i64 }⟩ ∧
      Assembly.constant? i.text.toList =
        some (if v ≤ 2 ^ 31 - 1 then "ldc.i4" else "ldc.i8", (v : Int))) := by
  have bound : v < Piece.intBound ↔ v ≤ 2 ^ 63 - 1 := by
    change v < 2 ^ 63 ↔ _
    omega
  refine ⟨⟨IsNumeral.kind v, fun w => ?_, ?_, fun rest ends whole => h.before ends whole⟩,
    fun fits => ?_⟩
  · rw [IsNumeral.kind_eq_int_iff, bound]
  · rw [Lexed.ofSource_of_laid h.laid]
    simp [Piece.tokensFrom, Piece.text]
  · obtain ⟨here, read⟩ := h.read (bound.2 fits)
    refine ⟨_, read, fun s f => ?_⟩
    rw [mapSpan, Scope.code_int]
    by_cases small : v ≤ 2 ^ 31 - 1
    · refine ⟨.ldcI4 (.ofNat v), ?_, ?_⟩
      · rw [Scope.intCode_small small, if_pos small]
      · rw [Assembly.constant?_ldcI4, Int32.toInt_ofNat_of_lt (by omega), if_pos small]
    · refine ⟨.ldcI8 (.ofNat v), ?_, ?_⟩
      · rw [Scope.intCode_large (by omega), if_neg small]
      · rw [Assembly.constant?_ldcI8, Int64.toInt_ofNat_of_lt (by omega), if_neg small]

/-- Zeros in front of the greatest number of 64 bits. -/
theorem literals_keep_their_number_greatest :
    IsNumeral "009223372036854775807".toList 9223372036854775807 ∧
    ∃ e, ofText? "009223372036854775807".toList = some e ∧ ∀ (s : Scope) (f : Span → Span), ∃ i,
      s.code (e.mapSpan f) = .ok ⟨[i], { cls := s.builtins.i64 }⟩ ∧
      Assembly.constant? i.text.toList = some ("ldc.i8", 9223372036854775807) := by
  have numeral : IsNumeral "009223372036854775807".toList 9223372036854775807 :=
    ⟨by decide, List.all_eq_true.1 (by decide), by decide⟩
  exact ⟨numeral, (literals_keep_their_number numeral).2 (by decide)⟩

end Expr

/-! Signs. -/

namespace Meaning

variable {V E : Type}

/-- The negation of an integer has its width and wraps around. -/
structure Wraps (M : Meaning V E) : Prop where
  int32 : ∀ v, M.neg (M.int32 v) = some (M.int32 (-v))
  int64 : ∀ v, M.neg (M.int64 v) = some (M.int64 (-v))

variable {M : Meaning V E}

theorem compute_ldcI4 (v : Int32) (st : List V) : M.compute (.ldcI4 v) st = .ok (M.int32 v :: st) :=
  rfl

theorem compute_ldcI8 (v : Int64) (st : List V) : M.compute (.ldcI8 v) st = .ok (M.int64 v :: st) :=
  rfl

theorem Wraps.computeAll_int32 (h : M.Wraps) (v : Nat) :
    M.computeAll [.ldcI4 (.ofNat v)] [] = .ok [M.int32 (.ofInt v)] ∧
      M.computeAll [.ldcI4 (.ofNat v), .neg] [] = .ok [M.int32 (.ofInt (-v))] := by
  rw [Int32.ofInt_neg, Int32.ofInt_eq_ofNat]
  refine ⟨M.computeAll_one _ _, ?_⟩
  rw [computeAll_cons, compute_ldcI4, ok_bind, computeAll_one, compute_neg, h.int32]
  rfl

theorem Wraps.computeAll_int64 (h : M.Wraps) (v : Nat) :
    M.computeAll [.ldcI8 (.ofNat v)] [] = .ok [M.int64 (.ofInt v)] ∧
      M.computeAll [.ldcI8 (.ofNat v), .neg] [] = .ok [M.int64 (.ofInt (-v))] := by
  rw [Int64.ofInt_neg, Int64.ofInt_eq_ofNat]
  refine ⟨M.computeAll_one _ _, ?_⟩
  rw [computeAll_cons, compute_ldcI8, ok_bind, computeAll_one, compute_neg, h.int64]
  rfl

end Meaning

/-- The code has the type and leaves the integer, which fits the type: with wrapping arithmetic its
instructions come to nothing else. -/
structure Code.Denotes (c : Code) (b : Builtins) (n : Int) : Prop where
  small : n.natAbs ≤ 2 ^ 31 - 1 → c.type = { cls := b.i32 } ∧ (Int32.ofInt n).toInt = n ∧
    ∀ {V E : Type} (M : Meaning V E), M.Wraps →
      M.computeAll c.instructions [] = .ok [M.int32 (.ofInt n)]
  large : 2 ^ 31 - 1 < n.natAbs → c.type = { cls := b.i64 } ∧ (Int64.ofInt n).toInt = n ∧
    ∀ {V E : Type} (M : Meaning V E), M.Wraps →
      M.computeAll c.instructions [] = .ok [M.int64 (.ofInt n)]

namespace Scope

variable {s : Scope} {v : Nat}

theorem denotes_intCode (h : v ≤ 2 ^ 63 - 1) : (s.intCode v).Denotes s.builtins v where
  small := fun small => by
    rw [Int.natAbs_natCast] at small
    rw [intCode_small small]
    exact ⟨rfl, Int32.toInt_ofInt_of_le (by omega) (by omega),
      fun M hM => (hM.computeAll_int32 v).1⟩
  large := fun large => by
    rw [Int.natAbs_natCast] at large
    rw [intCode_large large]
    exact ⟨rfl, Int64.toInt_ofInt_of_le (by omega) (by omega),
      fun M hM => (hM.computeAll_int64 v).1⟩

theorem denotes_neg (h : v ≤ 2 ^ 63 - 1) :
    Code.Denotes ⟨(s.intCode v).instructions ++ [.neg], (s.intCode v).type⟩ s.builtins (-v) where
  small := fun small => by
    rw [Int.natAbs_neg, Int.natAbs_natCast] at small
    rw [intCode_small small]
    exact ⟨rfl, Int32.toInt_ofInt_of_le (by omega) (by omega),
      fun M hM => (hM.computeAll_int32 v).2⟩
  large := fun large => by
    rw [Int.natAbs_neg, Int.natAbs_natCast] at large
    rw [intCode_large large]
    exact ⟨rfl, Int64.toInt_ofInt_of_le (by omega) (by omega),
      fun M hM => (hM.computeAll_int64 v).2⟩

end Scope

namespace Expr

/-- The decimal text of an integer whose magnitude is below 2^63 compiles to code that computes it.
The type follows the magnitude: the least number of 32 bits has one of 64. -/
theorem integers_are_typed_by_magnitude {n : Int} (h : n.natAbs ≤ 2 ^ 63 - 1) :
    ∃ e, ofText? (toString n).toList = some e ∧
      ∀ (s : Scope) (f : Span → Span), s.registry.Installed s.builtins →
        ∃ c, s.valueCode (e.mapSpan f) = .ok c ∧ c.Denotes s.builtins n := by
  have bound {v : Nat} (h : v ≤ 2 ^ 63 - 1) : v < Piece.intBound := by
    change v < 2 ^ 63
    omega
  cases n with
  | ofNat v =>
    obtain ⟨here, read⟩ := (isNumeral_toDigits v).read (bound h)
    have text : (toString (Int.ofNat v)).toList = Nat.toDigits 10 v := Nat.toList_repr
    refine ⟨_, text ▸ read, fun s f hs => ⟨_, ?_, Scope.denotes_intCode h⟩⟩
    obtain ⟨n, numeric⟩ := Scope.numeric?_intCode hs v
    exact Scope.valueCode_eq_ok.2 ⟨Scope.code_int v _, Scope.isVoid_of_numeric? hs numeric⟩
  | negSucc m =>
    obtain ⟨here, whole, read⟩ := (isNumeral_toDigits (m + 1)).read_signed (bound h)
    have text : (toString (Int.negSucc m)).toList = '-' :: Nat.toDigits 10 (m + 1) := by
      change ("-" ++ Nat.repr (m + 1)).toList = _
      simp
    refine ⟨_, text ▸ read, fun s f hs => ⟨_, ?_, Scope.denotes_neg h⟩⟩
    obtain ⟨n, numeric⟩ := Scope.numeric?_intCode hs (m + 1)
    exact Scope.valueCode_eq_ok.2 ⟨Scope.code_neg_int hs (m + 1) _ _,
      Scope.isVoid_of_numeric? hs numeric⟩

/-- Integers of both widths. What else the machine knows is left out. -/
def words : Meaning (Int32 ⊕ Int64) Empty where
  int32 := .inl
  int64 := .inr
  single _ := .inl 0
  double _ := .inr 0
  isTrue v := v != .inl 0
  arith _ _ _ := none
  neg v := some (v.map (- ·) (- ·))
  conv _ _ := none
  call _ _ fields := ⟨fields, [], .trap⟩

/-- A place where only the built-in classes and the given locals are known. -/
def bareScope (l : Locals) : Scope := ⟨Registry.base, ⟨0, 1, 2, 3, 4, 5⟩, 0, 0, false, l⟩

theorem integers_are_typed_by_magnitude_least :
    ∃ e c, ofText? "-2147483648".toList = some e ∧ (bareScope {}).valueCode e = .ok c ∧
      c.type = { cls := (bareScope {}).builtins.i64 } ∧
      words.computeAll c.instructions [] = .ok [.inr (-2147483648)] := by
  have installed : Registry.base.Installed ⟨0, 1, 2, 3, 4, 5⟩ :=
    Registry.Declares.installed ⟨fun _ _ => rfl, fun hi hc => by
      obtain ⟨inside, -⟩ := Array.getElem?_eq_some_iff.1 hc
      rw [Registry.size_base] at inside
      omega⟩
  obtain ⟨e, read, compiles⟩ := integers_are_typed_by_magnitude (n := -2147483648) (by decide)
  obtain ⟨c, code, denotes⟩ := compiles (bareScope {}) id installed
  obtain ⟨type, -, computes⟩ := denotes.large (by decide)
  rw [mapSpan_id] at code
  exact ⟨e, c, read, code, type, computes words ⟨fun _ => rfl, fun _ => rfl⟩⟩

def typeOfText? (s : Scope) (cs : List Char) : Option TypeRef :=
  (ofText? cs).bind fun e => (s.valueCode e).toOption.map (·.type)

/-- The least number of 32 bits is not of the type with 32 bits, and the least one of 64 bits is not
even an integer. -/
theorem least_integers_are_of_other_types :
    typeOfText? (bareScope {}) (toString (-2 ^ 31 : Int)).toList =
      some { cls := (bareScope {}).builtins.i64 } ∧
    typeOfText? (bareScope {}) (toString (-2 ^ 63 : Int)).toList =
      some { cls := (bareScope {}).builtins.f32 } ∧
    ¬ ∀ n : Int, -2 ^ 63 ≤ n → n ≤ 2 ^ 63 - 1 →
      typeOfText? (bareScope {}) (toString n).toList =
        some { cls := if -2 ^ 31 ≤ n ∧ n ≤ 2 ^ 31 - 1 then (bareScope {}).builtins.i32
          else (bareScope {}).builtins.i64 } := by
  have narrow : typeOfText? (bareScope {}) (toString (-2 ^ 31 : Int)).toList =
      some { cls := (bareScope {}).builtins.i64 } := by decide +kernel
  refine ⟨narrow, by decide +kernel, fun all => ?_⟩
  have claimed := all (-2 ^ 31) (by decide) (by decide)
  rw [narrow] at claimed
  exact absurd claimed (by decide)

end Expr

end ClassAsm
