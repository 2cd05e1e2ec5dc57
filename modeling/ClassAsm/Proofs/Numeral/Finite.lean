import ClassAsm.Numeral.Layout
import ClassAsm.Proofs.Numeral.Rounding

/-! How a floating-point operand looks, and which values are finite. A finite value is written as
digits, a point and digits, with an exponent if it is very large or very small. Infinity has no
digits: it is written as a word. A bit pattern below that of infinity is finite, and rounding gives
such a pattern exactly below the limit of the format. So a decimal is read as infinity if it is too
large for a double, and what is narrowed because it fits a single stays finite there and back. -/

namespace ClassAsm

/-- Digits, and at least one. -/
def AreDigits (cs : List Char) : Prop := cs ≠ [] ∧ ∀ c ∈ cs, c.isDigit = true

namespace AreDigits

variable {cs ds : List Char}

theorem append (h : AreDigits cs) (h' : ∀ c ∈ ds, c.isDigit = true) : AreDigits (cs ++ ds) :=
  ⟨by simp [h.1], fun c hc => (List.mem_append.1 hc).elim (h.2 c) (h' c)⟩

theorem prepend (h : ∀ c ∈ cs, c.isDigit = true) (h' : AreDigits ds) : AreDigits (cs ++ ds) :=
  ⟨by simp [h'.1], fun c hc => (List.mem_append.1 hc).elim (h c) (h'.2 c)⟩

theorem take (h : AreDigits cs) {n : Nat} (pos : 0 < n) : AreDigits (cs.take n) := by
  refine ⟨?_, fun c hc => h.2 c (List.mem_of_mem_take hc)⟩
  rw [Ne, List.take_eq_nil_iff, not_or]
  exact ⟨pos.ne', h.1⟩

theorem drop (h : AreDigits cs) {n : Nat} (short : n < cs.length) : AreDigits (cs.drop n) := by
  refine ⟨?_, fun c hc => h.2 c (List.mem_of_mem_drop hc)⟩
  rw [Ne, List.drop_eq_nil_iff, not_le]
  exact short

theorem toString_nat (n : Nat) : AreDigits (toString n).toList := by
  rw [show toString n = String.ofList (Nat.toDigits 10 n) from rfl, String.toList_ofList]
  exact ⟨Nat.toDigits_ne_nil, fun _ hc => Nat.isDigit_of_mem_toDigits (by decide) (by decide) hc⟩

end AreDigits

/-- A decimal numeral: digits, a point and digits, and possibly an `E` and an integer. -/
structure IsPointNumeral (text : String) : Prop where
  parts : ∃ whole fraction exponent, text.toList = whole ++ '.' :: (fraction ++ exponent) ∧
    AreDigits whole ∧ AreDigits fraction ∧
    (exponent = [] ∨ ∃ sign digits, exponent = 'E' :: (sign ++ digits) ∧
      (sign = [] ∨ sign = ['-']) ∧ AreDigits digits)

namespace IsPointNumeral

theorem plain {text : String} (whole fraction : List Char)
    (h : text.toList = whole ++ '.' :: fraction) (hw : AreDigits whole) (hf : AreDigits fraction) :
    IsPointNumeral text :=
  ⟨whole, fraction, [], by simpa using h, hw, hf, .inl rfl⟩

theorem not_inf : ¬ IsPointNumeral "inf" := by
  rintro ⟨whole, fraction, exponent, text, hw, -⟩
  obtain ⟨c, cs, rfl⟩ := List.exists_cons_of_ne_nil hw.1
  obtain rfl : 'i' = c := (List.cons.inj text).1
  exact absurd (hw.2 'i' List.mem_cons_self) (by decide)

end IsPointNumeral

namespace FloatLayout

theorem isDigit_zeros (n : Nat) : ∀ c ∈ (zeros n).toList, c.isDigit = true := by
  have all : ∀ c ∈ (zeros n).toList, c = '0' := by
    rw [zeros, String.pushn_eq_repeat_push]
    induction n with
    | zero => simp [Nat.repeat]
    | succ n ih =>
      rw [Nat.repeat, String.toList_push]
      intro c hc
      rcases List.mem_append.1 hc with hc | hc
      · exact ih c hc
      · exact List.mem_singleton.1 hc
  exact fun c hc => all c hc ▸ rfl

variable {digits : String}

theorem isPointNumeral_pointed (h : AreDigits digits.toList) (n : Int) :
    IsPointNumeral (operand.pointed digits n) := by
  unfold pointed
  dsimp only
  split
  · refine .plain ['0'] ((zeros (-n).toNat).toList ++ digits.toList) ?_ ?_
      (.prepend (isDigit_zeros _) h)
    · simp
    · exact ⟨by simp, by simp⟩
  · split
    · next low high =>
      refine .plain (digits.toList.take n.toNat) (digits.toList.drop n.toNat) ?_
        (h.take (by omega)) (h.drop ?_)
      · simp
      · rw [String.length_toList]
        omega
    · refine .plain (digits.toList ++ (zeros (n - digits.length).toNat).toList) ['0'] ?_
        (h.append (isDigit_zeros _)) ⟨by simp, by simp⟩
      simp [operand]

theorem isPointNumeral_withExponent (h : AreDigits digits.toList) (e : Int) :
    IsPointNumeral (operand.withExponent digits e) := by
  have exponent : ∃ sign ds, (toString e).toList = sign ++ ds ∧ (sign = [] ∨ sign = ['-']) ∧
      AreDigits ds := by
    cases e with
    | ofNat n => exact ⟨[], _, rfl, .inl rfl, .toString_nat n⟩
    | negSucc n => exact ⟨['-'], _, by simp [toString, Int.repr], .inr rfl, .toString_nat (n + 1)⟩
  obtain ⟨sign, ds, written, signed, number⟩ := exponent
  have fraction : ∃ fs, AreDigits fs ∧ (operand.withExponent digits e).toList =
      digits.toList.take 1 ++ '.' :: (fs ++ 'E' :: (sign ++ ds)) := by
    rw [← written]
    by_cases single : digits.toList.tail = []
    · exact ⟨['0'], ⟨by simp, by simp⟩, by simp [withExponent, operand, single]⟩
    · refine ⟨digits.toList.tail, ⟨single, fun c hc => h.2 c (List.mem_of_mem_tail hc)⟩, ?_⟩
      simp [withExponent, operand, single]
  obtain ⟨fs, areDigits, text⟩ := fraction
  exact ⟨_, fs, _, text, h.take Nat.one_pos, areDigits, .inr ⟨sign, ds, rfl, signed, number⟩⟩

theorem isPointNumeral_magnitude (v : Dyadic) : IsPointNumeral (operand.magnitude (.finite v)) := by
  unfold magnitude
  dsimp only
  split
  · exact .plain ['0'] ['0'] rfl ⟨by simp, by simp⟩ ⟨by simp, by simp⟩
  · unfold decimal
    dsimp only
    split
    · exact isPointNumeral_pointed (.toString_nat _) _
    · exact isPointNumeral_withExponent (.toString_nat _) _

end FloatLayout

/-! Finite values. -/

theorem mul_zpow_lt {n k : ℕ} {u e : ℤ} (hn : n < 2 ^ k) (hu : k + u ≤ e) : (n * 2 ^ u : ℚ) < 2 ^ e := by
  calc (n * 2 ^ u : ℚ) < (2 ^ k : ℕ) * 2 ^ u := by gcongr
    _ = 2 ^ (k + u) := (cast_pow2 k).symm ▸ two_zpow_mul rfl
    _ ≤ 2 ^ e := zpow_le_zpow_right₀ (by norm_num) hu

namespace FloatFormat

variable {f : FloatFormat} {bits : ℕ} {d : Dyadic}

theorem infinity_lt_signBit (f : FloatFormat) : f.infinity < f.signBit := by
  have : f.signBit = pow2 f.exponentBits * pow2 f.fractionBits := by
    change 2 ^ (f.fractionBits + f.exponentBits) = 2 ^ f.exponentBits * 2 ^ f.fractionBits
    rw [← pow_add, Nat.add_comm]
  rw [this, infinity]
  exact Nat.mul_lt_mul_of_pos_right (Nat.sub_lt (pow2_pos _) Nat.one_pos) (pow2_pos _)

theorem magnitude_infinity (f : FloatFormat) : f.magnitude f.infinity = .infinite := by
  simp [magnitude, infinity]

/-- A pattern below infinity is that of a finite value below the next power of two. -/
theorem exists_magnitude (h : f.IsWide) (finite : bits < f.infinity) :
    ∃ d, f.magnitude bits = .finite d ∧ (d.significand * 2 ^ d.unit : ℚ) < 2 ^ ((f.bias : ℤ) + 1) := by
  have exponent : bits / pow2 f.fractionBits < pow2 f.exponentBits - 1 :=
    (Nat.div_lt_iff_lt_mul (pow2_pos _)).2 finite
  have fraction : bits % pow2 f.fractionBits < pow2 f.fractionBits := Nat.mod_lt _ (pow2_pos _)
  have place : pow2 f.exponentBits - 1 = 2 * f.bias + 1 :=
    Nat.eq_of_mul_eq_mul_right (pow2_pos f.fractionBits) (infinity_eq h)
  have least : f.leastUnit = 1 - (f.bias : ℤ) - f.fractionBits := rfl
  have bound {n : ℕ} {u : ℤ} (hn : n < 2 * pow2 f.fractionBits)
      (hu : u ≤ (f.bias : ℤ) - f.fractionBits) : (n * 2 ^ u : ℚ) < 2 ^ ((f.bias : ℤ) + 1) :=
    mul_zpow_lt (hn.trans_eq (Nat.pow_succ' (n := f.fractionBits)).symm) (by omega)
  have fractions := h.fractions
  unfold magnitude
  dsimp only
  rw [if_neg exponent.ne]
  split
  · refine ⟨_, rfl, bound ?_ ?_⟩ <;> dsimp only <;> omega
  · refine ⟨_, rfl, bound ?_ ?_⟩ <;> dsimp only <;> omega

theorem ofDyadic_lt (h : f.IsWide) (small : (d.significand * 2 ^ d.unit : ℚ) < f.limit) :
    f.ofDyadic d < f.infinity := by
  refine lt_of_le_of_ne (nearest_le ..) fun same => ?_
  have large := (nearest_eq_infinity_iff h (pow2_pos _)).1 same
  refine absurd small (not_lt.2 ?_)
  rw [zpow_two, ← mul_div_assoc, le_div_iff₀ (Nat.cast_pos.2 (pow2_pos _))]
  exact_mod_cast large

end FloatFormat

open FloatFormat

/-- A value that is not negative, and is finite. -/
structure Binary64.IsPlain (x : Binary64) : Prop where
  nonneg : x.isNegative = false
  finite : ∃ d, x.magnitude = .finite d

namespace Binary64

theorem ofNat_cases {bits : ℕ} (h : bits ≤ double.infinity) :
    (⟨.ofNat bits⟩ : Binary64).isNegative = false ∧
      (⟨.ofNat bits⟩ : Binary64).magnitude = double.magnitude bits := by
  have sign : bits < double.signBit := h.trans_lt (infinity_lt_signBit _)
  have toNat : (UInt64.ofNat bits).toNat = bits :=
    UInt64.toNat_ofNat_of_lt' (sign.trans (by decide))
  exact ⟨by simpa [isNegative, toNat] using sign, by rw [magnitude, toNat, Nat.mod_eq_of_lt sign]⟩

/-- A decimal is read as a finite value, or as infinity if it is not below the limit. -/
theorem ofDecimal_cases (digits places : ℕ) :
    (ofDecimal digits places).IsPlain ∧ digits < double.limit * pow10 places ∨
      ((ofDecimal digits places).isNegative = false ∧
        (ofDecimal digits places).magnitude = .infinite) ∧ double.limit * pow10 places ≤ digits := by
  have pos : 0 < pow10 places := Nat.pow_pos (by decide)
  obtain ⟨nonneg, same⟩ := ofNat_cases (nearest_le (f := double) digits (pow10 places))
  have huge : double.nearest digits (pow10 places) = double.infinity ↔
      double.limit * pow10 places ≤ digits := nearest_eq_infinity_iff isWide_double pos
  by_cases infinite : double.nearest digits (pow10 places) = double.infinity
  · exact .inr ⟨⟨nonneg, same.trans (infinite ▸ magnitude_infinity _)⟩, huge.1 infinite⟩
  · obtain ⟨d, finite, -⟩ := exists_magnitude isWide_double
      (lt_of_le_of_ne (nearest_le _ _) infinite)
    exact .inl ⟨⟨nonneg, d, same.trans finite⟩, not_le.1 fun large => infinite (huge.2 large)⟩

/-- What does not exceed the narrow format is finite and below its limit. -/
theorem below_of_fits {x : Binary64} (nonneg : x.isNegative = false)
    (number : x.magnitude ≠ .notANumber) (fits : x.exceedsSingle = false) :
    ∃ d, x.magnitude = .finite d ∧ (d.significand * 2 ^ d.unit : ℚ) < single.limit := by
  have bits : x.bits.toNat ≤ 0x47EFFFFFE0000000 := by
    have : ¬ maxSingle.bits < x.bits := by
      simpa [exceedsSingle, nonneg, number] using fits
    exact not_lt.1 this
  have limit : (2 : ℚ) ^ (127 : ℤ) < single.limit ∧
      ((2 ^ 53 - 2 ^ 29 : ℕ) * 2 ^ (75 : ℤ) : ℚ) < single.limit := by
    have : single.limit = 2 ^ 128 - 2 ^ 103 := by decide
    rw [this]
    norm_num
  have pattern : x.bits.toNat % double.signBit = x.bits.toNat :=
    Nat.mod_eq_of_lt (bits.trans_lt (by decide))
  rw [magnitude, pattern]
  generalize x.bits.toNat = n at bits
  have small {m : ℕ} {u : ℤ} (hm : m < 2 ^ 53) (hu : u ≤ 74) : (m * 2 ^ u : ℚ) < single.limit :=
    (mul_zpow_lt hm (by omega)).trans limit.1
  have units : pow2 double.fractionBits = 2 ^ 52 ∧ pow2 double.exponentBits - 1 = 2047 ∧
      double.leastUnit = -1074 := by decide
  rw [FloatFormat.magnitude, units.1, units.2.1, units.2.2, if_neg (by omega)]
  split
  · refine ⟨_, rfl, small ?_ ?_⟩ <;> dsimp only <;> omega
  · rcases Nat.lt_or_ge (n / 2 ^ 52) 1150 with lower | top
    · refine ⟨_, rfl, small ?_ ?_⟩ <;> dsimp only <;> omega
    · -- the exponent of the greatest single; its fraction bounds those of all that fit
      have exponent : n / 2 ^ 52 = 1150 := by omega
      refine ⟨_, rfl, lt_of_le_of_lt ?_ limit.2⟩
      dsimp only
      rw [exponent]
      have fraction : 2 ^ 52 + n % 2 ^ 52 ≤ 2 ^ 53 - 2 ^ 29 := by omega
      have unit : (-1074 + ((1150 : ℕ) : ℤ) - 1) = 75 := by norm_num
      rw [unit]
      gcongr

end Binary64

namespace Binary32

theorem ofNat_cases {bits : ℕ} (h : bits < single.infinity) :
    (⟨.ofNat bits⟩ : Binary32).isNegative = false ∧
      ∃ d, (⟨.ofNat bits⟩ : Binary32).magnitude = .finite d ∧
        (d.significand * 2 ^ d.unit : ℚ) < 2 ^ ((single.bias : ℤ) + 1) := by
  have sign : bits < single.signBit := h.trans (infinity_lt_signBit _)
  have toNat : (UInt32.ofNat bits).toNat = bits :=
    UInt32.toNat_ofNat_of_lt' (sign.trans (by decide))
  refine ⟨by simpa [isNegative, toNat] using sign, ?_⟩
  rw [magnitude, toNat, Nat.mod_eq_of_lt sign]
  exact exists_magnitude isWide_single h

end Binary32

/-- A value that fits the narrow format is finite when it has been narrowed and is widened to be
written. -/
theorem Binary64.isPlain_widen_narrow {x : Binary64} (nonneg : x.isNegative = false)
    (number : x.magnitude ≠ .notANumber) (fits : x.exceedsSingle = false) :
    x.narrow.widen.IsPlain := by
  obtain ⟨d, finite, small⟩ := below_of_fits nonneg number fits
  have narrowed : x.narrow = ⟨.ofNat (single.ofDyadic d)⟩ := by
    simp [narrow, encode, nonneg, finite]
  obtain ⟨nonneg', d', finite', small'⟩ := Binary32.ofNat_cases (ofDyadic_lt isWide_single small)
  rw [← narrowed] at nonneg' finite'
  have widened : x.narrow.widen = ⟨.ofNat (double.ofDyadic d')⟩ := by
    simp [Binary32.widen, encode, nonneg', finite']
  have inside : ((2 : ℚ) ^ ((single.bias : ℤ) + 1)) ≤ double.limit :=
    (zpow_le_zpow_right₀ (by norm_num) (by decide)).trans (limit_bounds isWide_double).1
  have below := ofDyadic_lt isWide_double (small'.trans_le inside)
  obtain ⟨plain, same⟩ := ofNat_cases below.le
  obtain ⟨d'', finite'', -⟩ := exists_magnitude isWide_double below
  rw [widened]
  exact ⟨plain, d'', same.trans finite''⟩

/-! How they are written. -/

namespace FloatLayout

theorem isPointNumeral_render {x : Binary64} (h : x.IsPlain) : IsPointNumeral (operand.render x) := by
  obtain ⟨d, finite⟩ := h.finite
  simpa [render, h.nonneg, finite] using isPointNumeral_magnitude d

theorem render_infinite {x : Binary64} (nonneg : x.isNegative = false)
    (infinite : x.magnitude = .infinite) : operand.render x = "inf" := by
  simp [render, nonneg, infinite, magnitude]

end FloatLayout

end ClassAsm
