import Mathlib.Tactic
import ClassAsm.Numeral.Binary

/-! What rounding to a binary format makes infinite. The exponent of the leading bit decides, except
just below the power of two that is out of range: there all bits of the significand are set, and a
number goes to infinity from halfway to that power on, a tie included because the significand is odd. -/

namespace ClassAsm

/-! Powers of two that may be in the numerator or the denominator. -/

theorem cast_pow2 (n : ℕ) : ((pow2 n : ℕ) : ℚ) = (2 : ℚ) ^ (n : ℤ) := by simp

theorem zpow_two (e : ℤ) : (2 : ℚ) ^ e = (pow2 e.toNat : ℚ) / pow2 (-e).toNat := by
  have apart : e = (e.toNat : ℤ) - ((-e).toNat : ℤ) := by omega
  rw [cast_pow2, cast_pow2, ← zpow_sub₀ (by norm_num), ← apart]

theorem two_zpow_mul {a b c : ℤ} (h : a + b = c) : (2 : ℚ) ^ a * 2 ^ b = 2 ^ c := by
  rw [← zpow_add₀ (by norm_num), h]

theorem pow2_pos (n : ℕ) : 0 < pow2 n := Nat.pow_pos (by decide)

theorem scaled_div (num den : ℕ) (e : ℤ) :
    ((num * pow2 (-e).toNat : ℕ) : ℚ) / (den * pow2 e.toNat : ℕ) = num / den / 2 ^ e := by
  rw [zpow_two, div_div_div_eq, Nat.cast_mul, Nat.cast_mul]

section

variable {num den m : ℕ}

/-! Rounding to an integer. -/

theorem le_roundHalfEven (hd : 0 < den) (h : (m : ℚ) ≤ num / den) : m ≤ roundHalfEven num den := by
  rw [le_div_iff₀ (Nat.cast_pos.2 hd)] at h
  have whole : m ≤ num / den := (Nat.le_div_iff_mul_le hd).2 (by exact_mod_cast h)
  unfold roundHalfEven
  dsimp only
  split_ifs <;> omega

theorem roundHalfEven_le (hd : 0 < den) (h : (num / den : ℚ) < m) : roundHalfEven num den ≤ m := by
  rw [div_lt_iff₀ (Nat.cast_pos.2 hd)] at h
  have whole : num / den < m := (Nat.div_lt_iff_lt_mul hd).2 (by exact_mod_cast h)
  unfold roundHalfEven
  dsimp only
  split_ifs <;> omega

/-- Halfway above an odd number, the even one above it is chosen. -/
theorem lt_roundHalfEven_iff (odd : m % 2 = 1) (hd : 0 < den) :
    m < roundHalfEven num den ↔ (m + 1 / 2 : ℚ) ≤ num / den := by
  have halfway : (m + 1 / 2 : ℚ) ≤ num / den ↔ (2 * m + 1) * den ≤ 2 * num := by
    rw [le_div_iff₀ (Nat.cast_pos.2 hd), ← Nat.cast_le (α := ℚ)]
    push_cast
    constructor <;> intro h <;> linarith
  rw [halfway]
  have split := Nat.div_add_mod num den
  have small := Nat.mod_lt num hd
  unfold roundHalfEven
  generalize num / den = whole, num % den = rest at split small
  dsimp only
  rcases lt_trichotomy whole m with below | rfl | above
  · have room : (whole + 1) * den ≤ m * den := Nat.mul_le_mul_right _ below
    have : ¬ (2 * m + 1) * den ≤ 2 * num := by
      rw [not_le]
      nlinarith
    split_ifs <;> simp only [this, iff_false] <;> omega
  · have half : (2 * whole + 1) * den ≤ 2 * num ↔ den ≤ 2 * rest := by
      constructor <;> intro h <;> nlinarith
    rw [half]
    split_ifs <;> omega
  · have room : (m + 1) * den ≤ whole * den := Nat.mul_le_mul_right _ above
    have : (2 * m + 1) * den ≤ 2 * num := by nlinarith
    split_ifs <;> simp only [this, iff_true] <;> omega

/-! The exponent of the leading bit. -/

theorem floorLog2_spec (hn : 0 < num) (hd : 0 < den) :
    (2 : ℚ) ^ floorLog2 num den ≤ num / den ∧ (num / den : ℚ) < 2 ^ (floorLog2 num den + 1) := by
  have den_pos : (0 : ℚ) < den := Nat.cast_pos.2 hd
  have bounds {n : ℕ} (h : 0 < n) : (2 : ℚ) ^ (n.log2 : ℤ) ≤ n ∧ (n : ℚ) < 2 ^ ((n.log2 : ℤ) + 1) := by
    constructor
    · exact_mod_cast Nat.log2_self_le h.ne'
    · exact_mod_cast Nat.lt_log2_self
  obtain ⟨low, high⟩ := bounds hn
  obtain ⟨low', high'⟩ := bounds hd
  have above : (num / den : ℚ) < 2 ^ ((num.log2 : ℤ) - den.log2 + 1) := by
    rw [div_lt_iff₀ den_pos]
    calc (num : ℚ) < 2 ^ ((num.log2 : ℤ) + 1) := high
      _ = 2 ^ ((num.log2 : ℤ) - den.log2 + 1) * 2 ^ (den.log2 : ℤ) := (two_zpow_mul (by omega)).symm
      _ ≤ 2 ^ ((num.log2 : ℤ) - den.log2 + 1) * den := by gcongr
  have below : (2 : ℚ) ^ ((num.log2 : ℤ) - den.log2 - 1) ≤ num / den := by
    rw [le_div_iff₀ den_pos]
    calc (2 : ℚ) ^ ((num.log2 : ℤ) - den.log2 - 1) * den
        ≤ 2 ^ ((num.log2 : ℤ) - den.log2 - 1) * 2 ^ ((den.log2 : ℤ) + 1) := by gcongr
      _ = 2 ^ (num.log2 : ℤ) := two_zpow_mul (by omega)
      _ ≤ num := low
  have guess (e : ℤ) : den * pow2 e.toNat ≤ num * pow2 (-e).toNat ↔ (2 : ℚ) ^ e ≤ num / den := by
    rw [zpow_two, div_le_div_iff₀ (Nat.cast_pos.2 (pow2_pos _)) den_pos, mul_comm den]
    exact_mod_cast Iff.rfl
  unfold floorLog2
  dsimp only
  split
  · next fits => exact ⟨(guess _).1 fits, above⟩
  · next large =>
    refine ⟨below, ?_⟩
    rw [sub_add_cancel, ← not_le]
    exact fun h => large ((guess _).2 h)

end

namespace FloatFormat

variable {f : FloatFormat} {num den : ℕ}

/-- The exponents reach beyond the bits of a significand. -/
structure IsWide (f : FloatFormat) : Prop where
  exponents : 2 ≤ f.exponentBits
  fractions : f.fractionBits < f.bias

theorem isWide_single : single.IsWide := ⟨by decide, by decide⟩

theorem isWide_double : double.IsWide := ⟨by decide, by decide⟩

/-- The least number that is rounded to infinity: half a unit below the first power of two that is out
of range. -/
def limit (f : FloatFormat) : ℕ := pow2 (f.bias + 1) - pow2 (f.bias - f.fractionBits - 1)

theorem infinity_eq (h : f.IsWide) : f.infinity = (2 * f.bias + 1) * pow2 f.fractionBits := by
  have exponents := h.exponents
  have half : pow2 f.exponentBits = 2 * pow2 (f.exponentBits - 1) := by
    change 2 ^ f.exponentBits = 2 * 2 ^ (f.exponentBits - 1)
    rw [← pow_succ', Nat.sub_add_cancel (by omega)]
  have pos := pow2_pos (f.exponentBits - 1)
  rw [infinity, bias, half]
  congr 1
  omega

/-- A significand of ones and one half more, in the place of the greatest finite numbers. -/
theorem limit_eq (h : f.IsWide) : (f.limit : ℚ) =
    (2 * pow2 f.fractionBits - 1 / 2) * 2 ^ ((f.bias : ℤ) - f.fractionBits) := by
  have fractions := h.fractions
  have less : pow2 (f.bias - f.fractionBits - 1) ≤ pow2 (f.bias + 1) :=
    Nat.pow_le_pow_right (by decide) (by omega)
  have whole : (2 : ℚ) ^ ((f.bias + 1 : ℕ) : ℤ) =
      2 * 2 ^ (f.fractionBits : ℤ) * 2 ^ ((f.bias : ℤ) - f.fractionBits) := by
    rw [mul_assoc, two_zpow_mul rfl, ← zpow_one_add₀ (by norm_num)]
    congr 1
    omega
  have half : (2 : ℚ) ^ ((f.bias - f.fractionBits - 1 : ℕ) : ℤ) =
      2 ^ ((f.bias : ℤ) - f.fractionBits) / 2 := by
    rw [div_eq_mul_inv, ← zpow_sub_one₀ (by norm_num)]
    congr 1
    omega
  rw [limit, Nat.cast_sub less, cast_pow2, cast_pow2, cast_pow2, whole, half]
  ring

theorem limit_bounds (h : f.IsWide) :
    (2 : ℚ) ^ (f.bias : ℤ) ≤ f.limit ∧ (f.limit : ℚ) ≤ 2 ^ ((f.bias : ℤ) + 1) := by
  have unit : (0 : ℚ) < 2 ^ ((f.bias : ℤ) - f.fractionBits) := zpow_pos (by norm_num) _
  have place : (2 : ℚ) ^ (f.bias : ℤ) = pow2 f.fractionBits * 2 ^ ((f.bias : ℤ) - f.fractionBits) := by
    rw [cast_pow2]
    exact (two_zpow_mul (by omega)).symm
  have one : (1 : ℚ) ≤ pow2 f.fractionBits := Nat.one_le_cast.2 (pow2_pos _)
  rw [limit_eq h, zpow_add_one₀ (by norm_num), place]
  constructor <;> nlinarith

/-! What is added up before the result is cut off at infinity, by the place of the significand. -/

section

variable {unit : ℤ}

/-- Below the greatest finite numbers there is room for a significand that is rounded up. -/
theorem add_lt_infinity (h : f.IsWide) (hd : 0 < den) (place : unit < f.bias - f.fractionBits)
    (fits : (num / den : ℚ) < 2 * pow2 f.fractionBits) :
    (unit - f.leastUnit).toNat * pow2 f.fractionBits + roundHalfEven num den < f.infinity := by
  have rounded : roundHalfEven num den ≤ 2 * pow2 f.fractionBits :=
    roundHalfEven_le hd (by exact_mod_cast fits)
  have least : f.leastUnit = 1 - (f.bias : ℤ) - f.fractionBits := rfl
  have fractions := h.fractions
  calc _ ≤ (2 * f.bias - 2) * pow2 f.fractionBits + 2 * pow2 f.fractionBits :=
        Nat.add_le_add (Nat.mul_le_mul_right _ (by omega)) rounded
    _ = (2 * f.bias - 2 + 2) * pow2 f.fractionBits := (Nat.add_mul ..).symm
    _ < (2 * f.bias + 1) * pow2 f.fractionBits := Nat.mul_lt_mul_of_pos_right (by omega) (pow2_pos _)
    _ = f.infinity := (infinity_eq h).symm

/-- In the place of the greatest finite numbers a significand of ones has to be rounded up. -/
theorem infinity_le_add_iff (h : f.IsWide) (hd : 0 < den) (place : unit = f.bias - f.fractionBits) :
    f.infinity ≤ (unit - f.leastUnit).toNat * pow2 f.fractionBits + roundHalfEven num den ↔
      (2 * pow2 f.fractionBits - 1 / 2 : ℚ) ≤ num / den := by
  have least : f.leastUnit = 1 - (f.bias : ℤ) - f.fractionBits := rfl
  have fractions := h.fractions
  have exponent : (unit - f.leastUnit).toNat = 2 * f.bias - 1 := by omega
  have whole : f.infinity = (2 * f.bias - 1) * pow2 f.fractionBits + 2 * pow2 f.fractionBits := by
    rw [infinity_eq h, ← Nat.add_mul]
    congr 1
    omega
  have pos := pow2_pos f.fractionBits
  have ones : ((2 * pow2 f.fractionBits - 1 : ℕ) : ℚ) = 2 * pow2 f.fractionBits - 1 := by
    rw [Nat.cast_sub (by omega)]
    push_cast
    rfl
  calc _ ↔ 2 * pow2 f.fractionBits ≤ roundHalfEven num den := by
        rw [exponent, whole, Nat.add_le_add_iff_left]
    _ ↔ 2 * pow2 f.fractionBits - 1 < roundHalfEven num den := by omega
    _ ↔ ((2 * pow2 f.fractionBits - 1 : ℕ) + 1 / 2 : ℚ) ≤ num / den :=
        lt_roundHalfEven_iff (by omega) hd
    _ ↔ (2 * pow2 f.fractionBits - 1 / 2 : ℚ) ≤ num / den := by
        rw [ones]
        ring_nf

theorem infinity_le_add (h : f.IsWide) (hd : 0 < den) (place : f.bias - f.fractionBits < unit)
    (full : (pow2 f.fractionBits : ℚ) ≤ num / den) :
    f.infinity ≤ (unit - f.leastUnit).toNat * pow2 f.fractionBits + roundHalfEven num den := by
  have least : f.leastUnit = 1 - (f.bias : ℤ) - f.fractionBits := rfl
  calc f.infinity = 2 * f.bias * pow2 f.fractionBits + pow2 f.fractionBits := by
        rw [infinity_eq h, Nat.add_mul, one_mul]
    _ ≤ _ := Nat.add_le_add (Nat.mul_le_mul_right _ (by omega)) (le_roundHalfEven hd full)

end

theorem infinity_le_iff (h : f.IsWide) (hn : 0 < num) (hd : 0 < den) :
    let unit := max (floorLog2 num den - f.fractionBits) f.leastUnit
    f.infinity ≤ (unit - f.leastUnit).toNat * pow2 f.fractionBits +
        roundHalfEven (num * pow2 (-unit).toNat) (den * pow2 unit.toNat) ↔
      (f.limit : ℚ) ≤ num / den := by
  obtain ⟨low, high⟩ := floorLog2_spec hn hd
  obtain ⟨above_limit, below_limit⟩ := limit_bounds h
  have fractions := h.fractions
  have least : f.leastUnit = 1 - (f.bias : ℤ) - f.fractionBits := rfl
  generalize floorLog2 num den = e at *
  intro unit
  have hd' : 0 < den * pow2 unit.toNat := Nat.mul_pos hd (pow2_pos _)
  have scaled := scaled_div num den unit
  have unit_pos : (0 : ℚ) < 2 ^ unit := zpow_pos (by norm_num) _
  have mono {a b : ℤ} (le : a ≤ b) : (2 : ℚ) ^ a ≤ 2 ^ b := zpow_le_zpow_right₀ (by norm_num) le
  rcases lt_trichotomy e f.bias with below | rfl | above
  · have finite : (num / den : ℚ) < f.limit := (high.trans_le (mono (by omega))).trans_le above_limit
    refine iff_of_false (not_le.2 (add_lt_infinity h hd' (by omega) ?_)) (not_le.2 finite)
    rw [scaled, div_lt_iff₀ unit_pos, cast_pow2, mul_assoc, two_zpow_mul rfl,
      ← zpow_one_add₀ (by norm_num)]
    exact high.trans_le (mono (by omega))
  · have place : unit = (f.bias : ℤ) - f.fractionBits := by omega
    rw [infinity_le_add_iff h hd' place, scaled, le_div_iff₀ unit_pos, limit_eq h, place]
  · refine iff_of_true (infinity_le_add h hd' (by omega) ?_)
      (below_limit.trans ((mono (by omega)).trans low))
    rw [scaled, le_div_iff₀ unit_pos, cast_pow2, two_zpow_mul rfl]
    exact (mono (by omega)).trans low

theorem nearest_eq_infinity_iff (h : f.IsWide) (hd : 0 < den) :
    f.nearest num den = f.infinity ↔ f.limit * den ≤ num := by
  have pos : 0 < f.infinity := infinity_eq h ▸ Nat.mul_pos (by omega) (pow2_pos _)
  rcases Nat.eq_zero_or_pos num with rfl | hn
  · have limit : 0 < f.limit := by
      have := (limit_bounds h).1
      exact_mod_cast (zpow_pos (by norm_num : (0 : ℚ) < 2) _).trans_le this
    have none : f.nearest 0 den = 0 := if_pos rfl
    have : 0 < f.limit * den := Nat.mul_pos limit hd
    omega
  · rw [nearest, if_neg hn.ne', min_eq_right_iff]
    refine (infinity_le_iff h hn hd).trans ?_
    rw [le_div_iff₀ (Nat.cast_pos.2 hd)]
    exact_mod_cast Iff.rfl

theorem nearest_le (num den : ℕ) : f.nearest num den ≤ f.infinity := by
  unfold nearest
  split
  · exact Nat.zero_le _
  · exact min_le_right _ _

end FloatFormat
end ClassAsm
