import Mathlib.Data.List.TakeWhile
import Std.Data.String.ToNat
import ClassAsm.Method.Draft

/-! Labels. A numbered label determines its stem and its number, and no numbered label is the name
of the first segment. So segments with different numbers never share a name. -/

namespace ClassAsm.Draft

/-- The label with a stem and a number. -/
def label (stem : String) (n : Nat) : String := stem ++ "_" ++ toString n

theorem toList_label (stem : String) (n : Nat) :
    (label stem n).toList = stem.toList ++ '_' :: Nat.toDigits 10 n := by
  simp [label, toString, Nat.toList_repr]

theorem underscore_notMem_digits (n : Nat) : '_' ∉ Nat.toDigits 10 n := by
  intro h
  have := Nat.isDigit_of_mem_toDigits (by decide) (by decide) h
  simp [Char.isDigit] at this

/-- What follows the last underscore is the number. -/
theorem number_of_label (stem : String) (n : Nat) :
    (label stem n).toList.reverse.takeWhile (· ≠ '_') = (Nat.toDigits 10 n).reverse := by
  have clean : ∀ c ∈ (Nat.toDigits 10 n).reverse, decide (c ≠ '_') = true := by
    intro c hc
    simp only [decide_eq_true_eq]
    rintro rfl
    exact underscore_notMem_digits n (List.mem_reverse.1 hc)
  rw [toList_label, List.reverse_append, List.reverse_cons, List.append_assoc,
    List.takeWhile_append_of_pos clean]
  simp

theorem label_injective {stem stem' : String} {n n' : Nat} (h : label stem n = label stem' n') :
    stem = stem' ∧ n = n' := by
  have hd : Nat.toDigits 10 n = Nat.toDigits 10 n' := by
    have := number_of_label stem n
    rw [h, number_of_label] at this
    exact (List.reverse_inj.1 this).symm
  have hs := congrArg String.toList h
  rw [toList_label, toList_label, hd] at hs
  exact ⟨String.toList_inj.1 (List.append_cancel_right hs),
    Nat.repr_injective (by rw [Nat.repr, Nat.repr, hd])⟩

theorem label_ne_start (stem : String) (n : Nat) : label stem n ≠ startName := by
  intro h
  have : '_' ∈ startName.toList := by rw [← h, toList_label]; simp
  revert this
  decide

end ClassAsm.Draft
