import Mathlib.Data.Nat.Bitwise
import Mathlib.Data.Nat.Log
import Mathlib.Data.Nat.Size

/-! Rounding up to a power of two: the highest one of a number is copied to all places below it, by
shifts that double. -/
namespace Mixnet.BitSmear
variable {n y m : ℕ}

/-- `m` has a one where `y` has one less than `n` places above. -/
def Smeared (n y m : ℕ) : Prop := ∀ i, m.testBit i = true ↔ ∃ j < n, y.testBit (i + j) = true

theorem smeared_self (y : ℕ) : Smeared 1 y y := by
  intro i
  constructor
  · intro h
    exact ⟨0, Nat.zero_lt_one, h⟩
  · rintro ⟨j, hj, h⟩
    obtain rfl : j = 0 := by omega
    exact h

theorem Smeared.double (h : Smeared n y m) : Smeared (2 * n) y (m ||| m >>> n) := by
  intro i
  rw [Nat.testBit_or, Nat.testBit_shiftRight, Bool.or_eq_true, h i, h (n + i)]
  constructor
  · rintro (⟨j, hj, hy⟩ | ⟨j, hj, hy⟩)
    · exact ⟨j, by omega, hy⟩
    · refine ⟨n + j, by omega, ?_⟩
      rwa [show i + (n + j) = n + i + j by omega]
  · rintro ⟨j, hj, hy⟩
    by_cases hjn : j < n
    · exact Or.inl ⟨j, hjn, hy⟩
    · refine Or.inr ⟨j - n, by omega, ?_⟩
      rwa [show n + i + (j - n) = i + j by omega]

theorem Smeared.eq_ones (h : Smeared n y m) (hy : y < 2 ^ n) : m = 2 ^ y.size - 1 := by
  refine Nat.eq_of_testBit_eq fun i => ?_
  rw [Nat.testBit_two_pow_sub_one, Bool.eq_iff_iff, decide_eq_true_iff, h i]
  constructor
  · rintro ⟨j, -, hbit⟩
    by_contra hle
    have hlt : y < 2 ^ (i + j) := Nat.size_le.mp (by omega)
    rw [Nat.testBit_lt_two_pow hlt] at hbit
    simp at hbit
  · intro hi
    obtain ⟨k, hk⟩ := Nat.exists_eq_succ_of_ne_zero (show y.size ≠ 0 by omega)
    have hkn : k < n := by
      have hsize := Nat.size_le.mpr hy
      omega
    have hpos : y ≠ 0 := by
      rintro rfl
      simp at hk
    have hlog : y.log2 = k := by
      have hlow : ¬ y < 2 ^ k := fun hlt => by
        have hsize := Nat.size_le.mpr hlt
        omega
      have hhigh : y < 2 ^ (k + 1) := Nat.size_le.mp hk.le
      exact (Nat.log2_eq_iff hpos).mpr ⟨Nat.not_lt.mp hlow, hhigh⟩
    refine ⟨k - i, by omega, ?_⟩
    rw [show i + (k - i) = k by omega, ← hlog]
    exact Nat.testBit_log2 hpos

theorem size_eq_clog (y : ℕ) : y.size = Nat.clog 2 (y + 1) := by
  apply Nat.le_antisymm
  · exact Nat.size_le.mpr (Nat.le_pow_clog Nat.one_lt_two (y + 1))
  · exact Nat.clog_le_of_le_pow (Nat.lt_size_self y)

/-- The number after that is the least power of two above `y`. -/
theorem Smeared.succ_eq (h : Smeared n y m) (hy : y < 2 ^ n) :
    m + 1 = 2 ^ Nat.clog 2 (y + 1) := by
  have hpos : 0 < 2 ^ y.size := Nat.two_pow_pos y.size
  rw [h.eq_ones hy, Nat.sub_add_cancel hpos, size_eq_clog]

end Mixnet.BitSmear
