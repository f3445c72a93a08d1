import Mathlib

namespace Traitor.Lib.PowersOfTwo

variable {n w x : Nat}

/-- Every bit of a number is set in the places below it too, fewer than so many. -/
def Smeared (n w x : Nat) : Prop := ∀ i, x.testBit i ↔ ∃ j < w, n.testBit (i + j)

theorem Smeared.start (n : Nat) : Smeared n 1 n := by
  intro i
  constructor
  · intro h
    exact ⟨0, Nat.one_pos, h⟩
  · rintro ⟨j, hj, h⟩
    obtain rfl : j = 0 := Nat.lt_one_iff.mp hj
    exact h

/-- A shift by the width doubles it. -/
theorem Smeared.double (h : Smeared n w x) : Smeared n (2 * w) (x ||| x >>> w) := by
  intro i
  rw [Nat.testBit_or, Nat.testBit_shiftRight, Bool.or_eq_true, h i, h (w + i)]
  constructor
  · rintro (⟨j, hj, hbit⟩ | ⟨j, hj, hbit⟩)
    · exact ⟨j, by omega, hbit⟩
    · exact ⟨w + j, by omega, by rwa [show i + (w + j) = w + i + j by omega]⟩
  · rintro ⟨j, hj, hbit⟩
    by_cases hlow : j < w
    · exact .inl ⟨j, hlow, hbit⟩
    · exact .inr ⟨j - w, by omega, by rwa [show w + i + (j - w) = i + j by omega]⟩

theorem Smeared.eq (h : Smeared n w x) (hn : n < 2 ^ w) : x = 2 ^ n.size - 1 := by
  apply Nat.eq_of_testBit_eq
  intro i
  rw [Nat.testBit_two_pow_sub_one, Bool.eq_iff_iff, h i, decide_eq_true_iff, Nat.lt_size]
  constructor
  · rintro ⟨j, -, hbit⟩
    exact (Nat.pow_le_pow_right (by decide) (Nat.le_add_right i j)).trans (Nat.ge_two_pow_of_testBit hbit)
  · intro hle
    obtain ⟨k, hk, hbit⟩ := Nat.exists_ge_and_testBit_of_ge_two_pow hle
    have hlt : k < w := (Nat.pow_lt_pow_iff_right (by decide)).mp ((Nat.ge_two_pow_of_testBit hbit).trans_lt hn)
    exact ⟨k - i, by omega, by rwa [Nat.add_sub_cancel' hk]⟩

theorem isLeast_two_pow_size (n : Nat) : IsLeast {c | (∃ k, c = 2 ^ k) ∧ n < c} (2 ^ n.size) := by
  constructor
  · exact ⟨⟨n.size, rfl⟩, Nat.lt_size_self n⟩
  · rintro _ ⟨⟨k, rfl⟩, hlt⟩
    exact Nat.pow_le_pow_right (by decide) (Nat.size_le.mpr hlt)

end Traitor.Lib.PowersOfTwo
