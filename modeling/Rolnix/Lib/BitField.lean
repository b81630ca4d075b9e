import Mathlib.Data.Nat.Bitwise

/-!
# Bit fields

A word that is put together from masked and shifted parts, read bit by bit. Each part contributes to
one range of bits: `getLsbD_part` is about a part that a mask of consecutive ones cuts out of a word,
`getLsbD_widened` about a part that is a narrower word.
-/

namespace BitField

variable {w v : Nat}

/-- The `w`-bit word with ones at the `n` bits from `lo` on. -/
def ones (w lo n : Nat) : BitVec w := BitVec.ofNat w ((2 ^ n - 1) * 2 ^ lo)

theorem getLsbD_ones (w lo n i : Nat) :
    (ones w lo n).getLsbD i = decide (i < w ∧ lo ≤ i ∧ i < lo + n) := by
  rw [ones, BitVec.getLsbD_ofNat, Nat.testBit_mul_two_pow, Nat.testBit_two_pow_sub_one]
  by_cases hlo : lo ≤ i
  · simp [hlo, show i - lo < n ↔ i < lo + n by omega]
  · simp [hlo]

theorem getLsbD_masked (x : BitVec w) (lo n j : Nat) :
    (x &&& ones w lo n).getLsbD j = (decide (j < w ∧ lo ≤ j ∧ j < lo + n) && x.getLsbD j) := by
  rw [BitVec.getLsbD_and, getLsbD_ones, Bool.and_comm]

theorem getLsbD_part (x : BitVec w) (lo n k j : Nat) :
    ((x &&& ones w lo n) <<< k).getLsbD j =
      (decide (j < w ∧ lo + k ≤ j ∧ j < lo + k + n) && x.getLsbD (j - k)) := by
  rw [BitVec.getLsbD_shiftLeft, getLsbD_masked]
  by_cases hj : j < w
  · by_cases hk : k ≤ j
    · simp [hj, hk, show j - k < w by omega, show lo ≤ j - k ↔ lo + k ≤ j by omega,
        show j - k < lo + n ↔ j < lo + k + n by omega]
    · simp [hj, show ¬ lo + k ≤ j by omega, show j < k by omega]
  · simp [hj]

theorem getLsbD_widened (x : BitVec v) (k j : Nat) :
    (x.setWidth w <<< k).getLsbD j =
      (decide (j < w ∧ k ≤ j ∧ j < k + v) && x.getLsbD (j - k)) := by
  rw [BitVec.getLsbD_shiftLeft, BitVec.getLsbD_setWidth]
  by_cases hj : j < w
  · by_cases hk : k ≤ j
    · by_cases hv : j < k + v
      · simp [hj, hk, hv, show j - k < w by omega]
      · simp [hv, BitVec.getLsbD_of_ge x (j - k) (by omega)]
    · simp [hk, show j < k by omega]
  · simp [hj]

end BitField
