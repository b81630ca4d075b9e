import Mathlib.Data.Nat.Bitwise
import Mathlib.Algebra.Order.Ring.Nat
import Mathlib.Tactic.Ring

/-!
# Fixed-width unsigned arithmetic on natural numbers

`w`-bit words are natural numbers below `2 ^ w`; sums and differences wrap. Each operation has
a lemma that removes the wrap where the exact result fits, so that `omega` can finish.

Single bits are read with `Nat.testBit`; `and_two_pow_eq_zero_iff` turns the flag tests of
systems code, `x & (1 << i) == 0`, into that form.
-/

namespace Word

variable {w a b k x i : Nat}

/-- Wrapping addition. -/
def add (w a b : Nat) : Nat := (a + b) % 2 ^ w

/-- Wrapping subtraction. -/
def sub (w a b : Nat) : Nat := (a + (2 ^ w - b)) % 2 ^ w

/-- Bitwise complement. -/
def not (w a : Nat) : Nat := 2 ^ w - 1 - a

theorem add_of_lt (h : a + b < 2 ^ w) : add w a b = a + b := Nat.mod_eq_of_lt h

theorem sub_of_le (hba : b ≤ a) (ha : a < 2 ^ w) : sub w a b = a - b := by
  rw [sub, show a + (2 ^ w - b) = a - b + 2 ^ w by omega, Nat.add_mod_right,
    Nat.mod_eq_of_lt (by omega)]

theorem sub_add_cancel (ha : a < 2 ^ w) (hb : b < 2 ^ w) : sub w (add w b a) b = a := by
  rw [sub, add, Nat.mod_add_mod, Nat.add_right_comm, Nat.add_sub_of_le hb.le, Nat.add_mod_left,
    Nat.mod_eq_of_lt ha]

theorem sub_add_comm : sub w (add w a k) b = add w (sub w a b) k := by
  rw [sub, add, add, sub, Nat.mod_add_mod, Nat.mod_add_mod, Nat.add_right_comm]

theorem add_lt (w a b : Nat) : add w a b < 2 ^ w := Nat.mod_lt _ (Nat.two_pow_pos w)

theorem sub_lt (w a b : Nat) : sub w a b < 2 ^ w := Nat.mod_lt _ (Nat.two_pow_pos w)

/-! ## Masks -/

theorem and_not_two_pow_sub_one (hx : x < 2 ^ w) (hk : k ≤ w) :
    x &&& not w (2 ^ k - 1) = x / 2 ^ k * 2 ^ k := by
  have hle : 2 ^ k ≤ 2 ^ w := Nat.pow_le_pow_right (by decide) hk
  have hpos : 0 < 2 ^ k := Nat.two_pow_pos k
  have hnot : not w (2 ^ k - 1) = 2 ^ w - (2 ^ k - 1 + 1) := by rw [not]; omega
  apply Nat.eq_of_testBit_eq
  intro i
  rw [hnot, Nat.testBit_and, Nat.testBit_two_pow_sub_succ (by omega),
    Nat.testBit_two_pow_sub_one, Nat.testBit_mul_two_pow, Nat.testBit_div_two_pow]
  by_cases hik : k ≤ i
  · by_cases hiw : i < w
    · simp [hik, hiw, show ¬ i < k by omega]
    · have hxi : x.testBit i = false :=
        Nat.testBit_lt_two_pow (lt_of_lt_of_le hx (Nat.pow_le_pow_right (by decide) (by omega)))
      simp [hik, hxi]
  · simp [hik, show i < k by omega]

/-- `x & (1 << i) == 0` tests bit `i`. -/
theorem and_two_pow_eq_zero_iff : x &&& 2 ^ i = 0 ↔ x.testBit i = false := by
  rw [Nat.and_two_pow]
  have hpos : 0 < 2 ^ i := Nat.two_pow_pos i
  cases x.testBit i <;> simp

/-! ## Rounding up -/

/-- `(value + align - 1) & !(align - 1)`. -/
def alignUp (w value align : Nat) : Nat :=
  sub w (add w value align) 1 &&& not w (sub w align 1)

theorem alignUp_eq (hk : k < w) (hx : x + 2 ^ k ≤ 2 ^ w) :
    alignUp w x (2 ^ k) = (x + 2 ^ k - 1) / 2 ^ k * 2 ^ k := by
  have hpos : 0 < 2 ^ k := Nat.two_pow_pos k
  have hlt : 2 ^ k < 2 ^ w := Nat.pow_lt_pow_right (by decide) hk
  have hsub : sub w (2 ^ k) 1 = 2 ^ k - 1 := sub_of_le (by omega) hlt
  have hsum : sub w (add w x (2 ^ k)) 1 = x + 2 ^ k - 1 := by
    rcases Nat.lt_or_eq_of_le hx with hlt' | heq
    · rw [add_of_lt hlt', sub_of_le (by omega) hlt']
    · -- the sum wraps to zero, and the decrement wraps it back
      rw [add, heq, Nat.mod_self, sub, Nat.zero_add, Nat.mod_eq_of_lt (by omega)]
  rw [alignUp, hsub, hsum, and_not_two_pow_sub_one (by omega) hk.le]

/-- Whether or not the sum wraps, `alignUp` returns a multiple of `2 ^ k`. -/
theorem alignUp_aligned (hk : k < w) :
    alignUp w x (2 ^ k) % 2 ^ k = 0 ∧ alignUp w x (2 ^ k) < 2 ^ w := by
  have hlt : 2 ^ k < 2 ^ w := Nat.pow_lt_pow_right (by decide) hk
  have hsub : sub w (2 ^ k) 1 = 2 ^ k - 1 := sub_of_le (Nat.two_pow_pos k) hlt
  have hsum : sub w (add w x (2 ^ k)) 1 < 2 ^ w := sub_lt _ _ _
  rw [alignUp, hsub, and_not_two_pow_sub_one hsum hk.le]
  exact ⟨Nat.mul_mod_left _ _, lt_of_le_of_lt (Nat.div_mul_le_self _ _) hsum⟩

/-- Where the sum carries past the end, nothing of it is left. -/
theorem alignUp_of_wrap (hk : k < w) (hx : x < 2 ^ w) (hwrap : 2 ^ w < x + 2 ^ k) :
    alignUp w x (2 ^ k) = 0 := by
  have hlt : 2 ^ k < 2 ^ w := Nat.pow_lt_pow_right (by decide) hk
  have hsub : sub w (2 ^ k) 1 = 2 ^ k - 1 := sub_of_le (Nat.two_pow_pos k) hlt
  have hadd : add w x (2 ^ k) = x + 2 ^ k - 2 ^ w := by
    rw [add, Nat.mod_eq_sub_mod hwrap.le, Nat.mod_eq_of_lt (by omega)]
  rw [alignUp, hsub, hadd, sub_of_le (by omega) (by omega),
    and_not_two_pow_sub_one (by omega) hk.le, Nat.div_eq_of_lt (by omega), Nat.zero_mul]

theorem alignUp_spec (hk : k < w) (hx : x + 2 ^ k ≤ 2 ^ w) :
    x ≤ alignUp w x (2 ^ k) ∧ alignUp w x (2 ^ k) < x + 2 ^ k ∧
      2 ^ k ∣ alignUp w x (2 ^ k) := by
  have hpos : 0 < 2 ^ k := Nat.two_pow_pos k
  rw [alignUp_eq hk hx]
  have hdm := Nat.div_add_mod (x + 2 ^ k - 1) (2 ^ k)
  have hm := Nat.mod_lt (x + 2 ^ k - 1) hpos
  rw [Nat.mul_comm] at hdm
  exact ⟨by omega, by omega, Nat.dvd_mul_left _ _⟩

/-! ## Exact rounding -/

/-- The least multiple of `a` at or above `x`, over the natural numbers. -/
def ceilTo (x a : Nat) : Nat := (x + a - 1) / a * a

theorem dvd_ceilTo : a ∣ ceilTo x a := Nat.dvd_mul_left _ _

theorem le_ceilTo (ha : 0 < a) : x ≤ ceilTo x a := by
  have hdm := Nat.div_add_mod (x + a - 1) a
  have hm := Nat.mod_lt (x + a - 1) ha
  rw [Nat.mul_comm] at hdm
  unfold ceilTo
  omega

theorem ceilTo_le {q : Nat} (ha : 0 < a) (hle : x ≤ q) (hq : a ∣ q) : ceilTo x a ≤ q := by
  obtain ⟨c, rfl⟩ := hq
  have hlt : (x + a - 1) / a < c + 1 := by
    rw [Nat.div_lt_iff_lt_mul ha, Nat.add_mul, Nat.mul_comm c a]
    omega
  rw [ceilTo, Nat.mul_comm]
  exact Nat.mul_le_mul_left a (Nat.le_of_lt_succ hlt)

theorem alignUp_eq_ceilTo_iff (hk : k < w) :
    alignUp w x (2 ^ k) = ceilTo x (2 ^ k) ↔ x + 2 ^ k ≤ 2 ^ w := by
  constructor
  · intro heq
    have hpos : 0 < 2 ^ k := Nat.two_pow_pos k
    have hlt : ceilTo x (2 ^ k) < 2 ^ w := heq ▸ (alignUp_aligned hk).2
    have hle : x ≤ ceilTo x (2 ^ k) := le_ceilTo hpos
    -- both are multiples of the alignment
    obtain ⟨c, hc⟩ : 2 ^ k ∣ ceilTo x (2 ^ k) := dvd_ceilTo
    obtain ⟨d, hd⟩ : 2 ^ k ∣ 2 ^ w := Nat.pow_dvd_pow 2 hk.le
    rw [hc] at hlt hle
    rw [hd] at hlt ⊢
    have hcd : c + 1 ≤ d := Nat.lt_of_mul_lt_mul_left hlt
    have hmul := Nat.mul_le_mul_left (2 ^ k) hcd
    rw [Nat.mul_add, Nat.mul_one] at hmul
    omega
  · exact alignUp_eq hk

end Word
