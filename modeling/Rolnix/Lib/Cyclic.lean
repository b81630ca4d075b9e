import Mathlib.Data.List.Basic
import Mathlib.Order.Nat

/-!
# Cyclic search

The indices below `n` in cyclic order, and the search of a round-robin scheduler over them: the
first index after `cur` that satisfies `P`, looking at each index other than `cur` once. `gap`
measures how far ahead of `cur` an index is. A search that passes over `p` ends closer to it
(`wait_next`), so an index that keeps satisfying `P` is found within `n - 1` searches.
-/

namespace Cyclic

variable {n cur p q i : Nat} {P : Nat → Bool}

/-- The first index after `cur` that satisfies `P`. -/
def next (n cur : Nat) (P : Nat → Bool) : Option Nat :=
  ((List.range' 1 (n - 1)).map fun i => (cur + i) % n).find? P

/-- How many steps `p` is ahead of `cur`. -/
def gap (n cur p : Nat) : Nat := if cur ≤ p then p - cur else n - cur + p

theorem gap_self : gap n cur cur = 0 := by
  simp [gap]

theorem gap_lt (hcur : cur < n) (hp : p < n) : gap n cur p < n := by
  unfold gap
  split <;> omega

theorem gap_pos (hcur : cur < n) (hne : p ≠ cur) : 0 < gap n cur p := by
  unfold gap
  split <;> omega

theorem add_mod (hcur : cur < n) (hi : i < n) :
    (cur + i) % n = if cur + i < n then cur + i else cur + i - n := by
  by_cases h : cur + i < n
  · rw [if_pos h, Nat.mod_eq_of_lt h]
  · rw [if_neg h, Nat.mod_eq_sub_mod (Nat.le_of_not_lt h), Nat.mod_eq_of_lt (by omega)]

theorem add_gap (hcur : cur < n) (hp : p < n) : (cur + gap n cur p) % n = p := by
  rw [add_mod hcur (gap_lt hcur hp)]
  unfold gap
  split <;> split <;> omega

theorem gap_add_mod (hcur : cur < n) (hi : i < n) : gap n cur ((cur + i) % n) = i := by
  rw [add_mod hcur hi]
  unfold gap
  split <;> split <;> omega

theorem gap_add (hcur : cur < n) (hq : q < n) (hp : p < n)
    (hle : gap n cur q ≤ gap n cur p) : gap n cur q + gap n q p = gap n cur p := by
  unfold gap at hle ⊢
  by_cases hcq : cur ≤ q <;> by_cases hcp : cur ≤ p <;> by_cases hqp : q ≤ p <;>
    simp only [hcq, hcp, hqp, if_true, if_false] at hle ⊢ <;> omega

/-- **What the search finds:** the nearest index ahead of `cur` that satisfies `P`. -/
theorem next_some (hcur : cur < n) (h : next n cur P = some q) :
    q < n ∧ q ≠ cur ∧ P q = true ∧
      ∀ p, p < n → p ≠ cur → P p = true → gap n cur q ≤ gap n cur p := by
  obtain ⟨hq, i, hi, heq, hbefore⟩ := List.find?_eq_some_iff_getElem.1 h
  simp only [List.length_map, List.length_range'] at hi
  simp only [List.getElem_map, List.getElem_range', Nat.one_mul] at heq hbefore
  have hgap : gap n cur q = 1 + i := by rw [← heq, gap_add_mod hcur (by omega)]
  refine ⟨heq ▸ Nat.mod_lt _ (by omega), ?_, hq, fun p hp hne hP => ?_⟩
  · rintro rfl
    rw [gap_self] at hgap
    omega
  · -- a nearer index would have been looked at first
    by_contra hlt
    have hpos := gap_pos hcur hne
    have hskip := hbefore (gap n cur p - 1) (by omega)
    rw [Nat.add_sub_cancel' hpos, add_gap hcur hp, hP] at hskip
    cases hskip

/-- **The search fails** only if no other index satisfies `P`. -/
theorem next_none (hcur : cur < n) (h : next n cur P = none) (hp : p < n) (hne : p ≠ cur) :
    P p = false := by
  have hmem : p ∈ (List.range' 1 (n - 1)).map fun i => (cur + i) % n := by
    refine List.mem_map.2 ⟨gap n cur p, ?_, add_gap hcur hp⟩
    have hpos := gap_pos hcur hne
    have hlt := gap_lt hcur hp
    rw [List.mem_range'_1]
    omega
  exact Bool.eq_false_iff.2 (List.find?_eq_none.1 h p hmem)

/-! ## Waiting to be found -/

/-- The number of searches after which `p` is found at the latest. An index at `cur` waits for a
whole turn. -/
def wait (n cur p : Nat) : Nat := if p = cur then n else gap n cur p

theorem wait_pos (hcur : cur < n) : 0 < wait n cur p := by
  unfold wait
  split
  · omega
  · exact gap_pos hcur ‹_›

theorem wait_le (hcur : cur < n) (hp : p < n) : wait n cur p ≤ n := by
  unfold wait
  split
  · exact Nat.le_refl n
  · exact Nat.le_of_lt (gap_lt hcur hp)

theorem wait_lt (hcur : cur < n) (hp : p < n) (hne : p ≠ cur) : wait n cur p < n := by
  rw [wait, if_neg hne]
  exact gap_lt hcur hp

/-- **A search that finds another index brings `p` closer.** -/
theorem wait_next (hcur : cur < n) (hp : p < n) (h : next n cur P = some q)
    (hP : p ≠ cur → P p = true) (hne : q ≠ p) : wait n q p < wait n cur p := by
  obtain ⟨hq, hqcur, -, hnear⟩ := next_some hcur h
  by_cases hpcur : p = cur
  · rw [show wait n cur p = n from if_pos hpcur]
    exact wait_lt hq hp hne.symm
  · have hadd := gap_add hcur hq hp (hnear p hp hpcur (hP hpcur))
    have hpos := gap_pos hcur hqcur
    rw [wait, wait, if_neg hne.symm, if_neg hpcur]
    omega

end Cyclic
