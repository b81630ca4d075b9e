import Mathlib.Algebra.BigOperators.Group.Finset.Piecewise
import Mathlib.Algebra.Order.BigOperators.Group.Finset
import Mathlib.Data.List.Nodup

/-!
# Counting over a family of lists

`∑ i ∈ s, (B i).count a` says how often `a` occurs over the lists `B i`. A family in which every
element occurs at most once has lists without repetitions, no two of which meet. `sum_update` says
what exchanging one term does to such a sum, and to the number of places with a given value
(`card_update`).
-/

namespace Counts

open Finset

variable {ι α : Type*} [DecidableEq α] {s : Finset ι} {B : ι → List α} {i j : ι} {a : α}

theorem sum_update {β : Type*} [DecidableEq ι] (hi : i ∈ s) (f : ι → β) (g : β → Nat) (v : β) :
    ∑ j ∈ s, g (Function.update f i v j) + g (f i) = ∑ j ∈ s, g (f j) + g v := by
  have hrest : ∑ j ∈ s.erase i, g (Function.update f i v j) = ∑ j ∈ s.erase i, g (f j) :=
    sum_congr rfl fun j hj => by rw [Function.update_of_ne (ne_of_mem_erase hj)]
  rw [← add_sum_erase s _ hi, ← add_sum_erase s (fun j => g (f j)) hi, hrest,
    Function.update_self]
  omega

theorem sum_count_update [DecidableEq ι] (hi : i ∈ s) (B : ι → List α) (l : List α) (a : α) :
    ∑ j ∈ s, (Function.update B i l j).count a + (B i).count a =
      ∑ j ∈ s, (B j).count a + l.count a :=
  sum_update hi B (fun l => l.count a) l

theorem card_update [DecidableEq ι] (hi : i ∈ s) (f : ι → Option α) (o : Option α) (a : α) :
    (s.filter fun j => Function.update f i o j = some a).card + (if f i = some a then 1 else 0) =
      (s.filter fun j => f j = some a).card + if o = some a then 1 else 0 := by
  rw [card_filter, card_filter]
  exact sum_update hi f (fun x => if x = some a then 1 else 0) o

theorem count_le_sum (hi : i ∈ s) (B : ι → List α) (a : α) :
    (B i).count a ≤ ∑ j ∈ s, (B j).count a :=
  single_le_sum (f := fun j => (B j).count a) (fun _ _ => Nat.zero_le _) hi

theorem sum_count_eq_zero (h : ∀ i ∈ s, a ∉ B i) : ∑ i ∈ s, (B i).count a = 0 :=
  sum_eq_zero fun i hi => List.count_eq_zero_of_not_mem (h i hi)

section Once

variable (h : ∀ a, ∑ i ∈ s, (B i).count a ≤ 1)

include h

theorem nodup_of_once (hi : i ∈ s) : (B i).Nodup :=
  List.nodup_iff_count_le_one.2 fun a => (count_le_sum hi B a).trans (h a)

theorem sum_count_eq_one (hi : i ∈ s) (ha : a ∈ B i) : ∑ i ∈ s, (B i).count a = 1 := by
  have hpos := List.count_pos_iff.2 ha
  have hle := count_le_sum hi B a
  have := h a
  omega

theorem eq_of_mem [DecidableEq ι] (hi : i ∈ s) (hj : j ∈ s) (hai : a ∈ B i) (haj : a ∈ B j) : i = j := by
  by_contra hne
  have hj' : j ∈ s.erase i := mem_erase.2 ⟨Ne.symm hne, hj⟩
  have hsum := add_sum_erase s (fun k => (B k).count a) hi
  have hle := count_le_sum hj' B a
  have hposi := List.count_pos_iff.2 hai
  have hposj := List.count_pos_iff.2 haj
  have := h a
  omega

end Once

end Counts
