import Rolnix.VmmRun
import Rolnix.Lib.Counts

/-!
# Counting the leaves of a tree

How many 4 KiB leaf entries of the tree at `root` have a given frame's address. No table is shared,
so a leaf entry is the end of the walk for exactly one page (`leaf_page_unique`), and counting pages
counts entries. One call changes the walk of one page; `leafCount_update` says what that does to the
count.
-/

namespace Rolnix

open Radix

/-- The pages of an address space: four indices of nine bits. -/
def numPages : Nat := 2 ^ 36

theorem path_page_eq_iff {n va : Nat} (hn : n < numPages) :
    path (n * frameSize) = path va ↔ n = va / frameSize % numPages := by
  simp only [path, List.map_cons, List.map_nil, List.cons.injEq, and_true, index_eq, frameSize,
    numPages] at hn ⊢
  constructor
  · rintro ⟨h3, h2, h1, h0⟩
    omega
  · rintro rfl
    omega

theorem exists_canonical {n : Nat} (hn : n < numPages) :
    ∃ va < 2 ^ 64, isCanonical va = true ∧ path (n * frameSize) = path va := by
  simp only [numPages] at hn
  by_cases hlow : n < 2 ^ 35
  · have hlt : n * frameSize < 2 ^ 47 := by
      simp only [frameSize]
      omega
    exact ⟨n * frameSize, by omega, (isCanonical_iff (by omega)).2 (Or.inl hlt), rfl⟩
  · -- the upper half, sign-extended
    obtain ⟨hlt, hhigh⟩ : n * frameSize + (2 ^ 64 - 2 ^ 48) < 2 ^ 64 ∧
        2 ^ 64 - 2 ^ 47 ≤ n * frameSize + (2 ^ 64 - 2 ^ 48) := by
      simp only [frameSize]
      omega
    refine ⟨_, hlt, (isCanonical_iff hlt).2 (Or.inr hhigh), (path_page_eq_iff hn).2 ?_⟩
    simp only [frameSize, numPages]
    omega

/-- The frame of a walk that ends at a 4 KiB leaf, from the address field of the entry. -/
def leafOf : Option (Nat × Nat) → Option Nat
  | some (4, e) => some ((e &&& 0x000ffffffffff000) / frameSize)
  | _ => none

theorem leafOf_pageEntry {pa : Nat} (flags : Flags) (hpa : pa % frameSize = 0) (hlt : pa < 2 ^ 52) :
    leafOf (some (4, pageEntry pa flags)) = some (pa / frameSize) := by
  rw [leafOf, show (0x000ffffffffff000 : Nat) = (2 ^ 40 - 1) * 2 ^ 12 by decide,
    pageEntry_and_field hpa (by decide), Nat.mod_eq_of_lt hlt]

namespace Machine

variable {s s' : Machine} {root va f n : Nat}

/-- The frame of page `n`, if it has a 4 KiB leaf. -/
def leafFrame (s : Machine) (root n : Nat) : Option Nat :=
  leafOf (lookup s.entries root (path (n * frameSize)))

/-- The number of 4 KiB leaves with the address of frame `f`. -/
def leafCount (s : Machine) (root f : Nat) : Nat :=
  ((Finset.range numPages).filter fun n => s.leafFrame root n = some f).card

theorem leafFrame_path (va : Nat) :
    s.leafFrame root (va / frameSize % numPages) = leafOf (lookup s.entries root (path va)) := by
  rw [leafFrame, (path_page_eq_iff (Nat.mod_lt _ (by decide))).2 rfl]

/-- **A leaf entry belongs to one page.** -/
theorem leaf_page_unique {K : Nat → Prop} {E : Nat → Nat → Nat} {k m t i : Nat}
    (ht : Tree k K E root) (hn : n < numPages) (hm : m < numPages)
    (hwn : walk childOf E root (upper (n * frameSize)) = some t)
    (hwm : walk childOf E root (upper (m * frameSize)) = some t)
    (hin : index (n * frameSize) 0 = i) (him : index (m * frameSize) 0 = i) : n = m := by
  have hupper := ht.noSharing _ _ t le_rfl le_rfl hwn hwm
  have hpath : path (n * frameSize) = path (m * frameSize) := by
    rw [path_eq, path_eq, hupper, hin, him]
  rw [(path_page_eq_iff hn).1 hpath, Nat.mul_div_cancel m (by decide), Nat.mod_eq_of_lt hm]

theorem Holds.leafCount_eq_zero {W : Nat → Option Nat} (h : Holds root W s AddrSpace.empty)
    (f : Nat) : s.leafCount root f = 0 := by
  refine Finset.card_eq_zero.2 (Finset.filter_eq_empty_iff.2 fun n hn hframe => ?_)
  obtain ⟨va, hva, hc, hpath⟩ := exists_canonical (Finset.mem_range.1 hn)
  rw [leafFrame, hpath, h.pages va hva hc, walkOf, AddrSpace.empty] at hframe
  cases hW : W (va / frameSize) with
  | none =>
      rw [hW] at hframe
      cases hframe
  | some base =>
      rw [hW] at hframe
      cases hframe

theorem leafCount_congr
    (hpages : ∀ p, p.length = 4 → lookup s'.entries root p = lookup s.entries root p) (f : Nat) :
    s'.leafCount root f = s.leafCount root f := by
  have hframe : s'.leafFrame root = s.leafFrame root := by
    funext n
    rw [leafFrame, leafFrame, hpages _ rfl]
  rw [leafCount, leafCount, hframe]

/-- **One page changes.** -/
theorem leafCount_update {o : Option (Nat × Nat)}
    (hpages : ∀ p, p.length = 4 → lookup s'.entries root p =
      if p = path va then o else lookup s.entries root p) (f : Nat) :
    s'.leafCount root f +
        (if leafOf (lookup s.entries root (path va)) = some f then 1 else 0) =
      s.leafCount root f + if leafOf o = some f then 1 else 0 := by
  have hpage : va / frameSize % numPages ∈ Finset.range numPages :=
    Finset.mem_range.2 (Nat.mod_lt _ (by decide))
  have hframe : ∀ n ∈ Finset.range numPages, s'.leafFrame root n =
      Function.update (s.leafFrame root) (va / frameSize % numPages) (leafOf o) n := by
    intro n hn
    rw [leafFrame, hpages _ rfl]
    by_cases hnv : n = va / frameSize % numPages
    · rw [if_pos ((path_page_eq_iff (Finset.mem_range.1 hn)).2 hnv), hnv, Function.update_self]
    · rw [if_neg fun hp => hnv ((path_page_eq_iff (Finset.mem_range.1 hn)).1 hp),
        Function.update_of_ne hnv]
      rfl
  have hfilter : ((Finset.range numPages).filter fun n => s'.leafFrame root n = some f) =
      (Finset.range numPages).filter fun n =>
        Function.update (s.leafFrame root) (va / frameSize % numPages) (leafOf o) n = some f :=
    Finset.filter_congr fun n hn => by rw [hframe n hn]
  rw [leafCount, leafCount, hfilter, ← leafFrame_path]
  exact Counts.card_update hpage (s.leafFrame root) (leafOf o) f

end Machine

end Rolnix
