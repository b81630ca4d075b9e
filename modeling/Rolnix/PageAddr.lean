import Rolnix.PageEntry

/-!
# Virtual addresses

The path of a virtual address through the tables. On canonical addresses two paths are the same
exactly for addresses of the same page (`path_eq_iff`), and the addresses of a page differ in their
offset only.
-/

namespace Rolnix

variable {va w o : Nat}

/-- The slots of `va`, from the root down. -/
def path (va : Nat) : List Nat := [3, 2, 1, 0].map (index va)

/-- The slots of `va` in the upper tables. -/
def upper (va : Nat) : List Nat := [3, 2, 1].map (index va)

theorem length_path (va : Nat) : (path va).length = 4 := rfl

theorem length_upper (va : Nat) : (upper va).length = 3 := rfl

theorem path_eq (va : Nat) : path va = upper va ++ [index va 0] := rfl

theorem index_eq (va level : Nat) : index va level = va / 2 ^ (12 + 9 * level) % 512 := by
  have h : index va level = (va >>> (12 + 9 * level)) % 2 ^ 9 :=
    Nat.and_two_pow_sub_one_eq_mod _ 9
  rw [h, Nat.shiftRight_eq_div_pow]
  rfl

theorem isCanonical_iff (hva : va < 2 ^ 64) :
    isCanonical va = true ↔ va < 2 ^ 47 ∨ 2 ^ 64 - 2 ^ 47 ≤ va := by
  simp only [isCanonical, Nat.and_one_is_mod, Nat.shiftRight_eq_div_pow]
  split_ifs with h
  · rw [decide_eq_true_iff]
    omega
  · rw [decide_eq_true_iff]
    omega

theorem div_eq_iff {k m : Nat} (hm : m = k + 9) : va / 2 ^ k = w / 2 ^ k ↔
    va / 2 ^ m = w / 2 ^ m ∧ va / 2 ^ k % 512 = w / 2 ^ k % 512 := by
  rw [hm, Nat.pow_add, ← Nat.div_div_eq_div_mul, ← Nat.div_div_eq_div_mul]
  omega

theorem upper_eq_iff (hva : va < 2 ^ 64) (hw : w < 2 ^ 64) (hcva : isCanonical va = true)
    (hcw : isCanonical w = true) : upper va = upper w ↔ va / largePage = w / largePage := by
  rw [isCanonical_iff hva] at hcva
  rw [isCanonical_iff hw] at hcw
  -- what is above the first slot follows from its highest bit
  have htop : va / 2 ^ 39 = w / 2 ^ 39 ↔ va / 2 ^ 39 % 512 = w / 2 ^ 39 % 512 := by omega
  rw [show largePage = 2 ^ 21 from rfl, div_eq_iff (show 30 = 21 + 9 from rfl),
    div_eq_iff (show 39 = 30 + 9 from rfl), htop]
  simp only [upper, List.map_cons, List.map_nil, List.cons.injEq, and_true, index_eq, and_assoc]

/-- **Canonical addresses with the same path are on the same page.** -/
theorem path_eq_iff (hva : va < 2 ^ 64) (hw : w < 2 ^ 64) (hcva : isCanonical va = true)
    (hcw : isCanonical w = true) : path va = path w ↔ va / frameSize = w / frameSize := by
  rw [show frameSize = 2 ^ 12 from rfl, div_eq_iff (show 21 = 12 + 9 from rfl),
    show 2 ^ 21 = largePage from rfl, ← upper_eq_iff hva hw hcva hcw, path_eq, path_eq]
  constructor
  · intro h
    obtain ⟨hupper, hlast⟩ := List.append_inj h (by rw [length_upper, length_upper])
    rw [index_eq, index_eq] at hlast
    exact ⟨hupper, (List.cons.inj hlast).1⟩
  · rintro ⟨hupper, hlast⟩
    rw [hupper, index_eq, index_eq]
    exact congrArg _ (congrArg (fun i => [i]) hlast)

/-- **A canonical address leads through the upper tables of another exactly if they are on the same
large page.** -/
theorem upper_isPrefix_iff (hva : va < 2 ^ 64) (hw : w < 2 ^ 64) (hcva : isCanonical va = true)
    (hcw : isCanonical w = true) : upper w <+: path va ↔ w / largePage = va / largePage := by
  have hshort : upper w ≠ upper va ++ [index va 0] := by
    intro h
    have hlen := congrArg List.length h
    rw [List.length_append, length_upper, length_upper] at hlen
    cases hlen
  have hsame : upper w <+: upper va ↔ upper w = upper va :=
    ⟨fun h => h.eq_of_length (by rw [length_upper, length_upper]), fun h => h ▸ List.prefix_rfl⟩
  rw [path_eq, List.prefix_concat_iff, or_iff_right hshort, hsame, upper_eq_iff hw hva hcw hcva]

theorem path_page (va : Nat) : path (va / frameSize * frameSize) = path va := by
  simp only [path, List.map_cons, List.map_nil, List.cons.injEq, and_true, index_eq, frameSize]
  omega

theorem page_offset (hva : va < 2 ^ 64) (hal : va % frameSize = 0) (ho : o < frameSize) :
    va + o < 2 ^ 64 ∧ isCanonical (va + o) = isCanonical va ∧
      (va + o) / frameSize = va / frameSize ∧ (va + o) % frameSize = o := by
  simp only [frameSize] at hal ho ⊢
  have hlt : va + o < 2 ^ 64 := by omega
  refine ⟨hlt, ?_, by omega, by omega⟩
  rw [Bool.eq_iff_iff, isCanonical_iff hva, isCanonical_iff hlt]
  omega

theorem and_page_mask (va : Nat) : va &&& 0xfff = va % frameSize :=
  Nat.and_two_pow_sub_one_eq_mod va 12

theorem and_large_mask (va : Nat) : va &&& 0x1fffff = va % largePage :=
  Nat.and_two_pow_sub_one_eq_mod va 21

end Rolnix
