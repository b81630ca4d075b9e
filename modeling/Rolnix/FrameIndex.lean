import Rolnix.BootReserved
import Rolnix.OneRegion

/-!
# Frame numbers as 32-bit indices

The boot code counts frames in 64 bits, and the frame table and the free lists use `u32` indices of
which the last one ends a list. No conversion is checked, and only the untyped specs are compared
with the limit. So `pmm_init` accepts a machine whose frames have no faithful index.

* `indices_faithful_iff`: the indices of a machine that was initialized are faithful, and the scan
  for free frames covers the table, exactly if the usable entries end below the last index.
* `oneRegion_full_alias`: with 16 TiB of memory they are not.
-/

namespace Rolnix

open Machine

/-- Frame `idx` is usable and outside of the kernel image. -/
def BootInfo.UsableIndex (boot : BootInfo) (idx : Nat) : Prop :=
  boot.InUsable (idx * frameSize) ∧ ¬ boot.InSplit (idx * frameSize)

/-- Cutting frame numbers to 32 bits loses nothing: usable frames have indices of their own, none of
them is the end of a list, and the scan for free frames covers the frame table. -/
structure FaithfulIndices (boot : BootInfo) (info : PmInitOut) (s : Machine) : Prop where
  small : ∀ idx, boot.UsableIndex idx → idx < 2 ^ 32 - 1
  distinct : ∀ idx idx', boot.UsableIndex idx → boot.UsableIndex idx' →
    idx % 2 ^ 32 = idx' % 2 ^ 32 → idx = idx'
  valid : ∀ idx, idx < s.numFrames → idx ≠ listEnd
  scanned : s.totalFrames % 2 ^ 32 = info.totalFrames

/-- Usable memory outside of the image ends at `bound`, and no empty usable entry lies beyond. -/
def BootInfo.EndsBy (boot : BootInfo) (bound : Nat) : Prop :=
  (∀ x, boot.InUsable x → ¬ boot.InSplit x → x < bound) ∧
    ∀ r ∈ boot.regions, r.kind = .usable → r.len = 0 →
      ¬ (boot.kernelImage.2 ≠ 0 ∧ boot.imageStart < r.start ∧ r.start < boot.imageEnd) →
      r.start ≤ bound

section Indices

variable {boot : BootInfo} {bound heapLen idx : Nat} {specs : List UntypedSpec}
  {outUntyped caps : List UntypedCap} {info : PmInitOut} {s : Machine} {mem : ByteMem}

theorem maxUsableEnd_le_iff
    (hends : ∀ r ∈ boot.regions, r.kind = .usable → r.start + r.len < 2 ^ 64) :
    maxUsableEnd boot.effective ≤ bound ↔ boot.EndsBy bound := by
  constructor
  · intro hle
    constructor
    · intro x husable himage
      obtain ⟨region, hregion, hu, hge, hlt⟩ := husable
      obtain ⟨r, hr, hu', -, hlt'⟩ := exists_effective_iff.2 ⟨region, hregion, hu, hge, hlt, himage⟩
      exact hlt'.trans_le ((le_maxUsableEnd hr hu').trans hle)
    · intro r hr hu hempty hout
      have hend : r.end = r.start := by
        rw [MemoryRegion.end, Word.add_of_lt (hends r hr hu), hempty, Nat.add_zero]
      have hnot : ¬ (r.kind = .usable ∧ boot.kernelImage.2 ≠ 0 ∧ boot.imageStart < r.end ∧
          r.start < boot.imageEnd) := by
        rw [hend]
        exact fun h => hout h.2
      have hmem : r ∈ boot.effective := by
        refine List.mem_flatMap.2 ⟨r, hr, ?_⟩
        rw [regionParts, if_neg hnot]
        exact List.mem_singleton.2 rfl
      rw [← hend]
      exact (le_maxUsableEnd hmem hu).trans hle
  · intro hby
    refine maxUsableEnd_of (P := fun e => e ≤ bound) (Nat.zero_le bound) ?_
    intro r hr hu
    by_cases hne : r.start < r.end
    · have hlast := inUsable_of_effective (x := r.end - 1) hr hu (by omega) (by omega)
      have := hby.1 _ hlast.1 hlast.2
      omega
    · -- only an empty region of the map has no byte
      obtain ⟨region, hregion, hpart⟩ := List.mem_flatMap.1 hr
      rcases mem_regionParts hpart with ⟨rfl, hnot⟩ | ⟨hu', -, -, ⟨hs, he, hlt, -⟩ | ⟨hs, he, -, hlt⟩⟩
      · have hend := hends r hregion hu
        rw [MemoryRegion.end, Word.add_of_lt hend] at hne hnot ⊢
        have hempty : r.len = 0 := by omega
        rw [hempty, Nat.add_zero] at hnot ⊢
        exact hby.2 r hregion hu hempty fun h => hnot ⟨hu, h⟩
      · omega
      · omega

theorem pmmInit_numFrames (hu64 : boot.IsU64)
    (h : Returns (pmmInit boot specs outUntyped heapLen) (Machine.reset mem) (info, caps) s) :
    s.numFrames * frameSize = maxUsableEnd boot.effective ∧ info.totalFrames = s.numFrames := by
  obtain ⟨regions, ftPhys, heapEnd, bootAlloc, s₁, s₂, s₃, s₄, s₅, s₆, hrun⟩ := pmmInit_returns h
  obtain ⟨rfl, -⟩ := buildEffective_returns hrun.effective
  obtain ⟨hmod, hmax⟩ := maxUsableEnd_aligned (effective_aligned hu64 hrun.aligned)
  obtain ⟨-, -, hnum⟩ := hrun.kept
  refine ⟨?_, hnum.symm⟩
  rw [hnum, hrun.info]
  show ceilDiv (maxUsableEnd boot.effective) frameSize * frameSize = maxUsableEnd boot.effective
  rw [ceilDiv_aligned hmod hmax]
  exact Nat.div_mul_cancel (Nat.dvd_of_mod_eq_zero hmod)

theorem UsableIndex.lt (hidx : boot.UsableIndex idx) :
    idx * frameSize < maxUsableEnd boot.effective := by
  obtain ⟨⟨region, hregion, hu, hge, hlt⟩, himage⟩ := hidx
  obtain ⟨r, hr, hu', -, hlt'⟩ := exists_effective_iff.2 ⟨region, hregion, hu, hge, hlt, himage⟩
  exact hlt'.trans_le (le_maxUsableEnd hr hu')

/-- **When frame indices are faithful.** After `pmm_init` returned `Ok`, usable frames have indices of
their own that no list ends with, and all of the frame table was scanned for free frames, if and
only if usable memory ends at the frame with the last index. -/
theorem indices_faithful_iff (hu64 : boot.IsU64)
    (hends : ∀ r ∈ boot.regions, r.kind = .usable → r.start + r.len ≤ 2 ^ 64 - 4096)
    (h : Returns (pmmInit boot specs outUntyped heapLen) (Machine.reset mem) (info, caps) s) :
    FaithfulIndices boot info s ↔ boot.EndsBy ((2 ^ 32 - 1) * frameSize) := by
  obtain ⟨hnum, htotal⟩ := pmmInit_numFrames hu64 h
  rw [← maxUsableEnd_le_iff fun r hr hu => by have := hends r hr hu; omega, ← hnum]
  constructor
  · intro hfaithful
    have hle : s.numFrames ≤ 2 ^ 32 - 1 := by
      by_contra hgt
      exact hfaithful.valid listEnd (by simp only [listEnd]; omega) rfl
    exact Nat.mul_le_mul_right _ hle
  · intro hle
    have hcount : s.numFrames ≤ 2 ^ 32 - 1 := Nat.le_of_mul_le_mul_right hle (by decide)
    have hsmall : ∀ idx, boot.UsableIndex idx → idx < 2 ^ 32 - 1 := by
      intro idx hidx
      have hlt := UsableIndex.lt hidx
      rw [← hnum] at hlt
      exact (Nat.lt_of_mul_lt_mul_right hlt).trans_le hcount
    refine ⟨hsmall, ?_, ?_, ?_⟩
    · intro idx idx' hidx hidx' heq
      have hlt := hsmall idx hidx
      have hlt' := hsmall idx' hidx'
      rwa [Nat.mod_eq_of_lt (by omega), Nat.mod_eq_of_lt (by omega)] at heq
    · intro idx hidx
      simp only [listEnd]
      omega
    · rw [htotal, totalFrames_eq]
      exact Nat.mod_eq_of_lt (by omega)

end Indices

theorem indices_faithful_small :
    ∃ info s, Returns (pmmInit smallBoot [] [] 0) (Machine.reset fun _ => 0) (info, []) s ∧
      FaithfulIndices smallBoot info s := by
  obtain ⟨info, s, hinit, -⟩ := smallBoot_returns
  refine ⟨info, s, hinit, ?_⟩
  refine (indices_faithful_iff ⟨by decide, by decide, by decide⟩ (by decide) hinit).2 ?_
  exact (maxUsableEnd_le_iff (by decide)).1 (by decide +kernel)

/-- **With 16 TiB of memory** `pmm_init` returns `Ok`. The frame with the last index is free, although
that index ends a list, and no frame is scanned. -/
theorem oneRegion_full_alias :
    ∃ info s, Returns (pmmInit (oneRegion (2 ^ 32)) [] [] 0) (Machine.reset fun _ => 0) (info, []) s ∧
      listEnd < s.numFrames ∧ (s.frames listEnd).owner = .free ∧
      s.totalFrames % 2 ^ 32 = 0 ∧ info.totalFrames = 2 ^ 32 ∧
      ¬ FaithfulIndices (oneRegion (2 ^ 32)) info s := by
  obtain ⟨info, s, hinit, htotal, hnum, -, -, -, -, howner⟩ := oneRegion_full fun _ => 0
  have hvalid : listEnd < s.numFrames := by
    rw [hnum]
    decide
  refine ⟨info, s, hinit, hvalid, ?_, ?_, htotal, fun h => h.valid listEnd hvalid rfl⟩
  · rw [howner, if_pos]
    exact ⟨by decide, by decide⟩
  · rw [totalFrames_eq, hnum, Nat.mod_self]

end Rolnix
