import Rolnix.TablePages

/-!
# Reserved entries of the memory map

`pmm_init` looks at the usable entries only. A reserved entry takes part neither in the placement of
the frame table and the heap nor in the marking loop, and an overlap is noticed only between two
usable entries that mark the same frame. So reserved memory inside of a usable entry, as firmware
maps may have it, is handed out (`reserved_handed_out`).

What `pmm_init` takes is a function of the map (`BootInfo.Takes`). From it follows which overlaps of
reserved with usable entries do no harm: those in memory that is left alone anyway
(`reserved_respected_iff`). If there are none at all, and usable memory ends below 16 TiB, the
reserved entries are respected (`overlapsSpared_of_apart`).
-/

namespace Rolnix

open Machine

/-! ## What `pmm_init` takes -/

/-- The byte is in the frame table or the heap. -/
def BootInfo.InAreas (boot : BootInfo) (heapLen ftPhys heapPhys x : Nat) : Prop :=
  ftPhys ≤ x ∧ x < ftPhys + tableBytes boot.effective ∨ heapPhys ≤ x ∧ x < heapPhys + heapLen

/-- The byte becomes part of the frame table, of the heap, or of a frame that is handed out. -/
def BootInfo.Takes (boot : BootInfo) (heapLen x : Nat) : Prop :=
  ∃ ftPhys heapPhys, boot.placement heapLen = some (ftPhys, heapPhys) ∧
    (boot.InAreas heapLen ftPhys heapPhys x ∨
      ∃ f, MarkedIndex boot.effective ftPhys (boot.skipEnd heapLen ftPhys heapPhys) f ∧ InFrame f x)

/-- A byte of a reserved entry. -/
def BootInfo.InReserved (boot : BootInfo) (x : Nat) : Prop :=
  ∃ r ∈ boot.regions, r.kind = .reserved ∧ r.Contains x

/-- A byte of a usable entry. -/
def BootInfo.InUsable (boot : BootInfo) (x : Nat) : Prop :=
  ∃ r ∈ boot.regions, r.kind = .usable ∧ r.start ≤ x ∧ x < r.end

/-- A byte of the kernel image, with the bounds the code computes. -/
def BootInfo.InSplit (boot : BootInfo) (x : Nat) : Prop :=
  boot.kernelImage.2 ≠ 0 ∧ boot.imageStart ≤ x ∧ x < boot.imageEnd

/-- Usable memory that is left alone: the kernel image and, outside of the frame table and the heap,
what the marking loop skips and what has no frame index. -/
def BootInfo.Spares (boot : BootInfo) (heapLen ftPhys heapPhys x : Nat) : Prop :=
  boot.InSplit x ∨ ¬ boot.InAreas heapLen ftPhys heapPhys x ∧
    (¬ Poolable ftPhys (boot.skipEnd heapLen ftPhys heapPhys) (x / frameSize) ∨ 2 ^ 44 ≤ x)

/-- A reserved entry overlaps a usable one only in memory that is left alone, and no frame number
that is cut to 32 bits becomes that of a frame with reserved memory. -/
def BootInfo.OverlapsSpared (boot : BootInfo) (heapLen : Nat) : Prop :=
  ∀ ftPhys heapPhys, boot.placement heapLen = some (ftPhys, heapPhys) →
    (∀ x, boot.InUsable x → boot.InReserved x → boot.Spares heapLen ftPhys heapPhys x) ∧
    ∀ idx, 2 ^ 32 ≤ idx →
      Marked boot.effective ftPhys (boot.skipEnd heapLen ftPhys heapPhys) idx →
      ∀ x, InFrame (idx % 2 ^ 32) x → ¬ boot.InReserved x

section Placement

variable {boot : BootInfo} {heapLen ftPhys heapPhys heapEnd x : Nat} {info : PmInitOut} {s : Machine}
  {before after : List MemoryRegion} {r : MemoryRegion}

/-- **What the map says is what the run took.** -/
theorem PmmLaidOut.takes_iff (h : PmmLaidOut boot heapLen info s heapPhys heapEnd before r after) :
    boot.Takes heapLen x ↔ (s.InTable x ∨ info.InHeap x) ∨
      ∃ f, ((s.frames f).owner.tag = .free ∨ (s.frames f).owner.tag = .untyped) ∧ InFrame f x := by
  obtain ⟨heapPhys', hplace, heq, hend⟩ := h.placement
  have hheap : info.InHeap x ↔ heapPhys' ≤ x ∧ x < heapPhys' + heapLen := by
    rw [PmInitOut.InHeap, h.heapPhys_eq, h.heapLen_eq]
    split_ifs with hlen
    · rw [hlen]
      omega
    · rw [heq hlen]
  simp only [BootInfo.Takes, hplace, Option.some.injEq, Prod.mk.injEq]
  simp only [h.marked, hheap, InTable, h.bytes, BootInfo.InAreas]
  constructor
  · rintro ⟨ftPhys', heapPhys'', ⟨rfl, rfl⟩, htakes⟩
    rwa [hend] at htakes
  · intro htakes
    refine ⟨_, _, ⟨rfl, rfl⟩, ?_⟩
    rwa [hend]

/-! ## Which overlaps do no harm -/

theorem inUsable_of_effective (hr : r ∈ boot.effective) (hu : r.kind = .usable) (hge : r.start ≤ x)
    (hlt : x < r.end) : boot.InUsable x ∧ ¬ boot.InSplit x := by
  obtain ⟨region, hregion, hu', hge', hlt', hout⟩ := exists_effective_iff.1 ⟨r, hr, hu, hge, hlt⟩
  exact ⟨⟨region, hregion, hu', hge', hlt'⟩, hout⟩

theorem placement_inside (hal : FrameAligned boot.effective)
    (h : boot.placement heapLen = some (ftPhys, heapPhys)) :
    (∃ r ∈ boot.effective, r.kind = .usable ∧ r.start ≤ ftPhys ∧
        ftPhys + tableBytes boot.effective ≤ r.end) ∧
      (heapLen ≠ 0 → ∃ r ∈ boot.effective, r.kind = .usable ∧ r.start ≤ heapPhys ∧
        heapPhys + heapLen ≤ r.end) := by
  obtain ⟨r, after, -, hr, hfits, rfl, hheap⟩ := placement_regions h
  refine ⟨⟨r, hr, hfits.1, le_rfl, hfits.2⟩, fun hlen => ?_⟩
  rcases hheap with ⟨rfl, hroom, -⟩ | ⟨r', hr', hfits', rfl, -⟩
  · refine ⟨r, hr, hfits.1, ?_, hroom hlen⟩
    exact (Nat.le_add_right _ _).trans (le_behind hal hr hfits)
  · exact ⟨r', hr', hfits'.1, le_rfl, hfits'.2⟩

theorem usable_of_inAreas (hal : FrameAligned boot.effective)
    (hplace : boot.placement heapLen = some (ftPhys, heapPhys))
    (h : boot.InAreas heapLen ftPhys heapPhys x) : boot.InUsable x ∧ ¬ boot.InSplit x := by
  obtain ⟨⟨r, hr, hu, hge, hle⟩, hheap⟩ := placement_inside hal hplace
  rcases h with ⟨hxge, hxlt⟩ | ⟨hxge, hxlt⟩
  · exact inUsable_of_effective hr hu (by omega) (by omega)
  · obtain ⟨r', hr', hu', hge', hle'⟩ := hheap (by omega)
    exact inUsable_of_effective hr' hu' (by omega) (by omega)

/-- **Nothing reserved is taken exactly if the overlaps are spared.** -/
theorem overlapsSpared_iff (hal : FrameAligned boot.effective) :
    (∀ x, boot.InReserved x → ¬ boot.Takes heapLen x) ↔ boot.OverlapsSpared heapLen := by
  constructor
  · intro hclear ftPhys heapPhys hplace
    constructor
    · intro x husable hreserved
      have hnot := hclear x hreserved
      refine Classical.or_iff_not_imp_left.2 fun himage => ⟨fun harea => ?_, ?_⟩
      · exact hnot ⟨ftPhys, heapPhys, hplace, Or.inl harea⟩
      · -- a poolable frame with an index would be handed out
        by_contra hpool
        simp only [not_or, not_not, not_le] at hpool
        obtain ⟨region, hregion, hu, hge, hlt⟩ := husable
        obtain ⟨part, hpart, hu', hge', hlt'⟩ :=
          exists_effective_iff.2 ⟨region, hregion, hu, hge, hlt, himage⟩
        have hmod := (hal part hpart hu').2.1
        have hin : InFrame (x / frameSize) x := by
          simp only [InFrame, frameSize]
          omega
        have hindex : x / frameSize % 2 ^ 32 = x / frameSize := by
          simp only [frameSize]
          omega
        refine hnot ⟨ftPhys, heapPhys, hplace, Or.inr ⟨x / frameSize, ⟨x / frameSize, ?_, hindex⟩, hin⟩⟩
        exact ⟨⟨part, hpart, hu', hin.le_of_aligned hmod hge', hin.1.trans_lt hlt'⟩, hpool.1⟩
    · intro idx _ hmarked x hin hreserved
      exact hclear x hreserved ⟨ftPhys, heapPhys, hplace, Or.inr ⟨_, ⟨idx, hmarked, rfl⟩, hin⟩⟩
  · rintro hspared x hreserved ⟨ftPhys, heapPhys, hplace, htakes⟩
    obtain ⟨hoverlap, halias⟩ := hspared ftPhys heapPhys hplace
    rcases htakes with harea | ⟨f, ⟨idx, hmarked, rfl⟩, hin⟩
    · obtain ⟨husable, himage⟩ := usable_of_inAreas hal hplace harea
      exact ((hoverlap x husable hreserved).resolve_left himage).1 harea
    · by_cases hidx : 2 ^ 32 ≤ idx
      · exact halias idx hidx hmarked x hin hreserved
      · rw [Nat.mod_eq_of_lt (not_le.1 hidx)] at hin
        obtain ⟨⟨part, hpart, hu, hholds⟩, hpool⟩ := hmarked
        have hmod := (hal part hpart hu).2.2
        obtain ⟨hge, hlt⟩ := hin
        obtain ⟨hge', hlt'⟩ := hholds
        simp only [frameSize] at hge hlt hge' hlt' hmod
        obtain ⟨husable, himage⟩ := inUsable_of_effective hpart hu (show part.start ≤ x by omega)
          (by omega)
        have hframe : x / frameSize = idx := by
          simp only [frameSize]
          omega
        rcases ((hoverlap x husable hreserved).resolve_left himage).2 with hnot | hhigh
        · rw [hframe] at hnot
          exact hnot hpool
        · omega

/-- **A map that keeps reserved and usable memory apart.** -/
theorem overlapsSpared_of_apart (hbelow : boot.Below16TiB)
    (hapart : ∀ x, boot.InUsable x → ¬ boot.InReserved x) : boot.OverlapsSpared heapLen := by
  intro ftPhys heapPhys _
  refine ⟨fun x husable hreserved => absurd hreserved (hapart x husable), fun idx hidx hmarked => ?_⟩
  exact absurd (hmarked.lt_of_below hbelow) (not_lt.2 hidx)

end Placement

/-! ## Reserved memory in the pool -/

/-- A map with a reserved frame inside of the usable entry. -/
def shadowBoot : BootInfo where
  physmapBase := 0xffff800000000000
  regions := [⟨0x100000, 0xa000, .usable⟩, ⟨0x105000, 0x1000, .reserved⟩]
  kernelImage := (0, 0)

/-- **`pmm_init` accepts the map and hands out the reserved frame.** -/
theorem reserved_handed_out :
    ∃ info caps s, shadowBoot.IsU64 ∧
      (shadowBoot.regions.Pairwise fun r r' => r.start ≤ r'.start) ∧
      Returns (pmmInit shadowBoot [] [] 0) (Machine.reset fun _ => 0) (info, caps) s ∧
      (s.frames 0x105).owner = .free ∧ ∀ x, InFrame 0x105 x → shadowBoot.InReserved x := by
  have hrun : ((finish (pmmInit shadowBoot [] [] 0) (Machine.reset fun _ => 0)).map fun r =>
      (r.2.frames 0x105).owner) = some .free := by
    decide +kernel
  obtain ⟨⟨⟨info, caps⟩, s⟩, hinit, howner⟩ := Option.map_eq_some_iff.1 hrun
  refine ⟨info, caps, s, ⟨by decide, by decide, by decide⟩, by decide, returns_of_finish hinit, howner,
    ?_⟩
  intro x hx
  exact ⟨⟨0x105000, 0x1000, .reserved⟩, by simp [shadowBoot], rfl, hx⟩

/-- **The reserved entries are respected exactly if they overlap usable ones only where memory is left
alone.** -/
theorem reserved_respected_iff {boot : BootInfo} {specs : List UntypedSpec}
    {outUntyped caps : List UntypedCap} {heapLen : Nat} {mem : ByteMem} {info : PmInitOut}
    {s : Machine} (hu64 : boot.IsU64)
    (h : BootsApart boot specs outUntyped heapLen mem info caps s) :
    ((∀ f, (s.frames f).owner.tag = .free ∨ (s.frames f).owner.tag = .untyped →
        ∀ x, InFrame f x → ¬ boot.InReserved x) ∧
      ∀ x, s.InTable x ∨ info.InHeap x → ¬ boot.InReserved x) ↔
    boot.OverlapsSpared heapLen := by
  obtain ⟨-, heapPhys, heapEnd, before, r, after, hlaid⟩ := pmmInit_laidOut hu64 h.returns
  rw [← overlapsSpared_iff hlaid.aligned]
  constructor
  · rintro ⟨hframes, hbytes⟩ x hx htakes
    rcases hlaid.takes_iff.1 htakes with harea | ⟨f, howner, hin⟩
    · exact hbytes x harea hx
    · exact hframes f howner x hin hx
  · intro hclear
    constructor
    · intro f howner x hin hx
      exact hclear x hx (hlaid.takes_iff.2 (Or.inr ⟨f, howner, hin⟩))
    · intro x harea hx
      exact hclear x hx (hlaid.takes_iff.2 (Or.inl harea))

/-- The reserved entry of this map is above all usable memory. -/
theorem reserved_respected_small :
    ∃ info caps s, Returns (pmmInit poolBoot [] [] 0x1000) (Machine.reset fun _ => 0) (info, caps) s ∧
      poolBoot.InReserved 0x200000 ∧
      ∀ x, s.InTable x ∨ info.InHeap x → ¬ poolBoot.InReserved x := by
  have hrun : (finish (pmmInit poolBoot [] [] 0x1000) (Machine.reset fun _ => 0)).isSome = true := by
    decide +kernel
  obtain ⟨⟨⟨info, caps⟩, s⟩, hinit⟩ := Option.isSome_iff_exists.1 hrun
  have hu64 : poolBoot.IsU64 := ⟨by decide, by decide, by decide⟩
  have hlow : ∀ r ∈ poolBoot.regions, r.kind = .usable → r.end ≤ 0x200000 := by decide
  have hhigh : ∀ r ∈ poolBoot.regions, r.kind = .reserved → 0x200000 ≤ r.start := by decide
  have hspared : poolBoot.OverlapsSpared 0x1000 := by
    refine overlapsSpared_of_apart (by decide) ?_
    rintro x ⟨r, hr, hu, -, hlt⟩ ⟨r', hr', hu', hge, -⟩
    exact absurd ((hhigh r' hr' hu').trans hge) (not_le.2 (hlt.trans_le (hlow r hr hu)))
  refine ⟨info, caps, s, returns_of_finish hinit, ?_,
    ((reserved_respected_iff hu64 ⟨poolBoot_apart, returns_of_finish hinit⟩).2 hspared).2⟩
  exact ⟨⟨0x200000, 0x1000, .reserved⟩, by simp [poolBoot], rfl, by decide, by decide⟩

end Rolnix
