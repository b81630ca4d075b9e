import Rolnix.BootGaps
import Rolnix.Ram

/-!
# Frame-table pages in the pool

The marking loop of `pmm_init` skips one range, from the start of the frame table to the end of the
heap. If the map has overlaps, the heap may be placed in a region that starts before the frame table
ends, and what is left of the frame table behind the heap becomes free memory: a frame is handed out
that holds the metadata of other frames, and whoever writes to it (the free lists themselves, a page
table, a process) changes their owners and counts.

`BootInfo.TableApart` is the condition on the map under which this does not happen, stated with what
`pmm_init` computes from the map alone. It says exactly that no frame of the pool holds a byte of the
frame table (`tableApart_iff`); it holds of every map without overlaps (`MapOk.tableApart`), and of
every map if no heap is asked for (`tableApart_noHeap`).
-/

namespace Rolnix

open Machine

/-- The end of what the marking loop skips. -/
def BootInfo.skipEnd (boot : BootInfo) (heapLen ftPhys heapPhys : Nat) : Nat :=
  if heapLen = 0 then ftPhys + tableBytes boot.effective else heapPhys + heapLen

/-- No frame that is marked as free memory holds bytes of the frame table. -/
def BootInfo.TableApart (boot : BootInfo) (heapLen : Nat) : Prop :=
  ∀ ftPhys heapPhys, boot.placement heapLen = some (ftPhys, heapPhys) →
    ∀ f, MarkedIndex boot.effective ftPhys (boot.skipEnd heapLen ftPhys heapPhys) f →
      ∀ x, InFrame f x → ¬ (ftPhys ≤ x ∧ x < ftPhys + tableBytes boot.effective)

/-- `pmm_init` returned, on a map that keeps the frame table out of the pool. -/
structure BootsApart (boot : BootInfo) (specs : List UntypedSpec) (outUntyped : List UntypedCap)
    (heapLen : Nat) (mem : ByteMem) (info : PmInitOut) (caps : List UntypedCap) (s : Machine) :
    Prop where
  apart : boot.TableApart heapLen
  returns : Returns (pmmInit boot specs outUntyped heapLen) (Machine.reset mem) (info, caps) s

section

variable {boot : BootInfo} {heapLen ftPhys heapPhys heapEnd : Nat} {info : PmInitOut} {s : Machine}
  {before after : List MemoryRegion} {r r' : MemoryRegion}

theorem InitRun.placement {specs : List UntypedSpec} {outUntyped caps : List UntypedCap}
    {bootAlloc : BootAllocator} {s' s₁ s₂ s₃ s₄ s₅ s₆ : Machine}
    (h : InitRun boot specs outUntyped heapLen s info caps s' boot.effective ftPhys heapEnd bootAlloc
      s₁ s₂ s₃ s₄ s₅ s₆) (hal : FrameAligned boot.effective) :
    ∃ heapPhys, boot.placement heapLen = some (ftPhys, heapPhys) ∧
      heapEnd = boot.skipEnd heapLen ftPhys heapPhys := by
  obtain ⟨heapPhys, before, r, after, hlayout, hend, -⟩ := h.layout hal
  obtain ⟨heapPhys', hplace, heq⟩ := hlayout.placement_eq
  refine ⟨heapPhys', hplace, ?_⟩
  rw [hend, BootInfo.skipEnd]
  split_ifs with hlen
  · rfl
  · rw [heq hlen]

theorem PmmLaidOut.placement
    (h : PmmLaidOut boot heapLen info s heapPhys heapEnd before r after) :
    ∃ heapPhys', boot.placement heapLen = some (s.tablePhys, heapPhys') ∧
      (heapLen ≠ 0 → heapPhys' = heapPhys) ∧
      boot.skipEnd heapLen s.tablePhys heapPhys' = heapEnd := by
  obtain ⟨heapPhys', hplace, heq⟩ := h.layout.placement_eq
  refine ⟨heapPhys', hplace, heq, ?_⟩
  rw [BootInfo.skipEnd, h.heapEnd_eq]
  split_ifs with hlen
  · rfl
  · rw [heq hlen]

/-- **The condition on the map says that the pool is apart from the frame table.** -/
theorem PmmLaidOut.tableApart_iff
    (h : PmmLaidOut boot heapLen info s heapPhys heapEnd before r after) :
    boot.TableApart heapLen ↔
      ∀ f, (s.frames f).owner.tag = .free ∨ (s.frames f).owner.tag = .untyped →
        ∀ x, InFrame f x → ¬ s.InTable x := by
  obtain ⟨heapPhys', hplace, -, hend⟩ := h.placement
  simp only [h.marked, InTable, h.bytes]
  constructor
  · intro hapart f hf
    exact hapart _ _ hplace f (by rwa [hend])
  · intro hpool ftPhys heapPhys₁ hplace₁ f hf
    obtain ⟨rfl, rfl⟩ := Prod.mk.inj (Option.some.inj (hplace.symm.trans hplace₁))
    exact hpool f (by rwa [← hend])

theorem Marked.lt_of_below {skipEnd idx : Nat} (hbelow : boot.Below16TiB)
    (h : Marked boot.effective ftPhys skipEnd idx) : idx < 2 ^ 32 := by
  obtain ⟨⟨part, hpart, hu, -, hlt⟩, -⟩ := h
  have hend : part.end ≤ 2 ^ 44 - 1 :=
    effective_end_le (fun r hr hu => by have := hbelow r hr hu; omega) part hpart hu
  simp only [frameSize] at hlt
  omega

theorem le_behind (hal : FrameAligned boot.effective) (hr : r ∈ boot.effective)
    (hfits : r.Fits (tableBytes boot.effective)) :
    r.start + tableBytes boot.effective ≤
      Word.alignUp 64 (r.start + tableBytes boot.effective) frameSize := by
  have hend := end_lt r
  have hmod := (hal r hr hfits.1).2.2
  have hle := hfits.2
  rw [frameSize_eq] at hmod ⊢
  exact (Word.alignUp_spec (by decide) (by omega)).1

/-- For `TableApart` it is enough that the skipped range covers the frame table. -/
theorem tableApart_of_skip (hal : FrameAligned boot.effective) (hbelow : boot.Below16TiB)
    (hskip : 0 < tableBytes boot.effective → ∀ ftPhys heapPhys,
      boot.placement heapLen = some (ftPhys, heapPhys) →
      ftPhys + tableBytes boot.effective ≤ boot.skipEnd heapLen ftPhys heapPhys) :
    boot.TableApart heapLen := by
  rintro ftPhys heapPhys hplace f ⟨idx, hmarked, rfl⟩ x hin ⟨hge, hlt⟩
  rw [Nat.mod_eq_of_lt (hmarked.lt_of_below hbelow)] at hin
  obtain ⟨r, after, -, hr, hfits, rfl, -⟩ := placement_regions hplace
  have hmod := (hal r hr hfits.1).2.1
  refine hmarked.2.2 ⟨hin.le_of_aligned hmod hge, ?_⟩
  exact (hin.1.trans_lt hlt).trans_le (hskip (by omega) _ _ hplace)

theorem tableApart_noHeap (hu64 : boot.IsU64) (hal : ∀ r ∈ boot.regions, misaligned r = false)
    (hbelow : boot.Below16TiB) : boot.TableApart 0 :=
  tableApart_of_skip (effective_aligned hu64 hal) hbelow fun _ _ _ _ => le_of_eq (if_pos rfl).symm

/-- A heap in another region is in a later one. -/
theorem BootInfo.HeapElsewhere.endsBefore (h : boot.HeapElsewhere heapLen r r')
    (horder : boot.effective.Pairwise EndsBefore) : EndsBefore r r' := by
  obtain ⟨-, after, hdrop, -, hfind⟩ := h
  have hsub := List.dropWhile_sublist (l := boot.effective)
    fun r => !decide (r.Fits (tableBytes boot.effective))
  rw [hdrop] at hsub
  exact List.rel_of_pairwise_cons (horder.sublist hsub) (List.mem_of_find?_eq_some hfind)

/-- **A map without overlaps keeps the frame table out of the pool.** -/
theorem BootInfo.MapOk.tableApart (hmap : boot.MapOk) (himage : boot.ImageFits)
    (hu64 : boot.IsU64) (hal : ∀ r ∈ boot.regions, misaligned r = false) :
    boot.TableApart heapLen := by
  have hal' := effective_aligned hu64 hal
  refine tableApart_of_skip hal' hmap.below16TiB fun hpos ftPhys heapPhys hplace => ?_
  rw [BootInfo.skipEnd]
  split_ifs with hlen
  · exact le_rfl
  refine le_trans ?_ (Nat.le_add_right heapPhys heapLen)
  obtain ⟨r, after, -, hr, hfits, rfl, hheap⟩ := placement_regions hplace
  rcases hheap with ⟨rfl, -⟩ | ⟨r', hr', hfits', rfl, helse⟩
  · exact le_behind hal' hr hfits
  · have horder := effective_endsBefore hmap (imageStart_le_imageEnd himage)
    have hbefore := ((helse r r').2 ⟨rfl, rfl⟩).endsBefore horder
    have hle := hfits.2
    have hle' := hfits'.2
    exact hle.trans (hbefore hfits.1 hfits'.1 (by omega) (by omega))

end

theorem poolBoot_apart : poolBoot.TableApart 0x1000 :=
  poolBoot_mapOk.tableApart (fun _ => by decide) ⟨by decide, by decide, by decide⟩ (by decide)

theorem smallBoot_apart : smallBoot.TableApart 0 :=
  tableApart_noHeap ⟨by decide, by decide, by decide⟩ (by decide) smallBoot_below

/-! ## A map with an overlap -/

/-- A map of usable regions, without a kernel image. -/
def usableBoot (regions : List (Nat × Nat)) : BootInfo where
  physmapBase := 0xffff800000000000
  regions := regions.map fun r => ⟨r.1, r.2, .usable⟩
  kernelImage := (0, 0)

/-- The frame table fills the first region up to 16 bytes of its last frame, and a heap of one frame
goes to the second region, which is the first frame of the table. -/
def nestedBoot : BootInfo :=
  usableBoot [(0x100000, 0x3000), (0x100000, 0x1000), (0x155000, 0x1000)]

theorem nestedBoot_not_apart : ¬ nestedBoot.TableApart 0x1000 := by
  intro h
  have hplace : nestedBoot.placement 0x1000 = some (0x100000, 0x100000) := by decide +kernel
  have heffective : nestedBoot.effective = nestedBoot.regions := by decide +kernel
  refine h _ _ hplace 0x101 ⟨0x101, ⟨⟨⟨0x100000, 0x3000, .usable⟩, ?_, rfl, ?_⟩, ?_⟩, rfl⟩ 0x101000 ?_ ?_
  · rw [heffective]
    exact List.mem_cons_self
  · exact ⟨by decide, by decide⟩
  · exact ⟨by decide, by decide⟩
  · exact ⟨by decide, by decide⟩
  · rw [heffective]
    decide

end Rolnix
