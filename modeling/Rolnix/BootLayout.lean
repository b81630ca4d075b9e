import Rolnix.BootProof

/-!
# Where `pmm_init` puts the frame table and the heap

Both come from the bump allocator: the frame table at the start of the first region with room for
it, the heap after it in the same region, or at the start of the first later region with room
(`Layout`). In a memory map that is in address order and has no overlaps the heap is after the
frame table (`Layout.heap_after`).
-/

namespace Rolnix

/-- The region is usable and has room for `size` bytes at its start. -/
def MemoryRegion.Fits (r : MemoryRegion) (size : Nat) : Prop :=
  r.kind = .usable ∧ r.start + size ≤ r.end

/-- The bytes of a region. -/
def MemoryRegion.Contains (r : MemoryRegion) (x : Nat) : Prop := r.start ≤ x ∧ x < r.start + r.len

/-- The usable regions are made of whole frames. -/
def FrameAligned (regions : List MemoryRegion) : Prop :=
  ∀ r ∈ regions, r.kind = .usable → r.start < 2 ^ 64 ∧ r.start % frameSize = 0 ∧ r.end % frameSize = 0

theorem frameSize_eq : frameSize = 2 ^ 12 := by decide

theorem alignUp_of_aligned {x : Nat} (hlt : x < 2 ^ 64) (hal : x % frameSize = 0) :
    Word.alignUp 64 x frameSize = x := by
  rw [frameSize_eq] at hal ⊢
  rw [Word.alignUp_eq (by decide) (by omega)]
  omega

/-! ## The boot allocator -/

namespace BootAllocator

variable {size start fuel : Nat} {ba ba' : BootAllocator}

/-- The regions the allocator has not left. -/
def left (ba : BootAllocator) : List MemoryRegion := ba.regions.drop ba.nextRegion

theorem left_skip {r : MemoryRegion} {rest : List MemoryRegion} (h : ba.left = r :: rest) :
    ba.skip.left = rest := by
  rw [left, skip, ← List.drop_drop, show ba.regions.drop ba.nextRegion = r :: rest from h]
  rfl

theorem getElem?_nextRegion (ba : BootAllocator) : ba.regions[ba.nextRegion]? = ba.left.head? := by
  rw [left, List.head?_drop]

theorem alloc_lt {align : Nat} (h : ba.alloc size align = (some start, ba')) :
    start + size < 2 ^ 64 := by
  unfold alloc at h
  generalize ba.regions.length + 1 = fuel at h
  induction fuel generalizing ba with
  | zero => simp [allocLoop] at h
  | succ fuel ih =>
      rw [allocLoop] at h
      rcases hregion : ba.regions[ba.nextRegion]? with _ | region
      · simp [hregion] at h
      · simp only [hregion] at h
        by_cases hfits : Word.alignUp 64 (max ba.cursor region.start) align + size < 2 ^ 64 ∧
          Word.alignUp 64 (max ba.cursor region.start) align + size ≤ region.end
        · rw [if_pos hfits] at h
          by_cases hkind : region.kind ≠ .usable
          · rw [if_pos hkind] at h
            exact ih h
          · rw [if_neg hkind] at h
            rw [← Option.some.inj (Prod.mk.inj h).1]
            exact hfits.1
        · rw [if_neg hfits, ite_self] at h
          exact ih h

/-- What `alloc` did: it took the start of the first region with room. -/
structure Took (size : Nat) (ba : BootAllocator) (before : List MemoryRegion) (r : MemoryRegion)
    (after : List MemoryRegion) (start : Nat) (ba' : BootAllocator) : Prop where
  split : ba.left = before ++ r :: after
  full : ∀ x ∈ before, ¬ x.Fits size
  fits : r.Fits size
  start_eq : start = r.start
  next : if start + size = r.end then ba'.cursor = 0 ∧ ba'.left = after
    else ba'.cursor = start + size ∧ ba'.left = r :: after

theorem allocLoop_fresh (hcursor : ba.cursor = 0) (hal : FrameAligned ba.left)
    (h : allocLoop size frameSize fuel ba = (some start, ba')) :
    ∃ before r after, Took size ba before r after start ba' := by
  induction fuel generalizing ba with
  | zero => simp [allocLoop] at h
  | succ fuel ih =>
      rw [allocLoop, getElem?_nextRegion] at h
      cases hleft : ba.left with
      | nil => simp [hleft] at h
      | cons r rest =>
          simp only [hleft, List.head?_cons] at h
          have hskip := left_skip hleft
          -- the allocator leaves a region without room
          have hnext : ¬ r.Fits size → allocLoop size frameSize fuel ba.skip = (some start, ba') →
              ∃ before r after, Took size ba before r after start ba' := by
            intro hfull hrun
            obtain ⟨before, r', after, htook⟩ := ih rfl (by
              rw [hskip]
              exact fun x hx => hal x (hleft ▸ List.mem_cons_of_mem r hx)) hrun
            refine ⟨r :: before, r', after, ?_, ?_, htook.fits, htook.start_eq, htook.next⟩
            · rw [hleft, ← hskip, htook.split]
              rfl
            · intro x hx
              rcases List.mem_cons.1 hx with rfl | hx
              · exact hfull
              · exact htook.full x hx
          by_cases hkind : r.kind = .usable
          swap
          · rw [if_pos hkind] at h
            exact hnext (fun hfits => hkind hfits.1) h
          rw [if_neg (not_not.2 hkind)] at h
          obtain ⟨hlt, hmod, -⟩ := hal r (hleft ▸ List.mem_cons_self) hkind
          have hstart : Word.alignUp 64 (max ba.cursor r.start) frameSize = r.start := by
            rw [hcursor, Nat.max_eq_right (Nat.zero_le _), alignUp_of_aligned hlt hmod]
          simp only [hstart] at h
          by_cases hfits : r.start + size < 2 ^ 64 ∧ r.start + size ≤ r.end
          · rw [if_pos hfits] at h
            obtain ⟨hs, hba⟩ := Prod.mk.inj h
            obtain rfl := Option.some.inj hs
            refine ⟨[], r, rest, hleft, by simp, ⟨hkind, hfits.2⟩, rfl, ?_⟩
            rw [← hba]
            split_ifs
            · exact ⟨rfl, hskip⟩
            · exact ⟨rfl, hleft⟩
          · rw [if_neg hfits] at h
            refine hnext (fun hf => hfits ⟨?_, hf.2⟩) h
            exact lt_of_le_of_lt hf.2 (end_lt r)

/-- The loop of `alloc` inside a region: it takes the rest of the region, or a later region. -/
theorem allocLoop_inside {r : MemoryRegion} {rest : List MemoryRegion} (hleft : ba.left = r :: rest)
    (hkind : r.kind = .usable) (hge : r.start ≤ ba.cursor) (hal : FrameAligned rest)
    (h : allocLoop size frameSize fuel ba = (some start, ba')) :
    start = Word.alignUp 64 ba.cursor frameSize ∧ start + size ≤ r.end ∨
      ¬ Word.alignUp 64 ba.cursor frameSize + size ≤ r.end ∧
      ∃ before r' after, Took size ba.skip before r' after start ba' := by
  cases fuel with
  | zero => simp [allocLoop] at h
  | succ fuel =>
      rw [allocLoop, getElem?_nextRegion, hleft] at h
      simp only [List.head?_cons, hkind, ne_eq, not_true_eq_false, if_false,
        Nat.max_eq_left hge] at h
      by_cases hfits : Word.alignUp 64 ba.cursor frameSize + size < 2 ^ 64 ∧
        Word.alignUp 64 ba.cursor frameSize + size ≤ r.end
      · rw [if_pos hfits] at h
        obtain rfl := Option.some.inj (Prod.mk.inj h).1
        exact Or.inl ⟨rfl, hfits.2⟩
      · rw [if_neg hfits] at h
        refine Or.inr ⟨fun hle => hfits ⟨lt_of_le_of_lt hle (end_lt r), hle⟩, ?_⟩
        exact allocLoop_fresh rfl (by rw [left_skip hleft]; exact hal) h

end BootAllocator

/-! ## The effective regions -/

/-- A byte of the kernel image, rounded to frames. -/
def BootInfo.InImage (boot : BootInfo) (x : Nat) : Prop :=
  boot.kernelImage.2 ≠ 0 ∧ boot.kernelImage.1 / frameSize * frameSize ≤ x ∧
    x < (boot.kernelImage.1 + boot.kernelImage.2 + (frameSize - 1)) / frameSize * frameSize

/-- The values handed over are `u64`s. -/
structure BootInfo.IsU64 (boot : BootInfo) : Prop where
  physmap : boot.physmapBase < 2 ^ 64
  start : ∀ r ∈ boot.regions, r.start < 2 ^ 64
  image : boot.kernelImage.1 < 2 ^ 64 ∧ boot.kernelImage.2 < 2 ^ 64

section Effective

variable {boot : BootInfo} {r : MemoryRegion} {x : Nat}

theorem roundDown_eq (hx : x < 2 ^ 64) : roundDown x frameSize = x / frameSize * frameSize := by
  have hsub : Word.sub 64 frameSize 1 = 2 ^ 12 - 1 := by decide
  rw [roundDown, hsub, Word.and_not_two_pow_sub_one hx (by decide)]
  rfl

theorem imageEnd_aligned (boot : BootInfo) :
    boot.imageEnd % frameSize = 0 ∧ boot.imageEnd < 2 ^ 64 := by
  unfold BootInfo.imageEnd
  split_ifs
  · exact Word.alignUp_aligned (k := 12) (by decide)
  · exact ⟨by decide, by decide⟩

theorem imageStart_eq (h : boot.IsU64) (hlen : boot.kernelImage.2 ≠ 0) :
    boot.imageStart = boot.kernelImage.1 / frameSize * frameSize := by
  rw [BootInfo.imageStart, if_pos hlen, roundDown_eq h.image.1]

theorem imageEnd_eq (hlen : boot.kernelImage.2 ≠ 0)
    (hend : boot.kernelImage.1 + boot.kernelImage.2 + frameSize ≤ 2 ^ 64) :
    boot.imageEnd =
      (boot.kernelImage.1 + boot.kernelImage.2 + (frameSize - 1)) / frameSize * frameSize := by
  rw [frameSize_eq] at hend ⊢
  rw [BootInfo.imageEnd, if_pos hlen, roundUp, frameSize_eq, Word.add_of_lt (by omega),
    Word.alignUp_eq (by decide) hend, Nat.add_sub_assoc (by decide)]

/-- The end of the image, rounded up to a frame, is an address. -/
def BootInfo.ImageFits (boot : BootInfo) : Prop :=
  boot.kernelImage.2 ≠ 0 → boot.kernelImage.1 + boot.kernelImage.2 + frameSize ≤ 2 ^ 64

theorem inImage_iff (hfits : boot.ImageFits) :
    boot.InImage x ↔ boot.kernelImage.2 ≠ 0 ∧ boot.imageStart ≤ x ∧ x < boot.imageEnd := by
  rw [BootInfo.InImage]
  refine and_congr_right fun hlen => ?_
  have hle := hfits hlen
  rw [imageEnd_eq hlen hle, BootInfo.imageStart, if_pos hlen, roundDown_eq (by
    simp only [frameSize] at hle
    omega)]

theorem imageStart_le_imageEnd (hfits : boot.ImageFits) : boot.imageStart ≤ boot.imageEnd := by
  by_cases hlen : boot.kernelImage.2 = 0
  · simp [BootInfo.imageStart, hlen]
  · have hle := hfits hlen
    rw [imageEnd_eq hlen hle, BootInfo.imageStart, if_pos hlen, roundDown_eq (by
      simp only [frameSize] at hle
      omega)]
    exact Nat.mul_le_mul_right _ (Nat.div_le_div_right (by omega))

theorem effective_aligned (h : boot.IsU64) (hal : ∀ r ∈ boot.regions, misaligned r = false) :
    FrameAligned boot.effective := by
  intro r hr hu
  obtain ⟨region, hregion, hpart⟩ := List.mem_flatMap.1 hr
  have hstart : region.kind = .usable → region.start % frameSize = 0 := by
    intro hu'
    have := hal region hregion
    simp only [misaligned, hu', true_and, decide_eq_false_iff_not, not_or, not_not] at this
    exact this.1
  have hlt := h.start region hregion
  obtain ⟨hke, hke'⟩ := imageEnd_aligned boot
  rcases mem_regionParts hpart with ⟨rfl, -⟩ | ⟨hu', hlen, -, ⟨hs, he, -⟩ | ⟨hs, he, -⟩⟩
  · exact ⟨hlt, hstart hu, mod_frameSize_end (hal r hregion) hu⟩
  · rw [hs, he, imageStart_eq h hlen]
    exact ⟨hlt, hstart hu', Nat.mul_mod_left _ _⟩
  · rw [hs, he]
    exact ⟨hke', hke, mod_frameSize_end (hal region hregion) hu'⟩

theorem exists_effective_iff :
    (∃ r ∈ boot.effective, r.kind = .usable ∧ r.start ≤ x ∧ x < r.end) ↔
      ∃ r ∈ boot.regions, r.kind = .usable ∧ r.start ≤ x ∧ x < r.end ∧
        ¬ (boot.kernelImage.2 ≠ 0 ∧ boot.imageStart ≤ x ∧ x < boot.imageEnd) := by
  constructor
  · rintro ⟨r, hr, hu, hle, hlt⟩
    obtain ⟨region, hregion, hpart⟩ := List.mem_flatMap.1 hr
    rcases mem_regionParts hpart with
      ⟨rfl, hnot⟩ | ⟨hu', -, -, ⟨hs, he, hlow, hend⟩ | ⟨hs, he, hlow, hend⟩⟩
    · exact ⟨r, hregion, hu, hle, hlt, fun hin => hnot ⟨hu, hin.1, by omega, by omega⟩⟩
    · exact ⟨region, hregion, hu', by omega, by omega, fun hin => by omega⟩
    · exact ⟨region, hregion, hu', by omega, by omega, fun hin => by omega⟩
  · rintro ⟨region, hregion, hu, hle, hlt, hout⟩
    have hmem : ∀ r ∈ regionParts boot.kernelImage.2 boot.imageStart boot.imageEnd region,
        r ∈ boot.effective := fun r hr => List.mem_flatMap.2 ⟨region, hregion, hr⟩
    have hregionEnd := end_lt region
    unfold regionParts at hmem
    by_cases hki : region.kind = .usable ∧ boot.kernelImage.2 ≠ 0 ∧
      boot.imageStart < region.end ∧ region.start < boot.imageEnd
    · rw [if_pos hki] at hmem
      by_cases hlow : x < boot.imageStart
      · rw [if_pos (by omega)] at hmem
        refine ⟨_, hmem _ (List.mem_append_left _ List.mem_cons_self), rfl, hle, ?_⟩
        rw [part_end (by omega) (by omega)]
        exact hlow
      · have hhigh : boot.imageEnd ≤ x := by
          by_contra hlt'
          exact hout ⟨hki.2.1, by omega, by omega⟩
        rw [if_pos (show boot.imageEnd < region.end by omega)] at hmem
        refine ⟨_, hmem _ (List.mem_append_right _ List.mem_cons_self), rfl, hhigh, ?_⟩
        rw [part_end (by omega) hregionEnd]
        exact hlt
    · rw [if_neg hki] at hmem
      exact ⟨region, hmem _ List.mem_cons_self, hu, hle, hlt⟩

end Effective

/-! ## Maps without overlaps -/

/-- A memory map in address order without overlaps, and with all usable memory below 16 TiB. -/
structure BootInfo.MapOk (boot : BootInfo) : Prop where
  ordered : boot.regions.Pairwise fun r r' => r.start ≤ r'.start
  disjoint : boot.regions.Pairwise fun r r' => ∀ x, ¬ (r.Contains x ∧ r'.Contains x)
  below : ∀ r ∈ boot.regions, r.kind = .usable → r.start + r.len < 2 ^ 44

/-- The first region ends before the second one starts, if both are usable and not empty. -/
def EndsBefore (r r' : MemoryRegion) : Prop :=
  r.kind = .usable → r'.kind = .usable → r.start < r.end → r'.start < r'.end → r.end ≤ r'.start

section MapOk

variable {boot : BootInfo} {r : MemoryRegion}

theorem BootInfo.MapOk.end_eq (h : boot.MapOk) (hr : r ∈ boot.regions) (hu : r.kind = .usable) :
    r.end = r.start + r.len := by
  have := h.below r hr hu
  exact Word.add_of_lt (by omega)

theorem BootInfo.MapOk.below16TiB (h : boot.MapOk) : boot.Below16TiB := by
  intro r hr hu
  rw [h.end_eq hr hu]
  exact h.below r hr hu

theorem BootInfo.MapOk.endsBefore (h : boot.MapOk) : boot.regions.Pairwise EndsBefore := by
  refine (h.ordered.and h.disjoint).imp_of_mem ?_
  rintro r r' hr hr' ⟨hle, hdisj⟩ hu hu' - hne'
  rw [h.end_eq hr hu]
  rw [h.end_eq hr' hu'] at hne'
  by_contra hlt
  exact hdisj r'.start ⟨⟨hle, by omega⟩, le_rfl, hne'⟩

theorem effective_endsBefore (h : boot.MapOk) (himage : boot.imageStart ≤ boot.imageEnd) :
    boot.effective.Pairwise EndsBefore := by
  rw [BootInfo.effective, List.pairwise_flatMap]
  constructor
  · intro region _
    unfold regionParts
    split_ifs
    · refine List.pairwise_pair.2 ?_
      intro _ _ _ _
      rw [part_end (by omega) (by have := end_lt region; omega)]
      exact himage
    · exact List.pairwise_singleton _ _
    · exact List.pairwise_singleton _ _
    · exact List.Pairwise.nil
    · exact List.pairwise_singleton _ _
  · refine h.endsBefore.imp ?_
    intro region region' hbefore x hx y hy hux huy hnx hny
    have hx' : region.kind = .usable ∧ region.start ≤ x.start ∧ x.end ≤ region.end := by
      rcases mem_regionParts hx with ⟨rfl, -⟩ | ⟨hu, -, -, ⟨hs, he, hlt, hlt'⟩ | ⟨hs, he, hlt, -⟩⟩
      · exact ⟨hux, le_rfl, le_rfl⟩
      · exact ⟨hu, hs.ge, by omega⟩
      · exact ⟨hu, by omega, he.le⟩
    have hy' : region'.kind = .usable ∧ region'.start ≤ y.start ∧ y.end ≤ region'.end := by
      rcases mem_regionParts hy with ⟨rfl, -⟩ | ⟨hu, -, -, ⟨hs, he, hlt, hlt'⟩ | ⟨hs, he, hlt, -⟩⟩
      · exact ⟨huy, le_rfl, le_rfl⟩
      · exact ⟨hu, hs.ge, by omega⟩
      · exact ⟨hu, by omega, he.le⟩
    have := hbefore hx'.1 hy'.1 (by omega) (by omega)
    omega

end MapOk

/-! ## The layout -/

/-- The frame table is at the start of the first region with room for it, the heap after it in the
same region, or at the start of the first later region with room. -/
structure Layout (regions : List MemoryRegion) (ftBytes heapLen ftPhys heapPhys : Nat)
    (before : List MemoryRegion) (r : MemoryRegion) (after : List MemoryRegion) : Prop where
  split : regions = before ++ r :: after
  full : ∀ x ∈ before, ¬ x.Fits ftBytes
  fits : r.Fits ftBytes
  table : ftPhys = r.start
  heap : heapLen ≠ 0 →
    heapPhys = Word.alignUp 64 (ftPhys + ftBytes) frameSize ∧ heapPhys + heapLen ≤ r.end ∨
    ¬ Word.alignUp 64 (ftPhys + ftBytes) frameSize + heapLen ≤ r.end ∧
      ∃ mid r' last, after = mid ++ r' :: last ∧ (∀ x ∈ mid, ¬ x.Fits heapLen) ∧
        r'.Fits heapLen ∧ heapPhys = r'.start

/-- **In a map without overlaps the heap is after the frame table.** -/
theorem Layout.heap_after {regions before after : List MemoryRegion} {r : MemoryRegion}
    {ftBytes heapLen ftPhys heapPhys : Nat}
    (h : Layout regions ftBytes heapLen ftPhys heapPhys before r after)
    (hal : FrameAligned regions) (horder : regions.Pairwise EndsBefore) (hpos : 0 < ftBytes)
    (hlen : heapLen ≠ 0) : ftPhys + ftBytes ≤ heapPhys := by
  have hend : ftPhys + ftBytes ≤ r.end := by
    rw [h.table]
    exact h.fits.2
  have hmem : r ∈ regions := by rw [h.split]; simp
  rcases h.heap hlen with ⟨rfl, -⟩ | ⟨-, mid, r', last, hafter, -, hfits, rfl⟩
  · have hlt := end_lt r
    have hmod := (hal r hmem h.fits.1).2.2
    rw [frameSize_eq] at hmod ⊢
    exact (Word.alignUp_spec (by decide) (by omega)).1
  · rw [h.split, hafter] at horder
    have hrest := (List.pairwise_append.1 horder).2.1
    rw [List.pairwise_cons] at hrest
    have := hrest.1 r' (by simp) h.fits.1 hfits.1 (by have := h.table; omega)
      (by have := hfits.2; omega)
    omega

section Run

variable {boot : BootInfo} {specs : List UntypedSpec} {outUntyped caps : List UntypedCap}
  {heapLen ftPhys heapEnd : Nat} {info : PmInitOut} {s s' s₁ s₂ s₃ s₄ s₅ s₆ : Machine}
  {regions : List MemoryRegion} {bootAlloc : BootAllocator}

/-- The bytes of the frame table. -/
def tableBytes (regions : List MemoryRegion) : Nat :=
  ceilDiv (maxUsableEnd regions) frameSize * FrameInfo.size

theorem maxUsableEnd_aligned (hal : FrameAligned regions) :
    maxUsableEnd regions % frameSize = 0 ∧ maxUsableEnd regions < 2 ^ 64 := by
  constructor
  · exact maxUsableEnd_of (P := (· % frameSize = 0)) rfl fun r hr hu => (hal r hr hu).2.2
  · exact maxUsableEnd_of (P := (· < 2 ^ 64)) (by decide) fun r _ _ => end_lt r

theorem tableBytes_pos (hal : FrameAligned regions) (hne : maxUsableEnd regions ≠ 0) :
    0 < tableBytes regions := by
  obtain ⟨hmod, hlt⟩ := maxUsableEnd_aligned hal
  refine Nat.mul_pos ?_ (by decide)
  simp only [ceilDiv, frameSize, Word.add, Word.sub] at hmod ⊢
  omega

/-- **`pmm_init` places the frame table and the heap as `Layout` says.** -/
theorem InitRun.layout (h : InitRun boot specs outUntyped heapLen s info caps s' regions ftPhys
      heapEnd bootAlloc s₁ s₂ s₃ s₄ s₅ s₆) (hal : FrameAligned regions) :
    ∃ heapPhys before r after,
      Layout regions (tableBytes regions) heapLen ftPhys heapPhys before r after ∧
      heapEnd = (if heapLen = 0 then ftPhys + tableBytes regions else heapPhys + heapLen) ∧
      info.heapPhys = if heapLen = 0 then 0 else heapPhys := by
  obtain ⟨before, r, after, htook⟩ :=
    BootAllocator.allocLoop_fresh rfl (show FrameAligned (BootAllocator.new regions).left from hal)
      h.frameTable
  have hsplit : regions = before ++ r :: after := htook.split
  have hstart := htook.start_eq
  have hend : ftPhys + tableBytes regions ≤ r.end := by
    rw [hstart]
    exact htook.fits.2
  have hlt := end_lt r
  have hafter : FrameAligned after := fun x hx => hal x (by rw [hsplit]; simp [hx])
  have hinfo : info.heapPhys = if heapLen ≠ 0 then Word.sub 64 heapEnd heapLen else 0 := by
    rw [h.info]
  obtain ⟨-, ⟨hzero, hheapEnd⟩ | ⟨hlen, hp, bootAlloc', halloc, hheapEnd⟩⟩ := carveHeap_returns h.heap
  · refine ⟨0, before, r, after, ⟨hsplit, htook.full, htook.fits, hstart, fun hne => absurd hzero hne⟩,
      ?_, ?_⟩
    · rw [if_pos hzero, hheapEnd]
      exact Word.add_of_lt (lt_of_le_of_lt hend hlt)
    · rw [hinfo, if_neg (not_not.2 hzero), if_pos hzero]
  -- the heap's region
  have hheap : hp = Word.alignUp 64 (ftPhys + tableBytes regions) frameSize ∧ hp + heapLen ≤ r.end ∨
      ¬ Word.alignUp 64 (ftPhys + tableBytes regions) frameSize + heapLen ≤ r.end ∧
        ∃ mid r' last, after = mid ++ r' :: last ∧ (∀ x ∈ mid, ¬ x.Fits heapLen) ∧
          r'.Fits heapLen ∧ hp = r'.start := by
    have hnext := htook.next
    split_ifs at hnext with hfull
    · obtain ⟨hcursor, hleft⟩ := hnext
      right
      have hmod : r.end % frameSize = 0 :=
        (hal r (by rw [hsplit]; simp) htook.fits.1).2.2
      have hfull' : ftPhys + tableBytes regions = r.end := hfull
      obtain ⟨mid, r', last, htook'⟩ :=
        BootAllocator.allocLoop_fresh hcursor (by rw [hleft]; exact hafter) halloc
      rw [hfull', alignUp_of_aligned hlt hmod]
      exact ⟨by omega, mid, r', last, by rw [← hleft, htook'.split], htook'.full, htook'.fits,
        htook'.start_eq⟩
    · obtain ⟨hcursor, hleft⟩ := hnext
      have hcursor' : bootAlloc.cursor = ftPhys + tableBytes regions := hcursor
      rcases BootAllocator.allocLoop_inside hleft htook.fits.1 (by rw [hcursor]; omega) hafter halloc
        with hin | ⟨hfull, mid, r', last, htook'⟩
      · rw [hcursor'] at hin
        exact Or.inl hin
      · rw [hcursor'] at hfull
        refine Or.inr ⟨hfull, mid, r', last, ?_, htook'.full, htook'.fits, htook'.start_eq⟩
        rw [← BootAllocator.left_skip hleft, htook'.split]
  have hfit : hp + heapLen < 2 ^ 64 := by
    rcases hheap with ⟨-, hle⟩ | ⟨-, mid, r', last, -, -, hfits, rfl⟩
    · exact lt_of_le_of_lt hle hlt
    · exact lt_of_le_of_lt hfits.2 (end_lt r')
  refine ⟨hp, before, r, after, ⟨hsplit, htook.full, htook.fits, hstart, fun _ => hheap⟩, ?_, ?_⟩
  · rw [if_neg hlen, hheapEnd, Word.add_of_lt hfit]
  · rw [hinfo, if_pos hlen, if_neg hlen, hheapEnd, Word.add_of_lt hfit, Word.sub_of_le (by omega) hfit,
      Nat.add_sub_cancel]

theorem InitRun.table_aligned (h : InitRun boot specs outUntyped heapLen s info caps s' regions ftPhys
      heapEnd bootAlloc s₁ s₂ s₃ s₄ s₅ s₆) (hal : FrameAligned regions) : ftPhys % frameSize = 0 := by
  obtain ⟨_, before, r, after, hlayout, -⟩ := h.layout hal
  rw [hlayout.table]
  exact (hal r (by rw [hlayout.split]; simp) hlayout.fits.1).2.1

end Run

end Rolnix
