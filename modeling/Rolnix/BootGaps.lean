import Rolnix.BootOwners

/-!
# When the heap is not behind the frame table

`pmm_init` treats the frame table and the heap as one range, from the start of the one to the end of
the other. They are one range only if the heap fits behind the frame table in the same region; if
it does not, it goes to the first later region with room (`HeapElsewhere`). Then

* in a map with overlaps that region may reach into the frame table, and nothing notices:
  `heap_disjoint_iff` says for which maps heap and frame table are disjoint;
* the usable frames between the two are skipped and lost: `pool_complete_iff` says for which maps
  the pool is complete.
-/

namespace Rolnix

open Machine

instance (r : MemoryRegion) (size : Nat) : Decidable (r.Fits size) :=
  inferInstanceAs (Decidable (_ ∧ _))

/-- The region `r` holds the frame table but has no room for the heap behind it, and `r'` is the
first later region that has. -/
def BootInfo.HeapElsewhere (boot : BootInfo) (heapLen : Nat) (r r' : MemoryRegion) : Prop :=
  heapLen ≠ 0 ∧ ∃ after,
    boot.effective.dropWhile (fun r => !decide (r.Fits (tableBytes boot.effective))) = r :: after ∧
    ¬ Word.alignUp 64 (r.start + tableBytes boot.effective) frameSize + heapLen ≤ r.end ∧
    after.find? (fun r => r.Fits heapLen) = some r'

/-- Where the frame table and the heap go. -/
def BootInfo.placement (boot : BootInfo) (heapLen : Nat) : Option (Nat × Nat) :=
  match boot.effective.dropWhile (fun r => !decide (r.Fits (tableBytes boot.effective))) with
  | [] => none
  | r :: after =>
      let behind := Word.alignUp 64 (r.start + tableBytes boot.effective) frameSize
      if heapLen = 0 ∨ behind + heapLen ≤ r.end then some (r.start, behind)
      else (after.find? fun r' => r'.Fits heapLen).map fun r' => (r.start, r'.start)

/-- The heap's region, if it is another one, does not reach into the frame table. -/
def BootInfo.HeapClear (boot : BootInfo) (heapLen : Nat) : Prop :=
  ∀ r r', boot.HeapElsewhere heapLen r r' →
    r'.start + heapLen ≤ r.start ∨ r.start + tableBytes boot.effective ≤ r'.start

/-- The frame is usable, no legacy memory and no part of the kernel image. -/
def BootInfo.UsableFrame (boot : BootInfo) (f : Nat) : Prop :=
  legacyEnd ≤ f * frameSize ∧
    (∃ r ∈ boot.regions, r.kind = .usable ∧ r.start ≤ f * frameSize ∧
      f * frameSize + frameSize ≤ r.start + r.len) ∧
    ∀ x, InFrame f x → ¬ boot.InImage x

/-- No usable frame lies between the frame table and a heap in another region. -/
def BootInfo.GapFree (boot : BootInfo) (heapLen : Nat) : Prop :=
  ∀ r r', boot.HeapElsewhere heapLen r r' → ∀ f, boot.UsableFrame f →
    ¬ (r.start + tableBytes boot.effective ≤ f * frameSize ∧
      f * frameSize + frameSize ≤ r'.start)

section Layout

variable {boot : BootInfo} {heapLen ftPhys heapPhys : Nat} {before after : List MemoryRegion}
  {r : MemoryRegion}

theorem Layout.dropWhile_eq
    (h : Layout boot.effective (tableBytes boot.effective) heapLen ftPhys heapPhys before r after) :
    boot.effective.dropWhile (fun r => !decide (r.Fits (tableBytes boot.effective))) = r :: after := by
  rw [h.split, List.dropWhile_append_of_pos]
  · rw [List.dropWhile_cons_of_neg]
    rw [← h.split]
    simpa using h.fits
  · intro x hx
    rw [← h.split]
    simpa using h.full x hx

theorem find?_fits {mid last : List MemoryRegion} {r' : MemoryRegion} (hafter : after = mid ++ r' :: last)
    (hmid : ∀ x ∈ mid, ¬ x.Fits heapLen) (hfits : r'.Fits heapLen) :
    after.find? (fun r => r.Fits heapLen) = some r' := by
  rw [hafter, List.find?_append, List.find?_eq_none.2 (fun x hx => by simpa using hmid x hx),
    Option.none_or, List.find?_cons_of_pos]
  simpa using hfits

theorem Layout.placement_eq
    (h : Layout boot.effective (tableBytes boot.effective) heapLen ftPhys heapPhys before r after) :
    ∃ heapPhys', boot.placement heapLen = some (ftPhys, heapPhys') ∧
      (heapLen ≠ 0 → heapPhys' = heapPhys) := by
  unfold BootInfo.placement
  rw [h.dropWhile_eq, h.table]
  dsimp only
  by_cases hlen : heapLen = 0
  · rw [if_pos (Or.inl hlen)]
    exact ⟨_, rfl, fun hne => absurd hlen hne⟩
  rcases h.heap hlen with ⟨heq, hle⟩ | ⟨hfull, mid, r', last, hafter, hmid, hfits, heq⟩
  · rw [h.table] at heq
    rw [heq] at hle
    rw [if_pos (Or.inr hle)]
    exact ⟨_, rfl, fun _ => heq.symm⟩
  · rw [h.table] at hfull
    rw [if_neg (not_or.2 ⟨hlen, hfull⟩), find?_fits hafter hmid hfits]
    exact ⟨_, rfl, fun _ => heq.symm⟩

theorem placement_regions (h : boot.placement heapLen = some (ftPhys, heapPhys)) :
    ∃ r after,
      boot.effective.dropWhile (fun r => !decide (r.Fits (tableBytes boot.effective))) = r :: after ∧
      r ∈ boot.effective ∧ r.Fits (tableBytes boot.effective) ∧ ftPhys = r.start ∧
      (heapPhys = Word.alignUp 64 (ftPhys + tableBytes boot.effective) frameSize ∧
          (heapLen ≠ 0 → heapPhys + heapLen ≤ r.end) ∧ (∀ r₁ r', ¬ boot.HeapElsewhere heapLen r₁ r') ∨
        ∃ r' ∈ boot.effective, r'.Fits heapLen ∧ heapPhys = r'.start ∧
          ∀ r₁ r₁', boot.HeapElsewhere heapLen r₁ r₁' ↔ r₁ = r ∧ r₁' = r') := by
  unfold BootInfo.placement at h
  unfold BootInfo.HeapElsewhere
  have hfirst := List.head?_dropWhile_not (fun r => !decide (r.Fits (tableBytes boot.effective)))
    boot.effective
  have hsub := List.dropWhile_sublist (l := boot.effective)
    fun r => !decide (r.Fits (tableBytes boot.effective))
  cases hdrop : boot.effective.dropWhile
      (fun r => !decide (r.Fits (tableBytes boot.effective))) with
  | nil =>
      rw [hdrop] at h
      cases h
  | cons r after =>
      rw [hdrop] at h hfirst hsub
      have hr : r ∈ boot.effective := hsub.subset List.mem_cons_self
      have hfits : r.Fits (tableBytes boot.effective) := by simpa using hfirst
      dsimp only at h
      split_ifs at h with hroom
      · obtain ⟨rfl, rfl⟩ := Prod.mk.inj (Option.some.inj h)
        refine ⟨r, after, rfl, hr, hfits, rfl, Or.inl ⟨rfl, fun hlen => hroom.resolve_left hlen, ?_⟩⟩
        rintro r₁ r' ⟨hlen, after₁, hcons, hfull, -⟩
        obtain ⟨rfl, rfl⟩ := List.cons.inj hcons
        exact hfull (hroom.resolve_left hlen)
      · obtain ⟨r', hfind, hplace⟩ := Option.map_eq_some_iff.1 h
        obtain ⟨rfl, rfl⟩ := Prod.mk.inj hplace
        have hr' := hsub.subset (List.mem_cons_of_mem r (List.mem_of_find?_eq_some hfind))
        have hfits' : r'.Fits heapLen := by simpa using List.find?_some hfind
        refine ⟨r, after, rfl, hr, hfits, rfl, Or.inr ⟨r', hr', hfits', rfl, fun r₁ r₁' => ⟨?_, ?_⟩⟩⟩
        · rintro ⟨-, after₁, hcons, -, hfind₁⟩
          obtain ⟨rfl, rfl⟩ := List.cons.inj hcons
          rw [hfind] at hfind₁
          exact ⟨rfl, (Option.some.inj hfind₁).symm⟩
        · rintro ⟨rfl, rfl⟩
          obtain ⟨hlen, hfull⟩ := not_or.1 hroom
          exact ⟨hlen, after, rfl, hfull, hfind⟩

theorem Layout.heap_cases
    (h : Layout boot.effective (tableBytes boot.effective) heapLen ftPhys heapPhys before r after)
    (hlen : heapLen ≠ 0) :
    ftPhys = r.start ∧
      (heapPhys = Word.alignUp 64 (ftPhys + tableBytes boot.effective) frameSize ∧
          (∀ r₁ r₁', ¬ boot.HeapElsewhere heapLen r₁ r₁') ∨
        ∃ r', heapPhys = r'.start ∧ ∀ r₁ r₁', boot.HeapElsewhere heapLen r₁ r₁' ↔ r₁ = r ∧ r₁' = r') := by
  refine ⟨h.table, ?_⟩
  obtain ⟨heapPhys', hplace, heq⟩ := h.placement_eq
  obtain rfl := heq hlen
  obtain ⟨r₀, after₀, hdrop, -, -, -, hheap⟩ := placement_regions hplace
  obtain ⟨rfl, rfl⟩ := List.cons.inj (hdrop.symm.trans h.dropWhile_eq)
  rcases hheap with ⟨hbehind, -, hnone⟩ | ⟨r', -, -, hstart, helse⟩
  · exact Or.inl ⟨hbehind, hnone⟩
  · exact Or.inr ⟨r', hstart, helse⟩

end Layout

/-! ## Overlaps -/

/-- A map whose second region starts inside of the first one, where the frame table ends. -/
def overlapBoot : BootInfo where
  physmapBase := 0xffff800000000000
  regions := [⟨0x100000, 0x2000, .usable⟩, ⟨0x101000, 0x3000, .usable⟩]
  kernelImage := (0, 0)

/-- **`pmm_init` accepts a map that makes heap and frame table overlap**: the frame table ends at
`0x101860`, the heap starts at `0x101000`. -/
theorem heap_overlaps_table :
    ∃ info caps s, overlapBoot.IsU64 ∧
      (overlapBoot.regions.Pairwise fun r r' => r.start ≤ r'.start) ∧
      Returns (pmmInit overlapBoot [] [] 0x1000) (Machine.reset fun _ => 0) (info, caps) s ∧
      s.InTable 0x101000 ∧ info.InHeap 0x101000 := by
  have hrun : ((finish (pmmInit overlapBoot [] [] 0x1000) (Machine.reset fun _ => 0)).map fun r =>
      (r.2.tablePhys, r.2.numFrames, r.1.1.heapPhys, r.1.1.heapLen)) =
      some (0x100000, 260, 0x101000, 0x1000) := by
    decide +kernel
  obtain ⟨⟨⟨info, caps⟩, s⟩, hinit, hrun⟩ := Option.map_eq_some_iff.1 hrun
  simp only [Prod.mk.injEq] at hrun
  obtain ⟨htable, hnum, hheap, hlen⟩ := hrun
  refine ⟨info, caps, s, ⟨by decide, by decide, by decide⟩, by decide, returns_of_finish hinit, ?_, ?_⟩
  · rw [InTable, htable, hnum]
    decide
  · rw [PmInitOut.InHeap, hheap, hlen]
    decide

/-- **Frame table and heap are disjoint exactly if the heap's region does not reach into the
table.** -/
theorem heap_disjoint_iff {boot : BootInfo} {specs : List UntypedSpec}
    {outUntyped caps : List UntypedCap} {heapLen : Nat} {mem : ByteMem} {info : PmInitOut}
    {s : Machine} (hu64 : boot.IsU64) (hlen : 0 < heapLen)
    (h : Returns (pmmInit boot specs outUntyped heapLen) (Machine.reset mem) (info, caps) s) :
    (∀ x, ¬ (s.InTable x ∧ info.InHeap x)) ↔ boot.HeapClear heapLen := by
  have hne : heapLen ≠ 0 := Nat.ne_of_gt hlen
  obtain ⟨hpos, heapPhys, heapEnd, before, r, after, hlaid⟩ := pmmInit_laidOut hu64 h
  have hlayout := hlaid.layout
  have hr := hlaid.aligned r (by rw [hlayout.split]; simp) hlayout.fits.1
  have hheap := hlaid.heapPhys_eq
  rw [if_neg hne] at hheap
  have hdisjoint : (∀ x, ¬ (s.InTable x ∧ info.InHeap x)) ↔
      heapPhys + heapLen ≤ s.tablePhys ∨ s.tablePhys + tableBytes boot.effective ≤ heapPhys := by
    unfold InTable PmInitOut.InHeap
    rw [hlaid.bytes, hheap, hlaid.heapLen_eq]
    constructor
    · intro hall
      have hlow := hall s.tablePhys
      have hhigh := hall heapPhys
      omega
    · intro hor x hx
      omega
  rw [hdisjoint]
  obtain ⟨hstart, ⟨heq, hnone⟩ | ⟨r', heq, hiff⟩⟩ := hlayout.heap_cases hne
  · -- the heap is behind the table
    have hend : s.tablePhys + tableBytes boot.effective ≤ r.end := by
      rw [hstart]
      exact hlayout.fits.2
    have hlt := end_lt r
    have hafter : s.tablePhys + tableBytes boot.effective ≤ heapPhys := by
      have hmod := hr.2.2
      rw [frameSize_eq] at hmod heq
      rw [heq]
      exact (Word.alignUp_spec (by decide) (by omega)).1
    exact iff_of_true (Or.inr hafter) fun r₁ r₁' hr₁ => absurd hr₁ (hnone r₁ r₁')
  · rw [hstart, heq]
    constructor
    · intro hor r₁ r₁' hr₁
      obtain ⟨rfl, rfl⟩ := (hiff r₁ r₁').1 hr₁
      exact hor
    · intro hclear
      exact hclear r r' ((hiff r r').2 ⟨rfl, rfl⟩)

theorem poolBoot_heap_behind (r r' : MemoryRegion) : ¬ poolBoot.HeapElsewhere 0x1000 r r' := by
  rintro ⟨-, after, hdrop, hroom, -⟩
  have hregion : poolBoot.effective.dropWhile
      (fun r => !decide (r.Fits (tableBytes poolBoot.effective))) =
      [⟨0x101000, 0x9000, .usable⟩, ⟨0x200000, 0x1000, .reserved⟩] := by
    decide
  rw [hregion] at hdrop
  obtain ⟨rfl, -⟩ := List.cons.inj hdrop
  exact hroom (by decide)

theorem heap_disjoint_small :
    ∃ info caps s, Returns (pmmInit poolBoot [] [] 0x1000) (Machine.reset fun _ => 0) (info, caps) s ∧
      ∀ x, ¬ (s.InTable x ∧ info.InHeap x) := by
  have hrun : (finish (pmmInit poolBoot [] [] 0x1000) (Machine.reset fun _ => 0)).isSome = true := by
    decide +kernel
  obtain ⟨⟨⟨info, caps⟩, s⟩, hinit⟩ := Option.isSome_iff_exists.1 hrun
  have hreturns := returns_of_finish hinit
  exact ⟨info, caps, s, hreturns, (heap_disjoint_iff ⟨by decide, by decide, by decide⟩ (by decide)
    hreturns).2 fun r r' h => absurd h (poolBoot_heap_behind r r')⟩

/-! ## Lost frames -/

/-- A map whose first region has room for the frame table and two more frames. -/
def gapBoot : BootInfo where
  physmapBase := 0xffff800000000000
  regions := [⟨0x100000, 0x6000, .usable⟩, ⟨0x200000, 0x10000, .usable⟩]
  kernelImage := (0, 0)

theorem gapBoot_mapOk : gapBoot.MapOk := by
  refine ⟨by decide, ?_, by decide⟩
  refine List.pairwise_pair.2 fun x hx => ?_
  simp only [MemoryRegion.Contains] at hx
  omega

/-- **A heap of three frames goes to the second region, and the two frames are lost.** -/
theorem frame_lost :
    ∃ info caps s, gapBoot.IsU64 ∧ gapBoot.MapOk ∧
      Returns (pmmInit gapBoot [] [] 0x3000) (Machine.reset fun _ => 0) (info, caps) s ∧
      gapBoot.UsableFrame 0x104 ∧ (∀ x, InFrame 0x104 x → ¬ s.InTable x ∧ ¬ info.InHeap x) ∧
      (s.frames 0x104).owner = .reserved := by
  have hrun : ((finish (pmmInit gapBoot [] [] 0x3000) (Machine.reset fun _ => 0)).map fun r =>
      (r.2.tablePhys, r.2.numFrames, r.1.1.heapPhys, r.1.1.heapLen, (r.2.frames 0x104).owner)) =
      some (0x100000, 528, 0x200000, 0x3000, .reserved) := by
    decide +kernel
  obtain ⟨⟨⟨info, caps⟩, s⟩, hinit, hrun⟩ := Option.map_eq_some_iff.1 hrun
  simp only [Prod.mk.injEq] at hrun
  obtain ⟨htable, hnum, hheap, hlen, howner⟩ := hrun
  refine ⟨info, caps, s, ⟨by decide, by decide, by decide⟩, gapBoot_mapOk, returns_of_finish hinit,
    ⟨by decide, ?_, ?_⟩, ?_, howner⟩
  · exact ⟨⟨0x100000, 0x6000, .usable⟩, List.mem_cons_self, rfl, by decide, by decide⟩
  · rintro x - ⟨hne, -⟩
    exact hne rfl
  · rintro x ⟨hge, hlt⟩
    simp only [frameSize] at hge hlt
    rw [InTable, PmInitOut.InHeap, htable, hnum, hheap, hlen]
    simp only [FrameInfo.size]
    omega

section Complete

variable {boot : BootInfo} {heapLen heapPhys heapEnd f : Nat} {info : PmInitOut} {s : Machine}
  {before after : List MemoryRegion} {r : MemoryRegion} {specs : List UntypedSpec}

/-- The bounds the code computes for the image are inside of the image, even where they wrap. -/
theorem inImage_of_code (hu64 : boot.IsU64) {x : Nat} (hx : x < 2 ^ 44)
    (h : boot.kernelImage.2 ≠ 0 ∧ boot.imageStart ≤ x ∧ x < boot.imageEnd) : boot.InImage x := by
  obtain ⟨hlen, hge, hlt⟩ := h
  rw [imageStart_eq hu64 hlen] at hge
  refine ⟨hlen, hge, ?_⟩
  by_cases hend : boot.kernelImage.1 + boot.kernelImage.2 + frameSize ≤ 2 ^ 64
  · rwa [imageEnd_eq hlen hend] at hlt
  · simp only [frameSize] at hend ⊢
    omega

theorem BootInfo.UsableFrame.effective (hf : boot.UsableFrame f) (hu64 : boot.IsU64)
    (hmap : boot.MapOk) : ∃ r ∈ boot.effective, r.kind = .usable ∧ r.Holds f := by
  obtain ⟨-, ⟨region, hregion, hu, hge, hle⟩, hout⟩ := hf
  have hpos : 0 < frameSize := by decide
  have hend := hmap.end_eq hregion hu
  have hbelow := hmap.below region hregion hu
  refine exists_effective_iff.2 ⟨region, hregion, hu, hge, by omega, fun hcode => ?_⟩
  exact hout (f * frameSize) ⟨le_rfl, by omega⟩ (inImage_of_code hu64 (by omega) hcode)

/-- A usable frame without table and heap is marked, unless it lies between the two. -/
theorem PmmPlaced.marked_iff (h : PmmPlaced boot specs heapLen info s heapPhys heapEnd before r after)
    (hu64 : boot.IsU64) (hmap : boot.MapOk) (hf : boot.UsableFrame f)
    (hclear : ∀ x, InFrame f x → ¬ s.InTable x ∧ ¬ info.InHeap x) :
    Marked boot.effective s.tablePhys heapEnd f ↔
      ¬ (heapLen ≠ 0 ∧ s.tablePhys + info.totalFrames * FrameInfo.size ≤ f * frameSize ∧
        f * frameSize + frameSize ≤ heapPhys) := by
  have heffective := hf.effective hu64 hmap
  have hpos : 0 < frameSize := by decide
  have hend := h.heapEnd_eq
  have hbytes : 0 < info.totalFrames * FrameInfo.size := Nat.mul_pos h.total_pos (by decide)
  constructor
  · rintro ⟨-, -, hskip⟩ ⟨hlen, hge, hle⟩
    rw [if_neg hlen] at hend
    exact hskip ⟨by omega, by omega⟩
  · intro hnot
    refine ⟨heffective, hf.1, ?_⟩
    rintro ⟨hge, hlt⟩
    refine hnot ?_
    have htable := (hclear (f * frameSize) ⟨le_rfl, by omega⟩).1
    rw [InTable, h.numFrames] at htable
    by_cases hlen : heapLen = 0
    · rw [if_pos hlen] at hend
      omega
    · rw [if_neg hlen] at hend
      refine ⟨hlen, by omega, ?_⟩
      -- otherwise the frame meets the heap
      by_contra hmeet
      have hheap := (hclear (max (f * frameSize) heapPhys) ⟨le_max_left _ _, by
        rw [max_lt_iff]
        omega⟩).2
      rw [PmInitOut.InHeap, h.heapPhys_eq, if_neg hlen, h.heapLen_eq] at hheap
      omega

end Complete

/-- **The pool is complete exactly if no usable frame lies between frame table and heap.** -/
theorem pool_complete_iff {boot : BootInfo} {outUntyped caps : List UntypedCap} {heapLen : Nat}
    {mem : ByteMem} {info : PmInitOut} {s : Machine} (hu64 : boot.IsU64) (hmap : boot.MapOk)
    (h : Returns (pmmInit boot [] outUntyped heapLen) (Machine.reset mem) (info, caps) s) :
    (∀ f, boot.UsableFrame f → (∀ x, InFrame f x → ¬ s.InTable x ∧ ¬ info.InHeap x) →
      (s.frames f).owner = .free) ↔ boot.GapFree heapLen := by
  obtain ⟨heapPhys, heapEnd, before, r, after, hplaced⟩ := pmmInit_placed hu64 hmap h
  have hlayout := hplaced.layout
  have hmarked := fun f => hplaced.marked_iff (f := f) hu64 hmap
  rw [hplaced.bytes] at hlayout hmarked
  constructor
  · intro hall r₁ r₁' helse f hf
    rintro ⟨hge, hle⟩
    obtain ⟨hstart, ⟨-, hnone⟩ | ⟨r', heq, hiff⟩⟩ := hlayout.heap_cases helse.1
    · exact hnone r₁ r₁' helse
    obtain ⟨rfl, rfl⟩ := (hiff r₁ r₁').1 helse
    have hclear : ∀ x, InFrame f x → ¬ s.InTable x ∧ ¬ info.InHeap x := by
      rintro x ⟨hxge, hxlt⟩
      rw [InTable, PmInitOut.InHeap, hplaced.numFrames, hplaced.bytes, hplaced.heapPhys_eq,
        if_neg helse.1]
      omega
    -- the frame is not marked, so it is still reserved
    have hnot : ¬ Marked boot.effective s.tablePhys heapEnd f := fun hm =>
      (hmarked f hf hclear).1 hm ⟨helse.1, by omega, by omega⟩
    have hfree := hall f hf hclear
    rw [hplaced.owners.reserved f hnot] at hfree
    exact absurd hfree (by decide)
  · intro hgap f hf hclear
    refine hplaced.owners.free f ((hmarked f hf hclear).2 ?_) (by simp)
    rintro ⟨hlen, hge, hle⟩
    obtain ⟨hstart, ⟨heq, -⟩ | ⟨r', heq, hiff⟩⟩ := hlayout.heap_cases hlen
    · -- the heap is in the first frame behind the table
      have hend : s.tablePhys + tableBytes boot.effective ≤ r.end := by
        rw [hstart]
        exact hlayout.fits.2
      have hlt := end_lt r
      have hmod := (hplaced.aligned r (by rw [hlayout.split]; simp) hlayout.fits.1).2.2
      rw [frameSize_eq] at hmod heq hge hle
      have := (Word.alignUp_spec (k := 12) (w := 64) (by decide) (show
        s.tablePhys + tableBytes boot.effective + 2 ^ 12 ≤ 2 ^ 64 by omega)).2.1
      omega
    · exact hgap r r' ((hiff r r').2 ⟨rfl, rfl⟩) f hf ⟨by omega, by omega⟩

/-- With the heap behind the frame table, the frame after it is free. -/
theorem pool_complete_small :
    ∃ info caps s, Returns (pmmInit poolBoot [] [] 0x1000) (Machine.reset fun _ => 0) (info, caps) s ∧
      (s.frames 0x104).owner = .free := by
  have hrun : ((finish (pmmInit poolBoot [] [] 0x1000) (Machine.reset fun _ => 0)).map fun r =>
      (r.2.tablePhys, r.2.numFrames, r.1.1.heapPhys, r.1.1.heapLen)) =
      some (0x101000, 266, 0x103000, 0x1000) := by
    decide +kernel
  obtain ⟨⟨⟨info, caps⟩, s⟩, hinit, hrun⟩ := Option.map_eq_some_iff.1 hrun
  simp only [Prod.mk.injEq] at hrun
  obtain ⟨htable, hnum, hheap, hlen⟩ := hrun
  have hreturns := returns_of_finish hinit
  have hcomplete := (pool_complete_iff ⟨by decide, by decide, by decide⟩ poolBoot_mapOk hreturns).2
    fun r r' h => absurd h (poolBoot_heap_behind r r')
  refine ⟨info, caps, s, hreturns, hcomplete 0x104 ⟨by decide, ?_, ?_⟩ ?_⟩
  · exact ⟨⟨0x100000, 0xa000, .usable⟩, List.mem_cons_self, rfl, by decide, by decide⟩
  · rintro x ⟨hge, -⟩ ⟨-, -, hlt⟩
    simp only [poolBoot, frameSize] at hge hlt
    omega
  · rintro x ⟨hge, hlt⟩
    simp only [frameSize] at hge hlt
    rw [InTable, PmInitOut.InHeap, htable, hnum, hheap, hlen]
    simp only [FrameInfo.size]
    omega

end Rolnix
