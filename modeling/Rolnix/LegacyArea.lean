import Rolnix.FrameIndex
import Rolnix.PoolDrain

/-!
# The legacy area

The first MiB holds the real-mode tables, the multiboot structure and trampolines, and the marking
loop of `pmm_init` keeps it out of the pool. The boot allocator does not: the frame table goes to the
start of the first usable region with room for it, and that region may be low memory.

* `legacy_untouched`: no byte of the area becomes part of the frame table, of the heap, of an untyped
  region or of a frame that `alloc_frame` returns at any time, if the regions the frame table and the
  heap go to are above the area and no frame number is cut to that of a frame in the area. If one of
  them is low, something in the area is taken.
* `table_in_legacy`: on a map with low memory, as PCs have it, the frame table is at address 0.
-/

namespace Rolnix

open Machine Relation

/-- No byte of the legacy area is in the frame table, the heap, a frame of an untyped region, or a
frame that `alloc_frame` returns in a run from `s`. -/
structure LegacyUntouched (info : PmInitOut) (s : Machine) : Prop where
  table : ∀ x < legacyEnd, ¬ s.InTable x
  heap : ∀ x < legacyEnd, ¬ info.InHeap x
  untyped : ∀ x < legacyEnd, ∀ f, InFrame f x → (s.frames f).owner.tag ≠ .untyped
  pool : ∀ x < legacyEnd, ∀ f, InFrame f x →
    ∀ s₁ s₂, ReflTransGen PmmStep s s₁ → s₁.allocFrame ≠ some (some f, s₂)

/-- The regions that the frame table and the heap go to are above the legacy area, and no frame
number that is cut to 32 bits becomes that of a frame in the area. -/
structure BootInfo.LegacySpared (boot : BootInfo) (heapLen : Nat) : Prop where
  table : ∀ r after,
    boot.effective.dropWhile (fun r => !decide (r.Fits (tableBytes boot.effective))) = r :: after →
    legacyEnd ≤ r.start
  heap : ∀ r r', boot.HeapElsewhere heapLen r r' → legacyEnd ≤ r'.start
  uncut : ∀ ftPhys heapPhys, boot.placement heapLen = some (ftPhys, heapPhys) → ∀ idx, 2 ^ 32 ≤ idx →
    Marked boot.effective ftPhys (boot.skipEnd heapLen ftPhys heapPhys) idx →
    legacyEnd ≤ idx % 2 ^ 32 * frameSize

section Map

variable {boot : BootInfo} {heapLen ftPhys heapPhys x : Nat}

theorem BootInfo.LegacySpared.le_areas (h : boot.LegacySpared heapLen)
    (hal : FrameAligned boot.effective) (hplace : boot.placement heapLen = some (ftPhys, heapPhys)) :
    legacyEnd ≤ ftPhys ∧ legacyEnd ≤ heapPhys := by
  obtain ⟨r, after, hdrop, hr, hfits, rfl, hheap⟩ := placement_regions hplace
  have htable := h.table r after hdrop
  refine ⟨htable, ?_⟩
  rcases hheap with ⟨rfl, -, -⟩ | ⟨r', -, -, rfl, helse⟩
  · exact htable.trans ((Nat.le_add_right _ _).trans (le_behind hal hr hfits))
  · exact h.heap r r' ((helse r r').2 ⟨rfl, rfl⟩)

/-- **A spared area is not taken.** -/
theorem BootInfo.LegacySpared.not_takes (h : boot.LegacySpared heapLen)
    (hal : FrameAligned boot.effective) (hx : x < legacyEnd) : ¬ boot.Takes heapLen x := by
  rintro ⟨ftPhys, heapPhys, hplace, htakes⟩
  obtain ⟨hft, hhp⟩ := h.le_areas hal hplace
  rcases htakes with (⟨hge, -⟩ | ⟨hge, -⟩) | ⟨f, ⟨idx, hmarked, rfl⟩, hin⟩
  · exact absurd (hft.trans hge) (not_le.2 hx)
  · exact absurd (hhp.trans hge) (not_le.2 hx)
  · -- the marking loop skips the area, so the number was cut
    have hlow : idx % 2 ^ 32 * frameSize < legacyEnd := hin.1.trans_lt hx
    by_cases hidx : 2 ^ 32 ≤ idx
    · exact absurd (h.uncut ftPhys heapPhys hplace idx hidx hmarked) (not_le.2 hlow)
    · rw [Nat.mod_eq_of_lt (not_le.1 hidx)] at hlow
      exact absurd hmarked.2.1 (not_le.2 hlow)

theorem legacySpared_of_not_takes (hpos : 0 < tableBytes boot.effective)
    (hplace : boot.placement heapLen = some (ftPhys, heapPhys))
    (h : ∀ x < legacyEnd, ¬ boot.Takes heapLen x) : boot.LegacySpared heapLen := by
  have htaken : ∀ x, boot.Takes heapLen x → legacyEnd ≤ x := by
    intro x htakes
    by_contra hlow
    exact h x (not_le.1 hlow) htakes
  obtain ⟨r, after, hdrop, -, -, rfl, hheap⟩ := placement_regions hplace
  refine ⟨?_, ?_, ?_⟩
  · intro r₁ after₁ hdrop₁
    obtain ⟨rfl, rfl⟩ := List.cons.inj (hdrop.symm.trans hdrop₁)
    exact htaken r.start ⟨_, _, hplace, Or.inl (Or.inl ⟨le_rfl, Nat.lt_add_of_pos_right hpos⟩)⟩
  · intro r₁ r₁' helse₁
    rcases hheap with ⟨-, -, hnone⟩ | ⟨r', -, -, rfl, helse⟩
    · exact absurd helse₁ (hnone r₁ r₁')
    · obtain ⟨rfl, rfl⟩ := (helse r₁ r₁').1 helse₁
      have hlen : 0 < heapLen := Nat.pos_of_ne_zero helse₁.1
      exact htaken r₁'.start ⟨_, _, hplace, Or.inl (Or.inr ⟨le_rfl, Nat.lt_add_of_pos_right hlen⟩)⟩
  · intro ftPhys' heapPhys' hplace' idx _ hmarked
    apply htaken
    exact ⟨_, _, hplace', Or.inr ⟨_, ⟨idx, hmarked, rfl⟩, le_rfl, Nat.lt_add_of_pos_right (by decide)⟩⟩

/-- **Without usable low memory** the area is spared. -/
theorem legacySpared_of_above (hbelow : boot.Below16TiB)
    (habove : ∀ r ∈ boot.effective, r.kind = .usable → legacyEnd ≤ r.start) :
    boot.LegacySpared heapLen := by
  have hfirst := List.head?_dropWhile_not (fun r => !decide (r.Fits (tableBytes boot.effective)))
    boot.effective
  have hsub := List.dropWhile_sublist (l := boot.effective)
    fun r => !decide (r.Fits (tableBytes boot.effective))
  refine ⟨?_, ?_, ?_⟩
  · intro r after hdrop
    rw [hdrop] at hfirst hsub
    have hfits : r.Fits (tableBytes boot.effective) := by simpa using hfirst
    exact habove r (hsub.subset List.mem_cons_self) hfits.1
  · rintro r r' ⟨-, after, hdrop, -, hfind⟩
    rw [hdrop] at hsub
    have hfits : r'.Fits heapLen := by simpa using List.find?_some hfind
    have hmem := List.mem_cons_of_mem r (List.mem_of_find?_eq_some hfind)
    exact habove r' (hsub.subset hmem) hfits.1
  · intro ftPhys heapPhys _ idx hidx hmarked
    exact absurd (hmarked.lt_of_below hbelow) (not_lt.2 hidx)

end Map

/-! ## Runs -/

section Runs

variable {boot : BootInfo} {specs : List UntypedSpec} {outUntyped caps : List UntypedCap}
  {heapLen f : Nat} {info : PmInitOut} {s s' : Machine} {mem : ByteMem}

theorem Machine.FrameChange.reserved {op : PmmOp} {i i' : FrameInfo} (h : FrameChange f op i i')
    (hres : i.owner = .reserved) : i'.owner = .reserved := by
  have htag : i.ownerTag = .reserved := congrArg FrameOwner.tag hres
  cases h with
  | same => exact hres
  | taken hfree => exact absurd (hres.symm.trans hfree) (by decide)
  | deferred hne | freed hne => exact absurd htag hne
  | pinned | mapped => exact hres
  | unpinned | unmapped =>
      unfold drained
      rw [if_neg]
      · exact hres
      · intro hready
        exact absurd (htag.symm.trans hready.1) (by decide)
  | retyped cap domain howner =>
      rw [hres] at howner
      cases howner

theorem reserved_of_run (hrun : ReflTransGen PmmStep s s') (hres : (s.frames f).owner = .reserved) :
    (s'.frames f).owner = .reserved := by
  induction hrun with
  | refl => exact hres
  | tail _ hstep ih =>
      obtain ⟨op, -, hexec⟩ := hstep
      exact (exec_change hexec f).reserved ih

theorem allocFrame_ne_of_reserved (hres : (s.frames f).owner = .reserved) {s₁ s₂ : Machine}
    (hrun : ReflTransGen PmmStep s s₁) : s₁.allocFrame ≠ some (some f, s₂) := by
  intro halloc
  obtain ⟨hnone, -⟩ | ⟨g, hg, hfree, -⟩ := allocFrame_frames halloc
  · cases hnone
  · obtain rfl := Option.some.inj hg
    rw [reserved_of_run hrun hres] at hfree
    cases hfree

theorem marked_lt_numFrames {ftPhys skipEnd idx : Nat} (hu64 : boot.IsU64)
    (h : Returns (pmmInit boot specs outUntyped heapLen) (Machine.reset mem) (info, caps) s)
    (hmarked : Marked boot.effective ftPhys skipEnd idx) : idx < s.numFrames := by
  obtain ⟨⟨part, hpart, hu, -, hlt⟩, -⟩ := hmarked
  have hmax := hlt.trans_le (le_maxUsableEnd hpart hu)
  rw [← (pmmInit_numFrames hu64 h).1] at hmax
  exact Nat.lt_of_mul_lt_mul_right hmax

theorem Idle.reserved (h : Idle s)
    (hnot : ¬ ((s.frames f).owner.tag = .free ∨ (s.frames f).owner.tag = .untyped)) :
    (s.frames f).owner = .reserved := by
  rcases h.owner f with hres | hfree | ⟨id, huntyped⟩
  · exact hres
  · exact absurd (Or.inl (congrArg FrameOwner.tag hfree)) hnot
  · exact absurd (Or.inr (congrArg FrameOwner.tag huntyped)) hnot

/-- **The legacy area.** If the map spares it, it is untouched in every run after `pmm_init`. The
converse holds on every machine on which the frame numbers of the area were scanned for free frames,
or no frame number was cut. -/
theorem legacy_untouched (hu64 : boot.IsU64)
    (hinit : BootsApart boot specs outUntyped heapLen mem info caps s) :
    (boot.LegacySpared heapLen → LegacyUntouched info s) ∧
    (s.numFrames ≤ 2 ^ 32 ∨ legacyEnd ≤ s.numFrames % 2 ^ 32 * frameSize →
      LegacyUntouched info s → boot.LegacySpared heapLen) := by
  have h := hinit.returns
  obtain ⟨hpos, heapPhys, heapEnd, before, r, after, hlaid⟩ := pmmInit_laidOut hu64 h
  constructor
  · intro hspared
    have hnot : ∀ x < legacyEnd, ¬ boot.Takes heapLen x := fun x hx =>
      hspared.not_takes hlaid.aligned hx
    simp only [hlaid.takes_iff, not_or, not_exists, not_and] at hnot
    refine ⟨fun x hx => (hnot x hx).1.1, fun x hx => (hnot x hx).1.2, ?_, ?_⟩
    · intro x hx f hin huntyped
      exact (hnot x hx).2 f (Or.inr huntyped) hin
    · intro x hx f hin s₁ s₂ hrun
      apply allocFrame_ne_of_reserved _ hrun
      exact (pmmInit_idle h).reserved fun howner => (hnot x hx).2 f howner hin
  · intro hscan huntouched
    obtain ⟨heapPhys', hplace, -⟩ := hlaid.layout.placement_eq
    apply legacySpared_of_not_takes hpos hplace
    intro x hx htakes
    rcases hlaid.takes_iff.1 htakes with (htable | hheap) | ⟨f, howner, hin⟩
    · exact huntouched.table x hx htable
    · exact huntouched.heap x hx hheap
    · have hlow : f * frameSize < legacyEnd := hin.1.trans_lt hx
      obtain ⟨idx, hmarked, rfl⟩ := (hlaid.marked f).1 howner
      -- the number of this frame was cut
      have hcut : 2 ^ 32 ≤ idx := by
        by_contra hidx
        rw [Nat.mod_eq_of_lt (not_le.1 hidx)] at hlow
        exact absurd hmarked.2.1 (not_le.2 hlow)
      rcases howner with hfree | huntyped
      · have hscanned : idx % 2 ^ 32 < s.scanned := by
          rcases hscan with hsmall | hlarge
          · exact absurd (marked_lt_numFrames hu64 h hmarked) (not_lt.2 (hsmall.trans hcut))
          · exact Nat.lt_of_mul_lt_mul_right (hlow.trans_le hlarge)
        have howner := eq_free_of_tag ((pmmInit_idle h).owner _) hfree
        obtain ⟨s₁, s₂, hrun, halloc⟩ := scanned_allocatable h hscanned howner
        exact huntouched.pool x hx _ hin s₁ s₂ hrun halloc
      · exact huntouched.untyped x hx _ hin huntyped

end Runs

/-- All usable memory of this map is above the area. -/
theorem legacy_untouched_small :
    ∃ info caps s, Returns (pmmInit poolBoot [⟨0x108000, 0x1000⟩] [UntypedCap.new 0 0 0] 0x1000)
        (Machine.reset fun _ => 0) (info, caps) s ∧ LegacyUntouched info s := by
  have hrun : (finish (pmmInit poolBoot [⟨0x108000, 0x1000⟩] [UntypedCap.new 0 0 0] 0x1000)
      (Machine.reset fun _ => 0)).isSome = true := by
    decide +kernel
  obtain ⟨⟨⟨info, caps⟩, s⟩, hinit⟩ := Option.isSome_iff_exists.1 hrun
  have hreturns := returns_of_finish hinit
  refine ⟨info, caps, s, hreturns, (legacy_untouched
    ⟨by decide, by decide, by decide⟩ ⟨poolBoot_apart, hreturns⟩).1 ?_⟩
  exact legacySpared_of_above (by decide) (by decide)

/-! ## Low memory -/

/-- A map with conventional low memory. -/
def conventionalBoot : BootInfo where
  physmapBase := 0xffff800000000000
  regions := [⟨0, 0x9f000, .usable⟩, ⟨0x100000, 0x10000, .usable⟩]
  kernelImage := (0x100000, 0x8000)

/-- **On a map with low memory the frame table and the heap are in the legacy area**: the frame table
replaces the real-mode tables at address 0. -/
theorem table_in_legacy :
    ∃ info caps s, conventionalBoot.MapOk ∧
      Returns (pmmInit conventionalBoot [] [] 0x1000) (Machine.reset fun _ => 0) (info, caps) s ∧
      s.InTable 0 ∧ info.InHeap 0x2000 ∧ ¬ LegacyUntouched info s := by
  have hrun : ((finish (pmmInit conventionalBoot [] [] 0x1000) (Machine.reset fun _ => 0)).map fun r =>
      (r.2.tablePhys, r.2.numFrames, r.1.1.heapPhys, r.1.1.heapLen)) =
      some (0, 272, 0x2000, 0x1000) := by
    decide +kernel
  obtain ⟨⟨⟨info, caps⟩, s⟩, hinit, hrun⟩ := Option.map_eq_some_iff.1 hrun
  simp only [Prod.mk.injEq] at hrun
  obtain ⟨htable, hnum, hheap, hlen⟩ := hrun
  have hmap : conventionalBoot.MapOk := by
    refine ⟨by decide, ?_, by decide⟩
    refine List.pairwise_pair.2 fun x hx => ?_
    simp only [MemoryRegion.Contains] at hx
    omega
  have hin : s.InTable 0 := by
    rw [InTable, htable, hnum]
    decide
  refine ⟨info, caps, s, hmap, returns_of_finish hinit, hin, ?_, ?_⟩
  · rw [PmInitOut.InHeap, hheap, hlen]
    decide
  · intro huntouched
    exact huntouched.table 0 (by decide) hin

end Rolnix
