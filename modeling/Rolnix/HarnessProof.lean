import Rolnix.Lib.InPlace
import Rolnix.Harness
import Rolnix.BootReserved
import Rolnix.SpecCarving

/-!
# The harness's choice of untyped memory

`pick_untyped_spec` looks at the region list alone: it takes 64 MiB off the top of the highest usable
region, or all of it if it is smaller. It does not know where `pmm_init` puts the frame table and
the heap, nor where the kernel image is.

* `fillRegions_filled`, `picked_of_pick`: what the harness computes from the bootloader's map;
* `harness_agrees_iff`: on a map that `pmm_init` accepts without untyped memory, it accepts the
  harness's range and leaves a free frame exactly if the highest usable region is long enough, or
  lies high enough, for its top to be free, and some frame below is (`BootInfo.RoomAtTop`);
* `harness_disagrees`: on a machine with 9 MiB of memory it does not.
-/

namespace Rolnix

open Machine

/-! ## The region list -/

/-- A region as `fill_regions` writes it. -/
structure MemoryRegion.Filled (r : MemoryRegion) : Prop where
  start_lt : r.start < 2 ^ 64
  aligned : r.kind = .usable → r.start % frameSize = 0 ∧ r.end % frameSize = 0
  nonempty : r.kind = .usable → r.start < r.end

section Regions

variable {mem : ByteMem} {info stop room p : Nat} {raw : List MemEntry} {e : MemEntry}
  {r : MemoryRegion} {regions : List MemoryRegion}

theorem parseRecords_start (he : e ∈ parseRecords mem stop room p) : e.start < 2 ^ 64 := by
  induction room generalizing p with
  | zero => cases he
  | succ room ih =>
      rw [parseRecords] at he
      by_cases hp : p < stop
      swap
      · rw [if_neg hp] at he
        cases he
      rw [if_pos hp] at he
      dsimp only at he
      by_cases hsize : mem.load p 4 < 20
      · rw [if_pos hsize] at he
        cases he
      rw [if_neg hsize] at he
      rcases List.mem_cons.1 he with rfl | he
      · exact ByteMem.load_lt mem (p + 4) 8
      · exact ih he

theorem parse_start (h : parse mem info room = some (some raw)) (he : e ∈ raw) :
    e.start < 2 ^ 64 := by
  unfold parse at h
  dsimp only at h
  split_ifs at h with hfallback hroom
  · obtain rfl := Option.some.inj (Option.some.inj h)
    obtain rfl := List.mem_singleton.1 he
    exact show 0x100000 < 2 ^ 64 by decide
  · cases h
  · obtain rfl := Option.some.inj (Option.some.inj h)
    unfold mmapEntries at he
    split_ifs at he
    · exact parseRecords_start he
    · cases he

theorem MemEntry.end_lt (he : e.start < 2 ^ 64) : e.end < 2 ^ 64 := by
  unfold MemEntry.end
  split_ifs with hsum
  · exact hsum
  · exact he

theorem regionOfEntry_filled (he : e.start < 2 ^ 64) (h : regionOfEntry e = some r) : r.Filled := by
  unfold regionOfEntry at h
  split_ifs at h with hkind
  · dsimp only at h
    split_ifs at h with hempty
    obtain rfl := Option.some.inj h
    obtain ⟨hmod, hlt⟩ : Word.alignUp 64 e.start frameSize % frameSize = 0 ∧
        Word.alignUp 64 e.start frameSize < 2 ^ 64 := by
      rw [frameSize_eq]
      exact Word.alignUp_aligned (by decide)
    have hstop := MemEntry.end_lt he
    rw [roundDown_eq hstop] at hempty ⊢
    have hend := (Nat.div_mul_le_self _ frameSize).trans_lt hstop
    have heq := part_end (not_le.1 hempty).le hend
    refine ⟨hlt, fun _ => ⟨hmod, ?_⟩, fun _ => ?_⟩
    · rw [heq]
      exact Nat.mul_mod_left _ _
    · rw [heq]
      exact not_le.1 hempty
  · obtain rfl := Option.some.inj h
    exact ⟨he, by simp, by simp⟩

theorem sortRegions_eq (regions : List MemoryRegion) : sortRegions regions =
    (InPlace.inserted (fun key r : MemoryRegion => r.start ≤ key.start) regions).reverse := rfl

theorem perm_sortRegions (regions : List MemoryRegion) : (sortRegions regions).Perm regions :=
  (List.reverse_perm _).trans (InPlace.perm_inserted regions)

theorem pairwise_sortRegions (regions : List MemoryRegion) :
    (sortRegions regions).Pairwise fun a b => a.start ≤ b.start := by
  have htotal : Std.Total fun key r : MemoryRegion => r.start ≤ key.start :=
    ⟨fun a b => Nat.le_total b.start a.start⟩
  have htrans : IsTrans MemoryRegion fun key r => r.start ≤ key.start :=
    ⟨fun _ _ _ hab hbc => hbc.trans hab⟩
  rw [sortRegions_eq, List.pairwise_reverse]
  exact InPlace.pairwise_inserted regions

theorem length_sortRegions (regions : List MemoryRegion) :
    (sortRegions regions).length = regions.length := (perm_sortRegions regions).length_eq

theorem mem_sortRegions : r ∈ sortRegions regions ↔ r ∈ regions := (perm_sortRegions regions).mem_iff

theorem fillRegions_filled (h : fillRegions mem info = some regions) (hr : r ∈ regions) : r.Filled := by
  unfold fillRegions at h
  split at h
  · next raw hraw =>
      obtain rfl := Option.some.inj h
      obtain ⟨e, he, hre⟩ := List.mem_filterMap.1 (mem_sortRegions.1 hr)
      exact regionOfEntry_filled (parse_start hraw he) hre
  · cases h
  · cases h

theorem fillRegions_sorted (h : fillRegions mem info = some regions) :
    regions.Pairwise fun a b => a.start ≤ b.start := by
  unfold fillRegions at h
  split at h
  · obtain rfl := Option.some.inj h
    exact pairwise_sortRegions _
  · cases h
  · cases h

end Regions

/-! ## The range -/

/-- The usable region that ends highest, the longest one of several. -/
structure Highest (regions : List MemoryRegion) (r : MemoryRegion) : Prop where
  mem : r ∈ regions
  usable : r.kind = .usable
  highest : ∀ r' ∈ regions, r'.kind = .usable → r'.end < r.end ∨ r'.end = r.end ∧ r.start ≤ r'.start

/-- The range is the top of `r`. -/
structure Picked (regions : List MemoryRegion) (spec : UntypedSpec) (r : MemoryRegion) : Prop
    extends Highest regions r where
  base_eq : spec.basePhys = max r.start (r.end - untypedLen)
  end_eq : spec.basePhys + spec.len = r.end
  aligned : spec.basePhys % frameSize = 0 ∧ spec.len % frameSize = 0
  len_pos : 0 < spec.len

section Pick

variable {regions : List MemoryRegion} {spec : UntypedSpec} {r : MemoryRegion} {f x : Nat}

/-- The loop of `pick_untyped_spec`, over regions that are sorted by their start. -/
theorem bestRegion_loop (hsorted : regions.Pairwise fun a b => a.start ≤ b.start) (best : Nat × Nat)
    (hbest : ∀ r ∈ regions, best.1 ≤ r.start) :
    ∃ best', regions.foldl (fun best r =>
        if r.kind = .usable ∧ r.end > best.2 then (r.start, r.end) else best) best = best' ∧
      (∀ r ∈ regions, r.kind = .usable → r.end < best'.2 ∨ r.end = best'.2 ∧ best'.1 ≤ r.start) ∧
      (best' = best ∨ best.2 < best'.2 ∧ ∃ r ∈ regions, r.kind = .usable ∧ best' = (r.start, r.end)) := by
  induction regions generalizing best with
  | nil => exact ⟨best, rfl, by simp, Or.inl rfl⟩
  | cons r rest ih =>
      obtain ⟨hr, hrest⟩ := List.pairwise_cons.1 hsorted
      rw [List.foldl_cons]
      by_cases hnew : r.kind = .usable ∧ r.end > best.2
      · rw [if_pos hnew]
        obtain ⟨best', heq, hall, hfrom⟩ := ih hrest (r.start, r.end) hr
        refine ⟨best', heq, List.forall_mem_cons.2 ⟨fun _ => ?_, hall⟩, Or.inr ?_⟩
        · rcases hfrom with rfl | ⟨hlt, -⟩
          · exact Or.inr ⟨rfl, le_rfl⟩
          · exact Or.inl hlt
        · rcases hfrom with rfl | ⟨hlt, r', hr', hu, hbest'⟩
          · exact ⟨hnew.2, r, List.mem_cons_self, hnew.1, rfl⟩
          · exact ⟨hnew.2.trans hlt, r', List.mem_cons_of_mem r hr', hu, hbest'⟩
      · rw [if_neg hnew]
        obtain ⟨best', heq, hall, hfrom⟩ := ih hrest best fun r' hr' => hbest r' (List.mem_cons_of_mem r hr')
        refine ⟨best', heq, List.forall_mem_cons.2 ⟨fun hu => ?_, hall⟩, ?_⟩
        · have hle : r.end ≤ best.2 := not_lt.1 fun hlt => hnew ⟨hu, hlt⟩
          rcases hfrom with rfl | ⟨hlt, -⟩
          · exact hle.lt_or_eq.imp_right fun heq => ⟨heq, hbest r List.mem_cons_self⟩
          · exact Or.inl (hle.trans_lt hlt)
        · rcases hfrom with rfl | ⟨hlt, r', hr', hu, hbest'⟩
          · exact Or.inl rfl
          · exact Or.inr ⟨hlt, r', List.mem_cons_of_mem r hr', hu, hbest'⟩

/-- **The highest usable region**, if there is one that ends above 0. -/
theorem bestRegion_spec (hsorted : regions.Pairwise fun a b => a.start ≤ b.start) :
    bestRegion regions = (0, 0) ∧ (∀ r ∈ regions, r.kind = .usable → r.end = 0) ∨
      ∃ r, Highest regions r ∧ r.end ≠ 0 ∧ bestRegion regions = (r.start, r.end) := by
  obtain ⟨best', heq, hall, hfrom⟩ := bestRegion_loop hsorted (0, 0) fun _ _ => Nat.zero_le _
  rw [bestRegion, heq]
  rcases hfrom with rfl | ⟨hlt, r, hr, hu, rfl⟩
  · refine Or.inl ⟨rfl, fun r hr hu => ?_⟩
    have := hall r hr hu
    dsimp only at this
    omega
  · exact Or.inr ⟨r, ⟨hr, hu, hall⟩, Nat.ne_zero_of_lt hlt, rfl⟩

/-- **What `pick_untyped_spec` chooses**: the whole region, or its last 64 MiB. -/
theorem picked_of_usable (hfilled : ∀ r ∈ regions, r.Filled)
    (hsorted : regions.Pairwise fun a b => a.start ≤ b.start) (hr : r ∈ regions)
    (hu : r.kind = .usable) : ∃ spec r, pickUntypedSpec regions = some spec ∧ Picked regions spec r := by
  rcases bestRegion_spec hsorted with ⟨-, hzero⟩ | ⟨r, htop, hzero, hbest⟩
  · exact absurd (hzero r hr hu) (Nat.ne_zero_of_lt ((hfilled r hr).nonempty hu))
  obtain ⟨hs, he⟩ := (hfilled r htop.mem).aligned htop.usable
  have hne := (hfilled r htop.mem).nonempty htop.usable
  have hlt := end_lt r
  obtain ⟨len, hlen⟩ : ∃ len, len = min untypedLen (Word.sub 64 r.end r.start) := ⟨_, rfl⟩
  have hspec : pickUntypedSpec regions = some ⟨Word.sub 64 r.end len, len⟩ := by
    rw [pickUntypedSpec, hbest]
    dsimp only
    rw [if_neg hzero, ← hlen]
  rw [Word.sub_of_le hne.le hlt] at hlen
  simp only [untypedLen] at hlen
  simp only [frameSize] at hs he
  rw [Word.sub_of_le (by omega) hlt] at hspec
  refine ⟨_, r, hspec, ?_⟩
  exact {
    toHighest := htop
    base_eq := by
      simp only [untypedLen]
      omega
    end_eq := Nat.sub_add_cancel (by omega)
    aligned := by
      simp only [frameSize]
      omega
    len_pos := show 0 < len by omega }

namespace Picked

theorem covers_iff (h : Picked regions spec r) (hx : InFrame f x) :
    spec.Covers f ↔ spec.basePhys ≤ x ∧ x < spec.basePhys + spec.len := by
  obtain ⟨hbase, hlen⟩ := h.aligned
  obtain ⟨hge, hlt⟩ := hx
  simp only [UntypedSpec.Covers, frameSize] at hbase hlen hge hlt ⊢
  omega

/-- The range's last frame has an index: then all usable memory is below 16 TiB. -/
theorem below16TiB {image : Nat × Nat} (h : Picked regions spec r)
    (hindex : r.end < listEnd * frameSize) : (harnessBoot regions image).Below16TiB := by
  intro r' hr' hu'
  have hle := h.highest r' hr' hu'
  simp only [listEnd, frameSize] at hindex
  omega

end Picked

end Pick

/-! ## Agreement -/

/-- The last 64 MiB of the region, or all of a shorter one, keep clear of `[lo, hi)`. -/
def MemoryRegion.TopClear (r : MemoryRegion) (lo hi : Nat) : Prop :=
  hi ≤ lo ∨ r.end ≤ lo ∨ hi ≤ r.start ∨ hi + untypedLen ≤ r.end

/-- The top of `r` has frame indices and keeps clear of the legacy area, the kernel image, and the
frame table and the heap. Below it there is a usable frame outside of all of them. -/
def BootInfo.RoomAtTop (boot : BootInfo) (heapLen : Nat) (r : MemoryRegion) : Prop :=
  r.end < listEnd * frameSize ∧ r.TopClear 0 legacyEnd ∧ r.TopClear boot.imageStart boot.imageEnd ∧
    ∃ ftPhys heapPhys, boot.placement heapLen = some (ftPhys, heapPhys) ∧
      r.TopClear ftPhys (boot.skipEnd heapLen ftPhys heapPhys) ∧
      ∃ f, (∃ r' ∈ boot.regions, r'.kind = .usable ∧ r'.Holds f) ∧ ¬ boot.InSplit (f * frameSize) ∧
        Poolable ftPhys (boot.skipEnd heapLen ftPhys heapPhys) f ∧
        (f * frameSize < r.start ∨ f * frameSize + untypedLen < r.end)

section Agreement

variable {regions : List MemoryRegion} {spec : UntypedSpec} {r : MemoryRegion} {image : Nat × Nat}
  {heapLen ftPhys heapEnd : Nat} {mem : ByteMem} {info : PmInitOut} {outUntyped caps : List UntypedCap}
  {cap : UntypedCap} {s s' : Machine}

theorem harnessBoot_isU64 (hfilled : ∀ r ∈ regions, r.Filled)
    (himage : image.1 < 2 ^ 64 ∧ image.2 < 2 ^ 64) : (harnessBoot regions image).IsU64 :=
  ⟨show 0xffff800000000000 < 2 ^ 64 by decide, fun r hr => (hfilled r hr).start_lt, himage⟩

theorem Picked.topClear_iff (h : Picked regions spec r) {lo hi : Nat} :
    r.TopClear lo hi ↔
      ∀ x, spec.basePhys ≤ x → x < spec.basePhys + spec.len → ¬ (lo ≤ x ∧ x < hi) := by
  have hbase := h.base_eq
  have hend := h.end_eq
  have hpos := h.len_pos
  unfold MemoryRegion.TopClear
  constructor
  · intro hclear x hge hlt
    omega
  · intro hclear
    -- the first byte they could share
    have hfirst := hclear (max lo spec.basePhys) (le_max_right _ _)
    omega

theorem Picked.marked_iff (h : Picked regions spec r) (hu64 : (harnessBoot regions image).IsU64)
    (hft : ftPhys % frameSize = 0) :
    (∀ f, spec.Covers f → Marked (harnessBoot regions image).effective ftPhys heapEnd f) ↔
      r.TopClear 0 legacyEnd ∧
        r.TopClear (harnessBoot regions image).imageStart (harnessBoot regions image).imageEnd ∧
        r.TopClear ftPhys heapEnd := by
  have hsplit : ∀ x, (harnessBoot regions image).InSplit x ↔
      (harnessBoot regions image).imageStart ≤ x ∧ x < (harnessBoot regions image).imageEnd := by
    intro x
    refine and_iff_right_of_imp ?_
    rintro ⟨-, hlt⟩ hzero
    rw [BootInfo.imageEnd, if_neg (not_not.2 hzero)] at hlt
    exact Nat.not_lt_zero x hlt
  simp only [h.topClear_iff, ← hsplit, ← forall_and]
  constructor
  · intro hmarked x hge hlt
    have hin : InFrame (x / frameSize) x := by
      simp only [InFrame, frameSize]
      omega
    obtain ⟨⟨part, hpart, hu, hholds⟩, hlegacy, hskip⟩ := hmarked _ ((h.covers_iff hin).2 ⟨hge, hlt⟩)
    obtain ⟨-, -, -, -, -, hout⟩ := exists_effective_iff.1 ⟨part, hpart, hu, hholds.1, hholds.2⟩
    refine ⟨fun hlow => absurd (hlegacy.trans hin.1) (not_le.2 hlow.2), ?_, ?_⟩
    · rintro ⟨hlen, hks, hke⟩
      refine hout ⟨hlen, hin.le_of_aligned ?_ hks, hin.1.trans_lt hke⟩
      rw [imageStart_eq hu64 hlen]
      exact Nat.mul_mod_left _ _
    · rintro ⟨hge', hlt'⟩
      exact hskip ⟨hin.le_of_aligned hft hge', hin.1.trans_lt hlt'⟩
  · intro hclear f hcov
    have hin : InFrame f (f * frameSize) := ⟨le_rfl, Nat.lt_add_of_pos_right (by decide)⟩
    obtain ⟨hge, hlt⟩ := (h.covers_iff hin).1 hcov
    obtain ⟨hlegacy, hout, hskip⟩ := hclear _ hge hlt
    have hstart : r.start ≤ f * frameSize := (le_max_left _ _).trans (h.base_eq ▸ hge)
    refine ⟨exists_effective_iff.2 ⟨r, h.mem, h.usable, hstart, ?_, hout⟩, ?_, hskip⟩
    · rw [← h.end_eq]
      exact hlt
    · exact not_lt.1 fun hlow => hlegacy ⟨Nat.zero_le _, hlow⟩

theorem Picked.spare_iff (h : Picked regions spec r) {f : Nat} :
    Marked (harnessBoot regions image).effective ftPhys heapEnd f ∧ ¬ spec.Covers f ↔
      (∃ r' ∈ regions, r'.kind = .usable ∧ r'.Holds f) ∧
        ¬ (harnessBoot regions image).InSplit (f * frameSize) ∧ Poolable ftPhys heapEnd f ∧
        (f * frameSize < r.start ∨ f * frameSize + untypedLen < r.end) := by
  have hin : InFrame f (f * frameSize) := ⟨le_rfl, Nat.lt_add_of_pos_right (by decide)⟩
  have hbase := h.base_eq
  have hend := h.end_eq
  rw [h.covers_iff hin]
  constructor
  · rintro ⟨⟨hpart, hpool⟩, hnot⟩
    obtain ⟨r', hr', hu', hge, hlt, hout⟩ := exists_effective_iff.1 hpart
    have hle := h.highest r' hr' hu'
    exact ⟨⟨r', hr', hu', hge, hlt⟩, hout, hpool, by omega⟩
  · rintro ⟨⟨r', hr', hu', hge, hlt⟩, hout, hpool, hbelow⟩
    exact ⟨⟨exists_effective_iff.2 ⟨r', hr', hu', hge, hlt, hout⟩, hpool⟩, by omega⟩

theorem usable_of_returns {boot : BootInfo} {specs : List UntypedSpec}
    (h : Returns (pmmInit boot specs outUntyped heapLen) s (info, caps) s') :
    ∃ r ∈ boot.regions, r.kind = .usable := by
  obtain ⟨_, ftPhys, heapEnd, bootAlloc, s₁, s₂, s₃, s₄, s₅, s₆, hrun⟩ := pmmInit_returns h
  obtain ⟨rfl, -⟩ := buildEffective_returns hrun.effective
  by_contra hnone
  refine hrun.nonempty (maxUsableEnd_of (P := (· = 0)) rfl fun part hpart hu => ?_)
  obtain ⟨region, hregion, hparts⟩ := List.mem_flatMap.1 hpart
  rcases mem_regionParts hparts with ⟨rfl, -⟩ | ⟨hu', -⟩
  · exact absurd ⟨part, hregion, hu⟩ hnone
  · exact absurd ⟨region, hregion, hu'⟩ hnone

/-- What `pmm_init` needs to accept the range. -/
theorem roomAtTop_of_returns (hpick : Picked regions spec r) (hfilled : ∀ r ∈ regions, r.Filled)
    (hu64 : (harnessBoot regions image).IsU64)
    (h : Returns (pmmInit (harnessBoot regions image) [spec] [cap] heapLen) (Machine.reset mem)
      (info, caps) s) (hfree : ∃ f, (s.frames f).owner = .free) :
    (harnessBoot regions image).RoomAtTop heapLen r := by
  obtain ⟨_, ftPhys, heapEnd, bootAlloc, s₁, s₂, s₃, s₄, s₅, s₆, hrun⟩ := pmmInit_returns h
  obtain ⟨rfl, -⟩ := buildEffective_returns hrun.effective
  have hal := effective_aligned hu64 hrun.aligned
  obtain ⟨heapPhys, hplace, rfl⟩ := hrun.placement hal
  have hindex : r.end < listEnd * frameSize := by
    obtain ⟨cap', s₅', hcarve, -⟩ := returns_bind.1 hrun.carve
    obtain ⟨-, -, hlt, -⟩ := carveUntypedRegion_cap hcarve
    obtain ⟨hbase, hlen⟩ := hpick.aligned
    rw [← hpick.end_eq]
    simp only [UntypedSpec.firstFrame, listEnd, frameSize] at hlt hbase hlen ⊢
    omega
  have hcount := effective_countable (hpick.below16TiB hindex)
    (fun r hr hu => ((hfilled r hr).nonempty hu).le) hu64 hrun.aligned
  have howners := hrun.owners hcount
  obtain ⟨hlegacy, himage, hskip⟩ := (hpick.marked_iff hu64 (hrun.table_aligned hal)).1 fun f hcov =>
    (howners.untyped 0 spec rfl f hcov).1
  refine ⟨hindex, hlegacy, himage, ftPhys, heapPhys, hplace, hskip, ?_⟩
  · obtain ⟨f, hf⟩ := hfree
    refine ⟨f, hpick.spare_iff.1 ⟨?_, fun hcov => ?_⟩⟩
    · by_contra hnot
      rw [howners.reserved f hnot] at hf
      exact absurd hf (by decide)
    · rw [(howners.untyped 0 spec rfl f hcov).2] at hf
      exact FrameOwner.untyped_ne_free _ hf

/-- And that is enough, where `pmm_init` gets as far as carving. -/
theorem returns_of_roomAtTop (hpick : Picked regions spec r) (hfilled : ∀ r ∈ regions, r.Filled)
    (hu64 : (harnessBoot regions image).IsU64)
    (h : Returns (pmmInit (harnessBoot regions image) [] outUntyped heapLen) (Machine.reset mem)
      (info, caps) s) (hroom : (harnessBoot regions image).RoomAtTop heapLen r) :
    ∃ info' caps' s', Returns (pmmInit (harnessBoot regions image) [spec] [cap] heapLen)
        (Machine.reset mem) (info', caps') s' ∧
      ∃ f < info'.totalFrames, (s'.frames f).owner = .free := by
  obtain ⟨hindex, hlegacy, hsplit, ftPhys', heapPhys, hplace, hskip, f, hspare⟩ := hroom
  obtain ⟨hf, hnot⟩ := hpick.spare_iff.2 hspare
  obtain ⟨_, ftPhys, heapEnd, bootAlloc, s₁, s₂, s₃, s₄, s₅, s₆, hrun⟩ := pmmInit_returns h
  obtain ⟨rfl, -⟩ := buildEffective_returns hrun.effective
  have hal := effective_aligned hu64 hrun.aligned
  obtain ⟨heapPhys', hplace', rfl⟩ := hrun.placement hal
  obtain ⟨rfl, rfl⟩ := Prod.mk.inj (Option.some.inj (hplace.symm.trans hplace'))
  have hbelow : (harnessBoot regions image).Below16TiB := hpick.below16TiB hindex
  have hcount := effective_countable hbelow (fun r hr hu => ((hfilled r hr).nonempty hu).le) hu64
    hrun.aligned
  have hmark := markRegions_claims hcount hrun.mark
  -- nothing was carved, so the pool was to be built over the marked frames
  obtain ⟨-, rfl⟩ := returns_pure.1 hrun.carve
  have hbooting := hrun.booting
  obtain ⟨caps', s₆, hcarve⟩ : ∃ caps' s₆, Returns (carveSpecs 0 [spec] [cap]) s₅ caps' s₆ := by
    refine (carveSpecs_returns_iff hbooting.table fun _ => Iff.rfl).2 ⟨⟨?_, by simp⟩, ?_⟩
    · intro spec' hspec'
      obtain rfl := List.mem_singleton.1 hspec'
      refine ⟨hpick.aligned, hpick.len_pos, fun f hcov => ?_⟩
      have hm := (hpick.marked_iff hu64 (hrun.table_aligned hal)).2 ⟨hlegacy, hsplit, hskip⟩ f hcov
      rw [hbooting.numFrames]
      exact ⟨hm.lt_total hal, (hmark.inside f hm).2⟩
    · intro spec' hspec'
      obtain rfl := List.mem_singleton.1 hspec'
      obtain ⟨hbase, hlen⟩ := hpick.aligned
      have hend := hpick.end_eq
      simp only [frameSize] at hbase hlen hindex
      simp only [UntypedSpec.InRange, UntypedSpec.endFrame, UntypedSpec.firstFrame, frameSize]
      omega
  have hbooting' := survivesOwners_booting.carveSpecs hbooting hcarve
  obtain ⟨count, s', hpool⟩ := buildGlobalFreelist_total hbooting'.table hbooting'.global
  have hrun' : InitRun (harnessBoot regions image) [spec] [cap] heapLen (Machine.reset mem)
      { info with freeFrames := count, untypedCreated := 1 } caps' s'
      (harnessBoot regions image).effective ftPhys' _ bootAlloc s₁ s₂ s₃ s₄ s₅ s₆ :=
    { hrun with
      fits := le_rfl
      carve := hcarve
      pool := hpool
      info := by rw [hrun.info]; rfl }
  refine ⟨_, caps', s', hrun'.returns, f, ?_, (hrun'.owners hcount).free f hf ?_⟩
  · have hlt := hf.lt_total hal
    rw [hrun.info]
    exact hlt
  · intro spec' hspec'
    obtain rfl := List.mem_singleton.1 hspec'
    exact hnot

end Agreement

/-- **The harness agrees with `pmm_init` exactly if there is room at the top** of the highest usable
region, on maps that keep the frame table out of the pool. -/
theorem harness_agrees_iff {firmware mem : ByteMem} {infoPtr : Nat} {regions : List MemoryRegion}
    {image : Nat × Nat} {outUntyped caps : List UntypedCap} {info : PmInitOut} {s : Machine}
    (cap : UntypedCap) (hfill : fillRegions firmware infoPtr = some regions)
    (himage : image.1 < 2 ^ 64 ∧ image.2 < 2 ^ 64)
    (h : BootsApart (harnessBoot regions image) [] outUntyped kernelHeapSize mem info caps s) :
    ∃ spec r, pickUntypedSpec regions = some spec ∧ Highest regions r ∧
      ((∃ info' caps' s', Returns (pmmInit (harnessBoot regions image) [spec] [cap] kernelHeapSize)
          (Machine.reset mem) (info', caps') s' ∧
        ∃ f < info'.totalFrames, (s'.frames f).owner = .free) ↔
      (harnessBoot regions image).RoomAtTop kernelHeapSize r) := by
  have hfilled := fun r (hr : r ∈ regions) => fillRegions_filled hfill hr
  have hu64 := harnessBoot_isU64 hfilled himage
  -- `pmm_init` found usable memory, so there is a range to pick
  obtain ⟨r, hr, hu⟩ := usable_of_returns h.returns
  obtain ⟨spec, r, hspec, hpick⟩ := picked_of_usable hfilled (fillRegions_sorted hfill) hr hu
  refine ⟨spec, r, hspec, hpick.toHighest, ?_, returns_of_roomAtTop hpick hfilled hu64 h.returns⟩
  rintro ⟨info', caps', s', h', f, -, hf⟩
  exact roomAtTop_of_returns hpick hfilled hu64 h' ⟨f, hf⟩

/-- The info block of a bootloader that reports the memory areas in `areas`, with their starts and
lengths. -/
def firmwareWith (areas : List (Nat × Nat)) : ByteMem :=
  let header : ByteMem := fun _ => 0
  let header := ((header.store 0 4 0x40).store 44 4 (24 * areas.length)).store 48 4 64
  (areas.zipIdx.foldl fun mem area =>
    (((mem.store (64 + 24 * area.2) 4 20).store (68 + 24 * area.2) 8 area.1.1).store
      (76 + 24 * area.2) 8 area.1.2).store (84 + 24 * area.2) 4 mtUsable) header

/-- Two usable areas: the first has room for the frame table and the heap and seven frames more, the
second one has two frames. -/
def roomyRegions : List MemoryRegion := [⟨0x100000, 0x816000, .usable⟩, ⟨0x918000, 0x2000, .usable⟩]

theorem roomyRegions_room : (harnessBoot roomyRegions (0x100000, 0x1000)).RoomAtTop kernelHeapSize
    ⟨0x918000, 0x2000, .usable⟩ := by
  have himage : (harnessBoot roomyRegions (0x100000, 0x1000)).imageEnd = 0x101000 := by decide
  refine ⟨by decide, Or.inr (Or.inr (Or.inl (by decide))), Or.inr (Or.inr (Or.inl (by decide))),
    0x101000, 0x10f000, by decide, Or.inr (Or.inr (Or.inl (by decide))), 0x90f, ?_⟩
  refine ⟨⟨⟨0x100000, 0x816000, .usable⟩, by decide, rfl, by decide, by decide⟩, ?_,
    ⟨by decide, by decide⟩, Or.inl (by decide)⟩
  rintro ⟨-, -, hlt⟩
  rw [himage] at hlt
  exact absurd hlt (by decide)

theorem roomyRegions_apart :
    (harnessBoot roomyRegions (0x100000, 0x1000)).TableApart kernelHeapSize := by
  have hal : ∀ r ∈ roomyRegions, misaligned r = false := by decide
  refine tableApart_of_skip (effective_aligned ⟨by decide, by decide, by decide⟩ hal) (by decide)
    fun _ ftPhys heapPhys hplace => ?_
  have hareas : (harnessBoot roomyRegions (0x100000, 0x1000)).placement kernelHeapSize =
      some (0x101000, 0x10f000) := by
    decide
  obtain ⟨rfl, rfl⟩ := Prod.mk.inj (Option.some.inj (hareas.symm.trans hplace))
  decide

/-- The harness takes the second area. -/
theorem harness_agrees_small :
    ∃ info caps s, Returns (pmmInit (harnessBoot roomyRegions (0x100000, 0x1000))
        [⟨0x918000, 0x2000⟩] [.new 0 0 0] kernelHeapSize) (Machine.reset fun _ => 0) (info, caps) s ∧
      ∃ f < info.totalFrames, (s.frames f).owner = .free := by
  have hfill : fillRegions (firmwareWith [(0x100000, 0x816000), (0x918000, 0x2000)]) 0 =
      some roomyRegions := by
    decide +kernel
  have hrun : (finish (pmmInit (harnessBoot roomyRegions (0x100000, 0x1000)) [] [] kernelHeapSize)
      (Machine.reset fun _ => 0)).isSome = true := by
    decide +kernel
  obtain ⟨⟨⟨info, caps⟩, s⟩, hinit⟩ := Option.isSome_iff_exists.1 hrun
  obtain ⟨spec, r, hspec, htop, hiff⟩ := harness_agrees_iff (.new 0 0 0) hfill
    ⟨by decide, by decide⟩ ⟨roomyRegions_apart, returns_of_finish hinit⟩
  have hpick : pickUntypedSpec roomyRegions = some ⟨0x918000, 0x2000⟩ := by decide
  obtain rfl := Option.some.inj (hspec.symm.trans hpick)
  -- the second area is the highest one
  obtain rfl : r = ⟨0x918000, 0x2000, .usable⟩ := by
    have hmem := htop.mem
    have hhigh := htop.highest ⟨0x918000, 0x2000, .usable⟩ (by decide) rfl
    rcases List.mem_cons.1 hmem with rfl | hmem
    · exact absurd hhigh (by decide)
    · exact List.mem_singleton.1 hmem
  exact hiff.2 roomyRegions_room

/-! ## Disagreement -/

/-- The message of a boot computation that returns `Err`. -/
def failure {α : Type} (x : BootM α) (s : Machine) : Option String :=
  match x.run.run s with
  | some (.error e, _) => some e
  | _ => none

theorem not_returns_of_failure {α : Type} {x : BootM α} {s s' : Machine} {a : α} {e : String}
    (h : failure x s = some e) : ¬ Returns x s a s' := by
  intro hx
  rw [Returns] at hx
  simp [failure, hx] at h

/-- One usable area, smaller than 64 MiB. -/
def tightRegions : List MemoryRegion := [⟨0x100000, 0x816000, .usable⟩]

/-- **With 9 MiB of memory `pmm_init` works, but not with the range the harness picks**, which is all of
the memory above the legacy area. -/
theorem harness_disagrees :
    fillRegions (firmwareWith [(0x100000, 0x816000)]) 0 = some tightRegions ∧
    (∃ info caps s, Returns (pmmInit (harnessBoot tightRegions (0x100000, 0x1000)) [] []
      kernelHeapSize) (Machine.reset fun _ => 0) (info, caps) s ∧ info.freeFrames = 7) ∧
    pickUntypedSpec tightRegions = some ⟨0x100000, 0x816000⟩ ∧
    failure (pmmInit (harnessBoot tightRegions (0x100000, 0x1000)) [⟨0x100000, 0x816000⟩] [.new 0 0 0]
      kernelHeapSize) (Machine.reset fun _ => 0) =
        some "untyped spec overlaps a reserved range or another region" ∧
    ∀ info caps s, ¬ Returns (pmmInit (harnessBoot tightRegions (0x100000, 0x1000))
      [⟨0x100000, 0x816000⟩] [.new 0 0 0] kernelHeapSize) (Machine.reset fun _ => 0) (info, caps) s := by
  have hfree : (finish (pmmInit (harnessBoot tightRegions (0x100000, 0x1000)) [] [] kernelHeapSize)
      (Machine.reset fun _ => 0)).map (fun r => r.1.1.freeFrames) = some 7 := by
    decide +kernel
  obtain ⟨⟨⟨info, caps⟩, s⟩, hinit, hfree⟩ := Option.map_eq_some_iff.1 hfree
  have hfailure : failure (pmmInit (harnessBoot tightRegions (0x100000, 0x1000))
      [⟨0x100000, 0x816000⟩] [.new 0 0 0] kernelHeapSize) (Machine.reset fun _ => 0) =
        some "untyped spec overlaps a reserved range or another region" := by
    decide +kernel
  refine ⟨by decide +kernel, ⟨info, caps, s, returns_of_finish hinit, hfree⟩, by decide, hfailure, ?_⟩
  intro info caps s
  exact not_returns_of_failure hfailure

end Rolnix
