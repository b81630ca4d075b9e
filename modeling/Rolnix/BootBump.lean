import Rolnix.BootLayout

/-!
# Runs of the boot allocator

`BootAllocator` keeps one region open, as a next-fit packer keeps one bin: a request goes to the
open region if it fits there, and else the region is left for good. A run records every range a
call returned and the region it came from.

* `bump_sound`: the ranges are aligned, each inside one usable region, and no two overlap.
* `bump_complete_iff`: a call takes the first region that has room, and a refusal costs nothing,
  exactly if no region that was left has room for the request, and a request is refused only when
  the regions ahead are used up. `bump_abandons` is a run in which this fails.

Both rest on one invariant of the run (`BumpInv`): the cursor is the top of the ranges taken from
the open region, and nothing was taken from the regions after it.
-/

namespace Rolnix

/-! ## Requests and runs -/

/-- The arguments of a call of `alloc`. -/
structure BootRequest where
  size : Nat
  align : Nat
  deriving DecidableEq

/-- The asserted preconditions: a size that is not zero, and a power of two. -/
structure BootRequest.Valid (c : BootRequest) : Prop where
  pos : 0 < c.size
  pow : ∃ k < 64, c.align = 2 ^ k

theorem BootRequest.Valid.align_pos {c : BootRequest} (h : c.Valid) : 0 < c.align := by
  obtain ⟨k, -, hk⟩ := h.pow
  rw [hk]
  exact Nat.two_pow_pos k

/-- Rounding up in a usable region stays inside the address space. -/
def BootRequest.Clear (c : BootRequest) (regions : List MemoryRegion) : Prop :=
  ∀ r ∈ regions, r.kind = .usable → r.start + r.len + c.align ≤ 2 ^ 64

instance (c : BootRequest) (regions : List MemoryRegion) : Decidable (c.Clear regions) :=
  inferInstanceAs (Decidable (∀ r ∈ regions, r.kind = .usable → r.start + r.len + c.align ≤ 2 ^ 64))

/-- A range that a call returned, and the index of its region. -/
structure Served where
  region : Nat
  start : Nat
  size : Nat
  align : Nat
  deriving DecidableEq

def Served.stop (g : Served) : Nat := g.start + g.size

/-- The allocator and what it has returned so far, latest first. -/
structure BumpState where
  alloc : BootAllocator
  served : List Served

/-- The region of the range that was returned last: the open one, or the one just left because the
range ends with it. -/
def BootAllocator.lastRegion (ba : BootAllocator) : Nat :=
  if ba.cursor = 0 then ba.nextRegion - 1 else ba.nextRegion

namespace BumpState

/-- One call of `alloc`. -/
def call (st : BumpState) (c : BootRequest) : BumpState :=
  match st.alloc.alloc c.size c.align with
  | (none, ba) => ⟨ba, st.served⟩
  | (some start, ba) => ⟨ba, ⟨ba.lastRegion, start, c.size, c.align⟩ :: st.served⟩

/-- A sequence of calls of a new allocator. -/
def run (regions : List MemoryRegion) (calls : List BootRequest) : BumpState :=
  calls.foldl call ⟨.new regions, []⟩

/-- The end of everything taken from region `j`, or its start. -/
def level (st : BumpState) (j : Nat) (r : MemoryRegion) : Nat :=
  ((st.served.filter fun g => g.region = j).map Served.stop).foldr max r.start

/-- Region `j` is usable, and the space above everything taken from it can hold the request. -/
def Room (st : BumpState) (c : BootRequest) (j : Nat) (r : MemoryRegion) : Prop :=
  st.alloc.regions[j]? = some r ∧ r.kind = .usable ∧
    Word.ceilTo (st.level j r) c.align + c.size ≤ r.end

end BumpState

/-! ## One call -/

namespace BootAllocator

variable {ba : BootAllocator} {c : BootRequest} {j fuel : Nat} {r : MemoryRegion}

/-- Where the allocator would start to look in region `j`. -/
def level (ba : BootAllocator) (j : Nat) (r : MemoryRegion) : Nat :=
  if j = ba.nextRegion then max ba.cursor r.start else r.start

/-- The request fits in region `j`. -/
def FitsAt (ba : BootAllocator) (c : BootRequest) (j : Nat) (r : MemoryRegion) : Prop :=
  ba.regions[j]? = some r ∧ r.kind = .usable ∧
    Word.ceilTo (ba.level j r) c.align + c.size ≤ r.end

/-- The cursor is inside the open region. -/
def CursorIn (ba : BootAllocator) : Prop :=
  ∀ r, ba.regions[ba.nextRegion]? = some r → r.kind = .usable → ba.cursor ≤ r.start + r.len

/-- The allocator after it returned a range of region `j` that ends at `stop`. -/
def taken (ba : BootAllocator) (j : Nat) (r : MemoryRegion) (stop : Nat) : BootAllocator :=
  if stop = r.end then ⟨ba.regions, j + 1, 0⟩ else ⟨ba.regions, j, stop⟩

/-- The allocator after it refused a request. -/
def exhausted (ba : BootAllocator) : BootAllocator :=
  if ba.nextRegion < ba.regions.length then ⟨ba.regions, ba.regions.length, 0⟩ else ba

/-- What a search ahead can come to: the first region with room is taken, or there is none. -/
inductive Search (ba : BootAllocator) (c : BootRequest) : Option Nat × BootAllocator → Prop
  | found (j : Nat) (r : MemoryRegion) (hge : ba.nextRegion ≤ j) (hfits : ba.FitsAt c j r)
      (hfirst : ∀ i r', ba.nextRegion ≤ i → i < j → ¬ ba.FitsAt c i r') :
      Search ba c (some (Word.ceilTo (ba.level j r) c.align),
        ba.taken j r (Word.ceilTo (ba.level j r) c.align + c.size))
  | refused (hnone : ∀ i r, ba.nextRegion ≤ i → ¬ ba.FitsAt c i r) : Search ba c (none, ba.exhausted)

theorem level_skip (hj : ba.nextRegion < j) : ba.skip.level j r = ba.level j r := by
  rw [level, level, if_neg (Nat.ne_of_gt hj)]
  split_ifs
  · exact Nat.zero_max _
  · rfl

theorem fitsAt_skip (hj : ba.nextRegion < j) : ba.skip.FitsAt c j r ↔ ba.FitsAt c j r := by
  rw [FitsAt, level_skip hj]
  rfl

theorem Search.of_skip {res : Option Nat × BootAllocator} (hlt : ba.nextRegion < ba.regions.length)
    (hfull : ∀ r', ¬ ba.FitsAt c ba.nextRegion r') (h : Search ba.skip c res) : Search ba c res := by
  cases h with
  | found j r hge hfits hfirst =>
      have hj : ba.nextRegion < j := hge
      rw [level_skip hj]
      refine Search.found j r hj.le ((fitsAt_skip hj).1 hfits) ?_
      intro i r' hi hij hfits'
      rcases Nat.eq_or_lt_of_le hi with rfl | hi
      · exact hfull r' hfits'
      · exact hfirst i r' hi hij ((fitsAt_skip hi).2 hfits')
  | refused hnone =>
      have hend : ba.skip.exhausted = ba.exhausted := by
        rw [exhausted, exhausted, if_pos hlt]
        split_ifs with hnext
        · rfl
        · have heq : ba.nextRegion + 1 = ba.regions.length := by
            have : ¬ ba.nextRegion + 1 < ba.regions.length := hnext
            omega
          rw [skip, heq]
      rw [hend]
      apply Search.refused
      intro i r hi hfits
      rcases Nat.eq_or_lt_of_le hi with rfl | hi
      · exact hfull r hfits
      · exact hnone i r hi ((fitsAt_skip hi).2 hfits)

theorem alignUp_level (hvalid : c.Valid) (hclear : c.Clear ba.regions) (hcursor : ba.CursorIn)
    (hr : ba.regions[ba.nextRegion]? = some r) (hu : r.kind = .usable) :
    Word.alignUp 64 (max ba.cursor r.start) c.align =
      Word.ceilTo (ba.level ba.nextRegion r) c.align := by
  obtain ⟨k, hk, halign⟩ := hvalid.pow
  have hend := hclear r (List.mem_of_getElem? hr) hu
  have hle := hcursor r hr hu
  rw [level, if_pos rfl]
  rw [halign] at hend ⊢
  exact (Word.alignUp_eq_ceilTo_iff hk).2 (by omega)

theorem not_fitsAt_of_length_le (hlen : ba.regions.length ≤ j) : ¬ ba.FitsAt c j r := by
  intro hfits
  rw [FitsAt, List.getElem?_eq_none hlen] at hfits
  exact absurd hfits.1 (by simp)

theorem search_of_length_le (hlen : ba.regions.length ≤ ba.nextRegion) : Search ba c (none, ba) := by
  have hend : ba.exhausted = ba := if_neg (Nat.not_lt.2 hlen)
  have hsearch : Search ba c (none, ba.exhausted) :=
    Search.refused fun i r hi => not_fitsAt_of_length_le (hlen.trans hi)
  rwa [hend] at hsearch

/-- **The loop of `alloc`** is a search ahead. -/
theorem search_allocLoop (hvalid : c.Valid) (hclear : c.Clear ba.regions) (hcursor : ba.CursorIn)
    (hfuel : ba.regions.length < ba.nextRegion + fuel) :
    Search ba c (allocLoop c.size c.align fuel ba) := by
  induction fuel generalizing ba with
  | zero => exact search_of_length_le (Nat.le_of_lt hfuel)
  | succ fuel ih =>
      rw [allocLoop]
      cases hr : ba.regions[ba.nextRegion]? with
      | none => exact search_of_length_le (List.getElem?_eq_none_iff.1 hr)
      | some region =>
          have hlt : ba.nextRegion < ba.regions.length := (List.getElem?_eq_some_iff.1 hr).1
          have hnext : (∀ r', ¬ ba.FitsAt c ba.nextRegion r') →
              Search ba c (allocLoop c.size c.align fuel ba.skip) := by
            intro hfull
            apply Search.of_skip hlt hfull
            refine ih hclear (fun _ _ _ => Nat.zero_le _) ?_
            show ba.regions.length < ba.nextRegion + 1 + fuel
            omega
          by_cases hu : region.kind = .usable
          · simp only [hu, ne_eq, not_true_eq_false, if_false,
              alignUp_level hvalid hclear hcursor hr hu]
            by_cases hroom : Word.ceilTo (ba.level ba.nextRegion region) c.align + c.size ≤ region.end
            · rw [if_pos ⟨hroom.trans_lt (end_lt region), hroom⟩]
              exact Search.found _ region le_rfl ⟨hr, hu, hroom⟩
                (fun i r' hi hlt' => absurd hi (Nat.not_le.2 hlt'))
            · rw [if_neg fun h => hroom h.2]
              apply hnext
              intro r' hfits
              obtain rfl := Option.some.inj (hr.symm.trans hfits.1)
              exact hroom hfits.2.2
          · simp only [ne_eq, hu, not_false_eq_true, if_true]
            apply hnext
            intro r' hfits
            obtain rfl := Option.some.inj (hr.symm.trans hfits.1)
            exact hu hfits.2.1

theorem search_alloc (hvalid : c.Valid) (hclear : c.Clear ba.regions) (hcursor : ba.CursorIn) :
    Search ba c (ba.alloc c.size c.align) :=
  search_allocLoop hvalid hclear hcursor (by omega)

end BootAllocator

/-! ## The invariant of a run -/

/-- What holds after any sequence of calls. -/
structure BumpInv (regions : List MemoryRegion) (st : BumpState) : Prop where
  regions_eq : st.alloc.regions = regions
  inside : ∀ g ∈ st.served, ∃ r, regions[g.region]? = some r ∧ r.kind = .usable ∧
    r.start ≤ g.start ∧ g.stop ≤ r.end
  aligned : ∀ g ∈ st.served, g.align ∣ g.start
  /-- Nothing was taken from the regions ahead. -/
  behind : ∀ g ∈ st.served, g.region ≤ st.alloc.nextRegion
  below : ∀ g ∈ st.served, g.region = st.alloc.nextRegion → g.stop ≤ st.alloc.cursor
  top : st.alloc.cursor ≠ 0 → ∃ g ∈ st.served, g.region = st.alloc.nextRegion ∧
    g.stop = st.alloc.cursor
  /-- Within a region the ranges are stacked. -/
  stacked : st.served.Pairwise fun g g' => g.region = g'.region → g'.stop ≤ g.start

namespace BumpInv

variable {regions : List MemoryRegion} {st : BumpState} {c : BootRequest} {j : Nat}
  {r : MemoryRegion}

theorem init (regions : List MemoryRegion) : BumpInv regions ⟨.new regions, []⟩ where
  regions_eq := rfl
  inside := by simp
  aligned := by simp
  behind := by simp
  below := by simp
  top := fun h => absurd rfl h
  stacked := List.Pairwise.nil

theorem cursorIn (h : BumpInv regions st) : st.alloc.CursorIn := by
  intro r hr _
  by_cases hzero : st.alloc.cursor = 0
  · rw [hzero]
    exact Nat.zero_le _
  · obtain ⟨g, hg, hregion, hstop⟩ := h.top hzero
    obtain ⟨r', hr', -, -, hle⟩ := h.inside g hg
    rw [h.regions_eq, ← hregion, hr'] at hr
    obtain rfl := Option.some.inj hr
    rw [← hstop]
    exact hle.trans (Nat.mod_le _ _)

theorem search (h : BumpInv regions st) (hvalid : c.Valid) (hclear : c.Clear regions) :
    st.alloc.Search c (st.alloc.alloc c.size c.align) :=
  BootAllocator.search_alloc hvalid (h.regions_eq.symm ▸ hclear) h.cursorIn

theorem stop_le (h : BumpInv regions st) (hpos : 0 < c.align) (hge : st.alloc.nextRegion ≤ j)
    {g : Served} (hg : g ∈ st.served) (hregion : g.region = j) :
    g.stop ≤ Word.ceilTo (st.alloc.level j r) c.align := by
  have hnext : j = st.alloc.nextRegion := le_antisymm (hregion ▸ h.behind g hg) hge
  calc g.stop ≤ st.alloc.cursor := h.below g hg (hregion.trans hnext)
    _ ≤ max st.alloc.cursor r.start := le_max_left _ _
    _ = st.alloc.level j r := (if_pos hnext).symm
    _ ≤ Word.ceilTo (st.alloc.level j r) c.align := Word.le_ceilTo hpos

theorem start_le_level : r.start ≤ st.alloc.level j r := by
  unfold BootAllocator.level
  split_ifs
  · exact le_max_right _ _
  · exact le_rfl

theorem lastRegion_taken {ba : BootAllocator} {stop : Nat} (hpos : 0 < stop) :
    (ba.taken j r stop).lastRegion = j := by
  unfold BootAllocator.taken
  split_ifs
  · rfl
  · exact if_neg (Nat.ne_of_gt hpos)

theorem take (h : BumpInv regions st) {start size align : Nat} (hge : st.alloc.nextRegion ≤ j)
    (hr : regions[j]? = some r) (hu : r.kind = .usable) (hstart : r.start ≤ start)
    (hroom : start + size ≤ r.end) (hdvd : align ∣ start)
    (hold : ∀ g ∈ st.served, g.region = j → g.stop ≤ start) :
    BumpInv regions ⟨st.alloc.taken j r (start + size), ⟨j, start, size, align⟩ :: st.served⟩ := by
  have hinside : ∀ g ∈ ⟨j, start, size, align⟩ :: st.served, ∃ r, regions[g.region]? = some r ∧
      r.kind = .usable ∧ r.start ≤ g.start ∧ g.stop ≤ r.end :=
    List.forall_mem_cons.2 ⟨⟨r, hr, hu, hstart, hroom⟩, h.inside⟩
  have haligned : ∀ g ∈ ⟨j, start, size, align⟩ :: st.served, g.align ∣ g.start :=
    List.forall_mem_cons.2 ⟨hdvd, h.aligned⟩
  have hbehind : ∀ g ∈ ⟨j, start, size, align⟩ :: st.served, g.region ≤ j :=
    List.forall_mem_cons.2 ⟨le_refl j, fun g hg => (h.behind g hg).trans hge⟩
  have hstacked : (⟨j, start, size, align⟩ :: st.served).Pairwise
      fun g g' => g.region = g'.region → g'.stop ≤ g.start :=
    List.pairwise_cons.2 ⟨fun g hg hregion => hold g hg hregion.symm, h.stacked⟩
  -- the region is left if the range ends with it, and stays open otherwise
  unfold BootAllocator.taken
  split_ifs with hend
  · refine ⟨h.regions_eq, hinside, haligned, ?_, ?_, fun hne => absurd rfl hne, hstacked⟩
    · intro g hg
      exact (hbehind g hg).trans (Nat.le_succ j)
    · intro g hg hregion
      exact absurd hregion (Nat.ne_of_lt (Nat.lt_succ_of_le (hbehind g hg)))
  · refine ⟨h.regions_eq, hinside, haligned, hbehind, ?_, ?_, hstacked⟩
    · intro g hg hregion
      rcases List.mem_cons.1 hg with rfl | hg
      · exact le_rfl
      · exact (hold g hg hregion).trans (Nat.le_add_right _ _)
    · intro _
      exact ⟨_, List.mem_cons_self, rfl, rfl⟩

theorem refuse (h : BumpInv regions st) : BumpInv regions ⟨st.alloc.exhausted, st.served⟩ := by
  have hlen : ∀ g ∈ st.served, g.region < st.alloc.regions.length := by
    intro g hg
    obtain ⟨r, hr, -⟩ := h.inside g hg
    rw [h.regions_eq]
    exact (List.getElem?_eq_some_iff.1 hr).1
  unfold BootAllocator.exhausted
  split_ifs with hlt
  · refine ⟨h.regions_eq, h.inside, h.aligned, fun g hg => (hlen g hg).le, ?_,
      fun hne => absurd rfl hne, h.stacked⟩
    intro g hg hregion
    exact absurd hregion (Nat.ne_of_lt (hlen g hg))
  · exact h

/-- **One call** keeps the invariant. -/
theorem step (h : BumpInv regions st) (hvalid : c.Valid) (hclear : c.Clear regions) :
    BumpInv regions (st.call c) := by
  have hpos := hvalid.align_pos
  have hsearch := h.search hvalid hclear
  unfold BumpState.call
  generalize st.alloc.alloc c.size c.align = res at hsearch ⊢
  cases hsearch with
  | found j r hge hfits hfirst =>
      obtain ⟨hr, hu, hroom⟩ := hfits
      rw [h.regions_eq] at hr
      dsimp only
      rw [lastRegion_taken (Nat.add_pos_right _ hvalid.pos)]
      apply h.take hge hr hu (start_le_level.trans (Word.le_ceilTo hpos)) hroom Word.dvd_ceilTo
      intro g hg hregion
      exact h.stop_le hpos hge hg hregion
  | refused hnone => exact h.refuse

/-- **A run** keeps the invariant. -/
theorem run {calls : List BootRequest} (hcalls : ∀ c ∈ calls, c.Valid ∧ c.Clear regions) :
    BumpInv regions (BumpState.run regions calls) := by
  have hgo : ∀ st, BumpInv regions st → BumpInv regions (calls.foldl BumpState.call st) := by
    induction calls with
    | nil => exact fun st h => h
    | cons c calls ih =>
        intro st h
        obtain ⟨hvalid, hclear⟩ := hcalls c List.mem_cons_self
        apply ih (fun c' hc' => hcalls c' (List.mem_cons_of_mem _ hc'))
        exact h.step hvalid hclear
  exact hgo _ (init regions)

end BumpInv

/-! ## Soundness -/

/-- **The ranges are sound.** However the disjoint regions are ordered and whatever is requested,
every returned range is aligned and inside one usable region, and the ranges of all calls are
disjoint. -/
theorem bump_sound {regions : List MemoryRegion} {calls : List BootRequest}
    (hdisj : regions.Pairwise fun r r' => ∀ x, ¬ (r.Contains x ∧ r'.Contains x))
    (hcalls : ∀ c ∈ calls, c.Valid ∧ c.Clear regions) :
    (∀ g ∈ (BumpState.run regions calls).served, g.align ∣ g.start ∧
      ∃ r ∈ regions, r.kind = .usable ∧ r.start ≤ g.start ∧ g.start + g.size ≤ r.start + r.len) ∧
    (BumpState.run regions calls).served.Pairwise fun g g' =>
      ∀ x, ¬ ((g.start ≤ x ∧ x < g.start + g.size) ∧ g'.start ≤ x ∧ x < g'.start + g'.size) := by
  have hinv := BumpInv.run hcalls
  constructor
  · intro g hg
    obtain ⟨r, hr, hu, hle, hstop⟩ := hinv.inside g hg
    exact ⟨hinv.aligned g hg, r, List.mem_of_getElem? hr, hu, hle, hstop.trans (Nat.mod_le _ _)⟩
  · apply hinv.stacked.imp_of_mem
    intro g g' hg hg' hstacked x hx
    obtain ⟨r, hr, -, hle, hstop⟩ := hinv.inside g hg
    obtain ⟨r', hr', -, hle', hstop'⟩ := hinv.inside g' hg'
    have hin : r.Contains x := ⟨hle.trans hx.1.1, hx.1.2.trans_le (hstop.trans (Nat.mod_le _ _))⟩
    have hin' : r'.Contains x :=
      ⟨hle'.trans hx.2.1, hx.2.2.trans_le (hstop'.trans (Nat.mod_le _ _))⟩
    by_cases hregion : g.region = g'.region
    · exact absurd hx.2.2 (Nat.not_lt.2 ((hstacked hregion).trans hx.1.1))
    · obtain ⟨hi, rfl⟩ := List.getElem?_eq_some_iff.1 hr
      obtain ⟨hi', rfl⟩ := List.getElem?_eq_some_iff.1 hr'
      rw [List.pairwise_iff_getElem] at hdisj
      rcases Nat.lt_or_gt_of_ne hregion with hlt | hgt
      · exact hdisj _ _ hi hi' hlt x ⟨hin, hin'⟩
      · exact hdisj _ _ hi' hi hgt x ⟨hin', hin⟩

/-- The regions of the boot allocator's own test. -/
def bumpRegions : List MemoryRegion :=
  [⟨0, 0x1000, .reserved⟩, ⟨0x1000, 0x2000, .usable⟩, ⟨0x10000, 0x1000, .usable⟩]

/-- Both usable regions are taken. -/
theorem bump_sound_frames :
    (BumpState.run bumpRegions [⟨0x2000, 0x1000⟩, ⟨0x1000, 0x1000⟩]).served =
      [⟨2, 0x10000, 0x1000, 0x1000⟩, ⟨1, 0x1000, 0x2000, 0x1000⟩] ∧
    (BumpState.run bumpRegions [⟨0x2000, 0x1000⟩, ⟨0x1000, 0x1000⟩]).served.Pairwise fun g g' =>
      ∀ x, ¬ ((g.start ≤ x ∧ x < g.start + g.size) ∧ g'.start ≤ x ∧ x < g'.start + g'.size) := by
  refine ⟨by decide +kernel, (bump_sound ?_ ?_).2⟩
  · simp only [bumpRegions, List.pairwise_cons, List.mem_cons, List.not_mem_nil, or_false,
      forall_eq_or_imp, forall_eq, MemoryRegion.Contains, false_implies, implies_true,
      List.Pairwise.nil, and_true]
    refine ⟨⟨?_, ?_⟩, ?_⟩ <;> intro x hx <;> omega
  · rw [List.forall_mem_cons, List.forall_mem_singleton]
    refine ⟨⟨⟨by decide, 12, by decide, rfl⟩, by decide⟩, ⟨by decide, 12, by decide, rfl⟩, by decide⟩

/-! ## Completeness -/

theorem foldr_max_le_iff {l : List Nat} {s x : Nat} :
    l.foldr max s ≤ x ↔ s ≤ x ∧ ∀ e ∈ l, e ≤ x := by
  induction l with
  | nil => simp
  | cons a l ih =>
      rw [List.foldr_cons, max_le_iff, ih, List.forall_mem_cons]
      exact and_left_comm

namespace BumpState

/-- A call does all that the space allows: it serves the request from the first region with room,
and if it refuses, every request that could be served before can be served after it. -/
structure Complete (st : BumpState) (c : BootRequest) : Prop where
  placed : ∀ j r, st.Room c j r → (∀ i < j, ∀ r', ¬ st.Room c i r') →
    ∃ start, (st.alloc.alloc c.size c.align).1 = some start ∧ st.level j r ≤ start ∧
      start + c.size ≤ r.end ∧ (st.call c).served = ⟨j, start, c.size, c.align⟩ :: st.served
  harmless : (st.alloc.alloc c.size c.align).1 = none →
    ∀ c' : BootRequest, c'.Valid → c'.Clear st.alloc.regions →
      (st.alloc.alloc c'.size c'.align).1.isSome →
      ((st.alloc.alloc c.size c.align).2.alloc c'.size c'.align).1.isSome

/-- No region that was left has room for the request, and if no region ahead has, then none of them
has a byte left. -/
structure Reaches (st : BumpState) (c : BootRequest) : Prop where
  behind : ∀ j r, j < st.alloc.nextRegion → ¬ st.Room c j r
  ahead : (∃ j r, st.alloc.nextRegion ≤ j ∧ st.Room c j r) ∨
    ∀ j r, st.alloc.nextRegion ≤ j → ¬ st.Room ⟨1, 1⟩ j r

end BumpState

namespace BumpInv

variable {regions : List MemoryRegion} {st : BumpState} {c : BootRequest} {j : Nat}
  {r : MemoryRegion}

theorem level_eq (h : BumpInv regions st) (hge : st.alloc.nextRegion ≤ j) (r : MemoryRegion) :
    st.level j r = st.alloc.level j r := by
  apply eq_of_forall_ge_iff
  intro x
  rw [BumpState.level, foldr_max_le_iff, BootAllocator.level]
  simp only [List.mem_map, List.mem_filter, decide_eq_true_eq]
  by_cases hj : j = st.alloc.nextRegion
  · rw [if_pos hj, max_le_iff, and_comm]
    refine and_congr_left fun _ => ⟨fun hall => ?_, fun hle => ?_⟩
    · by_cases hzero : st.alloc.cursor = 0
      · rw [hzero]
        exact Nat.zero_le x
      · obtain ⟨g, hg, hregion, hstop⟩ := h.top hzero
        rw [← hstop]
        exact hall _ ⟨g, ⟨hg, hregion.trans hj.symm⟩, rfl⟩
    · rintro e ⟨g, ⟨hg, hregion⟩, rfl⟩
      exact (h.below g hg (hregion.trans hj)).trans hle
  · rw [if_neg hj]
    refine and_iff_left_of_imp fun _ => ?_
    rintro e ⟨g, ⟨hg, hregion⟩, rfl⟩
    exact absurd (le_antisymm (hregion ▸ h.behind g hg) hge) hj

theorem room_iff (h : BumpInv regions st) (hge : st.alloc.nextRegion ≤ j) :
    st.Room c j r ↔ st.alloc.FitsAt c j r := by
  rw [BumpState.Room, h.level_eq hge, BootAllocator.FitsAt]

theorem isSome_iff (h : BumpInv regions st) (hvalid : c.Valid) (hclear : c.Clear regions) :
    (st.alloc.alloc c.size c.align).1.isSome ↔
      ∃ j r, st.alloc.nextRegion ≤ j ∧ st.Room c j r := by
  have hsearch := h.search hvalid hclear
  generalize st.alloc.alloc c.size c.align = res at hsearch ⊢
  cases hsearch with
  | found j r hge hfits hfirst =>
      exact iff_of_true rfl ⟨j, r, hge, (h.room_iff hge).2 hfits⟩
  | refused hnone =>
      refine iff_of_false (by simp) ?_
      rintro ⟨j, r, hge, hroom⟩
      exact hnone j r hge ((h.room_iff hge).1 hroom)

theorem room_byte (hvalid : c.Valid) (hroom : st.Room c j r) : st.Room ⟨1, 1⟩ j r := by
  obtain ⟨hr, hu, hle⟩ := hroom
  refine ⟨hr, hu, ?_⟩
  have hself : Word.ceilTo (st.level j r) 1 = st.level j r := by simp [Word.ceilTo]
  have hpos := hvalid.pos
  have hceil : st.level j r ≤ Word.ceilTo (st.level j r) c.align := Word.le_ceilTo hvalid.align_pos
  show Word.ceilTo (st.level j r) 1 + 1 ≤ r.end
  omega

theorem refused_alloc (h : BumpInv regions st) (hvalid : c.Valid) (hclear : c.Clear regions)
    (hnone : (st.alloc.alloc c.size c.align).1 = none) {c' : BootRequest} (hvalid' : c'.Valid)
    (hclear' : c'.Clear regions) :
    ((st.alloc.alloc c.size c.align).2.alloc c'.size c'.align).1 = none := by
  have hsearch := h.search hvalid hclear
  generalize st.alloc.alloc c.size c.align = res at hsearch hnone ⊢
  cases hsearch with
  | found j r hge hfits hfirst => exact absurd hnone (by simp)
  | refused _ =>
      have hend : st.alloc.regions.length ≤ st.alloc.exhausted.nextRegion := by
        unfold BootAllocator.exhausted
        split_ifs with hlt
        · exact le_rfl
        · exact Nat.le_of_not_lt hlt
      have hafter : BumpInv regions ⟨st.alloc.exhausted, st.served⟩ := h.refuse
      have hsome := hafter.isSome_iff hvalid' hclear'
      rw [← Option.not_isSome_iff_eq_none, hsome]
      rintro ⟨j, r, hge, hr, -⟩
      have hlt := (List.getElem?_eq_some_iff.1 hr).1
      have hlen : st.alloc.exhausted.regions.length = st.alloc.regions.length :=
        congrArg List.length (hafter.regions_eq.trans h.regions_eq.symm)
      have hge' : st.alloc.exhausted.nextRegion ≤ j := hge
      have hlt' : j < st.alloc.exhausted.regions.length := hlt
      omega

theorem served_call (h : BumpInv regions st) (hvalid : c.Valid) (hclear : c.Clear regions) :
    (∃ j r, st.alloc.nextRegion ≤ j ∧ st.Room c j r ∧
      (∀ i r', st.alloc.nextRegion ≤ i → i < j → ¬ st.Room c i r') ∧
      (st.alloc.alloc c.size c.align).1 = some (Word.ceilTo (st.level j r) c.align) ∧
      (st.call c).served =
        ⟨j, Word.ceilTo (st.level j r) c.align, c.size, c.align⟩ :: st.served) ∨
    (∀ j r, st.alloc.nextRegion ≤ j → ¬ st.Room c j r) ∧
      (st.alloc.alloc c.size c.align).1 = none ∧ (st.call c).served = st.served := by
  have hsearch := h.search hvalid hclear
  unfold BumpState.call
  generalize st.alloc.alloc c.size c.align = res at hsearch ⊢
  cases hsearch with
  | found j r hge hfits hfirst =>
      left
      refine ⟨j, r, hge, (h.room_iff hge).2 hfits, ?_, ?_, ?_⟩
      · intro i r' hi hij hroom
        exact hfirst i r' hi hij ((h.room_iff hi).1 hroom)
      · rw [h.level_eq hge]
      · dsimp only
        rw [lastRegion_taken (Nat.add_pos_right _ hvalid.pos), h.level_eq hge]
  | refused hnone =>
      right
      refine ⟨fun j r hge hroom => hnone j r hge ((h.room_iff hge).1 hroom), rfl, rfl⟩

theorem reaches_of_complete (h : BumpInv regions st) (hvalid : c.Valid) (hclear : c.Clear regions)
    (hcomplete : st.Complete c) : st.Reaches c := by
  classical
  constructor
  · intro j₀ r₀ hlt hroom₀
    -- the first region with room is behind as well
    have hex : ∃ j r, st.Room c j r := ⟨j₀, r₀, hroom₀⟩
    obtain ⟨r, hroom⟩ := Nat.find_spec hex
    have hle : Nat.find hex ≤ j₀ := Nat.find_min' hex ⟨r₀, hroom₀⟩
    obtain ⟨start, -, -, -, hserved⟩ := hcomplete.placed _ r hroom
      (fun i hi r' hr' => Nat.find_min hex hi ⟨r', hr'⟩)
    rcases h.served_call hvalid hclear with ⟨j, r', hge, -, -, -, heq⟩ | ⟨-, -, heq⟩
    · have hj : j = Nat.find hex := by
        have := (List.cons.inj (heq.symm.trans hserved)).1
        exact congrArg Served.region this
      omega
    · exact absurd (heq.symm.trans hserved) (List.cons_ne_self _ _).symm
  · by_contra hnot
    obtain ⟨hnone, hbyte⟩ := not_or.1 hnot
    obtain ⟨j, r, hge, hroom⟩ : ∃ j r, st.alloc.nextRegion ≤ j ∧ st.Room ⟨1, 1⟩ j r := by
      by_contra hall
      exact hbyte fun j r hge hroom => hall ⟨j, r, hge, hroom⟩
    have hvalid₁ : (⟨1, 1⟩ : BootRequest).Valid := ⟨by decide, 0, by decide, rfl⟩
    have hclear₁ : (⟨1, 1⟩ : BootRequest).Clear regions := by
      intro r' hr' hu
      have := hclear r' hr' hu
      have := hvalid.align_pos
      show r'.start + r'.len + 1 ≤ 2 ^ 64
      omega
    have hrefused : (st.alloc.alloc c.size c.align).1 = none := by
      rw [← Option.not_isSome_iff_eq_none, h.isSome_iff hvalid hclear]
      exact hnone
    have hsome := hcomplete.harmless hrefused ⟨1, 1⟩ hvalid₁ (h.regions_eq.symm ▸ hclear₁)
      ((h.isSome_iff hvalid₁ hclear₁).2 ⟨j, r, hge, hroom⟩)
    rw [h.refused_alloc hvalid hclear hrefused hvalid₁ hclear₁] at hsome
    exact absurd hsome (by simp)

theorem complete_of_reaches (h : BumpInv regions st) (hvalid : c.Valid) (hclear : c.Clear regions)
    (hreaches : st.Reaches c) : st.Complete c := by
  constructor
  · intro j r hroom hfirst
    have hge : st.alloc.nextRegion ≤ j := by
      by_contra hlt
      exact hreaches.behind j r (Nat.lt_of_not_le hlt) hroom
    rcases h.served_call hvalid hclear with ⟨j', r', hge', hroom', hfirst', hres, hserved⟩ | ⟨hnone, -⟩
    · have hj : j' = j := by
        rcases Nat.lt_trichotomy j' j with hlt | heq | hgt
        · exact absurd hroom' (hfirst j' hlt r')
        · exact heq
        · exact absurd hroom (hfirst' j r hge hgt)
      subst hj
      obtain rfl : r' = r := Option.some.inj (hroom'.1.symm.trans hroom.1)
      exact ⟨_, hres, Word.le_ceilTo hvalid.align_pos, hroom.2.2, hserved⟩
    · exact absurd hroom (hnone j r hge)
  · intro hrefused c' hvalid' hclear' hsome
    rw [h.regions_eq] at hclear'
    obtain ⟨j, r, hge, hroom⟩ := (h.isSome_iff hvalid' hclear').1 hsome
    rcases hreaches.ahead with hahead | hempty
    · have := (h.isSome_iff hvalid hclear).2 hahead
      rw [hrefused] at this
      exact absurd this (by simp)
    · exact absurd (room_byte hvalid' hroom) (hempty j r hge)

end BumpInv

/-- **When the boot allocator is complete.** After any calls, a call serves the request from the first
region with room, and loses nothing by a refusal, if and only if no region that was left has room
for it, and some region ahead has or none of them has a byte left. -/
theorem bump_complete_iff {regions : List MemoryRegion} {calls : List BootRequest} {c : BootRequest}
    (hcalls : ∀ c' ∈ calls, c'.Valid ∧ c'.Clear regions) (hvalid : c.Valid)
    (hclear : c.Clear regions) :
    (BumpState.run regions calls).Complete c ↔ (BumpState.run regions calls).Reaches c := by
  have hinv := BumpInv.run hcalls
  exact ⟨hinv.reaches_of_complete hvalid hclear, hinv.complete_of_reaches hvalid hclear⟩

theorem bump_complete_first : (BumpState.run bumpRegions []).Complete ⟨0x1000, 0x1000⟩ := by
  refine (bump_complete_iff (by simp) ⟨by decide, 12, by decide, rfl⟩ (by decide)).2 ⟨?_, Or.inl ?_⟩
  · intro j r hlt
    exact absurd hlt (Nat.not_lt_zero j)
  · exact ⟨1, ⟨0x1000, 0x2000, .usable⟩, Nat.zero_le _, rfl, rfl, by decide⟩

/-- **Space that is lost.** A request of four frames is refused, and with it both regions are left: the
frame that could be served before, from the first of them, is refused as well. -/
theorem bump_abandons :
    ((BootAllocator.new bumpRegions).alloc 0x4000 0x1000).1 = none ∧
      ((BootAllocator.new bumpRegions).alloc 0x1000 0x1000).1 = some 0x1000 ∧
      (BumpState.run bumpRegions [⟨0x4000, 0x1000⟩]).Room ⟨0x1000, 0x1000⟩ 1
        ⟨0x1000, 0x2000, .usable⟩ ∧
      ((BumpState.run bumpRegions [⟨0x4000, 0x1000⟩]).alloc.alloc 0x1000 0x1000).1 = none := by
  refine ⟨by decide, by decide, ⟨rfl, rfl, by decide⟩, by decide⟩

end Rolnix
