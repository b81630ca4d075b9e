import Rolnix.HarnessProof
import Rolnix.Multiboot

/-!
# The region list, in its buffer

`fill_regions` of the boot crate, as it works on the buffer: the parsed entries are copied, frame
aligned and without those that hold no whole frame, and then sorted in place. `fillRegions_run` says
that this computes `Rolnix.fillRegions`.

`regions_normalised_iff` compares the list with what it is for: of each usable entry the largest range
of whole frames (`wholeFrames_eq_some_iff`), of the others the entry itself, in order. The two agree
exactly if no usable entry begins in the last frame of the address space. There the rounding wraps,
and nearly all of memory becomes usable (`wrapped_start`).
-/

namespace Rolnix.RegionList

open ReadM
open InPlace (writeAt writeAt_nil writeAt_set)

/-! ## The program -/

/-- One round of the copy: `count` regions are written. -/
def copyEntry (s : Nat × List MemoryRegion) (e : MemEntry) : Option (Nat × List MemoryRegion) :=
  match regionOfEntry e with
  | none => some s
  | some r => if s.1 < s.2.length then some (s.1 + 1, s.2.set s.1 r) else none

/-- Copy the entries and sort by start address. -/
def normalise (entries : List MemEntry) (out : List MemoryRegion) :
    Option (Nat × List MemoryRegion) := do
  let (count, out) ← entries.foldlM copyEntry (0, out)
  let out ← InPlace.sort (fun key r : MemoryRegion => r.start ≤ key.start) count out
  return (count, out)

/-- Copy the multiboot map at `info` into `out`, and return the number of regions written. -/
def fillRegions (out : List MemoryRegion) (info : Nat) :
    ReadM (Option (Nat × List MemoryRegion)) := do
  let parsed ← Multiboot.parse info (List.replicate maxRegions ⟨0, 0, 0⟩)
  return parsed.bind fun s =>
    match s with
    | (some n, raw) => if n ≤ raw.length then normalise (raw.take n) out else none
    | (none, _) => none -- bootloader provided no usable memory map

/-! ## What the program computes -/

variable {mem : ByteMem} {info room stop p count : Nat} {entries : List MemEntry} {e : MemEntry}
  {out : List MemoryRegion} {r : MemoryRegion}

/-- **The copy** writes the regions behind those that are there. -/
theorem copyEntries_eq (hroom : count + (entries.filterMap regionOfEntry).length ≤ out.length) :
    entries.foldlM copyEntry (count, out) =
      some (count + (entries.filterMap regionOfEntry).length,
        writeAt out count (entries.filterMap regionOfEntry)) := by
  induction entries generalizing count out with
  | nil =>
      rw [List.filterMap_nil, writeAt_nil]
      rfl
  | cons e entries ih =>
      rw [List.foldlM_cons]
      cases he : regionOfEntry e with
      | none =>
          have hstep : copyEntry (count, out) e = some (count, out) := by
            rw [copyEntry, he]
          rw [List.filterMap_cons_none he] at hroom ⊢
          rw [hstep]
          exact ih hroom
      | some r =>
          rw [List.filterMap_cons_some he, List.length_cons] at hroom ⊢
          have hlt : count < out.length := by omega
          have hstep : copyEntry (count, out) e = some (count + 1, out.set count r) := by
            rw [copyEntry, he]
            exact if_pos hlt
          rw [hstep]
          show List.foldlM copyEntry (count + 1, out.set count r) entries = _
          rw [ih (by rw [List.length_set]; omega), writeAt_set hlt, Nat.add_right_comm, Nat.add_assoc]

/-- **The program computes the sorted list.** -/
theorem normalise_eq (hfit : entries.length ≤ out.length) :
    normalise entries out =
      some ((entries.filterMap regionOfEntry).length,
        writeAt out 0 (sortRegions (entries.filterMap regionOfEntry))) := by
  have hle := List.length_filterMap_le regionOfEntry entries
  have hcopy := @copyEntries_eq 0 entries out (by omega)
  rw [Nat.zero_add] at hcopy
  have hsort := InPlace.sort_eq (r := fun key r : MemoryRegion => r.start ≤ key.start)
    (entries.filterMap regionOfEntry) (out.drop (entries.filterMap regionOfEntry).length)
  have hwritten : writeAt out 0 (entries.filterMap regionOfEntry) = entries.filterMap regionOfEntry ++
      out.drop (entries.filterMap regionOfEntry).length := by
    rw [writeAt, Nat.zero_add]
    rfl
  rw [normalise, hcopy, hwritten]
  show (InPlace.sort _ _ _ >>= _) = _
  rw [hsort, ← sortRegions_eq, writeAt, Nat.zero_add, length_sortRegions]
  rfl

theorem parseRecords_length_le (mem : ByteMem) (stop room p : Nat) :
    (parseRecords mem stop room p).length ≤ room := by
  by_contra hlt
  have hget := List.getElem?_eq_getElem (show room < (parseRecords mem stop room p).length by omega)
  exact Nat.lt_irrefl room (Multiboot.parseRecords_eq_some_iff.1 hget).1

theorem parse_length_le (h : parse mem info room = some (some entries)) : entries.length ≤ room := by
  unfold parse at h
  dsimp only at h
  split_ifs at h with hfallback hroom
  · obtain rfl := Option.some.inj (Option.some.inj h)
    exact Nat.pos_of_ne_zero hroom
  · cases h
  · obtain rfl := Option.some.inj (Option.some.inj h)
    unfold mmapEntries
    split_ifs
    · exact parseRecords_length_le _ _ _ _
    · exact Nat.zero_le _

theorem run_fillRegions : (fillRegions out info).run mem =
    (parse mem info maxRegions).bind fun found => found.bind fun entries => normalise entries out := by
  have hparse := @Multiboot.parse_run mem info (List.replicate maxRegions ⟨0, 0, 0⟩)
  rw [List.length_replicate] at hparse
  rw [fillRegions, run_bind, hparse]
  cases h : parse mem info maxRegions with
  | none => rfl
  | some found =>
      cases found with
      | none => rfl
      | some entries =>
          -- the slice of the buffer is what was written
          have hraw : ∀ raw : List MemEntry, writeAt raw 0 entries = entries ++ raw.drop entries.length := by
            intro raw
            rw [writeAt, List.take_zero, List.nil_append, Nat.zero_add]
          show (if entries.length ≤ (writeAt _ 0 entries).length then
            normalise ((writeAt _ 0 entries).take entries.length) out else none) = _
          rw [hraw, List.take_left, List.length_append]
          exact if_pos (Nat.le_add_right _ _)

/-- **The program computes the function** of the boot harness. -/
theorem fillRegions_run (hout : out.length = maxRegions) :
    (fillRegions out info).run mem =
      (Rolnix.fillRegions mem info).map fun regions => (regions.length, writeAt out 0 regions) := by
  rw [run_fillRegions, Rolnix.fillRegions]
  cases h : parse mem info maxRegions with
  | none => rfl
  | some found =>
      cases found with
      | none => rfl
      | some entries =>
          have hfit : entries.length ≤ out.length := by
            rw [hout]
            exact parse_length_le h
          show normalise entries out = _
          rw [normalise_eq hfit, ← length_sortRegions]
          rfl

/-! ## What the list is for -/

/-- The region of an entry, over the natural numbers: of usable memory the whole frames, if there are
any and the entry ends within the address space. -/
def wholeFrames (e : MemEntry) : Option MemoryRegion :=
  if e.kind = mtUsable then
    let start := Word.ceilTo e.start frameSize
    let stop := (e.start + e.len) / frameSize * frameSize
    if e.start + e.len < 2 ^ 64 ∧ start < stop then some ⟨start, stop - start, .usable⟩ else none
  else some ⟨e.start, e.len, .reserved⟩

/-- `[a, b)` is a range of whole frames inside of `e`. -/
structure FramesIn (e : MemEntry) (a b : Nat) : Prop where
  start_dvd : frameSize ∣ a
  stop_dvd : frameSize ∣ b
  nonempty : a < b
  start_le : e.start ≤ a
  le_stop : b ≤ e.start + e.len

/-- **The largest frame-aligned range.** -/
theorem wholeFrames_eq_some_iff (hu : e.kind = mtUsable) :
    wholeFrames e = some r ↔ e.start + e.len < 2 ^ 64 ∧ r.kind = .usable ∧
      FramesIn e r.start (r.start + r.len) ∧
      ∀ a b, FramesIn e a b → r.start ≤ a ∧ b ≤ r.start + r.len := by
  have hpos : 0 < frameSize := by decide
  have hlargest : ∀ a b, FramesIn e a b →
      Word.ceilTo e.start frameSize ≤ a ∧ b ≤ (e.start + e.len) / frameSize * frameSize := by
    intro a b h
    refine ⟨Word.ceilTo_le hpos h.start_le h.start_dvd, ?_⟩
    rw [← Nat.div_mul_cancel h.stop_dvd]
    exact Nat.mul_le_mul_right _ (Nat.div_le_div_right h.le_stop)
  have hframes : Word.ceilTo e.start frameSize < (e.start + e.len) / frameSize * frameSize →
      FramesIn e (Word.ceilTo e.start frameSize) ((e.start + e.len) / frameSize * frameSize) :=
    fun hlt => ⟨Word.dvd_ceilTo, Nat.dvd_mul_left _ _, hlt, Word.le_ceilTo hpos,
      Nat.div_mul_le_self _ _⟩
  rw [wholeFrames, if_pos hu]
  dsimp only
  constructor
  · intro h
    split_ifs at h with hin
    obtain rfl := Option.some.inj h
    have hstop := Nat.add_sub_cancel' hin.2.le
    dsimp only
    rw [hstop]
    exact ⟨hin.1, rfl, hframes hin.2, hlargest⟩
  · rintro ⟨hfits, hkind, hin, hmax⟩
    obtain ⟨hstart, hstop⟩ := hlargest _ _ hin
    have hne := hin.nonempty
    have hlt : Word.ceilTo e.start frameSize < (e.start + e.len) / frameSize * frameSize := by omega
    obtain ⟨hstart', hstop'⟩ := hmax _ _ (hframes hlt)
    rw [if_pos ⟨hfits, hlt⟩]
    obtain ⟨start, len, kind⟩ := r
    dsimp only at hkind hstart hstop hstart' hstop' ⊢
    subst hkind
    congr 2 <;> omega

/-! ## The two compared -/

/-- The values fit in their fields. -/
structure IsU64 (e : MemEntry) : Prop where
  start : e.start < 2 ^ 64
  len : e.len < 2 ^ 64

theorem alignUp_eq_ceilTo_iff : Word.alignUp 64 e.start frameSize = Word.ceilTo e.start frameSize ↔
    e.start + frameSize ≤ 2 ^ 64 := by
  rw [frameSize_eq]
  exact Word.alignUp_eq_ceilTo_iff (by decide)

/-- **Without a wrap the code's arithmetic is exact.** -/
theorem regionOfEntry_eq (hfits : e.kind = mtUsable → e.start + frameSize ≤ 2 ^ 64) :
    regionOfEntry e = wholeFrames e := by
  rw [regionOfEntry, wholeFrames]
  split_ifs with hu
  swap
  · rfl
  have hfit := hfits hu
  have hpos : 0 < frameSize := by decide
  have hlt : e.start < 2 ^ 64 := by omega
  have hceil := alignUp_eq_ceilTo_iff.2 hfit
  have hle : e.start ≤ Word.ceilTo e.start frameSize := Word.le_ceilTo hpos
  dsimp only
  rw [hceil, roundDown_eq (MemEntry.end_lt hlt), MemEntry.end]
  by_cases hsum : e.start + e.len < 2 ^ 64
  · rw [if_pos hsum]
    by_cases hempty : (e.start + e.len) / frameSize * frameSize ≤ Word.ceilTo e.start frameSize
    · rw [if_pos hempty, if_neg fun h => Nat.not_lt.2 hempty h.2]
    · rw [if_neg hempty, if_pos (And.intro hsum (Nat.lt_of_not_le hempty))]
  · -- an entry without an end holds nothing
    have hfloor := Nat.div_mul_le_self e.start frameSize
    rw [if_neg hsum, if_pos (hfloor.trans hle), if_neg fun h => hsum h.1]

/-- **With a wrap** the region begins at zero, and the entry holds no whole frame. -/
theorem regionOfEntry_wrap (hu : e.kind = mtUsable) (he : e.start < 2 ^ 64)
    (hwrap : 2 ^ 64 < e.start + frameSize) :
    regionOfEntry e = some ⟨0, 2 ^ 64 - frameSize, .usable⟩ ∧ wholeFrames e = none := by
  have hzero : Word.alignUp 64 e.start frameSize = 0 := by
    rw [frameSize_eq] at hwrap ⊢
    exact Word.alignUp_of_wrap (by decide) he hwrap
  have hle : e.start ≤ e.end := by
    unfold MemEntry.end
    split_ifs <;> omega
  have hstop := MemEntry.end_lt he
  unfold frameSize at hwrap
  refine ⟨?_, ?_⟩
  · have hfloor : e.end / frameSize * frameSize = 2 ^ 64 - frameSize := by
      unfold frameSize
      omega
    rw [regionOfEntry, if_pos hu]
    dsimp only
    rw [hzero, roundDown_eq hstop, hfloor]
    rfl
  · rw [wholeFrames, if_pos hu]
    refine if_neg ?_
    rintro ⟨hsum, hlt⟩
    unfold Word.ceilTo frameSize at hlt
    omega

/-- The buffer holds the regions of the entries, in order. -/
structure Lists (entries : List MemEntry) (count : Nat) (out : List MemoryRegion) : Prop where
  sorted : (out.take count).Pairwise fun a b => a.start ≤ b.start
  exactly : (out.take count).Perm (entries.filterMap wholeFrames)
  inside : ∀ r ∈ out.take count, r.kind = .usable →
    ∃ e ∈ entries, e.kind = mtUsable ∧ e.start ≤ r.start ∧ r.start + r.len ≤ e.start + e.len

/-- No usable entry begins in the last frame of the address space, behind its first byte. -/
def StartsFit (entries : List MemEntry) : Prop :=
  ∀ e ∈ entries, e.kind = mtUsable → e.start + frameSize ≤ 2 ^ 64

theorem inside_of_mem (hr : r ∈ entries.filterMap wholeFrames) (hu : r.kind = .usable) :
    ∃ e ∈ entries, e.kind = mtUsable ∧ e.start ≤ r.start ∧ r.start + r.len ≤ e.start + e.len := by
  obtain ⟨e, he, hre⟩ := List.mem_filterMap.1 hr
  by_cases hkind : e.kind = mtUsable
  · obtain ⟨-, -, hin, -⟩ := (wholeFrames_eq_some_iff hkind).1 hre
    exact ⟨e, he, hkind, hin.start_le, hin.le_stop⟩
  · rw [wholeFrames, if_neg hkind] at hre
    obtain rfl := Option.some.inj hre
    cases hu

theorem isSome_of_wholeFrames (h : (wholeFrames e).isSome) : (regionOfEntry e).isSome := by
  suffices hfits : e.kind = mtUsable → e.start + frameSize ≤ 2 ^ 64 by rwa [regionOfEntry_eq hfits]
  intro hu
  obtain ⟨r, hr⟩ := Option.isSome_iff_exists.1 h
  have hend := ((wholeFrames_eq_some_iff hu).1 hr).1
  by_contra hwrap
  have hnone := (regionOfEntry_wrap hu (by omega) (Nat.lt_of_not_le hwrap)).2
  rw [hnone] at hr
  cases hr

/-- If there are as many regions as there should be, no entry has wrapped. -/
theorem startsFit_of_length (hstart : ∀ e ∈ entries, e.start < 2 ^ 64)
    (hlen : (entries.filterMap regionOfEntry).length = (entries.filterMap wholeFrames).length) :
    StartsFit entries := by
  rw [List.length_filterMap_eq_countP, List.length_filterMap_eq_countP, List.countP_eq_length_filter,
    List.countP_eq_length_filter] at hlen
  have hsub : (entries.filter fun e => (wholeFrames e).isSome).Sublist
      (entries.filter fun e => (regionOfEntry e).isSome) :=
    List.monotone_filter_right entries fun _ => isSome_of_wholeFrames
  have heq := hsub.eq_of_length hlen.symm
  intro e he hu
  by_contra hwrap
  obtain ⟨hregion, hnone⟩ := regionOfEntry_wrap hu (hstart e he) (Nat.lt_of_not_le hwrap)
  have hmem : e ∈ entries.filter fun e => (regionOfEntry e).isSome :=
    List.mem_filter.2 ⟨he, by rw [hregion]; rfl⟩
  rw [← heq] at hmem
  have hsome := (List.mem_filter.1 hmem).2
  rw [hnone] at hsome
  cases hsome

theorem take_normalise (regions : List MemoryRegion) :
    (writeAt out 0 (sortRegions regions)).take regions.length = sortRegions regions := by
  rw [writeAt, List.take_zero, List.nil_append, ← length_sortRegions, List.take_left]

/-- **The region list is normal** exactly if no usable entry begins in the last frame of the address
space, which is where the rounding of the start wraps. (For an entry that begins where the last frame
does the sum wraps to 0 and the subtraction of 1 takes it back; with overflow checks that is a panic.)
The last part ties the list to the entries that `fill_regions` parses. -/
theorem regions_normalised_iff (hfit : entries.length ≤ out.length) (hu64 : ∀ e ∈ entries, IsU64 e) :
    ((∃ count out', normalise entries out = some (count, out') ∧ Lists entries count out') ↔
        StartsFit entries) ∧
      ((∀ e ∈ entries, e.kind = mtUsable →
        Word.alignUp 64 e.start frameSize = Word.ceilTo e.start frameSize) ↔ StartsFit entries) ∧
      ∀ mem info, parse mem info maxRegions = some (some entries) →
        (fillRegions out info).run mem = normalise entries out := by
  refine ⟨⟨?_, ?_⟩, ?_, ?_⟩
  · rintro ⟨count, out', hrun, hlists⟩
    rw [normalise_eq hfit] at hrun
    obtain ⟨rfl, rfl⟩ := Prod.mk.inj (Option.some.inj hrun)
    have hperm := hlists.exactly
    rw [take_normalise] at hperm
    exact startsFit_of_length (fun e he => (hu64 e he).start)
      ((length_sortRegions _).symm.trans hperm.length_eq)
  · intro hfits
    have hregions : entries.filterMap regionOfEntry = entries.filterMap wholeFrames :=
      List.filterMap_congr fun e he => regionOfEntry_eq (hfits e he)
    refine ⟨_, _, normalise_eq hfit, ?_, ?_, ?_⟩
    · rw [take_normalise]
      exact pairwise_sortRegions _
    · rw [take_normalise, ← hregions]
      exact perm_sortRegions _
    · intro r hr hu
      rw [take_normalise, mem_sortRegions, hregions] at hr
      exact inside_of_mem hr hu
  · exact forall₃_congr fun e _ _ => alignUp_eq_ceilTo_iff
  · intro mem info h
    rw [run_fillRegions, h]
    rfl

/-- A usable entry that covers one whole frame, behind a reserved one that begins before it. -/
theorem regions_normalised_small :
    Lists [⟨0x1800, 0x1900, 1⟩, ⟨0x100, 0x80, 2⟩] 2
      [⟨0x100, 0x80, .reserved⟩, ⟨0x2000, 0x1000, .usable⟩] := by
  let entries : List MemEntry := [⟨0x1800, 0x1900, 1⟩, ⟨0x100, 0x80, 2⟩]
  let out : List MemoryRegion := [⟨0, 0, .reserved⟩, ⟨0, 0, .reserved⟩]
  have hall : ∀ e ∈ entries, IsU64 e ∧ e.start + frameSize ≤ 2 ^ 64 := by
    intro e he
    rcases List.mem_pair.1 he with rfl | rfl
    · exact ⟨⟨by decide, by decide⟩, by decide⟩
    · exact ⟨⟨by decide, by decide⟩, by decide⟩
  have hrun : normalise entries out =
      some (2, [⟨0x100, 0x80, .reserved⟩, ⟨0x2000, 0x1000, .usable⟩]) := by decide
  have hfit : entries.length ≤ out.length := by decide
  obtain ⟨count, out', hrun', hlists⟩ :=
    (regions_normalised_iff hfit fun e he => (hall e he).1).1.2 fun e he _ => (hall e he).2
  obtain ⟨rfl, rfl⟩ := Prod.mk.inj (Option.some.inj (hrun.symm.trans hrun'))
  exact hlists

/-- **A wrapped start makes nearly all of memory usable.** The entry is 50 bytes long, in the last
frame of the address space. -/
theorem wrapped_start :
    normalise [⟨2 ^ 64 - 100, 50, 1⟩] [⟨0, 0, .reserved⟩] =
        some (1, [⟨0, 2 ^ 64 - 4096, .usable⟩]) ∧
      ¬ Lists [⟨2 ^ 64 - 100, 50, 1⟩] 1 [⟨0, 2 ^ 64 - 4096, .usable⟩] := by
  refine ⟨by decide, fun hlists => ?_⟩
  obtain ⟨e, he, -, hstart, -⟩ := hlists.inside _ List.mem_cons_self rfl
  obtain rfl := List.mem_singleton.1 he
  exact absurd hstart (by decide)

end Rolnix.RegionList
