import Rolnix.BootLayout

/-!
# The effective memory map

`build_effective` copies the memory map into an array of 128 entries and splits the kernel image
out of the usable regions on the way. Two results about it:

* `buildEffective_bounded_iff`: the capacity is tested after a region's entries are written, so the
  array is overrun exactly if a region that the image divides finds one free entry.
* `image_split_exact_iff`: what is left are the usable bytes outside of the image. The order of the
  map is kept as well, unless an empty entry lies below the end of the image and behind a region
  that continues after it.
-/

namespace Rolnix

section Capacity

variable {kiLen kiKs kiKe : Nat} {out out' rest parts : List MemoryRegion} {region : MemoryRegion}
  {s s' : Machine} {e : String}

/-! ## The capacity of the array -/

theorem pushRegion_panics :
    Panics (pushRegion out region) s ↔ maxEffectiveRegions ≤ out.length := by
  unfold pushRegion
  by_cases hlt : out.length < maxEffectiveRegions
  · simp [hlt]
  · simp [if_neg hlt, Nat.le_of_not_lt hlt]

theorem pushRegion_not_fails : ¬ Fails (pushRegion out region) s e s' := by
  unfold pushRegion
  by_cases hlt : out.length < maxEffectiveRegions
  · simp [if_pos hlt]
  · simp [if_neg hlt]

theorem pushRegion_total (hlt : out.length < maxEffectiveRegions) :
    Returns (pushRegion out region) s (out ++ [region]) s := by
  rw [pushRegion, if_pos hlt]
  exact returns_pure.2 ⟨rfl, rfl⟩

theorem pushAll_panics (hle : out.length ≤ maxEffectiveRegions) :
    Panics (parts.foldlM pushRegion out) s ↔ maxEffectiveRegions < out.length + parts.length := by
  induction parts generalizing out with
  | nil => simpa using hle
  | cons r parts ih =>
      rw [List.foldlM_cons, panics_bind, pushRegion_panics, List.length_cons]
      constructor
      · rintro (hfull | ⟨out₁, s₁, hpush, hrest⟩)
        · omega
        · obtain ⟨rfl, rfl⟩ := pushRegion_returns hpush
          have hlen : (out ++ [r]).length = out.length + 1 := by simp
          have hroom : ¬ maxEffectiveRegions ≤ out.length := fun h =>
            hpush.not_panics (pushRegion_panics.2 h)
          have := (ih (by omega)).1 hrest
          omega
      · intro hover
        by_cases hfull : maxEffectiveRegions ≤ out.length
        · exact Or.inl hfull
        · have hlen : (out ++ [r]).length = out.length + 1 := by simp
          exact Or.inr ⟨_, _, pushRegion_total (by omega), (ih (by omega)).2 (by omega)⟩

theorem pushAll_not_fails : ¬ Fails (parts.foldlM pushRegion out) s e s' := by
  induction parts generalizing out s with
  | nil => simp
  | cons r parts ih =>
      rw [List.foldlM_cons, fails_bind]
      rintro (hpush | ⟨out₁, s₁, -, hrest⟩)
      · exact pushRegion_not_fails hpush
      · exact ih hrest

theorem length_regionParts_le : (regionParts kiLen kiKs kiKe region).length ≤ 2 := by
  unfold regionParts
  split_ifs <;> simp

theorem pushAll_total (hle : out.length + parts.length ≤ maxEffectiveRegions) :
    Returns (parts.foldlM pushRegion out) s (out ++ parts) s := by
  rcases returns_or_fails_or_panics (parts.foldlM pushRegion out) s with
    ⟨out', s', hret⟩ | ⟨e, s', hfail⟩ | hpanic
  · obtain ⟨rfl, rfl⟩ := pushAll_returns hret
    exact hret
  · exact absurd hfail pushAll_not_fails
  · have hover := (pushAll_panics (by omega)).1 hpanic
    exact absurd hle (Nat.not_le.2 hover)

/-- The loop panics where a region with two parts finds one free entry. -/
theorem effectiveLoop_panics (hlt : out.length < maxEffectiveRegions) :
    Panics (effectiveLoop kiLen kiKs kiKe out rest) s ↔
      ∃ before r after, rest = before ++ r :: after ∧
        out.length + (before.flatMap (regionParts kiLen kiKs kiKe)).length + 1 =
          maxEffectiveRegions ∧
        (regionParts kiLen kiKs kiKe r).length = 2 := by
  induction rest generalizing out with
  | nil => simp [effectiveLoop]
  | cons region rest ih =>
      have htwo : (regionParts kiLen kiKs kiKe region).length ≤ 2 := length_regionParts_le
      rw [effectiveLoop, panics_bind, splitRegion_eq, pushAll_panics hlt.le]
      constructor
      · intro hpanic
        rcases hpanic with hover | ⟨out₁, s₁, hsplit, hloop⟩
        · refine ⟨[], region, rest, rfl, ?_, by omega⟩
          simp only [List.flatMap_nil, List.length_nil]
          omega
        · obtain ⟨rfl, rfl⟩ := pushAll_returns hsplit
          by_cases hfull : (out ++ regionParts kiLen kiKs kiKe region).length ≥ maxEffectiveRegions
          · rw [if_pos hfull] at hloop
            exact absurd hloop panics_throw
          · rw [if_neg hfull] at hloop
            obtain ⟨before, r, after, rfl, hlen, hr⟩ := (ih (Nat.lt_of_not_le hfull)).1 hloop
            refine ⟨region :: before, r, after, rfl, ?_, hr⟩
            rw [List.flatMap_cons, List.length_append, ← hlen, List.length_append]
            omega
      · intro hex
        obtain ⟨before, r, after, heq, hlen, hr⟩ := hex
        cases before with
        | nil =>
            obtain ⟨rfl, rfl⟩ := List.cons.inj heq
            simp only [List.flatMap_nil, List.length_nil] at hlen
            left
            omega
        | cons region' before =>
            obtain ⟨rfl, rfl⟩ := List.cons.inj heq
            rw [List.flatMap_cons, List.length_append] at hlen
            have hroom : ¬ (out ++ regionParts kiLen kiKs kiKe region).length ≥
                maxEffectiveRegions := by
              rw [List.length_append]
              omega
            right
            refine ⟨_, s, pushAll_total (by omega), ?_⟩
            rw [if_neg hroom]
            apply (ih (Nat.lt_of_not_le hroom)).2
            refine ⟨before, r, after, rfl, ?_, hr⟩
            rw [List.length_append, ← hlen]
            omega

theorem effectiveLoop_fails (h : Fails (effectiveLoop kiLen kiKs kiKe out rest) s e s') :
    e = "too many memory regions" := by
  induction rest generalizing out s with
  | nil => exact absurd h fails_pure
  | cons region rest ih =>
      rw [effectiveLoop, fails_bind, splitRegion_eq] at h
      rcases h with hsplit | ⟨out₁, s₁, -, hloop⟩
      · exact absurd hsplit pushAll_not_fails
      · split_ifs at hloop
        · exact (fails_throw.1 hloop).1.symm
        · exact ih hloop

theorem effectiveLoop_length (hlt : out.length < maxEffectiveRegions)
    (h : Returns (effectiveLoop kiLen kiKs kiKe out rest) s out' s') :
    out'.length < maxEffectiveRegions := by
  induction rest generalizing out s with
  | nil =>
      obtain ⟨rfl, rfl⟩ := returns_pure.1 h
      exact hlt
  | cons region rest ih =>
      rw [effectiveLoop] at h
      obtain ⟨out₁, s₁, -, hloop⟩ := returns_bind.1 h
      split_ifs at hloop with hfull
      · exact absurd hloop returns_throw
      · exact ih (Nat.lt_of_not_le hfull) hloop

end Capacity

/-- How many entries a region becomes: none inside the image, two around it, and else one. -/
def BootInfo.pieces (boot : BootInfo) (r : MemoryRegion) : Nat :=
  if r.kind = .usable ∧ boot.kernelImage.2 ≠ 0 ∧ boot.imageStart < r.end ∧
      r.start < boot.imageEnd then
    (if r.start < boot.imageStart then 1 else 0) + if boot.imageEnd < r.end then 1 else 0
  else 1

/-- A region that the image divides comes when one entry is free. -/
def BootInfo.DividesLast (boot : BootInfo) : Prop :=
  ∃ before r after, boot.regions = before ++ r :: after ∧
    (before.map boot.pieces).sum + 1 = maxEffectiveRegions ∧ boot.pieces r = 2

theorem length_regionParts (boot : BootInfo) (r : MemoryRegion) :
    (regionParts boot.kernelImage.2 boot.imageStart boot.imageEnd r).length = boot.pieces r := by
  unfold regionParts BootInfo.pieces
  split_ifs <;> rfl

theorem buildEffective_panics {boot : BootInfo} {s : Machine} :
    Panics (buildEffective boot) s ↔ boot.DividesLast := by
  show Panics (effectiveLoop boot.kernelImage.2 boot.imageStart boot.imageEnd [] boot.regions) s ↔ _
  rw [effectiveLoop_panics (by decide)]
  simp only [List.length_nil, Nat.zero_add, List.length_flatMap, length_regionParts]
  rfl

/-- **When the array of entries suffices.** `build_effective` returns at most 128 entries or reports
too many regions, if and only if no region that the image divides comes when one entry is free. -/
theorem buildEffective_bounded_iff (boot : BootInfo) (s : Machine) :
    ((∃ out s', Returns (buildEffective boot) s out s' ∧ out.length ≤ maxEffectiveRegions) ∨
      ∃ s', Fails (buildEffective boot) s "too many memory regions" s') ↔ ¬ boot.DividesLast := by
  rw [← buildEffective_panics (s := s)]
  constructor
  · intro h
    rcases h with ⟨out, s', hret, -⟩ | ⟨s', hfail⟩
    · exact hret.not_panics
    · exact hfail.not_panics
  · intro hsafe
    rcases returns_or_fails_or_panics (buildEffective boot) s with
      ⟨out, s', hret⟩ | ⟨e, s', hfail⟩ | hpanic
    · exact Or.inl ⟨out, s', hret, (effectiveLoop_length (by decide) hret).le⟩
    · obtain rfl := effectiveLoop_fails hfail
      exact Or.inr ⟨s', hfail⟩
    · exact absurd hpanic hsafe

/-- 127 reserved frames and then a usable region around the image. -/
def crowdedBoot : BootInfo where
  physmapBase := 0x1000
  regions := (List.range 127).map (fun i => ⟨i * 4096, 4096, .reserved⟩) ++
    [⟨0x100000, 0x300000, .usable⟩]
  kernelImage := (0x200000, 0x1000)

/-- **The array is overrun**: the two parts of the last region are entries 127 and 128. -/
theorem crowdedBoot_panics :
    (∀ r ∈ crowdedBoot.regions, r.start + r.len < 2 ^ 64) ∧ crowdedBoot.ImageFits ∧
      ∀ s : Machine, Panics (buildEffective crowdedBoot) s := by
  refine ⟨by decide +kernel, by intro _; decide, fun s => ?_⟩
  apply buildEffective_panics.2
  exact ⟨_, _, [], rfl, by decide +kernel, by decide +kernel⟩

/-! ## The bytes that remain -/

/-- A map in address order without overlaps. -/
def InOrder (regions : List MemoryRegion) : Prop :=
  regions.Pairwise (fun r r' => r.start ≤ r'.start) ∧
    regions.Pairwise fun r r' => ∀ x, ¬ (r.Contains x ∧ r'.Contains x)

/-- `out` is the map with the image split out of its usable regions. -/
structure BootInfo.ImageSplit (boot : BootInfo) (out : List MemoryRegion) : Prop where
  usable : ∀ x, (∃ r ∈ out, r.kind = .usable ∧ r.Contains x) ↔
    (∃ r ∈ boot.regions, r.kind = .usable ∧ r.Contains x) ∧ ¬ boot.InImage x
  reserved : out.filter (fun r => r.kind = .reserved) =
    boot.regions.filter fun r => r.kind = .reserved
  /-- Every usable entry is a part of a region, empty or misaligned only if that is. -/
  part : ∀ r ∈ out, r.kind = .usable → ∃ region ∈ boot.regions, region.kind = .usable ∧
    (∀ x, r.Contains x → region.Contains x) ∧ (r.len = 0 → region.len = 0) ∧
    (misaligned region = false → misaligned r = false)
  inOrder : InOrder boot.regions → InOrder out

/-- An empty entry `r'` that stays, below the end of the image, while `r` continues after it. -/
def BootInfo.Misplaced (boot : BootInfo) (r r' : MemoryRegion) : Prop :=
  boot.kernelImage.2 ≠ 0 ∧ r.kind = .usable ∧ r.start < boot.imageEnd ∧ boot.imageEnd < r.end ∧
    r'.len = 0 ∧ r'.start < boot.imageEnd ∧ (r'.kind = .usable → r'.start ≤ boot.imageStart)

section Image

variable {boot : BootInfo} {r region region' x y : MemoryRegion}

/-- The parts of a region. -/
def BootInfo.parts (boot : BootInfo) : MemoryRegion → List MemoryRegion :=
  regionParts boot.kernelImage.2 boot.imageStart boot.imageEnd

theorem end_eq_of_lt (hlt : r.start + r.len < 2 ^ 64) : r.end = r.start + r.len :=
  Word.add_of_lt hlt

theorem parts_lt (hregion : region.start + region.len < 2 ^ 64) (hr : r ∈ boot.parts region) :
    r.start + r.len < 2 ^ 64 := by
  have hend := end_eq_of_lt hregion
  rcases regionParts_cases hr with ⟨rfl, -⟩ | ⟨⟨-, -, hks, -⟩, ⟨hlow, rfl⟩ | ⟨hhigh, rfl⟩⟩
  · exact hregion
  · show region.start + (boot.imageStart - region.start) < 2 ^ 64
    omega
  · show boot.imageEnd + (region.end - boot.imageEnd) < 2 ^ 64
    omega

theorem parts_contains (hregion : region.start + region.len < 2 ^ 64) (hr : r ∈ boot.parts region)
    {a : Nat} (ha : r.Contains a) : region.Contains a := by
  have hend := end_eq_of_lt hregion
  obtain ⟨hle, hlt⟩ := ha
  rcases regionParts_cases hr with ⟨rfl, -⟩ | ⟨⟨-, -, hks, hke⟩, ⟨hlow, rfl⟩ | ⟨hhigh, rfl⟩⟩
  · exact ⟨hle, hlt⟩
  · simp only at hle hlt
    exact ⟨hle, by omega⟩
  · simp only at hle hlt
    exact ⟨by omega, by omega⟩

theorem parts_start_le (hr : r ∈ boot.parts region) : region.start ≤ r.start := by
  rcases regionParts_cases hr with ⟨rfl, -⟩ | ⟨⟨-, -, -, hke⟩, ⟨-, rfl⟩ | ⟨-, rfl⟩⟩
  · exact le_rfl
  · exact le_rfl
  · exact hke.le

theorem parts_kind (hr : r ∈ boot.parts region) : r.kind = region.kind := by
  rcases regionParts_cases hr with ⟨rfl, -⟩ | ⟨⟨hu, -⟩, ⟨-, rfl⟩ | ⟨-, rfl⟩⟩
  · rfl
  · exact hu.symm
  · exact hu.symm

theorem parts_len (hr : r ∈ boot.parts region) (hempty : r.len = 0) : region.len = 0 := by
  rcases regionParts_cases hr with ⟨rfl, -⟩ | ⟨-, ⟨hlow, rfl⟩ | ⟨hhigh, rfl⟩⟩
  · exact hempty
  · exact absurd hempty (Nat.sub_ne_zero_of_lt hlow)
  · exact absurd hempty (Nat.sub_ne_zero_of_lt hhigh)

theorem parts_misaligned (himage : boot.kernelImage.1 < 2 ^ 64)
    (hregion : region.start + region.len < 2 ^ 64) (hr : r ∈ boot.parts region)
    (hal : misaligned region = false) : misaligned r = false := by
  have hend := end_eq_of_lt hregion
  obtain ⟨hke, -⟩ := imageEnd_aligned boot
  rcases regionParts_cases hr with ⟨rfl, -⟩ | ⟨⟨hu, hlen, hks, -⟩, ⟨hlow, rfl⟩ | ⟨hhigh, rfl⟩⟩
  · exact hal
  · have hstart : boot.imageStart % frameSize = 0 := by
      rw [BootInfo.imageStart, if_pos hlen, roundDown_eq himage]
      exact Nat.mul_mod_left _ _
    simp only [misaligned, hu, true_and, decide_eq_false_iff_not, not_or, not_not,
      frameSize] at hal hstart ⊢
    omega
  · simp only [misaligned, hu, true_and, decide_eq_false_iff_not, not_or, not_not,
      frameSize] at hal hke ⊢
    omega

theorem filter_parts (regions : List MemoryRegion) :
    (regions.flatMap boot.parts).filter (fun r => r.kind = .reserved) =
      regions.filter fun r => r.kind = .reserved := by
  induction regions with
  | nil => rfl
  | cons region regions ih =>
      rw [List.flatMap_cons, List.filter_append, ih, List.filter_cons]
      by_cases hkind : region.kind = .reserved
      · have hself : boot.parts region = [region] := by
          rw [BootInfo.parts, regionParts, if_neg (by rw [hkind]; simp)]
        simp [hself, hkind]
      · have hnone : (boot.parts region).filter (fun r => r.kind = .reserved) = [] := by
          apply List.filter_eq_nil_iff.2
          intro r hr
          rw [parts_kind hr]
          simpa using hkind
        simp [hnone, hkind]

theorem parts_ordered
    (hregion : region.start + region.len < 2 ^ 64) (hregion' : region'.start + region'.len < 2 ^ 64)
    (hle : region.start ≤ region'.start)
    (hdisj : ∀ a, ¬ (region.Contains a ∧ region'.Contains a))
    (hplaced : ¬ boot.Misplaced region region') (hx : x ∈ boot.parts region)
    (hy : y ∈ boot.parts region') : x.start ≤ y.start := by
  have hend := end_eq_of_lt hregion
  have hend' := end_eq_of_lt hregion'
  have hstart := parts_start_le hy
  rcases regionParts_cases hx with ⟨rfl, -⟩ | ⟨⟨hu, hlen, hks, hke⟩, ⟨-, rfl⟩ | ⟨hhigh, rfl⟩⟩
  · exact hle.trans hstart
  · exact hle.trans hstart
  -- the high part starts at the end of the image, which lies inside the first region
  · show boot.imageEnd ≤ y.start
    by_contra hbelow
    have hempty : region'.len = 0 := by
      by_contra hne
      exact hdisj region'.start ⟨⟨hle, by omega⟩, le_rfl, by omega⟩
    rcases regionParts_cases hy with ⟨rfl, hnot⟩ | ⟨⟨-, -, hks', hke'⟩, ⟨hlow, rfl⟩ | ⟨-, rfl⟩⟩
    · apply hplaced
      refine ⟨hlen, hu, hke, hhigh, hempty, by omega, fun hu' => ?_⟩
      by_contra hgt
      exact hnot ⟨hu', hlen, by omega, by omega⟩
    · simp only at hbelow
      omega
    · exact hbelow le_rfl

/-- A misplaced entry stays where it is, behind the high part of the first region. -/
theorem misplaced_parts (hbounds : boot.imageStart ≤ boot.imageEnd)
    (hregion' : region'.start + region'.len < 2 ^ 64) (h : boot.Misplaced region region') :
    ∃ x ∈ boot.parts region, ∃ y ∈ boot.parts region', ¬ x.start ≤ y.start := by
  obtain ⟨hlen, hu, hke, hhigh, hempty, hbelow, hplace⟩ := h
  have hend' := end_eq_of_lt hregion'
  refine ⟨⟨boot.imageEnd, region.end - boot.imageEnd, .usable⟩, ?_, region', ?_, Nat.not_le.2 hbelow⟩
  · rw [BootInfo.parts, regionParts, if_pos ⟨hu, hlen, by omega, hke⟩, if_pos hhigh]
    exact List.mem_append_right _ List.mem_cons_self
  · have hnot : ¬ (region'.kind = .usable ∧ boot.kernelImage.2 ≠ 0 ∧ boot.imageStart < region'.end ∧
        region'.start < boot.imageEnd) := by
      rintro ⟨hu', -, hks, -⟩
      have := hplace hu'
      omega
    rw [BootInfo.parts, regionParts, if_neg hnot]
    exact List.mem_singleton.2 rfl

theorem inOrder_parts (hbounds : boot.imageStart ≤ boot.imageEnd) (region : MemoryRegion) :
    InOrder (boot.parts region) := by
  unfold InOrder BootInfo.parts regionParts
  split_ifs with hki hlow hhigh
  · refine ⟨List.pairwise_pair.2 (hlow.le.trans hbounds), List.pairwise_pair.2 ?_⟩
    intro a ha
    simp only [MemoryRegion.Contains] at ha
    omega
  all_goals simp

theorem inOrder_effective_iff (hbounds : boot.imageStart ≤ boot.imageEnd)
    (hregions : ∀ r ∈ boot.regions, r.start + r.len < 2 ^ 64) (horder : InOrder boot.regions) :
    InOrder boot.effective ↔ boot.regions.Pairwise fun r r' => ¬ boot.Misplaced r r' := by
  show InOrder (boot.regions.flatMap boot.parts) ↔ _
  constructor
  · intro h
    apply (List.pairwise_flatMap.1 h.1).2.imp_of_mem
    intro r r' _ hr' hall hmis
    obtain ⟨x, hx, y, hy, hlt⟩ := misplaced_parts hbounds (hregions r' hr') hmis
    exact hlt (hall x hx y hy)
  · intro hplaced
    constructor
    · apply List.pairwise_flatMap.2
      refine ⟨fun region _ => (inOrder_parts hbounds region).1, ?_⟩
      apply ((horder.1.and horder.2).and hplaced).imp_of_mem
      intro r r' hr hr' hrr x hx y hy
      exact parts_ordered (hregions r hr) (hregions r' hr') hrr.1.1 hrr.1.2 hrr.2 hx hy
    · apply List.pairwise_flatMap.2
      refine ⟨fun region _ => (inOrder_parts hbounds region).2, ?_⟩
      apply horder.2.imp_of_mem
      intro r r' hr hr' hdisj x hx y hy a ha
      exact hdisj a ⟨parts_contains (hregions r hr) hx ha.1, parts_contains (hregions r' hr') hy ha.2⟩

theorem usable_effective_iff (hregions : ∀ r ∈ boot.regions, r.start + r.len < 2 ^ 64)
    (hfits : boot.ImageFits) (a : Nat) :
    (∃ r ∈ boot.effective, r.kind = .usable ∧ r.Contains a) ↔
      (∃ r ∈ boot.regions, r.kind = .usable ∧ r.Contains a) ∧ ¬ boot.InImage a := by
  have hiff := @exists_effective_iff boot a
  rw [inImage_iff hfits]
  have heffective : ∀ r ∈ boot.effective, r.end = r.start + r.len := by
    intro r hr
    obtain ⟨region, hregion, hpart⟩ := List.mem_flatMap.1 hr
    exact end_eq_of_lt (parts_lt (hregions region hregion) hpart)
  constructor
  · rintro ⟨r, hr, hu, hle, hlt⟩
    rw [← heffective r hr] at hlt
    obtain ⟨region, hregion, hu', hle', hlt', hout⟩ := hiff.1 ⟨r, hr, hu, hle, hlt⟩
    rw [end_eq_of_lt (hregions region hregion)] at hlt'
    exact ⟨⟨region, hregion, hu', hle', hlt'⟩, hout⟩
  · rintro ⟨⟨region, hregion, hu, hle, hlt⟩, hout⟩
    rw [← end_eq_of_lt (hregions region hregion)] at hlt
    obtain ⟨r, hr, hu', hle', hlt'⟩ := hiff.2 ⟨region, hregion, hu, hle, hlt, hout⟩
    rw [heffective r hr] at hlt'
    exact ⟨r, hr, hu', hle', hlt'⟩

theorem effective_of_not_fits (himage : boot.kernelImage.1 + boot.kernelImage.2 < 2 ^ 64)
    (hfits : ¬ boot.ImageFits) : boot.effective = boot.regions := by
  obtain ⟨hlen, hwrap⟩ : boot.kernelImage.2 ≠ 0 ∧
      2 ^ 64 < boot.kernelImage.1 + boot.kernelImage.2 + 2 ^ 12 := by
    simp only [BootInfo.ImageFits, Classical.not_imp, Nat.not_le] at hfits
    exact hfits
  have hzero : boot.imageEnd = 0 := by
    rw [BootInfo.imageEnd, if_pos hlen, roundUp, Word.add_of_lt himage, frameSize_eq]
    exact Word.alignUp_of_wrap (by decide) himage hwrap
  have hself : ∀ region, regionParts boot.kernelImage.2 boot.imageStart boot.imageEnd region =
      [region] := by
    intro region
    rw [regionParts, if_neg]
    rintro ⟨-, -, -, hke⟩
    omega
  rw [BootInfo.effective, funext hself]
  exact List.flatMap_singleton' _

/-- **When splitting out the image is exact.** With no end that wraps, the entries are the usable bytes
outside of the image and the reserved regions, in the order of the map, if and only if the rounded
end of the image is an address and no entry of an ordered map is misplaced, or it is not and the
image has no usable byte. -/
theorem image_split_exact_iff {boot : BootInfo} {out : List MemoryRegion} {s s' : Machine}
    (hregions : ∀ r ∈ boot.regions, r.start + r.len < 2 ^ 64)
    (himage : boot.kernelImage.1 + boot.kernelImage.2 < 2 ^ 64)
    (h : Returns (buildEffective boot) s out s') :
    boot.ImageSplit out ↔
      (boot.ImageFits → InOrder boot.regions →
        boot.regions.Pairwise fun r r' => ¬ boot.Misplaced r r') ∧
      (¬ boot.ImageFits → ∀ a, (∃ r ∈ boot.regions, r.kind = .usable ∧ r.Contains a) →
        ¬ boot.InImage a) := by
  obtain ⟨rfl, rfl⟩ := buildEffective_returns h
  by_cases hfits : boot.ImageFits
  · have hbounds := imageStart_le_imageEnd hfits
    constructor
    · intro hsplit
      refine ⟨fun _ horder => ?_, fun hnot => absurd hfits hnot⟩
      exact (inOrder_effective_iff hbounds hregions horder).1 (hsplit.inOrder horder)
    · intro hcond
      refine ⟨usable_effective_iff hregions hfits, filter_parts boot.regions, ?_, ?_⟩
      · intro r hr hu
        obtain ⟨region, hregion, hpart⟩ := List.mem_flatMap.1 hr
        have hlt := hregions region hregion
        refine ⟨region, hregion, (parts_kind hpart).symm.trans hu, ?_, parts_len hpart, ?_⟩
        · intro a
          exact parts_contains hlt hpart
        · exact parts_misaligned (by omega) hlt hpart
      · intro horder
        exact (inOrder_effective_iff hbounds hregions horder).2 (hcond.1 hfits horder)
  · rw [effective_of_not_fits himage hfits]
    constructor
    · intro hsplit
      exact ⟨fun hyes => absurd hyes hfits, fun _ a ha => ((hsplit.usable a).1 ha).2⟩
    · intro hcond
      refine ⟨fun a => ⟨fun ha => ⟨ha, hcond.2 hfits a ha⟩, fun ha => ha.1⟩, rfl, ?_, id⟩
      intro r hr hu
      exact ⟨r, hr, hu, fun a => id, id, id⟩

end Image

/-- The image in the middle of one region. -/
theorem image_split_exact_one :
    (BootInfo.mk 0x1000 [⟨0, 0x10000, .usable⟩] (0x4000, 0x4000)).ImageSplit
      [⟨0, 0x4000, .usable⟩, ⟨0x8000, 0x8000, .usable⟩] := by
  have hret : Returns (buildEffective ⟨0x1000, [⟨0, 0x10000, .usable⟩], (0x4000, 0x4000)⟩)
      (Machine.reset fun _ => 0) [⟨0, 0x4000, .usable⟩, ⟨0x8000, 0x8000, .usable⟩]
      (Machine.reset fun _ => 0) := rfl
  refine (image_split_exact_iff (by decide) (by decide) hret).2 ⟨?_, ?_⟩
  · intro _ _
    exact List.pairwise_singleton _ _
  · intro hnot
    exact absurd (fun _ => by decide) hnot

/-- A usable region around the image, and after it an empty entry below the image. -/
def shelvedBoot : BootInfo where
  physmapBase := 0x1000
  regions := [⟨0, 0x10000, .usable⟩, ⟨0x3000, 0, .reserved⟩]
  kernelImage := (0x4000, 0x4000)

/-- **The order is lost**: the part after the image is written before the empty entry. -/
theorem shelvedBoot_unordered :
    InOrder shelvedBoot.regions ∧
      ∃ out s, Returns (buildEffective shelvedBoot) (Machine.reset fun _ => 0) out s ∧
        out = [⟨0, 0x4000, .usable⟩, ⟨0x8000, 0x8000, .usable⟩, ⟨0x3000, 0, .reserved⟩] ∧
        ¬ InOrder out := by
  refine ⟨⟨by decide, List.pairwise_pair.2 ?_⟩, _, Machine.reset fun _ => 0, rfl, rfl, ?_⟩
  · intro a ha
    simp only [MemoryRegion.Contains] at ha
    omega
  · intro horder
    exact absurd horder.1 (by decide)

end Rolnix
