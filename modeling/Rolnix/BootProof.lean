import Rolnix.Boot
import Rolnix.Pmm

/-!
# What `pmm_init` leaves behind

`Returns x s a s'` says that boot code `x`, started on a machine `s`, returns `Ok a` and leaves
machine `s'`; `Fails` and `Panics` are its two other ways to end. Their rules take a computation
apart bind by bind, so no proof unfolds the monad.

* `Booting`: between the initialization of the frame table and the end of `pmm_init`, every frame
  is reserved, free or untyped, its counters are zero, and all lists are empty.
* `buildGlobalFreelist_spec`: the scan threads every free frame onto the global list.
* `pmmInit_coherent`, `pmmInit_idle`: so `pmm_init` leaves coherent lists and idle frames.
-/

namespace Rolnix

/-! ## Rules for boot code -/

/-- `x` returns `Ok a` from `s`, leaving `s'`. -/
def Returns {σ α : Type} (x : BootT σ α) (s : σ) (a : α) (s' : σ) : Prop :=
  x.run.run s = some (.ok a, s')

/-- `x` returns `Err e` from `s`, leaving `s'`. -/
def Fails {σ α : Type} (x : BootT σ α) (s : σ) (e : String) (s' : σ) : Prop :=
  x.run.run s = some (.error e, s')

/-- `x` panics from `s`. -/
def Panics {σ α : Type} (x : BootT σ α) (s : σ) : Prop :=
  x.run.run s = none

section Rules

variable {σ α β : Type} {x : BootT σ α} {k : α → BootT σ β} {s s' : σ} {a : α} {b : β} {e : String}

theorem returns_or_fails_or_panics (x : BootT σ α) (s : σ) :
    (∃ a s', Returns x s a s') ∨ (∃ e s', Fails x s e s') ∨ Panics x s := by
  unfold Returns Fails Panics
  cases h : x.run.run s with
  | none => exact Or.inr (Or.inr rfl)
  | some r =>
      obtain ⟨res, s'⟩ := r
      cases res with
      | ok a => exact Or.inl ⟨a, s', rfl⟩
      | error e => exact Or.inr (Or.inl ⟨e, s', rfl⟩)

theorem Returns.not_panics (h : Returns x s a s') : ¬ Panics x s := by
  unfold Returns at h
  unfold Panics
  rw [h]
  simp

theorem Returns.unique {a' : α} {s₁ : σ} (h : Returns x s a s') (h' : Returns x s a' s₁) :
    a' = a ∧ s₁ = s' := by
  unfold Returns at h h'
  rw [h'] at h
  simpa using h

theorem Fails.not_panics (h : Fails x s e s') : ¬ Panics x s := by
  unfold Fails at h
  unfold Panics
  rw [h]
  simp

theorem returns_bind :
    Returns (x >>= k) s b s' ↔ ∃ a s₁, Returns x s a s₁ ∧ Returns (k a) s₁ b s' := by
  simp only [Returns, ExceptT.run_bind, StateT.run_bind]
  constructor
  · intro h
    obtain ⟨⟨r, s₁⟩, hx, hk⟩ := Option.bind_eq_some_iff.1 h
    cases r with
    | ok a => exact ⟨a, s₁, hx, hk⟩
    | error e => simp at hk
  · rintro ⟨a, s₁, hx, hk⟩
    exact Option.bind_eq_some_iff.2 ⟨(.ok a, s₁), hx, hk⟩

@[simp] theorem returns_pure {a' : α} : Returns (pure a : BootT σ α) s a' s' ↔ a = a' ∧ s = s' := by
  simp [Returns]

@[simp] theorem returns_throw {e : String} : ¬ Returns (throw e : BootT σ α) s a s' := by
  simp [Returns]

@[simp] theorem returns_abort : ¬ Returns (abort : BootT σ α) s a s' := by
  show ¬ (none : Option (Except String α × σ)) = some (.ok a, s')
  simp

@[simp] theorem fails_pure : ¬ Fails (pure a : BootT σ α) s e s' := by
  simp [Fails]

@[simp] theorem fails_throw {e' : String} :
    Fails (throw e : BootT σ α) s e' s' ↔ e = e' ∧ s = s' := by
  simp [Fails]

@[simp] theorem fails_abort : ¬ Fails (abort : BootT σ α) s e s' := by
  show ¬ (none : Option (Except String α × σ)) = some (.error e, s')
  simp

@[simp] theorem panics_pure : ¬ Panics (pure a : BootT σ α) s := by
  simp [Panics]

@[simp] theorem panics_throw : ¬ Panics (throw e : BootT σ α) s := by
  simp [Panics]

@[simp] theorem panics_abort : Panics (abort : BootT σ α) s := rfl

theorem returns_get {s₁ : σ} : Returns (get : BootT σ σ) s s₁ s' ↔ s = s₁ ∧ s = s' := by
  show some (Except.ok s, s) = some (Except.ok s₁, s') ↔ _
  simp

theorem returns_modify {f : σ → σ} {u : PUnit} :
    Returns (modify f : BootT σ PUnit) s u s' ↔ f s = s' := by
  show some (Except.ok PUnit.unit, f s) = some (Except.ok u, s') ↔ _
  simp

theorem returns_orAbort {f : σ → Option (α × σ)} :
    Returns (orAbort f) s a s' ↔ f s = some (a, s') := by
  simp only [Returns, orAbort, ExceptT.run_mk]
  constructor
  · intro h
    obtain ⟨⟨a', s₁⟩, hf, heq⟩ := Option.map_eq_some_iff.1 h
    simp only [Prod.mk.injEq, Except.ok.injEq] at heq
    rw [hf, heq.1, heq.2]
  · intro h
    exact Option.map_eq_some_iff.2 ⟨(a, s'), h, rfl⟩

theorem panics_orAbort {f : σ → Option (α × σ)} :
    Panics (orAbort f) s ↔ f s = none := by
  simp only [Panics, orAbort, ExceptT.run_mk]
  exact Option.map_eq_none_iff

theorem returns_ite {c : Prop} [Decidable c] {y : BootT σ α} :
    Returns (if c then x else y) s a s' ↔ c ∧ Returns x s a s' ∨ ¬ c ∧ Returns y s a s' := by
  by_cases hc : c
  · simp [hc]
  · simp [hc]

theorem fails_bind :
    Fails (x >>= k) s e s' ↔ Fails x s e s' ∨ ∃ a s₁, Returns x s a s₁ ∧ Fails (k a) s₁ e s' := by
  simp only [Fails, Returns, ExceptT.run_bind, StateT.run_bind]
  constructor
  · intro h
    obtain ⟨⟨r, s₁⟩, hx, hk⟩ := Option.bind_eq_some_iff.1 h
    cases r with
    | ok a => exact Or.inr ⟨a, s₁, hx, hk⟩
    | error e' =>
        obtain ⟨rfl, rfl⟩ : e' = e ∧ s₁ = s' := by simpa using hk
        exact Or.inl hx
  · rintro (hx | ⟨a, s₁, hx, hk⟩)
    · exact Option.bind_eq_some_iff.2 ⟨(.error e, s'), hx, by simp⟩
    · exact Option.bind_eq_some_iff.2 ⟨(.ok a, s₁), hx, hk⟩

theorem panics_bind :
    Panics (x >>= k) s ↔ Panics x s ∨ ∃ a s₁, Returns x s a s₁ ∧ Panics (k a) s₁ := by
  simp only [Panics, Returns, ExceptT.run_bind, StateT.run_bind]
  constructor
  · intro h
    rcases returns_or_fails_or_panics x s with ⟨a, s₁, hx⟩ | ⟨e, s₁, hx⟩ | hx
    · exact Or.inr ⟨a, s₁, hx, Option.bind_eq_none_iff.1 h _ hx⟩
    · exact absurd (Option.bind_eq_none_iff.1 h _ hx) (by simp)
    · exact Or.inl hx
  · rintro (hx | ⟨a, s₁, hx, hk⟩)
    · rw [hx]
      rfl
    · rw [hx]
      exact hk

theorem returns_guard {c : Prop} [Decidable c] {y : BootT σ β}
    (hx : ∀ a s₁, ¬ Returns x s a s₁) :
    Returns (if c then x >>= k else y) s b s' ↔ ¬ c ∧ Returns y s b s' := by
  simp [returns_ite, returns_bind, hx]

theorem panics_guard {c : Prop} [Decidable c] {y : BootT σ β} (hp : ¬ Panics x s)
    (hx : ∀ a s₁, ¬ Returns x s a s₁) :
    Panics (if c then x >>= k else y) s ↔ ¬ c ∧ Panics y s := by
  by_cases hc : c
  · simp [hc, panics_bind, hp, hx]
  · simp [hc]

end Rules

/-! ## Effective regions -/

section Effective

variable {kiLen kiKs kiKe B : Nat} {out out' rest : List MemoryRegion} {region r : MemoryRegion}
  {s s' : Machine}

theorem pushRegion_returns (h : Returns (pushRegion out region) s out' s') :
    out' = out ++ [region] ∧ s' = s := by
  unfold pushRegion at h
  split_ifs at h
  · obtain ⟨rfl, rfl⟩ := returns_pure.1 h
    exact ⟨rfl, rfl⟩
  · exact absurd h returns_abort

/-- The parts of a region around the rounded kernel image `[kiKs, kiKe)`. -/
def regionParts (kiLen kiKs kiKe : Nat) (region : MemoryRegion) : List MemoryRegion :=
  if region.kind = .usable ∧ kiLen ≠ 0 ∧ kiKs < region.end ∧ region.start < kiKe then
    (if region.start < kiKs then [⟨region.start, kiKs - region.start, .usable⟩] else []) ++
      if kiKe < region.end then [⟨kiKe, region.end - kiKe, .usable⟩] else []
  else [region]

theorem splitRegion_eq :
    (splitRegion kiLen kiKs kiKe out region : BootM (List MemoryRegion)) =
      (regionParts kiLen kiKs kiKe region).foldlM pushRegion out := by
  unfold splitRegion regionParts
  by_cases hkind : region.kind = .usable
  · by_cases hki : kiLen ≠ 0 ∧ kiKs < region.end ∧ region.start < kiKe
    · simp only [hkind, ne_eq, not_true_eq_false, if_false, true_and]
      rw [if_pos hki, if_pos hki, List.foldlM_append]
      split_ifs <;> simp
    · simp [hkind, hki]
  · simp [hkind]

theorem pushAll_returns {parts : List MemoryRegion}
    (h : Returns (parts.foldlM pushRegion out) s out' s') : out' = out ++ parts ∧ s' = s := by
  induction parts generalizing out s with
  | nil =>
      obtain ⟨rfl, rfl⟩ := returns_pure.1 h
      exact ⟨(List.append_nil out).symm, rfl⟩
  | cons r parts ih =>
      rw [List.foldlM_cons] at h
      obtain ⟨out₁, s₁, hpush, hrest⟩ := returns_bind.1 h
      obtain ⟨rfl, rfl⟩ := pushRegion_returns hpush
      obtain ⟨rfl, rfl⟩ := ih hrest
      exact ⟨by simp, rfl⟩

/-- A region contributes itself, or the parts of it around the kernel image. -/
theorem splitRegion_returns (h : Returns (splitRegion kiLen kiKs kiKe out region) s out' s') :
    out' = out ++ regionParts kiLen kiKs kiKe region ∧ s' = s := by
  rw [splitRegion_eq] at h
  exact pushAll_returns h

theorem end_lt (r : MemoryRegion) : r.end < 2 ^ 64 := Word.add_lt 64 r.start r.len

theorem part_end {a b : Nat} (hab : a ≤ b) (hb : b < 2 ^ 64) :
    (⟨a, b - a, .usable⟩ : MemoryRegion).end = b := by
  rw [MemoryRegion.end, Word.add_of_lt (by simp only; omega)]
  exact Nat.add_sub_cancel' hab

/-- The image reaches into a usable region. -/
def Reached (kiLen kiKs kiKe : Nat) (region : MemoryRegion) : Prop :=
  region.kind = .usable ∧ kiLen ≠ 0 ∧ kiKs < region.end ∧ region.start < kiKe

theorem regionParts_cases (h : r ∈ regionParts kiLen kiKs kiKe region) :
    r = region ∧ ¬ Reached kiLen kiKs kiKe region ∨
    Reached kiLen kiKs kiKe region ∧
      (region.start < kiKs ∧ r = ⟨region.start, kiKs - region.start, .usable⟩ ∨
        kiKe < region.end ∧ r = ⟨kiKe, region.end - kiKe, .usable⟩) := by
  unfold regionParts at h
  by_cases hki : region.kind = .usable ∧ kiLen ≠ 0 ∧ kiKs < region.end ∧ region.start < kiKe
  · rw [if_pos hki] at h
    refine Or.inr ⟨hki, ?_⟩
    rcases List.mem_append.1 h with hr | hr
    · split_ifs at hr with hlow
      · exact Or.inl ⟨hlow, List.mem_singleton.1 hr⟩
      · simp at hr
    · split_ifs at hr with hhigh
      · exact Or.inr ⟨hhigh, List.mem_singleton.1 hr⟩
      · simp at hr
  · rw [if_neg hki] at h
    exact Or.inl ⟨List.mem_singleton.1 h, hki⟩

theorem mem_regionParts (h : r ∈ regionParts kiLen kiKs kiKe region) :
    r = region ∧ ¬ (region.kind = .usable ∧ kiLen ≠ 0 ∧ kiKs < region.end ∧ region.start < kiKe) ∨
    region.kind = .usable ∧ kiLen ≠ 0 ∧ r.kind = .usable ∧
      (r.start = region.start ∧ r.end = kiKs ∧ region.start < kiKs ∧ kiKs < region.end ∨
        r.start = kiKe ∧ r.end = region.end ∧ region.start < kiKe ∧ kiKe < region.end) := by
  have hlt := end_lt region
  rcases regionParts_cases h with hself | ⟨⟨hu, hlen, hks, hke⟩, ⟨hlow, rfl⟩ | ⟨hhigh, rfl⟩⟩
  · exact Or.inl hself
  · exact Or.inr ⟨hu, hlen, rfl, Or.inl ⟨rfl, part_end hlow.le (hks.trans hlt), hlow, hks⟩⟩
  · exact Or.inr ⟨hu, hlen, rfl, Or.inr ⟨rfl, part_end hhigh.le hlt, hke, hhigh⟩⟩

theorem effectiveLoop_returns (h : Returns (effectiveLoop kiLen kiKs kiKe out rest) s out' s') :
    out' = out ++ rest.flatMap (regionParts kiLen kiKs kiKe) ∧ s' = s := by
  induction rest generalizing out s with
  | nil =>
      obtain ⟨rfl, rfl⟩ := returns_pure.1 h
      exact ⟨by simp, rfl⟩
  | cons region rest ih =>
      rw [effectiveLoop] at h
      obtain ⟨out₁, s₁, h₁, h₂⟩ := returns_bind.1 h
      obtain ⟨rfl, rfl⟩ := splitRegion_returns h₁
      split_ifs at h₂
      · exact absurd h₂ returns_throw
      · obtain ⟨rfl, rfl⟩ := ih h₂
        rw [List.flatMap_cons, List.append_assoc]
        exact ⟨rfl, rfl⟩

/-- The kernel image, rounded to frames. -/
def BootInfo.imageStart (boot : BootInfo) : Nat :=
  if boot.kernelImage.2 ≠ 0 then roundDown boot.kernelImage.1 frameSize else 0

def BootInfo.imageEnd (boot : BootInfo) : Nat :=
  if boot.kernelImage.2 ≠ 0 then
    roundUp (Word.add 64 boot.kernelImage.1 boot.kernelImage.2) frameSize
  else 0

/-- The list `build_effective` computes. -/
def BootInfo.effective (boot : BootInfo) : List MemoryRegion :=
  boot.regions.flatMap (regionParts boot.kernelImage.2 boot.imageStart boot.imageEnd)

theorem buildEffective_returns {boot : BootInfo} {regions : List MemoryRegion}
    (h : Returns (buildEffective boot) s regions s') : regions = boot.effective ∧ s' = s :=
  effectiveLoop_returns h

theorem effective_end_le {boot : BootInfo}
    (hend : ∀ r ∈ boot.regions, r.kind = .usable → r.end ≤ B) :
    ∀ r ∈ boot.effective, r.kind = .usable → r.end ≤ B := by
  intro r hr hu
  obtain ⟨region, hregion, hpart⟩ := List.mem_flatMap.1 hr
  rcases mem_regionParts hpart with ⟨rfl, -⟩ | ⟨hu', -, -, ⟨-, he, -, hlt⟩ | ⟨-, he, -⟩⟩
  · exact hend r hregion hu
  · rw [he]
    exact hlt.le.trans (hend region hregion hu')
  · rw [he]
    exact hend region hregion hu'

theorem maxUsableEnd_of {regions : List MemoryRegion} {P : Nat → Prop} (hzero : P 0)
    (h : ∀ r ∈ regions, r.kind = .usable → P r.end) : P (maxUsableEnd regions) := by
  have hfold : ∀ acc, P acc → P (regions.foldl
      (fun maxEnd r => if r.kind = .usable then max maxEnd r.end else maxEnd) acc) := by
    induction regions with
    | nil => exact fun acc hacc => hacc
    | cons r rest ih =>
        intro acc hacc
        refine ih (fun r' hr' => h r' (List.mem_cons_of_mem r hr')) _ ?_
        dsimp only
        split_ifs with husable
        · rcases max_choice acc r.end with hmax | hmax
          · rw [hmax]
            exact hacc
          · rw [hmax]
            exact h r List.mem_cons_self husable
        · exact hacc
  exact hfold 0 hzero

theorem le_maxUsableEnd {regions : List MemoryRegion} (hr : r ∈ regions) (hu : r.kind = .usable) :
    r.end ≤ maxUsableEnd regions := by
  have hfold : ∀ acc, acc ≤ regions.foldl
        (fun maxEnd r => if r.kind = .usable then max maxEnd r.end else maxEnd) acc ∧
      (r ∈ regions → r.end ≤ regions.foldl
        (fun maxEnd r => if r.kind = .usable then max maxEnd r.end else maxEnd) acc) := by
    clear hr
    induction regions with
    | nil => exact fun acc => ⟨le_rfl, by simp⟩
    | cons r' rest ih =>
        intro acc
        rw [List.foldl_cons]
        obtain ⟨hacc, hrest⟩ := ih (if r'.kind = .usable then max acc r'.end else acc)
        refine ⟨le_trans ?_ hacc, fun hr => ?_⟩
        · split_ifs
          · exact le_max_left _ _
          · exact le_rfl
        · rcases List.mem_cons.1 hr with rfl | hr
          · rw [if_pos hu] at hacc ⊢
            exact (le_max_right _ _).trans hacc
          · exact hrest hr
  exact (hfold 0).2 hr

end Effective

/-! ## The steps of `pmm_init` -/

/-- The parts of a run of the first half of `pmm_init` that returned `Ok`. -/
structure AreasRun (boot : BootInfo) (heapLen : Nat) (s : Machine) (regions : List MemoryRegion)
    (ftPhys heapEnd : Nat) (bootAlloc : BootAllocator) (s₁ s₂ s₃ s₄ : Machine) : Prop where
  heapAligned : heapLen % frameSize = 0
  physmap : Returns (setPhysmapBase boot.physmapBase) s () s₁
  aligned : ∀ r ∈ boot.regions, misaligned r = false
  effective : Returns (buildEffective boot) s₁ regions s₂
  nonempty : maxUsableEnd regions ≠ 0
  frameTable : (BootAllocator.new regions).alloc
    (ceilDiv (maxUsableEnd regions) frameSize * FrameInfo.size) frameSize = (some ftPhys, bootAlloc)
  table : Returns (do
    let ftVa ← physToVirt ftPhys
    initTableZeroed ftVa (ceilDiv (maxUsableEnd regions) frameSize)
      (ceilDiv (maxUsableEnd regions) frameSize * FrameInfo.size)) s₂ () s₃
  heap : Returns (carveHeap bootAlloc heapLen (Word.add 64 ftPhys
    (ceilDiv (maxUsableEnd regions) frameSize * FrameInfo.size))) s₃ heapEnd s₄

/-- The parts of a run of `pmm_init` that returned `Ok`. -/
structure InitRun (boot : BootInfo) (specs : List UntypedSpec) (outUntyped : List UntypedCap)
    (heapLen : Nat) (s : Machine) (info : PmInitOut) (caps : List UntypedCap) (s' : Machine)
    (regions : List MemoryRegion) (ftPhys heapEnd : Nat) (bootAlloc : BootAllocator)
    (s₁ s₂ s₃ s₄ s₅ s₆ : Machine) : Prop
    extends AreasRun boot heapLen s regions ftPhys heapEnd bootAlloc s₁ s₂ s₃ s₄ where
  fits : specs.length ≤ outUntyped.length
  mark : Returns (markRegions ftPhys heapEnd regions) s₄ () s₅
  carve : Returns (carveSpecs 0 specs outUntyped) s₅ caps s₆
  pool : s₆.buildGlobalFreelist = some (info.freeFrames, s')
  info : info = {
    totalFrames := ceilDiv (maxUsableEnd regions) frameSize
    freeFrames := info.freeFrames
    frameTableFrames := ceilDiv (maxUsableEnd regions) frameSize * FrameInfo.size / frameSize
    untypedCreated := specs.length
    heapPhys := if heapLen ≠ 0 then Word.sub 64 heapEnd heapLen else 0
    heapLen := heapLen
    ramEnd := maxUsableEnd regions }

section Parts

variable {boot : BootInfo} {specs : List UntypedSpec} {outUntyped caps : List UntypedCap}
  {heapLen ftPhys heapEnd : Nat} {s s' s₁ s₂ s₃ s₄ s₅ s₆ : Machine} {info : PmInitOut}
  {regions : List MemoryRegion} {bootAlloc : BootAllocator} {areas : BootAreas}

theorem bootAreas_returns (h : Returns (bootAreas boot heapLen) s areas s₄) :
    ∃ bootAlloc s₁ s₂ s₃, AreasRun boot heapLen s areas.regions areas.ftPhys areas.heapEnd bootAlloc
      s₁ s₂ s₃ s₄ := by
  unfold bootAreas at h
  obtain ⟨hheap, h⟩ := (returns_guard fun _ _ => returns_abort).1 h
  obtain ⟨⟨⟩, s₁, hphysmap, h⟩ := returns_bind.1 h
  obtain ⟨haligned, h⟩ := (returns_guard fun _ _ => returns_throw).1 h
  obtain ⟨regions, s₂, heffective, h⟩ := returns_bind.1 h
  obtain ⟨hnonempty, h⟩ := (returns_guard fun _ _ => returns_throw).1 h
  rcases halloc : (BootAllocator.new regions).alloc
    (ceilDiv (maxUsableEnd regions) frameSize * FrameInfo.size) frameSize with ⟨_ | ftPhys, bootAlloc⟩
  · simp only [halloc] at h
    exact absurd h returns_throw
  simp only [halloc] at h
  obtain ⟨ftVa, s₂', hva, h⟩ := returns_bind.1 h
  obtain ⟨⟨⟩, s₃, htable, h⟩ := returns_bind.1 h
  obtain ⟨heapEnd, s₄', hheapEnd, h⟩ := returns_bind.1 h
  obtain ⟨rfl, rfl⟩ := returns_pure.1 h
  exact ⟨bootAlloc, s₁, s₂, s₃, {
    heapAligned := not_not.1 hheap
    physmap := hphysmap
    aligned := by simpa using haligned
    effective := heffective
    nonempty := hnonempty
    frameTable := halloc
    table := returns_bind.2 ⟨ftVa, s₂', hva, htable⟩
    heap := hheapEnd }⟩

theorem AreasRun.returns
    (h : AreasRun boot heapLen s regions ftPhys heapEnd bootAlloc s₁ s₂ s₃ s₄) :
    Returns (bootAreas boot heapLen) s ⟨regions, ftPhys, heapEnd⟩ s₄ := by
  unfold bootAreas
  refine (returns_guard fun _ _ => returns_abort).2 ⟨not_not.2 h.heapAligned, ?_⟩
  refine returns_bind.2 ⟨(), s₁, h.physmap, ?_⟩
  refine (returns_guard fun _ _ => returns_throw).2 ⟨by simpa using h.aligned, ?_⟩
  refine returns_bind.2 ⟨regions, s₂, h.effective, ?_⟩
  refine (returns_guard fun _ _ => returns_throw).2 ⟨h.nonempty, ?_⟩
  simp only [h.frameTable]
  obtain ⟨ftVa, s₂', hva, htable⟩ := returns_bind.1 h.table
  refine returns_bind.2 ⟨ftVa, s₂', hva, ?_⟩
  refine returns_bind.2 ⟨(), s₃, htable, ?_⟩
  exact returns_bind.2 ⟨heapEnd, s₄, h.heap, returns_pure.2 ⟨rfl, rfl⟩⟩

/-- **Taking `pmm_init` apart.** -/
theorem pmmInit_returns (h : Returns (pmmInit boot specs outUntyped heapLen) s (info, caps) s') :
    ∃ regions ftPhys heapEnd bootAlloc s₁ s₂ s₃ s₄ s₅ s₆,
      InitRun boot specs outUntyped heapLen s info caps s' regions ftPhys heapEnd bootAlloc
        s₁ s₂ s₃ s₄ s₅ s₆ := by
  unfold pmmInit at h
  obtain ⟨hfits, h⟩ := (returns_guard fun _ _ => returns_throw).1 h
  obtain ⟨⟨regions, ftPhys, heapEnd⟩, s₄, hareas, h⟩ := returns_bind.1 h
  obtain ⟨bootAlloc, s₁, s₂, s₃, hareas⟩ := bootAreas_returns hareas
  obtain ⟨⟨⟩, s₅, hmark, h⟩ := returns_bind.1 h
  obtain ⟨out, s₆, hcarve, h⟩ := returns_bind.1 h
  obtain ⟨free, s₇, hpool, h⟩ := returns_bind.1 h
  obtain ⟨hout, rfl⟩ := returns_pure.1 h
  obtain ⟨rfl, rfl⟩ := Prod.mk.inj hout
  exact ⟨regions, ftPhys, heapEnd, bootAlloc, s₁, s₂, s₃, s₄, s₅, s₆, {
    toAreasRun := hareas
    fits := not_lt.1 hfits
    mark := hmark
    carve := hcarve
    pool := returns_orAbort.1 hpool
    info := rfl }⟩

theorem AreasRun.init {count : Nat}
    (h : AreasRun boot heapLen s regions ftPhys heapEnd bootAlloc s₁ s₂ s₃ s₄)
    (hfits : specs.length ≤ outUntyped.length)
    (hmark : Returns (markRegions ftPhys heapEnd regions) s₄ () s₅)
    (hcarve : Returns (carveSpecs 0 specs outUntyped) s₅ caps s₆)
    (hpool : s₆.buildGlobalFreelist = some (count, s')) :
    InitRun boot specs outUntyped heapLen s {
      totalFrames := ceilDiv (maxUsableEnd regions) frameSize
      freeFrames := count
      frameTableFrames := ceilDiv (maxUsableEnd regions) frameSize * FrameInfo.size / frameSize
      untypedCreated := specs.length
      heapPhys := if heapLen ≠ 0 then Word.sub 64 heapEnd heapLen else 0
      heapLen := heapLen
      ramEnd := maxUsableEnd regions } caps s' regions ftPhys heapEnd bootAlloc s₁ s₂ s₃ s₄ s₅ s₆ :=
  { h with fits := hfits, mark := hmark, carve := hcarve, pool := hpool, info := rfl }

/-- **Putting `pmm_init` together** from its parts. -/
theorem InitRun.returns (h : InitRun boot specs outUntyped heapLen s info caps s' regions ftPhys
      heapEnd bootAlloc s₁ s₂ s₃ s₄ s₅ s₆) :
    Returns (pmmInit boot specs outUntyped heapLen) s (info, caps) s' := by
  unfold pmmInit
  refine (returns_guard fun _ _ => returns_throw).2 ⟨not_lt.2 h.fits, ?_⟩
  refine returns_bind.2 ⟨_, s₄, h.toAreasRun.returns, ?_⟩
  refine returns_bind.2 ⟨(), s₅, h.mark, ?_⟩
  refine returns_bind.2 ⟨caps, s₆, h.carve, ?_⟩
  refine returns_bind.2 ⟨info.freeFrames, s', returns_orAbort.2 h.pool, ?_⟩
  exact returns_pure.2 ⟨by rw [← h.info], rfl⟩

end Parts

/-! ## Between the frame table and the pool -/

/-- `P` survives every change of owner that `pmm_init` makes. -/
def SurvivesOwners (P : Machine → Prop) : Prop :=
  ∀ (s : Machine) (f : Nat) (o : FrameOwner), (o = .free ∨ ∃ id, o = .untyped id) → P s →
    P (s.setInfo f ((s.frames f).withOwner o))

namespace SurvivesOwners

variable {P : Machine → Prop} {s s' : Machine}

/-- A checked owner transition, as the loops of `pmm_init` make it. -/
theorem claimFrame (hP : SurvivesOwners P) (h : P s) {f : Nat} {expected o : FrameOwner} {e : String}
    (ho : o = .free ∨ ∃ id, o = .untyped id)
    (hx : Returns (claimFrame f expected o e) s () s') : P s' := by
  obtain ⟨ok, s₁, hset, hok⟩ := returns_bind.1 hx
  obtain ⟨-, -, ⟨rfl, -, rfl⟩ | ⟨rfl, -, rfl⟩⟩ :=
    Machine.trySetOwner_eq_some.1 (returns_orAbort.1 hset)
  · obtain ⟨-, rfl⟩ := returns_pure.1 hok
    exact hP s f o ho h
  · exact absurd hok returns_throw

theorem markFrame (hP : SurvivesOwners P) {ftPhys heapEnd idx : Nat} (h : P s)
    (hx : Returns (markFrame ftPhys heapEnd idx) s () s') : P s' := by
  unfold Rolnix.markFrame at hx
  dsimp only at hx
  split_ifs at hx
  · obtain ⟨-, rfl⟩ := returns_pure.1 hx
    exact h
  · obtain ⟨-, rfl⟩ := returns_pure.1 hx
    exact h
  · exact hP.claimFrame h (Or.inl rfl) hx

theorem markFrames (hP : SurvivesOwners P) {ftPhys heapEnd first n : Nat} (h : P s)
    (hx : Returns (markFrames ftPhys heapEnd first n) s () s') : P s' := by
  induction n generalizing s' with
  | zero =>
      obtain ⟨-, rfl⟩ := returns_pure.1 hx
      exact h
  | succ n ih =>
      obtain ⟨⟨⟩, s₁, h₁, h₂⟩ := returns_bind.1 hx
      exact hP.markFrame (ih h₁) h₂

theorem markRegions (hP : SurvivesOwners P) {ftPhys heapEnd : Nat} {regions : List MemoryRegion}
    (h : P s) (hx : Returns (markRegions ftPhys heapEnd regions) s () s') : P s' := by
  induction regions generalizing s with
  | nil =>
      obtain ⟨-, rfl⟩ := returns_pure.1 hx
      exact h
  | cons region rest ih =>
      obtain ⟨⟨⟩, s₁, h₁, h₂⟩ := returns_bind.1 hx
      refine ih ?_ h₂
      unfold markRegion at h₁
      split_ifs at h₁
      · obtain ⟨-, rfl⟩ := returns_pure.1 h₁
        exact h
      · exact hP.markFrames h h₁

theorem carveFrames (hP : SurvivesOwners P) {id : UntypedId} {baseFrame n : Nat} (h : P s)
    (hx : Returns (carveFrames id baseFrame n) s () s') : P s' := by
  induction n generalizing s' with
  | zero =>
      obtain ⟨-, rfl⟩ := returns_pure.1 hx
      exact h
  | succ n ih =>
      obtain ⟨⟨⟩, s₁, h₁, h₂⟩ := returns_bind.1 hx
      exact hP.claimFrame (ih h₁) (Or.inr ⟨id, rfl⟩) h₂

theorem carveUntypedRegion (hP : SurvivesOwners P) {spec : UntypedSpec} {id : UntypedId}
    {cap : UntypedCap} (h : P s) (hx : Returns (carveUntypedRegion spec id) s cap s') : P s' := by
  unfold Rolnix.carveUntypedRegion at hx
  obtain ⟨-, hx⟩ := (returns_guard fun _ _ => returns_throw).1 hx
  obtain ⟨-, hx⟩ := (returns_guard fun _ _ => returns_throw).1 hx
  obtain ⟨⟨⟩, s₁, h₁, h₂⟩ := returns_bind.1 hx
  obtain ⟨-, rfl⟩ := returns_pure.1 h₂
  exact hP.carveFrames h h₁

theorem carveSpecs (hP : SurvivesOwners P) {i : Nat} {specs : List UntypedSpec}
    {out caps : List UntypedCap} (h : P s) (hx : Returns (carveSpecs i specs out) s caps s') :
    P s' := by
  induction specs generalizing i out s with
  | nil =>
      obtain ⟨-, rfl⟩ := returns_pure.1 hx
      exact h
  | cons spec specs ih =>
      obtain ⟨cap, s₁, h₁, h₂⟩ := returns_bind.1 hx
      exact ih (hP.carveUntypedRegion h h₁) h₂

end SurvivesOwners

/-- The machine while `pmm_init` assigns owners: `total` frames, none of them used, no lists. -/
structure Booting (total : Nat) (s : Machine) : Prop where
  table : s.tableBase ≠ 0
  numFrames : s.numFrames = total
  shards : ∀ i, s.shards i = Shard.empty
  global : s.global = Shard.empty
  pinned : ∀ f, (s.frames f).pinned = 0
  mappings : ∀ f, (s.frames f).mappings = 0
  owner : ∀ f, (s.frames f).owner = .reserved ∨ (s.frames f).owner = .free ∨
    ∃ id, (s.frames f).owner = .untyped id

theorem eq_free_of_tag {o : FrameOwner} (h : o = .reserved ∨ o = .free ∨ ∃ id, o = .untyped id)
    (htag : o.tag = .free) : o = .free := by
  obtain rfl | rfl | ⟨id, rfl⟩ := h
  · exact absurd htag (by decide)
  · rfl
  · exact absurd htag (by simp [FrameOwner.untyped])

theorem survivesOwners_booting {total : Nat} : SurvivesOwners (Booting total) := by
  intro s f o ho h
  exact {
    table := h.table
    numFrames := h.numFrames
    shards := h.shards
    global := h.global
    pinned g := by
      rcases eq_or_ne g f with rfl | hg
      · simpa using h.pinned g
      · simpa [hg] using h.pinned g
    mappings g := by
      rcases eq_or_ne g f with rfl | hg
      · simpa using h.mappings g
      · simpa [hg] using h.mappings g
    owner g := by
      rcases eq_or_ne g f with rfl | hg
      · rw [Machine.setInfo_frames, Function.update_self]
        exact Or.inr ho
      · simpa [hg] using h.owner g }

/-- No frame was ever released. -/
def Unreleased (s : Machine) : Prop := ∀ f, (s.frames f).gen = 0

theorem survivesOwners_unreleased : SurvivesOwners Unreleased := by
  intro s f o _ h g
  rcases eq_or_ne g f with rfl | hg
  · simpa using h g
  · simpa [hg] using h g

theorem physToVirt_returns {phys va : Nat} {s s' : Machine}
    (h : Returns (physToVirt phys) s va s') : va = Word.add 64 s.physmapBase phys ∧ s' = s := by
  obtain ⟨b, s₁, hb, h⟩ := returns_bind.1 h
  obtain ⟨rfl, rfl⟩ := returns_pure.1 h
  obtain ⟨s₂, s₃, hget, hb⟩ := returns_bind.1 hb
  obtain ⟨rfl, rfl⟩ := returns_get.1 hget
  dsimp only at hb
  split_ifs at hb
  · obtain ⟨rfl, rfl⟩ := returns_pure.1 hb
    exact ⟨rfl, rfl⟩
  · exact absurd hb returns_abort

theorem carveHeap_returns {bootAlloc : BootAllocator} {heapLen ftEnd heapEnd : Nat}
    {s s' : Machine} (h : Returns (carveHeap bootAlloc heapLen ftEnd) s heapEnd s') :
    (∃ mem, s' = { s with mem := mem }) ∧
      (heapLen = 0 ∧ heapEnd = ftEnd ∨ heapLen ≠ 0 ∧ ∃ hp bootAlloc',
        bootAlloc.alloc heapLen frameSize = (some hp, bootAlloc') ∧
          heapEnd = Word.add 64 hp heapLen) := by
  unfold carveHeap at h
  split_ifs at h with hlen
  · rcases halloc : bootAlloc.alloc heapLen frameSize with ⟨_ | hp, bootAlloc'⟩
    · simp only [halloc] at h
      exact absurd h returns_throw
    simp only [halloc] at h
    obtain ⟨hv, s₁, hva, h₁⟩ := returns_bind.1 h
    obtain ⟨-, rfl⟩ := physToVirt_returns hva
    obtain ⟨⟨⟩, s₂, hzero, h₂⟩ := returns_bind.1 h₁
    obtain rfl := returns_modify.1 hzero
    obtain ⟨rfl, rfl⟩ := returns_pure.1 h₂
    exact ⟨⟨_, rfl⟩, Or.inr ⟨hlen, hp, bootAlloc', rfl, rfl⟩⟩
  · obtain ⟨rfl, rfl⟩ := returns_pure.1 h
    exact ⟨⟨s.mem, rfl⟩, Or.inl ⟨not_not.1 hlen, rfl⟩⟩

theorem initTableZeroed_returns {baseVa total bytes : Nat} {s s' : Machine}
    (h : Returns (initTableZeroed baseVa total bytes) s () s') :
    baseVa ≠ 0 ∧ s.tableBase = 0 ∧ s' = s.setTable baseVa total bytes := by
  unfold initTableZeroed at h
  obtain ⟨hbase, h⟩ := (returns_guard fun _ _ => returns_abort).1 h
  obtain ⟨s₁, s₂, hget, h⟩ := returns_bind.1 h
  obtain ⟨rfl, rfl⟩ := returns_get.1 hget
  obtain ⟨hunset, h⟩ := (returns_guard fun _ _ => returns_throw).1 h
  exact ⟨hbase, not_not.1 hunset, (returns_modify.1 h).symm⟩

/-! ## The scan -/

namespace Machine

variable {s s' : Machine} {n : Nat}

/-- The frames below `n` that are free, in order. -/
def freeBelow (s : Machine) (n : Nat) : List Nat :=
  (List.range n).filter fun f => (s.frames f).isFree

theorem freeBelow_succ (s : Machine) (n : Nat) :
    s.freeBelow (n + 1) = s.freeBelow n ++ if (s.frames n).isFree then [n] else [] := by
  rw [freeBelow, List.range_succ, List.filter_append]
  by_cases hfree : (s.frames n).isFree
  · simp [freeBelow, hfree]
  · simp [freeBelow, hfree]

theorem mem_freeBelow {f : Nat} :
    f ∈ s.freeBelow n ↔ f < n ∧ (s.frames f).isFree = true := by
  simp [freeBelow]

theorem length_freeBelow_le : (s.freeBelow n).length ≤ n := by
  simpa [freeBelow] using List.length_filter_le (fun f => (s.frames f).isFree) (List.range n)

/-- The scan has linked the frames `l`, except that the last one's next word is still to be
written. -/
structure Scanned (s : Machine) (l : List Nat) (sc : Scan Machine) : Prop where
  state : ∃ mem, sc.s = { s with mem := mem }
  count : sc.count = l.length
  links : l = [] ∧ sc.head = listEnd ∧ sc.prev = listEnd ∨
    ∃ init, l = init ++ [sc.prev] ∧ sc.prev ∉ init ∧
      Linked.Seg sc.s.listNext sc.head l (sc.s.listNext sc.prev)

theorem Scanned.seg_setListNext {l : List Nat} {sc : Scan Machine} (h : Scanned s l sc) (hl : l ≠ [])
    {m : Nat} (hm : m < 2 ^ 32) :
    Linked.Seg (sc.s.setListNext sc.prev m).listNext sc.head l m := by
  obtain ⟨rfl, -⟩ | ⟨init, rfl, hinit, hseg⟩ := h.links
  · exact absurd rfl hl
  · rw [listNext_setListNext, Nat.mod_eq_of_lt hm]
    exact hseg.redirect hinit m

theorem Scanned.head_eq {l : List Nat} {sc : Scan Machine} (h : Scanned s l sc)
    (hl : listEnd ∉ l) : sc.head = listEnd ↔ l = [] := by
  obtain ⟨rfl, hhead, -⟩ | ⟨init, hl', -, hseg⟩ := h.links
  · simp [hhead]
  · cases l with
    | nil => simp at hl'
    | cons f l =>
        have hne : listEnd ≠ f := fun he => hl (he ▸ List.mem_cons_self)
        simpa [hseg.1] using hne.symm

theorem Scanned.link {l : List Nat} {sc : Scan Machine} (h : Scanned s l sc) {i : Nat}
    (hl : ∀ f ∈ l, f < i) (hi : i < listEnd) :
    Scanned s (l ++ [i]) (if sc.head = listEnd then ⟨i, i, sc.count + 1, sc.s⟩
      else ⟨sc.head, i, sc.count + 1, sc.s.setListNext sc.prev i⟩) := by
  obtain ⟨mem, hs⟩ := h.state
  have hhead := h.head_eq fun hmem => absurd (hl listEnd hmem) (by omega)
  have hcount := h.count
  by_cases hnil : l = []
  · rw [if_pos (hhead.2 hnil)]
    subst hnil
    exact {
      state := ⟨mem, hs⟩
      count := by simpa using hcount
      links := Or.inr ⟨[], rfl, by simp, rfl, rfl⟩ }
  · rw [if_neg fun he => hnil (hhead.1 he)]
    have hseg := h.seg_setListNext hnil (m := i) (by simp only [listEnd] at hi; omega)
    exact {
      state := ⟨_, by rw [hs]; rfl⟩
      count := by simpa using hcount
      links := Or.inr ⟨l, rfl, fun hmem => absurd (hl i hmem) (by omega),
        Linked.seg_append.2 ⟨i, hseg, rfl, rfl⟩⟩ }

/-- **The scan links every free frame it passes.** -/
theorem scanFree_spec (hb : s.tableBase ≠ 0) (hbound : n ≤ listEnd)
    (hn : n ≤ s.numFrames) : ∃ sc, s.scanFree n = some sc ∧ Scanned s (s.freeBelow n) sc := by
  induction n with
  | zero => exact ⟨_, rfl, ⟨s.mem, rfl⟩, rfl, Or.inl ⟨rfl, rfl, rfl⟩⟩
  | succ idx ih =>
      obtain ⟨sc, hsc, hscanned⟩ := ih (by omega) (by omega)
      obtain ⟨mem, hs⟩ := hscanned.state
      have hinfo : sc.s.frameInfo idx = some (s.frames idx) := by
        rw [hs]
        exact frameInfo_of_lt (s := { s with mem := mem }) hb (by simp only; omega)
      simp only [PoolMem.scanFree, isFree_eq, PoolMem.setListNext, hsc, hinfo, Option.map_some,
        Option.bind_eq_bind, Option.bind_some, Option.pure_def, freeBelow_succ]
      by_cases hfree : (s.frames idx).isFree = true
      · have hlink := hscanned.link (i := idx) (fun f hf => (mem_freeBelow.1 hf).1) (by omega)
        simp only [if_pos hfree]
        rw [← apply_ite some]
        exact ⟨_, rfl, hlink⟩
      · simp only [if_neg hfree, List.append_nil]
        exact ⟨sc, rfl, hscanned⟩

theorem Scanned.closed {l : List Nat} {sc : Scan Machine} (h : Scanned s l sc) (hl : listEnd ∉ l) :
    Linked.Chain (PoolMem.closeScan sc).listNext listEnd sc.head l ∧
      ∃ mem, (PoolMem.closeScan sc) = { s with mem := mem } := by
  obtain ⟨mem, hs⟩ := h.state
  unfold PoolMem.closeScan
  by_cases hnil : l = []
  · obtain ⟨-, hhead, hprev⟩ | ⟨init, rfl, -⟩ := h.links
    · rw [if_neg (not_not.2 hprev), hhead, hnil]
      exact ⟨Linked.chain_nil, mem, hs⟩
    · simp at hnil
  · have hprev : sc.prev ∈ l := by
      obtain ⟨rfl, -⟩ | ⟨init, rfl, -⟩ := h.links
      · exact absurd rfl hnil
      · simp
    rw [if_pos fun he : sc.prev = listEnd => hl (he ▸ hprev)]
    exact ⟨⟨h.seg_setListNext hnil (by decide), hl⟩, _, by rw [hs]; rfl⟩

/-- Building the pool writes memory and the global list only, whatever the number of frames. -/
theorem scanFree_state {sc : Scan Machine} (h : s.scanFree n = some sc) :
    ∃ mem, sc.s = { s with mem := mem } := by
  induction n generalizing sc with
  | zero =>
      obtain rfl := Option.some.inj h
      exact ⟨s.mem, rfl⟩
  | succ idx ih =>
      obtain ⟨sc', hsc', h⟩ := Option.bind_eq_some_iff.1 h
      obtain ⟨mem, hs⟩ := ih hsc'
      obtain ⟨info, -, h⟩ := Option.bind_eq_some_iff.1 h
      split_ifs at h
      · obtain rfl := Option.some.inj h
        exact ⟨mem, hs⟩
      · obtain rfl := Option.some.inj h
        exact ⟨_, by rw [hs]; rfl⟩
      · obtain rfl := Option.some.inj h
        exact ⟨mem, hs⟩

theorem buildGlobalFreelist_state {count : Nat}
    (h : s.buildGlobalFreelist = some (count, s')) :
    ∃ mem, s' = { s with mem := mem, global := s'.global } := by
  obtain ⟨sc, hsc, h⟩ := Option.bind_eq_some_iff.1 h
  obtain ⟨mem, hs⟩ := scanFree_state hsc
  obtain ⟨mem', hclosed⟩ : ∃ mem,
      PoolMem.closeScan sc = { s with mem := mem } := by
    unfold PoolMem.closeScan
    rw [hs]
    split_ifs
    · exact ⟨_, rfl⟩
    · exact ⟨mem, rfl⟩
  dsimp only [PoolMem.global, PoolMem.setGlobal] at h
  rw [hclosed] at h
  split_ifs at h
  obtain ⟨-, rfl⟩ := Prod.mk.inj (Option.some.inj h)
  exact ⟨mem', rfl⟩

theorem buildGlobalFreelist_frames {count : Nat}
    (h : s.buildGlobalFreelist = some (count, s')) : s'.frames = s.frames := by
  obtain ⟨mem, hs⟩ := buildGlobalFreelist_state h
  rw [hs]

/-- The number of frames that are scanned for the pool: cut to 32 bits. -/
def scanned (s : Machine) : Nat := s.totalFrames % 2 ^ 32

theorem scanned_le (s : Machine) : s.scanned ≤ s.numFrames := Nat.mod_le _ _

theorem scanned_le_listEnd (s : Machine) : s.scanned ≤ listEnd :=
  Nat.le_of_lt_succ (Nat.mod_lt s.totalFrames (Nat.two_pow_pos 32))

theorem scanned_eq (hbound : s.numFrames ≤ listEnd) : s.scanned = s.numFrames :=
  Nat.mod_eq_of_lt (Nat.lt_succ_of_le hbound)

/-- **The pool.** Every free frame that is scanned is on the global list, in order. -/
theorem buildGlobalFreelist_scan (hb : s.tableBase ≠ 0) {count : Nat}
    (hbuild : s.buildGlobalFreelist = some (count, s')) :
    count = (s.freeBelow s.scanned).length ∧
      (∃ mem, s' = { s with mem := mem, global := s'.global }) ∧ s'.global.count = count ∧
      Linked.Chain s'.listNext listEnd s'.global.head (s.freeBelow s.scanned) := by
  have hbound := s.scanned_le_listEnd
  obtain ⟨sc, hsc, hscanned⟩ := scanFree_spec hb hbound s.scanned_le
  obtain ⟨hchain, mem, hclosed⟩ := hscanned.closed
    fun hmem => absurd (mem_freeBelow.1 hmem).1 (by omega)
  have hlen := length_freeBelow_le (s := s) (n := s.scanned)
  have hcount := hscanned.count
  simp only [listEnd] at hbound
  rw [scanned] at hsc
  simp only [PoolMem.buildGlobalFreelist, PoolMem.global, PoolMem.setGlobal, hsc,
    Option.bind_eq_bind, Option.bind_some, Option.pure_def] at hbuild
  split_ifs at hbuild
  simp only [Option.some.injEq, Prod.mk.injEq] at hbuild
  obtain ⟨rfl, rfl⟩ := hbuild
  refine ⟨hcount, ⟨mem, by rw [hclosed]⟩, Nat.mod_eq_of_lt (by omega), hchain⟩

/-- With less than 16 TiB that is every free frame. -/
theorem buildGlobalFreelist_spec (hb : s.tableBase ≠ 0) (hbound : s.numFrames ≤ listEnd)
    {count : Nat} (hbuild : s.buildGlobalFreelist = some (count, s')) :
    count = (s.freeBelow s.numFrames).length ∧
      (∃ mem, s' = { s with mem := mem, global := s'.global }) ∧ s'.global.count = count ∧
      Linked.Chain s'.listNext listEnd s'.global.head (s.freeBelow s.numFrames) := by
  have hscan := buildGlobalFreelist_scan hb hbuild
  rwa [scanned_eq hbound] at hscan

theorem buildGlobalFreelist_total (hbase : s.tableBase ≠ 0) (hglobal : s.global = Shard.empty) :
    ∃ count s', s.buildGlobalFreelist = some (count, s') := by
  have hbound := s.scanned_le_listEnd
  obtain ⟨sc, hsc, hscanned⟩ := scanFree_spec hbase hbound s.scanned_le
  obtain ⟨-, mem, hclosed⟩ := hscanned.closed
    fun hmem => absurd (mem_freeBelow.1 hmem).1 (by omega)
  have hempty : (PoolMem.closeScan sc).global.isEmpty = true := by
    rw [hclosed, hglobal]
    rfl
  rw [scanned] at hsc
  simp only [PoolMem.buildGlobalFreelist, PoolMem.global, hsc,
    Option.bind_eq_bind, Option.bind_some]
  rw [if_pos hempty]
  exact ⟨_, _, rfl⟩

/-- The machine as the scan saw it. -/
def cut (s : Machine) : Machine := { s with numFrames := s.scanned }

theorem cut_eq (hbound : s.numFrames ≤ listEnd) : s.cut = s := by
  rw [cut, scanned_eq hbound]

theorem coherent_of_pool (h : Booting s.numFrames s) {count : Nat}
    (hbuild : s.buildGlobalFreelist = some (count, s')) :
    Coherent s'.cut (fun _ => []) (s.freeBelow s.scanned) := by
  obtain ⟨rfl, ⟨mem, hs⟩, hcount, hchain⟩ := buildGlobalFreelist_scan h.table hbuild
  have htag : ∀ f, (s.frames f).owner.tag = .free → (s.frames f).owner = .free :=
    fun f => eq_free_of_tag (h.owner f)
  have hfree : ∀ f, (s.frames f).isFree = true ↔ (s.frames f).owner = .free :=
    fun f => ⟨fun hf => htag f (isFree_iff.1 hf), fun hf => isFree_iff.2 (by rw [hf]; rfl)⟩
  have hshards : s'.shards = fun _ => Shard.empty := by
    rw [hs]
    exact funext h.shards
  have hframes : s'.cut.frames = s.frames := show s'.frames = s.frames by rw [hs]
  have hnum : s'.cut.numFrames = s.scanned := by
    rw [cut, scanned, totalFrames, hs]
    rfl
  refine {
    table := show s'.tableBase ≠ 0 by rw [hs]; exact h.table
    bound := by rw [hnum]; exact s.scanned_le_listEnd
    shardChain := fun i _ => show Linked.Chain s'.listNext listEnd (s'.shards i).head [] by
      rw [hshards]
      exact Linked.chain_nil
    globalChain := hchain
    shardLength := fun i _ => show (s'.shards i).count = 0 by rw [hshards]; rfl
    globalLength := hcount
    occ := fun f => ?_
    tag := by rw [hframes]; exact htag }
  rw [hframes, hnum]
  have hnodup : (s.freeBelow s.scanned).Nodup := hchain.nodup
  by_cases hf : f < s.scanned ∧ (s.frames f).owner = .free
  · rw [if_pos hf]
    simpa [occ] using List.count_eq_one_of_mem hnodup
      (mem_freeBelow.2 ⟨hf.1, (hfree f).2 hf.2⟩)
  · rw [if_neg hf]
    simpa [occ] using List.count_eq_zero_of_not_mem
      fun hmem => hf ⟨(mem_freeBelow.1 hmem).1, (hfree f).1 (mem_freeBelow.1 hmem).2⟩

end Machine

/-! ## After `pmm_init` -/

/-- Every usable region of the map ends below the 16 TiB that `u32` frame indices can name. -/
def BootInfo.Below16TiB (boot : BootInfo) : Prop :=
  ∀ r ∈ boot.regions, r.kind = .usable → r.end < 2 ^ 44

instance (boot : BootInfo) : Decidable boot.Below16TiB :=
  inferInstanceAs (Decidable (∀ r ∈ boot.regions, r.kind = .usable → r.end < 2 ^ 44))

/-- No frame is in use. -/
structure Idle (s : Machine) : Prop where
  pinned : ∀ f, (s.frames f).pinned = 0
  mappings : ∀ f, (s.frames f).mappings = 0
  owner : ∀ f, (s.frames f).owner = .reserved ∨ (s.frames f).owner = .free ∨
    ∃ id, (s.frames f).owner = .untyped id

theorem mod_frameSize_end {r : MemoryRegion} (h : misaligned r = false) (hu : r.kind = .usable) :
    r.end % frameSize = 0 := by
  simp only [misaligned, hu, true_and, decide_eq_false_iff_not, not_or, not_not] at h
  simp only [MemoryRegion.end, Word.add, frameSize] at h ⊢
  omega

theorem setPhysmapBase_returns {base : Nat} {s s' : Machine}
    (h : Returns (setPhysmapBase base) s () s') : s' = { s with physmapBase := base } := by
  obtain ⟨s₁, s₂, hget, h⟩ := returns_bind.1 h
  obtain ⟨rfl, rfl⟩ := returns_get.1 hget
  obtain ⟨⟨⟩, s₃, hset, h⟩ := returns_bind.1 h
  obtain rfl := returns_modify.1 hset
  split_ifs at h
  · exact (returns_pure.1 h).2.symm
  · exact absurd h returns_abort

section Booted

variable {boot : BootInfo} {specs : List UntypedSpec} {outUntyped caps : List UntypedCap}
  {heapLen ftPhys heapEnd : Nat} {mem : ByteMem} {info : PmInitOut}
  {s' s₁ s₂ s₃ s₄ s₅ s₆ : Machine} {regions : List MemoryRegion} {bootAlloc : BootAllocator}

theorem unmarked_of_areas
    (hphysmap : Returns (setPhysmapBase boot.physmapBase) (Machine.reset mem) () s₁)
    (heffective : Returns (buildEffective boot) s₁ regions s₂)
    (htable : Returns (do
      let ftVa ← physToVirt ftPhys
      initTableZeroed ftVa (ceilDiv (maxUsableEnd regions) frameSize)
        (ceilDiv (maxUsableEnd regions) frameSize * FrameInfo.size)) s₂ () s₃)
    (hheap : Returns (carveHeap bootAlloc heapLen (Word.add 64 ftPhys
      (ceilDiv (maxUsableEnd regions) frameSize * FrameInfo.size))) s₃ heapEnd s₄) :
    s₄.frames = (fun _ => .zeroed) ∧ s₄.numFrames = ceilDiv (maxUsableEnd regions) frameSize ∧
      s₄.tableBase = Word.add 64 boot.physmapBase ftPhys ∧ s₄.tableBase ≠ 0 ∧
      s₄.physmapBase = boot.physmapBase ∧ s₄.shards = (Machine.reset mem).shards ∧
      s₄.global = (Machine.reset mem).global := by
  obtain rfl := setPhysmapBase_returns hphysmap
  obtain ⟨-, rfl⟩ := buildEffective_returns heffective
  obtain ⟨ftVa, s', hva, htable⟩ := returns_bind.1 htable
  obtain ⟨rfl, rfl⟩ := physToVirt_returns hva
  obtain ⟨hbase, -, rfl⟩ := initTableZeroed_returns htable
  obtain ⟨⟨mem'', rfl⟩, -⟩ := carveHeap_returns hheap
  exact ⟨rfl, rfl, rfl, hbase, rfl, rfl, rfl⟩

theorem InitRun.unmarked
    (h : InitRun boot specs outUntyped heapLen (Machine.reset mem) info caps s' regions ftPhys
      heapEnd bootAlloc s₁ s₂ s₃ s₄ s₅ s₆) :
    s₄.frames = (fun _ => .zeroed) ∧ s₄.numFrames = ceilDiv (maxUsableEnd regions) frameSize ∧
      s₄.tableBase = Word.add 64 boot.physmapBase ftPhys ∧ s₄.tableBase ≠ 0 ∧
      s₄.physmapBase = boot.physmapBase ∧ s₄.shards = (Machine.reset mem).shards ∧
      s₄.global = (Machine.reset mem).global :=
  unmarked_of_areas h.physmap h.effective h.table h.heap

/-- What holds before the frames are marked and survives every change of owner. -/
theorem InitRun.survives {P : Machine → Prop} (hP : SurvivesOwners P)
    (h : InitRun boot specs outUntyped heapLen (Machine.reset mem) info caps s' regions ftPhys
      heapEnd bootAlloc s₁ s₂ s₃ s₄ s₅ s₆) (h₄ : P s₄) : P s₆ :=
  hP.carveSpecs (hP.markRegions h₄ h.mark) h.carve

theorem AreasRun.booting
    (h : AreasRun boot heapLen (Machine.reset mem) regions ftPhys heapEnd bootAlloc s₁ s₂ s₃ s₄) :
    Booting (ceilDiv (maxUsableEnd regions) frameSize) s₄ := by
  obtain ⟨hframes, hnum, -, hbase, -, hshards, hglobal⟩ :=
    unmarked_of_areas h.physmap h.effective h.table h.heap
  exact {
    table := hbase
    numFrames := hnum
    shards := fun _ => by rw [hshards]; rfl
    global := by rw [hglobal]; rfl
    pinned := fun _ => by rw [hframes]; rfl
    mappings := fun _ => by rw [hframes]; rfl
    owner := fun _ => Or.inl (by rw [hframes]; rfl) }

theorem InitRun.booting
    (h : InitRun boot specs outUntyped heapLen (Machine.reset mem) info caps s' regions ftPhys
      heapEnd bootAlloc s₁ s₂ s₃ s₄ s₅ s₆) :
    Booting (ceilDiv (maxUsableEnd regions) frameSize) s₆ :=
  h.survives survivesOwners_booting h.toAreasRun.booting

/-- Below 16 TiB no frame index is the sentinel. -/
theorem InitRun.total_le {s : Machine}
    (h : InitRun boot specs outUntyped heapLen s info caps s' regions ftPhys
      heapEnd bootAlloc s₁ s₂ s₃ s₄ s₅ s₆) (hboot : boot.Below16TiB) :
    ceilDiv (maxUsableEnd regions) frameSize ≤ listEnd := by
  have hend : ∀ r ∈ boot.regions, r.kind = .usable → r.end ≤ 2 ^ 44 - frameSize := by
    intro r hr hu
    have hlt := hboot r hr hu
    have hmod := mod_frameSize_end (h.aligned r hr) hu
    simp only [frameSize] at hmod ⊢
    omega
  have hmax : maxUsableEnd regions ≤ 2 ^ 44 - frameSize := by
    rw [(buildEffective_returns h.effective).1]
    exact maxUsableEnd_of (P := (· ≤ 2 ^ 44 - frameSize)) (Nat.zero_le _) (effective_end_le hend)
  simp only [frameSize] at hmax
  simp only [ceilDiv, frameSize, listEnd]
  rw [Word.add_of_lt (by omega), Word.sub_of_le (by omega) (by omega)]
  omega

theorem pmmInit_idle
    (h : Returns (pmmInit boot specs outUntyped heapLen) (Machine.reset mem) (info, caps) s') :
    Idle s' := by
  obtain ⟨regions, ftPhys, heapEnd, bootAlloc, s₁, s₂, s₃, s₄, s₅, s₆, hrun⟩ := pmmInit_returns h
  have hbooting := hrun.booting
  have hframes := Machine.buildGlobalFreelist_frames hrun.pool
  exact {
    pinned := fun f => by rw [hframes]; exact hbooting.pinned f
    mappings := fun f => by rw [hframes]; exact hbooting.mappings f
    owner := fun f => by rw [hframes]; exact hbooting.owner f }

theorem pmmInit_unreleased
    (h : Returns (pmmInit boot specs outUntyped heapLen) (Machine.reset mem) (info, caps) s') :
    Unreleased s' := by
  obtain ⟨regions, ftPhys, heapEnd, bootAlloc, s₁, s₂, s₃, s₄, s₅, s₆, hrun⟩ := pmmInit_returns h
  have hunreleased : Unreleased s₆ := by
    refine hrun.survives survivesOwners_unreleased fun f => ?_
    rw [hrun.unmarked.1]
    rfl
  intro f
  rw [Machine.buildGlobalFreelist_frames hrun.pool]
  exact hunreleased f

/-- **`pmm_init` leaves coherent lists.** -/
theorem pmmInit_coherent (hboot : boot.Below16TiB)
    (h : Returns (pmmInit boot specs outUntyped heapLen) (Machine.reset mem) (info, caps) s') :
    s'.IsCoherent ∧ s'.numFrames = info.totalFrames := by
  obtain ⟨regions, ftPhys, heapEnd, bootAlloc, s₁, s₂, s₃, s₄, s₅, s₆, hrun⟩ := pmmInit_returns h
  have hbooting := hrun.booting
  have hnum := hbooting.numFrames
  have hbound := hrun.total_le hboot
  rw [← hnum] at hbooting hbound
  obtain ⟨-, ⟨mem', hs⟩, -, -⟩ :=
    Machine.buildGlobalFreelist_spec hbooting.table hbound hrun.pool
  have hcoherent := Machine.coherent_of_pool hbooting hrun.pool
  rw [Machine.cut_eq (by rw [hs]; exact hbound)] at hcoherent
  exact ⟨⟨_, _, hcoherent⟩, by rw [hs, hrun.info, ← hnum]⟩

end Booted

/-! ## A small machine -/

/-- What a boot computation returns, if it returns `Ok`. -/
def finish {σ α : Type} (x : BootT σ α) (s : σ) : Option (α × σ) :=
  match x.run.run s with
  | some (.ok a, s') => some (a, s')
  | _ => none

theorem returns_of_finish {σ α : Type} {x : BootT σ α} {s s' : σ} {a : α}
    (h : finish x s = some (a, s')) : Returns x s a s' := by
  rcases hx : x.run.run s with _ | ⟨_ | a', s₁⟩
  · simp [finish, hx] at h
  · simp [finish, hx] at h
  · simp only [finish, hx, Option.some.injEq, Prod.mk.injEq] at h
    rw [Returns, hx, h.1, h.2]

/-- Five usable frames above the legacy area: two hold the frame table, three go to the pool. -/
def smallBoot : BootInfo where
  physmapBase := 0xffff800000000000
  regions := [⟨0x100000, 0x5000, .usable⟩]
  kernelImage := (0, 0)

theorem smallBoot_below : smallBoot.Below16TiB := by decide

theorem smallBoot_returns :
    ∃ info s, Returns (pmmInit smallBoot [] [] 0) (Machine.reset fun _ => 0) (info, []) s ∧
      s.freeFrameCount = 3 := by
  have hfree : (finish (pmmInit smallBoot [] [] 0) (Machine.reset fun _ => 0)).map
      (fun r => (r.1.2, r.2.freeFrameCount)) = some ([], 3) := by
    decide +kernel
  obtain ⟨⟨⟨info, caps⟩, s⟩, hfinish, heq⟩ := Option.map_eq_some_iff.1 hfree
  obtain ⟨rfl, hcount⟩ := Prod.mk.inj heq
  exact ⟨info, s, returns_of_finish hfinish, hcount⟩

end Rolnix
