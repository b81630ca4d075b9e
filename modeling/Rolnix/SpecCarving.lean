import Rolnix.BootReserved
import Rolnix.OneRegion

/-!
# Untyped specs that cannot be carved

`carve_untyped_region` checks the alignment of a spec, that it is not empty, and its end against the
largest index. It does not compare the end with the size of the frame table, and `frame_info` asserts
that. So a spec that reaches past the table makes `pmm_init` panic where other bad specs are
reported.

* `carveSpecs_returns_iff` and `carveSpecs_panics_iff`: what the carving loop does with a list of
  specs, in terms of the frames that are free before it.
* `bootAreas_initRun`: on a map without overlaps only the first half of `pmm_init` and the carving
  can go wrong.
* `specs_reported_iff`: for which specs `pmm_init` keeps to returning `Ok` or `Err`, with `Ok` for
  the good specs.
-/

namespace Rolnix

open Machine

/-! ## Carving -/

namespace UntypedSpec

/-- The spec is a range of whole frames. -/
def Aligned (spec : UntypedSpec) : Prop :=
  spec.basePhys % frameSize = 0 ∧ spec.len % frameSize = 0

/-- The frame after the last one of the range. -/
def endFrame (spec : UntypedSpec) : Nat := spec.firstFrame + spec.len / frameSize

/-- The range passes the comparison with the largest index. -/
def InRange (spec : UntypedSpec) : Prop := spec.endFrame < listEnd

instance (spec : UntypedSpec) : Decidable spec.InRange :=
  inferInstanceAs (Decidable (_ < _))

theorem covers_iff {spec : UntypedSpec} (hal : spec.Aligned) (f : Nat) :
    spec.Covers f ↔ spec.firstFrame ≤ f ∧ f < spec.endFrame := by
  obtain ⟨hbase, hlen⟩ := hal
  simp only [Covers, firstFrame, endFrame, frameSize] at hbase hlen ⊢
  omega

theorem num_pos_iff {spec : UntypedSpec} (hal : spec.Aligned) :
    0 < spec.len / frameSize ↔ 0 < spec.len := by
  have hlen := hal.2
  simp only [frameSize] at hlen ⊢
  omega

end UntypedSpec

/-- Every spec is a nonempty range of whole frames that are free, and no two of them share a frame. -/
def GoodSpecs (free : Nat → Prop) (specs : List UntypedSpec) : Prop :=
  (∀ spec ∈ specs, spec.Aligned ∧ 0 < spec.len ∧ ∀ f, spec.Covers f → free f) ∧
    specs.Pairwise fun spec spec' => ∀ f, ¬ (spec.Covers f ∧ spec'.Covers f)

/-- After good specs comes one that passes the checks of its bounds and reaches past the `total`
frames of the table, and as far as it is inside of the table it is good as well. -/
def Overruns (total : Nat) (free : Nat → Prop) (specs : List UntypedSpec) : Prop :=
  ∃ before spec after, specs = before ++ spec :: after ∧
    GoodSpecs free before ∧ (∀ b ∈ before, b.InRange) ∧
    spec.Aligned ∧ 0 < spec.len ∧ spec.InRange ∧ total < spec.endFrame ∧
    ∀ f, spec.Covers f → f < total → free f ∧ ∀ b ∈ before, ¬ b.Covers f

section Lists

variable {total : Nat} {free : Nat → Prop} {spec : UntypedSpec} {specs : List UntypedSpec}

/-- A frame of the first range is not free for the others. -/
theorem goodSpecs_cons : GoodSpecs free (spec :: specs) ↔
    (spec.Aligned ∧ 0 < spec.len ∧ ∀ f, spec.Covers f → free f) ∧
      GoodSpecs (fun f => free f ∧ ¬ spec.Covers f) specs := by
  unfold GoodSpecs
  rw [List.forall_mem_cons, List.pairwise_cons]
  constructor
  · rintro ⟨⟨hspec, hspecs⟩, hapart, hpair⟩
    refine ⟨hspec, fun spec' hmem => ?_, hpair⟩
    obtain ⟨hal, hpos, hfree⟩ := hspecs spec' hmem
    exact ⟨hal, hpos, fun f hf => ⟨hfree f hf, fun hf' => hapart spec' hmem f ⟨hf', hf⟩⟩⟩
  · rintro ⟨hspec, hspecs, hpair⟩
    refine ⟨⟨hspec, fun spec' hmem => ?_⟩, fun spec' hmem f hf => ?_, hpair⟩
    · obtain ⟨hal, hpos, hfree⟩ := hspecs spec' hmem
      exact ⟨hal, hpos, fun f hf => (hfree f hf).1⟩
    · exact ((hspecs spec' hmem).2.2 f hf.2).2 hf.1

theorem overruns_nil : ¬ Overruns total free [] := by
  rintro ⟨before, spec, after, heq, -⟩
  simp at heq

/-- The first spec overruns the table, or it is good and a later one does. -/
theorem overruns_cons : Overruns total free (spec :: specs) ↔
    spec.Aligned ∧ 0 < spec.len ∧ spec.InRange ∧
      (total < spec.endFrame ∧ (∀ f, spec.Covers f → f < total → free f) ∨
        (∀ f, spec.Covers f → free f) ∧ Overruns total (fun f => free f ∧ ¬ spec.Covers f) specs) := by
  constructor
  · rintro ⟨before, spec', after, heq, hgood, hrange, hal, hpos, hin, hpast, hfree⟩
    cases before with
    | nil =>
        obtain ⟨rfl, rfl⟩ := List.cons.inj heq
        exact ⟨hal, hpos, hin, Or.inl ⟨hpast, fun f hf hlt => (hfree f hf hlt).1⟩⟩
    | cons b before =>
        obtain ⟨rfl, rfl⟩ := List.cons.inj heq
        obtain ⟨⟨hal₀, hpos₀, hfree₀⟩, hgood⟩ := goodSpecs_cons.1 hgood
        rw [List.forall_mem_cons] at hrange
        refine ⟨hal₀, hpos₀, hrange.1, Or.inr ⟨hfree₀, before, spec', after, rfl, hgood, hrange.2, hal,
          hpos, hin, hpast, fun f hf hlt => ?_⟩⟩
        obtain ⟨hfree', hnot⟩ := hfree f hf hlt
        rw [List.forall_mem_cons] at hnot
        exact ⟨⟨hfree', hnot.1⟩, hnot.2⟩
  · rintro ⟨hal, hpos, hin, ⟨hpast, hfree⟩ | ⟨hfree, before, spec', after, rfl, hgood, hrange, hrest⟩⟩
    · exact ⟨[], spec, specs, rfl, ⟨by simp, List.Pairwise.nil⟩, by simp, hal, hpos, hin, hpast,
        fun f hf hlt => ⟨hfree f hf hlt, by simp⟩⟩
    · obtain ⟨hal', hpos', hin', hpast, hfree'⟩ := hrest
      refine ⟨spec :: before, spec', after, rfl, goodSpecs_cons.2 ⟨⟨hal, hpos, hfree⟩, hgood⟩, ?_, hal',
        hpos', hin', hpast, fun f hf hlt => ?_⟩
      · rw [List.forall_mem_cons]
        exact ⟨hin, hrange⟩
      · obtain ⟨⟨hf', hnot⟩, hrest⟩ := hfree' f hf hlt
        rw [List.forall_mem_cons]
        exact ⟨hf', hnot, hrest⟩

end Lists

section Carve

variable {s : Machine} {id : UntypedId} {baseFrame n i : Nat} {spec : UntypedSpec}
  {specs : List UntypedSpec} {out : List UntypedCap} {free : Nat → Prop}

/-- **The loop over the frames panics** exactly if it gets to the end of the table. -/
theorem carveFrames_panics (hbase : s.tableBase ≠ 0) (hbound : baseFrame + n ≤ 2 ^ 32) :
    Panics (carveFrames id baseFrame n) s ↔ 0 < n ∧ s.numFrames < baseFrame + n ∧
      ∀ f, baseFrame ≤ f → f < s.numFrames → (s.frames f).owner = .free := by
  induction n with
  | zero => simp [carveFrames]
  | succ n ih =>
      have hbound' : baseFrame + n < 2 ^ 32 := by omega
      rw [carveFrames, panics_bind, ih hbound'.le, Nat.mod_eq_of_lt hbound']
      constructor
      · rintro (⟨hpos, hlt, hfree⟩ | ⟨⟨⟩, s₁, hret, hpanics⟩)
        · exact ⟨n.succ_pos, by omega, hfree⟩
        · have hclaims := (carveFrames_claims hbound'.le hret).1
          rw [claim_panics (by rw [hclaims.tableBase]; exact hbase), hclaims.numFrames] at hpanics
          exact ⟨n.succ_pos, by omega, fun f hge hlt => (hclaims.inside f ⟨hge, by omega⟩).1⟩
      · rintro ⟨-, hlt, hfree⟩
        by_cases hearly : 0 < n ∧ s.numFrames < baseFrame + n
        · exact Or.inl ⟨hearly.1, hearly.2, hfree⟩
        -- the last frame of the range is the first one outside of the table
        · obtain ⟨s₁, hret⟩ := @carveFrames_total s id baseFrame n hbase hbound'.le fun f hge hlt' =>
            have hf : f < s.numFrames := by omega
            ⟨hf, hfree f hge hf⟩
          have hclaims := (carveFrames_claims hbound'.le hret).1
          refine Or.inr ⟨(), s₁, hret, ?_⟩
          rw [claim_panics (by rw [hclaims.tableBase]; exact hbase), hclaims.numFrames]
          omega

/-- The checks of `carve_untyped_region`, and the loop behind them. -/
theorem carveUntypedRegion_guards :
    (¬ (spec.basePhys % frameSize ≠ 0 ∨ spec.len % frameSize ≠ 0) ∧
      ¬ (spec.len / frameSize = 0 ∨ spec.basePhys / frameSize + spec.len / frameSize ≥ 0xffffffff)) ↔
    spec.Aligned ∧ 0 < spec.len ∧ spec.InRange := by
  rw [not_or, not_not, not_not, not_or, ← ne_eq (spec.len / frameSize), ← Nat.pos_iff_ne_zero,
    ge_iff_le, not_le]
  constructor
  · rintro ⟨hal, hpos, hrange⟩
    exact ⟨hal, (UntypedSpec.num_pos_iff hal).1 hpos, hrange⟩
  · rintro ⟨hal, hpos, hrange⟩
    exact ⟨hal, (UntypedSpec.num_pos_iff hal).2 hpos, hrange⟩

theorem carveUntypedRegion_returns_iff (hbase : s.tableBase ≠ 0) :
    (∃ cap s', Returns (carveUntypedRegion spec id) s cap s') ↔
      spec.Aligned ∧ 0 < spec.len ∧ spec.InRange ∧
        ∀ f, spec.Covers f → f < s.numFrames ∧ (s.frames f).owner = .free := by
  constructor
  · rintro ⟨cap, s', h⟩
    obtain ⟨-, -, -, hinside⟩ := carveUntypedRegion_cap h
    have hclaims := (carveUntypedRegion_claims h).1
    unfold carveUntypedRegion at h
    obtain ⟨hal, h⟩ := (returns_guard fun _ _ => returns_throw).1 h
    obtain ⟨hrange, -⟩ := (returns_guard fun _ _ => returns_throw).1 h
    obtain ⟨hal, hpos, hrange⟩ := carveUntypedRegion_guards.1 ⟨hal, hrange⟩
    refine ⟨hal, hpos, hrange, fun f hf => ⟨?_, (hclaims.inside f hf).1⟩⟩
    exact ((UntypedSpec.covers_iff hal f).1 hf).2.trans_le hinside
  · rintro ⟨hal, hpos, hrange, hfree⟩
    obtain ⟨hguard, hguard'⟩ := carveUntypedRegion_guards.2 ⟨hal, hpos, hrange⟩
    have hbound : spec.endFrame ≤ 2 ^ 32 := hrange.le.trans (by decide)
    obtain ⟨s', hloop⟩ := @carveFrames_total s id spec.firstFrame (spec.len / frameSize) hbase hbound
      fun f hge hlt => hfree f ((UntypedSpec.covers_iff hal f).2 ⟨hge, hlt⟩)
    exact ⟨_, s', (returns_guard fun _ _ => returns_throw).2 ⟨hguard,
      (returns_guard fun _ _ => returns_throw).2 ⟨hguard',
        returns_bind.2 ⟨(), s', hloop, returns_pure.2 ⟨rfl, rfl⟩⟩⟩⟩⟩

theorem carveUntypedRegion_panics (hbase : s.tableBase ≠ 0) :
    Panics (carveUntypedRegion spec id) s ↔
      spec.Aligned ∧ 0 < spec.len ∧ spec.InRange ∧ s.numFrames < spec.endFrame ∧
        ∀ f, spec.Covers f → f < s.numFrames → (s.frames f).owner = .free := by
  unfold carveUntypedRegion
  rw [panics_guard panics_throw fun _ _ => returns_throw,
    panics_guard panics_throw fun _ _ => returns_throw, ← and_assoc, carveUntypedRegion_guards]
  simp only [and_assoc]
  refine and_congr_right fun hal => and_congr_right fun hpos => and_congr_right fun hrange => ?_
  have hbound : spec.endFrame ≤ 2 ^ 32 := hrange.le.trans (by decide)
  rw [panics_bind, show spec.basePhys / frameSize = spec.firstFrame from rfl,
    carveFrames_panics hbase hbound]
  simp only [panics_pure, and_false, exists_false, or_false]
  constructor
  · rintro ⟨-, hpast, hfree⟩
    exact ⟨hpast, fun f hf hlt => hfree f ((UntypedSpec.covers_iff hal f).1 hf).1 hlt⟩
  · rintro ⟨hpast, hfree⟩
    refine ⟨(UntypedSpec.num_pos_iff hal).2 hpos, hpast, fun f hge hlt => hfree f ?_ hlt⟩
    exact (UntypedSpec.covers_iff hal f).2 ⟨hge, hlt.trans hpast⟩

theorem free_after_carve {cap : UntypedCap} {s₁ : Machine}
    (hfree : ∀ f, free f ↔ f < s.numFrames ∧ (s.frames f).owner = .free)
    (h : Returns (carveUntypedRegion spec id) s cap s₁) (f : Nat) :
    (free f ∧ ¬ spec.Covers f) ↔ f < s₁.numFrames ∧ (s₁.frames f).owner = .free := by
  have hclaims := (carveUntypedRegion_claims h).1
  rw [hfree, hclaims.numFrames]
  by_cases hf : spec.Covers f
  · rw [(hclaims.inside f hf).2]
    simp [hf, FrameOwner.untyped_ne_free]
  · rw [hclaims.outside f hf]
    simp [hf]

/-- **Carving returns `Ok`** exactly for good specs below the largest index. -/
theorem carveSpecs_returns_iff (hbase : s.tableBase ≠ 0)
    (hfree : ∀ f, free f ↔ f < s.numFrames ∧ (s.frames f).owner = .free) :
    (∃ caps s', Returns (carveSpecs i specs out) s caps s') ↔
      GoodSpecs free specs ∧ ∀ spec ∈ specs, spec.InRange := by
  induction specs generalizing i out s free with
  | nil =>
      refine ⟨fun _ => ⟨⟨by simp, List.Pairwise.nil⟩, by simp⟩, fun _ => ?_⟩
      exact ⟨out, s, returns_pure.2 ⟨rfl, rfl⟩⟩
  | cons spec specs ih =>
      have hhead := @carveUntypedRegion_returns_iff s (BitVec.ofNat 32 i) spec hbase
      simp only [← hfree] at hhead
      rw [goodSpecs_cons, List.forall_mem_cons]
      constructor
      · rintro ⟨caps, s', h⟩
        obtain ⟨cap, s₁, h₁, h₂⟩ := returns_bind.1 h
        obtain ⟨hal, hpos, hrange, hcov⟩ := hhead.1 ⟨cap, s₁, h₁⟩
        have hclaims := (carveUntypedRegion_claims h₁).1
        obtain ⟨hgood, hranges⟩ := (ih (by rw [hclaims.tableBase]; exact hbase)
          (free_after_carve hfree h₁)).1 ⟨caps, s', h₂⟩
        exact ⟨⟨⟨hal, hpos, hcov⟩, hgood⟩, hrange, hranges⟩
      · rintro ⟨⟨⟨hal, hpos, hcov⟩, hgood⟩, hrange, hranges⟩
        obtain ⟨cap, s₁, h₁⟩ := hhead.2 ⟨hal, hpos, hrange, hcov⟩
        have hclaims := (carveUntypedRegion_claims h₁).1
        obtain ⟨caps, s', h₂⟩ := (ih (by rw [hclaims.tableBase]; exact hbase)
          (free_after_carve hfree h₁)).2 ⟨hgood, hranges⟩
        exact ⟨caps, s', returns_bind.2 ⟨cap, s₁, h₁, h₂⟩⟩

/-- **Carving panics** exactly if a spec overruns the frame table. -/
theorem carveSpecs_panics_iff (hbase : s.tableBase ≠ 0)
    (hfree : ∀ f, free f ↔ f < s.numFrames ∧ (s.frames f).owner = .free) :
    Panics (carveSpecs i specs out) s ↔ Overruns s.numFrames free specs := by
  induction specs generalizing i out s free with
  | nil => simp [carveSpecs, overruns_nil]
  | cons spec specs ih =>
      have hhead := @carveUntypedRegion_returns_iff s (BitVec.ofNat 32 i) spec hbase
      simp only [← hfree] at hhead
      have hpanics : (∀ f, spec.Covers f → f < s.numFrames → (s.frames f).owner = .free) ↔
          ∀ f, spec.Covers f → f < s.numFrames → free f := by
        refine forall_congr' fun f => forall_congr' fun _ => forall_congr' fun hlt => ?_
        rw [hfree]
        exact (and_iff_right hlt).symm
      have hrest : ∀ {cap s₁}, Returns (carveUntypedRegion spec (BitVec.ofNat 32 i)) s cap s₁ →
          (Panics (carveSpecs (i + 1) specs (out.set i cap)) s₁ ↔
            Overruns s.numFrames (fun f => free f ∧ ¬ spec.Covers f) specs) := by
        intro cap s₁ h₁
        have hclaims := (carveUntypedRegion_claims h₁).1
        rw [← hclaims.numFrames]
        exact ih (by rw [hclaims.tableBase]; exact hbase) (free_after_carve hfree h₁)
      rw [overruns_cons, carveSpecs, panics_bind, carveUntypedRegion_panics hbase, hpanics]
      constructor
      · rintro (⟨hal, hpos, hrange, hpast, hcov⟩ | ⟨cap, s₁, h₁, h₂⟩)
        · exact ⟨hal, hpos, hrange, Or.inl ⟨hpast, hcov⟩⟩
        · obtain ⟨hal, hpos, hrange, hcov⟩ := hhead.1 ⟨cap, s₁, h₁⟩
          exact ⟨hal, hpos, hrange, Or.inr ⟨hcov, (hrest h₁).1 h₂⟩⟩
      · rintro ⟨hal, hpos, hrange, ⟨hpast, hcov⟩ | ⟨hcov, hover⟩⟩
        · exact Or.inl ⟨hal, hpos, hrange, hpast, hcov⟩
        · obtain ⟨cap, s₁, h₁⟩ := hhead.2 ⟨hal, hpos, hrange, hcov⟩
          exact Or.inr ⟨cap, s₁, h₁, (hrest h₁).2 hover⟩

end Carve

/-! ## Maps without overlaps -/

/-- **`pmm_init` is one half after the other**, if the buffer is large enough. -/
theorem pmmInit_eq {boot : BootInfo} {specs : List UntypedSpec} {outUntyped : List UntypedCap}
    {heapLen : Nat} (hout : specs.length ≤ outUntyped.length) :
    (pmmInit boot specs outUntyped heapLen : BootM (PmInitOut × List UntypedCap)) =
      bootAreas boot heapLen >>= bootFrames specs outUntyped heapLen := by
  unfold pmmInit
  rw [if_neg (not_lt.2 hout)]

theorem markRegions_total {s : Machine} {ftPhys heapEnd : Nat} {regions : List MemoryRegion}
    (hregions : Countable regions) (horder : regions.Pairwise EndsBefore) (hbase : s.tableBase ≠ 0)
    (hsize : ∀ r ∈ regions, r.kind = .usable → r.end ≤ s.numFrames * frameSize)
    (hreserved : ∀ r ∈ regions, r.kind = .usable → ∀ f, r.Holds f → (s.frames f).owner = .reserved) :
    ∃ s', Returns (markRegions ftPhys heapEnd regions) s () s' := by
  induction regions generalizing s with
  | nil => exact ⟨s, returns_pure.2 ⟨rfl, rfl⟩⟩
  | cons r rest ih =>
      rw [List.pairwise_cons] at horder
      have hrest : Countable rest := fun x hx => hregions x (List.mem_cons_of_mem r hx)
      by_cases hu : r.kind = .usable
      · obtain ⟨hs, he, hle, hlt⟩ := hregions r List.mem_cons_self hu
        have hend := hsize r List.mem_cons_self hu
        have hfirst := ceilDiv_aligned hs (by omega)
        have hlast := ceilDiv_aligned he (by omega)
        have hholds : ∀ f, (ceilDiv r.start frameSize ≤ f ∧ f < ceilDiv r.start frameSize +
            (ceilDiv r.end frameSize - ceilDiv r.start frameSize)) ↔ r.Holds f :=
          holds_iff hs (by omega) he
        have hcount : ceilDiv r.start frameSize +
            (ceilDiv r.end frameSize - ceilDiv r.start frameSize) = r.end / frameSize := by
          rw [hfirst, hlast]
          exact Nat.add_sub_cancel' (Nat.div_le_div_right hle)
        obtain ⟨s₁, h₁⟩ : ∃ s₁, Returns (markFrames ftPhys heapEnd (ceilDiv r.start frameSize)
            (ceilDiv r.end frameSize - ceilDiv r.start frameSize)) s () s₁ := by
          refine markFrames_total hbase ?_ ?_ fun f hge hlt =>
            hreserved r List.mem_cons_self hu f ((hholds f).1 ⟨hge, hlt⟩)
          · rw [hcount]
            exact Nat.div_le_of_le_mul (by rwa [Nat.mul_comm])
          · rw [hcount]
            simp only [frameSize]
            omega
        have hclaims := markFrames_claims (by
          rw [hcount]
          exact (Nat.div_mul_le_self _ _).trans (by omega)) h₁
        obtain ⟨s', h₂⟩ := ih hrest horder.2 (by rw [hclaims.tableBase]; exact hbase)
          (fun x hx hux => by
            rw [hclaims.numFrames]
            exact hsize x (List.mem_cons_of_mem r hx) hux)
          fun x hx hux f hf => by
            rw [hclaims.outside]
            · exact hreserved x (List.mem_cons_of_mem r hx) hux f hf
            · rintro ⟨idx, hin, -, hcut⟩
              -- the frame would be in both regions
              have hidx := (hholds idx).1 hin
              have hsmall : idx < 2 ^ 32 := by
                have := hidx.2
                simp only [frameSize] at this
                omega
              rw [Nat.mod_eq_of_lt hsmall] at hcut
              obtain rfl := hcut
              have hbefore := horder.1 x hx hu hux (hidx.1.trans_lt hidx.2) (hf.1.trans_lt hf.2)
              exact absurd (hidx.2.trans_le (hbefore.trans hf.1)) (lt_irrefl _)
        refine ⟨s', returns_bind.2 ⟨(), s₁, ?_, h₂⟩⟩
        rw [markRegion, if_neg (not_not.2 hu)]
        exact h₁
      · obtain ⟨s', h₂⟩ := ih hrest horder.2 hbase
          (fun x hx => hsize x (List.mem_cons_of_mem r hx))
          fun x hx => hreserved x (List.mem_cons_of_mem r hx)
        refine ⟨s', returns_bind.2 ⟨(), s, ?_, h₂⟩⟩
        rw [markRegion, if_pos hu]
        exact returns_pure.2 ⟨rfl, rfl⟩

/-- The first part of `pmm_init` returns `Ok`: there is room for the frame table and the heap. -/
def AreasFit (boot : BootInfo) (heapLen : Nat) (mem : ByteMem) : Prop :=
  ∃ areas s, Returns (bootAreas boot heapLen) (Machine.reset mem) areas s

/-- The frame is free before the specs are carved. -/
def BootInfo.FreeFrame (boot : BootInfo) (heapLen f : Nat) : Prop :=
  ∃ ftPhys heapPhys, boot.placement heapLen = some (ftPhys, heapPhys) ∧
    Marked boot.effective ftPhys (boot.skipEnd heapLen ftPhys heapPhys) f

/-- The number of entries of the frame table. -/
def BootInfo.tableFrames (boot : BootInfo) : Nat := ceilDiv (maxUsableEnd boot.effective) frameSize

section Areas

variable {boot : BootInfo} {specs : List UntypedSpec} {outUntyped : List UntypedCap}
  {heapLen ftPhys heapEnd : Nat} {mem : ByteMem} {s₄ : Machine} {regions : List MemoryRegion}

/-- **If the boot areas fit, `pmm_init` without specs returns `Ok`.** -/
theorem bootAreas_initRun (hu64 : boot.IsU64) (hmap : boot.MapOk) (himage : boot.ImageFits)
    (h : Returns (bootAreas boot heapLen) (Machine.reset mem) ⟨regions, ftPhys, heapEnd⟩ s₄) :
    regions = boot.effective ∧ ∃ info s' bootAlloc s₁ s₂ s₃ s₅,
      InitRun boot [] [] heapLen (Machine.reset mem) info [] s' boot.effective ftPhys heapEnd bootAlloc
        s₁ s₂ s₃ s₄ s₅ s₅ := by
  obtain ⟨bootAlloc, s₁, s₂, s₃, hareas⟩ := bootAreas_returns h
  obtain ⟨rfl, -⟩ : regions = boot.effective ∧ _ := buildEffective_returns hareas.effective
  obtain ⟨hframes, hnum, -, hbase, -, -, hglobal⟩ :=
    unmarked_of_areas hareas.physmap hareas.effective hareas.table hareas.heap
  have hcount := hmap.countable hu64 hareas.aligned
  obtain ⟨s₅, hmark⟩ : ∃ s₅, Returns (markRegions ftPhys heapEnd boot.effective) s₄ () s₅ := by
    refine markRegions_total hcount
      (effective_endsBefore hmap (imageStart_le_imageEnd himage)) hbase ?_ ?_
    · intro r hr hu
      obtain ⟨hmod, hlt⟩ := maxUsableEnd_aligned (effective_aligned hu64 hareas.aligned)
      rw [hnum, ceilDiv_aligned hmod hlt, Nat.div_mul_cancel (Nat.dvd_of_mod_eq_zero hmod)]
      exact le_maxUsableEnd hr hu
    · intro r _ _ f _
      rw [hframes]
      rfl
  have hclaims := markRegions_claims hcount hmark
  obtain ⟨count, s', hpool⟩ : ∃ count s', s₅.buildGlobalFreelist = some (count, s') := by
    refine buildGlobalFreelist_total ?_ ?_
    · rw [hclaims.tableBase]
      exact hbase
    · rw [hclaims.rest]
      exact hglobal
  refine ⟨rfl, {
    totalFrames := ceilDiv (maxUsableEnd boot.effective) frameSize
    freeFrames := count
    frameTableFrames := ceilDiv (maxUsableEnd boot.effective) frameSize * FrameInfo.size / frameSize
    untypedCreated := 0
    heapPhys := if heapLen ≠ 0 then Word.sub 64 heapEnd heapLen else 0
    heapLen := heapLen
    ramEnd := maxUsableEnd boot.effective }, s', bootAlloc, s₁, s₂, s₃, s₅, ?_⟩
  exact {
    toAreasRun := hareas
    fits := le_rfl
    mark := hmark
    carve := returns_pure.2 ⟨rfl, rfl⟩
    pool := hpool
    info := rfl }

theorem freeFrame_iff (hu64 : boot.IsU64) (hmap : boot.MapOk) {info : PmInitOut} {s' s₁ s₂ s₃ s₅ : Machine}
    {bootAlloc : BootAllocator} (h : InitRun boot [] [] heapLen (Machine.reset mem) info [] s'
      boot.effective ftPhys heapEnd bootAlloc s₁ s₂ s₃ s₄ s₅ s₅) (f : Nat) :
    boot.FreeFrame heapLen f ↔ f < s₅.numFrames ∧ (s₅.frames f).owner = .free := by
  have hal := effective_aligned hu64 h.aligned
  obtain ⟨heapPhys, hplace, hend⟩ := h.placement hal
  have hclaims := markRegions_claims (hmap.countable hu64 h.aligned) h.mark
  simp only [BootInfo.FreeFrame, hplace, Option.some.injEq, Prod.mk.injEq]
  rw [h.booting.numFrames]
  constructor
  · rintro ⟨_, _, ⟨rfl, rfl⟩, hmarked⟩
    rw [← hend] at hmarked
    exact ⟨hmarked.lt_total hal, (hclaims.inside f hmarked).2⟩
  · rintro ⟨-, hfree⟩
    refine ⟨_, _, ⟨rfl, rfl⟩, ?_⟩
    rw [← hend]
    by_contra hnot
    rw [hclaims.outside f hnot, h.unmarked.1] at hfree
    cases hfree

/-- What the second part of `pmm_init` does is what carving does. -/
theorem bootFrames_carve {s₅ : Machine} (hmark : Returns (markRegions ftPhys heapEnd regions) s₄ () s₅)
    (hbooting : Booting (ceilDiv (maxUsableEnd regions) frameSize) s₅) :
    ((∃ r s', Returns (bootFrames specs outUntyped heapLen ⟨regions, ftPhys, heapEnd⟩) s₄ r s') ↔
      ∃ caps s', Returns (carveSpecs 0 specs outUntyped) s₅ caps s') ∧
    (Panics (bootFrames specs outUntyped heapLen ⟨regions, ftPhys, heapEnd⟩) s₄ ↔
      Panics (carveSpecs 0 specs outUntyped) s₅) := by
  have hpool : ∀ {caps s₆}, Returns (carveSpecs 0 specs outUntyped) s₅ caps s₆ →
      ∃ count s', s₆.buildGlobalFreelist = some (count, s') := by
    intro caps s₆ hcarve
    have hbooting' := survivesOwners_booting.carveSpecs hbooting hcarve
    exact buildGlobalFreelist_total hbooting'.table hbooting'.global
  constructor
  · constructor
    · rintro ⟨r, s', h⟩
      obtain ⟨⟨⟩, s₅', hmark', h⟩ := returns_bind.1 h
      obtain ⟨-, rfl⟩ := hmark.unique hmark'
      obtain ⟨caps, s₆, hcarve, -⟩ := returns_bind.1 h
      exact ⟨caps, s₆, hcarve⟩
    · rintro ⟨caps, s₆, hcarve⟩
      obtain ⟨count, s', hbuild⟩ := hpool hcarve
      exact ⟨_, s', returns_bind.2 ⟨(), s₅, hmark, returns_bind.2 ⟨caps, s₆, hcarve,
        returns_bind.2 ⟨count, s', returns_orAbort.2 hbuild, returns_pure.2 ⟨rfl, rfl⟩⟩⟩⟩⟩
  · constructor
    · intro h
      rcases panics_bind.1 h with hpanics | ⟨⟨⟩, s₅', hmark', h⟩
      · exact absurd hpanics hmark.not_panics
      obtain ⟨-, rfl⟩ := hmark.unique hmark'
      rcases panics_bind.1 h with hpanics | ⟨caps, s₆, hcarve, h⟩
      · exact hpanics
      obtain ⟨count, s', hbuild⟩ := hpool hcarve
      rcases panics_bind.1 h with hpanics | ⟨count', s₇, -, h⟩
      · exact absurd ((panics_orAbort.1 hpanics).symm.trans hbuild) (by simp)
      · exact absurd h panics_pure
    · intro h
      exact panics_bind.2 (Or.inr ⟨(), s₅, hmark, panics_bind.2 (Or.inl h)⟩)

end Areas

/-! ## Bad specs -/

/-- `pmm_init` does not panic once frames are looked at, and returns `Ok` exactly if the boot areas fit
and the specs are good. -/
structure SpecsReported (boot : BootInfo) (specs : List UntypedSpec) (outUntyped : List UntypedCap)
    (heapLen : Nat) (mem : ByteMem) : Prop where
  reported : Panics (pmmInit boot specs outUntyped heapLen) (Machine.reset mem) →
    Panics (bootAreas boot heapLen) (Machine.reset mem)
  ok : (∃ r s, Returns (pmmInit boot specs outUntyped heapLen) (Machine.reset mem) r s) ↔
    AreasFit boot heapLen mem ∧ GoodSpecs (boot.FreeFrame heapLen) specs

/-- No spec overruns the frame table, and no good spec ends with the largest index. -/
structure BootInfo.SpecsInside (boot : BootInfo) (heapLen : Nat) (specs : List UntypedSpec) : Prop where
  table : ¬ Overruns boot.tableFrames (boot.FreeFrame heapLen) specs
  index : GoodSpecs (boot.FreeFrame heapLen) specs → ∀ spec ∈ specs, spec.InRange

/-- **When bad specs are reported.** -/
theorem specs_reported_iff {boot : BootInfo} {specs : List UntypedSpec} {outUntyped : List UntypedCap}
    {heapLen : Nat} {mem : ByteMem} (hu64 : boot.IsU64) (hmap : boot.MapOk) (himage : boot.ImageFits)
    (hout : specs.length ≤ outUntyped.length) :
    SpecsReported boot specs outUntyped heapLen mem ↔
      (AreasFit boot heapLen mem → boot.SpecsInside heapLen specs) := by
  by_cases hfit : AreasFit boot heapLen mem
  · obtain ⟨⟨regions, ftPhys, heapEnd⟩, s₄, hareas⟩ := hfit
    have hfit : AreasFit boot heapLen mem := ⟨_, s₄, hareas⟩
    obtain ⟨rfl, info, s', bootAlloc, s₁, s₂, s₃, s₅, hrun⟩ :=
      bootAreas_initRun hu64 hmap himage hareas
    obtain ⟨hreturns, hpanics⟩ := @bootFrames_carve specs outUntyped heapLen _ _ _ _ _ hrun.mark
      hrun.booting
    have hfree := freeFrame_iff hu64 hmap hrun
    have hbase := hrun.booting.table
    rw [carveSpecs_returns_iff hbase hfree] at hreturns
    rw [carveSpecs_panics_iff hbase hfree, hrun.booting.numFrames] at hpanics
    have hok : (∃ r s, Returns (pmmInit boot specs outUntyped heapLen) (Machine.reset mem) r s) ↔
        GoodSpecs (boot.FreeFrame heapLen) specs ∧ ∀ spec ∈ specs, spec.InRange := by
      rw [← hreturns, pmmInit_eq hout]
      constructor
      · rintro ⟨r, s, h⟩
        obtain ⟨areas, s₄', hareas', h⟩ := returns_bind.1 h
        obtain ⟨rfl, rfl⟩ := hareas.unique hareas'
        exact ⟨r, s, h⟩
      · rintro ⟨r, s, h⟩
        exact ⟨r, s, returns_bind.2 ⟨_, s₄, hareas, h⟩⟩
    have hpanic : Panics (pmmInit boot specs outUntyped heapLen) (Machine.reset mem) ↔
        Overruns boot.tableFrames (boot.FreeFrame heapLen) specs := by
      rw [BootInfo.tableFrames, ← hpanics, pmmInit_eq hout, panics_bind]
      constructor
      · rintro (h | ⟨areas, s₄', hareas', h⟩)
        · exact absurd h hareas.not_panics
        · obtain ⟨rfl, rfl⟩ := hareas.unique hareas'
          exact h
      · intro h
        exact Or.inr ⟨_, s₄, hareas, h⟩
    constructor
    · rintro ⟨hreported, hgood⟩ -
      refine ⟨fun hover => hareas.not_panics (hreported (hpanic.2 hover)), fun hspecs => ?_⟩
      exact (hok.1 (hgood.2 ⟨hfit, hspecs⟩)).2
    · intro hinside
      obtain ⟨htable, hindex⟩ := hinside hfit
      refine ⟨fun h => absurd (hpanic.1 h) htable, hok.trans ?_⟩
      exact ⟨fun h => ⟨hfit, h.1⟩, fun h => ⟨h.2, hindex h.2⟩⟩
  · refine ⟨fun _ h => absurd h hfit, fun _ => ⟨?_, ?_⟩⟩
    · rw [pmmInit_eq hout, panics_bind]
      rintro (h | ⟨areas, s₄, hareas, -⟩)
      · exact h
      · exact absurd ⟨areas, s₄, hareas⟩ hfit
    · refine ⟨?_, fun h => absurd h.1 hfit⟩
      rintro ⟨r, s, h⟩
      rw [pmmInit_eq hout] at h
      obtain ⟨areas, s₄, hareas, -⟩ := returns_bind.1 h
      exact absurd ⟨areas, s₄, hareas⟩ hfit

/-- One good spec and one that ends where the frame table does. -/
theorem specs_reported_small :
    SpecsReported poolBoot [⟨0x108000, 0x1000⟩, ⟨0x108000, 0x2000⟩]
      [UntypedCap.new 0 0 0, UntypedCap.new 0 0 0] 0x1000 fun _ => 0 := by
  refine (specs_reported_iff ⟨by decide, by decide, by decide⟩ poolBoot_mapOk
    (fun _ => by decide) (by decide)).2 fun _ => ⟨?_, fun _ => by decide⟩
  rintro ⟨before, spec, after, heq, -, -, -, -, -, hpast, -⟩
  have htotal : poolBoot.tableFrames = 0x10a := by decide +kernel
  have hmem : spec ∈ [(⟨0x108000, 0x1000⟩ : UntypedSpec), ⟨0x108000, 0x2000⟩] := by
    rw [heq]
    simp
  have hend : ∀ spec ∈ [(⟨0x108000, 0x1000⟩ : UntypedSpec), ⟨0x108000, 0x2000⟩],
      spec.endFrame ≤ 0x10a := by
    decide
  rw [htotal] at hpast
  exact absurd (hend spec hmem) (not_le.2 hpast)

/-- **A spec above usable memory makes `pmm_init` panic**, although its bounds pass the checks. It does
so after the boot areas were made. -/
theorem specs_panic :
    poolBoot.IsU64 ∧ poolBoot.MapOk ∧ poolBoot.ImageFits ∧
      Panics (pmmInit poolBoot [⟨0x200000, 0x1000⟩] [UntypedCap.new 0 0 0] 0x1000)
        (Machine.reset fun _ => 0) ∧
      ¬ Panics (bootAreas poolBoot 0x1000) (Machine.reset fun _ => 0) ∧
      ¬ SpecsReported poolBoot [⟨0x200000, 0x1000⟩] [UntypedCap.new 0 0 0] 0x1000 fun _ => 0 := by
  have hpanics : ((pmmInit poolBoot [⟨0x200000, 0x1000⟩] [UntypedCap.new 0 0 0] 0x1000).run.run
      (Machine.reset fun _ => 0)).isNone = true := by
    decide +kernel
  have hareas : (finish (bootAreas poolBoot 0x1000) (Machine.reset fun _ => 0)).isSome = true := by
    decide +kernel
  obtain ⟨⟨areas, s⟩, hareas⟩ := Option.isSome_iff_exists.1 hareas
  have hpanics' := Option.isNone_iff_eq_none.1 hpanics
  have hareas' := (returns_of_finish hareas).not_panics
  exact ⟨⟨by decide, by decide, by decide⟩, poolBoot_mapOk, fun _ => by decide, hpanics', hareas',
    fun h => hareas' (h.reported hpanics')⟩

end Rolnix
