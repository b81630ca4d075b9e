import Rolnix.BootLayout

/-!
# Who owns the frames after `pmm_init`

The loops of `pmm_init` move frames from one owner to another with checked transitions: reserved
to free, then free to untyped. `Claims P old new s s'` says that exactly the frames in `P` were
moved. From it follow, for every memory map without overlaps:

* `pmmInit_pool`: no reserved memory is in the pool, and the untyped regions are those asked for.
-/

namespace Rolnix

open Machine

/-- Exactly the frames in `P` moved from `old` to `new`. -/
structure Claims (P : Nat → Prop) (old new : FrameOwner) (s s' : Machine) : Prop where
  inside : ∀ f, P f → (s.frames f).owner = old ∧ (s'.frames f).owner = new
  outside : ∀ f, ¬ P f → s'.frames f = s.frames f
  rest : s' = { s with frames := s'.frames }

namespace Claims

variable {P Q : Nat → Prop} {old new : FrameOwner} {s s₁ s' : Machine}

theorem nothing (hP : ∀ f, ¬ P f) : Claims P old new s s :=
  ⟨fun f hf => absurd hf (hP f), fun _ _ => rfl, rfl⟩

theorem single {f : Nat} (hold : (s.frames f).owner = old) (hP : ∀ g, P g ↔ g = f) :
    Claims P old new s (s.setInfo f ((s.frames f).withOwner new)) := by
  refine ⟨fun g hg => ?_, fun g hg => ?_, rfl⟩
  · obtain rfl := (hP g).1 hg
    exact ⟨hold, by simp⟩
  · have hne : g ≠ f := fun he => hg ((hP g).2 he)
    rw [setInfo_frames, Function.update_of_ne hne]

theorem trans (h : Claims P old new s s₁) (h' : Claims Q old new s₁ s') :
    Claims (fun f => P f ∨ Q f) old new s s' := by
  refine ⟨fun f hf => ?_, fun f hf => ?_, ?_⟩
  · by_cases hQ : Q f
    · refine ⟨?_, (h'.inside f hQ).2⟩
      by_cases hP : P f
      · exact (h.inside f hP).1
      · rw [← h.outside f hP]
        exact (h'.inside f hQ).1
    · have hP := hf.resolve_right hQ
      rw [h'.outside f hQ]
      exact h.inside f hP
  · rw [h'.outside f fun hQ => hf (Or.inr hQ), h.outside f fun hP => hf (Or.inl hP)]
  · rw [h'.rest, h.rest]

theorem congr (h : Claims P old new s s') (hPQ : ∀ f, P f ↔ Q f) : Claims Q old new s s' :=
  ⟨fun f hf => h.inside f ((hPQ f).2 hf), fun f hf => h.outside f fun hP => hf ((hPQ f).1 hP), h.rest⟩

theorem numFrames (h : Claims P old new s s') : s'.numFrames = s.numFrames := by rw [h.rest]

theorem tableBase (h : Claims P old new s s') : s'.tableBase = s.tableBase := by rw [h.rest]

theorem physmapBase (h : Claims P old new s s') : s'.physmapBase = s.physmapBase := by rw [h.rest]

end Claims

section Claim

variable {s s' : Machine} {f : Nat} {old new : FrameOwner} {e : String}

theorem claim_returns : Returns (claimFrame f old new e) s () s' ↔
    s.tableBase ≠ 0 ∧ f < s.numFrames ∧ (s.frames f).owner = old ∧
      s' = s.setInfo f ((s.frames f).withOwner new) := by
  constructor
  · intro h
    obtain ⟨ok, s₁, hset, hok⟩ := returns_bind.1 h
    obtain ⟨hbase, hf, ⟨rfl, hold, rfl⟩ | ⟨rfl, -, rfl⟩⟩ :=
      trySetOwner_eq_some.1 (returns_orAbort.1 hset)
    · obtain ⟨-, rfl⟩ := returns_pure.1 hok
      exact ⟨hbase, hf, hold, rfl⟩
    · exact absurd hok returns_throw
  · rintro ⟨hbase, hf, hold, rfl⟩
    refine returns_bind.2 ⟨true, _, returns_orAbort.2 ?_, returns_pure.2 ⟨rfl, rfl⟩⟩
    exact trySetOwner_eq_some.2 ⟨hbase, hf, Or.inl ⟨rfl, hold, rfl⟩⟩

theorem claim_panics (hbase : s.tableBase ≠ 0) :
    Panics (claimFrame f old new e) s ↔ s.numFrames ≤ f := by
  rw [claimFrame, panics_bind, panics_orAbort]
  constructor
  · rintro (hnone | ⟨ok, s₁, -, hok⟩)
    · by_contra hf
      by_cases hold : (s.frames f).owner = old
      · have hsome : s.trySetOwner f old new = some (true, _) :=
          trySetOwner_eq_some.2 ⟨hbase, not_le.1 hf, Or.inl ⟨rfl, hold, rfl⟩⟩
        exact absurd (hnone.symm.trans hsome) (by simp)
      · have hsome : s.trySetOwner f old new = some (false, s) :=
          trySetOwner_eq_some.2 ⟨hbase, not_le.1 hf, Or.inr ⟨rfl, hold, rfl⟩⟩
        exact absurd (hnone.symm.trans hsome) (by simp)
    · split_ifs at hok
      · exact absurd hok panics_pure
      · exact absurd hok panics_throw
  · intro hf
    refine Or.inl (Option.eq_none_iff_forall_not_mem.2 ?_)
    rintro ⟨ok, s₁⟩ hset
    exact absurd (trySetOwner_eq_some.1 hset).2.1 (not_lt.2 hf)

end Claim

/-! ## The marking loop -/

/-- The frame is no legacy memory and is not skipped for the frame table and the heap. -/
def Poolable (ftPhys heapEnd f : Nat) : Prop :=
  legacyEnd ≤ f * frameSize ∧ ¬ (ftPhys ≤ f * frameSize ∧ f * frameSize < heapEnd)

/-- The frame lies in the region. -/
def MemoryRegion.Holds (r : MemoryRegion) (f : Nat) : Prop :=
  r.start ≤ f * frameSize ∧ f * frameSize < r.end

/-- The frame is in a usable region, and the marking loop does not skip it. -/
def Marked (regions : List MemoryRegion) (ftPhys heapEnd f : Nat) : Prop :=
  (∃ r ∈ regions, r.kind = .usable ∧ r.Holds f) ∧ Poolable ftPhys heapEnd f

/-- The entry of the frame table that marking reaches: frame numbers are cut to 32 bits. -/
def MarkedIndex (regions : List MemoryRegion) (ftPhys heapEnd f : Nat) : Prop :=
  ∃ idx, Marked regions ftPhys heapEnd idx ∧ idx % 2 ^ 32 = f

/-- Usable regions of whole frames below 16 TiB. -/
def Countable (regions : List MemoryRegion) : Prop :=
  ∀ r ∈ regions, r.kind = .usable →
    r.start % frameSize = 0 ∧ r.end % frameSize = 0 ∧ r.start ≤ r.end ∧ r.end < 2 ^ 44

section Mark

variable {s s' : Machine} {ftPhys heapEnd idx first n : Nat} {r : MemoryRegion}
  {regions : List MemoryRegion}

theorem markFrame_returns (hidx : idx * frameSize < 2 ^ 64) :
    Returns (markFrame ftPhys heapEnd idx) s () s' ↔
      Poolable ftPhys heapEnd idx ∧ s.tableBase ≠ 0 ∧ idx % 2 ^ 32 < s.numFrames ∧
          (s.frames (idx % 2 ^ 32)).owner = .reserved ∧
          s' = s.setInfo (idx % 2 ^ 32) ((s.frames (idx % 2 ^ 32)).withOwner .free) ∨
        ¬ Poolable ftPhys heapEnd idx ∧ s' = s := by
  unfold markFrame
  simp only [Nat.mod_eq_of_lt hidx]
  rw [returns_ite, returns_ite, claim_returns, returns_pure, Poolable]
  constructor
  · rintro (⟨hlow, -, rfl⟩ | ⟨hlow, ⟨hskip, -, rfl⟩ | ⟨hskip, hclaim⟩⟩)
    · exact Or.inr ⟨fun hp => absurd hlow (not_lt.2 hp.1), rfl⟩
    · exact Or.inr ⟨fun hp => hp.2 hskip, rfl⟩
    · exact Or.inl ⟨⟨not_lt.1 hlow, hskip⟩, hclaim⟩
  · rintro (⟨⟨hlow, hskip⟩, hclaim⟩ | ⟨hnot, rfl⟩)
    · exact Or.inr ⟨not_lt.2 hlow, Or.inr ⟨hskip, hclaim⟩⟩
    · by_cases hlow : idx * frameSize < legacyEnd
      · exact Or.inl ⟨hlow, rfl, rfl⟩
      · refine Or.inr ⟨hlow, Or.inl ⟨?_, rfl, rfl⟩⟩
        by_contra hskip
        exact hnot ⟨not_lt.1 hlow, hskip⟩

theorem markRegions_rest (h : Returns (markRegions ftPhys heapEnd regions) s () s') :
    s' = { s with frames := s'.frames } := by
  have hframe : ∀ {s s' : Machine} {idx}, Returns (markFrame ftPhys heapEnd idx) s () s' →
      s' = { s with frames := s'.frames } := by
    intro s s' idx h
    unfold markFrame at h
    dsimp only at h
    rw [returns_ite, returns_ite, claim_returns, returns_pure] at h
    rcases h with ⟨-, -, rfl⟩ | ⟨-, ⟨-, -, rfl⟩ | ⟨-, -, -, -, rfl⟩⟩
    · rfl
    · rfl
    · rfl
  have hframes : ∀ {first n} {s s' : Machine}, Returns (markFrames ftPhys heapEnd first n) s () s' →
      s' = { s with frames := s'.frames } := by
    intro first n
    induction n with
    | zero =>
        intro s s' h
        obtain ⟨-, rfl⟩ := returns_pure.1 h
        rfl
    | succ n ih =>
        intro s s' h
        obtain ⟨⟨⟩, s₁, h₁, h₂⟩ := returns_bind.1 h
        rw [hframe h₂, ih h₁]
  induction regions generalizing s with
  | nil =>
      obtain ⟨-, rfl⟩ := returns_pure.1 h
      rfl
  | cons r rest ih =>
      obtain ⟨⟨⟩, s₁, h₁, h₂⟩ := returns_bind.1 h
      unfold markRegion at h₁
      split_ifs at h₁
      · obtain ⟨-, rfl⟩ := returns_pure.1 h₁
        exact ih h₂
      · rw [ih h₂, hframes h₁]

theorem markFrames_claims (hbound : (first + n) * frameSize ≤ 2 ^ 64)
    (h : Returns (markFrames ftPhys heapEnd first n) s () s') :
    Claims (fun f => ∃ idx, (first ≤ idx ∧ idx < first + n) ∧ Poolable ftPhys heapEnd idx ∧
      idx % 2 ^ 32 = f) .reserved .free s s' := by
  induction n generalizing s' with
  | zero =>
      obtain ⟨-, rfl⟩ := returns_pure.1 h
      refine Claims.nothing ?_
      rintro f ⟨idx, hidx, -⟩
      omega
  | succ n ih =>
      obtain ⟨⟨⟩, s₁, h₁, h₂⟩ := returns_bind.1 h
      have hlt : (first + n) * frameSize < 2 ^ 64 :=
        lt_of_lt_of_le (Nat.mul_lt_mul_of_pos_right (by omega) (by decide)) hbound
      have hfirst := ih hlt.le h₁
      rcases (markFrame_returns hlt).1 h₂ with ⟨hpool, -, -, howner, rfl⟩ | ⟨hnot, rfl⟩
      · have hlast : Claims (fun f => f = (first + n) % 2 ^ 32) .reserved .free s₁ _ :=
          Claims.single howner fun _ => Iff.rfl
        refine (hfirst.trans hlast).congr fun f => ⟨?_, ?_⟩
        · rintro (⟨idx, ⟨hge, hlt⟩, hp⟩ | rfl)
          · exact ⟨idx, ⟨hge, by omega⟩, hp⟩
          · exact ⟨first + n, ⟨by omega, by omega⟩, hpool, rfl⟩
        · rintro ⟨idx, ⟨hge, hlt⟩, hp, rfl⟩
          by_cases hidx : idx = first + n
          · exact Or.inr (congrArg (· % 2 ^ 32) hidx)
          · exact Or.inl ⟨idx, ⟨hge, by omega⟩, hp, rfl⟩
      · refine hfirst.congr fun f => ⟨?_, ?_⟩
        · rintro ⟨idx, ⟨hge, hlt⟩, hp⟩
          exact ⟨idx, ⟨hge, by omega⟩, hp⟩
        · rintro ⟨idx, ⟨hge, hlt⟩, hp, rfl⟩
          have hidx : idx ≠ first + n := by
            rintro rfl
            exact hnot hp
          exact ⟨idx, ⟨hge, by omega⟩, hp, rfl⟩

/-- The sum in `ceil_div` may wrap to zero, and then the subtraction wraps back. -/
theorem ceilDiv_aligned {x : Nat} (hmod : x % frameSize = 0) (hlt : x < 2 ^ 64) :
    ceilDiv x frameSize = x / frameSize := by
  simp only [ceilDiv, frameSize, Word.add, Word.sub] at hmod ⊢
  omega

theorem holds_iff (hs : r.start % frameSize = 0) (hlt : r.start < 2 ^ 64)
    (he : r.end % frameSize = 0) (f : Nat) :
    ceilDiv r.start frameSize ≤ f ∧
      f < ceilDiv r.start frameSize + (ceilDiv r.end frameSize - ceilDiv r.start frameSize) ↔
    r.Holds f := by
  rw [ceilDiv_aligned hs hlt, ceilDiv_aligned he (end_lt r), MemoryRegion.Holds]
  simp only [frameSize] at hs he ⊢
  omega

/-- **The marking loop** frees the poolable frames of all usable regions. -/
theorem markRegions_marks (hregions : FrameAligned regions)
    (h : Returns (markRegions ftPhys heapEnd regions) s () s') :
    Claims (MarkedIndex regions ftPhys heapEnd) .reserved .free s s' := by
  induction regions generalizing s with
  | nil =>
      obtain ⟨-, rfl⟩ := returns_pure.1 h
      refine Claims.nothing ?_
      rintro f ⟨idx, ⟨⟨x, hx, -⟩, -⟩, -⟩
      simp at hx
  | cons r rest ih =>
      obtain ⟨⟨⟩, s₁, h₁, h₂⟩ := returns_bind.1 h
      have hrest := ih (fun x hx => hregions x (List.mem_cons_of_mem r hx)) h₂
      unfold markRegion at h₁
      by_cases hu : r.kind = .usable
      · rw [if_neg (not_not.2 hu)] at h₁
        obtain ⟨hlt, hs, he⟩ := hregions r List.mem_cons_self hu
        have hbound : (ceilDiv r.start frameSize +
            (ceilDiv r.end frameSize - ceilDiv r.start frameSize)) * frameSize ≤ 2 ^ 64 := by
          have hend := end_lt r
          rw [ceilDiv_aligned hs hlt, ceilDiv_aligned he hend]
          simp only [frameSize]
          omega
        refine ((markFrames_claims hbound h₁).trans hrest).congr fun f => ?_
        simp only [holds_iff hs hlt he]
        constructor
        · rintro (⟨idx, hin, hp, rfl⟩ | ⟨idx, ⟨⟨x, hx, hux, hin⟩, hp⟩, rfl⟩)
          · exact ⟨idx, ⟨⟨r, List.mem_cons_self, hu, hin⟩, hp⟩, rfl⟩
          · exact ⟨idx, ⟨⟨x, List.mem_cons_of_mem r hx, hux, hin⟩, hp⟩, rfl⟩
        · rintro ⟨idx, ⟨⟨x, hx, hux, hin⟩, hp⟩, rfl⟩
          rcases List.mem_cons.1 hx with rfl | hx
          · exact Or.inl ⟨idx, hin, hp, rfl⟩
          · exact Or.inr ⟨idx, ⟨⟨x, hx, hux, hin⟩, hp⟩, rfl⟩
      · rw [if_pos hu] at h₁
        obtain ⟨-, rfl⟩ := returns_pure.1 h₁
        refine hrest.congr fun f => exists_congr fun idx => and_congr_left fun _ => ?_
        refine and_congr_left fun _ => ?_
        constructor
        · rintro ⟨x, hx, hux, hin⟩
          exact ⟨x, List.mem_cons_of_mem r hx, hux, hin⟩
        · rintro ⟨x, hx, hux, hin⟩
          rcases List.mem_cons.1 hx with rfl | hx
          · exact absurd hux hu
          · exact ⟨x, hx, hux, hin⟩

theorem Marked.lt_total (h : Marked regions ftPhys heapEnd idx) (hal : FrameAligned regions) :
    idx < ceilDiv (maxUsableEnd regions) frameSize := by
  obtain ⟨⟨r, hr, hu, -, hlt⟩, -⟩ := h
  have hle := le_maxUsableEnd hr hu
  obtain ⟨hmod, hmax⟩ := maxUsableEnd_aligned hal
  rw [ceilDiv_aligned hmod hmax]
  simp only [frameSize] at hlt hmod ⊢
  omega

theorem markedIndex_iff (hregions : Countable regions) (f : Nat) :
    MarkedIndex regions ftPhys heapEnd f ↔ Marked regions ftPhys heapEnd f := by
  have hlt : ∀ {idx}, Marked regions ftPhys heapEnd idx → idx % 2 ^ 32 = idx := by
    rintro idx ⟨⟨r, hr, hu, hin⟩, -⟩
    obtain ⟨-, -, -, hend⟩ := hregions r hr hu
    have := hin.2
    simp only [frameSize] at this
    exact Nat.mod_eq_of_lt (by omega)
  constructor
  · rintro ⟨idx, hm, rfl⟩
    rw [hlt hm]
    exact hm
  · intro hm
    exact ⟨f, hm, hlt hm⟩

theorem markRegions_claims (hregions : Countable regions)
    (h : Returns (markRegions ftPhys heapEnd regions) s () s') :
    Claims (Marked regions ftPhys heapEnd) .reserved .free s s' := by
  have haligned : FrameAligned regions := by
    intro r hr hu
    obtain ⟨hs, he, hle, hlt⟩ := hregions r hr hu
    exact ⟨by omega, hs, he⟩
  exact (markRegions_marks haligned h).congr (markedIndex_iff hregions)

end Mark

/-! ## Untyped regions -/

/-- The frame is part of the range a spec asks for. -/
def UntypedSpec.Covers (spec : UntypedSpec) (f : Nat) : Prop :=
  spec.basePhys ≤ f * frameSize ∧ f * frameSize < spec.basePhys + spec.len

instance (spec : UntypedSpec) (f : Nat) : Decidable (spec.Covers f) :=
  inferInstanceAs (Decidable (_ ∧ _))

def UntypedSpec.firstFrame (spec : UntypedSpec) : Nat := spec.basePhys / frameSize

section Carve

variable {s s' : Machine} {id : UntypedId} {baseFrame n i : Nat} {spec : UntypedSpec}
  {cap : UntypedCap} {specs : List UntypedSpec} {out caps : List UntypedCap}

theorem carveFrames_claims (hbound : baseFrame + n ≤ 2 ^ 32)
    (h : Returns (carveFrames id baseFrame n) s () s') :
    Claims (fun f => baseFrame ≤ f ∧ f < baseFrame + n) .free (.untyped id) s s' ∧
      (0 < n → baseFrame + n ≤ s.numFrames) := by
  induction n generalizing s' with
  | zero =>
      obtain ⟨-, rfl⟩ := returns_pure.1 h
      exact ⟨Claims.nothing fun f hf => by omega, by simp⟩
  | succ n ih =>
      obtain ⟨⟨⟩, s₁, h₁, h₂⟩ := returns_bind.1 h
      obtain ⟨hfirst, hlt⟩ := ih (by omega) h₁
      rw [Nat.mod_eq_of_lt (show baseFrame + n < 2 ^ 32 by omega)] at h₂
      obtain ⟨-, hlast, howner, rfl⟩ := claim_returns.1 h₂
      have hone : Claims (fun f => f = baseFrame + n) .free (.untyped id) s₁ _ :=
        Claims.single howner fun _ => Iff.rfl
      refine ⟨(hfirst.trans hone).congr fun f => by omega, fun _ => ?_⟩
      rw [hfirst.numFrames] at hlast
      omega

theorem carveFrames_total (hbase : s.tableBase ≠ 0) (hbound : baseFrame + n ≤ 2 ^ 32)
    (hfree : ∀ f, baseFrame ≤ f → f < baseFrame + n → f < s.numFrames ∧ (s.frames f).owner = .free) :
    ∃ s', Returns (carveFrames id baseFrame n) s () s' := by
  induction n with
  | zero => exact ⟨s, returns_pure.2 ⟨rfl, rfl⟩⟩
  | succ n ih =>
      obtain ⟨s₁, h₁⟩ := ih (by omega) fun f hge hlt => hfree f hge (by omega)
      have hclaims := (carveFrames_claims (by omega) h₁).1
      obtain ⟨hlt, howner⟩ := hfree (baseFrame + n) (by omega) (by omega)
      refine ⟨s₁.setInfo (baseFrame + n) ((s₁.frames (baseFrame + n)).withOwner (.untyped id)),
        returns_bind.2 ⟨(), s₁, h₁, ?_⟩⟩
      rw [Nat.mod_eq_of_lt (show baseFrame + n < 2 ^ 32 by omega)]
      refine claim_returns.2 ⟨?_, ?_, ?_, rfl⟩
      · rw [hclaims.tableBase]
        exact hbase
      · rw [hclaims.numFrames]
        exact hlt
      · rw [hclaims.outside _ fun hf => by omega]
        exact howner

theorem carveUntypedRegion_cap (h : Returns (carveUntypedRegion spec id) s cap s') :
    cap = .new id spec.firstFrame (spec.len / frameSize) ∧ 0 < spec.len / frameSize ∧
      spec.firstFrame + spec.len / frameSize < listEnd ∧
      spec.firstFrame + spec.len / frameSize ≤ s.numFrames := by
  unfold carveUntypedRegion at h
  obtain ⟨-, h⟩ := (returns_guard fun _ _ => returns_throw).1 h
  obtain ⟨hrange, h⟩ := (returns_guard fun _ _ => returns_throw).1 h
  obtain ⟨⟨⟩, s₁, h₁, h₂⟩ := returns_bind.1 h
  obtain ⟨rfl, -⟩ := returns_pure.1 h₂
  simp only [not_or, ge_iff_le, not_le] at hrange
  have hpos : 0 < spec.len / frameSize := Nat.pos_of_ne_zero hrange.1
  refine ⟨?_, hpos, hrange.2, (carveFrames_claims (by omega) h₁).2 hpos⟩
  have hbase : spec.basePhys / frameSize < 2 ^ 32 :=
    (Nat.le_add_right _ _).trans_lt (hrange.2.trans (by decide))
  have hnum : spec.len / frameSize < 2 ^ 32 :=
    (Nat.le_add_left _ _).trans_lt (hrange.2.trans (by decide))
  rw [Nat.mod_eq_of_lt hbase, Nat.mod_eq_of_lt hnum]
  rfl

theorem carveUntypedRegion_claims (h : Returns (carveUntypedRegion spec id) s cap s') :
    Claims spec.Covers .free (.untyped id) s s' ∧
      spec.firstFrame < s.numFrames ∧ spec.Covers spec.firstFrame := by
  obtain ⟨-, hpos, -, hinside⟩ := carveUntypedRegion_cap h
  unfold carveUntypedRegion at h
  obtain ⟨hal, h⟩ := (returns_guard fun _ _ => returns_throw).1 h
  obtain ⟨hrange, h⟩ := (returns_guard fun _ _ => returns_throw).1 h
  obtain ⟨⟨⟩, s₁, h₁, h₂⟩ := returns_bind.1 h
  obtain ⟨-, rfl⟩ := returns_pure.1 h₂
  simp only [not_or, not_not, ne_eq, ge_iff_le, not_le] at hal hrange
  have hclaims := (carveFrames_claims (by omega) h₁).1
  refine ⟨hclaims.congr fun f => ?_, by omega, ?_⟩
  · simp only [UntypedSpec.Covers, frameSize] at hal ⊢
    omega
  · simp only [UntypedSpec.Covers, UntypedSpec.firstFrame, frameSize] at hal hrange ⊢
    omega

/-- What carving the specs did: each range became the untyped region of its index. -/
structure Carved (i : Nat) (specs : List UntypedSpec) (s s' : Machine) : Prop where
  covered : ∀ k spec, specs[k]? = some spec → ∀ f, spec.Covers f →
    (s.frames f).owner = .free ∧ (s'.frames f).owner = .untyped (BitVec.ofNat 32 (i + k))
  other : ∀ f, (∀ spec ∈ specs, ¬ spec.Covers f) → s'.frames f = s.frames f
  apart : specs.Pairwise fun spec spec' => ∀ f, ¬ (spec.Covers f ∧ spec'.Covers f)
  inside : ∀ spec ∈ specs, spec.firstFrame < s.numFrames ∧ spec.Covers spec.firstFrame
  rest : s' = { s with frames := s'.frames }

theorem carveSpecs_carved (h : Returns (carveSpecs i specs out) s caps s') : Carved i specs s s' := by
  induction specs generalizing i out s with
  | nil =>
      obtain ⟨-, rfl⟩ := returns_pure.1 h
      exact ⟨by simp, fun _ _ => rfl, List.Pairwise.nil, by simp, rfl⟩
  | cons spec specs ih =>
      obtain ⟨cap, s₁, h₁, h₂⟩ := returns_bind.1 h
      obtain ⟨hclaims, hfirst⟩ := carveUntypedRegion_claims h₁
      have hrest := ih h₂
      -- a frame of the first range is not free for the others
      have hapart : ∀ spec' ∈ specs, ∀ f, ¬ (spec.Covers f ∧ spec'.Covers f) := by
        rintro spec' hmem f ⟨hf, hf'⟩
        obtain ⟨k, hk⟩ := List.mem_iff_getElem?.1 hmem
        have hfree := (hrest.covered k spec' hk f hf').1
        rw [(hclaims.inside f hf).2] at hfree
        exact FrameOwner.untyped_ne_free _ hfree
      refine ⟨fun k spec' hk f hf => ?_, fun f hf => ?_, ?_, fun spec' hmem => ?_, ?_⟩
      · cases k with
        | zero =>
            obtain rfl : spec = spec' := by simpa using hk
            rw [hrest.other f fun x hx hcov => hapart x hx f ⟨hf, hcov⟩]
            exact hclaims.inside f hf
        | succ k =>
            have hk' : specs[k]? = some spec' := by simpa using hk
            obtain ⟨hfree, howner⟩ := hrest.covered k spec' hk' f hf
            have hnot : ¬ spec.Covers f := fun hcov =>
              hapart spec' (List.mem_iff_getElem?.2 ⟨k, hk'⟩) f ⟨hcov, hf⟩
            rw [hclaims.outside f hnot] at hfree
            rw [howner, Nat.add_assoc, Nat.add_comm 1]
            exact ⟨hfree, rfl⟩
      · rw [hrest.other f fun x hx => hf x (List.mem_cons_of_mem spec hx),
          hclaims.outside f (hf spec List.mem_cons_self)]
      · exact List.pairwise_cons.2 ⟨hapart, hrest.apart⟩
      · rcases List.mem_cons.1 hmem with rfl | hmem
        · exact hfirst
        · rw [← hclaims.numFrames]
          exact hrest.inside spec' hmem
      · rw [hrest.rest, hclaims.rest]

/-- There are no more specs than frames, so the ids do not wrap. -/
theorem Carved.length_le (h : Carved i specs s s') : specs.length ≤ s.numFrames := by
  have hnodup : (specs.map UntypedSpec.firstFrame).Nodup := by
    refine List.pairwise_map.2 (h.apart.imp_of_mem ?_)
    intro spec spec' hmem hmem' hapart heq
    refine hapart spec.firstFrame ⟨(h.inside spec hmem).2, ?_⟩
    rw [heq]
    exact (h.inside spec' hmem').2
  have hsub : specs.map UntypedSpec.firstFrame ⊆ List.range s.numFrames := by
    intro f hf
    obtain ⟨spec, hspec, rfl⟩ := List.mem_map.1 hf
    exact List.mem_range.2 (h.inside spec hspec).1
  have hle := (List.subperm_of_subset hnodup hsub).length_le
  rwa [List.length_map, List.length_range] at hle

end Carve

/-! ## The owners -/

/-- The owners `pmm_init` leaves. -/
structure Owners (regions : List MemoryRegion) (specs : List UntypedSpec) (ftPhys heapEnd : Nat)
    (s : Machine) : Prop where
  free : ∀ f, Marked regions ftPhys heapEnd f → (∀ spec ∈ specs, ¬ spec.Covers f) →
    (s.frames f).owner = .free
  untyped : ∀ k spec, specs[k]? = some spec → ∀ f, spec.Covers f →
    Marked regions ftPhys heapEnd f ∧ (s.frames f).owner = .untyped (BitVec.ofNat 32 k)
  reserved : ∀ f, ¬ Marked regions ftPhys heapEnd f → (s.frames f).owner = .reserved
  specs_le : specs.length ≤ s.numFrames

section Run

variable {boot : BootInfo} {specs : List UntypedSpec} {outUntyped caps : List UntypedCap}
  {heapLen ftPhys heapEnd : Nat} {mem : ByteMem} {info : PmInitOut}
  {s' s₁ s₂ s₃ s₄ s₅ s₆ : Machine} {regions : List MemoryRegion} {bootAlloc : BootAllocator}

theorem InitRun.kept (h : InitRun boot specs outUntyped heapLen (Machine.reset mem) info caps s'
      regions ftPhys heapEnd bootAlloc s₁ s₂ s₃ s₄ s₅ s₆) :
    s'.tableBase = s₄.tableBase ∧ s'.physmapBase = s₄.physmapBase ∧
      s'.numFrames = info.totalFrames := by
  obtain ⟨-, hnum₄, -⟩ := h.unmarked
  obtain ⟨mem₇, hs'⟩ := buildGlobalFreelist_state h.pool
  rw [hs', (carveSpecs_carved h.carve).rest, markRegions_rest h.mark]
  refine ⟨rfl, rfl, ?_⟩
  show s₄.numFrames = info.totalFrames
  rw [hnum₄, h.info]

theorem InitRun.tablePhys (h : InitRun boot specs outUntyped heapLen (Machine.reset mem) info caps s'
      regions ftPhys heapEnd bootAlloc s₁ s₂ s₃ s₄ s₅ s₆) (hft : ftPhys < 2 ^ 64)
    (hphys : boot.physmapBase < 2 ^ 64) :
    s'.tablePhys = ftPhys ∧ s'.numFrames = info.totalFrames := by
  obtain ⟨-, -, hbase₄, -, hphys₄, -⟩ := h.unmarked
  obtain ⟨hbase, hmap, hnum⟩ := h.kept
  refine ⟨?_, hnum⟩
  rw [Machine.tablePhys, hbase, hmap, hbase₄, hphys₄]
  unfold Word.sub Word.add
  omega

/-- **Which frames `pmm_init` hands out**, whatever the map. -/
theorem InitRun.markedIndex (h : InitRun boot specs outUntyped heapLen (Machine.reset mem) info caps
      s' regions ftPhys heapEnd bootAlloc s₁ s₂ s₃ s₄ s₅ s₆) (hregions : FrameAligned regions) (f : Nat) :
    ((s'.frames f).owner.tag = .free ∨ (s'.frames f).owner.tag = .untyped) ↔
      MarkedIndex regions ftPhys heapEnd f := by
  obtain ⟨hzero, -⟩ := h.unmarked
  have hmark := markRegions_marks hregions h.mark
  have hcarve := carveSpecs_carved h.carve
  obtain ⟨mem₇, hs'⟩ := buildGlobalFreelist_state h.pool
  have hframes : s'.frames = s₆.frames := by rw [hs']
  rw [hframes]
  by_cases hcov : ∃ spec ∈ specs, spec.Covers f
  · obtain ⟨spec, hspec, hcov⟩ := hcov
    obtain ⟨k, hk⟩ := List.mem_iff_getElem?.1 hspec
    obtain ⟨hfree, howner⟩ := hcarve.covered k spec hk f hcov
    refine iff_of_true (Or.inr (by rw [howner]; rfl)) ?_
    by_contra hnot
    rw [hmark.outside f hnot, hzero] at hfree
    exact absurd hfree (show FrameInfo.zeroed.owner ≠ .free by decide)
  · rw [hcarve.other f fun spec hspec hc => hcov ⟨spec, hspec, hc⟩]
    by_cases hm : MarkedIndex regions ftPhys heapEnd f
    · refine iff_of_true (Or.inl ?_) hm
      rw [(hmark.inside f hm).2]
      rfl
    · refine iff_of_false ?_ hm
      rw [hmark.outside f hm, hzero]
      exact show ¬ (FrameInfo.zeroed.owner.tag = .free ∨ FrameInfo.zeroed.owner.tag = .untyped) by
        decide

/-- **The owners after `pmm_init`.** -/
theorem InitRun.owners (h : InitRun boot specs outUntyped heapLen (Machine.reset mem) info caps s'
      regions ftPhys heapEnd bootAlloc s₁ s₂ s₃ s₄ s₅ s₆) (hregions : Countable regions) :
    Owners regions specs ftPhys heapEnd s' := by
  obtain ⟨hzero, -⟩ := h.unmarked
  have hmark := markRegions_claims hregions h.mark
  have hcarve := carveSpecs_carved h.carve
  obtain ⟨mem₇, hs'⟩ := buildGlobalFreelist_state h.pool
  have hframes : s'.frames = s₆.frames := by rw [hs']
  have hnum' : s'.numFrames = s₅.numFrames := by rw [hs', hcarve.rest]
  refine ⟨fun f hf hnot => ?_, fun k spec hk f hcov => ?_, fun f hf => ?_, ?_⟩
  · rw [hframes, hcarve.other f hnot]
    exact (hmark.inside f hf).2
  · obtain ⟨hfree, howner⟩ := hcarve.covered k spec hk f hcov
    rw [hframes, howner, Nat.zero_add]
    refine ⟨?_, rfl⟩
    by_contra hnot
    rw [hmark.outside f hnot, hzero] at hfree
    exact absurd hfree (show FrameInfo.zeroed.owner ≠ .free by decide)
  · -- a frame that was not marked is reserved, so no spec covers it
    have hreserved : (s₅.frames f).owner = .reserved := by
      rw [hmark.outside f hf, hzero]
      rfl
    rw [hframes, hcarve.other f, hreserved]
    intro spec hspec hcov
    obtain ⟨k, hk⟩ := List.mem_iff_getElem?.1 hspec
    have hfree := (hcarve.covered k spec hk f hcov).1
    rw [hreserved] at hfree
    exact absurd hfree (by decide)
  · rw [hnum']
    exact hcarve.length_le

/-- What `pmm_init` did, whatever the map: where it put things, which frames it hands out, and what
it reported. -/
structure PmmLaidOut (boot : BootInfo) (heapLen : Nat) (info : PmInitOut) (s : Machine)
    (heapPhys heapEnd : Nat) (before : List MemoryRegion) (r : MemoryRegion)
    (after : List MemoryRegion) : Prop where
  aligned : FrameAligned boot.effective
  layout : Layout boot.effective (tableBytes boot.effective) heapLen s.tablePhys heapPhys
    before r after
  bytes : s.numFrames * FrameInfo.size = tableBytes boot.effective
  heapEnd_eq : heapEnd = if heapLen = 0 then s.tablePhys + tableBytes boot.effective
    else heapPhys + heapLen
  marked : ∀ f, ((s.frames f).owner.tag = .free ∨ (s.frames f).owner.tag = .untyped) ↔
    MarkedIndex boot.effective s.tablePhys heapEnd f
  heapPhys_eq : info.heapPhys = if heapLen = 0 then 0 else heapPhys
  heapLen_eq : info.heapLen = heapLen

theorem InitRun.laidOut (h : InitRun boot specs outUntyped heapLen (Machine.reset mem) info caps s'
      boot.effective ftPhys heapEnd bootAlloc s₁ s₂ s₃ s₄ s₅ s₆) (hu64 : boot.IsU64) :
    s'.tablePhys = ftPhys ∧ s'.numFrames = info.totalFrames ∧ ∃ heapPhys before r after,
      PmmLaidOut boot heapLen info s' heapPhys heapEnd before r after := by
  have hal := effective_aligned hu64 h.aligned
  obtain ⟨heapPhys, before, r, after, hlayout, hend, hheap⟩ := h.layout hal
  have hmem : r ∈ boot.effective := by rw [hlayout.split]; simp
  have hft : ftPhys < 2 ^ 64 := by
    rw [hlayout.table]
    exact (hal r hmem hlayout.fits.1).1
  obtain ⟨htable, hnum⟩ := h.tablePhys hft hu64.physmap
  have hmarked := h.markedIndex hal
  rw [← htable] at hlayout hend hmarked
  exact ⟨htable, hnum, heapPhys, before, r, after, {
    aligned := hal
    layout := hlayout
    bytes := by rw [hnum, h.info]; rfl
    heapEnd_eq := hend
    marked := hmarked
    heapPhys_eq := hheap
    heapLen_eq := by rw [h.info] }⟩

theorem pmmInit_laidOut (hu64 : boot.IsU64)
    (h : Returns (pmmInit boot specs outUntyped heapLen) (Machine.reset mem) (info, caps) s') :
    0 < tableBytes boot.effective ∧ ∃ heapPhys heapEnd before r after,
      PmmLaidOut boot heapLen info s' heapPhys heapEnd before r after := by
  obtain ⟨regions, ftPhys, heapEnd, bootAlloc, s₁, s₂, s₃, s₄, s₅, s₆, hrun⟩ := pmmInit_returns h
  obtain ⟨rfl, -⟩ := buildEffective_returns hrun.effective
  obtain ⟨-, -, heapPhys, before, r, after, hlaid⟩ := hrun.laidOut hu64
  exact ⟨tableBytes_pos hlaid.aligned hrun.nonempty, heapPhys, heapEnd, before, r, after, hlaid⟩

theorem effective_countable (hbelow : boot.Below16TiB)
    (hle : ∀ r ∈ boot.regions, r.kind = .usable → r.start ≤ r.end) (hu64 : boot.IsU64)
    (hal : ∀ r ∈ boot.regions, misaligned r = false) : Countable boot.effective := by
  intro r hr hu
  obtain ⟨-, hs, he⟩ := effective_aligned hu64 hal r hr hu
  have hlt : r.end < 2 ^ 44 := by
    have hend : ∀ r ∈ boot.regions, r.kind = .usable → r.end ≤ 2 ^ 44 - 1 := by
      intro r hr hu
      have := hbelow r hr hu
      omega
    have := effective_end_le hend r hr hu
    omega
  refine ⟨hs, he, ?_, hlt⟩
  obtain ⟨region, hregion, hpart⟩ := List.mem_flatMap.1 hr
  rcases mem_regionParts hpart with ⟨rfl, -⟩ | ⟨-, -, -, ⟨hs, he, hlt, -⟩ | ⟨hs, he, -, hlt⟩⟩
  · exact hle r hregion hu
  · omega
  · omega

theorem BootInfo.MapOk.countable (hmap : boot.MapOk) (hu64 : boot.IsU64)
    (hal : ∀ r ∈ boot.regions, misaligned r = false) : Countable boot.effective := by
  refine effective_countable hmap.below16TiB ?_ hu64 hal
  intro r hr hu
  rw [hmap.end_eq hr hu]
  exact Nat.le_add_right _ _

/-- What `pmm_init` did with a map without overlaps: where it put things, who owns the frames, and
what it reported. -/
structure PmmPlaced (boot : BootInfo) (specs : List UntypedSpec) (heapLen : Nat) (info : PmInitOut)
    (s : Machine) (heapPhys heapEnd : Nat) (before : List MemoryRegion) (r : MemoryRegion)
    (after : List MemoryRegion) : Prop where
  whole : ∀ r ∈ boot.regions, misaligned r = false
  aligned : FrameAligned boot.effective
  layout : Layout boot.effective (info.totalFrames * FrameInfo.size) heapLen s.tablePhys heapPhys
    before r after
  bytes : info.totalFrames * FrameInfo.size = tableBytes boot.effective
  heapEnd_eq : heapEnd = if heapLen = 0 then s.tablePhys + info.totalFrames * FrameInfo.size
    else heapPhys + heapLen
  owners : Owners boot.effective specs s.tablePhys heapEnd s
  total_pos : 0 < info.totalFrames
  numFrames : s.numFrames = info.totalFrames
  numFrames_le : s.numFrames ≤ listEnd
  freeFrames : info.freeFrames = (s.freeBelow info.totalFrames).length
  heapPhys_eq : info.heapPhys = if heapLen = 0 then 0 else heapPhys
  heapLen_eq : info.heapLen = heapLen

theorem pmmInit_placed (hu64 : boot.IsU64) (hmap : boot.MapOk)
    (h : Returns (pmmInit boot specs outUntyped heapLen) (Machine.reset mem) (info, caps) s') :
    ∃ heapPhys heapEnd before r after,
      PmmPlaced boot specs heapLen info s' heapPhys heapEnd before r after := by
  obtain ⟨regions, ftPhys, heapEnd, bootAlloc, s₁, s₂, s₃, s₄, s₅, s₆, hrun⟩ := pmmInit_returns h
  obtain ⟨rfl, -⟩ := buildEffective_returns hrun.effective
  obtain ⟨htable, hnum, heapPhys, before, r, after, hlaid⟩ := hrun.laidOut hu64
  have hbytes : info.totalFrames * FrameInfo.size = tableBytes boot.effective := by
    rw [← hnum]
    exact hlaid.bytes
  have howners := hrun.owners (hmap.countable hu64 hrun.aligned)
  rw [← htable] at howners
  have hbooting := hrun.booting
  have hle := hrun.total_le hmap.below16TiB
  have htotal : info.totalFrames = ceilDiv (maxUsableEnd boot.effective) frameSize := by
    rw [hrun.info]
  have hfree : info.freeFrames = (s'.freeBelow info.totalFrames).length := by
    have hnum₆ := hbooting.numFrames
    obtain ⟨hcnt, -⟩ := buildGlobalFreelist_spec hbooting.table (by rw [hnum₆]; exact hle) hrun.pool
    rw [hcnt, hnum₆, ← htotal, freeBelow, freeBelow, buildGlobalFreelist_frames hrun.pool]
  have hpos : 0 < info.totalFrames := by
    have hpos := tableBytes_pos hlaid.aligned hrun.nonempty
    rw [← hbytes] at hpos
    exact Nat.pos_of_mul_pos_right hpos
  exact ⟨heapPhys, heapEnd, before, r, after, {
    whole := hrun.aligned
    aligned := hlaid.aligned
    layout := by rw [hbytes]; exact hlaid.layout
    bytes := hbytes
    heapEnd_eq := by rw [hbytes]; exact hlaid.heapEnd_eq
    owners := howners
    total_pos := hpos
    numFrames := hnum
    numFrames_le := by rw [hnum, htotal]; exact hle
    freeFrames := hfree
    heapPhys_eq := hlaid.heapPhys_eq
    heapLen_eq := hlaid.heapLen_eq }⟩

end Run

/-! ## The pool -/

section Pool

variable {boot : BootInfo} {specs : List UntypedSpec} {heapLen heapPhys heapEnd f x : Nat}
  {info : PmInitOut} {s : Machine} {before after : List MemoryRegion} {r : MemoryRegion}

/-- A byte of the frame. -/
def InFrame (f x : Nat) : Prop := f * frameSize ≤ x ∧ x < f * frameSize + frameSize

/-- A byte of the heap. -/
def PmInitOut.InHeap (info : PmInitOut) (x : Nat) : Prop :=
  info.heapPhys ≤ x ∧ x < info.heapPhys + info.heapLen

theorem InFrame.le_of_aligned {a : Nat} (h : InFrame f x) (ha : a % frameSize = 0) (hle : a ≤ x) :
    a ≤ f * frameSize := by
  obtain ⟨-, hlt⟩ := h
  simp only [frameSize] at ha hlt ⊢
  omega

namespace PmmPlaced

theorem table_aligned (h : PmmPlaced boot specs heapLen info s heapPhys heapEnd before r after) :
    s.tablePhys % frameSize = 0 := by
  rw [h.layout.table]
  exact (h.aligned r (by rw [h.layout.split]; simp) h.layout.fits.1).2.1

theorem heap_aligned (h : PmmPlaced boot specs heapLen info s heapPhys heapEnd before r after)
    (hlen : heapLen ≠ 0) : heapPhys % frameSize = 0 := by
  rcases h.layout.heap hlen with ⟨heq, -⟩ | ⟨-, mid, r', last, hafter, -, hfits, heq⟩
  · rw [heq]
    exact (Word.alignUp_aligned (k := 12) (by decide)).1
  · rw [heq]
    refine (h.aligned r' ?_ hfits.1).2.1
    rw [h.layout.split, hafter]
    simp

theorem marked (h : PmmPlaced boot specs heapLen info s heapPhys heapEnd before r after)
    (howner : (s.frames f).owner.tag = .free ∨ (s.frames f).owner.tag = .untyped) :
    Marked boot.effective s.tablePhys heapEnd f := by
  by_contra hnot
  rw [h.owners.reserved f hnot] at howner
  exact absurd howner (by decide)

theorem marked_clear (h : PmmPlaced boot specs heapLen info s heapPhys heapEnd before r after)
    (horder : boot.effective.Pairwise EndsBefore)
    (hf : Marked boot.effective s.tablePhys heapEnd f) (hx : InFrame f x) :
    ¬ s.InTable x ∧ ¬ info.InHeap x := by
  have hpos : 0 < info.totalFrames * FrameInfo.size := Nat.mul_pos h.total_pos (by decide)
  have hle := hx.1
  have hend := h.heapEnd_eq
  have hskip := hf.2.2
  constructor
  · rintro ⟨hge, hlt⟩
    refine hskip ⟨hx.le_of_aligned h.table_aligned hge, ?_⟩
    rw [h.numFrames] at hlt
    by_cases hlen : heapLen = 0
    · rw [if_pos hlen] at hend
      omega
    · have := h.layout.heap_after h.aligned horder hpos hlen
      rw [if_neg hlen] at hend
      omega
  · rintro ⟨hge, hlt⟩
    by_cases hlen : heapLen = 0
    · rw [h.heapLen_eq] at hlt
      omega
    · have hafter := h.layout.heap_after h.aligned horder hpos hlen
      rw [h.heapPhys_eq, if_neg hlen] at hge hlt
      rw [h.heapLen_eq] at hlt
      rw [if_neg hlen] at hend
      have := hx.le_of_aligned (h.heap_aligned hlen) hge
      exact hskip ⟨by omega, by omega⟩

end PmmPlaced

/-- The image a linker provides does not wrap, so its rounded bounds are exact. -/
theorem imageFits_of_lt (himage : boot.kernelImage.1 + boot.kernelImage.2 < 2 ^ 63) :
    boot.ImageFits := by
  intro _
  simp only [frameSize]
  omega

theorem Marked.usable {ftPhys : Nat} (hf : Marked boot.effective ftPhys heapEnd f)
    (hu64 : boot.IsU64) (hmap : boot.MapOk) (hal : ∀ r ∈ boot.regions, misaligned r = false)
    (himage : boot.kernelImage.1 + boot.kernelImage.2 < 2 ^ 63) :
    (∃ r ∈ boot.regions, r.kind = .usable ∧ r.start ≤ f * frameSize ∧
      f * frameSize + frameSize ≤ r.start + r.len) ∧ ∀ x, InFrame f x → ¬ boot.InImage x := by
  obtain ⟨⟨part, hpart, hu, hin⟩, -⟩ := hf
  obtain ⟨region, hregion, hu', hge, hlt, hout⟩ :=
    exists_effective_iff.1 ⟨part, hpart, hu, hin.1, hin.2⟩
  refine ⟨⟨region, hregion, hu', hge, ?_⟩, fun x hx hxin => hout ?_⟩
  · have hmod := mod_frameSize_end (hal region hregion) hu'
    rw [← hmap.end_eq hregion hu']
    simp only [frameSize] at hmod hlt ⊢
    omega
  · obtain ⟨hlen, hge', hlt'⟩ := (inImage_iff (imageFits_of_lt himage)).1 hxin
    refine ⟨hlen, hx.le_of_aligned ?_ hge', lt_of_le_of_lt hx.1 hlt'⟩
    rw [imageStart_eq hu64 hlen]
    exact Nat.mul_mod_left _ _

theorem PmmPlaced.untyped_iff (h : PmmPlaced boot specs heapLen info s heapPhys heapEnd before r after)
    {i : Nat} {spec : UntypedSpec} (hi : specs[i]? = some spec) :
    (s.frames f).owner = .untyped (BitVec.ofNat 32 i) ↔ spec.Covers f := by
  refine ⟨fun howner => ?_, fun hcov => (h.owners.untyped i spec hi f hcov).2⟩
  have hmarked := h.marked (f := f) (Or.inr (by rw [howner]; rfl))
  by_contra hnot
  by_cases hany : ∃ spec' ∈ specs, spec'.Covers f
  · -- another spec has another id
    obtain ⟨spec', hmem, hcov⟩ := hany
    obtain ⟨k, hk⟩ := List.mem_iff_getElem?.1 hmem
    have hk' := (h.owners.untyped k spec' hk f hcov).2
    have hid : BitVec.ofNat 32 k = BitVec.ofNat 32 i := by
      rw [hk'] at howner
      exact congrArg FrameOwner.id howner
    have hlen := h.owners.specs_le
    have hle := h.numFrames_le
    have hklt := (List.getElem?_eq_some_iff.1 hk).1
    have hilt := (List.getElem?_eq_some_iff.1 hi).1
    simp only [listEnd] at hle
    have heq := congrArg BitVec.toNat hid
    rw [BitVec.toNat_ofNat, BitVec.toNat_ofNat, Nat.mod_eq_of_lt (by omega),
      Nat.mod_eq_of_lt (by omega)] at heq
    rw [heq, hi] at hk
    exact hnot (Option.some.inj hk ▸ hcov)
  · have hfree := h.owners.free f hmarked fun spec' hmem hcov => hany ⟨spec', hmem, hcov⟩
    rw [howner] at hfree
    exact FrameOwner.untyped_ne_free _ hfree

end Pool

/-- **`pmm_init` never puts reserved memory in the pool.** -/
theorem pmmInit_pool {boot : BootInfo} {specs : List UntypedSpec} {outUntyped caps : List UntypedCap}
    {heapLen : Nat} {mem : ByteMem} {info : PmInitOut} {s : Machine} (hu64 : boot.IsU64)
    (hmap : boot.MapOk) (himage : boot.kernelImage.1 + boot.kernelImage.2 < 2 ^ 63)
    (h : Returns (pmmInit boot specs outUntyped heapLen) (Machine.reset mem) (info, caps) s) :
    (∀ f < info.totalFrames,
      (s.frames f).owner.tag = .free ∨ (s.frames f).owner.tag = .untyped →
        (∃ r ∈ boot.regions, r.kind = .usable ∧ r.start ≤ f * frameSize ∧
          f * frameSize + frameSize ≤ r.start + r.len) ∧
        legacyEnd ≤ f * frameSize ∧
        ∀ x, InFrame f x → ¬ boot.InImage x ∧ ¬ s.InTable x ∧ ¬ info.InHeap x) ∧
    (∀ i spec, specs[i]? = some spec → ∀ f,
      (s.frames f).owner = .untyped (BitVec.ofNat 32 i) ↔ spec.Covers f) ∧
    info.freeFrames =
      ((List.range info.totalFrames).filter fun f => (s.frames f).owner.tag = .free).length := by
  obtain ⟨heapPhys, heapEnd, before, r, after, hplaced⟩ := pmmInit_placed hu64 hmap h
  have horder := effective_endsBefore hmap (imageStart_le_imageEnd (imageFits_of_lt himage))
  refine ⟨?_, fun i spec hi f => hplaced.untyped_iff hi, hplaced.freeFrames⟩
  intro f _ howner
  have hmarked := hplaced.marked howner
  obtain ⟨husable, hclear⟩ := hmarked.usable hu64 hmap hplaced.whole himage
  refine ⟨husable, hmarked.2.1, fun x hx => ⟨hclear x hx, ?_⟩⟩
  exact hplaced.marked_clear horder hmarked hx

/-- Ten usable frames above the legacy area: the first is the kernel image, two hold the frame
table, one the heap. -/
def poolBoot : BootInfo where
  physmapBase := 0xffff800000000000
  regions := [⟨0x100000, 0xa000, .usable⟩, ⟨0x200000, 0x1000, .reserved⟩]
  kernelImage := (0x100000, 0x800)

theorem poolBoot_mapOk : poolBoot.MapOk := by
  refine ⟨by decide, ?_, by decide⟩
  refine List.pairwise_pair.2 fun x hx => ?_
  simp only [MemoryRegion.Contains] at hx
  omega

/-- One frame of the pool becomes an untyped region. -/
theorem pmmInit_pool_small :
    ∃ info caps s, Returns (pmmInit poolBoot [⟨0x108000, 0x1000⟩] [UntypedCap.new 0 0 0] 0x1000)
        (Machine.reset fun _ => 0) (info, caps) s ∧
      (s.frames 0x108).owner = .untyped 0 ∧ (s.frames 0x107).owner ≠ .untyped 0 := by
  have hrun : (finish (pmmInit poolBoot [⟨0x108000, 0x1000⟩] [UntypedCap.new 0 0 0] 0x1000)
      (Machine.reset fun _ => 0)).isSome = true := by
    decide +kernel
  obtain ⟨⟨⟨info, caps⟩, s⟩, hinit⟩ := Option.isSome_iff_exists.1 hrun
  have hreturns := returns_of_finish hinit
  have huntyped := (pmmInit_pool ⟨by decide, by decide, by decide⟩ poolBoot_mapOk (by decide)
    hreturns).2.1 0 ⟨0x108000, 0x1000⟩ rfl
  refine ⟨info, caps, s, hreturns, (huntyped 0x108).2 ?_, fun howner => ?_⟩
  · simp [UntypedSpec.Covers, frameSize]
  · have hcov := (huntyped 0x107).1 howner
    simp [UntypedSpec.Covers, frameSize] at hcov

end Rolnix
