import Rolnix.PmmProof
import Mathlib.Data.Nat.Count

/-!
# Generations

`release_frame` and the drains behind `unpin_frame` and `remove_mapping` bump a frame's generation
when they put it back on a free list, and nothing else touches it. So the generation of a frame is
the number of times the frame has become free (`gen_eq`), and it stamps the time between two
releases: while it stands still, a frame that was in use stays in use (`generation_stamps`).

The step lemma is `PmmStep.aged`, one frame at a time: whatever the call, the generation moves by
one exactly if the frame becomes free, and a reserved frame stays reserved.
-/

namespace Rolnix

open Relation

/-! ## One step -/

/-- The frame goes back to a free list. -/
def BecomesFree (i i' : FrameInfo) : Prop := i.ownerTag ≠ .free ∧ i'.ownerTag = .free

instance (i i' : FrameInfo) : Decidable (BecomesFree i i') := inferInstanceAs (Decidable (_ ∧ _))

/-- What a step may do to the generation of a frame, and to a reserved frame. -/
structure Aged (i i' : FrameInfo) : Prop where
  gen : i'.gen = i.gen + if BecomesFree i i' then 1 else 0
  reserved : i.ownerTag = .reserved → i'.ownerTag = .reserved

namespace Aged

variable {i i' : FrameInfo}

theorem kept (hgen : i'.gen = i.gen) (howner : i'.owner = i.owner) : Aged i i' := by
  have htag : i'.ownerTag = i.ownerTag := congrArg FrameOwner.tag howner
  refine ⟨?_, fun hres => htag.trans hres⟩
  have hnot : ¬ BecomesFree i i' := fun h => h.1 (htag ▸ h.2)
  rw [if_neg hnot, hgen]
  exact (BitVec.add_zero i.gen).symm

theorem moved (hgen : i'.gen = i.gen) (hfree : i'.ownerTag ≠ .free) (hres : i.ownerTag ≠ .reserved) :
    Aged i i' := by
  refine ⟨?_, fun h => absurd h hres⟩
  have hnot : ¬ BecomesFree i i' := fun h => hfree h.2
  rw [if_neg hnot, hgen]
  exact (BitVec.add_zero i.gen).symm

theorem freed (hfree : i.ownerTag ≠ .free) (hres : i.ownerTag ≠ .reserved) :
    Aged i (i.withOwner .free).bumpGen := by
  refine ⟨?_, fun h => absurd h hres⟩
  have hback : BecomesFree i (i.withOwner .free).bumpGen := ⟨hfree, rfl⟩
  rw [if_pos hback]
  rfl

theorem drained {info : FrameInfo} (hgen : info.gen = i.gen) (howner : info.owner = i.owner) :
    Aged i (Machine.drained info) := by
  have htag : info.ownerTag = i.ownerTag := congrArg FrameOwner.tag howner
  unfold Machine.drained
  split_ifs with hready
  · have hpend : i.ownerTag = .pending := htag ▸ hready.1
    have hback : BecomesFree i (info.withOwner .free).bumpGen := ⟨by rw [hpend]; decide, rfl⟩
    refine ⟨?_, fun hres => absurd (hres.symm.trans hpend) (by decide)⟩
    rw [if_pos hback, ← hgen]
    rfl
  · exact kept hgen howner

end Aged

open Machine

/-- **The step lemma.** The generation of a frame moves by one if the frame becomes free, and not
otherwise; a reserved frame stays reserved. -/
theorem PmmStep.aged {s s' : Machine} (hstep : PmmStep s s') (f : Nat) :
    Aged (s.frames f) (s'.frames f) := by
  obtain ⟨op, -, hexec⟩ := hstep
  have hchange := exec_change hexec f
  generalize s.frames f = i at hchange
  generalize s'.frames f = i' at hchange
  cases hchange with
  | same => exact .kept rfl rfl
  | taken hfree => exact .moved rfl (fun h => by cases h) (by rw [FrameInfo.ownerTag, hfree]; decide)
  | deferred hres => exact .moved rfl (fun h => by cases h) hres
  | freed hres hfree => exact .freed hfree hres
  | pinned | mapped => exact .kept rfl rfl
  | unpinned | unmapped => exact .drained rfl rfl
  | retyped cap domain howner =>
      refine .moved rfl (fun h => by cases h) fun htag => ?_
      rw [FrameInfo.ownerTag, howner] at htag
      cases htag

/-! ## Whole runs -/

/-- How often frame `f` became free in the first `n` steps of a run. -/
def frees (σ : Nat → Machine) (f n : Nat) : Nat :=
  Nat.count (fun k => BecomesFree ((σ k).frames f) ((σ (k + 1)).frames f)) n

section Run

variable {σ : Nat → Machine} {f n i j k : Nat}

theorem frees_succ (σ : Nat → Machine) (f n : Nat) :
    frees σ f (n + 1) =
      frees σ f n + if BecomesFree ((σ n).frames f) ((σ (n + 1)).frames f) then 1 else 0 :=
  Nat.count_succ _ n

theorem frees_mono (h : i ≤ j) : frees σ f i ≤ frees σ f j := Nat.count_monotone _ h

/-- **The run lemma.** The generation counts how often the frame became free. -/
theorem gen_eq (h₀ : Unreleased (σ 0)) (hrun : ∀ k < n, PmmStep (σ k) (σ (k + 1))) (hi : i ≤ n) :
    ((σ i).frames f).gen = BitVec.ofNat 32 (frees σ f i) := by
  induction i with
  | zero => exact h₀ f
  | succ i ih =>
      rw [((hrun i hi).aged f).gen, ih (Nat.le_of_succ_le hi), frees_succ, BitVec.ofNat_add]
      split_ifs
      · rfl
      · rfl

/-- Below `2 ^ 32` releases the generation does not wrap. -/
theorem gen_toNat (h₀ : Unreleased (σ 0)) (hrun : ∀ k < n, PmmStep (σ k) (σ (k + 1)))
    (hfew : frees σ f n < 2 ^ 32) (hi : i ≤ n) : ((σ i).frames f).gen.toNat = frees σ f i := by
  have hle : frees σ f i ≤ frees σ f n := frees_mono hi
  rw [gen_eq h₀ hrun hi, BitVec.toNat_ofNat, Nat.mod_eq_of_lt (by omega)]

theorem not_free_of_frees_eq (hsame : frees σ f i = frees σ f j)
    (hused : ((σ i).frames f).ownerTag ≠ .free) (hik : i ≤ k) (hkj : k ≤ j) :
    ((σ k).frames f).ownerTag ≠ .free := by
  induction k, hik using Nat.le_induction with
  | base => exact hused
  | succ k hik ih =>
      intro hfree
      have hback : BecomesFree ((σ k).frames f) ((σ (k + 1)).frames f) :=
        ⟨ih (Nat.le_of_succ_le hkj), hfree⟩
      have hsucc := frees_succ σ f k
      rw [if_pos hback] at hsucc
      have hle : frees σ f i ≤ frees σ f k := frees_mono hik
      have hle' : frees σ f (k + 1) ≤ frees σ f j := frees_mono hkj
      omega

theorem reserved_run (h₀ : Unreleased (σ 0)) (hrun : ∀ k < n, PmmStep (σ k) (σ (k + 1)))
    (hres : ((σ 0).frames f).ownerTag = .reserved) (hi : i ≤ n) :
    ((σ i).frames f).ownerTag = .reserved ∧ ((σ i).frames f).gen = 0 := by
  induction i with
  | zero => exact ⟨hres, h₀ f⟩
  | succ i ih =>
      obtain ⟨htag, hgen⟩ := ih (Nat.le_of_succ_le hi)
      have haged := (hrun i hi).aged f
      have htag' := haged.reserved htag
      refine ⟨htag', ?_⟩
      have hnot : ¬ BecomesFree ((σ i).frames f) ((σ (i + 1)).frames f) := by
        intro hback
        rw [hback.2] at htag'
        cases htag'
      rw [haged.gen, hgen, if_neg hnot]
      rfl

theorem reaches (hrun : ∀ k < n, PmmStep (σ k) (σ (k + 1))) (hi : i ≤ n) :
    ReflTransGen PmmStep (σ 0) (σ i) := by
  induction i with
  | zero => exact ReflTransGen.refl
  | succ i ih => exact (ih (Nat.le_of_succ_le hi)).tail (hrun i hi)

end Run

/-! ## Free lists -/

/-- The frame is on a shard's list or on the global one. -/
def Machine.OnFreeList (s : Machine) (f : Nat) : Prop :=
  (∃ i < shardCount, ∃ l, Linked.Chain s.listNext listEnd (s.shards i).head l ∧ f ∈ l) ∨
    ∃ l, Linked.Chain s.listNext listEnd s.global.head l ∧ f ∈ l

theorem Machine.IsCoherent.onFreeList_iff {s : Machine} (h : s.IsCoherent) (f : Nat) :
    s.OnFreeList f ↔ f < s.numFrames ∧ (s.frames f).ownerTag = .free := by
  obtain ⟨L, G, h⟩ := h
  constructor
  · intro hon
    have howner : f < s.numFrames ∧ (s.frames f).owner = .free := by
      obtain ⟨i, hi, l, hchain, hf⟩ | ⟨l, hchain, hf⟩ := hon
      · obtain rfl := hchain.unique (h.shardChain i hi)
        exact h.of_mem_shard hi hf
      · obtain rfl := hchain.unique h.globalChain
        exact h.of_mem_global hf
    exact ⟨howner.1, congrArg FrameOwner.tag howner.2⟩
  · rintro ⟨hlt, htag⟩
    have hmem : f ∈ allFree L G :=
      h.allFree_perm.mem_iff.2 (mem_freeBelow.2 ⟨hlt, isFree_iff.2 htag⟩)
    rw [allFree, List.mem_append, List.mem_flatMap] at hmem
    obtain ⟨i, hi, hf⟩ | hf := hmem
    · have hlt : i < shardCount := List.mem_range.1 hi
      exact Or.inl ⟨i, hlt, L i, h.shardChain i hlt, hf⟩
    · exact Or.inr ⟨G, h.globalChain, hf⟩

/-! ## Ownership epochs -/

/-- **Generations stamp ownership epochs.** Below `2 ^ 32` releases, the generation of a frame moves
by one at every step that makes the frame free and at no other. So if it is the same at two points
of a run and the frame was in use at the first, then the frame was never free, and on no list, in
between. What is reserved after boot stays reserved at generation zero. -/
theorem generation_stamps {boot : BootInfo} {specs : List UntypedSpec}
    {outUntyped caps : List UntypedCap} {heapLen f n : Nat} {mem : ByteMem} {info : PmInitOut}
    {σ : Nat → Machine} (hinit : BootsApart boot specs outUntyped heapLen mem info caps (σ 0))
    (hrun : ∀ k < n, PmmStep (σ k) (σ (k + 1))) (hfew : frees σ f n < 2 ^ 32) :
    (∀ k < n, ((σ (k + 1)).frames f).gen.toNat = ((σ k).frames f).gen.toNat +
      if BecomesFree ((σ k).frames f) ((σ (k + 1)).frames f) then 1 else 0) ∧
    (∀ i k j, i ≤ k → k ≤ j → j ≤ n → ((σ i).frames f).gen = ((σ j).frames f).gen →
      ((σ i).frames f).ownerTag ≠ .free →
      ((σ k).frames f).ownerTag ≠ .free ∧ (boot.Below16TiB → ¬ (σ k).OnFreeList f)) ∧
    (((σ 0).frames f).ownerTag = .reserved → ∀ i ≤ n,
      ((σ i).frames f).ownerTag = .reserved ∧ ((σ i).frames f).gen = 0) := by
  have h₀ : Unreleased (σ 0) := pmmInit_unreleased hinit.returns
  refine ⟨?_, ?_, ?_⟩
  · intro k hk
    rw [gen_toNat h₀ hrun hfew hk, gen_toNat h₀ hrun hfew (Nat.le_of_succ_le hk), frees_succ]
  · intro i k j hik hkj hjn hgen hused
    have hin : i ≤ n := hik.trans (hkj.trans hjn)
    have hsame : frees σ f i = frees σ f j := by
      rw [← gen_toNat h₀ hrun hfew hin, ← gen_toNat h₀ hrun hfew hjn, hgen]
    have hnot := not_free_of_frees_eq hsame hused hik hkj
    refine ⟨hnot, fun hboot hon => ?_⟩
    have hcoh := (pmmInit_coherent hboot hinit.returns).1.run (reaches hrun (hkj.trans hjn))
    exact hnot ((hcoh.onFreeList_iff f).1 hon).2
  · intro hres i hi
    exact reserved_run h₀ hrun hres hi

/-- A frame taken from a pool of three and given back is one generation older. -/
theorem generation_stamps_small :
    ∃ info s₀ s₁ s₂, Returns (pmmInit smallBoot [] [] 0) (reset fun _ => 0) (info, []) s₀ ∧
      PmmOp.alloc.exec s₀ = some s₁ ∧ (PmmOp.release 0x102).exec s₁ = some s₂ ∧
      (s₂.frames 0x102).gen.toNat = (s₁.frames 0x102).gen.toNat + 1 := by
  have hcompute : ((finish (pmmInit smallBoot [] [] 0) (reset fun _ => 0)).bind fun x =>
      (PmmOp.alloc.exec x.2).bind fun s₁ => ((PmmOp.release 0x102).exec s₁).map fun s₂ =>
        decide (x.1.2 = [] ∧ BecomesFree (s₁.frames 0x102) (s₂.frames 0x102))) = some true := by
    decide +kernel
  obtain ⟨⟨⟨info, caps⟩, s₀⟩, hinit, hrest⟩ := Option.bind_eq_some_iff.1 hcompute
  obtain ⟨s₁, halloc, hrest⟩ := Option.bind_eq_some_iff.1 hrest
  obtain ⟨s₂, hrelease, hfacts⟩ := Option.map_eq_some_iff.1 hrest
  obtain ⟨rfl, hback⟩ := of_decide_eq_true hfacts
  let σ : Nat → Machine := fun k => if k = 0 then s₀ else if k = 1 then s₁ else s₂
  have hrun : ∀ k < 2, PmmStep (σ k) (σ (k + 1)) := by
    intro k hk
    obtain rfl | rfl : k = 0 ∨ k = 1 := by omega
    · exact ⟨.alloc, trivial, halloc⟩
    · exact ⟨.release 0x102, trivial, hrelease⟩
  have hfew : frees σ 0x102 2 < 2 ^ 32 := (Nat.count_le _).trans_lt (by decide)
  have hstep := (generation_stamps (σ := σ) ⟨smallBoot_apart, returns_of_finish hinit⟩ hrun hfew).1 1
    (by decide)
  refine ⟨info, s₀, s₁, s₂, returns_of_finish hinit, halloc, hrelease, ?_⟩
  exact hstep.trans (congrArg _ (if_pos hback))

/-- **A reserved frame with a generation.** With the frame table in memory: the link from frame 0x101,
which holds the middle of the table, to the next one is written where the generation of frame 0xaa
stands. -/
theorem nestedBoot_reserved_gen :
    ∃ info r, Returns (pmmInit nestedBoot [] [] 0x1000) (Ram.reset fun _ => 0) (info, []) r ∧
      FrameTable.ownerTag r 0xaa = some .reserved ∧ FrameTable.frameGen r 0xaa = some 0x102 := by
  have hobs : (finish (pmmInit nestedBoot [] [] 0x1000) (Ram.reset fun _ => 0)).map (fun x =>
      (x.1.2, FrameTable.ownerTag x.2 0xaa, FrameTable.frameGen x.2 0xaa)) =
        some ([], some .reserved, some 0x102) := by
    decide +kernel
  obtain ⟨⟨⟨info, caps⟩, r⟩, hinit, hobs⟩ := Option.map_eq_some_iff.1 hobs
  obtain ⟨rfl, hobs⟩ := Prod.mk.inj hobs
  exact ⟨info, r, returns_of_finish hinit, Prod.mk.inj hobs⟩

end Rolnix
