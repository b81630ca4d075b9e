import Rolnix.OneRegion
import Rolnix.PmmProof

/-!
# Draining the pool

One CPU allocates until the pool is empty. The free frames are split between its shard and the
global list, and batches of them move from the one to the other; still, as many calls as there are
free frames return these frames, each once, and the next call returns `None`.

* `Coherent.drains_supply`: so for coherent lists of which only one shard is in use.
* `pool_exhaustion`: so in every state that a run reaches on a machine below 16 TiB whose pool keeps clear
  of the frame table.
* `pool_loses_frames`: with 16 TiB the free frames never reach the pool.

The lists of a larger machine hold the free frames whose index was scanned, and those can be
drained too (`scanned_allocatable`).
-/

namespace Rolnix

open Relation

namespace Machine

variable {s s' : Machine} {L : Nat → List Nat} {G : List Nat} {f n : Nat}

/-- Call `alloc_frame` `n` times. -/
def allocFrames (s : Machine) : Nat → Option (List (Option Nat) × Machine)
  | 0 => some ([], s)
  | n + 1 => do
      let (r, s) ← s.allocFrame
      let (rs, s) ← s.allocFrames n
      return (r :: rs, s)

/-! ## One shard -/

/-- No shard but the one of the current CPU is used. -/
def OneShard (s : Machine) : Prop :=
  ∀ i, i ≠ currentCpu % shardCount → s.shards i = Shard.empty

theorem popShard_shards {k i : Nat} {r : Option Nat} (h : s.popShard k = some (r, s')) (hi : i ≠ k) :
    s'.shards i = s.shards i := by
  obtain ⟨-, rfl⟩ | ⟨f, -, -, rfl⟩ := popShard_cases h
  · rfl
  · exact Function.update_of_ne hi _ _

theorem refillShard_shards {k i : Nat} (hi : i ≠ k) : (s.refillShard k).shards i = s.shards i := by
  obtain ⟨mem, g, sh, hstate⟩ := refillShard_state s k
  rw [hstate]
  exact Function.update_of_ne hi _ _

theorem allocFrame_shards {i : Nat} {r : Option Nat} (h : s.allocFrame = some (r, s'))
    (hi : i ≠ currentCpu % shardCount) : s'.shards i = s.shards i := by
  obtain ⟨⟨r₁, s₁⟩, hpop, hrest⟩ := Option.bind_eq_some_iff.1 h
  rw [← popShard_shards hpop hi]
  cases r₁ with
  | some g =>
      obtain ⟨-, rfl⟩ := Prod.mk.inj (Option.some.inj hrest)
      rfl
  | none => rw [popShard_shards hrest hi, refillShard_shards hi]

/-- An operation touches the shard of the current CPU only. -/
theorem exec_shards {op : PmmOp} {i : Nat} (hexec : op.exec s = some s')
    (hi : i ≠ currentCpu % shardCount) : s'.shards i = s.shards i := by
  cases exec_effect hexec with
  | alloc halloc => exact allocFrame_shards halloc hi
  | deferred =>
      unfold Machine.deferred
      split_ifs <;> rfl
  | freed => exact Function.update_of_ne hi _ _
  | pin => rfl
  | unpin =>
      unfold Machine.dropRef
      split_ifs
      · exact Function.update_of_ne hi _ _
      · rfl
  | addMapping => rfl
  | removeMapping =>
      unfold Machine.dropRef
      split_ifs
      · exact Function.update_of_ne hi _ _
      · rfl
  | exhausted => rfl
  | retyped => rfl
  | write => rfl

theorem OneShard.run (h : s.OneShard) (hrun : ReflTransGen PmmStep s s') : s'.OneShard := by
  induction hrun with
  | refl => exact h
  | tail _ hstep ih =>
      obtain ⟨op, -, hexec⟩ := hstep
      intro i hi
      rw [exec_shards hexec hi]
      exact ih i hi

theorem Coherent.nil_of_empty (h : Coherent s L G) (hone : s.OneShard) {i : Nat} (hi : i < shardCount)
    (hne : i ≠ currentCpu % shardCount) : L i = [] := by
  have hlen := h.shardLength i hi
  rw [hone i hne] at hlen
  exact List.eq_nil_of_length_eq_zero hlen.symm

/-- All free frames are within reach of the current CPU. -/
theorem Coherent.supply_eq_free (h : Coherent s L G)
    (hone : ∀ i < shardCount, i ≠ currentCpu % shardCount → L i = []) :
    s.supply = (s.freeBelow s.numFrames).length := by
  have hsum : ((List.range shardCount).flatMap L).length = (L (currentCpu % shardCount)).length := by
    rw [List.length_flatMap, sum_map_range]
    apply Finset.sum_eq_single_of_mem _ (Finset.mem_range.2 currentShard_lt)
    intro i hi hne
    rw [hone i (Finset.mem_range.1 hi) hne]
    rfl
  rw [h.supply_eq, ← h.allFree_perm.length_eq, allFree, List.length_append, hsum]

/-! ## Draining -/

theorem freeBelow_taken (hf : f < s.numFrames) (hfree : (s.frames f).owner = .free)
    (hboot : s'.numFrames = s.numFrames)
    (hframes : s'.frames = Function.update s.frames f ((s.frames f).withOwner .kernel)) :
    (s.freeBelow s.numFrames).Perm (f :: s'.freeBelow s'.numFrames) := by
  have hnot : f ∉ s'.freeBelow s'.numFrames := by
    intro hmem
    have := (mem_freeBelow.1 hmem).2
    rw [hframes, Function.update_self, isFree_iff] at this
    exact absurd this (by simp [FrameOwner.kernel])
  have hnodup : ∀ t : Machine, (t.freeBelow t.numFrames).Nodup := fun t => List.nodup_range.filter _
  rw [List.perm_ext_iff_of_nodup (hnodup s) (List.nodup_cons.2 ⟨hnot, hnodup s'⟩)]
  intro g
  rw [List.mem_cons, mem_freeBelow, mem_freeBelow, hboot, hframes]
  by_cases hg : g = f
  · subst hg
    have : (s.frames g).isFree = true := isFree_iff.2 (by rw [hfree]; rfl)
    simp [hf, this]
  · simp [hg]

/-- **As many calls as the supply allows** return the free frames, and the next one returns none. -/
theorem Coherent.drains_supply (h : Coherent s L G)
    (hone : ∀ i < shardCount, i ≠ currentCpu % shardCount → L i = []) (hn : s.supply = n) :
    ∃ (fs : List Nat) (s' : Machine), s.allocFrames n = some (fs.map some, s') ∧
      fs.Perm (s.freeBelow s.numFrames) ∧
      (∀ g, (s.frames g).owner ≠ .free → s'.frames g = s.frames g) ∧
      (∀ f ∈ fs, (s'.frames f).owner = .kernel) ∧ ∃ s'', s'.allocFrame = some (none, s'') := by
  induction n generalizing s L G with
  | zero =>
      obtain ⟨r, s', L', G', halloc, -, -, -, -, hsome⟩ := allocFrame_spec h
      have hempty : s.freeBelow s.numFrames = [] := by
        apply List.eq_nil_of_length_eq_zero
        rw [← h.supply_eq_free hone, hn]
      have hnone : r = none := by
        cases hr : r with
        | none => rfl
        | some f => exact absurd (hsome f hr) (by omega)
      subst hnone
      exact ⟨[], s, rfl, by rw [hempty], fun _ _ => rfl, by simp, s', halloc⟩
  | succ n ih =>
      obtain ⟨r, s₁, L', G', halloc, hcoh, hother, hallocates, hnone, hsome⟩ := allocFrame_spec h
      cases r with
      | none => exact absurd (hnone rfl).1 (by omega)
      | some f =>
          obtain ⟨hf, hfree, hframes⟩ := hallocates.some f rfl
          obtain ⟨fs, s', hcalls, hperm, hkeep, hkernel, hlast⟩ := ih hcoh
            (fun i hi hne => by rw [hother i hne]; exact hone i hi hne)
            (by have := hsome f rfl; omega)
          have htaken : (s₁.frames f).owner = .kernel := by
            rw [hframes, Function.update_self]
            rfl
          have hne : (s₁.frames f).owner ≠ .free := by
            rw [htaken]
            decide
          refine ⟨f :: fs, s', ?_, ?_, ?_, ?_, hlast⟩
          · simp [allocFrames, halloc, hcalls]
          · exact (hperm.cons f).trans
              (freeBelow_taken hf hfree hallocates.boot.numFrames hframes).symm
          · intro g hg
            have hgf : g ≠ f := fun he => hg (he ▸ hfree)
            have hsame : s₁.frames g = s.frames g := by rw [hframes, Function.update_of_ne hgf]
            rw [hkeep g (by rw [hsame]; exact hg), hsame]
          · rw [List.forall_mem_cons]
            refine ⟨?_, hkernel⟩
            rw [hkeep f hne]
            exact htaken

end Machine

open Machine

section Runs

variable {boot : BootInfo} {specs : List UntypedSpec} {outUntyped caps : List UntypedCap}
  {heapLen : Nat} {mem : ByteMem} {info : PmInitOut} {s₀ s : Machine}

theorem pmmInit_oneShard
    (hinit : Returns (pmmInit boot specs outUntyped heapLen) (reset mem) (info, caps) s₀) :
    s₀.OneShard := by
  obtain ⟨regions, ftPhys, heapEnd, bootAlloc, s₁, s₂, s₃, s₄, s₅, s₆, hrun⟩ := pmmInit_returns hinit
  obtain ⟨mem', hs⟩ := buildGlobalFreelist_state hrun.pool
  intro i _
  rw [hs]
  exact hrun.booting.shards i

/-- **The pool can be used up.** In every state reached on a machine below 16 TiB with `n` free frames,
`n` calls of `alloc_frame` return these frames, each once, and they are the kernel's then; the next
call returns `None`. -/
theorem pool_exhaustion (hboot : boot.Below16TiB)
    (hinit : BootsApart boot specs outUntyped heapLen mem info caps s₀)
    (hrun : ReflTransGen PmmStep s₀ s) :
    ∃ (fs : List Nat) (s' s'' : Machine),
      s.allocFrames (s.freeBelow s.numFrames).length = some (fs.map some, s') ∧ fs.Nodup ∧
      (∀ f, f ∈ fs ↔ f < s.numFrames ∧ (s.frames f).ownerTag = .free) ∧
      (∀ f ∈ fs, (s'.frames f).owner = .kernel) ∧ s'.allocFrame = some (none, s'') := by
  obtain ⟨L, G, hcoh⟩ := (pmmInit_coherent hboot hinit.returns).1.run hrun
  have hone := (pmmInit_oneShard hinit.returns).run hrun
  have hnil : ∀ i < shardCount, i ≠ currentCpu % shardCount → L i = [] :=
    fun i hi hne => hcoh.nil_of_empty hone hi hne
  obtain ⟨fs, s', hcalls, hperm, -, hkernel, s'', hlast⟩ :=
    hcoh.drains_supply hnil (hcoh.supply_eq_free hnil)
  refine ⟨fs, s', s'', hcalls, ?_, ?_, hkernel, hlast⟩
  · exact hperm.nodup_iff.2 (List.nodup_range.filter _)
  · intro f
    rw [hperm.mem_iff, mem_freeBelow, isFree_iff]
    rfl

theorem pool_exhaustion_small :
    ∃ info s₀, Returns (pmmInit smallBoot [] [] 0) (reset fun _ => 0) (info, []) s₀ ∧
      ∃ (fs : List Nat) (s' s'' : Machine),
        s₀.allocFrames (s₀.freeBelow s₀.numFrames).length = some (fs.map some, s') ∧
        s'.allocFrame = some (none, s'') := by
  obtain ⟨info, s₀, hinit, -⟩ := smallBoot_returns
  obtain ⟨fs, s', s'', hcalls, -, -, -, hlast⟩ :=
    pool_exhaustion smallBoot_below ⟨smallBoot_apart, hinit⟩ ReflTransGen.refl
  exact ⟨info, s₀, hinit, fs, s', s'', hcalls, hlast⟩

end Runs

theorem allocFrame_of_empty {s : Machine} (hshard : s.shards (currentCpu % shardCount) = Shard.empty)
    (hglobal : s.global = Shard.empty) : s.allocFrame = some (none, s) := by
  have hpop : s.popShard (currentCpu % shardCount) = some (none, s) := by
    refine popShard_of_empty ?_
    rw [hshard]
    rfl
  have hrefill : s.refillShard (currentCpu % shardCount) = s := by
    refine refillShard_of_none _ (if_pos ?_)
    show min s.global.count shardRefillBatch = 0
    rw [hglobal]
    rfl
  simp only [PoolMem.allocFrame, hpop, hrefill, Option.bind_eq_bind, Option.bind_some]

/-- **Free frames that no call returns.** With 16 TiB, `pmm_init` returns `Ok` and leaves free frames,
and the first call of `alloc_frame` returns `None`. -/
theorem pool_loses_frames :
    ∃ info s, Returns (pmmInit (oneRegion (2 ^ 32)) [] [] 0) (reset fun _ => 0) (info, []) s ∧
      2 ^ 31 < s.numFrames ∧ (s.frames (2 ^ 31)).owner = .free ∧ s.allocFrame = some (none, s) := by
  obtain ⟨info, s, hinit, -, hnum, -, -, hglobal, hshards, howner⟩ := oneRegion_full fun _ => 0
  refine ⟨info, s, hinit, ?_, ?_, allocFrame_of_empty (hshards _) hglobal⟩
  · rw [hnum]
    decide
  · rw [howner, if_pos]
    exact ⟨by decide, by decide⟩

/-! ## Larger machines -/

namespace Machine

variable {s s' t : Machine} {n f : Nat}

/-- The machine with another number of frames. -/
def withFrames (s : Machine) (n : Nat) : Machine := { s with numFrames := n }

/-- What works with fewer frames works with more. -/
theorem popShard_withFrames {k : Nat} {r : Option Nat} (hn : n ≤ s.numFrames)
    (h : (s.withFrames n).popShard k = some (r, t)) :
    s.popShard k = some (r, t.withFrames s.numFrames) := by
  unfold popShard PoolMem.popShard at h ⊢
  dsimp only [PoolMem.shards] at h ⊢
  by_cases hempty : (s.shards k).isEmpty = true
  · rw [if_pos hempty]
    rw [if_pos (show ((s.withFrames n).shards k).isEmpty = true from hempty)] at h
    obtain ⟨rfl, rfl⟩ := Prod.mk.inj (Option.some.inj h)
    rfl
  · rw [if_neg hempty]
    rw [if_neg (show ¬ ((s.withFrames n).shards k).isEmpty = true from hempty)] at h
    obtain ⟨s₁, hset, hrest⟩ := Option.bind_eq_some_iff.1 h
    obtain ⟨rfl, rfl⟩ := Prod.mk.inj (Option.some.inj hrest)
    obtain ⟨hbase, hlt, howner, rfl⟩ := setOwner_eq_some.1 hset
    refine Option.bind_eq_some_iff.2 ⟨_, setOwner_eq_some.2 ⟨hbase, hlt.trans_le hn, howner, rfl⟩, rfl⟩

theorem refillShard_withFrames {k : Nat} :
    (s.withFrames n).refillShard k = (s.refillShard k).withFrames n := by
  have hloop : ∀ m tc, PoolMem.peel (s.withFrames n) m tc = PoolMem.peel s m tc := by
    intro m
    induction m with
    | zero => exact fun _ => rfl
    | succ m ih => exact fun tc => ih _
  have hpeel : (s.withFrames n).peelGlobal = (s.peelGlobal.1, s.peelGlobal.2.withFrames n) := by
    simp only [PoolMem.peelGlobal, hloop]
    by_cases hzero : min s.global.count shardRefillBatch = 0
    · exact (if_pos hzero).trans (by simp only [PoolMem.global, hzero, if_true])
    · exact (if_neg hzero).trans (by simp only [PoolMem.global, hzero, if_false]; rfl)
  rcases hcase : s.peelGlobal with ⟨_ | b, s'⟩
  · rw [hcase] at hpeel
    rw [refillShard_of_none k hpeel, refillShard_of_none k hcase]
  · rw [hcase] at hpeel
    rw [refillShard_of_some k hpeel, refillShard_of_some k hcase]
    rfl

theorem allocFrame_withFrames {r : Option Nat} (hn : n ≤ s.numFrames)
    (h : (s.withFrames n).allocFrame = some (r, t)) :
    s.allocFrame = some (r, t.withFrames s.numFrames) := by
  obtain ⟨⟨r₁, s₁⟩, hpop, hrest⟩ := Option.bind_eq_some_iff.1 h
  refine Option.bind_eq_some_iff.2 ⟨_, popShard_withFrames hn hpop, ?_⟩
  cases r₁ with
  | some g =>
      obtain ⟨rfl, rfl⟩ := Prod.mk.inj (Option.some.inj hrest)
      rfl
  | none =>
      obtain ⟨-, rfl⟩ | ⟨g, hg, -⟩ := popShard_cases hpop
      · have hnum := (refillShard_boot s (currentCpu % shardCount)).numFrames
        have hrest' : ((s.refillShard (currentCpu % shardCount)).withFrames n).popShard
            (currentCpu % shardCount) = some (r, t) := by
          rw [← refillShard_withFrames]
          exact hrest
        have hpop' := popShard_withFrames (hnum.symm ▸ hn) hrest'
        rw [hnum] at hpop'
        exact hpop'
      · exact absurd hg (by simp)

/-- Each call of a sequence is made in a state the run reaches. -/
theorem exists_call {rs : List (Option Nat)} {r : Option Nat}
    (h : s.allocFrames n = some (rs, s')) (hr : r ∈ rs) :
    ∃ s₁ s₂, ReflTransGen PmmStep s s₁ ∧ s₁.allocFrame = some (r, s₂) := by
  induction n generalizing s rs with
  | zero =>
      obtain ⟨rfl, -⟩ := Prod.mk.inj (Option.some.inj h)
      exact absurd hr List.not_mem_nil
  | succ n ih =>
      obtain ⟨⟨r₁, s₁⟩, halloc, hrest⟩ := Option.bind_eq_some_iff.1 h
      obtain ⟨⟨rs', s₂⟩, hcalls, heq⟩ := Option.bind_eq_some_iff.1 hrest
      obtain ⟨rfl, rfl⟩ := Prod.mk.inj (Option.some.inj heq)
      rcases List.mem_cons.1 hr with rfl | hr
      · exact ⟨s, s₁, ReflTransGen.refl, halloc⟩
      · obtain ⟨s₃, s₄, hrun, hcall⟩ := ih hcalls hr
        have hstep : PmmStep s s₁ := ⟨.alloc, trivial, by simp [PmmOp.exec, halloc]⟩
        exact ⟨s₃, s₄, ReflTransGen.head hstep hrun, hcall⟩

theorem allocFrames_withFrames {m : Nat} {rs : List (Option Nat)} (hn : n ≤ s.numFrames)
    (h : (s.withFrames n).allocFrames m = some (rs, t)) :
    s.allocFrames m = some (rs, t.withFrames s.numFrames) := by
  induction m generalizing s rs with
  | zero =>
      obtain ⟨rfl, rfl⟩ := Prod.mk.inj (Option.some.inj h)
      rfl
  | succ m ih =>
      obtain ⟨⟨r₁, t₁⟩, halloc, hrest⟩ := Option.bind_eq_some_iff.1 h
      obtain ⟨⟨rs', t₂⟩, hcalls, heq⟩ := Option.bind_eq_some_iff.1 hrest
      obtain ⟨rfl, rfl⟩ := Prod.mk.inj (Option.some.inj heq)
      have hnum : t₁.numFrames = n := (allocFrame_boot halloc).numFrames
      have hback : (t₁.withFrames s.numFrames).withFrames n = t₁ := by
        rw [← hnum]
        rfl
      have hcalls' := ih (s := t₁.withFrames s.numFrames) hn (by rw [hback]; exact hcalls)
      simp only [allocFrames, allocFrame_withFrames hn halloc, hcalls', Option.bind_eq_bind,
        Option.bind_some]
      rfl

end Machine

/-- **A free frame that was scanned can be allocated**, however large the machine is. -/
theorem scanned_allocatable {boot : BootInfo} {specs : List UntypedSpec}
    {outUntyped caps : List UntypedCap} {heapLen f : Nat} {mem : ByteMem} {info : PmInitOut}
    {s : Machine}
    (hinit : Returns (pmmInit boot specs outUntyped heapLen) (reset mem) (info, caps) s)
    (hf : f < s.scanned) (hfree : (s.frames f).owner = .free) :
    ∃ s₁ s₂, ReflTransGen PmmStep s s₁ ∧ s₁.allocFrame = some (some f, s₂) := by
  obtain ⟨regions, ftPhys, heapEnd, bootAlloc, s₁, s₂, s₃, s₄, s₅, s₆, hrun⟩ := pmmInit_returns hinit
  have hbooting := hrun.booting
  rw [← hbooting.numFrames] at hbooting
  have hcoh := coherent_of_pool hbooting hrun.pool
  have hnil : ∀ i < shardCount, i ≠ currentCpu % shardCount → (fun _ => ([] : List Nat)) i = [] :=
    fun _ _ _ => rfl
  obtain ⟨fs, t, hcalls, hperm, -⟩ := hcoh.drains_supply hnil (hcoh.supply_eq_free hnil)
  have hmem : some f ∈ fs.map some := by
    apply List.mem_map_of_mem
    rw [hperm.mem_iff, mem_freeBelow]
    exact ⟨hf, isFree_iff.2 (congrArg FrameOwner.tag hfree)⟩
  exact exists_call (allocFrames_withFrames s.scanned_le hcalls) hmem

end Rolnix
