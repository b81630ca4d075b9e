import Rolnix.TablePages

/-!
# The memory manager over whole runs

Two invariants of every run after a successful `pmm_init`.

* `freeLists_coherent`: every free frame is on exactly one list, once, and nothing else is on any
  list, so the two diagnostics agree with the owners.
* `deferred_release`: a free frame is neither pinned nor mapped, and a pending frame still is.

The first is `IsCoherent.run`. The second looks at owners and counters only, one frame at a time:
`Settled` is kept by every call of a disciplined client (`Settled.step`).
-/

namespace Rolnix

open Relation

namespace Machine

variable {s s' : Machine} {L : Nat → List Nat} {G : List Nat} {f : Nat}

/-! ## Counting the free frames -/

theorem sum_map_range (g : Nat → Nat) (n : Nat) :
    ((List.range n).map g).sum = ∑ i ∈ Finset.range n, g i := by
  induction n with
  | zero => rfl
  | succ n ih =>
      rw [List.range_succ, List.map_append, List.sum_append, ih, Finset.sum_range_succ]
      simp

/-- All lists one after the other. -/
def allFree (L : Nat → List Nat) (G : List Nat) : List Nat := (List.range shardCount).flatMap L ++ G

theorem count_allFree (f : Nat) : (allFree L G).count f = occ L G f := by
  rw [allFree, List.count_append, List.count_flatMap, occ, sum_map_range]
  rfl

theorem perm_freeBelow {l : List Nat}
    (htag : ∀ f, (s.frames f).owner.tag = .free → (s.frames f).owner = .free)
    (hcount : ∀ f, l.count f = if f < s.numFrames ∧ (s.frames f).owner = .free then 1 else 0) :
    l.Perm (s.freeBelow s.numFrames) := by
  rw [List.perm_iff_count]
  intro f
  have hnodup : (s.freeBelow s.numFrames).Nodup := List.nodup_range.filter _
  rw [hcount f]
  split_ifs with hf
  · have hfree : (s.frames f).isFree = true := isFree_iff.2 (by rw [hf.2]; rfl)
    exact (List.count_eq_one_of_mem hnodup (mem_freeBelow.2 ⟨hf.1, hfree⟩)).symm
  · refine (List.count_eq_zero_of_not_mem fun hmem => hf ?_).symm
    obtain ⟨hlt, hfree⟩ := mem_freeBelow.1 hmem
    exact ⟨hlt, htag f (isFree_iff.1 hfree)⟩

theorem Coherent.allFree_perm (h : Coherent s L G) :
    (allFree L G).Perm (s.freeBelow s.numFrames) :=
  perm_freeBelow h.tag fun f => (count_allFree f).trans (h.occ f)

theorem Coherent.freeFrameCount_eq (h : Coherent s L G) :
    s.freeFrameCount = (s.freeBelow s.numFrames).length := by
  have hshards : ((List.range shardCount).map fun i => (s.shards i).count) =
      (List.range shardCount).map fun i => (L i).length :=
    List.map_congr_left fun i hi => h.shardLength i (List.mem_range.1 hi)
  rw [← h.allFree_perm.length_eq, allFree, List.length_append, List.length_flatMap,
    freeFrameCount_def, h.globalLength, hshards]

theorem Coherent.length_lt (h : Coherent s L G) {i : Nat} (hi : i < shardCount) :
    (L i).length < 2 ^ 32 := by
  have hle := h.length_le hi
  have hbound := h.bound
  simp only [listEnd] at hbound
  omega

theorem Coherent.walk_shards (h : Coherent s L G) {n : Nat} (hn : n ≤ shardCount) :
    (List.range n).foldlM (fun walked i => s.checkList (2 ^ 32) (s.shards i).head walked) 0 =
      some ((List.range n).map fun i => (s.shards i).count).sum := by
  induction n with
  | zero => rfl
  | succ n ih =>
      have hlt : n < shardCount := by omega
      have hcheck := checkList_eq (w := ((List.range n).map fun i => (s.shards i).count).sum)
        h.table (h.shardChain n hlt) (fun f hf => h.of_mem_shard hlt hf) (h.length_lt hlt)
      rw [List.range_succ, List.foldlM_append, ih (by omega)]
      simp only [List.foldlM_cons, List.foldlM_nil, Option.bind_eq_bind, Option.bind_some, hcheck,
        Option.pure_def, List.map_append, List.sum_append, List.map_cons, List.map_nil,
        List.sum_cons, List.sum_nil, h.shardLength n hlt, Nat.add_zero]

/-- **The validating walk finds what the counters say.** -/
theorem Coherent.debugValidateFreeLists_eq (h : Coherent s L G) :
    s.debugValidateFreeLists = some s.freeFrameCount := by
  have hbound := h.bound
  have hlen := h.global_length_le
  simp only [listEnd] at hbound
  rw [debugValidateFreeLists, h.walk_shards le_rfl, Option.bind_eq_bind, Option.bind_some,
    checkList_eq h.table h.globalChain (fun f hf => h.of_mem_global hf) (by omega),
    freeFrameCount_def, h.globalLength]

end Machine

open Machine

/-! ## Coherence -/

section Runs

variable {boot : BootInfo} {specs : List UntypedSpec} {outUntyped caps : List UntypedCap}
  {heapLen : Nat} {mem : ByteMem} {info : PmInitOut} {s₀ s : Machine}

/-- **Free lists and owners agree in every reachable state.** -/
theorem freeLists_coherent (hboot : boot.Below16TiB)
    (hinit : Returns (pmmInit boot specs outUntyped heapLen) (reset mem) (info, caps) s₀)
    (hrun : ReflTransGen PmmStep s₀ s) :
    ∃ (L : Nat → List Nat) (G : List Nat),
      (∀ i < shardCount, Linked.Chain s.listNext listEnd (s.shards i).head (L i) ∧
        (L i).Nodup ∧ (s.shards i).count = (L i).length) ∧
      (Linked.Chain s.listNext listEnd s.global.head G ∧ G.Nodup ∧ s.global.count = G.length) ∧
      (∀ f < s.numFrames, (s.frames f).ownerTag = .free ↔ occ L G f = 1) ∧
      (∀ f, occ L G f ≤ 1 ∧ (occ L G f = 1 → f < s.numFrames)) ∧
      s.debugValidateFreeLists = some s.freeFrameCount ∧
      s.freeFrameCount =
        ((List.range s.numFrames).filter fun f => (s.frames f).ownerTag = .free).length := by
  obtain ⟨L, G, h⟩ := (pmmInit_coherent hboot hinit).1.run hrun
  refine ⟨L, G, fun i hi => ⟨h.shardChain i hi, (h.shardChain i hi).nodup, h.shardLength i hi⟩,
    ⟨h.globalChain, h.globalChain.nodup, h.globalLength⟩, fun f hf => ?_, fun f => ?_,
    h.debugValidateFreeLists_eq, h.freeFrameCount_eq⟩
  · rw [h.occ f]
    have howner : (s.frames f).ownerTag = .free ↔ (s.frames f).owner = .free :=
      ⟨h.tag f, fun ho => congrArg FrameOwner.tag ho⟩
    simp [hf, howner]
  · rw [h.occ f]
    split_ifs with hf
    · exact ⟨le_rfl, fun _ => hf.1⟩
    · simp

/-- After one allocation from a pool of three frames. -/
theorem freeLists_coherent_small :
    ∃ info s₀ s, Returns (pmmInit smallBoot [] [] 0) (reset fun _ => 0) (info, []) s₀ ∧
      PmmStep s₀ s ∧ s.debugValidateFreeLists = some s.freeFrameCount := by
  obtain ⟨info, s₀, hinit, -⟩ := smallBoot_returns
  obtain ⟨L, G, hcoh⟩ := (pmmInit_coherent smallBoot_below hinit).1
  obtain ⟨r, s, L', G', halloc, -⟩ := allocFrame_spec hcoh
  have hstep : PmmStep s₀ s := ⟨.alloc, trivial, by simp [PmmOp.exec, halloc]⟩
  obtain ⟨-, -, -, -, -, -, hvalid, -⟩ :=
    freeLists_coherent smallBoot_below hinit (ReflTransGen.single hstep)
  exact ⟨info, s₀, s, hinit, hstep, hvalid⟩

end Runs

/-- A state the memory manager reaches after `pmm_init`. -/
def Booted (s : Machine) : Prop :=
  ∃ (boot : BootInfo) (specs : List UntypedSpec) (outUntyped caps : List UntypedCap)
    (heapLen : Nat) (mem : ByteMem) (info : PmInitOut) (s₀ : Machine), boot.Below16TiB ∧
    BootsApart boot specs outUntyped heapLen mem info caps s₀ ∧ ReflTransGen PmmStep s₀ s

theorem Booted.coherent {s : Machine} (h : Booted s) : s.IsCoherent := by
  obtain ⟨boot, specs, outUntyped, caps, heapLen, mem, info, s₀, hboot, hinit, hrun⟩ := h
  exact (pmmInit_coherent hboot hinit.returns).1.run hrun

/-! ## Deferred release -/

/-- Nothing refers to a free frame, and something still refers to a pending one. -/
def Settled (info : FrameInfo) : Prop :=
  (info.ownerTag = .free → info.pinned = 0 ∧ info.mappings = 0) ∧
    (info.ownerTag = .pending → info.pinned ≠ 0 ∨ info.mappings ≠ 0)

theorem settled_of_owner {info : FrameInfo} (hfree : info.ownerTag ≠ .free)
    (hpend : info.ownerTag ≠ .pending) : Settled info :=
  ⟨fun h => absurd h hfree, fun h => absurd h hpend⟩

theorem succ_ne_zero_of_lt {n : BitVec 32} (h : n.toNat + 1 < 2 ^ 32) : n + 1 ≠ 0 := by
  intro hz
  have hnat : (n.toNat + 1) % 2 ^ 32 = 0 := by
    simpa [BitVec.toNat_add] using congrArg BitVec.toNat hz
  omega

namespace Machine

variable {s s' : Machine} {f : Nat}

/-- All a pop can do, whatever the lists are. -/
theorem popShard_cases {k : Nat} {r : Option Nat} (h : s.popShard k = some (r, s')) :
    r = none ∧ s' = s ∨
      ∃ f, r = some f ∧ (s.frames f).owner = .free ∧ s' = s.popped k f := by
  unfold popShard PoolMem.popShard at h
  dsimp only at h
  split_ifs at h
  · obtain ⟨rfl, rfl⟩ := Prod.mk.inj (Option.some.inj h)
    exact Or.inl ⟨rfl, rfl⟩
  · obtain ⟨s₁, hset, h⟩ := Option.bind_eq_some_iff.1 h
    obtain ⟨-, -, howner, rfl⟩ := setOwner_eq_some.1 hset
    obtain ⟨rfl, rfl⟩ := Prod.mk.inj (Option.some.inj h)
    exact Or.inr ⟨_, rfl, howner, rfl⟩

theorem popShard_frames {k : Nat} {r : Option Nat} (h : s.popShard k = some (r, s')) :
    r = none ∧ s'.frames = s.frames ∨
      ∃ f, r = some f ∧ (s.frames f).owner = .free ∧
        s'.frames = Function.update s.frames f ((s.frames f).withOwner .kernel) := by
  obtain ⟨rfl, rfl⟩ | ⟨f, rfl, hfree, rfl⟩ := popShard_cases h
  · exact Or.inl ⟨rfl, rfl⟩
  · exact Or.inr ⟨f, rfl, hfree, rfl⟩

theorem refillShard_frames (k : Nat) : (s.refillShard k).frames = s.frames := by
  obtain ⟨mem, g, sh, hstate⟩ := refillShard_state s k
  rw [hstate]

/-- What `alloc_frame` does to the frame table, whatever the lists are. -/
theorem allocFrame_frames {r : Option Nat} (h : s.allocFrame = some (r, s')) :
    r = none ∧ s'.frames = s.frames ∨
      ∃ f, r = some f ∧ (s.frames f).owner = .free ∧
        s'.frames = Function.update s.frames f ((s.frames f).withOwner .kernel) := by
  obtain ⟨⟨_ | f, s₁⟩, hpop, h⟩ := Option.bind_eq_some_iff.1 h
  · have hs₁ : s₁.frames = s.frames := by
      obtain ⟨-, hframes⟩ | ⟨f, hf, -⟩ := popShard_frames hpop
      · exact hframes
      · cases hf
    have hpop' := popShard_frames h
    rw [refillShard_frames, hs₁] at hpop'
    exact hpop'
  · obtain ⟨rfl, rfl⟩ := Prod.mk.inj (Option.some.inj h)
    exact popShard_frames hpop

theorem popShard_boot {k : Nat} {r : Option Nat} (h : s.popShard k = some (r, s')) :
    SameBoot s s' := by
  obtain ⟨-, rfl⟩ | ⟨f, -, -, rfl⟩ := popShard_cases h
  · exact SameBoot.refl s'
  · exact ⟨rfl, rfl, rfl⟩

theorem allocFrame_boot {r : Option Nat} (h : s.allocFrame = some (r, s')) : SameBoot s s' := by
  obtain ⟨⟨_ | f, s₁⟩, hpop, h⟩ := Option.bind_eq_some_iff.1 h
  · exact ((popShard_boot hpop).trans (refillShard_boot s₁ _)).trans (popShard_boot h)
  · obtain ⟨-, rfl⟩ := Prod.mk.inj (Option.some.inj h)
    exact popShard_boot hpop

theorem exec_boot {op : PmmOp} (hexec : op.exec s = some s') : SameBoot s s' := by
  cases exec_effect hexec with
  | alloc halloc => exact allocFrame_boot halloc
  | deferred =>
      unfold Machine.deferred
      split_ifs
      · exact SameBoot.refl s
      · exact ⟨rfl, rfl, rfl⟩
  | unpin | removeMapping => exact sameBoot_dropRef _ _ _
  | freed | pin | addMapping | exhausted | retyped | write => exact ⟨rfl, rfl, rfl⟩

/-- What an operation can do to the metadata of frame `f`. -/
inductive FrameChange (f : Nat) : PmmOp → FrameInfo → FrameInfo → Prop
  | same (op : PmmOp) (i : FrameInfo) : FrameChange f op i i
  | taken {i : FrameInfo} (hfree : i.owner = .free) : FrameChange f .alloc i (i.withOwner .kernel)
  | deferred {i : FrameInfo} (hres : i.ownerTag ≠ .reserved) (hfree : i.ownerTag ≠ .free)
      (hbusy : i.pinned ≠ 0 ∨ i.mappings ≠ 0) :
      FrameChange f (.release f) i (i.withOwner .pending)
  | freed {i : FrameInfo} (hres : i.ownerTag ≠ .reserved) (hfree : i.ownerTag ≠ .free)
      (hpin : i.pinned = 0) (hmap : i.mappings = 0) :
      FrameChange f (.release f) i (i.withOwner .free).bumpGen
  | pinned (i : FrameInfo) : FrameChange f (.pin f) i i.pin
  | unpinned (i : FrameInfo) : FrameChange f (.unpin f) i (drained i.unpin)
  | mapped (i : FrameInfo) : FrameChange f (.addMapping f) i i.addMapping
  | unmapped (i : FrameInfo) : FrameChange f (.removeMapping f) i (drained i.removeMapping)
  | retyped {i : FrameInfo} (cap : UntypedCap) (domain : DomainId)
      (howner : i.owner = .untyped cap.id) :
      FrameChange f (.retype cap domain) i (i.withOwner (.domain domain))

theorem frameChange_update {op : PmmOp} {g : Nat} {i : FrameInfo}
    (hs : s'.frames = Function.update s.frames g i) (hg : FrameChange g op (s.frames g) i) (f : Nat) :
    FrameChange f op (s.frames f) (s'.frames f) := by
  rw [hs]
  by_cases hf : f = g
  · rw [hf, Function.update_self]
    exact hg
  · rw [Function.update_of_ne hf]
    exact .same op _

/-- **What an operation does to a frame**, one frame at a time. -/
theorem exec_change {op : PmmOp} (hexec : op.exec s = some s') (f : Nat) :
    FrameChange f op (s.frames f) (s'.frames f) := by
  cases exec_effect hexec with
  | alloc halloc =>
      obtain ⟨-, hframes⟩ | ⟨g, -, hfree, hframes⟩ := allocFrame_frames halloc
      · rw [hframes]
        exact .same .alloc _
      · exact frameChange_update hframes (.taken hfree) f
  | deferred _ hres hfree hbusy =>
      unfold Machine.deferred
      split_ifs
      · exact .same _ _
      · exact frameChange_update rfl (.deferred hres hfree hbusy) f
  | freed _ hres hfree hpin hmap =>
      exact frameChange_update (freed_frames s _) (.freed hres hfree hpin hmap) f
  | pin => exact frameChange_update rfl (.pinned _) f
  | unpin => exact frameChange_update (dropRef_frames s _ _) (.unpinned _) f
  | addMapping => exact frameChange_update rfl (.mapped _) f
  | removeMapping => exact frameChange_update (dropRef_frames s _ _) (.unmapped _) f
  | exhausted => exact .same _ _
  | retyped howner => exact frameChange_update rfl (.retyped _ _ howner) f
  | write => exact .same _ _

/-- Every frame is settled. -/
def AllSettled (s : Machine) : Prop := ∀ f, Settled (s.frames f)

theorem AllSettled.update (h : s.AllSettled) {i : FrameInfo} (hi : Settled i)
    (hs : s'.frames = Function.update s.frames f i) : s'.AllSettled := by
  intro g
  rw [hs]
  rcases eq_or_ne g f with rfl | hg
  · rwa [Function.update_self]
  · rw [Function.update_of_ne hg]
    exact h g

theorem settled_drained {info : FrameInfo} (hnot : info.ownerTag ≠ .free) :
    Settled (drained info) := by
  unfold drained
  split_ifs with hready
  · exact ⟨fun _ => ⟨hready.2.1, hready.2.2⟩, fun hpend => by cases hpend⟩
  · refine ⟨fun hfree => absurd hfree hnot, fun hpend => ?_⟩
    by_contra hzero
    simp only [not_or, not_not] at hzero
    exact hready ⟨hpend, hzero.1, hzero.2⟩

/-- **The step lemma.** -/
theorem AllSettled.step (h : s.AllSettled) (hstep : DisciplinedStep s s') : s'.AllSettled := by
  obtain ⟨op, -, hdisc, hexec⟩ := hstep
  intro f
  have hf := h f
  have hchange := exec_change hexec f
  generalize hi : s.frames f = i at hf hchange
  generalize s'.frames f = i' at hchange
  cases hchange with
  | same => exact hf
  | taken => exact settled_of_owner (fun h => by cases h) (fun h => by cases h)
  | deferred _ _ hbusy => exact ⟨(fun h => by cases h), fun _ => hbusy⟩
  | freed _ _ hpin hmap => exact ⟨fun _ => ⟨hpin, hmap⟩, (fun h => by cases h)⟩
  | pinned =>
      subst hi
      exact ⟨fun hfree => absurd (isFree_iff.2 hfree) hdisc.1,
        fun _ => Or.inl (succ_ne_zero_of_lt hdisc.2)⟩
  | mapped =>
      subst hi
      exact ⟨fun hfree => absurd (isFree_iff.2 hfree) hdisc.1,
        fun _ => Or.inr (succ_ne_zero_of_lt hdisc.2)⟩
  | unpinned =>
      subst hi
      refine settled_drained fun hfree => ?_
      -- a free frame has no pin to drop
      have hpos : 0 < (s.frames f).pinned.toNat := hdisc
      rw [(hf.1 hfree).1] at hpos
      exact absurd hpos (by decide)
  | unmapped =>
      subst hi
      refine settled_drained fun hfree => ?_
      have hpos : 0 < (s.frames f).mappings.toNat := hdisc
      rw [(hf.1 hfree).2] at hpos
      exact absurd hpos (by decide)
  | retyped => exact settled_of_owner (fun h => by cases h) (fun h => by cases h)

theorem AllSettled.run (h : s.AllSettled) (hrun : ReflTransGen DisciplinedStep s s') :
    s'.AllSettled := by
  induction hrun with
  | refl => exact h
  | tail _ hstep ih => exact ih.step hstep

theorem allSettled_of_idle (h : Idle s) : s.AllSettled := by
  refine fun f => ⟨fun _ => ⟨h.pinned f, h.mappings f⟩, fun hpend => ?_⟩
  have hpend : (s.frames f).owner.tag = .pending := hpend
  obtain ho | ho | ⟨id, ho⟩ := h.owner f
  · rw [ho] at hpend
    cases hpend
  · rw [ho] at hpend
    cases hpend
  · rw [ho] at hpend
    cases hpend

end Machine

/-- **Deferred release.** Along every disciplined run after `pmm_init`, a free frame is neither
pinned nor mapped, a pending frame still is, and so `alloc_frame` hands out idle frames only. -/
theorem deferred_release {boot : BootInfo} {specs : List UntypedSpec}
    {outUntyped caps : List UntypedCap} {heapLen : Nat} {mem : ByteMem} {info : PmInitOut}
    {s₀ s : Machine} (hinit : BootsApart boot specs outUntyped heapLen mem info caps s₀)
    (hrun : ReflTransGen DisciplinedStep s₀ s) :
    (∀ f, (s.frames f).ownerTag = .free → (s.frames f).pinned = 0 ∧ (s.frames f).mappings = 0) ∧
      (∀ f, (s.frames f).ownerTag = .pending →
        0 < (s.frames f).pinned.toNat ∨ 0 < (s.frames f).mappings.toNat) ∧
      ∀ f s', s.allocFrame = some (some f, s') →
        (s'.frames f).pinned = 0 ∧ (s'.frames f).mappings = 0 := by
  have hsettled : s.AllSettled := (allSettled_of_idle (pmmInit_idle hinit.returns)).run hrun
  refine ⟨fun f => (hsettled f).1, fun f hpend => ?_, fun f s' halloc => ?_⟩
  · rcases (hsettled f).2 hpend with hpin | hmap
    · exact Or.inl (Nat.pos_of_ne_zero fun hz => hpin (BitVec.eq_of_toNat_eq hz))
    · exact Or.inr (Nat.pos_of_ne_zero fun hz => hmap (BitVec.eq_of_toNat_eq hz))
  · obtain ⟨hnone, -⟩ | ⟨g, hg, howner, hframes⟩ := allocFrame_frames halloc
    · cases hnone
    · obtain rfl := Option.some.inj hg
      rw [hframes, Function.update_self]
      exact (hsettled f).1 (congrArg FrameOwner.tag howner)

theorem deferred_release_small :
    ∃ info s₀ s, Returns (pmmInit smallBoot [] [] 0) (reset fun _ => 0) (info, []) s₀ ∧
      DisciplinedStep s₀ s ∧
      ∀ f, (s.frames f).ownerTag = .free →
        (s.frames f).pinned = 0 ∧ (s.frames f).mappings = 0 := by
  obtain ⟨info, s₀, hinit, -⟩ := smallBoot_returns
  obtain ⟨L, G, hcoh⟩ := (pmmInit_coherent smallBoot_below hinit).1
  obtain ⟨r, s, L', G', halloc, -⟩ := allocFrame_spec hcoh
  have hstep : DisciplinedStep s₀ s := ⟨.alloc, trivial, trivial, by simp [PmmOp.exec, halloc]⟩
  exact ⟨info, s₀, s, hinit, hstep,
    (deferred_release ⟨smallBoot_apart, hinit⟩ (ReflTransGen.single hstep)).1⟩

/-- **A free frame that is mapped.** With the frame table in memory: frame 0x102, which holds the end of
the table, is on the list before frame 0x155, and the link from one to the other is written where the
mapping count of 0x155 stands. -/
theorem nestedBoot_free_mapped :
    ∃ info r, Returns (pmmInit nestedBoot [] [] 0x1000) (Ram.reset fun _ => 0) (info, []) r ∧
      FrameTable.ownerTag r 0x155 = some .free ∧ FrameTable.mappings r 0x155 = some 0x155 := by
  have hobs : (finish (pmmInit nestedBoot [] [] 0x1000) (Ram.reset fun _ => 0)).map (fun x =>
      (x.1.2, FrameTable.ownerTag x.2 0x155, FrameTable.mappings x.2 0x155)) =
        some ([], some .free, some 0x155) := by
    decide +kernel
  obtain ⟨⟨⟨info, caps⟩, r⟩, hinit, hobs⟩ := Option.map_eq_some_iff.1 hobs
  obtain ⟨rfl, hobs⟩ := Prod.mk.inj hobs
  exact ⟨info, r, returns_of_finish hinit, Prod.mk.inj hobs⟩

end Rolnix
