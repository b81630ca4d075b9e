import Rolnix.Machine

/-!
# The frame allocator

`allocator.rs`, with the two functions of `frame.rs` that re-enter it (`unpin_frame`,
`remove_mapping`). Free frames are kept on per-CPU lists and a global one, threaded through the
first word of the frames themselves; a refill moves a batch from the global list to a shard.

The functions are written over every machine that has what they access: a frame table, and the
lists (`PoolMem`).

Locks are left out: each function here is the body of a critical section or runs them one
after the other.
-/

namespace Rolnix

/-! ## What the free lists access -/

/-- The lists, and the words that link them. -/
class PoolMem (σ : Type) extends FrameTable σ where
  /-- Read the embedded next pointer of a free frame. -/
  listNext : σ → Nat → Nat
  /-- Write the embedded next pointer of a free frame. -/
  setListNext : σ → Nat → Nat → σ
  shards : σ → Nat → Shard
  setShard : σ → Nat → Shard → σ
  global : σ → Shard
  setGlobal : σ → Shard → σ

namespace Machine

def listNext (s : Machine) (frame : Nat) : Nat := s.mem.load (framePhys frame) 4

def setListNext (s : Machine) (frame : Nat) (next : Nat) : Machine :=
  { s with mem := s.mem.store (framePhys frame) 4 next }

end Machine

instance : PoolMem Machine where
  listNext := Machine.listNext
  setListNext := Machine.setListNext
  shards := Machine.shards
  setShard := Machine.setShard
  global := Machine.global
  setGlobal s sh := { s with global := sh }

/-- A chain of frames peeled off the global list, on its way to a shard. -/
structure Batch where
  head : Nat
  tail : Nat
  count : Nat
  deriving DecidableEq, Repr

/-- Locals of the scan in `build_global_freelist`. -/
structure Scan (σ : Type) where
  head : Nat
  prev : Nat
  count : Nat
  s : σ

namespace PoolMem

open FrameTable

variable {σ : Type} [PoolMem σ]

/-! ## Allocation -/

/-- Pop the head of a shard and mark it kernel-owned. -/
def popShard (s : σ) (shard : Nat) : Option (Option Nat × σ) := do
  let guard := shards s shard
  if guard.isEmpty then return (none, s)
  let frame := guard.head
  let s := setShard s shard ⟨listNext s frame, Word.sub 32 guard.count 1⟩
  -- The frame is no longer on any list.
  let s ← setOwner s frame FrameOwner.free.raw .kernel
  return (some frame, s)

/-- The loop of `refill_shard`: `n` more steps along the list from `(tail, cur)`. -/
def peel (s : σ) : Nat → Nat × Nat → Nat × Nat
  | 0, tc => tc
  | n + 1, (_, cur) => peel s n (cur, listNext s cur)

/-- The first critical section of `refill_shard`: detach a batch from the global list. -/
def peelGlobal (s : σ) : Option Batch × σ :=
  let batch := min (global s).count shardRefillBatch
  if batch = 0 then (none, s)
  else
    let batchHead := (global s).head
    let (tail, cur) := peel s (batch - 1) (batchHead, listNext s batchHead)
    (some ⟨batchHead, tail, batch⟩, setGlobal s ⟨cur, Word.sub 32 (global s).count batch⟩)

/-- The second critical section of `refill_shard`: splice a batch onto the front of a shard. -/
def spliceShard (s : σ) (shard : Nat) (b : Batch) : σ :=
  let guard := shards s shard
  let s := setListNext s b.tail guard.head
  setShard s shard ⟨b.head, Word.add 32 guard.count b.count⟩

/-- Move up to a batch of frames from the global list into `shard`. -/
def refillShard (s : σ) (shard : Nat) : σ :=
  match peelGlobal s with
  | (none, s) => s
  | (some b, s) => spliceShard s shard b

/-- Allocate a frame into kernel-internal ownership, or `none` if the lists are empty. -/
def allocFrame (s : σ) : Option (Option Nat × σ) := do
  let shard := currentCpu % shardCount
  let (r, s) ← popShard s shard
  match r with
  | some frame => return (some frame, s)
  | none => popShard (refillShard s shard) shard

/-- Put a frame on the front of a shard: the end of `release_frame`. -/
def pushShard (s : σ) (shard : Nat) (frame : Nat) : σ :=
  let guard := shards s shard
  let s := setListNext s frame guard.head
  setShard s shard ⟨frame, Word.add 32 guard.count 1⟩

/-! ## Release -/

/-- The body of `release_frame` on a CPU whose shard is `shard`. -/
def releaseOn (s : σ) (shard frame : Nat) : Option σ := do
  let owner ← owner s frame
  let (tag, _) ← FrameOwner.decode owner
  if tag = .reserved then none -- release of a reserved frame
  else if tag = .free then none -- double release
  else if (← pinned s frame) ≠ 0 ∨ (← mappings s frame) ≠ 0 then
    if tag ≠ .pending then setOwner s frame owner .pending else return s
  else
    let s ← setOwner s frame owner .free
    let s ← bumpGen s frame
    return pushShard s shard frame

/-- Release a frame back to the allocator, or leave it pending while it is pinned or mapped. -/
def releaseFrame (s : σ) (frame : Nat) : Option σ := releaseOn s (currentCpu % shardCount) frame

/-- Release a draining frame whose pins and mappings have all been removed. -/
def drainIfReady (s : σ) (frame : Nat) : Option σ := do
  if (← ownerTag s frame) = .pending ∧ (← pinned s frame) = 0 ∧ (← mappings s frame) = 0 then
    releaseFrame s frame
  else return s

/-- Decrement the pin count, and drain. Returns the new count. -/
def unpinFrame (s : σ) (frame : Nat) : Option (BitVec 32 × σ) := do
  let (n, s) ← unpin s frame
  let s ← drainIfReady s frame
  return (n, s)

/-- Remove a mapping, and drain. Returns the new count. -/
def removeMapping (s : σ) (frame : Nat) : Option (BitVec 32 × σ) := do
  let (n, s) ← dropMapping s frame
  let s ← drainIfReady s frame
  return (n, s)

/-! ## Building the pool -/

/-- The scan after the frames below `n`. -/
def scanFree (s : σ) : Nat → Option (Scan σ)
  | 0 => some ⟨listEnd, listEnd, 0, s⟩
  | idx + 1 => do
      let sc ← scanFree s idx
      let free ← isFree sc.s idx
      if free then
        if sc.head = listEnd then return ⟨idx, idx, sc.count + 1, sc.s⟩
        else return ⟨sc.head, idx, sc.count + 1, setListNext sc.s sc.prev idx⟩
      else return sc

/-- The end of the scan: the last next word is written. -/
def closeScan (sc : Scan σ) : σ :=
  if sc.prev ≠ listEnd then setListNext sc.s sc.prev listEnd else sc.s

/-- Build the global free list from every frame currently marked free. -/
def buildGlobalFreelist (s : σ) : Option (Nat × σ) := do
  let total := totalFrames s % 2 ^ 32
  let sc ← scanFree s total
  let s := closeScan sc
  if (global s).isEmpty then
    return (sc.count, setGlobal s ⟨sc.head, sc.count % 2 ^ 32⟩)
  else none -- global free list already built

/-- Total number of free frames across all lists. -/
def freeFrameCount (s : σ) : Nat :=
  ((List.range shardCount).map fun i => (shards s i).count).sum + (global s).count

end PoolMem

namespace Machine

abbrev popShard (s : Machine) (shard : Nat) : Option (Option Nat × Machine) :=
  PoolMem.popShard s shard

abbrev peelGlobal (s : Machine) : Option Batch × Machine := PoolMem.peelGlobal s

abbrev spliceShard (s : Machine) (shard : Nat) (b : Batch) : Machine := PoolMem.spliceShard s shard b

abbrev refillShard (s : Machine) (shard : Nat) : Machine := PoolMem.refillShard s shard

abbrev allocFrame (s : Machine) : Option (Option Nat × Machine) := PoolMem.allocFrame s

abbrev pushShard (s : Machine) (shard frame : Nat) : Machine := PoolMem.pushShard s shard frame

abbrev scanFree (s : Machine) (n : Nat) : Option (Scan Machine) := PoolMem.scanFree s n

abbrev buildGlobalFreelist (s : Machine) : Option (Nat × Machine) := PoolMem.buildGlobalFreelist s

abbrev releaseOn (s : Machine) (shard frame : Nat) : Option Machine := PoolMem.releaseOn s shard frame

abbrev releaseFrame (s : Machine) (frame : Nat) : Option Machine := PoolMem.releaseFrame s frame

abbrev drainIfReady (s : Machine) (frame : Nat) : Option Machine := PoolMem.drainIfReady s frame

abbrev unpinFrame (s : Machine) (frame : Nat) : Option (BitVec 32 × Machine) :=
  PoolMem.unpinFrame s frame

abbrev removeMapping (s : Machine) (frame : Nat) : Option (BitVec 32 × Machine) :=
  PoolMem.removeMapping s frame

abbrev freeFrameCount (s : Machine) : Nat := PoolMem.freeFrameCount s

theorem freeFrameCount_def (s : Machine) : s.freeFrameCount =
    ((List.range shardCount).map fun i => (s.shards i).count).sum + s.global.count := rfl

theorem pushShard_shards (s : Machine) (k f : Nat) : (s.pushShard k f).shards =
    Function.update s.shards k ⟨f, Word.add 32 (s.shards k).count 1⟩ := rfl

theorem refillShard_of_none {s s' : Machine} (k : Nat) (h : s.peelGlobal = (none, s')) :
    s.refillShard k = s' := by
  simp only [PoolMem.refillShard, h]

theorem refillShard_of_some {s s' : Machine} {b : Batch} (k : Nat)
    (h : s.peelGlobal = (some b, s')) : s.refillShard k = s'.spliceShard k b := by
  simp only [PoolMem.refillShard, h]

/-! ## What a release does -/

/-- The state after `frame` went back to the pool: free, one generation on, first of the shard. -/
def freedOn (s : Machine) (shard frame : Nat) : Machine :=
  (s.setInfo frame ((s.frames frame).withOwner .free).bumpGen).pushShard shard frame

/-- The same on the shard of the current CPU. -/
def freed (s : Machine) (frame : Nat) : Machine := s.freedOn (currentCpu % shardCount) frame

theorem freed_frames (s : Machine) (f : Nat) :
    (s.freed f).frames = Function.update s.frames f ((s.frames f).withOwner .free).bumpGen := rfl

/-- The state after the release of a frame still in use. -/
def deferred (s : Machine) (frame : Nat) : Machine :=
  if (s.frames frame).owner.tag = .pending then s
  else s.setInfo frame ((s.frames frame).withOwner .pending)

theorem frameInfo_of_lt {s : Machine} {f : Nat} (hb : s.tableBase ≠ 0) (hf : f < s.numFrames) :
    s.frameInfo f = some (s.frames f) :=
  frameInfo_eq_some.2 ⟨hb, hf, rfl⟩

/-- **All a release can do**: panic on a reserved or free frame, defer a pinned or mapped one, free
any other. -/
theorem releaseOn_eq {s : Machine} {f : Nat} (k : Nat) (hb : s.tableBase ≠ 0)
    (hf : f < s.numFrames) :
    s.releaseOn k f =
      if (s.frames f).owner.tag = .reserved ∨ (s.frames f).owner.tag = .free then none
      else if (s.frames f).pinned ≠ 0 ∨ (s.frames f).mappings ≠ 0 then some (s.deferred f)
      else some (s.freedOn k f) := by
  have hset : ∀ o, s.setOwner f (s.frames f).owner o =
      some (s.setInfo f ((s.frames f).withOwner o)) :=
    fun o => setOwner_eq_some.2 ⟨hb, hf, rfl, rfl⟩
  have hinfo : (s.setInfo f ((s.frames f).withOwner .free)).frameInfo f =
      some ((s.frames f).withOwner .free) := by
    rw [frameInfo_eq_some]
    exact ⟨hb, hf, Function.update_self f _ s.frames⟩
  simp only [PoolMem.releaseOn, FrameTable.owner, FrameTable.pinned, FrameTable.mappings,
    FrameTable.bumpGen, frameInfo_of_lt hb hf, FrameOwner.decode_raw, hset, hinfo, Option.map_some,
    Option.bind_eq_bind, Option.bind_some, Option.pure_def]
  by_cases hres : (s.frames f).owner.tag = .reserved
  · rw [if_pos hres, if_pos (Or.inl hres)]
  by_cases hfree : (s.frames f).owner.tag = .free
  · rw [if_neg hres, if_pos hfree, if_pos (Or.inr hfree)]
  rw [if_neg hres, if_neg hfree, if_neg (not_or.2 ⟨hres, hfree⟩)]
  split_ifs with hbusy hpend
  · rw [deferred, if_neg hpend]
  · rw [deferred, if_pos (not_not.1 hpend)]
  · simp only [freedOn, setInfo, Function.update_idem]

theorem releaseFrame_eq {s : Machine} {f : Nat} (hb : s.tableBase ≠ 0) (hf : f < s.numFrames) :
    s.releaseFrame f =
      if (s.frames f).owner.tag = .reserved ∨ (s.frames f).owner.tag = .free then none
      else if (s.frames f).pinned ≠ 0 ∨ (s.frames f).mappings ≠ 0 then some (s.deferred f)
      else some (s.freed f) :=
  releaseOn_eq (currentCpu % shardCount) hb hf

theorem releaseFrame_cases {s s' : Machine} {f : Nat} (h : s.releaseFrame f = some s') :
    s.tableBase ≠ 0 ∧ f < s.numFrames ∧ (s.frames f).owner.tag ≠ .reserved ∧
      (s.frames f).owner.tag ≠ .free ∧
      (((s.frames f).pinned ≠ 0 ∨ (s.frames f).mappings ≠ 0) ∧ s' = s.deferred f ∨
        (s.frames f).pinned = 0 ∧ (s.frames f).mappings = 0 ∧ s' = s.freed f) := by
  obtain ⟨raw, hraw, -⟩ := Option.bind_eq_some_iff.1 h
  obtain ⟨info, hinfo, -⟩ := Option.map_eq_some_iff.1 hraw
  obtain ⟨hb, hf, -⟩ := frameInfo_eq_some.1 hinfo
  rw [releaseFrame_eq hb hf] at h
  split_ifs at h with hbad hbusy
  · exact ⟨hb, hf, fun hr => hbad (Or.inl hr), fun hr => hbad (Or.inr hr),
      Or.inl ⟨hbusy, (Option.some.inj h).symm⟩⟩
  · simp only [not_or, not_not] at hbusy
    exact ⟨hb, hf, fun hr => hbad (Or.inl hr), fun hr => hbad (Or.inr hr),
      Or.inr ⟨hbusy.1, hbusy.2, (Option.some.inj h).symm⟩⟩

/-- A pending frame with nothing left to wait for. -/
def Ready (info : FrameInfo) : Prop :=
  info.ownerTag = .pending ∧ info.pinned = 0 ∧ info.mappings = 0

instance (info : FrameInfo) : Decidable (Ready info) := inferInstanceAs (Decidable (_ ∧ _))

theorem drainIfReady_eq {s : Machine} {f : Nat} (hb : s.tableBase ≠ 0) (hf : f < s.numFrames) :
    s.drainIfReady f = some (if Ready (s.frames f) then s.freed f else s) := by
  have hunfold : s.drainIfReady f =
      if Ready (s.frames f) then s.releaseFrame f else some s := by
    simp only [PoolMem.drainIfReady, FrameTable.ownerTag, FrameTable.owner, FrameTable.pinned,
      FrameTable.mappings, frameInfo_of_lt hb hf, FrameOwner.decode_raw, Option.map_some,
      Option.bind_eq_bind, Option.bind_some, Option.pure_def]
    rfl
  rw [hunfold]
  by_cases hready : Ready (s.frames f)
  · have hpend : (s.frames f).owner.tag = .pending := hready.1
    rw [if_pos hready, if_pos hready, releaseFrame_eq hb hf, if_neg (by simp [hpend]),
      if_neg (by simp [hready.2.1, hready.2.2])]
  · rw [if_neg hready, if_neg hready]

/-- Change the counters of a frame, then drain it. -/
def dropRef (s : Machine) (f : Nat) (info : FrameInfo) : Machine :=
  if Ready info then (s.setInfo f info).freed f else s.setInfo f info

/-- The metadata a drain leaves. -/
def drained (info : FrameInfo) : FrameInfo :=
  if Ready info then (info.withOwner .free).bumpGen else info

theorem drained_mappings (info : FrameInfo) : (drained info).mappings = info.mappings := by
  unfold drained
  split_ifs <;> rfl

theorem drained_pinned (info : FrameInfo) : (drained info).pinned = info.pinned := by
  unfold drained
  split_ifs <;> rfl

theorem dropRef_frames (s : Machine) (f : Nat) (info : FrameInfo) :
    (s.dropRef f info).frames = Function.update s.frames f (drained info) := by
  unfold dropRef drained
  split_ifs
  · rw [freed_frames, setInfo_frames, Function.update_self, Function.update_idem]
  · rfl

theorem unpinFrame_eq {s : Machine} {f : Nat} (hb : s.tableBase ≠ 0) (hf : f < s.numFrames) :
    s.unpinFrame f =
      some ((s.frames f).unpin.pinned, s.dropRef f (s.frames f).unpin) := by
  have hdrain := drainIfReady_eq (s := s.setInfo f (s.frames f).unpin) hb hf
  rw [setInfo_frames, Function.update_self] at hdrain
  simp only [PoolMem.unpinFrame, FrameTable.unpin, updateCount, frameInfo_of_lt hb hf, hdrain,
    Option.bind_eq_bind, Option.bind_some, Option.pure_def, dropRef]

theorem removeMapping_eq {s : Machine} {f : Nat} (hb : s.tableBase ≠ 0) (hf : f < s.numFrames) :
    s.removeMapping f =
      some ((s.frames f).removeMapping.mappings, s.dropRef f (s.frames f).removeMapping) := by
  have hdrain := drainIfReady_eq (s := s.setInfo f (s.frames f).removeMapping) hb hf
  rw [setInfo_frames, Function.update_self] at hdrain
  simp only [PoolMem.removeMapping, FrameTable.dropMapping, updateCount, frameInfo_of_lt hb hf, hdrain,
    Option.bind_eq_bind, Option.bind_some, Option.pure_def, dropRef]

/-! ## Diagnostics -/

/-- Walk one list, checking that each frame on it is free. A walk over `u32` indices that has
not ended after `2 ^ 32` steps has come back to a frame it already visited. -/
def checkList (s : Machine) : Nat → Nat → Nat → Option Nat
  | 0, _, _ => none
  | fuel + 1, cur, walked => do
      if cur = listEnd then return walked
      let info ← s.frameInfo cur
      if info.isFree then checkList s fuel (s.listNext cur) (walked + 1) else none

/-- Walk every free list. Returns the number of frames walked. -/
def debugValidateFreeLists (s : Machine) : Option Nat := do
  let walked ← (List.range shardCount).foldlM
    (fun walked i => s.checkList (2 ^ 32) (s.shards i).head walked) 0
  s.checkList (2 ^ 32) s.global.head walked

end Machine

end Rolnix
