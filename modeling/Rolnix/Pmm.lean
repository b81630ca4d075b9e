import Rolnix.FreeLists
import Rolnix.Untyped
import Mathlib.Logic.Relation

/-!
# Runs of the physical memory manager

After `pmm_init` the memory manager is driven by calls of seven functions, and clients write into
the frames they hold. A step is one call that returns, or one byte written to a frame that is not
free and outside of the frame table; a run is any sequence of steps.

`Coherent.step` is the step lemma: whatever the call, the lists stay coherent. The theorems about
whole runs start from the state `pmm_init` leaves and are in `Rolnix.PmmProof`.
-/

namespace Rolnix

/-- The calls a client can make, and its writes. -/
inductive PmmOp
  | alloc
  | release (f : Nat)
  | pin (f : Nat)
  | unpin (f : Nat)
  | addMapping (f : Nat)
  | removeMapping (f : Nat)
  | retype (cap : UntypedCap) (domain : DomainId)
  | write (a : Nat) (c : UInt8)

namespace PmmOp

/-- Run one operation; `none` if it panics. -/
def exec : PmmOp → Machine → Option Machine
  | alloc, s => s.allocFrame.map (·.2)
  | release f, s => s.releaseFrame f
  | pin f, s => (s.pinFrame f).map (·.2)
  | unpin f, s => (s.unpinFrame f).map (·.2)
  | addMapping f, s => (s.addMapping f).map (·.2)
  | removeMapping f, s => (s.removeMapping f).map (·.2)
  | retype cap domain, s => (s.retypeFrame cap domain).map (·.2.2)
  | write a c, s => some { s with mem := s.mem.poke a c }

/-- Clients write only into frames that are not free, and not into the frame table. -/
def ClientOk : PmmOp → Machine → Prop
  | write a _, s => ¬ (s.frames (a / frameSize)).isFree ∧ ¬ s.InTable a
  | _, _ => True

instance (s : Machine) : DecidablePred fun op => ClientOk op s
  | alloc | release _ | pin _ | unpin _ | addMapping _ | removeMapping _ | retype _ _ | write _ _ => by
      unfold ClientOk; infer_instance

/-- Pins and mappings are added only to frames that are not free, removed only when there is one,
and stay below `2 ^ 32`. -/
def Disciplined : PmmOp → Machine → Prop
  | pin f, s => ¬ (s.frames f).isFree ∧ (s.frames f).pinned.toNat + 1 < 2 ^ 32
  | addMapping f, s => ¬ (s.frames f).isFree ∧ (s.frames f).mappings.toNat + 1 < 2 ^ 32
  | unpin f, s => 0 < (s.frames f).pinned.toNat
  | removeMapping f, s => 0 < (s.frames f).mappings.toNat
  | _, _ => True

end PmmOp

/-- One step of the memory manager. -/
def PmmStep (s s' : Machine) : Prop := ∃ op : PmmOp, op.ClientOk s ∧ op.exec s = some s'

/-- One step that respects the discipline on pins and mappings. -/
def DisciplinedStep (s s' : Machine) : Prop :=
  ∃ op : PmmOp, op.ClientOk s ∧ op.Disciplined s ∧ op.exec s = some s'

namespace Machine

variable {s s' : Machine} {L : Nat → List Nat} {G : List Nat} {f : Nat}

theorem isFree_iff {info : FrameInfo} : info.isFree = true ↔ info.owner.tag = .free :=
  decide_eq_true_iff

theorem pinFrame_eq (hb : s.tableBase ≠ 0) (hf : f < s.numFrames) :
    s.pinFrame f = some ((s.frames f).pin.pinned, s.setInfo f (s.frames f).pin) := by
  simp [FrameTable.pinFrame, FrameTable.pin, updateCount, frameInfo_of_lt hb hf]

theorem addMapping_eq (hb : s.tableBase ≠ 0) (hf : f < s.numFrames) :
    s.addMapping f = some ((s.frames f).addMapping.mappings, s.setInfo f (s.frames f).addMapping) := by
  simp [addMapping, FrameTable.addMapping, updateCount, frameInfo_of_lt hb hf]

theorem lt_of_updateCount {g : FrameInfo → FrameInfo} {count : FrameInfo → BitVec 32}
    {r : BitVec 32 × Machine} (h : s.updateCount f g count = some r) :
    s.tableBase ≠ 0 ∧ f < s.numFrames := by
  obtain ⟨info, hinfo, -⟩ := Option.bind_eq_some_iff.1 h
  exact ⟨(frameInfo_eq_some.1 hinfo).1, (frameInfo_eq_some.1 hinfo).2.1⟩

/-- What an operation that returns does to the machine. -/
inductive PmmEffect (s : Machine) : PmmOp → Machine → Prop
  | alloc {r : Option Nat} {s' : Machine} (halloc : s.allocFrame = some (r, s')) :
      PmmEffect s .alloc s'
  | deferred {f : Nat} (hf : f < s.numFrames) (hres : (s.frames f).ownerTag ≠ .reserved)
      (hfree : (s.frames f).ownerTag ≠ .free)
      (hbusy : (s.frames f).pinned ≠ 0 ∨ (s.frames f).mappings ≠ 0) :
      PmmEffect s (.release f) (s.deferred f)
  | freed {f : Nat} (hf : f < s.numFrames) (hres : (s.frames f).ownerTag ≠ .reserved)
      (hfree : (s.frames f).ownerTag ≠ .free) (hpin : (s.frames f).pinned = 0)
      (hmap : (s.frames f).mappings = 0) : PmmEffect s (.release f) (s.freed f)
  | pin {f : Nat} : PmmEffect s (.pin f) (s.setInfo f (s.frames f).pin)
  | unpin {f : Nat} (hf : f < s.numFrames) :
      PmmEffect s (.unpin f) (s.dropRef f (s.frames f).unpin)
  | addMapping {f : Nat} : PmmEffect s (.addMapping f) (s.setInfo f (s.frames f).addMapping)
  | removeMapping {f : Nat} (hf : f < s.numFrames) :
      PmmEffect s (.removeMapping f) (s.dropRef f (s.frames f).removeMapping)
  | exhausted {cap : UntypedCap} {domain : DomainId} : PmmEffect s (.retype cap domain) s
  | retyped {cap : UntypedCap} {domain : DomainId} {f : Nat}
      (howner : (s.frames f).owner = .untyped cap.id) :
      PmmEffect s (.retype cap domain) (s.setInfo f ((s.frames f).withOwner (.domain domain)))
  | write {a : Nat} {c : UInt8} : PmmEffect s (.write a c) { s with mem := s.mem.poke a c }

/-- **All an operation can do.** -/
theorem exec_effect {op : PmmOp} (hexec : op.exec s = some s') : PmmEffect s op s' := by
  cases op with
  | alloc =>
      obtain ⟨⟨r, s₁⟩, halloc, rfl⟩ := Option.map_eq_some_iff.1 hexec
      exact .alloc halloc
  | release f =>
      obtain ⟨-, hf, hres, hfree, ⟨hbusy, rfl⟩ | ⟨hpin, hmap, rfl⟩⟩ := releaseFrame_cases hexec
      · exact .deferred hf hres hfree hbusy
      · exact .freed hf hres hfree hpin hmap
  | pin f =>
      obtain ⟨⟨n, s₁⟩, hpin, rfl⟩ := Option.map_eq_some_iff.1 hexec
      obtain ⟨hb, hf⟩ := lt_of_updateCount hpin
      rw [pinFrame_eq hb hf, Option.some.injEq, Prod.mk.injEq] at hpin
      exact hpin.2 ▸ .pin
  | unpin f =>
      obtain ⟨⟨n, s₁⟩, hunpin, rfl⟩ := Option.map_eq_some_iff.1 hexec
      obtain ⟨_, hcount, -⟩ := Option.bind_eq_some_iff.1 hunpin
      obtain ⟨hb, hf⟩ := lt_of_updateCount hcount
      rw [unpinFrame_eq hb hf, Option.some.injEq, Prod.mk.injEq] at hunpin
      exact hunpin.2 ▸ .unpin hf
  | addMapping f =>
      obtain ⟨⟨n, s₁⟩, hadd, rfl⟩ := Option.map_eq_some_iff.1 hexec
      obtain ⟨hb, hf⟩ := lt_of_updateCount hadd
      rw [addMapping_eq hb hf, Option.some.injEq, Prod.mk.injEq] at hadd
      exact hadd.2 ▸ .addMapping
  | removeMapping f =>
      obtain ⟨⟨n, s₁⟩, hrem, rfl⟩ := Option.map_eq_some_iff.1 hexec
      obtain ⟨_, hcount, -⟩ := Option.bind_eq_some_iff.1 hrem
      obtain ⟨hb, hf⟩ := lt_of_updateCount hcount
      rw [removeMapping_eq hb hf, Option.some.injEq, Prod.mk.injEq] at hrem
      exact hrem.2 ▸ .removeMapping hf
  | retype cap domain =>
      obtain ⟨⟨r, cap', s₁⟩, hretype, rfl⟩ := Option.map_eq_some_iff.1 hexec
      obtain ⟨-, rfl⟩ | ⟨f, -, -, howner, rfl⟩ := retypeFrame_cases hretype
      · exact .exhausted
      · exact .retyped howner
  | write a c =>
      obtain rfl := Option.some.inj hexec
      exact .write

theorem sameBoot_dropRef (s : Machine) (f : Nat) (info : FrameInfo) :
    SameBoot s (s.dropRef f info) := by
  unfold Machine.dropRef
  split_ifs
  · exact ⟨rfl, rfl, rfl⟩
  · exact ⟨rfl, rfl, rfl⟩

/-! ## Coherence along a run -/

/-- Some lists make the state coherent. -/
def IsCoherent (s : Machine) : Prop := ∃ L G, Coherent s L G

theorem Coherent.freed (h : Coherent s L G) (hf : f < s.numFrames)
    (hnot : (s.frames f).owner ≠ .free) : IsCoherent (s.freed f) :=
  ⟨_, G, h.push currentShard_lt hf hnot rfl⟩

theorem Coherent.deferred (h : Coherent s L G) (hnot : (s.frames f).owner ≠ .free) :
    Coherent (s.deferred f) L G := by
  unfold Machine.deferred
  split_ifs
  · exact h
  · exact h.setInfo (by simp [hnot]) (by simp [FrameOwner.pending])

theorem Coherent.counters (h : Coherent s L G) {info : FrameInfo}
    (ho : info.owner = (s.frames f).owner) : Coherent (s.setInfo f info) L G :=
  h.setInfo (by rw [ho]) (by rw [ho]; exact h.tag f)

theorem Coherent.dropRef (h : Coherent s L G) (hf : f < s.numFrames) {info : FrameInfo}
    (ho : info.owner = (s.frames f).owner) : IsCoherent (s.dropRef f info) := by
  unfold Machine.dropRef
  split_ifs with hready
  · refine (h.counters ho).freed hf ?_
    rw [setInfo_frames, Function.update_self]
    intro hfree
    have hpend : info.owner.tag = .pending := hready.1
    rw [hfree] at hpend
    exact absurd hpend (by decide)
  · exact ⟨L, G, h.counters ho⟩

/-- **The step lemma.** -/
theorem Coherent.step (h : Coherent s L G) (hstep : PmmStep s s') : IsCoherent s' := by
  obtain ⟨op, hok, hexec⟩ := hstep
  cases exec_effect hexec with
  | alloc halloc =>
      obtain ⟨r, s₁, L', G', halloc', hcoh, -⟩ := allocFrame_spec h
      obtain ⟨-, rfl⟩ := Prod.mk.inj (Option.some.inj (halloc.symm.trans halloc'))
      exact ⟨L', G', hcoh⟩
  | deferred _ _ hfree => exact ⟨L, G, h.deferred fun ho => hfree (congrArg FrameOwner.tag ho)⟩
  | freed hf _ hfree => exact h.freed hf fun ho => hfree (congrArg FrameOwner.tag ho)
  | pin => exact ⟨L, G, h.counters rfl⟩
  | unpin hf => exact h.dropRef hf rfl
  | addMapping => exact ⟨L, G, h.counters rfl⟩
  | removeMapping hf => exact h.dropRef hf rfl
  | exhausted => exact ⟨L, G, h⟩
  | retyped howner =>
      exact ⟨L, G, h.setInfo (by simp [howner]) (by simp [FrameOwner.domain])⟩
  | @write a c =>
      refine ⟨L, G, h.write fun b _ hfree => ByteMem.poke_of_ne ?_⟩
      -- a free frame is not written
      rintro rfl
      exact hok.1 (isFree_iff.2 (congrArg FrameOwner.tag hfree))

/-- **The run lemma.** -/
theorem IsCoherent.run (h : s.IsCoherent) (hrun : Relation.ReflTransGen PmmStep s s') :
    s'.IsCoherent := by
  induction hrun with
  | refl => exact h
  | tail _ hstep ih =>
      obtain ⟨L, G, hcoh⟩ := ih
      exact hcoh.step hstep

/-! ## What coherence says about the diagnostics -/

theorem checkList_eq {fuel cur w : Nat} {l : List Nat} (hb : s.tableBase ≠ 0)
    (hc : Linked.Chain s.listNext listEnd cur l)
    (hfree : ∀ f ∈ l, f < s.numFrames ∧ (s.frames f).owner = .free) (hlen : l.length < fuel) :
    s.checkList fuel cur w = some (w + l.length) := by
  induction l generalizing cur w fuel with
  | nil =>
      obtain ⟨fuel, rfl⟩ := Nat.exists_eq_succ_of_ne_zero (Nat.ne_of_gt hlen)
      have hcur : cur = listEnd := hc.seg
      simp [checkList, hcur]
  | cons f l ih =>
      obtain ⟨fuel, rfl⟩ := Nat.exists_eq_succ_of_ne_zero (Nat.ne_of_gt (Nat.zero_lt_of_lt hlen))
      obtain ⟨rfl, hne, hrest⟩ := Linked.chain_cons_iff.1 hc
      obtain ⟨hf, howner⟩ := hfree cur List.mem_cons_self
      have hisFree : (s.frames cur).isFree = true := isFree_iff.2 (by rw [howner]; rfl)
      have hih := ih (w := w + 1) hrest (fun g hg => hfree g (List.mem_cons_of_mem cur hg))
        (by simpa using hlen)
      simp only [checkList, if_neg hne, frameInfo_of_lt hb hf, Option.bind_eq_bind,
        Option.bind_some, hisFree, if_true, hih, List.length_cons]
      congr 1
      omega

end Machine

end Rolnix
