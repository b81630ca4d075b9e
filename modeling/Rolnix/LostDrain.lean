import Rolnix.DrainRace

/-!
# A release next to the last drops

`release_frame` reads the owner, then the counters, and then exchanges the owner for `Pending` or
`Free`. `unpin_frame` and `remove_mapping` decrement without the shard lock, so the counters may
drop to zero between the read and the exchange. Here one `release_frame` of an owned frame
interleaves, read by read, with any number of such calls; a drain runs the same `release_frame`.

A call that decrements and checks before the exchange does not find the frame pending, and the
release goes by the count it read: the frame is left pending for good (`lost_drain`). If at that
exchange a counter is not zero, or some call has yet to make its check, the frame is free in the
end (`drain_not_lost`).
-/

namespace Rolnix

open Machine Relation

/-! ## `release_frame`, read by read -/

/-- Where a `release_frame` is. -/
inductive ReleasePc
  /-- Before the owner is read. -/
  | owner
  /-- Before the counters are read. -/
  | counts (o : FrameOwner)
  /-- Before the owner is exchanged. -/
  | swap (o new : FrameOwner)
  | done
  deriving DecidableEq

/-- The next atomic step of `release_frame(f)`, on the CPU of shard `k`. -/
def ReleasePc.next (f k : Nat) : ReleasePc → Machine → Option (ReleasePc × Machine)
  | owner, s => do
      let info ← s.frameInfo f
      if info.owner.tag = .reserved then none -- release of a reserved frame
      else if info.owner.tag = .free then none -- double release
      else return (counts info.owner, s)
  | counts o, s => do
      let info ← s.frameInfo f
      if info.pinned ≠ 0 ∨ info.mappings ≠ 0 then
        if o.tag ≠ .pending then return (swap o .pending, s) else return (done, s)
      else return (swap o .free, s)
  | swap o new, s => do
      let s ← s.setOwner f o new
      if new = .free then
        let info ← s.frameInfo f
        let s := s.setInfo f info.bumpGen
        return (done, s.pushShard k f)
      else return (done, s)
  | done, _ => none

/-- The next step makes the frame pending. -/
def ReleasePc.defers : ReleasePc → Bool
  | swap _ new => new = .pending
  | _ => false

/-- The steps of a release that nobody interrupts. -/
def ReleasePc.alone (f k : Nat) : Nat → ReleasePc → Machine → Option Machine
  | _, done, s => some s
  | 0, _, _ => none
  | n + 1, pc, s => (pc.next f k s).bind fun r => alone f k n r.1 r.2

/-- **A release that nobody interrupts is `release_frame`.** -/
theorem ReleasePc.alone_owner (s : Machine) (f k : Nat) :
    ReleasePc.owner.alone f k 3 s = s.releaseOn k f := by
  cases hinfo : s.frameInfo f with
  | none => simp [alone, next, PoolMem.releaseOn, FrameTable.owner, hinfo]
  | some info =>
      simp only [alone, next, PoolMem.releaseOn, FrameTable.owner, FrameTable.pinned,
        FrameTable.mappings, FrameTable.bumpGen, FrameOwner.decode_raw, hinfo, Option.map_some,
        Option.bind_eq_bind, Option.bind_some, Option.pure_def]
      by_cases hres : info.owner.tag = .reserved
      · rw [if_pos hres, if_pos hres]
        rfl
      by_cases hfree : info.owner.tag = .free
      · rw [if_neg hres, if_pos hfree, if_neg hres, if_pos hfree]
        rfl
      rw [if_neg hres, if_neg hfree, if_neg hres, if_neg hfree]
      simp only [Option.bind_some, alone, next, hinfo, Option.bind_eq_bind, Option.pure_def]
      split_ifs with hbusy hpend
      · simp only [Option.bind_some, alone, next, FrameOwner.pending_ne_free, if_false,
          Option.bind_eq_bind, Option.pure_def]
        cases hset : s.setOwner f info.owner .pending <;> simp [hset, alone]
      · rfl
      · simp only [Option.bind_some, alone, next, if_true, Option.bind_eq_bind, Option.pure_def,
          Option.bind_assoc]

section Cases

variable {f k : Nat} {s s' : Machine} {o new : FrameOwner} {pc : ReleasePc}

theorem ReleasePc.next_owner (h : ReleasePc.owner.next f k s = some (pc, s')) :
    s' = s ∧ (s.frames f).owner.tag ≠ .free ∧ pc = .counts (s.frames f).owner := by
  obtain ⟨info, hinfo, h⟩ := Option.bind_eq_some_iff.1 h
  obtain ⟨-, -, rfl⟩ := frameInfo_eq_some.1 hinfo
  split_ifs at h with hres hfree
  obtain ⟨rfl, rfl⟩ := Prod.mk.inj (Option.some.inj h)
  exact ⟨rfl, hfree, rfl⟩

theorem ReleasePc.next_counts (h : (ReleasePc.counts o).next f k s = some (pc, s')) :
    s' = s ∧
      (((s.frames f).pinned ≠ 0 ∨ (s.frames f).mappings ≠ 0) ∧
        (o.tag ≠ .pending ∧ pc = .swap o .pending ∨ o.tag = .pending ∧ pc = .done) ∨
      pc = .swap o .free) := by
  obtain ⟨info, hinfo, h⟩ := Option.bind_eq_some_iff.1 h
  obtain ⟨-, -, rfl⟩ := frameInfo_eq_some.1 hinfo
  split_ifs at h with hbusy hpend
  · obtain ⟨rfl, rfl⟩ := Prod.mk.inj (Option.some.inj h)
    exact ⟨rfl, Or.inl ⟨hbusy, Or.inl ⟨hpend, rfl⟩⟩⟩
  · obtain ⟨rfl, rfl⟩ := Prod.mk.inj (Option.some.inj h)
    exact ⟨rfl, Or.inl ⟨hbusy, Or.inr ⟨not_not.1 hpend, rfl⟩⟩⟩
  · obtain ⟨rfl, rfl⟩ := Prod.mk.inj (Option.some.inj h)
    exact ⟨rfl, Or.inr rfl⟩

theorem ReleasePc.next_swap (h : (ReleasePc.swap o new).next f k s = some (pc, s')) :
    (s.frames f).owner = o ∧ pc = .done ∧ (s'.frames f).owner = new ∧
      (s'.frames f).pinned = (s.frames f).pinned ∧
      (s'.frames f).mappings = (s.frames f).mappings := by
  obtain ⟨s₁, hset, h⟩ := Option.bind_eq_some_iff.1 h
  obtain ⟨-, -, howner, rfl⟩ := setOwner_eq_some.1 hset
  have hself : ((s.setInfo f ((s.frames f).withOwner new)).frames f) =
      (s.frames f).withOwner new := Function.update_self f _ _
  split_ifs at h with hfree
  · obtain ⟨info, hinfo, h⟩ := Option.bind_eq_some_iff.1 h
    obtain ⟨-, -, rfl⟩ := frameInfo_eq_some.1 hinfo
    obtain ⟨rfl, rfl⟩ := Prod.mk.inj (Option.some.inj h)
    have hpush : (((s.setInfo f ((s.frames f).withOwner new)).setInfo f
        ((s.setInfo f ((s.frames f).withOwner new)).frames f).bumpGen).pushShard k f).frames f =
          ((s.frames f).withOwner new).bumpGen := by
      rw [hself]
      exact Function.update_self f _ _
    rw [hpush]
    exact ⟨howner, rfl, rfl, rfl, rfl⟩
  · obtain ⟨rfl, rfl⟩ := Prod.mk.inj (Option.some.inj h)
    rw [hself]
    exact ⟨howner, rfl, rfl, rfl, rfl⟩

end Cases

/-! ## The calls that drop -/

/-- Where an `unpin_frame` or `remove_mapping` is. -/
inductive DrainPc
  /-- Before the decrement. -/
  | drop (r : Ref)
  /-- Before the check of `drain_if_ready`. -/
  | check
  /-- In the `release_frame` of a drain; or done. -/
  | release (pc : ReleasePc)
  deriving DecidableEq

/-- The next atomic step of a call on `f`, on the CPU of shard `k`. -/
def DrainPc.next (f k : Nat) : DrainPc → Machine → Option (DrainPc × Machine)
  | drop r, s => do
      let info ← s.frameInfo f
      return (check, s.setInfo f (r.drop info))
  | check, s => do
      let info ← s.frameInfo f
      if info.ownerTag = .pending ∧ info.pinned = 0 ∧ info.mappings = 0 then
        return (release .owner, s)
      else return (release .done, s)
  | release pc, s => (pc.next f k s).map fun r => (release r.1, r.2)

section Cases

variable {f k : Nat} {s s' : Machine} {r : Ref} {pc : DrainPc}

theorem DrainPc.next_drop (h : (DrainPc.drop r).next f k s = some (pc, s')) :
    pc = .check ∧ (s'.frames f).owner = (s.frames f).owner := by
  obtain ⟨info, hinfo, h⟩ := Option.bind_eq_some_iff.1 h
  obtain ⟨-, -, rfl⟩ := frameInfo_eq_some.1 hinfo
  obtain ⟨rfl, rfl⟩ := Prod.mk.inj (Option.some.inj h)
  rw [setInfo_frames, Function.update_self, Ref.drop_owner]
  exact ⟨rfl, rfl⟩

theorem DrainPc.next_check (h : DrainPc.check.next f k s = some (pc, s')) :
    s' = s ∧ (Ready (s.frames f) ∧ pc = .release .owner ∨
      ¬ Ready (s.frames f) ∧ pc = .release .done) := by
  obtain ⟨info, hinfo, h⟩ := Option.bind_eq_some_iff.1 h
  obtain ⟨-, -, rfl⟩ := frameInfo_eq_some.1 hinfo
  split_ifs at h with hready
  · obtain ⟨rfl, rfl⟩ := Prod.mk.inj (Option.some.inj h)
    exact ⟨rfl, Or.inl ⟨hready, rfl⟩⟩
  · obtain ⟨rfl, rfl⟩ := Prod.mk.inj (Option.some.inj h)
    exact ⟨rfl, Or.inr ⟨hready, rfl⟩⟩

end Cases

/-- The place of a call whose `release_frame` is one step. -/
def DropPc.fine : DropPc → DrainPc
  | drop r => .drop r
  | check => .check
  | release => .release .owner
  | done => .release .done

/-- Up to the drain a call takes the steps it takes when `release_frame` is one step. -/
theorem DropPc.fine_next (s : Machine) (f k : Nat) {pc : DropPc} (hpc : pc ≠ .release) :
    pc.fine.next f k s = (pc.next f k s).map fun r => (r.1.fine, r.2) := by
  cases pc with
  | drop r =>
      cases hinfo : s.frameInfo f <;> simp [fine, DrainPc.next, DropPc.next, hinfo]
  | check =>
      cases hinfo : s.frameInfo f with
      | none => simp [fine, DrainPc.next, DropPc.next, hinfo]
      | some info =>
          simp only [fine, DrainPc.next, DropPc.next, hinfo, Option.bind_eq_bind, Option.bind_some,
            Option.pure_def]
          split_ifs <;> rfl
  | release => exact absurd rfl hpc
  | done => rfl

/-- The call has not made its check. -/
def DrainPc.Before : DrainPc → Prop
  | drop _ | check => True
  | release _ => False

instance : DecidablePred DrainPc.Before
  | .drop _ | .check | .release _ => by unfold DrainPc.Before; infer_instance

/-! ## Interleavings -/

/-- One release and any number of calls on the same frame. -/
structure Releasing (n : Nat) where
  machine : Machine
  release : ReleasePc
  calls : Fin n → DrainPc

inductive ReleasingOp (n : Nat)
  /-- The next step of the release, on a CPU. -/
  | release (cpu : Nat)
  /-- The next step of a call, on a CPU. -/
  | step (i : Fin n) (cpu : Nat)

namespace ReleasingOp

variable {n : Nat}

/-- The frame `f` is that of the release and of all calls. `none` if the kernel panics. -/
def exec (f : Nat) (d : Releasing n) : ReleasingOp n → Option (Releasing n)
  | release cpu => (d.release.next f (cpu % shardCount) d.machine).map fun r =>
      { d with machine := r.2, release := r.1 }
  | step i cpu => ((d.calls i).next f (cpu % shardCount) d.machine).map fun r =>
      { d with machine := r.2, calls := Function.update d.calls i r.1 }

def Allowed (d : Releasing n) : ReleasingOp n → Prop
  | release _ => d.release ≠ .done
  | step i _ => d.calls i ≠ .release .done

/-- When the release makes the frame pending, there is something to wait for: a counter is not
zero, or a call has yet to make its check. -/
def Awaited (f : Nat) (d : Releasing n) : ReleasingOp n → Prop
  | release _ => d.release.defers = true →
      (d.machine.frames f).pinned ≠ 0 ∨ (d.machine.frames f).mappings ≠ 0 ∨
        ∃ i, (d.calls i).Before
  | step .. => True

instance (d : Releasing n) : DecidablePred (Allowed d)
  | release .. | step .. => by unfold Allowed; infer_instance

instance (f : Nat) (d : Releasing n) : DecidablePred (Awaited f d)
  | release .. | step .. => by unfold Awaited; infer_instance

end ReleasingOp

namespace Releasing

variable {n f : Nat} {d d' : Releasing n}

def Step (f : Nat) : Releasing n → Releasing n → Prop :=
  Runs.Step ReleasingOp.Allowed (ReleasingOp.exec f)

/-- A step that meets the condition. -/
def AwaitedStep (f : Nat) : Releasing n → Releasing n → Prop :=
  Runs.Step (fun d op => op.Allowed d ∧ op.Awaited f d) (ReleasingOp.exec f)

/-- Somebody owns the frame, and neither the release nor a call has begun. -/
structure Starts (f : Nat) (d : Releasing n) : Prop where
  booted : Booted d.machine
  lt : f < d.machine.numFrames
  owned : (d.machine.frames f).ownerTag ≠ .reserved ∧ (d.machine.frames f).ownerTag ≠ .free ∧
    (d.machine.frames f).ownerTag ≠ .pending
  release : d.release = .owner
  calls : ∀ i, ∃ r, d.calls i = .drop r

/-- The release and all calls have returned. -/
def Finished (d : Releasing n) : Prop := d.release = .done ∧ ∀ i, d.calls i = .release .done

/-! ## The invariant -/

/-- The places of a drain. It goes on only if it finds the frame pending. -/
inductive Draining : ReleasePc → Prop
  | owner : Draining .owner
  | counts : Draining (.counts .pending)
  | swap : Draining (.swap .pending .free)
  | done : Draining .done

theorem Draining.release {pc : ReleasePc} (h : Draining pc) :
    ∀ p, DrainPc.release pc = .release p → Draining p :=
  fun _ hp => DrainPc.release.inj hp ▸ h

/-- How far the frame is. -/
inductive Phase (f : Nat) (d : Releasing n) : Prop
  /-- The release has not exchanged the owner, and nobody drains. -/
  | reading (o : FrameOwner)
      (hpc : d.release = .owner ∨ d.release = .counts o ∨ d.release = .swap o .pending ∨
        d.release = .swap o .free)
      (howner : (d.machine.frames f).owner = o) (hnot : o.tag ≠ .pending)
      (hquiet : ∀ i, (d.calls i).Before ∨ d.calls i = .release .done)
  /-- The frame waits, and there is something it waits for. -/
  | waiting (hpc : d.release = .done) (howner : (d.machine.frames f).owner = .pending)
      (hwait : (d.machine.frames f).pinned ≠ 0 ∨ (d.machine.frames f).mappings ≠ 0 ∨
        ∃ i, d.calls i ≠ .release .done)
  | freed (hpc : d.release = .done) (howner : (d.machine.frames f).owner = .free)

structure Inv (f : Nat) (d : Releasing n) : Prop where
  drains : ∀ i pc, d.calls i = .release pc → Draining pc
  phase : Phase f d

theorem Starts.inv (h : d.Starts f) : d.Inv f where
  drains := by
    intro i pc hpc
    obtain ⟨r, hr⟩ := h.calls i
    rw [hr] at hpc
    cases hpc
  phase := by
    refine .reading _ (Or.inl h.release) rfl h.owned.2.2 fun i => Or.inl ?_
    obtain ⟨r, hr⟩ := h.calls i
    rw [hr]
    trivial

theorem Inv.free (h : d.Inv f) (hdone : d.Finished) (hpinned : (d.machine.frames f).pinned = 0)
    (hmappings : (d.machine.frames f).mappings = 0) :
    (d.machine.frames f).owner = .free := by
  cases h.phase with
  | reading o hpc =>
      rw [hdone.1] at hpc
      rcases hpc with hpc | hpc | hpc | hpc <;> cases hpc
  | waiting _ _ hwait =>
      obtain hp | hm | ⟨i, hi⟩ := hwait
      · exact absurd hpinned hp
      · exact absurd hmappings hm
      · exact absurd (hdone.2 i) hi
  | freed _ howner => exact howner

/-! ## Steps -/

theorem Inv.release (h : d.Inv f) {cpu : Nat} (hok : d.release ≠ .done)
    (hawait : ReleasingOp.Awaited f d (.release cpu))
    (hexec : (ReleasingOp.release cpu).exec f d = some d') : d'.Inv f := by
  obtain ⟨⟨pc, s⟩, hnext, rfl⟩ := Option.map_eq_some_iff.1 hexec
  refine ⟨h.drains, ?_⟩
  cases h.phase with
  | waiting hpc => exact absurd hpc hok
  | freed hpc => exact absurd hpc hok
  | reading o hpc howner hnot hquiet =>
      rcases hpc with hpc | hpc | hpc | hpc
      · rw [hpc] at hnext
        obtain ⟨rfl, -, rfl⟩ := ReleasePc.next_owner hnext
        exact .reading o (Or.inr (Or.inl (by rw [howner]))) howner hnot hquiet
      · rw [hpc] at hnext
        obtain ⟨rfl, ⟨-, ⟨-, rfl⟩ | ⟨hpend, -⟩⟩ | rfl⟩ := ReleasePc.next_counts hnext
        · exact .reading o (Or.inr (Or.inr (Or.inl rfl))) howner hnot hquiet
        · exact absurd hpend hnot
        · exact .reading o (Or.inr (Or.inr (Or.inr rfl))) howner hnot hquiet
      · -- the exchange the condition is about
        have hwait := hawait (by rw [hpc]; rfl)
        rw [hpc] at hnext
        obtain ⟨-, rfl, hnew, hpinned, hmappings⟩ := ReleasePc.next_swap hnext
        refine .waiting rfl hnew ?_
        rcases hwait with hp | hm | ⟨i, hi⟩
        · exact Or.inl (hpinned.trans_ne hp)
        · exact Or.inr (Or.inl (hmappings.trans_ne hm))
        · refine Or.inr (Or.inr ⟨i, fun hdone => ?_⟩)
          rw [show d.calls i = _ from hdone] at hi
          exact hi
      · rw [hpc] at hnext
        obtain ⟨-, rfl, hnew, -⟩ := ReleasePc.next_swap hnext
        exact .freed rfl hnew

/-- What a call has to show when it moves to `pc`. -/
theorem Inv.move (h : d.Inv f) {i : Fin n} {pc : DrainPc} {s : Machine}
    (hdrain : ∀ p, pc = .release p → Draining p)
    (hphase : Phase f ⟨s, d.release, Function.update d.calls i pc⟩) :
    Inv f ⟨s, d.release, Function.update d.calls i pc⟩ where
  drains := by
    refine (Function.forall_update_iff d.calls (p := fun _ x => ∀ p, x = .release p → Draining p)).2
      ⟨hdrain, fun j _ => h.drains j⟩
  phase := hphase

theorem quiet_update {calls : Fin n → DrainPc} {i : Fin n} {pc : DrainPc}
    (hquiet : ∀ j, (calls j).Before ∨ calls j = .release .done)
    (hpc : pc.Before ∨ pc = .release .done) :
    ∀ j, (Function.update calls i pc j).Before ∨ Function.update calls i pc j = .release .done :=
  (Function.forall_update_iff calls (p := fun _ x => DrainPc.Before x ∨ x = .release .done)).2
    ⟨hpc, fun j _ => hquiet j⟩

theorem Inv.call (h : d.Inv f) {i : Fin n} {cpu : Nat} (hok : d.calls i ≠ .release .done)
    (hexec : (ReleasingOp.step i cpu).exec f d = some d') : d'.Inv f := by
  obtain ⟨⟨pc, s⟩, hnext, rfl⟩ := Option.map_eq_some_iff.1 hexec
  have hself : Function.update d.calls i pc i = pc := Function.update_self i pc d.calls
  cases hcall : d.calls i with
  | drop r =>
      rw [hcall] at hnext
      obtain ⟨rfl, hsame⟩ := DrainPc.next_drop hnext
      refine h.move (by simp) ?_
      cases h.phase with
      | reading o hpc howner hnot hquiet =>
          exact .reading o hpc (hsame.trans howner) hnot (quiet_update hquiet (Or.inl trivial))
      | waiting hpc howner _ =>
          exact .waiting hpc (hsame.trans howner) (Or.inr (Or.inr ⟨i, hself.trans_ne (by simp)⟩))
      | freed hpc howner => exact .freed hpc (hsame.trans howner)
  | check =>
      rw [hcall] at hnext
      obtain ⟨rfl, ⟨hready, rfl⟩ | ⟨hready, rfl⟩⟩ := DrainPc.next_check hnext
      · refine h.move Draining.owner.release ?_
        have hpend : (d.machine.frames f).owner.tag = .pending := hready.1
        cases h.phase with
        | reading o _ howner hnot => exact absurd (howner ▸ hpend) hnot
        | waiting hpc howner _ =>
            exact .waiting hpc howner (Or.inr (Or.inr ⟨i, hself.trans_ne (by simp)⟩))
        | freed _ howner =>
            rw [howner] at hpend
            cases hpend
      · refine h.move Draining.done.release ?_
        cases h.phase with
        | reading o hpc howner hnot hquiet =>
            exact .reading o hpc howner hnot (quiet_update hquiet (Or.inr rfl))
        | waiting hpc howner _ =>
            refine .waiting hpc howner ?_
            by_contra hcon
            simp only [not_or, not_not] at hcon
            refine hready ⟨?_, hcon.1, hcon.2.1⟩
            rw [FrameInfo.ownerTag, howner]
            rfl
        | freed hpc howner => exact .freed hpc howner
  | release p =>
      rw [hcall] at hnext hok
      obtain ⟨⟨p', s'⟩, hdrain, heq⟩ := Option.map_eq_some_iff.1 hnext
      obtain ⟨rfl, rfl⟩ := Prod.mk.inj heq
      cases h.phase with
      | reading o _ _ _ hquiet =>
          rcases hquiet i with hbefore | hdone
          · rw [hcall] at hbefore
            exact hbefore.elim
          · exact absurd (hcall.symm.trans hdone) hok
      | waiting hpc howner hwait =>
          cases h.drains i p hcall with
          | owner =>
              obtain ⟨rfl, -, rfl⟩ := ReleasePc.next_owner hdrain
              refine h.move (Draining.release ?_)
                (.waiting hpc howner (Or.inr (Or.inr ⟨i, hself.trans_ne (by simp)⟩)))
              rw [howner]
              exact Draining.counts
          | counts =>
              obtain ⟨rfl, ⟨hbusy, ⟨hnot, -⟩ | ⟨-, rfl⟩⟩ | rfl⟩ := ReleasePc.next_counts hdrain
              · exact absurd rfl hnot
              · refine h.move Draining.done.release (.waiting hpc howner ?_)
                rcases hbusy with hp | hm
                · exact Or.inl hp
                · exact Or.inr (Or.inl hm)
              · exact h.move Draining.swap.release
                  (.waiting hpc howner (Or.inr (Or.inr ⟨i, hself.trans_ne (by simp)⟩)))
          | swap =>
              obtain ⟨-, rfl, hnew, -⟩ := ReleasePc.next_swap hdrain
              exact h.move Draining.done.release (.freed hpc hnew)
          | done => exact absurd rfl hok
      | freed hpc howner =>
          -- another drain was faster: this one panics at its next look at the owner
          cases h.drains i p hcall with
          | owner =>
              obtain ⟨rfl, hnot, -⟩ := ReleasePc.next_owner hdrain
              exact absurd (congrArg FrameOwner.tag howner) hnot
          | counts =>
              obtain ⟨rfl, ⟨-, ⟨hnot, -⟩ | ⟨-, rfl⟩⟩ | rfl⟩ := ReleasePc.next_counts hdrain
              · exact absurd rfl hnot
              · exact h.move Draining.done.release (.freed hpc howner)
              · exact h.move Draining.swap.release (.freed hpc howner)
          | swap =>
              obtain ⟨hpend, -⟩ := ReleasePc.next_swap hdrain
              exact absurd (howner.symm.trans hpend) (fun h => by cases h)
          | done => exact absurd rfl hok

/-! ## Runs -/

theorem Inv.step (h : d.Inv f) {op : ReleasingOp n} (hok : op.Allowed d) (hawait : op.Awaited f d)
    (hexec : op.exec f d = some d') : d'.Inv f := by
  cases op with
  | release cpu => exact h.release hok hawait hexec
  | step i cpu => exact h.call hok hexec

/-- **No drain is lost**, if at the exchange that makes the frame pending there is something to
wait for: once everybody has returned and no reference is left, the frame is free. -/
theorem drain_not_lost {d₀ : Releasing n} (hstart : d₀.Starts f)
    (hrun : ReflTransGen (AwaitedStep f) d₀ d) (hdone : d.Finished)
    (hpinned : (d.machine.frames f).pinned = 0) (hmappings : (d.machine.frames f).mappings = 0) :
    (d.machine.frames f).ownerTag = .free := by
  have hinv : d.Inv f := Runs.invariant (P := fun d => d.Inv f)
    (fun _ _ _ h hok hexec => h.step hok.1 hok.2 hexec) hstart.inv hrun
  exact congrArg FrameOwner.tag (hinv.free hdone hpinned hmappings)

/-- A machine whose frame 258 is allocated and pinned once. -/
def pinnedBoot : Option Machine :=
  (finish (pmmInit smallBoot [] [] 0) (reset fun _ => 0)).bind fun x =>
    Runs.run (fun s op => PmmOp.ClientOk op s) (fun s op => PmmOp.exec op s)
      [.alloc, .pin 258] x.2

/-- The owner releases the frame while the pin is dropped. -/
def oneDrop (s : Machine) : Releasing 1 where
  machine := s
  release := .owner
  calls := ![.drop .pin]

theorem pinnedBoot_starts {s : Machine} (h : pinnedBoot = some s)
    (hinfo : s.numFrames = 261 ∧ s.frames 258 = ⟨.kernel, 0, 1, 0⟩) :
    (oneDrop s).Starts 258 := by
  obtain ⟨⟨⟨info, caps⟩, s₀⟩, hinit, hops⟩ := Option.bind_eq_some_iff.1 h
  have hboot : Booted s := ⟨smallBoot, [], [], caps, 0, _, info, s₀, smallBoot_below,
    ⟨smallBoot_apart, returns_of_finish hinit⟩, Runs.steps_of_run hops⟩
  refine ⟨hboot, ?_, ?_, rfl, fun i => ?_⟩
  · show 258 < s.numFrames
    rw [hinfo.1]
    decide
  · show (s.frames 258).ownerTag ≠ _ ∧ (s.frames 258).ownerTag ≠ _ ∧ (s.frames 258).ownerTag ≠ _
    rw [hinfo.2]
    decide
  · fin_cases i
    exact ⟨.pin, rfl⟩

/-- The pin is dropped after the frame has become pending. -/
theorem drain_not_lost_small :
    ∃ d₀ d : Releasing 1, d₀.Starts 258 ∧ ReflTransGen (AwaitedStep 258) d₀ d ∧ d.Finished ∧
      (d.machine.frames 258).ownerTag = .free := by
  have hrun : (pinnedBoot.bind fun s =>
      (Runs.run (fun d op => op.Allowed d ∧ op.Awaited 258 d) (ReleasingOp.exec 258)
        [.release 0, .release 0, .release 0, .step 0 1, .step 0 1, .step 0 1, .step 0 1,
          .step 0 1] (oneDrop s)).map fun d =>
          decide ((s.numFrames = 261 ∧ s.frames 258 = ⟨.kernel, 0, 1, 0⟩) ∧
            (d.release = .done ∧ ∀ i, d.calls i = .release .done) ∧
            (d.machine.frames 258).pinned = 0 ∧ (d.machine.frames 258).mappings = 0)) =
      some true := by
    decide +kernel
  obtain ⟨s, hboot, hrun⟩ := Option.bind_eq_some_iff.1 hrun
  obtain ⟨d, hops, hfacts⟩ := Option.map_eq_some_iff.1 hrun
  obtain ⟨hinfo, hdone, hpinned, hmappings⟩ := of_decide_eq_true hfacts
  have hstart := pinnedBoot_starts hboot hinfo
  have hsteps : ReflTransGen (AwaitedStep 258) (oneDrop s) d := Runs.steps_of_run hops
  exact ⟨oneDrop s, d, hstart, hsteps, hdone,
    drain_not_lost hstart hsteps hdone hpinned hmappings⟩

/-- **A lost drain.** The release has read the pin when it is dropped; the drop does not find the
frame pending, and then the release makes it so. -/
theorem lost_drain :
    ∃ d₀ d : Releasing 1, d₀.Starts 258 ∧ (d₀.machine.frames 258).pinned = 1 ∧
      ReflTransGen (Step 258) d₀ d ∧ d.Finished ∧
      (d.machine.frames 258).pinned = 0 ∧ (d.machine.frames 258).mappings = 0 ∧
      (d.machine.frames 258).ownerTag = .pending := by
  have hrun : (pinnedBoot.bind fun s =>
      (Runs.run ReleasingOp.Allowed (ReleasingOp.exec 258)
        [.release 0, .release 0, .step 0 1, .step 0 1, .release 0] (oneDrop s)).map fun d =>
          decide ((s.numFrames = 261 ∧ s.frames 258 = ⟨.kernel, 0, 1, 0⟩) ∧
            (d.release = .done ∧ ∀ i, d.calls i = .release .done) ∧
            (d.machine.frames 258).pinned = 0 ∧ (d.machine.frames 258).mappings = 0 ∧
            (d.machine.frames 258).ownerTag = .pending)) = some true := by
    decide +kernel
  obtain ⟨s, hboot, hrun⟩ := Option.bind_eq_some_iff.1 hrun
  obtain ⟨d, hops, hfacts⟩ := Option.map_eq_some_iff.1 hrun
  obtain ⟨hinfo, hdone, hpinned, hmappings, hpend⟩ := of_decide_eq_true hfacts
  refine ⟨oneDrop s, d, pinnedBoot_starts hboot hinfo, ?_, Runs.steps_of_run hops, hdone, hpinned,
    hmappings, hpend⟩
  show (s.frames 258).pinned = 1
  rw [hinfo.2]

end Releasing

end Rolnix
