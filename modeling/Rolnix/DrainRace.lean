import Rolnix.Callers
import Mathlib.Data.Fin.VecNotation
import Mathlib.Data.Fintype.Basic
import Mathlib.Tactic.FinCases

/-!
# Dropping the last references concurrently

`unpin_frame` and `remove_mapping` decrement a counter, look at the frame (`drain_if_ready`) and,
if it is pending with nothing left to wait for, call `release_frame`. Only the last of these takes
a lock, so other calls come in between. Here any number of such calls on one pending frame
interleave with `alloc_frame` calls on other CPUs.

Two calls may both find the frame ready. The second to get to `release_frame` then releases a frame
that is free, or that `alloc_frame` has given to somebody else in the meantime (`stale_drain`). If
no call finds the frame ready while another is on its way to `release_frame`, neither happens
(`drain_once`).
-/

namespace Rolnix

open Machine Relation

/-! ## One call -/

/-- What keeps a frame in use. -/
inductive Ref
  | pin | mapping
  deriving DecidableEq

/-- The decrement of `unpin_frame` or `remove_mapping`. -/
def Ref.drop : Ref → FrameInfo → FrameInfo
  | pin, info => info.unpin
  | mapping, info => info.removeMapping

@[simp] theorem Ref.drop_owner (r : Ref) (info : FrameInfo) : (r.drop info).owner = info.owner := by
  cases r <;> rfl

@[simp] theorem Ref.drop_gen (r : Ref) (info : FrameInfo) : (r.drop info).gen = info.gen := by
  cases r <;> rfl

/-- Where a call is. -/
inductive DropPc
  /-- Before the decrement. -/
  | drop (r : Ref)
  /-- Before the check of `drain_if_ready`. -/
  | check
  /-- The check was passed, `release_frame` not entered. -/
  | release
  | done
  deriving DecidableEq

/-- The next atomic step of a call on `f`, on the CPU of shard `k`. -/
def DropPc.next (f k : Nat) : DropPc → Machine → Option (DropPc × Machine)
  | drop r, s => do
      let info ← s.frameInfo f
      return (check, s.setInfo f (r.drop info))
  | check, s => do
      let info ← s.frameInfo f
      if info.ownerTag = .pending ∧ info.pinned = 0 ∧ info.mappings = 0 then return (release, s)
      else return (done, s)
  | release, s => do
      let s ← s.releaseOn k f
      return (done, s)
  | done, _ => none

/-- The steps of a call that nobody interrupts. -/
def DropPc.alone (f k : Nat) : Nat → DropPc → Machine → Option Machine
  | _, done, s => some s
  | 0, _, _ => none
  | n + 1, pc, s => (pc.next f k s).bind fun r => alone f k n r.1 r.2

theorem alone_check (s : Machine) (f : Nat) :
    DropPc.check.alone f (currentCpu % shardCount) 2 s = s.drainIfReady f := by
  cases hinfo : s.frameInfo f with
  | none => simp [DropPc.alone, DropPc.next, PoolMem.drainIfReady, ownerTag_eq, hinfo]
  | some info =>
      simp only [DropPc.alone, DropPc.next, PoolMem.drainIfReady, ownerTag_eq, FrameTable.pinned,
        FrameTable.mappings, hinfo, Option.map_some, Option.bind_eq_bind, Option.bind_some,
        Option.pure_def]
      split_ifs
      · simp only [Option.bind_some, DropPc.next, DropPc.alone, Option.bind_eq_bind, Option.pure_def,
          PoolMem.releaseFrame]
        cases hrelease : s.releaseOn (currentCpu % shardCount) f <;> simp [hrelease, DropPc.alone]
      · rfl

/-- **A call that nobody interrupts is `unpin_frame` or `remove_mapping`.** -/
theorem alone_drop (s : Machine) (f : Nat) :
    (DropPc.drop .pin).alone f (currentCpu % shardCount) 3 s = (s.unpinFrame f).map (·.2) ∧
      (DropPc.drop .mapping).alone f (currentCpu % shardCount) 3 s =
        (s.removeMapping f).map (·.2) := by
  have hdrop : ∀ r : Ref, (DropPc.drop r).alone f (currentCpu % shardCount) 3 s =
      (s.frameInfo f).bind fun info => (s.setInfo f (r.drop info)).drainIfReady f := by
    intro r
    show ((DropPc.drop r).next f _ s).bind (fun x => x.1.alone f _ 2 x.2) = _
    simp only [DropPc.next, Option.bind_eq_bind, Option.pure_def, Option.bind_assoc,
      Option.bind_some, alone_check]
  constructor
  · rw [hdrop]
    simp only [PoolMem.unpinFrame, FrameTable.unpin, updateCount]
    cases s.frameInfo f with
    | none => rfl
    | some info => cases hdrain : (s.setInfo f info.unpin).drainIfReady f <;> simp [Ref.drop, hdrain]
  · rw [hdrop]
    simp only [PoolMem.removeMapping, FrameTable.dropMapping, updateCount]
    cases s.frameInfo f with
    | none => rfl
    | some info =>
        cases hdrain : (s.setInfo f info.removeMapping).drainIfReady f <;> simp [Ref.drop, hdrain]

/-! ## Interleavings -/

/-- Calls on one frame, next to callers of `alloc_frame`. -/
structure Drains (n m : Nat) where
  callers : Callers m
  calls : Fin n → DropPc

inductive DrainOp (n m : Nat)
  /-- The next step of a call, on a CPU. -/
  | step (i : Fin n) (cpu : Nat)
  /-- A caller enters `alloc_frame` on a CPU. -/
  | call (t : Fin m) (cpu : Nat)
  /-- The next critical section of an `alloc_frame`. -/
  | next (t : Fin m)

namespace DrainOp

variable {n m : Nat}

/-- The frame `f` is that of all calls. `none` if the kernel panics. -/
def exec (f : Nat) (d : Drains n m) : DrainOp n m → Option (Drains n m)
  | step i cpu => ((d.calls i).next f (cpu % shardCount) d.callers.machine).map fun r =>
      ⟨{ d.callers with machine := r.2 }, Function.update d.calls i r.1⟩
  | call t cpu => ((CallerOp.call t cpu).exec d.callers).map fun c => { d with callers := c }
  | next t => ((CallerOp.next t).exec d.callers).map fun c => { d with callers := c }

def Allowed (d : Drains n m) : DrainOp n m → Prop
  | step i _ => d.calls i ≠ .done
  | call t cpu => (CallerOp.call t cpu).Allowed d.callers
  | next t => (CallerOp.next t).Allowed d.callers

/-- No call finds the frame ready while another is on its way to `release_frame`. -/
def Unraced (f : Nat) (d : Drains n m) : DrainOp n m → Prop
  | step i _ => d.calls i = .check → Ready (d.callers.machine.frames f) →
      ∀ j, d.calls j ≠ .release
  | _ => True

instance (d : Drains n m) : DecidablePred (Allowed d)
  | step .. | call .. | next .. => by unfold Allowed; infer_instance

instance (f : Nat) (d : Drains n m) : DecidablePred (Unraced f d)
  | step .. | call .. | next .. => by unfold Unraced; infer_instance

end DrainOp

namespace Drains

variable {n m f : Nat} {g : BitVec 32} {d d' : Drains n m}

def Step (f : Nat) : Drains n m → Drains n m → Prop := Runs.Step DrainOp.Allowed (DrainOp.exec f)

/-- A step that meets the condition. -/
def UnracedStep (f : Nat) : Drains n m → Drains n m → Prop :=
  Runs.Step (fun d op => op.Allowed d ∧ op.Unraced f d) (DrainOp.exec f)

/-- The frame is pending, with generation `g`, and no call has begun. -/
structure Starts (f : Nat) (g : BitVec 32) (d : Drains n m) : Prop where
  callers : d.callers.Starts
  lt : f < d.callers.machine.numFrames
  pending : (d.callers.machine.frames f).ownerTag = .pending
  gen : (d.callers.machine.frames f).gen = g
  calls : ∀ i, ∃ r, d.calls i = .drop r

/-- A call that is about to enter `release_frame` finds the frame pending still, so that it hits
none of the assertions and takes the frame from no new owner. -/
def Safe (f : Nat) (d : Drains n m) : Prop :=
  ∀ i, d.calls i = .release → (d.callers.machine.frames f).ownerTag = .pending ∧
    ∀ k, (d.callers.machine.releaseOn k f).isSome

/-- The frame went back to a free list at most once since its generation was `g`: it is pending
still, or was freed and perhaps allocated again. -/
def FreedOnce (g : BitVec 32) (info : FrameInfo) : Prop :=
  info.ownerTag = .pending ∧ info.gen = g ∨
    (info.ownerTag = .free ∨ info.ownerTag = .kernel) ∧ info.gen = g + 1

/-! ## The invariant -/

/-- While the frame is pending one call at most is on its way to `release_frame`, and once it has
been freed none is. -/
structure Inv (f : Nat) (g : BitVec 32) (d : Drains n m) : Prop where
  table : d.callers.machine.tableBase ≠ 0
  lt : f < d.callers.machine.numFrames
  once : FreedOnce g (d.callers.machine.frames f)
  lone : ∀ i j, d.calls i = .release → d.calls j = .release → i = j
  pending : ∀ i, d.calls i = .release → (d.callers.machine.frames f).ownerTag = .pending

theorem Starts.inv (h : d.Starts f g) : d.Inv f g where
  table := by
    obtain ⟨L, G, hcoh⟩ := h.callers.booted.coherent
    exact hcoh.table
  lt := h.lt
  once := Or.inl ⟨h.pending, h.gen⟩
  lone := by
    intro i _ hi
    obtain ⟨r, hr⟩ := h.calls i
    rw [hr] at hi
    cases hi
  pending := fun _ _ => h.pending

theorem Inv.safe (h : d.Inv f g) : d.Safe f := by
  intro i hi
  have hpend : (d.callers.machine.frames f).owner.tag = .pending := h.pending i hi
  refine ⟨hpend, fun k => ?_⟩
  rw [releaseOn_eq k h.table h.lt, if_neg (by simp [hpend])]
  split_ifs <;> rfl

/-- Other steps than those of the calls change the owner of the frame from free to kernel only. -/
theorem Inv.alloc (h : d.Inv f g) {c : Callers m} (hboot : SameBoot d.callers.machine c.machine)
    (hframes : c.machine.frames f = d.callers.machine.frames f ∨
      (d.callers.machine.frames f).owner = .free ∧
        c.machine.frames f = (d.callers.machine.frames f).withOwner .kernel) :
    ({ d with callers := c } : Drains n m).Inv f g := by
  rcases hframes with hsame | ⟨hfree, hkernel⟩
  · exact {
      table := hboot.tableBase ▸ h.table
      lt := hboot.numFrames ▸ h.lt
      once := by
        show FreedOnce g (c.machine.frames f)
        rw [hsame]
        exact h.once
      lone := h.lone
      pending := by
        intro i hi
        show (c.machine.frames f).ownerTag = .pending
        rw [hsame]
        exact h.pending i hi }
  · have hnot : ∀ i, d.calls i ≠ .release := by
      intro i hi
      have hpend : (d.callers.machine.frames f).owner.tag = .pending := h.pending i hi
      rw [hfree] at hpend
      cases hpend
    exact {
      table := hboot.tableBase ▸ h.table
      lt := hboot.numFrames ▸ h.lt
      once := by
        show FreedOnce g (c.machine.frames f)
        rw [hkernel]
        rcases h.once with ⟨hpend, -⟩ | ⟨-, hgen⟩
        · have hpend : (d.callers.machine.frames f).owner.tag = .pending := hpend
          rw [hfree] at hpend
          cases hpend
        · exact Or.inr ⟨Or.inr rfl, hgen⟩
      lone := fun i _ hi => absurd hi (hnot i)
      pending := fun i hi => absurd hi (hnot i) }

theorem Inv.move (h : d.Inv f g) {i : Fin n} {pc : DropPc} (hpc : pc = .check ∨ pc = .done)
    {s : Machine}
    (hboot : SameBoot d.callers.machine s) (honce : FreedOnce g (s.frames f))
    (hpend : ∀ j, j ≠ i → d.calls j = .release → (s.frames f).ownerTag = .pending) :
    Inv f g ⟨{ d.callers with machine := s }, Function.update d.calls i pc⟩ := by
  have hother : ∀ j, Function.update d.calls i pc j = .release → j ≠ i ∧ d.calls j = .release := by
    intro j hj
    by_cases hji : j = i
    · subst hji
      rw [Function.update_self] at hj
      rcases hpc with rfl | rfl <;> cases hj
    · rw [Function.update_of_ne hji] at hj
      exact ⟨hji, hj⟩
  exact {
    table := hboot.tableBase ▸ h.table
    lt := hboot.numFrames ▸ h.lt
    once := honce
    lone := fun a b ha hb => h.lone a b (hother a ha).2 (hother b hb).2
    pending := fun j hj => hpend j (hother j hj).1 (hother j hj).2 }

/-- **A step that meets the condition keeps the invariant.** -/
theorem Inv.step (h : d.Inv f g) {op : DrainOp n m} (hok : op.Allowed d) (hun : op.Unraced f d)
    (hexec : op.exec f d = some d') : d'.Inv f g := by
  cases op with
  | call t cpu =>
      obtain rfl := Option.some.inj hexec
      exact h.alloc (SameBoot.refl _) (Or.inl rfl)
  | next t =>
      obtain ⟨c, hc, rfl⟩ := Option.map_eq_some_iff.1 hexec
      obtain ⟨hboot, hframes⟩ := Callers.next_effect hc
      exact h.alloc hboot (hframes f)
  | step i cpu =>
      obtain ⟨⟨pc, s⟩, hnext, rfl⟩ := Option.map_eq_some_iff.1 hexec
      have hinfo := frameInfo_of_lt h.table h.lt
      cases hpc : d.calls i with
      | drop r =>
          rw [hpc, DropPc.next, hinfo] at hnext
          obtain ⟨rfl, rfl⟩ := Prod.mk.inj (Option.some.inj hnext)
          have hdrop : ((d.callers.machine.setInfo f (r.drop _)).frames f) =
              r.drop (d.callers.machine.frames f) := Function.update_self f _ _
          refine h.move (Or.inl rfl) ⟨rfl, rfl, rfl⟩ ?_ fun j _ hj => ?_
          · rw [hdrop, FreedOnce, FrameInfo.ownerTag, Ref.drop_owner, Ref.drop_gen]
            exact h.once
          · rw [hdrop, FrameInfo.ownerTag, Ref.drop_owner]
            exact h.pending j hj
      | check =>
          rw [hpc, DropPc.next, hinfo] at hnext
          simp only [Option.bind_eq_bind, Option.bind_some] at hnext
          split_ifs at hnext with hready
          · obtain ⟨rfl, rfl⟩ := Prod.mk.inj (Option.some.inj hnext)
            have hnone : ∀ j, d.calls j ≠ .release := hun hpc hready
            have hself : ∀ j, Function.update d.calls i .release j = .release → j = i := by
              intro j hj
              by_contra hji
              rw [Function.update_of_ne hji] at hj
              exact hnone j hj
            exact ⟨h.table, h.lt, h.once, fun a b ha hb => (hself a ha).trans (hself b hb).symm,
              fun _ _ => hready.1⟩
          · obtain ⟨rfl, rfl⟩ := Prod.mk.inj (Option.some.inj hnext)
            exact h.move (Or.inr rfl) (SameBoot.refl _) h.once fun j _ hj => h.pending j hj
      | release =>
          have hpend : (d.callers.machine.frames f).owner.tag = .pending := h.pending i hpc
          have hlone : ∀ j, j ≠ i → d.calls j ≠ .release := fun j hji hj => hji (h.lone j i hj hpc)
          rw [hpc, DropPc.next, releaseOn_eq _ h.table h.lt, if_neg (by simp [hpend])] at hnext
          split_ifs at hnext with hbusy
          · -- somebody else still refers to the frame: nothing happens
            obtain ⟨rfl, rfl⟩ := Prod.mk.inj (Option.some.inj hnext)
            rw [deferred, if_pos hpend]
            exact h.move (Or.inr rfl) (SameBoot.refl _) h.once fun j hji hj => absurd hj (hlone j hji)
          · obtain ⟨rfl, rfl⟩ := Prod.mk.inj (Option.some.inj hnext)
            have hgen : (d.callers.machine.frames f).gen = g := by
              rcases h.once with ⟨-, hgen⟩ | ⟨hfree | hkernel, -⟩
              · exact hgen
              · exact absurd (hpend.symm.trans hfree) (by simp)
              · exact absurd (hpend.symm.trans hkernel) (by simp)
            refine h.move (Or.inr rfl) ⟨rfl, rfl, rfl⟩ (Or.inr ⟨Or.inl ?_, ?_⟩)
              fun j hji hj => absurd hj (hlone j hji)
            · show (Function.update d.callers.machine.frames f _ f).ownerTag = _
              rw [Function.update_self]
              rfl
            · show (Function.update d.callers.machine.frames f _ f).gen = _
              rw [Function.update_self, ← hgen]
              rfl
      | done => exact absurd hpc hok

/-! ## Runs -/

/-- **A pending frame is freed once.** If no call finds the frame ready while another is on its way
to `release_frame`, then no drain hits an assertion or releases the frame from a new owner. -/
theorem drain_once {d₀ : Drains n m} (hstart : d₀.Starts f g)
    (hrun : ReflTransGen (UnracedStep f) d₀ d) :
    d.Safe f ∧ FreedOnce g (d.callers.machine.frames f) := by
  have hinv : d.Inv f g := Runs.invariant (P := fun d => d.Inv f g)
    (fun _ _ _ h hok hexec => h.step hok.1 hok.2 hexec) hstart.inv hrun
  exact ⟨hinv.safe, hinv.once⟩

/-- A machine whose frame 258 was pinned, mapped and then released. -/
def pendingBoot : Option Machine :=
  (finish (pmmInit smallBoot [] [] 0) (reset fun _ => 0)).bind fun x =>
    Runs.run (fun s op => PmmOp.ClientOk op s) (fun s op => PmmOp.exec op s)
      [.alloc, .pin 258, .addMapping 258, .release 258] x.2

/-- One call drops the pin, another the mapping. -/
def twoDrops (s : Machine) : Drains 2 1 where
  callers := Callers.quiet 1 s
  calls := ![.drop .pin, .drop .mapping]

theorem pendingBoot_starts {s : Machine} (h : pendingBoot = some s)
    (hinfo : s.numFrames = 261 ∧ s.frames 258 = ⟨.pending, 1, 1, 0⟩) :
    (twoDrops s).Starts 258 0 := by
  obtain ⟨⟨⟨info, caps⟩, s₀⟩, hinit, hops⟩ := Option.bind_eq_some_iff.1 h
  have hboot : Booted s := ⟨smallBoot, [], [], caps, 0, _, info, s₀, smallBoot_below,
    ⟨smallBoot_apart, returns_of_finish hinit⟩, Runs.steps_of_run hops⟩
  exact {
    callers := Callers.quiet_starts hboot
    lt := by
      show 258 < s.numFrames
      rw [hinfo.1]
      decide
    pending := by
      show (s.frames 258).ownerTag = _
      rw [hinfo.2]
      rfl
    gen := by
      show (s.frames 258).gen = _
      rw [hinfo.2]
    calls := by
      intro i
      fin_cases i
      · exact ⟨.pin, rfl⟩
      · exact ⟨.mapping, rfl⟩ }

/-- The two calls one after the other. -/
theorem drain_once_small :
    ∃ d₀ d : Drains 2 1, d₀.Starts 258 0 ∧ ReflTransGen (UnracedStep 258) d₀ d ∧
      (d.callers.machine.frames 258).ownerTag = .free ∧
      FreedOnce 0 (d.callers.machine.frames 258) := by
  have hrun : (pendingBoot.bind fun s =>
      (Runs.run (fun d op => op.Allowed d ∧ op.Unraced 258 d) (DrainOp.exec 258)
        [.step 0 0, .step 0 0, .step 1 1, .step 1 1, .step 1 1] (twoDrops s)).map fun d =>
          decide ((s.numFrames = 261 ∧ s.frames 258 = ⟨.pending, 1, 1, 0⟩) ∧
            (d.callers.machine.frames 258).ownerTag = .free)) = some true := by
    decide +kernel
  obtain ⟨s, hboot, hrun⟩ := Option.bind_eq_some_iff.1 hrun
  obtain ⟨d, hops, hfacts⟩ := Option.map_eq_some_iff.1 hrun
  obtain ⟨hinfo, hfree⟩ := of_decide_eq_true hfacts
  have hstart := pendingBoot_starts hboot hinfo
  have hsteps : ReflTransGen (UnracedStep 258) (twoDrops s) d := Runs.steps_of_run hops
  exact ⟨twoDrops s, d, hstart, hsteps, hfree, (drain_once hstart hsteps).2⟩

/-- **Two calls find the frame ready.** The first has released it when the second gets to
`release_frame`: the second panics, or, if the frame was allocated in between, takes it from its new
owner. -/
theorem stale_drain :
    ∃ d₀ d₁ d₂ d₃ : Drains 2 1, d₀.Starts 258 0 ∧
      (d₀.callers.machine.frames 258).pinned = 1 ∧ (d₀.callers.machine.frames 258).mappings = 1 ∧
      (ReflTransGen (Step 258) d₀ d₁ ∧ d₁.calls 1 = .release ∧
        (DrainOp.step 1 1).exec 258 d₁ = none ∧ ¬ d₁.Safe 258) ∧
      ReflTransGen (Step 258) d₀ d₂ ∧ d₂.calls 1 = .release ∧ 258 ∈ d₂.callers.held 0 ∧
      (DrainOp.step 1 1).exec 258 d₂ = some d₃ ∧
      (d₃.callers.machine.frames 258).ownerTag = .free ∧ ¬ d₂.Safe 258 := by
  have hrun : (pendingBoot.bind fun s =>
      (Runs.run DrainOp.Allowed (DrainOp.exec 258)
        [.step 0 0, .step 1 1, .step 0 0, .step 1 1, .step 0 0] (twoDrops s)).bind fun d₁ =>
      (Runs.run DrainOp.Allowed (DrainOp.exec 258) [.call 0 0, .next 0] d₁).bind fun d₂ =>
      ((DrainOp.step 1 1).exec 258 d₂).map fun d₃ =>
        decide ((s.numFrames = 261 ∧ s.frames 258 = ⟨.pending, 1, 1, 0⟩) ∧
          (d₁.calls 1 = .release ∧ ((DrainOp.step 1 1).exec 258 d₁).isNone ∧
            (d₁.callers.machine.frames 258).ownerTag = .free) ∧
          (d₂.calls 1 = .release ∧ 258 ∈ d₂.callers.held 0 ∧
            (d₂.callers.machine.frames 258).ownerTag = .kernel) ∧
          (d₃.callers.machine.frames 258).ownerTag = .free)) = some true := by
    decide +kernel
  obtain ⟨s, hboot, hrun⟩ := Option.bind_eq_some_iff.1 hrun
  obtain ⟨d₁, hops₁, hrun⟩ := Option.bind_eq_some_iff.1 hrun
  obtain ⟨d₂, hops₂, hrun⟩ := Option.bind_eq_some_iff.1 hrun
  obtain ⟨d₃, hlast, hfacts⟩ := Option.map_eq_some_iff.1 hrun
  obtain ⟨hinfo, ⟨hcall₁, hpanic, htag₁⟩, ⟨hcall₂, hheld, htag₂⟩, hfreed⟩ :=
    of_decide_eq_true hfacts
  have hsteps₁ : ReflTransGen (Step 258) (twoDrops s) d₁ := Runs.steps_of_run hops₁
  have hsteps₂ : ReflTransGen (Step 258) (twoDrops s) d₂ :=
    hsteps₁.trans (Runs.steps_of_run hops₂)
  refine ⟨twoDrops s, d₁, d₂, d₃, pendingBoot_starts hboot hinfo, ?_, ?_,
    ⟨hsteps₁, hcall₁, Option.isNone_iff_eq_none.1 hpanic, fun hsafe => ?_⟩, hsteps₂, hcall₂, hheld,
    hlast, hfreed, fun hsafe => ?_⟩
  · show (s.frames 258).pinned = 1
    rw [hinfo.2]
  · show (s.frames 258).mappings = 1
    rw [hinfo.2]
  · exact absurd (htag₁.symm.trans (hsafe 1 hcall₁).1) (by simp)
  · exact absurd (htag₂.symm.trans (hsafe 1 hcall₂).1) (by simp)

end Drains

end Rolnix
