import Rolnix.Sched
import Mathlib.Logic.Relation
import Mathlib.Order.Nat
import Mathlib.Data.Nat.Count

/-!
# The scheduler: safety and fairness

What one call does to the process table is said once, by `Effect`. From it follow the two results
about whole runs:

* `sched_invariant` — while processes are started and killed from the shell only, at most the
  current process is `Running`, the shell is always there to fall back on, and `SYS_EXIT` never
  panics.
* `round_robin_fair` — a process that stays `Ready` is switched to before any other process is
  switched to twice. This holds whatever the context of the calls. Each switch that passes over
  a ready process brings the search closer to it (`Cyclic.wait_next`).
-/

namespace Rolnix

open Relation

/-! ## Calls -/

/-- The calls that change the process table. -/
inductive SchedOp
  | tick (frame : Nat)
  | yieldNow (frame : Nat)
  | exit
  | start (entry : Nat) (name : List UInt8)
  | kill (pid : Nat)

namespace SchedOp

/-- The state a call leaves and the slot it switches to, if it switches; `none` if it panics.
A process is started in the slot `free_slot` gives, if it gives one. -/
def exec : SchedOp → Sched → Option (Sched × Option Nat)
  | tick frame, st =>
      let r := st.onTick frame
      some (r.1, r.2.map fun _ => r.1.current)
  | yieldNow frame, st =>
      let r := st.yieldNow frame
      some (r.1, r.2.map fun _ => r.1.current)
  | exit, st => st.exitCurrent.map fun r => (r.1, some r.1.current)
  | start entry name, st =>
      match st.freeSlot with
      | none => some (st, none)
      | some pid => (st.startProcess pid entry name).map fun st => (st, none)
  | kill pid, st => some ((st.kill pid).2, none)

/-- The contexts the calls are made from: the shell never exits, and it alone starts and kills
processes. -/
def Allowed (st : Sched) : SchedOp → Prop
  | tick _ | yieldNow _ => True
  | exit => st.current ≠ 0
  | start _ _ | kill _ => st.current = 0

end SchedOp

namespace Sched

def pidOf (st : Sched) (i : Nat) : Nat := (st.processes i).pid

/-- A slot that holds a process. -/
def Live (st : Sched) (i : Nat) : Prop := st.stateOf i ≠ .unused ∧ st.stateOf i ≠ .zombie

/-! ## What a call does -/

/-- The slot after the current one that is `Ready` once the current slot is set to `v`. -/
def nextAfter (st : Sched) (v : ProcState) : Option Nat :=
  Cyclic.next maxProcesses st.current fun i =>
    Function.update st.stateOf st.current v i = .ready

/-- What a call does to the states, the pids and the current slot. -/
inductive Effect (st st' : Sched) : SchedOp → Option Nat → Prop
  /-- The current process is set to `v`, and another is switched to. -/
  | switched {op : SchedOp} (v : ProcState) (next : Nat) (hv : v = .ready ∨ v = .zombie ∧ op = .exit)
      (hnext : st.nextAfter v = some next) (hcur : st'.current = next)
      (hstate : st'.stateOf =
        Function.update (Function.update st.stateOf st.current v) next .running)
      (hpid : st'.pidOf = st.pidOf) : Effect st st' op (some next)
  /-- Nothing else is ready. -/
  | resumed {op : SchedOp} (hcur : st'.current = st.current)
      (hstate : st'.stateOf = Function.update st.stateOf st.current .running)
      (hpid : st'.pidOf = st.pidOf) : Effect st st' op none
  | started (entry pid : Nat) (name : List UInt8) (hslot : st.freeSlot = some pid)
      (hcur : st'.current = st.current)
      (hstate : st'.stateOf = Function.update st.stateOf pid .ready)
      (hpid : st'.pidOf = Function.update st.pidOf pid pid) : Effect st st' (.start entry name) none
  | killed (pid : Nat) (hpos : pid ≠ 0) (hcur : st'.current = st.current)
      (hstate : st'.stateOf = Function.update st.stateOf pid .zombie)
      (hpid : st'.pidOf = st.pidOf) : Effect st st' (.kill pid) none
  /-- No free slot, or nothing to kill. -/
  | unchanged {op : SchedOp} (heq : st' = st) : Effect st st' op none

variable {st st' : Sched} {op : SchedOp} {out : Option Nat} {p q pid : Nat}

section Updates

variable (st) (i frame : Nat) (v : ProcState)

theorem stateOf_setState : (st.setState i v).stateOf = Function.update st.stateOf i v := by
  funext j
  by_cases hj : j = i
  · subst hj
    simp [stateOf, setState]
  · simp [stateOf, setState, hj]

theorem setState_keeps {α : Type} (g : Process → α) (hg : ∀ p v, g { p with state := v } = g p)
    (j : Nat) : g ((st.setState i v).processes j) = g (st.processes j) := by
  by_cases hj : j = i
  · subst hj
    simp [setState, hg]
  · simp [setState, hj]

theorem setCtx_keeps {α : Type} (g : Process → α) (hg : ∀ p c, g { p with ctx := c } = g p)
    (j : Nat) : g ((st.setCtx i frame).processes j) = g (st.processes j) := by
  by_cases hj : j = i
  · subst hj
    simp [setCtx, hg]
  · simp [setCtx, hj]

theorem pidOf_setState : (st.setState i v).pidOf = st.pidOf := by
  funext j
  exact st.setState_keeps i v Process.pid (fun _ _ => rfl) j

theorem stateOf_setCtx : (st.setCtx i frame).stateOf = st.stateOf := by
  funext j
  exact st.setCtx_keeps i frame Process.state (fun _ _ => rfl) j

theorem pidOf_setCtx : (st.setCtx i frame).pidOf = st.pidOf := by
  funext j
  exact st.setCtx_keeps i frame Process.pid (fun _ _ => rfl) j

end Updates

/-- Switching from a state that differs from `st` in the state of its current slot. -/
theorem effect_switch {st₁ : Sched} {v : ProcState} {next : Nat}
    (hv : v = .ready ∨ v = .zombie ∧ op = .exit) (hcur : st₁.current = st.current)
    (hstate : st₁.stateOf = Function.update st.stateOf st.current v)
    (hpid : st₁.pidOf = st.pidOf) (hpick : st₁.pickNextOther = some next) :
    Effect st (st₁.doSwitch next).1 op (some next) := by
  refine .switched v next hv ?_ rfl ?_ ?_
  · rw [nextAfter, ← hstate, ← hcur]
    exact hpick
  · rw [← hstate]
    exact stateOf_setState st₁ next .running
  · rw [← hpid]
    exact pidOf_setState st₁ next .running

theorem preempt_effect (frame : Nat) :
    Effect st (st.preempt frame).1 op
      ((st.preempt frame).2.map fun _ => (st.preempt frame).1.current) := by
  have hstate : ((st.setState st.current .ready).setCtx st.current frame).stateOf =
      Function.update st.stateOf st.current .ready := by
    rw [stateOf_setCtx, stateOf_setState]
  have hpid : ((st.setState st.current .ready).setCtx st.current frame).pidOf = st.pidOf := by
    rw [pidOf_setCtx, pidOf_setState]
  cases hpick : ((st.setState st.current .ready).setCtx st.current frame).pickNextOther with
  | some next =>
      simp only [preempt, hpick]
      exact effect_switch (.inl rfl) rfl hstate hpid hpick
  | none =>
      simp only [preempt, hpick]
      refine .resumed rfl ?_ ?_
      · rw [stateOf_setState, hstate, Function.update_idem]
      · rw [pidOf_setState, hpid]

theorem exitCurrent_effect {ctx : Nat} (h : st.exitCurrent = some (st', ctx)) :
    Effect st st' .exit (some st'.current) := by
  obtain ⟨next, hpick, heq⟩ := Option.map_eq_some_iff.1 h
  obtain rfl := (Prod.mk.inj heq).1
  exact effect_switch (.inr ⟨rfl, rfl⟩) rfl (stateOf_setState st _ _) (pidOf_setState st _ _) hpick

theorem startProcess_effect {entry : Nat} {name : List UInt8} (hslot : st.freeSlot = some pid)
    (h : st.startProcess pid entry name = some st') : Effect st st' (.start entry name) none := by
  unfold startProcess at h
  split at h
  · obtain rfl := Option.some.inj h
    refine .started entry pid name hslot rfl ?_ ?_
    · funext j
      by_cases hj : j = pid
      · subst hj
        simp [stateOf]
      · simp [stateOf, hj]
    · funext j
      by_cases hj : j = pid
      · subst hj
        simp [pidOf]
      · simp [pidOf, hj]
  · cases h

theorem kill_effect : Effect st (st.kill pid).2 (.kill pid) none := by
  unfold kill
  by_cases hpid : pid = 0 ∨ pid ≥ maxProcesses
  · rw [if_pos hpid]
    exact .unchanged rfl
  · rw [if_neg hpid]
    by_cases hdead : st.stateOf pid = .zombie ∨ st.stateOf pid = .unused
    · rw [if_pos hdead]
      exact .unchanged rfl
    · rw [if_neg hdead]
      exact .killed pid (fun h => hpid (.inl h)) rfl (stateOf_setState st pid _)
        (pidOf_setState st pid _)

/-- **What one call does.** -/
theorem exec_effect (h : op.exec st = some (st', out)) : Effect st st' op out := by
  cases op with
  | tick frame =>
      obtain ⟨rfl, rfl⟩ := Prod.mk.inj (Option.some.inj h)
      exact preempt_effect frame
  | yieldNow frame =>
      obtain ⟨rfl, rfl⟩ := Prod.mk.inj (Option.some.inj h)
      exact preempt_effect frame
  | exit =>
      obtain ⟨⟨st₁, ctx⟩, hexit, heq⟩ := Option.map_eq_some_iff.1 h
      obtain ⟨rfl, rfl⟩ := Prod.mk.inj heq
      exact exitCurrent_effect hexit
  | start entry name =>
      simp only [SchedOp.exec] at h
      cases hslot : st.freeSlot with
      | none =>
          rw [hslot] at h
          obtain ⟨rfl, rfl⟩ := Prod.mk.inj (Option.some.inj h)
          exact .unchanged rfl
      | some pid =>
          rw [hslot] at h
          obtain ⟨st₁, hstart, heq⟩ := Option.map_eq_some_iff.1 h
          obtain ⟨rfl, rfl⟩ := Prod.mk.inj heq
          exact startProcess_effect hslot hstart
  | kill pid =>
      obtain ⟨rfl, rfl⟩ := Prod.mk.inj (Option.some.inj h)
      exact kill_effect

/-! ## Safety -/

/-- One call, made from a context it is allowed in. -/
inductive Step (st : Sched) : Sched → Prop
  | call {op : SchedOp} {st' : Sched} {out : Option Nat} (hctx : op.Allowed st)
      (hrun : op.exec st = some (st', out)) : Step st st'

/-- The states of a running kernel. -/
def Reached (st : Sched) : Prop :=
  ∃ kstacks rsp0 top, ReflTransGen Step ((reset kstacks rsp0).initIdle top) st

/-- What holds of the process table between calls. -/
structure Inv (st : Sched) : Prop where
  current_lt : st.current < maxProcesses
  running : ∀ i, st.stateOf i = .running → i = st.current
  current_live : st.Live st.current
  idle_ready : st.current ≠ 0 → st.stateOf 0 = .ready
  pid_eq : ∀ i, st.Live i → st.pidOf i = i

theorem Inv.init (kstacks rsp0 top : Nat) : ((reset kstacks rsp0).initIdle top).Inv where
  current_lt := Nat.zero_lt_succ 15
  running i hi := by
    by_cases hi0 : i = 0
    · exact hi0
    · simp [stateOf, initIdle, reset, Process.unused, hi0] at hi
  current_live := by
    constructor <;> simp [stateOf, initIdle]
  idle_ready h := absurd rfl h
  pid_eq i hi := by
    by_cases hi0 : i = 0
    · subst hi0
      rfl
    · simp [Live, stateOf, initIdle, reset, Process.unused, hi0] at hi

theorem freeSlot_some (h : st.freeSlot = some pid) :
    1 ≤ pid ∧ pid < maxProcesses ∧ ¬ st.Live pid := by
  have hmem := List.mem_of_find?_eq_some h
  have hdead := List.find?_some h
  rw [List.mem_range'_1] at hmem
  rw [decide_eq_true_iff] at hdead
  refine ⟨hmem.1, hmem.2, fun hlive => ?_⟩
  rcases hdead with hdead | hdead
  · exact hlive.1 hdead
  · exact hlive.2 hdead

theorem nextAfter_some {v : ProcState} {next : Nat} (hcur : st.current < maxProcesses)
    (h : st.nextAfter v = some next) :
    next < maxProcesses ∧ next ≠ st.current ∧ st.stateOf next = .ready := by
  obtain ⟨hlt, hne, hready, -⟩ := Cyclic.next_some hcur h
  rw [Function.update_of_ne hne, decide_eq_true_iff] at hready
  exact ⟨hlt, hne, hready⟩

/-- **Every allowed call keeps the invariant.** -/
theorem Inv.step (h : st.Inv) (hctx : op.Allowed st) (heff : Effect st st' op out) : st'.Inv := by
  cases heff with
  | switched v next hv hnext hcur hstate hpid =>
      obtain ⟨hlt, hne, hready⟩ := nextAfter_some h.current_lt hnext
      have hother : ∀ i, i ≠ next → i ≠ st.current → st'.stateOf i = st.stateOf i := by
        intro i hin hic
        rw [hstate, Function.update_of_ne hin, Function.update_of_ne hic]
      have hleft : st'.stateOf st.current = v := by
        rw [hstate, Function.update_of_ne hne.symm, Function.update_self]
      have hentered : st'.stateOf next = .running := by rw [hstate, Function.update_self]
      refine ⟨hcur ▸ hlt, fun i hi => ?_, ?_, fun hne0 => ?_, fun i hi => ?_⟩
      · rw [hcur]
        by_contra hin
        by_cases hic : i = st.current
        · rw [hic, hleft] at hi
          rcases hv with rfl | ⟨rfl, -⟩ <;> cases hi
        · exact hic (h.running i (hother i hin hic ▸ hi))
      · rw [hcur, Live, hentered]
        exact ⟨(by simp), (by simp)⟩
      · -- the shell is not the one left by `SYS_EXIT`
        rw [hcur] at hne0
        by_cases h0 : st.current = 0
        · rw [← h0, hleft]
          rcases hv with rfl | ⟨-, rfl⟩
          · rfl
          · exact absurd h0 hctx
        · rw [hother 0 (Ne.symm hne0) (Ne.symm h0)]
          exact h.idle_ready h0
      · rw [hpid]
        by_cases hin : i = next
        · exact h.pid_eq i (by rw [hin, Live, hready]; exact ⟨(by simp), (by simp)⟩)
        · by_cases hic : i = st.current
          · exact h.pid_eq i (hic ▸ h.current_live)
          · exact h.pid_eq i (by rwa [Live, ← hother i hin hic])
  | resumed hcur hstate hpid =>
      have hother : ∀ i, i ≠ st.current → st'.stateOf i = st.stateOf i := by
        intro i hic
        rw [hstate, Function.update_of_ne hic]
      refine ⟨hcur ▸ h.current_lt, fun i hi => ?_, ?_, fun hne0 => ?_, fun i hi => ?_⟩
      · rw [hcur]
        by_contra hic
        exact hic (h.running i (hother i hic ▸ hi))
      · rw [hcur, Live, hstate, Function.update_self]
        exact ⟨(by simp), (by simp)⟩
      · rw [hcur] at hne0
        rw [hother 0 (Ne.symm hne0)]
        exact h.idle_ready hne0
      · rw [hpid]
        by_cases hic : i = st.current
        · exact h.pid_eq i (hic ▸ h.current_live)
        · exact h.pid_eq i (by rwa [Live, ← hother i hic])
  | started entry pid name hslot hcur hstate hpid =>
      obtain ⟨hpos, -, -⟩ := freeSlot_some hslot
      have hctx : st.current = 0 := hctx
      have hother : ∀ i, i ≠ pid → st'.stateOf i = st.stateOf i := by
        intro i hi
        rw [hstate, Function.update_of_ne hi]
      refine ⟨hcur ▸ h.current_lt, fun i hi => ?_, ?_, fun hne0 => absurd (hcur.trans hctx) hne0,
        fun i hi => ?_⟩
      · by_cases hip : i = pid
        · rw [hip, hstate, Function.update_self] at hi
          cases hi
        · exact hcur ▸ h.running i (hother i hip ▸ hi)
      · rw [hcur, Live, hother _ (by omega)]
        exact h.current_live
      · rw [hpid]
        by_cases hip : i = pid
        · rw [hip, Function.update_self]
        · rw [Function.update_of_ne hip]
          exact h.pid_eq i (by rwa [Live, ← hother i hip])
  | killed pid hpos hcur hstate hpid =>
      have hctx : st.current = 0 := hctx
      have hother : ∀ i, i ≠ pid → st'.stateOf i = st.stateOf i := by
        intro i hi
        rw [hstate, Function.update_of_ne hi]
      have hdead : st'.stateOf pid = .zombie := by rw [hstate, Function.update_self]
      refine ⟨hcur ▸ h.current_lt, fun i hi => ?_, ?_, fun hne0 => absurd (hcur.trans hctx) hne0,
        fun i hi => ?_⟩
      · by_cases hip : i = pid
        · rw [hip, hdead] at hi
          cases hi
        · exact hcur ▸ h.running i (hother i hip ▸ hi)
      · rw [hcur, Live, hother _ (by omega)]
        exact h.current_live
      · rw [hpid]
        by_cases hip : i = pid
        · exact absurd (hip ▸ hdead) hi.2
        · exact h.pid_eq i (by rwa [Live, ← hother i hip])
  | unchanged heq => exact heq ▸ h

theorem Reached.inv (h : st.Reached) : st.Inv := by
  obtain ⟨kstacks, rsp0, top, hrun⟩ := h
  induction hrun with
  | refl => exact Inv.init kstacks rsp0 top
  | tail _ hstep ih =>
      cases hstep with
      | call hctx hexec => exact ih.step hctx (exec_effect hexec)

theorem Inv.exitCurrent_isSome (h : st.Inv) (hcur : st.current ≠ 0) : st.exitCurrent.isSome := by
  rw [exitCurrent, Option.isSome_map]
  cases hpick : (st.setState st.current .zombie).pickNextOther with
  | some next => rfl
  | none =>
      have hnone := Cyclic.next_none h.current_lt hpick (by decide : 0 < maxProcesses) hcur.symm
      rw [stateOf_setState, Function.update_of_ne hcur.symm, h.idle_ready hcur] at hnone
      simp at hnone

/-- **The scheduler's invariant.** Between calls no slot other than the current one is `Running`,
the current process is alive, the shell is `Ready` whenever it is not current, every live slot
holds the process of its own number, and `SYS_EXIT` finds a process to switch to. -/
theorem sched_invariant (h : st.Reached) :
    (∀ i, st.stateOf i = .running → i = st.current) ∧
      st.stateOf st.current ≠ .zombie ∧ st.stateOf st.current ≠ .unused ∧
      (st.current ≠ 0 → st.stateOf 0 = .ready) ∧
      (∀ i, st.Live i → st.pidOf i = i) ∧
      (st.current ≠ 0 → st.exitCurrent.isSome) := by
  have hinv := h.inv
  exact ⟨hinv.running, hinv.current_live.2, hinv.current_live.1, hinv.idle_ready, hinv.pid_eq,
    hinv.exitCurrent_isSome⟩

/-- A kernel whose shell has just started. -/
def shellOnly : Sched := (reset 0x400000 0x500000).initIdle 0x500000

/-- The shell started process 1, and the next tick switched to it. -/
theorem sched_invariant_small :
    ∃ st : Sched, st.Reached ∧ st.current = 1 ∧ st.exitCurrent.isSome := by
  let started : Sched := (shellOnly.startProcess 1 (userCodeVa 1) [112]).getD shellOnly
  have hstart : (SchedOp.start (userCodeVa 1) [112]).exec shellOnly = some (started, none) := rfl
  have htick : (SchedOp.tick 0x4ff000).exec started =
      some ((started.onTick 0x4ff000).1, some 1) := rfl
  have hctx : (SchedOp.start (userCodeVa 1) [112]).Allowed shellOnly := rfl
  have hreach : (started.onTick 0x4ff000).1.Reached := by
    refine ⟨0x400000, 0x500000, 0x500000, ReflTransGen.tail (.single ?_) (.call ?_ htick)⟩
    · exact .call hctx hstart
    · trivial
  have hcur : (started.onTick 0x4ff000).1.current = 1 := by decide
  obtain ⟨-, -, -, -, -, hexit⟩ := sched_invariant hreach
  exact ⟨_, hreach, hcur, hexit (by rw [hcur]; decide)⟩

/-! ## Fairness -/

theorem Effect.current_eq (h : Effect st st' op out) : st'.current = out.getD st.current := by
  cases h with
  | switched v next hv hnext hcur hstate hpid => exact hcur
  | resumed hcur hstate hpid => exact hcur
  | started entry pid name hslot hcur hstate hpid => exact hcur
  | killed pid hpos hcur hstate hpid => exact hcur
  | unchanged heq => rw [heq]; rfl

theorem Effect.nextAfter_eq (h : Effect st st' op (some q)) : ∃ v, st.nextAfter v = some q := by
  cases h with
  | switched v next hv hnext hcur hstate hpid => exact ⟨v, hnext⟩

theorem Effect.current_lt (h : Effect st st' op out) (hcur : st.current < maxProcesses) :
    st'.current < maxProcesses := by
  rw [h.current_eq]
  cases out with
  | none => exact hcur
  | some q =>
      obtain ⟨v, hnext⟩ := h.nextAfter_eq
      exact (nextAfter_some hcur hnext).1

/-- How many switches a `Ready` process waits at most. -/
def wait (st : Sched) (p : Nat) : Nat := Cyclic.wait maxProcesses st.current p

/-- **A switch that passes over a ready process brings it closer;** a call that does not switch
changes nothing. -/
theorem Effect.wait_le (h : Effect st st' op out) (hcur : st.current < maxProcesses)
    (hp : p < maxProcesses) (hready : st.stateOf p = .ready) (hout : out ≠ some p) :
    (if out.isSome then 1 else 0) + st'.wait p ≤ st.wait p := by
  unfold wait
  rw [h.current_eq]
  cases out with
  | none => exact (Nat.zero_add _).le
  | some q =>
      obtain ⟨v, hnext⟩ := h.nextAfter_eq
      have hlt := Cyclic.wait_next hcur hp hnext
        (fun hne => by rw [Function.update_of_ne hne, hready]; rfl) fun hq => hout (hq ▸ rfl)
      rw [Option.isSome_some, if_pos rfl, Nat.add_comm]
      exact hlt

end Sched

/-- A run of `n` calls on a scheduler just initialised: the states it goes through, and the slot
each call switches to. -/
structure SchedRun (n : Nat) where
  states : Nat → Sched
  outs : Nat → Option Nat
  init : ∃ kstacks rsp0 top, states 0 = (Sched.reset kstacks rsp0).initIdle top
  step : ∀ k, k < n → ∃ op : SchedOp, op.exec (states k) = some (states (k + 1), outs k)

namespace SchedRun

variable {n : Nat} (run : SchedRun n) {p q i j m : Nat}

/-- The number of switches among the `m` calls from the `i`-th on. -/
def switches (i m : Nat) : Nat := Nat.count (fun k => (run.outs (i + k)).isSome = true) m

/-- From the `i`-th call on and for `m` calls, `p` is `Ready` as long as it has not been switched
to. -/
def StaysReady (p i m : Nat) : Prop :=
  ∀ k, k < m → (∀ l, l < k → run.outs (i + l) ≠ some p) → (run.states (i + k)).stateOf p = .ready

theorem current_lt {k : Nat} (hk : k ≤ n) : (run.states k).current < maxProcesses := by
  induction k with
  | zero =>
      obtain ⟨kstacks, rsp0, top, h⟩ := run.init
      rw [h]
      exact Nat.zero_lt_succ 15
  | succ k ih =>
      obtain ⟨op, hop⟩ := run.step k hk
      exact (Sched.exec_effect hop).current_lt (ih (Nat.le_of_succ_le hk))

theorem current_succ {k : Nat} (hk : k < n) (hout : run.outs k = some q) :
    (run.states (k + 1)).current = q := by
  obtain ⟨op, hop⟩ := run.step k hk
  rw [(Sched.exec_effect hop).current_eq, hout]
  rfl

/-- While `p` stays `Ready` and is passed over, every switch uses up one of those it can wait. -/
theorem switches_add_wait (hm : i + m ≤ n) (hp : p < maxProcesses) (hready : run.StaysReady p i m)
    (hout : ∀ k, k < m → run.outs (i + k) ≠ some p) :
    run.switches i m + (run.states (i + m)).wait p ≤ (run.states i).wait p := by
  induction m with
  | zero => exact (Nat.zero_add _).le
  | succ m ih =>
      have hrec := ih (Nat.le_of_succ_le hm) (fun k hk => hready k (Nat.lt_succ_of_lt hk))
        fun k hk => hout k (Nat.lt_succ_of_lt hk)
      have hnow := hready m (Nat.lt_succ_self m) fun l hl => hout l (Nat.lt_succ_of_lt hl)
      obtain ⟨op, hop⟩ := run.step (i + m) hm
      have hstep := (Sched.exec_effect hop).wait_le (run.current_lt (Nat.le_of_succ_le hm)) hp hnow
        (hout m (Nat.lt_succ_self m))
      rw [switches, Nat.count_succ]
      rw [switches] at hrec
      show _ + (run.states (i + m + 1)).wait p ≤ _
      omega

/-- The switches a process can be passed over for are fewer than it can wait. -/
theorem switches_lt_wait (hm : i + m ≤ n) (hp : p < maxProcesses) (hready : run.StaysReady p i m)
    (hout : ∀ k, k < m → run.outs (i + k) ≠ some p) :
    run.switches i m < (run.states i).wait p := by
  have hsum := run.switches_add_wait hm hp hready hout
  have hpos : 0 < (run.states (i + m)).wait p := Cyclic.wait_pos (run.current_lt hm)
  omega

/-- **Round-robin fairness.** Let `p` stay `Ready` as long as it is not switched to.

* If another slot `q` is switched to twice, `p` is switched to in between.
* If `p` is not the current process, one of the next `maxProcesses - 1` switches is to `p`.
* In any case, at most `maxProcesses - 1` switches go to others first. This covers the shell
  before the first switch, which runs although `init_idle` marks it `Ready`. -/
theorem round_robin_fair (hp : p < maxProcesses) :
    (∀ q i j, i < j → j < n → run.outs i = some q → run.outs j = some q → p ≠ q →
      run.StaysReady p (i + 1) (j - i) → ∃ k, i < k ∧ k < j ∧ run.outs k = some p) ∧
    (∀ i m, i + m ≤ n → run.StaysReady p i m → p ≠ (run.states i).current →
      maxProcesses - 1 ≤ run.switches i m → ∃ k, k < m ∧ run.outs (i + k) = some p) ∧
    (∀ i m, i + m ≤ n → run.StaysReady p i m → maxProcesses - 1 < run.switches i m →
      ∃ k, k < m ∧ run.outs (i + k) = some p) := by
  refine ⟨fun q i j hij hj hi hjq hne hready => ?_, fun i m hm hready hcur hmany => ?_,
    fun i m hm hready hmany => ?_⟩
  · by_contra hnot
    have hout : ∀ k, k < j - i → run.outs (i + 1 + k) ≠ some p := by
      intro k hk heq
      by_cases hkj : i + 1 + k = j
      · rw [hkj, hjq] at heq
        exact hne (Option.some.inj heq).symm
      · exact hnot ⟨i + 1 + k, by omega, by omega, heq⟩
    -- `q` is current both after its first dispatch and after its second
    have hsum := run.switches_add_wait (by omega : i + 1 + (j - i) ≤ n) hp hready hout
    rw [show i + 1 + (j - i) = j + 1 by omega, Sched.wait, Sched.wait,
      run.current_succ (by omega) hi, run.current_succ hj hjq] at hsum
    have hpos : 0 < run.switches (i + 1) (j - i) := by
      obtain ⟨m, hm⟩ : ∃ m, j - i = m + 1 := ⟨j - i - 1, by omega⟩
      have hlast : i + 1 + m = j := by omega
      rw [switches, hm, Nat.count_succ, hlast, hjq]
      exact Nat.succ_pos _
    omega
  · by_contra hnot
    have hlt := run.switches_lt_wait hm hp hready fun k hk heq => hnot ⟨k, hk, heq⟩
    have hwait : (run.states i).wait p < maxProcesses :=
      Cyclic.wait_lt (run.current_lt (by omega)) hp hcur
    omega
  · by_contra hnot
    have hlt := run.switches_lt_wait hm hp hready fun k hk heq => hnot ⟨k, hk, heq⟩
    have hwait : (run.states i).wait p ≤ maxProcesses :=
      Cyclic.wait_le (run.current_lt (by omega)) hp
    omega

/-- The states that a sequence of calls goes through. -/
def after (op : Nat → SchedOp) (st : Sched) : Nat → Sched
  | 0 => st
  | k + 1 => (((op k).exec (after op st k)).map Prod.fst).getD (after op st k)

/-- The run of calls that do not panic. -/
def ofCalls (op : Nat → SchedOp) (kstacks rsp0 top : Nat)
    (h : ∀ k, k < n →
      ((op k).exec (after op ((Sched.reset kstacks rsp0).initIdle top) k)).isSome) : SchedRun n where
  states := after op ((Sched.reset kstacks rsp0).initIdle top)
  outs k := ((op k).exec (after op ((Sched.reset kstacks rsp0).initIdle top) k)).bind Prod.snd
  init := ⟨kstacks, rsp0, top, rfl⟩
  step k hk := by
    obtain ⟨r, hr⟩ := Option.isSome_iff_exists.1 (h k hk)
    exact ⟨op k, by rw [after, hr]; rfl⟩

/-- Two processes are started, then sixteen ticks switch to 1, 2, 0, 1 and so on. -/
def twoProcesses : SchedRun 18 :=
  ofCalls (fun k => if k < 2 then .start (userCodeVa (k + 1)) [112] else .tick 0x4ff000)
    0x400000 0x500000 0x500000 (by decide +kernel)

/-- Process 2 is `Ready` before the third call and the fourth, which switches to it. -/
theorem twoProcesses_staysReady (hi : i = 2 ∨ i = 3) : twoProcesses.StaysReady 2 i m := by
  intro k hk hout
  by_cases hlate : i + k ≤ 3
  · have hready : ∀ a, a < 4 → 2 ≤ a → (twoProcesses.states a).stateOf 2 = .ready := by
      decide +kernel
    exact hready (i + k) (by omega) (by omega)
  · refine absurd ?_ (hout (3 - i) (by omega))
    rw [show i + (3 - i) = 3 by omega]
    decide +kernel

theorem round_robin_fair_small :
    (∃ k, 2 < k ∧ k < 5 ∧ twoProcesses.outs k = some 2) ∧
      (∃ k, k < 16 ∧ twoProcesses.outs (2 + k) = some 2) ∧
      maxProcesses - 1 < twoProcesses.switches 2 16 ∧
      ∃ k, k < 16 ∧ twoProcesses.outs (2 + k) = some 2 := by
  have hmany : maxProcesses - 1 < twoProcesses.switches 2 16 := by decide +kernel
  obtain ⟨hbetween, hother, hany⟩ := twoProcesses.round_robin_fair (by decide : 2 < maxProcesses)
  have hready : twoProcesses.StaysReady 2 2 16 := twoProcesses_staysReady (.inl rfl)
  refine ⟨?_, hother 2 16 (by decide) hready (by decide +kernel) hmany.le,
    hmany, hany 2 16 (by decide) hready hmany⟩
  exact hbetween 1 2 5 (by decide) (by decide) (by decide +kernel) (by decide +kernel) (by decide)
    (twoProcesses_staysReady (.inr rfl))

end SchedRun

end Rolnix
