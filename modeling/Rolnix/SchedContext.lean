import Rolnix.SchedProof

/-!
# What a switch resumes

A switch to a slot resumes the address in the slot's `ctx` field, which every tick overwrites for
the process on the CPU, whether or not it switches, and `start_process` overwrites for a slot it
recycles. What `ctx` should hold is a fact about the past. A *history* is the list of calls made
since `init_idle`, newest first; `lastFrame` and `Registered` read off it what was last saved or
built for a slot, and whether its process is still there, without looking at the table.

`context_fidelity` says that every switch agrees with the history: `CtxInv` relates the two, and
each call keeps it.
-/

namespace Rolnix

/-! ## Histories -/

/-- A call that was made. -/
structure Call where
  op : SchedOp
  /-- The process on the CPU. -/
  caller : Nat
  /-- What `free_slot` gave. -/
  slot : Option Nat
  /-- The slot switched to. -/
  next : Option Nat

/-- Where `start_process` builds the initial frame of a slot. -/
def initialFrame (kstacks slot : Nat) : Nat :=
  (kstacks + slot * kstackSize + kstackSize - interruptFrameSize) / 16 * 16

/-- The top of the kernel stack of a slot; the shell's was given to `init_idle`. -/
def stackTop (kstacks top slot : Nat) : Nat :=
  if slot = 0 then top else kstacks + slot * kstackSize + kstackSize

namespace Call

/-- The call saved `frame` for slot `i` and switched away from it. -/
def Saved (c : Call) (i frame : Nat) : Prop :=
  c.caller = i ∧ c.next.isSome = true ∧ (c.op = .tick frame ∨ c.op = .yieldNow frame)

/-- The frame that the call saved or built for slot `i`. A call that does not switch saves none. -/
def frameFor (kstacks : Nat) (c : Call) (i : Nat) : Option Nat :=
  match c.op with
  | .tick frame | .yieldNow frame => if c.caller = i ∧ c.next.isSome then some frame else none
  | .start _ _ => if c.slot = some i then some (initialFrame kstacks i) else none
  | .exit | .kill _ => none

/-- Whether the call registered (`true`) or ended (`false`) the process of slot `i`. -/
def fate (c : Call) (i : Nat) : Option Bool :=
  match c.op with
  | .start _ _ => if c.slot = some i then some true else none
  | .exit => if c.caller = i then some false else none
  | .kill pid => if pid = i ∧ pid ≠ 0 then some false else none
  | .tick _ | .yieldNow _ => none

end Call

/-- The frame last saved or built for slot `i`. -/
def lastFrame (kstacks : Nat) (h : List Call) (i : Nat) : Option Nat :=
  h.findSome? fun c => c.frameFor kstacks i

/-- The process of slot `i` has neither exited nor been killed since the slot was last registered,
by `start_process` or, for slot 0, by `init_idle`. -/
def Registered (h : List Call) (i : Nat) : Prop :=
  (h.findSome? fun c => c.fate i).getD (decide (i = 0)) = true

/-- The address of the frame a call resumes, if it switches. -/
def SchedOp.resumes : SchedOp → Sched → Option Nat
  | .tick frame, st => (st.onTick frame).2
  | .yieldNow frame, st => (st.yieldNow frame).2
  | .exit, st => st.exitCurrent.map Prod.snd
  | .start _ _, _ | .kill _, _ => none

/-- The states a kernel reaches, with the calls made so far. -/
inductive Ran (kstacks rsp0 top : Nat) : List Call → Sched → Prop
  | init : Ran kstacks rsp0 top [] ((Sched.reset kstacks rsp0).initIdle top)
  | call {h : List Call} {op : SchedOp} {st st' : Sched} {out : Option Nat}
      (hran : Ran kstacks rsp0 top h st) (hctx : op.Allowed st)
      (hexec : op.exec st = some (st', out)) :
      Ran kstacks rsp0 top (⟨op, st.current, st.freeSlot, out⟩ :: h) st'

namespace Sched

variable {st st' : Sched} {op : SchedOp} {out : Option Nat} {kstacks rsp0 top frame i : Nat}
  {h : List Call}

/-! ## What a call does to the contexts -/

def ctxOf (st : Sched) (i : Nat) : Nat := (st.processes i).ctx

def topOf (st : Sched) (i : Nat) : Nat := (st.processes i).kernelStackTop

theorem ctxOf_setState (v : ProcState) : (st.setState i v).ctxOf = st.ctxOf := by
  funext j
  exact st.setState_keeps i v Process.ctx (fun _ _ => rfl) j

theorem topOf_setState (v : ProcState) : (st.setState i v).topOf = st.topOf := by
  funext j
  exact st.setState_keeps i v Process.kernelStackTop (fun _ _ => rfl) j

theorem topOf_setCtx : (st.setCtx i frame).topOf = st.topOf := by
  funext j
  exact st.setCtx_keeps i frame Process.kernelStackTop (fun _ _ => rfl) j

theorem ctxOf_setCtx : (st.setCtx i frame).ctxOf = Function.update st.ctxOf i frame := by
  funext j
  by_cases hj : j = i
  · subst hj
    simp [ctxOf, setCtx]
  · simp [ctxOf, setCtx, hj]

/-- The contexts and stacks after a call. -/
def ctxAfter (st : Sched) : SchedOp → Nat → Nat
  | .tick frame | .yieldNow frame => Function.update st.ctxOf st.current frame
  | .start _ _ => fun i => if st.freeSlot = some i then initialFrame st.kstacks i else st.ctxOf i
  | .exit | .kill _ => st.ctxOf

def topAfter (st : Sched) : SchedOp → Nat → Nat
  | .start _ _ => fun i => if st.freeSlot = some i then st.kstackTop i else st.topOf i
  | _ => st.topOf

/-- What a call does to the contexts, and what a switch loads. -/
structure Loads (st st' : Sched) (op : SchedOp) (out : Option Nat) : Prop where
  ctx : st'.ctxOf = st.ctxAfter op
  top : st'.topOf = st.topAfter op
  kstacks_eq : st'.kstacks = st.kstacks
  resumes : ∀ i, out = some i → op.resumes st = some (st'.ctxOf i) ∧ st'.rsp0 = st'.topOf i

theorem doSwitch_loads (st : Sched) (next : Nat) :
    (st.doSwitch next).2 = (st.doSwitch next).1.ctxOf next ∧
      (st.doSwitch next).1.rsp0 = (st.doSwitch next).1.topOf next ∧
      (st.doSwitch next).1.ctxOf = st.ctxOf ∧ (st.doSwitch next).1.topOf = st.topOf :=
  ⟨rfl, rfl, ctxOf_setState .running, topOf_setState .running⟩

theorem preempt_loads (hafter : st.ctxAfter op = Function.update st.ctxOf st.current frame)
    (htop : st.topAfter op = st.topOf) (hres : op.resumes st = (st.preempt frame).2) :
    Loads st (st.preempt frame).1 op
      ((st.preempt frame).2.map fun _ => (st.preempt frame).1.current) := by
  have hctx : ((st.setState st.current .ready).setCtx st.current frame).ctxOf = st.ctxAfter op := by
    rw [hafter, ctxOf_setCtx, ctxOf_setState]
  have htop' : ((st.setState st.current .ready).setCtx st.current frame).topOf = st.topAfter op := by
    rw [htop, topOf_setCtx, topOf_setState]
  cases hpick : ((st.setState st.current .ready).setCtx st.current frame).pickNextOther with
  | some next =>
      simp only [preempt, hpick] at hres ⊢
      obtain ⟨hframe, hrsp0, hkeep, hkeep'⟩ :=
        doSwitch_loads ((st.setState st.current .ready).setCtx st.current frame) next
      refine ⟨hkeep.trans hctx, hkeep'.trans htop', rfl, ?_⟩
      rintro _ ⟨rfl⟩
      exact ⟨hres.trans (congrArg some hframe), hrsp0⟩
  | none =>
      simp only [preempt, hpick]
      refine ⟨?_, ?_, rfl, by simp⟩
      · rw [ctxOf_setState, hctx]
      · rw [topOf_setState, htop']

theorem exitCurrent_loads {ctx : Nat} (hexit : st.exitCurrent = some (st', ctx)) :
    Loads st st' .exit (some st'.current) := by
  obtain ⟨next, -, heq⟩ := Option.map_eq_some_iff.1 hexit
  obtain ⟨rfl, rfl⟩ := Prod.mk.inj heq
  obtain ⟨hframe, hrsp0, hkeep, hkeep'⟩ :=
    doSwitch_loads (st.setState st.current .zombie) next
  refine ⟨hkeep.trans (ctxOf_setState _), hkeep'.trans (topOf_setState _), rfl, ?_⟩
  rintro _ ⟨rfl⟩
  refine ⟨?_, hrsp0⟩
  rw [SchedOp.resumes, hexit]
  exact congrArg some hframe

theorem startProcess_loads {pid entry : Nat} {name : List UInt8} (hslot : st.freeSlot = some pid)
    (hstart : st.startProcess pid entry name = some st') : Loads st st' (.start entry name) none := by
  unfold startProcess at hstart
  split at hstart
  · obtain rfl := Option.some.inj hstart
    refine ⟨?_, ?_, rfl, by simp⟩
    · funext j
      by_cases hj : j = pid
      · subst hj
        simp [ctxOf, ctxAfter, hslot, initialFrame, kstackTop]
      · simp [ctxOf, ctxAfter, hslot, hj, Ne.symm hj]
    · funext j
      by_cases hj : j = pid
      · subst hj
        simp [topOf, topAfter, hslot]
      · simp [topOf, topAfter, hslot, hj, Ne.symm hj]
  · cases hstart

theorem kill_loads {pid : Nat} : Loads st (st.kill pid).2 (.kill pid) none := by
  have hnone : ∀ (i : Nat), (none : Option Nat) = some i →
      (SchedOp.kill pid).resumes st = some ((st.kill pid).2.ctxOf i) ∧
        (st.kill pid).2.rsp0 = (st.kill pid).2.topOf i := by simp
  refine ⟨?_, ?_, ?_, hnone⟩ <;> unfold kill <;> split_ifs
  · rfl
  · rfl
  · exact ctxOf_setState .zombie
  · rfl
  · rfl
  · exact topOf_setState .zombie
  · rfl
  · rfl
  · rfl

/-- **What one call does to the contexts.** -/
theorem exec_loads (hexec : op.exec st = some (st', out)) : Loads st st' op out := by
  cases op with
  | tick frame =>
      obtain ⟨rfl, rfl⟩ := Prod.mk.inj (Option.some.inj hexec)
      exact preempt_loads rfl rfl rfl
  | yieldNow frame =>
      obtain ⟨rfl, rfl⟩ := Prod.mk.inj (Option.some.inj hexec)
      exact preempt_loads rfl rfl rfl
  | exit =>
      obtain ⟨⟨st₁, ctx⟩, hexit, heq⟩ := Option.map_eq_some_iff.1 hexec
      obtain ⟨rfl, rfl⟩ := Prod.mk.inj heq
      exact exitCurrent_loads hexit
  | start entry name =>
      simp only [SchedOp.exec] at hexec
      cases hslot : st.freeSlot with
      | none =>
          rw [hslot] at hexec
          obtain ⟨rfl, rfl⟩ := Prod.mk.inj (Option.some.inj hexec)
          refine ⟨?_, ?_, rfl, by simp⟩
          · funext i
            simp [ctxAfter, hslot]
          · funext i
            simp [topAfter, hslot]
      | some pid =>
          rw [hslot] at hexec
          obtain ⟨st₁, hstart, heq⟩ := Option.map_eq_some_iff.1 hexec
          obtain ⟨rfl, rfl⟩ := Prod.mk.inj heq
          exact startProcess_loads hslot hstart
  | kill pid =>
      obtain ⟨rfl, rfl⟩ := Prod.mk.inj (Option.some.inj hexec)
      exact kill_loads

/-! ## The table agrees with the history -/

/-- What the history says about every live slot. Nothing is said about the context of the process on
the CPU, which is stale. -/
structure CtxInv (kstacks top : Nat) (h : List Call) (st : Sched) : Prop where
  inv : st.Inv
  kstacks_eq : st.kstacks = kstacks
  live_lt : ∀ i, st.Live i → i < maxProcesses
  slots : ∀ c ∈ h, c.slot ≠ some 0
  ctx : ∀ i, i ≠ st.current → st.Live i → lastFrame kstacks h i = some (st.ctxOf i)
  tops : ∀ i, st.Live i → st.topOf i = stackTop kstacks top i
  registered : ∀ i, st.Live i → Registered h i

theorem CtxInv.init : CtxInv kstacks top [] ((reset kstacks rsp0).initIdle top) := by
  have hlive : ∀ i, ((reset kstacks rsp0).initIdle top).Live i → i = 0 := by
    intro i hi
    by_contra hi0
    exact hi.1 (by simp [stateOf, initIdle, reset, Process.unused, hi0])
  refine ⟨Inv.init kstacks rsp0 top, rfl, fun i hi => ?_, by simp,
    fun i hne hi => absurd (hlive i hi) hne, fun i hi => ?_, fun i hi => ?_⟩
  · obtain rfl := hlive i hi
    decide
  · obtain rfl := hlive i hi
    rfl
  · obtain rfl := hlive i hi
    rfl

theorem lastFrame_cons_of_none {c : Call} (hc : c.frameFor kstacks i = none) :
    lastFrame kstacks (c :: h) i = lastFrame kstacks h i := by
  rw [lastFrame, List.findSome?_cons, hc]
  rfl

theorem lastFrame_cons_of_some {c : Call} (hc : c.frameFor kstacks i = some frame) :
    lastFrame kstacks (c :: h) i = some frame := by
  rw [lastFrame, List.findSome?_cons, hc]

theorem registered_cons_of_none {c : Call} (hc : c.fate i = none) (hi : Registered h i) :
    Registered (c :: h) i := by
  rw [Registered, List.findSome?_cons, hc]
  exact hi

theorem registered_cons_of_true {c : Call} (hc : c.fate i = some true) : Registered (c :: h) i := by
  rw [Registered, List.findSome?_cons, hc]
  rfl

theorem Effect.live (heff : Effect st st' op out) (hinv : st.Inv) (hi : st'.Live i) :
    st.Live i ∨ st.freeSlot = some i ∧ ∃ entry name, op = .start entry name := by
  cases heff with
  | switched v next hv hnext hcur hstate hpid =>
      left
      obtain ⟨-, hne, hready⟩ := nextAfter_some hinv.current_lt hnext
      by_cases hin : i = next
      · rw [hin, Live, hready]
        exact ⟨(by simp), (by simp)⟩
      by_cases hic : i = st.current
      · rw [hic]
        exact hinv.current_live
      rwa [Live, hstate, Function.update_of_ne hin, Function.update_of_ne hic] at hi
  | resumed hcur hstate hpid =>
      left
      by_cases hic : i = st.current
      · rw [hic]
        exact hinv.current_live
      rwa [Live, hstate, Function.update_of_ne hic] at hi
  | started entry pid name hslot hcur hstate hpid =>
      by_cases hip : i = pid
      · exact .inr ⟨hip ▸ hslot, entry, name, rfl⟩
      rw [Live, hstate, Function.update_of_ne hip] at hi
      exact .inl hi
  | killed pid hpos hcur hstate hpid =>
      left
      by_cases hip : i = pid
      · exact absurd (by rw [hip, hstate, Function.update_self]) hi.2
      rwa [Live, hstate, Function.update_of_ne hip] at hi
  | unchanged heq => exact .inl (heq ▸ hi)

theorem exit_dead (hinv : st.Inv) (hexec : SchedOp.exit.exec st = some (st', out)) :
    ¬ st'.Live st.current := by
  obtain ⟨⟨st₁, ctx⟩, hexit, heq⟩ := Option.map_eq_some_iff.1 hexec
  obtain ⟨rfl, -⟩ := Prod.mk.inj heq
  obtain ⟨next, hpick, hswitch⟩ := Option.map_eq_some_iff.1 hexit
  obtain ⟨-, hne, -⟩ := Cyclic.next_some hinv.current_lt hpick
  have hst : ((st.setState st.current .zombie).doSwitch next).1 = st₁ := congrArg Prod.fst hswitch
  have hstate : st₁.stateOf =
      Function.update (Function.update st.stateOf st.current .zombie) next .running := by
    rw [← hst, ← stateOf_setState]
    exact stateOf_setState _ next .running
  intro hlive
  refine hlive.2 ?_
  rw [hstate, Function.update_of_ne hne.symm, Function.update_self]

theorem kill_dead {pid : Nat} (hlt : ∀ i, st.Live i → i < maxProcesses) (hpid : pid ≠ 0) :
    ¬ (st.kill pid).2.Live pid := by
  unfold kill
  by_cases hbad : pid = 0 ∨ pid ≥ maxProcesses
  · rw [if_pos hbad]
    intro hlive
    have := hlt pid hlive
    omega
  rw [if_neg hbad]
  by_cases hdead : st.stateOf pid = .zombie ∨ st.stateOf pid = .unused
  · rw [if_pos hdead]
    rintro ⟨hun, hzo⟩
    exact hdead.elim hzo hun
  · rw [if_neg hdead]
    intro hlive
    exact hlive.2 (by rw [stateOf_setState, Function.update_self])

theorem start_quiet {entry : Nat} {name : List UInt8}
    (hexec : (SchedOp.start entry name).exec st = some (st', out)) : out = none := by
  simp only [SchedOp.exec] at hexec
  cases hslot : st.freeSlot with
  | none =>
      rw [hslot] at hexec
      exact (Prod.mk.inj (Option.some.inj hexec)).2.symm
  | some pid =>
      rw [hslot] at hexec
      obtain ⟨st₁, -, heq⟩ := Option.map_eq_some_iff.1 hexec
      exact (Prod.mk.inj heq).2.symm

/-- The context that a tick or a yield leaves for a slot that is not on the CPU afterwards. -/
theorem CtxInv.saved {c : Call} (hi : CtxInv kstacks top h st)
    (hframe : c.frameFor kstacks i = if st.current = i ∧ out.isSome then some frame else none)
    (hcur : st'.current = out.getD st.current)
    (hctx : st'.ctxOf = Function.update st.ctxOf st.current frame)
    (hne : i ≠ st'.current) (hlive : st.Live i) :
    lastFrame kstacks (c :: h) i = some (st'.ctxOf i) := by
  rw [hctx]
  by_cases hic : i = st.current
  · -- it was switched away from
    have hout : out.isSome = true := by
      cases out with
      | none => exact absurd (hic.trans hcur.symm) hne
      | some next => rfl
    rw [hic, Function.update_self, ← hic]
    exact lastFrame_cons_of_some (hframe.trans (if_pos ⟨hic.symm, hout⟩))
  · rw [Function.update_of_ne hic, ← hi.ctx i hic hlive]
    exact lastFrame_cons_of_none (hframe.trans (if_neg fun hc => hic hc.1.symm))

/-- **The step lemma.** -/
theorem CtxInv.step (hi : CtxInv kstacks top h st) (hctx : op.Allowed st)
    (hexec : op.exec st = some (st', out)) :
    CtxInv kstacks top (⟨op, st.current, st.freeSlot, out⟩ :: h) st' := by
  have heff := exec_effect hexec
  have hload := exec_loads hexec
  have hslot : ∀ i, st.freeSlot = some i → 1 ≤ i ∧ i < maxProcesses :=
    fun i hs => ⟨(freeSlot_some hs).1, (freeSlot_some hs).2.1⟩
  refine ⟨hi.inv.step hctx heff, hload.kstacks_eq.trans hi.kstacks_eq, fun i hlive => ?_, ?_,
    fun i hne hlive => ?_, fun i hlive => ?_, fun i hlive => ?_⟩
  · rcases heff.live hi.inv hlive with hold | ⟨hs, -⟩
    · exact hi.live_lt i hold
    · exact (hslot i hs).2
  · intro c hc
    rcases List.mem_cons.1 hc with rfl | hc
    · intro h0
      have := (hslot 0 h0).1
      omega
    · exact hi.slots c hc
  · cases op with
    | tick frame =>
        obtain hold | ⟨-, entry, name, hop⟩ := heff.live hi.inv hlive
        · exact hi.saved rfl heff.current_eq hload.ctx hne hold
        · cases hop
    | yieldNow frame =>
        obtain hold | ⟨-, entry, name, hop⟩ := heff.live hi.inv hlive
        · exact hi.saved rfl heff.current_eq hload.ctx hne hold
        · cases hop
    | exit =>
        obtain hold | ⟨-, entry, name, hop⟩ := heff.live hi.inv hlive
        · have hic : i ≠ st.current := by
            rintro rfl
            exact exit_dead hi.inv hexec hlive
          rw [lastFrame_cons_of_none rfl, hload.ctx]
          exact hi.ctx i hic hold
        · cases hop
    | start entry name =>
        rw [hload.ctx]
        by_cases hs : st.freeSlot = some i
        · have hframe : (⟨.start entry name, st.current, st.freeSlot, out⟩ : Call).frameFor kstacks i =
              some (initialFrame kstacks i) := if_pos hs
          rw [lastFrame_cons_of_some hframe]
          simp only [ctxAfter, if_pos hs, hi.kstacks_eq]
        · have hframe : (⟨.start entry name, st.current, st.freeSlot, out⟩ : Call).frameFor kstacks i =
              none := if_neg hs
          rw [lastFrame_cons_of_none hframe]
          obtain rfl := start_quiet hexec
          have hcur : st'.current = st.current := heff.current_eq
          obtain hold | ⟨hs', -⟩ := heff.live hi.inv hlive
          · simp only [ctxAfter, if_neg hs]
            exact hi.ctx i (hcur ▸ hne) hold
          · exact absurd hs' hs
    | kill pid =>
        obtain ⟨rfl, rfl⟩ := Prod.mk.inj (Option.some.inj hexec)
        have hcur : (st.kill pid).2.current = st.current := heff.current_eq
        obtain hold | ⟨-, entry, name, hop⟩ := heff.live hi.inv hlive
        · rw [lastFrame_cons_of_none rfl, hload.ctx]
          exact hi.ctx i (hcur ▸ hne) hold
        · cases hop
  · rw [hload.top]
    cases op with
    | start entry name =>
        by_cases hs : st.freeSlot = some i
        · have hpos := (hslot i hs).1
          simp only [topAfter, if_pos hs, stackTop, kstackTop, hi.kstacks_eq]
          rw [if_neg (by omega)]
        · obtain hold | ⟨hs', -⟩ := heff.live hi.inv hlive
          · simp only [topAfter, if_neg hs]
            exact hi.tops i hold
          · exact absurd hs' hs
    | tick | yieldNow | exit | kill =>
        obtain hold | ⟨-, entry, name, hop⟩ := heff.live hi.inv hlive
        · exact hi.tops i hold
        · cases hop
  · cases op with
    | tick | yieldNow =>
        obtain hold | ⟨-, entry, name, hop⟩ := heff.live hi.inv hlive
        · exact registered_cons_of_none rfl (hi.registered i hold)
        · cases hop
    | exit =>
        obtain hold | ⟨-, entry, name, hop⟩ := heff.live hi.inv hlive
        · have hic : ¬ st.current = i := by
            rintro rfl
            exact exit_dead hi.inv hexec hlive
          exact registered_cons_of_none (if_neg hic) (hi.registered i hold)
        · cases hop
    | start entry name =>
        by_cases hs : st.freeSlot = some i
        · exact registered_cons_of_true (if_pos hs)
        · obtain hold | ⟨hs', -⟩ := heff.live hi.inv hlive
          · exact registered_cons_of_none (if_neg hs) (hi.registered i hold)
          · exact absurd hs' hs
    | kill pid =>
        obtain ⟨rfl, rfl⟩ := Prod.mk.inj (Option.some.inj hexec)
        obtain hold | ⟨-, entry, name, hop⟩ := heff.live hi.inv hlive
        · have hip : ¬ (pid = i ∧ pid ≠ 0) := by
            rintro ⟨rfl, hpos⟩
            exact kill_dead hi.live_lt hpos hlive
          exact registered_cons_of_none (if_neg hip) (hi.registered i hold)
        · cases hop

/-- **The run lemma.** -/
theorem CtxInv.run (hran : Ran kstacks rsp0 top h st) : CtxInv kstacks top h st := by
  induction hran with
  | init => exact CtxInv.init
  | call _ hctx hexec ih => exact ih.step hctx hexec

/-- The shell's context was saved by the shell. -/
theorem saved_of_lastFrame (hslots : ∀ c ∈ h, c.slot ≠ some 0)
    (hlast : lastFrame kstacks h 0 = some frame) : ∃ c ∈ h, c.Saved 0 frame := by
  obtain ⟨c, hc, hframe⟩ := List.exists_of_findSome?_eq_some hlast
  refine ⟨c, hc, ?_⟩
  obtain ⟨op, caller, slot, next⟩ := c
  cases op with
  | tick f =>
      obtain ⟨⟨hcaller, hnext⟩, ⟨rfl⟩⟩ := Option.ite_none_right_eq_some.1 hframe
      exact ⟨hcaller, hnext, .inl rfl⟩
  | yieldNow f =>
      obtain ⟨⟨hcaller, hnext⟩, ⟨rfl⟩⟩ := Option.ite_none_right_eq_some.1 hframe
      exact ⟨hcaller, hnext, .inr rfl⟩
  | start entry name => exact absurd (Option.ite_none_right_eq_some.1 hframe).1 (hslots _ hc)
  | exit => cases hframe
  | kill pid => cases hframe

/-- **Context fidelity.** Every switch to a slot resumes the frame last saved for it when it was
switched away from, or built for it by `start_process` if it has not run since; `TSS.rsp0` is then
the top of its kernel stack. The shell is resumed only from a frame saved for it, and a process
that exited or was killed only after its slot was registered again. -/
theorem context_fidelity (hran : Ran kstacks rsp0 top h st) (hctx : op.Allowed st)
    (hexec : op.exec st = some (st', some i)) :
    ∃ frame, op.resumes st = some frame ∧ lastFrame kstacks h i = some frame ∧
      st'.rsp0 = stackTop kstacks top i ∧ (i = 0 → ∃ c ∈ h, c.Saved 0 frame) ∧ Registered h i := by
  have hi := CtxInv.run hran
  have heff := exec_effect hexec
  have hload := exec_loads hexec
  obtain ⟨hresumes, hrsp0⟩ := hload.resumes i rfl
  -- the slot was ready, and not on the CPU
  obtain ⟨v, hnext⟩ := heff.nextAfter_eq
  obtain ⟨-, hne, hready⟩ := nextAfter_some hi.inv.current_lt hnext
  have hlive : st.Live i := by
    rw [Live, hready]
    exact ⟨(by simp), (by simp)⟩
  have hkeep : st'.ctxOf i = st.ctxOf i ∧ st'.topOf i = st.topOf i := by
    rw [hload.ctx, hload.top]
    cases op with
    | tick | yieldNow => exact ⟨Function.update_of_ne hne _ _, rfl⟩
    | exit | kill => exact ⟨rfl, rfl⟩
    | start entry name => cases start_quiet hexec
  have hlast := hi.ctx i hne hlive
  refine ⟨st.ctxOf i, hkeep.1 ▸ hresumes, hlast, ?_, ?_, hi.registered i hlive⟩
  · rw [hrsp0, hkeep.2, hi.tops i hlive]
  · rintro rfl
    exact saved_of_lastFrame hi.slots hlast

/-- A tick switches from the shell to the process it started. -/
theorem context_fidelity_small :
    ∃ h st st', Ran 0x400000 0x500000 0x500000 h st ∧
      (SchedOp.tick 0x4ff000).exec st = some (st', some 1) ∧
      (SchedOp.tick 0x4ff000).resumes st = some (initialFrame 0x400000 1) ∧
      st'.rsp0 = 0x408000 := by
  let started : Sched := (shellOnly.startProcess 1 (userCodeVa 1) [112]).getD shellOnly
  have hstart : (SchedOp.start (userCodeVa 1) [112]).exec shellOnly = some (started, none) := rfl
  have htick : (SchedOp.tick 0x4ff000).exec started =
      some ((started.onTick 0x4ff000).1, some 1) := rfl
  have hctx : (SchedOp.start (userCodeVa 1) [112]).Allowed shellOnly := rfl
  have hran : Ran 0x400000 0x500000 0x500000 [⟨.start (userCodeVa 1) [112], 0, some 1, none⟩] started :=
    .call .init hctx hstart
  have hany : (SchedOp.tick 0x4ff000).Allowed started := trivial
  obtain ⟨frame, hresumes, hlast, hrsp0, -⟩ := context_fidelity hran hany htick
  refine ⟨_, started, _, hran, htick, ?_, hrsp0⟩
  rw [hresumes, ← hlast]
  rfl

end Sched

end Rolnix
