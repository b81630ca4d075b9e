import Rolnix.Processes
import Rolnix.Lib.Runs

/-!
# Every process has the processor to itself

The node refines `Procs`: whatever interrupts arrive between whatever instructions, each live process
finds its general registers, flags and stack pointer as it left them, up to the `rax` of its own system calls.

While a process is not on the processor, its state is a frame on its kernel stack, at the address in its
`ctx` field (`Saved`). Nothing else writes there: an interrupt of another process pushes on that
process's stack, below its top, and a handler keeps to the stack it runs on. `Refines` is the relation
between the two levels, `Refines.step` the step, and `processes_isolated` the run. The kernel does not write
the processes' own memory either (`exec_userMem`).
-/

namespace Rolnix

open X86 Sched

/-! ## Stacks -/

namespace ProcLayout

variable (L : ProcLayout) {i j x : Nat}

theorem low_eq (hi : i ≠ 0) : L.low i = L.kstacks + i * kstackSize := if_neg hi

theorem top_eq (hi : i ≠ 0) : L.top i = L.kstacks + i * kstackSize + kstackSize := if_neg hi

theorem top_le (hi : i < maxProcesses) : L.top i ≤ procBase := by
  by_cases h0 : i = 0
  · subst h0
    exact L.bootStack_le
  · have hk := L.kstacks_le
    have hmul := Nat.mul_le_mul_right kstackSize (Nat.succ_le_of_lt hi)
    rw [Nat.succ_mul] at hmul
    rw [L.top_eq h0]
    omega

theorem not_inStack (hi : i < maxProcesses) (hj : j < maxProcesses) (hij : i ≠ j)
    (hx : L.InStack i x) : ¬ L.InStack j x := by
  have hd := L.disjoint
  have hmul : ∀ k, k < maxProcesses → k * kstackSize + kstackSize ≤ maxProcesses * kstackSize := by
    intro k hk
    have := Nat.mul_le_mul_right kstackSize (Nat.succ_le_of_lt hk)
    rwa [Nat.succ_mul] at this
  rintro ⟨hlow, htop⟩
  obtain ⟨hlow', htop'⟩ := hx
  by_cases hi0 : i = 0
  · subst hi0
    have hj0 : j ≠ 0 := Ne.symm hij
    rw [L.low_eq hj0] at hlow
    rw [L.top_eq hj0] at htop
    have hb : L.bootStack ≤ x := hlow'
    have hb' : x < L.bootStack + bootStackSize := htop'
    have := hmul j hj
    omega
  · rw [L.low_eq hi0] at hlow'
    rw [L.top_eq hi0] at htop'
    by_cases hj0 : j = 0
    · subst hj0
      have hb : L.bootStack ≤ x := hlow
      have hb' : x < L.bootStack + bootStackSize := htop
      have := hmul i hi
      omega
    · rw [L.low_eq hj0] at hlow
      rw [L.top_eq hj0] at htop
      rcases Nat.lt_or_gt_of_ne hij with h | h
      · have := Nat.mul_le_mul_right kstackSize (Nat.succ_le_of_lt h)
        rw [Nat.succ_mul] at this
        omega
      · have := Nat.mul_le_mul_right kstackSize (Nat.succ_le_of_lt h)
        rw [Nat.succ_mul] at this
        omega

end ProcLayout

/-- The frame of a program that runs on as `c`, on the kernel stack of slot `i`. -/
def Saved (L : ProcLayout) (mem : ByteMem) (i ctx : Nat) (c : Cpu) : Prop :=
  ∃ f : InterruptFrame, mem.Words ctx f.words ∧ f.cpu = c ∧ L.low i ≤ ctx ∧
    ctx + interruptFrameSize ≤ L.top i

theorem length_words (f : InterruptFrame) : 8 * f.words.length = interruptFrameSize := rfl

section Fields

variable {m : ByteMem} {a : Nat} {f : InterruptFrame}

theorem load_vector (h : m.Words a f.words) : m.load (a + frameVector) 8 = f.vector :=
  h.load (i := 16) (w := f.vector) rfl

theorem load_rax (h : m.Words a f.words) : m.load (a + frameRax) 8 = f.rax :=
  h.load (i := 15) (w := f.rax) rfl

theorem load_rdi (h : m.Words a f.words) : m.load (a + frameRdi) 8 = f.rdi :=
  h.load (i := 10) (w := f.rdi) rfl

theorem words_setRax {v : Nat} (h : m.Words a f.words) (hv : v < 2 ^ 64) :
    (m.store (a + frameRax) 8 v).Words a { f with rax := v }.words :=
  h.store (i := 15) (by simp [InterruptFrame.words]) hv

end Fields

theorem Saved.congr {L : ProcLayout} {mem mem' : ByteMem} {i ctx : Nat} {c : Cpu}
    (h : Saved L mem i ctx c) (hmem : ∀ x, L.InStack i x → mem x = mem' x) :
    Saved L mem' i ctx c := by
  obtain ⟨f, hwords, hcpu, hlow, htop⟩ := h
  refine ⟨f, ByteMem.words_congr (fun x hx hx' => hmem x ⟨by omega, ?_⟩) hwords, hcpu, hlow, htop⟩
  rw [length_words] at hx'
  omega

/-! ## What a switch does to the table -/

namespace Sched

variable {st : Sched} {next frame : Nat} {v : ProcState}

/-- A switch to `next`, with the process left in state `v`. -/
structure Switched (st st' : Sched) (v : ProcState) (next : Nat) : Prop where
  stateOf_eq : st'.stateOf = Function.update (Function.update st.stateOf st.current v) next .running
  current_eq : st'.current = next
  topOf_eq : st'.topOf = st.topOf
  rsp0_eq : st'.rsp0 = st.topOf next
  kstacks_eq : st'.kstacks = st.kstacks

theorem preempt_of_some (hnext : st.nextAfter .ready = some next) (hne : next ≠ st.current) :
    Switched st (st.preempt frame).1 .ready next ∧ (st.preempt frame).2 = some (st.ctxOf next) ∧
      (st.preempt frame).1.ctxOf = Function.update st.ctxOf st.current frame := by
  have hstate : ((st.setState st.current .ready).setCtx st.current frame).stateOf =
      Function.update st.stateOf st.current .ready := by
    rw [stateOf_setCtx, stateOf_setState]
  have hpick : ((st.setState st.current .ready).setCtx st.current frame).pickNextOther = some next := by
    rw [pickNextOther, hstate]
    exact hnext
  have hctx : ((st.setState st.current .ready).setCtx st.current frame).ctxOf =
      Function.update st.ctxOf st.current frame := by
    rw [ctxOf_setCtx, ctxOf_setState]
  have htop : ((st.setState st.current .ready).setCtx st.current frame).topOf = st.topOf := by
    rw [topOf_setCtx, topOf_setState]
  obtain ⟨hres, hrsp0, hkeep, hkeep'⟩ :=
    doSwitch_loads ((st.setState st.current .ready).setCtx st.current frame) next
  simp only [preempt, hpick]
  refine ⟨⟨?_, rfl, hkeep'.trans htop, ?_, rfl⟩, ?_, hkeep.trans hctx⟩
  · rw [← hstate]
    exact stateOf_setState _ next .running
  · rw [hrsp0, hkeep', htop]
  · rw [hres, hkeep, hctx, Function.update_of_ne hne]

theorem preempt_of_none (hnext : st.nextAfter .ready = none) :
    (st.preempt frame).2 = none ∧ (st.preempt frame).1.current = st.current ∧
      (st.preempt frame).1.stateOf = Function.update st.stateOf st.current .running ∧
      (st.preempt frame).1.topOf = st.topOf ∧ (st.preempt frame).1.rsp0 = st.rsp0 ∧
      (st.preempt frame).1.kstacks = st.kstacks ∧
      (st.preempt frame).1.ctxOf = Function.update st.ctxOf st.current frame := by
  have hstate : ((st.setState st.current .ready).setCtx st.current frame).stateOf =
      Function.update st.stateOf st.current .ready := by
    rw [stateOf_setCtx, stateOf_setState]
  have hpick : ((st.setState st.current .ready).setCtx st.current frame).pickNextOther = none := by
    rw [pickNextOther, hstate]
    exact hnext
  simp only [preempt, hpick]
  refine ⟨trivial, rfl, ?_, ?_, rfl, rfl, ?_⟩
  · rw [stateOf_setState, hstate, Function.update_idem]
  · rw [topOf_setState, topOf_setCtx, topOf_setState]
  · rw [ctxOf_setState, ctxOf_setCtx, ctxOf_setState]

theorem exitCurrent_of_some (hnext : st.nextAfter .zombie = some next) :
    ∃ st', st.exitCurrent = some (st', st.ctxOf next) ∧ Switched st st' .zombie next ∧
      st'.ctxOf = st.ctxOf := by
  have hstate := stateOf_setState st st.current .zombie
  have hpick : (st.setState st.current .zombie).pickNextOther = some next := by
    rw [pickNextOther, hstate]
    exact hnext
  obtain ⟨hres, hrsp0, hkeep, hkeep'⟩ := doSwitch_loads (st.setState st.current .zombie) next
  have hctx : (st.setState st.current .zombie).ctxOf = st.ctxOf := ctxOf_setState _
  have htop : (st.setState st.current .zombie).topOf = st.topOf := topOf_setState _
  refine ⟨((st.setState st.current .zombie).doSwitch next).1, ?_, ⟨?_, rfl, hkeep'.trans htop, ?_, rfl⟩,
    hkeep.trans hctx⟩
  · rw [exitCurrent, hpick, Option.map_some, ← hctx, ← hkeep, ← hres]
  · rw [← hstate]
    exact stateOf_setState _ next .running
  · rw [hrsp0, hkeep', htop]

end Sched

/-- An interrupt of the process on the processor has reached its handler, with the frame at `a` on the
kernel stack of that process. -/
structure Entry (L : ProcLayout) (T : Text) (n : Node) (v : Nat) (s : State) (a : Nat) : Prop where
  interrupt_eq : interrupt T ⟨BitVec.ofNat 64 n.sched.rsp0, fun _ => 0⟩ v none n.state = some s
  rdi_eq : s.cpu.regs .rdi = BitVec.ofNat 64 a
  r12_eq : s.cpu.regs .r12 = BitVec.ofNat 64 a
  low_le : L.low n.sched.current ≤ a
  le_top : a + interruptFrameSize ≤ L.top n.sched.current
  words : s.mem.Words a (frameOf n.state.cpu v none a).words
  mem_eq : ∀ x, x < a ∨ a + interruptFrameSize ≤ x → s.mem x = n.state.mem x

theorem leave_mem {L : ProcLayout} {left : Leftovers} {n : Node} {cur frame i x : Nat}
    (hi : i < maxProcesses) (hx : L.InStack i x) (hframe : i = cur → frame ≤ x) :
    (n.leave L left cur frame).mem x = n.state.mem x :=
  if_pos (.inl ⟨i, hi, hx, hframe⟩)

namespace Entry

variable {L : ProcLayout} {T : Text} {n n₁ : Node} {v a i x : Nat} {s : State} {left : Leftovers}

theorem not_mem (h : Entry L T n v s a) (hcur : n.sched.current < maxProcesses)
    (hi : i < maxProcesses) (hic : i ≠ n.sched.current) (hx : L.InStack i x) :
    x < a ∨ a + interruptFrameSize ≤ x := by
  have hlow := h.low_le
  have htop := h.le_top
  by_contra hin
  exact L.not_inStack hi hcur hic hx ⟨by omega, by omega⟩

theorem lt_two_pow (h : Entry L T n v s a) (hcur : n.sched.current < maxProcesses) : a < 2 ^ 64 := by
  have hle : a ≤ L.top n.sched.current := (Nat.le_add_right _ _).trans h.le_top
  exact lt_of_le_of_lt (hle.trans (L.top_le hcur)) (by decide)

theorem saved_frame (h : Entry L T n v s a) (hcur : n.sched.current < maxProcesses)
    {f : InterruptFrame} {c : Cpu} (hwords : n₁.state.mem.Words a f.words) (hc : f.cpu = c) :
    Saved L (n₁.leave L left n.sched.current a).mem n.sched.current a c := by
  have hle := h.le_top
  have hlow := h.low_le
  refine ⟨f, ByteMem.words_congr (fun x hx hx' => ?_) hwords, hc, hlow, hle⟩
  rw [length_words] at hx'
  exact (leave_mem hcur ⟨hlow.trans hx, by omega⟩ fun _ => hx).symm

end Entry

/-! ## The refinement relation -/

/-- **The node refines the processes.** The process on the processor is in its registers, every other
live one in a frame on its kernel stack. -/
structure Refines (L : ProcLayout) (n : Node) (p : Procs) : Prop where
  inv : n.sched.Inv
  kstacks_eq : n.sched.kstacks = L.kstacks
  live_lt : ∀ i, n.sched.Live i → i < maxProcesses
  tops : ∀ i, n.sched.Live i → n.sched.topOf i = L.top i
  rsp0_eq : n.sched.current ≠ 0 → n.sched.rsp0 = L.top n.sched.current
  states_eq : p.states = n.sched.stateOf
  current_eq : p.current = n.sched.current
  keyboard_eq : p.keyboard = n.keyboard
  ticks_eq : p.ticks = n.ticks
  console_eq : p.console = n.console
  own : ∀ i, n.sched.Live i → OwnState L i (p.cpus i)
  cpu_eq : n.state.cpu = p.cpus n.sched.current
  saved : ∀ i, n.sched.Live i → i ≠ n.sched.current →
    Saved L n.state.mem i (n.sched.ctxOf i) (p.cpus i)

namespace Refines

variable {L : ProcLayout} {T : Text} {n : Node} {p : Procs} {left : Leftovers}

/-- The program on the processor goes on as `c`; nothing is written to the other stacks. -/
theorem update (h : Refines L n p) {c : Cpu} {mem : ByteMem} (kb : Keyboard) (ticks : Nat)
    (console : List (Nat × UInt8)) (hown : OwnState L n.sched.current c)
    (hmem : ∀ i x, i < maxProcesses → i ≠ n.sched.current → L.InStack i x → n.state.mem x = mem x) :
    Refines L ⟨⟨c, mem⟩, n.sched, kb, ticks, console⟩
      { p with
        cpus := Function.update p.cpus p.current c, keyboard := kb, ticks := ticks
        console := console } where
  inv := h.inv
  kstacks_eq := h.kstacks_eq
  live_lt := h.live_lt
  tops := h.tops
  rsp0_eq := h.rsp0_eq
  states_eq := h.states_eq
  current_eq := h.current_eq
  keyboard_eq := rfl
  ticks_eq := rfl
  console_eq := rfl
  own i hi := by
    change OwnState L i (Function.update p.cpus p.current c i)
    rw [h.current_eq]
    by_cases hic : i = n.sched.current
    · rw [hic, Function.update_self]
      exact hown
    · rw [Function.update_of_ne hic]
      exact h.own i hi
  cpu_eq := by
    change c = Function.update p.cpus p.current c n.sched.current
    rw [h.current_eq, Function.update_self]
  saved i hi hic := by
    change Saved L mem i (n.sched.ctxOf i) (Function.update p.cpus p.current c i)
    rw [h.current_eq, Function.update_of_ne hic]
    exact (h.saved i hi hic).congr fun x hx => hmem i x (h.live_lt i hi) hic hx

theorem keep (h : Refines L n p) {mem : ByteMem} (kb : Keyboard) (ticks : Nat)
    (console : List (Nat × UInt8))
    (hmem : ∀ i x, i < maxProcesses → i ≠ n.sched.current → L.InStack i x → n.state.mem x = mem x) :
    Refines L ⟨⟨n.state.cpu, mem⟩, n.sched, kb, ticks, console⟩
      { p with keyboard := kb, ticks := ticks, console := console } := by
  have hown : OwnState L n.sched.current n.state.cpu := by
    rw [h.cpu_eq]
    exact h.own _ h.inv.current_live
  have hself : Function.update p.cpus p.current n.state.cpu = p.cpus := by
    rw [h.cpu_eq, ← h.current_eq, Function.update_eq_self]
  have hupd := h.update kb ticks console hown hmem
  rwa [hself] at hupd

/-! ## Entering a handler -/

theorem enter (h : Refines L n p) {v : Nat} {e : Stub} (hstub : stubOf v = some e)
    (hret : ∀ k, e ≠ .isr k) (hec : isrErrorCode v = false) : ∃ s a, Entry L T n v s a := by
  obtain ⟨cur, hcur⟩ : ∃ cur, cur = n.sched.current := ⟨_, rfl⟩
  have hlt : L.top cur < 2 ^ 64 :=
    lt_of_le_of_lt (L.top_le (hcur ▸ h.inv.current_lt)) (by decide)
  have hist : (e.gate T.addr).ist = 0 := if_neg (hret _)
  have hown : OwnState L cur n.state.cpu := by
    rw [h.cpu_eq, hcur]
    exact h.own _ h.inv.current_live
  -- where the processor starts to push
  obtain ⟨top, htop, hlow, hle⟩ : ∃ top,
      ((e.gate T.addr).stack ⟨BitVec.ofNat 64 n.sched.rsp0, fun _ => 0⟩ n.state.cpu).toNat / 16 * 16 = top ∧
        L.low cur + interruptFrameSize ≤ top ∧ top ≤ L.top cur := by
    refine ⟨_, rfl, ?_⟩
    rw [Gate.stack, if_neg (by rw [hist]; simp)]
    by_cases h0 : cur = 0
    · rw [OwnState, if_pos h0] at hown
      rw [if_neg (by rw [hown.1]; simp)]
      subst h0
      omega
    · rw [OwnState, if_neg h0] at hown
      have hcpl : n.state.cpu.cpl ≠ 0 := by
        rw [Cpu.cpl, hown.1]
        decide
      rw [if_pos hcpl, h.rsp0_eq (hcur ▸ h0), ← hcur, BitVec.toNat_ofNat, Nat.mod_eq_of_lt hlt,
        L.low_eq h0, L.top_eq h0, interruptFrameSize, kstackSize]
      omega
  obtain ⟨s, hs, hent⟩ := @interrupt_spec _ _ _ _ none _ _ hstub hec.symm htop (by omega)
  refine ⟨s, top - interruptFrameSize, hs, hent.rdi_eq, hent.r12_eq hret, ?_, ?_, hent.words,
    fun x hx => hent.mem_eq x ?_⟩
  · rw [← hcur]
    omega
  · rw [← hcur]
    omega
  · omega

end Refines

theorem trap_eq {L : ProcLayout} {T : Text} {n n' : Node} {left : Leftovers} {v a : Nat} {s s' : State}
    {out : Option Nat} {handler : Node → Nat → Option (Node × Option Nat)}
    (hint : interrupt T ⟨BitVec.ofNat 64 n.sched.rsp0, fun _ => 0⟩ v none n.state = some s)
    (hrdi : s.cpu.regs .rdi = BitVec.ofNat 64 a) (ha : a < 2 ^ 64)
    (hhandler : handler { n with state := s } a = some (n', out))
    (hleave : out.elim (commonReturn (n'.leave L left n.sched.current a))
      (schedSwitch (n'.leave L left n.sched.current a)) = some s') :
    n.trap L T v left handler = some { n' with state := s' } := by
  have haddr : (s.cpu.regs .rdi).toNat = a := by
    rw [hrdi, BitVec.toNat_ofNat, Nat.mod_eq_of_lt ha]
  simp only [Node.trap, hint, haddr, hhandler, hleave, Option.bind_eq_bind, Option.bind_some,
    Option.pure_def]

section Leave

variable {L : ProcLayout} {left : Leftovers} {n : Node} {cur a i ctx : Nat} {f : InterruptFrame} {c : Cpu}

theorem leave_return (hcur : cur < maxProcesses) (hr12 : n.state.cpu.regs .r12 = BitVec.ofNat 64 a)
    (hlow : L.low cur ≤ a) (htop : a + interruptFrameSize ≤ L.top cur)
    (hwords : n.state.mem.Words a f.words) :
    commonReturn (n.leave L left cur a) = some ⟨f.cpu, (n.leave L left cur a).mem⟩ := by
  have hle := L.top_le hcur
  refine resume_spec ?_ (lt_of_le_of_lt (htop.trans hle) (by decide)) ?_
  · exact hr12
  · refine ByteMem.words_congr (fun x hx hx' => (leave_mem hcur ?_ fun _ => hx).symm) hwords
    rw [length_words] at hx'
    exact ⟨by omega, by omega⟩

theorem leave_switch (hi : i < maxProcesses) (hic : i ≠ cur) (hsaved : Saved L n.state.mem i ctx c) :
    schedSwitch (n.leave L left cur a) ctx = some ⟨c, (n.leave L left cur a).mem⟩ := by
  have hkept : Saved L (n.leave L left cur a).mem i ctx c :=
    hsaved.congr fun x hx => (leave_mem hi hx fun h => absurd h hic).symm
  obtain ⟨f, hwords, rfl, hlow, htop⟩ := hkept
  have hle := L.top_le hi
  exact resume_spec (Cpu.regs_set_self _ _ _) (lt_of_le_of_lt (htop.trans hle) (by decide)) hwords

end Leave

namespace Refines

variable {L : ProcLayout} {T : Text} {n : Node} {p : Procs} {left : Leftovers}

/-! ## The scheduler's calls -/

theorem nextAfter_eq (h : Refines L n p) (v : ProcState) :
    (Cyclic.next maxProcesses p.current fun i => Function.update p.states p.current v i = .ready) =
      n.sched.nextAfter v := by
  rw [h.states_eq, h.current_eq]
  rfl

theorem switchFrom_of_some (h : Refines L n p) {v : ProcState} {next : Nat}
    (hnext : n.sched.nextAfter v = some next) :
    p.switchFrom v = { p with
      states := Function.update (Function.update p.states p.current v) next .running
      current := next } := by
  rw [← h.nextAfter_eq] at hnext
  simp only [Procs.switchFrom, hnext]

theorem switchFrom_of_none (h : Refines L n p) {v : ProcState} (hnext : n.sched.nextAfter v = none) :
    p.switchFrom v =
      { p with states := Function.update (Function.update p.states p.current v) p.current .running } := by
  rw [← h.nextAfter_eq] at hnext
  simp only [Procs.switchFrom, hnext]

/-- A switch: the frame of the process that is left is on its stack, and the one that goes on is in
the processor. -/
theorem switch (h : Refines L n p) {st' : Sched} {v : ProcState} {next : Nat}
    (hsw : Switched n.sched st' v next) (hinv : st'.Inv) (hv : v = .ready ∨ v = .zombie)
    (hnext : n.sched.nextAfter v = some next)
    (hctx : ∀ i, i ≠ n.sched.current → st'.ctxOf i = n.sched.ctxOf i)
    (hcur : v = .ready →
      Saved L n.state.mem n.sched.current (st'.ctxOf n.sched.current) (p.cpus n.sched.current)) :
    Refines L { n with state := { n.state with cpu := p.cpus next }, sched := st' }
      (p.switchFrom v) := by
  obtain ⟨hlt, hne, hready⟩ := nextAfter_some h.inv.current_lt hnext
  have hlive : ∀ i, st'.Live i → n.sched.Live i := by
    intro i hi
    rw [Sched.Live, hsw.stateOf_eq] at hi
    by_cases hin : i = next
    · rw [hin, Sched.Live, hready]
      exact ⟨(by simp), (by simp)⟩
    by_cases hic : i = n.sched.current
    · rw [hic]
      exact h.inv.current_live
    rwa [Function.update_of_ne hin, Function.update_of_ne hic] at hi
  rw [h.switchFrom_of_some hnext]
  exact
    { inv := hinv
      kstacks_eq := hsw.kstacks_eq.trans h.kstacks_eq
      live_lt := fun i hi => h.live_lt i (hlive i hi)
      tops := fun i hi => by
        change st'.topOf i = _
        rw [hsw.topOf_eq]
        exact h.tops i (hlive i hi)
      rsp0_eq := fun _ => by
        change st'.rsp0 = L.top st'.current
        rw [hsw.rsp0_eq, hsw.current_eq]
        refine h.tops next ?_
        rw [Sched.Live, hready]
        exact ⟨(by simp), (by simp)⟩
      states_eq := by
        change Function.update (Function.update p.states p.current v) next .running = st'.stateOf
        rw [hsw.stateOf_eq, h.states_eq, h.current_eq]
      current_eq := hsw.current_eq.symm
      keyboard_eq := h.keyboard_eq
      ticks_eq := h.ticks_eq
      console_eq := h.console_eq
      own := fun i hi => h.own i (hlive i hi)
      cpu_eq := by
        change p.cpus next = p.cpus st'.current
        rw [hsw.current_eq]
      saved := fun i hi hin => by
        change Saved L n.state.mem i (st'.ctxOf i) (p.cpus i)
        replace hin : i ≠ next := fun heq => hin (heq.trans hsw.current_eq.symm)
        by_cases hic : i = n.sched.current
        · -- it is still there, so it did not exit
          rw [hic]
          refine hcur (hv.resolve_right ?_)
          rintro rfl
          refine hi.2 ?_
          change st'.stateOf i = _
          rw [hsw.stateOf_eq, Function.update_of_ne hin, hic, Function.update_self]
        · rw [hctx i hic]
          exact h.saved i (hlive i hi) hic }

theorem retable (h : Refines L n p) {st' : Sched} {mem : ByteMem} {cpus : Nat → Cpu} (hinv : st'.Inv)
    (hcur : st'.current = n.sched.current) (hrsp0 : st'.rsp0 = n.sched.rsp0)
    (hkstacks : st'.kstacks = n.sched.kstacks)
    (hcpu : cpus n.sched.current = p.cpus n.sched.current)
    (hlive : ∀ i, st'.Live i → i < maxProcesses ∧ st'.topOf i = L.top i ∧ OwnState L i (cpus i) ∧
      (i ≠ n.sched.current → Saved L mem i (st'.ctxOf i) (cpus i))) :
    Refines L { n with state := { n.state with mem := mem }, sched := st' }
      { p with cpus := cpus, states := st'.stateOf } where
  inv := hinv
  kstacks_eq := hkstacks.trans h.kstacks_eq
  live_lt i hi := (hlive i hi).1
  tops i hi := (hlive i hi).2.1
  rsp0_eq hne := by
    change st'.rsp0 = L.top st'.current
    rw [hrsp0, hcur]
    exact h.rsp0_eq fun h0 => hne (hcur.trans h0)
  states_eq := rfl
  current_eq := h.current_eq.trans hcur.symm
  keyboard_eq := h.keyboard_eq
  ticks_eq := h.ticks_eq
  console_eq := h.console_eq
  own i hi := (hlive i hi).2.2.1
  cpu_eq := by
    change n.state.cpu = cpus st'.current
    rw [hcur, hcpu, h.cpu_eq]
  saved i hi hic := (hlive i hi).2.2.2 fun heq => hic (heq.trans hcur.symm)

theorem resume (h : Refines L n p) {st' : Sched} {frame : Nat} (hinv : st'.Inv)
    (hnext : n.sched.nextAfter .ready = none) (hcur : st'.current = n.sched.current)
    (hstate : st'.stateOf = Function.update n.sched.stateOf n.sched.current .running)
    (htop : st'.topOf = n.sched.topOf) (hrsp0 : st'.rsp0 = n.sched.rsp0)
    (hkstacks : st'.kstacks = n.sched.kstacks)
    (hctx : st'.ctxOf = Function.update n.sched.ctxOf n.sched.current frame) :
    Refines L { n with sched := st' } (p.switchFrom .ready) := by
  rw [h.switchFrom_of_none hnext, Function.update_idem, h.states_eq, h.current_eq, ← hstate]
  rw [← h.current_eq]
  refine h.retable hinv hcur hrsp0 hkstacks rfl fun i hi => ?_
  have hold : n.sched.Live i := by
    rw [Sched.Live, hstate] at hi
    by_cases hic : i = n.sched.current
    · rw [hic]
      exact h.inv.current_live
    · rwa [Function.update_of_ne hic] at hi
  refine ⟨h.live_lt i hold, htop ▸ h.tops i hold, h.own i hold, fun hic => ?_⟩
  rw [hctx, Function.update_of_ne hic]
  exact h.saved i hold hic

theorem leave_other (h : Refines L n p) {v a : Nat} {s : State} (hent : Entry L T n v s a) {n₁ : Node}
    (hn₁ : ∀ x, x < a ∨ a + interruptFrameSize ≤ x → n₁.state.mem x = s.mem x) {i x : Nat}
    (hi : i < maxProcesses) (hic : i ≠ n.sched.current) (hx : L.InStack i x) :
    n.state.mem x = (n₁.leave L left n.sched.current a).mem x := by
  have hnot := hent.not_mem h.inv.current_lt hi hic hx
  rw [leave_mem hi hx fun heq => absurd heq hic, hn₁ x hnot, hent.mem_eq x hnot]

/-- **A tick or a yield.** -/
theorem preempt_step (h : Refines L n p) (left : Leftovers) {v a : Nat} {s : State}
    (hent : Entry L T n v s a)
    (handler : Node → Nat → Option (Node × Option Nat)) (ticks : Nat)
    (hhandler : handler { n with state := s } a =
      some ({ n with state := s, sched := (n.sched.preempt a).1, ticks := ticks },
        (n.sched.preempt a).2)) :
    ∃ n', n.trap L T v left handler = some n' ∧
      Refines L n' ({ p with ticks := ticks }.switchFrom .ready) := by
  have ha := hent.lt_two_pow h.inv.current_lt
  have htick : (SchedOp.tick a).exec n.sched = some ((n.sched.preempt a).1,
      (n.sched.preempt a).2.map fun _ => (n.sched.preempt a).1.current) := rfl
  have hany : (SchedOp.tick a).Allowed n.sched := trivial
  have hinv : (n.sched.preempt a).1.Inv := h.inv.step hany (exec_effect htick)
  obtain ⟨n₁, hn₁⟩ : ∃ n₁ : Node,
      n₁ = { n with state := s, sched := (n.sched.preempt a).1, ticks := ticks } := ⟨_, rfl⟩
  have hstate₁ : n₁.state = s := by rw [hn₁]
  obtain ⟨mem, hmem⟩ : ∃ mem, mem = (n₁.leave L left n.sched.current a).mem := ⟨_, rfl⟩
  have hkeep : Refines L ⟨⟨n.state.cpu, mem⟩, n.sched, n.keyboard, ticks, n.console⟩
      { p with ticks := ticks } := by
    have hself : ({ p with ticks := ticks } : Procs) =
        { p with keyboard := n.keyboard, ticks := ticks, console := n.console } := by
      rw [← h.keyboard_eq, ← h.console_eq]
    rw [hself]
    refine h.keep _ _ _ fun i x hi hic hx => ?_
    rw [hmem]
    exact h.leave_other hent (fun x _ => by rw [hstate₁]) hi hic hx
  rw [← hn₁] at hhandler
  cases hnext : n.sched.nextAfter .ready with
  | none =>
      obtain ⟨hout, hcur, hstate, htop, hrsp0, hkstacks, hctx⟩ := @preempt_of_none n.sched a hnext
      have hleave : (n.sched.preempt a).2.elim (commonReturn (n₁.leave L left n.sched.current a))
          (schedSwitch (n₁.leave L left n.sched.current a)) = some ⟨n.state.cpu, mem⟩ := by
        rw [hout, Option.elim_none, hmem,
          leave_return h.inv.current_lt (by rw [hstate₁]; exact hent.r12_eq) hent.low_le hent.le_top
            (by rw [hstate₁]; exact hent.words), cpu_frameOf]
      refine ⟨_, trap_eq hent.interrupt_eq hent.rdi_eq ha hhandler hleave, ?_⟩
      rw [hn₁]
      exact hkeep.resume hinv hnext hcur hstate htop hrsp0 hkstacks hctx
  | some next =>
      obtain ⟨hlt, hne, hready⟩ := nextAfter_some h.inv.current_lt hnext
      obtain ⟨hsw, hout, hctx⟩ := @preempt_of_some n.sched next a hnext hne
      have hlive : n.sched.Live next := by
        rw [Sched.Live, hready]
        exact ⟨(by simp), (by simp)⟩
      have hsaved : Saved L n₁.state.mem next (n.sched.ctxOf next) (p.cpus next) := by
        refine (h.saved next hlive hne).congr fun x hx => ?_
        rw [hstate₁, hent.mem_eq x (hent.not_mem h.inv.current_lt hlt hne hx)]
      have hleave : (n.sched.preempt a).2.elim (commonReturn (n₁.leave L left n.sched.current a))
          (schedSwitch (n₁.leave L left n.sched.current a)) = some ⟨p.cpus next, mem⟩ := by
        rw [hout, Option.elim_some, hmem, leave_switch hlt hne hsaved]
      have hframe : Saved L mem n.sched.current ((n.sched.preempt a).1.ctxOf n.sched.current)
          (p.cpus n.sched.current) := by
        rw [hctx, Function.update_self, ← h.cpu_eq, hmem]
        refine hent.saved_frame h.inv.current_lt ?_ (cpu_frameOf n.state.cpu v none a)
        rw [hstate₁]
        exact hent.words
      refine ⟨_, trap_eq hent.interrupt_eq hent.rdi_eq ha hhandler hleave, ?_⟩
      rw [hn₁]
      exact hkeep.switch hsw hinv (.inl rfl) hnext
        (fun i hic => by rw [hctx, Function.update_of_ne hic]) fun _ => hframe

/-- **A handler that returns to the process it interrupted.** -/
theorem return_step (h : Refines L n p) (left : Leftovers) {v a : Nat} {s : State}
    (hent : Entry L T n v s a)
    (handler : Node → Nat → Option (Node × Option Nat)) {mem : ByteMem} {f : InterruptFrame}
    (kb : Keyboard) (console : List (Nat × UInt8)) (hwords : mem.Words a f.words)
    (hmem : ∀ x, x < a ∨ a + interruptFrameSize ≤ x → mem x = s.mem x)
    (hown : OwnState L n.sched.current f.cpu)
    (hhandler : handler { n with state := s } a =
      some ({ n with state := ⟨s.cpu, mem⟩, keyboard := kb, console := console }, none)) :
    ∃ n', n.trap L T v left handler = some n' ∧
      Refines L n' { p with
        cpus := Function.update p.cpus p.current f.cpu, keyboard := kb, console := console } := by
  obtain ⟨n₁, hn₁⟩ : ∃ n₁ : Node,
      n₁ = { n with state := ⟨s.cpu, mem⟩, keyboard := kb, console := console } := ⟨_, rfl⟩
  have hstate₁ : n₁.state = ⟨s.cpu, mem⟩ := by rw [hn₁]
  have hleave : (none : Option Nat).elim (commonReturn (n₁.leave L left n.sched.current a))
      (schedSwitch (n₁.leave L left n.sched.current a)) =
        some ⟨f.cpu, (n₁.leave L left n.sched.current a).mem⟩ := by
    rw [Option.elim_none, leave_return h.inv.current_lt (by rw [hstate₁]; exact hent.r12_eq)
      hent.low_le hent.le_top (by rw [hstate₁]; exact hwords)]
  rw [← hn₁] at hhandler
  refine ⟨_, trap_eq hent.interrupt_eq hent.rdi_eq (hent.lt_two_pow h.inv.current_lt) hhandler hleave,
    ?_⟩
  have hself : ({ p with
      cpus := Function.update p.cpus p.current f.cpu, keyboard := kb, console := console } : Procs) =
      { p with
        cpus := Function.update p.cpus p.current f.cpu, keyboard := kb, ticks := n.ticks
        console := console } := by rw [← h.ticks_eq]
  rw [hself, hn₁]
  refine h.update kb n.ticks console hown fun i x hi hic hx => ?_
  rw [← hn₁]
  exact h.leave_other hent (fun x hx => by rw [hstate₁]; exact hmem x hx) hi hic hx

theorem return_same (h : Refines L n p) (left : Leftovers) {v a : Nat} {s : State}
    (hent : Entry L T n v s a)
    (handler : Node → Nat → Option (Node × Option Nat)) (kb : Keyboard) (console : List (Nat × UInt8))
    (hhandler : handler { n with state := s } a =
      some ({ n with state := s, keyboard := kb, console := console }, none)) :
    ∃ n', n.trap L T v left handler = some n' ∧
      Refines L n' { p with keyboard := kb, console := console } := by
  have hcpu : (frameOf n.state.cpu v none a).cpu = p.cpus p.current := by
    rw [cpu_frameOf, h.cpu_eq, h.current_eq]
  have hown : OwnState L n.sched.current (frameOf n.state.cpu v none a).cpu := by
    rw [hcpu, h.current_eq]
    exact h.own _ h.inv.current_live
  have hret := h.return_step left hent handler kb console hent.words (fun _ _ => rfl) hown hhandler
  rwa [hcpu, Function.update_eq_self] at hret

theorem exit_next (h : Refines L n p) (hcur : n.sched.current ≠ 0) :
    ∃ next, n.sched.nextAfter .zombie = some next := by
  obtain ⟨⟨st₀, ctx₀⟩, hexit⟩ := Option.isSome_iff_exists.1 (h.inv.exitCurrent_isSome hcur)
  obtain ⟨next, hnext, -⟩ := Option.map_eq_some_iff.1 hexit
  rw [pickNextOther, stateOf_setState] at hnext
  exact ⟨next, hnext⟩

/-- **A process that exits.** -/
theorem exit_step (h : Refines L n p) (left : Leftovers) {v a : Nat} {s : State}
    (hent : Entry L T n v s a)
    (handler : Node → Nat → Option (Node × Option Nat)) (hcur : n.sched.current ≠ 0)
    (hhandler : handler { n with state := s } a =
      n.sched.exitCurrent.map fun r => ({ n with state := s, sched := r.1 }, some r.2)) :
    ∃ n', n.trap L T v left handler = some n' ∧ Refines L n' (p.switchFrom .zombie) := by
  obtain ⟨next, hnext⟩ := h.exit_next hcur
  obtain ⟨hlt, hne, hready⟩ := nextAfter_some h.inv.current_lt hnext
  obtain ⟨st', hexit', hsw, hctx⟩ := exitCurrent_of_some hnext
  have hexec : SchedOp.exit.exec n.sched = some (st', some st'.current) := by
    rw [SchedOp.exec, hexit', Option.map_some]
  have hok : SchedOp.exit.Allowed n.sched := hcur
  have hinv : st'.Inv := h.inv.step hok (exec_effect hexec)
  have hlive : n.sched.Live next := by
    rw [Sched.Live, hready]
    exact ⟨(by simp), (by simp)⟩
  obtain ⟨n₁, hn₁⟩ : ∃ n₁ : Node, n₁ = { n with state := s, sched := st' } := ⟨_, rfl⟩
  have hstate₁ : n₁.state = s := by rw [hn₁]
  rw [hexit', Option.map_some, ← hn₁] at hhandler
  have hsaved : Saved L n₁.state.mem next (n.sched.ctxOf next) (p.cpus next) := by
    refine (h.saved next hlive hne).congr fun x hx => ?_
    rw [hstate₁, hent.mem_eq x (hent.not_mem h.inv.current_lt hlt hne hx)]
  have hleave : (some (n.sched.ctxOf next)).elim (commonReturn (n₁.leave L left n.sched.current a))
      (schedSwitch (n₁.leave L left n.sched.current a)) =
        some ⟨p.cpus next, (n₁.leave L left n.sched.current a).mem⟩ := by
    rw [Option.elim_some, leave_switch hlt hne hsaved]
  refine ⟨_, trap_eq hent.interrupt_eq hent.rdi_eq (hent.lt_two_pow h.inv.current_lt) hhandler hleave,
    ?_⟩
  have hkeep : Refines L ⟨⟨n.state.cpu, (n₁.leave L left n.sched.current a).mem⟩, n.sched, n.keyboard,
      n.ticks, n.console⟩ p := by
    have hself : p = { p with keyboard := n.keyboard, ticks := n.ticks, console := n.console } := by
      rw [← h.keyboard_eq, ← h.ticks_eq, ← h.console_eq]
    rw [hself]
    exact h.keep _ _ _ fun i x hi hic hx =>
      h.leave_other hent (fun x _ => by rw [hstate₁]) hi hic hx
  rw [hn₁] at hkeep ⊢
  exact hkeep.switch hsw hinv (.inr rfl) hnext (fun i _ => by rw [hctx]) fun hv => by cases hv

/-! ## Starting and killing -/

/-- The frame that `start_process` builds. -/
def startFrame (pid : Nat) : InterruptFrame :=
  { rdi := pid, rip := userCodeVa pid, cs := userCode64Selector, rflags := 0x202
    userRsp := userStackTop pid, userSs := userDataSelector }

theorem cpu_startFrame (pid : Nat) : (startFrame pid).cpu = initialCpu pid := by
  ext r
  · cases r <;> rfl
  all_goals rfl

theorem ownState_initialCpu {pid : Nat} (hpid : pid ≠ 0) : OwnState L pid (initialCpu pid) := by
  rw [OwnState, if_neg hpid]
  exact ⟨rfl, by simp [initialCpu, Cpu.interruptFlag]⟩

theorem words_startFrame_lt {pid : Nat} (hpid : pid < maxProcesses) :
    ∀ w ∈ (startFrame pid).words, w < 2 ^ 64 := by
  rw [maxProcesses] at hpid
  intro w hw
  simp only [startFrame, InterruptFrame.words, userCodeVa, userStackTop, procBase, procStride,
    procStackOffset, userCode64Selector, userDataSelector, List.mem_cons, List.not_mem_nil,
    or_false] at hw
  omega

theorem initialFrame_mem {pid : Nat} (hpid : pid ≠ 0) :
    L.low pid ≤ initialFrame L.kstacks pid ∧
      initialFrame L.kstacks pid + interruptFrameSize ≤ L.top pid := by
  rw [L.low_eq hpid, L.top_eq hpid, initialFrame, interruptFrameSize, kstackSize]
  omega

theorem startProcess_eq (h : Refines L n p) (name : List UInt8) {pid : Nat} (hslot : n.sched.freeSlot = some pid) :
    ∃ st', n.sched.startProcess pid (userCodeVa pid) name = some st' ∧
      st'.ctxOf pid = initialFrame L.kstacks pid ∧
      n.startProcess name = some { n with
        sched := st'
        state := { n.state with
          mem := n.state.mem.storeWords (initialFrame L.kstacks pid) (startFrame pid).words } } := by
  obtain ⟨-, hlt, -⟩ := freeSlot_some hslot
  obtain ⟨st', hst'⟩ : ∃ st', n.sched.startProcess pid (userCodeVa pid) name = some st' :=
    ⟨_, if_pos hlt⟩
  have hctx : st'.ctxOf pid = initialFrame L.kstacks pid := by
    have hctxs : st'.ctxOf pid = if n.sched.freeSlot = some pid then
      initialFrame n.sched.kstacks pid else n.sched.ctxOf pid := congrFun (startProcess_loads hslot hst').ctx pid
    rw [hctxs, if_pos hslot, h.kstacks_eq]
  have hframe : st'.frames (st'.ctxOf pid) = some (startFrame pid) := by
    obtain rfl := Option.some.inj ((if_pos hlt).symm.trans hst')
    simp [ctxOf, startFrame]
  refine ⟨st', hst', hctx, ?_⟩
  simp only [Node.startProcess, hslot, hst', Option.map_some]
  rw [← ctxOf, hframe, Option.elim_some, hctx]

theorem start_step (h : Refines L n p) (name : List UInt8) (hcur : n.sched.current = 0) :
    ∃ n', n.startProcess name = some n' ∧ Refines L n' (p.exec (.start name)) := by
  have hfree : p.freeSlot = n.sched.freeSlot := by
    rw [Procs.freeSlot, Sched.freeSlot, h.states_eq]
  cases hslot : n.sched.freeSlot with
  | none =>
      refine ⟨n, by rw [Node.startProcess, hslot], ?_⟩
      rw [Procs.exec, hfree, hslot]
      exact h
  | some pid =>
      obtain ⟨hpos, hlt, hdead⟩ := freeSlot_some hslot
      have hpid : pid ≠ 0 := by omega
      obtain ⟨st', hst', hctx, hstart⟩ := h.startProcess_eq name hslot
      have hload := startProcess_loads hslot hst'
      have hexec : (SchedOp.start (userCodeVa pid) name).exec n.sched = some (st', none) := by
        simp only [SchedOp.exec, hslot, hst', Option.map_some]
      have hok : (SchedOp.start (userCodeVa pid) name).Allowed n.sched := hcur
      have heff := exec_effect hexec
      obtain ⟨hstate, hrsp0⟩ : st'.stateOf = Function.update n.sched.stateOf pid .ready ∧
          st'.rsp0 = n.sched.rsp0 := by
        obtain rfl := Option.some.inj ((if_pos hlt).symm.trans hst')
        refine ⟨?_, rfl⟩
        funext j
        by_cases hj : j = pid
        · simp [stateOf, hj]
        · simp [stateOf, hj]
      have hctxs : ∀ i, st'.ctxOf i = if n.sched.freeSlot = some i then
          initialFrame n.sched.kstacks i else n.sched.ctxOf i := congrFun hload.ctx
      have htops : ∀ i, st'.topOf i = if n.sched.freeSlot = some i then
          n.sched.kstackTop i else n.sched.topOf i := congrFun hload.top
      obtain ⟨hlow, htop⟩ := initialFrame_mem (L := L) hpid
      obtain ⟨mem, hmem⟩ : ∃ mem, mem = n.state.mem.storeWords (initialFrame L.kstacks pid)
        (startFrame pid).words := ⟨_, rfl⟩
      have hother : ∀ i x, i < maxProcesses → i ≠ pid → L.InStack i x → n.state.mem x = mem x := by
        intro i x hi hip hx
        rw [hmem, ByteMem.storeWords_of_not_mem]
        by_contra hin
        rw [length_words] at hin
        exact L.not_inStack hi hlt hip hx ⟨by omega, by omega⟩
      refine ⟨_, hstart, ?_⟩
      have hcur' : st'.current = n.sched.current := heff.current_eq
      rw [Procs.exec, hfree, hslot, Option.elim_some, h.states_eq, ← hstate, ← hmem]
      refine h.retable (h.inv.step hok heff) hcur' hrsp0 hload.kstacks_eq ?_ fun i hi => ?_
      · rw [Function.update_of_ne (by omega)]
      by_cases hip : i = pid
      · subst hip
        rw [Function.update_self, htops, if_pos hslot, kstackTop, h.kstacks_eq, L.top_eq hpid]
        refine ⟨hlt, rfl, ownState_initialCpu hpid, fun _ => ?_⟩
        refine ⟨startFrame i, ?_, cpu_startFrame i, by rw [hctx]; exact hlow, by rw [hctx]; exact htop⟩
        rw [hctx, hmem]
        exact ByteMem.words_storeWords (words_startFrame_lt hlt)
      · have hold : n.sched.Live i := by
          rwa [Sched.Live, hstate, Function.update_of_ne hip] at hi
        have hslot' : n.sched.freeSlot ≠ some i := by
          rw [hslot]
          exact fun heq => hip (Option.some.inj heq).symm
        rw [Function.update_of_ne hip, htops, if_neg hslot', hctxs, if_neg hslot']
        refine ⟨h.live_lt i hold, h.tops i hold, h.own i hold, fun hic => ?_⟩
        exact (h.saved i hold hic).congr fun x hx => hother i x (h.live_lt i hold) hip hx

theorem kill_step (h : Refines L n p) (pid : Nat) (hcur : n.sched.current = 0) :
    Refines L { n with sched := (n.sched.kill pid).2 } (p.exec (.kill pid)) := by
  have hok : (SchedOp.kill pid).Allowed n.sched := hcur
  have hexec : (SchedOp.kill pid).exec n.sched = some ((n.sched.kill pid).2, none) := rfl
  have hinv := h.inv.step hok (exec_effect hexec)
  rw [Procs.exec]
  by_cases hbad : pid = 0 ∨ pid ≥ maxProcesses ∨ p.states pid = .zombie ∨ p.states pid = .unused
  · have hsame : (n.sched.kill pid).2 = n.sched := by
      rw [h.states_eq] at hbad
      unfold kill
      by_cases h1 : pid = 0 ∨ pid ≥ maxProcesses
      · rw [if_pos h1]
      · rw [if_neg h1, if_pos (by tauto)]
    rw [if_pos hbad, hsame]
    exact h
  · have hkill : (n.sched.kill pid).2 = n.sched.setState pid .zombie := by
      rw [h.states_eq] at hbad
      unfold kill
      rw [if_neg (by tauto), if_neg (by tauto)]
    have hstate : (n.sched.kill pid).2.stateOf = Function.update n.sched.stateOf pid .zombie := by
      rw [hkill, stateOf_setState]
    rw [if_neg hbad, h.states_eq, ← hstate]
    refine h.retable hinv (by rw [hkill]; rfl) (by rw [hkill]; rfl) (by rw [hkill]; rfl) rfl
      fun i hi => ?_
    have hold : n.sched.Live i := by
      rw [Sched.Live, hstate] at hi
      by_cases hip : i = pid
      · rw [hip, Function.update_self] at hi
        exact absurd rfl hi.2
      · rwa [Function.update_of_ne hip] at hi
    rw [hkill, topOf_setState, ctxOf_setState]
    exact ⟨h.live_lt i hold, h.tops i hold, h.own i hold, h.saved i hold⟩

/-! ## Steps and runs -/

theorem isrErrorCode_irq (line : Nat) : isrErrorCode (irqBase + line) = false := by
  rw [isrErrorCode, irqBase]
  simp
  omega

theorem irqHandlers_eq_none {line : Nat} (hline : line < 16) (h0 : line ≠ 0) (h1 : line ≠ 1) :
    irqHandlers line = some none := by
  rw [irqHandlers, List.getElem?_append_right (by simp; omega), List.getElem?_replicate, if_pos]
  simp
  omega

theorem irq_step (h : Refines L n p) (left : Leftovers) {line : Nat} (hline : line < 16) (code : UInt8) :
    ∃ n', n.exec L T (.irq line code left) = some n' ∧ Refines L n' (p.exec (.irq line code left)) := by
  obtain ⟨s, a, hent⟩ := h.enter (T := T) (stubOf_vector (.irq ⟨line, hline⟩)) (by simp) (isrErrorCode_irq line)
  have hvec : s.mem.load (a + frameVector) 8 = irqBase + line := load_vector hent.words
  have hsub : ∀ b : Nat, b + line < 2 ^ 64 → Word.sub 64 (b + line) b = line := fun b hb => by
    rw [Word.sub_of_le (Nat.le_add_right b line) hb, Nat.add_sub_cancel_left]
  have hirq : Word.sub 64 (irqBase + line) irqBase % 2 ^ 8 = line := by
    rw [hsub irqBase (by rw [irqBase]; omega), Nat.mod_eq_of_lt (by omega)]
  have hhandle : ∀ m : Node, m.state = s → m.handleIrq a code = m.dispatchIrq a code line := by
    intro m hm
    rw [Node.handleIrq, hm, hvec, hirq]
  rw [Node.exec]
  by_cases h0 : line = 0
  · have hhandler : Node.handleIrq { n with state := s } a code =
        some ({ n with state := s, sched := (n.sched.preempt a).1, ticks := n.ticks + 1 },
          (n.sched.preempt a).2) := by
      rw [hhandle _ rfl, h0]
      rfl
    obtain ⟨n', hn', href⟩ :=
      h.preempt_step left hent (fun n frame => n.handleIrq frame code) (n.ticks + 1) hhandler
    refine ⟨n', hn', ?_⟩
    rw [Procs.exec, if_pos h0, h.ticks_eq]
    exact href
  by_cases h1 : line = 1
  · have hhandler : Node.handleIrq { n with state := s } a code =
        some ({ n with state := s, keyboard := n.keyboard.irqHandler code, console := n.console },
          none) := by
      rw [hhandle _ rfl, h1]
      rfl
    obtain ⟨n', hn', href⟩ :=
      h.return_same left hent (fun n frame => n.handleIrq frame code) _ _ hhandler
    refine ⟨n', hn', ?_⟩
    rw [Procs.exec, if_neg h0, if_pos h1, h.keyboard_eq]
    rwa [← h.console_eq] at href
  · have hhandler : Node.handleIrq { n with state := s } a code =
        some ({ n with state := s, keyboard := n.keyboard, console := n.console }, none) := by
      rw [hhandle _ rfl, Node.dispatchIrq, irqHandlers_eq_none hline h0 h1]
    obtain ⟨n', hn', href⟩ :=
      h.return_same left hent (fun n frame => n.handleIrq frame code) _ _ hhandler
    refine ⟨n', hn', ?_⟩
    rw [Procs.exec, if_neg h0, if_neg h1]
    rwa [← h.keyboard_eq, ← h.console_eq] at href

theorem answer_step (h : Refines L n p) (left : Leftovers) {v a : Nat} {s : State}
    (hent : Entry L T n v s a) (handler : Node → Nat → Option (Node × Option Nat)) {w : Nat}
    (hw : w < 2 ^ 64) (kb : Keyboard) (hcur : n.sched.current ≠ 0)
    (hhandler : handler { n with state := s } a =
      some (Node.setFrameRax { n with state := s, keyboard := kb } a w, none)) :
    ∃ n', n.trap L T v left handler = some n' ∧
      Refines L n' ({ p with keyboard := kb }.answer (BitVec.ofNat 64 w)) := by
  obtain ⟨f, hf⟩ : ∃ f : InterruptFrame, f = { frameOf n.state.cpu v none a with rax := w } := ⟨_, rfl⟩
  have hcpu : f.cpu = (p.cpus p.current).set .rax (BitVec.ofNat 64 w) := by
    rw [h.current_eq, ← h.cpu_eq, ← cpu_frameOf n.state.cpu v none a, hf]
    ext r
    · cases r <;> rfl
    all_goals rfl
  have hown : OwnState L n.sched.current f.cpu := by
    have hold := h.own _ h.inv.current_live
    rw [OwnState, if_neg hcur] at hold ⊢
    rw [hcpu, h.current_eq]
    exact hold
  have hret := h.return_step left hent handler kb n.console (hf ▸ words_setRax hent.words hw)
    (fun x hx => ByteMem.store_of_not_mem (by rw [frameRax, interruptFrameSize] at *; omega)) hown hhandler
  rw [hcpu, ← h.console_eq] at hret
  exact hret

theorem syscall_step (h : Refines L n p) (left : Leftovers) (hcur : n.sched.current ≠ 0) :
    ∃ n', n.exec L T (.syscall left) = some n' ∧ Refines L n' (p.exec (.syscall left)) := by
  have hstub : stubOf 0x80 = some .syscall := rfl
  obtain ⟨s, a, hent⟩ := h.enter (T := T) hstub (by simp) rfl
  have hrax : s.mem.load (a + frameRax) 8 = ((p.cpus p.current).regs .rax).toNat := by
    rw [load_rax hent.words, h.current_eq, ← h.cpu_eq]
    rfl
  have hrdi : s.mem.load (a + frameRdi) 8 = ((p.cpus p.current).regs .rdi).toNat := by
    rw [load_rdi hent.words, h.current_eq, ← h.cpu_eq]
    rfl
  have hmax : BitVec.ofNat 64 (2 ^ 64 - 1) = (-1 : Quad) := rfl
  rw [Node.exec, Procs.exec]
  by_cases hputc : ((p.cpus p.current).regs .rax).toNat = sysPutc
  · have hhandler : Node.handleSyscall { n with state := s } a =
        some ({ n with
          state := s, keyboard := n.keyboard
          console := n.console ++ [(n.sched.current,
            UInt8.ofNat ((p.cpus p.current).regs .rdi).toNat)] }, none) := by
      simp only [Node.handleSyscall, hrax, hrdi, if_pos hputc]
    obtain ⟨n', hn', href⟩ := h.return_same left hent Node.handleSyscall _ _ hhandler
    refine ⟨n', hn', ?_⟩
    rw [Procs.syscall, if_pos hputc]
    rwa [← h.keyboard_eq, ← h.console_eq, ← h.current_eq] at href
  by_cases hgetc : ((p.cpus p.current).regs .rax).toNat = sysGetc
  · have hchar : n.keyboard.pollChar.1.elim (2 ^ 64 - 1) Char.toNat < 2 ^ 64 := by
      cases n.keyboard.pollChar.1 with
      | none => decide
      | some ch => exact lt_trans ch.val.toNat_lt (by decide)
    have hhandler : Node.handleSyscall { n with state := s } a =
        some (Node.setFrameRax { n with state := s, keyboard := n.keyboard.pollChar.2 } a
          (n.keyboard.pollChar.1.elim (2 ^ 64 - 1) Char.toNat), none) := by
      simp only [Node.handleSyscall, hrax, if_neg hputc, if_pos hgetc]
    obtain ⟨n', hn', href⟩ := h.answer_step left hent Node.handleSyscall hchar _ hcur hhandler
    refine ⟨n', hn', ?_⟩
    have hword : BitVec.ofNat 64 (n.keyboard.pollChar.1.elim (2 ^ 64 - 1) Char.toNat) =
        n.keyboard.pollChar.1.elim (-1) fun ch => BitVec.ofNat 64 ch.toNat := by
      cases n.keyboard.pollChar.1 <;> rfl
    rw [hword] at href
    rw [Procs.syscall, if_neg hputc, if_pos hgetc, h.keyboard_eq]
    exact href
  by_cases hexit : ((p.cpus p.current).regs .rax).toNat = sysExit
  · have hhandler : Node.handleSyscall { n with state := s } a =
        n.sched.exitCurrent.map fun r => ({ n with state := s, sched := r.1 }, some r.2) := by
      simp only [Node.handleSyscall, hrax, if_neg hputc, if_neg hgetc, if_pos hexit]
    obtain ⟨n', hn', href⟩ := h.exit_step left hent Node.handleSyscall hcur hhandler
    refine ⟨n', hn', ?_⟩
    rw [Procs.syscall, if_neg hputc, if_neg hgetc, if_pos hexit]
    exact href
  have hself : p = { p with keyboard := n.keyboard } := by rw [← h.keyboard_eq]
  by_cases hgetpid : ((p.cpus p.current).regs .rax).toNat = sysGetpid
  · have hlt := h.inv.current_lt
    have hpid : n.sched.pidOf n.sched.current = n.sched.current :=
      h.inv.pid_eq _ h.inv.current_live
    have hhandler : Node.handleSyscall { n with state := s } a =
        some (Node.setFrameRax { n with state := s, keyboard := n.keyboard } a n.sched.current,
          none) := by
      simp only [Node.handleSyscall, hrax, if_neg hputc, if_neg hgetc, if_neg hexit, if_pos hgetpid, hpid]
    obtain ⟨n', hn', href⟩ := h.answer_step left hent Node.handleSyscall
      (lt_trans hlt (by decide)) _ hcur hhandler
    refine ⟨n', hn', ?_⟩
    rw [Procs.syscall, if_neg hputc, if_neg hgetc, if_neg hexit, if_pos hgetpid, h.current_eq]
    rwa [← hself] at href
  by_cases hyield : ((p.cpus p.current).regs .rax).toNat = sysYield
  · have hhandler : Node.handleSyscall { n with state := s } a =
        some ({ n with state := s, sched := (n.sched.preempt a).1, ticks := n.ticks },
          (n.sched.preempt a).2) := by
      simp only [Node.handleSyscall, hrax, if_neg hputc, if_neg hgetc, if_neg hexit, if_neg hgetpid,
        if_pos hyield, yieldNow]
    obtain ⟨n', hn', href⟩ := h.preempt_step left hent Node.handleSyscall _ hhandler
    refine ⟨n', hn', ?_⟩
    rw [Procs.syscall, if_neg hputc, if_neg hgetc, if_neg hexit, if_neg hgetpid, if_pos hyield]
    rwa [← h.ticks_eq] at href
  · have hhandler : Node.handleSyscall { n with state := s } a =
        some (Node.setFrameRax { n with state := s, keyboard := n.keyboard } a (2 ^ 64 - 1), none) := by
      simp only [Node.handleSyscall, hrax, if_neg hputc, if_neg hgetc, if_neg hexit, if_neg hgetpid,
        if_neg hyield]
    obtain ⟨n', hn', href⟩ := h.answer_step left hent Node.handleSyscall (by decide) _ hcur hhandler
    refine ⟨n', hn', ?_⟩
    rw [Procs.syscall, if_neg hputc, if_neg hgetc, if_neg hexit, if_neg hgetpid, if_neg hyield]
    rwa [← hself, hmax] at href

/-- **The step.** No allowed event fails, and each does to the node what it does to the processes. -/
theorem step (h : Refines L n p) {ev : Event} (hev : ev.Allowed L n) :
    ∃ n', n.exec L T ev = some n' ∧ Refines L n' (p.exec ev) := by
  cases ev with
  | own cpu mem =>
      have hself : p.exec (.own cpu mem) = { p with
          cpus := Function.update p.cpus p.current cpu, keyboard := n.keyboard, ticks := n.ticks
          console := n.console } := by
        rw [Procs.exec, ← h.keyboard_eq, ← h.ticks_eq, ← h.console_eq]
      refine ⟨_, rfl, ?_⟩
      rw [hself]
      refine h.update _ _ _ hev fun i x hi hic hx => ?_
      exact (if_pos ⟨i, hi, hx, fun h0 => by rwa [h0] at hic⟩).symm
  | irq line code left => exact h.irq_step left hev.1 code
  | syscall left => exact h.syscall_step left hev
  | start name => exact h.start_step name hev
  | kill pid => exact ⟨_, rfl, h.kill_step pid hev⟩
  | poll =>
      have hself : p.exec .poll = { p with
          keyboard := n.keyboard.pollChar.2, ticks := n.ticks, console := n.console } := by
        rw [Procs.exec, ← h.keyboard_eq, ← h.ticks_eq, ← h.console_eq]
      refine ⟨_, rfl, ?_⟩
      rw [hself]
      exact @keep L n p h n.state.mem _ _ _ fun _ _ _ _ _ => rfl

end Refines

/-! ## The processes' memory -/

theorem returnThrough_mem {s s' : State} {r : Reg} (h : (run s (returnThrough r)).map iretq = some s') :
    s'.mem = s.mem := by
  obtain ⟨s₁, hrun, rfl⟩ := Option.map_eq_some_iff.1 h
  change s₁.mem = s.mem
  refine run_mem (fun i hi src => ?_) hrun
  simp only [returnThrough, popFrame, List.mem_append, List.mem_singleton, List.mem_map] at hi
  rcases hi with (rfl | ⟨r, -, rfl⟩) | rfl <;> simp

theorem handleIrq_mem {n n' : Node} {frame : Nat} {code : UInt8} {out : Option Nat}
    (h : n.handleIrq frame code = some (n', out)) : n'.state.mem = n.state.mem := by
  rw [Node.handleIrq, Node.dispatchIrq] at h
  split at h
  · cases h
  all_goals
    obtain ⟨rfl, -⟩ := Prod.mk.inj (Option.some.inj h)
    rfl

/-- Of the memory, `handle_syscall` writes the `rax` of its frame. -/
theorem handleSyscall_mem {n n' : Node} {frame x : Nat} {out : Option Nat}
    (h : n.handleSyscall frame = some (n', out)) (hx : x < frame ∨ frame + interruptFrameSize ≤ x) :
    n'.state.mem x = n.state.mem x := by
  have hset : ∀ m : Node, ∀ v, (m.setFrameRax frame v).state.mem x = m.state.mem x := fun m v =>
    ByteMem.store_of_not_mem (by rw [frameRax, interruptFrameSize] at *; omega)
  simp only [Node.handleSyscall] at h
  split_ifs at h
  · obtain ⟨rfl, -⟩ := Prod.mk.inj (Option.some.inj h)
    rfl
  · obtain ⟨rfl, -⟩ := Prod.mk.inj (Option.some.inj h)
    exact hset _ _
  · obtain ⟨r, -, hr⟩ := Option.map_eq_some_iff.1 h
    obtain ⟨rfl, -⟩ := Prod.mk.inj hr
    rfl
  · obtain ⟨rfl, -⟩ := Prod.mk.inj (Option.some.inj h)
    exact hset _ _
  · obtain ⟨rfl, -⟩ := Prod.mk.inj (Option.some.inj h)
    rfl
  · obtain ⟨rfl, -⟩ := Prod.mk.inj (Option.some.inj h)
    exact hset _ _

theorem leave_userMem {L : ProcLayout} {left : Leftovers} {n : Node} {cur frame x : Nat} (hx : ProcLayout.InUser x) :
    (n.leave L left cur frame).mem x = n.state.mem x :=
  if_pos (.inr hx)

theorem trap_userMem {L : ProcLayout} {T : Text} {n n' : Node} {left : Leftovers} {v a x : Nat} {s : State}
    (handler : Node → Nat → Option (Node × Option Nat)) (hcur : n.sched.current < maxProcesses)
    (hent : Entry L T n v s a)
    (hhandler : ∀ n₁ out, handler { n with state := s } a = some (n₁, out) → n₁.state.mem x = s.mem x)
    (hx : ProcLayout.InUser x) (h : n.trap L T v left handler = some n') :
    n'.state.mem x = n.state.mem x := by
  have haddr : (s.cpu.regs .rdi).toNat = a := by
    rw [hent.rdi_eq, BitVec.toNat_ofNat, Nat.mod_eq_of_lt (hent.lt_two_pow hcur)]
  simp only [Node.trap, hent.interrupt_eq, Option.bind_eq_bind, Option.bind_some, haddr,
    Option.bind_eq_some_iff] at h
  obtain ⟨⟨n₁, out⟩, hn₁, s'', hret, hn'⟩ := h
  obtain rfl := Option.some.inj hn'
  have hmem : s''.mem = (n₁.leave L left n.sched.current a).mem := by
    cases out with
    | none =>
        rw [Option.elim_none, commonReturn] at hret
        exact returnThrough_mem hret
    | some ctx =>
        rw [Option.elim_some, schedSwitch] at hret
        have hsame := returnThrough_mem hret
        exact hsame
  have htop := hent.le_top.trans (L.top_le hcur)
  have hbase := hx.1
  rw [hmem, leave_userMem hx, hhandler n₁ out hn₁, hent.mem_eq x (by omega)]

/-- **Interrupts, system calls and the shell's calls leave the processes' memory as it is.** -/
theorem Refines.exec_userMem {L : ProcLayout} {T : Text} {n n' : Node} {p : Procs} {ev : Event} {x : Nat}
    (h : Refines L n p) (hev : ev.Allowed L n) (hown : ∀ cpu mem, ev ≠ .own cpu mem)
    (hexec : n.exec L T ev = some n') (hx : ProcLayout.InUser x) : n'.state.mem x = n.state.mem x := by
  cases ev with
  | own cpu mem => exact absurd rfl (hown cpu mem)
  | irq line code left =>
      obtain ⟨s, a, hent⟩ := h.enter (T := T) (stubOf_vector (.irq ⟨line, hev.1⟩)) (by simp)
        (isrErrorCode_irq line)
      exact trap_userMem (fun n frame => n.handleIrq frame code) h.inv.current_lt hent
        (fun n₁ out hn₁ => congrFun (handleIrq_mem hn₁) x) hx hexec
  | syscall left =>
      have hstub : stubOf 0x80 = some .syscall := rfl
      obtain ⟨s, a, hent⟩ := h.enter (T := T) hstub (by simp) rfl
      have htop := hent.le_top.trans (L.top_le h.inv.current_lt)
      have hbase := hx.1
      exact trap_userMem Node.handleSyscall h.inv.current_lt hent
        (fun n₁ out hn₁ => handleSyscall_mem hn₁ (by omega)) hx hexec
  | start name =>
      rw [Node.exec] at hexec
      cases hslot : n.sched.freeSlot with
      | none =>
          rw [Node.startProcess, hslot] at hexec
          obtain rfl := Option.some.inj hexec
          rfl
      | some pid =>
          obtain ⟨hpos, hlt, -⟩ := freeSlot_some hslot
          obtain ⟨st', -, -, hstart⟩ := h.startProcess_eq name hslot
          obtain rfl := Option.some.inj (hstart.symm.trans hexec)
          obtain ⟨-, htop⟩ := initialFrame_mem (L := L) (by omega : pid ≠ 0)
          have hle := htop.trans (L.top_le hlt)
          have hbase := hx.1
          refine ByteMem.storeWords_of_not_mem (.inr ?_)
          rw [length_words]
          omega
  | kill pid =>
      obtain rfl := Option.some.inj hexec
      rfl
  | poll =>
      obtain rfl := Option.some.inj hexec
      rfl

/-- The machine when `init_idle` returns: the shell runs, and nothing else does. -/
def Node.boot (L : ProcLayout) (s : State) (kb : Keyboard) (ticks rsp0 : Nat) : Node :=
  ⟨s, (Sched.reset L.kstacks rsp0).initIdle (L.top 0), kb, ticks, []⟩

/-- The processes at that time. -/
def Procs.boot (c : Cpu) (kb : Keyboard) (ticks : Nat) : Procs :=
  ⟨fun _ => c, Function.update (fun _ => .unused) 0 .ready, 0, kb, ticks, []⟩

namespace Refines

variable {L : ProcLayout} {T : Text} {n : Node} {p : Procs}

theorem boot {s : State} (kb : Keyboard) (ticks rsp0 : Nat) (hs : OwnState L 0 s.cpu) :
    Refines L (Node.boot L s kb ticks rsp0) (Procs.boot s.cpu kb ticks) := by
  have hctx := @CtxInv.init L.kstacks rsp0 (L.top 0)
  have hstate : ((Sched.reset L.kstacks rsp0).initIdle (L.top 0)).stateOf =
      Function.update (fun _ => .unused) 0 .ready := by
    funext i
    by_cases hi : i = 0
    · simp [stateOf, initIdle, hi]
    · simp [stateOf, initIdle, reset, Process.unused, hi]
  have hlive : ∀ i, ((Sched.reset L.kstacks rsp0).initIdle (L.top 0)).Live i → i = 0 := by
    intro i hi
    by_contra hi0
    exact hi.1 (by rw [hstate, Function.update_of_ne hi0])
  exact
    { inv := hctx.inv
      kstacks_eq := rfl
      live_lt := hctx.live_lt
      tops := hctx.tops
      rsp0_eq := fun hne => absurd rfl hne
      states_eq := hstate.symm
      current_eq := rfl
      keyboard_eq := rfl
      ticks_eq := rfl
      console_eq := rfl
      own := fun i hi => hlive i hi ▸ hs
      cpu_eq := rfl
      saved := fun i hi hic => absurd (hlive i hi) hic }

/-- **The run.** -/
theorem run (h : Refines L n p) {evs : List Event} {n' : Node}
    (hrun : Runs.run (fun n ev => ev.Allowed L n) (Node.exec L T) evs n = some n') :
    Refines L n' (evs.foldl Procs.exec p) := by
  induction evs generalizing n p with
  | nil => exact Option.some.inj hrun ▸ h
  | cons ev evs ih =>
      rw [Runs.run] at hrun
      split_ifs at hrun with hev
      obtain ⟨n₁, hexec, href⟩ := h.step (T := T) hev
      rw [hexec, Option.bind_some] at hrun
      exact ih href hrun

end Refines

/-- **Every process has the processor to itself.** Let the shell run, and let anything happen to the
machine in any order: instructions of whatever program is on the processor, interrupts between any two
of them, system calls, processes being started and killed. Then no event fails, and the machine is
where the same events bring processes that have a processor each: the one that runs is in the
registers, every other live one in the frame on its kernel stack that its `ctx` points to. -/
theorem processes_isolated (L : ProcLayout) (T : Text) {s : State} (kb : Keyboard) (ticks rsp0 : Nat)
    (hs : OwnState L 0 s.cpu) {evs : List Event} {n : Node}
    (hrun : Runs.run (fun n ev => ev.Allowed L n) (Node.exec L T) evs (Node.boot L s kb ticks rsp0) =
      some n) :
    ∃ p, p = evs.foldl Procs.exec (Procs.boot s.cpu kb ticks) ∧
      n.sched.current = p.current ∧ n.sched.stateOf = p.states ∧ n.state.cpu = p.cpus p.current ∧
      (∀ i, n.sched.Live i → i ≠ p.current → Saved L n.state.mem i (n.sched.ctxOf i) (p.cpus i)) ∧
      n.console = p.console ∧ n.keyboard = p.keyboard ∧ n.ticks = p.ticks ∧
      ∀ ev : Event, ev.Allowed L n → (n.exec L T ev).isSome := by
  have href := (Refines.boot kb ticks rsp0 hs).run hrun
  refine ⟨_, rfl, href.current_eq.symm, href.states_eq.symm, ?_, ?_, href.console_eq.symm,
    href.keyboard_eq.symm, href.ticks_eq.symm, fun ev hev => ?_⟩
  · rw [href.cpu_eq, href.current_eq]
  · rw [href.current_eq]
    exact href.saved
  · obtain ⟨n', hexec, -⟩ := href.step (T := T) hev
    rw [hexec]
    rfl

/-- Stacks above 3 and 4 MiB. -/
def sampleLayout : ProcLayout where
  kstacks := 0x400000
  bootStack := 0x300000
  kstacks_le := by decide
  bootStack_le := by decide
  disjoint := by decide

/-- Each entry point at the address that is its vector. -/
def sampleText : Text where
  addr e := BitVec.ofNat 64 e.vector
  code q := (stubOf q.toNat).elim [] Stub.code
  code_addr e := by
    have hlt : e.vector < 2 ^ 64 := by
      cases e with
      | isr num => exact lt_trans num.isLt (by decide)
      | irq num => exact lt_trans (Nat.add_lt_add_left num.isLt irqBase) (by decide)
      | syscall => decide
    rw [BitVec.toNat_ofNat, Nat.mod_eq_of_lt hlt, stubOf_vector, Option.elim_some]

/-- The shell with interrupts enabled. -/
def sampleShell : State where
  cpu := ⟨fun r => if r = .rsp then 0x307000 else 0, 0x100000, 0x202, gdtCode64, 0x10⟩
  mem _ := 0

/-- The shell starts a process, and the next tick enters it. -/
theorem processes_isolated_small :
    ∃ n, Runs.run (fun n ev => ev.Allowed sampleLayout n) (Node.exec sampleLayout sampleText)
        [.start [112], .irq 0 0 ⟨fun _ => 7, 0, fun _ => 7⟩]
        (Node.boot sampleLayout sampleShell Keyboard.initial 100 0) = some n ∧
      n.sched.current = 1 ∧ n.state.cpu = initialCpu 1 ∧ n.ticks = 101 := by
  have hs : OwnState sampleLayout 0 sampleShell.cpu := by decide
  have hboot := Refines.boot (L := sampleLayout) Keyboard.initial 100 0 hs
  have hstart : Event.Allowed sampleLayout
      (Node.boot sampleLayout sampleShell Keyboard.initial 100 0) (.start [112]) := rfl
  obtain ⟨n₁, hn₁, href₁⟩ := hboot.step (T := sampleText) hstart
  have htick : Event.Allowed sampleLayout n₁ (.irq 0 0 ⟨fun _ => 7, 0, fun _ => 7⟩) := by
    refine ⟨by decide, ?_⟩
    rw [href₁.cpu_eq, ← href₁.current_eq]
    decide
  obtain ⟨n₂, hn₂, -⟩ := href₁.step (T := sampleText) htick
  have hrun : Runs.run (fun n ev => ev.Allowed sampleLayout n) (Node.exec sampleLayout sampleText)
      [.start [112], .irq 0 0 ⟨fun _ => 7, 0, fun _ => 7⟩]
      (Node.boot sampleLayout sampleShell Keyboard.initial 100 0) = some n₂ := by
    rw [Runs.run, if_pos hstart, hn₁, Option.bind_some, Runs.run, if_pos htick, hn₂, Option.bind_some,
      Runs.run]
  obtain ⟨p, rfl, hcur, -, hcpu, -, -, -, hticks, -⟩ :=
    processes_isolated sampleLayout sampleText Keyboard.initial 100 0 hs hrun
  exact ⟨n₂, hrun, hcur, hcpu, hticks⟩

end Rolnix
