import Rolnix.Lib.Cyclic
import Rolnix.Lib.Word
import Mathlib.Logic.Function.Basic

/-!
# The scheduler

`sched.rs`: a table of sixteen processes, switched round-robin by the timer tick, by `SYS_YIELD`
and by `SYS_EXIT`. Process 0 is the shell. A switch never returns: it loads `TSS.rsp0` with the
next process's kernel stack and resumes the interrupt frame saved for it. Here an operation that
may switch gives the new state and the address of the frame it resumes, if it switches.

The private kernel stacks are one static; only the frame `start_process` writes at the top of one
is modelled, not what interrupt entries push on it later. Interrupts are off in all of these
functions, so each is one step.
-/

namespace Rolnix

/-- Maximum number of processes. -/
def maxProcesses : Nat := 16

/-- Per-process ring-0 stack size. -/
def kstackSize : Nat := 16 * 1024

/-- Start of the per-process virtual region. -/
def procBase : Nat := 0x80000000

/-- Address-space stride between two processes' regions. -/
def procStride : Nat := 2 * 1024 * 1024

/-- Offset of the user stack within a process's region. -/
def procStackOffset : Nat := 1024 * 1024

/-- The first byte of process `pid`'s region. -/
def userCodeVa (pid : Nat) : Nat := procBase + pid * procStride

/-- Top of process `pid`'s user stack. -/
def userStackTop (pid : Nat) : Nat := procBase + pid * procStride + procStackOffset + 4096

def userCode64Selector : Nat := 0x33
def userDataSelector : Nat := 0x3b

/-- The register frame the interrupt stubs push: 23 words. -/
structure InterruptFrame where
  rsp : Nat := 0
  r15 : Nat := 0
  r14 : Nat := 0
  r13 : Nat := 0
  r12 : Nat := 0
  r11 : Nat := 0
  r10 : Nat := 0
  r9 : Nat := 0
  r8 : Nat := 0
  rbp : Nat := 0
  rdi : Nat := 0
  rsi : Nat := 0
  rdx : Nat := 0
  rcx : Nat := 0
  rbx : Nat := 0
  rax : Nat := 0
  vector : Nat := 0
  errorCode : Nat := 0
  rip : Nat
  cs : Nat
  rflags : Nat
  userRsp : Nat
  userSs : Nat
  deriving DecidableEq, Repr

/-- `size_of::<InterruptFrame>()`. -/
def interruptFrameSize : Nat := 23 * 8

/-- The state of a process slot. -/
inductive ProcState
  | unused | ready | running | zombie
  deriving DecidableEq, Repr

/-- One slot of the process table. -/
structure Process where
  pid : Nat
  state : ProcState
  /-- Top of the private ring-0 stack. -/
  kernelStackTop : Nat
  /-- Address of the saved or initial frame on that stack. -/
  ctx : Nat
  name : List UInt8
  deriving DecidableEq, Repr

/-- The `UNUSED` slot. -/
def Process.unused : Process := ⟨0, .unused, 0, 0, List.replicate 16 0⟩

/-- The statics of the scheduler, and the field of the TSS that it writes. -/
structure Sched where
  /-- The process table; the slots are the indices below `maxProcesses`. -/
  processes : Nat → Process
  current : Nat
  scheduling : Bool
  /-- Address of `KSTACKS`. -/
  kstacks : Nat
  /-- The initial frames written to the kernel stacks, by address. -/
  frames : Nat → Option InterruptFrame
  rsp0 : Nat

namespace Sched

/-- The statics as the loader leaves them. -/
def reset (kstacks rsp0 : Nat) : Sched where
  processes _ := .unused
  current := 0
  scheduling := false
  kstacks := kstacks
  frames _ := none
  rsp0 := rsp0

def stateOf (st : Sched) (i : Nat) : ProcState := (st.processes i).state

/-- `(*table.add(i)).state = v`. -/
def setState (st : Sched) (i : Nat) (v : ProcState) : Sched :=
  { st with processes := Function.update st.processes i { st.processes i with state := v } }

/-- `(*table.add(i)).ctx = frame`. -/
def setCtx (st : Sched) (i frame : Nat) : Sched :=
  { st with processes := Function.update st.processes i { st.processes i with ctx := frame } }

/-- Register the boot flow as process 0 and enable the scheduler. -/
def initIdle (st : Sched) (kernelStackTop : Nat) : Sched :=
  { st with
    processes := Function.update st.processes 0
      ⟨0, .ready, kernelStackTop, 0, [105, 100, 108, 101] ++ List.replicate 12 0⟩
    current := 0
    scheduling := true }

/-- First slot that is not holding a live process. -/
def freeSlot (st : Sched) : Option Nat :=
  (List.range' 1 (maxProcesses - 1)).find? fun i =>
    st.stateOf i = .unused ∨ st.stateOf i = .zombie

/-- The slot's name: at most fifteen bytes, padded with zeros. -/
def procName (name : List UInt8) : List UInt8 :=
  name.take 15 ++ List.replicate (16 - (name.take 15).length) 0

/-- The top of the kernel stack of a slot. -/
def kstackTop (st : Sched) (slot : Nat) : Nat := st.kstacks + slot * kstackSize + kstackSize

/-- Register a ring-3 process; `none` is the panic of indexing past the table. -/
def startProcess (st : Sched) (pid entry : Nat) (name : List UInt8) : Option Sched :=
  let stackTop := st.kstackTop pid
  let frameAddr := (stackTop - interruptFrameSize) / 16 * 16
  let frame : InterruptFrame :=
    { rdi := pid, rip := entry, cs := userCode64Selector, rflags := 0x202
      userRsp := userStackTop pid, userSs := userDataSelector }
  if pid < maxProcesses then
    some { st with
      frames := Function.update st.frames frameAddr (some frame)
      processes := Function.update st.processes pid
        ⟨pid, .ready, stackTop, frameAddr, procName name⟩ }
  else none

/-- Mark `pid` for termination; `false` for pid 0, unknown pids and dead ones. -/
def kill (st : Sched) (pid : Nat) : Bool × Sched :=
  if pid = 0 ∨ pid ≥ maxProcesses then (false, st)
  else if st.stateOf pid = .zombie ∨ st.stateOf pid = .unused then (false, st)
  else (true, st.setState pid .zombie)

/-- The next ready process after `CURRENT`, if any. -/
def pickNextOther (st : Sched) : Option Nat :=
  Cyclic.next maxProcesses st.current fun idx => st.stateOf idx = .ready

/-- Commit to running process `idx`; gives the frame it resumes. -/
def doSwitch (st : Sched) (idx : Nat) : Sched × Nat :=
  let st := st.setState idx .running
  let st := { st with current := idx }
  let ctx := (st.processes idx).ctx
  let ktop := (st.processes idx).kernelStackTop
  ({ st with rsp0 := ktop }, ctx)

/-- The common body of `on_tick` and `yield_now`: save the current process's frame, and switch
unless nothing else is ready. -/
def preempt (st : Sched) (frame : Nat) : Sched × Option Nat :=
  let cur := st.current
  let st := st.setState cur .ready
  let st := st.setCtx cur frame
  match st.pickNextOther with
  | some next =>
      let r := st.doSwitch next
      (r.1, some r.2)
  | none => (st.setState cur .running, none)

/-- PIT tick: preempt the current process unless nothing else is ready. -/
def onTick (st : Sched) (frame : Nat) : Sched × Option Nat := st.preempt frame

/-- `SYS_YIELD`: give up the rest of the timeslice voluntarily. -/
def yieldNow (st : Sched) (frame : Nat) : Sched × Option Nat := st.preempt frame

/-- `SYS_EXIT`: mark the current process dead and switch; `none` is the panic
`scheduler has no fallback process`. -/
def exitCurrent (st : Sched) : Option (Sched × Nat) :=
  let st := st.setState st.current .zombie
  st.pickNextOther.map st.doSwitch

end Sched

end Rolnix
