import Rolnix.Interrupt
import Rolnix.Keyboard
import Rolnix.SchedContext

/-!
# The kernel as its processes see it

One processor runs the shell and up to fifteen ring-3 processes. `Node` is the machine as it is: the
processor, the memory with every kernel stack in it, the process table, the keyboard driver. An
interrupt runs the stub, the handler and the return path; the handlers of `handle_irq` and
`handle_syscall` find their frame in memory, and a switch returns through the frame of another
process.

`Procs` is what this is for: every process has a processor of its own, an interrupt is invisible to
the process it interrupts, and a system call changes at most `rax`. `Rolnix.ProcessesProof` shows
that the node refines it.

The compiled handlers are not modelled instruction by instruction. What they leave behind is a
parameter of each step (`Leftovers`), constrained by the calling convention only.
-/

namespace Rolnix

open X86

/-! ## Stacks -/

/-- The size of the boot stack in `entry.s`. -/
def bootStackSize : Nat := 32768

/-- Where the loader puts the stacks: below the processes' regions, and apart. -/
structure ProcLayout where
  /-- Address of `KSTACKS`. -/
  kstacks : Nat
  /-- Address of `boot_stack_bottom`. -/
  bootStack : Nat
  kstacks_le : kstacks + maxProcesses * kstackSize ≤ procBase
  bootStack_le : bootStack + bootStackSize ≤ procBase
  disjoint : bootStack + bootStackSize ≤ kstacks ∨ kstacks + maxProcesses * kstackSize ≤ bootStack

namespace ProcLayout

variable (L : ProcLayout)

/-- The lowest byte of the kernel stack of a slot; the shell's is the boot stack. -/
def low (i : Nat) : Nat := if i = 0 then L.bootStack else L.kstacks + i * kstackSize

/-- The end of the kernel stack of a slot. -/
def top (i : Nat) : Nat := stackTop L.kstacks (L.bootStack + bootStackSize) i

/-- The byte is in the kernel stack of the slot. -/
def InStack (i x : Nat) : Prop := L.low i ≤ x ∧ x < L.top i

instance (i x : Nat) : Decidable (L.InStack i x) := inferInstanceAs (Decidable (_ ∧ _))

/-- The byte is in the region of some process. -/
def InUser (x : Nat) : Prop := procBase ≤ x ∧ x < procBase + maxProcesses * procStride

instance (x : Nat) : Decidable (InUser x) := inferInstanceAs (Decidable (_ ∧ _))

/-- The bytes that code running on the stack of slot `cur` does not write, if it was called with the
stack pointer at `a`: the other stacks, its own above `a`, and the processes' regions. -/
def Kept (cur a x : Nat) : Prop :=
  (∃ i < maxProcesses, L.InStack i x ∧ (i = cur → a ≤ x)) ∨ InUser x

instance (cur a x : Nat) : Decidable (L.Kept cur a x) := inferInstanceAs (Decidable (_ ∨ _))

end ProcLayout

/-! ## The machine -/

/-- What compiled code leaves in the registers it need not keep, and in the memory it may write. -/
structure Leftovers where
  regs : Reg → Quad
  rflags : Quad
  mem : ByteMem

/-- The registers a function returns as it found them. -/
def calleeSaved : List Reg := [.rbx, .rbp, .rsp, .r12, .r13, .r14, .r15]

/-- The memory after code that wrote outside of `keep`. -/
def overwrite (keep : Nat → Prop) [DecidablePred keep] (mem junk : ByteMem) : ByteMem := fun x =>
  if keep x then mem x else junk x

structure Node where
  state : State
  sched : Sched
  keyboard : Keyboard
  /-- `TICKS`. -/
  ticks : Nat
  /-- The bytes written by `SYS_PUTC`, each with the slot it comes from. -/
  console : List (Nat × UInt8)

/-- The offsets of the fields of an `InterruptFrame` that the handlers use. -/
def frameRdi : Nat := 80
def frameRax : Nat := 120
def frameVector : Nat := 128

def sysPutc : Nat := 0
def sysGetc : Nat := 1
def sysExit : Nat := 2
def sysGetpid : Nat := 3
def sysYield : Nat := 4

inductive IrqHandler
  | timer
  | keyboard

/-- `IRQ_HANDLERS` once the shell runs; `none` is past the table. -/
def irqHandlers (irq : Nat) : Option (Option IrqHandler) :=
  ([some .timer, some .keyboard] ++ List.replicate 14 none)[irq]?

namespace Node

variable (n : Node)

/-- `frame.rax = v`. -/
def setFrameRax (frame v : Nat) : Node :=
  { n with state := { n.state with mem := n.state.mem.store (frame + frameRax) 8 v } }

/-- IRQ 0: count the tick and drive the scheduler. Gives the frame to switch to, if any. -/
def timerHandler (frame : Nat) : Node × Option Nat :=
  let r := n.sched.onTick frame
  ({ n with ticks := n.ticks + 1, sched := r.1 }, r.2)

/-- Run the handler of an interrupt line; `code` is what the keyboard controller has. `none` is a
read past `IRQ_HANDLERS`. -/
def dispatchIrq (frame : Nat) (code : UInt8) (irq : Nat) : Option (Node × Option Nat) :=
  match irqHandlers irq with
  | none => none
  | some none => some (n, none)
  | some (some .timer) => some (n.timerHandler frame)
  | some (some .keyboard) => some ({ n with keyboard := n.keyboard.irqHandler code }, none)

/-- The line is that of the vector in the frame. -/
def handleIrq (frame : Nat) (code : UInt8) : Option (Node × Option Nat) :=
  n.dispatchIrq frame code
    (Word.sub 64 (n.state.mem.load (frame + frameVector) 8) irqBase % 2 ^ 8)

/-- Dispatch `int 0x80`; `none` is the panic of `exit_current`. -/
def handleSyscall (frame : Nat) : Option (Node × Option Nat) :=
  let rax := n.state.mem.load (frame + frameRax) 8
  if rax = sysPutc then
    let byte := UInt8.ofNat (n.state.mem.load (frame + frameRdi) 8)
    some ({ n with console := n.console ++ [(n.sched.current, byte)] }, none)
  else if rax = sysGetc then
    let r := n.keyboard.pollChar
    let n := { n with keyboard := r.2 }
    some (n.setFrameRax frame (r.1.elim (2 ^ 64 - 1) Char.toNat), none)
  else if rax = sysExit then
    n.sched.exitCurrent.map fun r => ({ n with sched := r.1 }, some r.2)
  else if rax = sysGetpid then
    some (n.setFrameRax frame (n.sched.pidOf n.sched.current), none)
  else if rax = sysYield then
    let r := n.sched.yieldNow frame
    some ({ n with sched := r.1 }, r.2)
  else some (n.setFrameRax frame (2 ^ 64 - 1), none)

/-- What a handler leaves when it returns or calls `sched_switch`. -/
def leave (L : ProcLayout) (left : Leftovers) (cur frame : Nat) : State where
  cpu := { n.state.cpu with
    regs := fun r => if r ∈ calleeSaved then n.state.cpu.regs r else left.regs r
    rflags := left.rflags }
  mem := overwrite (L.Kept cur frame) n.state.mem left.mem

/-- An interrupt through vector `v`: entry, handler, and the return to the same process or to
another. -/
def trap (L : ProcLayout) (T : Text) (v : Nat) (left : Leftovers)
    (handler : Node → Nat → Option (Node × Option Nat)) : Option Node := do
  let s ← interrupt T ⟨BitVec.ofNat 64 n.sched.rsp0, fun _ => 0⟩ v none n.state
  let frame := (s.cpu.regs .rdi).toNat
  let (n', switch) ← handler { n with state := s } frame
  let s' := n'.leave L left n.sched.current frame
  let s'' ← switch.elim (commonReturn s') (schedSwitch s')
  return { n' with state := s'' }

end Node

/-- What can happen to the machine. -/
inductive Event
  /-- The program on the processor goes on by itself. -/
  | own (cpu : Cpu) (mem : ByteMem)
  /-- Interrupt line `line`; the keyboard controller has `code`. -/
  | irq (line : Nat) (code : UInt8) (left : Leftovers)
  /-- The program on the processor executes `int 0x80`. -/
  | syscall (left : Leftovers)
  /-- The shell starts a process. -/
  | start (name : List UInt8)
  /-- The shell kills a process. -/
  | kill (pid : Nat)
  /-- The shell reads the keyboard. -/
  | poll

/-- `start_process(free_slot(), ..)`: the table entry, and the frame in memory. -/
def Node.startProcess (n : Node) (name : List UInt8) : Option Node :=
  match n.sched.freeSlot with
  | none => some n
  | some pid =>
      (n.sched.startProcess pid (userCodeVa pid) name).map fun st =>
        let ctx := (st.processes pid).ctx
        { n with
          sched := st
          state := { n.state with
            mem := (st.frames ctx).elim n.state.mem fun f => n.state.mem.storeWords ctx f.words } }

/-- One step; `none` is a panic or a read outside of a table. -/
def Node.exec (L : ProcLayout) (T : Text) (n : Node) : Event → Option Node
  | .own cpu mem =>
      some { n with
        state := ⟨cpu, overwrite (fun x => ∃ i < maxProcesses, L.InStack i x ∧
          (n.sched.current = 0 → i ≠ 0)) n.state.mem mem⟩ }
  | .irq line code left =>
      n.trap L T (irqBase + line) left fun n frame => n.handleIrq frame code
  | .syscall left => n.trap L T 0x80 left Node.handleSyscall
  | .start name => n.startProcess name
  | .kill pid => some { n with sched := (n.sched.kill pid).2 }
  | .poll => some { n with keyboard := n.keyboard.pollChar.2 }

/-- The shell's code segment and that of the processes. -/
def userCs : BitVec 16 := BitVec.ofNat 16 userCode64Selector

/-- The state a program may bring itself to. In ring 3 interrupts stay enabled. The shell stays in
ring 0 and leaves room for an interrupt frame on the boot stack. -/
def OwnState (L : ProcLayout) (slot : Nat) (c : Cpu) : Prop :=
  if slot = 0 then
    c.cpl = 0 ∧ L.low 0 + interruptFrameSize + 16 ≤ (c.regs .rsp).toNat ∧ (c.regs .rsp).toNat ≤ L.top 0
  else c.cs = userCs ∧ c.interruptFlag = true

instance (L : ProcLayout) (slot : Nat) (c : Cpu) : Decidable (OwnState L slot c) := by
  unfold OwnState
  infer_instance

/-- When an event can happen: interrupts where they are enabled, system calls from ring 3, and the
shell's calls while it runs. -/
def Event.Allowed (L : ProcLayout) (n : Node) : Event → Prop
  | .own cpu _ => OwnState L n.sched.current cpu
  | .irq line _ _ => line < 16 ∧ n.state.cpu.interruptFlag = true
  | .syscall _ => n.sched.current ≠ 0
  | .start _ | .kill _ | .poll => n.sched.current = 0

instance (L : ProcLayout) (n : Node) : DecidablePred fun ev : Event => ev.Allowed L n
  | .own cpu _ => inferInstanceAs (Decidable (OwnState L n.sched.current cpu))
  | .irq line _ _ => inferInstanceAs (Decidable (line < 16 ∧ n.state.cpu.interruptFlag = true))
  | .syscall _ => inferInstanceAs (Decidable (n.sched.current ≠ 0))
  | .start _ | .kill _ | .poll => inferInstanceAs (Decidable (n.sched.current = 0))

/-! ## A processor for each process -/

/-- The processes, each with a processor of its own. -/
structure Procs where
  cpus : Nat → Cpu
  states : Nat → ProcState
  current : Nat
  keyboard : Keyboard
  ticks : Nat
  console : List (Nat × UInt8)

/-- The processor of a process that has just been started. -/
def initialCpu (pid : Nat) : Cpu where
  regs r := if r = .rdi then BitVec.ofNat 64 pid
    else if r = .rsp then BitVec.ofNat 64 (userStackTop pid) else 0
  rip := BitVec.ofNat 64 (userCodeVa pid)
  rflags := 0x202
  cs := userCs
  ss := BitVec.ofNat 16 userDataSelector

namespace Procs

variable (p : Procs)

/-- Give the processor to the next process that is ready, once the current one is in state `v`. -/
def switchFrom (v : ProcState) : Procs :=
  let states := Function.update p.states p.current v
  match Cyclic.next maxProcesses p.current fun i => states i = .ready with
  | some next => { p with states := Function.update states next .running, current := next }
  | none => { p with states := Function.update states p.current .running }

/-- A system call returns `v`. -/
def answer (v : Quad) : Procs :=
  { p with cpus := Function.update p.cpus p.current ((p.cpus p.current).set .rax v) }

def syscall : Procs :=
  let c := p.cpus p.current
  let rax := (c.regs .rax).toNat
  if rax = sysPutc then
    { p with console := p.console ++ [(p.current, UInt8.ofNat (c.regs .rdi).toNat)] }
  else if rax = sysGetc then
    let r := p.keyboard.pollChar
    { p with keyboard := r.2 }.answer (r.1.elim (-1) fun ch => BitVec.ofNat 64 ch.toNat)
  else if rax = sysExit then p.switchFrom .zombie
  else if rax = sysGetpid then p.answer (BitVec.ofNat 64 p.current)
  else if rax = sysYield then p.switchFrom .ready
  else p.answer (-1)

/-- The first slot without a process. -/
def freeSlot : Option Nat :=
  (List.range' 1 (maxProcesses - 1)).find? fun i => p.states i = .unused ∨ p.states i = .zombie

def exec : Event → Procs
  | .own cpu _ => { p with cpus := Function.update p.cpus p.current cpu }
  | .irq line code _ =>
      if line = 0 then { p with ticks := p.ticks + 1 }.switchFrom .ready
      else if line = 1 then { p with keyboard := p.keyboard.irqHandler code }
      else p
  | .syscall _ => p.syscall
  | .start _ =>
      p.freeSlot.elim p fun pid =>
        { p with
          cpus := Function.update p.cpus pid (initialCpu pid)
          states := Function.update p.states pid .ready }
  | .kill pid =>
      if pid = 0 ∨ pid ≥ maxProcesses ∨ p.states pid = .zombie ∨ p.states pid = .unused then p
      else { p with states := Function.update p.states pid .zombie }
  | .poll => { p with keyboard := p.keyboard.pollChar.2 }

end Procs

end Rolnix
