import Rolnix.Lib.X86Prog
import Rolnix.Lib.Runs
import Rolnix.Processes
import Rolnix.Serial

/-!
# The ring-3 program

`user_prog.s`, instruction by instruction, as one process runs it: `User.step` executes the instruction
at `rip` and answers `int 0x80` in the way the kernel does. `Rolnix.UserProgProof` follows the program to its
end: it prints its banner with its pid, then five lines, yielding after each, and exits; it touches no
memory but its image and its stack page.

Addresses of instructions are a parameter of the image; only that they differ is used.
-/

namespace Rolnix

open X86 Runs

/-! ## The code -/

/-- `print_dec` is instruction 50. -/
def printDec : Nat := 50

/-- The instructions of `user_prog.s`, with the labels as instruction numbers; `banner` and `alive` are the
addresses that the rip-relative loads of the two strings give. -/
def userProg (banner alive : Quad) : List Op :=
  [ .instr (.mov .rbx (.imm banner)), -- 0: _user_prog_start
    .instr (.mov .rcx (.imm 5)),
    .instr (.movzb .rdi .rbx), -- 2: 1:
    .instr (.mov .rax (.imm 0)), -- SYS_PUTC
    .int 0x80,
    .instr (.inc .rbx),
    .instr (.dec .rcx),
    .jnz 2,
    .instr (.mov .rax (.imm 3)), -- SYS_GETPID
    .int 0x80,
    .instr (.mov .r12 (.reg .rax)), -- 10
    .instr (.mov .rdi (.reg .rax)),
    .call printDec,
    .instr (.mov .rax (.imm 0)),
    .instr (.mov .rdi (.imm 58)), -- ':'
    .int 0x80,
    .instr (.mov .rax (.imm 0)),
    .instr (.mov .rdi (.imm 32)), -- ' '
    .int 0x80,
    .instr (.mov .r13 (.imm 5)),
    .instr (.mov .rax (.imm 0)), -- 20: life:
    .instr (.mov .rdi (.imm 112)), -- 'p'
    .int 0x80,
    .instr (.mov .rdi (.reg .r12)),
    .call printDec,
    .instr (.mov .rbx (.imm alive)),
    .instr (.mov .rcx (.imm 8)),
    .instr (.movzb .rdi .rbx), -- 27: 2:
    .instr (.mov .rax (.imm 0)),
    .int 0x80,
    .instr (.inc .rbx), -- 30
    .instr (.dec .rcx),
    .jnz 27,
    .instr (.mov .rax (.imm 6)),
    .instr (.sub .rax (.reg .r13)), -- i = 6 - r13
    .instr (.mov .rdi (.reg .rax)),
    .call printDec,
    .instr (.mov .rax (.imm 0)),
    .instr (.mov .rdi (.imm 10)), -- '\n'
    .int 0x80,
    .instr (.mov .rax (.imm 4)), -- 40: SYS_YIELD
    .int 0x80,
    .instr (.mov .rbx (.imm 2000000)),
    .instr (.dec .rbx), -- 43: 3:
    .jnz 43,
    .instr (.dec .r13),
    .jnz 20,
    .instr (.mov .rax (.imm 2)), -- SYS_EXIT
    .int 0x80,
    .hlt,
    .instr (.mov .rsi (.reg .rsp)), -- 50: print_dec:
    .instr (.mov .rax (.reg .rdi)),
    .instr (.mov .rcx (.imm 10)),
    .instr (.xor .rdx (.reg .rdx)), -- 53: 1:
    .instr (.div .rcx),
    .instr (.add .rdx (.imm 48)),
    .instr (.push (.reg .rdx)),
    .instr (.cmp .rax (.imm 0)),
    .jnz 53,
    .instr (.pop .rdx), -- 59: 2:
    .instr (.mov .rdi (.reg .rdx)), -- 60
    .instr (.mov .rax (.imm 0)),
    .int 0x80,
    .instr (.cmp .rsi (.reg .rsp)),
    .jnz 59,
    .ret ]

/-- `.ascii "proc "`. -/
def bannerText : List UInt8 := [112, 114, 111, 99, 32]

/-- `.ascii ": alive "`. -/
def aliveText : List UInt8 := [58, 32, 97, 108, 105, 118, 101, 32]

/-- The image in the region of process `pid`: code and strings at `user_code_va`, and a stack page below
`user_stack_top`. -/
structure UserImage (pid : Nat) where
  banner : Nat
  alive : Nat
  addr : Nat → Quad
  addr_zero : addr 0 = BitVec.ofNat 64 (userCodeVa pid)
  addr_inj : ∀ {i j}, i < 66 → j < 66 → addr i = addr j → i = j
  banner_mem : userCodeVa pid ≤ banner ∧ banner + 5 ≤ userStackTop pid - 4096
  alive_mem : userCodeVa pid ≤ alive ∧ alive + 8 ≤ userStackTop pid - 4096

namespace UserImage

variable {pid : Nat} (U : UserImage pid)

def program : Program where
  ops := userProg (BitVec.ofNat 64 U.banner) (BitVec.ofNat 64 U.alive)
  addr := U.addr
  addr_inj := U.addr_inj

/-- The strings are in memory. -/
def Loaded (m : ByteMem) : Prop := m.Holds U.banner bannerText ∧ m.Holds U.alive aliveText

end UserImage

/-- What a process may touch: its region, and of that it writes the stack page only. -/
def userWindow (pid : Nat) : Window where
  low := userCodeVa pid
  high := userCodeVa pid + procStride
  writeLow := userStackTop pid - 4096
  writeHigh := userStackTop pid
  low_le := by
    rw [userCodeVa, userStackTop, procStackOffset]
    omega
  le_high := by
    rw [userCodeVa, userStackTop, procStackOffset, procStride]
    omega

/-! ## Running it -/

/-- What the rest of the system sees of a process. -/
inductive Sys
  | putc (byte : UInt8)
  | yield
  | exit
  deriving DecidableEq

/-- A process: its processor and memory, and whether it has exited. -/
structure User where
  state : State
  exited : Bool

/-- `int 0x80` as the kernel answers it. `SYS_GETC` is left out, since the program does not use it. -/
def User.syscall (pid : Nat) (s : State) : Option (User × List Sys) :=
  let rax := (s.cpu.regs .rax).toNat
  if rax = sysPutc then some (⟨s, false⟩, [.putc (UInt8.ofNat (s.cpu.regs .rdi).toNat)])
  else if rax = sysGetc then none
  else if rax = sysExit then some (⟨s, true⟩, [.exit])
  else if rax = sysGetpid then some (⟨s.set .rax (BitVec.ofNat 64 pid), false⟩, [])
  else if rax = sysYield then some (⟨s, false⟩, [.yield])
  else some (⟨s.set .rax (-1), false⟩, [])

/-- The next instruction of a process. -/
def User.step (P : Program) (pid : Nat) (u : User) : Option (User × List Sys) :=
  if u.exited then none
  else
    match P.step (userWindow pid) u.state with
    | none => none
    | some (s, none) => some (⟨s, false⟩, [])
    | some (s, some n) => if n = 0x80 then User.syscall pid s else none

/-- The state of a process when it is entered for the first time. -/
def User.initial (pid : Nat) (m : ByteMem) : User := ⟨⟨initialCpu pid, m⟩, false⟩

/-! ## What it prints -/

/-- The `i`-th line of process `pid`. -/
def aliveLine (pid i : Nat) : List UInt8 := [112] ++ decimal pid ++ aliveText ++ decimal i ++ [10]

/-- The system calls of process `pid`, other than `SYS_GETPID`. -/
def expectedTrace (pid : Nat) : List Sys :=
  (bannerText ++ decimal pid ++ [58, 32]).map .putc ++
    [1, 2, 3, 4, 5].flatMap (fun i => (aliveLine pid i).map .putc ++ [.yield]) ++ [.exit]

end Rolnix
