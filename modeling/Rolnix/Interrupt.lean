import Rolnix.Lib.X86
import Rolnix.Descriptors
import Rolnix.Sched

/-!
# Interrupt entry and return

The assembly of `idt.rs` and of `sched_switch`, and the table `idt::init` builds. A stub pushes an error
code, where the processor has not, and its vector; `push_frame` pushes the registers. The 23 words
are then an `InterruptFrame`, and the handler gets its address. `irq_common` and `syscall_common` keep
that address in `r12` across the call and return through it; `sched_switch` returns through the
address of another frame.

* `idt_gates` — which vectors have a gate, where it leads, and who may use it.
* `interrupt_spec` — what the handler finds: the frame of the interrupted program, whatever it was
  doing.
* `resume_spec` — what a return restores: the program whose frame it is given.

`entry.s` turns SSE on, but neither the stubs nor `sched_switch` save an x87 or SSE register, MXCSR or a data
segment register. The processor modelled here has none of them, so nothing is said about a program that keeps
something there.
-/

namespace Rolnix

open X86

/-! ## The stubs -/

/-- The registers that `push_frame` saves, in its order. -/
def savedRegs : List Reg :=
  [.rax, .rbx, .rcx, .rdx, .rsi, .rdi, .rbp, .r8, .r9, .r10, .r11, .r12, .r13, .r14, .r15]

def pushFrame : List Instr :=
  savedRegs.map (fun r => .push (.reg r)) ++ [.lea .rax .rsp 160, .push (.reg .rax)]

/-- The registers that `pop_frame` loads. The first word, the computed stack pointer, goes to `rax`,
which the last one overwrites. -/
def restoredRegs : List Reg :=
  [.rax, .r15, .r14, .r13, .r12, .r11, .r10, .r9, .r8, .rbp, .rdi, .rsi, .rdx, .rcx, .rbx, .rax]

def popFrame : List Instr := restoredRegs.map .pop

/-- The `ec` column of the exception stubs. -/
def isrErrorCode (num : Nat) : Bool := [8, 10, 11, 12, 13, 14, 17].contains num

/-- What a stub pushes, in this order. -/
def stubWords (num : Nat) (ec : Bool) : List Quad :=
  if ec then [BitVec.ofNat 64 num] else [0, BitVec.ofNat 64 num]

def stub (num : Nat) (ec : Bool) : List Instr := (stubWords num ec).map fun w => .push (.imm w)

def isrStub (num : Nat) : List Instr := stub num (isrErrorCode num)
def irqStub (vec : Nat) : List Instr := stub vec false
def syscallStub (num : Nat) : List Instr := stub num false

/-- `isr_common` up to the call; `handle_exception` does not return. -/
def isrCommon : List Instr := pushFrame ++ [.mov .rdi (.reg .rsp), .and .rsp (.imm (-16))]

/-- The common part of `irq_common` and `syscall_common`, up to the call. -/
def commonEntry : List Instr :=
  pushFrame ++ [.mov .rdi (.reg .rsp), .mov .r12 (.reg .rsp), .and .rsp (.imm (-16))]

def irqCommon : List Instr := commonEntry
def syscallCommon : List Instr := commonEntry

/-- From the register that holds the address of a frame to the `iretq`. -/
def returnThrough (r : Reg) : List Instr :=
  [.mov .rsp (.reg r)] ++ popFrame ++ [.add .rsp (.imm 16)]

/-- `irq_common` and `syscall_common` after the call. -/
def commonReturn (s : State) : Option State := (run s (returnThrough .r12)).map iretq

/-- `sched_switch(ctx)`. -/
def schedSwitch (s : State) (ctx : Nat) : Option State :=
  (run (s.set .rdi (BitVec.ofNat 64 ctx)) (returnThrough .rdi)).map iretq

/-! ## The interrupt descriptor table -/

/-- The entry points. -/
inductive Stub
  | isr (num : Fin 32)
  | irq (num : Fin 16)
  | syscall
  deriving DecidableEq

/-- What runs from an entry point up to the call of its handler. -/
def Stub.code : Stub → List Instr
  | .isr num => isrStub num ++ isrCommon
  | .irq num => irqStub (0x20 + num) ++ irqCommon
  | .syscall => syscallStub 0x80 ++ syscallCommon

def gdtCode64 : BitVec 16 := 0x18
def gateAttrs : BitVec 8 := 0x8E
def gateAttrsUser : BitVec 8 := 0xEE
def irqBase : Nat := 0x20
def dfVector : Nat := 8
def dfGateIst : BitVec 8 := 1

def IdtEntry.missing : IdtEntry := ⟨0, 0, 0, 0, 0, 0, 0⟩

/-- Write one entry for each of a list of stubs. -/
def writeEntries {n : Nat} (index : Fin n → Nat) (entry : Fin n → IdtEntry) (idt : Nat → IdtEntry) :
    Nat → IdtEntry :=
  (List.finRange n).foldl (fun idt i => Function.update idt (index i) (entry i)) idt

/-- `idt::init`; `addr` gives the addresses of the entry points. -/
def idtInit (addr : Stub → BitVec 64) : Nat → IdtEntry :=
  let idt := fun _ => IdtEntry.missing
  let idt := writeEntries (fun i : Fin 32 => i.val)
    (fun i => .gate (addr (.isr i)) gdtCode64 (if i.val = dfVector then dfGateIst else 0) gateAttrs) idt
  let idt := writeEntries (fun i : Fin 16 => irqBase + i.val)
    (fun i => .gate (addr (.irq i)) gdtCode64 0 gateAttrs) idt
  Function.update idt 0x80 (.gate (addr .syscall) gdtCode64 0 gateAttrsUser)

/-- How the processor reads an entry: bit 7 of the attributes says that it is there, bits 5 and 6 are
its privilege level. -/
def IdtEntry.decode (e : IdtEntry) : Option Gate :=
  if e.attrs.getLsbD 7 then
    some ⟨e.target, e.selector, (e.ist.extractLsb' 0 3).toNat, (e.attrs.extractLsb' 5 2).toNat⟩
  else none

section WriteEntries

variable {n : Nat} {index : Fin n → Nat} {entry : Fin n → IdtEntry} {idt : Nat → IdtEntry} {v : Nat}

theorem foldl_update_of_ne {l : List (Fin n)} (hv : ∀ i ∈ l, v ≠ index i) :
    l.foldl (fun idt i => Function.update idt (index i) (entry i)) idt v = idt v := by
  induction l generalizing idt with
  | nil => rfl
  | cons j l ih =>
      rw [List.foldl_cons, ih fun i hi => hv i (List.mem_cons_of_mem j hi),
        Function.update_of_ne (hv j List.mem_cons_self)]

theorem foldl_update_of_mem {l : List (Fin n)} (hinj : Function.Injective index) {i : Fin n}
    (hi : i ∈ l) : l.foldl (fun idt i => Function.update idt (index i) (entry i)) idt (index i) = entry i := by
  induction l generalizing idt with
  | nil => cases hi
  | cons j l ih =>
      by_cases hil : i ∈ l
      · exact ih hil
      · obtain rfl := (List.mem_cons.1 hi).resolve_right hil
        have hlater : ∀ k ∈ l, index i ≠ index k := fun k hk heq => hil (hinj heq ▸ hk)
        rw [List.foldl_cons, foldl_update_of_ne hlater, Function.update_self]

theorem writeEntries_of_ne (hv : ∀ i, v ≠ index i) : writeEntries index entry idt v = idt v :=
  foldl_update_of_ne fun i _ => hv i

theorem writeEntries_of_eq (hinj : Function.Injective index) (i : Fin n) (hv : v = index i) :
    writeEntries index entry idt v = entry i := by
  rw [hv]
  exact foldl_update_of_mem hinj (List.mem_finRange i)

end WriteEntries

theorem decode_gate (offset : BitVec 64) (ist attrs : BitVec 8) :
    (IdtEntry.gate offset gdtCode64 ist attrs).decode =
      if attrs.getLsbD 7 then
        some ⟨offset, gdtCode64, (ist.extractLsb' 0 3).toNat, (attrs.extractLsb' 5 2).toNat⟩
      else none := by
  rw [IdtEntry.decode, target_gate]
  rfl

/-- The vectors that have a gate, and where it leads. -/
def stubOf (v : Nat) : Option Stub :=
  if h : v < 32 then some (.isr ⟨v, h⟩)
  else if h : v - irqBase < 16 then some (.irq ⟨v - irqBase, h⟩)
  else if v = 0x80 then some .syscall
  else none

/-- The vector of an entry point. -/
def Stub.vector : Stub → Nat
  | .isr num => num
  | .irq num => irqBase + num
  | .syscall => 0x80

theorem stubOf_vector (e : Stub) : stubOf e.vector = some e := by
  cases e with
  | isr num => revert num; decide
  | irq num => revert num; decide
  | syscall => rfl

/-- The gate of an entry point. -/
def Stub.gate (addr : Stub → BitVec 64) (e : Stub) : Gate where
  target := addr e
  selector := gdtCode64
  ist := if e = .isr ⟨dfVector, by decide⟩ then 1 else 0
  dpl := if e = .syscall then 3 else 0

/-- **The interrupt descriptor table.** Exceptions, the sixteen interrupt lines and `int 0x80` have a
gate, and nothing else; only the last is open to ring 3, and only the double fault has a stack of its
own. -/
theorem idt_gates (addr : Stub → BitVec 64) (v : Nat) :
    (idtInit addr v).decode = (stubOf v).map (Stub.gate addr) := by
  have hisr : Function.Injective fun i : Fin 32 => i.val := Fin.val_injective
  have hirq : Function.Injective fun i : Fin 16 => irqBase + i.val := fun _ _ h =>
    Fin.val_injective (Nat.add_left_cancel h)
  have hbase : irqBase = 32 := rfl
  rw [idtInit, stubOf]
  by_cases h80 : v = 0x80
  · rw [h80, Function.update_self, decode_gate]
    rfl
  rw [Function.update_of_ne h80]
  by_cases h32 : v < 32
  · rw [writeEntries_of_ne fun i hv => by omega, dif_pos h32]
    rw [writeEntries_of_eq hisr ⟨v, h32⟩ rfl, decode_gate, Option.map_some, Stub.gate]
    by_cases h8 : v = dfVector <;> simp [h8, dfGateIst, gateAttrs]
  · rw [dif_neg h32]
    by_cases h48 : v - irqBase < 16
    · have hv : v = irqBase + (⟨v - irqBase, h48⟩ : Fin 16).val := by
        change v = irqBase + (v - irqBase)
        omega
      rw [writeEntries_of_eq hirq ⟨v - irqBase, h48⟩ hv, decode_gate, dif_pos h48]
      rfl
    · rw [writeEntries_of_ne fun i hv => by have := i.isLt; omega,
        writeEntries_of_ne fun i hv => by have := i.isLt; omega, dif_neg h48, if_neg h80]
      rfl

/-! ## Frames -/

/-- The words of a frame, lowest address first. -/
def InterruptFrame.words (f : InterruptFrame) : List Nat :=
  [f.rsp, f.r15, f.r14, f.r13, f.r12, f.r11, f.r10, f.r9, f.r8, f.rbp, f.rdi, f.rsi, f.rdx, f.rcx,
    f.rbx, f.rax, f.vector, f.errorCode, f.rip, f.cs, f.rflags, f.userRsp, f.userSs]

/-- The program that a frame was saved for. -/
def InterruptFrame.cpu (f : InterruptFrame) : Cpu where
  regs
    | .rax => BitVec.ofNat 64 f.rax
    | .rbx => BitVec.ofNat 64 f.rbx
    | .rcx => BitVec.ofNat 64 f.rcx
    | .rdx => BitVec.ofNat 64 f.rdx
    | .rsi => BitVec.ofNat 64 f.rsi
    | .rdi => BitVec.ofNat 64 f.rdi
    | .rbp => BitVec.ofNat 64 f.rbp
    | .rsp => BitVec.ofNat 64 f.userRsp
    | .r8 => BitVec.ofNat 64 f.r8
    | .r9 => BitVec.ofNat 64 f.r9
    | .r10 => BitVec.ofNat 64 f.r10
    | .r11 => BitVec.ofNat 64 f.r11
    | .r12 => BitVec.ofNat 64 f.r12
    | .r13 => BitVec.ofNat 64 f.r13
    | .r14 => BitVec.ofNat 64 f.r14
    | .r15 => BitVec.ofNat 64 f.r15
  rip := BitVec.ofNat 64 f.rip
  rflags := BitVec.ofNat 64 f.rflags
  cs := BitVec.ofNat 16 f.cs
  ss := BitVec.ofNat 16 f.userSs

/-- The frame of a program that is interrupted, at address `a`. Its `rsp` is the address of the word
that holds the interrupted stack pointer. -/
def frameOf (c : Cpu) (vector : Nat) (err : Option Quad) (a : Nat) : InterruptFrame where
  rsp := a + 168
  r15 := (c.regs .r15).toNat
  r14 := (c.regs .r14).toNat
  r13 := (c.regs .r13).toNat
  r12 := (c.regs .r12).toNat
  r11 := (c.regs .r11).toNat
  r10 := (c.regs .r10).toNat
  r9 := (c.regs .r9).toNat
  r8 := (c.regs .r8).toNat
  rbp := (c.regs .rbp).toNat
  rdi := (c.regs .rdi).toNat
  rsi := (c.regs .rsi).toNat
  rdx := (c.regs .rdx).toNat
  rcx := (c.regs .rcx).toNat
  rbx := (c.regs .rbx).toNat
  rax := (c.regs .rax).toNat
  vector := vector
  errorCode := (err.getD 0).toNat
  rip := c.rip.toNat
  cs := c.cs.toNat
  rflags := c.rflags.toNat
  userRsp := (c.regs .rsp).toNat
  userSs := c.ss.toNat

theorem cpu_frameOf (c : Cpu) (vector : Nat) (err : Option Quad) (a : Nat) :
    (frameOf c vector err a).cpu = c := by
  ext r
  · cases r <;> simp [InterruptFrame.cpu, frameOf]
  all_goals simp [InterruptFrame.cpu, frameOf]

/-! ## Entry -/

section Entry

variable {s : State} {ws : List Nat}

theorem run_stub (s : State) (num : Nat) (ec : Bool) :
    run s (stub num ec) = some (s.pushAll (stubWords num ec)) := by
  cases ec <;> rfl

/-- What `push_frame` pushes: the registers, and below them the address just above the three words
`rip`, `cs` and `rflags`. -/
theorem run_pushFrame (hroom : 128 ≤ s.sp) (hsp : s.sp + 40 < 2 ^ 64) (hws : s.mem.Words s.sp ws) :
    ∃ s' v, run s pushFrame = some s' ∧
      s'.cpu = (s.cpu.set .rax v).set .rsp (BitVec.ofNat 64 (s.sp - 128)) ∧
      s'.mem.Words (s.sp - 128)
        ((s.sp + 40) :: (((savedRegs.map s.cpu.regs).map BitVec.toNat).reverse ++ ws)) ∧
      ∀ x, x < s.sp - 128 ∨ s.sp ≤ x → s'.mem x = s.mem x := by
  obtain ⟨s₁, hs₁⟩ : ∃ s₁, s₁ = s.pushAll (savedRegs.map s.cpu.regs) := ⟨_, rfl⟩
  have hlen : 8 * (savedRegs.map s.cpu.regs).length = 120 := rfl
  have hsp₁ : s₁.sp = s.sp - 120 := by rw [hs₁, State.sp_pushAll (by omega), hlen]
  have hwords₁ := State.words_pushAll (by omega : 8 * (savedRegs.map s.cpu.regs).length ≤ s.sp) hws
  rw [← hs₁, hsp₁] at hwords₁
  obtain ⟨v, hv⟩ : ∃ v, v = s₁.cpu.regs .rsp + 160 := ⟨_, rfl⟩
  have hval : v.toNat = s.sp + 40 := by
    rw [hv, BitVec.toNat_add_of_lt]
    · change s₁.sp + 160 = _
      omega
    · change s₁.sp + 160 < _
      omega
  have hspv : (s₁.set .rax v).sp = s.sp - 120 := by
    rw [State.sp, State.set, Cpu.regs_set_of_ne (by decide), ← hsp₁, State.sp]
  have hsp₂ : ((s₁.set .rax v).push v).sp = s.sp - 128 := by
    rw [State.sp_push (by omega), hspv]
    omega
  refine ⟨(s₁.set .rax v).push v, v, ?_, ?_, ?_, fun x hx => ?_⟩
  · rw [pushFrame, run_append, run_pushes (by decide), ← hs₁, Option.bind_some, run, exec,
      Option.bind_some, run, exec, Option.bind_some, run, ← hv, Src.val, State.set,
      Cpu.regs_set_self]
  · rw [State.cpu_push (by omega), hspv, State.set, hs₁, State.cpu_pushAll (by omega),
      Cpu.set_comm _ (by decide), Cpu.set_set, Cpu.set_comm _ (by decide), Nat.sub_sub]
  · have hwords₂ := State.words_push (v := v) (by omega) (hspv ▸ hwords₁ : (s₁.set .rax v).mem.Words _ _)
    rw [hsp₂, hval] at hwords₂
    exact hwords₂
  · rw [State.mem_push (by omega), ByteMem.store_of_not_mem (by omega)]
    change s₁.mem x = _
    rw [hs₁, State.mem_pushAll (by omega) (by omega)]

/-- The kernel's code: where the entry points are, and what is there. -/
structure Text where
  addr : Stub → Quad
  code : Quad → List Instr
  code_addr : ∀ e, code (addr e) = e.code

/-- An interrupt, from its delivery to the call of the handler; `none` if there is no gate. -/
def interrupt (T : Text) (t : Tss) (v : Nat) (err : Option Quad) (s : State) : Option State :=
  (idtInit T.addr v).decode.bind fun g => run (deliver t g err s) (T.code g.target)

/-- What the handler of an interrupt finds: the frame `f` at `a`, on the stack that ends at `top`. -/
structure Entered (s s' : State) (e : Stub) (f : InterruptFrame) (a top : Nat) : Prop where
  rdi_eq : s'.cpu.regs .rdi = BitVec.ofNat 64 a
  r12_eq : (∀ n, e ≠ .isr n) → s'.cpu.regs .r12 = BitVec.ofNat 64 a
  sp_eq : s'.sp = a / 16 * 16
  words : s'.mem.Words a f.words
  mem_eq : ∀ x, x < a ∨ top ≤ x → s'.mem x = s.mem x
  cpl_eq : s'.cpu.cpl = 0
  masked : s'.cpu.interruptFlag = false

/-- Every stub pushes its vector, and an error code where the processor pushes none. -/
theorem code_eq {v : Nat} {e : Stub} (h : stubOf v = some e) :
    ∃ rest, e.code = stub v (isrErrorCode v) ++ (pushFrame ++ rest) ∧
      (rest = [.mov .rdi (.reg .rsp), .mov .r12 (.reg .rsp), .and .rsp (.imm (-16))] ∨
        (∃ n, e = .isr n) ∧ rest = [.mov .rdi (.reg .rsp), .and .rsp (.imm (-16))]) := by
  unfold stubOf at h
  split_ifs at h with h32 h48 h80
  · obtain rfl := Option.some.inj h
    exact ⟨_, rfl, .inr ⟨⟨_, rfl⟩, rfl⟩⟩
  · obtain rfl := Option.some.inj h
    have hv : 0x20 + (v - irqBase) = v := by
      rw [irqBase]
      omega
    have hec : isrErrorCode v = false := by
      rw [isrErrorCode, List.contains_eq_any_beq]
      simp
      omega
    refine ⟨_, ?_, .inl rfl⟩
    rw [Stub.code, irqStub, hv, hec]
    rfl
  · obtain rfl := Option.some.inj h
    rw [h80]
    exact ⟨_, rfl, .inl rfl⟩

theorem toNat_and_neg16 (x : Quad) : (x &&& (-16 : Quad)).toNat = x.toNat / 16 * 16 := by
  rw [BitVec.toNat_and]
  exact Word.and_not_two_pow_sub_one (k := 4) x.isLt (by decide)

theorem words_frameOf {v : Nat} {err : Option Quad} (hv : v < 2 ^ 64) (a : Nat) (c : Cpu)
    (herr : err.isSome = isrErrorCode v) :
    (a + 168) :: (((savedRegs.map c.regs).map BitVec.toNat).reverse ++
      (((stubWords v (isrErrorCode v)).map BitVec.toNat).reverse ++
        ((c.hardwareFrame err).map BitVec.toNat).reverse)) = (frameOf c v err a).words := by
  have hwide : ∀ w : BitVec 16, (w.setWidth 64).toNat = w.toNat := fun w => by
    rw [BitVec.toNat_setWidth, Nat.mod_eq_of_lt (by have := w.isLt; omega)]
  have hvec : (BitVec.ofNat 64 v).toNat = v := by rw [BitVec.toNat_ofNat, Nat.mod_eq_of_lt hv]
  rw [← herr]
  cases err <;>
    simp [savedRegs, stubWords, Cpu.hardwareFrame, frameOf, InterruptFrame.words, hwide, hvec]

theorem run_align {rest : List Instr} {e : Stub} (s : State)
    (hrest : rest = [.mov .rdi (.reg .rsp), .mov .r12 (.reg .rsp), .and .rsp (.imm (-16))] ∨
      (∃ n, e = .isr n) ∧ rest = [.mov .rdi (.reg .rsp), .and .rsp (.imm (-16))]) :
    ∃ s', run s rest = some s' ∧ s'.cpu.regs .rdi = s.cpu.regs .rsp ∧
      ((∀ n, e ≠ .isr n) → s'.cpu.regs .r12 = s.cpu.regs .rsp) ∧ s'.sp = s.sp / 16 * 16 ∧
      s'.mem = s.mem ∧ s'.cpu.cs = s.cpu.cs ∧ s'.cpu.interruptFlag = s.cpu.interruptFlag := by
  rcases hrest with rfl | ⟨⟨n, rfl⟩, rfl⟩
  · refine ⟨_, rfl, rfl, fun _ => rfl, toNat_and_neg16 _, rfl, rfl, ?_⟩
    exact Cpu.interruptFlag_setZeroFlag _ _
  · refine ⟨_, rfl, rfl, fun h => absurd rfl (h n), toNat_and_neg16 _, rfl, rfl, ?_⟩
    exact Cpu.interruptFlag_setZeroFlag _ _

/-- **What a handler finds.** -/
theorem interrupt_spec {T : Text} {t : Tss} {v top : Nat} {err : Option Quad} {s : State} {e : Stub}
    (hstub : stubOf v = some e) (herr : err.isSome = isrErrorCode v)
    (htop : ((e.gate T.addr).stack t s.cpu).toNat / 16 * 16 = top)
    (hroom : interruptFrameSize ≤ top) :
    ∃ s', interrupt T t v err s = some s' ∧
      Entered s s' e (frameOf s.cpu v err (top - interruptFrameSize)) (top - interruptFrameSize) top := by
  rw [interruptFrameSize] at hroom ⊢
  have hv : v < 2 ^ 64 := by
    have hbase : irqBase = 32 := rfl
    unfold stubOf at hstub
    split_ifs at hstub <;> omega
  have htop_lt : top < 2 ^ 64 := by
    have := ((e.gate T.addr).stack t s.cpu).isLt
    omega
  -- what the processor and the stub push together is seven words
  have hseven : 8 * (s.cpu.hardwareFrame err).length + 8 * (stubWords v (isrErrorCode v)).length =
      56 := by
    rw [← herr]
    cases err <;> rfl
  obtain ⟨s₁, hs₁⟩ : ∃ s₁, s₁ = deliver t (e.gate T.addr) err s := ⟨_, rfl⟩
  have hd : Delivered s s₁ top err := hs₁ ▸ deliver_spec htop (by omega)
  have hroom₁ : 8 * (stubWords v (isrErrorCode v)).length ≤ s₁.sp := by
    rw [hd.sp_eq]
    omega
  obtain ⟨s₂, hs₂⟩ : ∃ s₂, s₂ = s₁.pushAll (stubWords v (isrErrorCode v)) := ⟨_, rfl⟩
  have hsp₂ : s₂.sp = top - 56 := by
    rw [hs₂, State.sp_pushAll hroom₁, hd.sp_eq]
    omega
  have hwords₂ := State.words_pushAll hroom₁ hd.words
  rw [← hs₂] at hwords₂
  have hcpu₂ := State.cpu_pushAll hroom₁
  rw [← hs₂] at hcpu₂
  have hregs : savedRegs.map s₂.cpu.regs = savedRegs.map s.cpu.regs := by
    refine List.map_congr_left fun r hr => ?_
    have hne : r ≠ .rsp := by
      rintro rfl
      exact absurd hr (by decide)
    rw [hcpu₂, Cpu.regs_set_of_ne hne, hd.regs_eq r hne]
  obtain ⟨s₃, w, hrun₃, hcpu₃, hwords₃, hmem₃⟩ := run_pushFrame (by omega) (by omega) hwords₂
  rw [hregs, hsp₂, show top - 56 - 128 = top - 23 * 8 by omega,
    show top - 56 + 40 = top - 23 * 8 + 168 by omega, words_frameOf hv _ _ herr] at hwords₃
  rw [hsp₂, show top - 56 - 128 = top - 23 * 8 by omega] at hcpu₃ hmem₃
  have hrsp₃ : s₃.cpu.regs .rsp = BitVec.ofNat 64 (top - 23 * 8) := by rw [hcpu₃, Cpu.regs_set_self]
  have hsp₃ : s₃.sp = top - 23 * 8 := by
    rw [State.sp, hrsp₃, BitVec.toNat_ofNat, Nat.mod_eq_of_lt (by omega)]
  obtain ⟨rest, hcode, hrest⟩ := code_eq hstub
  obtain ⟨s₄, hrun₄, hrdi, hr12, hsp₄, hmem₄, hcs, hflag⟩ := run_align s₃ hrest
  refine ⟨s₄, ?_, ⟨hrdi.trans hrsp₃, fun h => (hr12 h).trans hrsp₃, hsp₄.trans (by rw [hsp₃]),
    hmem₄ ▸ hwords₃, fun x hx => ?_, ?_, ?_⟩⟩
  · rw [interrupt, idt_gates, hstub, Option.map_some, Option.bind_some, Stub.gate, T.code_addr, hcode,
      ← Stub.gate, ← hs₁, run_append, run_stub, Option.bind_some, ← hs₂, run_append, hrun₃,
      Option.bind_some, hrun₄]
  · rw [hmem₄, hmem₃ x (by omega), hs₂, State.mem_pushAll hroom₁ (by rw [hd.sp_eq]; omega),
      hd.mem_eq x (by omega)]
  · rw [Cpu.cpl, hcs, hcpu₃, Cpu.cs_set, Cpu.cs_set, hcpu₂, Cpu.cs_set, hs₁, cs_deliver]
    exact (by decide : gdtCode64.toNat % 4 = 0)
  · rw [hflag, hcpu₃, Cpu.interruptFlag_set, Cpu.interruptFlag_set, hcpu₂, Cpu.interruptFlag_set,
      hd.masked]

end Entry

/-! ## Return -/

theorem load_restored (c : Cpu) (f : InterruptFrame) {r : Reg} (hr : r ≠ .rsp) :
    (c.load (restoredRegs.zip (f.words.take 16))).regs r = f.cpu.regs r := by
  cases r
  case rsp => exact absurd rfl hr
  all_goals rfl

/-- **What a return restores.** Whatever the registers hold, the program of the frame goes on. -/
theorem resume_spec {s : State} {r : Reg} {f : InterruptFrame} {a : Nat}
    (hr : s.cpu.regs r = BitVec.ofNat 64 a) (ha : a + interruptFrameSize < 2 ^ 64)
    (hwords : s.mem.Words a f.words) :
    (run s (returnThrough r)).map iretq = some ⟨f.cpu, s.mem⟩ := by
  rw [interruptFrameSize] at ha
  obtain ⟨s₁, hs₁⟩ : ∃ s₁, s₁ = s.set .rsp (s.cpu.regs r) := ⟨_, rfl⟩
  have hsp₁ : s₁.sp = a := by
    rw [hs₁, State.sp, State.set, Cpu.regs_set_self, hr, BitVec.toNat_ofNat, Nat.mod_eq_of_lt (by omega)]
  have hmem₁ : s₁.mem = s.mem := by rw [hs₁, State.set]
  have hsplit : f.words = f.words.take 16 ++ ([f.vector, f.errorCode] ++
      [f.rip, f.cs, f.rflags, f.userRsp, f.userSs]) := rfl
  rw [hsplit, ByteMem.words_append, ByteMem.words_append] at hwords
  obtain ⟨hpops, -, htail⟩ := hwords
  have hlen : (f.words.take 16).length = 16 := rfl
  have hpop := run_pops (by decide : Reg.rsp ∉ restoredRegs) (s := s₁) hlen.symm
    (by rw [hsp₁, hlen]; omega) (by rw [hsp₁, hmem₁]; exact hpops)
  rw [hlen] at hpop
  obtain ⟨s₂, hs₂⟩ : ∃ s₂ : State, s₂ = { s₁ with
    cpu := (s₁.cpu.load (restoredRegs.zip (f.words.take 16))).set .rsp
      (s₁.cpu.regs .rsp + BitVec.ofNat 64 (8 * 16)) } := ⟨_, rfl⟩
  rw [← hs₂] at hpop
  obtain ⟨s₃, hs₃⟩ : ∃ s₃, s₃ = s₂.setResult .rsp (s₂.cpu.regs .rsp + 16) := ⟨_, rfl⟩
  have hrun : run s (returnThrough r) = some s₃ := by
    rw [returnThrough, run_append, run_append, run, exec, Option.bind_some, run, Src.val, ← hs₁,
      Option.bind_some, popFrame, hpop, Option.bind_some, run, exec, Option.bind_some, run, Src.val, hs₃]
  have hsp₃ : s₃.sp = a + 144 := by
    rw [hs₃, State.sp, State.setResult, Cpu.setZeroFlag, Cpu.regs_set_self, hs₂, Cpu.regs_set_self,
      State.regs_rsp s₁, hsp₁, show (16 : Quad) = BitVec.ofNat 64 16 from rfl, ← BitVec.ofNat_add,
      ← BitVec.ofNat_add, BitVec.toNat_ofNat, Nat.mod_eq_of_lt (by omega)]
  have hmem₃ : s₃.mem = s.mem := by rw [hs₃, State.setResult, hs₂, hmem₁]
  rw [hrun, Option.map_some, iretq_of_words (by rw [hsp₃, hmem₃]; exact htail), hmem₃]
  congr 2
  ext q
  · by_cases hq : q = .rsp
    · rw [hq, Cpu.regs_set_self]
      rfl
    · rw [Cpu.regs_set_of_ne hq, hs₃, State.setResult, Cpu.setZeroFlag, Cpu.regs_set_of_ne hq, hs₂,
        Cpu.regs_set_of_ne hq, load_restored _ _ hq]
  all_goals rfl

end Rolnix
