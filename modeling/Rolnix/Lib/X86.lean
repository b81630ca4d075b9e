import Rolnix.Lib.ByteMem
import Rolnix.Lib.Word
import Mathlib.Data.BitVec
import Mathlib.Logic.Function.Basic
import Mathlib.Tactic.SplitIfs

/-!
# A part of the x86-64 processor

General registers, the stack, straight-line code, and the way an interrupt is delivered and returned
from in 64-bit mode. Of the flags, instructions keep track of the zero flag only; addresses do not
wrap inside of one access.

Code that saves registers is a list of pushes and code that restores them a list of pops, so there is
one lemma about each: pushes leave their words in memory in reverse order (`words_pushAll`) and
change nothing else (`mem_pushAll`), pops load the registers with the words they find (`run_pops`).
Entering an interrupt is a list of pushes too (`deliver_spec`), and `iretq` undoes it
(`iretq_of_words`).
-/

/-- The memory has the 8-byte words `ws` from `a` on. -/
def ByteMem.Words (m : ByteMem) (a : Nat) : List Nat → Prop
  | [] => True
  | w :: ws => m.load a 8 = w ∧ ByteMem.Words m (a + 8) ws

/-- Write the 8-byte words `ws` at `a`. -/
def ByteMem.storeWords (m : ByteMem) (a : Nat) : List Nat → ByteMem
  | [] => m
  | w :: ws => ByteMem.storeWords (m.store a 8 w) (a + 8) ws

namespace ByteMem

variable {m m' : ByteMem} {a : Nat} {ws : List Nat}

theorem words_congr (hm : ∀ x, a ≤ x → x < a + 8 * ws.length → m x = m' x) (h : m.Words a ws) :
    m'.Words a ws := by
  induction ws generalizing a with
  | nil => trivial
  | cons w ws ih =>
      rw [List.length_cons] at hm
      refine ⟨?_, ih (fun x hx hx' => hm x (by omega) (by omega)) h.2⟩
      rw [← h.1]
      exact (load_congr fun x hx hx' => hm x hx (by omega)).symm

theorem words_append {vs : List Nat} :
    m.Words a (vs ++ ws) ↔ m.Words a vs ∧ m.Words (a + 8 * vs.length) ws := by
  induction vs generalizing a with
  | nil => simp [Words]
  | cons v vs ih =>
      rw [List.cons_append, Words, Words, ih, List.length_cons, and_assoc,
        show a + 8 + 8 * vs.length = a + 8 * (vs.length + 1) by omega]

theorem Words.load {i w : Nat} (h : m.Words a ws) (hw : ws[i]? = some w) :
    m.load (a + 8 * i) 8 = w := by
  induction ws generalizing a i with
  | nil => cases hw
  | cons v ws ih =>
      cases i with
      | zero => exact h.1.trans (Option.some.inj hw)
      | succ i =>
          rw [show a + 8 * (i + 1) = a + 8 + 8 * i by omega]
          exact ih h.2 hw

theorem Words.store {i v : Nat} (h : m.Words a ws) (hi : i < ws.length) (hv : v < 2 ^ 64) :
    (m.store (a + 8 * i) 8 v).Words a (ws.set i v) := by
  induction ws generalizing a i with
  | nil => cases hi
  | cons w ws ih =>
      cases i with
      | zero =>
          refine ⟨load_store_same_of_lt hv, ?_⟩
          exact words_congr (fun x hx _ => (store_of_not_mem (by omega)).symm) h.2
      | succ i =>
          rw [List.length_cons] at hi
          rw [show a + 8 * (i + 1) = a + 8 + 8 * i by omega]
          refine ⟨?_, ih h.2 (by omega)⟩
          rw [load_store_of_disjoint (by omega), h.1]

theorem storeWords_of_not_mem {x : Nat} (h : x < a ∨ a + 8 * ws.length ≤ x) :
    m.storeWords a ws x = m x := by
  induction ws generalizing a m with
  | nil => rfl
  | cons w ws ih =>
      rw [List.length_cons] at h
      rw [storeWords, ih (by omega), store_of_not_mem (by omega)]

theorem words_storeWords (h : ∀ w ∈ ws, w < 2 ^ 64) : (m.storeWords a ws).Words a ws := by
  induction ws generalizing a m with
  | nil => trivial
  | cons w ws ih =>
      refine ⟨?_, ih fun v hv => h v (List.mem_cons_of_mem w hv)⟩
      rw [storeWords, load_congr fun x _ hx => storeWords_of_not_mem (.inl hx),
        load_store_same_of_lt (h w List.mem_cons_self)]

end ByteMem

namespace X86

/-! ## The processor -/

/-- A quadword. -/
abbrev Quad := BitVec 64

inductive Reg
  | rax | rbx | rcx | rdx | rsi | rdi | rbp | rsp | r8 | r9 | r10 | r11 | r12 | r13 | r14 | r15
  deriving DecidableEq, Repr

/-- What a program sees of the processor, without the x87, SSE and data segment registers. -/
@[ext] structure Cpu where
  regs : Reg → Quad
  rip : Quad
  rflags : Quad
  cs : BitVec 16
  ss : BitVec 16

/-- A processor and its memory. -/
@[ext] structure State where
  cpu : Cpu
  mem : ByteMem

namespace Cpu

def set (c : Cpu) (r : Reg) (v : Quad) : Cpu := { c with regs := Function.update c.regs r v }

/-- The current privilege level, the low two bits of `cs`. -/
def cpl (c : Cpu) : Nat := c.cs.toNat % 4

/-- The interrupt flag, bit 9. -/
def interruptFlag (c : Cpu) : Bool := c.rflags.getLsbD 9

/-- The zero flag, bit 6. -/
def zeroFlag (c : Cpu) : Bool := c.rflags.getLsbD 6

def setZeroFlag (c : Cpu) (v : Quad) : Cpu :=
  { c with rflags := if v = 0 then c.rflags ||| 0x40#64 else c.rflags &&& ~~~0x40#64 }

theorem interruptFlag_setZeroFlag (c : Cpu) (v : Quad) :
    (c.setZeroFlag v).interruptFlag = c.interruptFlag := by
  rw [setZeroFlag, interruptFlag, interruptFlag]
  split_ifs <;> simp

@[simp] theorem regs_set_self (c : Cpu) (r : Reg) (v : Quad) : (c.set r v).regs r = v := by
  simp [set]

@[simp] theorem cs_set (c : Cpu) (r : Reg) (v : Quad) : (c.set r v).cs = c.cs := rfl

@[simp] theorem interruptFlag_set (c : Cpu) (r : Reg) (v : Quad) :
    (c.set r v).interruptFlag = c.interruptFlag := rfl

theorem regs_set_of_ne {c : Cpu} {r r' : Reg} {v : Quad} (h : r' ≠ r) :
    (c.set r v).regs r' = c.regs r' := by
  simp [set, h]

theorem set_set (c : Cpu) (r : Reg) (v w : Quad) : (c.set r v).set r w = c.set r w := by
  rw [set, set, set, Function.update_idem]

theorem set_comm (c : Cpu) {r r' : Reg} (h : r ≠ r') (v w : Quad) :
    (c.set r v).set r' w = (c.set r' w).set r v := by
  rw [set, set, set, set, Function.update_comm h]

end Cpu

namespace State

/-- The stack pointer, as an address. -/
def sp (s : State) : Nat := (s.cpu.regs .rsp).toNat

def set (s : State) (r : Reg) (v : Quad) : State := { s with cpu := s.cpu.set r v }

/-- Write a result of the arithmetic unit. -/
def setResult (s : State) (r : Reg) (v : Quad) : State :=
  { s with cpu := (s.cpu.set r v).setZeroFlag v }

def push (s : State) (v : Quad) : State :=
  let sp := s.cpu.regs .rsp - 8
  { cpu := s.cpu.set .rsp sp, mem := s.mem.store sp.toNat 8 v.toNat }

/-- The quadword `i` words above the stack pointer. -/
def peek (s : State) (i : Nat) : Quad := BitVec.ofNat 64 (s.mem.load (s.sp + 8 * i) 8)

def pop (s : State) (r : Reg) : State :=
  { s with cpu := (s.cpu.set .rsp (s.cpu.regs .rsp + 8)).set r (s.peek 0) }

def pushAll (s : State) (vs : List Quad) : State := vs.foldl push s

end State

/-! ## Straight-line code -/

/-- A source operand. -/
inductive Src
  | reg (r : Reg)
  | imm (v : Quad)

def Src.val (c : Cpu) : Src → Quad
  | .reg r => c.regs r
  | .imm v => v

inductive Instr
  | push (src : Src)
  | pop (dst : Reg)
  | mov (dst : Reg) (src : Src)
  /-- `lea dst, [base + off]`. -/
  | lea (dst base : Reg) (off : Quad)
  | add (dst : Reg) (src : Src)
  | sub (dst : Reg) (src : Src)
  | and (dst : Reg) (src : Src)
  | xor (dst : Reg) (src : Src)
  | inc (dst : Reg)
  | dec (dst : Reg)
  | cmp (dst : Reg) (src : Src)
  /-- Divide `rdx:rax`. -/
  | div (src : Reg)
  /-- `movzbl (base), dst`: load a byte, and clear the rest of the register. -/
  | movzb (dst base : Reg)

/-- Quotient and remainder; there is none if the quotient does not fit. -/
def State.divide (s : State) (n d : Nat) : Option State :=
  if d = 0 ∨ 2 ^ 64 ≤ n / d then none
  else some ((s.set .rax (BitVec.ofNat 64 (n / d))).set .rdx (BitVec.ofNat 64 (n % d)))

/-- Execute one instruction; `none` is a divide error. -/
def exec (s : State) : Instr → Option State
  | .push src => some (s.push (src.val s.cpu))
  | .pop dst => some (s.pop dst)
  | .mov dst src => some (s.set dst (src.val s.cpu))
  | .lea dst base off => some (s.set dst (s.cpu.regs base + off))
  | .add dst src => some (s.setResult dst (s.cpu.regs dst + src.val s.cpu))
  | .sub dst src => some (s.setResult dst (s.cpu.regs dst - src.val s.cpu))
  | .and dst src => some (s.setResult dst (s.cpu.regs dst &&& src.val s.cpu))
  | .xor dst src => some (s.setResult dst (s.cpu.regs dst ^^^ src.val s.cpu))
  | .inc dst => some (s.setResult dst (s.cpu.regs dst + 1))
  | .dec dst => some (s.setResult dst (s.cpu.regs dst - 1))
  | .cmp dst src => some { s with cpu := s.cpu.setZeroFlag (s.cpu.regs dst - src.val s.cpu) }
  | .div src =>
      s.divide ((s.cpu.regs .rdx).toNat * 2 ^ 64 + (s.cpu.regs .rax).toNat) (s.cpu.regs src).toNat
  | .movzb dst base => some (s.set dst (BitVec.ofNat 64 (s.mem (s.cpu.regs base).toNat).toNat))

def run (s : State) : List Instr → Option State
  | [] => some s
  | i :: is => (exec s i).bind fun s => run s is

theorem run_append (s : State) (is js : List Instr) :
    run s (is ++ js) = (run s is).bind fun s => run s js := by
  induction is generalizing s with
  | nil => rfl
  | cons i is ih =>
      rw [List.cons_append, run, run, Option.bind_assoc]
      congr 1
      funext s₁
      exact ih s₁

/-- Of the instructions, `push` is the one that writes memory. -/
theorem exec_mem {s s' : State} {i : Instr} (hi : ∀ src, i ≠ .push src) (h : exec s i = some s') :
    s'.mem = s.mem := by
  cases i with
  | push src => exact absurd rfl (hi src)
  | div src =>
      rw [exec, State.divide] at h
      split_ifs at h
      obtain rfl := Option.some.inj h
      rfl
  | _ =>
      obtain rfl := Option.some.inj h
      rfl

theorem run_mem {s s' : State} {is : List Instr} (his : ∀ i ∈ is, ∀ src, i ≠ .push src)
    (h : run s is = some s') : s'.mem = s.mem := by
  induction is generalizing s with
  | nil =>
      obtain rfl := Option.some.inj h
      rfl
  | cons i is ih =>
      obtain ⟨s₁, hexec, hrest⟩ := Option.bind_eq_some_iff.1 h
      rw [ih (fun j hj => his j (List.mem_cons_of_mem i hj)) hrest, exec_mem (his i List.mem_cons_self) hexec]

/-! ## Pushes -/

namespace State

variable {s : State} {v : Quad} {vs : List Quad} {ws : List Nat} {x : Nat}

theorem sp_push (h : 8 ≤ s.sp) : (s.push v).sp = s.sp - 8 := by
  rw [sp, push, Cpu.regs_set_self]
  exact BitVec.toNat_sub_of_le h

theorem mem_push (h : 8 ≤ s.sp) : (s.push v).mem = s.mem.store (s.sp - 8) 8 v.toNat := by
  rw [← sp_push h, sp, push, Cpu.regs_set_self]

theorem words_push (h : 8 ≤ s.sp) (hws : s.mem.Words s.sp ws) :
    (s.push v).mem.Words (s.push v).sp (v.toNat :: ws) := by
  rw [sp_push h, mem_push h]
  refine ⟨ByteMem.load_store_same_of_lt v.isLt, ?_⟩
  rw [Nat.sub_add_cancel h]
  exact ByteMem.words_congr (fun x hx _ => (ByteMem.store_of_not_mem (by omega)).symm) hws

theorem sp_pushAll (h : 8 * vs.length ≤ s.sp) : (s.pushAll vs).sp = s.sp - 8 * vs.length := by
  induction vs generalizing s with
  | nil => rfl
  | cons v vs ih =>
      rw [List.length_cons] at h ⊢
      rw [pushAll, List.foldl_cons, ← pushAll, ih, sp_push (by omega)]
      · omega
      · rw [sp_push (by omega)]
        omega

theorem regs_rsp (s : State) : s.cpu.regs .rsp = BitVec.ofNat 64 s.sp := by
  rw [sp, BitVec.ofNat_toNat, BitVec.setWidth_eq]

theorem cpu_push (h : 8 ≤ s.sp) : (s.push v).cpu = s.cpu.set .rsp (BitVec.ofNat 64 (s.sp - 8)) := by
  rw [← sp_push h, ← regs_rsp, push, Cpu.regs_set_self]

theorem cpu_pushAll (h : 8 * vs.length ≤ s.sp) :
    (s.pushAll vs).cpu = s.cpu.set .rsp (BitVec.ofNat 64 (s.sp - 8 * vs.length)) := by
  rw [← sp_pushAll h, ← regs_rsp]
  induction vs generalizing s with
  | nil => rw [pushAll, List.foldl_nil, Cpu.set, Function.update_eq_self]
  | cons v vs ih =>
      rw [List.length_cons] at h
      have hsp : (s.push v).sp = s.sp - 8 := sp_push (by omega)
      rw [pushAll, List.foldl_cons, ← pushAll, ih (by omega), Cpu.regs_set_self, push, Cpu.set_set]

/-- **Pushes leave their words, the last one first.** -/
theorem words_pushAll (h : 8 * vs.length ≤ s.sp) (hws : s.mem.Words s.sp ws) :
    (s.pushAll vs).mem.Words (s.pushAll vs).sp ((vs.map BitVec.toNat).reverse ++ ws) := by
  induction vs generalizing s ws with
  | nil => exact hws
  | cons v vs ih =>
      rw [List.length_cons] at h
      have hnext := @ih (s.push v) (v.toNat :: ws) (by rw [sp_push (by omega)]; omega)
        (words_push (by omega) hws)
      rw [List.map_cons, List.reverse_cons, List.append_assoc]
      exact hnext

theorem mem_pushAll (h : 8 * vs.length ≤ s.sp) (hx : x < s.sp - 8 * vs.length ∨ s.sp ≤ x) :
    (s.pushAll vs).mem x = s.mem x := by
  induction vs generalizing s with
  | nil => rfl
  | cons v vs ih =>
      rw [List.length_cons] at h hx
      have hsp : (s.push v).sp = s.sp - 8 := sp_push (by omega)
      rw [pushAll, List.foldl_cons, ← pushAll, ih (by omega) (by omega), mem_push (by omega),
        ByteMem.store_of_not_mem (by omega)]

end State

theorem run_pushes {rs : List Reg} (hrs : Reg.rsp ∉ rs) (s : State) :
    run s (rs.map fun r => .push (.reg r)) = some (s.pushAll (rs.map s.cpu.regs)) := by
  induction rs generalizing s with
  | nil => rfl
  | cons r rs ih =>
      rw [List.mem_cons, not_or] at hrs
      have hsame : rs.map (s.push (s.cpu.regs r)).cpu.regs = rs.map s.cpu.regs := by
        refine List.map_congr_left fun r' hr' => Cpu.regs_set_of_ne ?_
        rintro rfl
        exact hrs.2 hr'
      rw [List.map_cons, run, exec, Option.bind_some, Src.val, ih hrs.2, hsame, List.map_cons,
        State.pushAll, State.pushAll, List.foldl_cons]

/-! ## Pops -/

/-- Load registers one after the other. -/
def Cpu.load (c : Cpu) : List (Reg × Nat) → Cpu
  | [] => c
  | p :: ps => Cpu.load (c.set p.1 (BitVec.ofNat 64 p.2)) ps

theorem Cpu.load_set {ps : List (Reg × Nat)} {r : Reg} (h : r ∉ ps.map Prod.fst) (c : Cpu)
    (v : Quad) : (c.set r v).load ps = (c.load ps).set r v := by
  induction ps generalizing c with
  | nil => rfl
  | cons p ps ih =>
      rw [List.map_cons, List.mem_cons, not_or] at h
      rw [Cpu.load, Cpu.load, Cpu.set_comm c h.1, ih h.2]

theorem State.peek_zero {s : State} {w : Nat} {ws : List Nat} (h : s.mem.Words s.sp (w :: ws)) :
    s.peek 0 = BitVec.ofNat 64 w := by
  rw [State.peek, Nat.mul_zero, Nat.add_zero, h.1]

theorem State.sp_pop {s : State} {r : Reg} (hr : r ≠ .rsp) (h : s.sp + 8 < 2 ^ 64) :
    (s.pop r).sp = s.sp + 8 := by
  rw [State.pop, State.sp, Cpu.regs_set_of_ne hr.symm, Cpu.regs_set_self]
  exact BitVec.toNat_add_of_lt h

/-- **Pops load the words they find.** -/
theorem run_pops {rs : List Reg} (hrs : Reg.rsp ∉ rs) {ws : List Nat} {s : State}
    (hlen : rs.length = ws.length) (hsp : s.sp + 8 * ws.length < 2 ^ 64)
    (hws : s.mem.Words s.sp ws) :
    run s (rs.map .pop) = some { s with
      cpu := (s.cpu.load (rs.zip ws)).set .rsp (s.cpu.regs .rsp + BitVec.ofNat 64 (8 * ws.length)) } := by
  induction rs generalizing s ws with
  | nil =>
      obtain rfl := List.length_eq_zero_iff.1 hlen.symm
      simp [run, Cpu.load, Cpu.set]
  | cons r rs ih =>
      obtain ⟨w, ws, rfl⟩ := List.exists_cons_of_length_eq_add_one hlen.symm
      rw [List.mem_cons, not_or] at hrs
      rw [List.length_cons] at hsp
      rw [List.length_cons, List.length_cons] at hlen
      have hstep : s.pop r = { s with
          cpu := (s.cpu.set r (BitVec.ofNat 64 w)).set .rsp (s.cpu.regs .rsp + 8) } := by
        rw [State.pop, State.peek_zero hws, Cpu.set_comm _ hrs.1]
      have hsp' : (s.pop r).sp = s.sp + 8 := State.sp_pop (Ne.symm hrs.1) (by omega)
      have hmem : (s.pop r).mem = s.mem := rfl
      rw [List.map_cons, run, exec, Option.bind_some,
        @ih hrs.2 ws (s.pop r) (by omega) (by omega) (by rw [hsp', hmem]; exact hws.2)]
      have hzip : Reg.rsp ∉ (rs.zip ws).map Prod.fst := by
        rw [List.map_fst_zip (by omega)]
        exact hrs.2
      rw [hmem, hstep, Cpu.regs_set_self, Cpu.load_set hzip, Cpu.set_set, List.zip_cons_cons,
        Cpu.load, List.length_cons, Nat.mul_succ, Nat.add_comm (8 * ws.length), BitVec.ofNat_add,
        BitVec.add_assoc]
      rfl

/-! ## Interrupts -/

/-- The stacks a task state segment names. -/
structure Tss where
  rsp0 : Quad
  ist : Nat → Quad

/-- What a gate of the interrupt descriptor table says. Gates lead to privilege level 0. -/
structure Gate where
  target : Quad
  selector : BitVec 16
  /-- Interrupt stack table index, 0 for none. -/
  ist : Nat
  /-- The least privileged level that may use the gate with `int`. -/
  dpl : Nat
  deriving DecidableEq

/-- The stack an interrupt is taken on. -/
def Gate.stack (g : Gate) (t : Tss) (c : Cpu) : Quad :=
  if g.ist ≠ 0 then t.ist g.ist else if c.cpl ≠ 0 then t.rsp0 else c.regs .rsp

/-- The stack is aligned before anything is pushed. -/
def alignStack (a : Quad) : Quad := BitVec.ofNat 64 (a.toNat / 16 * 16)

/-- The words the processor pushes. -/
def Cpu.hardwareFrame (c : Cpu) (err : Option Quad) : List Quad :=
  [c.ss.setWidth 64, c.regs .rsp, c.rflags, c.cs.setWidth 64, c.rip] ++ err.toList

/-- Take an interrupt through a gate that masks interrupts: the flags `TF`, `IF`, `NT` and `RF` are
cleared, and a change of level clears `ss`. -/
def deliver (t : Tss) (g : Gate) (err : Option Quad) (s : State) : State :=
  let s' := (s.set .rsp (alignStack (g.stack t s.cpu))).pushAll (s.cpu.hardwareFrame err)
  { s' with cpu := { s'.cpu with
      rip := g.target
      cs := g.selector
      ss := if s.cpu.cpl ≠ 0 then 0 else s.cpu.ss
      rflags := s.cpu.rflags &&& ~~~0x14300#64 } }

/-- Return from an interrupt. -/
def iretq (s : State) : State :=
  { s with cpu := { s.cpu.set .rsp (s.peek 3) with
      rip := s.peek 0
      cs := (s.peek 1).setWidth 16
      rflags := s.peek 2
      ss := (s.peek 4).setWidth 16 } }

section Interrupts

variable {t : Tss} {g : Gate} {err : Option Quad} {s : State}

theorem sp_alignStack (s : State) (a : Quad) :
    (s.set .rsp (alignStack a)).sp = a.toNat / 16 * 16 := by
  rw [State.sp, State.set, Cpu.regs_set_self, alignStack, BitVec.toNat_ofNat]
  exact Nat.mod_eq_of_lt (lt_of_le_of_lt (Nat.div_mul_le_self _ _) a.isLt)

theorem cs_deliver (t : Tss) (g : Gate) (err : Option Quad) (s : State) :
    (deliver t g err s).cpu.cs = g.selector := rfl

/-- What an interrupt pushes, where, and that it writes nothing else. -/
structure Delivered (s s' : State) (top : Nat) (err : Option Quad) : Prop where
  sp_eq : s'.sp = top - 8 * (s.cpu.hardwareFrame err).length
  words : s'.mem.Words s'.sp ((s.cpu.hardwareFrame err).map BitVec.toNat).reverse
  mem_eq : ∀ x, x < top - 8 * (s.cpu.hardwareFrame err).length ∨ top ≤ x → s'.mem x = s.mem x
  regs_eq : ∀ r, r ≠ .rsp → s'.cpu.regs r = s.cpu.regs r
  masked : s'.cpu.interruptFlag = false

theorem deliver_spec {top : Nat} (htop : (g.stack t s.cpu).toNat / 16 * 16 = top)
    (hroom : 8 * (s.cpu.hardwareFrame err).length ≤ top) :
    Delivered s (deliver t g err s) top err := by
  obtain ⟨s₀, hs₀⟩ : ∃ s₀, s₀ = s.set .rsp (alignStack (g.stack t s.cpu)) := ⟨_, rfl⟩
  have hsp : s₀.sp = top := by rw [hs₀, sp_alignStack, htop]
  have hregs : (deliver t g err s).cpu.regs = (s₀.pushAll (s.cpu.hardwareFrame err)).cpu.regs := by
    rw [hs₀, deliver]
  have hmem : (deliver t g err s).mem = (s₀.pushAll (s.cpu.hardwareFrame err)).mem := by
    rw [hs₀, deliver]
  have hsp' : (deliver t g err s).sp = (s₀.pushAll (s.cpu.hardwareFrame err)).sp := by
    rw [State.sp, State.sp, hregs]
  rw [← hsp] at hroom ⊢
  refine ⟨?_, ?_, fun x hx => ?_, fun r hr => ?_, by simp [deliver, Cpu.interruptFlag]⟩
  · rw [hsp', State.sp_pushAll hroom]
  · rw [hsp', hmem, ← List.append_nil (List.reverse _)]
    exact State.words_pushAll hroom trivial
  · rw [hmem, State.mem_pushAll hroom hx, hs₀, State.set]
  · rw [hregs, State.cpu_pushAll hroom, Cpu.regs_set_of_ne hr, hs₀, State.set, Cpu.regs_set_of_ne hr]

theorem iretq_of_words {rip cs rflags rsp ss : Nat} (h : s.mem.Words s.sp [rip, cs, rflags, rsp, ss]) :
    iretq s = { s with cpu := { s.cpu.set .rsp (BitVec.ofNat 64 rsp) with
      rip := BitVec.ofNat 64 rip
      cs := BitVec.ofNat 16 cs
      rflags := BitVec.ofNat 64 rflags
      ss := BitVec.ofNat 16 ss } } := by
  obtain ⟨hrip, hcs, hrflags, hrsp, hss, -⟩ := h
  have hnarrow : ∀ w : Nat, (BitVec.ofNat 64 w).setWidth 16 = BitVec.ofNat 16 w := fun w =>
    BitVec.setWidth_ofNat_of_le (by decide) w
  simp only [iretq, State.peek, Nat.mul_zero, Nat.add_zero, hrip, Nat.mul_one, hcs,
    show 8 * 2 = 8 + 8 from rfl, show 8 * 3 = 8 + 8 + 8 from rfl, show 8 * 4 = 8 + 8 + 8 + 8 from rfl,
    ← Nat.add_assoc, hrflags, hrsp, hss, hnarrow]

end Interrupts

end X86
