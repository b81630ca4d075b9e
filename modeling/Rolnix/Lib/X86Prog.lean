import Rolnix.Lib.X86

/-!
# Programs

A program is a list of instructions, with an address for each. A step executes the instruction at `rip`;
it fails where there is none, and where the instruction would read or write outside of the memory the
program has been given (`Window`). `int` is left to the caller: the step says that it was executed, and
that the program is to go on behind it.

`Agree` is memory that looks the same to a program. A step depends on nothing else (`step_same`), and
writes only the part of it that it may write (`step_framed`).
-/

namespace X86

/-- The memory that a program may read, and the part that it may write. -/
structure Window where
  low : Nat
  high : Nat
  writeLow : Nat
  writeHigh : Nat
  low_le : low ≤ writeLow
  le_high : writeHigh ≤ high

namespace Window

variable (w : Window)

def Readable (a k : Nat) : Prop := w.low ≤ a ∧ a + k ≤ w.high

instance (a k : Nat) : Decidable (w.Readable a k) := inferInstanceAs (Decidable (_ ∧ _))

def Writable (a k : Nat) : Prop := w.writeLow ≤ a ∧ a + k ≤ w.writeHigh

instance (a k : Nat) : Decidable (w.Writable a k) := inferInstanceAs (Decidable (_ ∧ _))

/-- Memories that look the same through the window. -/
def Agree (m m' : ByteMem) : Prop := ∀ x, w.low ≤ x → x < w.high → m x = m' x

end Window

inductive Op
  | instr (i : Instr)
  /-- Jump to an instruction, by its number, if the zero flag is clear. -/
  | jnz (target : Nat)
  | call (target : Nat)
  | ret
  | int (n : Nat)
  | hlt

/-- Whether the accesses of an instruction are inside of the window. -/
def Instr.Ok (w : Window) (s : State) : Instr → Prop
  | .push _ => 8 ≤ s.sp ∧ w.Writable (s.sp - 8) 8
  | .pop _ => w.Readable s.sp 8
  | .movzb _ base => w.Readable (s.cpu.regs base).toNat 1
  | _ => True

instance (w : Window) (s : State) (i : Instr) : Decidable (i.Ok w s) := by
  unfold Instr.Ok
  split <;> infer_instance

def Op.Ok (w : Window) (s : State) : Op → Prop
  | .instr i => i.Ok w s
  | .call _ => 8 ≤ s.sp ∧ w.Writable (s.sp - 8) 8
  | .ret => w.Readable s.sp 8
  | _ => True

instance (w : Window) (s : State) (op : Op) : Decidable (op.Ok w s) := by
  unfold Op.Ok
  split <;> infer_instance

/-- Instructions, and where they are. -/
structure Program where
  ops : List Op
  addr : Nat → Quad
  addr_inj : ∀ {i j}, i < ops.length → j < ops.length → addr i = addr j → i = j

def State.goto (s : State) (a : Quad) : State := { s with cpu := { s.cpu with rip := a } }

/-- Pop the address to go on at. -/
def State.ret (s : State) : State :=
  { s with cpu := { s.cpu.set .rsp (s.cpu.regs .rsp + 8) with rip := s.peek 0 } }

/-! ## Registers and flags after an instruction -/

namespace State

variable (s : State) (r r' : Reg) (v : Quad)

@[simp] theorem regs_set : (s.set r v).cpu.regs r' = if r' = r then v else s.cpu.regs r' := by
  by_cases h : r' = r
  · rw [if_pos h, h, set, Cpu.regs_set_self]
  · rw [if_neg h, set, Cpu.regs_set_of_ne h]

@[simp] theorem mem_set : (s.set r v).mem = s.mem := rfl

@[simp] theorem regs_setResult : (s.setResult r v).cpu.regs r' = if r' = r then v else s.cpu.regs r' :=
  regs_set s r r' v

@[simp] theorem mem_setResult : (s.setResult r v).mem = s.mem := rfl

end State

@[simp] theorem Cpu.zeroFlag_setZeroFlag (c : Cpu) (v : Quad) :
    (c.setZeroFlag v).zeroFlag = decide (v = 0) := by
  rw [Cpu.setZeroFlag, Cpu.zeroFlag]
  split_ifs with h
  · simp [h]
  · simpa using h

@[simp] theorem State.zeroFlag_setResult (s : State) (r : Reg) (v : Quad) :
    (s.setResult r v).cpu.zeroFlag = decide (v = 0) :=
  Cpu.zeroFlag_setZeroFlag _ v

theorem State.divide_goto (s : State) (a : Quad) (n d : Nat) :
    (s.goto a).divide n d = (s.divide n d).map fun s => s.goto a := by
  rw [divide, divide]
  split_ifs
  · rfl
  · rfl

/-- Instructions other than jumps do not depend on where they are. -/
theorem exec_goto (s : State) (a : Quad) (i : Instr) :
    exec (s.goto a) i = (exec s i).map fun s => s.goto a := by
  cases i with
  | div src =>
      exact State.divide_goto s a _ _
  | _ => rfl

theorem ok_goto (w : Window) (s : State) (a : Quad) (op : Op) : op.Ok w (s.goto a) ↔ op.Ok w s := by
  cases op with
  | instr i => cases i <;> exact Iff.rfl
  | _ => exact Iff.rfl

namespace Program

variable (P : Program)

/-- The number of the instruction at an address. -/
def index (a : Quad) : Option Nat := (List.range P.ops.length).find? fun i => P.addr i = a

/-- Execute instruction `i`. -/
def act (i : Nat) (s : State) : Op → Option (State × Option Nat)
  | .instr ins => (exec s ins).map fun s => (s.goto (P.addr (i + 1)), none)
  | .jnz target => some (s.goto (P.addr (if s.cpu.zeroFlag then i + 1 else target)), none)
  | .call target => some ((s.push (P.addr (i + 1))).goto (P.addr target), none)
  | .ret => some (s.ret, none)
  | .int n => some (s.goto (P.addr (i + 1)), some n)
  | .hlt => none

/-- One step: the state, and the number of the software interrupt if there was one. -/
def step (w : Window) (s : State) : Option (State × Option Nat) := do
  let i ← P.index s.cpu.rip
  let op ← P.ops[i]?
  if op.Ok w s then P.act i s op else none

variable {P} {w : Window} {s : State} {i : Nat} {op : Op}

theorem index_addr (hi : i < P.ops.length) : P.index (P.addr i) = some i := by
  have hex : ∃ j, P.index (P.addr i) = some j := by
    rw [index, ← Option.isSome_iff_exists, List.find?_isSome]
    exact ⟨i, List.mem_range.2 hi, by simp⟩
  obtain ⟨j, hj⟩ := hex
  have hmem := List.mem_range.1 (List.mem_of_find?_eq_some hj)
  have haddr := List.find?_some hj
  rw [decide_eq_true_iff] at haddr
  rw [hj, P.addr_inj hmem hi haddr]

theorem step_eq (hop : P.ops[i]? = some op) (hrip : s.cpu.rip = P.addr i) (hok : op.Ok w s) :
    P.step w s = P.act i s op := by
  have hi : i < P.ops.length := (List.getElem?_eq_some_iff.1 hop).1
  rw [step, hrip, index_addr hi]
  simp only [Option.bind_eq_bind, Option.bind_some, hop, if_pos hok]

theorem step_some {r : State × Option Nat} (h : P.step w s = some r) :
    ∃ i op, P.ops[i]? = some op ∧ op.Ok w s ∧ P.act i s op = some r := by
  simp only [step, Option.bind_eq_bind, Option.bind_eq_some_iff] at h
  obtain ⟨i, -, op, hop, hact⟩ := h
  split_ifs at hact with hok
  exact ⟨i, op, hop, hok, hact⟩

end Program

/-! ## What a step depends on, and what it changes -/

/-- Processors in the same state, with memories that look the same through the window. -/
structure Same (w : Window) (s s' : State) : Prop where
  cpu : s.cpu = s'.cpu
  mem : w.Agree s.mem s'.mem

/-- What a step leaves alone: memory outside of the part that may be written, the code segment and the
interrupt flag. -/
structure Framed (w : Window) (s s' : State) : Prop where
  mem : ∀ x, x < w.writeLow ∨ w.writeHigh ≤ x → s'.mem x = s.mem x
  cs : s'.cpu.cs = s.cpu.cs
  interruptFlag : s'.cpu.interruptFlag = s.cpu.interruptFlag

section Frames

variable {w : Window} {s s' s₁ : State}

namespace Same

theorem sp (h : Same w s s') : s.sp = s'.sp := by rw [State.sp, State.sp, h.cpu]

theorem peek (h : Same w s s') (hr : w.Readable s.sp 8) : s.peek 0 = s'.peek 0 := by
  rw [State.peek, State.peek, ← h.sp, ByteMem.load_congr fun x hx hx' => h.mem x ?_ ?_]
  · exact hr.1.trans (by omega)
  · exact lt_of_lt_of_le hx' hr.2

theorem set (h : Same w s s') (r : Reg) (v : Quad) : Same w (s.set r v) (s'.set r v) :=
  ⟨by rw [State.set, State.set, h.cpu], h.mem⟩

theorem setResult (h : Same w s s') (r : Reg) (v : Quad) : Same w (s.setResult r v) (s'.setResult r v) :=
  ⟨by rw [State.setResult, State.setResult, h.cpu], h.mem⟩

theorem goto (h : Same w s s') (a : Quad) : Same w (s.goto a) (s'.goto a) :=
  ⟨by rw [State.goto, State.goto, h.cpu], h.mem⟩

theorem push (h : Same w s s') (v : Quad) : Same w (s.push v) (s'.push v) := by
  refine ⟨by rw [State.push, State.push, h.cpu], fun x hx hx' => ?_⟩
  simp only [State.push, h.cpu, ByteMem.store]
  split_ifs
  · rfl
  · exact h.mem x hx hx'

theorem pop (h : Same w s s') (hr : w.Readable s.sp 8) (r : Reg) : Same w (s.pop r) (s'.pop r) :=
  ⟨by rw [State.pop, State.pop, h.cpu, h.peek hr], h.mem⟩

theorem divide (h : Same w s s') {n d : Nat} (hs : s.divide n d = some s₁) :
    ∃ s₁', s'.divide n d = some s₁' ∧ Same w s₁ s₁' := by
  rw [State.divide] at hs ⊢
  split_ifs at hs ⊢
  obtain rfl := Option.some.inj hs
  exact ⟨_, rfl, (h.set _ _).set _ _⟩

end Same

/-- **An instruction depends on the window only.** -/
theorem exec_same {i : Instr} (h : Same w s s') (hok : i.Ok w s) (hs : exec s i = some s₁) :
    ∃ s₁', exec s' i = some s₁' ∧ Same w s₁ s₁' := by
  have hcpu := h.cpu
  cases i with
  | div src =>
      rw [exec, hcpu] at hs
      exact h.divide hs
  | push src =>
      obtain rfl := Option.some.inj hs
      exact ⟨_, rfl, hcpu ▸ h.push _⟩
  | pop dst =>
      obtain rfl := Option.some.inj hs
      exact ⟨_, rfl, h.pop hok dst⟩
  | movzb dst base =>
      obtain rfl := Option.some.inj hs
      refine ⟨_, rfl, ?_⟩
      rw [h.mem _ hok.1 hok.2, hcpu]
      exact h.set _ _
  | cmp dst src =>
      obtain rfl := Option.some.inj hs
      exact ⟨_, rfl, by rw [hcpu], h.mem⟩
  | mov dst src | lea dst base off =>
      obtain rfl := Option.some.inj hs
      exact ⟨_, rfl, hcpu ▸ h.set _ _⟩
  | add dst src | sub dst src | and dst src | xor dst src | inc dst | dec dst =>
      obtain rfl := Option.some.inj hs
      exact ⟨_, rfl, hcpu ▸ h.setResult _ _⟩

namespace Framed

theorem refl (s : State) : Framed w s s := ⟨fun _ _ => rfl, rfl, rfl⟩

theorem set (r : Reg) (v : Quad) : Framed w s (s.set r v) := ⟨fun _ _ => rfl, rfl, rfl⟩

theorem setResult (r : Reg) (v : Quad) : Framed w s (s.setResult r v) :=
  ⟨fun _ _ => rfl, rfl, Cpu.interruptFlag_setZeroFlag _ _⟩

theorem push (hsp : 8 ≤ s.sp) (hw : w.Writable (s.sp - 8) 8) (v : Quad) : Framed w s (s.push v) := by
  refine ⟨fun x hx => ?_, rfl, rfl⟩
  rw [State.mem_push hsp]
  have hlow := hw.1
  have hhigh := hw.2
  exact ByteMem.store_of_not_mem (by omega)

theorem trans (h : Framed w s s₁) (h' : Framed w s₁ s') : Framed w s s' :=
  ⟨fun x hx => (h'.mem x hx).trans (h.mem x hx), h'.cs.trans h.cs, h'.interruptFlag.trans h.interruptFlag⟩

theorem goto (h : Framed w s s₁) (a : Quad) : Framed w s (s₁.goto a) := ⟨h.mem, h.cs, h.interruptFlag⟩

end Framed

theorem exec_framed {i : Instr} (hok : i.Ok w s) (hs : exec s i = some s₁) : Framed w s s₁ := by
  cases i with
  | div src =>
      rw [exec, State.divide] at hs
      split_ifs at hs
      obtain rfl := Option.some.inj hs
      exact (Framed.set _ _).trans (Framed.set _ _)
  | push src =>
      obtain rfl := Option.some.inj hs
      exact Framed.push hok.1 hok.2 _
  | pop dst =>
      obtain rfl := Option.some.inj hs
      exact ⟨fun _ _ => rfl, rfl, rfl⟩
  | cmp dst src =>
      obtain rfl := Option.some.inj hs
      exact ⟨fun _ _ => rfl, rfl, Cpu.interruptFlag_setZeroFlag _ _⟩
  | mov dst src | lea dst base off | movzb dst base =>
      obtain rfl := Option.some.inj hs
      exact Framed.set _ _
  | add dst src | sub dst src | and dst src | xor dst src | inc dst | dec dst =>
      obtain rfl := Option.some.inj hs
      exact Framed.setResult _ _

end Frames

namespace Program

variable {P : Program} {w : Window} {s s' s₁ : State} {out : Option Nat}

theorem ok_same {op : Op} (h : Same w s s') : op.Ok w s ↔ op.Ok w s' := by
  cases op with
  | instr i => cases i <;> simp only [Op.Ok, Instr.Ok, h.sp, h.cpu]
  | _ => simp only [Op.Ok, h.sp]

/-- **A step depends on the window only.** -/
theorem step_same (h : Same w s s') (hs : P.step w s = some (s₁, out)) :
    ∃ s₁', P.step w s' = some (s₁', out) ∧ Same w s₁ s₁' := by
  simp only [step, Option.bind_eq_bind, Option.bind_eq_some_iff] at hs
  obtain ⟨i, hi, op, hop, hact⟩ := hs
  split_ifs at hact with hok
  have hstep : P.step w s' = P.act i s' op := by
    rw [step, ← h.cpu, hi]
    simp only [Option.bind_eq_bind, Option.bind_some, hop, if_pos ((ok_same h).1 hok)]
  rw [hstep]
  cases op with
  | instr ins =>
      rw [act, Option.map_eq_some_iff] at hact
      obtain ⟨s₂, hexec, hout⟩ := hact
      obtain ⟨s₂', hexec', hsame⟩ := exec_same h hok hexec
      obtain ⟨rfl, rfl⟩ := Prod.mk.inj hout
      exact ⟨_, by rw [act, hexec', Option.map_some], hsame.goto _⟩
  | jnz target =>
      obtain ⟨rfl, rfl⟩ := Prod.mk.inj (Option.some.inj hact)
      rw [act, h.cpu]
      exact ⟨_, rfl, h.goto _⟩
  | call target =>
      obtain ⟨rfl, rfl⟩ := Prod.mk.inj (Option.some.inj hact)
      exact ⟨_, rfl, (h.push _).goto _⟩
  | ret =>
      obtain ⟨rfl, rfl⟩ := Prod.mk.inj (Option.some.inj hact)
      exact ⟨_, rfl, by rw [State.ret, State.ret, h.cpu, h.peek hok], h.mem⟩
  | int n =>
      obtain ⟨rfl, rfl⟩ := Prod.mk.inj (Option.some.inj hact)
      exact ⟨_, rfl, h.goto _⟩
  | hlt => cases hact

/-- **A step writes the write window only.** -/
theorem step_framed (hs : P.step w s = some (s₁, out)) : Framed w s s₁ := by
  obtain ⟨i, op, -, hok, hact⟩ := step_some hs
  cases op with
  | instr ins =>
      rw [act, Option.map_eq_some_iff] at hact
      obtain ⟨s₂, hexec, hout⟩ := hact
      obtain ⟨rfl, rfl⟩ := Prod.mk.inj hout
      exact (exec_framed hok hexec).goto _
  | call target =>
      obtain ⟨rfl, rfl⟩ := Prod.mk.inj (Option.some.inj hact)
      exact (Framed.push hok.1 hok.2 _).goto _
  | jnz target | int n =>
      obtain ⟨rfl, rfl⟩ := Prod.mk.inj (Option.some.inj hact)
      exact (Framed.refl s).goto _
  | ret =>
      obtain ⟨rfl, rfl⟩ := Prod.mk.inj (Option.some.inj hact)
      exact ⟨fun _ _ => rfl, rfl, rfl⟩
  | hlt => cases hact

end Program

end X86
