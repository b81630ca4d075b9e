import Rolnix.Serial
import Rolnix.SpinLock
import Mathlib.Tactic.IntervalCases

/-!
# The console under its lock

`with_serial` of the boot harness over the 16550 of `serial.rs`: the port is set up by whoever takes the
lock first, and every message is sent byte by byte. Each access to the chip is one step of a critical
section. While the divisor latch is open, the transmit register is the low byte of the divisor.

**Theorem (`console_whole`).** On any number of CPUs, in handlers and in system calls, messages reach the line
whole and one after the other, and none of their bytes gets into the divisor.
-/

namespace Rolnix

/-- The registers that are written, and what was sent. -/
structure Uart where
  ier : UInt8
  fcr : UInt8
  lcr : UInt8
  divisorLow : UInt8
  divisorHigh : UInt8
  line : List UInt8

/-- The divisor latch is open. -/
def Uart.dlab (u : Uart) : Bool := u.lcr &&& 0x80 ≠ 0

/-- `outb(COM1 + reg, v)`. -/
def Uart.outb (u : Uart) (reg : Nat) (v : UInt8) : Uart :=
  match reg with
  | 0 => if u.dlab then { u with divisorLow := v } else { u with line := u.line ++ [v] }
  | 1 => if u.dlab then { u with divisorHigh := v } else { u with ier := v }
  | 2 => { u with fcr := v }
  | 3 => { u with lcr := v }
  | _ => u

/-- The chip, and `INIT`. -/
structure Port where
  init : Bool
  uart : Uart

/-- The uses of `with_serial`. -/
inductive Print
  /-- `write_str`. -/
  | str (s : List UInt8)
  /-- `write_byte`. -/
  | byte (c : UInt8)
  /-- `try_read`. -/
  | poll

def Print.bytes : Print → List UInt8
  | str s => writeStr s
  | byte c => [c]
  | poll => []

/-- The locals of `with_serial`. -/
structure PrintLocals where
  print : Print
  /-- The result of the swap says that the port is not set up. -/
  fresh : Bool

/-- The writes of `SerialPort::init`. -/
def initWrites : List (Nat × UInt8) := [(1, 0x00), (3, 0x80), (0, 0x01), (1, 0x00), (3, 0x03), (2, 0xC7)]

/-- `INIT.swap(true)`. -/
def swapInit (x : Port × PrintLocals) : Port × PrintLocals :=
  ({ x.1 with init := true }, { x.2 with fresh := !x.1.init })

def initStep (w : Nat × UInt8) (x : Port × PrintLocals) : Port × PrintLocals :=
  if x.2.fresh then ({ x.1 with uart := x.1.uart.outb w.1 w.2 }, x.2) else x

/-- `write_byte`, once the transmitter is free. -/
def byteStep (b : UInt8) (x : Port × PrintLocals) : Port × PrintLocals :=
  ({ x.1 with uart := x.1.uart.outb 0 b }, x.2)

/-- The critical section of `with_serial`. -/
def withSerial : Sections (fun _ : Unit => Port) PrintLocals := fun _ l =>
  (swapInit :: initWrites.map initStep) ++ l.print.bytes.map byteStep

/-! ## One message -/

/-- The port outside of critical sections: if it is set up, for 115200 baud and 8N1. -/
def Port.Ready (p : Port) : Prop :=
  p.init = true → p.uart.lcr = 0x03 ∧ p.uart.divisorLow = 1 ∧ p.uart.divisorHigh = 0

/-- The port after bytes were sent. -/
def Port.send (p : Port) (bs : List UInt8) : Port := { p with uart := { p.uart with line := p.uart.line ++ bs } }

variable {p : Port} {l : PrintLocals}

theorem Port.send_send (p : Port) (bs cs : List UInt8) : (p.send bs).send cs = p.send (bs ++ cs) := by
  simp [Port.send]

theorem doSteps_init (ws : List (Nat × UInt8)) :
    doSteps (ws.map initStep) (p, l) =
      ({ p with uart := if l.fresh then ws.foldl (fun u w => u.outb w.1 w.2) p.uart else p.uart }, l) := by
  induction ws generalizing p with
  | nil => simp [doSteps]
  | cons w ws ih =>
      change doSteps (ws.map initStep) (initStep w (p, l)) = _
      by_cases hfresh : l.fresh = true
      · rw [initStep, if_pos hfresh, ih, if_pos hfresh, if_pos hfresh]
        rfl
      · rw [initStep, if_neg hfresh, ih, if_neg hfresh, if_neg hfresh]

theorem line_initWrites (u : Uart) (n : Nat) :
    ((initWrites.take n).foldl (fun u w => u.outb w.1 w.2) u).line = u.line := by
  by_cases hn : n < 6
  · interval_cases n <;> cases hdlab : u.dlab <;> simp [initWrites, Uart.outb, hdlab] <;> simp [Uart.dlab]
  · rw [List.take_of_length_le (Nat.not_lt.1 hn)]
    cases hdlab : u.dlab <;> simp [initWrites, Uart.outb, hdlab] <;> simp [Uart.dlab]

theorem line_setup (p : Port) (l : PrintLocals) (n : Nat) :
    (doSteps ((swapInit :: initWrites.map initStep).take n) (p, l)).1.uart.line = p.uart.line := by
  cases n with
  | zero => rfl
  | succ n =>
      rw [List.take_succ_cons, ← List.map_take]
      change (doSteps ((initWrites.take n).map initStep) (swapInit (p, l))).1.uart.line = _
      rw [swapInit, doSteps_init]
      dsimp only
      split_ifs
      · exact line_initWrites p.uart n
      · rfl

theorem ready_setup (h : p.Ready) (l : PrintLocals) :
    (doSteps (swapInit :: initWrites.map initStep) (p, l)).1.init = true ∧
      (doSteps (swapInit :: initWrites.map initStep) (p, l)).1.Ready := by
  change (doSteps (initWrites.map initStep) (swapInit (p, l))).1.init = true ∧
    (doSteps (initWrites.map initStep) (swapInit (p, l))).1.Ready
  rw [swapInit, doSteps_init]
  refine ⟨rfl, fun _ => ?_⟩
  dsimp only
  cases hinit : p.init with
  | false =>
      rw [Bool.not_false, if_pos rfl]
      cases hdlab : p.uart.dlab <;> simp [initWrites, Uart.outb, hdlab] <;> simp [Uart.dlab]
  | true =>
      rw [Bool.not_true, if_neg (by decide)]
      exact h hinit

theorem doSteps_bytes (h : p.uart.lcr = 0x03) (l : PrintLocals) (bs : List UInt8) :
    doSteps (bs.map byteStep) (p, l) = (p.send bs, l) := by
  induction bs generalizing p with
  | nil => simp [doSteps, Port.send]
  | cons b bs ih =>
      have hdlab : p.uart.dlab = false := by rw [Uart.dlab, h]; decide
      have hbyte : byteStep b (p, l) = (p.send [b], l) := by simp [byteStep, Uart.outb, hdlab, Port.send]
      have hnext := ih (p := p.send [b]) h
      rw [Port.send_send] at hnext
      change doSteps (bs.map byteStep) (byteStep b (p, l)) = _
      rw [hbyte]
      exact hnext

theorem doSteps_setup_bytes (h : p.Ready) (l : PrintLocals) (bs : List UInt8) :
    ∃ p' l', doSteps ((swapInit :: initWrites.map initStep) ++ bs.map byteStep) (p, l) = (p', l') ∧
      p'.init = true ∧ p'.Ready ∧ p'.uart.line = p.uart.line ++ bs := by
  obtain ⟨hinit, hready⟩ := ready_setup h l
  have hline := line_setup p l 7
  rw [List.take_of_length_le (by decide)] at hline
  rw [Locks.doSteps_append]
  rcases hsetup : doSteps (swapInit :: initWrites.map initStep) (p, l) with ⟨p₁, l₁⟩
  rw [hsetup] at hinit hready hline
  refine ⟨p₁.send bs, l₁, doSteps_bytes (hready hinit).1 l₁ bs, hinit, hready, ?_⟩
  rw [← hline]
  rfl

/-- **A part of a message.** -/
theorem line_doSteps {steps rest : List (Port × PrintLocals → Port × PrintLocals)} (h : p.Ready) (l : PrintLocals)
    (hsteps : steps ++ rest = withSerial () l) :
    ∃ part, part <+: l.print.bytes ∧ (doSteps steps (p, l)).1.uart.line = p.uart.line ++ part := by
  rcases List.append_eq_append_iff.1 hsteps with ⟨more, hsetup, -⟩ | ⟨sent, rfl, hbytes⟩
  · -- the port is being set up
    refine ⟨[], List.nil_prefix, ?_⟩
    have hline := line_setup p l steps.length
    rw [hsetup, List.take_left] at hline
    rw [hline, List.append_nil]
  · -- some bytes are sent
    obtain ⟨bs, cs, hsplit, rfl, -⟩ := List.map_eq_append_iff.1 hbytes
    obtain ⟨p', l', hdone, -, -, hline⟩ := doSteps_setup_bytes h l bs
    refine ⟨bs, ⟨cs, hsplit.symm⟩, ?_⟩
    rw [hdone]
    exact hline

/-- **Whole messages.** -/
theorem line_serial {v w : Unit → Port} {es : List (Done Unit PrintLocals)} (h : (v ()).Ready)
    (hserial : Locks.Serial withSerial v es w) :
    (w ()).Ready ∧ (w ()).uart.line = (v ()).uart.line ++ es.flatMap (fun e => e.2.1.print.bytes) ∧
      ((v ()).init = true ∨ es ≠ [] → (w ()).init = true) := by
  induction hserial with
  | nil v => exact ⟨h, by simp, by simp⟩
  | @cons v w es k arg hrest ih =>
      obtain ⟨p', l', hdone, hinit, hready, hline⟩ := doSteps_setup_bytes h arg arg.print.bytes
      have hfirst : Function.update v k (doSteps (withSerial k arg) (v k, arg)).1 () = p' := by
        rw [Function.update_self]
        exact congrArg Prod.fst hdone
      rw [hfirst] at ih
      obtain ⟨hlast, hlines, hset⟩ := ih hready
      refine ⟨hlast, ?_, fun _ => hset (.inl hinit)⟩
      rw [hlines, hline, List.append_assoc]
      rfl

/-! ## Every message -/

variable {ι : Type} [DecidableEq ι]

/-- **Messages reach the line whole,** in the order in which the lock is released. -/
theorem console_whole {s₀ s : Locks ι (fun _ : Unit => Port) PrintLocals} {ops : List (ι × LockOp Unit PrintLocals)}
    {es : List (Done Unit PrintLocals)} (hstart : s₀.Start) (hinit : (s₀.lock ()).value.init = false)
    (hrun : s₀.run withSerial ops = some (es, s)) :
    ∃ part, (s.lock ()).value.uart.line =
        (s₀.lock ()).value.uart.line ++ es.flatMap (fun e => e.2.1.print.bytes) ++ part ∧
      ((s.lock ()).locked = false → part = [] ∧ (es ≠ [] → (s.lock ()).value.uart.lcr = 0x03 ∧
        (s.lock ()).value.uart.divisorLow = 1 ∧ (s.lock ()).value.uart.divisorHigh = 0)) ∧
      ∀ c k arg l irq rest, (s.core c).running = .inside k arg l irq rest → part <+: arg.print.bytes := by
  obtain ⟨v, hserial, hagrees⟩ := hstart.agrees.run hstart.inv hrun
  have hready₀ : (s₀.lock ()).value.Ready := fun h => absurd h (by rw [hinit]; decide)
  obtain ⟨hready, hline, hset⟩ := line_serial hready₀ hserial
  have hinv := hstart.inv.run hrun
  cases hlocked : (s.lock ()).locked with
  | false =>
      have hvalue := hagrees.free () hlocked
      rw [hvalue]
      refine ⟨[], by rw [List.append_nil]; exact hline, fun _ => ⟨rfl, fun hes => hready (hset (.inr hes))⟩, ?_⟩
      intro c k arg l irq rest _
      exact List.nil_prefix
  | true =>
      obtain ⟨c, hheld⟩ := (hinv.locked_iff ()).1 hlocked
      obtain ⟨arg, l, irq, rest, hin⟩ := Place.holds_iff.1 hheld
      obtain ⟨steps, hsteps, hdone⟩ := hagrees.held c () arg l irq rest hin
      obtain ⟨part, hpart, hsent⟩ := line_doSteps hready arg hsteps
      rw [hdone, hline] at hsent
      refine ⟨part, hsent, fun h => absurd h (by decide), ?_⟩
      intro c' k arg' l' irq' rest' hin'
      have hc : c' = c := hinv.unique () c' c (Locks.heldBy_of_eq hin') hheld
      rw [hc, hin] at hin'
      cases hin'
      exact hpart

/-- Two CPUs: the port as firmware may leave it, with the divisor latch open. -/
def consoleStart : Locks Nat (fun _ : Unit => Port) PrintLocals :=
  ⟨fun _ => .new ⟨false, ⟨0, 0, 0x80, 0, 0, []⟩⟩, fun _ => ⟨true, .outside, []⟩⟩

/-- CPU 0 prints `A` and CPU 1 tries `B` in the middle of it. -/
def consoleOps : List (Nat × LockOp Unit PrintLocals) :=
  [(0, .lockIrqsave () ⟨.str [65], false⟩), (0, .step), (0, .step), (0, .step), (0, .step),
    (1, .lockIrqsave () ⟨.byte 66, false⟩), (1, .step), (1, .step)] ++ List.replicate 8 (0, .step) ++
    List.replicate 10 (1, .step)

theorem console_whole_two :
    ∃ es s, consoleStart.run withSerial consoleOps = some (es, s) ∧
      ∃ part, (s.lock ()).value.uart.line = [65] ++ part ∧ part <+: [66] := by
  have hobs : (consoleStart.run withSerial consoleOps).map (fun r => (r.1.map (fun e => e.2.1.print.bytes),
      (r.2.core 1).running)) =
        some ([[65]], .inside () ⟨.byte 66, false⟩ ⟨.byte 66, false⟩ (some true) []) := rfl
  obtain ⟨⟨es, s⟩, hrun, hs⟩ := Option.map_eq_some_iff.1 hobs
  obtain ⟨hes, hin⟩ := Prod.mk.inj hs
  obtain ⟨part, hline, -, hpart⟩ := console_whole ⟨fun _ => rfl, fun _ => ⟨rfl, rfl⟩⟩ rfl hrun
  refine ⟨es, s, hrun, part, ?_, hpart 1 () _ _ _ _ hin⟩
  rw [hline, List.flatMap_def, hes]
  rfl

end Rolnix
