import Mathlib.Data.List.FinRange
import Mathlib.Data.Fin.Basic
import Mathlib.Logic.Function.Basic
import Mathlib.Tactic.SplitIfs

/-!
# Interrupt requests

`pic.rs` and `handle_irq` with the two 8259s and the CPU: a device raises a line, the CPU acknowledges,
`handle_irq` ends the interrupt before it calls the handler, and the handler returns or switches away.
An acknowledge cycle may also find nothing requested. The cascade input of the master follows the
output of the slave.

**Theorem (`remap_spec`).** `remap` sets both chips up, whatever was written to them before.

**Theorem (`none_in_service`).** Whenever interrupts can be on, nothing is in service in either chip: no
handler, no switch and no spurious interrupt can shut out later ones.

**Theorem (`requests_accounted`).** Every edge of a line leads to one call of its handler, unless it falls
together with an earlier one that the CPU had not acknowledged yet. No request is lost or doubled, and
none gets to the handler of another line.
-/

namespace Rolnix

abbrev Byte : Type := BitVec 8

/-! ## One chip -/

/-- What the next write to the data port is. -/
inductive PicStage
  | ocw1 | icw2 | icw3 | icw4
  deriving DecidableEq

/-- An 8259. -/
structure Pic where
  /-- Requests, one for each line. -/
  irr : Fin 8 → Bool
  /-- Interrupts in service. -/
  isr : Fin 8 → Bool
  /-- The mask. -/
  imr : Byte
  stage : PicStage
  icw1 : Byte
  /-- The vector of line 0. -/
  base : Byte
  /-- How the chips are connected. -/
  cascade : Byte
  mode : Byte

namespace Pic

/-- The first line in a set, in the order of priority. -/
def first (s : Fin 8 → Bool) : Option (Fin 8) := (List.finRange 8).find? s

/-- A write to the command port. Of the other commands none is used. -/
def outCmd (p : Pic) (v : Byte) : Pic :=
  if v &&& 0x10 ≠ 0 then
    { p with irr := fun _ => false, isr := fun _ => false, imr := 0, stage := .icw2, icw1 := v }
  else if v &&& 0xF8 = 0x20 then
    -- end of interrupt: whichever has the highest priority
    match first p.isr with
    | some i => { p with isr := Function.update p.isr i false }
    | none => p
  else p

/-- The write after the last one of an initialisation, or its fourth word. -/
def afterIcw3 (p : Pic) : PicStage := if p.icw1 &&& 0x01 ≠ 0 then .icw4 else .ocw1

/-- A write to the data port. -/
def outData (p : Pic) (v : Byte) : Pic :=
  match p.stage with
  | .ocw1 => { p with imr := v }
  | .icw2 => { p with base := v &&& 0xF8, stage := if p.icw1 &&& 0x02 ≠ 0 then p.afterIcw3 else .icw3 }
  | .icw3 => { p with cascade := v, stage := p.afterIcw3 }
  | .icw4 => { p with mode := v, stage := .ocw1 }

/-- The line that would be served: requested, not masked, and none of its priority or above in service. -/
def highest (p : Pic) (req : Fin 8 → Bool) : Option (Fin 8) :=
  first fun i => req i && !p.imr.getLsbD i && (List.finRange 8).all fun j => !(decide (j ≤ i) && p.isr j)

end Pic

/-! ## The two chips -/

/-- An interrupt line. -/
inductive Line
  | master (i : Fin 8)
  | slave (i : Fin 8)
  deriving DecidableEq

/-- `IRQ0` to `IRQ15`. -/
def Line.irq : Line → Nat
  | master i => i
  | slave i => i + 8

structure Pics where
  master : Pic
  slave : Pic

namespace Pics

def outb (c : Pics) (port : Nat) (v : Byte) : Pics :=
  match port with
  | 0x20 => { c with master := c.master.outCmd v }
  | 0x21 => { c with master := c.master.outData v }
  | 0xA0 => { c with slave := c.slave.outCmd v }
  | 0xA1 => { c with slave := c.slave.outData v }
  | _ => c

/-- The mask registers, which are what is read. -/
def inb (c : Pics) (port : Nat) : Byte :=
  match port with
  | 0x21 => c.master.imr
  | 0xA1 => c.slave.imr
  | _ => 0xFF

def maskAll (c : Pics) : Pics := (c.outb 0x21 0xFF).outb 0xA1 0xFF

/-- The writes of `remap` before `mask_all`. -/
def remapWrites : List (Nat × Byte) :=
  [(0x20, 0x11), (0xA0, 0x11), (0x21, 0x20), (0xA1, 0x28), (0x21, 0x04), (0xA1, 0x02), (0x21, 0x01), (0xA1, 0x01)]

def remap (c : Pics) : Pics := (remapWrites.foldl (fun c w => c.outb w.1 w.2) c).maskAll

/-- Which mask register and bit govern a line. -/
def picMaskPort (irq : Nat) : Nat × Nat := if irq < 8 then (0x21, irq) else (0xA1, irq - 8)

def unmask (c : Pics) (irq : Nat) : Pics :=
  let r := picMaskPort irq
  c.outb r.1 (c.inb r.1 &&& ~~~(1#8 <<< r.2))

def mask (c : Pics) (irq : Nat) : Pics :=
  let r := picMaskPort irq
  c.outb r.1 (c.inb r.1 ||| 1#8 <<< r.2)

/-- A device raises a line. It keeps it up until the acknowledge cycle: a request that is withdrawn before is
left out. -/
def raise (c : Pics) : Line → Pics
  | .master i => { c with master := { c.master with irr := Function.update c.master.irr i true } }
  | .slave i => { c with slave := { c.slave with irr := Function.update c.slave.irr i true } }

def requested (c : Pics) : Line → Bool
  | .master i => c.master.irr i
  | .slave i => c.slave.irr i

/-- The requests that the master sees. `noise` is a pulse on the cascade input. -/
def masterRequests (c : Pics) (noise : Bool) (i : Fin 8) : Bool :=
  if i = 2 then (c.slave.highest c.slave.irr).isSome || noise else c.master.irr i

/-- The chip acknowledges a line. -/
def acknowledge (p : Pic) (i : Fin 8) : Pic :=
  { p with irr := Function.update p.irr i false, isr := Function.update p.isr i true }

/-- An acknowledge cycle: the vector, and the line, unless nothing is requested. -/
def inta (c : Pics) (noise : Bool) : Byte × Option Line × Pics :=
  match c.master.highest (c.masterRequests noise) with
  | none => (c.master.base + 7, none, c)
  | some i =>
      if i = 2 then
        let c := { c with master := { c.master with isr := Function.update c.master.isr i true } }
        match c.slave.highest c.slave.irr with
        | none => (c.slave.base + 7, none, c)
        | some j => (c.slave.base + BitVec.ofNat 8 j, some (.slave j), { c with slave := acknowledge c.slave j })
      else
        (c.master.base + BitVec.ofNat 8 i, some (.master i), { c with master := acknowledge c.master i })

end Pics

/-! ## The CPU -/

/-- Where the CPU is. -/
inductive IrqPhase
  /-- Interrupts are on. -/
  | on
  /-- Interrupts are off, outside of `handle_irq`. -/
  | off
  /-- In `handle_irq`, for a line or a spurious one, before `send_eoi`. -/
  | entered (vector : Byte) (line : Option Line)
  /-- In `send_eoi`, before the write to the master. -/
  | slaveDone (vector : Byte) (line : Option Line)
  /-- Before the handler. -/
  | acknowledged (vector : Byte) (line : Option Line)
  /-- In the handler. -/
  | handler
  deriving DecidableEq

structure IrqState where
  pics : Pics
  phase : IrqPhase

inductive IrqOp
  /-- A device raises its line. -/
  | raise (l : Line)
  /-- The CPU takes an interrupt. -/
  | accept (noise : Bool)
  /-- The next step of `handle_irq`; at its end, or in the handler, the switch to what runs next. -/
  | step
  | cli
  | sti
  | mask (irq : Nat)
  | unmask (irq : Nat)
  deriving DecidableEq

inductive IrqEvent
  /-- An edge on a line that was requested already. -/
  | merged (l : Line)
  /-- The handler of `irq` is called, for a line or for a spurious interrupt. -/
  | call (irq : Nat) (line : Option Line)
  deriving DecidableEq

namespace IrqState

/-- `(frame.vector - IRQ_BASE) as u8`. -/
def irqOf (vector : Byte) : Nat := (vector - 0x20).toNat

def exec (s : IrqState) : IrqOp → Option (List IrqEvent × IrqState)
  | .raise l =>
      some (if s.pics.requested l then [.merged l] else [], { s with pics := s.pics.raise l })
  | .accept noise =>
      match s.phase with
      | .on =>
          let r := s.pics.inta noise
          some ([], ⟨r.2.2, .entered r.1 r.2.1⟩)
      | _ => none
  | .step =>
      match s.phase with
      | .entered v l =>
          if 8 ≤ irqOf v then some ([], ⟨s.pics.outb 0xA0 0x20, .slaveDone v l⟩)
          else some ([], ⟨s.pics.outb 0x20 0x20, .acknowledged v l⟩)
      | .slaveDone v l => some ([], ⟨s.pics.outb 0x20 0x20, .acknowledged v l⟩)
      | .acknowledged v l => some ([.call (irqOf v) l], { s with phase := .handler })
      | .handler => some ([], { s with phase := .on })
      | _ => none
  | .cli =>
      match s.phase with
      | .on => some ([], { s with phase := .off })
      | _ => none
  | .sti =>
      match s.phase with
      | .off => some ([], { s with phase := .on })
      | _ => none
  -- from 16 on the shift of the mask bit overflows
  | .mask irq => if irq < 16 then some ([], { s with pics := s.pics.mask irq }) else none
  | .unmask irq => if irq < 16 then some ([], { s with pics := s.pics.unmask irq }) else none

def run : List IrqOp → IrqState → Option (List IrqEvent × IrqState)
  | [], s => some ([], s)
  | op :: ops, s => (s.exec op).bind fun r => (run ops r.2).map fun r' => (r.1 ++ r'.1, r'.2)

end IrqState

/-! ## Setting up -/

theorem Pic.setUp (p : Pic) (base cascade : Byte) :
    ((((p.outCmd 0x11).outData base).outData cascade).outData 0x01).outData 0xFF =
      { irr := fun _ => false, isr := fun _ => false, imr := 0xFF, stage := .ocw1, icw1 := 0x11,
        base := base &&& 0xF8, cascade := cascade, mode := 0x01 } := by
  simp [Pic.outCmd, Pic.outData, Pic.afterIcw3]

theorem master_remap (c : Pics) : c.remap.master =
    ((((c.master.outCmd 0x11).outData 0x20).outData 0x04).outData 0x01).outData 0xFF := rfl

theorem slave_remap (c : Pics) : c.remap.slave =
    ((((c.slave.outCmd 0x11).outData 0x28).outData 0x02).outData 0x01).outData 0xFF := rfl

/-- A chip at rest: set up, with its lines at a vector. -/
structure Pic.Ready (p : Pic) (base : Byte) : Prop where
  stage : p.stage = .ocw1
  base : p.base = base

theorem Pic.highest_of_masked {p : Pic} (h : p.imr = 0xFF) (req : Fin 8 → Bool) : p.highest req = none := by
  rw [Pic.highest, Pic.first, List.find?_eq_none]
  intro i _
  have hbit : p.imr.getLsbD i = true := by
    rw [h]
    revert i
    decide
  simp [hbit]

/-- **`remap` from any state.** -/
theorem remap_spec (c : Pics) :
    c.remap.master.Ready 0x20 ∧ c.remap.slave.Ready 0x28 ∧
      c.remap.master.cascade = 0x04 ∧ c.remap.slave.cascade = 0x02 ∧
      c.remap.master.mode = 0x01 ∧ c.remap.slave.mode = 0x01 ∧
      (∀ i, c.remap.master.isr i = false ∧ c.remap.slave.isr i = false) ∧
      (∀ l, c.remap.requested l = false) ∧ ∀ noise, (c.remap.inta noise).2.1 = none := by
  have hmaster := (master_remap c).trans (Pic.setUp c.master 0x20 0x04)
  have hslave := (slave_remap c).trans (Pic.setUp c.slave 0x28 0x02)
  refine ⟨?_, ?_, ?_, ?_, ?_, ?_, ?_, ?_, ?_⟩
  · rw [hmaster]
    exact ⟨rfl, by decide⟩
  · rw [hslave]
    exact ⟨rfl, by decide⟩
  · rw [hmaster]
  · rw [hslave]
  · rw [hmaster]
  · rw [hslave]
  · intro i
    rw [hmaster, hslave]
    exact ⟨rfl, rfl⟩
  · intro l
    cases l with
    | master i => rw [Pics.requested, hmaster]
    | slave i => rw [Pics.requested, hslave]
  · intro noise
    rw [Pics.inta, Pic.highest_of_masked (by rw [hmaster])]

/-! ## In service -/

namespace Pic

variable {p : Pic}

def Idle (p : Pic) : Prop := ∀ i, p.isr i = false

def AtMostOne (p : Pic) : Prop := ∀ i j, p.isr i = true → p.isr j = true → i = j

theorem Idle.atMostOne (h : p.Idle) : p.AtMostOne := by
  intro i j hi
  rw [h i] at hi
  cases hi

theorem Idle.atMostOne_update (h : p.Idle) (i : Fin 8) : { p with isr := Function.update p.isr i true }.AtMostOne := by
  have honly (j : Fin 8) (hj : Function.update p.isr i true j = true) : j = i := by
    by_contra hne
    rw [Function.update_of_ne hne, h j] at hj
    cases hj
  intro j k hj hk
  rw [honly j hj, honly k hk]

/-- **The end of an interrupt,** when it is the only one. -/
theorem eoi_spec (h : p.AtMostOne) :
    (p.outCmd 0x20).Idle ∧ (p.outCmd 0x20).irr = p.irr ∧ (p.outCmd 0x20).stage = p.stage ∧
      (p.outCmd 0x20).base = p.base := by
  rw [outCmd, if_neg (by decide), if_pos (by decide)]
  cases hfirst : first p.isr with
  | none =>
      refine ⟨fun i => ?_, rfl, rfl, rfl⟩
      have hnone := List.find?_eq_none.1 hfirst i (List.mem_finRange i)
      simpa using hnone
  | some i =>
      have hi : p.isr i = true := List.find?_some hfirst
      refine ⟨fun j => ?_, rfl, rfl, rfl⟩
      change Function.update p.isr i false j = false
      by_cases hj : j = i
      · rw [hj, Function.update_self]
      · rw [Function.update_of_ne hj]
        exact Bool.eq_false_iff.2 fun hjs => hj (h j i hjs hi)

theorem highest_requested {req : Fin 8 → Bool} {i : Fin 8} (h : p.highest req = some i) : req i = true := by
  have hfound := List.find?_some h
  simp only [Bool.and_eq_true] at hfound
  exact hfound.1.1

end Pic

/-- The line of an interrupt whose handler is still to be called. -/
def IrqPhase.line : IrqPhase → Option Line
  | entered _ l | slaveDone _ l | acknowledged _ l => l
  | _ => none

/-- What is in service while the CPU is at a place of `handle_irq`. -/
def IrqPhase.Serves : IrqPhase → Pics → Prop
  | entered v _, c => c.master.AtMostOne ∧ if 8 ≤ IrqState.irqOf v then c.slave.AtMostOne else c.slave.Idle
  | slaveDone _ _, c => c.master.AtMostOne ∧ c.slave.Idle
  | _, c => c.master.Idle ∧ c.slave.Idle

/-- The vector is that of the line; a spurious one is that of the last line of a chip. -/
def IrqPhase.Named : IrqPhase → Prop
  | entered v l | slaveDone v l | acknowledged v l => IrqState.irqOf v ∈ l.elim [7, 15] fun l => [l.irq]
  | _ => True

/-- A handler is called with the number of its line. -/
def IrqEvent.Named : IrqEvent → Prop
  | merged _ => True
  | call irq l => irq ∈ l.elim [7, 15] fun l => [l.irq]

namespace IrqState

structure Inv (s : IrqState) : Prop where
  master : s.pics.master.Ready 0x20
  slave : s.pics.slave.Ready 0x28
  serves : s.phase.Serves s.pics
  named : s.phase.Named

/-- Requests that have not led to a call yet. -/
def owed (s : IrqState) (l : Line) : Nat :=
  (if s.pics.requested l = true then 1 else 0) + if s.phase.line = some l then 1 else 0

end IrqState

/-- What an acknowledge cycle finds. -/
inductive Pics.Inta (c : Pics) : Byte → Option Line → Pics → Prop
  | spurious : Inta c 0x27 none c
  | master (i : Fin 8) (hreq : c.master.irr i = true) :
      Inta c (0x20 + BitVec.ofNat 8 i) (some (.master i)) { c with master := acknowledge c.master i }
  | slaveSpurious : Inta c 0x2F none { c with master := { c.master with isr := Function.update c.master.isr 2 true } }
  | slave (j : Fin 8) (hreq : c.slave.irr j = true) :
      Inta c (0x28 + BitVec.ofNat 8 j) (some (.slave j))
        { master := { c.master with isr := Function.update c.master.isr 2 true }, slave := acknowledge c.slave j }

theorem Pics.inta_cases {c : Pics} (hmaster : c.master.base = 0x20) (hslave : c.slave.base = 0x28) (noise : Bool) :
    c.Inta (c.inta noise).1 (c.inta noise).2.1 (c.inta noise).2.2 := by
  rw [inta]
  cases hhigh : c.master.highest (c.masterRequests noise) with
  | none =>
      dsimp only
      rw [hmaster]
      exact .spurious
  | some i =>
      have hreq := Pic.highest_requested hhigh
      dsimp only
      by_cases hi : i = 2
      · subst hi
        rw [if_pos rfl]
        cases hslaveHigh : c.slave.highest c.slave.irr with
        | none =>
            dsimp only
            rw [hslave]
            exact .slaveSpurious
        | some j =>
            dsimp only
            rw [hslave]
            exact .slave j (Pic.highest_requested hslaveHigh)
      · rw [if_neg hi, hmaster]
        rw [masterRequests, if_neg hi] at hreq
        exact .master i hreq

/-- The same is in service, and set up in the same way. -/
structure Pic.SameService (p p' : Pic) : Prop where
  isr : p'.isr = p.isr
  stage : p'.stage = p.stage
  base : p'.base = p.base

theorem Pic.SameService.refl (p : Pic) : p.SameService p := ⟨rfl, rfl, rfl⟩

theorem Pic.outData_mask {p : Pic} (h : p.stage = .ocw1) (v : Byte) : p.outData v = { p with imr := v } := by
  rw [outData, h]

namespace IrqState

variable {s s' : IrqState} {op : IrqOp} {es : List IrqEvent}

theorem Inv.sameService {c : Pics} (h : s.Inv) (hmaster : s.pics.master.SameService c.master)
    (hslave : s.pics.slave.SameService c.slave) : Inv { s with pics := c } where
  master := ⟨hmaster.stage.trans h.master.stage, hmaster.base.trans h.master.base⟩
  slave := ⟨hslave.stage.trans h.slave.stage, hslave.base.trans h.slave.base⟩
  serves := by
    have hserves := h.serves
    cases hphase : s.phase <;> rw [hphase] at hserves <;>
      simpa only [IrqPhase.Serves, Pic.Idle, Pic.AtMostOne, hmaster.isr, hslave.isr] using hserves
  named := h.named

theorem Inv.outb_mask (h : s.Inv) (irq : Nat) (v : Byte) :
    Inv { s with pics := s.pics.outb (Pics.picMaskPort irq).1 v } ∧
      ∀ l, owed { s with pics := s.pics.outb (Pics.picMaskPort irq).1 v } l = s.owed l := by
  have hmaster := Pic.outData_mask h.master.stage v
  have hslave := Pic.outData_mask h.slave.stage v
  rw [Pics.picMaskPort]
  split_ifs
  · change Inv { s with pics := { s.pics with master := s.pics.master.outData v } } ∧ ∀ l,
      owed { s with pics := { s.pics with master := s.pics.master.outData v } } l = s.owed l
    rw [hmaster]
    refine ⟨h.sameService ⟨rfl, rfl, rfl⟩ (.refl _), fun l => ?_⟩
    cases l <;> rfl
  · change Inv { s with pics := { s.pics with slave := s.pics.slave.outData v } } ∧ ∀ l,
      owed { s with pics := { s.pics with slave := s.pics.slave.outData v } } l = s.owed l
    rw [hslave]
    refine ⟨h.sameService (.refl _) ⟨rfl, rfl, rfl⟩, fun l => ?_⟩
    cases l <;> rfl

theorem Inv.raise (h : s.Inv) (l : Line) : Inv { s with pics := s.pics.raise l } := by
  cases l with
  | master i => exact h.sameService ⟨rfl, rfl, rfl⟩ (.refl _)
  | slave i => exact h.sameService (.refl _) ⟨rfl, rfl, rfl⟩

theorem requested_raise (c : Pics) (l l' : Line) : (c.raise l).requested l' = (decide (l' = l) || c.requested l') := by
  cases l <;> cases l' <;> simp [Pics.raise, Pics.requested, Function.update_apply]

theorem owed_raise (s : IrqState) (l l' : Line) :
    s.owed l' + (if l' = l then 1 else 0) =
      owed { s with pics := s.pics.raise l } l' + if s.pics.requested l = true ∧ l' = l then 1 else 0 := by
  rw [owed, owed]
  dsimp only
  rw [requested_raise]
  by_cases hl : l' = l
  · subst hl
    cases hreq : s.pics.requested l' with
    | false => simp; omega
    | true => simp
  · simp [hl]

theorem irqOf_master (i : Fin 8) : irqOf (0x20 + BitVec.ofNat 8 i) = i := by
  revert i
  decide

theorem irqOf_slave (j : Fin 8) : irqOf (0x28 + BitVec.ofNat 8 j) = j + 8 := by
  revert j
  decide

/-- The request that is acknowledged is the one whose handler will be called. -/
theorem owed_acknowledge {c : Pics} {v : Byte} {l₀ : Line} (hphase : s.phase = .on)
    (hreq : s.pics.requested l₀ = true) (hself : c.requested l₀ = false)
    (hother : ∀ l, l ≠ l₀ → c.requested l = s.pics.requested l) (l : Line) :
    owed ⟨c, .entered v (some l₀)⟩ l = s.owed l := by
  rw [owed, owed, hphase]
  by_cases hl : l = l₀
  · subst hl
    simp [IrqPhase.line, hreq, hself]
  · simp [IrqPhase.line, hother l hl, Ne.symm hl]

/-- **An acknowledge cycle.** -/
theorem Inv.accept (h : s.Inv) (hphase : s.phase = .on) {v : Byte} {line : Option Line} {c : Pics}
    (hinta : s.pics.Inta v line c) : Inv ⟨c, .entered v line⟩ ∧ ∀ l, owed ⟨c, .entered v line⟩ l = s.owed l := by
  have hserves := h.serves
  rw [hphase] at hserves
  obtain ⟨hmaster, hslave⟩ : s.pics.master.Idle ∧ s.pics.slave.Idle := hserves
  cases hinta with
  | spurious =>
      refine ⟨⟨h.master, h.slave, ⟨hmaster.atMostOne, hslave⟩, ?_⟩, fun l => ?_⟩
      · change irqOf 0x27 ∈ [7, 15]
        decide
      · rw [owed, owed, hphase]
        rfl
  | master i hreq =>
      refine ⟨⟨⟨h.master.stage, h.master.base⟩, h.slave, ⟨?_, ?_⟩, ?_⟩, fun l => ?_⟩
      · exact hmaster.atMostOne_update i
      · rw [irqOf_master, if_neg (by omega)]
        exact hslave
      · change irqOf _ ∈ [_]
        rw [irqOf_master]
        exact List.mem_singleton_self _
      · have hline : s.pics.requested (.master i) = true := hreq
        refine owed_acknowledge hphase hline ?_ (fun l hl => ?_) l
        · exact Function.update_self i false s.pics.master.irr
        · cases l with
          | master j => exact Function.update_of_ne (fun hj => hl (congrArg Line.master hj)) false s.pics.master.irr
          | slave j => rfl
  | slaveSpurious =>
      refine ⟨⟨⟨h.master.stage, h.master.base⟩, h.slave, ⟨?_, ?_⟩, ?_⟩, fun l => ?_⟩
      · exact hmaster.atMostOne_update 2
      · rw [if_pos (by decide)]
        exact hslave.atMostOne
      · change irqOf 0x2F ∈ [7, 15]
        decide
      · rw [owed, owed, hphase]
        cases l <;> rfl
  | slave j hreq =>
      refine ⟨⟨⟨h.master.stage, h.master.base⟩, ⟨h.slave.stage, h.slave.base⟩, ⟨?_, ?_⟩, ?_⟩, fun l => ?_⟩
      · exact hmaster.atMostOne_update 2
      · rw [irqOf_slave, if_pos (by omega)]
        exact hslave.atMostOne_update j
      · change irqOf _ ∈ [_]
        rw [irqOf_slave]
        exact List.mem_singleton_self _
      · have hline : s.pics.requested (.slave j) = true := hreq
        refine owed_acknowledge hphase hline ?_ (fun l hl => ?_) l
        · exact Function.update_self j false s.pics.slave.irr
        · cases l with
          | master i => rfl
          | slave i => exact Function.update_of_ne (fun hi => hl (congrArg Line.slave hi)) false s.pics.slave.irr

/-- **The end of the interrupt at the slave.** -/
theorem Inv.slaveEoi (h : s.Inv) {v : Byte} {line : Option Line} (hphase : s.phase = .entered v line)
    (hirq : 8 ≤ irqOf v) :
    Inv ⟨s.pics.outb 0xA0 0x20, .slaveDone v line⟩ ∧
      ∀ l, owed ⟨s.pics.outb 0xA0 0x20, .slaveDone v line⟩ l = s.owed l := by
  have hserves := h.serves
  have hnamed := h.named
  rw [hphase] at hserves hnamed
  simp only [IrqPhase.Serves, if_pos hirq] at hserves
  obtain ⟨hidle, hirr, hstage, hbase⟩ := Pic.eoi_spec hserves.2
  refine ⟨⟨h.master, ⟨hstage.trans h.slave.stage, hbase.trans h.slave.base⟩, ⟨hserves.1, hidle⟩, hnamed⟩, fun l => ?_⟩
  rw [owed, owed, hphase]
  cases l with
  | master i => rfl
  | slave i =>
      change (if (s.pics.slave.outCmd 0x20).irr i = true then 1 else 0) + _ = _
      rw [hirr]
      rfl

/-- **The end of the interrupt at the master.** -/
theorem Inv.masterEoi (h : s.Inv) {v : Byte} {line : Option Line} (hline : s.phase.line = line)
    (hone : s.pics.master.AtMostOne) (hidle : s.pics.slave.Idle)
    (hnamed : irqOf v ∈ line.elim [7, 15] fun l => [l.irq]) :
    Inv ⟨s.pics.outb 0x20 0x20, .acknowledged v line⟩ ∧
      ∀ l, owed ⟨s.pics.outb 0x20 0x20, .acknowledged v line⟩ l = s.owed l := by
  obtain ⟨hmaster, hirr, hstage, hbase⟩ := Pic.eoi_spec hone
  refine ⟨⟨⟨hstage.trans h.master.stage, hbase.trans h.master.base⟩, h.slave, ⟨hmaster, hidle⟩, hnamed⟩, fun l => ?_⟩
  rw [owed, owed, hline]
  cases l with
  | master i =>
      change (if (s.pics.master.outCmd 0x20).irr i = true then 1 else 0) + _ = _
      rw [hirr]
      rfl
  | slave i => rfl

/-- The requests of an operation are owed, merged or served. -/
def Balanced (s : IrqState) (ops : List IrqOp) (es : List IrqEvent) (s' : IrqState) : Prop :=
  ∀ l, s.owed l + ops.count (.raise l) =
    s'.owed l + es.count (.merged l) + es.count (.call l.irq (some l))

theorem balanced_quiet (hop : ∀ l, op ≠ .raise l) (h : ∀ l, s'.owed l = s.owed l) : s.Balanced [op] [] s' := by
  intro l
  rw [h l, List.count_singleton, if_neg (by simpa using hop l)]
  simp

theorem Inv.setPhase (h : s.Inv) (ph : IrqPhase) (hidle : s.pics.master.Idle ∧ s.pics.slave.Idle)
    (hline : ph.line = s.phase.line) (hserves : ph.Serves s.pics = (s.pics.master.Idle ∧ s.pics.slave.Idle))
    (hnamed : ph.Named) : Inv { s with phase := ph } ∧ ∀ l, owed { s with phase := ph } l = s.owed l := by
  refine ⟨⟨h.master, h.slave, ?_, hnamed⟩, fun l => ?_⟩
  · change ph.Serves s.pics
    rwa [hserves]
  · rw [owed, owed]
    dsimp only
    rw [hline]

theorem Inv.step_raise (h : s.Inv) (l : Line) :
    Inv { s with pics := s.pics.raise l } ∧
      s.Balanced [.raise l] (if s.pics.requested l then [.merged l] else []) { s with pics := s.pics.raise l } := by
  refine ⟨h.raise l, fun l' => ?_⟩
  have howed := s.owed_raise l l'
  by_cases hl : l' = l
  · subst hl
    cases hreq : s.pics.requested l' <;> simp [hreq] at howed ⊢ <;> omega
  · have hl' : ¬l = l' := fun h => hl h.symm
    cases hreq : s.pics.requested l <;> simp [hl, hl'] at howed ⊢ <;> omega

theorem Inv.step_call (h : s.Inv) {v : Byte} {line : Option Line} (hphase : s.phase = .acknowledged v line) :
    Inv { s with phase := .handler } ∧ s.Balanced [.step] [.call (irqOf v) line] { s with phase := .handler } ∧
      (IrqEvent.call (irqOf v) line).Named := by
  have hserves := h.serves
  have hnamed := h.named
  rw [hphase] at hserves hnamed
  refine ⟨⟨h.master, h.slave, hserves, trivial⟩, fun l => ?_, hnamed⟩
  rw [owed, owed, hphase]
  by_cases hl : line = some l
  · subst hl
    have hirq : irqOf v = l.irq := List.mem_singleton.1 hnamed
    simp [IrqPhase.line, hirq]
  · simp [IrqPhase.line, hl]

/-- **One operation.** -/
theorem Inv.step (h : s.Inv) (hexec : s.exec op = some (es, s')) :
    s'.Inv ∧ s.Balanced [op] es s' ∧ ∀ e ∈ es, e.Named := by
  have hserves := h.serves
  have hnamed := h.named
  cases op with
  | raise l =>
      obtain ⟨rfl, rfl⟩ := Prod.mk.inj (Option.some.inj hexec)
      obtain ⟨hinv, hbal⟩ := h.step_raise l
      refine ⟨hinv, hbal, fun e he => ?_⟩
      split_ifs at he
      · rw [List.mem_singleton.1 he]
        trivial
      · cases he
  | accept noise =>
      cases hphase : s.phase <;> simp only [exec, hphase] at hexec <;> try cases hexec
      obtain ⟨hinv, howed⟩ := h.accept hphase (Pics.inta_cases h.master.base h.slave.base noise)
      exact ⟨hinv, balanced_quiet (by simp) howed, by simp⟩
  | step =>
      cases hphase : s.phase with
      | on => simp [exec, hphase] at hexec
      | off => simp [exec, hphase] at hexec
      | entered v line =>
          simp only [exec, hphase] at hexec
          rw [hphase] at hserves hnamed
          split_ifs at hexec with hirq
          · obtain ⟨rfl, rfl⟩ := Prod.mk.inj (Option.some.inj hexec)
            obtain ⟨hinv, howed⟩ := h.slaveEoi hphase hirq
            exact ⟨hinv, balanced_quiet (by simp) howed, by simp⟩
          · obtain ⟨rfl, rfl⟩ := Prod.mk.inj (Option.some.inj hexec)
            simp only [IrqPhase.Serves, if_neg hirq] at hserves
            obtain ⟨hinv, howed⟩ := h.masterEoi (by rw [hphase]; rfl) hserves.1 hserves.2 hnamed
            exact ⟨hinv, balanced_quiet (by simp) howed, by simp⟩
      | slaveDone v line =>
          simp only [exec, hphase] at hexec
          obtain ⟨rfl, rfl⟩ := Prod.mk.inj (Option.some.inj hexec)
          rw [hphase] at hserves hnamed
          obtain ⟨hinv, howed⟩ := h.masterEoi (by rw [hphase]; rfl) hserves.1 hserves.2 hnamed
          exact ⟨hinv, balanced_quiet (by simp) howed, by simp⟩
      | acknowledged v line =>
          simp only [exec, hphase] at hexec
          obtain ⟨rfl, rfl⟩ := Prod.mk.inj (Option.some.inj hexec)
          obtain ⟨hinv, hbal, hname⟩ := h.step_call hphase
          exact ⟨hinv, hbal, by simpa using hname⟩
      | handler =>
          simp only [exec, hphase] at hexec
          obtain ⟨rfl, rfl⟩ := Prod.mk.inj (Option.some.inj hexec)
          rw [hphase] at hserves
          obtain ⟨hinv, howed⟩ := h.setPhase .on hserves (by rw [hphase]; rfl) rfl trivial
          exact ⟨hinv, balanced_quiet (by simp) howed, by simp⟩
  | cli =>
      cases hphase : s.phase <;> simp only [exec, hphase] at hexec <;> try cases hexec
      rw [hphase] at hserves
      obtain ⟨hinv, howed⟩ := h.setPhase .off hserves (by rw [hphase]; rfl) rfl trivial
      exact ⟨hinv, balanced_quiet (by simp) howed, by simp⟩
  | sti =>
      cases hphase : s.phase <;> simp only [exec, hphase] at hexec <;> try cases hexec
      rw [hphase] at hserves
      obtain ⟨hinv, howed⟩ := h.setPhase .on hserves (by rw [hphase]; rfl) rfl trivial
      exact ⟨hinv, balanced_quiet (by simp) howed, by simp⟩
  | mask irq =>
      obtain ⟨-, hexec⟩ := Option.ite_none_right_eq_some.1 hexec
      obtain ⟨rfl, rfl⟩ := Prod.mk.inj (Option.some.inj hexec)
      obtain ⟨hinv, howed⟩ := h.outb_mask irq (s.pics.inb (Pics.picMaskPort irq).1 ||| 1#8 <<< (Pics.picMaskPort irq).2)
      exact ⟨hinv, balanced_quiet (by simp) howed, by simp⟩
  | unmask irq =>
      obtain ⟨-, hexec⟩ := Option.ite_none_right_eq_some.1 hexec
      obtain ⟨rfl, rfl⟩ := Prod.mk.inj (Option.some.inj hexec)
      obtain ⟨hinv, howed⟩ := h.outb_mask irq
        (s.pics.inb (Pics.picMaskPort irq).1 &&& ~~~(1#8 <<< (Pics.picMaskPort irq).2))
      exact ⟨hinv, balanced_quiet (by simp) howed, by simp⟩

theorem run_cons {ops : List IrqOp} (h : s.run (op :: ops) = some (es, s')) :
    ∃ es₁ s₁ es₂, s.exec op = some (es₁, s₁) ∧ s₁.run ops = some (es₂, s') ∧ es = es₁ ++ es₂ := by
  rw [run] at h
  obtain ⟨⟨es₁, s₁⟩, hexec, h⟩ := Option.bind_eq_some_iff.1 h
  obtain ⟨⟨es₂, s₂⟩, hrun, h⟩ := Option.map_eq_some_iff.1 h
  obtain ⟨rfl, rfl⟩ := Prod.mk.inj h
  exact ⟨es₁, s₁, es₂, hexec, hrun, rfl⟩

theorem Inv.run {ops : List IrqOp} (h : s.Inv) (hrun : s.run ops = some (es, s')) :
    s'.Inv ∧ s.Balanced ops es s' ∧ ∀ e ∈ es, e.Named := by
  induction ops generalizing s es with
  | nil =>
      obtain ⟨rfl, rfl⟩ := Prod.mk.inj (Option.some.inj hrun)
      exact ⟨h, fun l => by simp, by simp⟩
  | cons op ops ih =>
      obtain ⟨es₁, s₁, es₂, hexec, hnext, rfl⟩ := run_cons hrun
      obtain ⟨hinv, hbal, hnamed⟩ := h.step hexec
      obtain ⟨hlast, hbal', hnamed'⟩ := ih hinv hnext
      refine ⟨hlast, fun l => ?_, fun e he => ?_⟩
      · have h₁ := hbal l
        have h₂ := hbal' l
        rw [List.count_singleton] at h₁
        rw [List.count_cons, List.count_append, List.count_append]
        omega
      · rcases List.mem_append.1 he with he | he
        · exact hnamed e he
        · exact hnamed' e he

/-- After `remap`, with interrupts still off. -/
def start (c : Pics) : IrqState := ⟨c.remap, .off⟩

theorem start_inv (c : Pics) : (start c).Inv := by
  obtain ⟨hmaster, hslave, -, -, -, -, hidle, -, -⟩ := remap_spec c
  exact ⟨hmaster, hslave, ⟨fun i => (hidle i).1, fun i => (hidle i).2⟩, trivial⟩

/-- **Nothing stays in service.** -/
theorem none_in_service (c : Pics) {ops : List IrqOp} (hrun : (start c).run ops = some (es, s))
    (hphase : s.phase = .on ∨ s.phase = .off ∨ s.phase = .handler) (i : Fin 8) :
    s.pics.master.isr i = false ∧ s.pics.slave.isr i = false := by
  have hserves := ((start_inv c).run hrun).1.serves
  have hidle : s.pics.master.Idle ∧ s.pics.slave.Idle := by
    rcases hphase with h | h | h <;> rw [h] at hserves <;> exact hserves
  exact ⟨hidle.1 i, hidle.2 i⟩

/-- Two chips as they may be after power-up. -/
def coldPics : Pics :=
  let p : Pic := ⟨fun _ => true, fun _ => true, 0, .icw3, 0, 0, 0, 0⟩
  ⟨p, p⟩

/-- Two edges of the keyboard before the CPU acknowledges, and one after. -/
def keyOps : List IrqOp :=
  [.unmask 1, .raise (.master 1), .raise (.master 1), .sti, .accept false, .step, .raise (.master 1), .step]

theorem none_in_service_key :
    ∃ es s, (start coldPics).run keyOps = some (es, s) ∧ s.phase = .handler ∧ s.pics.master.isr 1 = false := by
  have hobs : ((start coldPics).run keyOps).map (fun r => r.2.phase) = some .handler := by decide
  obtain ⟨⟨es, s⟩, hrun, hphase⟩ := Option.map_eq_some_iff.1 hobs
  exact ⟨es, s, hrun, hphase, (none_in_service coldPics hrun (.inr (.inr hphase)) 1).1⟩

/-- **Every request is accounted for.** -/
theorem requests_accounted (c : Pics) {ops : List IrqOp} (hrun : (start c).run ops = some (es, s)) (l : Line) :
    ops.count (.raise l) = es.count (.merged l) + es.count (.call l.irq (some l)) +
        ((if s.pics.requested l = true then 1 else 0) + if s.phase.line = some l then 1 else 0) ∧
      (∀ irq, .call irq (some l) ∈ es → irq = l.irq) ∧ ∀ irq, .call irq none ∈ es → irq = 7 ∨ irq = 15 := by
  obtain ⟨-, hbal, hnamed⟩ := (start_inv c).run hrun
  have hstart : (start c).owed l = 0 := by
    obtain ⟨-, -, -, -, -, -, -, hreq, -⟩ := remap_spec c
    rw [owed]
    change (if c.remap.requested l = true then 1 else 0) + 0 = 0
    rw [hreq l]
    rfl
  refine ⟨?_, fun irq hirq => ?_, fun irq hirq => ?_⟩
  · have hl := hbal l
    rw [hstart, owed] at hl
    omega
  · exact List.mem_singleton.1 (hnamed _ hirq)
  · have hmem : irq ∈ [7, 15] := hnamed _ hirq
    simpa using hmem

/-- One call, one edge that fell together with the first, and one request that waits. -/
theorem requests_accounted_key :
    ∃ es s, (start coldPics).run keyOps = some (es, s) ∧ es.count (.call 1 (some (.master 1))) = 1 ∧
      s.pics.requested (.master 1) = true := by
  have hobs : ((start coldPics).run keyOps).map (fun r => (r.1, r.2.phase)) =
      some ([.merged (.master 1), .call 1 (some (.master 1))], .handler) := by decide
  obtain ⟨⟨es, s⟩, hrun, hs⟩ := Option.map_eq_some_iff.1 hobs
  obtain ⟨rfl, hphase⟩ := Prod.mk.inj hs
  refine ⟨_, s, hrun, by decide, ?_⟩
  have hcount := (requests_accounted coldPics hrun (.master 1)).1
  rw [hphase] at hcount
  by_contra hreq
  rw [if_neg hreq] at hcount
  exact absurd hcount (by decide)

end IrqState

end Rolnix
