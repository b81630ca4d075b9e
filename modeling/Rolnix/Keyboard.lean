import Rolnix.Lib.RingBuffer

/-!
# The keyboard driver

`keyboard.rs`: the handler of IRQ 1 reads one scancode of set 1 from the controller, updates the key
state and queues a character in a ring buffer, from which `poll_char` takes it. Both sides run with
interrupts disabled, so each call is one step here.

The buffer refines a queue of `RING_SIZE - 1` bytes (`ring_fifo`). That the characters are the right
ones is in `Rolnix.KeyDecode`.
-/

namespace Rolnix

/-! ## Scancodes -/

def scE0 : UInt8 := 0xE0

def scLshift : UInt8 := 0x2A

def scRshift : UInt8 := 0x36

def scCaps : UInt8 := 0x3A

def breakBit : UInt8 := 0x80

/-- Make codes of the printable keys, lowercase and unshifted. -/
def baseChars : List (UInt8 × Char) :=
  [(0x02, '1'), (0x03, '2'), (0x04, '3'), (0x05, '4'), (0x06, '5'), (0x07, '6'), (0x08, '7'),
   (0x09, '8'), (0x0A, '9'), (0x0B, '0'),
   (0x1E, 'a'), (0x30, 'b'), (0x2E, 'c'), (0x20, 'd'), (0x12, 'e'), (0x21, 'f'), (0x22, 'g'),
   (0x23, 'h'), (0x17, 'i'), (0x24, 'j'), (0x25, 'k'), (0x26, 'l'), (0x32, 'm'), (0x31, 'n'),
   (0x18, 'o'), (0x19, 'p'), (0x10, 'q'), (0x13, 'r'), (0x1F, 's'), (0x14, 't'), (0x16, 'u'),
   (0x2F, 'v'), (0x11, 'w'), (0x2D, 'x'), (0x15, 'y'), (0x2C, 'z'),
   (0x0C, '-'), (0x0D, '='), (0x1A, '['), (0x1B, ']'),
   (0x2B, '\x5c'), -- backslash
   (0x27, ';'),
   (0x28, '\x27'), -- apostrophe
   (0x29, '\x60'), -- backquote
   (0x33, ','), (0x34, '.'), (0x35, '/'),
   (0x0E, '\x08'), -- backspace
   (0x0F, '\t'), (0x1C, '\n'), (0x39, ' '),
   (0x01, '\x1b')] -- escape

/-- Shifted symbols of the digit and punctuation rows. -/
def shiftedSymbol : Char → Option Char
  | '1' => some '!'
  | '2' => some '@'
  | '3' => some '#'
  | '4' => some '$'
  | '5' => some '%'
  | '6' => some '^'
  | '7' => some '&'
  | '8' => some '*'
  | '9' => some '('
  | '0' => some ')'
  | '-' => some '_'
  | '=' => some '+'
  | '[' => some '\x7b'
  | ']' => some '\x7d'
  | '\x5c' => some '|'
  | ';' => some ':'
  | '\x27' => some '\x22'
  | '\x60' => some '~'
  | ',' => some '<'
  | '.' => some '>'
  | '/' => some '?'
  | _ => none

/-- Apply shift and caps-lock to the character of a key. -/
def shiftChar (ch : Char) (shift caps : Bool) : Char :=
  if ch.isLower then
    if shift ^^ caps then Char.ofUInt8 (ch.toUInt8 - 32) else ch
  else if shift then (shiftedSymbol ch).getD ch
  else ch

/-- Map a make code to its character. -/
def translate (code : UInt8) (shift caps : Bool) : Option Char := do
  let (_, ch) ← baseChars.find? fun p => p.1 == code
  return shiftChar ch shift caps

/-! ## The driver's state -/

def ringSize : Nat := 64

/-- `RING` with its two indices, `EXTENDED`, `SHIFT` and `CAPS`. -/
structure Keyboard where
  ring : RingBuffer UInt8 ringSize
  extended : Bool
  shift : Bool
  caps : Bool

namespace Keyboard

/-- The initial values of the statics. -/
def initial : Keyboard where
  ring := ⟨fun _ => 0, ⟨0, by decide⟩, ⟨0, by decide⟩⟩
  extended := false
  shift := false
  caps := false

/-- Take the next typed character, if any. -/
def pollChar (k : Keyboard) : Option Char × Keyboard :=
  (k.ring.pop.1.map Char.ofUInt8, { k with ring := k.ring.pop.2 })

/-- Queue a character; it is dropped if the ring is full. -/
def pushChar (k : Keyboard) (c : UInt8) : Keyboard := { k with ring := k.ring.push c }

/-- IRQ 1, with the scancode read from the controller. -/
def irqHandler (k : Keyboard) (code : UInt8) : Keyboard :=
  -- Consume one extended make or break code without mapping it.
  if k.extended then { k with extended := false }
  else if code = scE0 then { k with extended := true }
  else if code &&& breakBit ≠ 0 then
    -- Key release: only shift release resets state.
    if code &&& ~~~breakBit = scLshift ∨ code &&& ~~~breakBit = scRshift then { k with shift := false }
    else k
  else if code = scLshift ∨ code = scRshift then { k with shift := true }
  else if code = scCaps then { k with caps := !k.caps }
  else
    match translate code k.shift k.caps with
    | some c => k.pushChar c.toUInt8
    | none => k

/-! ## The ring is a queue -/

/-- The queued bytes, the oldest first. -/
def queued (k : Keyboard) : List UInt8 := k.ring.contents

/-- A call of `push_char` or `poll_char`, and what became of it. A byte was dropped if the write index
did not move. -/
def ringExec (k : Keyboard) : QueueOp UInt8 → QueueEvent Char × Keyboard
  | .push c =>
      (if (k.pushChar c).ring.head = k.ring.head then .dropped (Char.ofUInt8 c)
        else .accepted (Char.ofUInt8 c), k.pushChar c)
  | .pop => (QueueEvent.ofPop k.pollChar.1, k.pollChar.2)

theorem ringExec_sim (k : Keyboard) (op : QueueOp UInt8) :
    (k.ringExec op).1 = (Fifo.exec (ringSize - 1) k.queued op).1.map Char.ofUInt8 ∧
      (k.ringExec op).2.queued = (Fifo.exec (ringSize - 1) k.queued op).2 := by
  unfold queued
  cases op with
  | push c =>
      have hcontents := k.ring.contents_push c
      have hhead := k.ring.head_push c
      by_cases hfull : k.ring.contents.length = ringSize - 1
      · rw [Fifo.exec, if_pos hfull]
        rw [if_pos hfull] at hcontents
        refine ⟨?_, hcontents⟩
        exact if_pos (hhead.2 hfull)
      · rw [Fifo.exec, if_neg hfull]
        rw [if_neg hfull] at hcontents
        refine ⟨?_, hcontents⟩
        exact if_neg fun h => hfull (hhead.1 h)
  | pop =>
      obtain ⟨hfirst, hrest⟩ := k.ring.pop_eq
      refine ⟨?_, hrest⟩
      show QueueEvent.ofPop (k.ring.pop.1.map Char.ofUInt8) = _
      rw [hfirst]
      exact QueueEvent.ofPop_map Char.ofUInt8 _

/-- **The ring is a bounded queue**, over any interleaving of calls. Every call reports what it would
report on a queue of `RING_SIZE - 1` bytes, and the bytes that were accepted are those returned so
far, followed by those still queued, in order. -/
theorem ring_fifo (ops : List (QueueOp UInt8)) :
    (Runs.trace ringExec ops initial).1 =
        (Runs.trace (Fifo.exec (ringSize - 1)) ops []).1.map (QueueEvent.map Char.ofUInt8) ∧
      (Runs.trace ringExec ops initial).2.queued = (Runs.trace (Fifo.exec (ringSize - 1)) ops []).2 ∧
      (Runs.trace ringExec ops initial).2.queued.length ≤ ringSize - 1 ∧
      (Runs.trace ringExec ops initial).1.flatMap QueueEvent.input =
        (Runs.trace ringExec ops initial).1.flatMap QueueEvent.output ++
          (Runs.trace ringExec ops initial).2.queued.map Char.ofUInt8 := by
  have hstep : ∀ (k : Keyboard) (q : List UInt8) (op : QueueOp UInt8), k.queued = q →
      (k.ringExec op).1 = (Fifo.exec (ringSize - 1) q op).1.map Char.ofUInt8 ∧
        (k.ringExec op).2.queued = (Fifo.exec (ringSize - 1) q op).2 := by
    rintro k q op rfl
    exact k.ringExec_sim op
  obtain ⟨hevents, hqueue⟩ := Runs.trace_sim hstep (show initial.queued = [] from rfl) ops
  refine ⟨hevents, hqueue, ?_, ?_⟩
  · rw [hqueue]
    exact Fifo.length_le (ringSize - 1) ops (Nat.zero_le _)
  · rw [hevents, hqueue]
    exact Fifo.accounts_map Char.ofUInt8 (ringSize - 1) ops

end Keyboard

end Rolnix
