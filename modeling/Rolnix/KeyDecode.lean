import Rolnix.Keyboard
import Mathlib.Data.List.Induction
import Mathlib.Tactic.SplitIfs

/-!
# Keyboard decoding

The handler keeps one flag for the two shift keys, which every press of one of them sets and every
release of one of them clears. So the flag says what the last shift event was (`lastShift`), not
whether a shift key is held (`shiftHeld`).

* `typed_eq`: what the driver makes of a stream of scancodes, with polls at any time;
* `keys_decoded_iff`: this is what follows from the held keys exactly if no key with two characters is
  pressed while one shift key is held and the other was released last;
* `shift_released_early`: press both shift keys, release one, and an `a` is a lowercase one.
-/

namespace Rolnix

/-! ## The reference decoder -/

/-- The scancode is that of a release. -/
def isBreak (code : UInt8) : Bool := code &&& breakBit ≠ 0

/-- The key of a scancode. -/
def keyOf (code : UInt8) : UInt8 := code &&& ~~~breakBit

/-- Erase every `E0` together with the code after it. -/
def eraseExtended : List UInt8 → List UInt8
  | [] => []
  | [c] => if c = scE0 then [] else [c]
  | c :: d :: codes => if c = scE0 then eraseExtended codes else c :: eraseExtended (d :: codes)

/-- The key is held after these events: its last one was a press. -/
def held (key : UInt8) (past : List UInt8) : Bool :=
  past.foldl (fun down c => if keyOf c = key then !isBreak c else down) false

/-- The left or the right shift key is held. -/
def shiftHeld (past : List UInt8) : Bool := held scLshift past || held scRshift past

/-- The parity of the caps-lock presses. -/
def capsOn (past : List UInt8) : Bool := past.count scCaps % 2 = 1

/-- Translate the codes, with a shift state read off the events before each of them. -/
def decodeWith (shift : List UInt8 → Bool) (past : List UInt8) : List UInt8 → List Char
  | [] => []
  | c :: codes =>
      (translate c (shift past) (capsOn past)).toList ++ decodeWith shift (past ++ [c]) codes

/-- The characters of a stream of scancodes. -/
def reference (codes : List UInt8) : List Char := decodeWith shiftHeld [] (eraseExtended codes)

/-! ## What the driver computes -/

/-- The last event of a shift key was a press. -/
def lastShift (past : List UInt8) : Bool :=
  past.foldl (fun down c => if keyOf c = scLshift ∨ keyOf c = scRshift then !isBreak c else down) false

/-- An interrupt with a scancode, or a call of `poll_char`. -/
inductive KeyOp
  | irq (code : UInt8)
  | poll

/-- The scancodes of a run. -/
def scancodes (ops : List KeyOp) : List UInt8 :=
  ops.filterMap fun op =>
    match op with
    | .irq code => some code
    | .poll => none

namespace Keyboard

/-- One step, with the character that a poll returned. -/
def keyExec (k : Keyboard) : KeyOp → Option Char × Keyboard
  | .irq code => (none, k.irqHandler code)
  | .poll => k.pollChar

/-- The character that a scancode stands for in the current state. -/
def emitted (k : Keyboard) (code : UInt8) : Option Char :=
  if k.extended then none else translate code k.shift k.caps

/-- Whenever a character is to be queued, the ring has room for it. -/
def NeverFull : List KeyOp → Keyboard → Prop
  | [], _ => True
  | op :: ops, k =>
      (∀ code, op = .irq code → (k.emitted code).isSome → k.queued.length ≠ ringSize - 1) ∧
        NeverFull ops (k.keyExec op).2

/-- The characters that were polled, followed by those still queued. -/
def typed (ops : List KeyOp) (k : Keyboard) : List Char :=
  (Runs.trace keyExec ops k).1.reduceOption ++ (Runs.trace keyExec ops k).2.queued.map Char.ofUInt8

end Keyboard

/-! ## Scancodes -/

theorem keyOf_of_make {c : UInt8} (h : isBreak c = false) : keyOf c = c := by
  have hall : ∀ i : Fin 256, isBreak (UInt8.ofFin i) = false → keyOf (UInt8.ofFin i) = UInt8.ofFin i := by
    decide +kernel
  have hc := hall c.toFin
  rw [show UInt8.ofFin c.toFin = c from rfl] at hc
  exact hc h

theorem translate_eq_none {c : UInt8} (shift caps : Bool)
    (h : isBreak c = true ∨ c = scE0 ∨ c = scLshift ∨ c = scRshift ∨ c = scCaps) :
    translate c shift caps = none := by
  have hkeys : ∀ p ∈ baseChars, isBreak p.1 = false ∧ p.1 ≠ scE0 ∧ p.1 ≠ scLshift ∧ p.1 ≠ scRshift ∧
      p.1 ≠ scCaps := by decide
  have hfind : baseChars.find? (fun p => p.1 == c) = none := by
    rw [List.find?_eq_none]
    intro p hp heq
    obtain rfl : p.1 = c := by simpa using heq
    obtain ⟨h1, h2, h3, h4, h5⟩ := hkeys p hp
    rw [h1] at h
    simp [h2, h3, h4, h5] at h
  rw [translate, hfind]
  rfl

/-- The key stands for two characters, one of them with shift. -/
def HasShifted (c : UInt8) : Prop := translate c true false ≠ translate c false false

/-- Whether a key is mapped does not depend on shift and caps-lock. -/
theorem translate_isSome (c : UInt8) (shift caps shift' caps' : Bool) :
    (translate c shift caps).isSome = (translate c shift' caps').isSome := by
  unfold translate
  cases baseChars.find? fun p => p.1 == c with
  | none => rfl
  | some p => rfl

theorem ofUInt8_translate {c : UInt8} {shift caps : Bool} {ch : Char}
    (h : translate c shift caps = some ch) : Char.ofUInt8 ch.toUInt8 = ch := by
  have hchars : ∀ p ∈ baseChars, ∀ shift caps, Char.ofUInt8 (shiftChar p.2 shift caps).toUInt8 =
      shiftChar p.2 shift caps := by decide
  obtain ⟨p, hp, heq⟩ := Option.bind_eq_some_iff.1 h
  obtain rfl := Option.some.inj heq
  exact hchars p (List.mem_of_find?_eq_some hp) shift caps

/-- **What shift changes.** The keys with one character are those on which shift has no effect, with
or without caps-lock. -/
theorem translate_congr_iff (c : UInt8) (shift shift' caps : Bool) :
    translate c shift caps = translate c shift' caps ↔
      (HasShifted c → shift = shift') := by
  unfold HasShifted translate
  cases hfind : baseChars.find? (fun p => p.1 == c) with
  | none => exact iff_of_true rfl fun h => absurd rfl h
  | some p =>
      have hchars : ∀ p ∈ baseChars, ∀ shift shift' caps,
          shiftChar p.2 shift caps = shiftChar p.2 shift' caps ↔
            (shiftChar p.2 true false ≠ shiftChar p.2 false false → shift = shift') := by decide
      have hp := hchars p (List.mem_of_find?_eq_some hfind) shift shift' caps
      simpa using hp

/-! ## Histories -/

theorem eraseExtended_cons {c : UInt8} (hc : c ≠ scE0) (codes : List UInt8) :
    eraseExtended (c :: codes) = c :: eraseExtended codes := by
  cases codes with
  | nil => exact if_neg hc
  | cons d codes => rw [eraseExtended, if_neg hc]

theorem eraseExtended_pair (d : UInt8) (codes : List UInt8) :
    eraseExtended (scE0 :: d :: codes) = eraseExtended codes := by
  rw [eraseExtended, if_pos rfl]

theorem held_snoc (key c : UInt8) (past : List UInt8) :
    held key (past ++ [c]) = if keyOf c = key then !isBreak c else held key past := by
  rw [held, List.foldl_append]
  rfl

theorem lastShift_snoc (c : UInt8) (past : List UInt8) :
    lastShift (past ++ [c]) =
      if keyOf c = scLshift ∨ keyOf c = scRshift then !isBreak c else lastShift past := by
  rw [lastShift, List.foldl_append]
  rfl

theorem capsOn_snoc (c : UInt8) (past : List UInt8) :
    capsOn (past ++ [c]) = if c = scCaps then !capsOn past else capsOn past := by
  unfold capsOn
  rw [List.count_append, List.count_singleton]
  by_cases hc : c = scCaps
  · subst hc
    rw [if_pos rfl, if_pos (beq_self_eq_true _)]
    by_cases hodd : past.count scCaps % 2 = 1
    · simp only [hodd, decide_true, Bool.not_true, decide_eq_false_iff_not]
      omega
    · simp only [hodd, decide_false, Bool.not_false, decide_eq_true_eq]
      omega
  · rw [if_neg hc, if_neg (by simpa using hc), Nat.add_zero]

theorem shiftHeld_of_lastShift {past : List UInt8} (h : lastShift past = true) :
    shiftHeld past = true := by
  induction past using List.reverseRecOn with
  | nil => cases h
  | append_singleton past c ih =>
      rw [lastShift_snoc] at h
      rw [shiftHeld, held_snoc, held_snoc]
      by_cases hleft : keyOf c = scLshift
      · rw [if_pos (Or.inl hleft)] at h
        rw [if_pos hleft, h, Bool.true_or]
      by_cases hright : keyOf c = scRshift
      · rw [if_pos (Or.inr hright)] at h
        rw [if_pos hright, h, Bool.or_true]
      rw [if_neg (not_or.2 ⟨hleft, hright⟩)] at h
      rw [if_neg hleft, if_neg hright]
      exact ih h

/-! ## One interrupt -/

namespace Keyboard

variable {k : Keyboard} {code : UInt8} {past : List UInt8}

/-- The key state after a stream that did not end in a prefix. -/
structure Tracks (k : Keyboard) (past : List UInt8) : Prop where
  shift : k.shift = lastShift past
  caps : k.caps = capsOn past

theorem pushChar_queued (hroom : k.queued.length ≠ ringSize - 1) (c : UInt8) :
    (k.pushChar c).queued = k.queued ++ [c] :=
  (k.ring.contents_push c).trans (if_neg hroom)

theorem irqHandler_release (hext : k.extended = false) (hcode : code ≠ scE0)
    (hb : isBreak code = true) (ht : k.Tracks past) :
    (k.irqHandler code).extended = false ∧ (k.irqHandler code).Tracks (past ++ [code]) ∧
      (k.irqHandler code).queued = k.queued := by
  have hbreak : code &&& breakBit ≠ 0 := of_decide_eq_true hb
  have heq : k.irqHandler code =
      if keyOf code = scLshift ∨ keyOf code = scRshift then { k with shift := false } else k := by
    rw [irqHandler, if_neg (by rw [hext]; decide), if_neg hcode, if_pos hbreak]
    rfl
  have hcaps : k.caps = capsOn (past ++ [code]) := by
    rw [capsOn_snoc, if_neg, ht.caps]
    rintro rfl
    exact hbreak rfl
  rw [heq]
  by_cases hkey : keyOf code = scLshift ∨ keyOf code = scRshift
  · rw [if_pos hkey]
    refine ⟨hext, ⟨?_, hcaps⟩, rfl⟩
    rw [lastShift_snoc, if_pos hkey, hb]
    rfl
  · rw [if_neg hkey]
    refine ⟨hext, ⟨?_, hcaps⟩, rfl⟩
    rw [lastShift_snoc, if_neg hkey, ht.shift]

/-- What a press does, if it belongs to no extended pair. -/
theorem irqHandler_make (hext : k.extended = false) (hb : isBreak code = false) :
    k.irqHandler code =
      if code = scLshift ∨ code = scRshift then { k with shift := true }
      else if code = scCaps then { k with caps := !k.caps }
      else (k.emitted code).elim k fun c => k.pushChar c.toUInt8 := by
  have hbreak : ¬ code &&& breakBit ≠ 0 := of_decide_eq_false hb
  have hE0 : code ≠ scE0 := by
    rintro rfl
    cases hb
  have hemit : k.emitted code = translate code k.shift k.caps := by
    rw [emitted, hext]
    rfl
  rw [hemit, irqHandler, if_neg (by rw [hext]; decide), if_neg hE0, if_neg hbreak]
  cases translate code k.shift k.caps with
  | none => rfl
  | some c => rfl

theorem irqHandler_modifier (hext : k.extended = false)
    (hcode : code = scLshift ∨ code = scRshift ∨ code = scCaps) (ht : k.Tracks past) :
    (k.irqHandler code).extended = false ∧ (k.irqHandler code).Tracks (past ++ [code]) ∧
      (k.irqHandler code).queued = k.queued := by
  have hb : isBreak code = false := by
    rcases hcode with rfl | rfl | rfl <;> rfl
  rw [irqHandler_make hext hb]
  by_cases hshift : code = scLshift ∨ code = scRshift
  · rw [if_pos hshift]
    refine ⟨hext, ⟨?_, ?_⟩, rfl⟩
    · rw [lastShift_snoc, keyOf_of_make hb, if_pos hshift, hb]
      rfl
    · rw [capsOn_snoc, if_neg]
      · exact ht.caps
      · rintro rfl
        revert hshift
        decide
  · have hcaps : code = scCaps := (or_assoc.2 hcode).resolve_left hshift
    rw [if_neg hshift, if_pos hcaps]
    refine ⟨hext, ⟨?_, ?_⟩, rfl⟩
    · rw [lastShift_snoc, keyOf_of_make hb, if_neg hshift]
      exact ht.shift
    · rw [capsOn_snoc, if_pos hcaps, ← ht.caps]

theorem irqHandler_key (hext : k.extended = false) (hb : isBreak code = false)
    (hcode : ¬ (code = scLshift ∨ code = scRshift ∨ code = scCaps)) (ht : k.Tracks past)
    (hroom : (k.emitted code).isSome → k.queued.length ≠ ringSize - 1) :
    (k.irqHandler code).extended = false ∧ (k.irqHandler code).Tracks (past ++ [code]) ∧
      (k.irqHandler code).queued.map Char.ofUInt8 =
        k.queued.map Char.ofUInt8 ++ (k.emitted code).toList := by
  obtain ⟨hshift, hcaps⟩ := not_or.1 (fun h => hcode (or_assoc.1 h))
  have hflags : k.Tracks (past ++ [code]) := by
    refine ⟨?_, ?_⟩
    · rw [lastShift_snoc, keyOf_of_make hb, if_neg hshift, ht.shift]
    · rw [capsOn_snoc, if_neg hcaps, ht.caps]
  rw [irqHandler_make hext hb, if_neg hshift, if_neg hcaps]
  cases htr : k.emitted code with
  | none => exact ⟨hext, hflags, (List.append_nil _).symm⟩
  | some c =>
      rw [htr] at hroom
      have hchar : Char.ofUInt8 c.toUInt8 = c := by
        rw [emitted, hext] at htr
        exact ofUInt8_translate htr
      refine ⟨hext, ⟨hflags.shift, hflags.caps⟩, ?_⟩
      show (k.pushChar c.toUInt8).queued.map Char.ofUInt8 = _
      rw [pushChar_queued (hroom rfl), List.map_append, List.map_singleton, hchar]
      rfl

/-- **One scancode that belongs to no extended pair.** -/
theorem irqHandler_spec (hext : k.extended = false) (hE0 : code ≠ scE0) (ht : k.Tracks past)
    (hroom : (k.emitted code).isSome → k.queued.length ≠ ringSize - 1) :
    (k.irqHandler code).extended = false ∧ (k.irqHandler code).Tracks (past ++ [code]) ∧
      (k.irqHandler code).queued.map Char.ofUInt8 = k.queued.map Char.ofUInt8 ++
        (translate code (lastShift past) (capsOn past)).toList := by
  have hemit : k.emitted code = translate code (lastShift past) (capsOn past) := by
    rw [emitted, hext, ht.shift, ht.caps]
    rfl
  by_cases hb : isBreak code = true
  · obtain ⟨hext', ht', hqueued⟩ := irqHandler_release hext hE0 hb ht
    refine ⟨hext', ht', ?_⟩
    rw [hqueued, translate_eq_none _ _ (Or.inl hb), Option.toList_none, List.append_nil]
  by_cases hcode : code = scLshift ∨ code = scRshift ∨ code = scCaps
  · obtain ⟨hext', ht', hqueued⟩ := irqHandler_modifier hext hcode ht
    refine ⟨hext', ht', ?_⟩
    rw [hqueued, translate_eq_none _ _ (Or.inr (Or.inr hcode)), Option.toList_none, List.append_nil]
  · rw [← hemit]
    exact irqHandler_key hext (Bool.eq_false_iff.2 hb) hcode ht hroom

/-! ## Runs -/

theorem typed_cons (op : KeyOp) (ops : List KeyOp) (k : Keyboard) :
    typed (op :: ops) k = (k.keyExec op).1.toList ++ typed ops (k.keyExec op).2 := by
  unfold typed
  rw [Runs.trace, ← List.append_assoc]
  cases (k.keyExec op).1 with
  | none => rfl
  | some c => rfl

theorem poll_queued (k : Keyboard) :
    k.pollChar.1.toList ++ k.pollChar.2.queued.map Char.ofUInt8 = k.queued.map Char.ofUInt8 := by
  obtain ⟨hfirst, hrest⟩ := k.ring.pop_eq
  show (k.ring.pop.1.map Char.ofUInt8).toList ++ k.ring.pop.2.contents.map Char.ofUInt8 =
    k.ring.contents.map Char.ofUInt8
  rw [hfirst, hrest]
  cases k.ring.contents with
  | nil => rfl
  | cons c q => rfl

/-- **What a run types.** The induction is on the run; an `E0` that is still waiting for its successor
is put back in front of the codes to come. -/
theorem typed_eq (ops : List KeyOp) (ht : k.Tracks past) (hroom : NeverFull ops k) :
    typed ops k = k.queued.map Char.ofUInt8 ++ decodeWith lastShift past
      (eraseExtended (if k.extended then scE0 :: scancodes ops else scancodes ops)) := by
  induction ops generalizing k past with
  | nil =>
      have hnone : eraseExtended (if k.extended then [scE0] else []) = [] := by
        cases k.extended <;> rfl
      rw [show scancodes [] = [] from rfl, hnone, decodeWith, List.append_nil]
      rfl
  | cons op ops ih =>
      obtain ⟨hnow, hlater⟩ := hroom
      rw [typed_cons]
      cases op with
      | poll =>
          rw [← poll_queued k, List.append_assoc]
          exact congrArg _ (ih ⟨ht.shift, ht.caps⟩ hlater)
      | irq code =>
          rw [show scancodes (.irq code :: ops) = code :: scancodes ops from rfl]
          show typed ops (k.irqHandler code) = _
          replace hlater : NeverFull ops (k.irqHandler code) := hlater
          by_cases hext : k.extended = true
          · -- the second code of a pair
            have heq : k.irqHandler code = { k with extended := false } := by
              rw [irqHandler, if_pos hext]
            rw [heq] at hlater ⊢
            rw [if_pos hext, eraseExtended_pair]
            exact ih ⟨ht.shift, ht.caps⟩ hlater
          have hext' : k.extended = false := Bool.eq_false_iff.2 hext
          rw [if_neg hext]
          by_cases hE0 : code = scE0
          · have heq : k.irqHandler code = { k with extended := true } := by
              rw [irqHandler, if_neg hext, if_pos hE0]
            rw [heq] at hlater ⊢
            rw [hE0]
            exact ih ⟨ht.shift, ht.caps⟩ hlater
          · obtain ⟨hclear, ht', hqueued⟩ := irqHandler_spec hext' hE0 ht (hnow code rfl)
            have hrest := ih ht' hlater
            rw [hclear, hqueued] at hrest
            rw [hrest, eraseExtended_cons hE0, decodeWith, List.append_assoc]
            rfl

end Keyboard

/-! ## When the flag is right -/

/-- A shift key is held, but the last event of one was a release. -/
def StaleShift (past : List UInt8) : Prop := shiftHeld past = true ∧ lastShift past = false

/-- No key with two characters is pressed while the flag is wrong. -/
def ShiftsSettled (codes : List UInt8) : Prop :=
  ∀ past c rest, eraseExtended codes = past ++ c :: rest → HasShifted c → ¬ StaleShift past

theorem shift_eq_iff (past : List UInt8) : lastShift past = shiftHeld past ↔ ¬ StaleShift past := by
  unfold StaleShift
  cases hlast : lastShift past with
  | true => simp [shiftHeld_of_lastShift hlast]
  | false => cases shiftHeld past <;> simp

theorem toList_append_inj {α : Type*} {a b : Option α} {l l' : List α} (h : a.isSome = b.isSome) :
    a.toList ++ l = b.toList ++ l' ↔ a = b ∧ l = l' := by
  cases a <;> cases b <;> simp_all

theorem decodeWith_eq_iff (shift shift' : List UInt8 → Bool) (past codes : List UInt8) :
    decodeWith shift past codes = decodeWith shift' past codes ↔
      ∀ l₁ c l₂, codes = l₁ ++ c :: l₂ → HasShifted c → shift (past ++ l₁) = shift' (past ++ l₁) := by
  induction codes generalizing past with
  | nil => exact iff_of_true rfl fun l₁ c l₂ h => by simp at h
  | cons d codes ih =>
      have hsome : (translate d (shift past) (capsOn past)).isSome =
          (translate d (shift' past) (capsOn past)).isSome := translate_isSome _ _ _ _ _
      rw [decodeWith, decodeWith, toList_append_inj hsome, translate_congr_iff, ih]
      constructor
      · rintro ⟨hhere, hlater⟩ l₁ c l₂ heq hc
        rcases List.cons_eq_append_iff.1 heq with ⟨rfl, hcons⟩ | ⟨l, rfl, hrest⟩
        · obtain ⟨rfl, -⟩ := List.cons.inj hcons
          rw [List.append_nil]
          exact hhere hc
        · rw [List.append_cons]
          exact hlater l c l₂ hrest hc
      · intro hall
        refine ⟨fun hd => ?_, fun l₁ c l₂ heq hc => ?_⟩
        · have hnow := hall [] d codes rfl hd
          rwa [List.append_nil] at hnow
        · have hlater := hall (d :: l₁) c l₂ (by rw [heq]; rfl) hc
          rwa [List.append_cons] at hlater

/-- **Keyboard decoding follows the held keys** exactly if the shift flag is right whenever it
matters. Polls may come at any time, and the ring has room for what is queued. -/
theorem keys_decoded_iff (ops : List KeyOp) (hroom : Keyboard.NeverFull ops Keyboard.initial) :
    Keyboard.typed ops Keyboard.initial = reference (scancodes ops) ↔
      ShiftsSettled (scancodes ops) := by
  have htracks : Keyboard.initial.Tracks [] := ⟨rfl, rfl⟩
  have htyped : Keyboard.typed ops Keyboard.initial =
      decodeWith lastShift [] (eraseExtended (scancodes ops)) := Keyboard.typed_eq ops htracks hroom
  rw [htyped, reference, decodeWith_eq_iff]
  simp only [List.nil_append, shift_eq_iff]
  rfl

/-- The left shift key is held while an `a` is pressed, and a poll follows. -/
theorem keys_decoded_shift :
    Keyboard.typed [.irq 0x2A, .irq 0x1E, .poll] Keyboard.initial = reference [0x2A, 0x1E] := by
  have hroom : Keyboard.NeverFull [.irq 0x2A, .irq 0x1E, .poll] Keyboard.initial := by
    refine ⟨?_, ?_, ?_, trivial⟩
    · intro code _ _
      decide
    · intro code _ _
      decide
    · intro code hcode
      cases hcode
  refine (keys_decoded_iff _ hroom).2 ?_
  rintro past c rest heq - ⟨hheld, hlast⟩
  rw [show eraseExtended (scancodes [.irq 0x2A, .irq 0x1E, .poll]) = [0x2A, 0x1E] by decide] at heq
  -- before the `a` there are no events, or there is the press of the shift key
  rcases past with _ | ⟨a, _ | ⟨b, past⟩⟩
  · cases hheld
  · obtain ⟨rfl, -⟩ := List.cons.inj heq
    cases hlast
  · simp at heq

/-- **A shift key that is released early.** Both shift keys are pressed and the left one is released.
The right one is still held, but the `a` that is pressed then comes out in lowercase. -/
theorem shift_released_early :
    Keyboard.NeverFull [.irq 0x2A, .irq 0x36, .irq 0xAA, .irq 0x1E] Keyboard.initial ∧
      Keyboard.typed [.irq 0x2A, .irq 0x36, .irq 0xAA, .irq 0x1E] Keyboard.initial = ['a'] ∧
      reference [0x2A, 0x36, 0xAA, 0x1E] = ['A'] := by
  refine ⟨⟨?_, ?_, ?_, ?_, trivial⟩, by decide, by decide⟩
  · intro code _ _
    decide
  · intro code _ _
    decide
  · intro code _ _
    decide
  · intro code _ _
    decide

end Rolnix
