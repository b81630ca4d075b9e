import Rolnix.Lib.BitField
import Mathlib.Tactic.SplitIfs

/-!
# Segment descriptors and interrupt gates

The encoders of `tss.rs` and `idt.rs`. A descriptor scatters its base and its limit over several
ranges of bits, with masks and shifts that must not meet; `getLsbD_codeDataDescriptor` says which bit
goes where. `descriptors_invert`: putting the fields together again in the way the processor does gives
back the arguments of the encoder.
-/

namespace Rolnix

open BitField

/-! ## The encoders -/

/-- A 64-bit code or data segment descriptor. -/
def codeDataDescriptor (base limit : BitVec 32) (access flags : BitVec 8) : BitVec 64 :=
  (limit.setWidth 64 &&& 0xFFFF#64) -- limit[15:0]
    ||| ((base.setWidth 64 &&& 0xFFFF#64) <<< 16) -- base[15:0]
    ||| ((base.setWidth 64 &&& 0x00FF0000#64) <<< 16) -- base[23:16]
    ||| (access.setWidth 64 <<< 40) -- type/access
    ||| ((((limit >>> 16).setWidth 64 &&& 0xF#64) ||| flags.setWidth 64) <<< 48) -- limit[19:16] and flags
    ||| ((base.setWidth 64 &&& 0xFF000000#64) <<< 32) -- base[31:24]

/-- The system descriptor of a TSS, two words. -/
def systemDescriptor (base : BitVec 64) (limit : BitVec 16) (access : BitVec 8) :
    BitVec 64 × BitVec 64 :=
  let lo := codeDataDescriptor (base.setWidth 32) (limit.setWidth 32) access 0x0
  let hi := ((base >>> 32) &&& 0xFF#64)
    ||| (((base >>> 40) &&& 0xFF#64) <<< 8)
    ||| (((base >>> 48) &&& 0xFF#64) <<< 16)
    ||| (((base >>> 56) &&& 0xFF#64) <<< 24)
  (lo, hi)

/-- An entry of the interrupt descriptor table. -/
structure IdtEntry where
  offsetLow : BitVec 16
  selector : BitVec 16
  ist : BitVec 8
  attrs : BitVec 8
  offsetMid : BitVec 16
  offsetHigh : BitVec 32
  reserved : BitVec 32
  deriving DecidableEq

namespace IdtEntry

def gate (offset : BitVec 64) (selector : BitVec 16) (ist attrs : BitVec 8) : IdtEntry where
  offsetLow := offset.setWidth 16
  selector := selector
  ist := ist
  attrs := attrs
  offsetMid := (offset >>> 16).setWidth 16
  offsetHigh := (offset >>> 32).setWidth 32
  reserved := 0

end IdtEntry

/-! ## The processor's view -/

/-- Base of a code or data segment: bits 16 to 39 and 56 to 63. -/
def segmentBase (lo : BitVec 64) : BitVec 32 := lo.extractLsb' 56 8 ++ lo.extractLsb' 16 24

/-- Base of a system segment: the above, and bits 0 to 31 of the second word. -/
def systemBase (lo hi : BitVec 64) : BitVec 64 := hi.extractLsb' 0 32 ++ segmentBase lo

/-- Limit: bits 0 to 15 and 48 to 51. -/
def segmentLimit (lo : BitVec 64) : BitVec 20 := lo.extractLsb' 48 4 ++ lo.extractLsb' 0 16

/-- Access byte: bits 40 to 47. -/
def segmentAccess (lo : BitVec 64) : BitVec 8 := lo.extractLsb' 40 8

/-- Flags: bits 52 to 55. -/
def segmentFlags (lo : BitVec 64) : BitVec 4 := lo.extractLsb' 52 4

/-- Where a gate leads. -/
def IdtEntry.target (e : IdtEntry) : BitVec 64 := e.offsetHigh ++ e.offsetMid ++ e.offsetLow

/-! ## Bit by bit -/

/-- **Where the bits of a descriptor come from.** -/
theorem getLsbD_codeDataDescriptor (base limit : BitVec 32) (access flags : BitVec 8) {j : Nat}
    (hj : j < 64) :
    (codeDataDescriptor base limit access flags).getLsbD j =
      if j < 16 then limit.getLsbD j
      else if j < 40 then base.getLsbD (j - 16)
      else if j < 48 then access.getLsbD (j - 40)
      else if j < 52 then limit.getLsbD (j - 32) || flags.getLsbD (j - 48)
      else if j < 56 then flags.getLsbD (j - 48)
      else base.getLsbD (j - 32) := by
  rw [codeDataDescriptor, show 0xFFFF#64 = ones 64 0 16 from rfl,
    show 0x00FF0000#64 = ones 64 16 8 from rfl, show 0xF#64 = ones 64 0 4 from rfl,
    show 0xFF000000#64 = ones 64 24 8 from rfl, BitVec.shiftLeft_or_distrib]
  simp only [BitVec.getLsbD_or, getLsbD_masked, getLsbD_part, getLsbD_widened,
    BitVec.getLsbD_setWidth, BitVec.getLsbD_ushiftRight]
  -- in each range the other parts contribute nothing
  split_ifs
  on_goal 2 => by_cases h32 : j < 32
  all_goals simp (disch := omega) only [decide_eq_true, decide_eq_false, Bool.true_and,
    Bool.false_and, Bool.or_false, Bool.false_or]
  rw [show 16 + (j - 48) = j - 32 by omega]

/-- The second word of a system descriptor holds the upper half of the base. -/
theorem getLsbD_systemDescriptor (base : BitVec 64) (limit : BitVec 16) (access : BitVec 8) {j : Nat}
    (hj : j < 32) :
    (systemDescriptor base limit access).2.getLsbD j = base.getLsbD (32 + j) := by
  rw [systemDescriptor, show 0xFF#64 = ones 64 0 8 from rfl]
  simp only [BitVec.getLsbD_or, getLsbD_masked, getLsbD_part, BitVec.getLsbD_ushiftRight]
  have hbyte : j < 8 ∨ (8 ≤ j ∧ j < 16) ∨ (16 ≤ j ∧ j < 24) ∨ 24 ≤ j := by omega
  rcases hbyte with h | h | h | h
  all_goals simp (disch := omega) only [decide_eq_true, decide_eq_false, Bool.true_and,
    Bool.false_and, Bool.or_false, Bool.false_or]
  · rw [show 40 + (j - 8) = 32 + j by omega]
  · rw [show 48 + (j - 16) = 32 + j by omega]
  · rw [show 56 + (j - 24) = 32 + j by omega]

/-! ## Inversion -/

section Inversion

variable (base limit : BitVec 32) (access flags : BitVec 8)

theorem segmentBase_codeData : segmentBase (codeDataDescriptor base limit access flags) = base := by
  apply BitVec.eq_of_getLsbD_eq
  intro i hi
  rw [segmentBase, BitVec.getLsbD_append, BitVec.getLsbD_extractLsb', BitVec.getLsbD_extractLsb']
  by_cases h : i < 24
  · rw [if_pos h, getLsbD_codeDataDescriptor _ _ _ _ (by omega), if_neg (by omega), if_pos (by omega),
      decide_eq_true h, Bool.true_and, Nat.add_sub_cancel_left]
  · rw [if_neg h, getLsbD_codeDataDescriptor _ _ _ _ (by omega)]
    simp (disch := omega) only [if_neg, decide_eq_true, Bool.true_and]
    rw [show 56 + (i - 24) - 32 = i by omega]

theorem segmentAccess_codeData :
    segmentAccess (codeDataDescriptor base limit access flags) = access := by
  apply BitVec.eq_of_getLsbD_eq
  intro i hi
  rw [segmentAccess, BitVec.getLsbD_extractLsb', getLsbD_codeDataDescriptor _ _ _ _ (by omega)]
  simp (disch := omega) only [if_pos, if_neg, decide_eq_true, Bool.true_and, Nat.add_sub_cancel_left]

/-- The limit comes back if it has 20 bits and the flags leave the low nibble to it. -/
theorem segmentLimit_codeData (limit : BitVec 20) (flags : BitVec 4) :
    segmentLimit (codeDataDescriptor base (limit.setWidth 32) access (flags ++ 0#4)) = limit := by
  apply BitVec.eq_of_getLsbD_eq
  intro i hi
  rw [segmentLimit, BitVec.getLsbD_append, BitVec.getLsbD_extractLsb', BitVec.getLsbD_extractLsb']
  by_cases h : i < 16
  · rw [if_pos h, getLsbD_codeDataDescriptor _ _ _ _ (by omega), if_pos (by omega),
      BitVec.getLsbD_setWidth]
    simp (disch := omega) only [decide_eq_true, Bool.true_and, Nat.zero_add]
  · rw [if_neg h, getLsbD_codeDataDescriptor _ _ _ _ (by omega)]
    simp (disch := omega) only [if_pos, if_neg, decide_eq_true, Bool.true_and, BitVec.getLsbD_setWidth,
      BitVec.getLsbD_append]
    rw [show 48 + (i - 16) - 32 = i by omega]
    simp

theorem segmentFlags_codeData (flags : BitVec 4) :
    segmentFlags (codeDataDescriptor base limit access (flags ++ 0#4)) = flags := by
  apply BitVec.eq_of_getLsbD_eq
  intro i hi
  rw [segmentFlags, BitVec.getLsbD_extractLsb', getLsbD_codeDataDescriptor _ _ _ _ (by omega)]
  simp (disch := omega) only [if_pos, if_neg, decide_eq_true, Bool.true_and, BitVec.getLsbD_append]
  rw [show 52 + i - 48 - 4 = i by omega]

theorem systemBase_system (base : BitVec 64) (limit : BitVec 16) :
    systemBase (systemDescriptor base limit access).1 (systemDescriptor base limit access).2 =
      base := by
  have hlow : segmentBase (systemDescriptor base limit access).1 = base.setWidth 32 :=
    segmentBase_codeData _ _ _ _
  apply BitVec.eq_of_getLsbD_eq
  intro i hi
  rw [systemBase, hlow, BitVec.getLsbD_append, BitVec.getLsbD_setWidth, BitVec.getLsbD_extractLsb']
  by_cases h : i < 32
  · rw [if_pos h, decide_eq_true h, Bool.true_and]
  · rw [if_neg h, Nat.zero_add, getLsbD_systemDescriptor _ _ _ (by omega), decide_eq_true (by omega),
      Bool.true_and, show 32 + (i - 32) = i by omega]

end Inversion

theorem target_gate (offset : BitVec 64) (selector : BitVec 16) (ist attrs : BitVec 8) :
    (IdtEntry.gate offset selector ist attrs).target = offset := by
  apply BitVec.eq_of_getLsbD_eq
  intro i hi
  rw [IdtEntry.target, BitVec.getLsbD_append, BitVec.getLsbD_append]
  simp only [IdtEntry.gate, BitVec.getLsbD_setWidth, BitVec.getLsbD_ushiftRight]
  split_ifs with h16 h32
  · rw [decide_eq_true h16, Bool.true_and]
  · rw [decide_eq_true h32, Bool.true_and, show 16 + (i - 16) = i by omega]
  · rw [decide_eq_true (by omega), Bool.true_and, show 32 + (i - 16 - 16) = i by omega]

/-- **The encoders are inverted by the layout.** A flags byte whose low nibble is 0 is a nibble
followed by four zeros. -/
theorem descriptors_invert :
    (∀ (base : BitVec 64) (limit : BitVec 16) (access : BitVec 8),
      systemBase (systemDescriptor base limit access).1 (systemDescriptor base limit access).2 = base ∧
      segmentLimit (systemDescriptor base limit access).1 = limit.setWidth 20 ∧
      segmentAccess (systemDescriptor base limit access).1 = access) ∧
    (∀ (base : BitVec 32) (limit : BitVec 20) (access : BitVec 8) (flags : BitVec 4),
      segmentBase (codeDataDescriptor base (limit.setWidth 32) access (flags ++ 0#4)) = base ∧
      segmentLimit (codeDataDescriptor base (limit.setWidth 32) access (flags ++ 0#4)) = limit ∧
      segmentAccess (codeDataDescriptor base (limit.setWidth 32) access (flags ++ 0#4)) = access ∧
      segmentFlags (codeDataDescriptor base (limit.setWidth 32) access (flags ++ 0#4)) = flags) ∧
    ∀ (offset : BitVec 64) (selector : BitVec 16) (ist attrs : BitVec 8),
      (IdtEntry.gate offset selector ist attrs).target = offset := by
  refine ⟨?_, ?_, target_gate⟩
  · intro base limit access
    refine ⟨systemBase_system _ _ _, ?_, segmentAccess_codeData _ _ _ _⟩
    have hwide : limit.setWidth 32 = (limit.setWidth 20).setWidth 32 :=
      (BitVec.setWidth_setWidth (by decide)).symm
    rw [systemDescriptor, hwide]
    exact segmentLimit_codeData _ _ _ 0#4
  · intro base limit access flags
    exact ⟨segmentBase_codeData _ _ _ _, segmentLimit_codeData _ _ _ _,
      segmentAccess_codeData _ _ _ _, segmentFlags_codeData _ _ _ _⟩

end Rolnix
