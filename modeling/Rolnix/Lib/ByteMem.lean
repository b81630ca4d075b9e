import Mathlib.Tactic.Ring
import Mathlib.Data.Nat.Bitwise

/-!
# Byte-addressed memory

A memory is a function from addresses to bytes. Words are read and written in little-endian
order, `n` bytes at a time; `fill` is a `memset`.

The lemmas are the usual ones: a load sees the bytes of its own range only (`load_congr`), a
store is seen by a load of the same range (`load_store_same`) and by no load of a disjoint one
(`load_store_of_disjoint`). `Holds` is memory that contains given bytes; a word that was laid out as
bytes is loaded again (`Holds.load`).
-/

/-- A byte-addressed memory. -/
abbrev ByteMem := Nat → UInt8

namespace ByteMem

variable {m m' : ByteMem} {a b n k v x : Nat} {c : UInt8}

/-- The `n`-byte little-endian word at `a`. -/
def load (m : ByteMem) (a : Nat) : Nat → Nat
  | 0 => 0
  | n + 1 => (m a).toNat + 256 * load m (a + 1) n

/-- Write the low `n` bytes of `v` at `a`, least significant byte first. -/
def store (m : ByteMem) (a n v : Nat) : ByteMem := fun x =>
  if a ≤ x ∧ x < a + n then UInt8.ofNat (v / 256 ^ (x - a)) else m x

/-- Set the `n` bytes from `a` on to `c`. -/
def fill (m : ByteMem) (a n : Nat) (c : UInt8) : ByteMem := fun x =>
  if a ≤ x ∧ x < a + n then c else m x

/-- Copy the bytes `bs` to `a`. -/
def copy (m : ByteMem) (a : Nat) (bs : List UInt8) : ByteMem := fun x =>
  if a ≤ x ∧ x < a + bs.length then bs.getD (x - a) 0 else m x

/-- Set the byte at `a`. -/
def poke (m : ByteMem) (a : Nat) (c : UInt8) : ByteMem := Function.update m a c

/-! ## Frames -/

theorem store_of_not_mem (h : x < a ∨ a + n ≤ x) : m.store a n v x = m x := by
  rw [store, if_neg (by omega)]

theorem fill_of_not_mem (h : x < a ∨ a + n ≤ x) : m.fill a n c x = m x := by
  rw [fill, if_neg (by omega)]

theorem copy_of_not_mem {bs : List UInt8} (h : x < a ∨ a + bs.length ≤ x) : m.copy a bs x = m x := by
  rw [copy, if_neg (by omega)]

theorem copy_add {bs : List UInt8} (h : n < bs.length) : m.copy a bs (a + n) = bs.getD n 0 := by
  rw [copy, if_pos (by omega), Nat.add_sub_cancel_left]

theorem poke_of_ne (h : x ≠ a) : m.poke a c x = m x := by
  rw [poke, Function.update_of_ne h]

theorem load_congr (h : ∀ x, a ≤ x → x < a + n → m x = m' x) : m.load a n = m'.load a n := by
  induction n generalizing a with
  | zero => rfl
  | succ n ih =>
      rw [load, load, h a (le_refl a) (by omega)]
      rw [ih fun x hx hx' => h x (by omega) (by omega)]

theorem load_store_of_disjoint (h : a + n ≤ b ∨ b + k ≤ a) :
    (m.store b k v).load a n = m.load a n :=
  load_congr fun x hx hx' => store_of_not_mem (by omega)

theorem load_poke_of_not_mem (h : b < a ∨ a + n ≤ b) : (m.poke b c).load a n = m.load a n :=
  load_congr fun x hx hx' => poke_of_ne (by omega)

/-! ## Values -/

theorem load_lt (m : ByteMem) (a n : Nat) : m.load a n < 256 ^ n := by
  induction n generalizing a with
  | zero => simp [load]
  | succ n ih =>
      have hb : (m a).toNat < 256 := (m a).toNat_lt
      have hr := ih (a + 1)
      rw [load, pow_succ]
      omega

theorem load_append (m : ByteMem) (a k n : Nat) :
    m.load a (k + n) = m.load a k + 256 ^ k * m.load (a + k) n := by
  induction k generalizing a with
  | zero => simp [load]
  | succ k ih =>
      rw [Nat.succ_add, load, load, ih, Nat.add_assoc a 1 k, Nat.add_comm 1 k, pow_succ]
      ring

theorem load_eq_of_bytes (h : ∀ i < n, m (a + i) = UInt8.ofNat (v / 256 ^ i)) :
    m.load a n = v % 256 ^ n := by
  induction n generalizing a v with
  | zero => simp [load, Nat.mod_one]
  | succ n ih =>
      have h0 : (m a).toNat = v % 256 := by
        have := h 0 (by omega)
        simp only [Nat.add_zero, pow_zero, Nat.div_one] at this
        rw [this, UInt8.toNat_ofNat']
      have hr : m.load (a + 1) n = v / 256 % 256 ^ n := by
        refine ih fun i hi => ?_
        rw [Nat.add_assoc, Nat.add_comm 1 i, h (i + 1) (by omega), Nat.div_div_eq_div_mul,
          pow_succ, Nat.mul_comm 256]
      rw [load, h0, hr, pow_succ, Nat.mul_comm (256 ^ n) 256, Nat.mod_mul]

/-- **Store, then load.** -/
theorem load_store_same (m : ByteMem) (a n v : Nat) :
    (m.store a n v).load a n = v % 256 ^ n := by
  refine load_eq_of_bytes fun i hi => ?_
  rw [store, if_pos (by omega), Nat.add_sub_cancel_left]

theorem load_store_same_of_lt (hv : v < 256 ^ n) : (m.store a n v).load a n = v := by
  rw [load_store_same, Nat.mod_eq_of_lt hv]

theorem load_fill_zero (hb : b ≤ a) (hk : a + n ≤ b + k) : (m.fill b k 0).load a n = 0 := by
  have h : (m.fill b k 0).load a n = 0 % 256 ^ n := by
    refine load_eq_of_bytes fun i hi => ?_
    rw [fill, if_pos (by omega), Nat.zero_div]
    rfl
  rw [h, Nat.zero_mod]

/-! ## Given bytes -/

/-- The `n` bytes of a little-endian word. -/
def bytes (n v : Nat) : List UInt8 := (List.range n).map fun i => UInt8.ofNat (v / 256 ^ i)

@[simp] theorem length_bytes (n v : Nat) : (bytes n v).length = n := by
  rw [bytes, List.length_map, List.length_range]

/-- The memory has the bytes `bs` from `a` on. -/
def Holds (m : ByteMem) (a : Nat) (bs : List UInt8) : Prop := ∀ i, i < bs.length → bs[i]? = some (m (a + i))

theorem holds_append {bs cs : List UInt8} :
    m.Holds a (bs ++ cs) ↔ m.Holds a bs ∧ m.Holds (a + bs.length) cs := by
  constructor
  · intro h
    refine ⟨fun i hi => ?_, fun i hi => ?_⟩
    · rw [← h i (by rw [List.length_append]; omega), List.getElem?_append_left hi]
    · have hall := h (bs.length + i) (by rw [List.length_append]; omega)
      rw [List.getElem?_append_right (by omega), Nat.add_sub_cancel_left, ← Nat.add_assoc] at hall
      exact hall
  · rintro ⟨hbs, hcs⟩ i hi
    rw [List.length_append] at hi
    by_cases hlt : i < bs.length
    · rw [List.getElem?_append_left hlt, hbs i hlt]
    · rw [List.getElem?_append_right (by omega), hcs (i - bs.length) (by omega), Nat.add_assoc,
        Nat.add_sub_cancel' (by omega)]

/-- **A word that was laid out is loaded again.** -/
theorem Holds.load (h : m.Holds a (bytes n v)) (hv : v < 256 ^ n) : m.load a n = v := by
  rw [load_eq_of_bytes, Nat.mod_eq_of_lt hv]
  intro i hi
  have hbyte := h i (by rwa [length_bytes])
  rw [bytes, List.getElem?_map, List.getElem?_range hi] at hbyte
  exact (Option.some.inj hbyte).symm

end ByteMem
