import Rolnix.Lib.Terminal

/-!
# The serial console

What reaches the line. The console under its lock puts a carriage return before each line feed
(`writeStr`); the lock-free path of panics and faults puts one in its place (`rawWrite`), so that a
report sends no line feed at all (`notMem_rawWrite`).

Waiting for the transmitter is left out: every byte is sent when it is free.
-/

namespace Rolnix

/-- The bytes of a text. -/
def ascii (s : String) : List UInt8 := s.toList.map Char.toUInt8

/-- A number in decimal. -/
def decimal (n : Nat) : List UInt8 := (Nat.toDigits 10 n).map Char.toUInt8

/-- A number in hexadecimal, as `{:#x}` prints it. -/
def hex (n : Nat) : List UInt8 := ascii "0x" ++ (Nat.toDigits 16 n).map Char.toUInt8

/-- `SerialPort::write_str`. -/
def writeStr (s : List UInt8) : List UInt8 := s.flatMap fun b => if b = 10 then [13, b] else [b]

/-- `kprint_line`, and `kprintln!`. -/
def kprintLine (s : List UInt8) : List UInt8 := writeStr (s ++ [10])

/-- `serial::raw_write`. -/
def rawWrite (bytes : List UInt8) : List UInt8 := bytes.map fun b => if b = 10 then 13 else b

theorem writeStr_append (s t : List UInt8) : writeStr (s ++ t) = writeStr s ++ writeStr t :=
  List.flatMap_append

theorem writeStr_of_notMem {s : List UInt8} (h : (10 : UInt8) ∉ s) : writeStr s = s := by
  induction s with
  | nil => rfl
  | cons b s ih =>
      rw [List.mem_cons, not_or] at h
      rw [writeStr, List.flatMap_cons, if_neg (Ne.symm h.1), ← writeStr, ih h.2]
      rfl

/-- **A raw report sends no line feed,** whatever it says. -/
theorem notMem_rawWrite (bytes : List UInt8) : (10 : UInt8) ∉ rawWrite bytes := by
  intro h
  obtain ⟨b, -, hb⟩ := List.mem_map.1 h
  split_ifs at hb with h10
  · exact absurd hb (by decide)
  · exact h10 hb

theorem shows_kprintLine {t : Terminal} (hwidth : 0 < t.width) (s : List UInt8) :
    (t.feed (kprintLine s)).Shows [] := by
  rw [kprintLine, writeStr_append, Terminal.feed_append]
  exact ⟨rfl, rfl, by rwa [Terminal.width_feed, Terminal.width_feed]⟩

end Rolnix
