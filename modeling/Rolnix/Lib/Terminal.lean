import Mathlib.Data.List.GetD
import Mathlib.Logic.Function.Basic
import Mathlib.Tactic.SplitIfs

/-!
# A terminal

What a serial terminal shows on the row with the cursor. Bytes are printed where the cursor is and move it to
the right, at the end of a row to the next one; backspace moves it back, carriage return to the left margin,
line feed to the next row. Other control codes do nothing.

`Shows` is a terminal whose row holds a given text and has room behind it, where the cursor is. Printing
appends to it (`Shows.feed`), and backspace, blank, backspace takes the last byte away (`Shows.erase`).
-/

/-- A terminal with rows of `width` columns. The row gives the byte in each column. -/
structure Terminal where
  width : Nat
  row : Nat → UInt8
  col : Nat

namespace Terminal

/-- A row without anything on it. -/
def blank : Nat → UInt8 := fun _ => 32

/-- The printable bytes of ASCII. -/
def Printable (b : UInt8) : Prop := 32 ≤ b ∧ b ≤ 126

instance (b : UInt8) : Decidable (Printable b) := inferInstanceAs (Decidable (_ ∧ _))

theorem printable_of_all {bs : List UInt8} (h : bs.all fun b => decide (Printable b)) :
    ∀ b ∈ bs, Printable b :=
  fun b hb => of_decide_eq_true (List.all_eq_true.1 h b hb)

/-- One byte. -/
def put (t : Terminal) (b : UInt8) : Terminal :=
  if b = 10 then { t with row := blank }
  else if b = 13 then { t with col := 0 }
  else if b = 8 then { t with col := t.col - 1 }
  else if Printable b then
    if t.col < t.width then { t with row := Function.update t.row t.col b, col := t.col + 1 }
    else { t with row := Function.update blank 0 b, col := 1 }
  else t

def feed (t : Terminal) (bs : List UInt8) : Terminal := bs.foldl put t

variable {t : Terminal} {b : UInt8} {bs cs text : List UInt8}

theorem feed_append (t : Terminal) (bs cs : List UInt8) : t.feed (bs ++ cs) = (t.feed bs).feed cs :=
  List.foldl_append

theorem put_printable (h : Printable b) (hcol : t.col < t.width) :
    t.put b = { t with row := Function.update t.row t.col b, col := t.col + 1 } := by
  have h10 : b ≠ 10 := by rintro rfl; exact absurd h (by decide)
  have h13 : b ≠ 13 := by rintro rfl; exact absurd h (by decide)
  have h8 : b ≠ 8 := by rintro rfl; exact absurd h (by decide)
  rw [put, if_neg h10, if_neg h13, if_neg h8, if_pos h, if_pos hcol]

@[simp] theorem width_put (t : Terminal) (b : UInt8) : (t.put b).width = t.width := by
  unfold put
  split_ifs <;> rfl

@[simp] theorem width_feed (t : Terminal) (bs : List UInt8) : (t.feed bs).width = t.width := by
  induction bs generalizing t with
  | nil => rfl
  | cons b bs ih => exact (ih (t.put b)).trans (width_put t b)

/-- The row holds `text`, and the cursor is behind it, in a column of the row. -/
structure Shows (t : Terminal) (text : List UInt8) : Prop where
  col_eq : t.col = text.length
  row_eq : t.row = fun x => text.getD x 32
  fits : text.length < t.width

theorem Shows.put (h : t.Shows text) (hb : Printable b) (hfits : text.length + 1 < t.width) :
    (t.put b).Shows (text ++ [b]) := by
  rw [put_printable hb (by rw [h.col_eq]; exact h.fits)]
  refine ⟨by rw [h.col_eq, List.length_append]; rfl, ?_, by rw [List.length_append]; exact hfits⟩
  funext x
  change Function.update t.row t.col b x = _
  by_cases hx : x = t.col
  · rw [hx, Function.update_self, h.col_eq, List.getD_append_right _ _ _ _ (Nat.le_refl _), Nat.sub_self]
    rfl
  · rw [Function.update_of_ne hx, h.row_eq]
    change text.getD x 32 = _
    rw [h.col_eq] at hx
    rcases Nat.lt_or_gt_of_ne hx with hlt | hlt
    · rw [List.getD_append _ _ _ _ hlt]
    · rw [List.getD_eq_default text 32 (by omega), List.getD_eq_default (text ++ [b]) 32 (by simp; omega)]

theorem Shows.feed (h : t.Shows text) (hbs : ∀ b ∈ bs, Printable b)
    (hfits : text.length + bs.length < t.width) : (t.feed bs).Shows (text ++ bs) := by
  induction bs generalizing t text with
  | nil => rwa [List.append_nil]
  | cons b bs ih =>
      rw [List.length_cons] at hfits
      have hnext := ih (h.put (hbs b List.mem_cons_self) (by omega))
        (fun c hc => hbs c (List.mem_cons_of_mem b hc)) (by simp; omega)
      rwa [List.append_assoc] at hnext

/-- **Backspace, blank, backspace** takes a byte away. -/
theorem Shows.erase (h : t.Shows (text ++ [b])) : (t.feed [8, 32, 8]).Shows text := by
  have hcol : t.col = text.length + 1 := by rw [h.col_eq, List.length_append]; rfl
  have hfits : text.length < t.width := by
    have hlt := h.fits
    rw [List.length_append] at hlt
    exact Nat.lt_of_succ_lt hlt
  have hfeed : t.feed [8, 32, 8] =
      { t with row := Function.update t.row text.length 32, col := text.length } := by
    simp [Terminal.feed, Terminal.put, Printable, hcol, hfits]
  rw [hfeed]
  refine ⟨rfl, ?_, hfits⟩
  funext x
  change Function.update t.row text.length 32 x = _
  by_cases hx : x = text.length
  · rw [hx, Function.update_self, List.getD_eq_default _ _ (Nat.le_refl _)]
  · rw [Function.update_of_ne hx, h.row_eq]
    change (text ++ [b]).getD x 32 = _
    rcases Nat.lt_or_gt_of_ne hx with hlt | hlt
    · rw [List.getD_append _ _ _ _ hlt]
    · rw [List.getD_eq_default (text ++ [b]) 32 (by simp; omega), List.getD_eq_default text 32 (by omega)]

end Terminal
