import Rolnix.Lib.Cyclic
import Rolnix.Lib.Runs
import Mathlib.Data.List.GetD
import Mathlib.Logic.Function.Basic

/-!
# Ring buffers

A ring buffer of `n` cells with one index for the next write and one for the next read. The buffer is
empty when the two agree, so one cell always stays unused and `n - 1` elements fit. Cells outside of
the two indices keep what was last written to them.

`contents` reads the queue off the cells. A push appends to it unless the buffer is full
(`contents_push`), and a pop removes the first element (`pop_eq`). `Fifo.exec` is the queue of bounded
length that this is compared with. What goes into it comes out, in the same order, or is still in it
(`Fifo.accounts`).
-/

/-- `n` cells, the index of the next write and the index of the next read. -/
structure RingBuffer (α : Type*) (n : Nat) where
  cells : Fin n → α
  head : Fin n
  tail : Fin n

namespace RingBuffer

variable {α : Type*} {n : Nat} {r : RingBuffer α n} {c : α}

/-- The index `i` places ahead. -/
def ahead (t : Fin n) (i : Nat) : Fin n := ⟨(t + i) % n, Nat.mod_lt _ t.pos⟩

/-- Write a new element, or drop it if the buffer is full. -/
def push (r : RingBuffer α n) (c : α) : RingBuffer α n :=
  let next := ahead r.head 1
  if next ≠ r.tail then { r with cells := Function.update r.cells r.head c, head := next } else r

/-- Take the oldest element. -/
def pop (r : RingBuffer α n) : Option α × RingBuffer α n :=
  if r.head ≠ r.tail then (some (r.cells r.tail), { r with tail := ahead r.tail 1 }) else (none, r)

/-! ## The queue in the buffer -/

/-- The number of elements. -/
def size (r : RingBuffer α n) : Nat := Cyclic.gap n r.tail r.head

/-- The elements, the oldest first. -/
def contents (r : RingBuffer α n) : List α := (List.range r.size).map fun i => r.cells (ahead r.tail i)

theorem length_contents : r.contents.length = r.size := by
  rw [contents, List.length_map, List.length_range]

theorem size_lt : r.size < n := Cyclic.gap_lt r.tail.isLt r.head.isLt

theorem ahead_zero (t : Fin n) : ahead t 0 = t :=
  Fin.ext (Nat.mod_eq_of_lt t.isLt)

theorem ahead_ahead (t : Fin n) (i j : Nat) : ahead (ahead t i) j = ahead t (i + j) := by
  apply Fin.ext
  show ((t + i) % n + j) % n = (t + (i + j)) % n
  rw [Nat.mod_add_mod, Nat.add_assoc]

theorem ahead_turn (t : Fin n) : ahead t n = t := by
  apply Fin.ext
  show (t + n) % n = t
  rw [Nat.add_mod_right, Nat.mod_eq_of_lt t.isLt]

theorem ahead_size (r : RingBuffer α n) : ahead r.tail r.size = r.head :=
  Fin.ext (Cyclic.add_gap r.tail.isLt r.head.isLt)

theorem ahead_injOn {t : Fin n} {i j : Nat} (hi : i < n) (hj : j < n) (h : ahead t i = ahead t j) :
    i = j := by
  have hmod : (t + i) % n = (t + j) % n := congrArg Fin.val h
  rw [← Cyclic.gap_add_mod t.isLt hi, hmod, Cyclic.gap_add_mod t.isLt hj]

theorem size_eq_zero_iff : r.size = 0 ↔ r.head = r.tail := by
  constructor
  · intro hzero
    rw [← r.ahead_size, hzero, ahead_zero]
  · intro heq
    rw [size, heq, Cyclic.gap_self]

theorem full_iff : ahead r.head 1 = r.tail ↔ r.size = n - 1 := by
  have hlt : r.size < n := size_lt
  rw [← r.ahead_size, ahead_ahead]
  constructor
  · intro hfull
    by_contra hne
    have hsucc := ahead_injOn (by omega) (by omega) (hfull.trans (ahead_zero r.tail).symm)
    omega
  · intro hsize
    rw [hsize, Nat.sub_add_cancel (by omega), ahead_turn]

/-- **A push appends**, unless the buffer is full. -/
theorem contents_push (r : RingBuffer α n) (c : α) :
    (r.push c).contents = if r.contents.length = n - 1 then r.contents else r.contents ++ [c] := by
  rw [length_contents]
  by_cases hfull : ahead r.head 1 = r.tail
  · rw [if_pos (full_iff.1 hfull), push, if_neg (not_not.2 hfull)]
  have hsize : r.size ≠ n - 1 := fun h => hfull (full_iff.2 h)
  have hlt : r.size < n := size_lt
  have hpush : r.push c =
      { r with cells := Function.update r.cells r.head c, head := ahead r.head 1 } := by
    rw [push, if_pos hfull]
  have hgrow : (r.push c).size = r.size + 1 := by
    have hhead : ahead r.tail (r.size + 1) = ahead r.head 1 := by
      rw [← ahead_ahead, r.ahead_size]
    rw [hpush, size, ← hhead]
    exact Cyclic.gap_add_mod r.tail.isLt (by omega)
  rw [if_neg hsize, contents, hgrow, List.range_succ, List.map_append, List.map_singleton, hpush]
  dsimp only
  rw [r.ahead_size, Function.update_self, contents]
  congr 1
  apply List.map_congr_left
  intro i hi
  -- the cell written to is not one of the others
  have hne : ahead r.tail i ≠ r.head := by
    intro heq
    rw [← r.ahead_size] at heq
    have hi' := List.mem_range.1 hi
    have hsame := ahead_injOn (by omega) hlt heq
    omega
  rw [Function.update_of_ne hne]

/-- **A pop takes the first element.** -/
theorem pop_eq (r : RingBuffer α n) : r.pop.1 = r.contents.head? ∧ r.pop.2.contents = r.contents.tail := by
  by_cases hempty : r.head = r.tail
  · have hnil : r.contents = [] := by
      rw [contents, size_eq_zero_iff.2 hempty]
      rfl
    have hpop : r.pop = (none, r) := by
      rw [pop, if_neg (not_not.2 hempty)]
    rw [hpop]
    exact ⟨by rw [hnil]; rfl, by rw [hnil]; rfl⟩
  obtain ⟨k, hk⟩ : ∃ k, r.size = k + 1 :=
    Nat.exists_eq_succ_of_ne_zero fun h => hempty (size_eq_zero_iff.1 h)
  have hlt : r.size < n := size_lt
  have hpop : r.pop = (some (r.cells r.tail), { r with tail := ahead r.tail 1 }) := by
    rw [pop, if_pos hempty]
  have hcontents : r.contents =
      r.cells r.tail :: (List.range k).map fun i => r.cells (ahead r.tail (1 + i)) := by
    rw [contents, hk, List.range_succ_eq_map, List.map_cons, List.map_map, ahead_zero]
    simp only [Function.comp_def, Nat.succ_eq_add_one, Nat.add_comm]
  have hshrink : r.pop.2.size = k := by
    have hhead : ahead (ahead r.tail 1) k = r.head := by
      rw [ahead_ahead, Nat.add_comm, ← hk, r.ahead_size]
    rw [hpop, size]
    dsimp only
    rw [← hhead]
    exact Cyclic.gap_add_mod (ahead r.tail 1).isLt (by omega)
  rw [hcontents, hpop]
  refine ⟨rfl, ?_⟩
  rw [hpop] at hshrink
  rw [contents, hshrink]
  simp only [ahead_ahead, List.tail_cons]

theorem head_push (r : RingBuffer α n) (c : α) :
    (r.push c).head = r.head ↔ r.contents.length = n - 1 := by
  rw [length_contents, ← full_iff]
  by_cases hfull : ahead r.head 1 = r.tail
  · refine iff_of_true ?_ hfull
    rw [push, if_neg (not_not.2 hfull)]
  · refine iff_of_false ?_ hfull
    have hlt : r.size < n := size_lt
    have hsize : r.size ≠ n - 1 := fun h => hfull (full_iff.2 h)
    rw [push, if_pos hfull]
    intro heq
    have hone : 1 = 0 := ahead_injOn (by omega) (by omega) (heq.trans (ahead_zero r.head).symm)
    omega

end RingBuffer

/-! ## Queues -/

/-- An operation on a queue. -/
inductive QueueOp (α : Type*)
  | push (c : α)
  | pop

/-- What became of it. -/
inductive QueueEvent (α : Type*)
  | accepted (c : α)
  | dropped (c : α)
  | returned (c : α)
  | empty

namespace QueueEvent

variable {α β : Type*}

def map (f : α → β) : QueueEvent α → QueueEvent β
  | accepted c => accepted (f c)
  | dropped c => dropped (f c)
  | returned c => returned (f c)
  | empty => empty

/-- The element that went in. -/
def input : QueueEvent α → List α
  | accepted c => [c]
  | _ => []

/-- The element that came out. -/
def output : QueueEvent α → List α
  | returned c => [c]
  | _ => []

theorem input_map (f : α → β) (e : QueueEvent α) : (e.map f).input = e.input.map f := by
  cases e <;> rfl

theorem output_map (f : α → β) (e : QueueEvent α) : (e.map f).output = e.output.map f := by
  cases e <;> rfl

/-- What a pop returned. -/
def ofPop : Option α → QueueEvent α
  | some c => returned c
  | none => empty

theorem ofPop_map (f : α → β) (c : Option α) : ofPop (c.map f) = (ofPop c).map f := by
  cases c <;> rfl

end QueueEvent

namespace Fifo

variable {α : Type*}

/-- A queue of at most `cap` elements. -/
def exec (cap : Nat) (q : List α) : QueueOp α → QueueEvent α × List α
  | .push c => if q.length = cap then (.dropped c, q) else (.accepted c, q ++ [c])
  | .pop => (QueueEvent.ofPop q.head?, q.tail)

theorem exec_accounts (cap : Nat) (q : List α) (op : QueueOp α) :
    q ++ (exec cap q op).1.input = (exec cap q op).1.output ++ (exec cap q op).2 := by
  cases op with
  | push c =>
      rw [exec]
      split_ifs with hfull
      · exact List.append_nil q
      · rfl
  | pop =>
      cases q with
      | nil => rfl
      | cons c q => exact List.append_nil (c :: q)

theorem exec_length (cap : Nat) {q : List α} (h : q.length ≤ cap) (op : QueueOp α) :
    (exec cap q op).2.length ≤ cap := by
  cases op with
  | push c =>
      rw [exec]
      split_ifs with hfull
      · exact h
      · rw [List.length_append, List.length_singleton]
        omega
  | pop =>
      show q.tail.length ≤ cap
      rw [List.length_tail]
      omega

/-- **Nothing is lost, duplicated or reordered**: what went in is what came out, followed by what is
still in the queue. -/
theorem accounts (cap : Nat) (ops : List (QueueOp α)) (q : List α) :
    q ++ (Runs.trace (exec cap) ops q).1.flatMap QueueEvent.input =
      (Runs.trace (exec cap) ops q).1.flatMap QueueEvent.output ++ (Runs.trace (exec cap) ops q).2 := by
  induction ops generalizing q with
  | nil => exact List.append_nil q
  | cons op ops ih =>
      rw [Runs.trace, List.flatMap_cons, List.flatMap_cons, ← List.append_assoc, exec_accounts,
        List.append_assoc, List.append_assoc, ih]

theorem length_le (cap : Nat) (ops : List (QueueOp α)) {q : List α} (h : q.length ≤ cap) :
    (Runs.trace (exec cap) ops q).2.length ≤ cap := by
  induction ops generalizing q with
  | nil => exact h
  | cons op ops ih => exact ih (exec_length cap h op)

/-- The account of a machine that reports what the queue does, on elements renamed by `f`. -/
theorem accounts_map {β : Type*} (f : α → β) (cap : Nat) (ops : List (QueueOp α)) :
    ((Runs.trace (exec cap) ops []).1.map (QueueEvent.map f)).flatMap QueueEvent.input =
      ((Runs.trace (exec cap) ops []).1.map (QueueEvent.map f)).flatMap QueueEvent.output ++
        (Runs.trace (exec cap) ops []).2.map f := by
  have hacc := congrArg (List.map f) (accounts cap ops [])
  rw [List.nil_append, List.map_append, List.map_flatMap, List.map_flatMap] at hacc
  simp only [List.flatMap_map, QueueEvent.input_map, QueueEvent.output_map]
  exact hacc

end Fifo
