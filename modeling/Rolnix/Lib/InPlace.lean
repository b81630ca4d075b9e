import Mathlib.Data.List.Induction
import Mathlib.Data.List.Sort

/-!
# A buffer changed in place

What loops over a buffer of fixed length leave in it.

* `writeAt`: the buffer after elements were written one behind the other (`writeAt_set`).
* `sort`: an insertion sort of the first `count` elements. The element at `i` is taken out, those
  before it that belong behind it move up by one, and it goes into the gap. The buffer then holds the
  elements in the order in which insertion puts them (`sort_eq`). That is a permutation
  (`perm_inserted`) and in order (`pairwise_inserted`).

An index out of bounds fails.
-/

namespace InPlace

variable {α : Type*}

/-! ## Writing -/

section Write

variable {out : List α} {count : Nat}

/-- The buffer with `es` written behind the first `count` elements. -/
def writeAt (out : List α) (count : Nat) (es : List α) : List α :=
  out.take count ++ es ++ out.drop (count + es.length)

theorem writeAt_nil (out : List α) (count : Nat) : writeAt out count [] = out := by
  rw [writeAt, List.append_nil, List.length_nil, Nat.add_zero, List.take_append_drop]

theorem writeAt_set (hcount : count < out.length) (e : α) (es : List α) :
    writeAt (out.set count e) (count + 1) es = writeAt out count (e :: es) := by
  rw [writeAt, writeAt, List.take_succ_eq_append_getElem (by rwa [List.length_set]),
    List.getElem_set_self, List.take_set_of_le (Nat.le_refl count), List.drop_set_of_lt (by omega),
    List.length_cons, List.append_assoc, List.append_assoc, List.append_assoc, Nat.add_right_comm,
    Nat.add_assoc]
  rfl

end Write

/-! ## Sorting -/

variable (r : α → α → Prop) [DecidableRel r]

/-- Move the elements before `j` up until `key` may stand behind one of them (`r key a`). -/
def shift (key : α) : Nat → List α → Option (Nat × List α)
  | 0, l => some (0, l)
  | j + 1, l => do
      let a ← l[j]?
      if r key a then some (j + 1, l) else shift key j (l.set (j + 1) a)

/-- One round: put the element at `i` in its place. -/
def insert (l : List α) (i : Nat) : Option (List α) := do
  let key ← l[i]?
  let (j, l) ← shift r key i l
  return l.set j key

/-- Sort the first `count` elements. -/
def sort (count : Nat) (l : List α) : Option (List α) :=
  (List.range' 1 (count - 1)).foldlM (insert r) l

/-- The elements inserted one after the other, the last one first. -/
def inserted (l : List α) : List α := l.foldl (fun done key => done.orderedInsert r key) []

variable {r} {key : α}

theorem inserted_snoc (l : List α) (key : α) :
    inserted r (l ++ [key]) = (inserted r l).orderedInsert r key := by
  rw [inserted, List.foldl_append]
  rfl

theorem perm_inserted (l : List α) : (inserted r l).Perm l := by
  induction l using List.reverseRecOn with
  | nil => exact List.Perm.refl _
  | append_singleton l key ih =>
      rw [inserted_snoc]
      exact (List.perm_orderedInsert r key _).trans
        ((ih.cons key).trans (List.perm_append_singleton key l).symm)

theorem length_inserted (l : List α) : (inserted r l).length = l.length := (perm_inserted l).length_eq

theorem pairwise_inserted [Std.Total r] [IsTrans α r] (l : List α) : (inserted r l).Pairwise r := by
  induction l using List.reverseRecOn with
  | nil => exact List.Pairwise.nil
  | append_singleton l key ih =>
      rw [inserted_snoc]
      exact ih.orderedInsert key _

/-- **The inner loop.** The cell behind `done` is the gap; the induction takes `done` apart from its
end. -/
theorem shift_eq (done : List α) : ∀ (x : α) (rest : List α),
    ∃ j l', shift r key done.length (done ++ x :: rest) = some (j, l') ∧
      l'.set j key = (done.reverse.orderedInsert r key).reverse ++ rest := by
  induction done using List.reverseRecOn with
  | nil =>
      intro x rest
      exact ⟨0, x :: rest, rfl, rfl⟩
  | append_singleton done a ih =>
      intro x rest
      have hget : (done ++ [a] ++ x :: rest)[done.length]? = some a := by simp
      rw [List.length_append, List.length_singleton, shift, hget]
      by_cases hr : r key a
      · refine ⟨done.length + 1, _, if_pos hr, ?_⟩
        rw [List.reverse_append, List.reverse_singleton, List.singleton_append,
          List.orderedInsert_cons_of_le _ _ hr]
        simp
      · -- the gap moves down, and `a` fills it
        have hset : (done ++ [a] ++ x :: rest).set (done.length + 1) a = done ++ a :: (a :: rest) := by
          simp
        obtain ⟨j, l', hshift, hl'⟩ := ih a (a :: rest)
        refine ⟨j, l', ?_, ?_⟩
        · rw [← hset] at hshift
          exact (if_neg hr).trans hshift
        · rw [hl', List.reverse_append, List.reverse_singleton, List.singleton_append,
            List.orderedInsert_of_not_le _ _ hr, List.reverse_cons, List.append_assoc]
          rfl

/-- **One round.** -/
theorem insert_eq (done rest : List α) (key : α) :
    insert r ((inserted r done).reverse ++ key :: rest) done.length =
      some ((inserted r (done ++ [key])).reverse ++ rest) := by
  have hlen : (inserted r done).reverse.length = done.length := by
    rw [List.length_reverse, length_inserted]
  have hget : ((inserted r done).reverse ++ key :: rest)[done.length]? = some key := by
    rw [List.getElem?_append_right (by omega), hlen, Nat.sub_self]
    rfl
  obtain ⟨j, l', hshift, hl'⟩ := @shift_eq α r _ key (inserted r done).reverse key rest
  rw [hlen] at hshift
  rw [insert, hget]
  show (shift r key done.length _ >>= _) = _
  rw [hshift]
  show some (l'.set j key) = _
  rw [hl', List.reverse_reverse, inserted_snoc]

theorem rounds_eq (next : List α) : ∀ (done rest : List α),
    (List.range' done.length next.length).foldlM (insert r)
        ((inserted r done).reverse ++ (next ++ rest)) =
      some ((inserted r (done ++ next)).reverse ++ rest) := by
  induction next with
  | nil =>
      intro done rest
      rw [List.append_nil]
      rfl
  | cons key next ih =>
      intro done rest
      rw [List.length_cons, List.range'_succ, List.foldlM_cons, List.cons_append, insert_eq]
      have hrest := ih (done ++ [key]) rest
      rw [List.length_append, List.length_singleton, List.append_assoc] at hrest
      exact hrest

/-- **The buffer is sorted** up to `count`, and the rest of it is what it was. -/
theorem sort_eq (l rest : List α) :
    sort r l.length (l ++ rest) = some ((inserted r l).reverse ++ rest) := by
  cases l with
  | nil => rfl
  | cons a l => exact rounds_eq l [a] rest

end InPlace
