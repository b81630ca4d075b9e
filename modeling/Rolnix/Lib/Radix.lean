import Mathlib.Data.List.Infix
import Mathlib.Logic.Function.Basic

/-!
# Radix trees in a store of tables

A radix tree lives in a store of tables: slot `i` of table `t` holds an entry `E t i`, and
`dec` reads an entry as a child table or none. `walk` follows a path of slots to a table, `trail`
lists the entries read on the way and stops behind the first one without a child. What makes the
store a tree, down to depth `d`, is `NoSharing`: no table is reached by two paths.

Everything about two paths that share a prefix follows from one fact: writing slot `i` of the table
at `p` is seen only by paths that extend `p ++ [i]` (`walk_setSlot_aside`,
`trail_setSlot_aside`). Hanging a fresh empty table there adds exactly the path `p ++ [i]`
(`walk_graft`) and keeps the store a tree (`NoSharing.graft`).
-/

namespace Radix

variable {T I V : Type*} {dec : V → Option T} {E E' : T → I → V} {root t u : T} {i j : I}
  {p q r : List I} {d : Nat} {v : V}

/-! ## Walks and trails -/

/-- The table at the end of a path, if every slot on the way holds one. -/
def walk (dec : V → Option T) (E : T → I → V) : T → List I → Option T
  | t, [] => some t
  | t, i :: p => (dec (E t i)).bind fun u => walk dec E u p

/-- The entries read along a path, up to the first one without a child. -/
def trail (dec : V → Option T) (E : T → I → V) : T → List I → List V
  | _, [] => []
  | t, i :: p => E t i :: ((dec (E t i)).map fun u => trail dec E u p).getD []

@[simp] theorem walk_nil : walk dec E t [] = some t := rfl

@[simp] theorem trail_nil : trail dec E t [] = [] := rfl

theorem trail_cons_of_none (h : dec (E t i) = none) : trail dec E t (i :: p) = [E t i] := by
  rw [trail, h]
  rfl

theorem trail_cons_of_some (h : dec (E t i) = some u) :
    trail dec E t (i :: p) = E t i :: trail dec E u p := by
  rw [trail, h]
  rfl

theorem trail_singleton : trail dec E t [i] = [E t i] := by
  cases h : dec (E t i) with
  | none => exact trail_cons_of_none h
  | some u => exact trail_cons_of_some h

theorem trail_ne_nil (hp : p ≠ []) : trail dec E t p ≠ [] := by
  cases p with
  | nil => exact absurd rfl hp
  | cons i p => simp [trail]

theorem walk_append :
    walk dec E t (p ++ q) = (walk dec E t p).bind fun u => walk dec E u q := by
  induction p generalizing t with
  | nil => rfl
  | cons i p ih =>
      simp only [List.cons_append, walk, Option.bind_assoc]
      congr 1
      funext u
      exact ih

theorem walk_snoc :
    walk dec E t (p ++ [i]) = (walk dec E t p).bind fun u => dec (E u i) := by
  rw [walk_append]
  congr 1
  funext u
  simp only [walk]
  cases dec (E u i) <;> rfl

theorem walk_upto (hpq : p <+: q) (hq : walk dec E root q = some t) :
    ∃ u, walk dec E root p = some u := by
  obtain ⟨r, rfl⟩ := hpq
  rw [walk_append] at hq
  obtain ⟨u, hu, -⟩ := Option.bind_eq_some_iff.1 hq
  exact ⟨u, hu⟩

theorem not_snoc_prefix_self : ¬ (p ++ [i]) <+: p := by
  intro h
  have hlen := h.length_le
  simp only [List.length_append, List.length_singleton] at hlen
  omega

theorem mem_trail {e : V} (h : e ∈ trail dec E t p) :
    ∃ q u j, q ++ [j] <+: p ∧ walk dec E t q = some u ∧ e = E u j := by
  induction p generalizing t with
  | nil => simp at h
  | cons i p ih =>
      cases hd : dec (E t i) with
      | none =>
          rw [trail_cons_of_none hd, List.mem_singleton] at h
          exact ⟨[], t, i, ⟨p, rfl⟩, rfl, h⟩
      | some u =>
          rw [trail_cons_of_some hd, List.mem_cons] at h
          rcases h with h | h
          · exact ⟨[], t, i, ⟨p, rfl⟩, rfl, h⟩
          · obtain ⟨q, w, j, hpre, hw, he⟩ := ih h
            refine ⟨i :: q, w, j, ?_, ?_, he⟩
            · rw [List.cons_append]
              exact List.cons_prefix_cons.2 ⟨rfl, hpre⟩
            · rw [walk, hd, Option.bind_some, hw]

theorem trail_append (h : walk dec E t p = some u) :
    trail dec E t (p ++ q) = trail dec E t p ++ trail dec E u q := by
  induction p generalizing t with
  | nil =>
      obtain rfl := Option.some.inj h
      rfl
  | cons i p ih =>
      obtain ⟨w, hw, hu⟩ := Option.bind_eq_some_iff.1 h
      simp only [List.cons_append, trail, hw, Option.map_some, Option.getD_some, ih hu]

theorem trail_last (hp : p ≠ []) :
    ∃ q u j, q ++ [j] <+: p ∧ walk dec E t q = some u ∧
      trail dec E t p = trail dec E t q ++ [E u j] ∧ (q ++ [j] = p ∨ dec (E u j) = none) := by
  induction p generalizing t with
  | nil => exact absurd rfl hp
  | cons i p ih =>
      cases hd : dec (E t i) with
      | none => exact ⟨[], t, i, ⟨p, rfl⟩, rfl, trail_cons_of_none hd, Or.inr hd⟩
      | some w =>
          cases p with
          | nil => exact ⟨[], t, i, ⟨[], rfl⟩, rfl, trail_singleton, Or.inl rfl⟩
          | cons k p =>
              obtain ⟨q, u, j, hpre, hw, htrail, hend⟩ := ih (t := w) (List.cons_ne_nil k p)
              refine ⟨i :: q, u, j, ?_, ?_, ?_, ?_⟩
              · rw [List.cons_append]
                exact List.cons_prefix_cons.2 ⟨rfl, hpre⟩
              · rw [walk, hd, Option.bind_some, hw]
              · rw [trail_cons_of_some hd, htrail, trail_cons_of_some hd, List.cons_append]
              · rcases hend with hend | hend
                · exact Or.inl (by rw [List.cons_append, hend])
                · exact Or.inr hend

theorem length_trail (h : walk dec E t p = some u) : (trail dec E t p).length = p.length := by
  induction p generalizing t with
  | nil => rfl
  | cons i p ih =>
      obtain ⟨w, hw, hu⟩ := Option.bind_eq_some_iff.1 h
      simp only [trail, hw, Option.map_some, Option.getD_some, List.length_cons, ih hu]

theorem walk_congr
    (h : ∀ p t i, p.length < d → walk dec E root p = some t → dec (E' t i) = dec (E t i))
    (hq : q.length ≤ d) : walk dec E' root q = walk dec E root q := by
  induction q using List.reverseRecOn with
  | nil => rfl
  | append_singleton q j ih =>
      have hlen : q.length < d := by simp at hq; omega
      rw [walk_snoc, walk_snoc, ih hlen.le]
      cases hw : walk dec E root q with
      | none => rfl
      | some v => exact h q v j hlen hw

theorem trail_congr
    (h : ∀ p u i, p ++ [i] <+: q → walk dec E t p = some u → E' u i = E u i) :
    trail dec E' t q = trail dec E t q := by
  induction q generalizing t with
  | nil => rfl
  | cons i q ih =>
      have hi : E' t i = E t i := h [] t i ⟨q, rfl⟩ rfl
      rw [trail, trail, hi]
      cases hw : dec (E t i) with
      | none => rfl
      | some w =>
          simp only [Option.map_some, Option.getD_some]
          rw [ih fun p u j hpj hu => h (i :: p) u j (List.cons_prefix_cons.2 ⟨rfl, hpj⟩) ?_]
          rw [walk, hw]
          exact hu

/-! ## Missing tables -/

/-- How many tables are missing on a path: all those behind the first slot without a child. -/
def missing (dec : V → Option T) (E : T → I → V) : T → List I → Nat
  | _, [] => 0
  | t, i :: p =>
      match dec (E t i) with
      | some u => missing dec E u p
      | none => p.length + 1

theorem missing_cons_of_some (h : dec (E t i) = some u) :
    missing dec E t (i :: p) = missing dec E u p := by
  rw [missing, h]

theorem missing_cons_of_none (h : dec (E t i) = none) :
    missing dec E t (i :: p) = p.length + 1 := by
  rw [missing, h]

/-- The path up to the last table that is there, and the rest. -/
theorem missing_split (dec : V → Option T) (E : T → I → V) (t : T) (p : List I) :
    ∃ a b u, p = a ++ b ∧ walk dec E t a = some u ∧ b.length = missing dec E t p := by
  induction p generalizing t with
  | nil => exact ⟨[], [], t, rfl, rfl, rfl⟩
  | cons i p ih =>
      cases hd : dec (E t i) with
      | none => exact ⟨[], i :: p, t, rfl, rfl, (missing_cons_of_none hd).symm⟩
      | some u =>
          obtain ⟨a, b, w, rfl, hw, hlen⟩ := ih u
          refine ⟨i :: a, b, w, rfl, ?_, ?_⟩
          · rw [walk, hd, Option.bind_some, hw]
          · rw [missing_cons_of_some hd, hlen]

theorem missing_eq_zero (h : walk dec E t p = some u) : missing dec E t p = 0 := by
  induction p generalizing t with
  | nil => rfl
  | cons i p ih =>
      obtain ⟨w, hw, hrest⟩ := Option.bind_eq_some_iff.1 h
      rw [missing_cons_of_some hw, ih hrest]

theorem missing_congr (h : ∀ q, q <+: p → walk dec E' t q = walk dec E t q) :
    missing dec E' t p = missing dec E t p := by
  induction p generalizing t with
  | nil => rfl
  | cons i p ih =>
      have hhead : dec (E' t i) = dec (E t i) := by
        have := h ([] ++ [i]) ⟨p, rfl⟩
        rwa [walk_snoc, walk_snoc] at this
      cases hd : dec (E t i) with
      | none => rw [missing_cons_of_none (hhead.trans hd), missing_cons_of_none hd]
      | some u =>
          rw [missing_cons_of_some (hhead.trans hd), missing_cons_of_some hd]
          refine ih fun q hq => ?_
          have := h (i :: q) (List.cons_prefix_cons.2 ⟨rfl, hq⟩)
          rwa [walk, walk, hhead, hd, Option.bind_some, Option.bind_some] at this

/-! ## Trees -/

/-- No table is reached by two paths of length at most `d`. -/
def NoSharing (dec : V → Option T) (E : T → I → V) (root : T) (d : Nat) : Prop :=
  ∀ p q t, p.length ≤ d → q.length ≤ d →
    walk dec E root p = some t → walk dec E root q = some t → p = q

variable [DecidableEq T] [DecidableEq I]

/-- Write one slot. -/
def setSlot (E : T → I → V) (t : T) (i : I) (v : V) : T → I → V :=
  Function.update E t (Function.update (E t) i v)

theorem setSlot_self : setSlot E t i v t i = v := by
  simp [setSlot]

theorem setSlot_of_ne (h : u ≠ t ∨ j ≠ i) : setSlot E t i v u j = E u j := by
  rw [setSlot]
  by_cases hu : u = t
  · subst hu
    have hj : j ≠ i := h.resolve_left (by simp)
    simp [hj]
  · rw [Function.update_of_ne hu]

/-- The slot written is on the way of a path only if the path extends it. -/
theorem NoSharing.slot_ne (hns : NoSharing dec E root d) (hp : p.length ≤ d)
    (hpt : walk dec E root p = some t) (hq : q.length ≤ d) (hqu : walk dec E root q = some u)
    (hne : q ++ [j] ≠ p ++ [i]) : u ≠ t ∨ j ≠ i := by
  by_contra hcon
  simp only [ne_eq, not_or, not_not] at hcon
  obtain ⟨rfl, rfl⟩ := hcon
  exact hne (by rw [hns q p u hq hp hqu hpt])

/-- **A write is seen only below its slot.** -/
theorem walk_setSlot_aside (hns : NoSharing dec E root d) (hp : p.length ≤ d)
    (hpt : walk dec E root p = some t) (hq : q.length ≤ d)
    (hpre : ¬ (p ++ [i]) <+: q) : walk dec (setSlot E t i v) root q = walk dec E root q := by
  induction q using List.reverseRecOn with
  | nil => rfl
  | append_singleton q j ih =>
      have hlen : q.length ≤ d := by simp at hq; omega
      have hih := ih hlen fun hpq => hpre (hpq.trans (List.prefix_append q [j]))
      rw [walk_snoc, walk_snoc, hih]
      cases hw : walk dec E root q with
      | none => rfl
      | some u =>
          have hne : q ++ [j] ≠ p ++ [i] := fun he => hpre (he ▸ List.prefix_refl _)
          simp only [Option.bind_some]
          rw [setSlot_of_ne (hns.slot_ne hp hpt hlen hw hne)]

theorem trail_setSlot_aside (hns : NoSharing dec E root d) (hp : p.length ≤ d)
    (hpt : walk dec E root p = some t) (hq : q.length ≤ d + 1) (hpre : ¬ (p ++ [i]) <+: q) :
    trail dec (setSlot E t i v) root q = trail dec E root q := by
  refine trail_congr fun r u j hrj hru => ?_
  have hlen := hrj.length_le
  simp only [List.length_append, List.length_singleton] at hlen
  exact setSlot_of_ne (hns.slot_ne hp hpt (by omega) hru fun he => hpre (he ▸ hrj))

/-- The entries up to and including the slot written. -/
theorem trail_setSlot_through (hns : NoSharing dec E root d) (hp : p.length ≤ d)
    (hpt : walk dec E root p = some t) :
    trail dec (setSlot E t i v) root (p ++ i :: r) =
      trail dec E root p ++ trail dec (setSlot E t i v) t (i :: r) := by
  have hw : walk dec (setSlot E t i v) root p = some t := by
    rw [walk_setSlot_aside hns hp hpt hp not_snoc_prefix_self, hpt]
  rw [trail_append hw, trail_setSlot_aside hns hp hpt (by omega) not_snoc_prefix_self]

theorem trail_setSlot_below (hns : NoSharing dec E root d) (hp : p.length ≤ d)
    (hpt : walk dec E root p = some t) (hdec : dec (E t i) = some u)
    (hr : (p ++ i :: r).length ≤ d + 1) :
    trail dec (setSlot E t i v) u r = trail dec E u r := by
  refine trail_congr fun q w j hqj hqw => ?_
  have hlen := hqj.length_le
  simp only [List.length_append, List.length_cons, List.length_nil] at hlen hr
  have hw : walk dec E root (p ++ i :: q) = some w := by
    rw [List.append_cons, walk_append, walk_snoc, hpt, Option.bind_some, hdec, Option.bind_some]
    exact hqw
  refine setSlot_of_ne (hns.slot_ne hp hpt (by simp; omega) hw fun he => ?_)
  have := congrArg List.length he
  simp at this

/-! ## Grafting -/

/-- Hanging an empty table `u`, not yet in the tree, into a slot of the table at `p`. -/
theorem walk_graft (hns : NoSharing dec E root d) (hp : p.length < d)
    (hpt : walk dec E root p = some t) (hv : dec v = some u)
    (hfresh : ∀ q, q.length ≤ d → walk dec E root q ≠ some u)
    (hempty : ∀ j, dec (E u j) = none) (hq : q.length ≤ d) :
    walk dec (setSlot E t i v) root q =
      if q = p ++ [i] then some u
      else if (p ++ [i]) <+: q then none
      else walk dec E root q := by
  have hself : walk dec (setSlot E t i v) root (p ++ [i]) = some u := by
    rw [walk_snoc, walk_setSlot_aside hns hp.le hpt hp.le not_snoc_prefix_self, hpt]
    simp only [Option.bind_some]
    rw [setSlot_self, hv]
  by_cases hqe : q = p ++ [i]
  · rw [if_pos hqe, hqe, hself]
  rw [if_neg hqe]
  by_cases hpre : (p ++ [i]) <+: q
  · rw [if_pos hpre]
    obtain ⟨r, rfl⟩ := hpre
    cases r with
    | nil => simp at hqe
    | cons j r =>
        have hut : u ≠ t := fun hut => hfresh p hp.le (hut ▸ hpt)
        rw [walk_append, hself]
        simp only [Option.bind_some, walk]
        rw [setSlot_of_ne (Or.inl hut), hempty j]
        rfl
  · rw [if_neg hpre, walk_setSlot_aside hns hp.le hpt hq hpre]

theorem NoSharing.graft (hns : NoSharing dec E root d) (hp : p.length < d)
    (hpt : walk dec E root p = some t) (hv : dec v = some u)
    (hfresh : ∀ q, q.length ≤ d → walk dec E root q ≠ some u)
    (hempty : ∀ j, dec (E u j) = none) : NoSharing dec (setSlot E t i v) root d := by
  intro q r w hq hr hqw hrw
  rw [walk_graft hns hp hpt hv hfresh hempty hq] at hqw
  rw [walk_graft hns hp hpt hv hfresh hempty hr] at hrw
  split_ifs at hqw hrw with hq1 hr1 _ hr2 hr3
  · rw [hq1, hr1]
  · obtain rfl : u = w := by simpa using hqw
    exact absurd hrw (hfresh r hr)
  · obtain rfl : u = w := by simpa using hrw
    exact absurd hqw (hfresh q hq)
  · exact hns q r w hq hr hqw hrw

end Radix
