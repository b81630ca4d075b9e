import Rolnix.Vmm
import Rolnix.Lib.Radix

/-!
# Page-table trees

The tables of an address space, seen as a radix tree: `E t i` is entry `i` of table `t`, and
`childOf` reads an entry that is present and not huge as a pointer to the next table. `lookup` is
the hardware's walk along a path of four slots: the entry it ends at, if that is present, with the
number of entries read. Four entries read mean a 4 KiB page, three a 2 MiB page.

`Tree` is the invariant the three walks of `vmm.rs` rely on. The writes they make keep it, and each
says what it does to `lookup`:

* `Tree.setInner` with `Tree.extends_promote`, and `Tree.graft` with `Tree.extends_graft`: nothing;
* `Tree.setLeaf` with `Tree.lookup_setLeaf`: it sets one page;
* `Tree.setInner` with `Tree.lookup_setHuge`: it sets the 512 pages below one slot;
* `Tree.congr`: whatever happens outside the tables of the tree does not matter.
-/

namespace Rolnix

open Radix

/-- The table an entry points to. -/
def childOf (e : Nat) : Option Nat :=
  if e.testBit 0 = true ∧ e.testBit 7 = false then some (physOf e) else none

theorem childOf_eq_some {e t : Nat} :
    childOf e = some t ↔ e.testBit 0 = true ∧ e.testBit 7 = false ∧ physOf e = t := by
  unfold childOf
  split_ifs with h
  · simp [h]
  · simp only [false_iff]
    exact fun hc => h ⟨hc.1, hc.2.1⟩

theorem childOf_eq_none {e : Nat} :
    childOf e = none ↔ e.testBit 0 = false ∨ e.testBit 7 = true := by
  unfold childOf
  by_cases h0 : e.testBit 0 = true
  · by_cases h7 : e.testBit 7 = true
    · simp [h7]
    · simp [h0, h7]
  · simp [h0]

theorem childOf_zero : childOf 0 = none := by decide

/-- The page-table walk along `p`: how many entries were read and the last of them, if present. -/
def lookup (E : Nat → Nat → Nat) (root : Nat) (p : List Nat) : Option (Nat × Nat) :=
  (trail childOf E root p).getLast?.bind fun e =>
    if e.testBit 0 = true then some ((trail childOf E root p).length, e) else none

/-- An entry of one of the upper three levels. The tables above a page restrict nothing but USER:
they are writable and executable. Huge pages are at the third level, for the kernel only. -/
structure InnerOk (depth e : Nat) : Prop where
  writable : e.testBit 1 = true
  exec : e.testBit 63 = false
  huge : e.testBit 7 = true → depth = 2 ∧ e.testBit 2 = false

/-- An entry for a 4 KiB page of one of `n` frames. -/
def LeafOk (n e : Nat) : Prop :=
  ∃ (pa : Nat) (flags : Flags), e = pa ||| flags.bits ||| ptePresent ∧
    pa % frameSize = 0 ∧ pa < n * frameSize

/-- Every entry on the way down `p` is a user entry. -/
def UserPath (E : Nat → Nat → Nat) (root : Nat) (p : List Nat) : Prop :=
  ∀ q u j, q ++ [j] <+: p → walk childOf E root q = some u → (E u j).testBit 2 = true

/-- The tables below `root` form a tree of `K` frames, for a machine with `n` frames. -/
structure Tree (n : Nat) (K : Nat → Prop) (E : Nat → Nat → Nat) (root : Nat) : Prop where
  noSharing : NoSharing childOf E root 3
  tables : ∀ p t, p.length ≤ 3 → walk childOf E root p = some t → K t
  inner : ∀ p t i, p.length ≤ 2 → walk childOf E root p = some t → (E t i).testBit 0 = true →
    InnerOk p.length (E t i)
  leaf : ∀ p t i, p.length = 3 → walk childOf E root p = some t → (E t i).testBit 0 = true →
    LeafOk n (E t i)
  /-- A user page is reached through user entries. -/
  user : ∀ p t i, p.length = 3 → walk childOf E root p = some t → (E t i).testBit 0 = true →
    (E t i).testBit 2 = true → UserPath E root p

/-- `E'` has the tables of `E` and perhaps more, and the same pages; user paths stay user paths. -/
structure Extends (E E' : Nat → Nat → Nat) (root : Nat) : Prop where
  tables : ∀ p t, p.length ≤ 3 → walk childOf E root p = some t → walk childOf E' root p = some t
  pages : ∀ p, p.length = 4 → lookup E' root p = lookup E root p
  user : ∀ p t, p.length ≤ 3 → walk childOf E root p = some t → UserPath E root p →
    UserPath E' root p

theorem Extends.refl (E : Nat → Nat → Nat) (root : Nat) : Extends E E root :=
  ⟨fun _ _ _ h => h, fun _ _ => rfl, fun _ _ _ _ h => h⟩

theorem Extends.trans {E₁ E₂ E₃ : Nat → Nat → Nat} {root : Nat} (h : Extends E₁ E₂ root)
    (h' : Extends E₂ E₃ root) : Extends E₁ E₃ root where
  tables p t hp hw := h'.tables p t hp (h.tables p t hp hw)
  pages p hp := (h'.pages p hp).trans (h.pages p hp)
  user p t hp hw hu := h'.user p t hp (h.tables p t hp hw) (h.user p t hp hw hu)

/-- `t` is one of the tables. -/
def InTree (E : Nat → Nat → Nat) (root t : Nat) : Prop :=
  ∃ p, p.length ≤ 3 ∧ walk childOf E root p = some t

namespace Tree

variable {n : Nat} {K K' : Nat → Prop} {E E' : Nat → Nat → Nat} {root t u i v : Nat}
  {p q r : List Nat}

/-! ## The empty tree -/

section Empty

variable (hzero : ∀ j, E root j = 0)

include hzero

theorem walk_empty (hp : walk childOf E root p = some t) : p = [] ∧ t = root := by
  cases p with
  | nil => exact ⟨rfl, (Option.some.inj hp).symm⟩
  | cons i p =>
      rw [walk, hzero i, childOf_zero] at hp
      exact absurd hp (by simp)

theorem empty (hK : K root) : Tree n K E root where
  noSharing p q t _ _ hp hq := by rw [(walk_empty hzero hp).1, (walk_empty hzero hq).1]
  tables p t _ hp := (walk_empty hzero hp).2 ▸ hK
  inner p t i _ hp hpres := by
    rw [(walk_empty hzero hp).2, hzero i] at hpres
    simp at hpres
  leaf p t i _ hp hpres := by
    rw [(walk_empty hzero hp).2, hzero i] at hpres
    simp at hpres
  user p t i _ hp hpres := by
    rw [(walk_empty hzero hp).2, hzero i] at hpres
    simp at hpres

theorem lookup_empty (hp : p ≠ []) : lookup E root p = none := by
  cases p with
  | nil => exact absurd rfl hp
  | cons i p =>
      have htrail : trail childOf E root (i :: p) = [0] := by
        rw [trail_cons_of_none (by rw [hzero i, childOf_zero]), hzero i]
      rw [lookup, htrail]
      rfl

end Empty

/-! ## Changes outside the tree -/

theorem walk_eq (hE : ∀ t, InTree E root t → E' t = E t) (hp : p.length ≤ 4) :
    walk childOf E' root p = walk childOf E root p :=
  walk_congr (d := 4) (fun q t i hq hw => by rw [hE t ⟨q, by omega, hw⟩]) hp

theorem lookup_eq (hE : ∀ t, InTree E root t → E' t = E t) (hp : p.length ≤ 4) :
    lookup E' root p = lookup E root p := by
  have htrail : trail childOf E' root p = trail childOf E root p := by
    refine trail_congr fun q u i hqi hw => ?_
    have hlen := hqi.length_le
    simp only [List.length_append, List.length_singleton] at hlen
    rw [hE u ⟨q, by omega, hw⟩]
  rw [lookup, lookup, htrail]

theorem congr (ht : Tree n K E root) (hE : ∀ t, InTree E root t → E' t = E t)
    (hK : ∀ t, InTree E root t → K' t) : Tree n K' E' root := by
  have hwalk : ∀ p, p.length ≤ 3 → walk childOf E' root p = walk childOf E root p :=
    fun p hp => walk_eq hE (by omega)
  have hentry : ∀ p t, p.length ≤ 3 → walk childOf E' root p = some t → E' t = E t := by
    intro p t hp hw
    exact hE t ⟨p, hp, by rw [← hwalk p hp, hw]⟩
  refine {
    noSharing := ?_
    tables := fun p t hp hw => hK t ⟨p, hp, by rw [← hwalk p hp, hw]⟩
    inner := fun p t i hp hw => ?_
    leaf := fun p t i hp hw => ?_
    user := fun p t i hp hw => ?_ }
  · intro p q t hp hq hpt hqt
    rw [hwalk p hp] at hpt
    rw [hwalk q hq] at hqt
    exact ht.noSharing p q t hp hq hpt hqt
  · rw [hentry p t (by omega) hw]
    rw [hwalk p (by omega)] at hw
    exact ht.inner p t i hp hw
  · rw [hentry p t (by omega) hw]
    rw [hwalk p (by omega)] at hw
    exact ht.leaf p t i hp hw
  · intro hpres huser q u j hqj hqu
    have hlen := hqj.length_le
    simp only [List.length_append, List.length_singleton] at hlen
    rw [hentry q u (by omega) hqu]
    rw [hentry p t (by omega) hw] at hpres huser
    rw [hwalk p (by omega)] at hw
    rw [hwalk q (by omega)] at hqu
    exact ht.user p t i hp hw hpres huser q u j hqj hqu

theorem extends_congr (hE : ∀ t, InTree E root t → E' t = E t) : Extends E E' root where
  tables p t hp hw := by rw [walk_eq hE (by omega), hw]
  pages p hp := lookup_eq hE (by omega)
  user p t hp _ hup r x j hrj hrx := by
    have hlen := hrj.length_le
    simp only [List.length_append, List.length_singleton] at hlen
    rw [walk_eq hE (by omega)] at hrx
    rw [hE x ⟨r, by omega, hrx⟩]
    exact hup r x j hrj hrx

/-! ## Writes -/

theorem lookup_congr {a b : List Nat} (ha : trail childOf E' root p = a ++ b)
    {a' : List Nat} (ha' : trail childOf E root p = a' ++ b) (hlen : a.length = a'.length)
    (hb : b ≠ []) : lookup E' root p = lookup E root p := by
  rw [lookup, lookup, ha, ha', List.getLast?_append_of_ne_nil a hb,
    List.getLast?_append_of_ne_nil a' hb, List.length_append, List.length_append, hlen]

theorem lookup_last {a : List Nat} {e : Nat} (h : trail childOf E root p = a ++ [e]) :
    lookup E root p = if e.testBit 0 = true then some (a.length + 1, e) else none := by
  rw [lookup, h, List.getLast?_concat]
  simp

theorem lookup_setSlot_aside (ht : Tree n K E root) (hq : q.length ≤ 3)
    (hw : walk childOf E root q = some t) (hp : p.length ≤ 4) (hpre : ¬ (q ++ [i]) <+: p) :
    lookup (setSlot E t i v) root p = lookup E root p := by
  rw [lookup, lookup, trail_setSlot_aside ht.noSharing hq hw hp hpre]

theorem walk_setSlot_same (hv : childOf v = childOf (E t i)) :
    walk childOf (setSlot E t i v) root p = walk childOf E root p := by
  refine walk_congr (d := p.length) (fun q u j _ _ => ?_) le_rfl
  by_cases hslot : u = t ∧ j = i
  · obtain ⟨rfl, rfl⟩ := hslot
    rw [setSlot_self, hv]
  · rw [setSlot_of_ne (by tauto)]

/-- The invariant after a write into one of the upper levels that keeps the child of the slot. -/
theorem setInner (ht : Tree n K E root) (hq : q.length ≤ 2) (hw : walk childOf E root q = some t)
    (hv : childOf v = childOf (E t i)) (hok : v.testBit 0 = true → InnerOk q.length v)
    (huser : childOf (E t i) ≠ none → (E t i).testBit 2 = true → v.testBit 2 = true) :
    Tree n K (setSlot E t i v) root := by
  have hwalk : ∀ p, walk childOf (setSlot E t i v) root p = walk childOf E root p :=
    fun p => walk_setSlot_same hv
  -- the slot belongs to a table of its own depth
  have hdepth : ∀ p u, p.length ≤ 3 → walk childOf E root p = some u → u = t → p = q := by
    rintro p u hp hpu rfl
    exact ht.noSharing p q u hp (by omega) hpu hw
  refine {
    noSharing := fun p q u hp hq hpu hqu =>
      ht.noSharing p q u hp hq (hwalk p ▸ hpu) (hwalk q ▸ hqu)
    tables := fun p u hp hpu => ht.tables p u hp (hwalk p ▸ hpu)
    inner := fun p u j hp hpu => ?_
    leaf := fun p u j hp hpu => ?_
    user := fun p u j hp hpu => ?_ }
  · rw [hwalk] at hpu
    by_cases hslot : u = t ∧ j = i
    · obtain rfl := hdepth p u (by omega) hpu hslot.1
      rw [hslot.1, hslot.2, setSlot_self]
      exact hok
    · rw [setSlot_of_ne (by tauto)]
      exact ht.inner p u j hp hpu
  · rw [hwalk] at hpu
    have hut : u ≠ t := fun he => by
      obtain rfl := hdepth p u (by omega) hpu he
      omega
    rw [setSlot_of_ne (Or.inl hut)]
    exact ht.leaf p u j hp hpu
  · rw [hwalk] at hpu
    have hut : u ≠ t := fun he => by
      obtain rfl := hdepth p u (by omega) hpu he
      omega
    rw [setSlot_of_ne (Or.inl hut)]
    intro hpres hus q' w k hqk hqw
    rw [hwalk] at hqw
    have hold := ht.user p u j hp hpu hpres hus q' w k hqk hqw
    by_cases hslot : w = t ∧ k = i
    · -- the slot is on the way to the page, so it has a child
      obtain ⟨x, hx⟩ := walk_upto hqk hpu
      rw [walk_snoc, hqw, Option.bind_some] at hx
      rw [hslot.1, hslot.2] at hold hx ⊢
      rw [setSlot_self]
      exact huser (by simp [hx]) hold
    · rwa [setSlot_of_ne (by tauto)]

theorem lookup_promote (ht : Tree n K E root) (hq : q.length ≤ 2)
    (hw : walk childOf E root q = some t) (hu : childOf (E t i) = some u)
    (hv : childOf v = some u) (hp : p.length = 4) :
    lookup (setSlot E t i v) root p = lookup E root p := by
  by_cases hpre : (q ++ [i]) <+: p
  · obtain ⟨r, rfl⟩ := hpre
    have hlen : (q ++ i :: r).length ≤ 3 + 1 := by
      simp only [List.length_append, List.length_cons, List.length_nil] at hp ⊢
      omega
    have hr : r ≠ [] := by
      rintro rfl
      simp only [List.length_append, List.length_cons, List.length_nil] at hp
      omega
    rw [List.append_assoc, List.singleton_append]
    have hE : trail childOf E root (q ++ i :: r) =
        (trail childOf E root q ++ [E t i]) ++ trail childOf E u r := by
      rw [trail_append hw, trail_cons_of_some hu, List.append_assoc, List.singleton_append]
    have hE' : trail childOf (setSlot E t i v) root (q ++ i :: r) =
        (trail childOf E root q ++ [v]) ++ trail childOf E u r := by
      rw [trail_setSlot_through ht.noSharing (by omega) hw,
        trail_cons_of_some (by rw [setSlot_self, hv]), setSlot_self,
        trail_setSlot_below ht.noSharing (by omega) hw hu hlen, List.append_assoc,
        List.singleton_append]
    exact lookup_congr hE' hE (by simp) (trail_ne_nil hr)
  · exact ht.lookup_setSlot_aside (by omega) hw (by omega) hpre

theorem extends_promote (ht : Tree n K E root) (hq : q.length ≤ 2)
    (hw : walk childOf E root q = some t) (hu : childOf (E t i) = some u)
    (hv : childOf v = some u) (huser : (E t i).testBit 2 = true → v.testBit 2 = true) :
    Extends E (setSlot E t i v) root where
  tables p w _ hpw := by rwa [walk_setSlot_same (by rw [hu, hv])]
  pages p hp := ht.lookup_promote hq hw hu hv hp
  user p w _ _ hup r x j hrj hrx := by
    rw [walk_setSlot_same (by rw [hu, hv])] at hrx
    have hold := hup r x j hrj hrx
    by_cases hslot : x = t ∧ j = i
    · rw [hslot.1, hslot.2] at hold ⊢
      rw [setSlot_self]
      exact huser hold
    · rwa [setSlot_of_ne (by tauto)]

/-- Setting a slot that led nowhere to a huge page sets every page below it. -/
theorem lookup_setHuge (ht : Tree n K E root) (hq : q.length = 2)
    (hw : walk childOf E root q = some t) (hpres : v.testBit 0 = true) (hhuge : v.testBit 7 = true)
    (hp : p.length = 4) :
    lookup (setSlot E t i v) root p =
      if (q ++ [i]) <+: p then some (3, v) else lookup E root p := by
  split_ifs with hpre
  · obtain ⟨r, rfl⟩ := hpre
    have hv : childOf (setSlot E t i v t i) = none := by
      rw [setSlot_self]
      exact childOf_eq_none.2 (Or.inr hhuge)
    have htrail : trail childOf (setSlot E t i v) root (q ++ [i] ++ r) =
        trail childOf E root q ++ [v] := by
      rw [List.append_assoc, List.singleton_append,
        trail_setSlot_through ht.noSharing (by omega) hw, trail_cons_of_none hv, setSlot_self]
    rw [lookup_last htrail, if_pos hpres, length_trail hw, hq]
  · exact ht.lookup_setSlot_aside (by omega) hw (by omega) hpre

/-! ## A new table -/

section Graft

variable (ht : Tree n K E root) (hq : q.length ≤ 2) (hw : walk childOf E root q = some t)
  (hv : childOf v = some u) (hfresh : ¬ InTree E root u) (hzero : ∀ j, E u j = 0)

include ht hq hw hv hfresh hzero

theorem walk_graft_eq (hp : p.length ≤ 3) :
    walk childOf (setSlot E t i v) root p =
      if p = q ++ [i] then some u else if (q ++ [i]) <+: p then none
      else walk childOf E root p :=
  walk_graft ht.noSharing (by omega) hw hv (fun r hr hru => hfresh ⟨r, hr, hru⟩)
    (fun j => by rw [hzero j]; exact childOf_zero) hp

theorem walk_graft_cases (hp : p.length ≤ 3) {w : Nat}
    (hpw : walk childOf (setSlot E t i v) root p = some w) :
    p = q ++ [i] ∧ w = u ∨ ¬ (q ++ [i]) <+: p ∧ walk childOf E root p = some w := by
  rw [ht.walk_graft_eq hq hw hv hfresh hzero hp] at hpw
  split_ifs at hpw with hpe hpre
  · exact Or.inl ⟨hpe, (Option.some.inj hpw).symm⟩
  · exact Or.inr ⟨hpre, hpw⟩

theorem graft (hK : K u) (hnone : childOf (E t i) = none) (hok : InnerOk q.length v) :
    Tree n K (setSlot E t i v) root := by
  have hut : u ≠ t := fun he => hfresh ⟨q, by omega, he ▸ hw⟩
  -- an old table is not the new one, and the slot is in the table at `q` only
  have hslot : ∀ p w j, p.length ≤ 3 → walk childOf E root p = some w → p ++ [j] ≠ q ++ [i] →
      setSlot E t i v w j = E w j := fun p w j hp hpw hne =>
    setSlot_of_ne (ht.noSharing.slot_ne (by omega) hw hp hpw hne)
  have hnew : ∀ j, setSlot E t i v u j = 0 := fun j => by
    rw [setSlot_of_ne (Or.inl hut), hzero j]
  refine {
    noSharing := ht.noSharing.graft (by omega) hw hv (fun r hr hru => hfresh ⟨r, hr, hru⟩)
      fun j => by rw [hzero j]; exact childOf_zero
    tables := fun p w hp hpw => ?_
    inner := fun p w j hp hpw hpres => ?_
    leaf := fun p w j hp hpw hpres => ?_
    user := fun p w j hp hpw hpres huser r x k hrk hrx => ?_ }
  · rcases ht.walk_graft_cases hq hw hv hfresh hzero hp hpw with ⟨-, rfl⟩ | ⟨-, hold⟩
    · exact hK
    · exact ht.tables p w hp hold
  · rcases ht.walk_graft_cases hq hw hv hfresh hzero (by omega) hpw with ⟨-, rfl⟩ | ⟨-, hold⟩
    · rw [hnew] at hpres
      simp at hpres
    · by_cases he : p ++ [j] = q ++ [i]
      · obtain ⟨rfl, hj⟩ := List.append_inj' he rfl
        obtain rfl : j = i := by simpa using hj
        obtain rfl : t = w := Option.some.inj (hw.symm.trans hold)
        rw [setSlot_self]
        exact hok
      · rw [hslot p w j (by omega) hold he] at hpres ⊢
        exact ht.inner p w j hp hold hpres
  · rcases ht.walk_graft_cases hq hw hv hfresh hzero (by omega) hpw with ⟨-, rfl⟩ | ⟨-, hold⟩
    · rw [hnew] at hpres
      simp at hpres
    · have hne : p ++ [j] ≠ q ++ [i] := fun he => by
        have := congrArg List.length he
        simp only [List.length_append, List.length_singleton] at this
        omega
      rw [hslot p w j (by omega) hold hne] at hpres ⊢
      exact ht.leaf p w j hp hold hpres
  · rcases ht.walk_graft_cases hq hw hv hfresh hzero (by omega) hpw with ⟨-, rfl⟩ | ⟨hpre, hold⟩
    · rw [hnew] at hpres
      simp at hpres
    · have hne : p ++ [j] ≠ q ++ [i] := fun he => by
        have := congrArg List.length he
        simp only [List.length_append, List.length_singleton] at this
        omega
      rw [hslot p w j (by omega) hold hne] at hpres huser
      have hlen := hrk.length_le
      simp only [List.length_append, List.length_singleton] at hlen
      have hrpre : ¬ (q ++ [i]) <+: r := fun h =>
        hpre (h.trans ((List.prefix_append r [k]).trans hrk))
      have hrne : r ++ [k] ≠ q ++ [i] := fun he => hpre (he ▸ hrk)
      rcases ht.walk_graft_cases hq hw hv hfresh hzero (by omega) hrx with ⟨rfl, -⟩ | ⟨-, hrold⟩
      · exact absurd (List.prefix_refl _) hrpre
      · rw [hslot r x k (by omega) hrold hrne]
        exact ht.user p w j hp hold hpres huser r x k hrk hrold

theorem lookup_graft (hnone : (E t i).testBit 0 = false) (hp : p.length = 4) :
    lookup (setSlot E t i v) root p = lookup E root p := by
  by_cases hpre : (q ++ [i]) <+: p
  · obtain ⟨r, rfl⟩ := hpre
    have hut : u ≠ t := fun he => hfresh ⟨q, by omega, he ▸ hw⟩
    obtain ⟨j, r, rfl⟩ : ∃ j r', r = j :: r' := by
      cases r with
      | nil =>
          simp only [List.length_append, List.length_cons, List.length_nil] at hp
          omega
      | cons j r => exact ⟨j, r, rfl⟩
    have hE : trail childOf E root (q ++ [i] ++ j :: r) = trail childOf E root q ++ [E t i] := by
      rw [List.append_assoc, List.singleton_append, trail_append hw,
        trail_cons_of_none (childOf_eq_none.2 (Or.inl hnone))]
    have hzero' : setSlot E t i v u j = 0 := by rw [setSlot_of_ne (Or.inl hut), hzero j]
    have hE' : trail childOf (setSlot E t i v) root (q ++ [i] ++ j :: r) =
        (trail childOf E root q ++ [v]) ++ [0] := by
      rw [List.append_assoc, List.singleton_append,
        trail_setSlot_through ht.noSharing (by omega) hw,
        trail_cons_of_some (by rw [setSlot_self, hv]), setSlot_self,
        trail_cons_of_none (by rw [hzero']; exact childOf_zero), hzero', List.append_assoc]
      rfl
    rw [lookup_last hE, lookup_last hE', hnone]
    simp
  · exact ht.lookup_setSlot_aside (by omega) hw (by omega) hpre

theorem extends_graft (hnone : (E t i).testBit 0 = false) : Extends E (setSlot E t i v) root := by
  -- no table was below the slot
  have hpre : ∀ p w, walk childOf E root p = some w → ¬ (q ++ [i]) <+: p := by
    intro p w hpw hpre
    obtain ⟨x, hx⟩ := walk_upto hpre hpw
    rw [walk_snoc, hw, Option.bind_some, childOf_eq_none.2 (Or.inl hnone)] at hx
    exact absurd hx (by simp)
  have hwalk : ∀ p w r, p.length ≤ 3 → walk childOf E root p = some w → r <+: p →
      walk childOf (setSlot E t i v) root r = walk childOf E root r := by
    intro p w r hp hpw hr
    exact walk_setSlot_aside ht.noSharing (by omega) hw (hr.length_le.trans hp)
      fun h => hpre p w hpw (h.trans hr)
  refine ⟨fun p w hp hpw => ?_, fun p hp => ?_, fun p w hp hpw hup r x j hrj hrx => ?_⟩
  · rw [hwalk p w p hp hpw (List.prefix_refl p), hpw]
  · exact ht.lookup_graft hq hw hv hfresh hzero hnone hp
  · have hrp : r <+: p := (List.prefix_append r [j]).trans hrj
    rw [hwalk p w r hp hpw hrp] at hrx
    have hne : r ++ [j] ≠ q ++ [i] := fun he => hpre p w hpw (he ▸ hrj)
    rw [setSlot_of_ne (ht.noSharing.slot_ne (by omega) hw (hrp.length_le.trans hp) hrx hne)]
    exact hup r x j hrj hrx

end Graft

/-! ## Pages -/

theorem walk_setLeaf (ht : Tree n K E root) (hq : q.length = 3)
    (hw : walk childOf E root q = some t) (hp : p.length ≤ 3) :
    walk childOf (setSlot E t i v) root p = walk childOf E root p := by
  refine walk_setSlot_aside ht.noSharing (by omega) hw hp fun hpre => ?_
  have hlen := hpre.length_le
  simp only [List.length_append, List.length_singleton] at hlen
  omega

theorem setLeaf (ht : Tree n K E root) (hq : q.length = 3) (hw : walk childOf E root q = some t)
    (hok : v.testBit 0 = true → LeafOk n v)
    (huser : v.testBit 0 = true → v.testBit 2 = true → UserPath E root q) :
    Tree n K (setSlot E t i v) root := by
  have hwalk : ∀ p, p.length ≤ 3 → walk childOf (setSlot E t i v) root p = walk childOf E root p :=
    fun p hp => ht.walk_setLeaf hq hw hp
  have hdepth : ∀ p u, p.length ≤ 3 → walk childOf E root p = some u → u = t → p = q := by
    rintro p u hp hpu rfl
    exact ht.noSharing p q u hp (by omega) hpu hw
  -- the entries of the upper levels are not touched
  have hupper : ∀ p u j, p.length ≤ 2 → walk childOf E root p = some u →
      setSlot E t i v u j = E u j := by
    intro p u j hp hpu
    refine setSlot_of_ne (Or.inl fun he => ?_)
    obtain rfl := hdepth p u (by omega) hpu he
    omega
  refine {
    noSharing := fun p r u hp hr hpu hru => ?_
    tables := fun p u hp hpu => ht.tables p u hp (hwalk p hp ▸ hpu)
    inner := fun p u j hp hpu => ?_
    leaf := fun p u j hp hpu => ?_
    user := fun p u j hp hpu hpres hus r x k hrk hrx => ?_ }
  · rw [hwalk p hp] at hpu
    rw [hwalk r hr] at hru
    exact ht.noSharing p r u hp hr hpu hru
  · rw [hwalk p (by omega)] at hpu
    rw [hupper p u j hp hpu]
    exact ht.inner p u j hp hpu
  · rw [hwalk p (by omega)] at hpu
    by_cases hslot : u = t ∧ j = i
    · rw [hslot.1, hslot.2, setSlot_self]
      exact hok
    · rw [setSlot_of_ne (by tauto)]
      exact ht.leaf p u j hp hpu
  · rw [hwalk p (by omega)] at hpu
    have hlen := hrk.length_le
    simp only [List.length_append, List.length_singleton] at hlen
    rw [hwalk r (by omega)] at hrx
    rw [hupper r x k (by omega) hrx]
    by_cases hslot : u = t ∧ j = i
    · obtain rfl := hdepth p u (by omega) hpu hslot.1
      rw [hslot.1, hslot.2, setSlot_self] at hpres hus
      exact huser hpres hus r x k hrk hrx
    · rw [setSlot_of_ne (by tauto)] at hpres hus
      exact ht.user p u j hp hpu hpres hus r x k hrk hrx

/-- **One page, and no other.** -/
theorem lookup_setLeaf (ht : Tree n K E root) (hq : q.length = 3)
    (hw : walk childOf E root q = some t) (hp : p.length = 4) :
    lookup (setSlot E t i v) root p =
      if p = q ++ [i] then (if v.testBit 0 = true then some (4, v) else none)
      else lookup E root p := by
  by_cases hpe : p = q ++ [i]
  · have htrail : trail childOf (setSlot E t i v) root (q ++ [i]) =
        trail childOf E root q ++ [v] := by
      rw [trail_setSlot_through ht.noSharing (by omega) hw, trail_singleton, setSlot_self]
    rw [if_pos hpe, hpe, lookup_last htrail, length_trail hw, hq]
  · rw [if_neg hpe]
    refine ht.lookup_setSlot_aside (by omega) hw (by omega) fun hpre => hpe ?_
    exact (hpre.eq_of_length (by simp [hp, hq])).symm

end Tree

end Rolnix
