import Rolnix.PageEntry
import Rolnix.Pmm

/-!
# The descent through the tables

`descend` is the loop `map` and `map_window` share: it follows the entries of a virtual address,
allocates the tables that are missing and promotes the entries it passes. `VmInv` is the invariant
of an address space on a machine: the free lists are coherent, and the tables are a tree of frames
the kernel owns. So a frame that is allocated is none of the tables, and hanging it in zeroed
changes no page.

`descend_spec` says what the loop does, for every outcome. It is proved by induction on the levels:
`VmInv.addTable` and `VmInv.promote` are what one iteration does.
-/

namespace Rolnix

open Radix

namespace Machine

variable {s s' s₁ : Machine} {root t i v f new user va : Nat} {q p : List Nat}
  {L : Nat → List Nat} {G : List Nat}

/-- A frame that can hold a table. -/
def IsTable (s : Machine) (t : Nat) : Prop := t < s.numFrames ∧ (s.frames t).owner = .kernel

/-- The invariant of the address space at `root`. -/
structure VmInv (s : Machine) (root : Nat) : Prop where
  coherent : s.IsCoherent
  tree : Tree s.numFrames s.IsTable s.entries root

/-- What growing the tree does to the frames: free ones become the kernel's. -/
structure Grows (s s' : Machine) : Prop where
  boot : SameBoot s s'
  frames : ∀ f, s'.frames f = s.frames f ∨
    (s.frames f).owner = .free ∧ s'.frames f = (s.frames f).withOwner .kernel

theorem Grows.refl (s : Machine) : Grows s s := ⟨SameBoot.refl s, fun _ => Or.inl rfl⟩

theorem Grows.trans {s₁ s₂ s₃ : Machine} (h : Grows s₁ s₂) (h' : Grows s₂ s₃) : Grows s₁ s₃ := by
  refine ⟨h.boot.trans h'.boot, fun f => ?_⟩
  rcases h.frames f with he | ⟨hfree, he⟩
  · rw [← he]
    exact h'.frames f
  · rcases h'.frames f with he' | ⟨hfree', -⟩
    · exact Or.inr ⟨hfree, he'.trans he⟩
    · rw [he] at hfree'
      exact absurd hfree' (by simp)

theorem Allocates.grows {r : Option Nat} (ha : Allocates s r s') : Grows s s' := by
  refine ⟨ha.boot, fun f => ?_⟩
  cases r with
  | none => exact Or.inl (congrFun (ha.none rfl) f)
  | some new =>
      obtain ⟨-, hfree, hframes⟩ := ha.some new rfl
      rw [hframes]
      by_cases hf : f = new
      · subst hf
        exact Or.inr ⟨hfree, Function.update_self f _ _⟩
      · exact Or.inl (Function.update_of_ne hf _ _)

theorem Grows.mappings (h : Grows s s') (f : Nat) :
    (s'.frames f).mappings = (s.frames f).mappings := by
  rcases h.frames f with he | ⟨-, he⟩ <;> rw [he]
  rfl

theorem Grows.pinned (h : Grows s s') (f : Nat) : (s'.frames f).pinned = (s.frames f).pinned := by
  rcases h.frames f with he | ⟨-, he⟩ <;> rw [he]
  rfl

theorem Grows.eq_of_not_free (h : Grows s s') (hf : (s.frames f).owner ≠ .free) :
    s'.frames f = s.frames f := by
  rcases h.frames f with he | ⟨hfree, -⟩
  · exact he
  · exact absurd hfree hf

/-! ## Frames aside -/

/-- A frame in use that is no table. -/
def Aside (s : Machine) (root f : Nat) : Prop :=
  (s.frames f).owner ≠ .free ∧ ¬ InTree s.entries root f

/-- Frames in use that are no tables stay so, and keep their bytes. -/
def LeavesAside (root : Nat) (s s' : Machine) : Prop :=
  ∀ f, s.Aside root f → s'.Aside root f ∧ ∀ b, b / frameSize = f → s'.mem b = s.mem b

theorem LeavesAside.refl (root : Nat) (s : Machine) : LeavesAside root s s :=
  fun _ hf => ⟨hf, fun _ _ => rfl⟩

theorem LeavesAside.trans {s₁ s₂ s₃ : Machine} (h : LeavesAside root s₁ s₂)
    (h' : LeavesAside root s₂ s₃) : LeavesAside root s₁ s₃ := by
  intro f hf
  obtain ⟨hf₂, hmem⟩ := h f hf
  obtain ⟨hf₃, hmem'⟩ := h' f hf₂
  exact ⟨hf₃, fun b hb => (hmem' b hb).trans (hmem b hb)⟩

theorem Grows.not_free (h : Grows s s') (hf : (s.frames f).owner ≠ .free) :
    (s'.frames f).owner ≠ .free := by
  rcases h.frames f with he | ⟨hfree, -⟩
  · rw [he]
    exact hf
  · exact absurd hfree hf

/-- The tables are those that were there, and frames that were free. -/
theorem Grows.leavesAside (h : Grows s s')
    (htree : ∀ t, InTree s'.entries root t → InTree s.entries root t ∨ (s.frames t).owner = .free)
    (hmem : ∀ b, s.Aside root (b / frameSize) → s'.mem b = s.mem b) : LeavesAside root s s' := by
  intro f hf
  refine ⟨⟨h.not_free hf.1, fun hin => ?_⟩, fun b hb => hmem b (hb ▸ hf)⟩
  rcases htree f hin with hin | hfree
  · exact hf.2 hin
  · exact hf.1 hfree

theorem mem_writeEntry_of_aside {b : Nat} (ht : InTree s.entries root t) (hi : i < 512)
    (hb : s.Aside root (b / frameSize)) : (s.writeEntry t i v).mem b = s.mem b := by
  refine ByteMem.store_of_not_mem ?_
  have hne : b / frameSize ≠ t := by
    rintro rfl
    exact hb.2 ht
  simp only [framePhys, frameSize] at hne ⊢
  omega

/-! ## Writing tables -/

theorem Coherent.fillFrame (h : Coherent s L G) (ht : (s.frames t).owner ≠ .free) {mem : ByteMem}
    (hmem : ∀ b, b / frameSize ≠ t → mem b = s.mem b) : Coherent { s with mem := mem } L G := by
  refine h.write fun b _ hfree => hmem b ?_
  rintro rfl
  exact ht hfree

theorem Coherent.writeEntry (h : Coherent s L G) (ht : (s.frames t).owner ≠ .free) (hi : i < 512) :
    Coherent (s.writeEntry t i v) L G := by
  refine h.fillFrame ht fun b hb => ByteMem.store_of_not_mem ?_
  simp only [framePhys, frameSize] at hb ⊢
  omega

theorem Coherent.zeroTable (h : Coherent s L G) (ht : (s.frames t).owner ≠ .free) :
    Coherent (s.zeroTable t) L G := by
  refine h.fillFrame ht fun b hb => ByteMem.fill_of_not_mem ?_
  simp only [framePhys, frameSize] at hb ⊢
  omega

theorem IsTable.not_free (h : s.IsTable t) : (s.frames t).owner ≠ .free := by
  rw [h.2]
  exact FrameOwner.kernel_ne_free

namespace VmInv

theorem isTable (h : VmInv s root) (ht : InTree s.entries root t) : s.IsTable t := by
  obtain ⟨p, hp, hw⟩ := ht
  exact h.tree.tables p t hp hw

theorem frame_lt (h : VmInv s root) (hf : f < s.numFrames) : f < 2 ^ 32 := by
  obtain ⟨L, G, hcoh⟩ := h.coherent
  have hb := hcoh.bound
  simp only [listEnd] at hb
  omega

theorem congr (h : VmInv s root) (hcoh : s'.IsCoherent) (hn : s'.numFrames = s.numFrames)
    (hmem : ∀ t, InTree s.entries root t → s'.entries t = s.entries t)
    (hown : ∀ t, InTree s.entries root t → (s'.frames t).owner = .kernel) : VmInv s' root := by
  refine ⟨hcoh, ?_⟩
  rw [hn]
  refine h.tree.congr hmem fun t ht => ⟨?_, hown t ht⟩
  rw [hn]
  exact (h.isTable ht).1

theorem writeEntry (h : VmInv s root) (ht : InTree s.entries root t) (hi : i < 512) (hv : v < 2 ^ 64)
    (htree : Tree s.numFrames s.IsTable (setSlot s.entries t i v) root) :
    VmInv (s.writeEntry t i v) root := by
  obtain ⟨L, G, hcoh⟩ := h.coherent
  refine ⟨⟨L, G, hcoh.writeEntry (h.isTable ht).not_free hi⟩, ?_⟩
  rw [entries_writeEntry hi hv]
  exact htree

theorem counters (h : VmInv s root) {info : FrameInfo} (ho : info.owner = (s.frames f).owner) :
    VmInv (s.setInfo f info) root := by
  obtain ⟨L, G, hcoh⟩ := h.coherent
  refine h.congr ⟨L, G, hcoh.counters ho⟩ rfl (fun t _ => rfl) fun t ht => ?_
  rw [setInfo_frames]
  by_cases hf : t = f
  · subst hf
    rw [Function.update_self, ho]
    exact (h.isTable ht).2
  · rw [Function.update_of_ne hf]
    exact (h.isTable ht).2

theorem freed (h : VmInv s root) (hf : f < s.numFrames) (hnot : ¬ InTree s.entries root f)
    (hown : (s.frames f).owner ≠ .free) :
    VmInv (s.freed f) root ∧
      ∀ t, InTree s.entries root t → (s.freed f).entries t = s.entries t := by
  obtain ⟨L, G, hcoh⟩ := h.coherent
  have hne : ∀ t, InTree s.entries root t → t ≠ f := by
    rintro t ht rfl
    exact hnot ht
  have hE : ∀ t, InTree s.entries root t → (s.freed f).entries t = s.entries t := by
    intro t ht
    refine entries_congr fun b hb => ByteMem.store_of_not_mem ?_
    have := hne t ht
    simp only [framePhys, frameSize] at hb ⊢
    omega
  refine ⟨h.congr (hcoh.freed hf hown) rfl hE fun t ht => ?_, hE⟩
  rw [freed_frames, Function.update_of_ne (hne t ht)]
  exact (h.isTable ht).2

theorem dropRef (h : VmInv s root) (hf : f < s.numFrames) {info : FrameInfo}
    (ho : info.owner = (s.frames f).owner) :
    VmInv (s.dropRef f info) root ∧
      ∀ t, InTree s.entries root t → (s.dropRef f info).entries t = s.entries t := by
  unfold Machine.dropRef
  split_ifs with hready
  · have howner : ((s.setInfo f info).frames f).owner.tag = .pending := by
      rw [setInfo_frames, Function.update_self]
      exact hready.1
    refine (h.counters ho).freed hf (fun hin => ?_) fun hfree => ?_
    · rw [((h.counters ho).isTable hin).2] at howner
      exact absurd howner (by decide)
    · rw [hfree] at howner
      exact absurd howner (by decide)
  · exact ⟨h.counters ho, fun t _ => rfl⟩

theorem alloc (h : VmInv s root) {r : Option Nat} (hcoh : s₁.IsCoherent) (ha : Allocates s r s₁) :
    VmInv s₁ root ∧ Grows s s₁ ∧ ∀ t, InTree s.entries root t → s₁.entries t = s.entries t := by
  have hE : ∀ t, InTree s.entries root t → s₁.entries t = s.entries t := by
    intro t ht
    refine entries_congr fun b hb => ha.mem b ?_
    rw [hb]
    exact (h.isTable ht).not_free
  have hgrows := ha.grows
  refine ⟨h.congr hcoh ha.boot.numFrames hE fun t ht => ?_, hgrows, hE⟩
  rcases hgrows.frames t with he | ⟨-, he⟩
  · rw [he]
    exact (h.isTable ht).2
  · rw [he]
    rfl

theorem alloc_leavesAside (h : VmInv s root) {r : Option Nat} (hcoh : s₁.IsCoherent)
    (ha : Allocates s r s₁) : LeavesAside root s s₁ := by
  obtain ⟨-, hgrows, hE⟩ := h.alloc hcoh ha
  refine hgrows.leavesAside (fun t ht => ?_) fun b hb => ha.mem b hb.1
  obtain ⟨p, hp, hpw⟩ := ht
  exact Or.inl ⟨p, hp, by rw [← Tree.walk_eq hE (by omega), hpw]⟩

/-- **A missing table**: a fresh frame, zeroed and hung into the slot. -/
theorem addTable (h : VmInv s root) (hq : q.length ≤ 2) (hw : walk childOf s.entries root q = some t)
    (hi : i < 512) (hnone : (s.entries t i).testBit 0 = false) (huser : user = 0 ∨ user = pteUser)
    (hcoh : s₁.IsCoherent) (ha : Allocates s (some new) s₁)
    (hs' : (s₁.zeroTable new).writeEntry t i (tableEntry new user) = s') :
    VmInv s' root ∧ Grows s s' ∧ Extends s.entries s'.entries root ∧
      (∀ p, p.length ≤ 3 → p ≠ q ++ [i] →
        walk childOf s'.entries root p = walk childOf s.entries root p) ∧
      walk childOf s'.entries root (q ++ [i]) = some new ∧ s'.entries t i = tableEntry new user := by
  obtain ⟨hlt, hfree, hframes⟩ := ha.some new rfl
  have hnew := h.frame_lt hlt
  have ht : InTree s.entries root t := ⟨q, by omega, hw⟩
  -- the new frame was free, so it is none of the tables
  have hne : ∀ t, InTree s.entries root t → t ≠ new := by
    rintro t ht rfl
    exact (h.isTable ht).not_free hfree
  obtain ⟨hinv₁, hgrows, hE₁⟩ := h.alloc hcoh ha
  have hkernel : (s₁.frames new).owner = .kernel := by rw [hframes, Function.update_self]; rfl
  obtain ⟨L, G, hL⟩ := hcoh
  have hE : ∀ t, InTree s.entries root t → (s₁.zeroTable new).entries t = s.entries t := by
    intro t ht
    rw [entries_zeroTable_of_ne (hne t ht), hE₁ t ht]
  have hinv : VmInv (s₁.zeroTable new) root := by
    refine h.congr ⟨L, G, hL.zeroTable (by simp [hkernel])⟩ ha.boot.numFrames hE fun t ht => ?_
    have hold : InTree s₁.entries root t := by
      obtain ⟨p, hp, hpw⟩ := ht
      exact ⟨p, hp, by rw [Tree.walk_eq hE₁ (by omega), hpw]⟩
    exact (hinv₁.isTable hold).2
  have hw₁ : walk childOf (s₁.zeroTable new).entries root q = some t := by
    rw [Tree.walk_eq hE (by omega), hw]
  have hfresh : ¬ InTree (s₁.zeroTable new).entries root new := by
    rintro ⟨p, hp, hpw⟩
    rw [Tree.walk_eq hE (by omega)] at hpw
    exact hne new ⟨p, hp, hpw⟩ rfl
  have hzero : ∀ j, (s₁.zeroTable new).entries new j = 0 := fun j => by rw [entries_zeroTable_self]
  have hchild := childOf_tableEntry huser hnew
  obtain ⟨-, hok⟩ := tableEntry_inner (d := q.length) huser hnew
  have hE' : s'.entries = setSlot (s₁.zeroTable new).entries t i (tableEntry new user) := by
    rw [← hs', entries_writeEntry hi (tableEntry_lt huser hnew)]
  refine ⟨?_, hgrows.trans ⟨?_, fun f => ?_⟩, ?_, fun p hp hne => ?_, ?_, ?_⟩
  · rw [← hs']
    refine hinv.writeEntry ⟨q, by omega, hw₁⟩ hi (tableEntry_lt huser hnew) ?_
    exact hinv.tree.graft hq hw₁ hchild hfresh hzero
      ⟨by rw [← ha.boot.numFrames] at hlt; exact hlt, hkernel⟩
      (childOf_eq_none.2 (Or.inl (by rw [hE t ht]; exact hnone))) hok
  · rw [← hs']
    exact ⟨rfl, rfl, rfl⟩
  · rw [← hs']
    exact Or.inl rfl
  · rw [hE']
    exact (Tree.extends_congr hE).trans
      (hinv.tree.extends_graft hq hw₁ hchild hfresh hzero (by rw [hE t ht]; exact hnone))
  · rw [hE', hinv.tree.walk_graft_eq hq hw₁ hchild hfresh hzero hp, if_neg hne, Tree.walk_eq hE (by omega)]
    split_ifs with hpre
    · -- nothing was below the slot before
      cases hpw : walk childOf s.entries root p with
      | none => rfl
      | some w =>
          obtain ⟨x, hx⟩ := walk_upto hpre hpw
          rw [walk_snoc, hw, Option.bind_some, childOf_eq_none.2 (Or.inl hnone)] at hx
          exact absurd hx (by simp)
    · rfl
  · rw [hE', hinv.tree.walk_graft_eq hq hw₁ hchild hfresh hzero (by simp; omega), if_pos rfl]
  · rw [hE', setSlot_self]

theorem addTable_leavesAside (h : VmInv s root) (hq : q.length ≤ 2)
    (hw : walk childOf s.entries root q = some t) (hi : i < 512)
    (hnone : (s.entries t i).testBit 0 = false) (huser : user = 0 ∨ user = pteUser)
    (hcoh : s₁.IsCoherent) (ha : Allocates s (some new) s₁)
    (hs' : (s₁.zeroTable new).writeEntry t i (tableEntry new user) = s') :
    LeavesAside root s s' := by
  obtain ⟨-, hgrows, -, honly, hw', -⟩ := h.addTable hq hw hi hnone huser hcoh ha hs'
  obtain ⟨hlt, hfree, -⟩ := ha.some new rfl
  have ht : InTree s.entries root t := ⟨q, by omega, hw⟩
  refine hgrows.leavesAside (fun u hu => ?_) fun b hb => ?_
  · obtain ⟨p, hp, hpw⟩ := hu
    by_cases hpq : p = q ++ [i]
    · rw [hpq, hw'] at hpw
      exact Or.inr (Option.some.inj hpw ▸ hfree)
    · exact Or.inl ⟨p, hp, by rw [← honly p hp hpq, hpw]⟩
  · have hbt : b / frameSize ≠ t := by
      rintro rfl
      exact hb.2 ht
    have hbn : b / frameSize ≠ new := by
      rintro rfl
      exact hb.1 hfree
    rw [← hs', ← ha.mem b hb.1]
    refine (ByteMem.store_of_not_mem ?_).trans (ByteMem.fill_of_not_mem ?_)
    · simp only [framePhys, frameSize] at hbt ⊢
      omega
    · simp only [framePhys, frameSize] at hbn ⊢
      omega

/-- **A table that is there**: its entry is promoted if the page is for users. -/
theorem promote (h : VmInv s root) (hq : q.length ≤ 2) (hw : walk childOf s.entries root q = some t)
    (hi : i < 512) (hpres : (s.entries t i).testBit 0 = true)
    (hhuge : (s.entries t i).testBit 7 = false) (huser : user = 0 ∨ user = pteUser)
    (hs' : (if user ≠ 0 then s.writeEntry t i (s.entries t i ||| user) else s) = s') :
    VmInv s' root ∧ Grows s s' ∧ Extends s.entries s'.entries root ∧ s'.supply = s.supply ∧
      (∀ p, walk childOf s'.entries root p = walk childOf s.entries root p) ∧
      walk childOf s'.entries root (q ++ [i]) = some (physOf (s'.entries t i)) ∧
      (user ≠ 0 → (s'.entries t i).testBit 2 = true) ∧ LeavesAside root s s' := by
  have ht : InTree s.entries root t := ⟨q, by omega, hw⟩
  have hchild : childOf (s.entries t i) = some (physOf (s.entries t i)) :=
    childOf_eq_some.2 ⟨hpres, hhuge, rfl⟩
  rcases huser with rfl | rfl
  · rw [if_neg (by simp)] at hs'
    subst hs'
    refine ⟨h, Grows.refl s, Extends.refl _ _, rfl, fun _ => rfl, ?_, by simp,
      LeavesAside.refl root s⟩
    rw [walk_snoc, hw, Option.bind_some, hchild]
  · rw [if_pos (by decide)] at hs'
    have hlt : s.entries t i ||| pteUser < 2 ^ 64 :=
      Nat.or_lt_two_pow (entries_lt s t i) (by decide)
    have hE' : s'.entries = setSlot s.entries t i (s.entries t i ||| pteUser) := by
      rw [← hs', entries_writeEntry hi hlt]
    have hbit : (s.entries t i ||| pteUser).testBit 2 = true := by
      rw [Nat.testBit_or, Bool.or_eq_true]
      exact Or.inr (by decide)
    have hold := h.tree.inner q t i hq hw hpres
    have hsame : childOf (s.entries t i ||| pteUser) = childOf (s.entries t i) :=
      childOf_or_user _
    have hok : InnerOk q.length (s.entries t i ||| pteUser) := by
      refine ⟨?_, ?_, fun hc => ?_⟩
      · rw [testBit_or_user (by decide)]
        exact hold.writable
      · rw [testBit_or_user (by decide)]
        exact hold.exec
      · rw [testBit_or_user (by decide), hhuge] at hc
        exact absurd hc (by simp)
    have hwalk : ∀ p, walk childOf s'.entries root p = walk childOf s.entries root p := by
      intro p
      rw [hE', Tree.walk_setSlot_same hsame]
    have hgrows : Grows s s' := by
      rw [← hs']
      exact ⟨⟨rfl, rfl, rfl⟩, fun _ => Or.inl rfl⟩
    refine ⟨?_, hgrows, ?_, ?_, hwalk, ?_, fun _ => ?_, ?_⟩
    · rw [← hs']
      exact h.writeEntry ht hi hlt (h.tree.setInner hq hw hsame (fun _ => hok) fun _ _ => hbit)
    · rw [hE']
      exact h.tree.extends_promote hq hw hchild (hsame.trans hchild) fun _ => hbit
    · rw [← hs']
      rfl
    · rw [hE', Tree.walk_setSlot_same hsame, walk_snoc, hw, Option.bind_some, setSlot_self,
        ← hsame]
      exact childOf_eq_some.2 ⟨by rw [testBit_or_user (by decide), hpres],
        by rw [testBit_or_user (by decide), hhuge], rfl⟩
    · rw [hE', setSlot_self]
      exact hbit
    · refine hgrows.leavesAside (fun u hu => ?_) fun b hb => ?_
      · obtain ⟨p, hp, hpw⟩ := hu
        exact Or.inl ⟨p, hp, by rw [← hwalk, hpw]⟩
      · rw [← hs']
        exact mem_writeEntry_of_aside ht hi hb

end VmInv

/-! ## The loop -/

/-- What a descent from the table at `q` did. -/
structure Descended (va user : Nat) (levels : List Nat) (root : Nat) (q : List Nat) (s : Machine)
    (r : Except MapError Nat) (s' : Machine) : Prop where
  inv : VmInv s' root
  grows : Grows s s'
  ext : Extends s.entries s'.entries root
  /-- New tables are on the way down only. -/
  only : ∀ p, p.length ≤ 3 → ¬ p <+: q ++ levels.map (index va) →
    walk childOf s'.entries root p = walk childOf s.entries root p
  ok : ∀ f, r = .ok f → walk childOf s'.entries root (q ++ levels.map (index va)) = some f ∧
    (user ≠ 0 → UserPath s'.entries root (q ++ levels.map (index va)))
  /-- It fails if there is no frame for a table above a page that is not mapped, or above a page
  that is part of a huge one. -/
  error : ∀ e, r = .error e →
    e = .allocFailed ∧
      (∀ p, p.length = 4 → q ++ levels.map (index va) <+: p → lookup s.entries root p = none) ∨
    e = .conflict ∧
      ∀ p, p.length = 4 → q ++ levels.map (index va) <+: p →
        ∃ e', lookup s.entries root p = some (3, e')
  /-- It takes a frame for each level that is missing at most, and fails for want of frames only if
  there are fewer. -/
  supply : ∀ a b f, levels.map (index va) = a ++ b →
    walk childOf s.entries root (q ++ a) = some f →
    s.supply ≤ s'.supply + b.length ∧ (r = .error .allocFailed → s.supply < b.length)
  aside : LeavesAside root s s'

theorem userPath_snoc {E : Nat → Nat → Nat} (hq : UserPath E root q)
    (hw : walk childOf E root q = some t) (hbit : (E t i).testBit 2 = true) :
    UserPath E root (q ++ [i]) := by
  intro r u j hrj hru
  rcases List.prefix_concat_iff.1 hrj with he | hpre
  · obtain ⟨rfl, hj⟩ := List.append_inj' he rfl
    obtain rfl : j = i := by simpa using hj
    obtain rfl : t = u := Option.some.inj (hw.symm.trans hru)
    exact hbit
  · exact hq r u j hpre hru

theorem lookup_of_childOf_none {E : Nat → Nat → Nat} (hw : walk childOf E root q = some t)
    (hnone : childOf (E t i) = none) (hp : q ++ [i] <+: p) :
    lookup E root p = if (E t i).testBit 0 = true then some (q.length + 1, E t i) else none := by
  obtain ⟨r, rfl⟩ := hp
  have htrail : trail childOf E root (q ++ [i] ++ r) = trail childOf E root q ++ [E t i] := by
    rw [List.append_assoc, List.singleton_append, trail_append hw, trail_cons_of_none hnone]
  rw [Tree.lookup_last htrail, length_trail hw]

theorem Descended.step {level : Nat} {levels : List Nat} {r : Except MapError Nat}
    (hgrows : Grows s s₁) (hext : Extends s.entries s₁.entries root)
    (honly : ∀ p, p.length ≤ 3 → p ≠ q ++ [index va level] →
      walk childOf s₁.entries root p = walk childOf s.entries root p)
    (hw : walk childOf s₁.entries root (q ++ [index va level]) = some f)
    (hlen : q.length + (levels.length + 1) ≤ 3)
    (hsupply : s.supply ≤ s₁.supply + 1)
    (hthere : (walk childOf s.entries root (q ++ [index va level])).isSome = true →
      s.supply ≤ s₁.supply) (haside : LeavesAside root s s₁)
    (h : Descended va user levels root (q ++ [index va level]) s₁ r s') :
    Descended va user (level :: levels) root q s r s' := by
  have hpath : q ++ (level :: levels).map (index va) =
      q ++ [index va level] ++ levels.map (index va) := by simp
  refine ⟨h.inv, hgrows.trans h.grows, hext.trans h.ext, fun p hp hnot => ?_, ?_, ?_, ?_,
    haside.trans h.aside⟩
  · rw [hpath] at hnot
    rw [h.only p hp hnot]
    refine honly p hp ?_
    rintro rfl
    exact hnot (List.prefix_append _ _)
  · rw [hpath]
    exact h.ok
  · intro e he
    rw [hpath]
    rcases h.error e he with ⟨hfail, hall⟩ | ⟨hconf, hall⟩
    · exact Or.inl ⟨hfail, fun p hp hpre => hext.pages p hp ▸ hall p hp hpre⟩
    · exact Or.inr ⟨hconf, fun p hp hpre => hext.pages p hp ▸ hall p hp hpre⟩
  · intro a b g hab hwa
    cases a with
    | nil =>
        obtain ⟨hrest, hfail⟩ := h.supply [] (levels.map (index va)) f rfl (by simpa using hw)
        rw [List.nil_append] at hab
        rw [← hab, List.map_cons, List.length_cons]
        refine ⟨by omega, fun hr => ?_⟩
        have := hfail hr
        omega
    | cons j a =>
        simp only [List.map_cons, List.cons_append, List.cons.injEq] at hab
        obtain ⟨rfl, hab⟩ := hab
        have hsplit : q ++ index va level :: a = q ++ [index va level] ++ a := by simp
        have ha : (q ++ [index va level] ++ a).length ≤ 3 := by
          have := congrArg List.length hab
          simp only [List.length_map, List.length_append, List.length_singleton] at this ⊢
          omega
        rw [hsplit] at hwa
        obtain ⟨x, hx⟩ := walk_upto (List.prefix_append (q ++ [index va level]) a) hwa
        obtain ⟨hrest, hfail⟩ := h.supply a b g hab (hext.tables _ _ ha hwa)
        have hnone := hthere (by rw [hx]; rfl)
        exact ⟨hnone.trans hrest, fun hr => lt_of_le_of_lt hnone (hfail hr)⟩

/-- **The descent**, for every outcome. -/
theorem descend_spec (va : Nat) (levels : List Nat) (h : VmInv s root)
    (hw : walk childOf s.entries root q = some t) (hlen : q.length + levels.length ≤ 3)
    (huser : user = 0 ∨ user = pteUser) (hup : user ≠ 0 → UserPath s.entries root q) :
    ∃ r s', descend va user levels t s = some (r, s') ∧
      Descended va user levels root q s r s' := by
  induction levels generalizing q t s with
  | nil =>
      refine ⟨.ok t, s, rfl, h, Grows.refl s, Extends.refl _ _, fun _ _ _ => rfl, ?_, by simp,
        fun a b f _ _ => ?_, LeavesAside.refl root s⟩
      · rintro f ⟨rfl⟩
        rw [List.map_nil, List.append_nil]
        exact ⟨hw, hup⟩
      · exact ⟨Nat.le_add_right _ _, by simp⟩
  | cons level levels ih =>
      rw [List.length_cons] at hlen
      have hi := index_lt va level
      have hq : q.length ≤ 2 := by omega
      have hlen' : (q ++ [index va level]).length + levels.length ≤ 3 := by simp; omega
      have hpre : ∀ p, q ++ (level :: levels).map (index va) <+: p → q ++ [index va level] <+: p := by
        intro p hp
        exact List.IsPrefix.trans ⟨levels.map (index va), by simp⟩ hp
      rw [descend]
      dsimp only [PageMem.readEntry, PageMem.writeEntry, PageMem.zeroTable]
      simp only [← entries_of_lt hi, and_present_eq_zero, and_huge_eq_zero, ne_eq]
      by_cases hpres : (s.entries t (index va level)).testBit 0 = true
      · rw [if_neg (by simp [hpres])]
        by_cases hhuge : (s.entries t (index va level)).testBit 7 = true
        · -- a huge page is in the way
          rw [if_pos (by simp [hhuge])]
          refine ⟨_, s, rfl, h, Grows.refl s, Extends.refl _ _, fun _ _ _ => rfl, by simp, ?_, ?_,
            LeavesAside.refl root s⟩
          · rintro e ⟨rfl⟩
            refine Or.inr ⟨rfl, fun p _ hp => ⟨s.entries t (index va level), ?_⟩⟩
            have hdepth := ((h.tree.inner q t _ hq hw hpres).huge hhuge).1
            rw [lookup_of_childOf_none hw (childOf_eq_none.2 (Or.inr hhuge)) (hpre p hp),
              if_pos hpres, hdepth]
          · exact fun _ _ _ _ _ => ⟨Nat.le_add_right _ _, by simp⟩
        · rw [if_neg (by simp [hhuge])]
          generalize hs₁ : (if ¬ user = 0 then s.writeEntry t (index va level)
            (s.entries t (index va level) ||| user) else s) = s₁
          obtain ⟨hinv, hgrows, hext, hsup, honly, hw₁, hbit, haside⟩ :=
            h.promote hq hw hi hpres (by simpa using hhuge) huser hs₁
          obtain ⟨r, s', hrun, hdesc⟩ := ih hinv hw₁ hlen' fun hu =>
            userPath_snoc (hext.user q t (by omega) hw (hup hu)) (hext.tables q t (by omega) hw)
              (hbit hu)
          exact ⟨r, s', hrun, hdesc.step hgrows hext (fun p _ _ => honly p) hw₁ hlen (by omega)
            (fun _ => by omega) haside⟩
      · rw [if_pos (by simpa using hpres)]
        have hnone : childOf (s.entries t (index va level)) = none :=
          childOf_eq_none.2 (Or.inl (by simpa using hpres))
        obtain ⟨L, G, hcoh⟩ := h.coherent
        obtain ⟨a, s₁, L', G', halloc, hcoh', -, ha, hempty, hless⟩ := allocFrame_spec hcoh
        simp only [halloc]
        cases a with
        | none =>
            obtain ⟨hzero, hzero'⟩ := hempty rfl
            obtain ⟨hinv, hgrows, hE⟩ := h.alloc ⟨L', G', hcoh'⟩ ha
            refine ⟨_, s₁, rfl, hinv, hgrows, Tree.extends_congr hE,
              fun p hp _ => Tree.walk_eq hE (by omega), by simp, ?_, ?_,
              h.alloc_leavesAside ⟨L', G', hcoh'⟩ ha⟩
            · rintro e ⟨rfl⟩
              refine Or.inl ⟨rfl, fun p _ hp => ?_⟩
              rw [lookup_of_childOf_none hw hnone (hpre p hp), if_neg hpres]
            · intro a b f hab hwa
              refine ⟨by omega, fun _ => ?_⟩
              -- the table of this level is missing, so there is no way below it
              cases a with
              | nil =>
                  rw [← show _ = b from hab, List.map_cons, List.length_cons]
                  omega
              | cons j a =>
                  simp only [List.map_cons, List.cons_append, List.cons.injEq] at hab
                  obtain ⟨rfl, -⟩ := hab
                  obtain ⟨x, hx⟩ := walk_upto (p := q ++ [index va level]) ⟨a, by simp⟩ hwa
                  rw [walk_snoc, hw, Option.bind_some, hnone] at hx
                  exact absurd hx (by simp)
        | some new =>
            generalize hs₂ : (s₁.zeroTable new).writeEntry t (index va level)
              (tableEntry new user) = s₂
            obtain ⟨hinv, hgrows, hext, honly, hw₁, hentry⟩ :=
              h.addTable hq hw hi (by simpa using hpres) huser ⟨L', G', hcoh'⟩ ha hs₂
            have hsup : s₂.supply + 1 = s.supply := by
              rw [← hs₂]
              exact hless new rfl
            obtain ⟨r, s', hrun, hdesc⟩ := ih hinv hw₁ hlen' fun hu =>
              userPath_snoc (hext.user q t (by omega) hw (hup hu)) (hext.tables q t (by omega) hw)
                (by rw [hentry]; exact tableEntry_user (huser.resolve_left hu))
            refine ⟨r, s', ?_, hdesc.step hgrows hext honly hw₁ hlen (by omega) (fun hthere => ?_)
              (h.addTable_leavesAside hq hw hi (by simpa using hpres) huser ⟨L', G', hcoh'⟩ ha hs₂)⟩
            · rw [← hrun, ← hs₂]
              rfl
            · rw [walk_snoc, hw, Option.bind_some, hnone] at hthere
              exact absurd hthere (by simp)

/-! ## One iteration -/

/-- The ways of one iteration of the descent, each with the run of the remaining levels. -/
inductive Iteration (va user level : Nat) (levels : List Nat) (t : Nat) (s : Machine)
    (r : Except MapError Nat) (s' : Machine) : Prop
  | huge (hpres : (s.entries t (index va level)).testBit 0 = true)
      (hhuge : (s.entries t (index va level)).testBit 7 = true) (hr : r = .error .conflict)
      (hs : s' = s)
  | promoted (s₁ : Machine) (hpres : (s.entries t (index va level)).testBit 0 = true)
      (hsmall : (s.entries t (index va level)).testBit 7 = false)
      (hs₁ : (if user ≠ 0 then
        s.writeEntry t (index va level) (s.entries t (index va level) ||| user) else s) = s₁)
      (hrest : descend va user levels (physOf (s₁.entries t (index va level))) s₁ = some (r, s'))
  | dry (habsent : (s.entries t (index va level)).testBit 0 = false) (hr : r = .error .allocFailed)
      (hcoh : s'.IsCoherent) (ha : Allocates s none s') (hsupply : s.supply = 0 ∧ s'.supply = 0)
  | added (new : Nat) (s₁ s₂ : Machine)
      (habsent : (s.entries t (index va level)).testBit 0 = false) (hcoh : s₁.IsCoherent)
      (ha : Allocates s (some new) s₁)
      (hs₂ : (s₁.zeroTable new).writeEntry t (index va level) (tableEntry new user) = s₂)
      (hsupply : s₂.supply + 1 = s.supply)
      (hrest : descend va user levels new s₂ = some (r, s'))

theorem iteration_of_descend {level : Nat} {levels : List Nat} {r : Except MapError Nat}
    (h : s.IsCoherent) (hrun : descend va user (level :: levels) t s = some (r, s')) :
    Iteration va user level levels t s r s' := by
  have hi := index_lt va level
  rw [descend] at hrun
  dsimp only [PageMem.readEntry, PageMem.writeEntry, PageMem.zeroTable] at hrun
  simp only [← entries_of_lt hi, and_present_eq_zero, and_huge_eq_zero, ne_eq] at hrun
  by_cases hpres : (s.entries t (index va level)).testBit 0 = true
  · rw [if_neg (by simp [hpres])] at hrun
    by_cases hhuge : (s.entries t (index va level)).testBit 7 = true
    · rw [if_pos (by simp [hhuge])] at hrun
      obtain ⟨rfl, rfl⟩ := Prod.mk.inj (Option.some.inj hrun)
      exact .huge hpres hhuge rfl rfl
    · rw [if_neg (by simp [hhuge])] at hrun
      exact .promoted _ hpres (by simpa using hhuge) rfl hrun
  · rw [if_pos (by simpa using hpres)] at hrun
    obtain ⟨L, G, hcoh⟩ := h
    obtain ⟨a, s₁, L', G', halloc, hcoh', -, ha, hempty, hless⟩ := allocFrame_spec hcoh
    simp only [halloc] at hrun
    cases a with
    | none =>
        obtain ⟨rfl, rfl⟩ := Prod.mk.inj (Option.some.inj hrun)
        exact .dry (by simpa using hpres) rfl ⟨L', G', hcoh'⟩ ha (hempty rfl)
    | some new =>
        exact .added new s₁ _ (by simpa using hpres) ⟨L', G', hcoh'⟩ ha rfl (hless new rfl) hrun

/-- What a given run of the descent did. -/
theorem descended_of_run {levels : List Nat} {r : Except MapError Nat} (h : VmInv s root)
    (hw : walk childOf s.entries root q = some t) (hlen : q.length + levels.length ≤ 3)
    (huser : user = 0 ∨ user = pteUser) (hup : user ≠ 0 → UserPath s.entries root q)
    (hrun : descend va user levels t s = some (r, s')) :
    Descended va user levels root q s r s' := by
  obtain ⟨r₁, s₁, hrun₁, hd⟩ := descend_spec va levels h hw hlen huser hup
  obtain ⟨rfl, rfl⟩ := Prod.mk.inj (Option.some.inj (hrun.symm.trans hrun₁))
  exact hd

end Machine

end Rolnix
