import Rolnix.Descend
import Rolnix.PageAddr

/-!
# What `map`, `unmap` and `translate` do

The three walks of `vmm.rs` in terms of `lookup`, the page-table walk of the hardware: `translate`
reads it (`translate_eq`), `map` and `unmap` change it at the page of their address and nowhere
else (`map_spec`, `unmap_spec`).
-/

namespace Rolnix

open Radix

namespace Machine

variable {s s' : Machine} {root t va pa : Nat} {flags : Flags} {q p : List Nat}

/-! ## `translate` -/

/-- The address a walk gives: three entries end at a large page, four at a small one. -/
def decodeWalk (va : Nat) (w : Nat × Nat) : Nat :=
  if w.1 = 3 then Word.add 64 (w.2 &&& addrMask2m) (va % largePage)
  else Word.add 64 (w.2 &&& addrMask4k) (va % frameSize)

theorem lookup_path {E : Nat → Nat → Nat} (hw : walk childOf E root (upper va) = some t) :
    lookup E root (path va) =
      if (E t (index va 0)).testBit 0 = true then some (4, E t (index va 0)) else none := by
  have htrail : trail childOf E root (path va) =
      trail childOf E root (upper va) ++ [E t (index va 0)] := by
    rw [path_eq, trail_append hw, trail_singleton]
  rw [Tree.lookup_last htrail, length_trail hw]
  rfl

namespace VmInv

variable {i : Nat}

/-- The next table of a walk, if the entry is present and its level has no huge pages. -/
theorem walk_next (h : VmInv s root) (hq : q.length ≤ 2) (hw : walk childOf s.entries root q = some t)
    (hpres : (s.entries t i).testBit 0 = true)
    (hhuge : (s.entries t i).testBit 7 = false ∨ q.length ≠ 2) :
    (s.entries t i).testBit 7 = false ∧
      walk childOf s.entries root (q ++ [i]) = some (physOf (s.entries t i)) := by
  have hsmall : (s.entries t i).testBit 7 = false := by
    rcases hhuge with hhuge | hdepth
    · exact hhuge
    · by_contra hbit
      exact hdepth ((h.tree.inner q t i hq hw hpres).huge (by simpa using hbit)).1
  refine ⟨hsmall, ?_⟩
  rw [walk_snoc, hw, Option.bind_some]
  exact childOf_eq_some.2 ⟨hpres, hsmall, rfl⟩

/-- **`translate` follows the hardware's walk.** -/
theorem translate_eq (h : VmInv s root) (va : Nat) :
    s.translate root va =
      if isCanonical va = true then (lookup s.entries root (path va)).map (decodeWalk va)
      else none := by
  rw [translate, PageMem.translate]
  dsimp only [PageMem.readEntry]
  by_cases hc : isCanonical va = true
  swap
  · rw [if_pos hc, if_neg hc]
  rw [if_neg (by simp [hc]), if_pos hc]
  simp only [← entries_of_lt (index_lt va _), and_present_eq_zero, and_huge_eq_zero, ne_eq,
    and_page_mask, and_large_mask]
  -- an entry that is not present ends the walk with nothing
  have hstop : ∀ q t i, walk childOf s.entries root q = some t → q ++ [i] <+: path va →
      (s.entries t i).testBit 0 = false → lookup s.entries root (path va) = none := by
    intro q t i hw hpre hpres
    rw [lookup_of_childOf_none hw (childOf_eq_none.2 (Or.inl hpres)) hpre, if_neg (by simp [hpres])]
  by_cases hp₀ : (s.entries root (index va 3)).testBit 0 = true
  swap
  · rw [if_pos (by simpa using hp₀), hstop [] root _ rfl ⟨_, rfl⟩ (by simpa using hp₀)]
    rfl
  rw [if_neg (by simp [hp₀])]
  obtain ⟨-, hw₁⟩ := h.walk_next (q := []) (by simp) rfl hp₀ (Or.inr (by simp))
  by_cases hp₁ : (s.entries (physOf (s.entries root (index va 3))) (index va 2)).testBit 0 = true
  swap
  · rw [if_pos (by simpa using hp₁), hstop _ _ _ hw₁ ⟨_, rfl⟩ (by simpa using hp₁)]
    rfl
  rw [if_neg (by simp [hp₁])]
  obtain ⟨hh₁, hw₂⟩ := h.walk_next (by simp) hw₁ hp₁ (Or.inr (by simp))
  rw [if_neg (by simp [hh₁])]
  generalize physOf (s.entries (physOf (s.entries root (index va 3))) (index va 2)) = t₂ at hw₂ ⊢
  by_cases hp₂ : (s.entries t₂ (index va 1)).testBit 0 = true
  swap
  · rw [if_pos (by simpa using hp₂), hstop _ _ _ hw₂ ⟨_, rfl⟩ (by simpa using hp₂)]
    rfl
  rw [if_neg (by simp [hp₂])]
  by_cases hh₂ : (s.entries t₂ (index va 1)).testBit 7 = true
  · rw [if_pos (by simp [hh₂]),
      lookup_of_childOf_none (p := path va) hw₂ (childOf_eq_none.2 (Or.inr hh₂)) ⟨_, rfl⟩,
      if_pos hp₂]
    rfl
  rw [if_neg (by simp [hh₂])]
  obtain ⟨-, hw₃⟩ := h.walk_next (by simp) hw₂ hp₂ (Or.inl (by simpa using hh₂))
  generalize physOf (s.entries t₂ (index va 1)) = t₃ at hw₃ ⊢
  rw [lookup_path hw₃]
  by_cases hp₃ : (s.entries t₃ (index va 0)).testBit 0 = true
  · rw [if_neg (by simp [hp₃]), if_pos hp₃]
    rfl
  · rw [if_pos (by simpa using hp₃), if_neg hp₃]
    rfl

end VmInv

/-! ## `map` -/

/-- What `map` did, with good arguments. -/
structure Mapped (root va pa : Nat) (flags : Flags) (s : Machine) (r : Except MapError Unit)
    (s' : Machine) : Prop where
  inv : VmInv s' root
  boot : SameBoot s s'
  /-- No table is lost. -/
  tables : ∀ p t, p.length ≤ 3 → walk childOf s.entries root p = some t →
    walk childOf s'.entries root p = some t
  ok : r = .ok () → lookup s.entries root (path va) = none ∧
    (∀ p, p.length = 4 → lookup s'.entries root p =
      if p = path va then some (4, pageEntry pa flags) else lookup s.entries root p) ∧
    (∃ t, walk childOf s'.entries root (upper va) = some t) ∧
    ∃ s₁, Grows s s₁ ∧ s'.frames =
      Function.update s₁.frames (pa / frameSize) (s₁.frames (pa / frameSize)).addMapping
  error : ∀ e, r = .error e →
    (e = .conflict ∧ (lookup s.entries root (path va)).isSome = true ∨
      e = .allocFailed ∧ lookup s.entries root (path va) = none) ∧
    (∀ p, p.length = 4 → lookup s'.entries root p = lookup s.entries root p) ∧ Grows s s'
  supply : ∀ a b f, upper va = a ++ b → walk childOf s.entries root a = some f →
    s.supply ≤ s'.supply + b.length ∧ (r = .error .allocFailed → s.supply < b.length)
  aside : LeavesAside root s s'

theorem map_of_bad (h : ¬ isCanonical va = true ∨ (va % frameSize ≠ 0 ∨ pa % frameSize ≠ 0) ∨
    pa ≥ s.numFrames * frameSize) :
    ∃ e, s.map root va pa flags = some (.error e, s) := by
  rw [map, PageMem.map]
  by_cases hc : isCanonical va = true
  swap
  · exact ⟨_, if_pos hc⟩
  rw [if_neg (by simp [hc])]
  by_cases hal : va % frameSize ≠ 0 ∨ pa % frameSize ≠ 0
  · exact ⟨_, if_pos hal⟩
  rw [if_neg hal]
  exact ⟨_, if_pos ((h.resolve_left (by simp [hc])).resolve_left hal)⟩

theorem args_of_map_ok {u : Unit} (hmap : s.map root va pa flags = some (.ok u, s')) :
    isCanonical va = true ∧ va % frameSize = 0 ∧ pa % frameSize = 0 ∧
      pa < s.numFrames * frameSize := by
  by_contra hcon
  have hbad : ¬ isCanonical va = true ∨ (va % frameSize ≠ 0 ∨ pa % frameSize ≠ 0) ∨
      pa ≥ s.numFrames * frameSize := by
    by_contra hgood
    simp only [not_or, not_not, ge_iff_le, not_le, ne_eq] at hgood
    exact hcon ⟨hgood.1, hgood.2.1.1, hgood.2.1.2, hgood.2.2⟩
  obtain ⟨e, he⟩ : ∃ e, s.map root va pa flags = some (.error e, s) := map_of_bad hbad
  rw [hmap] at he
  cases he

theorem VmInv.setPage {v : Nat} (h : VmInv s root)
    (hw : walk childOf s.entries root (upper va) = some t) (hv : v < 2 ^ 64)
    (hok : v.testBit 0 = true → LeafOk s.numFrames v)
    (huser : v.testBit 0 = true → v.testBit 2 = true → UserPath s.entries root (upper va))
    (hs' : s.writeEntry t (index va 0) v = s') :
    VmInv s' root ∧ s'.frames = s.frames ∧
      (∀ p, p.length ≤ 3 → walk childOf s'.entries root p = walk childOf s.entries root p) ∧
      ∀ p, p.length = 4 → lookup s'.entries root p =
        if p = path va then (if v.testBit 0 = true then some (4, v) else none)
        else lookup s.entries root p := by
  have hi := index_lt va 0
  have hE : s'.entries = setSlot s.entries t (index va 0) v := by
    rw [← hs', entries_writeEntry hi hv]
  refine ⟨?_, by rw [← hs']; rfl, fun p hp => ?_, fun p hp => ?_⟩
  · rw [← hs']
    exact h.writeEntry ⟨_, le_rfl, hw⟩ hi hv (h.tree.setLeaf rfl hw hok huser)
  · rw [hE, h.tree.walk_setLeaf rfl hw hp]
  · rw [hE]
    exact h.tree.lookup_setLeaf rfl hw hp

/-- **`map`, on a canonical, aligned address and an aligned address in RAM.** -/
theorem map_spec (h : VmInv s root) (hc : isCanonical va = true) (hva : va % frameSize = 0)
    (hpa : pa % frameSize = 0) (hlt : pa < s.numFrames * frameSize) :
    ∃ r s', s.map root va pa flags = some (r, s') ∧ Mapped root va pa flags s r s' := by
  have huser := and_user_cases flags.bits
  obtain ⟨r, s₁, hrun, hd⟩ := descend_spec va [3, 2, 1] h (q := []) rfl (by simp) huser
    (fun _ r u j hpre => by simp at hpre)
  have hupper : upper va <+: path va := ⟨[index va 0], rfl⟩
  have hlt' : ¬ pa ≥ s.totalFrames * frameSize := not_le.2 hlt
  simp only [map, PageMem.map, PageMem.readEntry, PageMem.writeEntry, hc, hva, hpa, hlt', hrun, not_true_eq_false, or_self, if_false, ne_eq]
  cases r with
  | error e =>
      refine ⟨.error e, s₁, rfl, hd.inv, hd.grows.boot, hd.ext.tables, by simp, ?_,
        fun a b f hab hwa => ?_, hd.aside⟩
      swap
      · obtain ⟨htaken, hfew⟩ := hd.supply a b f hab hwa
        exact ⟨htaken, fun hr => hfew (by cases hr; rfl)⟩
      rintro e' ⟨rfl⟩
      refine ⟨?_, hd.ext.pages, hd.grows⟩
      rcases hd.error e rfl with ⟨rfl, hall⟩ | ⟨rfl, hall⟩
      · exact Or.inr ⟨rfl, hall (path va) rfl hupper⟩
      · obtain ⟨e', he'⟩ := hall (path va) rfl hupper
        exact Or.inl ⟨rfl, by rw [he']; rfl⟩
  | ok t =>
      obtain ⟨hw, hup⟩ : walk childOf s₁.entries root (upper va) = some t ∧
        (flags.bits &&& pteUser ≠ 0 → UserPath s₁.entries root (upper va)) := hd.ok t rfl
      have hi := index_lt va 0
      have hpage := lookup_path hw
      rw [hd.ext.pages _ rfl] at hpage
      simp only [← entries_of_lt hi, and_present_eq_zero]
      by_cases hpres : (s₁.entries t (index va 0)).testBit 0 = true
      · -- the page is mapped
        rw [if_pos (by simp [hpres])]
        refine ⟨_, s₁, rfl, hd.inv, hd.grows.boot, hd.ext.tables, by simp, ?_,
          fun a b f hab hwa => ⟨(hd.supply a b f hab hwa).1, by simp⟩, hd.aside⟩
        rintro e ⟨rfl⟩
        exact ⟨Or.inl ⟨rfl, by rw [hpage, if_pos hpres]; rfl⟩, hd.ext.pages, hd.grows⟩
      · rw [if_neg (by simp [hpres])]
        have hn : s₁.numFrames = s.numFrames := hd.grows.boot.numFrames
        have hframe : pa / frameSize < s₁.numFrames := by
          rw [hn]
          exact Nat.div_lt_of_lt_mul (by rw [Nat.mul_comm]; exact hlt)
        have hmod : pa / frameSize % 2 ^ 32 = pa / frameSize :=
          Nat.mod_eq_of_lt (hd.inv.frame_lt hframe)
        have hpa44 : pa < 2 ^ 44 := by
          have := hd.inv.frame_lt hframe
          simp only [frameSize] at this
          omega
        have hv : pageEntry pa flags < 2 ^ 64 := pageEntry_lt hpa44
        generalize hs₂ : s₁.writeEntry t (index va 0) (pageEntry pa flags) = s₂
        obtain ⟨hinv, hframes, hwalk, hpages⟩ := hd.inv.setPage hw hv
          (fun _ => leafOk_pageEntry hpa (by rw [hn]; exact hlt))
          (fun _ hbit => hup fun hzero => by
            rw [testBit_pageEntry_flag hpa hpa44 (Or.inl (by decide)) (by decide)] at hbit
            rw [and_user_eq_zero, hbit] at hzero
            exact absurd hzero (by simp)) hs₂
        have hsame : SameBoot s₁ s₂ ∧ s₂.supply = s₁.supply := by
          rw [← hs₂]
          exact ⟨⟨rfl, rfl, rfl⟩, rfl⟩
        obtain ⟨L, G, hcoh⟩ := hinv.coherent
        have hadd := addMapping_eq hcoh.table
          (show pa / frameSize < s₂.numFrames by rw [hsame.1.numFrames]; exact hframe)
        refine ⟨.ok (), s₂.setInfo (pa / frameSize) (s₂.frames (pa / frameSize)).addMapping, ?_, ?_⟩
        · rw [hmod, show pa ||| flags.bits ||| ptePresent = pageEntry pa flags from rfl, hs₂]
          exact Option.map_eq_some_iff.2 ⟨_, hadd, rfl⟩
        refine ⟨hinv.counters rfl, hd.grows.boot.trans (hsame.1.trans ⟨rfl, rfl, rfl⟩),
          fun p u hp hpu => ?_,
          fun _ => ⟨?_, fun p hp => ?_, ⟨t, (hwalk _ le_rfl).trans hw⟩, s₁, hd.grows, ?_⟩, by simp,
          fun a b f hab hwa => ?_, hd.aside.trans ?_⟩
        · exact (hwalk p hp).trans (hd.ext.tables p u hp hpu)
        · rw [hpage, if_neg hpres]
        · have hleaf := hpages p hp
          rw [if_pos pageEntry_present, hd.ext.pages p hp] at hleaf
          exact hleaf
        · rw [setInfo_frames, hframes]
        · rw [show (s₂.setInfo _ _).supply = s₁.supply from hsame.2]
          exact ⟨(hd.supply a b f hab hwa).1, by simp⟩
        · -- the page table is written, and one counter
          intro f hf
          have hin : InTree s₁.entries root t := ⟨upper va, le_rfl, hw⟩
          refine ⟨⟨?_, ?_⟩, fun b hb => ?_⟩
          · rw [setInfo_frames, hframes]
            by_cases hfp : f = pa / frameSize
            · rw [hfp, Function.update_self]
              exact hfp ▸ hf.1
            · rw [Function.update_of_ne hfp]
              exact hf.1
          · rintro ⟨p, hp, hpw⟩
            exact hf.2 ⟨p, hp, (hwalk p hp).symm.trans hpw⟩
          · show s₂.mem b = s₁.mem b
            rw [← hs₂]
            exact mem_writeEntry_of_aside hin hi (hb ▸ hf)

/-! ## `unmap` -/

theorem unmapWalk_spec (va : Nat) (levels : List Nat) (h : VmInv s root)
    (hw : walk childOf s.entries root q = some t) (hlen : q.length + levels.length ≤ 3) :
    (∃ f, s.unmapWalk va levels t = .ok f ∧
        walk childOf s.entries root (q ++ levels.map (index va)) = some f) ∨
      s.unmapWalk va levels t = .error .notMapped ∧
        (∀ p, q ++ levels.map (index va) <+: p → lookup s.entries root p = none) ∨
      s.unmapWalk va levels t = .error .conflict ∧
        ∀ p, q ++ levels.map (index va) <+: p → ∃ e, lookup s.entries root p = some (3, e) := by
  induction levels generalizing q t with
  | nil => exact Or.inl ⟨t, rfl, by simpa using hw⟩
  | cons level levels ih =>
      rw [List.length_cons] at hlen
      have hq : q.length ≤ 2 := by omega
      have hpre : ∀ p, q ++ (level :: levels).map (index va) <+: p → q ++ [index va level] <+: p := by
        intro p hp
        exact List.IsPrefix.trans ⟨levels.map (index va), by simp⟩ hp
      have hpath : q ++ (level :: levels).map (index va) =
          q ++ [index va level] ++ levels.map (index va) := by simp
      rw [unmapWalk, PageMem.unmapWalk]
      dsimp only [PageMem.readEntry]
      simp only [← entries_of_lt (index_lt va level), and_present_eq_zero, and_huge_eq_zero, ne_eq]
      by_cases hpres : (s.entries t (index va level)).testBit 0 = true
      · rw [if_neg (by simp [hpres])]
        by_cases hhuge : (s.entries t (index va level)).testBit 7 = true
        · rw [if_pos (by simp [hhuge])]
          refine Or.inr (Or.inr ⟨rfl, fun p hp => ⟨s.entries t (index va level), ?_⟩⟩)
          have hdepth := ((h.tree.inner q t _ hq hw hpres).huge hhuge).1
          rw [lookup_of_childOf_none hw (childOf_eq_none.2 (Or.inr hhuge)) (hpre p hp),
            if_pos hpres, hdepth]
        · rw [if_neg (by simp [hhuge]), hpath]
          obtain ⟨-, hw'⟩ := h.walk_next hq hw hpres (Or.inl (by simpa using hhuge))
          exact ih hw' (by simp; omega)
      · rw [if_pos (by simpa using hpres)]
        refine Or.inr (Or.inl ⟨rfl, fun p hp => ?_⟩)
        rw [lookup_of_childOf_none hw (childOf_eq_none.2 (Or.inl (by simpa using hpres)))
          (hpre p hp), if_neg hpres]

/-- What `unmap` did, with a good argument. -/
structure Unmapped (root va : Nat) (s : Machine) (r : Except MapError Unit) (s' : Machine) : Prop where
  inv : VmInv s' root
  boot : SameBoot s s'
  ok : r = .ok () → ∃ e, lookup s.entries root (path va) = some (4, e) ∧
    (∀ p, p.length = 4 → lookup s'.entries root p =
      if p = path va then none else lookup s.entries root p) ∧
    s'.frames = Function.update s.frames ((e &&& addrMask4k) / frameSize)
      (drained (s.frames ((e &&& addrMask4k) / frameSize)).removeMapping)
  error : ∀ e, r = .error e → s' = s ∧
    (e = .conflict ∧ (∃ e', lookup s.entries root (path va) = some (3, e')) ∨
      e = .notMapped ∧ lookup s.entries root (path va) = none)

theorem unmap_of_bad (h : ¬ isCanonical va = true ∨ va % frameSize ≠ 0) :
    ∃ e, s.unmap root va = some (.error e, s) := by
  rw [unmap, PageMem.unmap]
  by_cases hc : isCanonical va = true
  · rw [if_neg (by simp [hc])]
    exact ⟨_, if_pos (h.resolve_left (by simp [hc]))⟩
  · exact ⟨_, if_pos hc⟩

/-- **`unmap`, on a canonical, aligned address.** -/
theorem unmap_spec (h : VmInv s root) (hc : isCanonical va = true) (hva : va % frameSize = 0) :
    ∃ r s', s.unmap root va = some (r, s') ∧ Unmapped root va s r s' := by
  have hupper : upper va <+: path va := ⟨[index va 0], rfl⟩
  simp only [unmap, PageMem.unmap, PageMem.readEntry, PageMem.writeEntry, hc, hva,
    not_true_eq_false, if_false, ne_eq]
  rcases unmapWalk_spec va [3, 2, 1] h (q := []) rfl (by simp) with
    ⟨t, hrun, hw⟩ | ⟨hrun, hall⟩ | ⟨hrun, hall⟩
  · have hw : walk childOf s.entries root (upper va) = some t := hw
    have hpage := lookup_path hw
    simp only [hrun, ← entries_of_lt (index_lt va 0), and_present_eq_zero]
    by_cases hpres : (s.entries t (index va 0)).testBit 0 = true
    · rw [if_neg (by simp [hpres])]
      rw [if_pos hpres] at hpage
      -- the frame of the page, as `unmap` recovers it
      obtain ⟨pa, flags, he, hpa, hlt⟩ := h.tree.leaf (upper va) t _ rfl hw hpres
      generalize s.entries t (index va 0) = e at hpres hpage he
      have hframe : (e &&& addrMask4k) / frameSize < s.numFrames := by
        rw [he, show pa ||| flags.bits ||| ptePresent = pageEntry pa flags from rfl,
          pageEntry_and_mask hpa]
        have hle : pa % 2 ^ 36 / frameSize ≤ pa / frameSize :=
          Nat.div_le_div_right (Nat.mod_le _ _)
        exact lt_of_le_of_lt hle (Nat.div_lt_of_lt_mul (by rw [Nat.mul_comm]; exact hlt))
      rw [Nat.mod_eq_of_lt (h.frame_lt hframe)]
      generalize hf : (e &&& addrMask4k) / frameSize = f at hframe
      generalize hs₁ : s.writeEntry t (index va 0) 0 = s₁
      obtain ⟨hinv, hframes, -, hpages⟩ := h.setPage hw (by decide) (by simp) (by simp) hs₁
      have hsame : SameBoot s s₁ := by
        rw [← hs₁]
        exact ⟨rfl, rfl, rfl⟩
      obtain ⟨L, G, hcoh⟩ := hinv.coherent
      have hframe₁ : f < s₁.numFrames := by rw [hsame.numFrames]; exact hframe
      obtain ⟨hinv', hE⟩ : VmInv (s₁.dropRef f (s₁.frames f).removeMapping) root ∧ _ :=
        hinv.dropRef hframe₁ rfl
      refine ⟨.ok (), s₁.dropRef f (s₁.frames f).removeMapping, ?_, hinv',
        hsame.trans (sameBoot_dropRef _ _ _), fun _ => ⟨e, hpage, fun p hp => ?_, ?_⟩, by simp⟩
      · exact Option.map_eq_some_iff.2 ⟨_, removeMapping_eq hcoh.table hframe₁, rfl⟩
      · rw [Tree.lookup_eq hE (by omega), hpages p hp]
        simp
      · rw [hf, dropRef_frames, hframes]
    · rw [if_pos (by simpa using hpres)]
      refine ⟨_, s, rfl, h, SameBoot.refl s, by simp, ?_⟩
      rintro e ⟨rfl⟩
      exact ⟨rfl, Or.inr ⟨rfl, by rw [hpage, if_neg hpres]⟩⟩
  · simp only [hrun]
    refine ⟨_, s, rfl, h, SameBoot.refl s, by simp, ?_⟩
    rintro e ⟨rfl⟩
    exact ⟨rfl, Or.inr ⟨rfl, hall (path va) hupper⟩⟩
  · simp only [hrun]
    refine ⟨_, s, rfl, h, SameBoot.refl s, by simp, ?_⟩
    rintro e ⟨rfl⟩
    exact ⟨rfl, Or.inl ⟨rfl, hall (path va) hupper⟩⟩

end Machine

end Rolnix
