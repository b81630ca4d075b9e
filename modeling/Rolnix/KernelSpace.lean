import Rolnix.VmmRun

/-!
# The kernel's address space

`new_kernel` builds it with a loop over large pages that grows a tree of three levels. The loop
fails only for want of frames, or if a page or a table is in its way. So on a pool with a frame for
the root and one for each span of 1 GiB and of 512 GiB that a window touches (`windowTables`),
`newKernel_total` says that a table is returned.

The main result is `kernelSpace_windows`: what that table translates, and what it refuses to map.
-/

namespace Rolnix

open Radix Relation

/-- RAM, rounded up to large pages. -/
def windowBytes (ramEnd : Nat) : Nat := (ramEnd + (largePage - 1)) / largePage * largePage

/-- The tables a window of large pages takes: one for each GiB and one for each 512 GiB it
touches. -/
def windowTables (va bytes : Nat) : Nat :=
  ((va + bytes - 1) / 2 ^ 30 - va / 2 ^ 30 + 1) + ((va + bytes - 1) / 2 ^ 39 - va / 2 ^ 39 + 1)

/-- The spans that end between two pages. -/
def crossings (va last : Nat) : Nat :=
  (last / 2 ^ 30 - va / 2 ^ 30) + (last / 2 ^ 39 - va / 2 ^ 39)

theorem crossings_add {va mid last : Nat} (h : va ≤ mid) (h' : mid ≤ last) :
    crossings va mid + crossings mid last = crossings va last := by
  have hdiv : ∀ k, va / k ≤ mid / k ∧ mid / k ≤ last / k := fun k =>
    ⟨Nat.div_le_div_right h, Nat.div_le_div_right h'⟩
  have hgib := hdiv (2 ^ 30)
  have hspan := hdiv (2 ^ 39)
  unfold crossings
  omega

namespace Machine

variable {s s' : Machine} {root va pa stop : Nat}

/-! ## The loop makes progress -/

/-- No table of the lowest level, so only large pages are mapped. -/
def Flat (s : Machine) (root : Nat) : Prop :=
  ∀ p, p.length = 3 → walk childOf s.entries root p = none

/-- The tables above the next page: those above this page, up to the spans that end here. -/
theorem next_tables {t : Nat} (hw : walk childOf s.entries root (middle va) = some t) :
    ∃ a b f, middle (va + largePage) = a ++ b ∧ walk childOf s.entries root a = some f ∧
      b.length ≤ crossings va (va + largePage) := by
  by_cases hgib : (va + largePage) / 2 ^ 30 = va / 2 ^ 30
  · refine ⟨middle va, [], t, ?_, hw, Nat.zero_le _⟩
    simp only [middle, List.map_cons, List.map_nil, index_eq, List.append_nil, List.cons.injEq,
      and_true]
    omega
  have hnext : 1 ≤ (va + largePage) / 2 ^ 30 - va / 2 ^ 30 := by
    simp only [largePage] at hgib ⊢
    omega
  by_cases hspan : (va + largePage) / 2 ^ 39 = va / 2 ^ 39
  · obtain ⟨f, hf⟩ : ∃ f, walk childOf s.entries root [index va 3] = some f :=
      walk_upto ⟨[index va 2], rfl⟩ hw
    refine ⟨[index va 3], [index (va + largePage) 2], f, ?_, hf, ?_⟩
    · simp only [middle, List.map_cons, List.map_nil, index_eq, List.cons_append, List.nil_append,
        List.cons.injEq, and_true]
      omega
    · simp only [List.length_singleton, crossings]
      omega
  · refine ⟨[], middle (va + largePage), root, rfl, rfl, ?_⟩
    simp only [middle, List.length_map, List.length_cons, List.length_nil, crossings, largePage] at hspan hnext ⊢
    omega

/-- **The loop of `map_window` ends well** if its pages are not mapped and there is a frame for
each missing table. -/
theorem mapWindowLoop_total (m : Nat) {fuel f : Nat} {a b : List Nat} (h : VmInv s root)
    (hflat : Flat s root) (hfuel : m < fuel) (hstop : stop = va + m * largePage)
    (hlt : stop < 2 ^ 64) (hal : pa % largePage = 0) (hpa : pa + m * largePage ≤ 2 ^ 63)
    (hfresh : ∀ j < m, lookup s.entries root (path (va + j * largePage)) = none)
    (hapart : ∀ j < m, ∀ i < j, ¬ upper (va + i * largePage) <+: path (va + j * largePage))
    (hab : middle va = a ++ b) (hw : walk childOf s.entries root a = some f)
    (hsupply : b.length + crossings va (va + (m - 1) * largePage) ≤ s.supply) :
    ∃ s', mapWindowLoop root windowLeaf.bits stop fuel va pa s = some (.ok (), s') ∧
      Flat s' root ∧
      s.supply ≤ s'.supply + (b.length + crossings va (va + (m - 1) * largePage)) := by
  induction m generalizing fuel va pa s a b f with
  | zero =>
      obtain ⟨fuel, rfl⟩ := Nat.exists_eq_succ_of_ne_zero (Nat.ne_of_gt hfuel)
      refine ⟨s, ?_, hflat, Nat.le_add_right _ _⟩
      rw [mapWindowLoop, if_neg (by omega)]
  | succ m ih =>
      obtain ⟨fuel, rfl⟩ := Nat.exists_eq_succ_of_ne_zero (Nat.ne_of_gt (Nat.zero_lt_of_lt hfuel))
      have hlarge : (m + 1) * largePage = m * largePage + largePage := by rw [Nat.add_mul, Nat.one_mul]
      have hpos : 0 < largePage := by decide
      obtain ⟨r, s₁, hrun, hm⟩ := mapLarge_spec va h hal (show pa < 2 ^ 63 by omega)
      obtain ⟨htaken, hfew⟩ := hm.supply a b f hab hw
      have hfirst : lookup s.entries root (path va) = none := by
        simpa using hfresh 0 (Nat.succ_pos m)
      have hok : r = .ok () := by
        cases r with
        | ok u => rfl
        | error e =>
            exfalso
            rcases hm.error e rfl with rfl | hpage | htable
            · have := hfew rfl
              omega
            · simp [hfirst] at hpage
            · simp [hflat (upper va) rfl] at htable
      subst hok
      obtain ⟨hpages, t, ht⟩ := hm.ok rfl
      have hflat₁ : Flat s₁ root := by
        intro p hp
        rw [hm.only p (by omega) fun hpre => ?_, hflat p hp]
        have := hpre.length_le
        simp only [hp, middle, List.length_map, List.length_cons, List.length_nil] at this
        omega
      have hva : Word.add 64 va largePage = va + largePage := Word.add_of_lt (by omega)
      have hpa' : Word.add 64 pa largePage = pa + largePage := Word.add_of_lt (by omega)
      simp only [mapWindowLoop, if_pos (show va < stop by omega), hrun, hva, hpa']
      cases m with
      | zero =>
          -- the last page
          obtain ⟨fuel, rfl⟩ := Nat.exists_eq_succ_of_ne_zero
            (Nat.ne_of_gt (Nat.lt_of_succ_lt_succ hfuel))
          refine ⟨s₁, ?_, hflat₁, htaken.trans (by omega)⟩
          rw [mapWindowLoop, if_neg (by omega)]
      | succ m =>
          have hshift : ∀ j, va + largePage + j * largePage = va + (j + 1) * largePage := by
            intro j
            rw [Nat.add_mul, Nat.one_mul, Nat.add_assoc, Nat.add_comm largePage]
          obtain ⟨a', b', f', hab', hw', hb'⟩ := next_tables ht
          have hcross : crossings va (va + largePage) +
              crossings (va + largePage) (va + largePage + m * largePage) =
              crossings va (va + (m + 1) * largePage) := by
            rw [← hshift m]
            exact crossings_add (Nat.le_add_right _ _) (Nat.le_add_right _ _)
          simp only [Nat.add_sub_cancel] at hsupply ih ⊢
          -- the first page is not on the way to the others
          have hfresh' : ∀ j < m + 1,
              lookup s₁.entries root (path (va + largePage + j * largePage)) = none := by
            intro j hj
            rw [hshift, (hpages _ rfl).2, if_neg, hfresh (j + 1) (by omega)]
            simpa using hapart (j + 1) (by omega) 0 (Nat.succ_pos j)
          have hapart' : ∀ j < m + 1, ∀ i < j, ¬ upper (va + largePage + i * largePage) <+:
              path (va + largePage + j * largePage) := by
            intro j hj i hi
            rw [hshift, hshift]
            exact hapart (j + 1) (by omega) (i + 1) (by omega)
          obtain ⟨s', hloop, hflat', htaken'⟩ := ih hm.inv hflat₁ (Nat.lt_of_succ_lt_succ hfuel)
            (show stop = va + largePage + (m + 1) * largePage by omega)
            (by rw [Nat.add_mod_right, hal]) (by omega) hfresh' hapart' hab' hw' (by omega)
          exact ⟨s', hloop, hflat', by omega⟩

/-! ## Windows of canonical addresses -/

/-- All pages of the window are canonical. -/
def CanonicalRange (va bytes : Nat) : Prop :=
  va + bytes < 2 ^ 64 ∧ (va + bytes ≤ 2 ^ 47 ∨ 2 ^ 64 - 2 ^ 47 ≤ va)

theorem CanonicalRange.canonical {bytes w : Nat} (h : CanonicalRange va bytes) (hle : va ≤ w)
    (hlt : w < va + bytes) : w < 2 ^ 64 ∧ isCanonical w = true := by
  obtain ⟨hend, hhalf⟩ := h
  have hw : w < 2 ^ 64 := by omega
  rw [isCanonical_iff hw]
  exact ⟨hw, by omega⟩

theorem page_lt {j m bytes : Nat} (hbytes : m * largePage = bytes) (hj : j < m) :
    j * largePage + largePage ≤ bytes := by
  have hle : (j + 1) * largePage ≤ m * largePage := Nat.mul_le_mul_right _ hj
  rw [Nat.add_mul, Nat.one_mul] at hle
  omega

theorem upper_isPrefix_window {j m bytes w : Nat} (h : CanonicalRange va bytes)
    (hal : va % largePage = 0) (hbytes : m * largePage = bytes) (hj : j < m) (hw : w < 2 ^ 64)
    (hc : isCanonical w = true) :
    upper (va + j * largePage) <+: path w ↔
      va + j * largePage ≤ w ∧ w < va + j * largePage + largePage := by
  have hpage := page_lt hbytes hj
  have hpos : 0 < largePage := by decide
  obtain ⟨hlt, hcan⟩ := h.canonical (w := va + j * largePage) (by omega) (by omega)
  rw [upper_isPrefix_iff hw hlt hc hcan]
  have hal' : (va + j * largePage) % largePage = 0 := by rw [Nat.add_mul_mod_self_right, hal]
  generalize va + j * largePage = u at hal'
  simp only [largePage] at hal' ⊢
  omega

/-- **A mapped window**: its pages map to RAM, all others are as before. -/
theorem Window.lookup_eq {m bytes w : Nat} (h : Window root va 0 m s s')
    (hrange : CanonicalRange va bytes) (hal : va % largePage = 0) (hbytes : m * largePage = bytes)
    (hw : w < 2 ^ 64) (hc : isCanonical w = true) :
    lookup s'.entries root (path w) =
      if va ≤ w ∧ w < va + bytes then some (3, largeEntry ((w - va) / largePage * largePage))
      else lookup s.entries root (path w) := by
  have hpos : 0 < largePage := by decide
  by_cases hin : va ≤ w ∧ w < va + bytes
  · have hj : (w - va) / largePage < m := by
      rw [Nat.div_lt_iff_lt_mul hpos, hbytes]
      omega
    have hle := Nat.div_mul_le_self (w - va) largePage
    have hlt := Nat.lt_div_mul_add (a := w - va) hpos
    have hpre := (upper_isPrefix_window hrange hal hbytes hj hw hc).2 (by omega)
    rw [if_pos hin, h.inside _ hj _ rfl hpre, Nat.zero_add]
  · rw [if_neg hin]
    refine h.outside _ rfl fun j hj hpre => hin ?_
    have hpage := page_lt hbytes hj
    have := (upper_isPrefix_window hrange hal hbytes hj hw hc).1 hpre
    omega

/-- **`map_window` succeeds** on a window of unmapped pages, with a frame for each table. -/
theorem mapWindow_total {bytes : Nat} (h : VmInv s root) (hflat : Flat s root)
    (hrange : CanonicalRange va bytes) (hal : va % largePage = 0) (hbytes : bytes % largePage = 0)
    (hpos : 0 < bytes)
    (hfresh : ∀ w, va ≤ w → w < va + bytes → lookup s.entries root (path w) = none)
    (hsupply : windowTables va bytes ≤ s.supply) :
    ∃ s', s.mapWindow root va 0 bytes (Flags.present.with_ .writable) = some (.ok (), s') ∧
      Flat s' root ∧ s.supply ≤ s'.supply + windowTables va bytes := by
  have hdiv : bytes / largePage * largePage = bytes :=
    Nat.div_mul_cancel (Nat.dvd_of_mod_eq_zero hbytes)
  have hm : 0 < bytes / largePage := by
    rw [Nat.pos_iff_ne_zero]
    intro hzero
    rw [hzero] at hdiv
    omega
  generalize bytes / largePage = m at hdiv hm
  have hlarge : 0 < largePage := by decide
  have htables : windowTables va bytes = 2 + crossings va (va + (m - 1) * largePage) := by
    have hlast : va + bytes = va + (m - 1) * largePage + largePage := by
      rw [← hdiv, Nat.add_assoc, ← Nat.succ_mul, Nat.succ_eq_add_one, Nat.sub_add_cancel hm]
    have hlastal : (va + (m - 1) * largePage) % largePage = 0 := by
      rw [Nat.add_mul_mod_self_right, hal]
    rw [windowTables, hlast]
    generalize va + (m - 1) * largePage = last at hlastal
    simp only [crossings, largePage] at hlastal ⊢
    omega
  rw [htables] at hsupply ⊢
  have hle : bytes ≤ 2 ^ 63 := by
    obtain ⟨hend, hhalf⟩ := hrange
    omega
  obtain ⟨s', hrun, hflat', htaken⟩ := mapWindowLoop_total m h hflat (Nat.lt_succ_self m)
    (show va + bytes = va + m * largePage by rw [hdiv]) hrange.1 (show 0 % largePage = 0 by decide)
    (by omega)
    (fun j hj => hfresh _ (Nat.le_add_right _ _) (by
      have := page_lt hdiv hj
      omega))
    (fun j hj i hi hpre => by
      have hpage := page_lt hdiv hj
      obtain ⟨hlt, hc⟩ := hrange.canonical (w := va + j * largePage) (by omega) (by omega)
      have hin := (upper_isPrefix_window hrange hal hdiv (hi.trans hj) hlt hc).1 hpre
      have hmul : (i + 1) * largePage ≤ j * largePage := Nat.mul_le_mul_right _ hi
      rw [Nat.add_mul, Nat.one_mul] at hmul
      omega)
    (List.nil_append (middle va)).symm rfl hsupply
  refine ⟨s', ?_, hflat', htaken⟩
  rw [mapWindow, PageMem.mapWindow, if_neg (by omega), if_neg (by simp [hal, hbytes]), Word.add_of_lt hrange.1, ← hrun,
    ← hdiv, Nat.mul_div_cancel _ (by decide)]
  rfl

/-! ## `new_kernel` -/

variable {ramEnd : Nat}

theorem alignUp_ramEnd (hram : ramEnd ≤ 2 ^ 44) :
    Word.alignUp 64 ramEnd largePage = windowBytes ramEnd := by
  have hlarge : largePage = 2 ^ 21 := by decide
  rw [windowBytes, hlarge, Word.alignUp_eq (by decide) (by omega), Nat.add_sub_assoc (by decide)]

theorem windowBytes_spec (ramEnd : Nat) :
    windowBytes ramEnd % largePage = 0 ∧ ramEnd ≤ windowBytes ramEnd ∧
      windowBytes ramEnd < ramEnd + largePage := by
  refine ⟨Nat.mul_mod_left _ _, ?_⟩
  simp only [windowBytes, largePage]
  omega

/-- What the kernel's table translates: RAM in place, RAM at the physmap base, nothing else. -/
def kernelTranslate (bytes base va : Nat) : Option Nat :=
  if va < bytes then some va
  else if base ≤ va ∧ va < base + bytes then some (va - base)
  else none

/-- The physmap of a machine with that much RAM: aligned, in the upper half, and below the end. -/
structure PhysmapOk (base bytes : Nat) : Prop where
  aligned : base % largePage = 0
  upperHalf : 2 ^ 64 - 2 ^ 47 ≤ base
  no_wrap : base + bytes < 2 ^ 64

theorem decodeWalk_large {off : Nat} (hal : pa % largePage = 0) (hlt : pa < 2 ^ 44)
    (hoff : va % largePage = off) : decodeWalk va (3, largeEntry pa) = pa + off := by
  have hsmall : off < largePage := hoff ▸ Nat.mod_lt _ (by decide)
  simp only [largePage] at hsmall
  rw [decodeWalk, if_pos rfl, largeEntry_and_mask hal hlt, hoff, Word.add_of_lt (by omega)]

section Kernel

variable (h : s.IsCoherent) (hram : ramEnd ≤ 2 ^ 44)
  (hbase : PhysmapOk s.physmapBase (windowBytes ramEnd))

include h hram hbase

/-- **The walk for each address of the kernel's table.** -/
theorem newKernel_lookup (hrun : s.newKernel ramEnd = some (some root, s')) {w : Nat}
    (hw : w < 2 ^ 64) (hc : isCanonical w = true) :
    lookup s'.entries root (path w) =
      if s.physmapBase ≤ w ∧ w < s.physmapBase + windowBytes ramEnd then
        some (3, largeEntry ((w - s.physmapBase) / largePage * largePage))
      else if w < windowBytes ramEnd then some (3, largeEntry (w / largePage * largePage))
      else none := by
  obtain ⟨hal, hle, hlt⟩ := windowBytes_spec ramEnd
  have hdiv := Nat.div_mul_cancel (Nat.dvd_of_mod_eq_zero hal)
  obtain ⟨-, -, -, s₀, s₁, hnone, hwin₁, hwin₂⟩ := newKernel_spec h hrun
  rw [alignUp_ramEnd hram] at hwin₁ hwin₂
  rw [if_pos hbase.no_wrap] at hwin₂
  have hlarge : largePage = 2 ^ 21 := by decide
  have hlow : CanonicalRange 0 (windowBytes ramEnd) := ⟨by omega, by omega⟩
  rw [hwin₂.lookup_eq ⟨hbase.no_wrap, Or.inr hbase.upperHalf⟩ hbase.aligned hdiv hw hc,
    hwin₁.lookup_eq hlow (by decide) hdiv hw hc, hnone _ (by simp [path])]
  simp only [Nat.zero_le, true_and, Nat.zero_add, Nat.sub_zero]

/-- **What the kernel's table translates.** -/
theorem newKernel_translate (hrun : s.newKernel ramEnd = some (some root, s')) {w : Nat}
    (hw : w < 2 ^ 64) :
    s'.translate root w = kernelTranslate (windowBytes ramEnd) s.physmapBase w := by
  obtain ⟨hinv, -⟩ := newKernel_spec h hrun
  obtain ⟨hal, hle, hlt⟩ := windowBytes_spec ramEnd
  obtain ⟨haligned, hupper, hwrap⟩ := hbase
  have hlarge : largePage = 2 ^ 21 := by decide
  have hmax : windowBytes ramEnd ≤ 2 ^ 44 := by
    rw [hlarge] at hal hlt
    omega
  -- the address of a large page, and the offset in it
  have hdecode : ∀ x < windowBytes ramEnd, w % largePage = x % largePage →
      decodeWalk w (3, largeEntry (x / largePage * largePage)) = x := by
    intro x hx hoff
    have hsplit := Nat.div_add_mod' x largePage
    rw [decodeWalk_large (Nat.mul_mod_left _ _) (by omega) hoff, hsplit]
  rw [hinv.translate_eq, kernelTranslate]
  by_cases hc : isCanonical w = true
  · rw [if_pos hc, newKernel_lookup h hram ⟨haligned, hupper, hwrap⟩ hrun hw hc]
    by_cases hwin : s.physmapBase ≤ w ∧ w < s.physmapBase + windowBytes ramEnd
    · rw [if_pos hwin, if_neg (by omega), if_pos hwin, Option.map_some,
        hdecode (w - s.physmapBase) (by omega)]
      rw [hlarge] at haligned ⊢
      omega
    · rw [if_neg hwin]
      by_cases hlow : w < windowBytes ramEnd
      · rw [if_pos hlow, if_pos hlow, Option.map_some, hdecode w hlow rfl]
      · rw [if_neg hlow, if_neg hlow, if_neg hwin]
        rfl
  · have hcan := hc
    rw [isCanonical_iff hw] at hcan
    rw [if_neg hc, if_neg (by omega), if_neg (by omega)]

/-- **`new_kernel` returns a table**, with a frame for the root and for each table of the two
windows. -/
theorem newKernel_total (hpos : 0 < ramEnd)
    (hsupply : 1 + windowTables 0 (windowBytes ramEnd) +
      windowTables s.physmapBase (windowBytes ramEnd) ≤ s.supply) :
    ∃ root s', s.newKernel ramEnd = some (some root, s') := by
  obtain ⟨hal, hle, hlt⟩ := windowBytes_spec ramEnd
  have hlarge : largePage = 2 ^ 21 := by decide
  have hupper := hbase.upperHalf
  have hlow : CanonicalRange 0 (windowBytes ramEnd) := ⟨by omega, by omega⟩
  have hhigh : CanonicalRange s.physmapBase (windowBytes ramEnd) :=
    ⟨hbase.no_wrap, Or.inr hbase.upperHalf⟩
  have hdiv := Nat.div_mul_cancel (Nat.dvd_of_mod_eq_zero hal)
  obtain ⟨L, G, hcoh⟩ := h
  obtain ⟨r, s₁, L', G', halloc, hcoh', -, ha, hempty, hless⟩ := allocFrame_spec hcoh
  cases r with
  | none =>
      obtain ⟨hzero, -⟩ := hempty rfl
      omega
  | some root =>
      have hone := hless root rfl
      obtain ⟨hinv₀, hgrows₀, hsup₀, hzero⟩ := VmInv.fresh ⟨L', G', hcoh'⟩ ha rfl
      have hnone : ∀ p, p ≠ [] → lookup (s₁.zeroTable root).entries root p = none := fun p hp =>
        Tree.lookup_empty hzero hp
      have hflat₀ : Flat (s₁.zeroTable root) root := by
        intro p hp
        rw [Option.eq_none_iff_forall_ne_some]
        intro t ht
        rw [(Tree.walk_empty hzero ht).1] at hp
        exact absurd hp (by decide)
      obtain ⟨s₂, hrun₁, hflat₁, htaken₁⟩ := mapWindow_total hinv₀ hflat₀ hlow (by decide) hal
        (by omega) (fun w _ _ => hnone _ (by simp [path])) (by omega)
      obtain ⟨hinv₁, hgrows₁, hwin₁⟩ := mapWindow_ok hinv₀ hal (by omega) hrun₁
      rw [if_pos (by omega)] at hwin₁
      have hphys : s₂.physmapBase = s.physmapBase := (hgrows₀.trans hgrows₁).boot.physmapBase
      -- the physmap is not part of the identity map
      have hfresh : ∀ w, s.physmapBase ≤ w → w < s.physmapBase + windowBytes ramEnd →
          lookup s₂.entries root (path w) = none := by
        intro w hge hlt'
        obtain ⟨hw, hc⟩ := hhigh.canonical hge hlt'
        rw [hwin₁.lookup_eq hlow (by decide) hdiv hw hc, if_neg (by omega), hnone _ (by simp [path])]
      obtain ⟨s', hrun₂, -, -⟩ := mapWindow_total hinv₁ hflat₁ hhigh hbase.aligned hal (by omega)
        hfresh (by omega)
      refine ⟨root, s', newKernel_iff.2 ⟨s₁, s₂, halloc, ?_, by omega, ?_⟩⟩
      · rw [alignUp_ramEnd hram]
        exact hrun₁
      · rw [alignUp_ramEnd hram, hphys]
        exact hrun₂

end Kernel

theorem map_conflict {flags : Flags} (h : VmInv s root) (hc : isCanonical va = true)
    (hva : va % frameSize = 0) (hpa : pa % frameSize = 0) (hlt : pa < s.numFrames * frameSize)
    (hsome : (lookup s.entries root (path va)).isSome = true) :
    ∃ s', s.map root va pa flags = some (.error .conflict, s') := by
  obtain ⟨r, s', hrun, hm⟩ : ∃ r s', s.map root va pa flags = some (r, s') ∧ _ :=
    map_spec h hc hva hpa hlt
  cases r with
  | ok u =>
      rw [(hm.ok rfl).1] at hsome
      exact absurd hsome (by simp)
  | error e =>
      obtain ⟨⟨rfl, -⟩ | ⟨-, hnone⟩, -⟩ := hm.error e rfl
      · exact ⟨s', hrun⟩
      · rw [hnone] at hsome
        exact absurd hsome (by simp)

end Machine

open Machine

/-- **The kernel's windows**: on a pool with enough frames `new_kernel` returns a table that maps
RAM in place and at the physmap base, and nothing else. It counts no mapping, and no page of the
windows can be mapped again. -/
theorem kernelSpace_windows {s : Machine} {ramEnd : Nat} (hboot : Booted s) (hpos : 0 < ramEnd)
    (hram : ramEnd ≤ 2 ^ 44) (hbase : PhysmapOk s.physmapBase (windowBytes ramEnd))
    (hsupply : 1 + windowTables 0 (windowBytes ramEnd) +
      windowTables s.physmapBase (windowBytes ramEnd) ≤ s.supply) :
    ∃ root s', s.newKernel ramEnd = some (some root, s') ∧
      (∀ va < windowBytes ramEnd, s'.translate root va = some va) ∧
      (∀ x < windowBytes ramEnd, s'.translate root (s.physmapBase + x) = some x) ∧
      (∀ va < 2 ^ 64, windowBytes ramEnd ≤ va →
        ¬ (s.physmapBase ≤ va ∧ va < s.physmapBase + windowBytes ramEnd) →
        s'.translate root va = none) ∧
      (∀ f, (s'.frames f).mappings = (s.frames f).mappings) ∧
      (∀ va pa flags, va % frameSize = 0 → pa % frameSize = 0 → pa < s'.totalFrames * frameSize →
        va < windowBytes ramEnd ∨ s.physmapBase ≤ va ∧ va < s.physmapBase + windowBytes ramEnd →
        ∃ s'', s'.map root va pa flags = some (.error .conflict, s'')) := by
  have hcoh := hboot.coherent
  obtain ⟨root, s', hrun⟩ := newKernel_total hcoh hram hbase hpos hsupply
  obtain ⟨hinv, hgrows, -⟩ := newKernel_spec hcoh hrun
  have hwrap := hbase.no_wrap
  have hupper := hbase.upperHalf
  have htrans : ∀ va < 2 ^ 64,
      s'.translate root va = kernelTranslate (windowBytes ramEnd) s.physmapBase va :=
    fun va hva => newKernel_translate hcoh hram hbase hrun hva
  refine ⟨root, s', hrun, ?_, ?_, ?_, hgrows.mappings, ?_⟩
  · intro va hva
    rw [htrans va (by omega), kernelTranslate, if_pos hva]
  · intro x hx
    rw [htrans _ (by omega), kernelTranslate, if_neg (by omega), if_pos (by omega),
      Nat.add_sub_cancel_left]
  · intro va hva hlow hhigh
    rw [htrans va hva, kernelTranslate, if_neg (by omega), if_neg hhigh]
  · intro va pa flags hva hpa hlt hin
    have hva64 : va < 2 ^ 64 := by omega
    have hsome : (s'.translate root va).isSome = true := by
      rw [htrans va hva64, kernelTranslate]
      split_ifs
      · rfl
      · rfl
      · omega
    rw [hinv.translate_eq] at hsome
    by_cases hc : isCanonical va = true
    · rw [if_pos hc, Option.isSome_map] at hsome
      exact map_conflict hinv hc hva hpa hlt hsome
    · rw [if_neg hc] at hsome
      exact absurd hsome (by simp)

/-- Nine frames of RAM fill one large page of each window. -/
theorem kernelSpace_windows_small :
    ∃ s root s', Booted s ∧ s.newKernel 0x109000 = some (some root, s') ∧
      s'.translate root 0x1000 = some 0x1000 := by
  have hrun : ((finish (pmmInit pageBoot [] [] 0) (reset fun _ => 0)).map fun r =>
      (r.2.physmapBase, r.2.supply)) = some (0xffff800000000000, 7) := by
    decide +kernel
  obtain ⟨⟨⟨info, caps⟩, s⟩, hinit, hrun⟩ := Option.map_eq_some_iff.1 hrun
  obtain ⟨hbase, hsupply⟩ := Prod.mk.inj hrun
  have hboot : Booted s := ⟨pageBoot, [], [], caps, 0, _, info, s, by decide,
    ⟨pageBoot_apart, returns_of_finish hinit⟩, ReflTransGen.refl⟩
  obtain ⟨root, s', hnew, hlow, -⟩ := kernelSpace_windows (s := s) hboot
    (show 0 < 0x109000 by decide) (by decide) (by rw [hbase]; exact ⟨by decide, by decide, by decide⟩)
    (by rw [hbase, hsupply]; decide)
  exact ⟨s, root, s', hboot, hnew, hlow 0x1000 (by decide)⟩

/-- **`new_kernel` panics on a pool with enough frames.** With the frame table in memory: the pool has six
frames, and five are needed. One of the first five holds the end of the frame table, and `zero_table`
makes a table of it: the last frames of the pool become reserved. -/
theorem newKernel_panics_on_table :
    ∃ info r, Returns (pmmInit (usableBoot [(0x100000, 0x1000), (0x102000, 0x3000),
        (0x103000, 0x1000), (0x17c000, 0x4000)]) [] [] 0x1000) (Ram.reset fun _ => 0) (info, []) r ∧
      PhysmapOk r.physmapBase (windowBytes 0x180000) ∧
      1 + windowTables 0 (windowBytes 0x180000) + windowTables r.physmapBase (windowBytes 0x180000) = 5 ∧
      PoolMem.freeFrameCount r = 6 ∧ PageMem.newKernel r 0x180000 = none := by
  have hobs : (finish (pmmInit (usableBoot [(0x100000, 0x1000), (0x102000, 0x3000),
      (0x103000, 0x1000), (0x17c000, 0x4000)]) [] [] 0x1000) (Ram.reset fun _ => 0)).map (fun x =>
      decide (x.1.2 = [] ∧ x.2.physmapBase = 0xffff800000000000 ∧ PoolMem.freeFrameCount x.2 = 6 ∧
        (PageMem.newKernel x.2 0x180000).isNone)) = some true := by
    decide +kernel
  obtain ⟨⟨⟨info, caps⟩, r⟩, hinit, hobs⟩ := Option.map_eq_some_iff.1 hobs
  obtain ⟨rfl, hbase, hcount, hpanic⟩ := of_decide_eq_true hobs
  refine ⟨info, r, returns_of_finish hinit, ?_, ?_, hcount, Option.isNone_iff_eq_none.1 hpanic⟩
  · rw [hbase]
    exact ⟨by decide, by decide, by decide⟩
  · rw [hbase]
    decide

end Rolnix
