import Rolnix.VmmProof

/-!
# New address spaces

`new` returns an empty address space (`newTable_spec`), `new_kernel` one with two windows of large
pages and nothing else (`newKernel_spec`). The windows are mapped by a loop that never overwrites
an entry; so two pages of a window that share a slot make it fail, and a window that was mapped is
shorter than the 48-bit address space.
-/

namespace Rolnix

open Radix

/-! ## Entries for large pages -/

/-- The flags of the pages of a window. -/
def windowLeaf : Flags := ((Flags.present.with_ .writable).with_ .present).with_ .huge

/-- The entry for a large page of a window. -/
def largeEntry (pa : Nat) : Nat := pa ||| windowLeaf.bits

theorem testBit_largeEntry {pa i : Nat} (hpa : pa % largePage = 0) (hlt : pa < 2 ^ 63)
    (hi : i < 21 ∨ 63 ≤ i) : (largeEntry pa).testBit i = windowLeaf.bits.testBit i := by
  have haddr : pa.testBit i = false := by
    rcases hi with hi | hi
    · obtain ⟨k, rfl⟩ := Nat.dvd_of_mod_eq_zero hpa
      rw [Nat.mul_comm]
      exact testBit_mul_of_lt (k := 21) hi
    · exact Nat.testBit_lt_two_pow (lt_of_lt_of_le hlt (Nat.pow_le_pow_right (by decide) hi))
  rw [largeEntry, Nat.testBit_or, haddr, Bool.false_or]

theorem largeEntry_lt {pa : Nat} (hlt : pa < 2 ^ 63) : largeEntry pa < 2 ^ 64 :=
  Nat.or_lt_two_pow (by omega) (flags_lt _)

theorem largeEntry_inner {pa : Nat} (hpa : pa % largePage = 0) (hlt : pa < 2 ^ 63) :
    (largeEntry pa).testBit 0 = true ∧ (largeEntry pa).testBit 7 = true ∧
      InnerOk 2 (largeEntry pa) := by
  have hbit : ∀ i, i < 21 ∨ 63 ≤ i → (largeEntry pa).testBit i = windowLeaf.bits.testBit i :=
    fun i hi => testBit_largeEntry hpa hlt hi
  refine ⟨?_, ?_, ?_, ?_, fun _ => ⟨rfl, ?_⟩⟩
  · rw [hbit 0 (by decide)]
    decide
  · rw [hbit 7 (by decide)]
    decide
  · rw [hbit 1 (by decide)]
    decide
  · rw [hbit 63 (by decide)]
    decide
  · rw [hbit 2 (by decide)]
    decide

/-- The 2 MiB mask reads the address of a large page back if it is below `2 ^ 44`. -/
theorem largeEntry_and_mask {pa : Nat} (hpa : pa % largePage = 0) (hlt : pa < 2 ^ 44) :
    largeEntry pa &&& addrMask2m = pa := by
  have hmask : addrMask2m = (2 ^ 23 - 1) * 2 ^ 21 := by decide
  apply Nat.eq_of_testBit_eq
  intro i
  rw [largeEntry, Nat.testBit_and, Nat.testBit_or, hmask, Nat.testBit_mul_two_pow,
    Nat.testBit_two_pow_sub_one]
  by_cases hlow : i < 21
  · have haddr : pa.testBit i = false := by
      obtain ⟨k, rfl⟩ := Nat.dvd_of_mod_eq_zero hpa
      rw [Nat.mul_comm]
      exact testBit_mul_of_lt (k := 21) hlow
    simp [haddr, show ¬ 21 ≤ i by omega]
  · by_cases hhigh : i < 44
    · rw [flags_testBit (by omega) (by omega)]
      simp [show 21 ≤ i by omega, show i - 21 < 23 by omega]
    · have haddr : pa.testBit i = false :=
        Nat.testBit_lt_two_pow (lt_of_lt_of_le hlt (Nat.pow_le_pow_right (by decide) (by omega)))
      simp [haddr, show ¬ i - 21 < 23 by omega]

namespace Machine

variable {s s' : Machine} {root va pa stop : Nat}

/-! ## `new` -/

/-- A frame that was allocated and zeroed is an empty address space. -/
theorem VmInv.fresh {s₁ : Machine} (hcoh : s₁.IsCoherent) (ha : Allocates s (some root) s₁)
    (hs' : s₁.zeroTable root = s') :
    VmInv s' root ∧ Grows s s' ∧ s'.supply = s₁.supply ∧ ∀ j, s'.entries root j = 0 := by
  obtain ⟨hlt, -, hframes⟩ := ha.some root rfl
  have hkernel : (s₁.frames root).owner = .kernel := by rw [hframes, Function.update_self]; rfl
  obtain ⟨L, G, hL⟩ := hcoh
  have hzero : ∀ j, s'.entries root j = 0 := fun j => by rw [← hs', entries_zeroTable_self]
  have htable : s'.IsTable root := by
    rw [← hs']
    exact ⟨by rw [← ha.boot.numFrames] at hlt; exact hlt, hkernel⟩
  refine ⟨⟨⟨L, G, ?_⟩, Tree.empty hzero htable⟩, ha.grows.trans ?_, ?_, hzero⟩
  · rw [← hs']
    exact hL.zeroTable (by simp [hkernel])
  · rw [← hs']
    exact ⟨⟨rfl, rfl, rfl⟩, fun _ => Or.inl rfl⟩
  · rw [← hs']
    rfl

/-- **`new` gives an empty address space.** -/
theorem newTable_spec (h : s.IsCoherent) :
    ∃ r s', s.newTable = some (r, s') ∧ Grows s s' ∧
      ∀ root, r = some root → VmInv s' root ∧ ∀ p, p ≠ [] → lookup s'.entries root p = none := by
  obtain ⟨L, G, hcoh⟩ := h
  obtain ⟨r, s₁, L', G', halloc, hcoh', -, ha, -, -⟩ := allocFrame_spec hcoh
  cases r with
  | none => exact ⟨none, s₁, by simp [newTable, PageMem.newTable, PageMem.zeroTable, halloc], ha.grows, by simp⟩
  | some root =>
      obtain ⟨hinv, hgrows, -, hzero⟩ := VmInv.fresh ⟨L', G', hcoh'⟩ ha rfl
      refine ⟨some root, s₁.zeroTable root, by simp [newTable, PageMem.newTable, PageMem.zeroTable, halloc], hgrows, ?_⟩
      rintro _ ⟨rfl⟩
      exact ⟨hinv, fun p hp => Tree.lookup_empty hzero hp⟩

theorem newTable_total (h : s.IsCoherent) (hsupply : 0 < s.supply) :
    ∃ root s', s.newTable = some (some root, s') ∧ SameBoot s s' ∧ s.supply = s'.supply + 1 := by
  obtain ⟨L, G, hcoh⟩ := h
  obtain ⟨r, s₁, L', G', halloc, hcoh', -, ha, hnone, hsome⟩ := allocFrame_spec hcoh
  cases r with
  | none =>
      have := (hnone rfl).1
      omega
  | some root =>
      obtain ⟨-, hgrows, hzero, -⟩ := VmInv.fresh ⟨L', G', hcoh'⟩ ha rfl
      refine ⟨root, s₁.zeroTable root, by simp [newTable, PageMem.newTable, PageMem.zeroTable, halloc], hgrows.boot, ?_⟩
      rw [hzero, hsome root rfl]

/-! ## Windows -/

/-- The slots of `va` in the tables above the large page's. -/
def middle (va : Nat) : List Nat := [3, 2].map (index va)

/-- What one iteration of `map_window` did. -/
structure MappedLarge (root va pa : Nat) (s : Machine) (r : Except MapError Unit) (s' : Machine) :
    Prop where
  inv : VmInv s' root
  grows : Grows s s'
  /-- No table is lost, and new ones are above the page only. -/
  tables : ∀ p t, p.length ≤ 3 → walk childOf s.entries root p = some t →
    walk childOf s'.entries root p = some t
  only : ∀ p, p.length ≤ 3 → ¬ p <+: middle va →
    walk childOf s'.entries root p = walk childOf s.entries root p
  ok : r = .ok () → (∀ p, p.length = 4 →
      (upper va <+: p → lookup s.entries root p = none) ∧
      lookup s'.entries root p =
        if upper va <+: p then some (3, largeEntry pa) else lookup s.entries root p) ∧
    ∃ t, walk childOf s'.entries root (middle va) = some t
  error : ∀ e, r = .error e → e = .allocFailed ∨
    (lookup s.entries root (path va)).isSome = true ∨
    (walk childOf s.entries root (upper va)).isSome = true
  supply : ∀ a b f, middle va = a ++ b → walk childOf s.entries root a = some f →
    s.supply ≤ s'.supply + b.length ∧ (r = .error .allocFailed → s.supply < b.length)

/-- **One iteration of `map_window`.** -/
theorem mapLarge_spec (va : Nat) (h : VmInv s root) (hpa : pa % largePage = 0) (hlt : pa < 2 ^ 63) :
    ∃ r s', s.mapLarge root va pa windowLeaf.bits = some (r, s') ∧
      MappedLarge root va pa s r s' := by
  obtain ⟨r, s₁, hrun, hd⟩ := descend_spec va [3, 2] h (q := []) rfl (by simp) (Or.inl rfl)
    (fun hne => absurd rfl hne)
  have hpre : middle va <+: path va := ⟨[index va 1, index va 0], rfl⟩
  simp only [mapLarge, PageMem.mapLarge, PageMem.readEntry, PageMem.writeEntry, hrun]
  cases r with
  | error e =>
      refine ⟨_, s₁, rfl, hd.inv, hd.grows, hd.ext.tables, hd.only, by simp, ?_, ?_⟩
      · rintro e' ⟨rfl⟩
        rcases hd.error e rfl with ⟨rfl, -⟩ | ⟨-, hall⟩
        · exact Or.inl rfl
        · obtain ⟨e', he'⟩ := hall (path va) rfl hpre
          exact Or.inr (Or.inl (by rw [he']; rfl))
      · intro a b f hab hwa
        obtain ⟨htaken, hfew⟩ := hd.supply a b f hab hwa
        exact ⟨htaken, fun hr => hfew (by cases hr; rfl)⟩
  | ok t =>
      obtain ⟨hw, -⟩ : walk childOf s₁.entries root (middle va) = some t ∧ _ := hd.ok t rfl
      have hi := index_lt va 1
      have hsupply : ∀ a b f, middle va = a ++ b → walk childOf s.entries root a = some f →
          s.supply ≤ s₁.supply + b.length := fun a b f hab hwa => (hd.supply a b f hab hwa).1
      simp only [← entries_of_lt hi, ne_eq, and_present_eq_zero]
      by_cases hpres : (s₁.entries t (index va 1)).testBit 0 = true
      · -- a page or a table is there
        rw [if_pos (by simp [hpres])]
        refine ⟨_, s₁, rfl, hd.inv, hd.grows, hd.ext.tables, hd.only, by simp, ?_,
          fun a b f hab hwa => ⟨hsupply a b f hab hwa, by simp⟩⟩
        rintro e ⟨rfl⟩
        right
        cases hchild : childOf (s₁.entries t (index va 1)) with
        | none =>
            have hpage := lookup_of_childOf_none (p := path va) hw hchild ⟨[index va 0], rfl⟩
            rw [if_pos hpres, hd.ext.pages _ rfl] at hpage
            exact Or.inl (by rw [hpage]; rfl)
        | some u =>
            have hold : walk childOf s.entries root (upper va) = some u := by
              rw [← hd.only (upper va) le_rfl fun hle => absurd hle.length_le (by simp [upper])]
              rw [show upper va = middle va ++ [index va 1] from rfl, walk_snoc, hw, Option.bind_some,
                hchild]
            exact Or.inr (by rw [hold]; rfl)
      · rw [if_neg (by simp [hpres])]
        obtain ⟨hbit₀, hbit₇, hok⟩ := largeEntry_inner hpa hlt
        have hv := largeEntry_lt hlt
        have hnone : childOf (s₁.entries t (index va 1)) = none :=
          childOf_eq_none.2 (Or.inl (by simpa using hpres))
        have hsame : childOf (largeEntry pa) = childOf (s₁.entries t (index va 1)) := by
          rw [hnone]
          exact childOf_eq_none.2 (Or.inr hbit₇)
        generalize hs₂ : s₁.writeEntry t (index va 1) (largeEntry pa) = s₂
        have hE : s₂.entries = setSlot s₁.entries t (index va 1) (largeEntry pa) := by
          rw [← hs₂, entries_writeEntry hi hv]
        have hwalk : ∀ p, walk childOf s₂.entries root p = walk childOf s₁.entries root p := by
          intro p
          rw [hE, Tree.walk_setSlot_same hsame]
        refine ⟨.ok (), s₂, by rw [← hs₂]; rfl, ?_, ?_, ?_, ?_, fun _ => ⟨fun p hp => ?_, t, ?_⟩,
          by simp, fun a b f hab hwa => ⟨?_, by simp⟩⟩
        · rw [← hs₂]
          refine hd.inv.writeEntry ⟨_, by simp [middle], hw⟩ hi hv
            (hd.inv.tree.setInner (by simp [middle]) hw hsame ?_ ?_)
          · exact fun _ => hok
          · exact fun hne => absurd hnone hne
        · rw [← hs₂]
          exact hd.grows.trans ⟨⟨rfl, rfl, rfl⟩, fun _ => Or.inl rfl⟩
        · intro p u hp hpu
          rw [hwalk]
          exact hd.ext.tables p u hp hpu
        · intro p hp hnot
          rw [hwalk]
          exact hd.only p hp hnot
        · rw [hE, ← hd.ext.pages p hp]
          refine ⟨fun hpre => ?_, hd.inv.tree.lookup_setHuge (by simp [middle]) hw hbit₀ hbit₇ hp⟩
          rw [lookup_of_childOf_none hw hnone hpre, if_neg hpres]
        · rw [hwalk]
          exact hw
        · rw [← hs₂]
          exact hsupply a b f hab hwa

/-- The pages `[va, va + m * LARGE_PAGE)` were unmapped, and now they map to
`[pa, pa + m * LARGE_PAGE)`; no other page changed. -/
structure Window (root va pa m : Nat) (s s' : Machine) : Prop where
  fresh : ∀ j < m, ∀ p, p.length = 4 → upper (va + j * largePage) <+: p →
    lookup s.entries root p = none
  inside : ∀ j < m, ∀ p, p.length = 4 → upper (va + j * largePage) <+: p →
    lookup s'.entries root p = some (3, largeEntry (pa + j * largePage))
  outside : ∀ p, p.length = 4 → (∀ j < m, ¬ upper (va + j * largePage) <+: p) →
    lookup s'.entries root p = lookup s.entries root p

theorem Window.cons {s₁ : Machine} {m : Nat}
    (hfirst : ∀ p, p.length = 4 → (upper va <+: p → lookup s.entries root p = none) ∧
      lookup s₁.entries root p =
        if upper va <+: p then some (3, largeEntry pa) else lookup s.entries root p)
    (h : Window root (va + largePage) (pa + largePage) m s₁ s') :
    Window root va pa (m + 1) s s' := by
  have hshift : ∀ a j, a + largePage + j * largePage = a + (j + 1) * largePage := by
    intro a j
    rw [Nat.add_mul, Nat.one_mul, Nat.add_assoc, Nat.add_comm largePage]
  -- the first page is mapped when the others are
  have hapart : ∀ p, p.length = 4 → upper va <+: p →
      ∀ j < m, ¬ upper (va + largePage + j * largePage) <+: p := by
    intro p hp hpre j hj hpre'
    have hnone := h.fresh j hj p hp hpre'
    rw [(hfirst p hp).2, if_pos hpre] at hnone
    exact absurd hnone (by simp)
  refine ⟨fun j hj p hp hpre => ?_, fun j hj p hp hpre => ?_, fun p hp hnot => ?_⟩
  · cases j with
    | zero => exact (hfirst p hp).1 (by simpa using hpre)
    | succ j =>
        rw [← hshift] at hpre
        have hnone := h.fresh j (by omega) p hp hpre
        rw [(hfirst p hp).2] at hnone
        split_ifs at hnone with hva
        exact hnone
  · cases j with
    | zero =>
        have hva : upper va <+: p := by simpa using hpre
        rw [h.outside p hp (hapart p hp hva), (hfirst p hp).2, if_pos hva]
        simp
    | succ j =>
        rw [← hshift] at hpre ⊢
        exact h.inside j (by omega) p hp hpre
  · have hva : ¬ upper va <+: p := by simpa using hnot 0 (by omega)
    rw [h.outside p hp fun j hj => by rw [hshift]; exact hnot (j + 1) (by omega),
      (hfirst p hp).2, if_neg hva]

/-- **The loop of `map_window`.** -/
theorem mapWindowLoop_spec (m : Nat) {fuel : Nat} (h : VmInv s root) (hfuel : m < fuel)
    (hstop : stop = va + m * largePage) (hlt : stop < 2 ^ 64) (hal : pa % largePage = 0)
    (hpa : pa + m * largePage ≤ 2 ^ 63) :
    ∃ r s', mapWindowLoop root windowLeaf.bits stop fuel va pa s = some (r, s') ∧ VmInv s' root ∧
      Grows s s' ∧ (r = .ok () → Window root va pa m s s') := by
  induction m generalizing fuel va pa s with
  | zero =>
      obtain ⟨fuel, rfl⟩ := Nat.exists_eq_succ_of_ne_zero (Nat.ne_of_gt hfuel)
      refine ⟨.ok (), s, ?_, h, Grows.refl s, fun _ => ⟨by simp, by simp, fun _ _ _ => rfl⟩⟩
      rw [mapWindowLoop, if_neg (by omega)]
  | succ m ih =>
      obtain ⟨fuel, rfl⟩ := Nat.exists_eq_succ_of_ne_zero (Nat.ne_of_gt (Nat.zero_lt_of_lt hfuel))
      have hlarge : (m + 1) * largePage = m * largePage + largePage := by rw [Nat.add_mul, Nat.one_mul]
      have hpos : 0 < largePage := by decide
      obtain ⟨r, s₁, hrun, hm⟩ := mapLarge_spec va h hal (show pa < 2 ^ 63 by omega)
      simp only [mapWindowLoop, if_pos (show va < stop by omega), hrun]
      cases r with
      | error e => exact ⟨_, s₁, rfl, hm.inv, hm.grows, by simp⟩
      | ok u =>
          have hva : Word.add 64 va largePage = va + largePage := Word.add_of_lt (by omega)
          have hpa' : Word.add 64 pa largePage = pa + largePage := Word.add_of_lt (by omega)
          have hstop' : stop = va + largePage + m * largePage := by omega
          have hal' : (pa + largePage) % largePage = 0 := by rw [Nat.add_mod_right, hal]
          obtain ⟨r, s', hloop, hinv', hgrows', hwin⟩ :=
            ih hm.inv (Nat.lt_of_succ_lt_succ hfuel) hstop' hal' (by omega)
          exact ⟨r, s', by simp only [hva, hpa', hloop], hinv', hm.grows.trans hgrows',
            fun hr => (hwin hr).cons (hm.ok rfl).1⟩

/-- A window that was mapped was mapped up to any earlier end. -/
theorem mapWindowLoop_take (m : Nat) {leaf fuel : Nat}
    (hrun : mapWindowLoop root leaf stop fuel va pa s = some (.ok (), s'))
    (hle : va + m * largePage ≤ stop) (hlt : stop < 2 ^ 64) :
    ∃ s₁, mapWindowLoop root leaf (va + m * largePage) fuel va pa s = some (.ok (), s₁) := by
  induction m generalizing fuel va pa s with
  | zero =>
      cases fuel with
      | zero => simp [mapWindowLoop] at hrun
      | succ fuel => exact ⟨s, by rw [mapWindowLoop, if_neg (by omega)]⟩
  | succ m ih =>
      have hlarge : (m + 1) * largePage = m * largePage + largePage := by rw [Nat.add_mul, Nat.one_mul]
      have hpos : 0 < largePage := by decide
      cases fuel with
      | zero => simp [mapWindowLoop] at hrun
      | succ fuel =>
          rw [mapWindowLoop, if_pos (by omega)] at hrun
          rw [mapWindowLoop, if_pos (by omega)]
          rcases hlargePage : s.mapLarge root va pa leaf with _ | ⟨e | u, s₁⟩
          · simp [hlargePage] at hrun
          · simp [hlargePage] at hrun
          · simp only [hlargePage] at hrun ⊢
            have hva : Word.add 64 va largePage = va + largePage := Word.add_of_lt (by omega)
            rw [hva] at hrun ⊢
            obtain ⟨s₂, hs₂⟩ := ih hrun (by omega)
            rw [show va + largePage + m * largePage = va + (m + 1) * largePage by omega] at hs₂
            exact ⟨s₂, hs₂⟩

theorem upper_add_two_pow (va : Nat) : upper (va + 2 ^ 48) = upper va := by
  simp only [upper, List.map_cons, List.map_nil, index_eq, List.cons.injEq, and_true]
  omega

/-- The tables above a large page repeat after 48 bits, so a window that was mapped does not reach
`2 ^ 48`. -/
theorem mapWindowLoop_short {m fuel : Nat} (h : VmInv s root) (hfuel : m < fuel)
    (hlt : m * largePage < 2 ^ 64)
    (hrun : mapWindowLoop root windowLeaf.bits (m * largePage) fuel 0 0 s = some (.ok (), s')) :
    m * largePage ≤ 2 ^ 48 := by
  by_contra hlong
  have hm : 2 ^ 27 + 1 ≤ m := by
    simp only [largePage] at hlong hlt
    omega
  obtain ⟨s₁, hs₁⟩ := mapWindowLoop_take (2 ^ 27 + 1) hrun
    (by rw [Nat.zero_add]; exact Nat.mul_le_mul_right _ hm) hlt
  rw [Nat.zero_add] at hs₁
  obtain ⟨r, s₂, hs₂, -, -, hwin⟩ := mapWindowLoop_spec (s := s) (2 ^ 27 + 1) h
    (show 2 ^ 27 + 1 < fuel by omega) (show _ = 0 + _ by rw [Nat.zero_add]) (by decide)
    (show 0 % largePage = 0 by decide) (by decide)
  rw [hs₂, Option.some.injEq, Prod.mk.injEq] at hs₁
  obtain ⟨rfl, rfl⟩ := hs₁
  -- the pages at 0 and at `2 ^ 48` share their slot
  have hslot : upper (0 + 2 ^ 27 * largePage) = upper (0 + 0 * largePage) := upper_add_two_pow 0
  have hnone := (hwin rfl).inside 0 (by decide) (path 0) rfl ⟨[index 0 0], rfl⟩
  have hsome := (hwin rfl).inside (2 ^ 27) (by decide) (path 0) rfl (by
    rw [hslot]
    exact ⟨[index 0 0], rfl⟩)
  rw [hnone, Option.some.injEq, Prod.mk.injEq] at hsome
  exact absurd hsome.2 (by decide)

/-- **`map_window`**, for a window of the kernel. One whose end wraps is not mapped at all. -/
theorem mapWindow_spec (va : Nat) {bytes : Nat} (h : VmInv s root) (hbytes : bytes % largePage = 0)
    (hle : bytes ≤ 2 ^ 63) :
    ∃ r s', s.mapWindow root va 0 bytes (Flags.present.with_ .writable) = some (r, s') ∧
      VmInv s' root ∧ Grows s s' ∧
      (r = .ok () → Window root va 0 (if va + bytes < 2 ^ 64 then bytes / largePage else 0) s s') := by
  have hnil : Window root va 0 0 s s := ⟨by simp, by simp, fun _ _ _ => rfl⟩
  have hdiv : bytes / largePage * largePage = bytes := Nat.div_mul_cancel (Nat.dvd_of_mod_eq_zero hbytes)
  rw [mapWindow, PageMem.mapWindow]
  by_cases hzero : bytes = 0
  · refine ⟨.ok (), s, if_pos hzero, h, Grows.refl s, fun _ => ?_⟩
    rw [hzero, Nat.zero_div, ite_self]
    exact hnil
  rw [if_neg hzero]
  by_cases hal : va % largePage ≠ 0 ∨ 0 % largePage ≠ 0 ∨ bytes % largePage ≠ 0
  · exact ⟨_, s, if_pos hal, h, Grows.refl s, by simp⟩
  rw [if_neg hal]
  by_cases hend : va + bytes < 2 ^ 64
  · rw [if_pos hend, Word.add_of_lt hend]
    exact mapWindowLoop_spec (bytes / largePage) h (by omega) (by rw [hdiv]) hend (by decide)
      (by rw [hdiv]; omega)
  · -- the end lies before the start
    rw [if_neg hend]
    refine ⟨.ok (), s, ?_, h, Grows.refl s, fun _ => hnil⟩
    have hwrap : ¬ va < Word.add 64 va bytes := by
      unfold Word.add
      omega
    simp only [mapWindowLoop, if_neg hwrap]

theorem mapWindow_ok {bytes : Nat} {u : Unit} (h : VmInv s root) (hbytes : bytes % largePage = 0)
    (hle : bytes ≤ 2 ^ 63)
    (hrun : s.mapWindow root va 0 bytes (Flags.present.with_ .writable) = some (.ok u, s')) :
    VmInv s' root ∧ Grows s s' ∧
      Window root va 0 (if va + bytes < 2 ^ 64 then bytes / largePage else 0) s s' := by
  obtain ⟨r, s₁, hrun₁, hinv, hgrows, hwin⟩ := mapWindow_spec va h hbytes hle
  obtain ⟨rfl, rfl⟩ := Prod.mk.inj (Option.some.inj (hrun.symm.trans hrun₁))
  exact ⟨hinv, hgrows, hwin rfl⟩

theorem mapWindow_short {bytes : Nat} (h : VmInv s root) (hbytes : bytes % largePage = 0)
    (hlt : bytes < 2 ^ 64)
    (hrun : s.mapWindow root 0 0 bytes (Flags.present.with_ .writable) = some (.ok (), s')) :
    bytes ≤ 2 ^ 48 := by
  have hdiv : bytes / largePage * largePage = bytes := Nat.div_mul_cancel (Nat.dvd_of_mod_eq_zero hbytes)
  rw [mapWindow, PageMem.mapWindow] at hrun
  by_cases hzero : bytes = 0
  · omega
  rw [if_neg hzero, if_neg (by simp [hbytes])] at hrun
  have hadd : Word.add 64 0 bytes = bytes / largePage * largePage := by
    rw [hdiv, Word.add_of_lt (by omega), Nat.zero_add]
  simp only [hadd] at hrun
  rw [← hdiv]
  exact mapWindowLoop_short h (Nat.lt_succ_self _) (by rw [hdiv]; exact hlt) hrun

/-- The control flow of `new_kernel`, for any functions in place of the calls, so that nothing here
unfolds them. -/
theorem newKernel_shape {σ : Type} {s' : σ} {alloc : Option (Option Nat × σ)} (zero : σ → Nat → σ)
    (base : σ → Nat) (window : σ → Nat → Nat → VmResult σ Unit) :
    (do
      match ← alloc with
      | (none, s) => return (none, s)
      | (some root, s) =>
          match ← window (zero s root) root 0 with
          | (.error _, s) => return (none, s)
          | (.ok _, s) =>
              if base s = 0 then none
              match ← window s root (base s) with
              | (.error _, s) => return (none, s)
              | (.ok _, s) => return (some root, s)) = some (some root, s') ↔
    ∃ s₁ s₂, alloc = some (some root, s₁) ∧ window (zero s₁ root) root 0 = some (.ok (), s₂) ∧
      base s₂ ≠ 0 ∧ window s₂ root (base s₂) = some (.ok (), s') := by
  constructor
  · intro hrun
    rcases alloc with _ | ⟨_ | root', s₁⟩
    · simp at hrun
    · simp at hrun
    simp only [Option.bind_eq_bind, Option.bind_some, Option.pure_def] at hrun
    rcases hfirst : window (zero s₁ root') root' 0 with _ | ⟨e | u, s₂⟩
    · simp [hfirst] at hrun
    · simp [hfirst] at hrun
    by_cases hnull : base s₂ = 0
    · simp [hfirst, hnull] at hrun
    rcases hsecond : window s₂ root' (base s₂) with _ | ⟨e | u, s₃⟩
    · simp [hfirst, hnull, hsecond] at hrun
    · simp [hfirst, hnull, hsecond] at hrun
    · simp only [hfirst, Option.bind_some, if_neg hnull, hsecond, Option.some.injEq,
        Prod.mk.injEq] at hrun
      obtain ⟨rfl, rfl⟩ := hrun
      exact ⟨s₁, s₂, rfl, hfirst, hnull, hsecond⟩
  · rintro ⟨s₁, s₂, rfl, hfirst, hnull, hsecond⟩
    simp [hfirst, hnull, hsecond]

theorem newKernel_iff {ramEnd : Nat} : s.newKernel ramEnd = some (some root, s') ↔
    ∃ s₁ s₂, s.allocFrame = some (some root, s₁) ∧
      (s₁.zeroTable root).mapWindow root 0 0 (Word.alignUp 64 ramEnd largePage)
        (Flags.present.with_ .writable) = some (.ok (), s₂) ∧
      s₂.physmapBase ≠ 0 ∧
      s₂.mapWindow root s₂.physmapBase 0 (Word.alignUp 64 ramEnd largePage)
        (Flags.present.with_ .writable) = some (.ok (), s') :=
  newKernel_shape zeroTable physmapBase (fun s root va =>
    s.mapWindow root va 0 (Word.alignUp 64 ramEnd largePage) (Flags.present.with_ .writable))

/-- **`new_kernel` gives an address space with two windows**: an identity map of RAM, and its mirror
at the physmap base. -/
theorem newKernel_spec {ramEnd : Nat} (h : s.IsCoherent)
    (hrun : s.newKernel ramEnd = some (some root, s')) :
    VmInv s' root ∧ Grows s s' ∧ Word.alignUp 64 ramEnd largePage ≤ 2 ^ 48 ∧
      ∃ s₀ s₁, (∀ p, p ≠ [] → lookup s₀.entries root p = none) ∧
        Window root 0 0 (Word.alignUp 64 ramEnd largePage / largePage) s₀ s₁ ∧
        Window root s.physmapBase 0
          (if s.physmapBase + Word.alignUp 64 ramEnd largePage < 2 ^ 64
            then Word.alignUp 64 ramEnd largePage / largePage else 0) s₁ s' := by
  obtain ⟨hal, hlt⟩ : Word.alignUp 64 ramEnd largePage % largePage = 0 ∧
    Word.alignUp 64 ramEnd largePage < 2 ^ 64 := Word.alignUp_aligned (k := 21) (by decide)
  obtain ⟨s₁, s₂, halloc, hrun₁, -, hrun₂⟩ := newKernel_iff.1 hrun
  generalize Word.alignUp 64 ramEnd largePage = W at hal hlt hrun₁ hrun₂ ⊢
  obtain ⟨L, G, hcoh⟩ := h
  obtain ⟨r, s₁', L', G', halloc', hcoh', -, ha, -, -⟩ := allocFrame_spec hcoh
  obtain ⟨rfl, rfl⟩ := Prod.mk.inj (Option.some.inj (halloc.symm.trans halloc'))
  obtain ⟨hinv₀, hgrows₀, -, hzero⟩ := VmInv.fresh ⟨L', G', hcoh'⟩ ha rfl
  have hshort := mapWindow_short hinv₀ hal hlt hrun₁
  obtain ⟨hinv₁, hgrows₁, hwin₁⟩ := mapWindow_ok hinv₀ hal (by omega) hrun₁
  obtain ⟨hinv₂, hgrows₂, hwin₂⟩ := mapWindow_ok hinv₁ hal (by omega) hrun₂
  have hgrows := hgrows₀.trans hgrows₁
  rw [if_pos (by omega)] at hwin₁
  rw [hgrows.boot.physmapBase] at hwin₂
  exact ⟨hinv₂, hgrows.trans hgrows₂, hshort, s₁.zeroTable root, s₂,
    fun p hp => Tree.lookup_empty hzero hp, hwin₁, hwin₂⟩

end Machine

end Rolnix
