import Rolnix.UserAccess
import Rolnix.ProcRegions
import Rolnix.Heap
import Mathlib.Tactic.IntervalCases

/-!
# From the boot tables to the kernel's

`entry.s` maps 4 GiB in place and the first GiB at the physmap base before the first line of Rust runs,
and everything up to `activate` runs on these tables: `pmm_init` zeroes the frame table and the heap and
links the pool through the physmap, `heap_init` writes the first block's header and `new_kernel` builds the
kernel's tables through it. Then CR3 changes under the running code.

* `HasBootTables.lookup_eq` — what the tables of `entry.s` map, exactly.
* `pmmInit_mem`, `newKernel_keepsBytes` — `pmm_init` and `new_kernel` write no byte of the kernel image,
  which the boot tables are a part of.
* `HasBootTables.no_physmap` — above 1 GiB there is no physmap yet, so `pmm_init` cannot link a free frame
  there.

**Theorem (`activation_seamless`).** On a machine with at most 1 GiB of RAM, when CR3 changes, the two sets
of tables are both in memory, and whatever the new one maps, the old one maps by the same entry: no access
moves. The new one maps all of RAM, in place and at the physmap base, with the frame table and the heap, and
with the kernel image and the stack in it if the image ends below the end of RAM. That is not for granted:
`ram_end` is the end of what is left of RAM without the image.
-/

namespace Rolnix

open Radix Relation

/-! ## The tables of `entry.s` -/

/-- Seven pages in a row in the kernel's bss. -/
structure BootPages where
  pml4 : Nat
  aligned : pml4 % frameSize = 0
  fits : pml4 + 7 * frameSize < 2 ^ 32

namespace BootPages

variable (b : BootPages)

def pdptLow : Nat := b.pml4 + frameSize
def pdptPhysmap : Nat := b.pml4 + 2 * frameSize
def pd0 : Nat := b.pml4 + 3 * frameSize
def pd1 : Nat := b.pml4 + 4 * frameSize
def pd2 : Nat := b.pml4 + 5 * frameSize
def pd3 : Nat := b.pml4 + 6 * frameSize

/-- The loop at label `1`: `ecx` entries from `edi` on. The registers have 32 bits. -/
def fillLoop : Nat → Nat → Nat → ByteMem → ByteMem
  | 0, _, _, mem => mem
  | ecx + 1, eax, edi, mem =>
      fillLoop ecx (Word.add 32 eax 0x200000) (Word.add 32 edi 8) (mem.store edi 4 eax)

/-- `movl $table, %eax; orl $0x3, %eax; movl %eax, slot`. -/
def link (table slot : Nat) (mem : ByteMem) : ByteMem := mem.store slot 4 (table ||| 0x3)

/-- What `_start` writes before it enables paging. -/
def setUp (mem : ByteMem) : ByteMem :=
  let mem := fillLoop 2048 0x83 b.pd0 mem
  let mem := link b.pd0 (b.pdptLow + 0) mem
  let mem := link b.pd0 (b.pdptPhysmap + 0) mem
  let mem := link b.pd1 (b.pdptLow + 8) mem
  let mem := link b.pd2 (b.pdptLow + 16) mem
  let mem := link b.pd3 (b.pdptLow + 24) mem
  let mem := link b.pdptLow (b.pml4 + 0) mem
  link b.pdptPhysmap (b.pml4 + 256 * 8) mem

/-- An address in the pages. -/
def Contains (x : Nat) : Prop := b.pml4 ≤ x ∧ x < b.pml4 + 7 * frameSize

/-- CR3, as a frame number. -/
def root : Nat := b.pml4 / frameSize

/-! ## Slots -/

/-- The 8-byte words of the pages, in order. Only the lower half of a word is ever written. -/
def Slots (m : ByteMem) (F : Nat → Nat) : Prop :=
  ∀ i < 3584, m.load (b.pml4 + 8 * i) 8 = F i ∧ F i < 2 ^ 32

variable {b} {m : ByteMem} {F : Nat → Nat} {i j v a : Nat}

theorem Slots.store (h : b.Slots m F) (hj : j < 3584) (ha : a = b.pml4 + 8 * j) (hv : v < 2 ^ 32) :
    b.Slots (m.store a 4 v) (Function.update F j v) := by
  subst ha
  intro i hi
  obtain ⟨hold, hlt⟩ := h i hi
  by_cases hij : i = j
  · subst hij
    have hpow : (256 : Nat) ^ 4 = 2 ^ 32 := by norm_num
    rw [show 8 = 4 + 4 from rfl, ByteMem.load_append, hpow] at hold
    have hupper : m.load (b.pml4 + (4 + 4) * i + 4) 4 = 0 := by omega
    rw [Function.update_self, show 8 = 4 + 4 from rfl, ByteMem.load_append,
      ByteMem.load_store_same_of_lt (by rw [hpow]; exact hv), ByteMem.load_store_of_disjoint (by omega),
      hupper, Nat.mul_zero, Nat.add_zero]
    exact ⟨rfl, hv⟩
  · rw [Function.update_of_ne hij, ByteMem.load_store_of_disjoint (by omega)]
    exact ⟨hold, hlt⟩

/-- **The loop** writes entries 2 MiB apart. -/
theorem Slots.fillLoop (c eax edi : Nat) (h : b.Slots m F) (hedi : edi = b.pml4 + 8 * j) (hj : j + c ≤ 3584)
    (heax : eax + c * 0x200000 < 2 ^ 32 + 0x200000) :
    b.Slots (fillLoop c eax edi m)
      (fun i => if j ≤ i ∧ i < j + c then eax + (i - j) * 0x200000 else F i) := by
  induction c generalizing j eax edi m F with
  | zero =>
      intro i hi
      dsimp only
      rw [if_neg (by omega)]
      exact h i hi
  | succ c ih =>
      have hfits := b.fits
      simp only [frameSize] at hfits
      have hnext := h.store (by omega) hedi (show eax < 2 ^ 32 by omega)
      have hedi' : Word.add 32 edi 8 = b.pml4 + 8 * (j + 1) := by
        rw [Word.add_of_lt (by omega)]
        omega
      have hrest := ih (Word.add 32 eax 0x200000) (Word.add 32 edi 8) hnext hedi' (by omega)
        (by unfold Word.add; omega)
      intro i hi
      obtain ⟨hload, hlt⟩ := hrest i hi
      rw [BootPages.fillLoop, hload]
      dsimp only at hlt ⊢
      by_cases hij : i = j
      · subst hij
        rw [if_neg (by omega), Function.update_self, if_pos (by omega), Nat.sub_self, Nat.zero_mul, Nat.add_zero]
        exact ⟨rfl, by omega⟩
      · rw [Function.update_of_ne hij] at hlt ⊢
        by_cases hin : j ≤ i ∧ i < j + (c + 1)
        · -- there is another entry, so the address has not wrapped
          have hwrap : Word.add 32 eax 0x200000 = eax + 0x200000 := Word.add_of_lt (by omega)
          rw [if_pos (by omega), hwrap] at hlt
          rw [if_pos (by omega), if_pos hin, hwrap]
          omega
        · rw [if_neg (by omega)] at hlt
          rw [if_neg (by omega), if_neg hin]
          exact ⟨rfl, hlt⟩

theorem Slots.link {table : Nat} (h : b.Slots m F) (hj : j < 3584) (ha : a = b.pml4 + 8 * j)
    (ht : table < 2 ^ 32) : b.Slots (link table a m) (Function.update F j (table ||| 0x3)) :=
  h.store hj ha (Nat.or_lt_two_pow ht (by decide))

/-- The words that `setUp` leaves, counted over all seven pages. -/
def slot (b : BootPages) (i : Nat) : Nat :=
  if i = 256 then b.pdptPhysmap ||| 0x3
  else if i = 0 then b.pdptLow ||| 0x3
  else if i = 515 then b.pd3 ||| 0x3
  else if i = 514 then b.pd2 ||| 0x3
  else if i = 513 then b.pd1 ||| 0x3
  else if i = 1024 then b.pd0 ||| 0x3
  else if i = 512 then b.pd0 ||| 0x3
  else if 1536 ≤ i ∧ i < 1536 + 2048 then 0x83 + (i - 1536) * 0x200000
  else 0

theorem page_lt (b : BootPages) {k : Nat} (hk : k ≤ 6) : b.pml4 + k * frameSize < 2 ^ 32 :=
  lt_of_le_of_lt (Nat.add_le_add_left (Nat.mul_le_mul_right _ (by omega)) _) b.fits

theorem slots_zero (hzero : ∀ x, b.Contains x → m x = 0) : b.Slots m fun _ => 0 := by
  intro i hi
  have hload : m.load (b.pml4 + 8 * i) 8 = 0 % 256 ^ 8 := by
    refine ByteMem.load_eq_of_bytes fun k hk => ?_
    rw [hzero _ ⟨by omega, by simp only [frameSize]; omega⟩, Nat.zero_div]
    rfl
  exact ⟨hload, Nat.two_pow_pos 32⟩

/-- **What `setUp` leaves** in pages that the loader has zeroed. -/
theorem slots_setUp (hzero : ∀ x, b.Contains x → m x = 0) : b.Slots (b.setUp m) b.slot := by
  have h := (slots_zero hzero).fillLoop 2048 0x83 b.pd0 (j := 1536) (by simp only [pd0, frameSize])
    (by decide) (by decide)
  unfold setUp
  generalize BootPages.fillLoop 2048 0x83 b.pd0 m = m at h ⊢
  have h₁ := h.link (a := b.pdptLow + 0) (j := 512) (by decide) rfl (b.page_lt (k := 3) (by decide))
  have h₂ := h₁.link (a := b.pdptPhysmap + 0) (j := 1024) (by decide) rfl (b.page_lt (k := 3) (by decide))
  have h₃ := h₂.link (a := b.pdptLow + 8) (j := 513) (by decide) rfl (b.page_lt (k := 4) (by decide))
  have h₄ := h₃.link (a := b.pdptLow + 16) (j := 514) (by decide) rfl (b.page_lt (k := 5) (by decide))
  have h₅ := h₄.link (a := b.pdptLow + 24) (j := 515) (by decide) rfl (b.page_lt (k := 6) (by decide))
  have h₆ := h₅.link (a := b.pml4 + 0) (j := 0) (by decide) rfl (b.page_lt (k := 1) (by decide))
  have h₇ := h₆.link (a := b.pml4 + 256 * 8) (j := 256) (by decide) rfl (b.page_lt (k := 2) (by decide))
  intro i hi
  have hslot := h₇ i hi
  simp only [Function.update_apply] at hslot
  exact hslot

end BootPages

/-! ## The walk -/

namespace Machine

variable {s s' : Machine} {b : BootPages} {root va : Nat}

/-- The boot tables are in memory. -/
def HasBootTables (s : Machine) (b : BootPages) : Prop := b.Slots s.mem b.slot

theorem HasBootTables.entries (h : s.HasBootTables b) {k i : Nat} (hk : k < 7) (hi : i < 512) :
    s.entries (b.root + k) i = b.slot (512 * k + i) := by
  have hal := b.aligned
  rw [entries_of_lt hi, readEntry, ← (h _ (by omega)).1]
  congr 1
  simp only [framePhys, BootPages.root, frameSize] at hal ⊢
  omega

theorem childOf_page (b : BootPages) {k : Nat} (hk : k < 7) :
    childOf (b.pml4 + k * frameSize ||| 0x3) = some (b.root + k) := by
  have hal := b.aligned
  have hfits := b.fits
  have hphys : b.pml4 + k * frameSize = framePhys (b.root + k) := by
    simp only [framePhys, BootPages.root, frameSize] at hal ⊢
    omega
  have hlt : b.root + k < 2 ^ 32 := by
    simp only [BootPages.root, frameSize] at hfits ⊢
    omega
  rw [hphys, ← childOf_tableEntry (Or.inl (rfl : 0 = 0)) hlt, tableEntry, Nat.or_zero, Nat.or_assoc]
  rfl

theorem largeEntry_eq {pa : Nat} (hpa : pa % largePage = 0) : largeEntry pa = 0x83 + pa := by
  have hsplit : pa = 2 ^ 21 * (pa / 2 ^ 21) := by
    simp only [largePage] at hpa
    omega
  rw [largeEntry, show windowLeaf.bits = 0x83 by decide, hsplit, ← Nat.two_pow_add_eq_or_of_lt (by decide),
    Nat.add_comm]

theorem lookup_large {E : Nat → Nat → Nat} {i j k l t u pa : Nat} (ht : childOf (E root i) = some t)
    (hu : childOf (E t j) = some u) (hpa : pa % largePage = 0) (hlt : pa < 2 ^ 63)
    (he : E u k = largeEntry pa) : lookup E root [i, j, k, l] = some (3, largeEntry pa) := by
  obtain ⟨hpres, hhuge, -⟩ := largeEntry_inner hpa hlt
  have hnone : childOf (E u k) = none := by
    rw [he]
    exact childOf_eq_none.2 (Or.inr hhuge)
  rw [lookup, trail_cons_of_some ht, trail_cons_of_some hu, trail_cons_of_none hnone, he]
  simpa using hpres

theorem lookup_of_root_zero {E : Nat → Nat → Nat} {i : Nat} {p : List Nat} (h : E root i = 0) :
    lookup E root (i :: p) = none := by
  rw [lookup, trail_cons_of_none (by rw [h]; exact childOf_zero), h]
  rfl

theorem lookup_of_second_zero {E : Nat → Nat → Nat} {i j t : Nat} {p : List Nat}
    (ht : childOf (E root i) = some t) (h : E t j = 0) : lookup E root (i :: j :: p) = none := by
  rw [lookup, trail_cons_of_some ht, trail_cons_of_none (by rw [h]; exact childOf_zero), h]
  simp

/-- **What the tables of `entry.s` map:** 4 GiB in place and 1 GiB at the physmap base. -/
theorem HasBootTables.lookup_eq (h : s.HasBootTables b) (hva : va < 2 ^ 64) (hc : isCanonical va = true) :
    lookup s.entries b.root (path va) =
      if physMapBase ≤ va ∧ va < physMapBase + 2 ^ 30 then
        some (3, largeEntry ((va - physMapBase) / largePage * largePage))
      else if va < 2 ^ 32 then some (3, largeEntry (va / largePage * largePage))
      else none := by
  rw [isCanonical_iff hva] at hc
  have hroot : ∀ i < 512, s.entries b.root i = b.slot i := fun i hi => by
    simpa using h.entries (show 0 < 7 by decide) hi
  have hlow : childOf (s.entries b.root 0) = some (b.root + 1) := by
    rw [hroot 0 (by decide)]
    simpa [BootPages.slot, BootPages.pdptLow] using childOf_page b (show 1 < 7 by decide)
  have hhigh : childOf (s.entries b.root 256) = some (b.root + 2) := by
    rw [hroot 256 (by decide)]
    exact childOf_page b (show 2 < 7 by decide)
  -- the page of the directories that a slot is in
  have hdir : ∀ k < 4, ∀ i < 512, s.entries (b.root + (3 + k)) i = largeEntry ((512 * k + i) * largePage) := by
    intro k hk i hi
    rw [h.entries (by omega) hi, largeEntry_eq (Nat.mul_mod_left _ _)]
    unfold BootPages.slot
    rw [if_neg (by omega), if_neg (by omega), if_neg (by omega), if_neg (by omega), if_neg (by omega),
      if_neg (by omega), if_neg (by omega), if_pos (by omega)]
    simp only [largePage]
    omega
  have hlarge : largePage = 2 ^ 21 := by decide
  have hbase : physMapBase = 2 ^ 64 - 2 ^ 47 := by decide
  simp only [path, List.map_cons, List.map_nil, index_eq, Nat.reduceMul, Nat.reduceAdd]
  rw [hlarge, hbase]
  by_cases hwin : 2 ^ 64 - 2 ^ 47 ≤ va ∧ va < 2 ^ 64 - 2 ^ 47 + 2 ^ 30
  · rw [if_pos hwin, show va / 2 ^ 39 % 512 = 256 by omega, show va / 2 ^ 30 % 512 = 0 by omega]
    refine lookup_large hhigh (u := b.root + (3 + 0)) ?_ (Nat.mul_mod_left _ _) (by omega) ?_
    · rw [h.entries (show 2 < 7 by decide) (show 0 < 512 by decide)]
      exact childOf_page b (show 3 < 7 by decide)
    · rw [hdir 0 (by decide) _ (by omega)]
      refine congrArg largeEntry ?_
      rw [hlarge]
      omega
  rw [if_neg hwin]
  by_cases hid : va < 2 ^ 32
  · rw [if_pos hid, show va / 2 ^ 39 % 512 = 0 by omega]
    have hk : va / 2 ^ 30 % 512 < 4 := by omega
    refine lookup_large hlow (u := b.root + (3 + va / 2 ^ 30 % 512)) ?_ (Nat.mul_mod_left _ _) (by omega) ?_
    · rw [h.entries (show 1 < 7 by decide) (by omega)]
      have hchild := childOf_page b (show 3 + va / 2 ^ 30 % 512 < 7 by omega)
      revert hk hchild
      generalize va / 2 ^ 30 % 512 = k
      intro hk hchild
      rw [← hchild]
      interval_cases k <;> rfl
    · rw [hdir _ hk _ (by omega)]
      refine congrArg largeEntry ?_
      rw [hlarge]
      omega
  rw [if_neg hid]
  by_cases hfirst : va < 2 ^ 39
  · rw [show va / 2 ^ 39 % 512 = 0 by omega]
    refine lookup_of_second_zero hlow ?_
    rw [h.entries (show 1 < 7 by decide) (by omega)]
    unfold BootPages.slot
    repeat rw [if_neg (by omega)]
  by_cases hsecond : 2 ^ 64 - 2 ^ 47 ≤ va ∧ va < 2 ^ 64 - 2 ^ 47 + 2 ^ 39
  · rw [show va / 2 ^ 39 % 512 = 256 by omega]
    refine lookup_of_second_zero hhigh ?_
    rw [h.entries (show 2 < 7 by decide) (by omega)]
    unfold BootPages.slot
    repeat rw [if_neg (by omega)]
  refine lookup_of_root_zero ?_
  rw [hroot _ (by omega)]
  unfold BootPages.slot
  repeat rw [if_neg (by omega)]

/-- Above 1 GiB the boot tables have no physmap: linking a free frame there faults. -/
theorem HasBootTables.no_physmap (h : s.HasBootTables b) {f : Nat} (hf : 2 ^ 30 ≤ framePhys f)
    (hlt : framePhys f < 2 ^ 44) : s.mmu b.root (physMapBase + framePhys f) = none := by
  have hbase : physMapBase = 2 ^ 64 - 2 ^ 47 := by decide
  unfold mmu
  split_ifs with hc
  · rw [h.lookup_eq (by omega) hc, if_neg (by omega), if_neg (by omega), Option.map_none]
  · rfl

theorem HasBootTables.congr (h : s.HasBootTables b) (hmem : ∀ x, b.Contains x → s'.mem x = s.mem x) :
    s'.HasBootTables b := by
  intro i hi
  have hload : s'.mem.load (b.pml4 + 8 * i) 8 = s.mem.load (b.pml4 + 8 * i) 8 :=
    ByteMem.load_congr fun x hle hlt => hmem x ⟨by omega, by simp only [frameSize]; omega⟩
  rw [hload]
  exact h i hi

end Machine

/-! ## What `pmm_init` writes -/

theorem table_mem {ftPhys total bytes x : Nat} {s s' : Machine} (hft : ftPhys < 2 ^ 64)
    (hbase : s.physmapBase < 2 ^ 64)
    (h : Returns (do let ftVa ← physToVirt ftPhys; initTableZeroed ftVa total bytes) s () s')
    (hx : x < ftPhys ∨ ftPhys + bytes ≤ x) : s'.mem x = s.mem x := by
  obtain ⟨ftVa, s₁, hva, h⟩ := returns_bind.1 h
  obtain ⟨rfl, rfl⟩ := physToVirt_returns hva
  obtain ⟨-, -, rfl⟩ := initTableZeroed_returns h
  refine ByteMem.fill_of_not_mem ?_
  rw [Word.sub_add_cancel hft hbase]
  exact hx

theorem heap_mem {bootAlloc : BootAllocator} {heapLen ftEnd heapEnd x : Nat} {s s' : Machine}
    (hbase : s.physmapBase < 2 ^ 64) (h : Returns (carveHeap bootAlloc heapLen ftEnd) s heapEnd s')
    (hx : heapLen ≠ 0 → x < Word.sub 64 heapEnd heapLen ∨ Word.sub 64 heapEnd heapLen + heapLen ≤ x) :
    s'.mem x = s.mem x := by
  unfold carveHeap at h
  split_ifs at h with hlen
  · rcases halloc : bootAlloc.alloc heapLen frameSize with ⟨_ | hp, bootAlloc'⟩
    · simp only [halloc] at h
      exact absurd h returns_throw
    have hfits := BootAllocator.alloc_lt halloc
    simp only [halloc] at h
    obtain ⟨hv, s₁, hva, h₁⟩ := returns_bind.1 h
    obtain ⟨rfl, rfl⟩ := physToVirt_returns hva
    obtain ⟨⟨⟩, s₂, hzero, h₂⟩ := returns_bind.1 h₁
    obtain rfl := returns_modify.1 hzero
    obtain ⟨rfl, rfl⟩ := returns_pure.1 h₂
    have hstart : Word.sub 64 (Word.add 64 hp heapLen) heapLen = hp := by
      unfold Word.sub Word.add
      omega
    rw [hstart] at hx
    refine ByteMem.fill_of_not_mem ?_
    rw [Word.sub_add_cancel (by omega) hbase]
    exact hx hlen
  · obtain ⟨-, rfl⟩ := returns_pure.1 h
    rfl

namespace Machine

variable {s s' : Machine} {n x : Nat}

theorem mem_setListNext {f v : Nat} (hx : x / frameSize ≠ f) : (s.setListNext f v).mem x = s.mem x := by
  refine ByteMem.store_of_not_mem ?_
  simp only [framePhys, frameSize] at hx ⊢
  omega

/-- The scan writes free frames only: the pending next word is in one. -/
theorem scanFree_mem {sc : Scan Machine} (h : s.scanFree n = some sc) :
    (sc.head = listEnd ∧ sc.prev = listEnd ∨ (s.frames sc.prev).isFree = true) ∧
      ∀ x, (s.frames (x / frameSize)).isFree = false → sc.s.mem x = s.mem x := by
  induction n generalizing sc with
  | zero =>
      obtain rfl := Option.some.inj h
      exact ⟨Or.inl ⟨rfl, rfl⟩, fun _ _ => rfl⟩
  | succ idx ih =>
      obtain ⟨sc', hsc', h⟩ := Option.bind_eq_some_iff.1 h
      obtain ⟨hprev, hmem⟩ := ih hsc'
      obtain ⟨mem, hs⟩ := scanFree_state hsc'
      obtain ⟨free, hinfo, h⟩ := Option.bind_eq_some_iff.1 h
      rw [isFree_eq] at hinfo
      obtain ⟨info, hframe, rfl⟩ := Option.map_eq_some_iff.1 hinfo
      have hinfo' : info = s.frames idx := by
        rw [← (frameInfo_eq_some.1 hframe).2.2, hs]
      subst hinfo'
      split_ifs at h with hfree hhead
      · obtain rfl := Option.some.inj h
        exact ⟨Or.inr hfree, hmem⟩
      · obtain rfl := Option.some.inj h
        refine ⟨Or.inr hfree, fun x hx => ?_⟩
        have hlast := hprev.resolve_left fun he => hhead he.1
        refine (mem_setListNext fun he => ?_).trans (hmem x hx)
        rw [he, hlast] at hx
        exact absurd hx (by decide)
      · obtain rfl := Option.some.inj h
        exact ⟨hprev, hmem⟩

theorem buildGlobalFreelist_mem {count : Nat} (h : s.buildGlobalFreelist = some (count, s'))
    (hx : (s.frames (x / frameSize)).isFree = false) : s'.mem x = s.mem x := by
  obtain ⟨sc, hsc, h⟩ := Option.bind_eq_some_iff.1 h
  obtain ⟨hprev, hmem⟩ := scanFree_mem hsc
  dsimp only at h
  split_ifs at h with hempty
  obtain ⟨-, rfl⟩ := Prod.mk.inj (Option.some.inj h)
  show (PoolMem.closeScan sc).mem x = s.mem x
  unfold PoolMem.closeScan
  split_ifs with hlast
  · have hfree := hprev.resolve_left fun he => hlast he.2
    exact (mem_setListNext fun he => by rw [he, hfree] at hx; exact absurd hx (by decide)).trans (hmem x hx)
  · exact hmem x hx

end Machine

open Machine

section Init

variable {boot : BootInfo} {specs : List UntypedSpec} {outUntyped caps : List UntypedCap}
  {heapLen ftPhys heapPhys heapEnd x : Nat} {mem : ByteMem} {info : PmInitOut}
  {s s₁ s₂ s₃ s₄ s₅ s₆ : Machine} {regions before after : List MemoryRegion} {r : MemoryRegion}
  {bootAlloc : BootAllocator}

/-- **What `pmm_init` writes:** the frame table, the heap and the frames of the pool. -/
theorem InitRun.mem_eq (h : InitRun boot specs outUntyped heapLen (Machine.reset mem) info caps s
      regions ftPhys heapEnd bootAlloc s₁ s₂ s₃ s₄ s₅ s₆) (hbase : boot.physmapBase < 2 ^ 64)
    (htable : ¬ s.InTable x) (hheap : ¬ info.InHeap x)
    (hfree : (s.frames (x / frameSize)).isFree = false) : s.mem x = mem x := by
  have hft : ftPhys < 2 ^ 64 := by
    have := BootAllocator.alloc_lt h.frameTable
    omega
  obtain ⟨htab, hnum⟩ := h.tablePhys hft hbase
  have htotal : info.totalFrames = ceilDiv (maxUsableEnd regions) frameSize := by rw [h.info]
  have hlen : info.heapLen = heapLen := by rw [h.info]
  have hphys : info.heapPhys = if heapLen ≠ 0 then Word.sub 64 heapEnd heapLen else 0 := by rw [h.info]
  have h₁ := setPhysmapBase_returns h.physmap
  obtain ⟨-, h₂⟩ := buildEffective_returns h.effective
  have hbase₂ : s₂.physmapBase < 2 ^ 64 := by
    rw [h₂, h₁]
    exact hbase
  have h₃ : s₃.mem x = s₂.mem x := by
    refine table_mem hft hbase₂ h.table ?_
    rw [InTable, htab, hnum, htotal] at htable
    omega
  have hbase₃ : s₃.physmapBase < 2 ^ 64 := by
    obtain ⟨ftVa, s₀, hva, hinit⟩ := returns_bind.1 h.table
    obtain ⟨-, rfl⟩ := physToVirt_returns hva
    obtain ⟨-, -, rfl⟩ := initTableZeroed_returns hinit
    exact hbase₂
  have h₄ : s₄.mem x = s₃.mem x := by
    refine heap_mem hbase₃ h.heap fun hne => ?_
    rw [PmInitOut.InHeap, hphys, hlen, if_pos hne] at hheap
    omega
  have h₆ : s₆.mem = s₄.mem := h.survives (P := fun s => s.mem = s₄.mem) (fun _ _ _ _ he => he) rfl
  rw [buildGlobalFreelist_frames h.pool] at hfree
  rw [buildGlobalFreelist_mem h.pool hfree, h₆, h₄, h₃, h₂, h₁]
  rfl

namespace PmmPlaced

theorem area_region (h : PmmPlaced boot specs heapLen info s heapPhys heapEnd before r after)
    (hmap : boot.MapOk) (hfits : boot.ImageFits) (hx : s.InTable x ∨ info.InHeap x) :
    ∃ q ∈ boot.effective, q.kind = .usable ∧ q.start ≤ x ∧ x < q.end := by
  have hmem : r ∈ boot.effective := by rw [h.layout.split]; simp
  have hroom := h.layout.fits.2
  have htable := h.layout.table
  rcases hx with hx | hx
  · rw [InTable, h.numFrames, htable] at hx
    exact ⟨r, hmem, h.layout.fits.1, hx.1, by omega⟩
  · rw [PmInitOut.InHeap, h.heapPhys_eq, h.heapLen_eq] at hx
    by_cases hlen : heapLen = 0
    · rw [if_pos hlen, hlen] at hx
      omega
    rw [if_neg hlen] at hx
    have hpos : 0 < info.totalFrames * FrameInfo.size := Nat.mul_pos h.total_pos (by decide)
    have horder := effective_endsBefore hmap (imageStart_le_imageEnd hfits)
    have hafter := h.layout.heap_after h.aligned horder hpos hlen
    rcases h.layout.heap hlen with ⟨-, hle⟩ | ⟨-, mid, r', last, hsplit, -, hfits', hstart⟩
    · exact ⟨r, hmem, h.layout.fits.1, by omega, by omega⟩
    · have hle := hfits'.2
      refine ⟨r', ?_, hfits'.1, by omega, by omega⟩
      rw [h.layout.split, hsplit]
      simp

theorem image_clear (h : PmmPlaced boot specs heapLen info s heapPhys heapEnd before r after)
    (hmap : boot.MapOk) (hfits : boot.ImageFits) (hx : boot.InImage x) : ¬ (s.InTable x ∨ info.InHeap x) := by
  intro hin
  obtain ⟨_, _, _, _, _, hout⟩ := exists_effective_iff.1 (h.area_region hmap hfits hin)
  exact hout ((inImage_iff hfits).1 hx)

theorem reserved_frame (h : PmmPlaced boot specs heapLen info s heapPhys heapEnd before r after)
    (hu64 : boot.IsU64) (hmap : boot.MapOk) (himage : boot.kernelImage.1 + boot.kernelImage.2 < 2 ^ 63)
    (hx : boot.InImage x ∨ info.InHeap x) : (s.frames (x / frameSize)).ownerTag = .reserved := by
  by_contra hres
  have hframe : InFrame (x / frameSize) x := ⟨Nat.div_mul_le_self x frameSize, by simp only [frameSize]; omega⟩
  obtain ⟨-, hnot, -, hnot'⟩ := h.clear hu64 hmap himage hres hframe
  exact hx.elim hnot hnot'

end PmmPlaced

/-- **`pmm_init` leaves the kernel image as it is.** -/
theorem pmmInit_mem (hu64 : boot.IsU64) (hmap : boot.MapOk)
    (himage : boot.kernelImage.1 + boot.kernelImage.2 < 2 ^ 63)
    (h : Returns (pmmInit boot specs outUntyped heapLen) (Machine.reset mem) (info, caps) s)
    (hx : boot.InImage x) : s.mem x = mem x := by
  obtain ⟨heapPhys, heapEnd, before, r, after, hplaced⟩ := pmmInit_placed hu64 hmap h
  obtain ⟨htable, hheap⟩ := not_or.1 (hplaced.image_clear hmap (imageFits_of_lt himage) hx)
  have hres := hplaced.reserved_frame hu64 hmap himage (Or.inl hx)
  obtain ⟨regions, ftPhys, heapEnd', bootAlloc, s₁, s₂, s₃, s₄, s₅, s₆, hrun⟩ := pmmInit_returns h
  refine hrun.mem_eq hu64.physmap htable hheap ?_
  rw [FrameInfo.isFree, hres]
  rfl

end Init

/-! ## What `new_kernel` writes -/

namespace Machine

variable {s s' s'' : Machine} {root va pa leaf stop : Nat} {r : Except MapError Unit}

/-- Reserved frames keep their bytes. -/
def KeepsBytes (s s' : Machine) : Prop :=
  ∀ x, (s.frames (x / frameSize)).ownerTag = .reserved → s'.mem x = s.mem x

theorem KeepsBytes.trans (h : KeepsBytes s s') (hres : KeepsReserved s s') (h' : KeepsBytes s' s'') :
    KeepsBytes s s'' :=
  fun x hx => (h' x (hres _ hx)).trans (h x hx)

theorem not_free_of_reserved {info : FrameInfo} (h : info.ownerTag = .reserved) : info.owner ≠ .free := by
  intro hfree
  rw [FrameInfo.ownerTag, hfree] at h
  exact absurd h (by decide)

theorem VmInv.aside_of_reserved {f : Nat} (h : VmInv s root) (hf : (s.frames f).ownerTag = .reserved) :
    s.Aside root f := by
  refine ⟨not_free_of_reserved hf, fun hin => ?_⟩
  obtain ⟨-, hkernel⟩ := h.isTable hin
  rw [FrameInfo.ownerTag, hkernel] at hf
  exact absurd hf (by decide)

theorem mapLarge_keepsBytes (h : VmInv s root) (hrun : s.mapLarge root va pa leaf = some (r, s')) :
    KeepsBytes s s' := by
  obtain ⟨r₁, s₁, hrun₁, hd⟩ := descend_spec va [3, 2] h (q := []) rfl (by simp) (Or.inl rfl)
    (fun hne => absurd rfl hne)
  intro x hx
  obtain ⟨haside, hmem⟩ := hd.aside _ (h.aside_of_reserved hx)
  simp only [mapLarge, PageMem.mapLarge, PageMem.readEntry, PageMem.writeEntry, hrun₁] at hrun
  cases r₁ with
  | error e =>
      obtain ⟨-, rfl⟩ := Prod.mk.inj (Option.some.inj hrun)
      exact hmem x rfl
  | ok t =>
      dsimp only at hrun
      split_ifs at hrun
      · obtain ⟨-, rfl⟩ := Prod.mk.inj (Option.some.inj hrun)
        exact hmem x rfl
      · obtain ⟨-, rfl⟩ := Prod.mk.inj (Option.some.inj hrun)
        rw [mem_writeEntry_of_aside ⟨_, by simp, (hd.ok t rfl).1⟩ (index_lt va 1) haside]
        exact hmem x rfl

theorem mapWindowLoop_keepsBytes (m : Nat) {fuel : Nat} (h : VmInv s root)
    (hstop : stop = va + m * largePage) (hlt : stop < 2 ^ 64) (hal : pa % largePage = 0)
    (hpa : pa + m * largePage ≤ 2 ^ 63)
    (hrun : mapWindowLoop root windowLeaf.bits stop fuel va pa s = some (r, s')) : KeepsBytes s s' := by
  induction m generalizing fuel va pa s with
  | zero =>
      cases fuel with
      | zero => simp [mapWindowLoop] at hrun
      | succ fuel =>
          rw [mapWindowLoop, if_neg (by omega)] at hrun
          obtain ⟨-, rfl⟩ := Prod.mk.inj (Option.some.inj hrun)
          exact fun _ _ => rfl
  | succ m ih =>
      cases fuel with
      | zero => simp [mapWindowLoop] at hrun
      | succ fuel =>
          have hlarge : (m + 1) * largePage = m * largePage + largePage := by rw [Nat.add_mul, Nat.one_mul]
          have hpos : 0 < largePage := by decide
          obtain ⟨r₁, s₁, hrun₁, hm⟩ := mapLarge_spec va h hal (show pa < 2 ^ 63 by omega)
          have hkeeps := mapLarge_keepsBytes h hrun₁
          simp only [mapWindowLoop, if_pos (show va < stop by omega), hrun₁] at hrun
          cases r₁ with
          | error e =>
              obtain ⟨-, rfl⟩ := Prod.mk.inj (Option.some.inj hrun)
              exact hkeeps
          | ok u =>
              dsimp only at hrun
              rw [Word.add_of_lt (show va + largePage < 2 ^ 64 by omega),
                Word.add_of_lt (show pa + largePage < 2 ^ 64 by omega)] at hrun
              exact hkeeps.trans hm.grows.keepsReserved
                (ih hm.inv (by omega) (by rw [Nat.add_mod_right, hal]) (by omega) hrun)

theorem mapWindow_keepsBytes {bytes : Nat} (h : VmInv s root) (hbytes : bytes % largePage = 0)
    (hle : bytes ≤ 2 ^ 63) (hwrap : va + bytes < 2 ^ 64)
    (hrun : s.mapWindow root va 0 bytes (Flags.present.with_ .writable) = some (r, s')) : KeepsBytes s s' := by
  have hdiv : bytes / largePage * largePage = bytes := Nat.div_mul_cancel (Nat.dvd_of_mod_eq_zero hbytes)
  rw [mapWindow, PageMem.mapWindow] at hrun
  split_ifs at hrun
  · obtain ⟨-, rfl⟩ := Prod.mk.inj (Option.some.inj hrun)
    exact fun _ _ => rfl
  · obtain ⟨-, rfl⟩ := Prod.mk.inj (Option.some.inj hrun)
    exact fun _ _ => rfl
  · rw [Word.add_of_lt hwrap] at hrun
    exact mapWindowLoop_keepsBytes (bytes / largePage) h (by rw [hdiv]) hwrap (by decide) (by omega) hrun

/-- **`new_kernel` leaves reserved memory as it is.** -/
theorem newKernel_keepsBytes {ramEnd : Nat} (h : s.IsCoherent) (hram : ramEnd ≤ 2 ^ 44)
    (hbase : PhysmapOk s.physmapBase (windowBytes ramEnd))
    (hrun : s.newKernel ramEnd = some (some root, s')) : KeepsBytes s s' := by
  obtain ⟨hal, -, hlt⟩ := windowBytes_spec ramEnd
  have hlarge : largePage = 2 ^ 21 := by decide
  obtain ⟨s₁, s₂, halloc, hrun₁, -, hrun₂⟩ := newKernel_iff.1 hrun
  rw [alignUp_ramEnd hram] at hrun₁ hrun₂
  obtain ⟨L, G, hcoh⟩ := h
  obtain ⟨r, s₁', L', G', halloc', hcoh', -, ha, -, -⟩ := allocFrame_spec hcoh
  obtain ⟨rfl, rfl⟩ := Prod.mk.inj (Option.some.inj (halloc.symm.trans halloc'))
  obtain ⟨hinv₀, hgrows₀, -, -⟩ := VmInv.fresh ⟨L', G', hcoh'⟩ ha rfl
  have hkeeps₀ : KeepsBytes s (s₁.zeroTable root) := by
    intro x hx
    have hne : x / frameSize ≠ root := by
      rintro rfl
      exact not_free_of_reserved hx (ha.some _ rfl).2.1
    rw [← ha.mem x (not_free_of_reserved hx)]
    refine ByteMem.fill_of_not_mem ?_
    simp only [framePhys, frameSize] at hne ⊢
    omega
  obtain ⟨hinv₁, hgrows₁, -⟩ := mapWindow_ok hinv₀ hal (by omega) hrun₁
  have hgrows := hgrows₀.trans hgrows₁
  rw [hgrows.boot.physmapBase] at hrun₂
  have hkeeps₁ := mapWindow_keepsBytes hinv₀ hal (by omega) (by omega) hrun₁
  have hkeeps₂ := mapWindow_keepsBytes hinv₁ hal (by omega) hbase.no_wrap hrun₂
  exact (hkeeps₀.trans hgrows₀.keepsReserved hkeeps₁).trans hgrows.keepsReserved hkeeps₂

end Machine

/-! ## The switch -/

theorem windowBytes_le {ramEnd : Nat} (h : ramEnd ≤ 2 ^ 30) : windowBytes ramEnd ≤ 2 ^ 30 := by
  simp only [windowBytes, largePage]
  omega

theorem physmapOk_of_le {ramEnd : Nat} (h : ramEnd ≤ 2 ^ 30) : PhysmapOk physMapBase (windowBytes ramEnd) := by
  have hwin := windowBytes_le h
  have hbase : physMapBase = 2 ^ 64 - 2 ^ 47 := by decide
  exact ⟨by decide, by decide, by omega⟩

/-- **Whatever the kernel's table maps, the boot tables map by the same entry.** -/
theorem Machine.HasBootTables.covers {s s' : Machine} {b : BootPages} {ramEnd root va : Nat} {e : Nat × Nat}
    (h : s'.HasBootTables b) (hcoh : s.IsCoherent) (hbase : s.physmapBase = physMapBase)
    (hram : ramEnd ≤ 2 ^ 30) (hnew : s.newKernel ramEnd = some (some root, s')) (hva : va < 2 ^ 64)
    (hc : isCanonical va = true) (he : lookup s'.entries root (path va) = some e) :
    lookup s'.entries b.root (path va) = some e := by
  have hwin := windowBytes_le hram
  have hpm : physMapBase = 2 ^ 64 - 2 ^ 47 := by decide
  rw [newKernel_lookup hcoh (by omega) (hbase ▸ physmapOk_of_le hram) hnew hva hc, hbase] at he
  rw [h.lookup_eq hva hc]
  split_ifs at he with hhigh hlow
  · rw [if_pos ⟨hhigh.1, lt_of_lt_of_le hhigh.2 (Nat.add_le_add_left hwin _)⟩]
    exact he
  · rw [if_neg (by omega), if_pos (by omega)]
    exact he

/-- Install the kernel heap over the region `pmm_init` carved out, through the physmap. -/
def Machine.installHeap (s : Machine) (info : PmInitOut) : Option (Heap × Machine) :=
  let view : ByteMem := fun va => s.mem (Word.sub 64 va s.physmapBase)
  ((Heap.empty view).heapInit (Word.add 64 s.physmapBase info.heapPhys) info.heapLen).map fun heap =>
    (heap, { s with mem := fun pa =>
      if pa < 2 ^ 64 then heap.mem (Word.add 64 s.physmapBase pa) else s.mem pa })

section Switch

variable {boot : BootInfo} {b : BootPages} {specs : List UntypedSpec} {outUntyped caps : List UntypedCap}
  {heapLen root : Nat} {mem m : ByteMem} {info : PmInitOut} {s s' : Machine}

theorem pmmInit_physmap (hu64 : boot.IsU64)
    (h : Returns (pmmInit boot specs outUntyped heapLen) (Machine.reset mem) (info, caps) s) :
    s.physmapBase = boot.physmapBase ∧ info.ramEnd = maxUsableEnd boot.effective ∧
      info.ramEnd % frameSize = 0 := by
  obtain ⟨regions, ftPhys, heapEnd, bootAlloc, s₁, s₂, s₃, s₄, s₅, s₆, hrun⟩ := pmmInit_returns h
  obtain ⟨-, -, -, -, hphys, -⟩ := hrun.unmarked
  obtain ⟨rfl, -⟩ := buildEffective_returns hrun.effective
  refine ⟨by rw [hrun.kept.2.1, hphys], by rw [hrun.info], ?_⟩
  rw [hrun.info]
  exact (maxUsableEnd_aligned (effective_aligned hu64 hrun.aligned)).1

theorem pmmInit_hasBootTables (hu64 : boot.IsU64) (hmap : boot.MapOk)
    (himage : boot.kernelImage.1 + boot.kernelImage.2 < 2 ^ 63)
    (hpages : ∀ x, b.Contains x → boot.InImage x ∧ mem x = 0)
    (h : Returns (pmmInit boot specs outUntyped heapLen) (Machine.reset (b.setUp mem)) (info, caps) s) :
    s.HasBootTables b := by
  have hstart : (Machine.reset (b.setUp mem)).HasBootTables b :=
    BootPages.slots_setUp fun x hx => (hpages x hx).2
  exact hstart.congr fun x hx => pmmInit_mem hu64 hmap himage h (hpages x hx).1

theorem installHeap_spec (hbase : s.physmapBase = physMapBase)
    (hend : info.heapPhys + info.heapLen ≤ 2 ^ 30) {heap : Heap}
    (h : s.installHeap info = some (heap, s')) :
    s' = { s with mem := s'.mem } ∧ ∀ x, ¬ info.InHeap x → s'.mem x = s.mem x := by
  obtain ⟨heap', hinit, heq⟩ := Option.map_eq_some_iff.1 h
  obtain ⟨rfl, rfl⟩ := Prod.mk.inj heq
  refine ⟨rfl, fun x hx => ?_⟩
  rw [Heap.heapInit] at hinit
  split_ifs at hinit with hal hlarge
  obtain rfl := Option.some.inj hinit
  dsimp only [Heap.setSize, Heap.setNext, Heap.empty]
  split_ifs with hlt
  · -- the header is in the heap
    have hout : Word.add 64 s.physmapBase x < Word.add 64 s.physmapBase info.heapPhys ∨
        Word.add 64 s.physmapBase info.heapPhys + 16 ≤ Word.add 64 s.physmapBase x := by
      rw [PmInitOut.InHeap] at hx
      simp only [hbase, Word.add, minFree, physMapBase] at hlarge ⊢
      omega
    rw [ByteMem.store_of_not_mem (by omega), ByteMem.store_of_not_mem (by omega),
      Word.sub_add_cancel hlt (by rw [hbase]; decide)]
  · rfl

theorem coherent_of_heap (hu64 : boot.IsU64) (hmap : boot.MapOk)
    (himage : boot.kernelImage.1 + boot.kernelImage.2 < 2 ^ 63)
    (h : Returns (pmmInit boot specs outUntyped heapLen) (Machine.reset mem) (info, caps) s)
    (hheap : ∀ x, ¬ info.InHeap x → m x = s.mem x) : Machine.IsCoherent { s with mem := m } := by
  obtain ⟨heapPhys, heapEnd, before, r, after, hplaced⟩ := pmmInit_placed hu64 hmap h
  obtain ⟨⟨L, G, hcoh⟩, -⟩ := pmmInit_coherent hmap.below16TiB h
  refine ⟨L, G, hcoh.write fun x _ hfree => hheap x fun hin => ?_⟩
  exact not_free_of_reserved (hplaced.reserved_frame hu64 hmap himage (Or.inr hin)) hfree

theorem heapEnd_le {heap : Heap} {n : Nat} (hin : ∀ x, info.InHeap x → x < info.ramEnd)
    (hram : info.ramEnd ≤ n) (h : s.installHeap info = some (heap, s')) :
    info.heapPhys + info.heapLen ≤ n := by
  obtain ⟨heap', hinit, -⟩ := Option.map_eq_some_iff.1 h
  rw [Heap.heapInit] at hinit
  split_ifs at hinit with hal hlarge
  simp only [minFree] at hlarge
  have hlast := hin (info.heapPhys + info.heapLen - 1) ⟨by omega, by omega⟩
  omega

end Switch

/-- **Execution goes on when CR3 changes**, on a machine with at most 1 GiB of RAM and an image that ends
below the end of RAM. -/
theorem activation_seamless {boot : BootInfo} {b : BootPages} {specs : List UntypedSpec}
    {outUntyped caps : List UntypedCap} {heapLen root : Nat} {mem : ByteMem} {info : PmInitOut}
    {heap : Heap} {s s₁ s' : Machine} (hu64 : boot.IsU64) (hmap : boot.MapOk)
    (hbase : boot.physmapBase = physMapBase)
    (hpages : ∀ x, b.Contains x → boot.InImage x ∧ mem x = 0)
    (hinit : Returns (pmmInit boot specs outUntyped heapLen) (Machine.reset (b.setUp mem)) (info, caps) s)
    (hram : info.ramEnd ≤ 2 ^ 30) (himage : boot.kernelImage.1 + boot.kernelImage.2 ≤ info.ramEnd)
    (hheap : s.installHeap info = some (heap, s₁))
    (hnew : s₁.newKernel info.ramEnd = some (some root, s')) :
    s.HasBootTables b ∧ s'.HasBootTables b ∧
      (∀ va < 2 ^ 64, isCanonical va = true → ∀ e, lookup s'.entries root (path va) = some e →
        lookup s'.entries b.root (path va) = some e) ∧
      (∀ x < info.ramEnd, s'.translate root x = some x ∧ s'.translate root (physMapBase + x) = some x) ∧
      ∀ x, boot.InImage x ∨ s.InTable x ∨ info.InHeap x → x < info.ramEnd := by
  have himage' : boot.kernelImage.1 + boot.kernelImage.2 < 2 ^ 63 := by omega
  have hfits := imageFits_of_lt himage'
  obtain ⟨heapPhys, heapEnd, before, r, after, hplaced⟩ := pmmInit_placed hu64 hmap hinit
  obtain ⟨hphys, hend, hal⟩ := pmmInit_physmap hu64 hinit
  rw [hbase] at hphys
  have hboot := pmmInit_hasBootTables hu64 hmap himage' hpages hinit
  have hinside : ∀ x, s.InTable x ∨ info.InHeap x → x < info.ramEnd := by
    intro x hx
    obtain ⟨q, hq, hu, -, hlt⟩ := hplaced.area_region hmap hfits hx
    rw [hend]
    exact lt_of_lt_of_le hlt (le_maxUsableEnd hq hu)
  have hheapEnd : info.heapPhys + info.heapLen ≤ 2 ^ 30 := heapEnd_le (fun x hx => hinside x (Or.inr hx)) hram
    hheap
  obtain ⟨hs₁, hkept⟩ := installHeap_spec hphys hheapEnd hheap
  have hphys₁ : s₁.physmapBase = physMapBase := by rw [hs₁, hphys]
  have hframes : s₁.frames = s.frames := by rw [hs₁]
  have hcoh : s₁.IsCoherent := hs₁ ▸ coherent_of_heap hu64 hmap himage' hinit hkept
  have hok : PhysmapOk s₁.physmapBase (windowBytes info.ramEnd) := hphys₁ ▸ physmapOk_of_le hram
  have hkeeps := newKernel_keepsBytes hcoh (by omega) hok hnew
  have hboot' : s'.HasBootTables b := by
    refine hboot.congr fun x hx => ?_
    have himg := (hpages x hx).1
    rw [hkeeps x (hframes ▸ hplaced.reserved_frame hu64 hmap himage' (Or.inl himg))]
    exact hkept x (not_or.1 (hplaced.image_clear hmap hfits himg)).2
  have hpm : physMapBase = 2 ^ 64 - 2 ^ 47 := by decide
  have hle := (windowBytes_spec info.ramEnd).2.1
  have hwin := windowBytes_le hram
  have htrans : ∀ w < 2 ^ 64, s'.translate root w = kernelTranslate (windowBytes info.ramEnd) physMapBase w :=
    fun w hw => hphys₁ ▸ newKernel_translate hcoh (by omega) hok hnew hw
  refine ⟨hboot, hboot', fun va hva hc e he => hboot'.covers hcoh hphys₁ hram hnew hva hc he,
    fun x hx => ⟨?_, ?_⟩, fun x hx => ?_⟩
  · rw [htrans x (by omega), kernelTranslate, if_pos (by omega)]
  · rw [htrans _ (by omega), kernelTranslate, if_neg (by omega), if_pos (by omega), Nat.add_sub_cancel_left]
  · rcases hx with ⟨-, -, hlt⟩ | hx
    · simp only [frameSize] at hlt hal
      omega
    · exact hinside x hx

/-- An image of seven pages at 1 MiB, and RAM behind it. -/
def imageBoot : BootInfo where
  physmapBase := physMapBase
  regions := [⟨0x100000, 24 * frameSize, .usable⟩]
  kernelImage := (0x100000, 7 * frameSize)

theorem activation_seamless_small :
    ∃ (b : BootPages) (info : PmInitOut) (heap : Heap) (s s₁ s' : Machine) (root : Nat),
      s.installHeap info = some (heap, s₁) ∧ s₁.newKernel info.ramEnd = some (some root, s') ∧
        s'.HasBootTables b ∧ s'.translate root b.pml4 = some b.pml4 := by
  have hrun : ((finish (pmmInit imageBoot [] [] 0x1000)
      (reset ((BootPages.mk 0x100000 (by decide) (by decide)).setUp fun _ => 0))).bind fun r =>
      (r.2.installHeap r.1.1).bind fun q => (q.2.newKernel r.1.1.ramEnd).map fun t =>
        decide (r.1.1.ramEnd = 0x118000 ∧ t.1.isSome = true)) = some true := by
    decide +kernel
  obtain ⟨⟨⟨info, caps⟩, s⟩, hinit, hrun⟩ := Option.bind_eq_some_iff.1 hrun
  obtain ⟨⟨heap, s₁⟩, hheap, hrun⟩ := Option.bind_eq_some_iff.1 hrun
  obtain ⟨⟨o, s'⟩, hnew, hrun⟩ := Option.map_eq_some_iff.1 hrun
  obtain ⟨hend, hsome⟩ := of_decide_eq_true hrun
  obtain ⟨root, rfl⟩ := Option.isSome_iff_exists.1 hsome
  have hmap : imageBoot.MapOk := ⟨by decide, List.pairwise_singleton _ _, by decide⟩
  have hpages : ∀ x, (BootPages.mk 0x100000 (by decide) (by decide)).Contains x →
      imageBoot.InImage x ∧ (0 : UInt8) = 0 := by
    intro x hx
    obtain ⟨hle, hlt⟩ := hx
    have hlow : imageBoot.kernelImage.1 / frameSize * frameSize = 0x100000 := by decide
    have hhigh : (imageBoot.kernelImage.1 + imageBoot.kernelImage.2 + (frameSize - 1)) / frameSize * frameSize =
        0x100000 + 7 * frameSize := by decide
    exact ⟨⟨by decide, hlow ▸ hle, hhigh ▸ hlt⟩, rfl⟩
  dsimp only at hend
  obtain ⟨-, hboot, -, hmapped, -⟩ := activation_seamless ⟨by decide, by decide, by decide⟩ hmap rfl hpages
    (returns_of_finish hinit) (by rw [hend]; decide) (by rw [hend]; decide) hheap hnew
  exact ⟨_, info, heap, s, s₁, s', root, hheap, hnew, hboot, (hmapped _ (by rw [hend]; decide)).1⟩

end Rolnix
