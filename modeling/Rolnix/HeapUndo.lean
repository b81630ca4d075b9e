import Rolnix.HeapFit

/-!
# Frees undo allocations

`heap_free` has four branches, by which of its neighbours the block touches, and two frees may take
different ones depending on their order. The result does not depend on it: free blocks never touch,
so the free list is determined by the bytes it covers (`Interval.Gapped.eq_of_covered`), and these
are the bytes outside of the live blocks (`HeapInv.unique`).

* `frees_undo`: in every state that requests without wrapping lead to, freeing what was just
  allocated restores the free list, the order of frees does not matter, and freeing everything leaves
  one block.
* `null_loses_heap`: after a request that wraps nothing is live, and the heap is not one block.
-/

namespace Rolnix

open Linked Interval Relation

namespace Heap

/-- The free list: addresses and sizes, in list order. -/
def freeList (h : Heap) : Option (List (Nat × Nat)) :=
  (collect h.blockNext 0 (2 ^ 64) h.head).map (blocks h.blockSize)

/-- Free some pointers, one after the other. -/
def freeAll (h : Heap) : List Live → Option Heap
  | [] => some h
  | l :: ls => do
      let h ← h.heapFree l.payload
      h.freeAll ls

/-- The heaps have the same free list and the same count of allocated bytes. -/
def SameFree (h h' : Heap) : Prop :=
  (∃ bs, h.freeList = some bs ∧ h'.freeList = some bs) ∧ h.allocated = h'.allocated

end Heap

/-! ## The free list is determined by the live blocks -/

namespace HeapInv

variable {start len : Nat} {h h' : Heap} {F F' : List Nat} {live : List Live}

theorem freeList_eq (hi : HeapInv start len h F live) (hroom : start + len ≤ 2 ^ 64) :
    h.freeList = some (blocks h.blockSize F) := by
  rw [Heap.freeList, hi.shape.chain.collect_eq (hi.shape.length_lt hroom)]
  rfl

theorem covered_eq (hi : HeapInv start len h F live) :
    Covered (blocks h.blockSize F) = HeapState.FreeByte start len ⟨h, live⟩ := by
  funext x
  exact propext (@freeByte_iff start len ⟨h, live⟩ F x hi).symm

/-- **Two heaps with the same live blocks have the same free list.** -/
theorem unique (hi : HeapInv start len h F live) (hi' : HeapInv start len h' F' live)
    (hroom : start + len ≤ 2 ^ 64) (hsize : ∀ l ∈ live, h'.blockSize l.base = h.blockSize l.base) :
    h'.SameFree h := by
  have hcov : Covered (blocks h'.blockSize F') = Covered (blocks h.blockSize F) := by
    rw [hi'.covered_eq, hi.covered_eq]
    funext x
    apply propext
    refine and_congr_right fun _ => forall_congr' fun l => forall_congr' fun hl => ?_
    rw [hsize l hl]
  have hblocks := hi'.gapped.eq_of_covered hi.gapped hi'.blocks_pos hi.blocks_pos hcov
  refine ⟨⟨_, hi'.freeList_eq hroom, ?_⟩, ?_⟩
  · rw [hi.freeList_eq hroom, hblocks]
  · rw [hi'.allocated, hi.allocated, liveBytes_congr hsize]

/-- **Without live blocks the heap is one free block.** -/
theorem freeList_of_idle (hi : HeapInv start len h F []) (hroom : start + len ≤ 2 ^ 64)
    (hlen : 0 < len) : h.freeList = some [(start, len)] ∧ h.allocated = 0 := by
  refine ⟨?_, hi.allocated⟩
  have hcov : Covered (blocks h.blockSize F) = Covered [(start, len)] := by
    rw [hi.covered_eq]
    funext x
    simp [HeapState.FreeByte, Covered, Contains]
  rw [hi.freeList_eq hroom, hi.gapped.eq_of_covered (List.pairwise_singleton _ _) hi.blocks_pos
    (by simpa using hlen) hcov]

theorem freeAll_spec (hi : HeapInv start len h F live) (hroom : start + len ≤ 2 ^ 64)
    {ls : List Live} (hls : ls.Subperm live) :
    ∃ h' F', h.freeAll ls = some h' ∧ HeapInv start len h' F' (live.diff ls) ∧
      ∀ l ∈ live.diff ls, h'.blockSize l.base = h.blockSize l.base := by
  induction ls generalizing h F live with
  | nil => exact ⟨h, F, rfl, hi, fun _ _ => rfl⟩
  | cons l ls ih =>
      have hl : l ∈ live := hls.subset List.mem_cons_self
      obtain ⟨h₁, F₁, hfree, hi₁, hsize₁, -⟩ := Heap.heapFree_spec hi hroom hl
      have hrest : ls.Subperm (live.erase l) := by
        have herase := hls.erase l
        rwa [List.erase_cons_head] at herase
      obtain ⟨h₂, F₂, hfrees, hi₂, hsize₂⟩ := ih hi₁ hrest
      rw [List.diff_cons]
      refine ⟨h₂, F₂, ?_, hi₂, fun l' hl' => ?_⟩
      · rw [Heap.freeAll, hfree]
        exact hfrees
      · rw [hsize₂ l' hl', hsize₁ l' (List.diff_subset _ _ hl')]

end HeapInv

/-! ## Runs -/

/-- In the state `st` of the heap `[start, start + size)`, frees undo allocations, the order of frees
does not matter, and freeing everything leaves one block. -/
structure FreesUndo (start size : Nat) (st : HeapState) : Prop where
  undo : ∀ n align p h', 0 < n → (∃ k, align = 2 ^ k) → st.heap.AllClear n align →
    st.heap.heapAlloc n align = some (p, h') → p ≠ 0 →
    ∃ h₁, h'.heapFree p = some h₁ ∧ h₁.SameFree st.heap
  commute : ∀ ls ls', ls.Subperm st.live → ls'.Perm ls →
    ∃ h₁ h₂, st.heap.freeAll ls = some h₁ ∧ st.heap.freeAll ls' = some h₂ ∧ h₂.SameFree h₁
  idle : ∃ h₁, st.heap.freeAll st.live = some h₁ ∧ h₁.freeList = some [(start, size)] ∧
    h₁.allocated = 0

section Run

variable {h h₀ : Heap} {start size : Nat} {st : HeapState}

theorem size_of_heapInit (hinit : h.heapInit start size = some h₀) : 0 < size := by
  unfold Heap.heapInit at hinit
  split_ifs at hinit with _ hlarge
  exact Nat.lt_of_lt_of_le (by decide) hlarge

/-- **Frees undo allocations** in every state that requests without wrapping lead to. -/
theorem frees_undo (hstart : start ≠ 0) (hroom : start + size ≤ 2 ^ 64)
    (hinit : h.heapInit start size = some h₀) (hrun : ReflTransGen ClearStep ⟨h₀, []⟩ st) :
    FreesUndo start size st := by
  obtain ⟨F, hi⟩ := HeapState.clear_run hstart hroom hinit hrun
  refine ⟨?_, ?_, ?_⟩
  · intro n align p h' hpos hpow hclear halloc hne
    obtain ⟨hnull, -⟩ | ⟨F₁, cur, F₂, h₁, F', -, -, -, -, hfound, -, -, hi', hsize⟩ :=
      Heap.heapAlloc_clear hi hroom hpos hpow hclear
    · exact absurd (Prod.mk.inj (Option.some.inj (hnull.symm.trans halloc))).1.symm hne
    obtain ⟨rfl, rfl⟩ := Prod.mk.inj (Option.some.inj (hfound.symm.trans halloc))
    -- the block just taken is the first live one
    obtain ⟨h₂, F'', hfree, hi'', hsize', -⟩ := Heap.heapFree_spec hi' hroom List.mem_cons_self
    rw [List.erase_cons_head] at hi'' hsize'
    exact ⟨h₂, hfree, hi.unique hi'' hroom fun l hl => (hsize' l hl).trans (hsize l hl)⟩
  · intro ls ls' hls hperm
    obtain ⟨h₁, F₁, hfree₁, hi₁, hsize₁⟩ := hi.freeAll_spec hroom hls
    obtain ⟨h₂, F₂, hfree₂, hi₂, hsize₂⟩ := hi.freeAll_spec hroom (hperm.subperm.trans hls)
    rw [List.Perm.diff_left st.live hperm] at hi₂ hsize₂
    exact ⟨h₁, h₂, hfree₁, hfree₂,
      hi₁.unique hi₂ hroom fun l hl => (hsize₂ l hl).trans (hsize₁ l hl).symm⟩
  · have hnil : ∀ ls : List Live, ls.diff ls = [] := by
      intro ls
      induction ls with
      | nil => rfl
      | cons l ls ih => rw [List.diff_cons, List.erase_cons_head, ih]
    obtain ⟨h₁, F₁, hfree, hi₁, -⟩ := hi.freeAll_spec hroom (List.Subperm.refl st.live)
    rw [hnil] at hi₁
    exact ⟨h₁, hfree, hi₁.freeList_of_idle hroom (size_of_heapInit hinit)⟩

/-- One allocation from a heap of 64 bytes. -/
theorem frees_undo_small :
    ∃ h₀ h₁, (Heap.empty fun _ => 0).heapInit 4096 64 = some h₀ ∧
      FreesUndo 4096 64 ⟨h₁, [⟨4112, 8, 4096⟩]⟩ := by
  obtain ⟨h₀, hinit, hclear, halloc⟩ := heap64_clear
  have hfit : h₀.firstFit 8 (max 8 header) = some (0, 4096) := by
    obtain rfl := Option.some.inj hinit
    decide +kernel
  obtain ⟨⟨p, h₁⟩, halloc, rfl⟩ := Option.map_eq_some_iff.1 halloc
  have hstep : ClearStep ⟨h₀, []⟩ ⟨h₁, [⟨4112, 8, 4096⟩]⟩ :=
    RequestStep.alloc ⟨by decide, ⟨3, rfl⟩, hclear⟩ hfit halloc (by decide)
  exact ⟨h₀, h₁, hinit, frees_undo (by decide) (by decide) hinit (ReflTransGen.single hstep)⟩

end Run

/-- **A null pointer that costs a block.** The heap is where the kernel's is, and the alignment is
`2 ^ 48`. The payload's address wraps to zero, so nothing is live after the request, and still bytes
count as allocated. -/
theorem null_loses_heap :
    ∃ h₀ h₁, (Heap.empty fun _ => 0).heapInit 0xffff800000800000 0x800000 = some h₀ ∧
      AllocLayout 8 (2 ^ 48) ∧ h₀.heapAlloc 8 (2 ^ 48) = some (0, h₁) ∧ h₁.allocated ≠ 0 ∧
      ¬ FreesUndo 0xffff800000800000 0x800000 ⟨h₁, []⟩ := by
  obtain ⟨h₀, hinit⟩ : ∃ h₀, (Heap.empty fun _ => 0).heapInit 0xffff800000800000 0x800000 = some h₀ :=
    ⟨_, rfl⟩
  have halloc : (h₀.heapAlloc 8 (2 ^ 48)).map (fun r => (r.1, decide (r.2.allocated = 0))) =
      some (0, false) := by
    obtain rfl := Option.some.inj hinit
    decide +kernel
  obtain ⟨⟨p, h₁⟩, halloc, heq⟩ := Option.map_eq_some_iff.1 halloc
  obtain ⟨rfl, hbytes⟩ := Prod.mk.inj heq
  have hne : h₁.allocated ≠ 0 := of_decide_eq_false hbytes
  refine ⟨h₀, h₁, hinit, ⟨by decide, ⟨48, rfl⟩, by decide⟩, halloc, hne, fun hundo => ?_⟩
  obtain ⟨h₂, hfree, -, hzero⟩ := hundo.idle
  obtain rfl := Option.some.inj hfree
  exact hne hzero

end Rolnix
