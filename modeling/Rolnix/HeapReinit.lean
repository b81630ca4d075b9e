import Rolnix.HeapFit

/-!
# `heap_init` is single-shot until the heap is full

`heap_init` refuses to run twice by looking at the head of the free list, not at a flag. The head is
null in one more case: when the whole heap is handed out.

* `single_shot_iff`: in every state that requests without wrapping lead to, a second `heap_init` is
  refused exactly if the first one was given a region that does not start at 0 and some byte of it is
  not handed out.
* `full_heap_reinit`: one allocation of 48 bytes fills a heap of 64, and the second `heap_init` forgets
  it.
-/

namespace Rolnix

open Linked Interval Relation

/-- A region that passes the assertions of `heap_init` on its arguments. -/
structure HeapRegion (start size : Nat) : Prop where
  start_mod : start % header = 0
  size_mod : size % header = 0
  large : minFree ≤ size

/-- `heap_init` fails the assertion "heap already initialized", whatever region it is given. -/
def Heap.Refuses (h : Heap) : Prop :=
  ∀ start size, HeapRegion start size → h.heapInit start size = none

/-- The assertion is about the head of the free list. -/
theorem Heap.refuses_iff {h : Heap} : h.Refuses ↔ h.head ≠ 0 := by
  constructor
  · intro hrefuses hhead
    have hnone := hrefuses 16 32 ⟨rfl, rfl, le_rfl⟩
    rw [Heap.heapInit, if_pos ⟨rfl, rfl⟩, if_pos (by decide), if_pos hhead] at hnone
    cases hnone
  · intro hhead start size hregion
    rw [Heap.heapInit, if_pos ⟨hregion.start_mod, hregion.size_mod⟩, if_pos hregion.large,
      if_neg hhead]

namespace HeapInv

variable {start len : Nat} {h : Heap} {F : List Nat} {live : List Live}

theorem bytes_add (hi : HeapInv start len h F live) :
    (F.map h.blockSize).sum + h.allocated = len := by
  have hsum := hi.shape.partition.sum hi.shape.blocks_pos
  rw [blocks, blockBases, List.map_map, List.map_append, List.sum_append, List.map_map] at hsum
  rw [hi.allocated]
  exact hsum

/-- **The free list is empty exactly if everything is handed out.** -/
theorem head_eq_zero_iff (hi : HeapInv start len h F live) : h.head = 0 ↔ h.allocated = len := by
  rw [← hi.shape.chain.eq_nil_iff]
  have hadd := hi.bytes_add
  cases F with
  | nil =>
      refine iff_of_true rfl ?_
      simpa using hadd
  | cons a F =>
      have hlarge := hi.shape.large a (Shape.mem_bases_of_free List.mem_cons_self)
      refine iff_of_false (List.cons_ne_nil a F) ?_
      rw [List.map_cons, List.sum_cons] at hadd
      omega

end HeapInv

/-! ## A heap at address 0 -/

section Null

variable {h h₀ : Heap} {size : Nat} {st : HeapState}

theorem Heap.heapAlloc_of_head (hhead : h.head = 0) (n align : Nat) :
    h.heapAlloc n align = some (0, h) := by
  have hchain : Chain h.blockNext 0 h.head [] := by
    rw [hhead]
    exact chain_nil
  obtain ⟨l₁, l₂, hl, -, -, hscan⟩ := hchain.scan_eq (h.fits n (max align header)) 0
    (show ([] : List Nat).length < 2 ^ 64 by decide)
  obtain ⟨rfl, rfl⟩ := List.append_eq_nil_iff.1 hl.symm
  rw [Heap.heapAlloc]
  dsimp only
  rw [Heap.firstFit, hscan]
  rfl

/-- The address of the first block is the null pointer, so the heap has no block. -/
theorem null_run (hinit : h.heapInit 0 size = some h₀) (hrun : ReflTransGen ClearStep ⟨h₀, []⟩ st) :
    st.heap.head = 0 := by
  have hinv : st.heap.head = 0 ∧ st.live = [] := by
    induction hrun with
    | refl =>
        unfold Heap.heapInit at hinit
        split_ifs at hinit
        obtain rfl := Option.some.inj hinit
        exact ⟨rfl, rfl⟩
    | tail _ hstep ih =>
        obtain ⟨hhead, hlive⟩ := ih
        cases hstep with
        | fail hreq halloc =>
            rw [Heap.heapAlloc_of_head hhead] at halloc
            obtain ⟨-, rfl⟩ := Prod.mk.inj (Option.some.inj halloc)
            exact ⟨hhead, hlive⟩
        | alloc hreq hfit halloc hne =>
            rw [Heap.heapAlloc_of_head hhead] at halloc
            exact absurd (Prod.mk.inj (Option.some.inj halloc)).1.symm hne
        | free hl hfree => exact absurd hlive (List.ne_nil_of_mem hl)
        | write hl ha ha' => exact absurd hlive (List.ne_nil_of_mem hl)
  exact hinv.1

end Null

/-! ## Runs -/

section Run

variable {h h₀ : Heap} {start size : Nat} {st : HeapState}

/-- **A second `heap_init` is refused** in every state that requests without wrapping lead to, unless
the heap is at address 0 or completely handed out. -/
theorem single_shot_iff (hroom : start + size ≤ 2 ^ 64) (hinit : h.heapInit start size = some h₀)
    (hrun : ReflTransGen ClearStep ⟨h₀, []⟩ st) :
    st.heap.Refuses ↔ start ≠ 0 ∧ st.heap.heapAllocated ≠ size := by
  rw [Heap.refuses_iff]
  by_cases hstart : start = 0
  · subst hstart
    refine iff_of_false ?_ fun hand => hand.1 rfl
    exact not_not.2 (null_run hinit hrun)
  · obtain ⟨F, hi⟩ := HeapState.clear_run hstart hroom hinit hrun
    rw [and_iff_right hstart]
    exact not_congr hi.head_eq_zero_iff

/-- A heap of 64 bytes, with nothing allocated. -/
theorem single_shot_small :
    ∃ h₀, (Heap.empty fun _ => 0).heapInit 4096 64 = some h₀ ∧ h₀.Refuses := by
  obtain ⟨h₀, hinit, -, -⟩ := heap64_clear
  have hnone : h₀.heapAllocated = 0 := by
    obtain rfl := Option.some.inj hinit
    rfl
  refine ⟨h₀, hinit, (single_shot_iff (by decide) hinit ReflTransGen.refl).2 ⟨by decide, ?_⟩⟩
  rw [show (⟨h₀, []⟩ : HeapState).heap.heapAllocated = 0 from hnone]
  decide

end Run

/-- **A full heap is initialized again.** The request for 48 bytes takes the whole heap. The second
`heap_init` succeeds while its pointer is live, and counts nothing as allocated. -/
theorem full_heap_reinit :
    ∃ h₀ h₁ h₂, (Heap.empty fun _ => 0).heapInit 4096 64 = some h₀ ∧
      ClearStep ⟨h₀, []⟩ ⟨h₁, [⟨4112, 48, 4096⟩]⟩ ∧ HeapRegion 4096 64 ∧
      h₁.heapInit 4096 64 = some h₂ ∧ h₁.heapAllocated = 64 ∧ h₂.heapAllocated = 0 ∧
      ¬ h₁.Refuses := by
  obtain ⟨h₀, hinit⟩ : ∃ h₀, (Heap.empty fun _ => 0).heapInit 4096 64 = some h₀ := ⟨_, rfl⟩
  have hreq : Request 4096 64 48 8 := ⟨by decide, ⟨3, rfl⟩, by decide⟩
  obtain ⟨⟨F, hi⟩, -⟩ := inv_heapInit (by decide) (by decide) hinit
  have hclear := hreq.allClear hi
  have hfit : h₀.firstFit 48 (max 8 header) = some (0, 4096) := by
    obtain rfl := Option.some.inj hinit
    decide +kernel
  have halloc : (h₀.heapAlloc 48 8).map (fun r => (r.1, r.2.head, r.2.allocated)) =
      some (4112, 0, 64) := by
    obtain rfl := Option.some.inj hinit
    decide +kernel
  obtain ⟨⟨p, h₁⟩, halloc, heq⟩ := Option.map_eq_some_iff.1 halloc
  obtain ⟨rfl, heq'⟩ := Prod.mk.inj heq
  obtain ⟨hhead, hbytes⟩ := Prod.mk.inj heq'
  have hstep : ClearStep ⟨h₀, []⟩ ⟨h₁, [⟨4112, 48, 4096⟩]⟩ :=
    RequestStep.alloc ⟨by decide, ⟨3, rfl⟩, hclear⟩ hfit halloc (by decide)
  have hregion : HeapRegion 4096 64 := ⟨by decide, by decide, by decide⟩
  have hagain : h₁.heapInit 4096 64 = some { (h₁.setSize 4096 64).setNext 4096 0 with
      head := 4096, allocated := 0, total := 64 } := by
    rw [Heap.heapInit, if_pos ⟨by decide, by decide⟩, if_pos (by decide), if_pos hhead]
  refine ⟨h₀, h₁, _, hinit, hstep, hregion, hagain, hbytes, rfl, fun hrefuses => ?_⟩
  exact Heap.refuses_iff.1 hrefuses hhead

end Rolnix
