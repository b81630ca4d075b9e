import Rolnix.HeapProof
import Mathlib.Logic.Relation

/-!
# The heap over whole runs

A run is any sequence of allocations, releases of live pointers and client writes into live
payloads. Which layouts are asked for is a parameter of the step (`RequestStep`): the invariant holds
as long as `heap_alloc` serves them as it should (`HeapState.Inv.request_step`). `heap_structure` and
`heap_payload_safe` read off what it says in every reachable state.
-/

namespace Rolnix

open Linked Interval Relation

/-! ## Runs -/

/-- The heap and the pointers handed out. -/
structure HeapState where
  heap : Heap
  live : List Live

/-- One call, or one byte written by the client that holds a pointer. The layouts asked for are those
that `Asks` allows of the heap as it is. -/
inductive RequestStep (Asks : Heap → Nat → Nat → Prop) : HeapState → HeapState → Prop
  | fail {h h' : Heap} {live : List Live} {size align : Nat} (hreq : Asks h size align)
      (halloc : h.heapAlloc size align = some (0, h')) : RequestStep Asks ⟨h, live⟩ ⟨h', live⟩
  | alloc {h h' : Heap} {live : List Live} {size align prev base payload : Nat}
      (hreq : Asks h size align)
      (hfit : h.firstFit size (max align header) = some (prev, base))
      (halloc : h.heapAlloc size align = some (payload, h')) (hne : payload ≠ 0) :
      RequestStep Asks ⟨h, live⟩ ⟨h', ⟨payload, size, base⟩ :: live⟩
  | free {h h' : Heap} {live : List Live} {l : Live} (hl : l ∈ live)
      (hfree : h.heapFree l.payload = some h') : RequestStep Asks ⟨h, live⟩ ⟨h', live.erase l⟩
  | write {h : Heap} {live : List Live} {l : Live} {a : Nat} {c : UInt8} (hl : l ∈ live)
      (ha : l.payload ≤ a) (ha' : a < l.payload + l.size) :
      RequestStep Asks ⟨h, live⟩ ⟨{ h with mem := h.mem.poke a c }, live⟩

/-- The requests are small against the space above the region. -/
abbrev HeapStep (start len : Nat) : HeapState → HeapState → Prop :=
  RequestStep fun _ size align => Request start len size align

/-- The invariant of a run. Pointers are live only if the region ends in the address space. -/
def HeapState.Inv (start len : Nat) (st : HeapState) : Prop :=
  (∃ F, HeapInv start len st.heap F st.live) ∧ (st.live = [] ∨ start + len ≤ 2 ^ 64)

namespace HeapState

variable {start len : Nat} {st st' : HeapState}

theorem Inv.room (hi : st.Inv start len) {l : Live} (hl : l ∈ st.live) : start + len ≤ 2 ^ 64 := by
  rcases hi.2 with hnil | hroom
  · rw [hnil] at hl
    simp at hl
  · exact hroom

/-- What a request does if it is served: null and nothing, or the first block that fits. -/
def Served (start len : Nat) (h : Heap) (live : List Live) (size align : Nat) : Prop :=
  start + len ≤ 2 ^ 64 ∧ (h.heapAlloc size align = some (0, h) ∨
    ∃ prev cur p h' F', h.firstFit size (max align header) = some (prev, cur) ∧
      h.heapAlloc size align = some (p, h') ∧ p ≠ 0 ∧ HeapInv start len h' F' (⟨p, size, cur⟩ :: live))

/-- **The step lemma**, for any requests that are served. -/
theorem Inv.request_step {Asks : Heap → Nat → Nat → Prop}
    (hserved : ∀ {h F live size align}, HeapInv start len h F live → Asks h size align →
      Served start len h live size align) (hi : st.Inv start len) (hstep : RequestStep Asks st st') :
    st'.Inv start len := by
  obtain ⟨⟨F, hinv⟩, hroom⟩ := id hi
  cases hstep with
  | fail hreq halloc =>
      rcases hserved hinv hreq with ⟨-, h0 | ⟨prev, cur, p, h₁, F', -, hp, hne, -⟩⟩
      · rw [h0] at halloc
        obtain ⟨-, rfl⟩ := Prod.mk.inj (Option.some.inj halloc)
        exact hi
      · rw [hp] at halloc
        exact absurd (Prod.mk.inj (Option.some.inj halloc)).1 hne
  | alloc hreq hfit halloc hne =>
      rcases hserved hinv hreq with ⟨hr, h0 | ⟨prev, cur, p, h₁, F', hfit', hp, -, hinv'⟩⟩
      · rw [h0] at halloc
        exact absurd (Prod.mk.inj (Option.some.inj halloc)).1.symm hne
      · rw [hp] at halloc
        rw [hfit'] at hfit
        obtain ⟨rfl, rfl⟩ := Prod.mk.inj (Option.some.inj halloc)
        obtain ⟨-, rfl⟩ := Prod.mk.inj (Option.some.inj hfit)
        exact ⟨⟨F', hinv'⟩, Or.inr hr⟩
  | free hl hfree =>
      have hr := hi.room hl
      obtain ⟨h₁, F', hfree', hinv', -⟩ := Heap.heapFree_spec hinv hr hl
      rw [hfree'] at hfree
      obtain rfl := Option.some.inj hfree
      exact ⟨⟨F', hinv'⟩, Or.inr hr⟩
  | write hl ha ha' => exact ⟨⟨F, Heap.write_inv hinv hl _ ha ha'⟩, hroom⟩

theorem served_of_request {h : Heap} {F : List Nat} {live : List Live} {size align : Nat}
    (hinv : HeapInv start len h F live) (hreq : Request start len size align) :
    Served start len h live size align := by
  have hr := hreq.room
  refine ⟨by omega, (Heap.heapAlloc_spec hinv hreq).imp_right ?_⟩
  rintro ⟨prev, cur, p, h', F', hfit, halloc, hne, hinv', -⟩
  exact ⟨prev, cur, p, h', F', hfit, halloc, hne, hinv'⟩

theorem Inv.run (hi : st.Inv start len) (hrun : ReflTransGen (HeapStep start len) st st') :
    st'.Inv start len := by
  induction hrun with
  | refl => exact hi
  | tail _ hstep ih => exact ih.request_step served_of_request hstep

end HeapState

theorem inv_heapInit {h h₀ : Heap} {start size : Nat} (hstart : start ≠ 0) (hsize : size < 2 ^ 64)
    (hinit : h.heapInit start size = some h₀) : HeapState.Inv start size ⟨h₀, []⟩ := by
  unfold Heap.heapInit at hinit
  split_ifs at hinit with hmod hlarge hhead
  have hh₀ := (Option.some.inj hinit).symm
  simp only [header, minFree] at hmod hlarge
  have hcells := (h.cells_self.setSize hmod.1 hsize).setNext (v := 0) hmod.1 (by decide)
  have hmem : h₀.mem = ((h.setSize start size).setNext start 0).mem := by rw [hh₀]
  have hhead₀ : h₀.head = start := by rw [hh₀]
  have hsz : h₀.blockSize start = size := by
    rw [Heap.blockSize_congr hmem, hcells.size start hmod.1, Function.update_self]
  have hnx : h₀.blockNext start = 0 := by
    rw [Heap.blockNext_congr hmem, hcells.next start hmod.1, Function.update_self]
  refine ⟨⟨[start], hmod.1, hmod.2, ?_, List.pairwise_singleton _ _, by rw [hh₀]; rfl,
    by rw [hh₀]⟩, Or.inl rfl⟩
  refine {
    start_pos := Nat.pos_of_ne_zero hstart
    chain := ?_
    sorted := List.pairwise_singleton _ _
    aligned := fun a ha => ?_
    large := fun a ha => ?_
    partition := ?_
    placed := by simp }
  · refine chain_cons_iff.2 ⟨hhead₀, hstart, ?_⟩
    rw [hnx]
    exact chain_nil
  · obtain rfl : a = start := by simpa [blockBases] using ha
    rw [hsz]
    exact hmod
  · obtain rfl : a = start := by simpa [blockBases] using ha
    rw [hsz]
    exact hlarge
  · have hone : Partition [(start, size)] start (start + size) := partition_singleton
    simpa [blockBases, blocks, hsz] using hone

section Runs

variable {h h₀ : Heap} {start size : Nat} {st : HeapState}

/-- **Structure of the heap in every reachable state.** -/
theorem heap_structure (hstart : start ≠ 0) (hsize : size < 2 ^ 64)
    (hinit : h.heapInit start size = some h₀)
    (hrun : ReflTransGen (HeapStep start size) ⟨h₀, []⟩ st) :
    ∃ F, Chain st.heap.blockNext 0 st.heap.head F ∧ F.Pairwise (· < ·) ∧
      (∀ b ∈ blockBases F st.live, b % 16 = 0 ∧ st.heap.blockSize b % 16 = 0) ∧
      F.Pairwise (fun a b => a + st.heap.blockSize a < b) ∧
      Partition (blocks st.heap.blockSize (blockBases F st.live)) start (start + size) ∧
      st.heap.heapAllocated = (st.live.map fun l => st.heap.blockSize l.base).sum ∧
      (∀ l ∈ st.live, st.heap.blockSize l.base ≤ st.heap.heapAllocated) ∧
      (∀ n align, Request start size n align → (st.heap.heapAlloc n align).isSome) ∧
      ∀ l ∈ st.live, (st.heap.heapFree l.payload).isSome := by
  have hinv := (inv_heapInit hstart hsize hinit).run hrun
  obtain ⟨⟨F, hi⟩, -⟩ := id hinv
  refine ⟨F, hi.shape.chain, hi.shape.sorted, hi.shape.aligned, hi.gaps, hi.shape.partition,
    hi.allocated, fun l hl => ?_, fun n align hreq => ?_, fun l hl => ?_⟩
  · rw [Heap.heapAllocated, hi.allocated, liveBytes_erase hl]
    exact Nat.le_add_right _ _
  · rcases Heap.heapAlloc_spec hi hreq with h0 | ⟨prev, cur, p, h', F', -, hp, -⟩
    · rw [h0]
      rfl
    · rw [hp]
      rfl
  · obtain ⟨h', F', hfree, -⟩ := Heap.heapFree_spec hi (hinv.room hl) hl
    rw [hfree]
    rfl

theorem heapStep_small :
    ∃ h₀ h', (Heap.empty fun _ => 0).heapInit 4096 64 = some h₀ ∧
      HeapStep 4096 64 ⟨h₀, []⟩ ⟨h', [⟨4112, 8, 4096⟩]⟩ := by
  obtain ⟨h₀, hinit⟩ : ∃ h₀, (Heap.empty fun _ => 0).heapInit 4096 64 = some h₀ := ⟨_, rfl⟩
  have hfit : h₀.firstFit 8 (max 8 header) = some (0, 4096) := by
    obtain rfl := Option.some.inj hinit
    decide +kernel
  have halloc : (h₀.heapAlloc 8 8).map Prod.fst = some 4112 := by
    obtain rfl := Option.some.inj hinit
    decide +kernel
  obtain ⟨⟨p, h'⟩, halloc, rfl⟩ := Option.map_eq_some_iff.1 halloc
  have hreq : Request 4096 64 8 8 := ⟨by decide, ⟨3, rfl⟩, by decide⟩
  exact ⟨h₀, h', hinit, RequestStep.alloc hreq hfit halloc (by decide)⟩

theorem heap_structure_small :
    ∃ h₀ h', (Heap.empty fun _ => 0).heapInit 4096 64 = some h₀ ∧
      HeapStep 4096 64 ⟨h₀, []⟩ ⟨h', [⟨4112, 8, 4096⟩]⟩ ∧
      h'.heapAllocated = h'.blockSize 4096 := by
  obtain ⟨h₀, h', hinit, hstep⟩ := heapStep_small
  obtain ⟨F, -, -, -, -, -, hbytes, -⟩ := heap_structure (by decide) (by decide) hinit
    (ReflTransGen.single hstep)
  exact ⟨h₀, h', hinit, hstep, by simpa using hbytes⟩

end Runs

/-! ## Payloads -/

namespace HeapInv

variable {start len : Nat} {h : Heap} {F : List Nat} {live : List Live} {l : Live}

theorem payloads_apart (hi : HeapInv start len h F live) :
    live.Pairwise fun l l' => Apart (l.payload, l.size) (l'.payload, l'.size) := by
  have hblocks := hi.shape.partition.pairwise hi.shape.blocks_pos
  rw [blocks, blockBases, List.map_append, List.map_map] at hblocks
  have hlive := List.pairwise_map.1 (List.pairwise_append.1 hblocks).2.1
  refine List.Pairwise.imp_of_mem (fun {l l'} hl hl' hab => ?_) hlive
  have h1 := (hi.shape.placed l hl).header
  have h2 := (hi.shape.placed l hl).inside
  have h3 := (hi.shape.placed l' hl').header
  have h4 := (hi.shape.placed l' hl').inside
  simp only [Apart, Function.comp_apply] at hab ⊢
  omega

theorem apart_free (hi : HeapInv start len h F live) (hl : l ∈ live) {b : Nat} (hb : b ∈ F) :
    Apart (l.payload, l.size) (b, 16) := by
  have h1 := (hi.shape.placed l hl).header
  have h2 := (hi.shape.placed l hl).inside
  have h3 := hi.shape.apart_live hb hl
  have h4 := hi.shape.large b (Shape.mem_bases_of_free hb)
  simp only [Apart]
  omega

theorem apart_size (hi : HeapInv start len h F live) (hl : l ∈ live) {l' : Live} (hl' : l' ∈ live) :
    Apart (l.payload, l.size) (l'.base, 8) := by
  have h1 := (hi.shape.placed l hl).header
  have h2 := (hi.shape.placed l hl).inside
  have h4 := hi.shape.large _ (Shape.mem_bases_of_live hl')
  simp only [Apart]
  by_cases heq : l' = l
  · subst heq
    omega
  · have h3 := hi.shape.live_apart hl ((List.mem_erase_of_ne heq).2 hl')
    omega

theorem apart_stash (hi : HeapInv start len h F live) (hl : l ∈ live) {l' : Live}
    (hl' : l' ∈ live) : Apart (l.payload, l.size) (l'.payload - 8, 8) := by
  have h1 := (hi.shape.placed l hl).header
  have h2 := (hi.shape.placed l hl).inside
  have h3 := (hi.shape.placed l' hl').header
  have h4 := (hi.shape.placed l' hl').inside
  simp only [Apart]
  by_cases heq : l' = l
  · subst heq
    omega
  · have h5 := hi.shape.live_apart hl ((List.mem_erase_of_ne heq).2 hl')
    omega

end HeapInv

section Runs

variable {h h₀ : Heap} {start size : Nat} {st : HeapState}

/-- **Payload safety in every reachable state.** What `heap_alloc` returns is aligned, inside the
region, apart from every live payload; live payloads are apart from every word the allocator reads;
no call changes a live payload; `heap_free` recovers the base that `heap_alloc` chose. -/
theorem heap_payload_safe (hstart : start ≠ 0) (hsize : size < 2 ^ 64)
    (hinit : h.heapInit start size = some h₀)
    (hrun : ReflTransGen (HeapStep start size) ⟨h₀, []⟩ st) :
    (∀ n align p h', Request start size n align → st.heap.heapAlloc n align = some (p, h') → p ≠ 0 →
      max align 16 ∣ p ∧ start ≤ p ∧ p + n ≤ start + size ∧
      (∀ l ∈ st.live, Apart (p, n) (l.payload, l.size)) ∧
      ∀ l ∈ st.live, ∀ x, l.payload ≤ x → x < l.payload + l.size → h'.mem x = st.heap.mem x) ∧
    (∃ F, Chain st.heap.blockNext 0 st.heap.head F ∧
      st.live.Pairwise (fun l l' => Apart (l.payload, l.size) (l'.payload, l'.size)) ∧
      ∀ l ∈ st.live, (∀ b ∈ F, Apart (l.payload, l.size) (b, 16)) ∧
        (∀ l' ∈ st.live, Apart (l.payload, l.size) (l'.base, 8) ∧
          Apart (l.payload, l.size) (l'.payload - 8, 8))) ∧
    ∀ l ∈ st.live, st.heap.mem.load (Word.sub 64 l.payload 8) 8 = l.base ∧
      ∀ h', st.heap.heapFree l.payload = some h' →
        ∀ l' ∈ st.live.erase l, ∀ x, l'.payload ≤ x → x < l'.payload + l'.size →
          h'.mem x = st.heap.mem x := by
  have hinv := (inv_heapInit hstart hsize hinit).run hrun
  obtain ⟨⟨F, hi⟩, -⟩ := id hinv
  refine ⟨fun n align p h' hreq halloc hne => ?_, ⟨F, hi.shape.chain, hi.payloads_apart, ?_⟩,
    fun l hl => ⟨Heap.stash_eq hi hl (hinv.room hl), fun h' hfree => ?_⟩⟩
  · rcases Heap.heapAlloc_spec hi hreq with h0 | ⟨prev, cur, p', h₁, F', -, hp, -, hi', hdvd, hkeep⟩
    · rw [h0] at halloc
      exact absurd (Prod.mk.inj (Option.some.inj halloc)).1.symm hne
    · rw [hp] at halloc
      obtain ⟨rfl, rfl⟩ := Prod.mk.inj (Option.some.inj halloc)
      have hplaced := hi'.shape.placed ⟨p', n, cur⟩ List.mem_cons_self
      have hin := hi'.shape.inside (Shape.mem_bases_of_live (l := ⟨p', n, cur⟩) List.mem_cons_self)
      have h1 := hplaced.header
      have h2 := hplaced.inside
      simp only at h1 h2 hin
      exact ⟨hdvd, by omega, by omega, List.pairwise_cons.1 hi'.payloads_apart |>.1, hkeep⟩
  · intro l hl
    exact ⟨fun b hb => hi.apart_free hl hb, fun l' hl' => ⟨hi.apart_size hl hl', hi.apart_stash hl hl'⟩⟩
  · obtain ⟨h₁, F', hfree', -, -, hkeep⟩ := Heap.heapFree_spec hi (hinv.room hl) hl
    rw [hfree'] at hfree
    obtain rfl := Option.some.inj hfree
    exact hkeep

theorem heap_payload_safe_small :
    ∃ h₀ h', (Heap.empty fun _ => 0).heapInit 4096 64 = some h₀ ∧
      HeapStep 4096 64 ⟨h₀, []⟩ ⟨h', [⟨4112, 8, 4096⟩]⟩ ∧
      h'.mem.load (Word.sub 64 4112 8) 8 = 4096 := by
  obtain ⟨h₀, h', hinit, hstep⟩ := heapStep_small
  obtain ⟨-, -, hfree⟩ := heap_payload_safe (by decide) (by decide) hinit
    (ReflTransGen.single hstep)
  exact ⟨h₀, h', hinit, hstep, (hfree _ List.mem_cons_self).1⟩

end Runs

end Rolnix
