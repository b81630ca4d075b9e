import Rolnix.HeapShape

/-!
# Calls on the heap

`HeapInv` adds to the shape that no two free blocks touch and that `allocated` is the total size
of the live blocks. Each call keeps it, returns, and leaves every live payload alone:
`Heap.heapAlloc_spec`, `Heap.heapFree_spec`; so does a client's write into its own payload,
`Heap.write_inv`.
-/

namespace Rolnix

open Linked Interval

/-- No two free blocks touch. -/
def Gaps (sz : Nat → Nat) (F : List Nat) : Prop := F.Pairwise fun a b => a + sz a < b

theorem Gaps.congr {sz sz' : Nat → Nat} {F : List Nat} (h : Gaps sz F)
    (heq : ∀ a ∈ F, sz' a = sz a) : Gaps sz' F := by
  refine List.Pairwise.imp_of_mem (fun {a b} ha _ hab => ?_) h
  rw [heq a ha]
  exact hab

/-- Sum of the live blocks' header sizes. -/
def liveBytes (sz : Nat → Nat) (live : List Live) : Nat := (live.map fun l => sz l.base).sum

theorem liveBytes_congr {sz sz' : Nat → Nat} {live : List Live}
    (h : ∀ l ∈ live, sz' l.base = sz l.base) : liveBytes sz' live = liveBytes sz live := by
  rw [liveBytes, List.map_congr_left h, liveBytes]

theorem liveBytes_erase {sz : Nat → Nat} {live : List Live} {l : Live} (hl : l ∈ live) :
    liveBytes sz live = sz l.base + liveBytes sz (live.erase l) := by
  rw [liveBytes, ((List.perm_cons_erase hl).map _).sum_eq, List.map_cons, List.sum_cons, liveBytes]

theorem Shape.liveBytes_le {start len head : Nat} {sz nx : Nat → Nat} {F : List Nat}
    {live : List Live} (hs : Shape start len sz nx head F live) : liveBytes sz live ≤ len := by
  have hsum := hs.partition.sum hs.blocks_pos
  simp only [blocks, blockBases, List.map_append, List.map_map, List.sum_append] at hsum
  have hlive : (live.map (Prod.snd ∘ (fun a => (a, sz a)) ∘ Live.base)).sum =
      liveBytes sz live := rfl
  omega

/-- The invariant of the heap `[start, start + len)`. -/
structure HeapInv (start len : Nat) (h : Heap) (F : List Nat) (live : List Live) : Prop where
  start_mod : start % 16 = 0
  len_mod : len % 16 = 0
  shape : Shape start len h.blockSize h.blockNext h.head F live
  gaps : Gaps h.blockSize F
  allocated : h.allocated = liveBytes h.blockSize live
  total : h.total = len

namespace Heap

variable {h : Heap} {start len head a b : Nat} {F F₁ F₂ : List Nat} {live : List Live} {l : Live}

theorem setSize_mem {v x : Nat} (hx : x < a ∨ a + 16 ≤ x) : (h.setSize a v).mem x = h.mem x :=
  ByteMem.store_of_not_mem (by omega)

theorem setNext_mem {v x : Nat} (hx : x < a ∨ a + 16 ≤ x) : (h.setNext a v).mem x = h.mem x :=
  ByteMem.store_of_not_mem (by omega)

theorem relink_mem {v x : Nat} (hx : a = 0 ∨ x < a ∨ a + 16 ≤ x) :
    (h.relink a v).mem x = h.mem x := by
  unfold relink
  split_ifs with h0
  · rfl
  · exact setNext_mem (by omega)

theorem coalesce_mem {x : Nat} (hx : x < a ∨ a + 16 ≤ x) : (h.coalesce a b).mem x = h.mem x := by
  unfold coalesce
  rw [setNext_mem hx, setSize_mem hx]

/-! ## Coalescing -/

theorem add_eq_iff {base size cur : Nat} (hcur : cur ≠ 0) (hcur' : cur < 2 ^ 64)
    (hend : base + size ≤ 2 ^ 64) : Word.add 64 base size = cur ↔ base + size = cur := by
  unfold Word.add
  omega

theorem coalesce_shape
    (hs : Shape start len h.blockSize h.blockNext head (F₁ ++ a :: b :: F₂) live)
    (hroom : start + len ≤ 2 ^ 64) (htouch : a + h.blockSize a = b) :
    Shape start len (h.coalesce a b).blockSize (h.coalesce a b).blockNext head
        (F₁ ++ a :: F₂) live ∧
      ∀ c, c % 16 = 0 → (h.coalesce a b).blockSize c =
        Function.update h.blockSize a (h.blockSize a + h.blockSize b) c := by
  have ha : a ∈ blockBases (F₁ ++ a :: b :: F₂) live := Shape.mem_bases_of_free (by simp)
  have hb : b ∈ blockBases (F₁ ++ a :: b :: F₂) live := Shape.mem_bases_of_free (by simp)
  have hpos := hs.start_pos
  have hina := hs.inside ha
  have hinb := hs.inside hb
  have halign := (hs.aligned a ha).1
  have hcells : (h.coalesce a b).Cells
      (Function.update h.blockSize a (h.blockSize a + h.blockSize b))
      (Function.update h.blockNext a (h.blockNext b)) := by
    unfold coalesce
    rw [Word.add_of_lt (by omega)]
    exact (h.cells_self.setSize halign (by omega)).setNext halign (h.blockNext_lt b)
  exact ⟨(hs.coalesce htouch).ofCells hcells, hcells.size⟩

/-! ## Release -/

theorem getLastD_mod (hs : Shape start len h.blockSize h.blockNext head (F₁ ++ F₂) live) :
    F₁.getLastD 0 % 16 = 0 := by
  rcases getLastD_cases F₁ 0 with ⟨-, hp⟩ | hp
  · rw [hp]
  · exact (hs.aligned _ (Shape.mem_bases_of_free (List.mem_append_left F₂ hp))).1

theorem link_shape (hs : Shape start len h.blockSize h.blockNext h.head (F₁ ++ F₂) live)
    (hl : l ∈ live) (hroom : start + len ≤ 2 ^ 64) (hlow : ∀ a ∈ F₁, a < l.base)
    (hhigh : ∀ a ∈ F₂, l.base < a) :
    Shape start len (h.link l.base (F₁.getLastD 0) (F₂.headD 0)).blockSize
        (h.link l.base (F₁.getLastD 0) (F₂.headD 0)).blockNext
        (h.link l.base (F₁.getLastD 0) (F₂.headD 0)).head (F₁ ++ l.base :: F₂) (live.erase l) ∧
      ∀ c, c % 16 = 0 →
        (h.link l.base (F₁.getLastD 0) (F₂.headD 0)).blockSize c = h.blockSize c := by
  have hbase := Shape.mem_bases_of_live (F := F₁ ++ F₂) hl
  have halign := (hs.aligned _ hbase).1
  have hlarge := hs.large _ hbase
  have hin := hs.inside hbase
  have hcur : F₂.headD 0 < 2 ^ 64 := by
    cases F₂ with
    | nil => simp
    | cons c F₂ =>
        have hc : c ∈ blockBases (F₁ ++ c :: F₂) live := Shape.mem_bases_of_free (by simp)
        have h1 := hs.inside hc
        have h2 := hs.large c hc
        simp only [List.headD_cons]
        omega
  have hcells : (h.link l.base (F₁.getLastD 0) (F₂.headD 0)).Cells
      (Function.update h.blockSize l.base (h.blockSize l.base))
      (relinked (Function.update h.blockNext l.base (F₂.headD 0)) 0 (F₁.getLastD 0) l.base) :=
    ((h.cells_self.setSize halign (h.blockSize_lt _)).setNext halign hcur).relink
      (getLastD_mod hs) (by omega)
  rw [Function.update_eq_self] at hcells
  refine ⟨?_, hcells.size⟩
  rw [link, relink_head]
  exact (hs.release hl hlow hhigh).ofCells hcells

/-- After the first coalescing no free block touches the one behind it, from `a` on. -/
theorem coalesceNext_shape
    (hs : Shape start len h.blockSize h.blockNext h.head (F₁ ++ a :: F₂) live)
    (hroom : start + len ≤ 2 ^ 64) (hgaps : Gaps h.blockSize F₂) :
    ∃ F₂', F₂'.Sublist F₂ ∧
      Shape start len (h.coalesceNext a (h.blockSize a) (F₂.headD 0)).blockSize
        (h.coalesceNext a (h.blockSize a) (F₂.headD 0)).blockNext
        (h.coalesceNext a (h.blockSize a) (F₂.headD 0)).head (F₁ ++ a :: F₂') live ∧
      Gaps (h.coalesceNext a (h.blockSize a) (F₂.headD 0)).blockSize (a :: F₂') ∧
      ∀ c, c % 16 = 0 → c ≠ a →
        (h.coalesceNext a (h.blockSize a) (F₂.headD 0)).blockSize c = h.blockSize c := by
  have hina := hs.inside (Shape.mem_bases_of_free (show a ∈ F₁ ++ a :: F₂ by simp))
  cases F₂ with
  | nil =>
      refine ⟨[], List.Sublist.refl [], ?_, by simp [Gaps], fun c _ _ => ?_⟩
      · simpa [coalesceNext] using hs
      · simp [coalesceNext]
  | cons b F₂ =>
      have hb : b ∈ blockBases (F₁ ++ a :: b :: F₂) live :=
        Shape.mem_bases_of_free (by simp)
      have hinb := hs.inside hb
      have hlargeb := hs.large b hb
      have hpos := hs.start_pos
      have hle := hs.free_le List.mem_cons_self
      have hgap := List.pairwise_cons.1 hgaps
      by_cases htouch : a + h.blockSize a = b
      · obtain ⟨hshape, hsize⟩ := coalesce_shape hs hroom htouch
        have hdef : h.coalesceNext a (h.blockSize a) ((b :: F₂).headD 0) = h.coalesce a b := by
          rw [List.headD_cons, coalesceNext,
            if_pos ⟨by omega, (add_eq_iff (by omega) (by omega) (by omega)).2 htouch⟩]
        rw [hdef]
        have ha : a % 16 = 0 :=
          (hs.aligned a (Shape.mem_bases_of_free (show a ∈ F₁ ++ a :: b :: F₂ by simp))).1
        have hnew : (h.coalesce a b).blockSize a = h.blockSize a + h.blockSize b := by
          rw [hsize a ha, Function.update_self]
        refine ⟨F₂, List.sublist_cons_self b F₂, hshape, ?_, fun c hc hne => ?_⟩
        · refine List.pairwise_cons.2 ⟨fun c hc => ?_, Gaps.congr hgap.2 fun c hc => ?_⟩
          · have h1 := hgap.1 c hc
            rw [hnew]
            omega
          · have h1 := hgap.1 c hc
            have hc' := (hs.aligned c (Shape.mem_bases_of_free (by simp [hc]))).1
            rw [hsize c hc', Function.update_of_ne (by omega)]
        · rw [hsize c hc, Function.update_of_ne hne]
      · have hdef : h.coalesceNext a (h.blockSize a) ((b :: F₂).headD 0) = h := by
          rw [List.headD_cons, coalesceNext, if_neg]
          rintro ⟨-, hadd⟩
          exact htouch ((add_eq_iff (by omega) (by omega) (by omega)).1 hadd)
        rw [hdef]
        refine ⟨b :: F₂, List.Sublist.refl _, hs, List.pairwise_cons.2 ⟨fun c hc => ?_, hgaps⟩,
          fun _ _ _ => rfl⟩
        rcases List.mem_cons.1 hc with rfl | hc
        · omega
        · have h1 := hgap.1 c hc
          omega

theorem coalescePrev_shape
    (hs : Shape start len h.blockSize h.blockNext h.head (F₁ ++ a :: F₂) live)
    (hroom : start + len ≤ 2 ^ 64) (hgaps₁ : Gaps h.blockSize F₁)
    (hgaps₂ : Gaps h.blockSize (a :: F₂)) :
    ∃ F, Shape start len (h.coalescePrev a (F₁.getLastD 0)).blockSize
        (h.coalescePrev a (F₁.getLastD 0)).blockNext (h.coalescePrev a (F₁.getLastD 0)).head
        F live ∧
      Gaps (h.coalescePrev a (F₁.getLastD 0)).blockSize F ∧
      ∀ l ∈ live, (h.coalescePrev a (F₁.getLastD 0)).blockSize l.base = h.blockSize l.base := by
  have hpos := hs.start_pos
  have ha : a ∈ blockBases (F₁ ++ a :: F₂) live :=
    Shape.mem_bases_of_free (by simp)
  have hina := hs.inside ha
  have hlargea := hs.large a ha
  have hgap := List.pairwise_cons.1 hgaps₂
  -- a free block in front of `a` ends before it
  have hbefore : ∀ c ∈ F₁, c + h.blockSize c ≤ a := by
    intro c hc
    obtain ⟨G₁, G₂, rfl⟩ := List.append_of_mem hc
    have hs' := hs
    rw [List.append_assoc, List.cons_append] at hs'
    exact hs'.free_le (by simp)
  obtain rfl | ⟨F₀, p, rfl⟩ := List.eq_nil_or_concat' F₁
  · refine ⟨a :: F₂, ?_, ?_, fun l _ => ?_⟩
    · simpa [coalescePrev] using hs
    · simpa [coalescePrev] using hgaps₂
    · simp [coalescePrev]
  have hp : p ∈ blockBases (F₀ ++ [p] ++ a :: F₂) live :=
    Shape.mem_bases_of_free (by simp)
  have hinp := hs.inside hp
  have hlargep := hs.large p hp
  have halignp := (hs.aligned p hp).1
  have hgap₀ := List.pairwise_append.1 hgaps₁
  have hadd : Word.add 64 p (h.blockSize p) = a ↔ p + h.blockSize p = a :=
    add_eq_iff (by omega) (by omega) (by omega)
  rw [List.getLastD_concat]
  by_cases htouch : p + h.blockSize p = a
  · have hdef : h.coalescePrev a p = h.coalesce p a := by
      rw [coalescePrev, if_pos ⟨by omega, hadd.2 htouch⟩]
    rw [List.append_assoc, List.singleton_append] at hs
    obtain ⟨hshape, hsize⟩ := coalesce_shape hs hroom htouch
    rw [hdef]
    have hnew : (h.coalesce p a).blockSize p = h.blockSize p + h.blockSize a := by
      rw [hsize p halignp, Function.update_self]
    have hkeep : ∀ c ∈ blockBases (F₀ ++ F₂) live, c ≠ p →
        (h.coalesce p a).blockSize c = h.blockSize c := by
      intro c hc hne
      have hc' := Shape.mem_bases_insert (a := p) (Shape.mem_bases_insert (a := a) hc)
      rw [hsize c (hs.aligned c hc').1, Function.update_of_ne hne]
    have hF₀ : ∀ c ∈ F₀, c + h.blockSize c < p := fun c hc => hgap₀.2.2 c hc p (by simp)
    refine ⟨F₀ ++ p :: F₂, hshape, ?_, fun l hl => ?_⟩
    · refine List.pairwise_append.2 ⟨Gaps.congr hgap₀.1 fun c hc => ?_, List.pairwise_cons.2
        ⟨fun c hc => ?_, Gaps.congr hgap.2 fun c hc => ?_⟩, fun c hc d hd => ?_⟩
      · exact hkeep c (Shape.mem_bases_of_free (by simp [hc])) (by have := hF₀ c hc; omega)
      · have h1 := hgap.1 c hc
        rw [hnew]
        omega
      · exact hkeep c (Shape.mem_bases_of_free (by simp [hc])) (by have := hgap.1 c hc; omega)
      · have h1 := hF₀ c hc
        rw [hkeep c (Shape.mem_bases_of_free (by simp [hc])) (by omega)]
        rcases List.mem_cons.1 hd with rfl | hd
        · exact h1
        · have h2 := hgap.1 d hd
          omega
    · exact hkeep _ (Shape.mem_bases_of_live hl)
        (hs.live_outside (by simp) hl le_rfl (by omega)).1
  · have hdef : h.coalescePrev a p = h := by
      rw [coalescePrev, if_neg]
      rintro ⟨-, heq⟩
      exact htouch (hadd.1 heq)
    rw [hdef]
    refine ⟨F₀ ++ [p] ++ a :: F₂, hs, List.pairwise_append.2 ⟨hgaps₁, hgaps₂, ?_⟩, fun _ _ => rfl⟩
    intro c hc d hd
    have had : a ≤ d := by
      rcases List.mem_cons.1 hd with rfl | hd
      · exact le_rfl
      · have h1 := hgap.1 d hd
        omega
    have h2 := hbefore p (by simp)
    rcases List.mem_append.1 hc with hc | hc
    · have h3 := hgap₀.2.2 c hc p (by simp)
      omega
    · obtain rfl : c = p := by simpa using hc
      omega

theorem insert_allocated {base prev cur : Nat} :
    (h.insert base prev cur).allocated = Word.sub 64 h.allocated (h.blockSize base) := by
  simp only [insert, coalescePrev, coalesceNext, link, relink, coalesce, setSize, setNext]
  split_ifs <;> rfl

theorem insert_total {base prev cur : Nat} : (h.insert base prev cur).total = h.total := by
  simp only [insert, coalescePrev, coalesceNext, link, relink, coalesce, setSize, setNext]
  split_ifs <;> rfl

/-- A release writes the headers of the freed block and of the free block before it. -/
theorem insert_mem {base prev cur x : Nat} (hbase : x < base ∨ base + 16 ≤ x)
    (hprev : prev = 0 ∨ x < prev ∨ prev + 16 ≤ x) : (h.insert base prev cur).mem x = h.mem x := by
  have hlink : (h.link base prev cur).mem x = h.mem x := by
    rw [link, relink_mem hprev, setNext_mem hbase, setSize_mem hbase]
  have hnext : ∀ h₁ : Heap, ∀ size, (h₁.coalesceNext base size cur).mem x = h₁.mem x := by
    intro h₁ size
    unfold coalesceNext
    split_ifs
    · exact coalesce_mem hbase
    · rfl
  have hprev' : ∀ h₁ : Heap, (h₁.coalescePrev base prev).mem x = h₁.mem x := by
    intro h₁
    unfold coalescePrev
    split_ifs with hc
    · exact coalesce_mem (by omega)
    · rfl
  calc (h.insert base prev cur).mem x
      = (((h.link base prev cur).coalesceNext base (h.blockSize base) cur).coalescePrev
          base prev).mem x := rfl
    _ = h.mem x := by rw [hprev', hnext, hlink]

theorem free_split (hi : HeapInv start len h F live) (hl : l ∈ live)
    (hroom : start + len ≤ 2 ^ 64) :
    ∃ F₁ F₂, F = F₁ ++ F₂ ∧ (∀ a ∈ F₁, a < l.base) ∧ (∀ a ∈ F₂, l.base < a) ∧
      scan h.blockNext 0 (fun cur => ¬ cur < l.base) (2 ^ 64) 0 h.head =
        some (F₁.getLastD 0, F₂.headD 0) := by
  obtain ⟨F₁, F₂, rfl, hlow, hfound, hscan⟩ :=
    hi.shape.chain.scan_eq (fun cur => ¬ cur < l.base) 0 (hi.shape.length_lt hroom)
  refine ⟨F₁, F₂, rfl, fun a ha => by simpa using hlow a ha, fun a ha => ?_, hscan⟩
  have hne : l.base ≠ a := by
    rintro rfl
    exact hi.shape.base_notMem hl (List.mem_append_right F₁ ha)
  cases F₂ with
  | nil => simp at ha
  | cons c F₂ =>
      have hc : ¬ c < l.base := by simpa using hfound c rfl
      have hsorted := (List.pairwise_cons.1 (List.pairwise_append.1 hi.shape.sorted).2.1).1
      rcases List.mem_cons.1 ha with rfl | ha
      · omega
      · have := hsorted a ha
        omega

/-- `heap_free` recovers the base that `heap_alloc` stashed. -/
theorem stash_eq (hi : HeapInv start len h F live) (hl : l ∈ live)
    (hroom : start + len ≤ 2 ^ 64) : h.mem.load (Word.sub 64 l.payload 8) 8 = l.base := by
  have hplaced := hi.shape.placed l hl
  have h1 := hplaced.header
  have h2 := hplaced.inside
  have h3 := hi.shape.inside (Shape.mem_bases_of_live hl)
  have h4 := hplaced.pos
  have hcell : l.payload - 8 = l.payload - 16 + 8 := by omega
  rw [Word.sub_of_le (by omega) (by omega), hcell]
  exact hplaced.stash

theorem insert_eq (h : Heap) (base prev cur : Nat) :
    h.insert base prev cur =
      { ((h.link base prev cur).coalesceNext base (h.blockSize base) cur).coalescePrev base prev with
        allocated := Word.sub 64 (((h.link base prev cur).coalesceNext base (h.blockSize base)
          cur).coalescePrev base prev).allocated (h.blockSize base) } := rfl

theorem insert_shape (hi : HeapInv start len h (F₁ ++ F₂) live) (hroom : start + len ≤ 2 ^ 64)
    (hl : l ∈ live) (hlow : ∀ a ∈ F₁, a < l.base) (hhigh : ∀ a ∈ F₂, l.base < a) {h' : Heap}
    (hh' : h' = h.insert l.base (F₁.getLastD 0) (F₂.headD 0)) :
    ∃ F', Shape start len h'.blockSize h'.blockNext h'.head F' (live.erase l) ∧
      Gaps h'.blockSize F' ∧ ∀ l' ∈ live.erase l, h'.blockSize l'.base = h.blockSize l'.base := by
  have hgaps := List.pairwise_append.1 hi.gaps
  have hbase := (hi.shape.aligned _ (Shape.mem_bases_of_live hl)).1
  have haligned : ∀ c ∈ F₁ ++ F₂, c % 16 = 0 := fun c hc =>
    (hi.shape.aligned c (Shape.mem_bases_of_free hc)).1
  obtain ⟨h₁, hh₁⟩ : ∃ h₁, h₁ = h.link l.base (F₁.getLastD 0) (F₂.headD 0) := ⟨_, rfl⟩
  obtain ⟨h₂, hh₂⟩ : ∃ h₂, h₂ = h₁.coalesceNext l.base (h.blockSize l.base) (F₂.headD 0) := ⟨_, rfl⟩
  obtain ⟨h₃, hh₃⟩ : ∃ h₃, h₃ = h₂.coalescePrev l.base (F₁.getLastD 0) := ⟨_, rfl⟩
  have hdef : h' = { h₃ with allocated := Word.sub 64 h₃.allocated (h.blockSize l.base) } := by
    rw [hh', insert_eq, ← hh₁, ← hh₂, ← hh₃]
  have hmem : h'.mem = h₃.mem := by rw [hdef]
  have hhead : h'.head = h₃.head := by rw [hdef]
  -- linked in
  obtain ⟨hs₁, hsize₁⟩ := link_shape hi.shape hl hroom hlow hhigh
  rw [← hh₁] at hs₁ hsize₁
  -- joined with the block behind
  have hgaps₁ : Gaps h₁.blockSize F₂ :=
    Gaps.congr hgaps.2.1 fun c hc => hsize₁ c (haligned c (by simp [hc]))
  obtain ⟨F₂', -, hs₂, hgaps₂, hsize₂⟩ := coalesceNext_shape hs₁ hroom hgaps₁
  rw [hsize₁ _ hbase, ← hh₂] at hs₂ hgaps₂ hsize₂
  -- joined with the block before
  have hgaps₁' : Gaps h₂.blockSize F₁ := by
    refine Gaps.congr hgaps.1 fun c hc => ?_
    have hc' := haligned c (by simp [hc])
    rw [hsize₂ c hc' (hlow c hc).ne, hsize₁ c hc']
  obtain ⟨F', hs₃, hgaps₃, hsize₃⟩ := coalescePrev_shape hs₂ hroom hgaps₁' hgaps₂
  rw [← hh₃] at hs₃ hgaps₃ hsize₃
  rw [blockSize_congr hmem, blockNext_congr hmem, hhead]
  refine ⟨F', hs₃, hgaps₃, fun l' hl' => ?_⟩
  have hmem := List.mem_of_mem_erase hl'
  have halign := (hi.shape.aligned _ (Shape.mem_bases_of_live hmem)).1
  have hne : l'.base ≠ l.base := by
    have h1 := hi.shape.live_apart hl hl'
    have h2 := hi.shape.large _ (Shape.mem_bases_of_live hmem)
    have h3 := hi.shape.large _ (Shape.mem_bases_of_live hl)
    omega
  calc h₃.blockSize l'.base = h₂.blockSize l'.base := hsize₃ l' hl'
    _ = h₁.blockSize l'.base := hsize₂ _ halign hne
    _ = h.blockSize l'.base := hsize₁ _ halign

/-- **`heap_free` of a live pointer** keeps the invariant and every other payload. -/
theorem heapFree_spec (hi : HeapInv start len h F live) (hroom : start + len ≤ 2 ^ 64)
    (hl : l ∈ live) :
    ∃ h' F', h.heapFree l.payload = some h' ∧ HeapInv start len h' F' (live.erase l) ∧
      (∀ l' ∈ live.erase l, h'.blockSize l'.base = h.blockSize l'.base) ∧
      ∀ l' ∈ live.erase l, ∀ x, l'.payload ≤ x → x < l'.payload + l'.size →
        h'.mem x = h.mem x := by
  obtain ⟨F₁, F₂, rfl, hlow, hhigh, hscan⟩ := free_split hi hl hroom
  obtain ⟨h', hh'⟩ : ∃ h', h' = h.insert l.base (F₁.getLastD 0) (F₂.headD 0) := ⟨_, rfl⟩
  have hfree : h.heapFree l.payload = some h' := by
    simp only [heapFree, stash_eq hi hl hroom, hscan, Option.bind_eq_bind, Option.bind_some,
      Option.pure_def, hh']
  obtain ⟨F', hshape, hgaps, hsize⟩ := insert_shape hi hroom hl hlow hhigh hh'
  refine ⟨h', F', hfree, ⟨hi.start_mod, hi.len_mod, hshape, hgaps, ?_, ?_⟩, hsize,
    fun l' hl' x hx hx' => ?_⟩
  · have hbytes : liveBytes h.blockSize _ = _ := liveBytes_erase hl
    have hle := hi.shape.liveBytes_le
    have hpos := hi.shape.start_pos
    rw [liveBytes_congr hsize, hh', insert_allocated, hi.allocated,
      Word.sub_of_le (by omega) (by omega), hbytes, Nat.add_sub_cancel_left]
  · rw [hh', insert_total, hi.total]
  · -- the headers written are those of the freed block and of a free block
    have hmem := List.mem_of_mem_erase hl'
    have hplaced := hi.shape.placed l' hmem
    have h1 := hplaced.header
    have h2 := hplaced.inside
    have h3 := hi.shape.live_apart hl hl'
    have h4 := hi.shape.large _ (Shape.mem_bases_of_live hl)
    rw [hh']
    refine insert_mem (by omega) ?_
    rcases getLastD_cases F₁ 0 with ⟨-, hp⟩ | hp
    · exact Or.inl hp
    · have hp' : F₁.getLastD 0 ∈ F₁ ++ F₂ := List.mem_append_left F₂ hp
      have h5 := hi.shape.apart_live hp' hmem
      have h6 := hi.shape.large _ (Shape.mem_bases_of_free hp')
      omega

/-! ## Allocation -/

theorem stash_eq_setNext {p base : Nat} (hp : 16 ≤ p) (hlt : p < 2 ^ 64) :
    h.stash p base = h.setNext (p - 16) base := by
  have haddr : Word.sub 64 p 8 = p - 16 + 8 := by
    rw [Word.sub_of_le (by omega) hlt]
    omega
  rw [stash, haddr, setNext]

/-- The heap after `cur` was taken off the list for `p`, in the two cases. -/
def taken (h : Heap) (prev cur p t : Nat) : Heap :=
  if cur + h.blockSize cur - t ≥ minFree then
    (h.splitTail prev cur t (cur + h.blockSize cur - t)).setNext (p - 16) cur
  else (h.relink prev (h.blockNext cur)).setNext (p - 16) cur

/-- How much of `cur` was taken. -/
def consumed (h : Heap) (cur t : Nat) : Nat :=
  if cur + h.blockSize cur - t ≥ minFree then t - cur else h.blockSize cur

theorem take_eq {n align prev cur p t : Nat} (hp : payloadOf cur align = p)
    (ht : Word.alignUp 64 (p + n) header = t) (hp16 : cur + 16 ≤ p) (hpn : p + n ≤ t)
    (hend : t ≤ cur + h.blockSize cur) (hlt : cur + h.blockSize cur < 2 ^ 64) :
    h.take n align prev cur =
      (p, { h.taken prev cur p t with
        allocated := Word.add 64 (h.taken prev cur p t).allocated (h.consumed cur t) }) := by
  have hpn' : Word.add 64 p n = p + n := Word.add_of_lt (by omega)
  have hend' : Word.add 64 cur (h.blockSize cur) = cur + h.blockSize cur := Word.add_of_lt hlt
  have hrem : Word.sub 64 (cur + h.blockSize cur) t = cur + h.blockSize cur - t :=
    Word.sub_of_le hend hlt
  have hcut : Word.sub 64 t cur = t - cur := Word.sub_of_le (by omega) (by omega)
  have hstash : ∀ h₁ : Heap, h₁.stash p cur = h₁.setNext (p - 16) cur := fun h₁ =>
    stash_eq_setNext (by omega) (by omega)
  simp only [take, hp, hpn', ht, hend', hrem, hcut, hstash, taken, consumed]
  split_ifs
  · rfl
  · rfl

/-- A payload position inside a block, and where the rest of the block starts. -/
structure Position (h : Heap) (cur p n t : Nat) : Prop where
  header : cur + 16 ≤ p
  aligned : p % 16 = 0
  pos : 0 < n
  tail : p + n ≤ t
  tail_mod : t % 16 = 0
  inside : t ≤ cur + h.blockSize cur

variable {p n t cur : Nat}

theorem whole_shape (hs : Shape start len h.blockSize h.blockNext h.head (F₁ ++ cur :: F₂) live)
    (hpos : h.Position cur p n t) (hroom : start + len ≤ 2 ^ 64) {h' : Heap}
    (hh' : h' = (h.relink (F₁.getLastD 0) (h.blockNext cur)).setNext (p - 16) cur) :
    Shape start len h'.blockSize h'.blockNext h'.head (F₁ ++ F₂) (⟨p, n, cur⟩ :: live) ∧
      ∀ c, c % 16 = 0 → h'.blockSize c = h.blockSize c := by
  have hcur : cur ∈ blockBases (F₁ ++ cur :: F₂) live :=
    Shape.mem_bases_of_free (by simp)
  have hlarge := hs.large cur hcur
  have hin := hs.inside hcur
  have hal := hs.aligned cur hcur
  have h1 := hpos.header
  have h2 := hpos.aligned
  have h3 := hpos.tail
  have h4 := hpos.inside
  have hcells : h'.Cells h.blockSize
      (Function.update (relinked h.blockNext 0 (F₁.getLastD 0) (h.blockNext cur)) (p - 16) cur) := by
    rw [hh']
    exact (h.cells_self.relink (getLastD_mod hs) (h.blockNext_lt cur)).setNext (by omega) (by omega)
  have hchain : Chain h.blockNext 0 (h.blockNext cur) ([] ++ F₂) :=
    (chain_cons_iff.1 hs.chain.suffix).2.2
  have hdet := hs.detach (R := []) (p := p) (n := n) (fun _ _ => rfl) (fun _ _ => rfl) hchain
    (by simp) List.Pairwise.nil (fun hpart => hpart) h1 h2 hpos.pos (by omega) le_rfl hal.2 hlarge
  have hhead : h'.head = if F₁.getLastD 0 = 0 then h.blockNext cur else h.head := by
    rw [hh', ← relink_head]
    rfl
  rw [← hhead, List.nil_append] at hdet
  exact ⟨hdet.ofCells hcells, hcells.size⟩

theorem split_shape (hs : Shape start len h.blockSize h.blockNext h.head (F₁ ++ cur :: F₂) live)
    (hpos : h.Position cur p n t) (hroom : start + len ≤ 2 ^ 64)
    (hsplit : t + 32 ≤ cur + h.blockSize cur) {h' : Heap}
    (hh' : h' = (h.splitTail (F₁.getLastD 0) cur t (cur + h.blockSize cur - t)).setNext
      (p - 16) cur) :
    Shape start len h'.blockSize h'.blockNext h'.head (F₁ ++ t :: F₂) (⟨p, n, cur⟩ :: live) ∧
      ∀ c, c % 16 = 0 → h'.blockSize c = Function.update
        (Function.update h.blockSize t (cur + h.blockSize cur - t)) cur (t - cur) c := by
  have hcur : cur ∈ blockBases (F₁ ++ cur :: F₂) live :=
    Shape.mem_bases_of_free (by simp)
  have hlarge := hs.large cur hcur
  have hin := hs.inside hcur
  have hal := hs.aligned cur hcur
  have hsp := hs.start_pos
  have h1 := hpos.header
  have h2 := hpos.aligned
  have h3 := hpos.tail
  have h4 := hpos.inside
  have h5 := hpos.tail_mod
  have h6 := hpos.pos
  have htne : t ≠ cur := by omega
  obtain ⟨r, hr⟩ : ∃ r, r = cur + h.blockSize cur - t := ⟨_, rfl⟩
  obtain ⟨sz, hsz⟩ : ∃ sz, sz = Function.update (Function.update h.blockSize t r) cur (t - cur) :=
    ⟨_, rfl⟩
  have hszcur : sz cur = t - cur := by rw [hsz, Function.update_self]
  have hszt : sz t = r := by rw [hsz, Function.update_of_ne htne, Function.update_self]
  have hszo : ∀ c, c < cur ∨ cur + h.blockSize cur ≤ c → sz c = h.blockSize c := by
    intro c hc
    rw [hsz, Function.update_of_ne (by omega), Function.update_of_ne (by omega)]
  rw [← hr] at hh'
  rw [← hr, ← hsz]
  have hcells : h'.Cells sz (Function.update (relinked
      (Function.update h.blockNext t (h.blockNext cur)) 0 (F₁.getLastD 0) t) (p - 16) cur) := by
    rw [hh', hsz, splitTail, Word.sub_of_le (by omega) (by omega)]
    exact ((((h.cells_self.setSize h5 (by omega)).setNext h5 (h.blockNext_lt cur)).relink
      (getLastD_mod hs) (by omega)).setSize hal.1 (by omega)).setNext (by omega) (by omega)
  have hchain : Chain (Function.update h.blockNext t (h.blockNext cur)) 0 t ([t] ++ F₂) := by
    refine chain_cons_iff.2 ⟨rfl, by omega, ?_⟩
    rw [Function.update_self]
    refine (chain_cons_iff.1 hs.chain.suffix).2.2.update (fun hmem => ?_) _
    have := hs.free_le hmem
    omega
  have hcut : ∀ bs, Partition ((cur, h.blockSize cur) :: bs) start (start + len) →
      Partition ((cur, sz cur) :: (blocks sz [t] ++ bs)) start (start + len) := by
    intro bs hpart
    have htail : t = cur + (t - cur) := by omega
    rw [show h.blockSize cur = (t - cur) + r by omega, partition_split, ← htail] at hpart
    rw [hszcur, blocks_cons, hszt]
    exact hpart
  have hdet := hs.detach (p := p) (n := n) (fun c hc => Function.update_of_ne (by omega) _ _) hszo
    hchain (fun c hc => ?_) (List.pairwise_singleton _ t) (hcut _) h1 h2 h6
    (by omega) (by omega) (by omega) (by omega)
  · have hhead : h'.head = if F₁.getLastD 0 = 0 then t else h.head := by
      rw [hh', splitTail]
      exact relink_head _ _ _
    rw [← hhead] at hdet
    exact ⟨hdet.ofCells hcells, hcells.size⟩
  · obtain rfl : c = t := by simpa using hc
    omega

theorem taken_shape (hi : HeapInv start len h (F₁ ++ cur :: F₂) live)
    (hpos : h.Position cur p n t) (hroom : start + len ≤ 2 ^ 64) {h' : Heap}
    (hh' : h' = h.taken (F₁.getLastD 0) cur p t) :
    ∃ F, Shape start len h'.blockSize h'.blockNext h'.head F (⟨p, n, cur⟩ :: live) ∧
      Gaps h'.blockSize F ∧ h'.blockSize cur = h.consumed cur t ∧
      ∀ l ∈ live, h'.blockSize l.base = h.blockSize l.base := by
  have hs := hi.shape
  have hcur : cur ∈ blockBases (F₁ ++ cur :: F₂) live :=
    Shape.mem_bases_of_free (by simp)
  have hal := (hs.aligned cur hcur).1
  have haligned : ∀ c ∈ blockBases (F₁ ++ F₂) live, c % 16 = 0 := fun c hc =>
    (hs.aligned c (Shape.mem_bases_insert hc)).1
  have hgaps := List.pairwise_append.1 hi.gaps
  have hgaps₂ := List.pairwise_cons.1 hgaps.2.1
  have hlow : ∀ c ∈ F₁, c + h.blockSize c < cur := fun c hc =>
    hgaps.2.2 c hc cur List.mem_cons_self
  have h1 := hpos.header
  have h3 := hpos.tail
  have h4 := hpos.inside
  unfold taken at hh'
  unfold consumed
  by_cases hsplit : cur + h.blockSize cur - t ≥ minFree
  · rw [if_pos hsplit] at hh' ⊢
    simp only [minFree] at hsplit
    obtain ⟨hshape, hsize⟩ := split_shape hs hpos hroom (by omega) hh'
    have hkeep : ∀ c ∈ blockBases (F₁ ++ F₂) live, h'.blockSize c = h.blockSize c := by
      intro c hc
      have hout := hs.outside hc
      rw [hsize c (haligned c hc), Function.update_of_ne (by omega),
        Function.update_of_ne (by omega)]
    have htsize : h'.blockSize t = cur + h.blockSize cur - t := by
      rw [hsize t hpos.tail_mod, Function.update_of_ne (by omega), Function.update_self]
    refine ⟨F₁ ++ t :: F₂, hshape, ?_, ?_, fun l hl => hkeep _ (Shape.mem_bases_of_live hl)⟩
    · refine List.pairwise_append.2 ⟨Gaps.congr hgaps.1 fun c hc => ?_, List.pairwise_cons.2
        ⟨fun c hc => ?_, Gaps.congr hgaps₂.2 fun c hc => ?_⟩, fun c hc d hd => ?_⟩
      · exact hkeep c (Shape.mem_bases_of_free (by simp [hc]))
      · have h5 := hgaps₂.1 c hc
        rw [htsize]
        omega
      · exact hkeep c (Shape.mem_bases_of_free (by simp [hc]))
      · rw [hkeep c (Shape.mem_bases_of_free (by simp [hc]))]
        have h5 := hlow c hc
        rcases List.mem_cons.1 hd with rfl | hd
        · omega
        · exact hgaps.2.2 c hc d (List.mem_cons_of_mem cur hd)
    · rw [hsize cur hal, Function.update_self]
  · rw [if_neg hsplit] at hh' ⊢
    obtain ⟨hshape, hsize⟩ := whole_shape hs hpos hroom hh'
    refine ⟨F₁ ++ F₂, hshape, ?_, hsize cur hal,
      fun l hl => hsize _ (haligned _ (Shape.mem_bases_of_live hl))⟩
    have hsub : (F₁ ++ F₂).Sublist (F₁ ++ cur :: F₂) :=
      (List.Sublist.refl F₁).append (List.sublist_cons_self cur F₂)
    exact Gaps.congr (hi.gaps.sublist hsub) fun c hc => hsize c (haligned c (Shape.mem_bases_of_free hc))

theorem splitTail_mem {prev r x : Nat} (hcur : x < cur ∨ cur + 16 ≤ x) (ht : x < t ∨ t + 16 ≤ x)
    (hprev : prev = 0 ∨ x < prev ∨ prev + 16 ≤ x) : (h.splitTail prev cur t r).mem x = h.mem x := by
  rw [splitTail, setSize_mem hcur, relink_mem hprev, setNext_mem ht, setSize_mem ht]

/-- An allocation writes inside the block it takes, and the header of the free block before it. -/
theorem taken_mem {prev x : Nat} (hpos : h.Position cur p n t)
    (hx : x < cur ∨ cur + h.blockSize cur ≤ x) (hprev : prev = 0 ∨ x < prev ∨ prev + 16 ≤ x) :
    (h.taken prev cur p t).mem x = h.mem x := by
  have h1 := hpos.header
  have h3 := hpos.tail
  have h4 := hpos.inside
  unfold taken
  split_ifs with hsplit
  · simp only [minFree] at hsplit
    rw [setNext_mem (by omega), splitTail_mem (by omega) (by omega) hprev]
  · rw [setNext_mem (by omega), relink_mem hprev]

theorem taken_allocated {prev : Nat} : (h.taken prev cur p t).allocated = h.allocated := by
  simp only [taken, splitTail, relink, setSize, setNext]
  split_ifs <;> rfl

theorem taken_total {prev : Nat} : (h.taken prev cur p t).total = h.total := by
  simp only [taken, splitTail, relink, setSize, setNext]
  split_ifs <;> rfl

end Heap

/-- The requests the heap `[start, start + len)` serves: a nonzero size and a power-of-two alignment
that does not carry past the end of the address space. -/
structure Request (start len size align : Nat) : Prop where
  pos : 0 < size
  pow : ∃ k, align = 2 ^ k
  room : start + len + align ≤ 2 ^ 64

namespace Heap

variable {h : Heap} {start len align cur p n t : Nat} {F F₁ F₂ : List Nat} {live : List Live}
  {l : Live}

theorem max_align_header (hreq : Request start len n align) (hstart : 0 < start)
    (hstart16 : start % 16 = 0) (hlen16 : len % 16 = 0) :
    ∃ k, max align header = 2 ^ k ∧ 4 ≤ k ∧ k < 64 ∧ start + len + 2 ^ k ≤ 2 ^ 64 := by
  obtain ⟨k, rfl⟩ := hreq.pow
  have hroom := hreq.room
  have hpos : 0 < 2 ^ k := Nat.two_pow_pos k
  by_cases hk : 4 ≤ k
  · have hle : header ≤ 2 ^ k := Nat.pow_le_pow_right (n := 2) (by decide) hk
    refine ⟨k, max_eq_left hle, hk, ?_, hroom⟩
    by_contra hge
    have : 2 ^ 64 ≤ 2 ^ k := Nat.pow_le_pow_right (by decide) (by omega)
    omega
  · have hle : 2 ^ k ≤ 2 ^ 4 := Nat.pow_le_pow_right (by decide) (by omega)
    refine ⟨4, max_eq_right hle, le_rfl, by decide, ?_⟩
    omega

/-- `heap_alloc` looks at the free block `b`. -/
def Visits (h : Heap) (size align b : Nat) : Prop :=
  Linked.Visits h.blockNext 0 (h.fits size align) h.head b

/-- No address that `heap_alloc` computes for the block `b` wraps. -/
structure Clear (h : Heap) (align b : Nat) : Prop where
  payload : b + header + align ≤ 2 ^ 64
  stop : b + h.blockSize b < 2 ^ 64

theorem firstFit_split (hs : Shape start len h.blockSize h.blockNext h.head F live)
    (hroom : start + len ≤ 2 ^ 64) (n align : Nat) :
    ∃ F₁ F₂, F = F₁ ++ F₂ ∧ (∀ b ∈ F₁, h.fits n align b = false) ∧
      (∀ b ∈ F₂.head?, h.fits n align b = true) ∧
      h.firstFit n align = some (F₁.getLastD 0, F₂.headD 0) ∧
      ∀ b, h.Visits n align b ↔ b ∈ F₁ ∨ b ∈ F₂.head? := by
  obtain ⟨F₁, F₂, rfl, hmiss, hfound, hscan⟩ :=
    hs.chain.scan_eq (h.fits n align) 0 (hs.length_lt hroom)
  exact ⟨F₁, F₂, rfl, hmiss, hfound, hscan, fun b => hs.chain.visits_iff hmiss hfound⟩

theorem position_of_fits {k : Nat} (hk : 4 ≤ k) (hk' : k < 64) (hclear : h.Clear (2 ^ k) cur)
    (hmod : (cur + h.blockSize cur) % 16 = 0) (hn : 0 < n)
    (hfits : h.fits n (2 ^ k) cur = true) :
    h.Position cur (payloadOf cur (2 ^ k)) n
        (Word.alignUp 64 (payloadOf cur (2 ^ k) + n) header) ∧ 2 ^ k ∣ payloadOf cur (2 ^ k) := by
  obtain ⟨hpayload, hstop⟩ := hclear
  simp only [header] at hpayload
  have hpos : 0 < 2 ^ k := Nat.two_pow_pos k
  have hpay : payloadOf cur (2 ^ k) = Word.alignUp 64 (cur + 16) (2 ^ k) := by
    rw [payloadOf, header, Word.add_of_lt (by omega)]
  have hfits' : payloadOf cur (2 ^ k) + n ≤ cur + h.blockSize cur := by
    have hle := (of_decide_eq_true hfits).2
    rwa [Word.add_of_lt hstop] at hle
  rw [hpay] at hfits' ⊢
  obtain ⟨hle, -, hdvd⟩ := Word.alignUp_spec (x := cur + 16) hk' hpayload
  generalize Word.alignUp 64 (cur + 16) (2 ^ k) = p at hfits' hle hdvd ⊢
  have hp16 : 2 ^ 4 ∣ p := (Nat.pow_dvd_pow 2 hk).trans hdvd
  obtain ⟨htle, htlt, htdvd⟩ := Word.alignUp_spec (w := 64) (k := 4) (x := p + n) (by decide)
    (by omega)
  rw [show (2 : Nat) ^ 4 = header from rfl] at htle htlt htdvd
  generalize Word.alignUp 64 (p + n) header = t at htle htlt htdvd ⊢
  simp only [header] at htlt htdvd
  exact ⟨⟨hle, by omega, hn, htle, by omega, by omega⟩, hdvd⟩

theorem heapAlloc_null {prev : Nat} (hfirst : h.firstFit n (max align header) = some (prev, 0)) :
    h.heapAlloc n align = some (0, h) := by
  simp only [heapAlloc, hfirst, Option.bind_eq_bind, Option.bind_some, if_true, Option.pure_def]

/-- **Taking the block that was found** hands out a fresh payload, keeping the invariant and every
other payload. -/
theorem heapAlloc_found {k : Nat} (hi : HeapInv start len h (F₁ ++ cur :: F₂) live)
    (hroom : start + len ≤ 2 ^ 64) (hn : 0 < n) (halign : max align header = 2 ^ k) (hk : 4 ≤ k)
    (hk' : k < 64) (hfirst : h.firstFit n (2 ^ k) = some (F₁.getLastD 0, cur))
    (hclear : h.Clear (2 ^ k) cur) (hfits : h.fits n (2 ^ k) cur = true) :
    ∃ p h' F', p = payloadOf cur (2 ^ k) ∧ h.heapAlloc n align = some (p, h') ∧
      cur + 16 ≤ p ∧ p + n ≤ cur + h.blockSize cur ∧ 2 ^ k ∣ p ∧
      HeapInv start len h' F' (⟨p, n, cur⟩ :: live) ∧
      (∀ l ∈ live, h'.blockSize l.base = h.blockSize l.base) ∧
      ∀ l ∈ live, ∀ x, l.payload ≤ x → x < l.payload + l.size → h'.mem x = h.mem x := by
  have hs := hi.shape
  have hstart := hs.start_pos
  have hcur : cur ∈ blockBases (F₁ ++ cur :: F₂) live :=
    Shape.mem_bases_of_free (by simp)
  have hin := hs.inside hcur
  have hal := hs.aligned cur hcur
  obtain ⟨hpos, hdvd⟩ := position_of_fits hk hk' hclear (by omega) hn hfits
  generalize hp : payloadOf cur (2 ^ k) = p at hpos hdvd
  generalize ht : Word.alignUp 64 (p + n) header = t at hpos
  have h1 := hpos.header
  have h2 := hpos.tail
  have h3 := hpos.inside
  obtain ⟨h₁, hh₁⟩ : ∃ h₁, h₁ = h.taken (F₁.getLastD 0) cur p t := ⟨_, rfl⟩
  obtain ⟨h', hh'⟩ : ∃ h', h' =
      { h₁ with allocated := Word.add 64 h₁.allocated (h.consumed cur t) } := ⟨_, rfl⟩
  have hmem : h'.mem = h₁.mem := by rw [hh']
  have hhead : h'.head = h₁.head := by rw [hh']
  have htotal : h'.total = h₁.total := by rw [hh']
  have halloc : h'.allocated = Word.add 64 h₁.allocated (h.consumed cur t) := by rw [hh']
  have htake : h.take n (2 ^ k) (F₁.getLastD 0) cur = (p, h') := by
    rw [take_eq hp ht h1 hpos.tail hpos.inside hclear.stop, ← hh₁, hh']
  obtain ⟨F', hshape, hgaps, hsize, hlive⟩ := taken_shape hi hpos hroom hh₁
  refine ⟨p, h', F', rfl, ?_, h1, by omega, hdvd, ?_, fun l hl => ?_, fun l hl x hx hx' => ?_⟩
  · simp only [heapAlloc, halign, hfirst, Option.bind_eq_bind, Option.bind_some,
      Option.pure_def, if_neg (show ¬ cur = 0 by omega), htake]
  · refine ⟨hi.start_mod, hi.len_mod, ?_, ?_, ?_, ?_⟩
    · rw [blockSize_congr hmem, blockNext_congr hmem, hhead]
      exact hshape
    · rw [blockSize_congr hmem]
      exact hgaps
    · have hle := hshape.liveBytes_le
      have hbytes : liveBytes h₁.blockSize (⟨p, n, cur⟩ :: live) =
          h.consumed cur t + liveBytes h.blockSize live := by
        rw [← hsize, ← liveBytes_congr hlive]
        rfl
      rw [blockSize_congr hmem, halloc, hbytes, hh₁, taken_allocated, hi.allocated,
        Word.add_of_lt (by omega), Nat.add_comm]
    · rw [htotal, hh₁, taken_total, hi.total]
  · rw [blockSize_congr hmem]
    exact hlive l hl
  · -- what is written lies in the block taken or in the header of the free block before it
    have hplaced := hs.placed l hl
    have h4 := hplaced.header
    have h5 := hplaced.inside
    have h6 := hs.apart_live (show cur ∈ F₁ ++ cur :: F₂ by simp) hl
    rw [hmem, hh₁]
    refine taken_mem hpos (by omega) ?_
    rcases getLastD_cases F₁ 0 with ⟨-, hprev⟩ | hprev
    · exact Or.inl hprev
    · have hprev' : F₁.getLastD 0 ∈ F₁ ++ cur :: F₂ := List.mem_append_left _ hprev
      have h7 := hs.apart_live hprev' hl
      have h8 := hs.large _ (Shape.mem_bases_of_free hprev')
      omega

theorem clear_of_room {k b : Nat} (hs : Shape start len h.blockSize h.blockNext h.head F live)
    (hroom : start + len + 2 ^ k ≤ 2 ^ 64) (hb : b ∈ F) : h.Clear (2 ^ k) b := by
  have hin := hs.inside (Shape.mem_bases_of_free hb)
  have hlarge := hs.large b (Shape.mem_bases_of_free hb)
  have hpos : 0 < 2 ^ k := Nat.two_pow_pos k
  exact ⟨by simp only [header]; omega, by omega⟩

/-- **`heap_alloc`** returns null and changes nothing, or hands out a fresh payload, keeping the
invariant and every other payload. -/
theorem heapAlloc_spec (hi : HeapInv start len h F live) (hreq : Request start len n align) :
    h.heapAlloc n align = some (0, h) ∨
      ∃ prev cur p h' F', h.firstFit n (max align header) = some (prev, cur) ∧
        h.heapAlloc n align = some (p, h') ∧ p ≠ 0 ∧ HeapInv start len h' F' (⟨p, n, cur⟩ :: live) ∧
        max align header ∣ p ∧
        ∀ l ∈ live, ∀ x, l.payload ≤ x → x < l.payload + l.size → h'.mem x = h.mem x := by
  obtain ⟨k, halign, hk, hk', hroom⟩ :=
    max_align_header hreq hi.shape.start_pos hi.start_mod hi.len_mod
  obtain ⟨F₁, F₂, rfl, -, hfound, hfirst, -⟩ :=
    firstFit_split hi.shape (by omega) n (max align header)
  cases F₂ with
  | nil => exact Or.inl (heapAlloc_null hfirst)
  | cons cur F₂ =>
      rw [halign] at hfirst hfound ⊢
      obtain ⟨p, h', F', -, halloc, hle, -, hdvd, hinv, -, hkeep⟩ := heapAlloc_found hi (by omega)
        hreq.pos halign hk hk' hfirst (clear_of_room hi.shape hroom (by simp)) (hfound cur rfl)
      exact Or.inr ⟨_, cur, p, h', F', hfirst, halloc, by omega, hinv, hdvd, hkeep⟩

theorem write_inv (hi : HeapInv start len h F live) (hl : l ∈ live) {a : Nat} (c : UInt8)
    (ha : l.payload ≤ a) (ha' : a < l.payload + l.size) :
    HeapInv start len { h with mem := h.mem.poke a c } F live := by
  have hs := hi.shape
  have hplaced := hs.placed l hl
  have h1 := hplaced.header
  have h2 := hplaced.inside
  have hlarge := hs.large _ (Shape.mem_bases_of_live hl)
  -- the byte lies in no free block, and in no other live block
  have hfree : ∀ b ∈ F, a < b ∨ b + h.blockSize b ≤ a := fun b hb => by
    have h3 := hs.apart_live hb hl
    omega
  have hlive : ∀ l' ∈ live, l'.base + 16 ≤ a ∨ a < l'.base := fun l' hl' => by
    by_cases heq : l' = l
    · subst heq
      omega
    · have h3 := hs.live_apart hl ((List.mem_erase_of_ne heq).2 hl')
      have h4 := hs.large _ (Shape.mem_bases_of_live hl')
      omega
  have hstash : ∀ l' ∈ live, a < l'.payload - 16 ∨ l'.payload ≤ a := fun l' hl' => by
    by_cases heq : l' = l
    · subst heq
      omega
    · have h3 := hs.live_apart hl ((List.mem_erase_of_ne heq).2 hl')
      have h4 := hs.placed l' hl'
      have h5 := h4.header
      have h6 := h4.inside
      omega
  have hsz : ∀ b ∈ blockBases F live,
      ({ h with mem := h.mem.poke a c } : Heap).blockSize b = h.blockSize b := by
    intro b hb
    refine ByteMem.load_poke_of_not_mem ?_
    rcases List.mem_append.1 hb with hb | hb
    · have h3 := hfree b hb
      have h4 := hs.large b (Shape.mem_bases_of_free hb)
      omega
    · obtain ⟨l', hl', rfl⟩ := List.mem_map.1 hb
      have h3 := hlive l' hl'
      omega
  refine ⟨hi.start_mod, hi.len_mod, hs.congr hsz (fun b hb => ?_) (fun l' hl' => ?_), ?_, ?_, hi.total⟩
  · refine ByteMem.load_poke_of_not_mem ?_
    have h3 := hfree b hb
    have h4 := hs.large b (Shape.mem_bases_of_free hb)
    omega
  · refine ByteMem.load_poke_of_not_mem ?_
    have h3 := hstash l' hl'
    have h4 := (hs.placed l' hl').header
    omega
  · exact Gaps.congr hi.gaps fun b hb => hsz b (Shape.mem_bases_of_free hb)
  · exact hi.allocated.trans
      (liveBytes_congr fun l' hl' => hsz _ (Shape.mem_bases_of_live hl')).symm

end Heap

end Rolnix
