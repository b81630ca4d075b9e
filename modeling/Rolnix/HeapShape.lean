import Rolnix.Heap
import Rolnix.Lib.Interval

/-!
# The shape of the heap

Every word the allocator reads or writes, block headers and stashed bases alike, is the size or
next field of a 16-byte cell at a multiple of 16: the base stashed before a payload `p` is the
next field of the cell `p - 16`. `Cells` reads a heap that way, as two functions, and the
invariant `Shape` is about these functions:

* the free list `F` is a chain in address order;
* the free blocks and the live blocks partition the region;
* every live payload lies inside its block, behind the header, and the cell before it holds the
  base of its block.

The three edits of the allocator keep it: `Shape.detach` takes a free block for a payload,
`Shape.release` puts a live block back, `Shape.coalesce` joins two free blocks that touch.
-/

namespace Rolnix

open Linked Interval

namespace Heap

variable {h h' : Heap} {a b v : Nat} {sz nx : Nat → Nat}

/-! ## Cells -/

/-- The size and next words of all cells. -/
structure Cells (h : Heap) (sz nx : Nat → Nat) : Prop where
  size : ∀ a, a % 16 = 0 → h.blockSize a = sz a
  next : ∀ a, a % 16 = 0 → h.blockNext a = nx a

theorem cells_self (h : Heap) : h.Cells h.blockSize h.blockNext :=
  ⟨fun _ _ => rfl, fun _ _ => rfl⟩

theorem Cells.setSize (hc : h.Cells sz nx) (ha : a % 16 = 0) (hv : v < 2 ^ 64) :
    (h.setSize a v).Cells (Function.update sz a v) nx where
  size b hb := by
    rcases eq_or_ne b a with rfl | hne
    · rw [Function.update_self]
      exact ByteMem.load_store_same_of_lt (by omega)
    · rw [Function.update_of_ne hne, ← hc.size b hb]
      exact ByteMem.load_store_of_disjoint (by omega)
  next b hb := by
    rw [← hc.next b hb]
    exact ByteMem.load_store_of_disjoint (by omega)

theorem Cells.setNext (hc : h.Cells sz nx) (ha : a % 16 = 0) (hv : v < 2 ^ 64) :
    (h.setNext a v).Cells sz (Function.update nx a v) where
  size b hb := by
    rw [← hc.size b hb]
    exact ByteMem.load_store_of_disjoint (by omega)
  next b hb := by
    rcases eq_or_ne b a with rfl | hne
    · rw [Function.update_self]
      exact ByteMem.load_store_same_of_lt (by omega)
    · rw [Function.update_of_ne hne, ← hc.next b hb]
      exact ByteMem.load_store_of_disjoint (by omega)

theorem Cells.relink (hc : h.Cells sz nx) (ha : a % 16 = 0) (hv : v < 2 ^ 64) :
    (h.relink a v).Cells sz (Linked.relinked nx 0 a v) := by
  unfold Heap.relink Linked.relinked
  split_ifs
  · exact ⟨hc.size, hc.next⟩
  · exact hc.setNext ha hv

theorem relink_head (h : Heap) (a v : Nat) :
    (h.relink a v).head = if a = 0 then v else h.head := by
  unfold Heap.relink
  split_ifs
  · rfl
  · rfl

theorem blockSize_congr (hm : h'.mem = h.mem) : h'.blockSize = h.blockSize := by
  funext a
  rw [blockSize, hm, blockSize]

theorem blockNext_congr (hm : h'.mem = h.mem) : h'.blockNext = h.blockNext := by
  funext a
  rw [blockNext, hm, blockNext]

theorem blockSize_lt (h : Heap) (a : Nat) : h.blockSize a < 2 ^ 64 :=
  ByteMem.load_lt h.mem a 8

theorem blockNext_lt (h : Heap) (a : Nat) : h.blockNext a < 2 ^ 64 :=
  ByteMem.load_lt h.mem (a + 8) 8

end Heap

/-! ## The invariant -/

/-- A pointer handed out: the payload, its requested size, and the base of its block. -/
structure Live where
  payload : Nat
  size : Nat
  base : Nat
  deriving DecidableEq, Repr

/-- Bases of the blocks in use, free ones first. -/
def blockBases (F : List Nat) (live : List Live) : List Nat := F ++ live.map Live.base

/-- The blocks with these bases. -/
def blocks (sz : Nat → Nat) (bases : List Nat) : List (Nat × Nat) := bases.map fun a => (a, sz a)

theorem blocks_cons {sz : Nat → Nat} {a : Nat} {bases : List Nat} :
    blocks sz (a :: bases) = (a, sz a) :: blocks sz bases := rfl

theorem blocks_perm {sz : Nat → Nat} {bases bases' : List Nat} (h : bases.Perm bases') :
    (blocks sz bases).Perm (blocks sz bases') := h.map _

theorem blocks_congr {sz sz' : Nat → Nat} {bases : List Nat} (h : ∀ a ∈ bases, sz' a = sz a) :
    blocks sz' bases = blocks sz bases :=
  List.map_congr_left fun a ha => by rw [h a ha]

/-- A live payload lies in its block behind the header, and the cell before it holds the base. -/
structure Placed (sz nx : Nat → Nat) (l : Live) : Prop where
  header : l.base + 16 ≤ l.payload
  aligned : l.payload % 16 = 0
  pos : 0 < l.size
  inside : l.payload + l.size ≤ l.base + sz l.base
  stash : nx (l.payload - 16) = l.base

/-- The heap `[start, start + len)` with free list `F` and live pointers `live`. -/
structure Shape (start len : Nat) (sz nx : Nat → Nat) (head : Nat) (F : List Nat)
    (live : List Live) : Prop where
  start_pos : 0 < start
  chain : Chain nx 0 head F
  sorted : F.Pairwise (· < ·)
  aligned : ∀ a ∈ blockBases F live, a % 16 = 0 ∧ sz a % 16 = 0
  large : ∀ a ∈ blockBases F live, 32 ≤ sz a
  partition : Partition (blocks sz (blockBases F live)) start (start + len)
  placed : ∀ l ∈ live, Placed sz nx l

namespace Shape

variable {start len head a b c : Nat} {sz nx sz' nx' : Nat → Nat} {F F₁ F₂ rest : List Nat}
  {live : List Live} {l : Live}

theorem blocks_pos (hs : Shape start len sz nx head F live) :
    ∀ b ∈ blocks sz (blockBases F live), 0 < b.2 := by
  intro b hb
  obtain ⟨a, ha, rfl⟩ := List.mem_map.1 hb
  have := hs.large a ha
  simp only
  omega

theorem apart (hs : Shape start len sz nx head F live) (hp : (blockBases F live).Perm (a :: rest))
    (hc : c ∈ rest) : a + sz a ≤ c ∨ c + sz c ≤ a :=
  hs.partition.apart hs.blocks_pos (blocks_perm hp) (List.mem_map_of_mem (f := fun a => (a, sz a)) hc)

theorem inside (hs : Shape start len sz nx head F live) (ha : a ∈ blockBases F live) :
    start ≤ a ∧ a + sz a ≤ start + len := by
  have hlarge := hs.large a ha
  exact hs.partition.inside (List.mem_map_of_mem (f := fun a => (a, sz a)) ha) (by simp only; omega)

theorem mem_bases_of_free (ha : a ∈ F) : a ∈ blockBases F live := List.mem_append_left _ ha

theorem mem_bases_of_live (hl : l ∈ live) : l.base ∈ blockBases F live :=
  List.mem_append_right _ (List.mem_map_of_mem hl)

theorem perm_free : (blockBases (F₁ ++ a :: F₂) live).Perm (a :: blockBases (F₁ ++ F₂) live) :=
  List.perm_middle.append_right _

theorem mem_bases_insert (hc : c ∈ blockBases (F₁ ++ F₂) live) :
    c ∈ blockBases (F₁ ++ a :: F₂) live :=
  perm_free.mem_iff.2 (List.mem_cons_of_mem a hc)

theorem perm_live (hl : l ∈ live) :
    (blockBases F live).Perm (l.base :: blockBases F (live.erase l)) := by
  have hp : (live.map Live.base).Perm (l.base :: (live.erase l).map Live.base) :=
    (List.perm_cons_erase hl).map Live.base
  exact (hp.append_left F).trans List.perm_middle

/-- The fuel of the loops is enough for the free list. -/
theorem length_lt (hs : Shape start len sz nx head F live) (hroom : start + len ≤ 2 ^ 64) :
    F.length < 2 ^ 64 := by
  refine hs.chain.length_lt (by decide) fun a ha => ?_
  have hin := hs.inside (mem_bases_of_free ha)
  have hlarge := hs.large a (mem_bases_of_free ha)
  omega

theorem nodup_free (hs : Shape start len sz nx head F live) : F.Nodup := hs.chain.nodup

theorem apart_live (hs : Shape start len sz nx head F live) (ha : a ∈ F) (hl : l ∈ live) :
    a + sz a ≤ l.base ∨ l.base + sz l.base ≤ a := by
  obtain ⟨F₁, F₂, rfl⟩ := List.append_of_mem ha
  exact hs.apart perm_free (mem_bases_of_live hl)

theorem live_outside (hs : Shape start len sz nx head F live) (ha : a ∈ F) (hl : l ∈ live)
    {x : Nat} (hx : a ≤ x) (hx' : x < a + sz a) : l.base ≠ x ∧ l.payload - 16 ≠ x := by
  have hp := hs.placed l hl
  have h1 := hp.header
  have h2 := hp.inside
  have h3 := hp.pos
  have hlarge := hs.large _ (mem_bases_of_live hl)
  rcases hs.apart_live ha hl with hlt | hlt
  · exact ⟨by omega, by omega⟩
  · exact ⟨by omega, by omega⟩

theorem free_le (hs : Shape start len sz nx head (F₁ ++ a :: F₂) live) (hb : b ∈ F₂) :
    a + sz a ≤ b := by
  have hlt : a < b :=
    List.rel_of_pairwise_cons (List.pairwise_append.1 hs.sorted).2.1 hb
  have hlarge := hs.large b (mem_bases_of_free (by simp [hb]))
  rcases hs.apart perm_free (mem_bases_of_free (List.mem_append_right F₁ hb)) with hle | hle
  · exact hle
  · omega

end Shape

theorem Placed.congr {sz nx sz' nx' : Nat → Nat} {l : Live} (h : Placed sz nx l)
    (hsz : sz' l.base = sz l.base) (hnx : nx' (l.payload - 16) = nx (l.payload - 16)) :
    Placed sz' nx' l :=
  ⟨h.header, h.aligned, h.pos, by rw [hsz]; exact h.inside, by rw [hnx]; exact h.stash⟩

/-! ## Coalescing -/

namespace Shape

variable {start len head a b c : Nat} {sz nx : Nat → Nat} {F F₁ F₂ : List Nat}
  {live : List Live} {l : Live}

theorem coalesce (hs : Shape start len sz nx head (F₁ ++ a :: b :: F₂) live)
    (htouch : a + sz a = b) :
    Shape start len (Function.update sz a (sz a + sz b)) (Function.update nx a (nx b)) head
      (F₁ ++ a :: F₂) live := by
  have hnodup := hs.nodup_free
  have hane : ∀ c ∈ F₁ ++ F₂, c ≠ a := by
    rintro c hc rfl
    have hnot := (List.nodup_cons.1 (List.perm_middle.nodup_iff.1 hnodup)).1
    rcases List.mem_append.1 hc with hc | hc
    · exact hnot (List.mem_append_left _ hc)
    · exact hnot (List.mem_append_right _ (List.mem_cons_of_mem b hc))
  have ha : a ∈ F₁ ++ a :: b :: F₂ := by simp
  have hlive : ∀ l ∈ live, l.base ≠ a ∧ l.payload - 16 ≠ a := fun l hl =>
    hs.live_outside ha hl le_rfl (by have := hs.large a (mem_bases_of_free ha); omega)
  have hsub : ∀ c ∈ blockBases (F₁ ++ a :: F₂) live, c ∈ blockBases (F₁ ++ a :: b :: F₂) live := by
    intro c hc
    rcases List.mem_cons.1 (perm_free.mem_iff.1 hc) with rfl | hc
    · exact mem_bases_of_free ha
    · exact mem_bases_insert (mem_bases_insert hc)
  have hrest : ∀ c ∈ blockBases (F₁ ++ F₂) live, c ≠ a := by
    intro c hc
    rcases List.mem_append.1 hc with hc | hc
    · exact hane c hc
    · obtain ⟨l, hl, rfl⟩ := List.mem_map.1 hc
      exact (hlive l hl).1
  refine {
    start_pos := hs.start_pos
    chain := ?_
    sorted := hs.sorted.sublist ((List.Sublist.refl F₁).append ((List.sublist_cons_self b F₂).cons_cons a))
    aligned := fun c hc => ?_
    large := fun c hc => ?_
    partition := ?_
    placed := fun l hl => ?_ }
  · obtain ⟨t, hseg, -⟩ := seg_append.1 (List.append_assoc F₁ [a] (b :: F₂) ▸ hs.chain.seg)
    obtain ⟨-, hchain⟩ := (chain_cons_iff.1 (chain_cons_iff.1 hs.chain.suffix).2.2).2
    have hsplice := chain_splice hseg
      (fun hmem => hs.chain.stop_notMem (by
        rw [List.append_cons]
        exact List.mem_append_left _ hmem))
      (hnodup.sublist (by simp)) hchain (fun hmem => hane a (List.mem_append_right F₁ hmem) rfl)
    simpa using hsplice
  · have hc' := hs.aligned c (hsub c hc)
    rcases eq_or_ne c a with rfl | hne
    · have hb := hs.aligned b (mem_bases_of_free (by simp))
      rw [Function.update_self]
      omega
    · rwa [Function.update_of_ne hne]
  · have hc' := hs.large c (hsub c hc)
    rcases eq_or_ne c a with rfl | hne
    · rw [Function.update_self]
      omega
    · rwa [Function.update_of_ne hne]
  · have hp : (blockBases (F₁ ++ a :: b :: F₂) live).Perm (a :: b :: blockBases (F₁ ++ F₂) live) :=
      perm_free.trans (perm_free.cons a)
    have hsplit := hs.partition.perm (blocks_perm hp)
    rw [blocks_cons, blocks_cons, ← htouch, ← partition_split, htouch] at hsplit
    refine Partition.perm ?_ (blocks_perm perm_free.symm)
    rw [blocks_cons, Function.update_self,
      blocks_congr fun c hc => Function.update_of_ne (hrest c hc) _ _]
    exact hsplit
  · exact (hs.placed l hl).congr (Function.update_of_ne (hlive l hl).1 _ _)
      (Function.update_of_ne (hlive l hl).2 _ _)

/-! ## Releasing -/

theorem live_apart (hs : Shape start len sz nx head F live) (hl : l ∈ live) {l' : Live}
    (hl' : l' ∈ live.erase l) : l.base + sz l.base ≤ l'.base ∨ l'.base + sz l'.base ≤ l.base :=
  hs.apart (perm_live hl) (mem_bases_of_live hl')

theorem base_pos (hs : Shape start len sz nx head F live) (hl : l ∈ live) : 0 < l.base := by
  have := (hs.inside (mem_bases_of_live hl)).1
  have := hs.start_pos
  omega

theorem base_notMem (hs : Shape start len sz nx head F live) (hl : l ∈ live) : l.base ∉ F := by
  intro hmem
  have hlarge := hs.large _ (mem_bases_of_free hmem)
  exact (hs.live_outside hmem hl le_rfl (by omega)).1 rfl

theorem release (hs : Shape start len sz nx head (F₁ ++ F₂) live) (hl : l ∈ live)
    (hlow : ∀ a ∈ F₁, a < l.base) (hhigh : ∀ a ∈ F₂, l.base < a) :
    Shape start len sz
      (relinked (Function.update nx l.base (F₂.headD 0)) 0 (F₁.getLastD 0) l.base)
      (if F₁.getLastD 0 = 0 then l.base else head) (F₁ ++ l.base :: F₂) (live.erase l) := by
  have hperm : (blockBases (F₁ ++ l.base :: F₂) (live.erase l)).Perm
      (blockBases (F₁ ++ F₂) live) := perm_free.trans (perm_live hl).symm
  have hnodup := List.nodup_append.1 hs.nodup_free
  have hnot : l.base ∉ F₁ ++ F₂ := hs.base_notMem hl
  rw [List.mem_append, not_or] at hnot
  have hstop : 0 ∉ F₁ ∧ 0 ∉ F₂ := by
    have := hs.chain.stop_notMem
    rwa [List.mem_append, not_or] at this
  have hF₂ : ∀ a ∈ F₂, a ∉ F₁ := fun a ha ha₁ => hnodup.2.2 a ha₁ a ha rfl
  refine {
    start_pos := hs.start_pos
    chain := ?_
    sorted := ?_
    aligned := fun c hc => hs.aligned c (hperm.mem_iff.1 hc)
    large := fun c hc => hs.large c (hperm.mem_iff.1 hc)
    partition := hs.partition.perm (blocks_perm hperm.symm)
    placed := fun l' hl' => ?_ }
  · obtain ⟨t, hseg, -⟩ := seg_append.1 hs.chain.seg
    refine chain_relinked (hseg.congr fun a ha => ?_) hstop.1 hnodup.1 ?_
    · exact Function.update_of_ne (fun he : a = l.base => hnot.1 (he ▸ ha)) _ _
    refine chain_cons_iff.2 ⟨rfl, (hs.base_pos hl).ne', ?_⟩
    rw [relinked_of_notMem hnot.1, Function.update_self]
    refine hs.chain.drop.congr fun a ha => ?_
    rw [relinked_of_notMem (hF₂ a ha),
      Function.update_of_ne (fun he : a = l.base => hnot.2 (he ▸ ha))]
  · have hsorted := List.pairwise_append.1 hs.sorted
    refine List.pairwise_append.2 ⟨hsorted.1, List.pairwise_cons.2 ⟨hhigh, hsorted.2.1⟩, ?_⟩
    intro a ha b hb
    rcases List.mem_cons.1 hb with rfl | hb
    · exact hlow a ha
    · exact hsorted.2.2 a ha b hb
  · have hmem : l' ∈ live := List.mem_of_mem_erase hl'
    have hplaced := hs.placed l' hmem
    have h1 := hplaced.header
    have h2 := hplaced.inside
    have hlarge := hs.large _ (mem_bases_of_live hl)
    refine hplaced.congr rfl ?_
    -- the cell before the payload is neither the released block's nor a free block's
    rw [relinked_of_notMem, Function.update_of_ne]
    · rcases hs.live_apart hl hl' with hle | hle
      · omega
      · omega
    · intro hcell
      have hcell' : l'.payload - 16 ∈ F₁ ++ F₂ := List.mem_append_left F₂ hcell
      have := hs.large _ (mem_bases_of_free hcell')
      exact (hs.live_outside hcell' hmem le_rfl (by omega)).2 rfl

/-! ## Handing out -/

theorem outside (hs : Shape start len sz nx head (F₁ ++ a :: F₂) live)
    (hc : c ∈ blockBases (F₁ ++ F₂) live) : c < a ∨ a + sz a ≤ c := by
  have hlarge := hs.large a (mem_bases_of_free (by simp))
  have hc' := hs.large c (mem_bases_insert hc)
  rcases hs.apart perm_free hc with hle | hle
  · exact Or.inr hle
  · exact Or.inl (by omega)

/-- Taking the block `a` off the free list for the payload `p`. The new free blocks `R`, if any, lie
in `a` behind the payload; `nx₁` and `sz'` differ from `nx` and `sz` inside `a` only. -/
theorem detach (hs : Shape start len sz nx head (F₁ ++ a :: F₂) live) {R : List Nat}
    {sz' nx₁ : Nat → Nat} {x p n : Nat}
    (hnx : ∀ c, c < a ∨ a + sz a ≤ c → nx₁ c = nx c)
    (hsz : ∀ c, c < a ∨ a + sz a ≤ c → sz' c = sz c)
    (hchain : Chain nx₁ 0 x (R ++ F₂))
    (hR : ∀ r ∈ R, p + n ≤ r ∧ r + 32 ≤ a + sz a ∧ r % 16 = 0 ∧ sz' r % 16 = 0 ∧ 32 ≤ sz' r)
    (hRsorted : R.Pairwise (· < ·))
    (hcut : Partition ((a, sz a) :: blocks sz (blockBases (F₁ ++ F₂) live)) start (start + len) →
      Partition ((a, sz' a) :: (blocks sz' R ++ blocks sz (blockBases (F₁ ++ F₂) live)))
        start (start + len))
    (hp : a + 16 ≤ p) (hpa : p % 16 = 0) (hn : 0 < n) (hfit : p + n ≤ a + sz' a)
    (hle : sz' a ≤ sz a) (hsza : sz' a % 16 = 0) (hlarge : 32 ≤ sz' a) :
    Shape start len sz' (Function.update (relinked nx₁ 0 (F₁.getLastD 0) x) (p - 16) a)
      (if F₁.getLastD 0 = 0 then x else head) (F₁ ++ (R ++ F₂)) (⟨p, n, a⟩ :: live) := by
  have hmem : a ∈ F₁ ++ a :: F₂ := by simp
  have hout : ∀ c ∈ blockBases (F₁ ++ F₂) live, c < a ∨ a + sz a ≤ c := fun c hc => hs.outside hc
  have hF₁ : ∀ c ∈ F₁, c < a ∨ a + sz a ≤ c := fun c hc => hout c (mem_bases_of_free (by simp [hc]))
  have hF₂ : ∀ c ∈ F₂, c < a ∨ a + sz a ≤ c := fun c hc => hout c (mem_bases_of_free (by simp [hc]))
  have hlow : ∀ c ∈ F₁, c < a := fun c hc =>
    (List.pairwise_append.1 hs.sorted).2.2 c hc a List.mem_cons_self
  have hhigh : ∀ c ∈ F₂, a < c := fun c hc =>
    List.rel_of_pairwise_cons (List.pairwise_append.1 hs.sorted).2.1 hc
  have hnodup := List.nodup_append.1 hs.nodup_free
  have hcell : ∀ c, c < a ∨ a + sz a ≤ c → c ≠ p - 16 := by omega
  have hRcell : ∀ r ∈ R, r ≠ p - 16 ∧ r ∉ F₁ := by
    intro r hr
    obtain ⟨h1, h2, -⟩ := hR r hr
    refine ⟨by omega, fun hr₁ => ?_⟩
    have := hlow r hr₁
    omega
  -- the blocks after, with the new live block first
  have hperm : (blockBases (F₁ ++ (R ++ F₂)) (⟨p, n, a⟩ :: live)).Perm
      (a :: (R ++ blockBases (F₁ ++ F₂) live)) := by
    have hmid : (F₁ ++ (R ++ F₂)).Perm (R ++ (F₁ ++ F₂)) := by
      rw [← List.append_assoc, ← List.append_assoc]
      exact List.perm_append_comm.append_right F₂
    have hbases := (hmid.append_right (a :: live.map Live.base)).trans List.perm_middle
    simpa [blockBases, List.append_assoc] using hbases
  have hbase : ∀ c ∈ blockBases (F₁ ++ (R ++ F₂)) (⟨p, n, a⟩ :: live),
      c = a ∨ c ∈ R ∨ c ∈ blockBases (F₁ ++ F₂) live := by
    intro c hc
    have hc' := hperm.mem_iff.1 hc
    rwa [List.mem_cons, List.mem_append] at hc'
  refine {
    start_pos := hs.start_pos
    chain := ?_
    sorted := ?_
    aligned := fun c hc => ?_
    large := fun c hc => ?_
    partition := ?_
    placed := fun l hl => ?_ }
  · obtain ⟨t, hseg, -⟩ := seg_append.1 hs.chain.seg
    have hstop : 0 ∉ F₁ := fun h0 => hs.chain.stop_notMem (List.mem_append_left _ h0)
    have hlink : Chain (relinked nx₁ 0 (F₁.getLastD 0) x) 0 x (R ++ F₂) := by
      refine hchain.congr fun c hc => relinked_of_notMem fun hc₁ => ?_
      rcases List.mem_append.1 hc with hr | hc₂
      · exact (hRcell c hr).2 hc₁
      · exact absurd (hlow c hc₁) (by have := hhigh c hc₂; omega)
    refine (chain_relinked (hseg.congr fun c hc => hnx c (hF₁ c hc)) hstop hnodup.1 hlink).update ?_ a
    intro hmem
    rcases List.mem_append.1 hmem with hc | hc
    · exact hcell _ (hF₁ _ hc) rfl
    · rcases List.mem_append.1 hc with hr | hc
      · exact (hRcell _ hr).1 rfl
      · exact hcell _ (hF₂ _ hc) rfl
  · have hsorted := List.pairwise_append.1 hs.sorted
    have htail : (R ++ F₂).Pairwise (· < ·) := by
      refine List.pairwise_append.2 ⟨hRsorted, (List.pairwise_cons.1 hsorted.2.1).2, ?_⟩
      intro r hr c hc
      have h1 := (hR r hr).2.1
      have h2 := hF₂ c hc
      have h3 := hhigh c hc
      omega
    refine List.pairwise_append.2 ⟨hsorted.1, htail, fun c hc d hd => ?_⟩
    have h1 := hlow c hc
    rcases List.mem_append.1 hd with hr | hd
    · have h2 := (hR d hr).1
      omega
    · have h2 := hhigh d hd
      omega
  · rcases hbase c hc with rfl | hr | ho
    · exact ⟨(hs.aligned c (mem_bases_of_free hmem)).1, hsza⟩
    · exact ⟨(hR c hr).2.2.1, (hR c hr).2.2.2.1⟩
    · rw [hsz c (hout c ho)]
      exact hs.aligned c (mem_bases_insert ho)
  · rcases hbase c hc with rfl | hr | ho
    · exact hlarge
    · exact (hR c hr).2.2.2.2
    · rw [hsz c (hout c ho)]
      exact hs.large c (mem_bases_insert ho)
  · have hcut' := hcut (hs.partition.perm (blocks_perm perm_free))
    rw [← blocks_congr fun c hc => hsz c (hout c hc)] at hcut'
    refine Partition.perm ?_ (blocks_perm hperm.symm)
    rw [blocks_cons, blocks, List.map_append]
    exact hcut'
  · rcases List.mem_cons.1 hl with rfl | hl
    · exact ⟨hp, hpa, hn, hfit, Function.update_self _ _ _⟩
    · have hplaced := hs.placed l hl
      have h1 := hplaced.header
      have h2 := hplaced.inside
      have h3 := hs.large _ (mem_bases_of_live hl)
      have h4 := hs.apart_live hmem hl
      have hcell' : l.payload - 16 < a ∨ a + sz a ≤ l.payload - 16 := by omega
      refine hplaced.congr (hsz _ (hout _ (mem_bases_of_live hl))) ?_
      rw [Function.update_of_ne (hcell _ hcell'), relinked_of_notMem, hnx _ hcell']
      intro hc
      have hc' : l.payload - 16 ∈ F₁ ++ a :: F₂ := List.mem_append_left _ hc
      have := hs.large _ (mem_bases_of_free hc')
      exact (hs.live_outside hc' hl le_rfl (by omega)).2 rfl

end Shape

/-- The shape depends on the sizes of the blocks, the links of the free ones and the stashed bases. -/
theorem Shape.congr {start len head : Nat} {sz nx sz' nx' : Nat → Nat} {F : List Nat}
    {live : List Live} (hs : Shape start len sz nx head F live)
    (hsz : ∀ a ∈ blockBases F live, sz' a = sz a) (hnx : ∀ a ∈ F, nx' a = nx a)
    (hstash : ∀ l ∈ live, nx' (l.payload - 16) = nx (l.payload - 16)) :
    Shape start len sz' nx' head F live where
  start_pos := hs.start_pos
  chain := hs.chain.congr hnx
  sorted := hs.sorted
  aligned a ha := by rw [hsz a ha]; exact hs.aligned a ha
  large a ha := by rw [hsz a ha]; exact hs.large a ha
  partition := by rw [blocks_congr hsz]; exact hs.partition
  placed l hl := (hs.placed l hl).congr (hsz _ (Shape.mem_bases_of_live hl)) (hstash l hl)

theorem Shape.ofCells {start len head : Nat} {sz nx : Nat → Nat} {F : List Nat} {live : List Live}
    {h : Heap} (hs : Shape start len sz nx head F live) (hc : h.Cells sz nx) :
    Shape start len h.blockSize h.blockNext head F live := by
  refine hs.congr (fun a ha => hc.size a (hs.aligned a ha).1)
    (fun a ha => hc.next a (hs.aligned a (Shape.mem_bases_of_free ha)).1) fun l hl => ?_
  have h1 := (hs.placed l hl).aligned
  exact hc.next _ (by omega)

end Rolnix
