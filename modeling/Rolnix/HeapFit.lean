import Rolnix.HeapRun

/-!
# Where the heap places a request

`heap_alloc` takes the first free block that fits. Two results about one request, in every state
that earlier requests can lead to:

* `heap_no_wrap`: the addresses it computes are the ones meant, and the payload lies in a free
  block, exactly if for every block it looks at the payload's address and the end of the block are
  addresses. One block high in the address space and a large alignment are enough to break that
  (`heap_wraps`).
* `first_fit_complete`: then the request is served if some run of bytes between the live blocks can
  hold it, in the lowest such run and at its lowest address.

The second rests on coalescing: free blocks never touch, so they are the maximal free runs
(`HeapInv.freeRun_iff`).
-/

namespace Rolnix

open Linked Interval Relation

/-! ## Requests that wrap nowhere -/

/-- For every block it looks at, `heap_alloc` computes addresses. -/
def Heap.AllClear (h : Heap) (size align : Nat) : Prop :=
  ∀ b, h.Visits size (max align header) b → h.Clear (max align header) b

/-- A layout that wraps nowhere. -/
structure Heap.ClearRequest (h : Heap) (size align : Nat) : Prop where
  pos : 0 < size
  pow : ∃ k, align = 2 ^ k
  clear : h.AllClear size align

/-- No request wraps. -/
abbrev ClearStep : HeapState → HeapState → Prop := RequestStep Heap.ClearRequest

namespace Heap

variable {h : Heap} {start len n align b : Nat} {F : List Nat} {live : List Live}

theorem max_header_pow (hpow : ∃ k, align = 2 ^ k) : ∃ k, max align header = 2 ^ k ∧ 4 ≤ k := by
  obtain ⟨k, rfl⟩ := hpow
  by_cases hk : 4 ≤ k
  · exact ⟨k, max_eq_left (Nat.pow_le_pow_right (n := 2) (by decide) hk), hk⟩
  · have hle : 2 ^ k ≤ 2 ^ 4 := Nat.pow_le_pow_right (by decide) (by omega)
    exact ⟨4, max_eq_right hle, le_rfl⟩

theorem Clear.lt {k : Nat} (hclear : h.Clear (2 ^ k) b) : k < 64 := by
  have hle := hclear.payload
  simp only [header] at hle
  exact (Nat.pow_lt_pow_iff_right (by decide)).1 (show 2 ^ k < 2 ^ 64 by omega)

theorem mem_of_visits (hs : Shape start len h.blockSize h.blockNext h.head F live)
    (hroom : start + len ≤ 2 ^ 64) (hb : h.Visits n align b) : b ∈ F := by
  obtain ⟨F₁, F₂, rfl, -, -, -, hvisits⟩ := firstFit_split hs hroom n align
  obtain hb | hb := (hvisits b).1 hb
  · exact List.mem_append_left _ hb
  · exact List.mem_append_right _ (List.mem_of_mem_head? hb)

/-- **A request that wraps nowhere**: no free block fits it, or the first one that does is taken. -/
theorem heapAlloc_clear (hi : HeapInv start len h F live) (hroom : start + len ≤ 2 ^ 64)
    (hpos : 0 < n) (hpow : ∃ k, align = 2 ^ k) (hclear : h.AllClear n align) :
    (h.heapAlloc n align = some (0, h) ∧
        ∀ b ∈ F, h.fits n (max align header) b = false ∧ h.Clear (max align header) b) ∨
      ∃ F₁ cur F₂ h' F', F = F₁ ++ cur :: F₂ ∧
        (∀ b ∈ F₁, h.fits n (max align header) b = false ∧ h.Clear (max align header) b) ∧
        h.Clear (max align header) cur ∧
        h.firstFit n (max align header) = some (F₁.getLastD 0, cur) ∧
        h.heapAlloc n align = some (payloadOf cur (max align header), h') ∧
        cur + 16 ≤ payloadOf cur (max align header) ∧
        payloadOf cur (max align header) + n ≤ cur + h.blockSize cur ∧
        HeapInv start len h' F' (⟨payloadOf cur (max align header), n, cur⟩ :: live) ∧
        ∀ l ∈ live, h'.blockSize l.base = h.blockSize l.base := by
  obtain ⟨k, halign, hk⟩ := max_header_pow hpow
  obtain ⟨F₁, F₂, rfl, hmiss, hfound, hfirst, hvisits⟩ :=
    firstFit_split hi.shape hroom n (max align header)
  have hbefore : ∀ b ∈ F₁, h.fits n (max align header) b = false ∧ h.Clear (max align header) b :=
    fun b hb => ⟨hmiss b hb, hclear b ((hvisits b).2 (Or.inl hb))⟩
  cases F₂ with
  | nil =>
      left
      rw [List.append_nil]
      exact ⟨heapAlloc_null hfirst, hbefore⟩
  | cons cur F₂ =>
      right
      have hcur : h.Clear (max align header) cur := hclear cur ((hvisits cur).2 (Or.inr rfl))
      have hfits : h.fits n (max align header) cur = true := hfound cur rfl
      refine ⟨F₁, cur, F₂, ?_⟩
      rw [halign] at hcur hfits hfirst hbefore ⊢
      obtain ⟨p, h', F', rfl, halloc, hle, hend, -, hinv, hsize, -⟩ :=
        heapAlloc_found hi hroom hpos halign hk hcur.lt hfirst hcur hfits
      exact ⟨h', F', rfl, hbefore, hcur, hfirst, halloc, hle, hend, hinv, hsize⟩

end Heap

/-- The requests of `Rolnix.HeapRun` wrap nowhere. -/
theorem Request.allClear {h : Heap} {start len n align : Nat} {F : List Nat} {live : List Live}
    (hreq : Request start len n align) (hi : HeapInv start len h F live) : h.AllClear n align := by
  obtain ⟨k, halign, -, -, hroom⟩ :=
    Heap.max_align_header hreq hi.shape.start_pos hi.start_mod hi.len_mod
  intro b hb
  have hbF := Heap.mem_of_visits hi.shape (by omega) hb
  rw [halign]
  exact Heap.clear_of_room hi.shape hroom hbF

namespace HeapState

variable {start len : Nat} {st : HeapState}

theorem served_of_clear {h : Heap} {F : List Nat} {live : List Live} {size align : Nat}
    (hroom : start + len ≤ 2 ^ 64) (hinv : HeapInv start len h F live)
    (hreq : h.ClearRequest size align) : Served start len h live size align := by
  refine ⟨hroom, ?_⟩
  obtain ⟨hnull, -⟩ | ⟨F₁, cur, F₂, h', F', -, -, -, hfirst, hfound, hle, -, hinv', -⟩ :=
    Heap.heapAlloc_clear hinv hroom hreq.pos hreq.pow hreq.clear
  · exact Or.inl hnull
  · exact Or.inr ⟨_, cur, _, h', F', hfirst, hfound, by omega, hinv'⟩

/-- **The run lemma.** -/
theorem clear_run {h h₀ : Heap} (hstart : start ≠ 0) (hroom : start + len ≤ 2 ^ 64)
    (hinit : h.heapInit start len = some h₀) (hrun : ReflTransGen ClearStep ⟨h₀, []⟩ st) :
    ∃ F, HeapInv start len st.heap F st.live := by
  have hinv : st.Inv start len := by
    induction hrun with
    | refl => exact inv_heapInit hstart (by omega) hinit
    | tail _ hstep ih => exact ih.request_step (served_of_clear hroom) hstep
  exact hinv.1

end HeapState

/-! ## Exact addresses -/

namespace Heap

variable {h : Heap} {start len n align b k : Nat} {F : List Nat} {live : List Live}

/-- Where the tail of a block starts, behind the payload. -/
def tailOf (size align base : Nat) : Nat :=
  Word.alignUp 64 (Word.add 64 (payloadOf base align) size) header

/-- The words `heap_alloc` computes for block `b` are the numbers they stand for. The last four
are computed only if the block fits. -/
structure Exact (h : Heap) (size align b : Nat) : Prop where
  header : Word.add 64 b header = b + header
  payload : payloadOf b align = Word.ceilTo (b + Rolnix.header) align
  stop : Word.add 64 b (h.blockSize b) = b + h.blockSize b
  payloadEnd : h.fits size align b = true →
    Word.add 64 (payloadOf b align) size = payloadOf b align + size
  tail : h.fits size align b = true →
    tailOf size align b = Word.ceilTo (payloadOf b align + size) Rolnix.header
  remainder : h.fits size align b = true →
    Word.sub 64 (Word.add 64 b (h.blockSize b)) (tailOf size align b) + tailOf size align b =
      b + h.blockSize b
  consumed : h.fits size align b = true →
    Word.sub 64 (tailOf size align b) b + b = tailOf size align b
  stash : h.fits size align b = true →
    Word.sub 64 (payloadOf b align) 8 + 8 = payloadOf b align

/-- **The addresses are exact exactly if the payload and the end of the block are addresses.** -/
theorem exact_iff (hs : Shape start len h.blockSize h.blockNext h.head F live)
    (hroom : start + len ≤ 2 ^ 64) (hpos : 0 < n) (hk : 4 ≤ k) (hk' : k < 64) (hb : b ∈ F) :
    h.Exact n (2 ^ k) b ↔ h.Clear (2 ^ k) b := by
  have hin := hs.inside (Shape.mem_bases_of_free hb)
  have hlarge := hs.large b (Shape.mem_bases_of_free hb)
  have hal := hs.aligned b (Shape.mem_bases_of_free hb)
  have hhead : Word.add 64 b header = b + header :=
    Word.add_of_lt (by simp only [header]; omega)
  have hpay : payloadOf b (2 ^ k) = Word.alignUp 64 (b + header) (2 ^ k) := by
    rw [payloadOf, hhead]
  constructor
  · intro hexact
    refine ⟨(Word.alignUp_eq_ceilTo_iff hk').1 (hpay.symm.trans hexact.payload), ?_⟩
    rw [← hexact.stop]
    exact Word.add_lt 64 _ _
  · intro hclear
    have hstop : Word.add 64 b (h.blockSize b) = b + h.blockSize b := Word.add_of_lt hclear.stop
    have hlt := hclear.stop
    have hposition : h.fits n (2 ^ k) b = true → h.Position b (payloadOf b (2 ^ k)) n
        (Word.alignUp 64 (payloadOf b (2 ^ k) + n) header) := fun hfits =>
      (position_of_fits hk hk' hclear (by omega) hpos hfits).1
    have hend : h.fits n (2 ^ k) b = true →
        Word.add 64 (payloadOf b (2 ^ k)) n = payloadOf b (2 ^ k) + n := by
      intro hfits
      have h1 := (hposition hfits).tail
      have h2 := (hposition hfits).inside
      exact Word.add_of_lt (by omega)
    have htail : h.fits n (2 ^ k) b = true →
        tailOf n (2 ^ k) b = Word.alignUp 64 (payloadOf b (2 ^ k) + n) header := fun hfits => by
      rw [tailOf, hend hfits]
    refine ⟨hhead, hpay.trans ((Word.alignUp_eq_ceilTo_iff hk').2 hclear.payload), hstop, hend,
      fun hfits => ?_, fun hfits => ?_, fun hfits => ?_, fun hfits => ?_⟩
    · rw [htail hfits, show header = 2 ^ 4 from rfl, Word.alignUp_eq_ceilTo_iff (by decide)]
      have h1 := (hposition hfits).tail
      have h2 := (hposition hfits).inside
      omega
    · have h2 := (hposition hfits).inside
      rw [htail hfits, hstop, Word.sub_of_le h2 hlt]
      omega
    · have h0 := (hposition hfits).header
      have h1 := (hposition hfits).tail
      have h2 := (hposition hfits).inside
      rw [htail hfits, Word.sub_of_le (by omega) (by omega)]
      omega
    · have h0 := (hposition hfits).header
      have h1 := (hposition hfits).tail
      have h2 := (hposition hfits).inside
      rw [Word.sub_of_le (by omega) (by omega)]
      omega

end Heap

/-- A valid `Layout` of nonzero size: the size rounded up to the alignment is an `isize`. -/
structure AllocLayout (size align : Nat) : Prop where
  pos : 0 < size
  pow : ∃ k, align = 2 ^ k
  le_isize : Word.ceilTo size align ≤ 2 ^ 63 - 1

theorem AllocLayout.lt {size k : Nat} (hl : AllocLayout size (2 ^ k)) : k < 64 := by
  have hpos : 0 < 2 ^ k := Nat.two_pow_pos k
  have hle := hl.le_isize
  have hsize : size ≤ Word.ceilTo size (2 ^ k) := Word.le_ceilTo hpos
  have hdvd : 2 ^ k ∣ Word.ceilTo size (2 ^ k) := Word.dvd_ceilTo
  have hmul : 2 ^ k ≤ Word.ceilTo size (2 ^ k) := Nat.le_of_dvd (hl.pos.trans_le hsize) hdvd
  exact (Nat.pow_lt_pow_iff_right (by decide)).1 (show 2 ^ k < 2 ^ 64 by omega)

section Run

variable {h h₀ : Heap} {start size n align : Nat} {st : HeapState}

/-- **When heap requests wrap.** In a heap inside the address space whose earlier requests wrapped
nowhere, the addresses `heap_alloc` computes for a layout are exact, and it returns null and changes
nothing or a payload inside a free block, if and only if for every free block it looks at the
rounded payload and the end of the block are addresses. Where `b + 16 + align` is `2 ^ 64` itself, the
sum in `align_up` wraps to 0 and the subtraction of 1 takes it back; with overflow checks that is a
panic. -/
theorem heap_no_wrap (hstart : start ≠ 0) (hroom : start + size ≤ 2 ^ 64)
    (hinit : h.heapInit start size = some h₀) (hrun : ReflTransGen ClearStep ⟨h₀, []⟩ st)
    (hlayout : AllocLayout n align) :
    ((∀ b, st.heap.Visits n (max align header) b → st.heap.Exact n (max align header) b) ∧
      (st.heap.heapAlloc n align = some (0, st.heap) ∨
        ∃ F b p h', Chain st.heap.blockNext 0 st.heap.head F ∧ b ∈ F ∧
          st.heap.heapAlloc n align = some (p, h') ∧ b ≤ p ∧ p + n ≤ b + st.heap.blockSize b)) ↔
      ∀ b, st.heap.Visits n (max align header) b →
        b + 16 + max align 16 ≤ 2 ^ 64 ∧ b + st.heap.blockSize b < 2 ^ 64 := by
  obtain ⟨F, hi⟩ := HeapState.clear_run hstart hroom hinit hrun
  obtain ⟨k, halign, hk⟩ := Heap.max_header_pow hlayout.pow
  have hk' : k < 64 := by
    obtain ⟨j, rfl⟩ := hlayout.pow
    have hj := hlayout.lt
    refine (Nat.pow_lt_pow_iff_right (a := 2) (by decide)).1 ?_
    rw [← halign]
    exact max_lt (Nat.pow_lt_pow_right (by decide) hj) (by decide)
  have hiff : ∀ b, st.heap.Visits n (max align header) b →
      (st.heap.Exact n (max align header) b ↔ st.heap.Clear (max align header) b) := by
    intro b hb
    have hbF := Heap.mem_of_visits hi.shape hroom hb
    rw [halign]
    exact Heap.exact_iff hi.shape hroom hlayout.pos hk hk' hbF
  constructor
  · rintro ⟨hexact, -⟩ b hb
    have hclear := (hiff b hb).1 (hexact b hb)
    exact ⟨hclear.payload, hclear.stop⟩
  · intro hcond
    have hclear : st.heap.AllClear n align := fun b hb => ⟨(hcond b hb).1, (hcond b hb).2⟩
    refine ⟨fun b hb => (hiff b hb).2 (hclear b hb), ?_⟩
    obtain ⟨hnull, -⟩ | ⟨F₁, cur, F₂, h', F', rfl, -, -, -, hfound, hle, hend, -⟩ :=
      Heap.heapAlloc_clear hi hroom hlayout.pos hlayout.pow hclear
    · exact Or.inl hnull
    · exact Or.inr ⟨_, cur, _, h', hi.shape.chain, by simp, hfound, by omega, hend⟩

end Run

theorem heap64_clear :
    ∃ h₀, (Heap.empty fun _ => 0).heapInit 4096 64 = some h₀ ∧ h₀.AllClear 8 8 ∧
      (h₀.heapAlloc 8 8).map Prod.fst = some 4112 := by
  obtain ⟨h₀, hinit⟩ : ∃ h₀, (Heap.empty fun _ => 0).heapInit 4096 64 = some h₀ := ⟨_, rfl⟩
  have halloc : (h₀.heapAlloc 8 8).map Prod.fst = some 4112 := by
    obtain rfl := Option.some.inj hinit
    decide +kernel
  have hreq : Request 4096 64 8 8 := ⟨by decide, ⟨3, rfl⟩, by decide⟩
  obtain ⟨⟨F, hi⟩, -⟩ := inv_heapInit (by decide) (by decide) hinit
  exact ⟨h₀, hinit, hreq.allClear hi, halloc⟩

/-- The first request to a heap of 64 bytes is exact. -/
theorem heap_no_wrap_small :
    ∃ h₀, (Heap.empty fun _ => 0).heapInit 4096 64 = some h₀ ∧
      ∀ b, h₀.Visits 8 (max 8 header) b → h₀.Exact 8 (max 8 header) b := by
  obtain ⟨h₀, hinit, hclear, -⟩ := heap64_clear
  have hlayout : AllocLayout 8 8 := ⟨by decide, ⟨3, rfl⟩, by decide⟩
  refine ⟨h₀, hinit, ((heap_no_wrap (by decide) (by decide) hinit ReflTransGen.refl hlayout).2 ?_).1⟩
  exact fun b hb => ⟨(hclear b hb).payload, (hclear b hb).stop⟩

/-- **A request that wraps.** The heap is where the kernel's is, and the alignment is `2 ^ 48`. The
payload's address wraps to zero and passes the fit test, so null is returned but the free list now
starts at address 16. -/
theorem heap_wraps :
    ∃ h₀, (Heap.empty fun _ => 0).heapInit 0xffff800000800000 0x800000 = some h₀ ∧
      0xffff800000800000 + 0x800000 ≤ 2 ^ 64 ∧ AllocLayout 8 (2 ^ 48) ∧
      (h₀.heapAlloc 8 (2 ^ 48)).map (fun r => (r.1, r.2.head)) = some (0, 16) ∧
      ¬ (h₀.heapAlloc 8 (2 ^ 48) = some (0, h₀) ∨
        ∃ F b p h', Chain h₀.blockNext 0 h₀.head F ∧ b ∈ F ∧
          h₀.heapAlloc 8 (2 ^ 48) = some (p, h') ∧ b ≤ p ∧ p + 8 ≤ b + h₀.blockSize b) := by
  obtain ⟨h₀, hinit⟩ : ∃ h₀, (Heap.empty fun _ => 0).heapInit 0xffff800000800000 0x800000 = some h₀ :=
    ⟨_, rfl⟩
  have hhead : h₀.head = 0xffff800000800000 := by
    obtain rfl := Option.some.inj hinit
    rfl
  have halloc : (h₀.heapAlloc 8 (2 ^ 48)).map (fun r => (r.1, r.2.head)) = some (0, 16) := by
    obtain rfl := Option.some.inj hinit
    decide +kernel
  refine ⟨h₀, hinit, by decide, ⟨by decide, ⟨48, rfl⟩, by decide⟩, halloc, ?_⟩
  obtain ⟨⟨p, h'⟩, hp, heq⟩ := Option.map_eq_some_iff.1 halloc
  obtain ⟨rfl, hhead'⟩ := Prod.mk.inj heq
  rintro (hnull | ⟨F, b, p', h₁, hchain, hb, hp', hle, -⟩)
  · obtain ⟨-, rfl⟩ := Prod.mk.inj (Option.some.inj (hp.symm.trans hnull))
    rw [hhead] at hhead'
    cases hhead'
  · obtain ⟨rfl, -⟩ := Prod.mk.inj (Option.some.inj (hp.symm.trans hp'))
    obtain rfl : b = 0 := Nat.le_zero.1 hle
    exact hchain.stop_notMem hb

/-! ## First fit -/

/-- The byte is in the region and in no live block. -/
def HeapState.FreeByte (start len : Nat) (st : HeapState) (x : Nat) : Prop :=
  (start ≤ x ∧ x < start + len) ∧ ∀ l ∈ st.live, ¬ Contains (l.base, st.heap.blockSize l.base) x

/-- A header at `a`, then a payload at `q`, before `e`. -/
def Admits (a e size align q : Nat) : Prop := a + 16 ≤ q ∧ align ∣ q ∧ q + size ≤ e

namespace HeapInv

variable {start len : Nat} {h : Heap} {F : List Nat} {live : List Live}

theorem gapped (hi : HeapInv start len h F live) : Gapped (blocks h.blockSize F) :=
  List.pairwise_map.2 hi.gaps

theorem blocks_pos (hi : HeapInv start len h F live) : ∀ b ∈ blocks h.blockSize F, 0 < b.2 := by
  intro b hb
  obtain ⟨a, ha, rfl⟩ := List.mem_map.1 hb
  exact Nat.lt_of_lt_of_le (by decide) (hi.shape.large a (Shape.mem_bases_of_free ha))

end HeapInv

namespace HeapInv

variable {start len : Nat} {st : HeapState} {F : List Nat} {n align b a e x : Nat}

theorem freeByte_iff (hi : HeapInv start len st.heap F st.live) :
    st.FreeByte start len x ↔ Covered (blocks st.heap.blockSize F) x := by
  constructor
  · rintro ⟨hin, hlive⟩
    have hone := hi.shape.partition x
    rw [if_pos hin] at hone
    obtain ⟨c, hc, hcx⟩ := List.countP_pos_iff.1 (by rw [← hits, hone]; decide)
    obtain ⟨a, ha, rfl⟩ := List.mem_map.1 hc
    rcases List.mem_append.1 ha with ha | ha
    · exact ⟨_, List.mem_map_of_mem ha, of_decide_eq_true hcx⟩
    · obtain ⟨l, hl, rfl⟩ := List.mem_map.1 ha
      exact absurd (of_decide_eq_true hcx) (hlive l hl)
  · rintro ⟨c, hc, hle, hlt⟩
    obtain ⟨a, ha, rfl⟩ := List.mem_map.1 hc
    have hin := hi.shape.inside (Shape.mem_bases_of_free ha)
    simp only at hle hlt
    refine ⟨by omega, ?_⟩
    rintro l hl ⟨hle', hlt'⟩
    simp only at hle' hlt'
    rcases hi.shape.apart_live ha hl with h | h
    · omega
    · omega

/-- **The maximal free runs are the free blocks**, since those never touch. -/
theorem freeRun_iff (hi : HeapInv start len st.heap F st.live) :
    MaxRun (st.FreeByte start len) a e ↔ ∃ b ∈ F, a = b ∧ e = b + st.heap.blockSize b := by
  have hfree : st.FreeByte start len = Covered (blocks st.heap.blockSize F) :=
    funext fun x => propext hi.freeByte_iff
  rw [hfree, hi.gapped.maxRun_iff hi.blocks_pos]
  constructor
  · rintro ⟨c, hc, ha, he⟩
    obtain ⟨b, hb, rfl⟩ := List.mem_map.1 hc
    exact ⟨b, hb, ha, he⟩
  · rintro ⟨b, hb, ha, he⟩
    exact ⟨_, List.mem_map_of_mem hb, ha, he⟩

theorem payloadOf_least (hi : HeapInv start len st.heap F st.live) (hb : b ∈ F)
    (hpow : ∃ k, align = 2 ^ k) (hclear : st.heap.Clear (max align header) b) :
    b + 16 ≤ Heap.payloadOf b (max align header) ∧
      align ∣ Heap.payloadOf b (max align header) ∧
      ∀ q, b + 16 ≤ q → align ∣ q → Heap.payloadOf b (max align header) ≤ q := by
  have hal := (hi.shape.aligned b (Shape.mem_bases_of_free hb)).1
  obtain ⟨k, halign, hk⟩ := Heap.max_header_pow hpow
  obtain ⟨j, rfl⟩ := hpow
  have hpos : 0 < max (2 ^ j) header := by
    rw [halign]
    exact Nat.two_pow_pos k
  have hpay : Heap.payloadOf b (max (2 ^ j) header) = Word.ceilTo (b + 16) (max (2 ^ j) header) := by
    rw [halign] at hclear ⊢
    have hle := hclear.payload
    simp only [header] at hle
    have hk0 : 0 < 2 ^ k := Nat.two_pow_pos k
    rw [Heap.payloadOf, header, Word.add_of_lt (by omega)]
    exact (Word.alignUp_eq_ceilTo_iff hclear.lt).2 hle
  rw [hpay]
  refine ⟨Word.le_ceilTo hpos, ?_, fun q hq hdvd => ?_⟩
  · refine Nat.dvd_trans ?_ Word.dvd_ceilTo
    rw [halign]
    refine Nat.pow_dvd_pow 2 ((Nat.pow_le_pow_iff_right (a := 2) (by decide)).1 ?_)
    rw [← halign]
    exact Nat.le_max_left _ _
  · by_cases hj : header ≤ 2 ^ j
    · rw [max_eq_left hj]
      exact Word.ceilTo_le (Nat.two_pow_pos j) hq hdvd
    · -- the address behind the header is a multiple of 16 already
      rw [max_eq_right (by omega)]
      refine (Word.ceilTo_le (by decide) le_rfl ?_).trans hq
      simp only [header]
      omega

theorem fits_iff (hi : HeapInv start len st.heap F st.live) (hb : b ∈ F)
    (hpow : ∃ k, align = 2 ^ k) (hclear : st.heap.Clear (max align header) b) :
    st.heap.fits n (max align header) b = true ↔
      ∃ q, Admits b (b + st.heap.blockSize b) n align q := by
  obtain ⟨hle, hdvd, hleast⟩ := hi.payloadOf_least hb hpow hclear
  have hstop := hclear.stop
  have hfits : st.heap.fits n (max align header) b = true ↔
      Heap.payloadOf b (max align header) + n ≤ b + st.heap.blockSize b := by
    rw [Heap.fits, decide_eq_true_iff, Word.add_of_lt hstop]
    omega
  rw [hfits]
  constructor
  · intro hend
    exact ⟨_, hle, hdvd, hend⟩
  · rintro ⟨q, hq, hqdvd, hqend⟩
    have hlow := hleast q hq hqdvd
    omega

end HeapInv

section Run

variable {h h₀ : Heap} {start size n align : Nat} {st : HeapState}

/-- **First fit is complete.** A request that wraps nowhere gets null exactly if no maximal run of
bytes between the live blocks can hold a header and the payload; null changes nothing. Otherwise the
payload is at the lowest admissible address of the lowest such run. -/
theorem first_fit_complete (hstart : start ≠ 0) (hroom : start + size ≤ 2 ^ 64)
    (hinit : h.heapInit start size = some h₀) (hrun : ReflTransGen ClearStep ⟨h₀, []⟩ st)
    (hpos : 0 < n) (hpow : ∃ k, align = 2 ^ k) (hclear : st.heap.AllClear n align) :
    ∃ p h', st.heap.heapAlloc n align = some (p, h') ∧
      (p = 0 ↔ ∀ a e, MaxRun (st.FreeByte start size) a e → ∀ q, ¬ Admits a e n align q) ∧
      (p = 0 → h' = st.heap) ∧
      (p ≠ 0 → ∃ a e, MaxRun (st.FreeByte start size) a e ∧ Admits a e n align p ∧
        (∀ q, Admits a e n align q → p ≤ q) ∧
        ∀ a' e', MaxRun (st.FreeByte start size) a' e' → a' < a → ∀ q, ¬ Admits a' e' n align q) := by
  obtain ⟨F, hi⟩ := HeapState.clear_run hstart hroom hinit hrun
  have hmiss : ∀ b ∈ F, st.heap.fits n (max align header) b = false →
      st.heap.Clear (max align header) b → ∀ q, ¬ Admits b (b + st.heap.blockSize b) n align q := by
    intro b hb hfits hc q hq
    rw [(hi.fits_iff hb hpow hc).2 ⟨q, hq⟩] at hfits
    cases hfits
  obtain ⟨hnull, hall⟩ | ⟨F₁, cur, F₂, h', F', rfl, hbefore, hcur, -, hfound, hle, hend, -⟩ :=
    Heap.heapAlloc_clear hi hroom hpos hpow hclear
  · refine ⟨0, st.heap, hnull, ?_, fun _ => rfl, fun hne => absurd rfl hne⟩
    refine iff_of_true rfl fun a e hrun => ?_
    obtain ⟨b, hb, rfl, he⟩ := hi.freeRun_iff.1 hrun
    rw [he]
    exact hmiss a hb (hall a hb).1 (hall a hb).2
  · have hmem : cur ∈ F₁ ++ cur :: F₂ := by simp
    have hcurRun : MaxRun (st.FreeByte start size) cur (cur + st.heap.blockSize cur) :=
      hi.freeRun_iff.2 ⟨cur, hmem, rfl, rfl⟩
    obtain ⟨-, hdvd, hleast⟩ := hi.payloadOf_least hmem hpow hcur
    have hadmits : Admits cur (cur + st.heap.blockSize cur) n align
        (Heap.payloadOf cur (max align header)) := ⟨hle, hdvd, hend⟩
    refine ⟨_, h', hfound, iff_of_false (by omega) fun hnone => ?_, fun hzero => by omega,
      fun _ => ⟨cur, _, hcurRun, hadmits, fun q hq => hleast q hq.1 hq.2.1, ?_⟩⟩
    · exact hnone _ _ hcurRun _ hadmits
    · intro a e hrun hlt
      obtain ⟨b, hb, rfl, he⟩ := hi.freeRun_iff.1 hrun
      rw [he]
      -- a lower block comes earlier in the list, so it was passed over
      have hb₁ : a ∈ F₁ := by
        rcases List.mem_append.1 hb with hb | hb
        · exact hb
        · rcases List.mem_cons.1 hb with rfl | hb
          · omega
          · have hsorted := List.rel_of_pairwise_cons
              (List.pairwise_append.1 hi.shape.sorted).2.1 hb
            omega
      exact hmiss a (List.mem_append_left _ hb₁) (hbefore a hb₁).1 (hbefore a hb₁).2

/-- The first request to a heap of 64 bytes is placed behind the header of its only run. -/
theorem first_fit_complete_small :
    ∃ h₀, (Heap.empty fun _ => 0).heapInit 4096 64 = some h₀ ∧
      ∃ a e, MaxRun (HeapState.FreeByte 4096 64 ⟨h₀, []⟩) a e ∧ Admits a e 8 8 4112 := by
  obtain ⟨h₀, hinit, hclear, halloc⟩ := heap64_clear
  have hpow : ∃ k, 8 = 2 ^ k := ⟨3, rfl⟩
  obtain ⟨p, h', hp, -, -, hplaced⟩ := first_fit_complete (by decide) (by decide) hinit
    ReflTransGen.refl (by decide) hpow hclear
  obtain rfl : p = 4112 := by
    rw [show h₀.heapAlloc 8 8 = some (p, h') from hp] at halloc
    exact Option.some.inj halloc
  obtain ⟨a, e, hrun, hadmits, -⟩ := hplaced (by decide)
  exact ⟨h₀, hinit, a, e, hrun, hadmits⟩

end Run

end Rolnix
