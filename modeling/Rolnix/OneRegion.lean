import Rolnix.BootOwners
import Rolnix.VmmRun

/-!
# Machines with one region of RAM

`pmm_init` on a map with one usable region of `n` frames at address zero, for every `n` below the
limit of 16 TiB: it returns `Ok`, and all frames above the legacy area and the frame table are in
the pool (`oneRegion_boots`). At the limit it returns `Ok` too, but with an empty pool
(`oneRegion_full`). Properties that fail on large machines only are refuted on these.
-/

namespace Rolnix

open Machine Relation

/-- A usable region of `n` frames. -/
def ram (n : Nat) : MemoryRegion := ⟨0, n * frameSize, .usable⟩

def oneRegion (n : Nat) : BootInfo where
  physmapBase := 0xffff800000000000
  regions := [ram n]
  kernelImage := (0, 0)

theorem oneRegion_apart {n : Nat} (hbelow : (oneRegion n).Below16TiB) : (oneRegion n).TableApart 0 :=
  tableApart_noHeap ⟨by simp [oneRegion], by simp [oneRegion, ram], by simp [oneRegion]⟩
    (by simp [oneRegion, ram, misaligned]) hbelow

/-! ## The steps return -/

section Forward

variable {boot : BootInfo} {specs : List UntypedSpec} {outUntyped caps : List UntypedCap}
  {heapLen ftPhys heapEnd first n : Nat} {info : PmInitOut} {s s' s₁ s₂ s₃ s₄ s₅ s₆ : Machine}
  {regions : List MemoryRegion} {bootAlloc : BootAllocator}

theorem physToVirt_total {phys : Nat} (hbase : s.physmapBase ≠ 0) :
    Returns (physToVirt phys) s (Word.add 64 s.physmapBase phys) s := by
  refine returns_bind.2 ⟨s.physmapBase, s, returns_bind.2 ⟨s, s, returns_get.2 ⟨rfl, rfl⟩, ?_⟩,
    returns_pure.2 ⟨rfl, rfl⟩⟩
  exact returns_ite.2 (Or.inl ⟨hbase, returns_pure.2 ⟨rfl, rfl⟩⟩)

theorem initTableZeroed_total {baseVa total bytes : Nat} (hbase : baseVa ≠ 0)
    (hunset : s.tableBase = 0) : Returns (initTableZeroed baseVa total bytes) s () { s with
      tableBase := baseVa
      numFrames := total
      mem := s.mem.fill (Word.sub 64 baseVa s.physmapBase) bytes 0
      frames := fun _ => .zeroed } := by
  refine (returns_guard fun _ _ => returns_abort).2 ⟨hbase, ?_⟩
  refine returns_bind.2 ⟨s, s, returns_get.2 ⟨rfl, rfl⟩, ?_⟩
  exact (returns_guard fun _ _ => returns_throw).2 ⟨not_not.2 hunset, returns_modify.2 rfl⟩

theorem markFrames_total (hbase : s.tableBase ≠ 0) (hn : first + n ≤ s.numFrames)
    (hbound : first + n ≤ 2 ^ 32)
    (hreserved : ∀ f, first ≤ f → f < first + n → (s.frames f).owner = .reserved) :
    ∃ s', Returns (markFrames ftPhys heapEnd first n) s () s' := by
  induction n with
  | zero => exact ⟨s, returns_pure.2 ⟨rfl, rfl⟩⟩
  | succ n ih =>
      obtain ⟨s₁, h₁⟩ := ih (by omega) (by omega) fun f hge hlt => hreserved f hge (by omega)
      have hbytes : (first + n) * frameSize < 2 ^ 64 := by
        simp only [frameSize]
        omega
      have hmod : (first + n) % 2 ^ 32 = first + n := Nat.mod_eq_of_lt (by omega)
      have hclaims := markFrames_claims hbytes.le h₁
      by_cases hpool : Poolable ftPhys heapEnd (first + n)
      · refine ⟨_, returns_bind.2 ⟨(), s₁, h₁, (markFrame_returns hbytes).2 (Or.inl ⟨hpool, ?_, ?_, ?_,
          rfl⟩)⟩⟩
        · rw [hclaims.tableBase]
          exact hbase
        · rw [hclaims.numFrames]
          omega
        · have hnew : ¬ ∃ idx, (first ≤ idx ∧ idx < first + n) ∧ Poolable ftPhys heapEnd idx ∧
              idx % 2 ^ 32 = first + n := by
            rintro ⟨idx, hidx, -, hlow⟩
            omega
          rw [hmod, hclaims.outside _ hnew]
          exact hreserved _ (by omega) (by omega)
      · exact ⟨s₁, returns_bind.2 ⟨(), s₁, h₁, (markFrame_returns hbytes).2 (Or.inr ⟨hpool, rfl⟩)⟩⟩

end Forward

/-! ## The machine -/

section OneRegion

variable {n : Nat}

theorem ram_end (hn : n ≤ 2 ^ 32) : (ram n).end = n * frameSize := by
  rw [MemoryRegion.end, ram, Word.add_of_lt (by simp only [frameSize]; omega), Nat.zero_add]

theorem ram_maxEnd (hn : n ≤ 2 ^ 32) : maxUsableEnd [ram n] = n * frameSize := by
  rw [← ram_end hn]
  exact Nat.max_eq_right (Nat.zero_le _)

theorem ceilDiv_frames (hn : n ≤ 2 ^ 32) : ceilDiv (n * frameSize) frameSize = n := by
  rw [ceilDiv_aligned (Nat.mul_mod_left _ _) (by simp only [frameSize]; omega),
    Nat.mul_div_cancel _ (by decide)]

theorem ram_aligned (hn : n ≤ 2 ^ 32) : FrameAligned [ram n] := by
  intro r hr _
  obtain rfl := List.mem_singleton.1 hr
  rw [ram_end hn]
  exact ⟨Nat.two_pow_pos 64, rfl, Nat.mul_mod_left _ _⟩

theorem ram_alloc (hn : n ≤ 2 ^ 32) : ∃ bootAlloc,
    (BootAllocator.new [ram n]).alloc (n * FrameInfo.size) frameSize = (some 0, bootAlloc) := by
  have hfits : 0 + n * FrameInfo.size < 2 ^ 64 ∧ 0 + n * FrameInfo.size ≤ (ram n).end := by
    rw [ram_end hn]
    simp only [FrameInfo.size, frameSize]
    omega
  have hstart : Word.alignUp 64 (max 0 (ram n).start) frameSize = 0 :=
    show Word.alignUp 64 (max 0 0) frameSize = 0 by decide
  have hkind : (ram n).kind = .usable := rfl
  simp only [BootAllocator.alloc, BootAllocator.new, BootAllocator.allocLoop,
    List.length_singleton, List.getElem?_cons_zero, hkind, ne_eq, not_true_eq_false, if_false, hstart,
    if_pos hfits]
  exact ⟨_, rfl⟩

/-- The first frame above the legacy area and the frame table. -/
def poolStart (n : Nat) : Nat := max 256 ((n * FrameInfo.size + (frameSize - 1)) / frameSize)

theorem length_filter_le_range (k n : Nat) :
    ((List.range n).filter fun f => decide (k ≤ f)).length = n - k := by
  induction n with
  | zero => simp
  | succ n ih =>
      rw [List.range_succ, List.filter_append, List.length_append, ih]
      by_cases hk : k ≤ n
      · simp [hk]
        omega
      · simp [hk]
        omega

theorem ram_marked (hn : n ≤ 2 ^ 32) (f : Nat) :
    MarkedIndex [ram n] 0 (n * FrameInfo.size) f ↔ poolStart n ≤ f ∧ f < n := by
  have hram : ∀ f, (∃ r ∈ [ram n], r.kind = .usable ∧ r.Holds f) ↔ f < n := by
    intro f
    simp only [List.mem_singleton, exists_eq_left, MemoryRegion.Holds, ram_end hn]
    simp only [ram, frameSize, true_and]
    omega
  have hmarked : ∀ f, Marked [ram n] 0 (n * FrameInfo.size) f ↔ poolStart n ≤ f ∧ f < n := by
    intro f
    rw [Marked, hram]
    simp only [Poolable, poolStart, legacyEnd, frameSize, FrameInfo.size]
    omega
  constructor
  · rintro ⟨idx, hm, rfl⟩
    have hidx := (hmarked idx).1 hm
    rwa [Nat.mod_eq_of_lt (by omega)]
  · intro hf
    exact ⟨f, (hmarked f).2 hf, Nat.mod_eq_of_lt (by omega)⟩

/-- The machine with its physmap, and with its frame table at `va`. -/
def mappedMachine (mem : ByteMem) : Machine :=
  { Machine.reset mem with physmapBase := 0xffff800000000000 }

def unmarkedMachine (n va : Nat) (mem : ByteMem) : Machine := { mappedMachine mem with
  tableBase := va
  numFrames := n
  mem := mem.fill (Word.sub 64 va (mappedMachine mem).physmapBase) (n * FrameInfo.size) 0
  frames := fun _ => FrameInfo.zeroed }

/-- `pmm_init` up to the scan for free frames: all frames from `poolStart` on are free. -/
theorem oneRegion_marked (mem : ByteMem) (hpos : 0 < n) (hn : n ≤ 2 ^ 32) :
    ∃ va s₅, va ≠ 0 ∧ Claims (fun f => poolStart n ≤ f ∧ f < n) .reserved .free
        (unmarkedMachine n va mem) s₅ ∧
      ∀ count s, s₅.buildGlobalFreelist = some (count, s) →
        Returns (pmmInit (oneRegion n) [] [] 0) (Machine.reset mem)
          (⟨n, count, n * FrameInfo.size / frameSize, 0, 0, 0, n * frameSize⟩, []) s := by
  obtain ⟨bootAlloc, halloc⟩ := ram_alloc hn
  have hmax := ram_maxEnd hn
  have hceil := ceilDiv_frames hn
  have hphys : (mappedMachine mem).physmapBase ≠ 0 :=
    show (0xffff800000000000 : Nat) ≠ 0 by decide
  obtain ⟨va, hva, hva0⟩ : ∃ va, Returns (physToVirt 0) (mappedMachine mem) va (mappedMachine mem) ∧
      va ≠ 0 :=
    ⟨_, physToVirt_total hphys, show Word.add 64 0xffff800000000000 0 ≠ 0 by decide⟩
  obtain ⟨s₅, hmark⟩ : ∃ s₅, Returns (markRegions 0 (n * FrameInfo.size) [ram n])
      (unmarkedMachine n va mem) () s₅ := by
    obtain ⟨s₅, h₅⟩ : ∃ s₅, Returns (markFrames 0 (n * FrameInfo.size) 0 n)
        (unmarkedMachine n va mem) () s₅ :=
      markFrames_total hva0 (Nat.zero_add n).le (by omega) fun _ _ _ => rfl
    refine ⟨s₅, returns_bind.2 ⟨(), s₅, ?_, returns_pure.2 ⟨rfl, rfl⟩⟩⟩
    have hfirst : ceilDiv (ram n).start frameSize = 0 := show ceilDiv 0 frameSize = 0 by decide
    rw [markRegion, if_neg (show ¬ (ram n).kind ≠ .usable from not_not.2 rfl), ram_end hn, hceil, hfirst]
    exact h₅
  refine ⟨va, s₅, hva0, (markRegions_marks (ram_aligned hn) hmark).congr (ram_marked hn), ?_⟩
  intro count s hpool
  have hrun : InitRun (oneRegion n) [] [] 0 (Machine.reset mem)
      ⟨n, count, n * FrameInfo.size / frameSize, 0, 0, 0, n * frameSize⟩ [] s [ram n] 0
      (n * FrameInfo.size) bootAlloc (mappedMachine mem) (mappedMachine mem) (unmarkedMachine n va mem)
      (unmarkedMachine n va mem) s₅ s₅ := {
    fits := le_rfl
    heapAligned := rfl
    physmap := rfl
    aligned := by
      intro r hr
      obtain rfl := List.mem_singleton.1 hr
      simp [misaligned, ram]
    effective := rfl
    nonempty := by
      rw [hmax]
      exact Nat.ne_of_gt (Nat.mul_pos hpos (by decide))
    frameTable := by
      rw [hmax, hceil]
      exact halloc
    table := by
      rw [hmax, hceil]
      exact returns_bind.2 ⟨va, _, hva, initTableZeroed_total hva0 rfl⟩
    heap := by
      rw [hmax, hceil, Word.add_of_lt (by simp only [FrameInfo.size]; omega), Nat.zero_add]
      rfl
    mark := hmark
    carve := returns_pure.2 ⟨rfl, rfl⟩
    pool := hpool
    info := by rw [hmax, hceil]; rfl }
  exact hrun.returns

theorem oneRegion_owner {va : Nat} {mem : ByteMem} {s₅ : Machine}
    (h : Claims (fun f => poolStart n ≤ f ∧ f < n) .reserved .free (unmarkedMachine n va mem) s₅)
    (f : Nat) : (s₅.frames f).owner = if poolStart n ≤ f ∧ f < n then .free else .reserved := by
  by_cases hf : poolStart n ≤ f ∧ f < n
  · rw [if_pos hf]
    exact (h.inside f hf).2
  · rw [if_neg hf, h.outside f hf]
    rfl

/-- **`pmm_init` boots the machine**: all frames from `poolStart` on are in the pool. -/
theorem oneRegion_boots (mem : ByteMem) (hpos : 0 < n) (hn : n < 2 ^ 32) :
    ∃ info s, Returns (pmmInit (oneRegion n) [] [] 0) (Machine.reset mem) (info, []) s ∧
      s.numFrames = n ∧ info.ramEnd = n * frameSize ∧ s.physmapBase = 0xffff800000000000 ∧
      s.supply = n - poolStart n ∧
      ∀ f, (s.frames f).owner = if poolStart n ≤ f ∧ f < n then .free else .reserved := by
  obtain ⟨va, s₅, hva, hclaims, hreturns⟩ := oneRegion_marked mem hpos hn.le
  have hbase : s₅.tableBase ≠ 0 := by
    rw [hclaims.tableBase]
    exact hva
  have hnum : s₅.numFrames = n := hclaims.numFrames
  have hbound : s₅.numFrames ≤ listEnd := by
    rw [hnum]
    simp only [listEnd]
    omega
  obtain ⟨count, s, hpool⟩ := buildGlobalFreelist_total hbase (by rw [hclaims.rest]; rfl)
  obtain ⟨hcount, ⟨mem', hs⟩, hglobal, -⟩ := buildGlobalFreelist_spec hbase hbound hpool
  have howner : ∀ f, (s.frames f).owner = if poolStart n ≤ f ∧ f < n then .free else .reserved := by
    intro f
    rw [buildGlobalFreelist_frames hpool]
    exact oneRegion_owner hclaims f
  refine ⟨_, s, hreturns count s hpool, ?_, rfl, ?_, ?_, howner⟩
  · rw [hs]
    exact hnum
  · rw [hs]
    exact hclaims.physmapBase
  · have hshard : (s.shards (currentCpu % shardCount)).count = 0 := by
      rw [hs, hclaims.rest]
      rfl
    rw [supply, hshard, hglobal, hcount, Nat.zero_add, hnum, ← length_filter_le_range]
    refine congrArg List.length (List.filter_congr fun f hf => ?_)
    rw [Bool.eq_iff_iff, isFree_iff, ← buildGlobalFreelist_frames hpool, howner f]
    have hlt := List.mem_range.1 hf
    by_cases hk : poolStart n ≤ f
    · simp [hk, hlt, FrameOwner.free]
    · simp [hk, FrameOwner.reserved]

/-- **Exactly 16 TiB.** `pmm_init` returns `Ok` as well, with all those frames free, but the number of
frames to scan is cut to zero and the pool is empty. -/
theorem oneRegion_full (mem : ByteMem) :
    ∃ info s, Returns (pmmInit (oneRegion (2 ^ 32)) [] [] 0) (Machine.reset mem) (info, []) s ∧
      info.totalFrames = 2 ^ 32 ∧ s.numFrames = 2 ^ 32 ∧ s.tableBase ≠ 0 ∧ s.supply = 0 ∧
      s.global = Shard.empty ∧ (∀ i, s.shards i = Shard.empty) ∧
      ∀ f, (s.frames f).owner =
        if poolStart (2 ^ 32) ≤ f ∧ f < 2 ^ 32 then .free else .reserved := by
  obtain ⟨va, s₅, hva, hclaims, hreturns⟩ := oneRegion_marked mem (Nat.two_pow_pos 32) le_rfl
  have hnum : s₅.numFrames % 2 ^ 32 = 0 := by
    rw [show s₅.numFrames = 2 ^ 32 from hclaims.numFrames, Nat.mod_self]
  have hglobal : s₅.global = Shard.empty := by
    rw [hclaims.rest]
    rfl
  have hpool : s₅.buildGlobalFreelist = some (0, { s₅ with global := ⟨listEnd, 0⟩ }) := by
    simp only [PoolMem.buildGlobalFreelist, FrameTable.totalFrames, hnum, PoolMem.scanFree,
      PoolMem.closeScan, PoolMem.global, Option.bind_eq_bind, Option.bind_some, ne_eq,
      not_true_eq_false, if_false, hglobal]
    rfl
  refine ⟨_, _, hreturns 0 _ hpool, rfl, hclaims.numFrames, ?_, ?_, rfl, ?_,
    fun f => oneRegion_owner hclaims f⟩
  · show s₅.tableBase ≠ 0
    rw [hclaims.tableBase]
    exact hva
  · rw [supply, hclaims.rest]
    rfl
  · intro i
    show s₅.shards i = Shard.empty
    rw [hclaims.rest]
    rfl

end OneRegion

end Rolnix
