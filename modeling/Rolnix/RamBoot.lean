import Rolnix.RamTable
import Rolnix.LegacyArea

/-!
# Boot on bytes

`pmm_init` on the two machines. It starts from the same memory, clears the frame table, and up to
there nothing is in the table on either side (`Ram.Fresh`). From then on `Encodes` relates them.

Marking and carving change owners only. The list of free frames is written into the frames, and for
that the map must keep the table out of the pool (`BootInfo.TableApart`); the owners before the list
is built are those after, so the condition can be used where the scan needs it
(`apart_before_pool`).
-/

namespace Rolnix

open Machine

section Effective

variable {α : Type} {Q : Ram → Machine → Prop} {r : Ram} {s : Machine}

theorem corres_abort : Corres Q (abort : BootT Ram α) r abort s := .none

theorem corres_orAbort {f : Ram → Option (α × Ram)} {g : Machine → Option (α × Machine)}
    (h : InStep Q (f r) (g s)) : Corres Q (orAbort f) r (orAbort g) s := by
  refine h.map ?_
  rintro ⟨a, r'⟩ ⟨_, s'⟩ ⟨rfl, h'⟩
  exact ⟨rfl, fun _ _ => h'⟩

/-! ## The effective map -/

theorem corres_pushRegion (h : Q r s) (out : List MemoryRegion) (region : MemoryRegion) :
    Corres Q (pushRegion out region) r (pushRegion out region) s :=
  .ite (fun _ => .ret h) fun _ => corres_abort

theorem corres_splitRegion (h : Q r s) (kiLen kiKs kiKe : Nat) (out : List MemoryRegion)
    (region : MemoryRegion) :
    Corres Q (splitRegion kiLen kiKs kiKe out region) r
      (splitRegion kiLen kiKs kiKe out region) s := by
  refine .ite (fun _ => corres_pushRegion h out region) fun _ => ?_
  refine .ite (fun _ => ?_) fun _ => corres_pushRegion h out region
  -- the part below the image, if any, then the part above
  refine .ite (fun _ => .bind (corres_pushRegion h _ _) ?_) fun _ => .bind (.ret h) ?_
  · intro out' r' s' _ h'
    exact .ite (fun _ => corres_pushRegion h' _ _) fun _ => .ret h'
  · intro out' r' s' _ h'
    exact .ite (fun _ => corres_pushRegion h' _ _) fun _ => .ret h'

theorem corres_effectiveLoop (h : Q r s) (kiLen kiKs kiKe : Nat) (out rest : List MemoryRegion) :
    Corres Q (effectiveLoop kiLen kiKs kiKe out rest) r
      (effectiveLoop kiLen kiKs kiKe out rest) s := by
  induction rest generalizing r s out with
  | nil => exact .ret h
  | cons region rest ih =>
      refine .bind (corres_splitRegion h kiLen kiKs kiKe out region) ?_
      intro out' r' s' _ h'
      exact .ite (fun _ => .error) fun _ => ih h' out'

end Effective

/-! ## The areas -/

/-- Before the owners of the frames are set: the same memory, and a frame table of zeros. -/
structure Ram.Fresh (r : Ram) (s : Machine) : Prop where
  physmapBase : r.physmapBase = s.physmapBase
  tableBase : r.tableBase = s.tableBase
  numFrames : r.numFrames = s.numFrames
  shards : r.shards = s.shards
  global : r.global = s.global
  mem : r.mem = s.mem
  fits : s.tablePhys + s.numFrames * FrameInfo.size ≤ 2 ^ 64
  zero : ∀ x, s.InTable x → s.mem x = 0
  frames : ∀ f, s.frames f = FrameInfo.zeroed

/-- The same before there is a frame table. -/
structure Ram.Bare (base : Nat) (r : Ram) (s : Machine) : Prop extends r.Fresh s where
  empty : s.numFrames = 0
  base_eq : s.physmapBase = base

namespace Ram.Fresh

variable {r : Ram} {s : Machine}

theorem encodes (h : r.Fresh s) : r.Encodes s := by
  refine { h with infos := ?_, mem := fun x _ => congrFun h.mem x, beyond := fun f _ => h.frames f }
  intro f hf
  rw [h.frames f, h.mem]
  apply FrameInfo.at_zeroed
  intro x hge hlt
  apply h.zero
  simp only [infoAt, InTable, FrameInfo.size] at hge hlt ⊢
  omega

theorem reset (mem : ByteMem) : (Ram.reset mem).Fresh (Machine.reset mem) where
  physmapBase := rfl
  tableBase := rfl
  numFrames := rfl
  shards := rfl
  global := rfl
  mem := rfl
  fits := by
    rw [show (Machine.reset mem).numFrames = 0 from rfl, Nat.zero_mul, Nat.add_zero]
    exact (Word.sub_lt 64 _ _).le
  zero := by
    intro x hx
    rw [InTable, show (Machine.reset mem).numFrames = 0 from rfl, Nat.zero_mul, Nat.add_zero] at hx
    exact absurd hx.2 (not_lt.2 hx.1)
  frames := fun _ => rfl

/-- While there is no frame table, the physmap can be anywhere. -/
theorem setPhysmapBase (h : r.Fresh s) (hnum : s.numFrames = 0) (base : Nat) :
    Fresh (BootMem.setPhysmapBase r base) (BootMem.setPhysmapBase s base) := by
  refine { h with physmapBase := rfl, fits := ?_, zero := ?_ }
  · show Word.sub 64 s.tableBase base + s.numFrames * FrameInfo.size ≤ 2 ^ 64
    rw [hnum, Nat.zero_mul]
    exact (Word.sub_lt 64 s.tableBase base).le
  · rintro x ⟨hge, hlt⟩
    have hzero : s.numFrames * FrameInfo.size = 0 := by rw [hnum, Nat.zero_mul]
    exact absurd hlt (not_lt.2 (le_of_eq_of_le (congrArg (_ + ·) hzero) hge))

theorem zeroBytes (h : r.Fresh s) (va bytes : Nat) :
    Fresh (BootMem.zeroBytes r va bytes) (BootMem.zeroBytes s va bytes) := by
  refine { h with mem := ?_, zero := ?_ }
  · show r.mem.fill (Word.sub 64 va r.physmapBase) bytes 0 =
      s.mem.fill (Word.sub 64 va s.physmapBase) bytes 0
    rw [h.mem, h.physmapBase]
  · intro x hx
    show s.mem.fill (Word.sub 64 va s.physmapBase) bytes 0 x = 0
    unfold ByteMem.fill
    split_ifs
    · rfl
    · exact h.zero x hx

theorem setTable (h : r.Fresh s) {va n : Nat}
    (hfits : Word.sub 64 va s.physmapBase + n * FrameInfo.size ≤ 2 ^ 64) :
    Fresh (BootMem.setTable r va n (n * FrameInfo.size))
      (BootMem.setTable s va n (n * FrameInfo.size)) := by
  refine { h with
    tableBase := rfl, numFrames := rfl, mem := ?_, fits := hfits, zero := ?_, frames := fun _ => rfl }
  · show r.mem.fill (Word.sub 64 va r.physmapBase) _ 0 =
      s.mem.fill (Word.sub 64 va s.physmapBase) _ 0
    rw [h.mem, h.physmapBase]
  · intro x hx
    exact if_pos hx

end Ram.Fresh

section Areas

variable {boot : BootInfo} {heapLen : Nat} {r : Ram} {s : Machine}

theorem corres_setPhysmapBase (h : r.Fresh s) (hnum : s.numFrames = 0) (base : Nat) :
    Corres (Ram.Bare base) (setPhysmapBase base) r (setPhysmapBase base) s := by
  refine .get_bind (.modify_bind ?_)
  rw [show BootMem.physmapBase r = BootMem.physmapBase s from h.physmapBase]
  exact .ite (fun _ => .ret ⟨h.setPhysmapBase hnum base, hnum, rfl⟩) fun _ => corres_abort

theorem corres_physToVirt {Q : Ram → Machine → Prop} (hbase : r.physmapBase = s.physmapBase)
    (h : Q r s) (phys : Nat) : Corres Q (physToVirt phys) r (physToVirt phys) s := by
  refine .bind (Q := Q) (.get_bind ?_) fun _ _ _ _ h' => .ret h'
  rw [show BootMem.physmapBase r = BootMem.physmapBase s from hbase]
  exact .ite (fun _ => .ret h) fun _ => corres_abort

theorem corres_initTableZeroed (h : r.Fresh s) {va n : Nat}
    (hfits : Word.sub 64 va s.physmapBase + n * FrameInfo.size ≤ 2 ^ 64) :
    Corres Ram.Fresh (initTableZeroed va n (n * FrameInfo.size)) r
      (initTableZeroed va n (n * FrameInfo.size)) s := by
  refine .ite (fun _ => .stop_bind corres_abort) fun _ => .get_bind ?_
  rw [show BootMem.tableBase r = BootMem.tableBase s from h.tableBase]
  refine .ite (fun _ => .stop_bind .error) fun _ => ?_
  exact .ret (a := ()) (h.setTable hfits)

theorem corres_carveHeap (h : r.Fresh s) (bootAlloc : BootAllocator) (ftEnd : Nat) :
    Corres Ram.Fresh (carveHeap bootAlloc heapLen ftEnd) r (carveHeap bootAlloc heapLen ftEnd) s := by
  refine .ite (fun _ => ?_) fun _ => .ret h
  cases (bootAlloc.alloc heapLen frameSize).1 with
  | none => exact .error
  | some hp =>
      refine .bind (corres_physToVirt h.physmapBase h hp) ?_
      intro hv r' s' _ h'
      exact .modify_bind (.ret (h'.zeroBytes hv heapLen))

theorem corres_bootAreas (hu64 : boot.IsU64) (mem : ByteMem) :
    Corres Ram.Fresh (bootAreas boot heapLen) (Ram.reset mem) (bootAreas boot heapLen)
      (Machine.reset mem) := by
  refine .ite (fun _ => .stop_bind corres_abort) fun _ => ?_
  refine .bind (corres_setPhysmapBase (Ram.Fresh.reset mem) rfl boot.physmapBase) ?_
  intro _ r₁ s₁ _ h₁
  refine .ite (fun _ => .stop_bind .error) fun _ => ?_
  refine .bind (corres_effectiveLoop h₁ _ _ _ _ _) ?_
  intro regions r₂ s₂ _ h₂
  refine .ite (fun _ => .stop_bind .error) fun _ => ?_
  rcases halloc : (BootAllocator.new regions).alloc
    (ceilDiv (maxUsableEnd regions) frameSize * FrameInfo.size) frameSize with ⟨_ | ftPhys, bootAlloc⟩
  · simp only [halloc]
    exact .error
  have hroom := BootAllocator.alloc_lt halloc
  simp only [halloc]
  refine .bind (corres_physToVirt h₂.physmapBase h₂ ftPhys) ?_
  intro ftVa r₃ s₃ hva h₃
  obtain ⟨rfl, rfl⟩ := physToVirt_returns hva
  refine .bind (corres_initTableZeroed h₃.toFresh ?_) ?_
  · rw [h₂.base_eq, Word.sub_add_cancel (by omega) hu64.physmap]
    exact hroom.le
  intro _ r₄ s₄ _ h₄
  refine .bind (corres_carveHeap h₄ bootAlloc _) ?_
  intro heapEnd r₅ s₅ _ h₅
  exact .ret h₅

end Areas

section Frames

variable {r : Ram} {s : Machine}

/-! ## The owners of the frames -/

theorem corres_claimFrame (h : r.Encodes s) (f : Nat) (expected new : FrameOwner) (e : String) :
    Corres Ram.Encodes (claimFrame f expected new e) r (claimFrame f expected new e) s := by
  refine .bind (corres_orAbort (h.transition _ _)) ?_
  intro ok r' s' _ h'
  exact .ite (fun _ => .ret h') fun _ => .error

theorem corres_markFrame (h : r.Encodes s) (ftPhys heapEnd idx : Nat) :
    Corres Ram.Encodes (markFrame ftPhys heapEnd idx) r (markFrame ftPhys heapEnd idx) s :=
  .ite (fun _ => .ret h) fun _ => .ite (fun _ => .ret h) fun _ => corres_claimFrame h _ _ _ _

theorem corres_markFrames (h : r.Encodes s) (ftPhys heapEnd first n : Nat) :
    Corres Ram.Encodes (markFrames ftPhys heapEnd first n) r
      (markFrames ftPhys heapEnd first n) s := by
  induction n with
  | zero => exact .ret h
  | succ n ih => exact .bind ih fun _ _ _ _ h' => corres_markFrame h' _ _ _

theorem corres_markRegions (h : r.Encodes s) (ftPhys heapEnd : Nat) (regions : List MemoryRegion) :
    Corres Ram.Encodes (markRegions ftPhys heapEnd regions) r
      (markRegions ftPhys heapEnd regions) s := by
  induction regions generalizing r s with
  | nil => exact .ret h
  | cons region rest ih =>
      refine .bind (Q := Ram.Encodes) ?_ fun _ _ _ _ h' => ih h'
      exact .ite (fun _ => .ret h) fun _ => corres_markFrames h _ _ _ _

theorem corres_carveFrames (h : r.Encodes s) (id : UntypedId) (baseFrame n : Nat) :
    Corres Ram.Encodes (carveFrames id baseFrame n) r (carveFrames id baseFrame n) s := by
  induction n with
  | zero => exact .ret h
  | succ n ih => exact .bind ih fun _ _ _ _ h' => corres_claimFrame h' _ _ _ _

theorem corres_carveUntypedRegion (h : r.Encodes s) (spec : UntypedSpec) (id : UntypedId) :
    Corres Ram.Encodes (carveUntypedRegion spec id) r (carveUntypedRegion spec id) s := by
  refine .ite (fun _ => .stop_bind .error) fun _ => ?_
  refine .ite (fun _ => .stop_bind .error) fun _ => ?_
  exact .bind (corres_carveFrames h _ _ _) fun _ _ _ _ h' => .ret h'

theorem corres_carveSpecs (h : r.Encodes s) (i : Nat) (specs : List UntypedSpec)
    (out : List UntypedCap) :
    Corres Ram.Encodes (carveSpecs i specs out) r (carveSpecs i specs out) s := by
  induction specs generalizing r s i out with
  | nil => exact .ret h
  | cons spec specs ih =>
      exact .bind (corres_carveUntypedRegion h spec _) fun _ _ _ _ h' => ih h' _ _

/-! ## The pool -/

/-- The two scans are at the same place, and the frame that is linked next is no part of the frame
table. -/
structure ScansAlike (x : Scan Ram) (y : Scan Machine) : Prop where
  head : x.head = y.head
  prev : x.prev = y.prev
  count : x.count = y.count
  encodes : x.s.Encodes y.s
  apart : y.head ≠ listEnd ∨ y.prev ≠ listEnd → y.s.Apart y.prev

theorem scanFree_alike (h : r.Encodes s) (hap : ∀ f, (s.frames f).owner.tag = .free → s.Apart f)
    (n : Nat) : Option.Rel ScansAlike (PoolMem.scanFree r n) (PoolMem.scanFree s n) := by
  induction n with
  | zero => exact .some ⟨rfl, rfl, rfl, h, fun hne => absurd rfl (hne.elim id id)⟩
  | succ idx ih =>
      refine ih.bind ?_
      intro x y _ hy hxy
      obtain ⟨mem, hs⟩ := scanFree_state hy
      rw [hxy.encodes.isFree, hxy.head, hxy.prev, hxy.count]
      refine .same ?_
      intro free hfree
      refine .ite (fun hf => ?_) fun _ => .some hxy
      -- the frame is free, so it may be linked
      have happ : y.s.Apart idx := by
        rw [isFree_eq] at hfree
        obtain ⟨info, hinfo, rfl⟩ := Option.map_eq_some_iff.1 hfree
        obtain ⟨-, -, rfl⟩ := frameInfo_eq_some.1 hinfo
        rw [hs] at hf ⊢
        exact (hap idx (isFree_iff.1 hf)).congr ⟨rfl, rfl, rfl⟩
      refine .ite (fun _ => ?_) fun hhead => ?_
      · exact .some ⟨rfl, rfl, rfl, hxy.encodes, fun _ => happ⟩
      · refine .some ⟨rfl, rfl, rfl, hxy.encodes.setListNext (hxy.apart (Or.inl hhead)) _, ?_⟩
        exact fun _ => happ.congr ⟨rfl, rfl, rfl⟩

theorem ScansAlike.close {x : Scan Ram} {y : Scan Machine} (h : ScansAlike x y) :
    (PoolMem.closeScan x).Encodes (PoolMem.closeScan y) := by
  unfold PoolMem.closeScan
  rw [h.prev]
  split_ifs with hne
  · exact h.encodes.setListNext (h.apart (Or.inr hne)) _
  · exact h.encodes

theorem inStep_buildGlobalFreelist (h : r.Encodes s)
    (hap : ∀ f, (s.frames f).owner.tag = .free → s.Apart f) :
    InStep Ram.Encodes (PoolMem.buildGlobalFreelist r) (PoolMem.buildGlobalFreelist s) := by
  unfold PoolMem.buildGlobalFreelist
  rw [show FrameTable.totalFrames r = FrameTable.totalFrames s from h.numFrames]
  refine (scanFree_alike h hap _).bind ?_
  intro x y _ _ hxy
  have hclose := hxy.close
  dsimp only
  rw [hclose.poolGlobal, hxy.head, hxy.count]
  exact .ite (fun _ => InStep.ret (hclose.setGlobal _)) fun _ => .none

theorem corres_bootFrames (h : r.Encodes s) {specs : List UntypedSpec}
    {outUntyped : List UntypedCap} {heapLen : Nat} {areas : BootAreas}
    (hpool : ∀ caps s₅ s₆, Returns (markRegions areas.ftPhys areas.heapEnd areas.regions) s () s₅ →
      Returns (carveSpecs 0 specs outUntyped) s₅ caps s₆ →
      ∀ f, (s₆.frames f).owner.tag = .free → s₆.Apart f) :
    Corres Ram.Encodes (bootFrames specs outUntyped heapLen areas) r
      (bootFrames specs outUntyped heapLen areas) s := by
  refine .bind (corres_markRegions h _ _ _) ?_
  intro _ r₅ s₅ hmark h₅
  refine .bind (corres_carveSpecs h₅ _ _ _) ?_
  intro caps r₆ s₆ hcarve h₆
  refine .bind (corres_orAbort (inStep_buildGlobalFreelist h₆ (hpool caps s₅ s₆ hmark hcarve))) ?_
  intro free r₇ s₇ _ h₇
  exact .ret h₇

end Frames

/-! ## The whole of boot -/

section Init

variable {boot : BootInfo} {specs : List UntypedSpec} {outUntyped caps : List UntypedCap}
  {heapLen : Nat} {mem : ByteMem} {info : PmInitOut} {s : Machine}

/-- The owners before the pool is built are those after, so the map decides where free frames lie. -/
theorem apart_before_pool (hu64 : boot.IsU64) (hapart : boot.TableApart heapLen)
    (hfits : specs.length ≤ outUntyped.length) {areas : BootAreas} {s₄ s₅ s₆ : Machine}
    (hareas : Returns (bootAreas boot heapLen) (Machine.reset mem) areas s₄)
    (hmark : Returns (markRegions areas.ftPhys areas.heapEnd areas.regions) s₄ () s₅)
    (hcarve : Returns (carveSpecs 0 specs outUntyped) s₅ caps s₆) (f : Nat)
    (hf : (s₆.frames f).owner.tag = .free) : s₆.Apart f := by
  obtain ⟨regions, ftPhys, heapEnd⟩ := areas
  obtain ⟨bootAlloc, s₁, s₂, s₃, hrun⟩ := bootAreas_returns hareas
  obtain ⟨rfl, -⟩ := buildEffective_returns hrun.effective
  have hbooting := survivesOwners_booting.carveSpecs
    (survivesOwners_booting.markRegions hrun.booting hmark) hcarve
  obtain ⟨count, s', hpool⟩ := buildGlobalFreelist_total hbooting.table hbooting.global
  have hinit := hrun.init hfits hmark hcarve hpool
  obtain ⟨-, -, heapPhys, before, r, after, hlaid⟩ := hinit.laidOut hu64
  obtain ⟨mem', hs'⟩ := buildGlobalFreelist_state hpool
  have hall := hlaid.tableApart_iff.1 hapart f
  rw [hs'] at hall
  exact hall (Or.inl hf)

theorem corres_pmmInit (hu64 : boot.IsU64) (hapart : boot.TableApart heapLen) (mem : ByteMem) :
    Corres Ram.Encodes (pmmInit boot specs outUntyped heapLen) (Ram.reset mem)
      (pmmInit boot specs outUntyped heapLen) (Machine.reset mem) := by
  refine .ite (fun _ => .stop_bind .error) fun hfits => ?_
  refine .bind (corres_bootAreas hu64 mem) ?_
  intro areas r₄ s₄ hareas h₄
  refine corres_bootFrames h₄.encodes ?_
  intro caps s₅ s₆ hmark hcarve
  exact apart_before_pool hu64 hapart (not_lt.1 hfits) hareas hmark hcarve

end Init

end Rolnix
