import Rolnix.RamBoot
import Rolnix.RamPages
import Rolnix.VmmRun

/-!
# The frame table is in memory

Most of this development works on a `Machine`, whose frame table is no part of its memory. The kernel
has one memory.

**Theorem (`table_in_memory`).** Take a memory map on which no frame of the pool holds a byte of the
frame table. Boot, make any calls of the memory manager, make a page table, and use it while the rest
of the kernel goes on. Then for every state that can be reached with the table in memory there is one
that can be reached with the table apart, and the other way round, such that the bytes of the table
are the metadata of the frames and every further call panics in both or returns the same in both.

The simulation `Follows` carries that the pool is apart from the table. No call gives a reserved
frame away (`KeepsReserved`), and the frames of the table were reserved at boot.
-/

namespace Rolnix

open Machine Relation Radix

/-! ## Steps of a `Ram` -/

namespace Ram

/-- A byte of the frame table. -/
def InTable (r : Ram) (x : Nat) : Prop :=
  Word.sub 64 r.tableBase r.physmapBase ≤ x ∧
    x < Word.sub 64 r.tableBase r.physmapBase + r.numFrames * FrameInfo.size

/-- Entry `i` of table `t`. -/
def entries (r : Ram) (t i : Nat) : Nat := if i < tableEntries then PageMem.readEntry r t i else 0

/-- Run one operation; `none` if it panics. -/
def exec : PmmOp → Ram → Option Ram
  | .alloc, r => (PoolMem.allocFrame r).map (·.2)
  | .release f, r => PoolMem.releaseFrame r f
  | .pin f, r => (FrameTable.pinFrame r f).map (·.2)
  | .unpin f, r => (PoolMem.unpinFrame r f).map (·.2)
  | .addMapping f, r => (FrameTable.addMapping r f).map (·.2)
  | .removeMapping f, r => (PoolMem.removeMapping r f).map (·.2)
  | .retype cap domain, r => (FrameTable.retypeFrame r cap domain).map (·.2.2)
  | .write a c, r => some { r with mem := r.mem.poke a c }

/-- Clients write only into frames that are not free, and not into the frame table. -/
def ClientOk : PmmOp → Ram → Prop
  | .write a _, r => FrameTable.isFree r (a / frameSize) ≠ some true ∧ ¬ r.InTable a
  | _, _ => True

/-- The rest of the kernel neither releases a table nor writes into one. -/
def SparesTables (root : Nat) : PmmOp → Ram → Prop
  | .release f, r => ¬ InTree r.entries root f
  | .write a _, r => ¬ InTree r.entries root (a / frameSize)
  | _, _ => True

/-- One call of the memory manager, or one write of a client. -/
def PmmStep (r r' : Ram) : Prop := ∃ op : PmmOp, ClientOk op r ∧ exec op r = some r'

/-- One step with the table at `root`, and what it does to the address space. -/
inductive VmStep (root : Nat) : Ram × AddrSpace → Ram × AddrSpace → Prop
  | map {r r' A res} (va pa : Nat) (flags : Flags) (hva : va < 2 ^ 64)
      (hrun : PageMem.map r root va pa flags = some (res, r')) :
      VmStep root (r, A) (r', A.map va pa flags res)
  | unmap {r r' A res} (va : Nat) (hva : va < 2 ^ 64)
      (hrun : PageMem.unmap r root va = some (res, r')) :
      VmStep root (r, A) (r', A.unmap va res)
  | other {r r' A} (op : PmmOp) (hok : ClientOk op r) (hspare : SparesTables root op r)
      (hrun : exec op r = some r') : VmStep root (r, A) (r', A)

end Ram

namespace Machine

variable {s s' : Machine}

theorem PoolApart.keeps (h : s.PoolApart) (hboot : SameBoot s s') (hkeeps : KeepsReserved s s') :
    s'.PoolApart := by
  intro f hf
  exact (h f fun hres => hf (hkeeps f hres)).congr hboot

end Machine

/-! ## One call -/

namespace Ram.Encodes

variable {r : Ram} {s : Machine} {root f t : Nat} {op : PmmOp}

theorem inTable_iff (h : r.Encodes s) (x : Nat) : r.InTable x ↔ s.InTable x := by
  rw [Ram.InTable, h.tableBase, h.physmapBase, h.numFrames]
  rfl

theorem clientOk_iff (h : r.Encodes s) (hbase : s.tableBase ≠ 0) :
    Ram.ClientOk op r ↔ op.ClientOk s := by
  cases op with
  | write a c =>
      refine and_congr ?_ (not_congr (h.inTable_iff a))
      rw [h.isFree, isFree_eq]
      by_cases hlt : a / frameSize < s.numFrames
      · rw [frameInfo_of_lt hbase hlt]
        simp
      · have hnone : s.frameInfo (a / frameSize) = none := by simp [frameInfo, hlt]
        rw [hnone, h.beyond _ (not_lt.1 hlt)]
        simp [FrameInfo.isFree, FrameInfo.ownerTag, FrameInfo.zeroed, FrameOwner.reserved]
  | alloc | release f | pin f | unpin f | addMapping f | removeMapping f | retype cap domain =>
      exact Iff.rfl

theorem exec (h : r.Encodes s) (hc : s.IsCoherent) (hap : s.PoolApart) (hok : op.ClientOk s) :
    Option.Rel Encodes (Ram.exec op r) (op.exec s) := by
  cases op with
  | alloc =>
      obtain ⟨L, G, hcoh⟩ := hc
      exact (h.allocFrame hcoh hap).state
  | release f => exact h.releaseOn (hap f)
  | pin f => exact h.pin.state
  | unpin f => exact (h.unpinFrame (hap f)).state
  | addMapping f => exact h.addMapping.state
  | removeMapping f => exact (h.removeMapping (hap f)).state
  | retype cap domain => exact (h.retypeLoop cap domain _ _ _).map fun _ _ hab => hab.2.2
  | write a c =>
      refine .some (h.setMem ?_ ?_)
      · intro x hx
        apply ByteMem.poke_of_ne
        rintro rfl
        exact hok.2 hx
      · intro x hx
        simp only [ByteMem.poke, Function.update_apply, h.mem x hx]

theorem entries (h : r.Encodes s) (ht : s.Apart t) : r.entries t = s.entries t := by
  funext i
  unfold Ram.entries Machine.entries
  split_ifs with hi
  · exact h.readEntry ht hi
  · rfl

theorem inTree_iff (h : r.Encodes s) (hinv : VmInv s root) (hap : s.PoolApart) :
    InTree r.entries root f ↔ InTree s.entries root f := by
  have hwalk : ∀ p : List Nat, p.length ≤ 3 →
      walk childOf r.entries root p = walk childOf s.entries root p := by
    intro p hp
    refine walk_congr (d := 3) ?_ hp
    intro q t i hq hw
    rw [h.entries (hap.table hinv ⟨q, by omega, hw⟩)]
  refine exists_congr fun p => and_congr_right fun hp => ?_
  rw [hwalk p hp]

theorem sparesTables_iff (h : r.Encodes s) (hinv : VmInv s root) (hap : s.PoolApart) :
    Ram.SparesTables root op r ↔ Machine.SparesTables root op s := by
  cases op with
  | release f => exact not_congr (h.inTree_iff hinv hap)
  | write a c => exact not_congr (h.inTree_iff hinv hap)
  | alloc | pin f | unpin f | addMapping f | removeMapping f | retype cap domain => exact Iff.rfl

end Ram.Encodes

/-- Every call panics on both, or returns the same on both and leaves them related. -/
structure Ram.AnswersAs (r : Ram) (s : Machine) (root : Nat) : Prop where
  encodes : r.Encodes s
  allocFrame : InStep Ram.Encodes (PoolMem.allocFrame r) (PoolMem.allocFrame s)
  releaseFrame : ∀ f, Option.Rel Ram.Encodes (PoolMem.releaseFrame r f) (PoolMem.releaseFrame s f)
  pinFrame : ∀ f, InStep Ram.Encodes (FrameTable.pinFrame r f) (FrameTable.pinFrame s f)
  unpinFrame : ∀ f, InStep Ram.Encodes (PoolMem.unpinFrame r f) (PoolMem.unpinFrame s f)
  addMapping : ∀ f, InStep Ram.Encodes (FrameTable.addMapping r f) (FrameTable.addMapping s f)
  removeMapping : ∀ f, InStep Ram.Encodes (PoolMem.removeMapping r f) (PoolMem.removeMapping s f)
  retypeFrame : ∀ cap domain,
    Option.Rel (fun x y => x.1 = y.1 ∧ x.2.1 = y.2.1 ∧ Ram.Encodes x.2.2 y.2.2)
      (FrameTable.retypeFrame r cap domain) (FrameTable.retypeFrame s cap domain)
  frameGen : ∀ f, FrameTable.frameGen r f = FrameTable.frameGen s f
  freeFrameCount : PoolMem.freeFrameCount r = PoolMem.freeFrameCount s
  map : ∀ va pa flags,
    InStep Ram.Encodes (PageMem.map r root va pa flags) (PageMem.map s root va pa flags)
  unmap : ∀ va, InStep Ram.Encodes (PageMem.unmap r root va) (PageMem.unmap s root va)
  translate : ∀ va, PageMem.translate r root va = PageMem.translate s root va

/-! ## The two machines in step -/

/-- `r` holds `s`, and nothing that the memory manager gives away is part of the frame table. -/
structure Ram.Tracks (r : Ram) (s : Machine) : Prop extends r.Encodes s where
  coherent : s.IsCoherent
  apart : s.PoolApart

namespace Ram.Tracks

variable {r r' : Ram} {s s' : Machine}

theorem tableBase_ne (h : r.Tracks s) : s.tableBase ≠ 0 := by
  obtain ⟨L, G, hc⟩ := h.coherent
  exact hc.table

theorem pmmNext (h : r.Tracks s) (h' : r'.Encodes s') (hstep : Rolnix.PmmStep s s') :
    r'.Tracks s' := by
  obtain ⟨L, G, hc⟩ := h.coherent
  obtain ⟨op, hok, hexec⟩ := hstep
  exact {
    toEncodes := h'
    coherent := hc.step ⟨op, hok, hexec⟩
    apart := h.apart.keeps (exec_boot hexec) (keepsReserved_of_pmmStep ⟨op, hok, hexec⟩) }

theorem pmmStep (h : r.Tracks s) (hstep : Ram.PmmStep r r') :
    ∃ s', Rolnix.PmmStep s s' ∧ r'.Tracks s' := by
  obtain ⟨op, hok, hr⟩ := hstep
  rw [h.clientOk_iff h.tableBase_ne] at hok
  obtain ⟨s', hs, h'⟩ := (h.exec h.coherent h.apart hok).left hr
  exact ⟨s', ⟨op, hok, hs⟩, h.pmmNext h' ⟨op, hok, hs⟩⟩

theorem of_pmmStep (h : r.Tracks s) (hstep : Rolnix.PmmStep s s') :
    ∃ r', Ram.PmmStep r r' ∧ r'.Tracks s' := by
  obtain ⟨op, hok, hs⟩ := hstep
  obtain ⟨r', hr, h'⟩ := (h.exec h.coherent h.apart hok).right hs
  exact ⟨r', ⟨op, (h.clientOk_iff h.tableBase_ne).2 hok, hr⟩, h.pmmNext h' ⟨op, hok, hs⟩⟩

end Ram.Tracks

/-- The same with a table at `root`, which holds the address space on both. -/
structure Ram.Follows (root : Nat) (W : Nat → Option Nat) (x : Ram × AddrSpace)
    (y : Machine × AddrSpace) : Prop extends x.1.Tracks y.1 where
  holds : Holds root W y.1 y.2
  space : x.2 = y.2

namespace Ram.Follows

variable {r r' : Ram} {s s' : Machine} {root : Nat} {W : Nat → Option Nat} {A A' : AddrSpace}

theorem next (h : Follows root W (r, A) (s, A)) (h' : r'.Encodes s')
    (hstep : Machine.VmStep root (s, A) (s', A')) : Follows root W (r', A') (s', A') := by
  obtain ⟨hholds, hboot⟩ := h.holds.step hstep
  exact {
    toEncodes := h'
    coherent := hholds.inv.coherent
    apart := h.apart.keeps hboot (hstep.keepsReserved h.holds.inv)
    holds := hholds
    space := rfl }

theorem step {x x' : Ram × AddrSpace} {y : Machine × AddrSpace} (h : Follows root W x y)
    (hstep : Ram.VmStep root x x') : ∃ y', Machine.VmStep root y y' ∧ Follows root W x' y' := by
  obtain ⟨s, A⟩ := y
  obtain ⟨r, B⟩ := x
  obtain rfl : B = A := h.space
  cases hstep with
  | map va pa flags hva hr =>
      obtain ⟨s', hs, h'⟩ := (h.toEncodes.map h.holds.inv h.apart flags).left hr
      exact ⟨(s', _), .map va pa flags hva hs, h.next h' (.map va pa flags hva hs)⟩
  | unmap va hva hr =>
      obtain ⟨s', hs, h'⟩ := (h.toEncodes.unmap h.holds.inv h.apart).left hr
      exact ⟨(s', _), .unmap va hva hs, h.next h' (.unmap va hva hs)⟩
  | other op hok hspare hr =>
      rw [h.clientOk_iff h.tableBase_ne] at hok
      rw [h.sparesTables_iff h.holds.inv h.apart] at hspare
      obtain ⟨s', hs, h'⟩ := (h.exec h.coherent h.apart hok).left hr
      exact ⟨(s', _), .other op hok hspare hs, h.next h' (.other op hok hspare hs)⟩

theorem of_step {x : Ram × AddrSpace} {y y' : Machine × AddrSpace} (h : Follows root W x y)
    (hstep : Machine.VmStep root y y') : ∃ x', Ram.VmStep root x x' ∧ Follows root W x' y' := by
  obtain ⟨s, A⟩ := y
  obtain ⟨r, B⟩ := x
  obtain rfl : B = A := h.space
  cases hstep with
  | map va pa flags hva hs =>
      obtain ⟨r', hr, h'⟩ := (h.toEncodes.map h.holds.inv h.apart flags).right hs
      exact ⟨(r', _), .map va pa flags hva hr, h.next h' (.map va pa flags hva hs)⟩
  | unmap va hva hs =>
      obtain ⟨r', hr, h'⟩ := (h.toEncodes.unmap h.holds.inv h.apart).right hs
      exact ⟨(r', _), .unmap va hva hr, h.next h' (.unmap va hva hs)⟩
  | other op hok hspare hs =>
      obtain ⟨r', hr, h'⟩ := (h.exec h.coherent h.apart hok).right hs
      refine ⟨(r', _), .other op ?_ ?_ hr, h.next h' (.other op hok hspare hs)⟩
      · exact (h.clientOk_iff h.tableBase_ne).2 hok
      · exact (h.sparesTables_iff h.holds.inv h.apart).2 hspare

theorem answers (h : Follows root W (r, A) (s, A)) : r.AnswersAs s root where
  encodes := h.toEncodes
  allocFrame := by
    obtain ⟨L, G, hc⟩ := h.coherent
    exact h.toEncodes.allocFrame hc h.apart
  releaseFrame := fun f => h.toEncodes.releaseOn (h.apart f)
  pinFrame := fun _ => h.toEncodes.pin
  unpinFrame := fun f => h.toEncodes.unpinFrame (h.apart f)
  addMapping := fun _ => h.toEncodes.addMapping
  removeMapping := fun f => h.toEncodes.removeMapping (h.apart f)
  retypeFrame := fun cap domain => h.toEncodes.retypeLoop cap domain _ _ _
  frameGen := fun _ => h.toEncodes.gen
  freeFrameCount := h.toEncodes.freeFrameCount
  map := fun _ _ flags => h.toEncodes.map h.holds.inv h.apart flags
  unmap := fun _ => h.toEncodes.unmap h.holds.inv h.apart
  translate := fun _ => h.toEncodes.translate h.holds.inv h.apart

end Ram.Follows

/-! ## From boot -/

section Runs

variable {boot : BootInfo} {specs : List UntypedSpec} {outUntyped caps : List UntypedCap}
  {heapLen root : Nat} {mem : ByteMem} {info : PmInitOut} {r : Ram} {s : Machine} {A : AddrSpace}

/-- A machine that booted, made calls, has a new table at `root`, and uses it. -/
def Machine.Reaches (boot : BootInfo) (specs : List UntypedSpec) (outUntyped : List UntypedCap)
    (heapLen : Nat) (mem : ByteMem) (root : Nat) (s : Machine) (A : AddrSpace) : Prop :=
  ∃ info caps s₀ s₁ s₂,
    Returns (pmmInit boot specs outUntyped heapLen) (Machine.reset mem) (info, caps) s₀ ∧
    ReflTransGen PmmStep s₀ s₁ ∧
    (s₁.newTable = some (some root, s₂) ∨ s₁.newKernel info.ramEnd = some (some root, s₂)) ∧
    ReflTransGen (Machine.VmStep root) (s₂, AddrSpace.empty) (s, A)

/-- The same with the frame table in memory. -/
def Ram.Reaches (boot : BootInfo) (specs : List UntypedSpec) (outUntyped : List UntypedCap)
    (heapLen : Nat) (mem : ByteMem) (root : Nat) (r : Ram) (A : AddrSpace) : Prop :=
  ∃ info caps r₀ r₁ r₂,
    Returns (pmmInit boot specs outUntyped heapLen) (Ram.reset mem) (info, caps) r₀ ∧
    ReflTransGen Ram.PmmStep r₀ r₁ ∧
    (PageMem.newTable r₁ = some (some root, r₂) ∨
      PageMem.newKernel r₁ info.ramEnd = some (some root, r₂)) ∧
    ReflTransGen (Ram.VmStep root) (r₂, AddrSpace.empty) (r, A)

theorem ramEnd_le (hbelow : boot.Below16TiB)
    (h : Returns (pmmInit boot specs outUntyped heapLen) (Machine.reset mem) (info, caps) s) :
    info.ramEnd ≤ 2 ^ 44 := by
  obtain ⟨regions, ftPhys, heapEnd, bootAlloc, s₁, s₂, s₃, s₄, s₅, s₆, hrun⟩ := pmmInit_returns h
  rw [hrun.info, (buildEffective_returns hrun.effective).1]
  refine maxUsableEnd_of (P := (· ≤ 2 ^ 44)) (Nat.zero_le _) ?_
  exact effective_end_le fun r hr hu => (hbelow r hr hu).le

theorem pmmInit_apart (hu64 : boot.IsU64) (hapart : boot.TableApart heapLen)
    (h : Returns (pmmInit boot specs outUntyped heapLen) (Machine.reset mem) (info, caps) s) :
    s.PoolApart := by
  obtain ⟨-, heapPhys, heapEnd, before, r, after, hlaid⟩ := pmmInit_laidOut hu64 h
  intro f hf
  apply hlaid.tableApart_iff.1 hapart f
  rcases (pmmInit_idle h).owner f with howner | howner | ⟨id, howner⟩
  · exact absurd (congrArg FrameOwner.tag howner) hf
  · exact Or.inl (congrArg FrameOwner.tag howner)
  · exact Or.inr (congrArg FrameOwner.tag howner)

/-- Where a run on either machine starts. -/
theorem tracks_of_pmmInit (hu64 : boot.IsU64) (hbelow : boot.Below16TiB)
    (hapart : boot.TableApart heapLen) (h : r.Encodes s)
    (hs : Returns (pmmInit boot specs outUntyped heapLen) (Machine.reset mem) (info, caps) s) :
    r.Tracks s where
  toEncodes := h
  coherent := (pmmInit_coherent hbelow hs).1
  apart := pmmInit_apart hu64 hapart hs

section NewTable

variable {r' : Ram} {s' : Machine} {ramEnd : Nat}

theorem Ram.Tracks.newSpace (h : r.Tracks s) (hram : ramEnd ≤ 2 ^ 44)
    (hnew : PageMem.newTable r = some (some root, r') ∨
      PageMem.newKernel r ramEnd = some (some root, r')) :
    ∃ s', (s.newTable = some (some root, s') ∨ s.newKernel ramEnd = some (some root, s')) ∧
      r'.Encodes s' := by
  rcases hnew with hnew | hnew
  · obtain ⟨s', hs, h'⟩ := (h.toEncodes.newTable h.coherent h.apart).left hnew
    exact ⟨s', Or.inl hs, h'⟩
  · obtain ⟨s', hs, h'⟩ := (h.toEncodes.newKernel h.coherent h.apart hram).left hnew
    exact ⟨s', Or.inr hs, h'⟩

theorem Ram.Tracks.of_newSpace (h : r.Tracks s) (hram : ramEnd ≤ 2 ^ 44)
    (hnew : s.newTable = some (some root, s') ∨ s.newKernel ramEnd = some (some root, s')) :
    ∃ r', (PageMem.newTable r = some (some root, r') ∨
      PageMem.newKernel r ramEnd = some (some root, r')) ∧ r'.Encodes s' := by
  rcases hnew with hnew | hnew
  · obtain ⟨r', hr, h'⟩ := (h.toEncodes.newTable h.coherent h.apart).right hnew
    exact ⟨r', Or.inl hr, h'⟩
  · obtain ⟨r', hr, h'⟩ := (h.toEncodes.newKernel h.coherent h.apart hram).right hnew
    exact ⟨r', Or.inr hr, h'⟩

theorem newSpace_of_boot {s₀ : Machine} (hbelow : boot.Below16TiB) (hapart : boot.TableApart heapLen)
    (hinit : Returns (pmmInit boot specs outUntyped heapLen) (Machine.reset mem) (info, caps) s₀)
    (hrun : ReflTransGen PmmStep s₀ s)
    (hnew : s.newTable = some (some root, s') ∨ s.newKernel ramEnd = some (some root, s')) :
    NewSpace root s' := by
  refine ⟨s, ?_, hnew.imp_right fun h => ⟨ramEnd, h⟩⟩
  exact ⟨boot, specs, outUntyped, caps, heapLen, mem, info, s₀, hbelow, ⟨hapart, hinit⟩, hrun⟩

/-- The table just made is the same on both. -/
theorem Ram.Tracks.follows (h : r.Tracks s) (h' : r'.Encodes s')
    (hnew : s.newTable = some (some root, s') ∨ s.newKernel ramEnd = some (some root, s'))
    (hspace : NewSpace root s') :
    ∃ W, Ram.Follows root W (r', AddrSpace.empty) (s', AddrSpace.empty) := by
  obtain ⟨W, hholds⟩ := hspace.holds
  have hgrows : Grows s s' := by
    rcases hnew with hnew | hnew
    · obtain ⟨o, s₁, hrun, hgrows, -⟩ := newTable_spec h.coherent
      obtain ⟨-, rfl⟩ := Prod.mk.inj (Option.some.inj (hnew.symm.trans hrun))
      exact hgrows
    · exact (newKernel_spec h.coherent hnew).2.1
  exact ⟨W, {
    toEncodes := h'
    coherent := hholds.inv.coherent
    apart := h.apart.grows hgrows
    holds := hholds
    space := rfl }⟩

end NewTable

/-- **The frame table in memory.** On a map that keeps the frame table out of the pool, a machine
with the table in its memory and one with the table apart reach the same: for every state of the one
there is a state of the other that answers every call alike. -/
theorem table_in_memory (hu64 : boot.IsU64) (hbelow : boot.Below16TiB)
    (hapart : boot.TableApart heapLen) :
    (∀ r A, Ram.Reaches boot specs outUntyped heapLen mem root r A →
      ∃ s, Machine.Reaches boot specs outUntyped heapLen mem root s A ∧ r.AnswersAs s root) ∧
    (∀ s A, Machine.Reaches boot specs outUntyped heapLen mem root s A →
      ∃ r, Ram.Reaches boot specs outUntyped heapLen mem root r A ∧ r.AnswersAs s root) := by
  have hboot : Corres Ram.Encodes (pmmInit boot specs outUntyped heapLen) (Ram.reset mem)
      (pmmInit boot specs outUntyped heapLen) (Machine.reset mem) := corres_pmmInit hu64 hapart mem
  constructor
  · rintro r A ⟨info, caps, r₀, r₁, r₂, hr₀, hr₁, hnew, hr⟩
    obtain ⟨s₀, hs₀, h₀⟩ := hboot.left hr₀
    have ht₀ := tracks_of_pmmInit hu64 hbelow hapart h₀ hs₀
    obtain ⟨s₁, hs₁, ht₁⟩ := follows_run (fun _ _ _ h hstep => h.pmmStep hstep) ht₀ hr₁
    obtain ⟨s₂, hnew', h₂⟩ := ht₁.newSpace (ramEnd_le hbelow hs₀) hnew
    obtain ⟨W, hf₂⟩ := ht₁.follows h₂ hnew' (newSpace_of_boot hbelow hapart hs₀ hs₁ hnew')
    obtain ⟨⟨s, B⟩, hs, hf⟩ := follows_run (fun _ _ _ h hstep => h.step hstep) hf₂ hr
    obtain rfl : A = B := hf.space
    exact ⟨s, ⟨info, caps, s₀, s₁, s₂, hs₀, hs₁, hnew', hs⟩, hf.answers⟩
  · rintro s A ⟨info, caps, s₀, s₁, s₂, hs₀, hs₁, hnew, hs⟩
    obtain ⟨r₀, hr₀, h₀⟩ := hboot.right hs₀
    have ht₀ := tracks_of_pmmInit hu64 hbelow hapart h₀ hs₀
    obtain ⟨r₁, hr₁, ht₁⟩ := follows_run (R := fun s r => Ram.Tracks r s)
      (fun _ _ _ h hstep => h.of_pmmStep hstep) ht₀ hs₁
    obtain ⟨r₂, hnew', h₂⟩ := ht₁.of_newSpace (ramEnd_le hbelow hs₀) hnew
    obtain ⟨W, hf₂⟩ := ht₁.follows h₂ hnew (newSpace_of_boot hbelow hapart hs₀ hs₁ hnew)
    obtain ⟨⟨r, B⟩, hr, hf⟩ := follows_run (R := fun y x => Ram.Follows root W x y)
      (fun _ _ _ h hstep => h.of_step hstep) hf₂ hs
    obtain rfl : B = A := hf.space
    exact ⟨r, ⟨info, caps, r₀, r₁, r₂, hr₀, hr₁, hnew', hr⟩, hf.answers⟩

/-- One page on a new table. -/
theorem table_in_memory_page :
    ∃ root r s A, pageBoot.IsU64 ∧ pageBoot.Below16TiB ∧ pageBoot.TableApart 0 ∧
      Machine.Reaches pageBoot [] [] 0 (fun _ => 0) root s A ∧
      Ram.Reaches pageBoot [] [] 0 (fun _ => 0) root r A ∧
      A 1 = some (0x100000, .user) ∧ r.AnswersAs s root := by
  have hu64 : pageBoot.IsU64 := ⟨by decide, by decide, by decide⟩
  obtain ⟨info, caps, s₀, root, s₁, s, hinit, hnew, -, hmap⟩ := pageBoot_run
  have hreach : Machine.Reaches pageBoot [] [] 0 (fun _ => 0) root s
      (AddrSpace.empty.map 0x1000 0x100000 .user (.ok ())) :=
    ⟨info, caps, s₀, s₀, s₁, hinit, .refl, Or.inl hnew,
      .single (.map 0x1000 0x100000 .user (by decide) hmap)⟩
  obtain ⟨-, hback⟩ := table_in_memory hu64 (by decide) pageBoot_apart
  obtain ⟨r, hr, h⟩ := hback s _ hreach
  exact ⟨root, r, s, _, hu64, by decide, pageBoot_apart, hreach, hr, rfl, h⟩

end Runs

end Rolnix
