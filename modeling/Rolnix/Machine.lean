import Rolnix.Lib.ByteMem
import Rolnix.Lib.Word
import Mathlib.Data.BitVec

/-!
# The machine: physical memory, the frame table and the free lists

The state the physical memory manager works on, following `arch.rs`, `frame.rs` and the statics
of `allocator.rs`.

* Physical memory is a `ByteMem` indexed by physical address. All of RAM is mapped at the
  physmap base, so an access through `phys_to_virt p` is an access to the byte at `p`.
* A frame is a number (`FrameIndex`, a `u32`), and the frame table a function from frames to
  `FrameInfo`, apart from the bytes of `mem` that it occupies. That is right as long as nobody
  writes these bytes but the table's own functions, and so as long as no frame of the pool holds
  any of them: on every map without overlaps, but not on every map that `pmm_init` accepts. The
  condition is `BootInfo.TableApart`; `Rolnix.Ram` is the machine with the table in its memory, and
  `table_in_memory` says that under the condition the two do the same.
* A Rust panic is `none`.

Arithmetic is that of the release profile: it wraps, and `debug_assert!` is compiled out. A run
of the dev profile that does not panic is a run of this model.
-/

namespace Rolnix

/-! ## Sizes -/

/-- Size of a physical frame. -/
def frameSize : Nat := 4096

/-- Number of per-CPU free-list shards. -/
def shardCount : Nat := 64

/-- Maximum number of frames moved into a shard on a refill. -/
def shardRefillBatch : Nat := 64

/-- Identifier of a protection domain. -/
abbrev DomainId := BitVec 32

/-- Identifier of an untyped memory region. -/
abbrev UntypedId := BitVec 32

/-- Physical address of the start of a frame. -/
def framePhys (frame : Nat) : Nat := frame * frameSize

/-- Identifier of the CPU currently executing: a stub in the source too. -/
def currentCpu : Nat := 0

/-! ## Owners -/

/-- The class of owner of a frame. -/
inductive OwnerTag
  | reserved | free | kernel | pending | untyped | domain
  deriving DecidableEq, Repr

/-- The `repr(u8)` value of a tag. -/
def OwnerTag.toNat : OwnerTag → Nat
  | .reserved => 0
  | .free => 1
  | .kernel => 2
  | .pending => 3
  | .untyped => 4
  | .domain => 5

/-- The owner of a frame. The source packs it into a `u64`, which is `FrameOwner.raw`. -/
structure FrameOwner where
  tag : OwnerTag
  id : BitVec 32
  deriving DecidableEq, Repr

namespace FrameOwner

/-- Tag in the low byte, id above it. -/
def encode (tag : OwnerTag) (id : BitVec 32) : Nat := tag.toNat ||| (id.toNat <<< 8)

/-- Unpack; `none` is the `unreachable!` arm. -/
def decode (raw : Nat) : Option (OwnerTag × BitVec 32) := do
  let tag ← match raw &&& 0xff with
    | 0 => some OwnerTag.reserved
    | 1 => some OwnerTag.free
    | 2 => some OwnerTag.kernel
    | 3 => some OwnerTag.pending
    | 4 => some OwnerTag.untyped
    | 5 => some OwnerTag.domain
    | _ => none
  return (tag, BitVec.ofNat 32 ((raw >>> 8) &&& 0xffffffff))

/-- The packed owner: the word of the frame table. -/
def raw (o : FrameOwner) : Nat := encode o.tag o.id

def reserved : FrameOwner := ⟨.reserved, 0⟩
def free : FrameOwner := ⟨.free, 0⟩
def kernel : FrameOwner := ⟨.kernel, 0⟩
def pending : FrameOwner := ⟨.pending, 0⟩
def untyped (id : UntypedId) : FrameOwner := ⟨.untyped, id⟩
def domain (id : DomainId) : FrameOwner := ⟨.domain, id⟩

@[simp] theorem kernel_ne_free : kernel ≠ free := by decide
@[simp] theorem pending_ne_free : pending ≠ free := by decide
@[simp] theorem untyped_ne_free (id : UntypedId) : untyped id ≠ free := by simp [untyped, free]
@[simp] theorem domain_ne_free (id : DomainId) : domain id ≠ free := by simp [domain, free]

theorem encode_and_byte (tag : OwnerTag) (id : BitVec 32) :
    encode tag id &&& 0xff = tag.toNat := by
  have hshift : (id.toNat <<< 8) &&& 255 = 0 := by
    rw [show (255 : Nat) = 2 ^ 8 - 1 from rfl, Nat.and_two_pow_sub_one_eq_mod, Nat.shiftLeft_eq]
    omega
  rw [encode, Nat.and_or_distrib_right, hshift, Nat.or_zero]
  cases tag <;> rfl

theorem encode_shiftRight (tag : OwnerTag) (id : BitVec 32) : encode tag id >>> 8 = id.toNat := by
  rw [encode, Nat.shiftRight_or_distrib, Nat.shiftLeft_shiftRight]
  cases tag <;> simp [OwnerTag.toNat]

/-- **Unpacking inverts packing.** -/
theorem decode_raw (o : FrameOwner) : decode o.raw = some (o.tag, o.id) := by
  have hid : BitVec.ofNat 32 ((o.raw >>> 8) &&& 0xffffffff) = o.id := by
    rw [raw, encode_shiftRight, show (0xffffffff : Nat) = 2 ^ 32 - 1 from rfl,
      Nat.and_two_pow_sub_one_eq_mod, Nat.mod_eq_of_lt o.id.isLt, BitVec.ofNat_toNat,
      BitVec.setWidth_eq]
  rw [decode, hid, raw, encode_and_byte]
  cases o.tag <;> rfl

/-- So comparing packed owners compares owners. -/
theorem raw_inj {o o' : FrameOwner} : o.raw = o'.raw ↔ o = o' := by
  constructor
  · intro h
    have heq : some (o.tag, o.id) = some (o'.tag, o'.id) := by
      rw [← decode_raw o, ← decode_raw o', h]
    cases o
    cases o'
    simpa using heq
  · intro h
    rw [h]

end FrameOwner

/-! ## Frame metadata -/

/-- Per-frame metadata. -/
structure FrameInfo where
  owner : FrameOwner
  mappings : BitVec 32
  pinned : BitVec 32
  gen : BitVec 32
  deriving DecidableEq, Repr

namespace FrameInfo

/-- Zeroed frame-table memory. -/
def zeroed : FrameInfo := ⟨.reserved, 0, 0, 0⟩

/-- `size_of::<FrameInfo>()`: a `u64` and three `u32`s, padded to the alignment of the `u64`. -/
def size : Nat := 24

/-- Tag of the current owner. -/
def ownerTag (info : FrameInfo) : OwnerTag := info.owner.tag

/-- True if the frame is on a free list. -/
def isFree (info : FrameInfo) : Bool := info.ownerTag = .free

/-- The metadata with another owner. -/
def withOwner (info : FrameInfo) (owner : FrameOwner) : FrameInfo := { info with owner := owner }

/-- Move to a new owner iff the packed owner equals `expected`. -/
def transition (info : FrameInfo) (expected : Nat) (new : FrameOwner) : Option FrameInfo :=
  if info.owner.raw = expected then some (info.withOwner new) else none

def bumpGen (info : FrameInfo) : FrameInfo := { info with gen := info.gen + 1 }

def pin (info : FrameInfo) : FrameInfo := { info with pinned := info.pinned + 1 }

def unpin (info : FrameInfo) : FrameInfo := { info with pinned := info.pinned - 1 }

def addMapping (info : FrameInfo) : FrameInfo := { info with mappings := info.mappings + 1 }

def removeMapping (info : FrameInfo) : FrameInfo := { info with mappings := info.mappings - 1 }

@[simp] theorem withOwner_owner (info : FrameInfo) (o : FrameOwner) :
    (info.withOwner o).owner = o := rfl
@[simp] theorem withOwner_mappings (info : FrameInfo) (o : FrameOwner) :
    (info.withOwner o).mappings = info.mappings := rfl
@[simp] theorem withOwner_pinned (info : FrameInfo) (o : FrameOwner) :
    (info.withOwner o).pinned = info.pinned := rfl
@[simp] theorem withOwner_gen (info : FrameInfo) (o : FrameOwner) :
    (info.withOwner o).gen = info.gen := rfl

@[simp] theorem bumpGen_owner (info : FrameInfo) : info.bumpGen.owner = info.owner := rfl
@[simp] theorem bumpGen_mappings (info : FrameInfo) : info.bumpGen.mappings = info.mappings := rfl
@[simp] theorem bumpGen_pinned (info : FrameInfo) : info.bumpGen.pinned = info.pinned := rfl

@[simp] theorem pin_owner (info : FrameInfo) : info.pin.owner = info.owner := rfl
@[simp] theorem unpin_owner (info : FrameInfo) : info.unpin.owner = info.owner := rfl
@[simp] theorem addMapping_owner (info : FrameInfo) : info.addMapping.owner = info.owner := rfl
@[simp] theorem removeMapping_owner (info : FrameInfo) :
    info.removeMapping.owner = info.owner := rfl

theorem transition_eq (info : FrameInfo) (expected new : FrameOwner) :
    info.transition expected.raw new =
      if info.owner = expected then some (info.withOwner new) else none := by
  simp only [transition, FrameOwner.raw_inj]

end FrameInfo

/-! ## What the code accesses of the frame table -/

/-- The frame table: each access looks a frame up first, and that can panic. The code over it is
written once, for two machines: `Machine`, where the table is a function, and `Ram`, where it lies
in memory. -/
class FrameTable (σ : Type) where
  /-- Number of frames tracked by the frame table. -/
  totalFrames : σ → Nat
  /-- The packed owner. -/
  owner : σ → Nat → Option Nat
  mappings : σ → Nat → Option (BitVec 32)
  pinned : σ → Nat → Option (BitVec 32)
  gen : σ → Nat → Option (BitVec 32)
  /-- Move to a new owner iff the packed owner equals `expected`. -/
  transition : σ → Nat → Nat → FrameOwner → Option (Bool × σ)
  bumpGen : σ → Nat → Option σ
  pin : σ → Nat → Option (BitVec 32 × σ)
  unpin : σ → Nat → Option (BitVec 32 × σ)
  addMapping : σ → Nat → Option (BitVec 32 × σ)
  /-- `FrameInfo::remove_mapping`: without the drain. -/
  dropMapping : σ → Nat → Option (BitVec 32 × σ)

namespace FrameTable

variable {σ : Type} [FrameTable σ]

/-- Tag of the current owner. -/
def ownerTag (s : σ) (frame : Nat) : Option OwnerTag := do
  let raw ← owner s frame
  let (tag, _) ← FrameOwner.decode raw
  return tag

/-- Region or domain of the current owner. -/
def ownerId (s : σ) (frame : Nat) : Option (BitVec 32) := do
  let raw ← owner s frame
  let (_, id) ← FrameOwner.decode raw
  return id

/-- True if the frame is on a free list. -/
def isFree (s : σ) (frame : Nat) : Option Bool := do
  let tag ← ownerTag s frame
  return tag = .free

/-- Panicking owner transition. -/
def setOwner (s : σ) (frame expected : Nat) (new : FrameOwner) : Option σ := do
  let (ok, s) ← transition s frame expected new
  if ok then return s else none

/-- Non-panicking owner transition (the table lookup still panics out of range). -/
def trySetOwner (s : σ) (frame expected : Nat) (new : FrameOwner) : Option (Bool × σ) :=
  transition s frame expected new

/-- Increment the in-flight pin count. Returns the new count. -/
def pinFrame (s : σ) (frame : Nat) : Option (BitVec 32 × σ) := pin s frame

/-- Current generation of a frame. -/
def frameGen (s : σ) (frame : Nat) : Option (BitVec 32) := gen s frame

end FrameTable

/-! ## The machine -/

/-- Sentinel that ends a free list, `u32::MAX`. -/
def listEnd : Nat := 0xffffffff

/-- One free list. The list lives in the free frames themselves. -/
structure Shard where
  head : Nat
  count : Nat
  deriving DecidableEq, Repr

def Shard.empty : Shard := ⟨listEnd, 0⟩

def Shard.isEmpty (sh : Shard) : Bool := sh.head = listEnd

/-- Physical memory and the statics of the memory manager. -/
structure Machine where
  /-- `PHYS_MAP_BASE`; 0 until `pmm_init`. -/
  physmapBase : Nat
  mem : ByteMem
  /-- `FRAME_TABLE.base`; 0 until `pmm_init`. -/
  tableBase : Nat
  /-- `FRAME_TABLE.num_frames`. -/
  numFrames : Nat
  frames : Nat → FrameInfo
  shards : Nat → Shard
  global : Shard

namespace Machine

/-- The statics before `pmm_init`, over arbitrary memory contents. -/
def reset (mem : ByteMem) : Machine where
  physmapBase := 0
  mem := mem
  tableBase := 0
  numFrames := 0
  frames := fun _ => FrameInfo.zeroed
  shards := fun _ => Shard.empty
  global := Shard.empty

/-- The physical address of the frame table. -/
def tablePhys (s : Machine) : Nat := Word.sub 64 s.tableBase s.physmapBase

/-- A byte of the frame table. -/
def InTable (s : Machine) (x : Nat) : Prop :=
  s.tablePhys ≤ x ∧ x < s.tablePhys + s.numFrames * FrameInfo.size

instance (s : Machine) (x : Nat) : Decidable (s.InTable x) := inferInstanceAs (Decidable (_ ∧ _))

/-- Write the metadata of a frame. -/
def setInfo (s : Machine) (frame : Nat) (info : FrameInfo) : Machine :=
  { s with frames := Function.update s.frames frame info }

/-- Write a shard. -/
def setShard (s : Machine) (shard : Nat) (sh : Shard) : Machine :=
  { s with shards := Function.update s.shards shard sh }

@[simp] theorem setInfo_mem (s : Machine) (f : Nat) (i : FrameInfo) :
    (s.setInfo f i).mem = s.mem := rfl
@[simp] theorem setInfo_numFrames (s : Machine) (f : Nat) (i : FrameInfo) :
    (s.setInfo f i).numFrames = s.numFrames := rfl
@[simp] theorem setInfo_tableBase (s : Machine) (f : Nat) (i : FrameInfo) :
    (s.setInfo f i).tableBase = s.tableBase := rfl
@[simp] theorem setInfo_physmapBase (s : Machine) (f : Nat) (i : FrameInfo) :
    (s.setInfo f i).physmapBase = s.physmapBase := rfl
@[simp] theorem setInfo_shards (s : Machine) (f : Nat) (i : FrameInfo) :
    (s.setInfo f i).shards = s.shards := rfl
@[simp] theorem setInfo_global (s : Machine) (f : Nat) (i : FrameInfo) :
    (s.setInfo f i).global = s.global := rfl
@[simp] theorem setInfo_frames (s : Machine) (f : Nat) (i : FrameInfo) :
    (s.setInfo f i).frames = Function.update s.frames f i := rfl

@[simp] theorem setShard_mem (s : Machine) (k : Nat) (sh : Shard) :
    (s.setShard k sh).mem = s.mem := rfl
@[simp] theorem setShard_numFrames (s : Machine) (k : Nat) (sh : Shard) :
    (s.setShard k sh).numFrames = s.numFrames := rfl
@[simp] theorem setShard_tableBase (s : Machine) (k : Nat) (sh : Shard) :
    (s.setShard k sh).tableBase = s.tableBase := rfl
@[simp] theorem setShard_physmapBase (s : Machine) (k : Nat) (sh : Shard) :
    (s.setShard k sh).physmapBase = s.physmapBase := rfl
@[simp] theorem setShard_shards (s : Machine) (k : Nat) (sh : Shard) :
    (s.setShard k sh).shards = Function.update s.shards k sh := rfl
@[simp] theorem setShard_global (s : Machine) (k : Nat) (sh : Shard) :
    (s.setShard k sh).global = s.global := rfl
@[simp] theorem setShard_frames (s : Machine) (k : Nat) (sh : Shard) :
    (s.setShard k sh).frames = s.frames := rfl

/-- Look up the metadata of a frame; both assertions panic. -/
def frameInfo (s : Machine) (idx : Nat) : Option FrameInfo :=
  if s.tableBase = 0 then none
  else if idx < s.numFrames then some (s.frames idx)
  else none

/-- Move a frame to a new owner iff its packed owner equals `expected`. -/
def transition (s : Machine) (frame expected : Nat) (new : FrameOwner) : Option (Bool × Machine) := do
  let info ← s.frameInfo frame
  match info.transition expected new with
  | some info' => return (true, s.setInfo frame info')
  | none => return (false, s)

/-- Change a count. Returns the new one. -/
def updateCount (s : Machine) (frame : Nat) (g : FrameInfo → FrameInfo)
    (count : FrameInfo → BitVec 32) : Option (BitVec 32 × Machine) := do
  let info ← s.frameInfo frame
  return (count (g info), s.setInfo frame (g info))

end Machine

instance : FrameTable Machine where
  totalFrames := Machine.numFrames
  owner s frame := (s.frameInfo frame).map fun info => info.owner.raw
  mappings s frame := (s.frameInfo frame).map FrameInfo.mappings
  pinned s frame := (s.frameInfo frame).map FrameInfo.pinned
  gen s frame := (s.frameInfo frame).map FrameInfo.gen
  transition := Machine.transition
  bumpGen s frame := do
    let info ← s.frameInfo frame
    return s.setInfo frame info.bumpGen
  pin s frame := s.updateCount frame FrameInfo.pin FrameInfo.pinned
  unpin s frame := s.updateCount frame FrameInfo.unpin FrameInfo.pinned
  addMapping s frame := s.updateCount frame FrameInfo.addMapping FrameInfo.mappings
  dropMapping s frame := s.updateCount frame FrameInfo.removeMapping FrameInfo.mappings

namespace Machine

abbrev totalFrames (s : Machine) : Nat := FrameTable.totalFrames s

abbrev trySetOwner (s : Machine) (frame : Nat) (expected new : FrameOwner) :
    Option (Bool × Machine) :=
  FrameTable.trySetOwner s frame expected.raw new

abbrev setOwner (s : Machine) (frame : Nat) (expected new : FrameOwner) : Option Machine :=
  FrameTable.setOwner s frame expected.raw new

abbrev pinFrame (s : Machine) (frame : Nat) : Option (BitVec 32 × Machine) :=
  FrameTable.pinFrame s frame

abbrev addMapping (s : Machine) (frame : Nat) : Option (BitVec 32 × Machine) :=
  FrameTable.addMapping s frame

abbrev frameGen (s : Machine) (frame : Nat) : Option (BitVec 32) := FrameTable.frameGen s frame

/-! ## What the lookups return -/

theorem totalFrames_eq (s : Machine) : s.totalFrames = s.numFrames := rfl

theorem frameInfo_eq_some {s : Machine} {idx : Nat} {info : FrameInfo} :
    s.frameInfo idx = some info ↔ s.tableBase ≠ 0 ∧ idx < s.numFrames ∧ s.frames idx = info := by
  unfold frameInfo
  split_ifs <;> simp_all

theorem ownerTag_eq (s : Machine) (f : Nat) :
    FrameTable.ownerTag s f = (s.frameInfo f).map FrameInfo.ownerTag := by
  simp only [FrameTable.ownerTag, FrameTable.owner]
  cases s.frameInfo f with
  | none => rfl
  | some info =>
      simp only [Option.map_some, Option.bind_eq_bind, Option.bind_some, FrameOwner.decode_raw]
      rfl

theorem ownerId_eq (s : Machine) (f : Nat) :
    FrameTable.ownerId s f = (s.frameInfo f).map fun info => info.owner.id := by
  simp only [FrameTable.ownerId, FrameTable.owner]
  cases s.frameInfo f with
  | none => rfl
  | some info =>
      simp only [Option.map_some, Option.bind_eq_bind, Option.bind_some, FrameOwner.decode_raw]
      rfl

theorem isFree_eq (s : Machine) (f : Nat) :
    FrameTable.isFree s f = (s.frameInfo f).map FrameInfo.isFree := by
  rw [FrameTable.isFree, ownerTag_eq]
  cases s.frameInfo f with
  | none => rfl
  | some info => rfl

theorem trySetOwner_eq_some {s s' : Machine} {f : Nat} {expected new : FrameOwner}
    {b : Bool} :
    s.trySetOwner f expected new = some (b, s') ↔
      s.tableBase ≠ 0 ∧ f < s.numFrames ∧
        (b = true ∧ (s.frames f).owner = expected ∧
            s' = s.setInfo f ((s.frames f).withOwner new) ∨
          b = false ∧ (s.frames f).owner ≠ expected ∧ s' = s) := by
  simp only [FrameTable.trySetOwner, FrameTable.transition, transition, FrameInfo.transition_eq,
    Option.bind_eq_bind, Option.bind_eq_some_iff, frameInfo_eq_some, Option.pure_def]
  constructor
  · rintro ⟨info, ⟨hb, hf, rfl⟩, h⟩
    by_cases ho : (s.frames f).owner = expected
    · rw [if_pos ho] at h
      simp only [Option.some.injEq, Prod.mk.injEq] at h
      exact ⟨hb, hf, Or.inl ⟨h.1.symm, ho, h.2.symm⟩⟩
    · rw [if_neg ho] at h
      simp only [Option.some.injEq, Prod.mk.injEq] at h
      exact ⟨hb, hf, Or.inr ⟨h.1.symm, ho, h.2.symm⟩⟩
  · rintro ⟨hb, hf, ⟨rfl, ho, rfl⟩ | ⟨rfl, ho, rfl⟩⟩
    · exact ⟨_, ⟨hb, hf, rfl⟩, by rw [if_pos ho]⟩
    · exact ⟨_, ⟨hb, hf, rfl⟩, by rw [if_neg ho]⟩

theorem setOwner_eq_some {s s' : Machine} {f : Nat} {expected new : FrameOwner} :
    s.setOwner f expected new = some s' ↔
      s.tableBase ≠ 0 ∧ f < s.numFrames ∧ (s.frames f).owner = expected ∧
        s' = s.setInfo f ((s.frames f).withOwner new) := by
  constructor
  · intro h
    obtain ⟨⟨ok, s₁⟩, htry, h⟩ := Option.bind_eq_some_iff.1 h
    obtain ⟨hb, hf, ⟨rfl, ho, rfl⟩ | ⟨rfl, -, -⟩⟩ := trySetOwner_eq_some.1 htry
    · exact ⟨hb, hf, ho, (Option.some.inj h).symm⟩
    · exact absurd h (by simp)
  · rintro ⟨hb, hf, ho, rfl⟩
    refine Option.bind_eq_some_iff.2 ⟨(true, _), ?_, rfl⟩
    exact trySetOwner_eq_some.2 ⟨hb, hf, Or.inl ⟨rfl, ho, rfl⟩⟩

end Machine

end Rolnix
