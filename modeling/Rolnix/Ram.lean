import Rolnix.Boot
import Rolnix.Vmm

/-!
# The machine with its frame table in memory

`Machine` keeps the frame table apart from the bytes it occupies. Here it is where `frame.rs` has
it: `frame_info(idx)` is the `FrameInfo` at `base + idx * 24` in the physmap, a `u64` and three
`u32`s, and whatever writes these bytes changes the table. The code that runs on a `Machine` runs on a
`Ram` too: the free lists, boot code, retyping and page tables.

The difference shows on the maps on which a frame of the pool holds bytes of the table. `pmm_init`
marks every usable frame free but those in `[start of the frame table, end of the heap)`. Where two
usable entries of the map overlap, the bump allocator can place the heap inside of the table. The
frames of the table behind the heap are then part of the pool, and the first link of the free list
through one of them is written into the metadata of another frame. On all other maps below 16 TiB
there is no difference (`table_in_memory`).
-/

namespace Rolnix

/-- Physical memory, which holds the frame table, and the statics of the memory manager. -/
structure Ram where
  /-- `PHYS_MAP_BASE`; 0 until `pmm_init`. -/
  physmapBase : Nat
  mem : ByteMem
  /-- `FRAME_TABLE.base`; 0 until `pmm_init`. -/
  tableBase : Nat
  /-- `FRAME_TABLE.num_frames`. -/
  numFrames : Nat
  shards : Nat → Shard
  global : Shard

namespace Ram

/-- The statics before `pmm_init`, over arbitrary memory contents. -/
def reset (mem : ByteMem) : Ram where
  physmapBase := 0
  mem := mem
  tableBase := 0
  numFrames := 0
  shards := fun _ => Shard.empty
  global := Shard.empty

/-! ## The frame table -/

/-- The physical address of `frame_info(idx)`; both assertions panic. -/
def infoPhys (r : Ram) (idx : Nat) : Option Nat :=
  if r.tableBase = 0 then none
  else if idx < r.numFrames then
    some (Word.sub 64 (Word.add 64 r.tableBase (idx * FrameInfo.size)) r.physmapBase)
  else none

-- offsets of the fields of a `repr(C)` `FrameInfo`
def ownerOffset : Nat := 0
def mappingsOffset : Nat := 8
def pinnedOffset : Nat := 12
def genOffset : Nat := 16

/-- The packed owner. -/
def owner (r : Ram) (frame : Nat) : Option Nat :=
  (r.infoPhys frame).map fun info => r.mem.load (info + ownerOffset) 8

/-- A `u32` field. -/
def counter (r : Ram) (offset frame : Nat) : Option (BitVec 32) :=
  (r.infoPhys frame).map fun info => BitVec.ofNat 32 (r.mem.load (info + offset) 4)

/-- Change a `u32` field. Returns the new value. -/
def updateCounter (r : Ram) (offset : Nat) (g : BitVec 32 → BitVec 32) (frame : Nat) :
    Option (BitVec 32 × Ram) := do
  let info ← r.infoPhys frame
  let n := g (BitVec.ofNat 32 (r.mem.load (info + offset) 4))
  return (n, { r with mem := r.mem.store (info + offset) 4 n.toNat })

/-- Compare and exchange the packed owner. -/
def transition (r : Ram) (frame expected : Nat) (new : FrameOwner) : Option (Bool × Ram) := do
  let info ← r.infoPhys frame
  if r.mem.load (info + ownerOffset) 8 = expected then
    return (true, { r with mem := r.mem.store (info + ownerOffset) 8 new.raw })
  else return (false, r)

end Ram

instance : FrameTable Ram where
  totalFrames := Ram.numFrames
  owner := Ram.owner
  mappings r := r.counter Ram.mappingsOffset
  pinned r := r.counter Ram.pinnedOffset
  gen r := r.counter Ram.genOffset
  transition := Ram.transition
  bumpGen r frame := (r.updateCounter Ram.genOffset (· + 1) frame).map (·.2)
  pin r := r.updateCounter Ram.pinnedOffset (· + 1)
  unpin r := r.updateCounter Ram.pinnedOffset (· - 1)
  addMapping r := r.updateCounter Ram.mappingsOffset (· + 1)
  dropMapping r := r.updateCounter Ram.mappingsOffset (· - 1)

/-! ## The rest of memory -/

instance : PoolMem Ram where
  listNext r frame := r.mem.load (framePhys frame) 4
  setListNext r frame next := { r with mem := r.mem.store (framePhys frame) 4 next }
  shards := Ram.shards
  setShard r shard sh := { r with shards := Function.update r.shards shard sh }
  global := Ram.global
  setGlobal r sh := { r with global := sh }

namespace Ram

/-- `write_bytes(va, 0, bytes)` through the physmap. -/
def zeroBytes (r : Ram) (va bytes : Nat) : Ram :=
  { r with mem := r.mem.fill (Word.sub 64 va r.physmapBase) bytes 0 }

end Ram

instance : BootMem Ram where
  physmapBase := Ram.physmapBase
  setPhysmapBase r base := { r with physmapBase := base }
  tableBase := Ram.tableBase
  zeroBytes := Ram.zeroBytes
  setTable r baseVa numFrames bytes :=
    ({ r with tableBase := baseVa, numFrames := numFrames }).zeroBytes baseVa bytes

instance : PageMem Ram where
  readEntry r frame i := r.mem.load (framePhys frame + 8 * i) 8
  writeEntry r frame i entry := { r with mem := r.mem.store (framePhys frame + 8 * i) 8 entry }
  zeroTable r frame := { r with mem := r.mem.fill (framePhys frame) frameSize 0 }
  physmapBase := Ram.physmapBase

end Rolnix
