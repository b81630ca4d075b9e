import Rolnix.Allocator
import Rolnix.Untyped

/-!
# Boot-time initialization

`boot.rs`: the memory map, the bump allocator used before the frame table exists, and `pmm_init`,
which carves the frame table and the heap out of usable memory, marks the remaining usable frames
free, reserves the untyped regions and builds the global free list.

Boot code runs in `BootT`: it reads and writes the machine, returns `Err` with a message, or
panics (`abort`). It is written over every machine that has what it accesses: the free lists and
what `BootMem` adds. `BootM` is boot code on a `Machine`.
-/

namespace Rolnix

/-! ## The memory map -/

/-- Classification of a physical memory region. -/
inductive RegionKind
  | usable | reserved
  deriving DecidableEq, Repr

/-- A physical memory region, as reported by the boot handoff. -/
structure MemoryRegion where
  start : Nat
  len : Nat
  kind : RegionKind
  deriving DecidableEq, Repr

def MemoryRegion.end (r : MemoryRegion) : Nat := Word.add 64 r.start r.len

/-- Everything the long-mode entry trampoline hands over. -/
structure BootInfo where
  physmapBase : Nat
  regions : List MemoryRegion
  /-- Start and length of the kernel image; `(0, 0)` if none. -/
  kernelImage : Nat × Nat

/-- A request to turn a physical range into an untyped region. -/
structure UntypedSpec where
  basePhys : Nat
  len : Nat
  deriving DecidableEq, Repr

def roundDown (value align : Nat) : Nat := value &&& Word.not 64 (Word.sub 64 align 1)

def roundUp (value align : Nat) : Nat := Word.alignUp 64 value align

def ceilDiv (a b : Nat) : Nat := Word.sub 64 (Word.add 64 a b) 1 / b

/-! ## The boot allocator -/

/-- Bump allocator over the usable regions, in order. -/
structure BootAllocator where
  regions : List MemoryRegion
  nextRegion : Nat
  cursor : Nat

namespace BootAllocator

def new (regions : List MemoryRegion) : BootAllocator := ⟨regions, 0, 0⟩

/-- Leave the current region. -/
def skip (ba : BootAllocator) : BootAllocator :=
  { ba with nextRegion := ba.nextRegion + 1, cursor := 0 }

/-- The loop of `alloc`. Every iteration that does not return leaves a region, so the number of
regions bounds them. -/
def allocLoop (size align : Nat) : Nat → BootAllocator → Option Nat × BootAllocator
  | 0, ba => (none, ba)
  | fuel + 1, ba =>
      match ba.regions[ba.nextRegion]? with
      | none => (none, ba)
      | some region =>
          if region.kind ≠ .usable then allocLoop size align fuel ba.skip
          else
            let start := Word.alignUp 64 (max ba.cursor region.start) align
            -- `checked_add`, then the fit test
            if start + size < 2 ^ 64 ∧ start + size ≤ region.end then
              (some start,
                if start + size = region.end then ba.skip else { ba with cursor := start + size })
            else allocLoop size align fuel ba.skip

/-- Allocate `size` bytes from the first usable region that can satisfy the request. -/
def alloc (ba : BootAllocator) (size align : Nat) : Option Nat × BootAllocator :=
  allocLoop size align (ba.regions.length + 1) ba

end BootAllocator

/-! ## Boot computations -/

/-- Boot code: a machine to read and write, errors with a message, and panics. -/
abbrev BootT (σ : Type) := ExceptT String (StateT σ Option)

abbrev BootM := BootT Machine

section Code

variable {σ α : Type}

/-- A failed assertion. -/
def abort : BootT σ α := ExceptT.mk fun _ => none

/-- Run a function that may panic. -/
def orAbort (f : σ → Option (α × σ)) : BootT σ α :=
  ExceptT.mk fun s => (f s).map fun r => (.ok r.1, r.2)

/-! ## Effective regions -/

/-- Cap on the number of effective regions. -/
def maxEffectiveRegions : Nat := 128

/-- Physical end of the legacy low-memory area. -/
def legacyEnd : Nat := 1024 * 1024

/-- `out[n] = region; n += 1`: the index is checked. -/
def pushRegion (out : List MemoryRegion) (region : MemoryRegion) : BootT σ (List MemoryRegion) :=
  if out.length < maxEffectiveRegions then pure (out ++ [region]) else abort

/-- One region of the map, with the rounded kernel image `[kiKs, kiKe)` split out. -/
def splitRegion (kiLen kiKs kiKe : Nat) (out : List MemoryRegion) (region : MemoryRegion) :
    BootT σ (List MemoryRegion) := do
  if region.kind ≠ .usable then pushRegion out region
  else
    let start := region.start
    let stop := region.end
    if kiLen ≠ 0 ∧ kiKs < stop ∧ start < kiKe then
      let out ← if start < kiKs then pushRegion out ⟨start, kiKs - start, .usable⟩ else pure out
      if kiKe < stop then pushRegion out ⟨kiKe, stop - kiKe, .usable⟩ else pure out
    else pushRegion out region

/-- The loop of `build_effective`. -/
def effectiveLoop (kiLen kiKs kiKe : Nat) :
    List MemoryRegion → List MemoryRegion → BootT σ (List MemoryRegion)
  | out, [] => pure out
  | out, region :: rest => do
      let out ← splitRegion kiLen kiKs kiKe out region
      if out.length ≥ maxEffectiveRegions then throw "too many memory regions"
      else effectiveLoop kiLen kiKs kiKe out rest

/-- The effective region list: usable regions with the kernel image split out. -/
def buildEffective (boot : BootInfo) : BootT σ (List MemoryRegion) :=
  let kiStart := boot.kernelImage.1
  let kiLen := boot.kernelImage.2
  let kiKs := if kiLen ≠ 0 then roundDown kiStart frameSize else 0
  let kiKe := if kiLen ≠ 0 then roundUp (Word.add 64 kiStart kiLen) frameSize else 0
  effectiveLoop kiLen kiKs kiKe [] boot.regions

end Code

/-! ## What boot code accesses -/

/-- Two statics, and memory by the byte. -/
class BootMem (σ : Type) extends PoolMem σ where
  /-- `PHYS_MAP_BASE`. -/
  physmapBase : σ → Nat
  setPhysmapBase : σ → Nat → σ
  /-- `FRAME_TABLE.base`. -/
  tableBase : σ → Nat
  /-- `write_bytes(va, 0, bytes)`. -/
  zeroBytes : σ → Nat → Nat → σ
  /-- Enter base and length of the frame table, and zero its bytes. -/
  setTable : σ → Nat → Nat → Nat → σ

namespace Machine

/-- `write_bytes(va, 0, bytes)` through the physmap. -/
def zeroBytes (s : Machine) (va bytes : Nat) : Machine :=
  { s with mem := s.mem.fill (Word.sub 64 va s.physmapBase) bytes 0 }

/-- A zeroed frame table: its bytes, and what they mean. -/
def setTable (s : Machine) (baseVa numFrames bytes : Nat) : Machine :=
  { ({ s with tableBase := baseVa, numFrames := numFrames }).zeroBytes baseVa bytes with
    frames := fun _ => FrameInfo.zeroed }

end Machine

instance : BootMem Machine where
  physmapBase := Machine.physmapBase
  setPhysmapBase s base := { s with physmapBase := base }
  tableBase := Machine.tableBase
  zeroBytes := Machine.zeroBytes
  setTable := Machine.setTable

section Code

variable {σ : Type} [BootMem σ]

def setPhysmapBase (base : Nat) : BootT σ Unit := do
  let prev := BootMem.physmapBase (← get)
  modify fun s => BootMem.setPhysmapBase s base
  if prev = 0 ∨ prev = base then pure () else abort -- physmap base set twice

def physmapBase : BootT σ Nat := do
  let b := BootMem.physmapBase (← get)
  if b ≠ 0 then pure b else abort -- physmap not initialized

/-- Translate a physical address to its physmap virtual address. -/
def physToVirt (phys : Nat) : BootT σ Nat := do
  return Word.add 64 (← physmapBase) phys

/-- Initialize the frame table over a zeroed region of `bytes` bytes. -/
def initTableZeroed (baseVa numFrames bytes : Nat) : BootT σ Unit := do
  if baseVa = 0 then abort -- frame table base is zero
  if BootMem.tableBase (← get) ≠ 0 then throw "frame table already initialized"
  modify fun s => BootMem.setTable s baseVa numFrames bytes

/-! ## `pmm_init` -/

/-- Result of `pmm_init`. -/
structure PmInitOut where
  totalFrames : Nat
  /-- Frames in the kernel pool. -/
  freeFrames : Nat
  frameTableFrames : Nat
  untypedCreated : Nat
  heapPhys : Nat
  heapLen : Nat
  ramEnd : Nat
  deriving DecidableEq, Repr

/-- A usable region that is not a whole number of frames. -/
def misaligned (r : MemoryRegion) : Bool :=
  r.kind = .usable ∧ (r.start % frameSize ≠ 0 ∨ r.len % frameSize ≠ 0)

/-- Highest usable end. -/
def maxUsableEnd (regions : List MemoryRegion) : Nat :=
  regions.foldl (fun maxEnd r => if r.kind = .usable then max maxEnd r.end else maxEnd) 0

/-- Move a frame to another owner, or fail with a message. -/
def claimFrame (frame : Nat) (expected new : FrameOwner) (e : String) : BootT σ Unit := do
  let ok ← orAbort fun s => FrameTable.trySetOwner s frame expected.raw new
  if ok then pure () else throw e

/-- Mark one usable frame free, unless it is legacy memory or holds the frame table or heap. -/
def markFrame (ftPhys heapEnd idx : Nat) : BootT σ Unit := do
  let phys := idx * frameSize % 2 ^ 64
  if phys < legacyEnd then pure ()
  else if ftPhys ≤ phys ∧ phys < heapEnd then pure ()
  else claimFrame (idx % 2 ^ 32) .reserved .free "overlapping memory map entries"

/-- Mark the `n` frames from `first` on. -/
def markFrames (ftPhys heapEnd first : Nat) : Nat → BootT σ Unit
  | 0 => pure ()
  | n + 1 => do
      markFrames ftPhys heapEnd first n
      markFrame ftPhys heapEnd (first + n)

def markRegion (ftPhys heapEnd : Nat) (region : MemoryRegion) : BootT σ Unit :=
  if region.kind ≠ .usable then pure ()
  else
    let first := ceilDiv region.start frameSize
    let last := ceilDiv region.end frameSize
    markFrames ftPhys heapEnd first (last - first)

def markRegions (ftPhys heapEnd : Nat) : List MemoryRegion → BootT σ Unit
  | [] => pure ()
  | region :: rest => do
      markRegion ftPhys heapEnd region
      markRegions ftPhys heapEnd rest

/-- Move the `n` frames from `baseFrame` on from free to untyped. -/
def carveFrames (id : UntypedId) (baseFrame : Nat) : Nat → BootT σ Unit
  | 0 => pure ()
  | n + 1 => do
      carveFrames id baseFrame n
      claimFrame ((baseFrame + n) % 2 ^ 32) .free (.untyped id)
        "untyped spec overlaps a reserved range or another region"

def carveUntypedRegion (spec : UntypedSpec) (id : UntypedId) : BootT σ UntypedCap := do
  if spec.basePhys % frameSize ≠ 0 ∨ spec.len % frameSize ≠ 0 then
    throw "untyped spec not frame-aligned"
  let baseFrame := spec.basePhys / frameSize
  let num := spec.len / frameSize
  if num = 0 ∨ baseFrame + num ≥ 0xffffffff then
    throw "untyped spec has invalid range"
  carveFrames id baseFrame num
  return UntypedCap.new id (baseFrame % 2 ^ 32) (num % 2 ^ 32)

/-- Reserve the untyped regions, writing spec `i`'s cap into `out[i]`. -/
def carveSpecs : Nat → List UntypedSpec → List UntypedCap → BootT σ (List UntypedCap)
  | _, [], out => pure out
  | i, spec :: specs, out => do
      let cap ← carveUntypedRegion spec (BitVec.ofNat 32 i)
      carveSpecs (i + 1) specs (out.set i cap)

/-- Carve the kernel heap right after the frame table and zero it. Returns its end. -/
def carveHeap (bootAlloc : BootAllocator) (heapLen ftEnd : Nat) : BootT σ Nat := do
  if heapLen ≠ 0 then
    match (bootAlloc.alloc heapLen frameSize).1 with
    | none => throw "cannot allocate kernel heap"
    | some hp =>
        let hv ← physToVirt hp
        modify fun s => BootMem.zeroBytes s hv heapLen
        return Word.add 64 hp heapLen
  else return ftEnd

/-- What the first half of `pmm_init` leaves to the second. -/
structure BootAreas where
  /-- The effective regions. -/
  regions : List MemoryRegion
  ftPhys : Nat
  heapEnd : Nat

/-- The first half of `pmm_init`: the frame table and the heap. No frame metadata is looked at. -/
def bootAreas (boot : BootInfo) (heapLen : Nat) : BootT σ BootAreas := do
  if heapLen % frameSize ≠ 0 then abort -- heap length must be a multiple of FRAME_SIZE
  setPhysmapBase boot.physmapBase
  if boot.regions.any misaligned then throw "usable region not frame-aligned"
  let regions ← buildEffective boot
  -- Total frame count: up to the highest usable end.
  let maxEnd := maxUsableEnd regions
  if maxEnd = 0 then throw "no usable memory"
  let total := ceilDiv maxEnd frameSize
  let ftBytes := total * FrameInfo.size
  -- Carve the frame table out of usable memory with the boot allocator.
  match (BootAllocator.new regions).alloc ftBytes frameSize with
  | (none, _) => throw "cannot allocate frame table"
  | (some ftPhys, bootAlloc) =>
      let ftVa ← physToVirt ftPhys
      initTableZeroed ftVa total ftBytes
      let heapEnd ← carveHeap bootAlloc heapLen (Word.add 64 ftPhys ftBytes)
      return ⟨regions, ftPhys, heapEnd⟩

/-- The second half of `pmm_init`: the owners of the frames, and the pool. -/
def bootFrames (specs : List UntypedSpec) (outUntyped : List UntypedCap) (heapLen : Nat)
    (areas : BootAreas) : BootT σ (PmInitOut × List UntypedCap) := do
  let maxEnd := maxUsableEnd areas.regions
  let total := ceilDiv maxEnd frameSize
  -- Mark usable frames free, skipping the frame table and the heap.
  markRegions areas.ftPhys areas.heapEnd areas.regions
  -- Reserve the untyped regions.
  let out ← carveSpecs 0 specs outUntyped
  -- Build the kernel pool from whatever is still free.
  let free ← orAbort PoolMem.buildGlobalFreelist
  return ({ totalFrames := total
            freeFrames := free
            frameTableFrames := total * FrameInfo.size / frameSize
            untypedCreated := specs.length
            heapPhys := if heapLen ≠ 0 then Word.sub 64 areas.heapEnd heapLen else 0
            heapLen := heapLen
            ramEnd := maxEnd }, out)

/-- Initialize the physical memory manager. Returns the summary and `out_untyped`. -/
def pmmInit (boot : BootInfo) (specs : List UntypedSpec) (outUntyped : List UntypedCap)
    (heapLen : Nat) : BootT σ (PmInitOut × List UntypedCap) := do
  if specs.length > outUntyped.length then throw "untyped output buffer too small"
  let areas ← bootAreas boot heapLen
  bootFrames specs outUntyped heapLen areas

end Code

end Rolnix
