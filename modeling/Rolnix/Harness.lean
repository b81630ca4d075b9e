import Rolnix.Boot
import Mathlib.Data.List.Sort

/-!
# The boot harness

The boot crate: `multiboot.rs` copies the bootloader's memory map out of its info block, and
`main.rs` turns it into the region list for `pmm_init` and chooses the range of the untyped
capability. `fill_regions` and `pick_untyped_spec` halt the machine where there is nothing to work
with; a halt is `none` here.
-/

namespace Rolnix

/-! ## Multiboot -/

/-- One entry of the bootloader's map. -/
structure MemEntry where
  start : Nat
  len : Nat
  kind : Nat
  deriving DecidableEq, Repr

def mtUsable : Nat := 1

/-- The record loop of `parse`, at `p`, with room for `room` more entries. -/
def parseRecords (mem : ByteMem) (stop : Nat) : Nat → Nat → List MemEntry
  | 0, _ => []
  | room + 1, p =>
      if p < stop then
        let size := mem.load p 4
        let base := mem.load (p + 4) 8
        let len := mem.load (p + 12) 8
        let ty := mem.load (p + 20) 4
        -- malformed; stop, do not loop forever
        if size < 20 then []
        else ⟨base, len, ty⟩ :: parseRecords mem stop room (p + 4 + size)
      else []

/-- The info block's `mem_upper`, if its flag is set. -/
def memUpper (mem : ByteMem) (infoPtr : Nat) : Nat :=
  if mem.load infoPtr 4 &&& 0x1 ≠ 0 then mem.load (infoPtr + 8) 4 else 0

/-- The records of the memory map, if its flag is set. -/
def mmapEntries (mem : ByteMem) (infoPtr room : Nat) : List MemEntry :=
  if mem.load infoPtr 4 &&& 2 ^ 6 ≠ 0 then
    let mmapAddr := mem.load (infoPtr + 48) 4
    let mmapLen := mem.load (infoPtr + 44) 4
    parseRecords mem (mmapAddr + mmapLen) room mmapAddr
  else []

/-- Parse the info block at `infoPtr` into at most `room` entries, or `none` on a malformed map.
With no room at all, writing the fallback entry panics. -/
def parse (mem : ByteMem) (infoPtr room : Nat) : Option (Option (List MemEntry)) :=
  let entries := mmapEntries mem infoPtr room
  if entries = [] ∧ memUpper mem infoPtr ≠ 0 then
    if room = 0 then none
    else some (some [⟨0x100000, memUpper mem infoPtr * 1024, mtUsable⟩])
  else if entries = [] then some none
  else some (some entries)

/-! ## The region list -/

/-- Size of the region buffer. -/
def maxRegions : Nat := 64

/-- `start.checked_add(len).unwrap_or(start)`. -/
def MemEntry.end (e : MemEntry) : Nat := if e.start + e.len < 2 ^ 64 then e.start + e.len else e.start

/-- One entry of the map as a region: of usable memory only the whole frames are kept. -/
def regionOfEntry (e : MemEntry) : Option MemoryRegion :=
  if e.kind = mtUsable then
    let start := Word.alignUp 64 e.start frameSize
    let stop := roundDown e.end frameSize
    if stop ≤ start then none else some ⟨start, stop - start, .usable⟩
  else some ⟨e.start, e.len, .reserved⟩

/-- One round of the insertion sort: `key` moves down past the regions that start after it. The
sorted part of the buffer is given from its end. -/
def insertKey (done : List MemoryRegion) (key : MemoryRegion) : List MemoryRegion :=
  done.orderedInsert (fun key r => r.start ≤ key.start) key

/-- The insertion sort of `fill_regions`. -/
def sortRegions (regions : List MemoryRegion) : List MemoryRegion :=
  (regions.foldl insertKey []).reverse

/-- Copy the multiboot map, frame-aligning usable entries and sorting by start address. -/
def fillRegions (mem : ByteMem) (info : Nat) : Option (List MemoryRegion) :=
  match parse mem info maxRegions with
  | some (some raw) => some (sortRegions (raw.filterMap regionOfEntry))
  | some none => none -- bootloader provided no usable memory map
  | none => none

/-! ## The untyped range -/

def untypedLen : Nat := 64 * 1024 * 1024

/-- Start and end of the usable region with the highest end, the first one of several. -/
def bestRegion (regions : List MemoryRegion) : Nat × Nat :=
  regions.foldl (fun best r => if r.kind = .usable ∧ r.end > best.2 then (r.start, r.end) else best)
    (0, 0)

/-- Reserve `untypedLen` off the top of the highest usable region. -/
def pickUntypedSpec (regions : List MemoryRegion) : Option UntypedSpec :=
  let (bestStart, bestEnd) := bestRegion regions
  if bestEnd = 0 then none -- no usable region for the untyped cap
  else
    let len := min untypedLen (Word.sub 64 bestEnd bestStart)
    some ⟨Word.sub 64 bestEnd len, len⟩

/-! ## `rust_entry` -/

def kernelHeapSize : Nat := 8 * 1024 * 1024

/-- The boot information `rust_entry` hands to `pmm_init`. -/
def harnessBoot (regions : List MemoryRegion) (image : Nat × Nat) : BootInfo where
  physmapBase := 0xffff800000000000
  regions := regions
  kernelImage := image

end Rolnix
