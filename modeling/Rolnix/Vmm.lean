import Rolnix.Allocator

/-!
# Virtual memory

`vmm.rs`: four-level page tables over frames of the memory manager. A table is 512 entries of
eight bytes in one frame, read and written through the physmap; the root of a `PageTable` is a
frame index. `map` and `unmap` work on 4 KiB pages and keep the frames' mapping counts;
`new_kernel` maps two windows with 2 MiB pages. They are written over every machine that has what
they access: the frame allocator, and page tables (`PageMem`).

Invalidating the TLB and loading CR3 have no effect on this state and are left out.
-/

namespace Rolnix

/-- Entries per page-table level. -/
def tableEntries : Nat := 512

/-- A 2 MiB huge page. -/
def largePage : Nat := 2 * 1024 * 1024

def ptePresent : Nat := 1 <<< 0
def pteWritable : Nat := 1 <<< 1
def pteUser : Nat := 1 <<< 2
def pteHuge : Nat := 1 <<< 7

def addrMask4k : Nat := 0x000ffffff000
def addrMask2m : Nat := 0x00000fffffe00000
def addrMask1g : Nat := 0x000fffffc0000000

/-! ## Flags -/

/-- Page-table flags: some of `PRESENT`, `WRITABLE`, `USER`, `HUGE` and `NO_EXEC`. The field is
private in the source, so no other bit can be set. -/
structure Flags where
  bits : Nat
  known : ∀ i, bits.testBit i = true → i = 0 ∨ i = 1 ∨ i = 2 ∨ i = 7 ∨ i = 63

namespace Flags

/-- The flag of one bit. -/
def single (n : Nat) (h : n = 0 ∨ n = 1 ∨ n = 2 ∨ n = 7 ∨ n = 63) : Flags where
  bits := 1 <<< n
  known i hi := by
    rw [Nat.one_shiftLeft, Nat.testBit_two_pow] at hi
    obtain rfl : n = i := of_decide_eq_true hi
    exact h

def present : Flags := single 0 (by decide)
def writable : Flags := single 1 (by decide)
def user : Flags := single 2 (by decide)
def huge : Flags := single 7 (by decide)
def noExec : Flags := single 63 (by decide)

/-- Combine flags. -/
def with_ (a b : Flags) : Flags where
  bits := a.bits ||| b.bits
  known i hi := by
    rw [Nat.testBit_or, Bool.or_eq_true] at hi
    rcases hi with hi | hi
    · exact a.known i hi
    · exact b.known i hi

end Flags

/-- Why a page-table operation failed. -/
inductive MapError
  | notAligned | nonCanonical | outOfRange | allocFailed | conflict | notMapped
  deriving DecidableEq, Repr

/-! ## Addresses and entries -/

/-- Index within a level's table for `va`; level 0 is the page table, 3 the root. -/
def index (va level : Nat) : Nat := (va >>> (12 + 9 * level)) &&& 0x1ff

/-- The frame a present (non-huge) entry points to. -/
def physOf (entry : Nat) : Nat := ((entry >>> 12) &&& 0x000fffffffff) % 2 ^ 32

/-- True if `va` is a canonical 48-bit address. -/
def isCanonical (va : Nat) : Bool :=
  let sign := (va >>> 47) &&& 1
  let top := (va >>> 48) % 2 ^ 16
  if sign = 0 then top = 0 else top = 0xffff

/-! ## What the code accesses -/

/-- Page tables, and the base of the window they are reached through. -/
class PageMem (σ : Type) extends PoolMem σ where
  readEntry : σ → Nat → Nat → Nat
  writeEntry : σ → Nat → Nat → Nat → σ
  zeroTable : σ → Nat → σ
  physmapBase : σ → Nat

namespace Machine

/-- `*table_va(frame).add(i)`. -/
def readEntry (s : Machine) (frame i : Nat) : Nat := s.mem.load (framePhys frame + 8 * i) 8

/-- `*table_va(frame).add(i) = entry`. -/
def writeEntry (s : Machine) (frame i entry : Nat) : Machine :=
  { s with mem := s.mem.store (framePhys frame + 8 * i) 8 entry }

def zeroTable (s : Machine) (frame : Nat) : Machine :=
  { s with mem := s.mem.fill (framePhys frame) frameSize 0 }

end Machine

instance : PageMem Machine where
  readEntry := Machine.readEntry
  writeEntry := Machine.writeEntry
  zeroTable := Machine.zeroTable
  physmapBase := Machine.physmapBase

section Code

variable {σ : Type} [PageMem σ]

/-! ## Mapping -/

/-- What a page-table operation returns, with the state it leaves; `none` if it panics. -/
abbrev VmResult (σ α : Type) : Type := Option (Except MapError α × σ)

/-- The descent of `map` and `map_window` through the tables of the given levels; returns the table
below them. Missing tables are allocated, and the entries on the way promoted to `user`
(`map_window` has no user flag). -/
def descend (va user : Nat) : List Nat → Nat → σ → VmResult σ Nat
  | [], frame, s => some (.ok frame, s)
  | level :: levels, frame, s =>
      let i := index va level
      let entry := PageMem.readEntry s frame i
      if entry &&& ptePresent = 0 then
        match PoolMem.allocFrame s with
        | none => none
        | some (none, s) => some (.error .allocFailed, s)
        | some (some new, s) =>
            let s := PageMem.zeroTable s new
            let s := PageMem.writeEntry s frame i (framePhys new ||| ptePresent ||| pteWritable ||| user)
            descend va user levels new s
      else if entry &&& pteHuge ≠ 0 then some (.error .conflict, s)
      else
        let s := if user ≠ 0 then PageMem.writeEntry s frame i (entry ||| user) else s
        descend va user levels (physOf (PageMem.readEntry s frame i)) s

namespace PageMem

open FrameTable PoolMem

/-- Map one 4 KiB page at `va` to `pa`. -/
def map (s : σ) (root va pa : Nat) (flags : Flags) : VmResult σ Unit :=
  if ¬ isCanonical va then some (.error .nonCanonical, s)
  else if va % frameSize ≠ 0 ∨ pa % frameSize ≠ 0 then some (.error .notAligned, s)
  else if pa ≥ totalFrames s * frameSize then some (.error .outOfRange, s)
  else
    let user := flags.bits &&& pteUser
    match descend va user [3, 2, 1] root s with
    | none => none
    | some (.error e, s) => some (.error e, s)
    | some (.ok frame, s) =>
        let i := index va 0
        if readEntry s frame i &&& ptePresent ≠ 0 then some (.error .conflict, s)
        else
          let s := writeEntry s frame i (pa ||| flags.bits ||| ptePresent)
          (addMapping s (pa / frameSize % 2 ^ 32)).map fun r => (.ok (), r.2)

/-- The descent of `unmap`. -/
def unmapWalk (s : σ) (va : Nat) : List Nat → Nat → Except MapError Nat
  | [], frame => .ok frame
  | level :: levels, frame =>
      let entry := readEntry s frame (index va level)
      if entry &&& ptePresent = 0 then .error .notMapped
      else if entry &&& pteHuge ≠ 0 then .error .conflict
      else unmapWalk s va levels (physOf entry)

/-- Remove the 4 KiB mapping at `va`. -/
def unmap (s : σ) (root va : Nat) : VmResult σ Unit :=
  if ¬ isCanonical va then some (.error .nonCanonical, s)
  else if va % frameSize ≠ 0 then some (.error .notAligned, s)
  else
    match unmapWalk s va [3, 2, 1] root with
    | .error e => some (.error e, s)
    | .ok frame =>
        let i := index va 0
        let entry := readEntry s frame i
        if entry &&& ptePresent = 0 then some (.error .notMapped, s)
        else
          let pa := entry &&& addrMask4k
          let s := writeEntry s frame i 0
          (removeMapping s (pa / frameSize % 2 ^ 32)).map fun r => (.ok (), r.2)

/-- Software walk: physical address backing `va`. -/
def translate (s : σ) (root va : Nat) : Option Nat :=
  if ¬ isCanonical va then none
  else
    let e0 := readEntry s root (index va 3)
    if e0 &&& ptePresent = 0 then none
    else
      let e1 := readEntry s (physOf e0) (index va 2)
      if e1 &&& ptePresent = 0 then none
      else if e1 &&& pteHuge ≠ 0 then some (Word.add 64 (e1 &&& addrMask1g) (va &&& 0x3fffffff))
      else
        let e2 := readEntry s (physOf e1) (index va 1)
        if e2 &&& ptePresent = 0 then none
        else if e2 &&& pteHuge ≠ 0 then some (Word.add 64 (e2 &&& addrMask2m) (va &&& 0x1fffff))
        else
          let e3 := readEntry s (physOf e2) (index va 0)
          if e3 &&& ptePresent = 0 then none
          else some (Word.add 64 (e3 &&& addrMask4k) (va &&& 0xfff))

/-! ## New tables -/

/-- Allocate and zero a fresh, empty root. -/
def newTable (s : σ) : Option (Option Nat × σ) := do
  match ← allocFrame s with
  | (none, s) => return (none, s)
  | (some root, s) => return (some root, zeroTable s root)

/-- One iteration of `map_window`: map the large page at `va` to `pa`. -/
def mapLarge (s : σ) (root va pa leaf : Nat) : VmResult σ Unit :=
  match descend va 0 [3, 2] root s with
  | none => none
  | some (.error e, s) => some (.error e, s)
  | some (.ok frame, s) =>
      let i := index va 1
      if readEntry s frame i &&& ptePresent ≠ 0 then some (.error .conflict, s)
      else some (.ok (), writeEntry s frame i (pa ||| leaf))

end PageMem

/-- The loop of `map_window`. Every iteration advances `va` by a large page. -/
def mapWindowLoop (root leaf stop : Nat) : Nat → Nat → Nat → σ → VmResult σ Unit
  | 0, _, _, _ => none
  | fuel + 1, va, pa, s =>
      if va < stop then
        match PageMem.mapLarge s root va pa leaf with
        | none => none
        | some (.error e, s) => some (.error e, s)
        | some (.ok _, s) =>
            mapWindowLoop root leaf stop fuel (Word.add 64 va largePage) (Word.add 64 pa largePage) s
      else some (.ok (), s)

namespace PageMem

open PoolMem

/-- Map a run of 2 MiB pages from `[basePa, basePa + bytes)` at `[baseVa, baseVa + bytes)`. -/
def mapWindow (s : σ) (root baseVa basePa bytes : Nat) (flags : Flags) : VmResult σ Unit :=
  if bytes = 0 then some (.ok (), s)
  else if baseVa % largePage ≠ 0 ∨ basePa % largePage ≠ 0 ∨ bytes % largePage ≠ 0 then
    some (.error .notAligned, s)
  else
    let leaf := (flags.with_ .present).with_ .huge
    mapWindowLoop root leaf.bits (Word.add 64 baseVa bytes) (bytes / largePage + 1) baseVa basePa s

/-- Build the kernel address space: an identity map of all of RAM and its mirror at the physmap
base. An error of either window gives no table. -/
def newKernel (s : σ) (ramEnd : Nat) : Option (Option Nat × σ) := do
  match ← allocFrame s with
  | (none, s) => return (none, s)
  | (some root, s) =>
      let s := zeroTable s root
      let window := Word.alignUp 64 ramEnd largePage
      let kern := Flags.present.with_ .writable
      match ← mapWindow s root 0 0 window kern with
      | (.error _, s) => return (none, s)
      | (.ok _, s) =>
          if physmapBase s = 0 then none -- physmap not initialized
          match ← mapWindow s root (physmapBase s) 0 window kern with
          | (.error _, s) => return (none, s)
          | (.ok _, s) => return (some root, s)

end PageMem

end Code

/-! ## On a machine -/

namespace Machine

abbrev map (s : Machine) (root va pa : Nat) (flags : Flags) : VmResult Machine Unit :=
  PageMem.map s root va pa flags

abbrev unmapWalk (s : Machine) (va : Nat) (levels : List Nat) (frame : Nat) : Except MapError Nat :=
  PageMem.unmapWalk s va levels frame

abbrev unmap (s : Machine) (root va : Nat) : VmResult Machine Unit := PageMem.unmap s root va

abbrev translate (s : Machine) (root va : Nat) : Option Nat := PageMem.translate s root va

abbrev newTable (s : Machine) : Option (Option Nat × Machine) := PageMem.newTable s

abbrev mapLarge (s : Machine) (root va pa leaf : Nat) : VmResult Machine Unit :=
  PageMem.mapLarge s root va pa leaf

abbrev mapWindow (s : Machine) (root baseVa basePa bytes : Nat) (flags : Flags) :
    VmResult Machine Unit :=
  PageMem.mapWindow s root baseVa basePa bytes flags

abbrev newKernel (s : Machine) (ramEnd : Nat) : Option (Option Nat × Machine) :=
  PageMem.newKernel s ramEnd

end Machine

end Rolnix
