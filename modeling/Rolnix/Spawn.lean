import Rolnix.Rights
import Rolnix.Sched

/-!
# Processes

`spawn_process` of the boot crate takes a free slot, maps the program image and a stack page into
the region of that slot, copies the image through the mapping and registers the process. A slot
whose first page is mapped already is taken as it is. All processes share the kernel's table.

A `Kernel` is the memory manager, the scheduler and the root of that table. Spawning runs with
interrupts off, so it is one step; a process that runs can write the pages the hardware lets it
write.
-/

namespace Rolnix

open Radix

namespace Machine

/-! ## Accesses through the table -/

/-- The physical address of `va`, from the whole address field of the entry. The software walk
`translate` cuts the field of a small page at bit 36. -/
def mmu (s : Machine) (root va : Nat) : Option Nat :=
  if isCanonical va then
    (lookup s.entries root (path va)).map fun w =>
      if w.1 = 3 then (w.2 &&& 0x000fffffffe00000) + va % largePage
      else (w.2 &&& 0x000ffffffffff000) + va % frameSize
  else none

/-- The byte at `va`. -/
def byteAt (s : Machine) (root va : Nat) : Option UInt8 := (s.mmu root va).map s.mem

/-- `copy_nonoverlapping` to a page at `va`; `none` is a page fault. -/
def copyTo (s : Machine) (root va : Nat) (bytes : List UInt8) : Option Machine :=
  (s.mmu root va).map fun pa => { s with mem := s.mem.copy pa bytes }

end Machine

/-! ## Spawning -/

/-- The state `spawn_process` works on. -/
structure Kernel where
  machine : Machine
  sched : Sched
  /-- The root of `KERNEL_PT`. -/
  root : Nat
  /-- The bytes from `_user_prog_start` to `_user_prog_end`. -/
  image : List UInt8
  /-- They are a part of RAM. -/
  image_lt : image.length < 2 ^ 44

/-- The flags of a process's pages. -/
def userFlags : Flags := (Flags.present.with_ .writable).with_ .user

/-- The page of the user stack. -/
def userStackVa (pid : Nat) : Nat := userStackTop pid - frameSize

namespace Machine

/-- Allocate a frame and map it at `va`; `false` is the early return on an empty pool. A mapping
that fails is a panic (`map user code`, `map user stack`). -/
def mapUserPage (s : Machine) (root va : Nat) : Option (Bool × Machine) :=
  match s.allocFrame with
  | none => none
  | some (none, s) => some (false, s)
  | some (some f, s) =>
      match s.map root va (framePhys f) userFlags with
      | some (.ok _, s) => some (true, s)
      | _ => none

/-- The loop over the code pages: map and fill the given pages of the image. -/
def mapCode (root codeVa : Nat) (image : List UInt8) : List Nat → Machine → Option (Bool × Machine)
  | [], s => some (true, s)
  | i :: is, s =>
      let va := codeVa + i * frameSize
      match s.mapUserPage root va with
      | none => none
      | some (false, s) => some (false, s)
      | some (true, s) =>
          match s.copyTo root va ((image.drop (i * frameSize)).take frameSize) with
          | none => none
          | some s => mapCode root codeVa image is s

/-- Map the image and the stack of `pid`. -/
def mapProcess (s : Machine) (root pid : Nat) (image : List UInt8) : Option (Bool × Machine) :=
  let codeFrames := (image.length + frameSize - 1) / frameSize
  match mapCode root (userCodeVa pid) image (List.range codeFrames) s with
  | none => none
  | some (false, s) => some (false, s)
  | some (true, s) => s.mapUserPage root (userStackVa pid)

end Machine

namespace Kernel

/-- Make sure the region of `pid` is mapped. -/
def prepare (k : Kernel) (pid : Nat) : Option (Bool × Machine) :=
  -- The region already has a mapping: nothing to do.
  if (k.machine.translate k.root (userCodeVa pid)).isSome then some (true, k.machine)
  else k.machine.mapProcess k.root pid k.image

/-- Register the process, if its region was mapped. -/
def register (k : Kernel) (pid : Nat) (name : List UInt8) :
    Option (Bool × Machine) → Option (Option Nat × Kernel)
  | none => none
  | some (false, m) => some (none, { k with machine := m })
  | some (true, m) => (k.sched.startProcess pid (userCodeVa pid) name).map fun sched =>
      (some pid, { k with machine := m, sched := sched })

/-- Spawn a process: its pid, or `none` if the table is full or the pool ran dry. The outer
`none` is a panic. -/
def spawnProcess (k : Kernel) (name : List UInt8) : Option (Option Nat × Kernel) :=
  match k.sched.freeSlot with
  | none => some (none, k)
  | some pid => k.register pid name (k.prepare pid)

end Kernel

end Rolnix
