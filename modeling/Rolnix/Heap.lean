import Rolnix.Lib.ByteMem
import Rolnix.Lib.Linked
import Rolnix.Lib.Word

/-!
# The kernel heap

`heap.rs`: a first-fit allocator over one contiguous region. Every block starts with a 16-byte
header, its size and, while it is free, the address of the next free block; the free list is kept
in address order. The base of a live block is stashed in the word before its payload.

The heap owns a byte memory of its own, addressed by `usize`. Arithmetic wraps. The two loops
follow next pointers; one that has not ended after `2 ^ 64` steps has come back to an address it
already visited.
-/

namespace Rolnix

def header : Nat := 16

def minFree : Nat := 32

/-- The heap's memory and `FREELIST`. -/
structure Heap where
  mem : ByteMem
  /-- Address of the first free block; 0 when empty. -/
  head : Nat
  /-- Bytes of heap handed out. -/
  allocated : Nat
  /-- Total heap size. -/
  total : Nat

namespace Heap

/-- `FreeList::empty()`, over arbitrary memory contents. -/
def empty (mem : ByteMem) : Heap := ⟨mem, 0, 0, 0⟩

/-! ## Block headers -/

/-- `block_mut(addr).size`. -/
def blockSize (h : Heap) (addr : Nat) : Nat := h.mem.load addr 8

/-- `block_mut(addr).next`. -/
def blockNext (h : Heap) (addr : Nat) : Nat := h.mem.load (addr + 8) 8

def setSize (h : Heap) (addr size : Nat) : Heap := { h with mem := h.mem.store addr 8 size }

def setNext (h : Heap) (addr next : Nat) : Heap := { h with mem := h.mem.store (addr + 8) 8 next }

/-- `if prev == 0 { list.head = addr } else { block_mut(prev).next = addr }`. -/
def relink (h : Heap) (prev addr : Nat) : Heap :=
  if prev = 0 then { h with head := addr } else h.setNext prev addr

/-! ## Initialization -/

/-- Initialize the heap over `[start, start + size)`; the assertions panic. -/
def heapInit (h : Heap) (start size : Nat) : Option Heap :=
  if start % header = 0 ∧ size % header = 0 then -- heap misaligned
    if size ≥ minFree then -- heap too small
      if h.head = 0 then -- heap already initialized
        some { (h.setSize start size).setNext start 0 with
          head := start, allocated := 0, total := size }
      else none
    else none
  else none

/-- Bytes of heap currently allocated. -/
def heapAllocated (h : Heap) : Nat := h.allocated

/-- Total heap size. -/
def heapTotal (h : Heap) : Nat := h.total

/-! ## Allocation -/

/-- Where the payload of a block at `base` starts. -/
def payloadOf (base align : Nat) : Nat := Word.alignUp 64 (Word.add 64 base header) align

/-- The payload fits inside the block. -/
def fits (h : Heap) (size align cur : Nat) : Bool :=
  -- `checked_add`, then the comparison
  payloadOf cur align + size < 2 ^ 64 ∧
    payloadOf cur align + size ≤ Word.add 64 cur (h.blockSize cur)

/-- Split off the free tail of `cur` and link it where `cur` was, so the list stays sorted. -/
def splitTail (h : Heap) (prev cur tailStart remainder : Nat) : Heap :=
  let next := h.blockNext cur
  let h := (h.setSize tailStart remainder).setNext tailStart next
  let h := h.relink prev tailStart
  h.setSize cur (Word.sub 64 tailStart cur)

/-- `*((payload - 8) as *mut usize) = base`. -/
def stash (h : Heap) (payload base : Nat) : Heap :=
  { h with mem := h.mem.store (Word.sub 64 payload 8) 8 base }

/-- Hand out the block `cur`, split if the tail is worth keeping. -/
def take (h : Heap) (size align prev cur : Nat) : Nat × Heap :=
  let base := cur
  let blockSize := h.blockSize cur
  let payload := payloadOf base align
  let tailStart := Word.alignUp 64 (Word.add 64 payload size) header
  let remainder := Word.sub 64 (Word.add 64 base blockSize) tailStart
  let next := h.blockNext cur
  let consumed := if remainder ≥ minFree then Word.sub 64 tailStart base else blockSize
  let h := if remainder ≥ minFree then h.splitTail prev cur tailStart remainder
    else h.relink prev next
  let h := h.stash payload base
  (payload, { h with allocated := Word.add 64 h.allocated consumed })

/-- The first free block that fits, with the free block before it (0 if there is none); the block
is 0 if none fits. -/
def firstFit (h : Heap) (size align : Nat) : Option (Nat × Nat) :=
  Linked.scan h.blockNext 0 (h.fits size align) (2 ^ 64) 0 h.head

/-- Allocate; 0 is the null pointer. -/
def heapAlloc (h : Heap) (size align : Nat) : Option (Nat × Heap) := do
  let align := max align header
  let (prev, cur) ← h.firstFit size align
  if cur = 0 then return (0, h) else return h.take size align prev cur

/-! ## Release -/

/-- Append the block `b`, which starts where `a` ends, to `a`. -/
def coalesce (h : Heap) (a b : Nat) : Heap :=
  let next := h.blockNext b
  (h.setSize a (Word.add 64 (h.blockSize a) (h.blockSize b))).setNext a next

/-- Link the block `base` between `prev` and `cur`. -/
def link (h : Heap) (base prev cur : Nat) : Heap :=
  let size := h.blockSize base
  ((h.setSize base size).setNext base cur).relink prev base

/-- Coalesce with the next neighbour. -/
def coalesceNext (h : Heap) (base size cur : Nat) : Heap :=
  if cur ≠ 0 ∧ Word.add 64 base size = cur then h.coalesce base cur else h

/-- Coalesce with the previous neighbour. -/
def coalescePrev (h : Heap) (base prev : Nat) : Heap :=
  if prev ≠ 0 ∧ Word.add 64 prev (h.blockSize prev) = base then h.coalesce prev base else h

/-- Put the block `base` on the free list between `prev` and `cur`, and coalesce. -/
def insert (h : Heap) (base prev cur : Nat) : Heap :=
  let size := h.blockSize base
  let h := h.link base prev cur
  let h := h.coalesceNext base size cur
  let h := h.coalescePrev base prev
  { h with allocated := Word.sub 64 h.allocated size }

/-- Free the block of a pointer returned by `heap_alloc`. -/
def heapFree (h : Heap) (ptr : Nat) : Option Heap := do
  let base := h.mem.load (Word.sub 64 ptr 8) 8
  -- Walk to the insertion point, the first free block at or above `base`.
  let (prev, cur) ← Linked.scan h.blockNext 0 (fun cur => ¬ cur < base) (2 ^ 64) 0 h.head
  return h.insert base prev cur

end Heap

end Rolnix
