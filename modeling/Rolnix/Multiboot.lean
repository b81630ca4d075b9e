import Rolnix.Lib.InPlace
import Rolnix.Lib.ReadM
import Rolnix.Harness

/-!
# Parsing the multiboot map

`multiboot.rs`, read by read. `Rolnix.Harness` has the entries that `parse` finds; here is the program
that finds them: it reads the info block word by word, and the record loop writes into a buffer. The
program does what the function says (`parse_run`), and the loop ends after at most as many rounds as
the buffer has entries (`recordLoop_run`).

* `parse_inverts_iff`: a map that was laid out as records, with any padding, is read back, up to the
  length of the buffer; without a map there is the entry made from `mem_upper`. The one exception is
  that entry in a buffer without room for it.
* `reads_bounded_iff`: the loop looks only at the map, and the entries come from records inside of it,
  exactly if the map does not end within a record.
-/

namespace Rolnix.Multiboot

open ReadM
open InPlace (writeAt writeAt_nil writeAt_set)

/-! ## The program -/

/-- The record loop at `p`, with `count` entries written; `none` if it does not end within `fuel`
rounds. -/
def recordLoop (stop : Nat) : Nat → Nat → Nat → List MemEntry → ReadM (Option (Nat × List MemEntry))
  | 0, _, _, _ => pure none
  | fuel + 1, p, count, out =>
      if p < stop ∧ count < out.length then do
        let size ← load p 4
        let base ← load (p + 4) 8
        let len ← load (p + 12) 8
        let ty ← load (p + 20) 4
        -- malformed; stop, do not loop forever
        if size < 20 then pure (some (count, out))
        else recordLoop stop fuel (p + 4 + size) (count + 1) (out.set count ⟨base, len, ty⟩)
      else pure (some (count, out))

/-- What follows the loop: the fallback entry, and the number of entries. Without room for the
fallback entry the index panics. -/
def finish (memUpper count : Nat) (out : List MemEntry) : Option (Option Nat × List MemEntry) :=
  if count = 0 ∧ memUpper ≠ 0 then
    if 0 < out.length then some (some 1, out.set 0 ⟨0x100000, memUpper * 1024, mtUsable⟩) else none
  else if count = 0 then some (none, out)
  else some (some count, out)

/-- `mem_upper` at word 2, if `FLAG_MEM` is set. -/
def readMemUpper (flags infoPtr : Nat) : ReadM Nat :=
  if flags &&& 0x1 ≠ 0 then load (infoPtr + 8) 4 else pure 0

/-- The map, if `FLAG_MMAP` is set: its length is at word 11, its address at word 12. -/
def readMap (flags infoPtr : Nat) (out : List MemEntry) : ReadM (Option (Nat × List MemEntry)) :=
  if flags &&& 2 ^ 6 ≠ 0 then do
    let mmapAddr ← load (infoPtr + 48) 4
    let mmapLen ← load (infoPtr + 44) 4
    recordLoop (mmapAddr + mmapLen) (out.length + 1) mmapAddr 0 out
  else pure (some (0, out))

/-- Parse the info block at `infoPtr` into the buffer `out`. -/
def parse (infoPtr : Nat) (out : List MemEntry) : ReadM (Option (Option Nat × List MemEntry)) := do
  let flags ← load infoPtr 4
  let memUpper ← readMemUpper flags infoPtr
  let loop ← readMap flags infoPtr out
  return loop.bind fun r => finish memUpper r.1 r.2

/-! ## Records -/

/-- The entry of the record at `p`. -/
def entryAt (mem : ByteMem) (p : Nat) : MemEntry :=
  ⟨mem.load (p + 4) 8, mem.load (p + 12) 8, mem.load (p + 20) 4⟩

/-- Where the record after the one at `p` begins. -/
def nextRecord (mem : ByteMem) (p : Nat) : Nat := p + 4 + mem.load p 4

/-- What the loop reads of the record at `p`. -/
def recordReads (p : Nat) : List (Nat × Nat) := [(p, 4), (p + 4, 8), (p + 12, 8), (p + 20, 4)]

variable {mem : ByteMem} {stop fuel p count infoPtr room : Nat} {out : List MemEntry}

theorem run_recordLoop_succ : (recordLoop stop (fuel + 1) p count out).run mem =
    if p < stop ∧ count < out.length then
      if mem.load p 4 < 20 then some (count, out)
      else (recordLoop stop fuel (nextRecord mem p) (count + 1)
        (out.set count (entryAt mem p))).run mem
    else some (count, out) := by
  rw [recordLoop, run_ite]
  by_cases hguard : p < stop ∧ count < out.length
  · rw [if_pos hguard, if_pos hguard, run_bind, run_load, run_bind, run_load, run_bind, run_load,
      run_bind, run_load, run_ite]
    rfl
  · rw [if_neg hguard, if_neg hguard]
    rfl

theorem reads_recordLoop_succ : (recordLoop stop (fuel + 1) p count out).reads mem =
    if p < stop ∧ count < out.length then
      recordReads p ++ if mem.load p 4 < 20 then []
      else (recordLoop stop fuel (nextRecord mem p) (count + 1)
        (out.set count (entryAt mem p))).reads mem
    else [] := by
  rw [recordLoop, reads_ite]
  by_cases hguard : p < stop ∧ count < out.length
  · rw [if_pos hguard, if_pos hguard, reads_bind, run_load, reads_bind, run_load, reads_bind, run_load,
      reads_bind, run_load, reads_ite]
    rfl
  · rw [if_neg hguard, if_neg hguard]
    rfl

theorem parseRecords_succ : parseRecords mem stop (room + 1) p =
    if p < stop then
      if mem.load p 4 < 20 then [] else entryAt mem p :: parseRecords mem stop room (nextRecord mem p)
    else [] := rfl

/-! ## What the program computes -/

/-- **The loop ends**, in every memory, and has written the entries it came to. -/
theorem recordLoop_run (hcount : count ≤ out.length) (hfuel : out.length - count < fuel) :
    (recordLoop stop fuel p count out).run mem =
      some (count + (parseRecords mem stop (out.length - count) p).length,
        writeAt out count (parseRecords mem stop (out.length - count) p)) := by
  induction fuel generalizing p count out with
  | zero => omega
  | succ fuel ih =>
      have hstop : some (count, out) = some (count + ([] : List MemEntry).length, writeAt out count []) := by
        rw [writeAt_nil]
        rfl
      rw [run_recordLoop_succ]
      by_cases hroom : count < out.length
      swap
      · rw [if_neg (fun h => hroom h.2), Nat.sub_eq_zero_of_le (Nat.le_of_not_lt hroom)]
        exact hstop
      obtain ⟨k, hk⟩ : ∃ k, out.length - count = k + 1 := ⟨out.length - count - 1, by omega⟩
      rw [hk, parseRecords_succ]
      by_cases hp : p < stop
      swap
      · rw [if_neg (fun h => hp h.1), if_neg hp]
        exact hstop
      rw [if_pos ⟨hp, hroom⟩, if_pos hp]
      by_cases hsize : mem.load p 4 < 20
      · rw [if_pos hsize, if_pos hsize]
        exact hstop
      rw [if_neg hsize, if_neg hsize]
      have hlen : (out.set count (entryAt mem p)).length = out.length := List.length_set
      rw [ih (by rw [hlen]; omega) (by rw [hlen]; omega), hlen,
        show out.length - (count + 1) = k by omega, writeAt_set hroom, List.length_cons,
        Nat.add_right_comm, Nat.add_assoc]

/-- What `parse` leaves behind, given the entries it found. -/
def written (out : List MemEntry) : Option (List MemEntry) → Option Nat × List MemEntry
  | none => (none, out)
  | some es => (some es.length, writeAt out 0 es)

/-- **The program computes the function.** -/
theorem parse_run : (parse infoPtr out).run mem =
    (Rolnix.parse mem infoPtr out.length).map (written out) := by
  have hupper : (readMemUpper (mem.load infoPtr 4) infoPtr).run mem = memUpper mem infoPtr :=
    run_ite _ _ _
  have hloop : (readMap (mem.load infoPtr 4) infoPtr out).run mem =
      some ((mmapEntries mem infoPtr out.length).length,
        writeAt out 0 (mmapEntries mem infoPtr out.length)) := by
    rw [readMap, run_ite, mmapEntries]
    split_ifs with hflag
    · rw [run_bind, run_load, run_bind, run_load, recordLoop_run (Nat.zero_le _) (by omega),
        Nat.zero_add, Nat.sub_zero]
    · rw [writeAt_nil]
      rfl
  rw [parse, run_bind, run_load, run_bind, hupper, run_bind, hloop]
  show finish (memUpper mem infoPtr) _ _ = _
  rw [Rolnix.parse]
  dsimp only
  cases hes : mmapEntries mem infoPtr out.length with
  | cons e es => simp [finish, written]
  | nil =>
      rw [writeAt_nil]
      by_cases hzero : memUpper mem infoPtr = 0
      · simp [finish, hzero, written]
      · -- the fallback entry, if there is room for it
        cases out with
        | nil => simp [finish, hzero]
        | cons e out => simp [finish, hzero, written, writeAt]

/-! ## Decoding inverts encoding -/

/-- A record of the map: an entry, and the bytes between it and the next record. -/
structure MmapRecord where
  entry : MemEntry
  pad : List UInt8

namespace MmapRecord

/-- The size field; it does not count itself. -/
def size (r : MmapRecord) : Nat := 20 + r.pad.length

/-- The values fit in their fields. -/
structure Valid (r : MmapRecord) : Prop where
  start : r.entry.start < 2 ^ 64
  len : r.entry.len < 2 ^ 64
  kind : r.entry.kind < 2 ^ 32
  size : r.size < 2 ^ 32

/-- `[size:u32][base:u64][len:u64][type:u32]`, and the padding. -/
def encode (r : MmapRecord) : List UInt8 :=
  ByteMem.bytes 4 r.size ++ (ByteMem.bytes 8 r.entry.start ++ (ByteMem.bytes 8 r.entry.len ++
    (ByteMem.bytes 4 r.entry.kind ++ r.pad)))

theorem length_encode (r : MmapRecord) : r.encode.length = 4 + r.size := by
  simp only [encode, size, List.length_append, ByteMem.length_bytes]
  omega

theorem load_encode {r : MmapRecord} {a : Nat} (hr : r.Valid) (h : mem.Holds a r.encode) :
    mem.load a 4 = r.size ∧ entryAt mem a = r.entry := by
  rw [encode] at h
  obtain ⟨hsize, h⟩ := ByteMem.holds_append.1 h
  obtain ⟨hstart, h⟩ := ByteMem.holds_append.1 h
  obtain ⟨hlen, h⟩ := ByteMem.holds_append.1 h
  obtain ⟨hkind, -⟩ := ByteMem.holds_append.1 h
  simp only [ByteMem.length_bytes] at hstart hlen hkind
  refine ⟨hsize.load hr.size, ?_⟩
  rw [entryAt, hstart.load hr.start, hlen.load hr.len, hkind.load hr.kind]

end MmapRecord

/-- The records of a map, one behind the other. -/
def encodeMap (recs : List MmapRecord) : List UInt8 := recs.flatMap MmapRecord.encode

/-- **The record loop reads a map back**, up to the room there is. -/
theorem parseRecords_encode {recs : List MmapRecord} (hrecs : ∀ r ∈ recs, r.Valid)
    (h : mem.Holds p (encodeMap recs)) :
    parseRecords mem (p + (encodeMap recs).length) room p =
      (recs.map MmapRecord.entry).take room := by
  induction recs generalizing p room with
  | nil =>
      cases room with
      | zero => rfl
      | succ room => exact if_neg (Nat.lt_irrefl p)
  | cons r recs ih =>
      cases room with
      | zero => rfl
      | succ room =>
          rw [encodeMap, List.flatMap_cons] at h ⊢
          obtain ⟨hr, hrest⟩ := ByteMem.holds_append.1 h
          obtain ⟨hsize, hentry⟩ := MmapRecord.load_encode (hrecs r List.mem_cons_self) hr
          have hlen := r.length_encode
          have hnext : nextRecord mem p = p + r.encode.length := by
            rw [nextRecord, hsize, hlen, Nat.add_assoc]
          have hlarge : 20 ≤ r.size := Nat.le_add_right _ _
          rw [parseRecords_succ, if_pos (by rw [List.length_append]; omega), hsize,
            if_neg (by omega), hentry, hnext, List.length_append, ← Nat.add_assoc]
          rw [show recs.flatMap MmapRecord.encode = encodeMap recs from rfl] at hrest ⊢
          rw [ih (fun r' hr' => hrecs r' (List.mem_cons_of_mem r hr')) hrest]
          rfl

/-- `FLAG_MEM`. -/
def HasMem (mem : ByteMem) (infoPtr : Nat) : Prop := mem.load infoPtr 4 &&& 0x1 ≠ 0

/-- `FLAG_MMAP`. -/
def HasMap (mem : ByteMem) (infoPtr : Nat) : Prop := mem.load infoPtr 4 &&& 2 ^ 6 ≠ 0

instance : Decidable (HasMem mem infoPtr) := inferInstanceAs (Decidable (_ ≠ _))

instance : Decidable (HasMap mem infoPtr) := inferInstanceAs (Decidable (_ ≠ _))

/-- The info block points to a map with these records. -/
structure MapAt (mem : ByteMem) (infoPtr : Nat) (recs : List MmapRecord) : Prop where
  valid : ∀ r ∈ recs, r.Valid
  length : mem.load (infoPtr + 44) 4 = (encodeMap recs).length
  holds : mem.Holds (mem.load (infoPtr + 48) 4) (encodeMap recs)

/-- There are no records to read, and a `mem_upper` to fall back on. -/
structure FallsBack (mem : ByteMem) (infoPtr : Nat) (recs : List MmapRecord) : Prop where
  noMap : recs = [] ∨ ¬ HasMap mem infoPtr
  hasMem : HasMem mem infoPtr
  upper : mem.load (infoPtr + 8) 4 ≠ 0

/-- `parse` inverts the encoding of the map, and falls back on `mem_upper` without one. -/
structure Decodes (mem : ByteMem) (infoPtr : Nat) (recs : List MmapRecord) (out : List MemEntry) :
    Prop where
  entries : HasMap mem infoPtr → recs ≠ [] → out ≠ [] → (parse infoPtr out).run mem =
    some (some (min recs.length out.length),
      writeAt out 0 ((recs.map MmapRecord.entry).take out.length))
  fallback : recs = [] ∨ ¬ HasMap mem infoPtr → (parse infoPtr out).run mem =
    if HasMem mem infoPtr ∧ mem.load (infoPtr + 8) 4 ≠ 0 then
      some (some 1, writeAt out 0 [⟨0x100000, mem.load (infoPtr + 8) 4 * 1024, mtUsable⟩])
    else some (none, out)

section Inversion

variable {recs : List MmapRecord}

theorem mmapEntries_encode (hflag : HasMap mem infoPtr) (hat : MapAt mem infoPtr recs) :
    mmapEntries mem infoPtr room = (recs.map MmapRecord.entry).take room := by
  have hread := @parseRecords_encode mem _ room recs hat.valid hat.holds
  rw [← hat.length] at hread
  exact (if_pos hflag).trans hread

theorem run_of_entries {es : List MemEntry} (hes : mmapEntries mem infoPtr out.length = es)
    (hne : es ≠ []) : (parse infoPtr out).run mem = some (some es.length, writeAt out 0 es) := by
  have hparse : Rolnix.parse mem infoPtr out.length = some (some es) := by
    unfold Rolnix.parse
    rw [hes]
    exact (if_neg fun h => hne h.1).trans (if_neg hne)
  rw [parse_run, hparse]
  rfl

theorem run_of_nil (hes : mmapEntries mem infoPtr out.length = []) :
    (parse infoPtr out).run mem =
      if HasMem mem infoPtr ∧ mem.load (infoPtr + 8) 4 ≠ 0 then
        if out = [] then none
        else some (some 1, writeAt out 0 [⟨0x100000, mem.load (infoPtr + 8) 4 * 1024, mtUsable⟩])
      else some (none, out) := by
  have hparse : Rolnix.parse mem infoPtr out.length = if memUpper mem infoPtr ≠ 0 then
      if out.length = 0 then none else some (some [⟨0x100000, memUpper mem infoPtr * 1024, mtUsable⟩])
      else some none := by
    unfold Rolnix.parse
    rw [hes]
    simp only [true_and, if_true]
  rw [parse_run, hparse]
  by_cases hmem : HasMem mem infoPtr
  · have hupper : memUpper mem infoPtr = mem.load (infoPtr + 8) 4 := if_pos hmem
    rw [hupper]
    by_cases hzero : mem.load (infoPtr + 8) 4 ≠ 0
    · rw [if_pos hzero, if_pos (And.intro hmem hzero)]
      cases out with
      | nil => rfl
      | cons e out => rfl
    · rw [if_neg hzero, if_neg fun h => hzero h.2]
      rfl
  · have hupper : memUpper mem infoPtr = 0 := if_neg hmem
    rw [hupper, if_neg (not_not.2 rfl), if_neg fun h => hmem h.1]
    rfl

/-- **Decoding inverts encoding** exactly if there is room for the fallback entry where it is due; and
the record loop ends in every memory. -/
theorem parse_inverts_iff (hmap : HasMap mem infoPtr → MapAt mem infoPtr recs) :
    (Decodes mem infoPtr recs out ↔ (out = [] → ¬ FallsBack mem infoPtr recs)) ∧
      ∀ (mem : ByteMem) (stop p : Nat), ∃ r, ∀ fuel, out.length < fuel →
        (recordLoop stop fuel p 0 out).run mem = some r := by
  have hnil : recs = [] ∨ ¬ HasMap mem infoPtr → ∀ room, mmapEntries mem infoPtr room = [] := by
    intro hnone room
    by_cases hflag : HasMap mem infoPtr
    · obtain rfl := hnone.resolve_right (not_not.2 hflag)
      rw [mmapEntries_encode hflag (hmap hflag), List.map_nil, List.take_nil]
    · exact if_neg hflag
  refine ⟨⟨?_, ?_⟩, ?_⟩
  · intro hdec hout hfalls
    have hdue : HasMem mem infoPtr ∧ mem.load (infoPtr + 8) 4 ≠ 0 := ⟨hfalls.hasMem, hfalls.upper⟩
    have hrun := hdec.fallback hfalls.noMap
    rw [run_of_nil (hnil hfalls.noMap _), if_pos hdue, if_pos hdue, if_pos hout] at hrun
    cases hrun
  · intro hroom
    refine ⟨fun hflag hrecs hout => ?_, fun hnone => ?_⟩
    · have hne : (recs.map MmapRecord.entry).take out.length ≠ [] := by
        simp [List.take_eq_nil_iff, hrecs, hout]
      rw [run_of_entries (mmapEntries_encode hflag (hmap hflag)) hne, List.length_take,
        List.length_map, Nat.min_comm]
    · rw [run_of_nil (hnil hnone _)]
      split_ifs with hup hout
      · exact absurd ⟨hnone, hup.1, hup.2⟩ (hroom hout)
      · rfl
      · rfl
  · intro mem stop p
    exact ⟨_, fun fuel hfuel => recordLoop_run (Nat.zero_le _) hfuel⟩

/-- A map of one record with three bytes of padding, at address 52. -/
theorem parse_inverts_small :
    ∃ mem : ByteMem, (parse 0 [⟨0, 0, 0⟩]).run mem = some (some 1, [⟨0x100000, 0x800000, 1⟩]) := by
  let recs : List MmapRecord := [⟨⟨0x100000, 0x800000, 1⟩, [7, 7, 7]⟩]
  let mem : ByteMem := ByteMem.copy (fun _ => 0) 0
    (ByteMem.bytes 44 64 ++ ByteMem.bytes 4 27 ++ ByteMem.bytes 4 52 ++ encodeMap recs)
  have hflag : HasMap mem 0 := by decide
  have hat : MapAt mem 0 recs := by
    refine ⟨?_, by decide, ?_⟩
    · intro r hr
      obtain rfl := List.mem_singleton.1 hr
      exact ⟨by decide, by decide, by decide, by decide⟩
    · unfold ByteMem.Holds
      decide
  have hdec : Decodes mem 0 recs [⟨0, 0, 0⟩] := (parse_inverts_iff fun _ => hat).1.2 (by simp)
  exact ⟨mem, hdec.entries hflag (by decide) (by simp)⟩

end Inversion

/-- **No room for the fallback entry.** The info block has `mem_upper` but no map, and the buffer is
empty: `out[0]` is out of bounds. -/
theorem fallback_panics :
    ∃ mem : ByteMem, ¬ HasMap mem 0 ∧ HasMem mem 0 ∧ mem.load 8 4 = 1 ∧
      (parse 0 []).run mem = none ∧ ¬ Decodes mem 0 [] [] := by
  let mem : ByteMem := ByteMem.copy (fun _ => 0) 0 (ByteMem.bytes 8 1 ++ ByteMem.bytes 4 1)
  have hnone : (parse 0 []).run mem = none := by decide
  refine ⟨mem, by decide, by decide, by decide, hnone, fun hdec => ?_⟩
  have hrun := hdec.fallback (Or.inl rfl)
  rw [hnone, if_pos ⟨by decide, by decide⟩] at hrun
  cases hrun

/-! ## Bounds -/

/-- Where the record `i` of a map at `p` begins, going by the size fields. -/
def recordPos (mem : ByteMem) : Nat → Nat → Nat
  | p, 0 => p
  | p, i + 1 => recordPos mem (nextRecord mem p) i

/-- The size field of the record `i`. -/
def sizeAt (mem : ByteMem) (p i : Nat) : Nat := mem.load (recordPos mem p i) 4

/-- The loop comes to the record `i`: it begins before the end of the map, and no record before it is
malformed. -/
structure Reaches (mem : ByteMem) (stop p i : Nat) : Prop where
  before : recordPos mem p i < stop
  wellFormed : ∀ j, j < i → 20 ≤ sizeAt mem p j

theorem le_recordPos (mem : ByteMem) (p i : Nat) : p ≤ recordPos mem p i := by
  induction i generalizing p with
  | zero => exact Nat.le_refl p
  | succ i ih =>
      have hnext : p ≤ nextRecord mem p := by
        rw [nextRecord, Nat.add_assoc]
        exact Nat.le_add_right _ _
      exact hnext.trans (ih (nextRecord mem p))

theorem reaches_zero : Reaches mem stop p 0 ↔ p < stop := by
  constructor
  · intro h
    exact h.before
  · intro h
    exact ⟨h, fun j hj => absurd hj (Nat.not_lt_zero j)⟩

theorem reaches_succ {i : Nat} : Reaches mem stop p (i + 1) ↔
    p < stop ∧ 20 ≤ mem.load p 4 ∧ Reaches mem stop (nextRecord mem p) i := by
  constructor
  · intro h
    have hpos := le_recordPos mem p (i + 1)
    have hstop := h.before
    refine ⟨by omega, h.wellFormed 0 (Nat.succ_pos i), h.before, fun j hj => ?_⟩
    exact h.wellFormed (j + 1) (Nat.succ_lt_succ hj)
  · rintro ⟨-, hsize, h⟩
    refine ⟨h.before, fun j hj => ?_⟩
    cases j with
    | zero => exact hsize
    | succ j => exact h.wellFormed j (Nat.lt_of_succ_lt_succ hj)

theorem mem_reads_iff (hcount : count ≤ out.length) (hfuel : out.length - count < fuel)
    {r : Nat × Nat} :
    r ∈ (recordLoop stop fuel p count out).reads mem ↔
      ∃ i, i < out.length - count ∧ Reaches mem stop p i ∧ r ∈ recordReads (recordPos mem p i) := by
  induction fuel generalizing p count out with
  | zero => omega
  | succ fuel ih =>
      have hlen : (out.set count (entryAt mem p)).length = out.length := List.length_set
      rw [reads_recordLoop_succ]
      by_cases hguard : p < stop ∧ count < out.length
      swap
      · rw [if_neg hguard]
        refine iff_of_false List.not_mem_nil ?_
        rintro ⟨i, hi, hreach, -⟩
        have hpos := le_recordPos mem p i
        have hstop := hreach.before
        exact hguard ⟨by omega, by omega⟩
      rw [if_pos hguard, List.mem_append]
      -- the record at hand, and those the rest of the loop comes to
      have hrest : (r ∈ if mem.load p 4 < 20 then [] else (recordLoop stop fuel (nextRecord mem p)
          (count + 1) (out.set count (entryAt mem p))).reads mem) ↔
          ∃ i, i + 1 < out.length - count ∧ Reaches mem stop p (i + 1) ∧
            r ∈ recordReads (recordPos mem p (i + 1)) := by
        split_ifs with hsize
        · refine iff_of_false List.not_mem_nil ?_
          rintro ⟨i, -, hreach, -⟩
          have hlarge := (reaches_succ.1 hreach).2.1
          omega
        · rw [ih (by rw [hlen]; omega) (by rw [hlen]; omega), hlen]
          refine exists_congr fun i => ?_
          rw [reaches_succ, recordPos, and_iff_right hguard.1, and_iff_right (Nat.le_of_not_lt hsize)]
          exact and_congr_left' (by omega)
      rw [hrest]
      constructor
      · rintro (hr | ⟨i, hi, hreach, hr⟩)
        · exact ⟨0, by omega, reaches_zero.2 hguard.1, hr⟩
        · exact ⟨i + 1, hi, hreach, hr⟩
      · rintro ⟨i, hi, hreach, hr⟩
        cases i with
        | zero => exact Or.inl hr
        | succ i => exact Or.inr ⟨i, hi, hreach, hr⟩

theorem parseRecords_eq_some_iff {i : Nat} {e : MemEntry} :
    (parseRecords mem stop room p)[i]? = some e ↔
      i < room ∧ Reaches mem stop p i ∧ 20 ≤ sizeAt mem p i ∧ e = entryAt mem (recordPos mem p i) := by
  induction room generalizing p i with
  | zero => simp [parseRecords]
  | succ room ih =>
      rw [parseRecords_succ]
      by_cases hp : p < stop
      swap
      · rw [if_neg hp]
        refine iff_of_false (by simp) ?_
        rintro ⟨-, hreach, -⟩
        have hpos := le_recordPos mem p i
        have hstop := hreach.before
        omega
      rw [if_pos hp]
      by_cases hsize : mem.load p 4 < 20
      · rw [if_pos hsize]
        refine iff_of_false (by simp) ?_
        rintro ⟨-, hreach, hlarge, -⟩
        cases i with
        | zero => exact absurd hsize (Nat.not_lt.2 hlarge)
        | succ i => exact absurd hsize (Nat.not_lt.2 (reaches_succ.1 hreach).2.1)
      rw [if_neg hsize]
      cases i with
      | zero =>
          have hlarge : 20 ≤ sizeAt mem p 0 := Nat.le_of_not_lt hsize
          rw [List.getElem?_cons_zero, Option.some.injEq, reaches_zero]
          simp only [Nat.succ_pos, hp, hlarge, true_and]
          exact eq_comm
      | succ i =>
          rw [List.getElem?_cons_succ, ih, reaches_succ, and_iff_right hp,
            and_iff_right (Nat.le_of_not_lt hsize), Nat.add_lt_add_iff_right]
          rfl

/-- The loop on a map of `len` bytes at `addr` stays inside of it. -/
structure InMap (mem : ByteMem) (addr len : Nat) (out : List MemEntry) : Prop where
  /-- It reads only bytes of the map. -/
  reads : ∀ r ∈ (recordLoop (addr + len) (out.length + 1) addr 0 out).reads mem,
    addr ≤ r.1 ∧ r.1 + r.2 ≤ addr + len
  /-- Every entry is that of a record inside of the map. -/
  entries : ∃ count out', (recordLoop (addr + len) (out.length + 1) addr 0 out).run mem =
      some (count, out') ∧
    ∀ i, i < count → out'[i]? = some (entryAt mem (recordPos mem addr i)) ∧
      recordPos mem addr i + 4 + sizeAt mem addr i ≤ addr + len

/-- The map does not end within a record that the loop comes to. A malformed record counts as long as
the smallest well-formed one. -/
def MapWhole (mem : ByteMem) (addr len room : Nat) : Prop :=
  ∀ i, i < room → Reaches mem (addr + len) addr i →
    recordPos mem addr i + max 24 (4 + sizeAt mem addr i) ≤ addr + len

/-- **The record loop stays inside of the map** exactly if the map does not end within a record. -/
theorem reads_bounded_iff (mem : ByteMem) (addr len : Nat) (out : List MemEntry) :
    InMap mem addr len out ↔ MapWhole mem addr len out.length := by
  have hreads : ∀ r, r ∈ (recordLoop (addr + len) (out.length + 1) addr 0 out).reads mem ↔
      ∃ i, i < out.length ∧ Reaches mem (addr + len) addr i ∧
        r ∈ recordReads (recordPos mem addr i) :=
    fun r => mem_reads_iff (Nat.zero_le _) (by omega)
  have hrun := @recordLoop_run mem (addr + len) (out.length + 1) addr 0 out (Nat.zero_le _) (by omega)
  rw [Nat.sub_zero, Nat.zero_add] at hrun
  constructor
  · intro hin i hi hreach
    have hlast : (recordPos mem addr i + 20, 4) ∈ recordReads (recordPos mem addr i) := by
      simp [recordReads]
    have hread := (hin.reads _ ((hreads _).2 ⟨i, hi, hreach, hlast⟩)).2
    by_cases hsize : 20 ≤ sizeAt mem addr i
    · obtain ⟨count, out', hrun', hall⟩ := hin.entries
      obtain ⟨rfl, rfl⟩ := Prod.mk.inj (Option.some.inj (hrun.symm.trans hrun'))
      have hget := parseRecords_eq_some_iff.2 ⟨hi, hreach, hsize, rfl⟩
      have hinside := (hall i (List.getElem?_eq_some_iff.1 hget).1).2
      omega
    · omega
  · intro hwhole
    refine ⟨fun r hr => ?_, _, _, hrun, fun i hi => ?_⟩
    · obtain ⟨i, hi, hreach, hmem⟩ := (hreads r).1 hr
      have hinside := hwhole i hi hreach
      have hpos := le_recordPos mem addr i
      simp only [recordReads, List.mem_cons, List.not_mem_nil, or_false] at hmem
      rcases hmem with rfl | rfl | rfl | rfl <;> dsimp only <;> omega
    · obtain ⟨hroom, hreach, -, hentry⟩ := parseRecords_eq_some_iff.1 (List.getElem?_eq_getElem hi)
      have hinside := hwhole i hroom hreach
      refine ⟨?_, by omega⟩
      rw [← hentry, ← List.getElem?_eq_getElem hi]
      exact List.getElem?_append_left hi

/-- **A truncated record yields an entry.** The map has 20 bytes, too few for a record, but its size
field says 20. The type of the entry is read from behind the map. -/
theorem truncated_record :
    ∃ mem : ByteMem, HasMap mem 0 ∧ mem.load 44 4 = 20 ∧ mem.load 48 4 = 52 ∧
      (parse 0 [⟨0, 0, 0⟩]).run mem = some (some 1, [⟨0x100000, 0x800000, 1⟩]) ∧
      ¬ InMap mem 52 20 [⟨0, 0, 0⟩] := by
  let mem : ByteMem := ByteMem.copy (fun _ => 0) 0 (ByteMem.bytes 44 64 ++ ByteMem.bytes 4 20 ++
    ByteMem.bytes 4 52 ++ MmapRecord.encode ⟨⟨0x100000, 0x800000, 1⟩, []⟩)
  refine ⟨mem, by decide, by decide, by decide, by decide, fun hin => ?_⟩
  have hlast := (hin.reads (72, 4) (by decide)).2
  omega

end Rolnix.Multiboot
