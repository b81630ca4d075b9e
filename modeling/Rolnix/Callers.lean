import Rolnix.PmmProof
import Rolnix.Lib.Runs
import Mathlib.Logic.Function.Basic

/-!
# Concurrent callers of the allocator

`alloc_frame` and `release_frame` run on any number of CPUs, and in interrupt handlers between two
critical sections. Each critical section holds one lock with interrupts off and is one step here:
`pop_shard`, the two of `refill_shard`, and the body of `release_frame`. A caller inside
`alloc_frame` is at one of four places (`Pc`); between the two sections of a refill it carries a
`Batch` that is on no list.

`Callers n` has `n` callers. Each remembers the frames it was given and has not released, so who
holds a frame is part of the state; a frame may be handed on.

A call that nobody interrupts is the `allocFrame` of the sequential model (`inside_allocFrame`).
-/

namespace Rolnix

open Machine Relation

/-- Where a caller is: outside `alloc_frame`, or before the next critical section of its call. -/
inductive Pc
  | idle
  /-- Before the first `pop_shard`. -/
  | pop (shard : Fin shardCount)
  /-- In `refill_shard`, before the global lock. -/
  | peel (shard : Fin shardCount)
  /-- In `refill_shard`, between the two locks. -/
  | splice (shard : Fin shardCount) (b : Batch)
  /-- Before the second `pop_shard`. -/
  | again (shard : Fin shardCount)
  deriving DecidableEq

/-- The batch a caller carries. -/
def Pc.batch : Pc → Option Batch
  | splice _ b => some b
  | _ => none

/-- The number of frames a caller carries. -/
def Pc.batchSize : Pc → Nat
  | splice _ b => b.count
  | _ => 0

structure Callers (n : Nat) where
  machine : Machine
  pc : Fin n → Pc
  /-- The frames returned to a caller and not released since. -/
  held : Fin n → List Nat

namespace Callers

variable {n : Nat}

/-- Caller `t` goes on to `pc`. -/
def goto (c : Callers n) (t : Fin n) (pc : Pc) (m : Machine) : Callers n :=
  { c with machine := m, pc := Function.update c.pc t pc }

/-- The call of `t` returns `r`. -/
def finish (c : Callers n) (t : Fin n) (r : Option Nat) (m : Machine) : Callers n where
  machine := m
  pc := Function.update c.pc t .idle
  held := Function.update c.held t (r.toList ++ c.held t)

theorem finish_held (c : Callers n) (t : Fin n) (r : Option Nat) (m : Machine) :
    (c.finish t r m).held = Function.update c.held t (r.toList ++ c.held t) := rfl

/-- The next critical section of the call `t` is in. -/
def next (c : Callers n) (t : Fin n) : Option (Callers n) := do
  match c.pc t with
  | .idle => none
  | .pop k =>
      match ← c.machine.popShard k with
      | (some f, m) => return c.finish t (some f) m
      | (none, m) => return c.goto t (.peel k) m
  | .peel k =>
      match c.machine.peelGlobal with
      | (none, m) => return c.goto t (.again k) m
      | (some b, m) => return c.goto t (.splice k b) m
  | .splice k b => return c.goto t (.again k) (c.machine.spliceShard k b)
  | .again k =>
      let (r, m) ← c.machine.popShard k
      return c.finish t r m

end Callers

/-- A step of one caller. -/
inductive CallerOp (n : Nat)
  /-- `t` calls `alloc_frame` on a CPU. -/
  | call (t : Fin n) (cpu : Nat)
  | next (t : Fin n)
  /-- `t` calls `release_frame` on a CPU. -/
  | release (t : Fin n) (f cpu : Nat)
  /-- `t` hands a frame on. -/
  | give (t u : Fin n) (f : Nat)
  /-- `t` writes a byte. -/
  | write (t : Fin n) (a : Nat) (c : UInt8)

namespace CallerOp

variable {n : Nat}

/-- The shard of a CPU. -/
def shardOf (cpu : Nat) : Fin shardCount := ⟨cpu % shardCount, Nat.mod_lt _ (by decide)⟩

/-- `none` if the kernel panics. -/
def exec (c : Callers n) : CallerOp n → Option (Callers n)
  | call t cpu => some (c.goto t (.pop (shardOf cpu)) c.machine)
  | next t => c.next t
  | release t f cpu => (c.machine.releaseOn (shardOf cpu) f).map fun m =>
      { c with machine := m, held := Function.update c.held t ((c.held t).erase f) }
  | give t u f =>
      let held := Function.update c.held t ((c.held t).erase f)
      some { c with held := Function.update held u (f :: held u) }
  | write _ a b => some { c with machine := { c.machine with mem := c.machine.mem.poke a b } }

/-- A frame is released, handed on and written to by the caller that holds it, and released when it
has no pins and no mappings. -/
def Allowed (c : Callers n) : CallerOp n → Prop
  | call t _ => c.pc t = .idle
  | next t => c.pc t ≠ .idle
  | release t f _ => f ∈ c.held t ∧ (c.machine.frames f).pinned = 0 ∧
      (c.machine.frames f).mappings = 0
  | give t _ f => f ∈ c.held t
  | write t a _ => a / frameSize ∈ c.held t

instance (c : Callers n) : DecidablePred (Allowed c)
  | call .. | next .. | release .. | give .. | write .. => by unfold Allowed; infer_instance

end CallerOp

namespace Callers

variable {n : Nat}

def Step : Callers n → Callers n → Prop := Runs.Step CallerOp.Allowed CallerOp.exec

/-- Nobody is inside a call yet. The frames held are allocated, and each is held once. -/
structure Starts (c : Callers n) : Prop where
  booted : Booted c.machine
  idle : ∀ t, c.pc t = .idle
  owned : ∀ t, ∀ f ∈ c.held t, f < c.machine.numFrames ∧
    (c.machine.frames f).owner.tag ≠ .free ∧ (c.machine.frames f).owner.tag ≠ .reserved
  single : ∀ f, ∑ t, (c.held t).count f ≤ 1

/-- Nobody calls, nobody holds anything. -/
def quiet (n : Nat) (m : Machine) : Callers n where
  machine := m
  pc := fun _ => .idle
  held := fun _ => []

theorem quiet_starts {m : Machine} (h : Booted m) : (quiet n m).Starts where
  booted := h
  idle := fun _ => rfl
  owned := fun _ _ hf => absurd hf List.not_mem_nil
  single := fun f => by simp [quiet]

/-! ## The critical sections of a call -/

section Next

variable {c : Callers n} {t : Fin n} {k : Fin shardCount} {r : Option Nat} {m : Machine}

theorem next_pop_some {f : Nat} (hpc : c.pc t = .pop k)
    (hpop : c.machine.popShard k = some (some f, m)) :
    c.next t = some (c.finish t (some f) m) := by
  simp [next, hpc, hpop]

theorem next_pop_none (hpc : c.pc t = .pop k) (hpop : c.machine.popShard k = some (none, m)) :
    c.next t = some (c.goto t (.peel k) m) := by
  simp [next, hpc, hpop]

theorem next_peel_none (hpc : c.pc t = .peel k) (hpeel : c.machine.peelGlobal = (none, m)) :
    c.next t = some (c.goto t (.again k) m) := by
  simp [next, hpc, hpeel]

theorem next_peel_some {b : Batch} (hpc : c.pc t = .peel k)
    (hpeel : c.machine.peelGlobal = (some b, m)) :
    c.next t = some (c.goto t (.splice k b) m) := by
  simp [next, hpc, hpeel]

theorem next_splice {b : Batch} (hpc : c.pc t = .splice k b) :
    c.next t = some (c.goto t (.again k) (c.machine.spliceShard k b)) := by
  simp [next, hpc]

theorem next_again (hpc : c.pc t = .again k) (hpop : c.machine.popShard k = some (r, m)) :
    c.next t = some (c.finish t r m) := by
  simp [next, hpc, hpop]

end Next

/-- A pop leaves every frame alone but perhaps one, which goes from free to kernel. -/
theorem popShard_effect {s s' : Machine} {k : Nat} {r : Option Nat}
    (h : s.popShard k = some (r, s')) :
    SameBoot s s' ∧ ∀ f, s'.frames f = s.frames f ∨
      (s.frames f).owner = .free ∧ s'.frames f = (s.frames f).withOwner .kernel := by
  refine ⟨popShard_boot h, fun f => ?_⟩
  obtain ⟨-, rfl⟩ | ⟨g, -, hfree, rfl⟩ := popShard_cases h
  · exact Or.inl rfl
  · by_cases hf : f = g
    · subst hf
      exact Or.inr ⟨hfree, Function.update_self f _ _⟩
    · exact Or.inl (Function.update_of_ne hf _ _)

theorem peelGlobal_frames (s : Machine) :
    SameBoot s s.peelGlobal.2 ∧ s.peelGlobal.2.frames = s.frames := by
  rcases hpeel : s.peelGlobal with ⟨b, s'⟩
  obtain ⟨g, rfl⟩ := peelGlobal_state hpeel
  exact ⟨⟨rfl, rfl, rfl⟩, rfl⟩

/-- The critical sections of a call, and where each leaves the callers. -/
inductive Section (c : Callers n) (t : Fin n) : Callers n → Prop
  | popNone {k : Fin shardCount} {m : Machine} (hpc : c.pc t = .pop k)
      (hpop : c.machine.popShard k = some (none, m)) : Section c t (c.goto t (.peel k) m)
  | popSome {k : Fin shardCount} {f : Nat} {m : Machine} (hpc : c.pc t = .pop k)
      (hpop : c.machine.popShard k = some (some f, m)) : Section c t (c.finish t (some f) m)
  | peelNone {k : Fin shardCount} {m : Machine} (hpc : c.pc t = .peel k)
      (hpeel : c.machine.peelGlobal = (none, m)) : Section c t (c.goto t (.again k) m)
  | peelSome {k : Fin shardCount} {b : Batch} {m : Machine} (hpc : c.pc t = .peel k)
      (hpeel : c.machine.peelGlobal = (some b, m)) : Section c t (c.goto t (.splice k b) m)
  | splice {k : Fin shardCount} {b : Batch} (hpc : c.pc t = .splice k b) :
      Section c t (c.goto t (.again k) (c.machine.spliceShard k b))
  | again {k : Fin shardCount} {r : Option Nat} {m : Machine} (hpc : c.pc t = .again k)
      (hpop : c.machine.popShard k = some (r, m)) : Section c t (c.finish t r m)

theorem section_of_next {c c' : Callers n} {t : Fin n} (h : c.next t = some c') :
    Section c t c' := by
  cases hpc : c.pc t with
  | idle => simp [next, hpc] at h
  | pop k =>
      simp only [next, hpc] at h
      obtain ⟨⟨_ | f, m⟩, hpop, h⟩ := Option.bind_eq_some_iff.1 h
      · obtain rfl := Option.some.inj h
        exact .popNone hpc hpop
      · obtain rfl := Option.some.inj h
        exact .popSome hpc hpop
  | peel k =>
      rcases hpeel : c.machine.peelGlobal with ⟨_ | b, m⟩
      · rw [next_peel_none hpc hpeel] at h
        obtain rfl := Option.some.inj h
        exact .peelNone hpc hpeel
      · rw [next_peel_some hpc hpeel] at h
        obtain rfl := Option.some.inj h
        exact .peelSome hpc hpeel
  | splice k b =>
      rw [next_splice hpc] at h
      obtain rfl := Option.some.inj h
      exact .splice hpc
  | again k =>
      simp only [next, hpc] at h
      obtain ⟨⟨r, m⟩, hpop, h⟩ := Option.bind_eq_some_iff.1 h
      obtain rfl := Option.some.inj h
      exact .again hpc hpop

/-- So does every critical section of a call. -/
theorem next_effect {c c' : Callers n} {t : Fin n} (h : c.next t = some c') :
    SameBoot c.machine c'.machine ∧ ∀ f, c'.machine.frames f = c.machine.frames f ∨
      (c.machine.frames f).owner = .free ∧
        c'.machine.frames f = (c.machine.frames f).withOwner .kernel := by
  obtain ⟨hboot, hframes⟩ := peelGlobal_frames c.machine
  cases section_of_next h with
  | popNone hpc hpop | popSome hpc hpop | again hpc hpop => exact popShard_effect hpop
  | peelNone hpc hpeel | peelSome hpc hpeel =>
      rw [hpeel] at hboot hframes
      exact ⟨hboot, fun f => Or.inl (congrFun hframes f)⟩
  | splice hpc => exact ⟨⟨rfl, rfl, rfl⟩, fun f => Or.inl rfl⟩

/-! ## One caller alone -/

/-- A step inside the call of `t`. -/
def Inside (t : Fin n) (c c' : Callers n) : Prop := c.pc t ≠ .idle ∧ c.next t = some c'

section Inside

variable {c c' : Callers n} {t : Fin n} {pc pc' : Pc} {r : Option Nat} {m m' : Machine}

theorem goto_pc : (c.goto t pc m).pc t = pc := by
  simp only [goto, Function.update_self]

theorem goto_goto : (c.goto t pc m).goto t pc' m' = c.goto t pc' m' := by
  simp only [goto, Function.update_idem]

theorem goto_finish : (c.goto t pc m).finish t r m' = c.finish t r m' := by
  simp only [goto, finish, Function.update_idem]

theorem Inside.of_next (hpc : pc ≠ .idle) (h : (c.goto t pc m).next t = some c') :
    Inside t (c.goto t pc m) c' :=
  ⟨goto_pc.trans_ne hpc, h⟩

/-- **A call that nobody interrupts is `alloc_frame`.** -/
theorem inside_allocFrame (h : c.machine.allocFrame = some (r, m)) :
    ReflTransGen (Inside t) (c.goto t (.pop (CallerOp.shardOf currentCpu)) c.machine)
      (c.finish t r m) := by
  generalize hk : CallerOp.shardOf currentCpu = k
  have hkdef : currentCpu % shardCount = (k : Nat) := congrArg Fin.val hk
  obtain ⟨⟨r₁, m₁⟩, hpop, hrest⟩ := Option.bind_eq_some_iff.1 h
  rw [hkdef] at hpop
  cases r₁ with
  | some f =>
      obtain ⟨rfl, rfl⟩ := Prod.mk.inj (Option.some.inj hrest)
      refine ReflTransGen.single (Inside.of_next (by simp) ?_)
      rw [next_pop_some goto_pc hpop, goto_finish]
  | none =>
      have hagain : (m₁.refillShard k).popShard k = some (r, m) := hkdef ▸ hrest
      have hlast : ∀ m', m'.popShard k = some (r, m) →
          Inside t (c.goto t (.again k) m') (c.finish t r m) := by
        intro m' hm'
        refine Inside.of_next (by simp) ?_
        rw [next_again goto_pc hm', goto_finish]
      have hfirst : Inside t (c.goto t (.pop k) c.machine) (c.goto t (.peel k) m₁) := by
        refine Inside.of_next (by simp) ?_
        rw [next_pop_none goto_pc hpop, goto_goto]
      apply ReflTransGen.head hfirst
      rcases hpeel : m₁.peelGlobal with ⟨_ | b, m₂⟩
      · have hpeeled : Inside t (c.goto t (.peel k) m₁) (c.goto t (.again k) m₂) := by
          refine Inside.of_next (by simp) ?_
          rw [next_peel_none goto_pc hpeel, goto_goto]
        rw [refillShard_of_none k hpeel] at hagain
        exact (ReflTransGen.single hpeeled).tail (hlast m₂ hagain)
      · have hpeeled : Inside t (c.goto t (.peel k) m₁) (c.goto t (.splice k b) m₂) := by
          refine Inside.of_next (by simp) ?_
          rw [next_peel_some goto_pc hpeel, goto_goto]
        have hspliced : Inside t (c.goto t (.splice k b) m₂)
            (c.goto t (.again k) (m₂.spliceShard k b)) := by
          refine Inside.of_next (by simp) ?_
          rw [next_splice goto_pc, goto_goto]
          rfl
        rw [refillShard_of_some k hpeel] at hagain
        exact ((ReflTransGen.single hpeeled).tail hspliced).tail (hlast _ hagain)

end Inside

end Callers

end Rolnix
