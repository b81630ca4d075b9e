import Mathlib.Logic.Function.Basic
import Mathlib.Data.List.Count
import Mathlib.Tactic.SplitIfs

/-!
# Spinlocks

`spinlock.rs` with `irq_save` and `irq_restore` of `arch.rs`, one access at a time. Any number of CPUs
use any number of locks. Each CPU has a running context and those that were interrupted; an interrupt
starts a new context whenever the interrupt flag is on, and what runs in it uses the locks as well.

Two things that `spinlock.rs` allows are left out. A context takes no lock while it holds a guard; the boot
crate does so once, where `heap_self_test` prints `heap_total()` with the console locked. And `lock` is
called with interrupts off only, as its comment asks; the kernel itself never calls it.

The other modules take a critical section for one step. For the value behind the lock that is what the
results here say. The sections of the frame allocator also write the frame table and the links of the free
frames, which no lock owns.

**Theorem (`lock_exclusive`).** At most one context holds a lock. It is running, with interrupts off: nothing
on its own CPU can wait for it.

**Theorem (`sections_serial`).** Every run does what the critical sections do one after the other, in the
order in which the locks are released.

**Theorem (`holder_releases`).** Whoever holds a lock gives it back after as many steps of its own CPU as are
left of its critical section, whatever the other CPUs do.

**Theorem (`flag_restored`).** A critical section leaves the interrupt flag as it was.
-/

namespace Rolnix

/-- A test-and-set spinlock. -/
structure SpinLock (T : Type) where
  locked : Bool
  value : T

def SpinLock.new {T : Type} (value : T) : SpinLock T := ⟨false, value⟩

/-- The code under the locks: for each lock and each argument the steps of a critical section. A step sees
the guarded value and the locals of the caller. -/
abbrev Sections {κ : Type} (T : κ → Type) (L : Type) : Type := (k : κ) → L → List (T k × L → T k × L)

/-- Some steps of a critical section. -/
def doSteps {T L : Type} (steps : List (T × L → T × L)) (x : T × L) : T × L :=
  steps.foldl (fun x f => f x) x

variable {ι κ : Type} {T : κ → Type} {L : Type}

/-- Where a context is. `irq` is the field of the guard. -/
inductive Place (T : κ → Type) (L : Type)
  | outside
  /-- In `irq_save`, with the flags read and interrupts not off yet. -/
  | irqSave (k : κ) (arg : L) (flags : Bool)
  /-- In `acquire`, before the swap. -/
  | swap (k : κ) (arg : L) (irq : Option Bool)
  /-- In `acquire`, before the next load of the inner loop. -/
  | spin (k : κ) (arg : L) (irq : Option Bool)
  /-- With a guard, which is dropped when `rest` is done. -/
  | inside (k : κ) (arg locals : L) (irq : Option Bool) (rest : List (T k × L → T k × L))
  /-- In `drop`, after `release`. -/
  | irqRestore (flags : Bool)

/-- A CPU. -/
structure Core (T : κ → Type) (L : Type) where
  /-- The interrupt flag; no other flag matters here. -/
  flag : Bool
  running : Place T L
  /-- The contexts that were interrupted, the last one first. -/
  interrupted : List (Place T L)

structure Locks (ι : Type) (T : κ → Type) (L : Type) where
  lock : ∀ k, SpinLock (T k)
  core : ι → Core T L

/-- What a CPU does next. -/
inductive LockOp (κ L : Type)
  | lockIrqsave (k : κ) (arg : L)
  | lock (k : κ) (arg : L)
  /-- The next access of the running context. -/
  | step
  /-- `enable_interrupts`, `disable_interrupts`. -/
  | setFlag (b : Bool)
  | interrupt
  /-- The running handler returns. -/
  | iret

/-- A completed critical section: the lock, the argument and the locals at the end. -/
abbrev Done (κ L : Type) : Type := κ × L × L

namespace Locks

variable [DecidableEq ι] [DecidableEq κ]

def setCore (s : Locks ι T L) (c : ι) (u : Core T L) : Locks ι T L :=
  { s with core := Function.update s.core c u }

def setLock (s : Locks ι T L) (k : κ) (l : SpinLock (T k)) : Locks ι T L :=
  { s with lock := Function.update s.lock k l }

/-- One operation of CPU `c`, and the section it completes. There is no `lock` with interrupts on, and no
operation that takes a lock inside of a section. -/
def exec (sec : Sections T L) (s : Locks ι T L) (c : ι) (op : LockOp κ L) :
    Option (List (Done κ L) × Locks ι T L) :=
  let u := s.core c
  match op, u.running with
  | .lockIrqsave k arg, .outside => some ([], s.setCore c { u with running := .irqSave k arg u.flag })
  | .lock k arg, .outside =>
      if u.flag then none else some ([], s.setCore c { u with running := .swap k arg none })
  | .setFlag b, .outside => some ([], s.setCore c { u with flag := b })
  | .iret, .outside =>
      match u.interrupted with
      | [] => none
      | p :: ps => some ([], s.setCore c ⟨true, p, ps⟩)
  | .interrupt, _ =>
      if u.flag then some ([], s.setCore c ⟨false, .outside, u.running :: u.interrupted⟩) else none
  | .step, .irqSave k arg f =>
      some ([], s.setCore c { u with flag := false, running := .swap k arg (some f) })
  | .step, .swap k arg irq =>
      if (s.lock k).locked then some ([], s.setCore c { u with running := .spin k arg irq })
      else some ([], (s.setLock k ⟨true, (s.lock k).value⟩).setCore c
        { u with running := .inside k arg arg irq (sec k arg) })
  | .step, .spin k arg irq =>
      if (s.lock k).locked then some ([], s)
      else some ([], s.setCore c { u with running := .swap k arg irq })
  | .step, .inside k arg l irq (f :: rest) =>
      let r := f ((s.lock k).value, l)
      some ([], (s.setLock k ⟨(s.lock k).locked, r.1⟩).setCore c
        { u with running := .inside k arg r.2 irq rest })
  | .step, .inside k arg l irq [] =>
      some ([(k, arg, l)], (s.setLock k ⟨false, (s.lock k).value⟩).setCore c
        { u with running := irq.elim .outside .irqRestore })
  | .step, .irqRestore f => some ([], s.setCore c { u with flag := f, running := .outside })
  | _, _ => none

/-- Operations of any CPUs, in any order. -/
def run (sec : Sections T L) : List (ι × LockOp κ L) → Locks ι T L → Option (List (Done κ L) × Locks ι T L)
  | [], s => some ([], s)
  | (c, op) :: ops, s =>
      (s.exec sec c op).bind fun r => (run sec ops r.2).map fun r' => (r.1 ++ r'.1, r'.2)

/-- No lock is held, and every CPU is outside. -/
structure Start (s : Locks ι T L) : Prop where
  free : ∀ k, (s.lock k).locked = false
  outside : ∀ c, (s.core c).running = .outside ∧ (s.core c).interrupted = []

end Locks

/-! ## What a CPU can be like -/

namespace Place

/-- The lock that a context holds. -/
def Holds : Place T L → κ → Prop
  | inside k' _ _ _ _, k => k' = k
  | _, _ => False

/-- The flag a context can run with. -/
def Fits : Place T L → Bool → Prop
  | outside, _ => True
  | irqSave _ _ f, b => b = f
  | _, b => b = false

/-- The flag that a context has once it is outside again. -/
def settled : Place T L → Bool → Bool
  | irqSave _ _ f, _ | irqRestore f, _ => f
  | swap _ _ irq, b | spin _ _ irq, b | inside _ _ _ irq _, b => irq.getD b
  | outside, b => b

theorem Fits.not_holds {p : Place T L} (h : p.Fits true) (k : κ) : ¬p.Holds k := by
  cases p <;> simp_all [Fits, Holds]

theorem Fits.settled_eq {p : Place T L} (h : p.Fits true) : p.settled true = true := by
  cases p <;> simp_all [Fits, settled]

theorem Holds.fits {p : Place T L} {k : κ} {b : Bool} (h : p.Holds k) (hp : p.Fits b) : b = false := by
  cases p <;> simp_all [Fits, Holds]

theorem holds_iff {p : Place T L} {k : κ} :
    p.Holds k ↔ ∃ arg l irq rest, p = .inside k arg l irq rest := by
  constructor
  · intro h
    cases p with
    | inside k' arg l irq rest =>
        obtain rfl : k' = k := h
        exact ⟨arg, l, irq, rest, rfl⟩
    | _ => exact h.elim
  · rintro ⟨arg, l, irq, rest, rfl⟩
    rfl

end Place

/-- Interrupts are off from `irq_save` to `irq_restore`, so that nothing is interrupted there. -/
structure Core.WF (u : Core T L) : Prop where
  running : u.running.Fits u.flag
  interrupted : ∀ p ∈ u.interrupted, p.Fits true

/-- Without `setFlag`: the flags are those of the start, or off in a handler, and handlers are not interrupted. -/
structure Core.Settled (u : Core T L) (f : Bool) : Prop where
  running : u.running.settled u.flag = if u.interrupted = [] then f else false
  interrupted : u.interrupted ≠ [] → f = true ∧ u.interrupted.length = 1

/-- A step of a CPU that is not in a critical section. -/
structure Quiet (op : LockOp κ L) (u u' : Core T L) : Prop where
  wf : u'.WF
  settled : ∀ f, (∀ b, op ≠ .setFlag b) → u.Settled f → u'.Settled f
  before : ∀ k, ¬u.running.Holds k
  after : ∀ k, ¬u'.running.Holds k

section

variable {op : LockOp κ L}

theorem Quiet.running {u : Core T L} {p : Place T L} {b : Bool} (hwf : u.WF) (hfits : p.Fits b)
    (hset : (∀ b, op ≠ .setFlag b) → p.settled b = u.running.settled u.flag)
    (hbefore : ∀ k, ¬u.running.Holds k) (hafter : ∀ k, ¬p.Holds k) :
    Quiet op u { u with flag := b, running := p } where
  wf := ⟨hfits, hwf.interrupted⟩
  settled _ hop hs := ⟨(hset hop).trans hs.running, hs.interrupted⟩
  before := hbefore
  after := hafter

theorem Quiet.interrupt {u : Core T L} (hwf : u.WF) (hflag : u.flag = true) :
    Quiet op u ⟨false, .outside, u.running :: u.interrupted⟩ where
  wf := by
    refine ⟨trivial, fun p hp => ?_⟩
    rcases List.mem_cons.1 hp with rfl | hp
    · exact hflag ▸ hwf.running
    · exact hwf.interrupted p hp
  settled f _ hs := by
    have hfits : u.running.Fits true := hflag ▸ hwf.running
    have hset := hs.running
    rw [hflag, hfits.settled_eq] at hset
    split_ifs at hset with hnil
    exact ⟨rfl, fun _ => ⟨hset.symm, by rw [hnil]; rfl⟩⟩
  before := by
    have hfits : u.running.Fits true := hflag ▸ hwf.running
    exact hfits.not_holds
  after _ h := h

theorem Quiet.iret {u : Core T L} {p : Place T L} {ps : List (Place T L)} (hwf : u.WF)
    (hrun : u.running = .outside) (hint : u.interrupted = p :: ps) : Quiet op u ⟨true, p, ps⟩ where
  wf := ⟨hwf.interrupted p (by rw [hint]; exact List.mem_cons_self),
    fun q hq => hwf.interrupted q (by rw [hint]; exact List.mem_cons_of_mem p hq)⟩
  settled f _ hs := by
    obtain ⟨rfl, hlen⟩ := hs.interrupted (by rw [hint]; exact List.cons_ne_nil p ps)
    rw [hint] at hlen
    obtain rfl : ps = [] := List.length_eq_zero_iff.1 (Nat.succ.inj hlen)
    have hfits := hwf.interrupted p (by rw [hint]; exact List.mem_cons_self)
    exact ⟨hfits.settled_eq, fun h => absurd rfl h⟩
  before := by simp [hrun, Place.Holds]
  after := (hwf.interrupted p (by rw [hint]; exact List.mem_cons_self)).not_holds

end

namespace Locks

variable [DecidableEq ι] [DecidableEq κ] {sec : Sections T L} {s s' : Locks ι T L} {c : ι} {op : LockOp κ L}
  {es : List (Done κ L)}

/-- **What an operation does.** -/
inductive Effect (sec : Sections T L) (s : Locks ι T L) (c : ι) (op : LockOp κ L) :
    List (Done κ L) → Locks ι T L → Prop
  | quiet (u : Core T L) (h : Quiet op (s.core c) u) : Effect sec s c op [] (s.setCore c u)
  | acquire (k : κ) (arg : L) (irq : Option Bool) (hrun : (s.core c).running = .swap k arg irq)
      (hfree : (s.lock k).locked = false) :
      Effect sec s c op [] ((s.setLock k ⟨true, (s.lock k).value⟩).setCore c
        { s.core c with running := .inside k arg arg irq (sec k arg) })
  | work (k : κ) (arg l : L) (irq : Option Bool) (f : T k × L → T k × L) (rest : List (T k × L → T k × L))
      (hrun : (s.core c).running = .inside k arg l irq (f :: rest)) :
      Effect sec s c op [] ((s.setLock k ⟨(s.lock k).locked, (f ((s.lock k).value, l)).1⟩).setCore c
        { s.core c with running := .inside k arg (f ((s.lock k).value, l)).2 irq rest })
  | release (k : κ) (arg l : L) (irq : Option Bool) (hrun : (s.core c).running = .inside k arg l irq []) :
      Effect sec s c op [(k, arg, l)] ((s.setLock k ⟨false, (s.lock k).value⟩).setCore c
        { s.core c with running := irq.elim .outside .irqRestore })

omit [DecidableEq κ] in
theorem setCore_self (s : Locks ι T L) (c : ι) : s.setCore c (s.core c) = s := by
  rw [setCore, Function.update_eq_self]

theorem exec_effect (hwf : (s.core c).WF) (h : s.exec sec c op = some (es, s')) : Effect sec s c op es s' := by
  have hfits := hwf.running
  unfold exec at h
  dsimp only at h
  split at h
  · -- `lock_irqsave`
    rename_i k arg hrun
    obtain ⟨rfl, rfl⟩ := Prod.mk.inj (Option.some.inj h)
    exact .quiet _ (Quiet.running hwf rfl (by simp [hrun, Place.settled]) (by simp [hrun, Place.Holds])
      (by simp [Place.Holds]))
  · -- `lock`
    rename_i k arg hrun
    split_ifs at h with hflag
    obtain ⟨rfl, rfl⟩ := Prod.mk.inj (Option.some.inj h)
    exact .quiet _ (Quiet.running hwf (Bool.eq_false_iff.2 hflag) (by simp [hrun, Place.settled])
      (by simp [hrun, Place.Holds]) (by simp [Place.Holds]))
  · -- `enable_interrupts`, `disable_interrupts`
    rename_i b hrun
    obtain ⟨rfl, rfl⟩ := Prod.mk.inj (Option.some.inj h)
    exact .quiet _ (Quiet.running hwf (by rw [hrun]; trivial) (fun hop => absurd rfl (hop b))
      (by simp [hrun, Place.Holds]) (by simp [hrun, Place.Holds]))
  · -- a handler returns
    rename_i hrun
    split at h
    · cases h
    · rename_i p ps hint
      obtain ⟨rfl, rfl⟩ := Prod.mk.inj (Option.some.inj h)
      exact .quiet _ (Quiet.iret hwf hrun hint)
  · -- an interrupt
    split_ifs at h with hflag
    obtain ⟨rfl, rfl⟩ := Prod.mk.inj (Option.some.inj h)
    exact .quiet _ (Quiet.interrupt hwf hflag)
  · -- `cli`
    rename_i k arg f hrun
    obtain ⟨rfl, rfl⟩ := Prod.mk.inj (Option.some.inj h)
    exact .quiet _ (Quiet.running hwf rfl (by simp [hrun, Place.settled])
      (by simp [hrun, Place.Holds]) (by simp [Place.Holds]))
  · -- the swap
    rename_i k arg irq hrun
    rw [hrun] at hfits
    split_ifs at h with hlocked
    · obtain ⟨rfl, rfl⟩ := Prod.mk.inj (Option.some.inj h)
      exact .quiet _ (Quiet.running hwf hfits (by simp [hrun, Place.settled])
        (by simp [hrun, Place.Holds]) (by simp [Place.Holds]))
    · obtain ⟨rfl, rfl⟩ := Prod.mk.inj (Option.some.inj h)
      exact .acquire k arg irq hrun (Bool.not_eq_true _ ▸ hlocked)
  · -- a load
    rename_i k arg irq hrun
    rw [hrun] at hfits
    split_ifs at h with hlocked
    · obtain ⟨rfl, rfl⟩ := Prod.mk.inj (Option.some.inj h)
      have hout : ∀ k, ¬(s.core c).running.Holds k := by simp [hrun, Place.Holds]
      have hquiet : Effect sec s c .step [] (s.setCore c (s.core c)) :=
        .quiet _ ⟨hwf, fun _ _ hs => hs, hout, hout⟩
      rwa [setCore_self] at hquiet
    · obtain ⟨rfl, rfl⟩ := Prod.mk.inj (Option.some.inj h)
      exact .quiet _ (Quiet.running hwf hfits (by simp [hrun, Place.settled])
        (by simp [hrun, Place.Holds]) (by simp [Place.Holds]))
  · rename_i k arg l irq f rest hrun
    obtain ⟨rfl, rfl⟩ := Prod.mk.inj (Option.some.inj h)
    exact .work k arg l irq f rest hrun
  · rename_i k arg l irq hrun
    obtain ⟨rfl, rfl⟩ := Prod.mk.inj (Option.some.inj h)
    exact .release k arg l irq hrun
  · -- `irq_restore`
    rename_i f hrun
    obtain ⟨rfl, rfl⟩ := Prod.mk.inj (Option.some.inj h)
    exact .quiet _ (Quiet.running hwf trivial (by simp [hrun, Place.settled])
      (by simp [hrun, Place.Holds]) (by simp [Place.Holds]))
  · cases h

/-! ## One holder -/

/-- CPU `c` runs a context that holds lock `k`. -/
def HeldBy (s : Locks ι T L) (k : κ) (c : ι) : Prop := (s.core c).running.Holds k

structure Inv (s : Locks ι T L) : Prop where
  wf : ∀ c, (s.core c).WF
  locked_iff : ∀ k, (s.lock k).locked = true ↔ ∃ c, s.HeldBy k c
  unique : ∀ k c c', s.HeldBy k c → s.HeldBy k c' → c = c'

omit [DecidableEq ι] [DecidableEq κ] in
theorem Start.inv (h : s.Start) : s.Inv where
  wf c := ⟨by rw [(h.outside c).1]; trivial, by rw [(h.outside c).2]; simp⟩
  locked_iff k := by
    rw [h.free k]
    simp [HeldBy, (h.outside _).1, Place.Holds]
  unique k c c' hc := by
    rw [HeldBy, (h.outside c).1] at hc
    exact hc.elim

omit [DecidableEq κ] in
@[simp] theorem core_setCore (s : Locks ι T L) (c : ι) (u : Core T L) :
    (s.setCore c u).core = Function.update s.core c u := rfl

omit [DecidableEq κ] in
@[simp] theorem lock_setCore (s : Locks ι T L) (c : ι) (u : Core T L) : (s.setCore c u).lock = s.lock := rfl

omit [DecidableEq ι] in
@[simp] theorem core_setLock (s : Locks ι T L) (k : κ) (l : SpinLock (T k)) : (s.setLock k l).core = s.core := rfl

omit [DecidableEq ι] in
@[simp] theorem lock_setLock (s : Locks ι T L) (k : κ) (l : SpinLock (T k)) :
    (s.setLock k l).lock = Function.update s.lock k l := rfl

theorem Effect.core_of_ne (h : Effect sec s c op es s') {c' : ι} (hne : c' ≠ c) : s'.core c' = s.core c' := by
  cases h <;> simp [hne]

theorem Effect.wf (h : Effect sec s c op es s') (hwf : (s.core c).WF) : (s'.core c).WF := by
  cases h with
  | quiet u h => simpa using h.wf
  | acquire k arg irq hrun hfree =>
      have hfits := hwf.running
      rw [hrun] at hfits
      simpa using ⟨hfits, hwf.interrupted⟩
  | work k arg l irq f rest hrun =>
      have hfits := hwf.running
      rw [hrun] at hfits
      simpa using ⟨hfits, hwf.interrupted⟩
  | release k arg l irq hrun =>
      have hfits := hwf.running
      rw [hrun] at hfits
      refine ⟨?_, by simpa using hwf.interrupted⟩
      cases irq with
      | none => simp [Place.Fits]
      | some f => simpa [Place.Fits] using hfits

/-- What an operation does to one lock: nothing, or its CPU takes it, or gives it back. -/
inductive Turn (s s' : Locks ι T L) (c : ι) (k : κ) : Prop
  | same (hheld : s'.HeldBy k c ↔ s.HeldBy k c) (hlocked : (s'.lock k).locked = (s.lock k).locked)
  | taken (hfree : (s.lock k).locked = false) (hlocked : (s'.lock k).locked = true) (hheld : s'.HeldBy k c)
  | given (hheld : s.HeldBy k c) (hfree : (s'.lock k).locked = false) (hout : ¬s'.HeldBy k c)

theorem Effect.turn (h : Effect sec s c op es s') (k : κ) : Turn s s' c k := by
  cases h with
  | quiet u h =>
      refine .same ?_ rfl
      rw [HeldBy, HeldBy, core_setCore, Function.update_self]
      exact iff_of_false (h.after k) (h.before k)
  | acquire k₁ arg irq hrun hfree =>
      by_cases hk : k = k₁
      · subst hk
        exact .taken hfree (by simp) (by simp [HeldBy, Place.Holds])
      · refine .same ?_ (by simp [hk])
        simp [HeldBy, hrun, Place.Holds, Ne.symm hk]
  | work k₁ arg l irq f rest hrun =>
      refine .same (by simp [HeldBy, hrun, Place.Holds]) ?_
      by_cases hk : k = k₁
      · subst hk
        simp
      · simp [hk]
  | release k₁ arg l irq hrun =>
      have hout : ¬(irq.elim Place.outside Place.irqRestore : Place T L).Holds k := by
        cases irq <;> simp [Place.Holds]
      by_cases hk : k = k₁
      · subst hk
        exact .given (by simp [HeldBy, hrun, Place.Holds]) (by simp) (by simpa [HeldBy] using hout)
      · refine .same ?_ (by simp [hk])
        rw [HeldBy, HeldBy, core_setCore, Function.update_self, hrun]
        exact iff_of_false hout (Ne.symm hk)

/-- **One operation.** -/
theorem Inv.step (hinv : s.Inv) (h : s.exec sec c op = some (es, s')) : s'.Inv := by
  have heff := exec_effect (hinv.wf c) h
  have hother (k : κ) (c' : ι) (hne : c' ≠ c) : s'.HeldBy k c' ↔ s.HeldBy k c' := by
    rw [HeldBy, HeldBy, heff.core_of_ne hne]
  refine ⟨fun c' => ?_, fun k => ?_, fun k c₁ c₂ h₁ h₂ => ?_⟩
  · by_cases hc : c' = c
    · rw [hc]
      exact heff.wf (hinv.wf c)
    · rw [heff.core_of_ne hc]
      exact hinv.wf c'
  · cases heff.turn k with
    | same hheld hlocked =>
        rw [hlocked, hinv.locked_iff k]
        refine exists_congr fun c' => ?_
        by_cases hc : c' = c
        · rw [hc]
          exact hheld.symm
        · exact (hother k c' hc).symm
    | taken hfree hlocked hheld => exact iff_of_true hlocked ⟨c, hheld⟩
    | given hheld hfree hout =>
        rw [hfree]
        refine iff_of_false (by decide) ?_
        rintro ⟨c', hc'⟩
        by_cases hc : c' = c
        · exact hout (hc ▸ hc')
        · exact hc (hinv.unique k c' c ((hother k c' hc).1 hc') hheld)
  · cases heff.turn k with
    | same hheld _ =>
        have hall (c' : ι) (hc' : s'.HeldBy k c') : s.HeldBy k c' := by
          by_cases hc : c' = c
          · rw [hc] at hc' ⊢
            exact hheld.1 hc'
          · exact (hother k c' hc).1 hc'
        exact hinv.unique k c₁ c₂ (hall c₁ h₁) (hall c₂ h₂)
    | taken hfree _ _ =>
        have honly (c' : ι) (hc' : s'.HeldBy k c') : c' = c := by
          by_contra hc
          have hlocked := (hinv.locked_iff k).2 ⟨c', (hother k c' hc).1 hc'⟩
          rw [hfree] at hlocked
          cases hlocked
        rw [honly c₁ h₁, honly c₂ h₂]
    | given hheld _ hout =>
        have hc : c₁ ≠ c := fun hc => hout (hc ▸ h₁)
        exact absurd (hinv.unique k c₁ c ((hother k c₁ hc).1 h₁) hheld) hc

theorem run_cons {ops : List (ι × LockOp κ L)} (h : s.run sec ((c, op) :: ops) = some (es, s')) :
    ∃ es₁ s₁ es₂, s.exec sec c op = some (es₁, s₁) ∧ s₁.run sec ops = some (es₂, s') ∧ es = es₁ ++ es₂ := by
  rw [run] at h
  obtain ⟨⟨es₁, s₁⟩, hexec, h⟩ := Option.bind_eq_some_iff.1 h
  obtain ⟨⟨es₂, s₂⟩, hrun, h⟩ := Option.map_eq_some_iff.1 h
  obtain ⟨rfl, rfl⟩ := Prod.mk.inj h
  exact ⟨es₁, s₁, es₂, hexec, hrun, rfl⟩

theorem Inv.run {ops : List (ι × LockOp κ L)} (hinv : s.Inv) (h : s.run sec ops = some (es, s')) : s'.Inv := by
  induction ops generalizing s es with
  | nil =>
      obtain ⟨-, rfl⟩ := Prod.mk.inj (Option.some.inj h)
      exact hinv
  | cons op ops ih =>
      obtain ⟨es₁, s₁, es₂, hexec, hrun, -⟩ := run_cons h
      exact ih (hinv.step hexec) hrun

/-- **At most one holder,** and it is running with interrupts off. -/
theorem lock_exclusive {s₀ : Locks ι T L} {ops : List (ι × LockOp κ L)} (hstart : s₀.Start)
    (hrun : s₀.run sec ops = some (es, s)) (k : κ) :
    ((s.lock k).locked = true ↔ ∃ c, (s.core c).running.Holds k) ∧
      (∀ c c', (s.core c).running.Holds k → (s.core c').running.Holds k → c = c') ∧
      (∀ c, (s.core c).running.Holds k → (s.core c).flag = false) ∧
      ∀ c, ∀ p ∈ (s.core c).interrupted, ¬p.Holds k := by
  have hinv := hstart.inv.run hrun
  exact ⟨hinv.locked_iff k, hinv.unique k, fun c hc => hc.fits (hinv.wf c).running,
    fun c p hp => ((hinv.wf c).interrupted p hp).not_holds k⟩

/-- A counter that is read and then written, on two CPUs. -/
def countSections : Sections (fun _ : Unit => Nat) Nat :=
  fun _ _ => [fun x => (x.1, x.1), fun x => (x.2 + 1, x.2)]

def countStart : Locks Nat (fun _ : Unit => Nat) Nat := ⟨fun _ => .new 0, fun _ => ⟨true, .outside, []⟩⟩

theorem countStart_start : countStart.Start := ⟨fun _ => rfl, fun _ => ⟨rfl, rfl⟩⟩

/-- CPU 0 is inside, and CPU 1 has tried. -/
def countOps : List (Nat × LockOp Unit Nat) :=
  [(0, .lockIrqsave () 0), (1, .lockIrqsave () 0), (0, .step), (1, .step), (0, .step), (1, .step)]

theorem lock_exclusive_count :
    ∃ es s, countStart.run countSections countOps = some (es, s) ∧ (s.core 0).running.Holds () ∧
      ¬(s.core 1).running.Holds () := by
  have hobs : (countStart.run countSections countOps).map (fun r => (r.2.core 0).running) =
      some (.inside () 0 0 (some true) (countSections () 0)) := rfl
  obtain ⟨⟨es, s⟩, hrun, hin⟩ := Option.map_eq_some_iff.1 hobs
  have hheld := Place.holds_iff.2 ⟨_, _, _, _, hin⟩
  exact ⟨es, s, hrun, hheld, fun h =>
    absurd ((lock_exclusive countStart_start hrun ()).2.1 0 1 hheld h) (by decide)⟩

/-! ## One section after the other -/

/-- The sections one after the other, each from its first step to its last. -/
inductive Serial (sec : Sections T L) : (∀ k, T k) → List (Done κ L) → (∀ k, T k) → Prop
  | nil (v : ∀ k, T k) : Serial sec v [] v
  | cons {v w : ∀ k, T k} {es : List (Done κ L)} (k : κ) (arg : L)
      (hrest : Serial sec (Function.update v k (doSteps (sec k arg) (v k, arg)).1) es w) :
      Serial sec v ((k, arg, (doSteps (sec k arg) (v k, arg)).2) :: es) w

/-- The values as the completed sections left them: a lock that is free guards that value, and whoever holds
one has done a part of its section to it. -/
structure Agrees (sec : Sections T L) (s : Locks ι T L) (v : ∀ k, T k) : Prop where
  free : ∀ k, (s.lock k).locked = false → (s.lock k).value = v k
  held : ∀ c k arg l irq rest, (s.core c).running = .inside k arg l irq rest →
    ∃ steps, steps ++ rest = sec k arg ∧ doSteps steps (v k, arg) = ((s.lock k).value, l)

theorem doSteps_append {T L : Type} (fs gs : List (T × L → T × L)) (x : T × L) :
    doSteps (fs ++ gs) x = doSteps gs (doSteps fs x) := List.foldl_append

omit [DecidableEq ι] [DecidableEq κ] in
theorem Inv.ne_of_inside (hinv : s.Inv) {c' : ι} {k k' : κ} (hc : c' ≠ c) (hheld : s.HeldBy k c)
    (hheld' : s.HeldBy k' c') : k' ≠ k :=
  fun hk => hc (hinv.unique k c' c (hk ▸ hheld') hheld)

omit [DecidableEq ι] [DecidableEq κ] in
theorem heldBy_of_eq {k : κ} {arg l : L} {irq : Option Bool} {rest : List (T k × L → T k × L)}
    (h : (s.core c).running = .inside k arg l irq rest) : s.HeldBy k c := by
  rw [HeldBy, h]
  rfl

/-- **One operation** completes a section, or is not seen. -/
theorem Agrees.step {v : ∀ k, T k} (h : Agrees sec s v) (hinv : s.Inv)
    (hexec : s.exec sec c op = some (es, s')) :
    ∃ w, Agrees sec s' w ∧ ∀ {es' x}, Serial sec w es' x → Serial sec v (es ++ es') x := by
  cases exec_effect (hinv.wf c) hexec with
  | quiet u hquiet =>
      refine ⟨v, ⟨h.free, fun c' k arg l irq rest hin => ?_⟩, id⟩
      by_cases hc : c' = c
      · rw [hc, core_setCore, Function.update_self] at hin
        exact absurd (Place.holds_iff.2 ⟨_, _, _, _, hin⟩) (hquiet.after k)
      · rw [core_setCore, Function.update_of_ne hc] at hin
        exact h.held c' k arg l irq rest hin
  | acquire k₁ arg₁ irq₁ hrun hfree =>
      refine ⟨v, ⟨fun k hk => ?_, fun c' k arg l irq rest hin => ?_⟩, id⟩
      · by_cases hkk : k = k₁
        · subst hkk
          simp at hk
        · simp only [lock_setCore, lock_setLock, Function.update_of_ne hkk] at hk ⊢
          exact h.free k hk
      · by_cases hc : c' = c
        · rw [hc, core_setCore, Function.update_self] at hin
          cases hin
          refine ⟨[], rfl, ?_⟩
          simp [doSteps, h.free k₁ hfree]
        · rw [core_setCore, Function.update_of_ne hc, core_setLock] at hin
          have hkk : k ≠ k₁ := by
            rintro rfl
            have := (hinv.locked_iff k).2 ⟨c', heldBy_of_eq hin⟩
            rw [hfree] at this
            cases this
          simp only [lock_setCore, lock_setLock, Function.update_of_ne hkk]
          exact h.held c' k arg l irq rest hin
  | work k₁ arg₁ l₁ irq₁ f rest₁ hrun =>
      have hheld := heldBy_of_eq hrun
      refine ⟨v, ⟨fun k hk => ?_, fun c' k arg l irq rest hin => ?_⟩, id⟩
      · by_cases hkk : k = k₁
        · subst hkk
          simp [(hinv.locked_iff k).2 ⟨c, hheld⟩] at hk
        · simp only [lock_setCore, lock_setLock, Function.update_of_ne hkk] at hk ⊢
          exact h.free k hk
      · by_cases hc : c' = c
        · rw [hc, core_setCore, Function.update_self] at hin
          cases hin
          obtain ⟨steps, hsteps, hval⟩ := h.held c k₁ arg₁ l₁ irq₁ (f :: rest₁) hrun
          refine ⟨steps ++ [f], by rw [List.append_assoc]; exact hsteps, ?_⟩
          rw [doSteps_append, hval]
          simp [doSteps]
        · rw [core_setCore, Function.update_of_ne hc, core_setLock] at hin
          have hkk := hinv.ne_of_inside hc hheld (heldBy_of_eq hin)
          simp only [lock_setCore, lock_setLock, Function.update_of_ne hkk]
          exact h.held c' k arg l irq rest hin
  | release k₁ arg₁ l₁ irq₁ hrun =>
      have hheld := heldBy_of_eq hrun
      obtain ⟨steps, hsteps, hval⟩ := h.held c k₁ arg₁ l₁ irq₁ [] hrun
      rw [List.append_nil] at hsteps
      rw [hsteps] at hval
      refine ⟨Function.update v k₁ (s.lock k₁).value, ⟨fun k hk => ?_, fun c' k arg l irq rest hin => ?_⟩, ?_⟩
      · by_cases hkk : k = k₁
        · subst hkk
          simp
        · simp only [lock_setCore, lock_setLock, Function.update_of_ne hkk] at hk ⊢
          exact h.free k hk
      · by_cases hc : c' = c
        · rw [hc, core_setCore, Function.update_self] at hin
          cases irq₁ <;> cases hin
        · rw [core_setCore, Function.update_of_ne hc, core_setLock] at hin
          have hkk := hinv.ne_of_inside hc hheld (heldBy_of_eq hin)
          simp only [lock_setCore, lock_setLock, Function.update_of_ne hkk]
          exact h.held c' k arg l irq rest hin
      · intro es' x hserial
        have hcons : Serial sec v ((k₁, arg₁, (doSteps (sec k₁ arg₁) (v k₁, arg₁)).2) :: es') x :=
          .cons k₁ arg₁ (by rw [hval]; exact hserial)
        rwa [hval] at hcons

theorem Agrees.run {ops : List (ι × LockOp κ L)} {v : ∀ k, T k} (h : Agrees sec s v) (hinv : s.Inv)
    (hrun : s.run sec ops = some (es, s')) : ∃ w, Serial sec v es w ∧ Agrees sec s' w := by
  induction ops generalizing s es v with
  | nil =>
      obtain ⟨rfl, rfl⟩ := Prod.mk.inj (Option.some.inj hrun)
      exact ⟨v, .nil v, h⟩
  | cons op ops ih =>
      obtain ⟨es₁, s₁, es₂, hexec, hnext, rfl⟩ := run_cons hrun
      obtain ⟨w₁, hagrees, hserial⟩ := h.step hinv hexec
      obtain ⟨w, hrest, hlast⟩ := ih hagrees (hinv.step hexec) hnext
      exact ⟨w, hserial hrest, hlast⟩

omit [DecidableEq ι] [DecidableEq κ] in
theorem Start.agrees (h : s.Start) : Agrees sec s fun k => (s.lock k).value where
  free _ _ := rfl
  held c k arg l irq rest hin := by
    rw [(h.outside c).1] at hin
    cases hin

/-- **Critical sections are atomic.** -/
theorem sections_serial {s₀ : Locks ι T L} {ops : List (ι × LockOp κ L)} (hstart : s₀.Start)
    (hrun : s₀.run sec ops = some (es, s)) :
    ∃ v, Serial sec (fun k => (s₀.lock k).value) es v ∧
      (∀ k, (s.lock k).locked = false → (s.lock k).value = v k) ∧
      ∀ c k arg l irq rest, (s.core c).running = .inside k arg l irq rest →
        ∃ steps, steps ++ rest = sec k arg ∧ doSteps steps (v k, arg) = ((s.lock k).value, l) := by
  obtain ⟨v, hserial, hagrees⟩ := hstart.agrees.run hstart.inv hrun
  exact ⟨v, hserial, hagrees.free, hagrees.held⟩

/-- Both CPUs count, and no count is lost. -/
theorem sections_serial_count :
    ∃ es s v, countStart.run countSections (countOps ++ [(0, .step), (1, .step), (0, .step), (1, .step), (0, .step),
        (1, .step), (1, .step), (1, .step), (1, .step), (1, .step)]) = some (es, s) ∧
      Serial countSections (fun _ => 0) es v ∧ v () = 2 := by
  have hobs : (countStart.run countSections (countOps ++ [(0, .step), (1, .step), (0, .step), (1, .step), (0, .step),
      (1, .step), (1, .step), (1, .step), (1, .step), (1, .step)])).map (fun r => r.2.lock ()) = some ⟨false, 2⟩ := rfl
  obtain ⟨⟨es, s⟩, hrun, hlock⟩ := Option.map_eq_some_iff.1 hobs
  obtain ⟨v, hserial, hfree, -⟩ := sections_serial countStart_start hrun
  exact ⟨es, s, v, hrun, hserial, by rw [← hfree () (by rw [hlock]), hlock]⟩

/-! ## The lock is given back -/

theorem Effect.lock_of_heldBy (h : Effect sec s c op es s') (hinv : s.Inv) {c' : ι} {k : κ} (hc : c' ≠ c)
    (hheld : s.HeldBy k c') : s'.lock k = s.lock k := by
  cases h with
  | quiet u h => rfl
  | acquire k₁ arg irq hrun hfree =>
      have hk : k ≠ k₁ := by
        rintro rfl
        have := (hinv.locked_iff k).2 ⟨c', hheld⟩
        rw [hfree] at this
        cases this
      simp [hk]
  | work k₁ arg l irq f rest hrun => simp [hinv.ne_of_inside hc (heldBy_of_eq hrun) hheld]
  | release k₁ arg l irq hrun => simp [hinv.ne_of_inside hc (heldBy_of_eq hrun) hheld]

theorem Effect.of_inside (h : Effect sec s c op es s') {k : κ} {arg l : L} {irq : Option Bool}
    {f : T k × L → T k × L} {rest : List (T k × L → T k × L)}
    (hin : (s.core c).running = .inside k arg l irq (f :: rest)) :
    (s'.core c).running = .inside k arg (f ((s.lock k).value, l)).2 irq rest ∧
      (s'.lock k).value = (f ((s.lock k).value, l)).1 := by
  cases h with
  | quiet u h => exact absurd (Place.holds_iff.2 ⟨_, _, _, _, hin⟩) (h.before k)
  | acquire k₁ arg irq hrun hfree =>
      rw [hin] at hrun
      cases hrun
  | work k₁ arg₁ l₁ irq₁ f₁ rest₁ hrun =>
      rw [hin] at hrun
      cases hrun
      simp
  | release k₁ arg l irq hrun =>
      rw [hin] at hrun
      cases hrun

theorem Effect.of_inside_nil (h : Effect sec s c op es s') {k : κ} {arg l : L} {irq : Option Bool}
    (hin : (s.core c).running = .inside k arg l irq []) :
    es = [(k, arg, l)] ∧ s'.lock k = ⟨false, (s.lock k).value⟩ := by
  cases h with
  | quiet u h => exact absurd (Place.holds_iff.2 ⟨_, _, _, _, hin⟩) (h.before k)
  | acquire k₁ arg irq hrun hfree =>
      rw [hin] at hrun
      cases hrun
  | work k₁ arg₁ l₁ irq₁ f₁ rest₁ hrun =>
      rw [hin] at hrun
      cases hrun
  | release k₁ arg l irq hrun =>
      rw [hin] at hrun
      cases hrun
      simp

/-- While its CPU has fewer steps than are left, the holder stays inside, and what the section will have done
is the same. -/
theorem stays_inside {ops : List (ι × LockOp κ L)} {k : κ} {arg l : L} {irq : Option Bool}
    {rest : List (T k × L → T k × L)} (hinv : s.Inv) (hin : (s.core c).running = .inside k arg l irq rest)
    (hrun : s.run sec ops = some (es, s')) (hcount : (ops.map Prod.fst).count c ≤ rest.length) :
    ∃ l', (s'.core c).running = .inside k arg l' irq (rest.drop ((ops.map Prod.fst).count c)) ∧
      doSteps (rest.drop ((ops.map Prod.fst).count c)) ((s'.lock k).value, l') =
        doSteps rest ((s.lock k).value, l) := by
  induction ops generalizing s es l rest with
  | nil =>
      obtain ⟨-, rfl⟩ := Prod.mk.inj (Option.some.inj hrun)
      exact ⟨l, hin, rfl⟩
  | cons cop ops ih =>
      obtain ⟨c₁, op⟩ := cop
      obtain ⟨es₁, s₁, es₂, hexec, hrun, -⟩ := run_cons hrun
      have heff := exec_effect (hinv.wf c₁) hexec
      rw [List.map_cons, List.count_cons] at hcount ⊢
      by_cases hc : c₁ = c
      · subst hc
        rw [beq_self_eq_true, if_pos rfl] at hcount ⊢
        cases rest with
        | nil => simp at hcount
        | cons f rest =>
            obtain ⟨hin₁, hval⟩ := heff.of_inside hin
            obtain ⟨l', hlast, hdone⟩ := ih (hinv.step hexec) hin₁ hrun (Nat.le_of_succ_le_succ hcount)
            refine ⟨l', hlast, hdone.trans ?_⟩
            rw [hval]
            rfl
      · rw [if_neg (by simpa using hc), Nat.add_zero] at hcount ⊢
        have hin₁ : (s₁.core c).running = .inside k arg l irq rest := by
          rw [heff.core_of_ne (Ne.symm hc)]
          exact hin
        obtain ⟨l', hlast, hdone⟩ := ih (hinv.step hexec) hin₁ hrun hcount
        rw [heff.lock_of_heldBy hinv (Ne.symm hc) (heldBy_of_eq hin)] at hdone
        exact ⟨l', hlast, hdone⟩

theorem run_append {ops ops' : List (ι × LockOp κ L)} (h : s.run sec (ops ++ ops') = some (es, s')) :
    ∃ es₁ s₁ es₂, s.run sec ops = some (es₁, s₁) ∧ s₁.run sec ops' = some (es₂, s') ∧ es = es₁ ++ es₂ := by
  induction ops generalizing s es with
  | nil => exact ⟨[], s, es, rfl, h, rfl⟩
  | cons cop ops ih =>
      obtain ⟨c₁, op⟩ := cop
      obtain ⟨es₁, s₁, es₂, hexec, hrun, rfl⟩ := run_cons h
      obtain ⟨es₃, s₃, es₄, hfirst, hlast, rfl⟩ := ih hrun
      refine ⟨es₁ ++ es₃, s₃, es₄, ?_, hlast, (List.append_assoc _ _ _).symm⟩
      rw [run, hexec, Option.bind_some, hfirst]
      rfl

/-- **Whoever holds a lock gives it back.** -/
theorem holder_releases {s₀ s₁ : Locks ι T L} {before ops : List (ι × LockOp κ L)} {es₁ : List (Done κ L)} {k : κ}
    {arg l : L} {irq : Option Bool} {rest : List (T k × L → T k × L)} (hstart : s₀.Start)
    (hbefore : s₀.run sec before = some (es₁, s)) (hin : (s.core c).running = .inside k arg l irq rest)
    (hcount : (ops.map Prod.fst).count c = rest.length)
    (hrun : s.run sec (ops ++ [(c, op)]) = some (es, s₁)) :
    s₁.lock k = ⟨false, (doSteps rest ((s.lock k).value, l)).1⟩ ∧
      (k, arg, (doSteps rest ((s.lock k).value, l)).2) ∈ es := by
  have hinv := hstart.inv.run hbefore
  obtain ⟨es₂, s₂, es₃, hfirst, hlast, rfl⟩ := run_append hrun
  obtain ⟨l', hin₂, hdone⟩ := stays_inside hinv hin hfirst (Nat.le_of_eq hcount)
  rw [hcount, List.drop_length] at hin₂ hdone
  obtain ⟨es₄, s₄, es₅, hexec, hnil, rfl⟩ := run_cons hlast
  obtain ⟨rfl, rfl⟩ := Prod.mk.inj (Option.some.inj hnil)
  obtain ⟨rfl, hfree⟩ := (exec_effect ((hinv.run hfirst).wf c) hexec).of_inside_nil hin₂
  rw [← hdone]
  exact ⟨hfree, by simp [doSteps]⟩

/-- CPU 0 has two steps left. -/
theorem holder_releases_count :
    ∃ es s es' s', countStart.run countSections countOps = some (es, s) ∧
      s.run countSections ([(0, .step), (1, .step), (0, .step), (1, .step)] ++ [(0, .step)]) = some (es', s') ∧
      s'.lock () = ⟨false, 1⟩ := by
  have hobs : (countStart.run countSections countOps).map (fun r => ((r.2.core 0).running, r.2.lock (),
        (r.2.run countSections ([(0, .step), (1, .step), (0, .step), (1, .step)] ++ [(0, .step)])).isSome)) =
      some (.inside () 0 0 (some true) (countSections () 0), ⟨true, 0⟩, true) := rfl
  obtain ⟨⟨es, s⟩, hrun, hs⟩ := Option.map_eq_some_iff.1 hobs
  simp only [Prod.mk.injEq] at hs
  obtain ⟨hin, hlock, hsome⟩ := hs
  obtain ⟨⟨es', s'⟩, hrun'⟩ := Option.isSome_iff_exists.1 hsome
  refine ⟨es, s, es', s', hrun, hrun', ?_⟩
  rw [(holder_releases countStart_start hrun hin rfl hrun').1, hlock]
  rfl

/-! ## The interrupt flag -/

theorem Effect.settled (h : Effect sec s c op es s') {f : Bool} (hop : ∀ b, op ≠ .setFlag b)
    (hs : (s.core c).Settled f) : (s'.core c).Settled f := by
  cases h with
  | quiet u h => simpa using h.settled f hop hs
  | acquire k arg irq hrun hfree =>
      have hset := hs.running
      rw [hrun] at hset
      simpa using ⟨hset, hs.interrupted⟩
  | work k arg l irq g rest hrun =>
      have hset := hs.running
      rw [hrun] at hset
      simpa using ⟨hset, hs.interrupted⟩
  | release k arg l irq hrun =>
      have hset := hs.running
      rw [hrun] at hset
      refine ⟨?_, by simpa using hs.interrupted⟩
      cases irq <;> simpa [Place.settled] using hset

theorem settled_run {ops : List (ι × LockOp κ L)} {f : Bool} (hinv : s.Inv) (hs : (s.core c).Settled f)
    (hrun : s.run sec ops = some (es, s')) (hops : ∀ b, (c, LockOp.setFlag b) ∉ ops) :
    (s'.core c).Settled f := by
  induction ops generalizing s es with
  | nil =>
      obtain ⟨-, rfl⟩ := Prod.mk.inj (Option.some.inj hrun)
      exact hs
  | cons cop ops ih =>
      obtain ⟨c₁, op⟩ := cop
      obtain ⟨es₁, s₁, es₂, hexec, hrun, -⟩ := run_cons hrun
      have heff := exec_effect (hinv.wf c₁) hexec
      refine ih (hinv.step hexec) ?_ hrun fun b hb => hops b (List.mem_cons_of_mem _ hb)
      by_cases hc : c₁ = c
      · subst hc
        exact heff.settled (fun b hb => hops b (hb ▸ List.mem_cons_self)) hs
      · rw [heff.core_of_ne (Ne.symm hc)]
        exact hs

/-- **Interrupts are on again exactly if they were on before.** -/
theorem flag_restored {s₀ : Locks ι T L} {ops : List (ι × LockOp κ L)} (hstart : s₀.Start)
    (hrun : s₀.run sec ops = some (es, s)) (hops : ∀ b, (c, LockOp.setFlag b) ∉ ops)
    (hout : (s.core c).running = .outside) :
    (s.core c).flag = (if (s.core c).interrupted = [] then (s₀.core c).flag else false) ∧
      (s.core c).interrupted.length ≤ 1 := by
  have hs₀ : (s₀.core c).Settled (s₀.core c).flag := by
    refine ⟨?_, fun h => absurd (hstart.outside c).2 h⟩
    rw [(hstart.outside c).1, (hstart.outside c).2, if_pos rfl]
    rfl
  have hs := settled_run hstart.inv hs₀ hrun hops
  have hflag := hs.running
  rw [hout] at hflag
  refine ⟨hflag, ?_⟩
  by_cases hnil : (s.core c).interrupted = []
  · rw [hnil]
    exact Nat.zero_le 1
  · exact Nat.le_of_eq (hs.interrupted hnil).2

/-- An interrupt between `pushfq` and `cli`, whose handler takes the lock as well. -/
theorem flag_restored_count :
    ∃ es s, countStart.run countSections [(0, .lockIrqsave () 0), (0, .interrupt), (0, .lockIrqsave () 0),
        (0, .step), (0, .step), (0, .step), (0, .step), (0, .step), (0, .step), (0, .iret), (0, .step), (0, .step),
        (0, .step), (0, .step), (0, .step), (0, .step)] = some (es, s) ∧ (s.core 0).flag = true := by
  have hobs : (countStart.run countSections [(0, .lockIrqsave () 0), (0, .interrupt), (0, .lockIrqsave () 0),
        (0, .step), (0, .step), (0, .step), (0, .step), (0, .step), (0, .step), (0, .iret), (0, .step), (0, .step),
        (0, .step), (0, .step), (0, .step), (0, .step)]).map
      (fun r => ((r.2.core 0).running, (r.2.core 0).interrupted)) = some (.outside, []) := rfl
  obtain ⟨⟨es, s⟩, hrun, hs⟩ := Option.map_eq_some_iff.1 hobs
  simp only [Prod.mk.injEq] at hs
  refine ⟨es, s, hrun, ?_⟩
  rw [(flag_restored countStart_start hrun (fun b hb => by simp at hb) hs.1).1, if_pos hs.2]
  rfl

end Locks

end Rolnix
