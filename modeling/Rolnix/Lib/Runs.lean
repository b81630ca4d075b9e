import Mathlib.Logic.Relation
import Mathlib.Tactic.SplitIfs

/-!
# Runs of a guarded transition function

A system is a function `exec` that performs an operation, or fails, and a guard `allowed` that says
which operations may be tried. `Step` forgets the operation. `run` performs a list of operations,
so that a concrete run can be computed and then read as a sequence of steps (`steps_of_run`), with
the states it goes through (`after`, `step_after`); `invariant` is the induction over runs.

A machine that never fails but reports something at each step has a `trace`. Two such machines whose
steps report the same have the same traces (`trace_sim`). A machine that may stop has executions
(`Exec`); once one of them has stopped, the others are its prefixes (`rest_of_stop`).
-/

namespace Runs

open Relation

variable {σ ι : Type*} (allowed : σ → ι → Prop) (exec : σ → ι → Option σ)

/-- One allowed operation that does not fail. -/
def Step (s s' : σ) : Prop := ∃ op, allowed s op ∧ exec s op = some s'

/-- Perform operations one after the other; `none` if one is not allowed or fails. -/
def run [∀ s, DecidablePred (allowed s)] : List ι → σ → Option σ
  | [], s => some s
  | op :: ops, s => if allowed s op then (exec s op).bind (run ops) else none

/-- The state after the first `l` operations. -/
def after [∀ s, DecidablePred (allowed s)] (ops : List ι) (s : σ) (l : Nat) : σ :=
  (run allowed exec (ops.take l) s).getD s

variable {allowed exec}

theorem run_append [∀ s, DecidablePred (allowed s)] (ops ops' : List ι) (s : σ) :
    run allowed exec (ops ++ ops') s = (run allowed exec ops s).bind (run allowed exec ops') := by
  induction ops generalizing s with
  | nil => rfl
  | cons op ops ih =>
      simp only [List.cons_append, run]
      split_ifs
      · rw [Option.bind_assoc]
        congr 1
        funext s₁
        exact ih s₁
      · rfl

/-- **A run that was computed, step by step.** -/
theorem step_after [∀ s, DecidablePred (allowed s)] {ops : List ι} {s s' : σ} {l : Nat}
    (h : run allowed exec ops s = some s') (hl : l < ops.length) :
    Step allowed exec (after allowed exec ops s l) (after allowed exec ops s (l + 1)) := by
  rw [← List.take_append_drop l ops, run_append] at h
  obtain ⟨s₁, hfirst, hrest⟩ := Option.bind_eq_some_iff.1 h
  rw [List.drop_eq_getElem_cons hl, run] at hrest
  split_ifs at hrest with hok
  obtain ⟨s₂, hexec, -⟩ := Option.bind_eq_some_iff.1 hrest
  have hnext : run allowed exec (ops.take (l + 1)) s = some s₂ := by
    rw [List.take_succ_eq_append_getElem hl, run_append, hfirst, Option.bind_some, run, if_pos hok,
      hexec]
    rfl
  rw [after, after, hfirst, hnext]
  exact ⟨_, hok, hexec⟩

theorem steps_of_run [∀ s, DecidablePred (allowed s)] {ops : List ι} {s s' : σ}
    (h : run allowed exec ops s = some s') : ReflTransGen (Step allowed exec) s s' := by
  induction ops generalizing s with
  | nil => exact Option.some.inj h ▸ ReflTransGen.refl
  | cons op ops ih =>
      rw [run] at h
      split_ifs at h with hok
      obtain ⟨s₁, hexec, hrest⟩ := Option.bind_eq_some_iff.1 h
      exact ReflTransGen.head ⟨op, hok, hexec⟩ (ih hrest)

/-- **What every step keeps, every run keeps.** -/
theorem invariant {P : σ → Prop} {s s' : σ}
    (hstep : ∀ s op s', P s → allowed s op → exec s op = some s' → P s') (h : P s)
    (hrun : ReflTransGen (Step allowed exec) s s') : P s' := by
  induction hrun with
  | refl => exact h
  | tail _ hlast ih =>
      obtain ⟨op, hok, hexec⟩ := hlast
      exact hstep _ op _ ih hok hexec

/-! ## Traces -/

section Trace

variable {τ ε ε' : Type*} {exec : σ → ι → ε × σ} {exec' : τ → ι → ε' × τ}

/-- Perform operations one after the other, with what each of them reports. -/
def trace (exec : σ → ι → ε × σ) : List ι → σ → List ε × σ
  | [], s => ([], s)
  | op :: ops, s =>
      let rest := trace exec ops (exec s op).2
      ((exec s op).1 :: rest.1, rest.2)

/-- **Simulation.** -/
theorem trace_sim {R : σ → τ → Prop} {f : ε' → ε}
    (hstep : ∀ s t op, R s t → (exec s op).1 = f (exec' t op).1 ∧ R (exec s op).2 (exec' t op).2)
    {s : σ} {t : τ} (h : R s t) (ops : List ι) :
    (trace exec ops s).1 = (trace exec' ops t).1.map f ∧
      R (trace exec ops s).2 (trace exec' ops t).2 := by
  induction ops generalizing s t with
  | nil => exact ⟨rfl, h⟩
  | cons op ops ih =>
      obtain ⟨hevent, hnext⟩ := hstep s t op h
      obtain ⟨hevents, hlast⟩ := ih hnext
      refine ⟨?_, hlast⟩
      rw [trace, trace, List.map_cons, hevent, hevents]

end Trace

/-! ## Machines that stop -/

section Exec

variable {ε : Type*} {step : σ → Option (σ × List ε)} {s s' s₁ : σ} {es es' : List ε}

/-- Some number of steps, and what they report. -/
inductive Exec (step : σ → Option (σ × List ε)) : σ → List ε → σ → Prop
  | refl (s : σ) : Exec step s [] s
  | head {s s₁ s' : σ} {es es' : List ε} (hstep : step s = some (s₁, es))
      (hrest : Exec step s₁ es' s') : Exec step s (es ++ es') s'

theorem Exec.single (h : step s = some (s', es)) : Exec step s es s' := by
  have := Exec.head h (.refl s')
  rwa [List.append_nil] at this

theorem Exec.trans (h : Exec step s es s₁) (h' : Exec step s₁ es' s') : Exec step s (es ++ es') s' := by
  induction h with
  | refl s => exact h'
  | head hstep _ ih =>
      rw [List.append_assoc]
      exact .head hstep (ih h')

theorem Exec.quiet (h : Exec step s [] s₁) (h' : Exec step s₁ es s') : Exec step s es s' :=
  h.trans h'

/-- **A machine that stops has one run,** and every other is a part of it. -/
theorem Exec.rest_of_stop (h : Exec step s es s') (hstop : step s' = none)
    (h₁ : Exec step s es' s₁) : ∃ rest, es = es' ++ rest ∧ Exec step s₁ rest s' := by
  induction h₁ generalizing es with
  | refl s => exact ⟨es, rfl, h⟩
  | head hstep _ ih =>
      cases h with
      | refl => rw [hstop] at hstep; cases hstep
      | head hstep' hrest' =>
          rw [hstep] at hstep'
          obtain ⟨rfl, rfl⟩ := Prod.mk.inj (Option.some.inj hstep')
          obtain ⟨rest, rfl, hexec⟩ := ih hrest'
          exact ⟨rest, (List.append_assoc _ _ _).symm, hexec⟩

end Exec

end Runs
