import Rolnix.Rights

/-!
# The translation cache

The CPU keeps translations it has walked, with the rights it found, until they are replaced, until the
page is invalidated or until CR3 is loaded. `unmap` invalidates the page when it succeeds; `map` and
calls that fail invalidate nothing. Entries that are not present are never cached.

**Theorem (`tlb_coherent`).** Whatever the CPU caches and drops between the calls, what it has cached is always
what the tables say now: the same address and the same rights.
-/

namespace Rolnix

open Radix Relation Machine

/-- The entry that ends the walk for a page, with its level, and the rights on the page. -/
abbrev Tlb := Nat → Option ((Nat × Nat) × Rights)

namespace Tlb

def empty : Tlb := fun _ => none

/-- `invlpg`, where `unmap` does it. -/
def unmap (tlb : Tlb) (va : Nat) : Except MapError Unit → Tlb
  | .ok _ => Function.update tlb (va / frameSize) none
  | .error _ => tlb

end Tlb

/-- One step of the machine or of the cache. -/
inductive TlbStep (root : Nat) : (Machine × AddrSpace) × Tlb → (Machine × AddrSpace) × Tlb → Prop
  | fill {s A tlb} (va : Nat) (w : Nat × Nat) (hva : va < 2 ^ 64) (hc : isCanonical va = true)
      (hwalk : lookup s.entries root (path va) = some w) :
      TlbStep root ((s, A), tlb) ((s, A), Function.update tlb (va / frameSize) (some (w, s.effective root va)))
  | evict {st tlb} (n : Nat) : TlbStep root (st, tlb) (st, Function.update tlb n none)
  /-- `cr3_write`. -/
  | flush {st tlb} : TlbStep root (st, tlb) (st, Tlb.empty)
  | map {s s' A tlb r} (va pa : Nat) (flags : Flags) (hva : va < 2 ^ 64)
      (hrun : s.map root va pa flags = some (r, s')) :
      TlbStep root ((s, A), tlb) ((s', A.map va pa flags r), tlb)
  | unmap {s s' A tlb r} (va : Nat) (hva : va < 2 ^ 64) (hrun : s.unmap root va = some (r, s')) :
      TlbStep root ((s, A), tlb) ((s', A.unmap va r), tlb.unmap va r)
  | other {s s' A tlb} (op : PmmOp) (hok : op.ClientOk s) (hspare : SparesTables root op s)
      (hrun : op.exec s = some s') : TlbStep root ((s, A), tlb) ((s', A), tlb)

variable {s s' s₀ : Machine} {root va pa : Nat} {flags : Flags} {A : AddrSpace} {W : Nat → Option Nat} {tlb : Tlb}

/-- What is cached is what the walk would find. -/
structure Tlb.Coherent (tlb : Tlb) (root : Nat) (W : Nat → Option Nat) (s : Machine) (A : AddrSpace) : Prop where
  holds : Holds root W s A
  cached : ∀ n w R, tlb n = some (w, R) → walkOf A W n = some w ∧ R = rightsOf w.2

theorem Machine.Holds.map_fresh (h : Holds root W s A) (hva : va < 2 ^ 64)
    (hrun : s.map root va pa flags = some (.ok (), s')) : walkOf A W (va / frameSize) = none := by
  by_cases hbad : ¬ isCanonical va = true ∨ (va % frameSize ≠ 0 ∨ pa % frameSize ≠ 0) ∨
    pa ≥ s.numFrames * frameSize
  · obtain ⟨e, he⟩ : ∃ e, s.map root va pa flags = some (.error e, s) := map_of_bad hbad
    cases hrun.symm.trans he
  · simp only [not_or, not_not, ge_iff_le, not_le, ne_eq] at hbad
    obtain ⟨hc, ⟨hal, hpa⟩, hlt⟩ := hbad
    obtain ⟨r', s₁, hrun', hm⟩ : ∃ r s', s.map root va pa flags = some (r, s') ∧ _ :=
      map_spec h.inv hc hal hpa hlt
    obtain ⟨rfl, rfl⟩ := Prod.mk.inj (Option.some.inj (hrun.symm.trans hrun'))
    rw [← h.pages va hva hc]
    exact (hm.ok rfl).1

namespace Tlb.Coherent

theorem map {r : Except MapError Unit} (h : tlb.Coherent root W s A) (hva : va < 2 ^ 64)
    (hrun : s.map root va pa flags = some (r, s')) : tlb.Coherent root W s' (A.map va pa flags r) := by
  refine ⟨(h.holds.map hva hrun).1, fun n w R hn => ?_⟩
  obtain ⟨hwalk, hR⟩ := h.cached n w R hn
  refine ⟨?_, hR⟩
  cases r with
  | error e => exact hwalk
  | ok u =>
      -- a page that is cached is mapped, so it is another one
      have hne : n ≠ va / frameSize := by
        rintro rfl
        rw [h.holds.map_fresh hva hrun] at hwalk
        cases hwalk
      rwa [AddrSpace.map, walkOf, Function.update_of_ne hne]

theorem unmap {r : Except MapError Unit} (h : tlb.Coherent root W s A) (hva : va < 2 ^ 64)
    (hrun : s.unmap root va = some (r, s')) : (tlb.unmap va r).Coherent root W s' (A.unmap va r) := by
  refine ⟨(h.holds.unmap hva hrun).1, fun n w R hn => ?_⟩
  cases r with
  | error e => exact h.cached n w R hn
  | ok u =>
      rw [Tlb.unmap] at hn
      by_cases hpage : n = va / frameSize
      · rw [hpage, Function.update_self] at hn
        cases hn
      · rw [Function.update_of_ne hpage] at hn
        obtain ⟨hwalk, hR⟩ := h.cached n w R hn
        refine ⟨?_, hR⟩
        rwa [AddrSpace.unmap, walkOf, Function.update_of_ne hpage]

theorem evict (h : tlb.Coherent root W s A) (n : Nat) : Tlb.Coherent (Function.update tlb n none) root W s A := by
  refine ⟨h.holds, fun m w R hm => ?_⟩
  by_cases hpage : m = n
  · rw [hpage, Function.update_self] at hm
    cases hm
  · rw [Function.update_of_ne hpage] at hm
    exact h.cached m w R hm

theorem fill {w : Nat × Nat} (h : tlb.Coherent root W s A) (hva : va < 2 ^ 64) (hc : isCanonical va = true)
    (hwalk : lookup s.entries root (path va) = some w) :
    Tlb.Coherent (Function.update tlb (va / frameSize) (some (w, s.effective root va))) root W s A := by
  refine ⟨h.holds, fun n w' R hn => ?_⟩
  by_cases hpage : n = va / frameSize
  · rw [hpage, Function.update_self] at hn
    obtain ⟨rfl, rfl⟩ := Prod.mk.inj (Option.some.inj hn)
    rw [hpage, ← h.holds.pages va hva hc]
    obtain ⟨k, e⟩ := w
    exact ⟨hwalk, h.holds.inv.effective_eq hwalk⟩
  · rw [Function.update_of_ne hpage] at hn
    exact h.cached n w' R hn

/-- **One step.** -/
theorem step {x x' : (Machine × AddrSpace) × Tlb} (h : x.2.Coherent root W x.1.1 x.1.2) (hstep : TlbStep root x x') :
    x'.2.Coherent root W x'.1.1 x'.1.2 := by
  cases hstep with
  | fill va w hva hc hwalk => exact h.fill hva hc hwalk
  | evict n => exact h.evict n
  | flush => exact ⟨h.holds, fun n w R hn => by cases hn⟩
  | map va pa flags hva hrun => exact h.map hva hrun
  | unmap va hva hrun => exact h.unmap hva hrun
  | other op hok hspare hrun =>
      obtain ⟨hinv, hboot, hE⟩ := h.holds.inv.other hok hspare hrun
      exact ⟨h.holds.congr hinv hboot fun p hp => Tree.lookup_eq hE (by omega), h.cached⟩

end Tlb.Coherent

/-- **The cache agrees with the tables.** -/
theorem tlb_coherent {w : Nat × Nat} {R : Rights} (hnew : NewSpace root s₀)
    (hrun : ReflTransGen (TlbStep root) ((s₀, AddrSpace.empty), Tlb.empty) ((s, A), tlb)) (hva : va < 2 ^ 64)
    (hc : isCanonical va = true) (hcached : tlb (va / frameSize) = some (w, R)) :
    s.translate root va = some (decodeWalk va w) ∧ s.effective root va = R := by
  obtain ⟨W, h₀⟩ := hnew.holds
  have hcoh : ∀ x, ReflTransGen (TlbStep root) ((s₀, AddrSpace.empty), Tlb.empty) x →
      x.2.Coherent root W x.1.1 x.1.2 := by
    intro x hrun
    induction hrun with
    | refl => exact ⟨h₀, fun n w R hn => by cases hn⟩
    | tail _ hstep ih => exact ih.step hstep
  have h := hcoh _ hrun
  obtain ⟨hwalk, rfl⟩ := h.cached _ _ _ hcached
  have hpage := (h.holds.pages va hva hc).trans hwalk
  refine ⟨?_, ?_⟩
  · rw [h.holds.translate_eq hva, if_pos hc, hwalk]
    rfl
  · obtain ⟨k, e⟩ := w
    exact h.holds.inv.effective_eq hpage

/-- A user page that the CPU has used, and an address in it. -/
theorem tlb_coherent_small :
    ∃ root s s', NewSpace root s ∧ s.map root 0x1000 0x100000 .user = some (.ok (), s') ∧
      s'.translate root 0x1234 = some (decodeWalk 0x1234 (4, pageEntry 0x100000 .user)) := by
  obtain ⟨root, s, s', hnew, -, -, hmap⟩ := pageBoot_maps
  obtain ⟨W, h₀⟩ := hnew.holds
  obtain ⟨h, -⟩ := h₀.map (by decide) hmap
  have hwalk : lookup s'.entries root (path 0x1000) = some (4, pageEntry 0x100000 .user) := by
    rw [h.pages 0x1000 (by decide) (by decide), walkOf, AddrSpace.map, Function.update_self]
  have hrun : ReflTransGen (TlbStep root) ((s, AddrSpace.empty), Tlb.empty) _ :=
    .tail (.single (.map 0x1000 0x100000 .user (by decide) hmap)) (.fill 0x1000 _ (by decide) (by decide) hwalk)
  have hcached := Function.update_self (0x1000 / frameSize)
    (some ((4, pageEntry 0x100000 .user), s'.effective root 0x1000)) Tlb.empty
  have hpage : 0x1234 / frameSize = 0x1000 / frameSize := by decide
  rw [← hpage] at hcached hrun
  have hcoh := tlb_coherent hnew hrun (by decide) (by decide) hcached
  exact ⟨root, s, s', hnew, hmap, hcoh.1⟩

end Rolnix
