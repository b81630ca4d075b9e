import Rolnix.VmmInit
import Rolnix.Generations

/-!
# Runs of an address space

What an address space is for: a partial function from virtual pages to physical pages with their
flags, an `AddrSpace`, which successful calls of `map` and `unmap` change at one page. A run starts
from a table that `new` or `new_kernel` returned and makes any calls with any arguments, while the
rest of the kernel allocates, releases, pins and writes frames, as long as it keeps off the tables.

`Holds` relates the two levels: the tables hold the address space `A`, on top of the windows `W` of
the kernel. `Holds.step` is the simulation, one case per call. From it follow, for whole runs:

* `pageTable_refines`: the results of `map`, `unmap` and `translate` are those of the partial
  function.
-/

namespace Rolnix

open Radix Relation

/-! ## The abstract address space -/

/-- A partial function from virtual pages to physical addresses and flags. -/
abbrev AddrSpace := Nat → Option (Nat × Flags)

namespace AddrSpace

def empty : AddrSpace := fun _ => none

/-- The address space after a call of `map` that returned `r`. -/
def map (A : AddrSpace) (va pa : Nat) (flags : Flags) (r : Except MapError Unit) : AddrSpace :=
  match r with
  | .ok _ => Function.update A (va / frameSize) (some (pa, flags))
  | .error _ => A

/-- The address space after a call of `unmap` that returned `r`. -/
def unmap (A : AddrSpace) (va : Nat) (r : Except MapError Unit) : AddrSpace :=
  match r with
  | .ok _ => Function.update A (va / frameSize) none
  | .error _ => A

end AddrSpace

namespace Machine

/-! ## Steps -/

/-- The rest of the kernel neither releases a table nor writes into one. -/
def SparesTables (root : Nat) : PmmOp → Machine → Prop
  | .release f, s => ¬ InTree s.entries root f
  | .write a _, s => ¬ InTree s.entries root (a / frameSize)
  | _, _ => True

/-- One step of the machine with the table at `root`, and what it does to the address space. -/
inductive VmStep (root : Nat) : Machine × AddrSpace → Machine × AddrSpace → Prop
  | map {s s' A r} (va pa : Nat) (flags : Flags) (hva : va < 2 ^ 64)
      (hrun : s.map root va pa flags = some (r, s')) :
      VmStep root (s, A) (s', A.map va pa flags r)
  | unmap {s s' A r} (va : Nat) (hva : va < 2 ^ 64) (hrun : s.unmap root va = some (r, s')) :
      VmStep root (s, A) (s', A.unmap va r)
  | other {s s' A} (op : PmmOp) (hok : op.ClientOk s) (hspare : SparesTables root op s)
      (hrun : op.exec s = some s') : VmStep root (s, A) (s', A)

/-- `new` or `new_kernel` just returned the table at `root`. -/
def NewSpace (root : Nat) (s : Machine) : Prop :=
  ∃ s₀, Booted s₀ ∧ (s₀.newTable = some (some root, s) ∨
    ∃ ramEnd, s₀.newKernel ramEnd = some (some root, s))

variable {s s' s₀ : Machine} {root va pa : Nat} {flags : Flags} {A A' : AddrSpace}
  {W : Nat → Option Nat}

/-! ## Steps of the rest of the kernel -/

theorem Grows.settled (h : Grows s s') (hs : s.AllSettled) : s'.AllSettled := by
  intro f
  rcases h.frames f with he | ⟨-, he⟩
  · rw [he]
    exact hs f
  · rw [he]
    exact settled_of_owner (by simp [FrameInfo.ownerTag, FrameOwner.kernel])
      (by simp [FrameInfo.ownerTag, FrameOwner.kernel])

theorem VmInv.setInfo {f : Nat} {info : FrameInfo} (h : VmInv s root)
    (hnot : ¬ InTree s.entries root f) (hcoh : (s.setInfo f info).IsCoherent) :
    VmInv (s.setInfo f info) root := by
  refine h.congr hcoh rfl (fun t _ => rfl) fun t ht => ?_
  have hne : t ≠ f := by
    rintro rfl
    exact hnot ht
  rw [setInfo_frames, Function.update_of_ne hne]
  exact (h.isTable ht).2

/-- **What the rest of the kernel does leaves the tables alone.** -/
theorem VmInv.other (h : VmInv s root) {op : PmmOp} (hok : op.ClientOk s)
    (hspare : SparesTables root op s) (hrun : op.exec s = some s') :
    VmInv s' root ∧ SameBoot s s' ∧ ∀ t, InTree s.entries root t → s'.entries t = s.entries t := by
  have hcoh : s'.IsCoherent := by
    obtain ⟨L, G, hL⟩ := h.coherent
    exact hL.step ⟨op, hok, hrun⟩
  suffices hkeep : VmInv s' root ∧ ∀ t, InTree s.entries root t → s'.entries t = s.entries t from
    ⟨hkeep.1, exec_boot hrun, hkeep.2⟩
  cases exec_effect hrun with
  | alloc halloc =>
      obtain ⟨L, G, hL⟩ := h.coherent
      obtain ⟨r, s₁, L', G', halloc', -, -, ha, -⟩ := allocFrame_spec hL
      obtain ⟨-, rfl⟩ := Prod.mk.inj (Option.some.inj (halloc.symm.trans halloc'))
      obtain ⟨hinv, -, hE⟩ := h.alloc hcoh ha
      exact ⟨hinv, hE⟩
  | deferred =>
      unfold deferred at hcoh ⊢
      split_ifs at hcoh ⊢
      · exact ⟨h, fun _ _ => rfl⟩
      · exact ⟨h.setInfo hspare hcoh, fun _ _ => rfl⟩
  | freed hf _ hfree => exact h.freed hf hspare fun ho => hfree (congrArg FrameOwner.tag ho)
  | pin | addMapping => exact ⟨h.counters rfl, fun _ _ => rfl⟩
  | unpin hf | removeMapping hf => exact h.dropRef hf rfl
  | exhausted => exact ⟨h, fun _ _ => rfl⟩
  | retyped howner =>
      refine ⟨h.setInfo (fun hin => ?_) hcoh, fun _ _ => rfl⟩
      rw [(h.isTable hin).2] at howner
      exact absurd howner (by simp [FrameOwner.kernel, FrameOwner.untyped])
  | @write a c =>
      have hE : ∀ t, InTree s.entries root t →
          ({ s with mem := s.mem.poke a c } : Machine).entries t = s.entries t := by
        intro t ht
        refine entries_congr fun b hb => ByteMem.poke_of_ne ?_
        rintro rfl
        exact hspare (hb ▸ ht)
      exact ⟨h.congr hcoh rfl hE fun t ht => (h.isTable ht).2, hE⟩

/-! ## Reserved frames -/

/-- What boot has reserved stays reserved. -/
def KeepsReserved (s s' : Machine) : Prop :=
  ∀ f, (s.frames f).ownerTag = .reserved → (s'.frames f).ownerTag = .reserved

theorem KeepsReserved.refl : KeepsReserved s s := fun _ hf => hf

theorem KeepsReserved.trans {s'' : Machine} (h : KeepsReserved s s') (h' : KeepsReserved s' s'') :
    KeepsReserved s s'' :=
  fun f hf => h' f (h f hf)

theorem keepsReserved_of_update {page : Nat} {info : FrameInfo}
    (hframes : s'.frames = Function.update s.frames page info)
    (hinfo : (s.frames page).ownerTag = .reserved → info.ownerTag = .reserved) :
    KeepsReserved s s' := by
  intro f hf
  rw [hframes]
  by_cases hpage : f = page
  · subst hpage
    rw [Function.update_self]
    exact hinfo hf
  · rw [Function.update_of_ne hpage]
    exact hf

theorem Grows.keepsReserved (h : Grows s s') : KeepsReserved s s' := by
  intro f hf
  rcases h.frames f with he | ⟨hfree, -⟩
  · rw [he]
    exact hf
  · rw [FrameInfo.ownerTag, hfree] at hf
    cases hf

theorem keepsReserved_of_pmmStep (h : PmmStep s s') : KeepsReserved s s' :=
  fun f hf => (h.aged f).reserved hf

theorem keepsReserved_of_map {r : Except MapError Unit} (h : VmInv s root)
    (hrun : s.map root va pa flags = some (r, s')) : KeepsReserved s s' := by
  by_cases hbad : ¬ isCanonical va = true ∨ (va % frameSize ≠ 0 ∨ pa % frameSize ≠ 0) ∨
      pa ≥ s.numFrames * frameSize
  · obtain ⟨e, he⟩ : ∃ e, s.map root va pa flags = some (.error e, s) := map_of_bad hbad
    obtain ⟨-, rfl⟩ := Prod.mk.inj (Option.some.inj (hrun.symm.trans he))
    exact .refl
  simp only [not_or, not_not, ne_eq, not_le] at hbad
  obtain ⟨hc, ⟨hva, hpa⟩, hlt⟩ := hbad
  obtain ⟨r', s₁, hrun', hm⟩ : ∃ r s', s.map root va pa flags = some (r, s') ∧ _ :=
    map_spec h hc hva hpa hlt
  obtain ⟨rfl, rfl⟩ := Prod.mk.inj (Option.some.inj (hrun.symm.trans hrun'))
  cases r with
  | error e => exact (hm.error e rfl).2.2.keepsReserved
  | ok u =>
      obtain ⟨-, -, -, s₂, hgrows, hframes⟩ := hm.ok rfl
      exact hgrows.keepsReserved.trans (keepsReserved_of_update hframes fun hres => hres)

theorem keepsReserved_of_unmap {r : Except MapError Unit} (h : VmInv s root)
    (hrun : s.unmap root va = some (r, s')) : KeepsReserved s s' := by
  by_cases hbad : ¬ isCanonical va = true ∨ va % frameSize ≠ 0
  · obtain ⟨e, he⟩ : ∃ e, s.unmap root va = some (.error e, s) := unmap_of_bad hbad
    obtain ⟨-, rfl⟩ := Prod.mk.inj (Option.some.inj (hrun.symm.trans he))
    exact .refl
  simp only [not_or, not_not, ne_eq] at hbad
  obtain ⟨r', s₁, hrun', hu⟩ := unmap_spec h hbad.1 hbad.2
  obtain ⟨rfl, rfl⟩ := Prod.mk.inj (Option.some.inj (hrun.symm.trans hrun'))
  cases r with
  | error e =>
      obtain ⟨rfl, -⟩ := hu.error e rfl
      exact .refl
  | ok u =>
      obtain ⟨e, -, -, hframes⟩ := hu.ok rfl
      -- the page's frame may go back to the pool, but only from `pendingFree`
      refine keepsReserved_of_update hframes fun hres => ?_
      unfold drained
      rw [if_neg]
      · exact hres
      · rintro ⟨hpend, -⟩
        cases hres.symm.trans hpend

theorem VmStep.keepsReserved {st st' : Machine × AddrSpace} (h : VmInv st.1 root)
    (hstep : VmStep root st st') : KeepsReserved st.1 st'.1 := by
  cases hstep with
  | map va pa flags hva hrun => exact keepsReserved_of_map h hrun
  | unmap va hva hrun => exact keepsReserved_of_unmap h hrun
  | other op hok hspare hrun => exact keepsReserved_of_pmmStep ⟨op, hok, hrun⟩

/-! ## The simulation -/

/-- What the hardware finds at page `n` of an address space over the windows `W`. -/
def walkOf (A : AddrSpace) (W : Nat → Option Nat) (n : Nat) : Option (Nat × Nat) :=
  match A n with
  | some (pa, flags) => some (4, pageEntry pa flags)
  | none => (W n).map fun base => (3, largeEntry base)

/-- The tables hold the address space `A` over the windows `W`. -/
structure Holds (root : Nat) (W : Nat → Option Nat) (s : Machine) (A : AddrSpace) : Prop where
  inv : VmInv s root
  pages : ∀ va < 2 ^ 64, isCanonical va = true →
    lookup s.entries root (path va) = walkOf A W (va / frameSize)
  ram : ∀ n pa flags, A n = some (pa, flags) → pa % frameSize = 0 ∧ pa < s.numFrames * frameSize
  /-- No page is set inside a window. -/
  apart : ∀ n, A n ≠ none → W n = none
  window : ∀ n base, W n = some base → base % largePage = 0 ∧ base < 2 ^ 63

theorem walkOf_eq_none {n : Nat} : walkOf A W n = none ↔ A n = none ∧ W n = none := by
  unfold walkOf
  cases hA : A n with
  | none => simp
  | some p => simp

theorem Holds.update (h : Holds root W s A) (hva : va < 2 ^ 64) (hc : isCanonical va = true)
    (hW : W (va / frameSize) = none) {o : Option (Nat × Flags)} {e : Option (Nat × Nat)}
    (he : e = o.map fun x => (4, pageEntry x.1 x.2)) (hinv : VmInv s' root) (hboot : SameBoot s s')
    (hpages : ∀ p, p.length = 4 → lookup s'.entries root p =
      if p = path va then e else lookup s.entries root p)
    (hram : ∀ pa flags, o = some (pa, flags) → pa % frameSize = 0 ∧ pa < s.numFrames * frameSize) :
    Holds root W s' (Function.update A (va / frameSize) o) := by
  refine ⟨hinv, fun w hw hcw => ?_, fun n pa flags hn => ?_, fun n hn => ?_, h.window⟩
  · rw [hpages (path w) rfl]
    by_cases hpage : w / frameSize = va / frameSize
    · rw [if_pos ((path_eq_iff hw hva hcw hc).2 hpage), hpage, walkOf, Function.update_self, he, hW]
      cases o with
      | none => rfl
      | some x => rfl
    · rw [if_neg fun hp => hpage ((path_eq_iff hw hva hcw hc).1 hp), h.pages w hw hcw, walkOf, walkOf,
        Function.update_of_ne hpage]
  · rw [hboot.numFrames]
    by_cases hpage : n = va / frameSize
    · subst hpage
      rw [Function.update_self] at hn
      exact hram pa flags hn
    · rw [Function.update_of_ne hpage] at hn
      exact h.ram n pa flags hn
  · by_cases hpage : n = va / frameSize
    · rw [hpage]
      exact hW
    · rw [Function.update_of_ne hpage] at hn
      exact h.apart n hn

theorem Holds.congr (h : Holds root W s A) (hinv : VmInv s' root) (hboot : SameBoot s s')
    (hpages : ∀ p, p.length = 4 → lookup s'.entries root p = lookup s.entries root p) :
    Holds root W s' A := by
  refine ⟨hinv, fun w hw hcw => ?_, fun n pa flags hn => ?_, h.apart, h.window⟩
  · rw [hpages _ rfl, h.pages w hw hcw]
  · rw [hboot.numFrames]
    exact h.ram n pa flags hn

theorem Holds.map {r : Except MapError Unit} (h : Holds root W s A) (hva : va < 2 ^ 64)
    (hrun : s.map root va pa flags = some (r, s')) :
    Holds root W s' (A.map va pa flags r) ∧ SameBoot s s' := by
  by_cases hbad : ¬ isCanonical va = true ∨ (va % frameSize ≠ 0 ∨ pa % frameSize ≠ 0) ∨
    pa ≥ s.numFrames * frameSize
  · -- nothing happens
    obtain ⟨e, he⟩ : ∃ e, s.map root va pa flags = some (.error e, s) := map_of_bad hbad
    obtain ⟨rfl, rfl⟩ := Prod.mk.inj (Option.some.inj (hrun.symm.trans he))
    exact ⟨h, SameBoot.refl _⟩
  · simp only [not_or, not_not, ge_iff_le, not_le, ne_eq] at hbad
    obtain ⟨hc, ⟨hal, hpa⟩, hlt⟩ := hbad
    obtain ⟨r', s₁, hrun', hm⟩ : ∃ r s', s.map root va pa flags = some (r, s') ∧ _ :=
      map_spec h.inv hc hal hpa hlt
    obtain ⟨rfl, rfl⟩ := Prod.mk.inj (Option.some.inj (hrun.symm.trans hrun'))
    refine ⟨?_, hm.boot⟩
    cases r with
    | ok u =>
        obtain ⟨hnone, hpages, -⟩ := hm.ok rfl
        rw [h.pages va hva hc, walkOf_eq_none] at hnone
        refine h.update hva hc hnone.2 (o := some (pa, flags)) rfl hm.inv hm.boot hpages ?_
        rintro _ _ ⟨rfl, rfl⟩
        exact ⟨hpa, hlt⟩
    | error e => exact h.congr hm.inv hm.boot (hm.error e rfl).2.1

theorem Holds.unmap {r : Except MapError Unit} (h : Holds root W s A) (hva : va < 2 ^ 64)
    (hrun : s.unmap root va = some (r, s')) :
    Holds root W s' (A.unmap va r) ∧ SameBoot s s' := by
  by_cases hbad : ¬ isCanonical va = true ∨ va % frameSize ≠ 0
  · obtain ⟨e, he⟩ : ∃ e, s.unmap root va = some (.error e, s) := unmap_of_bad hbad
    obtain ⟨rfl, rfl⟩ := Prod.mk.inj (Option.some.inj (hrun.symm.trans he))
    exact ⟨h, SameBoot.refl _⟩
  · simp only [not_or, not_not, ne_eq] at hbad
    obtain ⟨hc, hal⟩ := hbad
    obtain ⟨r', s₁, hrun', hu⟩ := unmap_spec h.inv hc hal
    obtain ⟨rfl, rfl⟩ := Prod.mk.inj (Option.some.inj (hrun.symm.trans hrun'))
    refine ⟨?_, hu.boot⟩
    cases r with
    | ok u =>
        obtain ⟨e, hsome, hpages, -⟩ := hu.ok rfl
        -- a page that took four entries is no part of a window
        have hA : A (va / frameSize) ≠ none := by
          intro hA
          rw [h.pages va hva hc, walkOf, hA] at hsome
          cases hW : W (va / frameSize) with
          | none => simp [hW] at hsome
          | some base => simp [hW] at hsome
        exact h.update hva hc (h.apart _ hA) (o := none) rfl hu.inv hu.boot hpages (by simp)
    | error e =>
        obtain ⟨rfl, -⟩ := hu.error e rfl
        exact h

/-- **The step lemma**: the tables follow the partial function. -/
theorem Holds.step {st st' : Machine × AddrSpace} (h : Holds root W st.1 st.2)
    (hstep : VmStep root st st') : Holds root W st'.1 st'.2 ∧ SameBoot st.1 st'.1 := by
  cases hstep with
  | map va pa flags hva hrun => exact h.map hva hrun
  | unmap va hva hrun => exact h.unmap hva hrun
  | other op hok hspare hrun =>
      obtain ⟨hinv, hboot, hE⟩ := h.inv.other hok hspare hrun
      exact ⟨h.congr hinv hboot fun p hp => Tree.lookup_eq hE (by omega), hboot⟩

/-- **The run lemma.** -/
theorem Holds.run (h : Holds root W s A) (hrun : ReflTransGen (VmStep root) (s, A) (s', A')) :
    Holds root W s' A' ∧ SameBoot s s' := by
  have hall : ∀ st', ReflTransGen (VmStep root) (s, A) st' →
      Holds root W st'.1 st'.2 ∧ SameBoot s st'.1 := by
    intro st' hrun
    induction hrun with
    | refl => exact ⟨h, SameBoot.refl s⟩
    | tail _ hstep ih =>
        obtain ⟨hnext, hboot⟩ := ih.1.step hstep
        exact ⟨hnext, ih.2.trans hboot⟩
  exact hall (s', A') hrun

/-! ## Where runs start -/

/-- A page after a window was mapped: as before, or part of the window. -/
theorem Window.page_cases {m : Nat} {p : List Nat} (h : Window root va pa m s s')
    (hp : p.length = 4) :
    lookup s'.entries root p = lookup s.entries root p ∨
      ∃ j < m, lookup s'.entries root p = some (3, largeEntry (pa + j * largePage)) := by
  by_cases hin : ∃ j < m, upper (va + j * largePage) <+: p
  · obtain ⟨j, hj, hpre⟩ := hin
    exact Or.inr ⟨j, hj, h.inside j hj p hp hpre⟩
  · refine Or.inl (h.outside p hp fun j hj hpre => hin ⟨j, hj, hpre⟩)

theorem NewSpace.holds (h : NewSpace root s) : ∃ W, Holds root W s AddrSpace.empty := by
  obtain ⟨s₀, hboot, hnew | ⟨ramEnd, hnew⟩⟩ := h
  · obtain ⟨r, s₁, hrun, -, hroot⟩ := newTable_spec hboot.coherent
    obtain ⟨rfl, rfl⟩ := Prod.mk.inj (Option.some.inj (hnew.symm.trans hrun))
    obtain ⟨hinv, hnone⟩ := hroot root rfl
    refine ⟨fun _ => none, hinv, fun va _ _ => hnone _ (by simp [path]), ?_, ?_, ?_⟩ <;>
      simp [AddrSpace.empty]
  · obtain ⟨hinv, -, hshort, s₁, s₂, hnone, hwin₁, hwin₂⟩ := newKernel_spec hboot.coherent hnew
    generalize Word.alignUp 64 ramEnd largePage = bytes at hshort hwin₁ hwin₂
    have hlarge : ∀ j m, j < m → m ≤ bytes / largePage →
        (0 + j * largePage) % largePage = 0 ∧ 0 + j * largePage < 2 ^ 63 := by
      intro j m hj hm
      have hle : j * largePage ≤ bytes / largePage * largePage :=
        Nat.mul_le_mul_right _ (by omega)
      have hdiv := Nat.div_mul_le_self bytes largePage
      refine ⟨by simp, by omega⟩
    have hpage : ∀ n, ∃ o : Option Nat, lookup s.entries root (path (n * frameSize)) =
        o.map (fun base => (3, largeEntry base)) ∧
        ∀ base, o = some base → base % largePage = 0 ∧ base < 2 ^ 63 := by
      intro n
      rcases hwin₂.page_cases (length_path (n * frameSize)) with h₂ | ⟨j, hj, h₂⟩
      · rcases hwin₁.page_cases (length_path (n * frameSize)) with h₁ | ⟨j, hj, h₁⟩
        · exact ⟨none, by rw [h₂, h₁, hnone _ (by simp [path])]; rfl, by simp⟩
        · refine ⟨some (0 + j * largePage), by rw [h₂, h₁]; rfl, ?_⟩
          rintro _ ⟨rfl⟩
          exact hlarge j _ hj le_rfl
      · refine ⟨some (0 + j * largePage), by rw [h₂]; rfl, ?_⟩
        rintro _ ⟨rfl⟩
        refine hlarge j _ hj ?_
        split_ifs
        · exact le_rfl
        · exact Nat.zero_le _
    choose W hW hbase using hpage
    refine ⟨W, hinv, fun va hva hc => ?_, by simp [AddrSpace.empty], by simp [AddrSpace.empty], hbase⟩
    rw [← path_page va, hW]
    rfl

/-! ## The tables behave as the partial function -/

/-- The walk for `va` ends at a 4 KiB page. -/
def SmallPage (s : Machine) (root va : Nat) : Prop :=
  ∃ e, lookup s.entries root (path va) = some (4, e)

/-- The walk for `va` ends at a huge page. -/
def HugePage (s : Machine) (root va : Nat) : Prop :=
  ∃ e, lookup s.entries root (path va) = some (3, e)

/-- The address of a small page, as far as the mask reaches. -/
theorem decodeWalk_page_mod (hpa : pa % frameSize = 0) :
    decodeWalk va (4, pageEntry pa flags) = pa % 2 ^ 36 + va % frameSize := by
  have ho : va % frameSize < 2 ^ 12 := Nat.mod_lt _ (by decide)
  rw [decodeWalk, if_neg (show (4 : Nat) ≠ 3 by decide), pageEntry_and_mask hpa,
    Word.add_of_lt (by omega)]

theorem decodeWalk_page (hpa : pa % frameSize = 0) (hlt : pa < 2 ^ 36) :
    decodeWalk va (4, pageEntry pa flags) = pa + va % frameSize := by
  rw [decodeWalk_page_mod hpa, Nat.mod_eq_of_lt hlt]

namespace Holds

theorem translate_eq (h : Holds root W s A) (hva : va < 2 ^ 64) :
    s.translate root va = if isCanonical va = true
      then (walkOf A W (va / frameSize)).map (decodeWalk va) else none := by
  rw [h.inv.translate_eq]
  split_ifs with hc
  · rw [h.pages va hva hc]
  · rfl

theorem translate_page (h : Holds root W s A) (hram : s.numFrames ≤ 2 ^ 24) (hva : va < 2 ^ 64)
    (hc : isCanonical va = true) (hA : A (va / frameSize) = some (pa, flags)) :
    s.translate root va = some (pa + va % frameSize) := by
  obtain ⟨hpa, hlt⟩ := h.ram _ _ _ hA
  have hlt' : pa < 2 ^ 36 := by
    simp only [frameSize] at hlt
    omega
  rw [h.translate_eq hva, if_pos hc, walkOf, hA]
  exact congrArg some (decodeWalk_page hpa hlt')

theorem translate_congr (h : Holds root W s A) (h' : Holds root W s' A') (hva : va < 2 ^ 64)
    (hA : A' (va / frameSize) = A (va / frameSize)) :
    s'.translate root va = s.translate root va := by
  rw [h.translate_eq hva, h'.translate_eq hva, walkOf, walkOf, hA]

theorem map_result (h : Holds root W s A) (hram : s.numFrames ≤ 2 ^ 24) (hva : va < 2 ^ 64)
    (hc : isCanonical va = true) (hal : va % frameSize = 0) (hpa : pa % frameSize = 0)
    (hlt : pa < s.numFrames * frameSize) :
    ∃ r s', s.map root va pa flags = some (r, s') ∧
      (r = .error .conflict ↔ (s.translate root va).isSome = true) ∧
      (r ≠ .error .conflict → r = .error .allocFailed ∨ r = .ok ()) ∧
      (r = .ok () → ∀ o < frameSize, s'.translate root (va + o) = some (pa + o)) := by
  obtain ⟨r, s', hrun, hm⟩ : ∃ r s', s.map root va pa flags = some (r, s') ∧ _ :=
    map_spec h.inv hc hal hpa hlt
  obtain ⟨h', hboot⟩ := h.map hva hrun
  have hsome : (s.translate root va).isSome = (lookup s.entries root (path va)).isSome := by
    rw [h.inv.translate_eq, if_pos hc, Option.isSome_map]
  refine ⟨r, s', hrun, ?_⟩
  rw [hsome]
  cases r with
  | ok u =>
      obtain ⟨hnone, -⟩ := hm.ok rfl
      refine ⟨by simp [hnone], fun _ => Or.inr rfl, fun _ o ho => ?_⟩
      obtain ⟨hlt', hc', hdiv, hmod⟩ := page_offset hva hal ho
      have hA : (A.map va pa flags (.ok u)) ((va + o) / frameSize) = some (pa, flags) := by
        rw [hdiv]
        exact Function.update_self _ _ _
      rw [h'.translate_page (by rw [hboot.numFrames]; exact hram) hlt' (hc'.trans hc) hA, hmod]
  | error e =>
      obtain ⟨⟨rfl, hfull⟩ | ⟨rfl, hnone⟩, -⟩ := hm.error e rfl
      · exact ⟨by simp [hfull], by simp, by simp⟩
      · exact ⟨by simp [hnone], by simp, by simp⟩

theorem unmap_result (h : Holds root W s A) (hva : va < 2 ^ 64) (hc : isCanonical va = true)
    (hal : va % frameSize = 0) :
    ∃ r s', s.unmap root va = some (r, s') ∧
      (r = .ok () ↔ s.SmallPage root va) ∧
      (r = .ok () → ∀ o < frameSize, s'.translate root (va + o) = none) ∧
      (r = .error .conflict ↔ s.HugePage root va) ∧
      (r = .error .notMapped ↔ ¬ s.SmallPage root va ∧ ¬ s.HugePage root va) := by
  obtain ⟨r, s', hrun, hu⟩ := unmap_spec h.inv hc hal
  refine ⟨r, s', hrun, ?_⟩
  unfold SmallPage HugePage
  cases r with
  | ok u =>
      obtain ⟨e, hpage, hpages, -⟩ := hu.ok rfl
      refine ⟨by simp [hpage], fun _ o ho => ?_, by simp [hpage], by simp [hpage]⟩
      obtain ⟨hlt', hc', hdiv, -⟩ := page_offset hva hal ho
      have hpath : path (va + o) = path va := (path_eq_iff hlt' hva (hc'.trans hc) hc).2 hdiv
      rw [hu.inv.translate_eq, if_pos (hc'.trans hc), hpages _ rfl, if_pos hpath]
      rfl
  | error e =>
      obtain ⟨-, ⟨rfl, e', hpage⟩ | ⟨rfl, hpage⟩⟩ := hu.error e rfl
      · exact ⟨by simp [hpage], by simp, by simp [hpage], by simp [hpage]⟩
      · exact ⟨by simp [hpage], by simp, by simp [hpage], by simp [hpage]⟩

theorem translate_elsewhere {r : Except MapError Unit} {w : Nat} (h : Holds root W s A)
    (hva : va < 2 ^ 64) (hw : w < 2 ^ 64) (hne : w / frameSize ≠ va / frameSize)
    (hrun : s.map root va pa flags = some (r, s') ∨ s.unmap root va = some (r, s')) :
    s'.translate root w = s.translate root w := by
  rcases hrun with hrun | hrun
  · refine h.translate_congr (h.map hva hrun).1 hw ?_
    cases r with
    | ok u => exact Function.update_of_ne hne _ _
    | error e => rfl
  · refine h.translate_congr (h.unmap hva hrun).1 hw ?_
    cases r with
    | ok u => exact Function.update_of_ne hne _ _
    | error e => rfl

end Holds

end Machine

open Machine

/-- Nine usable frames above the legacy area: two hold the frame table, seven go to the pool. -/
def pageBoot : BootInfo where
  physmapBase := 0xffff800000000000
  regions := [⟨0x100000, 0x9000, .usable⟩]
  kernelImage := (0, 0)

theorem pageBoot_apart : pageBoot.TableApart 0 :=
  tableApart_noHeap ⟨by decide, by decide, by decide⟩ (by decide) (by decide)

theorem pageBoot_run :
    ∃ info caps s₀ root s s',
      Returns (pmmInit pageBoot [] [] 0) (reset fun _ => 0) (info, caps) s₀ ∧
      s₀.newTable = some (some root, s) ∧ s.totalFrames = 265 ∧
      s.map root 0x1000 0x100000 .user = some (.ok (), s') := by
  have hrun : ((finish (pmmInit pageBoot [] [] 0) (reset fun _ => 0)).bind fun r =>
      r.2.newTable.bind fun t => t.1.bind fun root =>
        (t.2.map root 0x1000 0x100000 .user).map fun m =>
          (t.2.totalFrames, decide (m.1 = .ok ()))) = some (265, true) := by
    decide +kernel
  obtain ⟨⟨⟨info, caps⟩, s₀⟩, hinit, hrun⟩ := Option.bind_eq_some_iff.1 hrun
  obtain ⟨⟨o, s⟩, hnew, hrun⟩ := Option.bind_eq_some_iff.1 hrun
  obtain ⟨root, rfl, hrun⟩ := Option.bind_eq_some_iff.1 hrun
  obtain ⟨⟨r, s'⟩, hmap, hrun⟩ := Option.map_eq_some_iff.1 hrun
  obtain ⟨htotal, hok⟩ := Prod.mk.inj hrun
  have hr : r = .ok () := of_decide_eq_true hok
  subst hr
  exact ⟨info, caps, s₀, root, s, s', returns_of_finish hinit, hnew, htotal, hmap⟩

/-- A user page on a new table. -/
theorem pageBoot_maps :
    ∃ root s s', NewSpace root s ∧ s.totalFrames ≤ 2 ^ 24 ∧ 0x100000 < s.totalFrames * frameSize ∧
      s.map root 0x1000 0x100000 .user = some (.ok (), s') := by
  obtain ⟨info, caps, s₀, root, s, s', hinit, hnew, htotal, hmap⟩ := pageBoot_run
  refine ⟨root, s, s', ⟨s₀, ?_, Or.inl hnew⟩, by rw [htotal]; decide, by rw [htotal]; decide, hmap⟩
  exact ⟨pageBoot, [], [], caps, 0, _, info, s₀, by decide, ⟨pageBoot_apart, hinit⟩, ReflTransGen.refl⟩

section Runs

variable {s₀ s : Machine} {root : Nat} {A : AddrSpace}

/-- **The page table is a partial function from pages to pages.** -/
theorem pageTable_refines (hnew : NewSpace root s₀) (hram : s₀.totalFrames ≤ 2 ^ 24)
    (hrun : ReflTransGen (VmStep root) (s₀, AddrSpace.empty) (s, A)) :
    (∀ va pa flags, va < 2 ^ 64 → isCanonical va = true → va % frameSize = 0 →
      pa % frameSize = 0 → pa < s.totalFrames * frameSize →
      ∃ r s', s.map root va pa flags = some (r, s') ∧
        (r = .error .conflict ↔ (s.translate root va).isSome = true) ∧
        (r ≠ .error .conflict → r = .error .allocFailed ∨ r = .ok ()) ∧
        (r = .ok () → ∀ o < frameSize, s'.translate root (va + o) = some (pa + o))) ∧
    (∀ va, va < 2 ^ 64 → isCanonical va = true → va % frameSize = 0 →
      ∃ r s', s.unmap root va = some (r, s') ∧
        (r = .ok () ↔ s.SmallPage root va) ∧
        (r = .ok () → ∀ o < frameSize, s'.translate root (va + o) = none) ∧
        (r = .error .conflict ↔ s.HugePage root va) ∧
        (r = .error .notMapped ↔ ¬ s.SmallPage root va ∧ ¬ s.HugePage root va)) ∧
    (∀ va pa flags r s' w, va < 2 ^ 64 → w < 2 ^ 64 → w / frameSize ≠ va / frameSize →
      (s.map root va pa flags = some (r, s') ∨ s.unmap root va = some (r, s')) →
      s'.translate root w = s.translate root w) ∧
    (∀ w < 2 ^ 64,
      (∀ pa flags, isCanonical w = true → A (w / frameSize) = some (pa, flags) →
        s.translate root w = some (pa + w % frameSize)) ∧
      (A (w / frameSize) = none → s.translate root w = s₀.translate root w)) := by
  obtain ⟨W, h₀⟩ := hnew.holds
  obtain ⟨h, hboot⟩ := h₀.run hrun
  have hn : s.numFrames ≤ 2 ^ 24 := by rw [hboot.numFrames]; exact hram
  refine ⟨fun va pa flags hva hc hal hpa hlt => h.map_result hn hva hc hal hpa hlt,
    fun va hva hc hal => h.unmap_result hva hc hal,
    fun va pa flags r s' w hva hw hne hcall => h.translate_elsewhere hva hw hne hcall,
    fun w hw => ⟨fun pa flags hc hA => h.translate_page hn hw hc hA, fun hA => ?_⟩⟩
  exact h₀.translate_congr h hw hA

/-- The offset `0x234` of a page just mapped. -/
theorem pageTable_refines_small :
    ∃ root s s', NewSpace root s ∧ s.totalFrames ≤ 2 ^ 24 ∧
      s.map root 0x1000 0x100000 .user = some (.ok (), s') ∧
      s'.translate root 0x1234 = some 0x100234 := by
  obtain ⟨root, s, s', hnew, hram, hpa, hmap⟩ := pageBoot_maps
  obtain ⟨hall, -⟩ := pageTable_refines hnew hram ReflTransGen.refl
  obtain ⟨r, s₁, hrun, -, -, hok⟩ :=
    hall 0x1000 0x100000 .user (by decide) (by decide) (by decide) (by decide) hpa
  obtain ⟨rfl, rfl⟩ := Prod.mk.inj (Option.some.inj (hmap.symm.trans hrun))
  exact ⟨root, s, s', hnew, hram, hmap, hok rfl 0x234 (by decide)⟩

end Runs

end Rolnix
