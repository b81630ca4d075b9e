import Rolnix.VmmRun

/-!
# Access rights

The rights the hardware grants on an address combine the entries of all levels of the walk: USER
and WRITABLE must be set in all of them, NO_EXEC in one. `map` promotes entries of the upper levels
to USER in place, also when it fails later on, and tables are shared by many pages. `effective_eq`
says that it does not matter: the rights are those of the last entry.

`effective_rights` is the result for whole runs. In particular no address of a kernel window is ever
accessible to user code, however many user pages share its tables.
-/

namespace Rolnix

open Radix Relation

/-- What user code may do, what may be written, what may not be executed. -/
structure Rights where
  user : Bool
  writable : Bool
  noExec : Bool
  deriving DecidableEq, Repr

/-- The rights one entry grants. -/
def rightsOf (e : Nat) : Rights := ⟨e.testBit 2, e.testBit 1, e.testBit 63⟩

/-- The rights a caller of `map` asks for. -/
def Flags.rights (flags : Flags) : Rights := rightsOf flags.bits

namespace Machine

variable {s s' : Machine} {root va pa : Nat} {flags : Flags} {A : AddrSpace} {W : Nat → Option Nat}

/-- The rights the hardware grants on `va`, from the entries of its walk. -/
def effective (s : Machine) (root va : Nat) : Rights :=
  let es := trail childOf s.entries root (path va)
  ⟨es.all (·.testBit 2), es.all (·.testBit 1), es.any (·.testBit 63)⟩

/-! ## The last entry decides -/

/-- Entries above the last one, which grant all that it does. -/
theorem rights_of_last {es : List Nat} {e : Nat} (hw : ∀ x ∈ es, x.testBit 1 = true)
    (hx : ∀ x ∈ es, x.testBit 63 = false)
    (hu : e.testBit 2 = true → ∀ x ∈ es, x.testBit 2 = true) :
    (⟨(es ++ [e]).all (·.testBit 2), (es ++ [e]).all (·.testBit 1),
      (es ++ [e]).any (·.testBit 63)⟩ : Rights) = rightsOf e := by
  have hwritable : es.all (·.testBit 1) = true := List.all_eq_true.2 hw
  have hexec : es.any (·.testBit 63) = false := by
    rw [List.any_eq_false]
    intro x hx'
    simp [hx x hx']
  have huser : (es.all (·.testBit 2) && e.testBit 2) = e.testBit 2 := by
    cases he : e.testBit 2 with
    | false => simp
    | true =>
        rw [Bool.and_true]
        exact List.all_eq_true.2 (hu he)
  simp only [rightsOf, List.all_append, List.any_append, List.all_cons, List.all_nil, List.any_cons,
    List.any_nil, hwritable, hexec, Bool.and_true, Bool.or_false, Bool.true_and, Bool.false_or, huser]

theorem VmInv.above (h : VmInv s root) {q : List Nat} {t : Nat} (hq : q.length ≤ 3)
    (hw : walk childOf s.entries root q = some t) :
    ∀ x ∈ trail childOf s.entries root q, x.testBit 1 = true ∧ x.testBit 63 = false := by
  intro x hx
  obtain ⟨r, u, j, hpre, hru, rfl⟩ := mem_trail hx
  have hlen := hpre.length_le
  simp only [List.length_append, List.length_singleton] at hlen
  obtain ⟨y, hy⟩ := walk_upto hpre hw
  rw [walk_snoc, hru, Option.bind_some] at hy
  have hok := h.tree.inner r u j (by omega) hru (childOf_eq_some.1 hy).1
  exact ⟨hok.writable, hok.exec⟩

/-- **The rights of a page are those of its entry.** -/
theorem VmInv.effective_eq (h : VmInv s root) {k e : Nat}
    (hpage : lookup s.entries root (path va) = some (k, e)) : s.effective root va = rightsOf e := by
  obtain ⟨q, t, i, hpre, hw, htrail, hend⟩ : ∃ q t i, q ++ [i] <+: path va ∧
      walk childOf s.entries root q = some t ∧ trail childOf s.entries root (path va) = _ ∧ _ :=
    trail_last (by simp [path])
  have hlen := hpre.length_le
  simp only [List.length_append, List.length_singleton, length_path] at hlen
  rw [Tree.lookup_last htrail] at hpage
  split_ifs at hpage with hpres
  obtain ⟨-, rfl⟩ := Prod.mk.inj (Option.some.inj hpage)
  unfold effective
  rw [htrail]
  have habove := h.above (q := q) (by omega) hw
  refine rights_of_last (fun x hx => (habove x hx).1) (fun x hx => (habove x hx).2) fun huser x hx => ?_
  by_cases hq : q.length = 3
  · -- a 4 KiB page for users
    obtain ⟨r, u, j, hrj, hru, rfl⟩ := mem_trail hx
    exact h.tree.user q t i hq hw hpres huser r u j hrj hru
  · -- huge pages are not for users
    have hnone : childOf (s.entries t i) = none := by
      refine hend.resolve_left fun he => hq ?_
      simpa [length_path] using congrArg List.length he
    have hhuge : (s.entries t i).testBit 7 = true :=
      (childOf_eq_none.1 hnone).resolve_left (by simp [hpres])
    have hkernel := ((h.tree.inner q t i (by omega) hw hpres).huge hhuge).2
    rw [hkernel] at huser
    exact absurd huser (by simp)

theorem rightsOf_pageEntry (hpa : pa % frameSize = 0) (hlt : pa < 2 ^ 44) :
    rightsOf (pageEntry pa flags) = flags.rights := by
  simp only [rightsOf, Flags.rights]
  rw [testBit_pageEntry_flag hpa hlt (by decide) (by decide),
    testBit_pageEntry_flag hpa hlt (by decide) (by decide),
    testBit_pageEntry_flag hpa hlt (by decide) (by decide)]

theorem rightsOf_largeEntry {base : Nat} (hbase : base % largePage = 0) (hlt : base < 2 ^ 63) :
    rightsOf (largeEntry base) = ⟨false, true, false⟩ := by
  simp only [rightsOf]
  rw [testBit_largeEntry hbase hlt (by decide), testBit_largeEntry hbase hlt (by decide),
    testBit_largeEntry hbase hlt (by decide)]
  decide

theorem Holds.effective_page (h : Holds root W s A) (hva : va < 2 ^ 64) (hc : isCanonical va = true)
    (hA : A (va / frameSize) = some (pa, flags)) : s.effective root va = flags.rights := by
  obtain ⟨hpa, hlt⟩ := h.ram _ _ _ hA
  obtain ⟨L, G, hcoh⟩ := h.inv.coherent
  have hlt' : pa < 2 ^ 44 := by
    have hb := hcoh.bound
    simp only [listEnd, frameSize] at hb hlt
    omega
  have hpage := h.pages va hva hc
  rw [walkOf, hA] at hpage
  rw [h.inv.effective_eq hpage, rightsOf_pageEntry hpa hlt']

theorem Holds.effective_window {base : Nat} (h : Holds root W s A) (hva : va < 2 ^ 64)
    (hc : isCanonical va = true) (hA : A (va / frameSize) = none)
    (hW : W (va / frameSize) = some base) : s.effective root va = ⟨false, true, false⟩ := by
  obtain ⟨hbase, hlt⟩ := h.window _ _ hW
  have hpage := h.pages va hva hc
  rw [walkOf, hA, hW] at hpage
  rw [h.inv.effective_eq hpage, rightsOf_largeEntry hbase hlt]

end Machine

open Machine

section Runs

variable {s₀ s : Machine} {root : Nat} {A : AddrSpace}

/-- **Effective rights are leaf rights.** In every state a run reaches, the rights on an address
that translates are those of its last entry, which are the ones given to the call of `map` that
installed its page, or those of the kernel's windows. An address that was part of a window when the
table was new stays part of it and is never accessible to user code. -/
theorem effective_rights (hnew : NewSpace root s₀)
    (hrun : ReflTransGen (VmStep root) (s₀, AddrSpace.empty) (s, A)) :
    (∀ va < 2 ^ 64, (s.translate root va).isSome = true →
      (∃ k e, lookup s.entries root (path va) = some (k, e) ∧ s.effective root va = rightsOf e) ∧
      (∀ pa flags, A (va / frameSize) = some (pa, flags) → s.effective root va = flags.rights) ∧
      (A (va / frameSize) = none → s.HugePage root va ∧ s.effective root va = ⟨false, true, false⟩)) ∧
    ∀ va < 2 ^ 64, (s₀.translate root va).isSome = true →
      s.translate root va = s₀.translate root va ∧ (s.effective root va).user = false := by
  obtain ⟨W, h₀⟩ := hnew.holds
  obtain ⟨h, -⟩ := h₀.run hrun
  have hcanonical : ∀ {s A va}, Holds root W s A → va < 2 ^ 64 →
      (s.translate root va).isSome = true →
      isCanonical va = true ∧ (walkOf A W (va / frameSize)).isSome = true := by
    intro s A va h hva htr
    rw [h.translate_eq hva] at htr
    split_ifs at htr with hc
    · rw [Option.isSome_map] at htr
      exact ⟨hc, htr⟩
    · exact absurd htr (by simp)
  have hwindow : ∀ {A va}, A (va / frameSize) = none →
      (walkOf A W (va / frameSize)).isSome = true → ∃ base, W (va / frameSize) = some base := by
    intro A va hA hsome
    rw [walkOf, hA] at hsome
    cases hW : W (va / frameSize) with
    | none => simp [hW] at hsome
    | some base => exact ⟨base, rfl⟩
  refine ⟨fun va hva htr => ?_, fun va hva htr => ?_⟩
  · obtain ⟨hc, hsome⟩ := hcanonical h hva htr
    refine ⟨?_, fun pa flags hA => h.effective_page hva hc hA, fun hA => ?_⟩
    · obtain ⟨⟨k, e⟩, hpage⟩ := Option.isSome_iff_exists.1 hsome
      rw [← h.pages va hva hc] at hpage
      exact ⟨k, e, hpage, h.inv.effective_eq hpage⟩
    · obtain ⟨base, hW⟩ := hwindow hA hsome
      refine ⟨⟨largeEntry base, ?_⟩, h.effective_window hva hc hA hW⟩
      rw [h.pages va hva hc, walkOf, hA, hW]
      rfl
  · obtain ⟨hc, hsome⟩ := hcanonical h₀ hva htr
    obtain ⟨base, hW⟩ := hwindow rfl hsome
    -- no page is ever set inside a window
    have hA : A (va / frameSize) = none := by
      by_contra hA
      rw [h.apart _ hA] at hW
      exact absurd hW (by simp)
    exact ⟨h₀.translate_congr h hva hA, by rw [h.effective_window hva hc hA hW]⟩

/-- A user page on a new table: readable for user code, and not writable. -/
theorem effective_rights_small :
    ∃ root s s', NewSpace root s ∧ s.map root 0x1000 0x100000 .user = some (.ok (), s') ∧
      s'.effective root 0x1000 = ⟨true, false, false⟩ := by
  obtain ⟨root, s, s', hnew, hram, hpa, hmap⟩ := pageBoot_maps
  have hstep : VmStep root (s, AddrSpace.empty) _ :=
    VmStep.map 0x1000 0x100000 .user (by decide) hmap
  obtain ⟨W, h₀⟩ := hnew.holds
  obtain ⟨h, hboot⟩ := h₀.map (by decide) hmap
  have hA : AddrSpace.empty.map 0x1000 0x100000 .user (.ok ()) (0x1000 / frameSize) =
      some (0x100000, .user) := by
    rw [AddrSpace.map, Function.update_self]
  have htr := h.translate_page (by rw [hboot.numFrames]; exact hram) (by decide) (by decide) hA
  obtain ⟨hall, -⟩ := effective_rights hnew (ReflTransGen.single hstep)
  obtain ⟨-, hrights, -⟩ := hall 0x1000 (by decide) (by rw [htr]; rfl)
  exact ⟨root, s, s', hnew, hmap, (hrights _ _ hA).trans (by decide)⟩

/-- **A page that no call of `map` installed.** With the frame table in memory: the last table on the way
is a frame that holds metadata, and the mapping count of frame 0x156 stands where the entry of the
address 0x3000 is. One mapping of the frame makes it a present entry. -/
theorem page_never_mapped :
    ∃ info r root r₁ r₂, Returns (pmmInit (usableBoot [(0x100000, 0x3000), (0x104000, 0x4000),
        (0x105000, 0x1000), (0x29a000, 0x2000)]) [] [] 0x1000) (Ram.reset fun _ => 0) (info, []) r ∧
      PageMem.newTable r = some (some root, r₁) ∧
      PageMem.map r₁ root 0 0x156000 .user = some (.ok (), r₂) ∧
      PageMem.translate r₁ root 0x3000 = none ∧ PageMem.translate r₂ root 0x3000 = some 0 := by
  have hobs : ((finish (pmmInit (usableBoot [(0x100000, 0x3000), (0x104000, 0x4000),
      (0x105000, 0x1000), (0x29a000, 0x2000)]) [] [] 0x1000)
      (Ram.reset fun _ => 0)).bind fun x => (PageMem.newTable x.2).bind fun t => t.1.bind fun root =>
        (PageMem.map t.2 root 0 0x156000 .user).map fun m =>
          decide (x.1.2 = [] ∧ m.1 = .ok () ∧ PageMem.translate t.2 root 0x3000 = none ∧
            PageMem.translate m.2 root 0x3000 = some 0)) = some true := by
    decide +kernel
  obtain ⟨⟨⟨info, caps⟩, r⟩, hinit, hobs⟩ := Option.bind_eq_some_iff.1 hobs
  obtain ⟨⟨o, r₁⟩, hnew, hobs⟩ := Option.bind_eq_some_iff.1 hobs
  obtain ⟨root, rfl, hobs⟩ := Option.bind_eq_some_iff.1 hobs
  obtain ⟨⟨e, r₂⟩, hmap, hobs⟩ := Option.map_eq_some_iff.1 hobs
  obtain ⟨rfl, rfl, hbefore, hafter⟩ := of_decide_eq_true hobs
  exact ⟨info, r, root, r₁, r₂, returns_of_finish hinit, hnew, hmap, hbefore, hafter⟩

end Runs

end Rolnix
