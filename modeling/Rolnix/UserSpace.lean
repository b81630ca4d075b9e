import Rolnix.Spawn
import Rolnix.PmmProof

/-!
# The pages of user processes

The frames behind the pages of an address space that holds one process's pages only: they are in
use and are none of the tables (`LeavesAside`), each of them is counted as mapped, so a release
leaves it pending, and no two pages share one. `UserSpace` adds this to `Holds`. It is kept by the
rest of the kernel (`UserSpace.alloc`, `UserSpace.release`), by mapping a frame just allocated
(`UserSpace.mapUserPage`) and by what is written to the pages (`UserSpace.setMem`).

So a byte of a page changes only if it is written through that page.
-/

namespace Rolnix

open Radix Relation

namespace Machine

variable {s s' s₁ : Machine} {root va pa f n : Nat} {flags : Flags} {A : AddrSpace}
  {W : Nat → Option Nat} {c : UInt8}

/-! ## The hardware's view -/

/-- **Where the hardware finds a page** of the address space. -/
theorem Holds.mmu_page (h : Holds root W s A) (hva : va < 2 ^ 64) (hc : isCanonical va = true)
    (hA : A (va / frameSize) = some (pa, flags)) : s.mmu root va = some (pa + va % frameSize) := by
  obtain ⟨hpa, hlt⟩ := h.ram _ _ _ hA
  obtain ⟨L, G, hcoh⟩ := h.inv.coherent
  have hlt' : pa < 2 ^ 52 := by
    have hb := hcoh.bound
    simp only [listEnd, frameSize] at hb hlt
    omega
  have hfield : pageEntry pa flags &&& 0x000ffffffffff000 = pa := by
    rw [show (0x000ffffffffff000 : Nat) = (2 ^ 40 - 1) * 2 ^ 12 by decide,
      pageEntry_and_field hpa (by decide), Nat.mod_eq_of_lt hlt']
  rw [mmu, if_pos hc, h.pages va hva hc, walkOf, hA, Option.map_some,
    if_neg (show (4 : Nat) ≠ 3 by decide), hfield]

theorem Holds.byteAt_page (h : Holds root W s A) (hva : va < 2 ^ 64) (hc : isCanonical va = true)
    (hA : A (va / frameSize) = some (pa, flags)) :
    s.byteAt root va = some (s.mem (pa + va % frameSize)) := by
  rw [byteAt, h.mmu_page hva hc hA]
  rfl

theorem Holds.user_page (h : Holds root W s A) (hva : va < 2 ^ 64) (hc : isCanonical va = true)
    (hpage : (s.mmu root va).isSome = true) (huser : (s.effective root va).user = true) :
    ∃ pa flags, A (va / frameSize) = some (pa, flags) := by
  cases hA : A (va / frameSize) with
  | some x => exact ⟨x.1, x.2, rfl⟩
  | none =>
      rw [mmu, if_pos hc, Option.isSome_map, h.pages va hva hc, walkOf, hA] at hpage
      cases hW : W (va / frameSize) with
      | none =>
          rw [hW] at hpage
          cases hpage
      | some base =>
          rw [h.effective_window hva hc hA hW] at huser
          cases huser

/-! ## Frames of pages -/

/-- The tables hold `A`, and every page of `A` has a frame of its own. -/
structure UserSpace (root : Nat) (W : Nat → Option Nat) (s : Machine) (A : AddrSpace) : Prop where
  holds : Holds root W s A
  settled : s.AllSettled
  aside : ∀ n pa flags, A n = some (pa, flags) → s.Aside root (pa / frameSize)
  mapped : ∀ n pa flags, A n = some (pa, flags) → (s.frames (pa / frameSize)).mappings ≠ 0
  inj : ∀ n m pa pa' flags flags', A n = some (pa, flags) → A m = some (pa', flags') →
    pa / frameSize = pa' / frameSize → n = m

namespace UserSpace

/-- Steps that change no page, leave the frames aside alone and take no mapping away. -/
theorem congr (h : UserSpace root W s A) (hholds : Holds root W s' A) (hsettled : s'.AllSettled)
    (haside : ∀ f, s.Aside root f → (s.frames f).mappings ≠ 0 →
      s'.Aside root f ∧ (s'.frames f).mappings ≠ 0) : UserSpace root W s' A where
  holds := hholds
  settled := hsettled
  aside n pa flags hA := (haside _ (h.aside n pa flags hA) (h.mapped n pa flags hA)).1
  mapped n pa flags hA := (haside _ (h.aside n pa flags hA) (h.mapped n pa flags hA)).2
  inj := h.inj

theorem mem_eq (h : UserSpace root W s A) (haside : LeavesAside root s s')
    (hA : A n = some (pa, flags)) {o : Nat} (ho : o < frameSize) : s'.mem (pa + o) = s.mem (pa + o) := by
  refine (haside _ (h.aside n pa flags hA)).2 _ ?_
  have hpa := (h.holds.ram n pa flags hA).1
  simp only [frameSize] at hpa ho ⊢
  omega

/-! ## The rest of the kernel -/

theorem alloc {r : Option Nat} (h : UserSpace root W s A) (hrun : s.allocFrame = some (r, s')) :
    UserSpace root W s' A ∧ LeavesAside root s s' := by
  obtain ⟨L, G, hcoh⟩ := h.holds.inv.coherent
  obtain ⟨r', s₁, L', G', hrun', hcoh', -, ha, -, -⟩ := allocFrame_spec hcoh
  obtain ⟨rfl, rfl⟩ := Prod.mk.inj (Option.some.inj (hrun.symm.trans hrun'))
  have hleaves := h.holds.inv.alloc_leavesAside ⟨L', G', hcoh'⟩ ha
  obtain ⟨hinv, hgrows, hE⟩ := h.holds.inv.alloc ⟨L', G', hcoh'⟩ ha
  refine ⟨h.congr (h.holds.congr hinv ha.boot fun p hp => Tree.lookup_eq hE (by omega))
    (hgrows.settled h.settled) fun f hf hmap => ⟨(hleaves f hf).1, ?_⟩, hleaves⟩
  rw [hgrows.mappings]
  exact hmap

theorem release (h : UserSpace root W s A) (hnot : ¬ InTree s.entries root f)
    (hrun : s.releaseFrame f = some s') :
    UserSpace root W s' A ∧
      ∀ g, s.Aside root g → (s.frames g).mappings ≠ 0 → ∀ b, b / frameSize = g → s'.mem b = s.mem b := by
  have hok : (PmmOp.release f).ClientOk s := trivial
  obtain ⟨hinv, hboot, hE⟩ := h.holds.inv.other hok hnot hrun
  have hholds := h.holds.congr hinv hboot fun p hp => Tree.lookup_eq hE (by omega)
  have hsettled := h.settled.step ⟨.release f, hok, trivial, hrun⟩
  have htree : ∀ g, InTree s'.entries root g → InTree s.entries root g := by
    rintro g ⟨p, hp, hpw⟩
    exact ⟨p, hp, by rw [← Tree.walk_eq hE (by omega), hpw]⟩
  obtain ⟨-, -, -, -, ⟨-, rfl⟩ | ⟨-, hzero, rfl⟩⟩ := releaseFrame_cases hrun
  · -- still in use
    have hframes : ∀ g, ((s.deferred f).frames g).mappings = (s.frames g).mappings ∧
        ((s.frames g).owner ≠ .free → ((s.deferred f).frames g).owner ≠ .free) := by
      intro g
      unfold deferred
      split_ifs
      · exact ⟨rfl, id⟩
      · rw [setInfo_frames]
        by_cases hg : g = f
        · subst hg
          rw [Function.update_self]
          exact ⟨rfl, fun _ => by simp⟩
        · rw [Function.update_of_ne hg]
          exact ⟨rfl, id⟩
    have hmem : (s.deferred f).mem = s.mem := by
      unfold deferred
      split_ifs <;> rfl
    refine ⟨h.congr hholds hsettled fun g hg hmap => ⟨⟨(hframes g).2 hg.1, fun hin => hg.2 (htree g hin)⟩,
      ?_⟩, fun g _ _ b _ => by rw [hmem]⟩
    rw [(hframes g).1]
    exact hmap
  · -- the frame goes to the pool, so no page has it
    have hne : ∀ g, (s.frames g).mappings ≠ 0 → g ≠ f := by
      rintro g hmap rfl
      exact hmap hzero
    have hframes : ∀ g, (s.frames g).mappings ≠ 0 → (s.freed f).frames g = s.frames g := by
      intro g hmap
      rw [freed_frames, Function.update_of_ne (hne g hmap)]
    refine ⟨h.congr hholds hsettled fun g hg hmap => ?_, fun g hg hmap b hb => ?_⟩
    · rw [Aside, hframes g hmap]
      exact ⟨⟨hg.1, fun hin => hg.2 (htree g hin)⟩, hmap⟩
    · have hbf : b / frameSize ≠ f := hb ▸ hne g hmap
      refine ByteMem.store_of_not_mem ?_
      simp only [framePhys, frameSize] at hbf ⊢
      omega

theorem entries_setMem (h : UserSpace root W s A) {mem : ByteMem} (hA : A n = some (pa, flags))
    (hmem : ∀ x, x / frameSize ≠ pa / frameSize → mem x = s.mem x) {t : Nat}
    (ht : InTree s.entries root t) : Machine.entries { s with mem := mem } t = s.entries t := by
  refine entries_congr fun x hx => hmem x fun heq => (h.aside n pa flags hA).2 ?_
  rw [← heq, hx]
  exact ht

theorem setMem (h : UserSpace root W s A) {mem : ByteMem} (hA : A n = some (pa, flags))
    (hmem : ∀ x, x / frameSize ≠ pa / frameSize → mem x = s.mem x) :
    UserSpace root W { s with mem := mem } A := by
  have hpage := h.aside n pa flags hA
  obtain ⟨L, G, hcoh⟩ := h.holds.inv.coherent
  have hcoh' : IsCoherent { s with mem := mem } := ⟨L, G, hcoh.fillFrame hpage.1 hmem⟩
  have hE : ∀ t, InTree s.entries root t → Machine.entries { s with mem := mem } t = s.entries t :=
    fun t ht => h.entries_setMem hA hmem ht
  have hinv : VmInv { s with mem := mem } root :=
    h.holds.inv.congr hcoh' rfl hE fun t ht => (h.holds.inv.isTable ht).2
  have hholds := h.holds.congr hinv ⟨rfl, rfl, rfl⟩ fun p hp => Tree.lookup_eq hE (by omega)
  refine h.congr hholds h.settled fun g hg hmap => ⟨⟨hg.1, ?_⟩, hmap⟩
  rintro ⟨p, hp, hpw⟩
  exact hg.2 ⟨p, hp, by rw [← Tree.walk_eq hE (by omega), hpw]⟩

theorem poke_of_ne (h : UserSpace root W s A) {m o o' pa' : Nat} {flags' : Flags}
    (hA : A n = some (pa, flags)) (hA' : A m = some (pa', flags')) (ho : o < frameSize)
    (ho' : o' < frameSize) (hne : n ≠ m ∨ o ≠ o') :
    (s.mem.poke (pa + o) c) (pa' + o') = s.mem (pa' + o') := by
  have hpa := (h.holds.ram n pa flags hA).1
  have hpa' := (h.holds.ram m pa' flags' hA').1
  refine ByteMem.poke_of_ne fun heq => ?_
  have hdiv : pa / frameSize = pa' / frameSize := by
    simp only [frameSize] at hpa hpa' ho ho' ⊢
    omega
  obtain rfl := h.inj n m pa pa' flags flags' hA hA' hdiv
  obtain ⟨rfl, -⟩ := Prod.mk.inj (Option.some.inj (hA.symm.trans hA'))
  rcases hne with hne | hne
  · exact hne rfl
  · omega

end UserSpace

end Machine

end Rolnix
