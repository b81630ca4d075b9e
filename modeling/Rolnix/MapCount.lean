import Rolnix.LeafCount
import Rolnix.Lib.Runs

/-!
# Mapping counts

The mapping count of a frame is in the frame table; what it counts, the leaf entries with the
frame's address, is in the page tables. A run starts when `new` or `new_kernel` has returned a
table, and makes any calls of `map` and `unmap` on it while the rest of the kernel allocates,
releases and writes frames.

`map_effect` and `unmap_effect` say what one call does to both sides. The count is a `u32`, so it
stays exact as long as no frame that already has 2 ^ 32 - 1 leaves is mapped once more; in such runs
a mapped frame that is released waits for the `unmap` of its last leaf (`mappings_exact`).
-/

namespace Rolnix

open Radix Relation

namespace Machine

variable {s s' s₀ : Machine} {root va pa f : Nat} {flags : Flags} {r : Except MapError Unit}

/-! ## What a call does to the leaves -/

theorem VmInv.leafOk_of_lookup {e : Nat} (h : VmInv s root)
    (hpage : lookup s.entries root (path va) = some (4, e)) : LeafOk s.numFrames e := by
  obtain ⟨q, t, i, -, hw, htrail, -⟩ : ∃ q t i, q ++ [i] <+: path va ∧
      walk childOf s.entries root q = some t ∧ trail childOf s.entries root (path va) = _ ∧ _ :=
    trail_last (by simp [path])
  rw [Tree.lookup_last htrail, length_trail hw] at hpage
  split_ifs at hpage with hpres
  obtain ⟨hlen, rfl⟩ := Prod.mk.inj (Option.some.inj hpage)
  exact h.tree.leaf q t i (by omega) hw hpres

theorem VmInv.addr_lt (h : VmInv s root) (hlt : pa < s.numFrames * frameSize) : pa < 2 ^ 52 := by
  obtain ⟨L, G, hcoh⟩ := h.coherent
  have hb := hcoh.bound
  simp only [listEnd, frameSize] at hb hlt
  omega

theorem VmInv.lt_of_leafCount_pos (h : VmInv s root) (hleaf : 0 < s.leafCount root f) :
    f < s.numFrames := by
  obtain ⟨n, hn⟩ := Finset.card_pos.1 hleaf
  have hframe : s.leafFrame root n = some f := (Finset.mem_filter.1 hn).2
  rw [leafFrame] at hframe
  rcases hpage : lookup s.entries root (path (n * frameSize)) with _ | ⟨k, e⟩
  · rw [hpage] at hframe
    cases hframe
  by_cases hk : k = 4
  · subst hk
    obtain ⟨pa, flags, he, hpa, hlt⟩ := h.leafOk_of_lookup hpage
    have he : e = pageEntry pa flags := he
    rw [hpage, he, leafOf_pageEntry flags hpa (h.addr_lt hlt)] at hframe
    rw [← Option.some.inj hframe]
    exact Nat.div_lt_of_lt_mul (by rw [Nat.mul_comm]; exact hlt)
  · rw [hpage] at hframe
    simp [leafOf, hk] at hframe

/-- **`map` adds a leaf of its frame and counts it**, or changes no leaf and no count. -/
theorem VmInv.map_effect (h : VmInv s root) (hrun : s.map root va pa flags = some (r, s')) :
    VmInv s' root ∧ SameBoot s s' ∧
      ((∃ e, r = .error e) ∧ Grows s s' ∧
          (∀ f, s'.leafCount root f = s.leafCount root f) ∨
        r = .ok () ∧
          (∀ f, s'.leafCount root f = s.leafCount root f + if pa / frameSize = f then 1 else 0) ∧
          ∃ s₁, Grows s s₁ ∧ s'.frames =
            Function.update s₁.frames (pa / frameSize) (s₁.frames (pa / frameSize)).addMapping) := by
  by_cases hbad : ¬ isCanonical va = true ∨ (va % frameSize ≠ 0 ∨ pa % frameSize ≠ 0) ∨
    pa ≥ s.numFrames * frameSize
  · obtain ⟨e, he⟩ : ∃ e, s.map root va pa flags = some (.error e, s) := map_of_bad hbad
    obtain ⟨rfl, rfl⟩ := Prod.mk.inj (Option.some.inj (hrun.symm.trans he))
    exact ⟨h, SameBoot.refl _, Or.inl ⟨⟨e, rfl⟩, Grows.refl _, fun _ => rfl⟩⟩
  simp only [not_or, not_not, ge_iff_le, not_le, ne_eq] at hbad
  obtain ⟨hc, ⟨hal, hpa⟩, hlt⟩ := hbad
  obtain ⟨r', s₁, hrun', hm⟩ : ∃ r s', s.map root va pa flags = some (r, s') ∧ _ :=
    map_spec h hc hal hpa hlt
  obtain ⟨rfl, rfl⟩ := Prod.mk.inj (Option.some.inj (hrun.symm.trans hrun'))
  refine ⟨hm.inv, hm.boot, ?_⟩
  cases r with
  | error e =>
      obtain ⟨-, hpages, hgrows⟩ := hm.error e rfl
      exact Or.inl ⟨⟨e, rfl⟩, hgrows, leafCount_congr hpages⟩
  | ok u =>
      obtain ⟨hnone, hpages, -, hframes⟩ := hm.ok rfl
      refine Or.inr ⟨rfl, fun f => ?_, hframes⟩
      have hcount := leafCount_update hpages f
      rw [hnone, leafOf_pageEntry flags hpa (h.addr_lt hlt)] at hcount
      simpa [leafOf] using hcount

/-- **`unmap` removes a leaf of the frame whose count it drops**, or changes nothing. Below 64 GiB
the mask does not matter. -/
theorem VmInv.unmap_effect (h : VmInv s root) (hram : s.numFrames ≤ 2 ^ 24)
    (hrun : s.unmap root va = some (r, s')) :
    s' = s ∨ VmInv s' root ∧ SameBoot s s' ∧
      ∃ f, (∀ g, s'.leafCount root g + (if f = g then 1 else 0) = s.leafCount root g) ∧
        s'.frames = Function.update s.frames f (drained (s.frames f).removeMapping) := by
  by_cases hbad : ¬ isCanonical va = true ∨ va % frameSize ≠ 0
  · obtain ⟨e, he⟩ : ∃ e, s.unmap root va = some (.error e, s) := unmap_of_bad hbad
    obtain ⟨-, rfl⟩ := Prod.mk.inj (Option.some.inj (hrun.symm.trans he))
    exact Or.inl rfl
  simp only [not_or, not_not, ne_eq] at hbad
  obtain ⟨hc, hal⟩ := hbad
  obtain ⟨r', s₁, hrun', hu⟩ := unmap_spec h hc hal
  obtain ⟨rfl, rfl⟩ := Prod.mk.inj (Option.some.inj (hrun.symm.trans hrun'))
  cases r with
  | error e => exact Or.inl (hu.error e rfl).1
  | ok u =>
      obtain ⟨e, hpage, hpages, hframes⟩ := hu.ok rfl
      obtain ⟨pa, flags, he, hpa, hlt⟩ := h.leafOk_of_lookup hpage
      have he : e = pageEntry pa flags := he
      have hfield : (e &&& addrMask4k) / frameSize = pa / frameSize := by
        have hlt' : pa < 2 ^ 36 := by
          simp only [frameSize] at hlt
          omega
        rw [he, pageEntry_and_mask hpa, Nat.mod_eq_of_lt hlt']
      rw [hfield] at hframes
      refine Or.inr ⟨hu.inv, hu.boot, pa / frameSize, fun g => ?_, hframes⟩
      have hcount := leafCount_update hpages g
      rw [hpage, he, leafOf_pageEntry flags hpa (h.addr_lt hlt)] at hcount
      simpa [leafOf] using hcount

end Machine

open Machine

/-! ## Steps -/

/-- The calls and writes of the rest of the kernel: it neither pins frames nor counts mappings. -/
def PmmOp.Plain : PmmOp → Prop
  | .alloc | .release _ | .write _ _ => True
  | _ => False

/-- A step before there is a table. -/
def PlainStep : Machine → Machine → Prop :=
  Runs.Step (fun s op => PmmOp.Plain op ∧ PmmOp.ClientOk op s) fun s op => op.exec s

/-- A call of `map` with a bad address, or at a page that is mapped. -/
def Machine.Refuses (s : Machine) (root va pa : Nat) : Prop :=
  (¬ isCanonical va = true ∨ (va % frameSize ≠ 0 ∨ pa % frameSize ≠ 0) ∨
    pa ≥ s.numFrames * frameSize) ∨ (s.translate root va).isSome = true

theorem Machine.VmInv.not_refuses {s s' : Machine} {root va pa : Nat} {flags : Flags}
    (h : VmInv s root) (hrun : s.map root va pa flags = some (.ok (), s')) :
    ¬ s.Refuses root va pa := by
  intro hrefuses
  by_cases hbad : ¬ isCanonical va = true ∨ (va % frameSize ≠ 0 ∨ pa % frameSize ≠ 0) ∨
      pa ≥ s.numFrames * frameSize
  · obtain ⟨e, he⟩ : ∃ e, s.map root va pa flags = some (.error e, s) := map_of_bad hbad
    rw [he] at hrun
    exact absurd hrun (by simp)
  · have hmapped := hrefuses.resolve_left hbad
    simp only [not_or, not_not, ne_eq, not_le] at hbad
    obtain ⟨hc, ⟨hva, hpa⟩, hlt⟩ := hbad
    obtain ⟨r, s₁, hrun', hm⟩ : ∃ r s₁, s.map root va pa flags = some (r, s₁) ∧ _ :=
      map_spec h hc hva hpa hlt
    obtain ⟨rfl, rfl⟩ := Prod.mk.inj (Option.some.inj (hrun.symm.trans hrun'))
    rw [h.translate_eq, if_pos hc, (hm.ok rfl).1] at hmapped
    exact absurd hmapped (by simp)

/-- What happens on a machine with a page table. -/
inductive TableOp
  | map (va pa : Nat) (flags : Flags)
  | unmap (va : Nat)
  | other (op : PmmOp)

namespace TableOp

def exec (root : Nat) (s : Machine) : TableOp → Option Machine
  | map va pa flags => (s.map root va pa flags).map (·.2)
  | unmap va => (s.unmap root va).map (·.2)
  | other op => op.exec s

/-- Free frames are not mapped, and the rest of the kernel keeps off the tables. -/
def Allowed (root : Nat) (s : Machine) : TableOp → Prop
  | map va pa _ => va < 2 ^ 64 ∧ (s.frames (pa / frameSize)).ownerTag ≠ .free
  | unmap va => va < 2 ^ 64
  | other op => op.Plain ∧ op.ClientOk s ∧ SparesTables root op s

/-- The count of a frame that is mapped has room for one more. -/
def Counts (root : Nat) (s : Machine) : TableOp → Prop
  | map va pa _ => s.leafCount root (pa / frameSize) + 1 < 2 ^ 32 ∨ s.Refuses root va pa
  | _ => True

end TableOp

namespace Machine

def TableStep (root : Nat) : Machine → Machine → Prop :=
  Runs.Step (TableOp.Allowed root) (TableOp.exec root)

/-- A step that meets the condition. -/
def CountedStep (root : Nat) : Machine → Machine → Prop :=
  Runs.Step (fun s op => op.Allowed root s ∧ op.Counts root s) (TableOp.exec root)

/-- `new` or `new_kernel` just returned the table at `root`; up to then the kernel only allocated,
released and wrote frames. -/
def NewTable (root : Nat) (s : Machine) : Prop :=
  ∃ (boot : BootInfo) (specs : List UntypedSpec) (outUntyped caps : List UntypedCap)
    (heapLen : Nat) (mem : ByteMem) (info : PmInitOut) (b s₁ : Machine), boot.Below16TiB ∧
    BootsApart boot specs outUntyped heapLen mem info caps b ∧ ReflTransGen PlainStep b s₁ ∧
    (s₁.newTable = some (some root, s) ∨ ∃ ramEnd, s₁.newKernel ramEnd = some (some root, s))

/-! ## The invariant -/

/-- The counts are exact, and nothing is pinned. -/
structure CountInv (root : Nat) (s : Machine) : Prop where
  vm : VmInv s root
  ram : s.numFrames ≤ 2 ^ 24
  exact : ∀ f, (s.frames f).mappings.toNat = s.leafCount root f
  settled : s.AllSettled
  unpinned : ∀ f, (s.frames f).pinned = 0

variable {op : PmmOp}

/-- The rest of the kernel changes no counter. -/
theorem plain_counters (hplain : op.Plain) (hexec : op.exec s = some s') (f : Nat) :
    (s'.frames f).pinned = (s.frames f).pinned ∧
      (s'.frames f).mappings = (s.frames f).mappings := by
  have hchange := exec_change hexec f
  generalize s.frames f = i at hchange
  generalize s'.frames f = i' at hchange
  cases hchange with
  | same | taken | deferred | freed => exact ⟨rfl, rfl⟩
  | pinned | unpinned | mapped | unmapped | retyped => exact hplain.elim

theorem settled_plain (h : s.AllSettled) (hplain : op.Plain) (hok : op.ClientOk s)
    (hexec : op.exec s = some s') : s'.AllSettled := by
  refine h.step ⟨op, hok, ?_, hexec⟩
  cases op with
  | alloc | release | write => trivial
  | pin | unpin | addMapping | removeMapping | retype => exact hplain.elim

theorem addMapping_toNat {info : FrameInfo} (h : info.mappings.toNat + 1 < 2 ^ 32) :
    info.addMapping.mappings.toNat = info.mappings.toNat + 1 := by
  have hadd : info.addMapping.mappings.toNat = (info.mappings.toNat + 1) % 2 ^ 32 :=
    BitVec.toNat_add _ _
  rw [hadd, Nat.mod_eq_of_lt h]

theorem removeMapping_toNat {info : FrameInfo} (h : 0 < info.mappings.toNat) :
    info.removeMapping.mappings.toNat + 1 = info.mappings.toNat := by
  have hsub : info.removeMapping.mappings.toNat = (2 ^ 32 - 1 + info.mappings.toNat) % 2 ^ 32 :=
    BitVec.toNat_sub _ _
  have hlt := info.mappings.isLt
  omega

namespace CountInv

theorem not_free (h : CountInv root s) (hleaf : 0 < s.leafCount root f) :
    (s.frames f).ownerTag ≠ .free := by
  intro hfree
  have hcount := h.exact f
  rw [((h.settled f).1 hfree).2] at hcount
  exact absurd hcount (Nat.ne_of_lt hleaf)

theorem leafCount_pos (h : CountInv root s) (hpend : (s.frames f).ownerTag = .pending) :
    0 < s.leafCount root f := by
  rcases (h.settled f).2 hpend with hpin | hmap
  · exact absurd (h.unpinned f) hpin
  · rw [← h.exact f]
    exact Nat.pos_of_ne_zero fun hz => hmap (BitVec.eq_of_toNat_eq hz)

theorem map (h : CountInv root s) (hrun : s.map root va pa flags = some (r, s'))
    (hnot : (s.frames (pa / frameSize)).ownerTag ≠ .free)
    (hroom : r = .ok () → s.leafCount root (pa / frameSize) + 1 < 2 ^ 32) : CountInv root s' := by
  obtain ⟨hinv, hboot, ⟨-, hgrows, hleaves⟩ | ⟨hr, hleaves, s₁, hgrows, hframes⟩⟩ :=
    h.vm.map_effect hrun
  · refine ⟨hinv, hboot.numFrames ▸ h.ram, fun f => ?_, hgrows.settled h.settled, fun f => ?_⟩
    · rw [hgrows.mappings, hleaves, h.exact]
    · rw [hgrows.pinned, h.unpinned]
  · have hlt : (s.frames (pa / frameSize)).mappings.toNat + 1 < 2 ^ 32 := by
      rw [h.exact]
      exact hroom hr
    rw [hgrows.eq_of_not_free fun ho => hnot (congrArg FrameOwner.tag ho)] at hframes
    refine ⟨hinv, hboot.numFrames ▸ h.ram, fun f => ?_, ?_, fun f => ?_⟩
    · rw [hleaves, hframes]
      by_cases hf : pa / frameSize = f
      · subst hf
        rw [Function.update_self, if_pos rfl, ← h.exact, addMapping_toNat hlt]
      · rw [Function.update_of_ne (Ne.symm hf), if_neg hf, hgrows.mappings, h.exact, Nat.add_zero]
    · refine (hgrows.settled h.settled).update ?_ hframes
      exact ⟨fun hfree => absurd hfree hnot, fun _ => Or.inr (succ_ne_zero_of_lt hlt)⟩
    · rw [hframes]
      by_cases hf : f = pa / frameSize
      · rw [hf, Function.update_self]
        exact h.unpinned _
      · rw [Function.update_of_ne hf, hgrows.pinned, h.unpinned]

theorem unmap (h : CountInv root s) (hrun : s.unmap root va = some (r, s')) : CountInv root s' := by
  obtain rfl | ⟨hinv, hboot, g, hleaves, hframes⟩ := h.vm.unmap_effect h.ram hrun
  · exact h
  have hcount := hleaves g
  rw [if_pos rfl] at hcount
  have hexact := h.exact g
  refine ⟨hinv, hboot.numFrames ▸ h.ram, fun f => ?_, ?_, fun f => ?_⟩
  · rw [hframes]
    by_cases hf : g = f
    · subst hf
      rw [Function.update_self, drained_mappings]
      have hdrop : (s.frames g).removeMapping.mappings.toNat + 1 = (s.frames g).mappings.toNat :=
        removeMapping_toNat (by omega)
      omega
    · have hsame := hleaves f
      rw [if_neg hf, Nat.add_zero] at hsame
      rw [Function.update_of_ne (Ne.symm hf), h.exact, hsame]
  · refine h.settled.update (settled_drained ?_) hframes
    exact h.not_free (f := g) (by omega)
  · rw [hframes]
    by_cases hf : f = g
    · rw [hf, Function.update_self, drained_pinned]
      exact h.unpinned g
    · rw [Function.update_of_ne hf, h.unpinned]

theorem other (h : CountInv root s) (hplain : op.Plain) (hok : op.ClientOk s)
    (hspare : SparesTables root op s) (hexec : op.exec s = some s') : CountInv root s' := by
  obtain ⟨hinv, hboot, hE⟩ := h.vm.other hok hspare hexec
  refine ⟨hinv, hboot.numFrames ▸ h.ram, fun f => ?_, settled_plain h.settled hplain hok hexec,
    fun f => ?_⟩
  · rw [(plain_counters hplain hexec f).2, h.exact]
    exact (leafCount_congr (fun p hp => Tree.lookup_eq hE (by omega)) f).symm
  · rw [(plain_counters hplain hexec f).1, h.unpinned]

/-- **The step lemma.** -/
theorem step {op : TableOp} (h : CountInv root s) (hok : op.Allowed root s)
    (hroom : op.Counts root s) (hexec : op.exec root s = some s') : CountInv root s' := by
  cases op with
  | map va pa flags =>
      obtain ⟨⟨r, s₁⟩, hmap, rfl⟩ := Option.map_eq_some_iff.1 hexec
      refine h.map hmap hok.2 ?_
      rintro rfl
      exact hroom.resolve_right (h.vm.not_refuses hmap)
  | unmap va =>
      obtain ⟨⟨r, s₁⟩, hunmap, rfl⟩ := Option.map_eq_some_iff.1 hexec
      exact h.unmap hunmap
  | other op => exact h.other hok.1 hok.2.1 hok.2.2 hexec

theorem pending_step {op : TableOp} (h : CountInv root s)
    (hpend : (s.frames f).ownerTag = .pending) (hok : op.Allowed root s)
    (hexec : op.exec root s = some s') :
    (s'.frames f).ownerTag = .pending ∨ (s'.frames f).ownerTag = .free ∧ ∃ va, op = .unmap va := by
  have hnf : (s.frames f).owner ≠ .free := by
    intro ho
    have hpend : (s.frames f).owner.tag = .pending := hpend
    rw [ho] at hpend
    cases hpend
  cases op with
  | map va pa flags =>
      obtain ⟨⟨r, s₁⟩, hmap, rfl⟩ := Option.map_eq_some_iff.1 hexec
      left
      obtain ⟨-, -, ⟨-, hgrows, -⟩ | ⟨-, -, s₂, hgrows, hframes⟩⟩ := h.vm.map_effect hmap
      · rw [hgrows.eq_of_not_free hnf]
        exact hpend
      · rw [hframes]
        by_cases hf : f = pa / frameSize
        · rw [hf, Function.update_self, ← hf, hgrows.eq_of_not_free hnf]
          exact hpend
        · rw [Function.update_of_ne hf, hgrows.eq_of_not_free hnf]
          exact hpend
  | unmap va =>
      obtain ⟨⟨r, s₁⟩, hunmap, rfl⟩ := Option.map_eq_some_iff.1 hexec
      obtain rfl | ⟨-, -, g, -, hframes⟩ := h.vm.unmap_effect h.ram hunmap
      · exact Or.inl hpend
      · rw [hframes]
        by_cases hf : f = g
        · rw [hf, Function.update_self]
          unfold drained
          split_ifs
          · exact Or.inr ⟨rfl, va, rfl⟩
          · exact Or.inl (hf ▸ hpend)
        · rw [Function.update_of_ne hf]
          exact Or.inl hpend
  | other op =>
      left
      cases op with
      | alloc =>
          obtain ⟨⟨o, s₁⟩, halloc, rfl⟩ := Option.map_eq_some_iff.1 hexec
          obtain ⟨-, hframes⟩ | ⟨g, -, hfree, hframes⟩ := allocFrame_frames halloc
          · rw [hframes]
            exact hpend
          · have hne : f ≠ g := by
              rintro rfl
              exact hnf hfree
            rw [hframes, Function.update_of_ne hne]
            exact hpend
      | release g =>
          obtain ⟨-, -, -, -, ⟨-, rfl⟩ | ⟨-, hmap, rfl⟩⟩ := releaseFrame_cases hexec
          · unfold deferred
            split_ifs
            · exact hpend
            · by_cases hf : f = g
              · rw [setInfo_frames, hf, Function.update_self]
                rfl
              · rw [setInfo_frames, Function.update_of_ne hf]
                exact hpend
          · have hne : f ≠ g := by
              rintro rfl
              have hpos := h.leafCount_pos hpend
              rw [← h.exact f, hmap] at hpos
              exact absurd hpos (by decide)
            rw [freed_frames, Function.update_of_ne hne]
            exact hpend
      | write a c =>
          obtain rfl := Option.some.inj hexec
          exact hpend
      | pin | unpin | addMapping | removeMapping | retype => exact hok.1.elim

/-- **A pending frame waits for the `unmap` of its last leaf.** -/
theorem pending_until {op : TableOp} (h : CountInv root s)
    (hpend : (s.frames f).ownerTag = .pending) (hok : op.Allowed root s)
    (hroom : op.Counts root s) (hexec : op.exec root s = some s') :
    (s'.frames f).ownerTag = .pending ∧ 0 < s'.leafCount root f ∨
      (s'.frames f).ownerTag = .free ∧
        ∃ va, op = .unmap va ∧ s.leafCount root f = 1 ∧ s'.leafCount root f = 0 := by
  have h' := h.step hok hroom hexec
  obtain hpend' | ⟨hfree, va, rfl⟩ := h.pending_step hpend hok hexec
  · exact Or.inl ⟨hpend', h'.leafCount_pos hpend'⟩
  · right
    have hzero : s'.leafCount root f = 0 := by
      by_contra hne
      exact h'.not_free (Nat.pos_of_ne_zero hne) hfree
    have hpos := h.leafCount_pos hpend
    refine ⟨hfree, va, rfl, ?_, hzero⟩
    obtain ⟨⟨r, s₁⟩, hunmap, rfl⟩ := Option.map_eq_some_iff.1 hexec
    have hzero : s₁.leafCount root f = 0 := hzero
    obtain rfl | ⟨-, -, g, hleaves, -⟩ := h.vm.unmap_effect h.ram hunmap
    · omega
    · have hcount := hleaves f
      split_ifs at hcount <;> omega

theorem release_mapped (h : CountInv root s) (hleaf : 0 < s.leafCount root f)
    (hres : (s.frames f).ownerTag ≠ .reserved) :
    ∃ s', s.releaseFrame f = some s' ∧ (s'.frames f).ownerTag = .pending := by
  obtain ⟨L, G, hcoh⟩ := h.vm.coherent
  have hlt := h.vm.lt_of_leafCount_pos hleaf
  have hbad : ¬ ((s.frames f).owner.tag = .reserved ∨ (s.frames f).owner.tag = .free) :=
    not_or.2 ⟨hres, h.not_free hleaf⟩
  have hmap : (s.frames f).mappings ≠ 0 := by
    intro hz
    have hcount := h.exact f
    rw [hz] at hcount
    exact absurd hcount (Nat.ne_of_lt hleaf)
  refine ⟨s.deferred f, ?_, ?_⟩
  · rw [releaseFrame_eq hcoh.table hlt, if_neg hbad, if_pos (Or.inr hmap)]
  · unfold deferred
    split_ifs with hpend
    · exact hpend
    · rw [setInfo_frames, Function.update_self]
      rfl

end CountInv

/-! ## Where runs start -/

/-- No frame is pinned or mapped. -/
structure Unreferenced (s : Machine) : Prop where
  coherent : s.IsCoherent
  settled : s.AllSettled
  unpinned : ∀ f, (s.frames f).pinned = 0
  unmapped : ∀ f, (s.frames f).mappings = 0

theorem Unreferenced.run (h : s.Unreferenced) (hrun : ReflTransGen PlainStep s s') :
    s'.Unreferenced := by
  refine Runs.invariant (fun s op s' h hok hexec => ?_) h hrun
  obtain ⟨L, G, hcoh⟩ := h.coherent
  refine ⟨hcoh.step ⟨op, hok.2, hexec⟩, settled_plain h.settled hok.1 hok.2 hexec, fun f => ?_,
    fun f => ?_⟩
  · rw [(plain_counters hok.1 hexec f).1, h.unpinned]
  · rw [(plain_counters hok.1 hexec f).2, h.unmapped]

/-- A new table maps nothing. -/
theorem NewTable.countInv (h : NewTable root s) (hram : s.numFrames ≤ 2 ^ 24) : CountInv root s := by
  obtain ⟨boot, specs, outUntyped, caps, heapLen, mem, info, b, s₁, hboot, hinit, hplain, hnew⟩ := h
  have hpmm : PlainStep ≤ PmmStep := by
    rintro x y ⟨op, hok, hexec⟩
    exact ⟨op, hok.2, hexec⟩
  have hsteps : ReflTransGen PmmStep b s₁ := ReflTransGen.mono hpmm _ _ hplain
  have hbooted : Booted s₁ :=
    ⟨boot, specs, outUntyped, caps, heapLen, mem, info, b, hboot, hinit, hsteps⟩
  have hidle := pmmInit_idle hinit.returns
  have h₁ : s₁.Unreferenced := Unreferenced.run
    ⟨(pmmInit_coherent hboot hinit.returns).1, allSettled_of_idle hidle, hidle.pinned, hidle.mappings⟩ hplain
  obtain ⟨W, hholds⟩ := NewSpace.holds ⟨s₁, hbooted, hnew⟩
  have hgrows : Grows s₁ s := by
    rcases hnew with hnew | ⟨ramEnd, hnew⟩
    · obtain ⟨r, s', hrun, hgrows, -⟩ := newTable_spec h₁.coherent
      obtain ⟨-, rfl⟩ := Prod.mk.inj (Option.some.inj (hnew.symm.trans hrun))
      exact hgrows
    · exact (newKernel_spec h₁.coherent hnew).2.1
  refine ⟨hholds.inv, hram, fun f => ?_, hgrows.settled h₁.settled, fun f => ?_⟩
  · rw [hgrows.mappings, h₁.unmapped, hholds.leafCount_eq_zero]
    rfl
  · rw [hgrows.pinned, h₁.unpinned]

end Machine

open Machine

variable {s₀ s : Machine} {root : Nat}

/-- **Mapping counts are exact** while they have room. In every state of such a run the count of a
frame is the number of its leaves; so releasing a frame with a leaf makes it pending, and a pending
frame becomes free when its last leaf is unmapped and not before. -/
theorem mappings_exact (hnew : NewTable root s₀) (hram : s₀.totalFrames ≤ 2 ^ 24)
    (hrun : ReflTransGen (CountedStep root) s₀ s) :
    (∀ f, (s.frames f).mappings.toNat = s.leafCount root f) ∧
      (∀ f, 0 < s.leafCount root f → (s.frames f).ownerTag ≠ .reserved →
        ∃ s', s.releaseFrame f = some s' ∧ (s'.frames f).ownerTag = .pending) ∧
      ∀ f (op : TableOp) s', (s.frames f).ownerTag = .pending → op.Allowed root s →
        op.Counts root s → op.exec root s = some s' →
        (s'.frames f).ownerTag = .pending ∧ 0 < s'.leafCount root f ∨
          (s'.frames f).ownerTag = .free ∧
            ∃ va, op = .unmap va ∧ s.leafCount root f = 1 ∧ s'.leafCount root f = 0 := by
  have h : CountInv root s := Runs.invariant
    (fun _ _ _ h hok hexec => h.step hok.1 hok.2 hexec) (hnew.countInv hram) hrun
  exact ⟨h.exact, fun f hleaf hres => h.release_mapped hleaf hres,
    fun f op s' hpend hok hroom hexec => h.pending_until hpend hok hroom hexec⟩

/-- A frame from the pool, mapped at one page and released. -/
theorem mappings_exact_small :
    ∃ root f s₀ s s', NewTable root s₀ ∧ s₀.totalFrames ≤ 2 ^ 24 ∧ CountedStep root s₀ s ∧
      s.leafCount root f = 1 ∧ s.releaseFrame f = some s' ∧ (s'.frames f).ownerTag = .pending := by
  have hrun : ((finish (pmmInit pageBoot [] [] 0) (reset fun _ => 0)).bind fun r =>
      r.2.allocFrame.bind fun a => a.1.bind fun f => a.2.newTable.bind fun t => t.1.bind fun root =>
        (t.2.map root 0x1000 (f * frameSize) .user).map fun m =>
          decide (m.1 = .ok () ∧ t.2.totalFrames ≤ 2 ^ 24 ∧ (t.2.frames f).ownerTag = .kernel ∧
            (t.2.frames f).mappings = 0 ∧ (m.2.frames f).ownerTag = .kernel ∧
            (m.2.frames f).mappings = 1)) = some true := by
    decide +kernel
  obtain ⟨⟨⟨info, caps⟩, b⟩, hinit, hrun⟩ := Option.bind_eq_some_iff.1 hrun
  obtain ⟨⟨o, s₁⟩, halloc, hrun⟩ := Option.bind_eq_some_iff.1 hrun
  obtain ⟨f, rfl, hrun⟩ := Option.bind_eq_some_iff.1 hrun
  obtain ⟨⟨o, s₀⟩, hnew, hrun⟩ := Option.bind_eq_some_iff.1 hrun
  obtain ⟨root, rfl, hrun⟩ := Option.bind_eq_some_iff.1 hrun
  obtain ⟨⟨r, s⟩, hmap, hrun⟩ := Option.map_eq_some_iff.1 hrun
  obtain ⟨rfl, hram, hkernel, hzero, hkernel', hone⟩ := of_decide_eq_true hrun
  have hplain : PlainStep b s₁ := ⟨.alloc, ⟨trivial, trivial⟩, by simp [PmmOp.exec, halloc]⟩
  have htable : NewTable root s₀ := ⟨pageBoot, [], [], caps, 0, _, info, b, s₁, by decide,
    ⟨pageBoot_apart, returns_of_finish hinit⟩, ReflTransGen.single hplain, Or.inl hnew⟩
  have hframe : f * frameSize / frameSize = f := Nat.mul_div_cancel f (by decide)
  have hstep : CountedStep root s₀ s := by
    refine ⟨.map 0x1000 (f * frameSize) .user, ⟨⟨by decide, ?_⟩, Or.inl ?_⟩, ?_⟩
    · rw [hframe, hkernel]
      decide
    · rw [hframe, ← (htable.countInv hram).exact f, hzero]
      decide
    · rw [TableOp.exec, hmap]
      rfl
  obtain ⟨hexact, hrelease, -⟩ := mappings_exact htable hram (ReflTransGen.single hstep)
  have hcount : s.leafCount root f = 1 := by
    rw [← hexact f, hone]
    rfl
  obtain ⟨s', hrel, hpend⟩ := hrelease f (by omega) (by rw [hkernel']; decide)
  exact ⟨root, f, s₀, s, s', htable, hram, hstep, hcount, hrel, hpend⟩

end Rolnix
