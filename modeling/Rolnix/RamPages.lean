import Rolnix.RamTable
import Rolnix.VmmInit

/-!
# Page tables on bytes

A page table is a frame that came from the pool, so it is apart from the frame table, and stays so
while it is a table (`PoolApart.table`). Reading and writing its entries is then the same on a `Ram`
and on the `Machine` it holds, and so are `map`, `unmap`, `translate` and the making of new tables.

The descent of `map` is by induction on its levels, with the invariant `VmInv` of the machine: it
says that every frame the walk comes to is a table.
-/

namespace Rolnix

open Machine Radix

/-! ## Tables are apart -/

namespace Machine

variable {s s' : Machine} {root t i : Nat} {q : List Nat}

theorem PoolApart.grows (h : s.PoolApart) (hgrows : Grows s s') : s'.PoolApart := by
  intro f hf
  rcases hgrows.frames f with heq | ⟨hfree, -⟩
  · rw [heq] at hf
    exact (h f hf).congr hgrows.boot
  · exact (h.of_free hfree).congr hgrows.boot

theorem PoolApart.table (h : s.PoolApart) (hinv : VmInv s root) (ht : InTree s.entries root t) :
    s.Apart t :=
  h t (by rw [FrameInfo.ownerTag, (hinv.isTable ht).2]; decide)

theorem pageMem_readEntry (hi : i < 512) : PageMem.readEntry s t i = s.entries t i :=
  (entries_of_lt hi).symm

/-- A walk goes on below an entry that `map` and `unmap` follow. -/
theorem VmInv.walk_below (h : VmInv s root) (hq : q.length ≤ 2)
    (hw : walk childOf s.entries root q = some t) (hpres : ¬ s.entries t i &&& ptePresent = 0)
    (hsmall : ¬ s.entries t i &&& pteHuge ≠ 0 ∨ q.length ≠ 2) :
    walk childOf s.entries root (q ++ [i]) = some (physOf (s.entries t i)) := by
  rw [and_present_eq_zero, Bool.not_eq_false] at hpres
  rw [ne_eq, not_not, and_huge_eq_zero] at hsmall
  exact (h.walk_next hq hw hpres hsmall).2

end Machine

namespace Ram.Encodes

variable {r : Ram} {s : Machine} {root t i va pa : Nat} {q : List Nat}

/-! ## Entries -/

theorem entry_in_frame (hi : i < 512) :
    framePhys t + 8 * i + 8 ≤ framePhys t + frameSize := by
  unfold frameSize
  omega

theorem readEntry (h : r.Encodes s) (ht : s.Apart t) (hi : i < 512) :
    PageMem.readEntry r t i = PageMem.readEntry s t i :=
  h.loadWord ht (Nat.le_add_right _ _) (entry_in_frame hi)

theorem writeEntry (h : r.Encodes s) (ht : s.Apart t) (hi : i < 512) (entry : Nat) :
    Encodes (PageMem.writeEntry r t i entry) (PageMem.writeEntry s t i entry) :=
  h.storeWord ht (Nat.le_add_right _ _) (entry_in_frame hi) entry

theorem zeroTable (h : r.Encodes s) (ht : s.Apart t) :
    Encodes (PageMem.zeroTable r t) (PageMem.zeroTable s t) := by
  apply h.setMem
  · intro x hx
    apply ByteMem.fill_of_not_mem
    by_contra hcon
    refine ht x ?_ hx
    simp only [InFrame, framePhys, frameSize] at hcon ⊢
    omega
  · intro x hx
    simp only [ByteMem.fill, h.mem x hx]

theorem readTable (h : r.Encodes s) (hinv : VmInv s root) (hap : s.PoolApart) (hq : q.length ≤ 3)
    (hw : walk childOf s.entries root q = some t) (hi : i < 512) :
    PageMem.readEntry r t i = s.entries t i := by
  rw [h.readEntry (hap.table hinv ⟨q, hq, hw⟩) hi, pageMem_readEntry hi]

/-- `alloc_frame` on both, where the lists of the machine are coherent. -/
theorem alloc_some (h : r.Encodes s) (hc : s.IsCoherent) (hap : s.PoolApart) {a : Option Nat}
    {s' : Machine} (halloc : s.allocFrame = some (a, s')) :
    ∃ r', PoolMem.allocFrame r = some (a, r') ∧ r'.Encodes s' := by
  obtain ⟨L, G, hc⟩ := hc
  exact (h.allocFrame hc hap).right halloc

/-! ## Pages -/

theorem descend (h : r.Encodes s) (hinv : VmInv s root) (hap : s.PoolApart)
    (hw : walk childOf s.entries root q = some t) {levels : List Nat}
    (hlen : q.length + levels.length ≤ 3) {user : Nat} (huser : user = 0 ∨ user = pteUser) :
    InStep Encodes (Rolnix.descend va user levels t r) (Rolnix.descend va user levels t s) := by
  induction levels generalizing q t r s with
  | nil => exact .ret h
  | cons level levels ih =>
      rw [List.length_cons] at hlen
      have hi := index_lt va level
      have hq : q.length ≤ 2 := by omega
      have hlen' : (q ++ [index va level]).length + levels.length ≤ 3 := by simp; omega
      have happ : s.Apart t := hap.table hinv ⟨q, by omega, hw⟩
      rw [Rolnix.descend, Rolnix.descend]
      dsimp only
      rw [h.readEntry happ hi, pageMem_readEntry hi]
      refine .ite (fun habsent => ?_) fun hpres => .ite (fun _ => InStep.ret h) fun hsmall => ?_
      · -- a table is allocated
        obtain ⟨L, G, hcoh⟩ := hinv.coherent
        obtain ⟨a, s₁, L', G', halloc, hcoh', -, ha, -⟩ := allocFrame_spec hcoh
        obtain ⟨r₁, halloc', h₁⟩ := h.alloc_some hinv.coherent hap halloc
        simp only [halloc, halloc']
        cases a with
        | none => exact InStep.ret h₁
        | some new =>
            obtain ⟨-, hfree, -⟩ := ha.some new rfl
            have hnew : s₁.Apart new := (hap.of_free hfree).congr ha.boot
            rw [and_present_eq_zero] at habsent
            obtain ⟨hinv₂, hgrows, -, -, hw₂, -⟩ :=
              hinv.addTable hq hw hi habsent huser ⟨L', G', hcoh'⟩ ha rfl
            have h₂ := (h₁.zeroTable hnew).writeEntry (i := index va level)
              (happ.congr (ha.boot.trans ⟨rfl, rfl, rfl⟩)) hi (tableEntry new user)
            exact ih h₂ hinv₂ (hap.grows hgrows) hw₂ hlen'
      · -- the table is there
        rw [and_present_eq_zero, Bool.not_eq_false] at hpres
        rw [ne_eq, not_not, and_huge_eq_zero] at hsmall
        obtain ⟨hinv₁, hgrows, -, -, -, hw₁, -⟩ := hinv.promote hq hw hi hpres hsmall huser rfl
        have h₁ : Encodes
            (if user ≠ 0 then
              PageMem.writeEntry r t (index va level) (s.entries t (index va level) ||| user) else r)
            (if user ≠ 0 then
              PageMem.writeEntry s t (index va level) (s.entries t (index va level) ||| user)
            else s) := by
          split_ifs
          · exact h.writeEntry happ hi _
          · exact h
        rw [h₁.readEntry (happ.congr hgrows.boot) hi, pageMem_readEntry hi]
        exact ih h₁ hinv₁ (hap.grows hgrows) hw₁ hlen'

/-- What a descent from the root leaves. -/
theorem descend_run (h : r.Encodes s) (hinv : VmInv s root) (hap : s.PoolApart) (va : Nat)
    (levels : List Nat) (hlen : levels.length ≤ 3) {user : Nat} (huser : user = 0 ∨ user = pteUser) :
    ∃ res r₁ s₁, Rolnix.descend va user levels root r = some (res, r₁) ∧
      Rolnix.descend va user levels root s = some (res, s₁) ∧ r₁.Encodes s₁ ∧
      ∀ frame, res = .ok frame → s₁.Apart frame := by
  obtain ⟨res, s₁, hs, hd⟩ := descend_spec va levels hinv (q := []) rfl (by simpa using hlen) huser
    (fun _ r u j hpre => by simp at hpre)
  obtain ⟨r₁, hr, h₁⟩ := (h.descend (q := []) hinv hap rfl (by simpa using hlen) huser).right hs
  refine ⟨res, r₁, s₁, hr, hs, h₁, ?_⟩
  intro frame hres
  have hap₁ := hap.grows hd.grows
  refine hap₁.table hd.inv ⟨_, ?_, (hd.ok frame hres).1⟩
  simpa using hlen

theorem map (h : r.Encodes s) (hinv : VmInv s root) (hap : s.PoolApart) (flags : Flags) :
    InStep Encodes (PageMem.map r root va pa flags) (PageMem.map s root va pa flags) := by
  unfold PageMem.map
  rw [show FrameTable.totalFrames r = FrameTable.totalFrames s from h.numFrames]
  refine .ite (fun _ => InStep.ret h) fun _ => .ite (fun _ => InStep.ret h) fun _ => ?_
  refine .ite (fun _ => InStep.ret h) fun _ => ?_
  obtain ⟨res, r₁, s₁, hr, hs, h₁, hok⟩ :=
    h.descend_run hinv hap va [3, 2, 1] (by simp) (and_user_cases flags.bits)
  simp only [hr, hs]
  cases res with
  | error e => exact InStep.ret h₁
  | ok frame =>
      have happ := hok frame rfl
      have hi := index_lt va 0
      dsimp only
      rw [h₁.readEntry happ hi]
      refine .ite (fun _ => InStep.ret h₁) fun _ => ?_
      refine (h₁.writeEntry happ hi _).addMapping.map ?_
      intro x y hxy
      exact ⟨rfl, hxy.2⟩

theorem unmapWalk (h : r.Encodes s) (hinv : VmInv s root) (hap : s.PoolApart)
    (hw : walk childOf s.entries root q = some t) {levels : List Nat}
    (hlen : q.length + levels.length ≤ 3) :
    PageMem.unmapWalk r va levels t = PageMem.unmapWalk s va levels t := by
  induction levels generalizing q t with
  | nil => rfl
  | cons level levels ih =>
      rw [List.length_cons] at hlen
      have hi := index_lt va level
      have hq : q.length ≤ 2 := by omega
      unfold PageMem.unmapWalk
      dsimp only
      rw [h.readTable hinv hap (by omega) hw hi, pageMem_readEntry hi]
      split_ifs with habsent hhuge
      · rfl
      · rfl
      · exact ih (hinv.walk_below hq hw habsent (Or.inl hhuge)) (by simp; omega)

theorem unmap (h : r.Encodes s) (hinv : VmInv s root) (hap : s.PoolApart) :
    InStep Encodes (PageMem.unmap r root va) (PageMem.unmap s root va) := by
  unfold PageMem.unmap
  rw [h.unmapWalk hinv hap (q := []) rfl (by simp)]
  refine .ite (fun _ => InStep.ret h) fun _ => .ite (fun _ => InStep.ret h) fun _ => ?_
  have hi := index_lt va 0
  rcases unmapWalk_spec va [3, 2, 1] hinv (q := []) rfl (by simp) with
    ⟨frame, hrun, hw⟩ | ⟨hrun, -⟩ | ⟨hrun, -⟩
  · have happ : s.Apart frame := hap.table hinv ⟨_, by simp, hw⟩
    simp only [hrun]
    rw [h.readEntry happ hi]
    refine .ite (fun _ => InStep.ret h) fun _ => ?_
    refine ((h.writeEntry happ hi _).removeMapping ?_).map ?_
    · intro howner
      exact (hap _ howner).congr ⟨rfl, rfl, rfl⟩
    · intro x y hxy
      exact ⟨rfl, hxy.2⟩
  · simp only [hrun]
    exact InStep.ret h
  · simp only [hrun]
    exact InStep.ret h

/-! ## New tables -/

theorem newTable (h : r.Encodes s) (hc : s.IsCoherent) (hap : s.PoolApart) :
    InStep Encodes (PageMem.newTable r) (PageMem.newTable s) := by
  obtain ⟨L, G, hcoh⟩ := hc
  obtain ⟨a, s₁, L', G', halloc, -, -, ha, -⟩ := allocFrame_spec hcoh
  obtain ⟨r₁, halloc', h₁⟩ := h.alloc_some ⟨L, G, hcoh⟩ hap halloc
  simp only [PageMem.newTable, halloc, halloc', Option.bind_eq_bind, Option.bind_some]
  cases a with
  | none => exact InStep.ret h₁
  | some new =>
      obtain ⟨-, hfree, -⟩ := ha.some new rfl
      exact InStep.ret (h₁.zeroTable ((hap.of_free hfree).congr ha.boot))

theorem mapLarge (h : r.Encodes s) (hinv : VmInv s root) (hap : s.PoolApart) (leaf : Nat) :
    InStep Encodes (PageMem.mapLarge r root va pa leaf) (PageMem.mapLarge s root va pa leaf) := by
  obtain ⟨res, r₁, s₁, hr, hs, h₁, hok⟩ :=
    h.descend_run hinv hap va [3, 2] (by simp) (Or.inl rfl)
  unfold PageMem.mapLarge
  simp only [hr, hs]
  cases res with
  | error e => exact InStep.ret h₁
  | ok frame =>
      have happ := hok frame rfl
      have hi := index_lt va 1
      dsimp only
      rw [h₁.readEntry happ hi]
      exact .ite (fun _ => InStep.ret h₁) fun _ => InStep.ret (h₁.writeEntry happ hi _)

theorem mapWindowLoop (m : Nat) {fuel stop : Nat} (h : r.Encodes s) (hinv : VmInv s root)
    (hap : s.PoolApart) (hfuel : m < fuel) (hstop : stop = va + m * largePage) (hlt : stop < 2 ^ 64)
    (hal : pa % largePage = 0) (hpa : pa + m * largePage ≤ 2 ^ 63) :
    InStep Encodes (Rolnix.mapWindowLoop root windowLeaf.bits stop fuel va pa r)
      (Rolnix.mapWindowLoop root windowLeaf.bits stop fuel va pa s) := by
  induction m generalizing fuel va pa r s with
  | zero =>
      obtain ⟨fuel, rfl⟩ := Nat.exists_eq_succ_of_ne_zero (Nat.ne_of_gt hfuel)
      rw [Rolnix.mapWindowLoop, Rolnix.mapWindowLoop, if_neg (by omega), if_neg (by omega)]
      exact InStep.ret h
  | succ m ih =>
      obtain ⟨fuel, rfl⟩ := Nat.exists_eq_succ_of_ne_zero (Nat.ne_of_gt (Nat.zero_lt_of_lt hfuel))
      have hlarge : (m + 1) * largePage = m * largePage + largePage := by rw [Nat.add_mul, Nat.one_mul]
      have hpos : 0 < largePage := by decide
      obtain ⟨res, s₁, hs, hm⟩ := mapLarge_spec va hinv hal (show pa < 2 ^ 63 by omega)
      obtain ⟨r₁, hr, h₁⟩ := (h.mapLarge hinv hap _).right hs
      simp only [Rolnix.mapWindowLoop, if_pos (show va < stop by omega), hs, hr]
      cases res with
      | error e => exact InStep.ret h₁
      | ok u =>
          have hva : Word.add 64 va largePage = va + largePage := Word.add_of_lt (by omega)
          have hpa' : Word.add 64 pa largePage = pa + largePage := Word.add_of_lt (by omega)
          have hal' : (pa + largePage) % largePage = 0 := by rw [Nat.add_mod_right, hal]
          simp only [hva, hpa']
          exact ih h₁ hm.inv (hap.grows hm.grows) (Nat.lt_of_succ_lt_succ hfuel) (by omega) hal'
            (by omega)

theorem mapWindow (h : r.Encodes s) (hinv : VmInv s root) (hap : s.PoolApart) {bytes : Nat}
    (hbytes : bytes % largePage = 0) (hle : bytes ≤ 2 ^ 63) :
    InStep Encodes (PageMem.mapWindow r root va 0 bytes (Flags.present.with_ .writable))
      (PageMem.mapWindow s root va 0 bytes (Flags.present.with_ .writable)) := by
  have hdiv : bytes / largePage * largePage = bytes :=
    Nat.div_mul_cancel (Nat.dvd_of_mod_eq_zero hbytes)
  refine .ite (fun _ => InStep.ret h) fun _ => .ite (fun _ => InStep.ret h) fun _ => ?_
  by_cases hend : va + bytes < 2 ^ 64
  · rw [Word.add_of_lt hend]
    exact h.mapWindowLoop (bytes / largePage) hinv hap (by omega) (by rw [hdiv]) hend (by decide)
      (by rw [hdiv]; omega)
  · -- the end lies before the start
    have hwrap : ¬ va < Word.add 64 va bytes := by
      unfold Word.add
      omega
    simp only [Rolnix.mapWindowLoop, if_neg hwrap]
    exact InStep.ret h

theorem newKernel (h : r.Encodes s) (hc : s.IsCoherent) (hap : s.PoolApart) {ramEnd : Nat}
    (hram : ramEnd ≤ 2 ^ 44) :
    InStep Encodes (PageMem.newKernel r ramEnd) (PageMem.newKernel s ramEnd) := by
  have hal : Word.alignUp 64 ramEnd largePage % largePage = 0 :=
    (Word.alignUp_aligned (k := 21) (by decide)).1
  have hle : Word.alignUp 64 ramEnd largePage ≤ 2 ^ 63 := by
    have hlt := (Word.alignUp_spec (w := 64) (k := 21) (x := ramEnd) (by decide) (by omega)).2.1
    exact hlt.le.trans (by omega)
  obtain ⟨L, G, hcoh⟩ := hc
  obtain ⟨a, s₁, L', G', halloc, hcoh', -, ha, -⟩ := allocFrame_spec hcoh
  obtain ⟨r₁, halloc', h₁⟩ := h.alloc_some ⟨L, G, hcoh⟩ hap halloc
  unfold PageMem.newKernel
  simp only [halloc, halloc', Option.bind_eq_bind, Option.bind_some]
  cases a with
  | none => exact InStep.ret h₁
  | some root =>
      obtain ⟨-, hfree, -⟩ := ha.some root rfl
      obtain ⟨hinv, hgrows, -, -⟩ := VmInv.fresh ⟨L', G', hcoh'⟩ ha rfl
      have h₂ := h₁.zeroTable ((hap.of_free hfree).congr ha.boot)
      have hap₂ := hap.grows hgrows
      refine (h₂.mapWindow hinv hap₂ hal hle).bind ?_
      intro res r₃ s₃ hs₃ h₃
      cases res with
      | error e => exact InStep.ret h₃
      | ok u =>
          obtain ⟨hinv₃, hgrows₃, -⟩ := mapWindow_ok hinv hal hle hs₃
          dsimp only
          rw [show PageMem.physmapBase r₃ = PageMem.physmapBase s₃ from h₃.physmapBase]
          refine .ite (fun _ => .none) fun _ => ?_
          refine (h₃.mapWindow hinv₃ (hap₂.grows hgrows₃) hal hle).bind ?_
          intro res r₄ s₄ _ h₄
          cases res with
          | error e => exact InStep.ret h₄
          | ok u => exact InStep.ret h₄

/-- The walk in software reads tables only. -/
theorem translate (h : r.Encodes s) (hinv : VmInv s root) (hap : s.PoolApart) :
    PageMem.translate r root va = PageMem.translate s root va := by
  have hi := index_lt va
  unfold PageMem.translate
  dsimp only
  refine ite_congr rfl (fun _ => rfl) fun _ => ?_
  rw [h.readTable hinv hap (q := []) (by simp) rfl (hi 3), pageMem_readEntry (hi 3)]
  refine ite_congr rfl (fun _ => rfl) fun hp₃ => ?_
  have hw₂ := hinv.walk_below (q := []) (by simp) rfl hp₃ (Or.inr (by simp))
  rw [h.readTable hinv hap (by simp) hw₂ (hi 2), pageMem_readEntry (hi 2)]
  refine ite_congr rfl (fun _ => rfl) fun hp₂ => ite_congr rfl (fun _ => rfl) fun _ => ?_
  have hw₁ := hinv.walk_below (by simp) hw₂ hp₂ (Or.inr (by simp))
  rw [h.readTable hinv hap (by simp) hw₁ (hi 1), pageMem_readEntry (hi 1)]
  refine ite_congr rfl (fun _ => rfl) fun hp₁ => ite_congr rfl (fun _ => rfl) fun hh₁ => ?_
  have hw₀ := hinv.walk_below (by simp) hw₁ hp₁ (Or.inl hh₁)
  rw [h.readTable hinv hap (by simp) hw₀ (hi 0), pageMem_readEntry (hi 0)]

end Ram.Encodes

end Rolnix
