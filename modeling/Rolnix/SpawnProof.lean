import Rolnix.UserSpace
import Rolnix.SchedProof

/-!
# What a spawn maps

`mapUserPage`, `mapCode` and `mapProcess` in terms of the address space: which pages they add, and
that they leave all others and their bytes alone. The pages of a process are numbered from
`codePage` on, its stack is page 256 of its region. A spawn that gets to map the stack has found
that page unmapped, so the image it mapped before ends below it.
-/

namespace Rolnix

open Radix

namespace Machine

variable {s s' s₁ : Machine} {root va f pid : Nat} {A A' : AddrSpace} {W : Nat → Option Nat}
  {image : List UInt8} {b : Bool}

/-! ## One page -/

theorem UserSpace.allocated (h : UserSpace root W s A) (hrun : s.allocFrame = some (some f, s')) :
    UserSpace root W s' A ∧ LeavesAside root s s' ∧ s'.Aside root f ∧ f < s'.numFrames ∧
      (s'.frames f).owner = .kernel ∧ (s'.frames f).mappings = 0 ∧
      ∀ n pa flags, A n = some (pa, flags) → pa / frameSize ≠ f := by
  obtain ⟨hspace, hleaves⟩ := h.alloc hrun
  obtain ⟨L, G, hcoh⟩ := h.holds.inv.coherent
  obtain ⟨r, s₁, L', G', hrun', hcoh', -, ha, -, -⟩ := allocFrame_spec hcoh
  obtain ⟨rfl, rfl⟩ := Prod.mk.inj (Option.some.inj (hrun.symm.trans hrun'))
  obtain ⟨hlt, hfree, hframes⟩ := ha.some f rfl
  have howner : (s'.frames f).owner = .kernel := by rw [hframes, Function.update_self]; rfl
  obtain ⟨-, -, hE⟩ := h.holds.inv.alloc ⟨L', G', hcoh'⟩ ha
  refine ⟨hspace, hleaves, ⟨by rw [howner]; decide, ?_⟩, ?_, howner, ?_, ?_⟩
  · rintro ⟨p, hp, hpw⟩
    rw [Tree.walk_eq hE (by omega)] at hpw
    exact (h.holds.inv.isTable ⟨p, hp, hpw⟩).not_free hfree
  · rw [ha.boot.numFrames]
    exact hlt
  · rw [hframes, Function.update_self]
    exact ((h.settled f).1 (congrArg FrameOwner.tag hfree)).2
  · intro n pa flags hA heq
    exact (h.aside n pa flags hA).1 (heq ▸ hfree)

/-- Mapping such a frame. -/
theorem UserSpace.mapped_fresh (h : UserSpace root W s A) (hva : va < 2 ^ 64)
    (hc : isCanonical va = true) (hal : va % frameSize = 0) (hf : s.Aside root f)
    (hlt : f < s.numFrames) (howner : (s.frames f).owner = .kernel)
    (hzero : (s.frames f).mappings = 0)
    (hnew : ∀ n pa flags, A n = some (pa, flags) → pa / frameSize ≠ f)
    (hrun : s.map root va (framePhys f) userFlags = some (.ok (), s')) :
    A (va / frameSize) = none ∧ W (va / frameSize) = none ∧
      UserSpace root W s' (Function.update A (va / frameSize) (some (framePhys f, userFlags))) ∧
      LeavesAside root s s' := by
  have hpa : framePhys f % frameSize = 0 := Nat.mul_mod_left _ _
  have hdiv : framePhys f / frameSize = f := Nat.mul_div_cancel f (by decide)
  obtain ⟨r, s₁, hrun', hm⟩ : ∃ r s', s.map root va (framePhys f) userFlags = some (r, s') ∧ _ :=
    map_spec h.holds.inv hc hal hpa (Nat.mul_lt_mul_of_pos_right hlt (by decide))
  obtain ⟨rfl, rfl⟩ := Prod.mk.inj (Option.some.inj (hrun.symm.trans hrun'))
  obtain ⟨hnone, -, -, s₂, hgrows, hframes⟩ := hm.ok rfl
  rw [h.holds.pages va hva hc, walkOf_eq_none] at hnone
  have hholds := (h.holds.map hva hrun).1
  rw [hdiv] at hframes
  have hsame : s₂.frames f = s.frames f := by
    rcases hgrows.frames f with he | ⟨hfree, -⟩
    · exact he
    · exact absurd hfree hf.1
  -- the pages of the new address space
  have hpages : ∀ {n pa flags},
      Function.update A (va / frameSize) (some (framePhys f, userFlags)) n = some (pa, flags) →
      n = va / frameSize ∧ pa / frameSize = f ∨
        A n = some (pa, flags) ∧ pa / frameSize ≠ f := by
    intro n pa flags hA
    by_cases hn : n = va / frameSize
    · subst hn
      rw [Function.update_self] at hA
      obtain ⟨rfl, -⟩ := Prod.mk.inj (Option.some.inj hA)
      exact Or.inl ⟨rfl, hdiv⟩
    · rw [Function.update_of_ne hn] at hA
      exact Or.inr ⟨hA, hnew n pa flags hA⟩
  refine ⟨hnone.1, hnone.2, ⟨hholds, ?_, ?_, ?_, ?_⟩, hm.aside⟩
  · refine (hgrows.settled h.settled).update (settled_of_owner ?_ ?_) hframes
    · rw [hsame]
      show (s.frames f).owner.tag ≠ .free
      rw [howner]
      decide
    · rw [hsame]
      show (s.frames f).owner.tag ≠ .pending
      rw [howner]
      decide
  · intro n pa flags hA
    rcases hpages hA with ⟨-, hdiv'⟩ | ⟨hA, -⟩
    · rw [hdiv']
      exact (hm.aside f hf).1
    · exact (hm.aside _ (h.aside n pa flags hA)).1
  · intro n pa flags hA
    rcases hpages hA with ⟨-, hdiv'⟩ | ⟨hA, hne⟩
    · rw [hdiv', hframes, Function.update_self, hsame]
      show (s.frames f).mappings + 1 ≠ 0
      rw [hzero]
      decide
    · rw [hframes, Function.update_of_ne hne, hgrows.mappings]
      exact h.mapped n pa flags hA
  · intro n m pa pa' flags flags' hA hA' heq
    rcases hpages hA with ⟨hn, hdiv₁⟩ | ⟨hA, hne⟩
    · rcases hpages hA' with ⟨hm, -⟩ | ⟨-, hne'⟩
      · rw [hn, hm]
      · exact absurd (heq.symm.trans hdiv₁) hne'
    · rcases hpages hA' with ⟨-, hdiv₁⟩ | ⟨hA', -⟩
      · exact absurd (heq.trans hdiv₁) hne
      · exact h.inj n m pa pa' flags flags' hA hA' heq

/-- **One page of a process.** -/
theorem UserSpace.mapUserPage (h : UserSpace root W s A) (hva : va < 2 ^ 64)
    (hc : isCanonical va = true) (hal : va % frameSize = 0)
    (hrun : s.mapUserPage root va = some (b, s')) :
    LeavesAside root s s' ∧ (b = false → UserSpace root W s' A) ∧
      (b = true → A (va / frameSize) = none ∧ W (va / frameSize) = none ∧
        ∃ pa, UserSpace root W s' (Function.update A (va / frameSize) (some (pa, userFlags)))) := by
  unfold Machine.mapUserPage at hrun
  cases halloc : s.allocFrame with
  | none =>
      rw [halloc] at hrun
      cases hrun
  | some r =>
      obtain ⟨r, s₁⟩ := r
      rw [halloc] at hrun
      cases r with
      | none =>
          obtain ⟨rfl, rfl⟩ := Prod.mk.inj (Option.some.inj hrun)
          obtain ⟨hspace, hleaves⟩ := h.alloc halloc
          exact ⟨hleaves, fun _ => hspace, (by simp)⟩
      | some f =>
          obtain ⟨hspace, hleaves, hf, hlt, howner, hzero, hnew⟩ := h.allocated halloc
          simp only at hrun
          split at hrun
          · rename_i u s₂ hmap
            obtain ⟨rfl, rfl⟩ := Prod.mk.inj (Option.some.inj hrun)
            obtain ⟨hnone, hW, hspace', hleaves'⟩ :=
              hspace.mapped_fresh hva hc hal hf hlt howner hzero hnew hmap
            exact ⟨hleaves.trans hleaves', (by simp), fun _ => ⟨hnone, hW, _, hspace'⟩⟩
          · cases hrun

/-! ## The image -/

/-- What mapping pages `k, …, k + m - 1` of the image at page `p` did. -/
structure CodeMapped (root : Nat) (W : Nat → Option Nat) (image : List UInt8) (p k m : Nat)
    (s : Machine) (A : AddrSpace) (b : Bool) (s' : Machine) (A' : AddrSpace) : Prop where
  space : UserSpace root W s' A'
  /-- The pages that were there keep their bytes. -/
  bytes : ∀ n pa flags, A n = some (pa, flags) → ∀ o < frameSize, s'.mem (pa + o) = s.mem (pa + o)
  kept : ∀ n, A n ≠ none → A' n = A n
  only : ∀ n, n < p + k ∨ p + k + m ≤ n → A' n = A n
  /-- The pages are mapped in order. -/
  first : A' (p + k) = A (p + k) → A' = A
  all : b = true → ∀ i, k ≤ i → i < k + m → A (p + i) = none ∧ ∃ pa,
    A' (p + i) = some (pa, userFlags) ∧ ∀ o < frameSize, i * frameSize + o < image.length →
      s'.mem (pa + o) = image.getD (i * frameSize + o) 0

theorem getD_page {k o : Nat} (ho : o < frameSize) (hlen : k * frameSize + o < image.length) :
    o < ((image.drop (k * frameSize)).take frameSize).length ∧
      ((image.drop (k * frameSize)).take frameSize).getD o 0 = image.getD (k * frameSize + o) 0 := by
  constructor
  · rw [List.length_take, List.length_drop]
    omega
  · rw [List.getD_eq_getElem?_getD, List.getElem?_take_of_lt ho, List.getElem?_drop,
      ← List.getD_eq_getElem?_getD]

theorem copy_outside {pa x : Nat} {bs : List UInt8} (hpa : pa % frameSize = 0)
    (hlen : bs.length ≤ frameSize) (hx : x / frameSize ≠ pa / frameSize) :
    s.mem.copy pa bs x = s.mem x := by
  refine ByteMem.copy_of_not_mem ?_
  simp only [frameSize] at hpa hlen hx
  omega

theorem UserSpace.copyTo (h : UserSpace root W s A) (hva : va < 2 ^ 64) (hc : isCanonical va = true)
    (hal : va % frameSize = 0) {pa : Nat} {flags : Flags} {bs : List UInt8}
    (hA : A (va / frameSize) = some (pa, flags)) (hlen : bs.length ≤ frameSize)
    (hrun : s.copyTo root va bs = some s') :
    UserSpace root W s' A ∧ (∀ o < bs.length, s'.mem (pa + o) = bs.getD o 0) ∧
      ∀ n pa' flags', n ≠ va / frameSize → A n = some (pa', flags') → ∀ o < frameSize,
        s'.mem (pa' + o) = s.mem (pa' + o) := by
  rw [Machine.copyTo, h.holds.mmu_page hva hc hA, hal, Nat.add_zero] at hrun
  obtain rfl := Option.some.inj hrun
  have hpa := (h.holds.ram _ pa flags hA).1
  refine ⟨h.setMem hA fun x => copy_outside hpa hlen, fun o ho => ByteMem.copy_add ho, ?_⟩
  intro n pa' flags' hne hA' o ho
  refine copy_outside hpa hlen fun heq => hne (h.inj n _ pa' pa flags' flags hA' hA ?_)
  have hpa' := (h.holds.ram n pa' flags' hA').1
  simp only [frameSize] at hpa' ho heq ⊢
  omega

/-- **The loop over the code pages.** -/
theorem UserSpace.mapCode {codeVa k m : Nat} (h : UserSpace root W s A)
    (hal : codeVa % frameSize = 0) (hend : codeVa + (k + m) * frameSize ≤ 2 ^ 47)
    (hrun : mapCode root codeVa image (List.range' k m) s = some (b, s')) :
    ∃ A', CodeMapped root W image (codeVa / frameSize) k m s A b s' A' := by
  induction m generalizing k s A with
  | zero =>
      obtain ⟨rfl, rfl⟩ := Prod.mk.inj (Option.some.inj hrun)
      refine ⟨A, h, fun _ _ _ _ _ _ => rfl, fun _ _ => rfl, fun _ _ => rfl, fun _ => rfl, ?_⟩
      intro _ i hi hi'
      omega
  | succ m ih =>
      have hpos : 0 < frameSize := by decide
      rw [← Nat.add_assoc] at hend
      have hva : codeVa + k * frameSize < 2 ^ 47 := by
        rw [Nat.succ_mul, Nat.add_mul] at hend
        omega
      have hc : isCanonical (codeVa + k * frameSize) = true :=
        (isCanonical_iff (by omega)).2 (Or.inl hva)
      have hal' : (codeVa + k * frameSize) % frameSize = 0 := by rw [Nat.add_mul_mod_self_right, hal]
      have hpage : (codeVa + k * frameSize) / frameSize = codeVa / frameSize + k :=
        Nat.add_mul_div_right _ _ hpos
      rw [List.range'_succ, Machine.mapCode] at hrun
      cases hmap : s.mapUserPage root (codeVa + k * frameSize) with
      | none =>
          simp only [hmap] at hrun
          cases hrun
      | some r =>
          obtain ⟨b₁, s₁⟩ := r
          obtain ⟨hleaves, hfail, hok⟩ := h.mapUserPage (by omega) hc hal' hmap
          simp only [hmap] at hrun
          cases b₁ with
          | false =>
              obtain ⟨rfl, rfl⟩ := Prod.mk.inj (Option.some.inj hrun)
              exact ⟨A, hfail rfl, fun n pa flags hA o ho => h.mem_eq hleaves hA ho, fun _ _ => rfl,
                fun _ _ => rfl, fun _ => rfl, (by simp)⟩
          | true =>
              obtain ⟨hnone, -, pa, hspace⟩ := hok rfl
              simp only at hrun
              cases hcopy : s₁.copyTo root (codeVa + k * frameSize)
                  ((image.drop (k * frameSize)).take frameSize) with
              | none =>
                  rw [hcopy] at hrun
                  cases hrun
              | some s₂ =>
                  rw [hcopy] at hrun
                  obtain ⟨hspace₂, hwritten, hothers⟩ := hspace.copyTo (by omega) hc hal'
                    (Function.update_self _ _ _) (List.length_take_le _ _) hcopy
                  rw [hpage] at hnone hspace hspace₂ hothers
                  rw [Nat.add_right_comm k m 1] at hend
                  obtain ⟨A', hrest⟩ := ih hspace₂ hend hrun
                  generalize codeVa / frameSize = p at hnone hspace hspace₂ hothers hrest ⊢
                  -- the page just mapped is not mapped again
                  have hself : A' (p + k) = some (pa, userFlags) := by
                    rw [hrest.kept _ (by rw [Function.update_self]; simp), Function.update_self]
                  have hold : ∀ n, A n ≠ none → n ≠ p + k := by
                    rintro n hn rfl
                    exact hn hnone
                  refine ⟨A', hrest.space, ?_, ?_, ?_, ?_, ?_⟩
                  · intro n pa' flags' hA o ho
                    have hn := hold n (by rw [hA]; simp)
                    have hA₁ : Function.update A (p + k) (some (pa, userFlags)) n = some (pa', flags') := by
                      rw [Function.update_of_ne hn, hA]
                    rw [hrest.bytes n pa' flags' hA₁ o ho, hothers n pa' flags' hn hA₁ o ho,
                      h.mem_eq hleaves hA ho]
                  · intro n hn
                    rw [hrest.kept n (by rwa [Function.update_of_ne (hold n hn)]),
                      Function.update_of_ne (hold n hn)]
                  · intro n hn
                    rw [hrest.only n (by omega), Function.update_of_ne (by omega)]
                  · intro hfirst
                    rw [hself, hnone] at hfirst
                    cases hfirst
                  · intro hb i hi hi'
                    by_cases hik : i = k
                    · subst hik
                      refine ⟨hnone, pa, hself, fun o ho hlen => ?_⟩
                      obtain ⟨hin, hbyte⟩ := getD_page ho hlen
                      rw [hrest.bytes (p + i) pa userFlags (Function.update_self _ _ _) o ho,
                        hwritten o hin, hbyte]
                    · have hall := hrest.all hb i (by omega) (by omega)
                      rwa [Function.update_of_ne (by omega)] at hall

end Machine

/-! ## The region of a process -/

/-- The number of the first page of a process's region. -/
def codePage (pid : Nat) : Nat := userCodeVa pid / frameSize

/-- The number of pages of an image. -/
def codeFrames (image : List UInt8) : Nat := (image.length + frameSize - 1) / frameSize

theorem userCodeVa_eq (pid : Nat) : userCodeVa pid = codePage pid * frameSize := by
  simp only [codePage, userCodeVa, procBase, procStride, frameSize]
  omega

theorem userStackVa_eq (pid : Nat) : userStackVa pid = (codePage pid + 256) * frameSize := by
  simp only [codePage, userStackVa, userStackTop, userCodeVa, procBase, procStride, procStackOffset,
    frameSize]
  omega

theorem codePage_apart {pid pid' : Nat} (hne : pid ≠ pid') :
    codePage pid' < codePage pid ∨ codePage pid + 257 ≤ codePage pid' := by
  simp only [codePage, userCodeVa, procBase, procStride, frameSize]
  omega

theorem codePage_le {pid : Nat} (hpid : pid < maxProcesses) : codePage pid ≤ 0x82000 := by
  simp only [maxProcesses] at hpid
  simp only [codePage, userCodeVa, procBase, procStride, frameSize]
  omega

theorem page_canonical {n o : Nat} (hn : n < 2 ^ 35) (ho : o < frameSize) :
    n * frameSize + o < 2 ^ 64 ∧ isCanonical (n * frameSize + o) = true ∧
      (n * frameSize + o) / frameSize = n ∧ (n * frameSize + o) % frameSize = o := by
  simp only [frameSize] at ho ⊢
  have hlt : n * 4096 + o < 2 ^ 47 := by omega
  exact ⟨by omega, (isCanonical_iff (by omega)).2 (Or.inl hlt), by omega, by omega⟩

/-- The image and the stack of `pid` are mapped. -/
def Complete (image : List UInt8) (A : AddrSpace) (pid : Nat) : Prop :=
  (∀ i < codeFrames image, ∃ pa, A (codePage pid + i) = some (pa, userFlags)) ∧
    ∃ pa, A (codePage pid + 256) = some (pa, userFlags)

/-- The pages of `pid` hold the image. -/
def Loaded (image : List UInt8) (s : Machine) (A : AddrSpace) (pid : Nat) : Prop :=
  ∀ i o, o < frameSize → i * frameSize + o < image.length → ∃ pa,
    A (codePage pid + i) = some (pa, userFlags) ∧ s.mem (pa + o) = image.getD (i * frameSize + o) 0

theorem Complete.mono {image : List UInt8} {A A' : AddrSpace} {pid : Nat} (h : Complete image A pid)
    (hkept : ∀ n, A n ≠ none → A' n = A n) : Complete image A' pid := by
  have hpage : ∀ n pa, A n = some (pa, userFlags) → A' n = some (pa, userFlags) := by
    intro n pa hA
    rw [hkept n (by rw [hA]; simp), hA]
  refine ⟨fun i hi => ?_, ?_⟩
  · obtain ⟨pa, hpa⟩ := h.1 i hi
    exact ⟨pa, hpage _ pa hpa⟩
  · obtain ⟨pa, hpa⟩ := h.2
    exact ⟨pa, hpage _ pa hpa⟩

theorem Loaded.mono {image : List UInt8} {s s' : Machine} {A A' : AddrSpace} {pid : Nat}
    (h : Loaded image s A pid) (hkept : ∀ n, A n ≠ none → A' n = A n)
    (hbytes : ∀ n pa flags, A n = some (pa, flags) → ∀ o < frameSize,
      s'.mem (pa + o) = s.mem (pa + o)) : Loaded image s' A' pid := by
  intro i o ho hlen
  obtain ⟨pa, hpa, hbyte⟩ := h i o ho hlen
  refine ⟨pa, ?_, ?_⟩
  · rw [hkept _ (by rw [hpa]; simp), hpa]
  · rw [hbytes _ pa userFlags hpa o ho, hbyte]

theorem page_lt_codeFrames {image : List UInt8} {i o : Nat} (h : i * frameSize + o < image.length) :
    i < codeFrames image := by
  simp only [codeFrames, frameSize] at h ⊢
  omega

section Process

open Machine

variable {s s' : Machine} {root pid : Nat} {A A' : AddrSpace} {W : Nat → Option Nat}
  {image : List UInt8} {b : Bool}

/-- What `mapProcess` did, if it succeeded. -/
structure ProcessMapped (root : Nat) (W : Nat → Option Nat) (image : List UInt8) (pid : Nat)
    (s : Machine) (A : AddrSpace) (s' : Machine) (A' : AddrSpace) : Prop where
  space : UserSpace root W s' A'
  bytes : ∀ n pa flags, A n = some (pa, flags) → ∀ o < frameSize, s'.mem (pa + o) = s.mem (pa + o)
  kept : ∀ n, A n ≠ none → A' n = A n
  only : ∀ n, n < codePage pid ∨ codePage pid + 257 ≤ n → A' n = A n
  complete : Complete image A' pid
  loaded : Loaded image s' A' pid

/-- **Mapping a process.** -/
theorem Machine.UserSpace.mapProcess (h : UserSpace root W s A) (hpid : pid < maxProcesses)
    (hlen : image.length < 2 ^ 44) (hrun : s.mapProcess root pid image = some (true, s')) :
    ∃ A', ProcessMapped root W image pid s A s' A' := by
  have hp := codePage_le hpid
  have hal : userCodeVa pid % frameSize = 0 := by rw [userCodeVa_eq, Nat.mul_mod_left]
  have hend : userCodeVa pid + (0 + codeFrames image) * frameSize ≤ 2 ^ 47 := by
    rw [userCodeVa_eq]
    simp only [codeFrames, frameSize]
    omega
  simp only [Machine.mapProcess, List.range_eq_range'] at hrun
  cases hcode : Machine.mapCode root (userCodeVa pid) image
      (List.range' 0 ((image.length + frameSize - 1) / frameSize)) s with
  | none =>
      rw [hcode] at hrun
      cases hrun
  | some r =>
      obtain ⟨b₁, s₁⟩ := r
      obtain ⟨A₁, hm⟩ := h.mapCode hal hend hcode
      have honly := hm.only
      have hall := hm.all
      rw [hcode] at hrun
      cases b₁ with
      | false => cases hrun
      | true =>
          have hstack := page_canonical (n := codePage pid + 256) (o := 0) (by omega) (by decide)
          rw [Nat.add_zero, ← userStackVa_eq] at hstack
          obtain ⟨hva, hc, hpage, hoff⟩ := hstack
          obtain ⟨hleaves, -, hok⟩ := hm.space.mapUserPage hva hc hoff hrun
          rw [hpage] at hok
          obtain ⟨hnone, -, pa, hspace⟩ := hok rfl
          -- the stack was not mapped, so the image ends below it
          have hshort : codeFrames image ≤ 256 := by
            by_contra hlong
            obtain ⟨-, pa, hpa, -⟩ := hall rfl 256 (Nat.zero_le _)
              (by rw [Nat.zero_add]; exact Nat.lt_of_not_le hlong)
            exact absurd (hpa.symm.trans hnone) (by simp)
          have hold : ∀ n, A₁ n ≠ none → n ≠ codePage pid + 256 := by
            rintro n hn rfl
            exact hn hnone
          have hcodePages : ∀ i < codeFrames image, ∃ pa', A₁ (codePage pid + i) = some (pa', userFlags) ∧
              ∀ o < frameSize, i * frameSize + o < image.length →
                s₁.mem (pa' + o) = image.getD (i * frameSize + o) 0 := by
            intro i hi
            exact (hall rfl i (Nat.zero_le i) (by rw [Nat.zero_add]; exact hi)).2
          refine ⟨_, hspace, ?_, ?_, ?_, ⟨?_, pa, Function.update_self _ _ _⟩, ?_⟩
          · intro n pa' flags' hA o ho
            have hA₁ : A₁ n = some (pa', flags') := by rw [hm.kept n (by rw [hA]; simp), hA]
            rw [hm.space.mem_eq hleaves hA₁ ho, hm.bytes n pa' flags' hA o ho]
          · intro n hn
            rw [Function.update_of_ne (hold n (by rw [hm.kept n hn]; exact hn)), hm.kept n hn]
          · intro n hn
            have hcount : codeFrames image = (image.length + frameSize - 1) / frameSize := rfl
            rw [Function.update_of_ne (by omega)]
            refine honly n ?_
            show n < codePage pid + 0 ∨ codePage pid + 0 + codeFrames image ≤ n
            omega
          · intro i hi
            obtain ⟨pa', hpa', -⟩ := hcodePages i hi
            exact ⟨pa', by rw [Function.update_of_ne (by omega), hpa']⟩
          · intro i o ho hbyte
            have hi := page_lt_codeFrames hbyte
            obtain ⟨pa', hpa', hbytes⟩ := hcodePages i hi
            refine ⟨pa', by rw [Function.update_of_ne (by omega), hpa'], ?_⟩
            rw [hm.space.mem_eq hleaves hpa' ho, hbytes o ho hbyte]

end Process

end Rolnix
