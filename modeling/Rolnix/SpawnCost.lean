import Rolnix.SpawnProof

/-!
# The frames a spawn takes

The pages of a process are below one page table, as long as its image ends below its stack. So
mapping them takes a frame for each page and one for each table that is missing on the way to the
first (`missing`). A spawn that finds the pool empty before it is done had fewer
(`mapProcess_short`), and one that finds it empty at once changes nothing (`mapProcess_dry`).
-/

namespace Rolnix

open Radix

namespace Machine

variable {s s' : Machine} {root va pa : Nat} {flags : Flags} {A : AddrSpace} {W : Nat → Option Nat}
  {image : List UInt8} {b : Bool}

/-! ## One page -/

/-- **One page of a process** takes a frame, and at most one for each missing table. -/
theorem UserSpace.mapUserPage_supply (h : UserSpace root W s A) (hc : isCanonical va = true)
    (hal : va % frameSize = 0) (hrun : s.mapUserPage root va = some (b, s')) :
    (b = false → s.supply = 0) ∧
      (b = true → s.supply ≤ s'.supply + missing childOf s.entries root (upper va) + 1 ∧
        ∃ t, walk childOf s'.entries root (upper va) = some t) := by
  obtain ⟨L, G, hcoh⟩ := h.holds.inv.coherent
  obtain ⟨r, s₁, L', G', halloc, hcoh', -, ha, hempty, hless⟩ := allocFrame_spec hcoh
  rw [Machine.mapUserPage, halloc] at hrun
  cases r with
  | none =>
      obtain ⟨rfl, rfl⟩ := Prod.mk.inj (Option.some.inj hrun)
      exact ⟨fun _ => (hempty rfl).1, (by simp)⟩
  | some f =>
      have hsupply := hless f rfl
      obtain ⟨hspace, -, -, hlt, -, -, -⟩ := h.allocated halloc
      obtain ⟨-, -, hE⟩ := h.holds.inv.alloc ⟨L', G', hcoh'⟩ ha
      have hmissing : missing childOf s₁.entries root (upper va) =
          missing childOf s.entries root (upper va) := by
        refine missing_congr fun p hp => Tree.walk_eq hE ?_
        exact hp.length_le.trans (by simp [upper])
      obtain ⟨r, s₂, hmap, hm⟩ : ∃ r s₂, s₁.map root va (framePhys f) userFlags = some (r, s₂) ∧ _ :=
        map_spec hspace.holds.inv hc hal (Nat.mul_mod_left _ _)
          (Nat.mul_lt_mul_of_pos_right hlt (by decide))
      simp only [hmap] at hrun
      cases r with
      | error e => cases hrun
      | ok u =>
          obtain ⟨rfl, rfl⟩ := Prod.mk.inj (Option.some.inj hrun)
          obtain ⟨-, -, htable, -⟩ := hm.ok rfl
          obtain ⟨a, c, w, hac, hw, hlen⟩ := missing_split childOf s₁.entries root (upper va)
          have htaken := (hm.supply a c w hac hw).1
          exact ⟨(by simp), fun _ => ⟨by omega, htable⟩⟩

theorem UserSpace.mapUserPage_dry (h : UserSpace root W s A) (hzero : s.supply = 0)
    (hrun : s.mapUserPage root va = some (b, s')) :
    b = false ∧ UserSpace root W s' A ∧ LeavesAside root s s' := by
  obtain ⟨L, G, hcoh⟩ := h.holds.inv.coherent
  obtain ⟨r, s₁, L', G', halloc, -, -, -, -, hless⟩ := allocFrame_spec hcoh
  rw [Machine.mapUserPage, halloc] at hrun
  cases r with
  | none =>
      obtain ⟨rfl, rfl⟩ := Prod.mk.inj (Option.some.inj hrun)
      exact ⟨rfl, h.alloc halloc⟩
  | some f =>
      have hsupply := hless f rfl
      omega

/-! ## The pages of a region -/

theorem upper_congr {w : Nat} (h : va / largePage = w / largePage) : upper va = upper w := by
  simp only [upper, List.map_cons, List.map_nil, List.cons.injEq, and_true, index_eq, largePage] at h ⊢
  omega

theorem UserSpace.copyTo_walk (h : UserSpace root W s A) (hva : va < 2 ^ 64)
    (hc : isCanonical va = true) (hal : va % frameSize = 0) {bs : List UInt8}
    (hA : A (va / frameSize) = some (pa, flags)) (hlen : bs.length ≤ frameSize) :
    ∃ s', s.copyTo root va bs = some s' ∧ s'.supply = s.supply ∧
      ∀ p, p.length ≤ 3 → walk childOf s'.entries root p = walk childOf s.entries root p := by
  rw [Machine.copyTo, h.holds.mmu_page hva hc hA, hal, Nat.add_zero]
  refine ⟨_, rfl, rfl, fun p hp => Tree.walk_eq (fun t ht => ?_) (by omega)⟩
  exact h.entries_setMem hA (fun x => copy_outside (h.holds.ram _ pa flags hA).1 hlen) ht

/-- **The loop over the code pages.** The tables that are missing are paid for once. -/
theorem UserSpace.mapCode_supply {codeVa k m : Nat} (h : UserSpace root W s A)
    (hal : codeVa % largePage = 0) (hend : codeVa + largePage ≤ 2 ^ 47) (hkm : k + m ≤ 512)
    (hrun : Machine.mapCode root codeVa image (List.range' k m) s = some (b, s')) :
    (b = false → s.supply < missing childOf s.entries root (upper codeVa) + m) ∧
      (b = true → s.supply + missing childOf s'.entries root (upper codeVa) ≤
        s'.supply + missing childOf s.entries root (upper codeVa) + m) := by
  induction m generalizing k s A with
  | zero =>
      obtain ⟨rfl, rfl⟩ := Prod.mk.inj (Option.some.inj hrun)
      exact ⟨(by simp), fun _ => le_rfl⟩
  | succ m ih =>
      have hva : codeVa + k * frameSize < 2 ^ 47 := by
        simp only [largePage, frameSize] at hend ⊢
        omega
      have hva64 : codeVa + k * frameSize < 2 ^ 64 := by omega
      have hc : isCanonical (codeVa + k * frameSize) = true := (isCanonical_iff hva64).2 (Or.inl hva)
      have hal' : (codeVa + k * frameSize) % frameSize = 0 := by
        simp only [largePage, frameSize] at hal ⊢
        omega
      have hupper : upper (codeVa + k * frameSize) = upper codeVa := by
        refine upper_congr ?_
        simp only [largePage, frameSize] at hal ⊢
        omega
      rw [List.range'_succ, Machine.mapCode] at hrun
      cases hmap : s.mapUserPage root (codeVa + k * frameSize) with
      | none =>
          simp only [hmap] at hrun
          cases hrun
      | some r =>
          obtain ⟨b₁, s₁⟩ := r
          obtain ⟨hdry, hpaid⟩ := h.mapUserPage_supply hc hal' hmap
          rw [hupper] at hpaid
          simp only [hmap] at hrun
          cases b₁ with
          | false =>
              obtain ⟨rfl, rfl⟩ := Prod.mk.inj (Option.some.inj hrun)
              have hzero := hdry rfl
              exact ⟨fun _ => by omega, (by simp)⟩
          | true =>
              obtain ⟨hcost, t, ht⟩ := hpaid rfl
              obtain ⟨-, -, hok⟩ := h.mapUserPage hva64 hc hal' hmap
              obtain ⟨-, -, pa, hspace⟩ := hok rfl
              have hlen : ((image.drop (k * frameSize)).take frameSize).length ≤ frameSize :=
                List.length_take_le _ _
              obtain ⟨s₂, hcopy, hsame, hwalk⟩ :=
                hspace.copyTo_walk hva64 hc hal' (Function.update_self _ _ _) hlen
              obtain ⟨hspace₂, -, -⟩ :=
                hspace.copyTo hva64 hc hal' (Function.update_self _ _ _) hlen hcopy
              have hnone : missing childOf s₂.entries root (upper codeVa) = 0 :=
                missing_eq_zero ((hwalk (upper codeVa) (by simp [upper])).trans ht)
              simp only [hcopy] at hrun
              obtain ⟨hfail, hdone⟩ := ih hspace₂ (by omega) hrun
              rw [hnone] at hfail hdone
              refine ⟨fun hb => ?_, fun hb => ?_⟩
              · have := hfail hb
                omega
              · have := hdone hb
                omega

end Machine

/-! ## A process -/

section Process

open Machine

variable {s s' : Machine} {root pid : Nat} {A : AddrSpace} {W : Nat → Option Nat}
  {image : List UInt8} {b : Bool}

theorem userCodeVa_large (pid : Nat) : userCodeVa pid % largePage = 0 := by
  simp only [userCodeVa, procBase, procStride, largePage]
  omega

theorem userCodeVa_end {pid : Nat} (hpid : pid < maxProcesses) :
    userCodeVa pid + largePage ≤ 2 ^ 47 := by
  have hp := codePage_le hpid
  rw [userCodeVa_eq]
  simp only [frameSize, largePage]
  omega

theorem userStackVa_page {pid : Nat} (hpid : pid < maxProcesses) :
    userStackVa pid < 2 ^ 64 ∧ isCanonical (userStackVa pid) = true ∧
      userStackVa pid / frameSize = codePage pid + 256 ∧ userStackVa pid % frameSize = 0 := by
  have hp := codePage_le hpid
  have hstack := page_canonical (n := codePage pid + 256) (o := 0) (by omega) (by decide)
  rwa [Nat.add_zero, ← userStackVa_eq] at hstack

theorem userCode_end (hpid : pid < maxProcesses) (hfit : codeFrames image ≤ 256) :
    userCodeVa pid + (0 + codeFrames image) * frameSize ≤ 2 ^ 47 := by
  have hp := codePage_le hpid
  rw [userCodeVa_eq]
  simp only [frameSize]
  omega

/-- The frames left are enough for a whole process: the pages of an image that ends below the stack,
the stack, and the tables that are missing. -/
def FramesForAll (s : Machine) (root pid : Nat) (image : List UInt8) : Prop :=
  codeFrames image ≤ 256 ∧
    codeFrames image + missing childOf s.entries root (upper (userCodeVa pid)) + 1 ≤ s.supply

/-- **A process that was not mapped to the end** did not have the frames for it. -/
theorem Machine.UserSpace.mapProcess_short (h : UserSpace root W s A) (hpid : pid < maxProcesses)
    (hrun : s.mapProcess root pid image = some (false, s')) : ¬ FramesForAll s root pid image := by
  rintro ⟨hfit, henough⟩
  have hframes : (image.length + frameSize - 1) / frameSize = codeFrames image := rfl
  simp only [Machine.mapProcess, List.range_eq_range', hframes] at hrun
  cases hcode : Machine.mapCode root (userCodeVa pid) image (List.range' 0 (codeFrames image)) s with
  | none =>
      rw [hcode] at hrun
      cases hrun
  | some r =>
      obtain ⟨b₁, s₁⟩ := r
      obtain ⟨hfail, hdone⟩ :=
        h.mapCode_supply (userCodeVa_large pid) (userCodeVa_end hpid) (by omega) hcode
      rw [hcode] at hrun
      cases b₁ with
      | false =>
          have := hfail rfl
          omega
      | true =>
          obtain ⟨A₁, hm⟩ := h.mapCode (k := 0) (m := codeFrames image)
            (by rw [userCodeVa_eq, Nat.mul_mod_left]) (userCode_end hpid hfit) hcode
          obtain ⟨-, hc, -, hmod⟩ := userStackVa_page hpid
          have hzero := (hm.space.mapUserPage_supply hc hmod hrun).1 rfl
          have := hdone rfl
          omega

/-- **A process that finds the pool empty** changes no page. -/
theorem Machine.UserSpace.mapProcess_dry (h : UserSpace root W s A) (hzero : s.supply = 0)
    (hrun : s.mapProcess root pid image = some (b, s')) :
    b = false ∧ UserSpace root W s' A ∧ LeavesAside root s s' := by
  simp only [Machine.mapProcess] at hrun
  cases hlist : List.range ((image.length + frameSize - 1) / frameSize) with
  | nil =>
      rw [hlist] at hrun
      exact h.mapUserPage_dry hzero hrun
  | cons i is =>
      rw [hlist, Machine.mapCode] at hrun
      cases hmap : s.mapUserPage root (userCodeVa pid + i * frameSize) with
      | none =>
          simp only [hmap] at hrun
          cases hrun
      | some r =>
          obtain ⟨b₁, s₁⟩ := r
          obtain ⟨rfl, hspace⟩ := h.mapUserPage_dry hzero hmap
          simp only [hmap] at hrun
          obtain ⟨rfl, rfl⟩ := Prod.mk.inj (Option.some.inj hrun)
          exact ⟨rfl, hspace⟩

end Process

end Rolnix
