import Rolnix.OneRegion

/-!
# The address field of a page-table entry

`map` puts the whole physical address into the entry. `translate` and `unmap` take it out again with
`ADDR_MASK_4K`, which ends at bit 35, though frame indices go up to 2 ^ 32 and addresses up to
2 ^ 44. So a page is found again, and its frame's count kept, exactly if its address is below
64 GiB (`mapped_address`). On a machine with one frame more, a page of that frame translates to
address zero, and unmapping it takes a mapping from frame zero (`address_truncated`).
-/

namespace Rolnix

open Radix Relation

namespace Machine

variable {s s' s₀ s₁ : Machine} {root va pa : Nat} {flags : Flags} {A : AddrSpace}
  {W : Nat → Option Nat}

/-- **A page just mapped**: where it translates to, and whose count `unmap` decrements. -/
theorem Holds.mapped_page {u : Unit} (h : Holds root W s A) (hva : va < 2 ^ 64)
    (hmap : s.map root va pa flags = some (.ok u, s₁)) :
    s₁.translate root va = some (pa % 2 ^ 36) ∧
      ∃ s₂, s₁.unmap root va = some (.ok (), s₂) ∧
        (s₂.frames (pa % 2 ^ 36 / frameSize)).mappings =
          (s₁.frames (pa % 2 ^ 36 / frameSize)).mappings - 1 ∧
        ∀ f, f ≠ pa % 2 ^ 36 / frameSize → (s₂.frames f).mappings = (s₁.frames f).mappings := by
  obtain ⟨hc, hal, hpa, -⟩ := args_of_map_ok hmap
  have h₁ := (h.map hva hmap).1
  have hA : (A.map va pa flags (.ok u)) (va / frameSize) = some (pa, flags) :=
    Function.update_self _ _ _
  have hpage : lookup s₁.entries root (path va) = some (4, pageEntry pa flags) := by
    rw [h₁.pages va hva hc, walkOf, hA]
  refine ⟨?_, ?_⟩
  · rw [h₁.translate_eq hva, if_pos hc, walkOf, hA]
    simp only [Option.map_some, decodeWalk_page_mod hpa, hal, Nat.add_zero]
  · obtain ⟨r, s₂, hunmap, hu⟩ := unmap_spec h₁.inv hc hal
    cases r with
    | error e =>
        obtain ⟨-, ⟨-, e', hhuge⟩ | ⟨-, hnone⟩⟩ := hu.error e rfl
        · rw [hpage] at hhuge
          cases hhuge
        · rw [hpage] at hnone
          cases hnone
    | ok u =>
        obtain ⟨e, he, -, hframes⟩ := hu.ok rfl
        obtain ⟨-, rfl⟩ := Prod.mk.inj (Option.some.inj (hpage.symm.trans he))
        rw [pageEntry_and_mask hpa] at hframes
        refine ⟨s₂, hunmap, ?_, fun f hf => ?_⟩
        · rw [hframes, Function.update_self, drained_mappings]
          rfl
        · rw [hframes, Function.update_of_ne hf]

end Machine

open Machine

variable {s₀ s s₁ : Machine} {root va pa : Nat} {flags : Flags} {A : AddrSpace}

/-- **The address field is as wide as the mask.** A page that `map` accepted translates to its
address, and `unmap` takes the mapping from its frame and no other, if and only if the address is
below 64 GiB. -/
theorem mapped_address (hnew : NewSpace root s₀)
    (hrun : ReflTransGen (VmStep root) (s₀, AddrSpace.empty) (s, A)) (hva : va < 2 ^ 64)
    (hmap : s.map root va pa flags = some (.ok (), s₁)) :
    (s₁.translate root va = some pa ∧
      ∃ s₂, s₁.unmap root va = some (.ok (), s₂) ∧
        (s₂.frames (pa / frameSize)).mappings = (s₁.frames (pa / frameSize)).mappings - 1 ∧
        ∀ f, f ≠ pa / frameSize → (s₂.frames f).mappings = (s₁.frames f).mappings) ↔
      pa < 2 ^ 36 := by
  obtain ⟨W, h₀⟩ := hnew.holds
  obtain ⟨htranslate, hunmap⟩ := (h₀.run hrun).1.mapped_page hva hmap
  constructor
  · rintro ⟨hpa, -⟩
    rw [htranslate] at hpa
    exact Nat.mod_eq_iff_lt (by decide) |>.1 (Option.some.inj hpa)
  · intro hlt
    rw [Nat.mod_eq_of_lt hlt] at htranslate hunmap
    exact ⟨htranslate, hunmap⟩

theorem mapped_address_small :
    ∃ root s s₁, NewSpace root s ∧ s.map root 0x1000 0x100000 .user = some (.ok (), s₁) ∧
      s₁.translate root 0x1000 = some 0x100000 := by
  obtain ⟨root, s, s₁, hnew, -, -, hmap⟩ := pageBoot_maps
  exact ⟨root, s, s₁, hnew, hmap,
    ((mapped_address hnew ReflTransGen.refl (by decide) hmap).2 (by decide)).1⟩

/-- **A page at 64 GiB.** On a machine with 2 ^ 24 + 1 frames the last frame can be mapped, but the
page translates to address zero, and unmapping it decrements the count of frame zero. -/
theorem address_truncated :
    ∃ root s s₁ s₂, NewSpace root s ∧ s.totalFrames = 2 ^ 24 + 1 ∧
      s.translate root 0x1000 = none ∧
      s.map root 0x1000 (2 ^ 36) .user = some (.ok (), s₁) ∧
      s₁.translate root 0x1000 = some 0 ∧
      s₁.unmap root 0x1000 = some (.ok (), s₂) ∧
      (s₂.frames (2 ^ 24)).mappings = (s₁.frames (2 ^ 24)).mappings ∧
      (s₂.frames 0).mappings = (s₁.frames 0).mappings - 1 := by
  obtain ⟨info, b, hinit, hnum, -, -, hsupply, -⟩ :=
    oneRegion_boots (n := 2 ^ 24 + 1) (fun _ => 0) (by decide) (by decide)
  have hbooted : Booted b :=
    ⟨oneRegion (2 ^ 24 + 1), [], [], [], 0, _, info, b, by decide, ⟨oneRegion_apart (by decide), hinit⟩,
      ReflTransGen.refl⟩
  have hpool : 4 ≤ b.supply := by
    rw [hsupply]
    decide
  obtain ⟨root, s, hnew, hboot, hleft⟩ := newTable_total hbooted.coherent (by omega)
  have hspace : NewSpace root s := ⟨b, hbooted, Or.inl hnew⟩
  obtain ⟨r, s', hnew', -, hempty⟩ := newTable_spec hbooted.coherent
  obtain ⟨rfl, rfl⟩ := Prod.mk.inj (Option.some.inj (hnew.symm.trans hnew'))
  obtain ⟨hinv, hnone⟩ := hempty root rfl
  have htotal : s.totalFrames = 2 ^ 24 + 1 := hboot.numFrames.trans hnum
  have hfree : lookup s.entries root (path 0x1000) = none := hnone _ (by simp [path])
  obtain ⟨r, s₁, hmap, hm⟩ : ∃ r s₁, s.map root 0x1000 (2 ^ 36) .user = some (r, s₁) ∧ _ :=
    map_spec hinv (by decide) (by decide) (by decide)
      (show 2 ^ 36 < s.totalFrames * frameSize by rw [htotal]; decide)
  cases r with
  | error e =>
      obtain ⟨⟨rfl, hfull⟩ | ⟨rfl, -⟩, -⟩ := hm.error e rfl
      · rw [hfree] at hfull
        cases hfull
      · have := (hm.supply [] (upper 0x1000) root rfl rfl).2 rfl
        simp only [upper, List.length_map, List.length_cons, List.length_nil] at this
        omega
  | ok u =>
      obtain ⟨W, h⟩ := hspace.holds
      obtain ⟨htranslate, s₂, hunmap, hzero, hrest⟩ := h.mapped_page (by decide) hmap
      refine ⟨root, s, s₁, s₂, hspace, htotal, ?_, hmap, htranslate, hunmap,
        hrest _ (by decide), hzero⟩
      rw [hinv.translate_eq, if_pos (by decide), hfree]
      rfl

end Rolnix
