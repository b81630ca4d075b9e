import Rolnix.KernelSpace
import Rolnix.OneRegion
import Rolnix.Sched

/-!
# Process regions and the identity map

The regions of the processes lie at fixed addresses from `procBase` on, and the kernel's table maps
all of RAM in place. `procRegions_unmapped_iff` says when the two do not meet: RAM must end at the
first region at the latest. On a machine with 4 GiB the first region is mapped from the start
(`procRegion_mapped`).
-/

namespace Rolnix

open Machine Relation

/-- The physmap base the boot crate hands to `pmm_init`. -/
def physMapBase : Nat := 0xffff800000000000

theorem physmapOk_boot {ramEnd : Nat} (hram : ramEnd ≤ 2 ^ 44) :
    PhysmapOk physMapBase (windowBytes ramEnd) := by
  obtain ⟨-, -, hlt⟩ := windowBytes_spec ramEnd
  refine ⟨by decide, by decide, ?_⟩
  simp only [largePage] at hlt
  simp only [physMapBase]
  omega

/-- No address of a process region translates. -/
def RegionsUnmapped (s : Machine) (root : Nat) : Prop :=
  ∀ pid, 1 ≤ pid → pid < maxProcesses → ∀ va, userCodeVa pid ≤ va →
    va < userCodeVa pid + procStride → s.translate root va = none

section Regions

variable {s s' : Machine} {root ramEnd : Nat}

/-- **Process regions start unmapped** exactly if the identity map ends below them. -/
theorem procRegions_unmapped_iff (hboot : Booted s) (hbase : s.physmapBase = physMapBase)
    (hram : ramEnd ≤ 2 ^ 44) (hrun : s.newKernel ramEnd = some (some root, s')) :
    RegionsUnmapped s' root ↔ windowBytes ramEnd ≤ userCodeVa 1 := by
  have htrans : ∀ va < 2 ^ 64,
      s'.translate root va = kernelTranslate (windowBytes ramEnd) physMapBase va := by
    intro va hva
    rw [newKernel_translate hboot.coherent hram (hbase ▸ physmapOk_boot hram) hrun hva, hbase]
  constructor
  · intro h
    by_contra hlong
    have hfirst := h 1 le_rfl (by decide) (userCodeVa 1) le_rfl (by decide)
    rw [htrans _ (by decide), kernelTranslate, if_pos (by omega)] at hfirst
    cases hfirst
  · intro h pid hpos hpid va hge hlt
    have hrange : userCodeVa 1 ≤ va ∧ va < physMapBase := by
      simp only [userCodeVa, procBase, procStride, maxProcesses, physMapBase] at hpid hge hlt ⊢
      omega
    have hphys : physMapBase < 2 ^ 64 := by decide
    rw [htrans va (by omega), kernelTranslate, if_neg (by omega), if_neg (by omega)]

theorem procRegions_unmapped_small :
    ∃ s root s', Booted s ∧ s.newKernel 0x109000 = some (some root, s') ∧ RegionsUnmapped s' root := by
  have hrun : ((finish (pmmInit pageBoot [] [] 0) (reset fun _ => 0)).bind fun r =>
      (r.2.newKernel 0x109000).bind fun k => k.1.map fun _ => r.2.physmapBase) =
      some physMapBase := by
    decide +kernel
  obtain ⟨⟨⟨info, caps⟩, s⟩, hinit, hrun⟩ := Option.bind_eq_some_iff.1 hrun
  obtain ⟨⟨o, s'⟩, hnew, hrun⟩ := Option.bind_eq_some_iff.1 hrun
  obtain ⟨root, rfl, hbase⟩ := Option.map_eq_some_iff.1 hrun
  have hboot : Booted s := ⟨pageBoot, [], [], caps, 0, _, info, s, by decide,
    ⟨pageBoot_apart, returns_of_finish hinit⟩, ReflTransGen.refl⟩
  exact ⟨s, root, s', hboot, hnew,
    (procRegions_unmapped_iff hboot hbase (by decide) hnew).2 (by decide)⟩

end Regions

/-- **On a machine with 4 GiB** the kernel's table maps the regions of the processes in place. -/
theorem procRegion_mapped :
    ∃ info s root s', Returns (pmmInit (oneRegion (2 ^ 20)) [] [] 0) (reset fun _ => 0) (info, []) s ∧
      info.ramEnd = 2 ^ 32 ∧ s.newKernel info.ramEnd = some (some root, s') ∧
      s'.translate root (userCodeVa 1) = some (userCodeVa 1) ∧ ¬ RegionsUnmapped s' root := by
  obtain ⟨info, s, hinit, -, hend, hbase, hsupply, -⟩ :=
    oneRegion_boots (n := 2 ^ 20) (fun _ => 0) (by decide) (by decide)
  have hram : info.ramEnd = 2 ^ 32 := by rw [hend]; decide
  have hboot : Booted s := ⟨oneRegion (2 ^ 20), [], [], [], 0, _, info, s, by decide,
    ⟨oneRegion_apart (by decide), hinit⟩, ReflTransGen.refl⟩
  have hok : PhysmapOk s.physmapBase (windowBytes info.ramEnd) := by
    rw [hbase]
    exact physmapOk_boot (by rw [hram]; decide)
  have hle : info.ramEnd ≤ 2 ^ 44 := by rw [hram]; decide
  obtain ⟨root, s', hrun⟩ := newKernel_total hboot.coherent hle hok (by rw [hram]; decide)
    (by rw [hsupply, hbase, hram]; decide)
  have hfirst : s'.translate root (userCodeVa 1) = some (userCodeVa 1) := by
    rw [newKernel_translate hboot.coherent hle hok hrun (by decide), hram, kernelTranslate,
      if_pos (by decide)]
  refine ⟨info, s, root, s', hinit, hram, hrun, hfirst, fun h => ?_⟩
  rw [h 1 le_rfl (by decide) (userCodeVa 1) le_rfl (by decide)] at hfirst
  cases hfirst

end Rolnix
