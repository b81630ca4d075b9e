import Rolnix.SpawnPanic
import Rolnix.BootOwners

/-!
# What user code can reach

All processes run on the kernel's own table, which maps the whole of RAM twice. What keeps user code
out of the kernel is that a page of a process is the only thing `spawn_process` ever maps for users,
and that its frame comes from the pool.

**Theorem (`user_confined`).** Boot, and let the kernel spawn, schedule, kill and reap processes, run
out of frames in the middle of a spawn, and allocate and release frames, also those under a process,
while user code writes wherever the hardware lets it. Whatever address user code has access to then

* lies in the region of some process,
* is backed by a frame in use that is no page table, is no part of the kernel image, the frame table,
  the heap or the legacy area, and backs no other user page,

and what user code writes there changes no translation and no right.

The invariant `Reach` carries, beside the frames of `UserSpace`, that every page is in a region and that
its frame was not reserved at boot. A frame that boot has reserved stays so (`KeepsReserved`), and
`alloc_frame` returns free ones.
-/

namespace Rolnix

open Relation Radix

namespace Machine

variable {s s' s'' s₀ : Machine} {root va f : Nat} {A : AddrSpace} {W : Nat → Option Nat} {b : Bool}

/-! ## Pages in regions -/

/-- Every user page is one of `P`, and its frame was not reserved at boot. -/
structure Reach (s₀ : Machine) (P : Nat → Prop) (root : Nat) (W : Nat → Option Nat) (s : Machine)
    (A : AddrSpace) : Prop where
  space : UserSpace root W s A
  kept : KeepsReserved s₀ s
  pages : ∀ n pa flags, A n = some (pa, flags) → P n ∧ (s₀.frames (pa / frameSize)).ownerTag ≠ .reserved

namespace Reach

variable {P : Nat → Prop}

theorem congr (h : Reach s₀ P root W s A) (hspace : UserSpace root W s' A) (hkept : KeepsReserved s s') :
    Reach s₀ P root W s' A :=
  ⟨hspace, h.kept.trans hkept, h.pages⟩

theorem alloc {r : Option Nat} (h : Reach s₀ P root W s A) (hrun : s.allocFrame = some (r, s')) :
    Reach s₀ P root W s' A := by
  refine h.congr (h.space.alloc hrun).1 (keepsReserved_of_pmmStep ⟨.alloc, trivial, ?_⟩)
  rw [PmmOp.exec, hrun]
  rfl

/-- **One page of a process,** mapped or not. -/
theorem mapUserPage (h : Reach s₀ P root W s A) (hva : va < 2 ^ 64) (hc : isCanonical va = true)
    (hal : va % frameSize = 0) (hP : P (va / frameSize)) (hrun : s.mapUserPage root va = some (b, s')) :
    ∃ A', Reach s₀ P root W s' A' ∧ (b = true → ∃ pa, A' (va / frameSize) = some (pa, userFlags)) := by
  unfold Machine.mapUserPage at hrun
  cases halloc : s.allocFrame with
  | none =>
      rw [halloc] at hrun
      cases hrun
  | some r =>
      obtain ⟨r, s₁⟩ := r
      have halloc' := h.alloc halloc
      rw [halloc] at hrun
      cases r with
      | none =>
          obtain ⟨rfl, rfl⟩ := Prod.mk.inj (Option.some.inj hrun)
          exact ⟨A, halloc', fun hb => by cases hb⟩
      | some f =>
          obtain ⟨hspace, -, hf, hlt, howner, hzero, hnew⟩ := h.space.allocated halloc
          simp only at hrun
          split at hrun
          · rename_i u s₂ hmap
            obtain ⟨rfl, rfl⟩ := Prod.mk.inj (Option.some.inj hrun)
            obtain ⟨-, -, hspace', -⟩ := hspace.mapped_fresh hva hc hal hf hlt howner hzero hnew hmap
            refine ⟨_, ⟨hspace', halloc'.kept.trans (keepsReserved_of_map hspace.holds.inv hmap), ?_⟩,
              fun _ => ⟨_, Function.update_self _ _ _⟩⟩
            intro n pa flags hA
            by_cases hn : n = va / frameSize
            · subst hn
              rw [Function.update_self] at hA
              obtain ⟨rfl, -⟩ := Prod.mk.inj (Option.some.inj hA)
              refine ⟨hP, fun hres => ?_⟩
              -- a reserved frame would still be reserved, and this one is the kernel's
              rw [framePhys, Nat.mul_div_cancel f (by decide)] at hres
              have hnow := halloc'.kept f hres
              rw [FrameInfo.ownerTag, howner] at hnow
              cases hnow
            · rw [Function.update_of_ne hn] at hA
              exact h.pages n pa flags hA
          · cases hrun

theorem copyTo (h : Reach s₀ P root W s A) (hva : va < 2 ^ 64) (hc : isCanonical va = true)
    (hal : va % frameSize = 0) {pa : Nat} {flags : Flags} {bs : List UInt8}
    (hA : A (va / frameSize) = some (pa, flags)) (hlen : bs.length ≤ frameSize)
    (hrun : s.copyTo root va bs = some s') : Reach s₀ P root W s' A := by
  obtain ⟨hspace, -⟩ := h.space.copyTo hva hc hal hA hlen hrun
  obtain ⟨a, -, rfl⟩ := Option.map_eq_some_iff.1 hrun
  exact h.congr hspace fun f hf => hf

/-- **The code pages,** as far as the pool lasts. -/
theorem mapCode {codeVa k m : Nat} {image : List UInt8} (h : Reach s₀ P root W s A)
    (hal : codeVa % frameSize = 0) (hend : codeVa + (k + m) * frameSize ≤ 2 ^ 47)
    (hP : ∀ i, k ≤ i → i < k + m → P (codeVa / frameSize + i))
    (hrun : Machine.mapCode root codeVa image (List.range' k m) s = some (b, s')) :
    ∃ A', Reach s₀ P root W s' A' := by
  induction m generalizing k s A with
  | zero =>
      obtain ⟨rfl, rfl⟩ := Prod.mk.inj (Option.some.inj hrun)
      exact ⟨A, h⟩
  | succ m ih =>
      rw [← Nat.add_assoc, Nat.succ_mul] at hend
      have hva : codeVa + k * frameSize < 2 ^ 47 := by
        rw [Nat.add_mul] at hend
        simp only [frameSize] at hend ⊢
        omega
      have hc : isCanonical (codeVa + k * frameSize) = true := (isCanonical_iff (by omega)).2 (Or.inl hva)
      have hal' : (codeVa + k * frameSize) % frameSize = 0 := by rw [Nat.add_mul_mod_self_right, hal]
      have hpage : (codeVa + k * frameSize) / frameSize = codeVa / frameSize + k :=
        Nat.add_mul_div_right _ _ (by decide)
      rw [List.range'_succ, Machine.mapCode] at hrun
      cases hmap : s.mapUserPage root (codeVa + k * frameSize) with
      | none =>
          simp only [hmap] at hrun
          cases hrun
      | some r =>
          obtain ⟨b₁, s₁⟩ := r
          obtain ⟨A₁, h₁, hmapped⟩ := h.mapUserPage (by omega) hc hal'
            (hpage ▸ hP k le_rfl (by omega)) hmap
          simp only [hmap] at hrun
          cases b₁ with
          | false =>
              obtain ⟨rfl, rfl⟩ := Prod.mk.inj (Option.some.inj hrun)
              exact ⟨A₁, h₁⟩
          | true =>
              obtain ⟨pa, hA⟩ := hmapped rfl
              simp only at hrun
              cases hcopy : s₁.copyTo root (codeVa + k * frameSize)
                  ((image.drop (k * frameSize)).take frameSize) with
              | none =>
                  rw [hcopy] at hrun
                  cases hrun
              | some s₂ =>
                  rw [hcopy] at hrun
                  have h₂ := h₁.copyTo (by omega) hc hal' hA (List.length_take_le _ _) hcopy
                  refine ih h₂ ?_ (fun i hi hi' => hP i (by omega) (by omega)) hrun
                  rw [Nat.add_right_comm k 1 m, Nat.succ_mul]
                  exact hend

end Reach

end Machine

/-! ## Runs of the kernel -/

open Machine Kernel

/-- The pages a process may have: those of the image, and up to the stack. -/
def InSlot (image : List UInt8) (n : Nat) : Prop :=
  ∃ pid, IsSlot pid ∧ codePage pid ≤ n ∧ n < codePage pid + max (codeFrames image) 257

variable {k k' k₀ : Kernel} {s₀ : Machine} {A : AddrSpace} {W : Nat → Option Nat} {pid : Nat} {b : Bool}
  {op : KernelOp} {r : Option Nat}

/-- **The pages of a process,** all of them or a part. -/
theorem Machine.Reach.mapProcess {s s' : Machine} {root : Nat} {image : List UInt8}
    (h : Reach s₀ (InSlot image) root W s A) (hpid : IsSlot pid) (hlen : image.length < 2 ^ 44)
    (hrun : s.mapProcess root pid image = some (b, s')) : ∃ A', Reach s₀ (InSlot image) root W s' A' := by
  have hp := codePage_le hpid.2
  have hal : userCodeVa pid % frameSize = 0 := by rw [userCodeVa_eq, Nat.mul_mod_left]
  have hend : userCodeVa pid + (0 + codeFrames image) * frameSize ≤ 2 ^ 47 := by
    rw [userCodeVa_eq]
    simp only [codeFrames, frameSize]
    omega
  simp only [Machine.mapProcess, List.range_eq_range'] at hrun
  cases hcode : Machine.mapCode root (userCodeVa pid) image
      (List.range' 0 ((image.length + frameSize - 1) / frameSize)) s with
  | none =>
      rw [hcode] at hrun
      cases hrun
  | some x =>
      obtain ⟨b₁, s₁⟩ := x
      obtain ⟨A₁, h₁⟩ := h.mapCode hal hend (fun i _ hi => ⟨pid, hpid, Nat.le_add_right _ _, by
        rw [← codePage]
        simp only [codeFrames] at hi ⊢
        omega⟩) hcode
      rw [hcode] at hrun
      cases b₁ with
      | false =>
          obtain ⟨rfl, rfl⟩ := Prod.mk.inj (Option.some.inj hrun)
          exact ⟨A₁, h₁⟩
      | true =>
          have hstack := page_canonical (n := codePage pid + 256) (o := 0) (by omega) (by decide)
          rw [Nat.add_zero, ← userStackVa_eq] at hstack
          obtain ⟨hva, hc, hpage, hoff⟩ := hstack
          obtain ⟨A₂, h₂, -⟩ := h₁.mapUserPage hva hc hoff
            (hpage ▸ ⟨pid, hpid, Nat.le_add_right _ _, by omega⟩) hrun
          exact ⟨A₂, h₂⟩

namespace Kernel

/-- What user code can reach. -/
def Confined (s₀ : Machine) (k : Kernel) (W : Nat → Option Nat) (A : AddrSpace) : Prop :=
  Reach s₀ (InSlot k.image) k.root W k.machine A

theorem Confined.spawn {name : List UInt8} (h : k.Confined s₀ W A)
    (hrun : k.spawnProcess name = some (r, k')) : ∃ A', k'.Confined s₀ W A' := by
  unfold Confined at h ⊢
  obtain ⟨hroot, himage, hcases⟩ := spawnProcess_cases hrun
  rw [hroot, himage]
  rcases hcases with ⟨-, hm⟩ | ⟨pid, -, hpid, ⟨-, -, hm⟩ | ⟨-, b, hmap, -⟩⟩
  · rw [hm]
    exact ⟨A, h⟩
  · rw [hm]
    exact ⟨A, h⟩
  · exact h.mapProcess hpid k.image_lt hmap

/-- **The step lemma.** -/
theorem Confined.step (h : k.Confined s₀ W A) (hallowed : op.Allowed k) (hrun : op.exec k = some (r, k')) :
    ∃ A', k'.Confined s₀ W A' := by
  cases op with
  | spawn name => exact h.spawn hrun
  | sched op =>
      obtain ⟨x, -, heq⟩ := Option.map_eq_some_iff.1 hrun
      obtain ⟨-, rfl⟩ := Prod.mk.inj heq
      exact ⟨A, h⟩
  | alloc =>
      obtain ⟨⟨f, m⟩, halloc, heq⟩ := Option.map_eq_some_iff.1 hrun
      obtain ⟨-, rfl⟩ := Prod.mk.inj heq
      exact ⟨A, Reach.alloc h halloc⟩
  | release f =>
      obtain ⟨m, hrel, heq⟩ := Option.map_eq_some_iff.1 hrun
      obtain ⟨-, rfl⟩ := Prod.mk.inj heq
      refine ⟨A, Reach.congr h (h.space.release hallowed hrel).1 (keepsReserved_of_pmmStep ?_)⟩
      exact ⟨.release f, trivial, hrel⟩
  | userWrite va c =>
      obtain ⟨-, pa, flags, -, rfl, hspace⟩ := userWrite_page h.space hallowed hrun
      exact ⟨A, Reach.congr h hspace fun f hf => hf⟩

/-- A kernel that has booted with this map, and what boot left. -/
def StartedOn (k : Kernel) (boot : BootInfo) (info : PmInitOut) (s₀ : Machine) : Prop :=
  ∃ (specs : List UntypedSpec) (outUntyped caps : List UntypedCap) (heapLen : Nat) (mem : ByteMem)
    (s : Machine) (ramEnd kstacks rsp0 top : Nat), boot.Below16TiB ∧
    BootsApart boot specs outUntyped heapLen mem info caps s₀ ∧
    ReflTransGen DisciplinedStep s₀ s ∧ s.physmapBase = physMapBase ∧ ramEnd ≤ 2 ^ 44 ∧
    windowBytes ramEnd ≤ procBase ∧ s.newKernel ramEnd = some (some k.root, k.machine) ∧
    k.sched = (Sched.reset kstacks rsp0).initIdle top

theorem StartedOn.confined {boot : BootInfo} {info : PmInitOut} (h : k.StartedOn boot info s₀) :
    ∃ W, k.Confined s₀ W AddrSpace.empty := by
  obtain ⟨specs, outUntyped, caps, heapLen, mem, s, ramEnd, kstacks, rsp0, top, hbelow, hinit, hrun, hbase,
    hram, hwin, hnew, hsched⟩ := h
  obtain ⟨W, hspace, -⟩ := Started.space ⟨boot, specs, outUntyped, caps, heapLen, mem, info, s₀, s, ramEnd,
    kstacks, rsp0, top, hbelow, hinit, hrun, hbase, hram, hwin, hnew, hsched⟩
  have hpmm : ReflTransGen PmmStep s₀ s := by
    refine ReflTransGen.mono ?_ _ _ hrun
    rintro a b ⟨op, hok, -, hexec⟩
    exact ⟨op, hok, hexec⟩
  have hkept : KeepsReserved s₀ s := by
    clear hbase hnew hrun
    induction hpmm with
    | refl => exact fun f hf => hf
    | tail _ hstep ih => exact ih.trans (keepsReserved_of_pmmStep hstep)
  have hboot : Booted s := ⟨boot, specs, outUntyped, caps, heapLen, mem, info, s₀, hbelow, hinit, hpmm⟩
  obtain ⟨-, hgrows, -⟩ := newKernel_spec hboot.coherent hnew
  exact ⟨W, hspace, hkept.trans hgrows.keepsReserved, fun n pa flags hA => by cases hA⟩

/-- **The run lemma.** -/
theorem StartedOn.run {boot : BootInfo} {info : PmInitOut} (h : k₀.StartedOn boot info s₀)
    (hrun : ReflTransGen Step k₀ k) : ∃ W A, k.Confined s₀ W A := by
  induction hrun with
  | refl =>
      obtain ⟨W, hconf⟩ := h.confined
      exact ⟨W, AddrSpace.empty, hconf⟩
  | tail _ hstep ih =>
      obtain ⟨W, A, hconf⟩ := ih
      obtain ⟨op, r, hallowed, hexec⟩ := hstep
      obtain ⟨A', hconf'⟩ := hconf.step hallowed hexec
      exact ⟨W, A', hconf'⟩

theorem Confined.page {va pa : Nat} (h : k.Confined s₀ W A) (hva : va < 2 ^ 64)
    (hmmu : k.machine.mmu k.root va = some pa) (huser : (k.machine.effective k.root va).user = true) :
    ∃ base flags, A (va / frameSize) = some (base, flags) ∧ pa / frameSize = base / frameSize := by
  have hc : isCanonical va = true := by
    by_contra hc
    rw [mmu, if_neg hc] at hmmu
    cases hmmu
  obtain ⟨base, flags, hA⟩ := h.space.holds.user_page hva hc (by rw [hmmu]; rfl) huser
  rw [h.space.holds.mmu_page hva hc hA] at hmmu
  obtain rfl := Option.some.inj hmmu
  obtain ⟨hbase, -⟩ := h.space.holds.ram _ base flags hA
  refine ⟨base, flags, hA, ?_⟩
  simp only [frameSize] at hbase ⊢
  omega

end Kernel

theorem Machine.Holds.mmu_congr {s s' : Machine} {root w : Nat} (h : Holds root W s A) (h' : Holds root W s' A)
    (hw : w < 2 ^ 64) : s'.mmu root w = s.mmu root w := by
  unfold mmu
  split_ifs with hc
  · rw [h.pages w hw hc, h'.pages w hw hc]
  · rfl

/-- A frame that boot has not reserved belongs to usable memory, and to nothing else. -/
theorem PmmPlaced.clear {boot : BootInfo} {specs : List UntypedSpec} {heapLen heapPhys heapEnd f x : Nat}
    {info : PmInitOut} {s : Machine} {before after : List MemoryRegion} {r : MemoryRegion} (hu64 : boot.IsU64)
    (hmap : boot.MapOk) (himage : boot.kernelImage.1 + boot.kernelImage.2 < 2 ^ 63)
    (h : PmmPlaced boot specs heapLen info s heapPhys heapEnd before r after)
    (hres : (s.frames f).ownerTag ≠ .reserved) (hx : InFrame f x) :
    legacyEnd ≤ x ∧ ¬ boot.InImage x ∧ ¬ s.InTable x ∧ ¬ info.InHeap x := by
  have hmarked : Marked boot.effective s.tablePhys heapEnd f := by
    by_contra hnot
    rw [FrameInfo.ownerTag, h.owners.reserved f hnot] at hres
    exact hres rfl
  have horder := effective_endsBefore hmap (imageStart_le_imageEnd (imageFits_of_lt himage))
  obtain ⟨-, hclear⟩ := hmarked.usable hu64 hmap h.whole himage
  exact ⟨hmarked.2.1.trans hx.1, hclear x hx, h.marked_clear horder hmarked hx⟩

/-- **User code reaches its own pages only,** and its writes change no translation. -/
theorem user_confined {boot : BootInfo} {info : PmInitOut} {va pa : Nat} (hu64 : boot.IsU64) (hmap : boot.MapOk)
    (himage : boot.kernelImage.1 + boot.kernelImage.2 < 2 ^ 63) (hstart : k₀.StartedOn boot info s₀)
    (hrun : ReflTransGen Kernel.Step k₀ k) (hva : va < 2 ^ 64) (hmmu : k.machine.mmu k.root va = some pa)
    (huser : (k.machine.effective k.root va).user = true) :
    InSlot k.image (va / frameSize) ∧ k.machine.Aside k.root (pa / frameSize) ∧
      (legacyEnd ≤ pa ∧ ¬ boot.InImage pa ∧ ¬ s₀.InTable pa ∧ ¬ info.InHeap pa) ∧
      (∀ va' pa', va' < 2 ^ 64 → k.machine.mmu k.root va' = some pa' →
        (k.machine.effective k.root va').user = true → va' / frameSize ≠ va / frameSize →
        pa' / frameSize ≠ pa / frameSize) ∧
      ∀ c k', (KernelOp.userWrite va c).Allowed k → (KernelOp.userWrite va c).exec k = some (none, k') →
        ∀ w < 2 ^ 64, k'.machine.mmu k'.root w = k.machine.mmu k.root w := by
  obtain ⟨W, A, hconf⟩ := hstart.run hrun
  obtain ⟨base, flags, hA, hframe⟩ := hconf.page hva hmmu huser
  obtain ⟨hslot, hres⟩ := hconf.pages _ base flags hA
  refine ⟨hslot, ?_, ?_, fun va' pa' hva' hmmu' huser' hne => ?_, fun c k' hallowed hexec w hw => ?_⟩
  · rw [hframe]
    exact hconf.space.aside _ base flags hA
  · obtain ⟨specs, outUntyped, caps, heapLen, mem, s, ramEnd, kstacks, rsp0, top, -, hinit, -⟩ := hstart
    obtain ⟨heapPhys, heapEnd, before, r, after, hplaced⟩ := pmmInit_placed hu64 hmap hinit.returns
    rw [← hframe] at hres
    refine hplaced.clear hu64 hmap himage hres ⟨Nat.div_mul_le_self pa frameSize, ?_⟩
    simp only [frameSize]
    omega
  · obtain ⟨base', flags', hA', hframe'⟩ := hconf.page hva' hmmu' huser'
    rw [hframe, hframe']
    exact fun heq => hne (hconf.space.inj _ _ _ _ _ _ hA' hA heq)
  · obtain ⟨-, pa', flags', -, rfl, hspace⟩ := userWrite_page hconf.space hallowed hexec
    exact hconf.space.holds.mmu_congr hspace.holds hw

theorem bootKernel_startedOn {n : Nat} {k : Kernel} (h : bootKernel n = some (physMapBase, k))
    (hbelow : (lowBoot n).Below16TiB) (hram : 0x100000 + n * frameSize ≤ 2 ^ 44)
    (hwin : windowBytes (0x100000 + n * frameSize) ≤ procBase) :
    ∃ info s₀, k.StartedOn (lowBoot n) info s₀ := by
  obtain ⟨⟨⟨info, caps⟩, s⟩, hinit, h⟩ := Option.bind_eq_some_iff.1 h
  obtain ⟨⟨o, m⟩, hnew, h⟩ := Option.bind_eq_some_iff.1 h
  obtain ⟨root, rfl, h⟩ := Option.map_eq_some_iff.1 h
  obtain ⟨hbase, rfl⟩ := Prod.mk.inj h
  exact ⟨info, s, [], [], caps, 0, _, s, _, 0x400000, 0x500000, 0x500000, hbelow,
    ⟨lowBoot_apart hbelow, returns_of_finish hinit⟩, ReflTransGen.refl, hbase, hram, hwin, hnew, rfl⟩

theorem lowBoot_mapOk : (lowBoot 11).MapOk := ⟨by decide, List.pairwise_singleton _ _, by decide⟩

/-- The first code byte of the first process. -/
theorem user_confined_small :
    ∃ (info : PmInitOut) (s₀ : Machine) (k₀ k : Kernel) (pa : Nat), k₀.StartedOn (lowBoot 11) info s₀ ∧
      k₀.spawnProcess [112] = some (some 1, k) ∧ k.machine.mmu k.root (userCodeVa 1) = some pa ∧
      ¬ s₀.InTable pa ∧ ¬ InTree k.machine.entries k.root (pa / frameSize) := by
  have hobs : ((bootKernel 11).bind fun x => (x.2.spawnProcess [112]).map fun r =>
      (x.1, r.1, (r.2.machine.mmu r.2.root (userCodeVa 1)).isSome,
        (r.2.machine.effective r.2.root (userCodeVa 1)).user)) = some (physMapBase, some 1, true, true) := by
    decide +kernel
  obtain ⟨⟨base, k₀⟩, hboot, hobs⟩ := Option.bind_eq_some_iff.1 hobs
  obtain ⟨⟨r, k⟩, hspawn, hobs⟩ := Option.map_eq_some_iff.1 hobs
  simp only [Prod.mk.injEq] at hobs
  obtain ⟨rfl, rfl, hsome, huser⟩ := hobs
  obtain ⟨pa, hmmu⟩ := Option.isSome_iff_exists.1 hsome
  obtain ⟨info, s₀, hstart⟩ := bootKernel_startedOn hboot (by decide) (by decide) (by decide)
  obtain ⟨-, haside, ⟨-, -, htable, -⟩, -⟩ := user_confined ⟨by decide, by decide, by decide⟩ lowBoot_mapOk
    (by decide) hstart (.single ⟨.spawn [112], some 1, trivial, hspawn⟩) (by decide) hmmu huser
  exact ⟨info, s₀, k₀, k, pa, hstart, hspawn, hmmu, htable, haside.2⟩

end Rolnix
