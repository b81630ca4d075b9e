import Rolnix.SpawnCost
import Rolnix.ProcRegions

/-!
# Runs of processes

A kernel that has booted spawns processes, schedules, kills and reaps them, while the rest of it
allocates and releases frames and user code writes to its pages. A slot that is used again keeps
the pages of the process before, and `spawn_process` decides from the first page alone whether
there is anything to map. So two properties one would expect hold on some runs only:

* `spawn_complete` — a process that was spawned has all its pages, if every spawn before it that had
  a region to map found the pool empty or with frames for the whole region (`spawn_incomplete` is a
  run in which one found some, but too few);
* `spawn_fresh` — it starts on the program image, if in addition no process has written to the
  image of a slot (`spawn_stale`).
-/

namespace Rolnix

open Radix Relation Machine

/-! ## Steps -/

/-- What happens on a running kernel. -/
inductive KernelOp
  | spawn (name : List UInt8)
  | sched (op : SchedOp)
  | alloc
  | release (f : Nat)
  | userWrite (va : Nat) (c : UInt8)

namespace KernelOp

/-- The pid a spawn returns, and the state; `none` if the kernel panics. -/
def exec : KernelOp → Kernel → Option (Option Nat × Kernel)
  | spawn name, k => k.spawnProcess name
  | sched op, k => (op.exec k.sched).map fun r => (none, { k with sched := r.1 })
  | alloc, k => k.machine.allocFrame.map fun r => (none, { k with machine := r.2 })
  | release f, k => (k.machine.releaseFrame f).map fun m => (none, { k with machine := m })
  | userWrite va c, k => (k.machine.mmu k.root va).map fun pa =>
      (none, { k with machine := { k.machine with mem := k.machine.mem.poke pa c } })

/-- Processes are started by `spawn_process` only, the rest of the kernel releases no table, and
user code writes where the hardware lets it. -/
def Allowed (k : Kernel) : KernelOp → Prop
  | spawn _ | alloc => True
  | sched op => ∀ entry name, op ≠ .start entry name
  | release f => ¬ InTree k.machine.entries k.root f
  | userWrite va _ => va < 2 ^ 64 ∧ (k.machine.effective k.root va).user = true ∧
      (k.machine.effective k.root va).writable = true

/-- A spawn into a slot whose first page is not mapped finds no frame at all, or enough for the
whole process. -/
def Clean (k : Kernel) : KernelOp → Prop
  | spawn _ => ∀ pid, k.sched.freeSlot = some pid →
      k.machine.translate k.root (userCodeVa pid) = none →
        k.machine.supply = 0 ∨ FramesForAll k.machine k.root pid k.image
  | _ => True

/-- User code does not change the image of any slot. -/
def KeepsImage (k : Kernel) : KernelOp → Prop
  | userWrite va c => ∀ pid, 1 ≤ pid → pid < maxProcesses → ∀ j < k.image.length,
      va = userCodeVa pid + j → c = k.image.getD j 0
  | _ => True

end KernelOp

namespace Kernel

/-- A step in which no spawn can fail halfway. -/
def CleanStep (k k' : Kernel) : Prop :=
  ∃ op r, op.Allowed k ∧ op.Clean k ∧ KernelOp.exec op k = some (r, k')

/-- A clean step in which no image is changed. -/
def TidyStep (k k' : Kernel) : Prop :=
  ∃ op r, op.Allowed k ∧ op.Clean k ∧ op.KeepsImage k ∧ KernelOp.exec op k = some (r, k')

/-- The kernel has booted: the pool is set up, `new_kernel` has built the table, whose identity
map ends at `procBase` or below, and the shell is process 0. -/
def Started (k : Kernel) : Prop :=
  ∃ (boot : BootInfo) (specs : List UntypedSpec) (outUntyped caps : List UntypedCap)
    (heapLen : Nat) (mem : ByteMem) (info : PmInitOut) (s₀ s : Machine)
    (ramEnd kstacks rsp0 top : Nat), boot.Below16TiB ∧
    BootsApart boot specs outUntyped heapLen mem info caps s₀ ∧
    ReflTransGen DisciplinedStep s₀ s ∧ s.physmapBase = physMapBase ∧ ramEnd ≤ 2 ^ 44 ∧
    windowBytes ramEnd ≤ procBase ∧ s.newKernel ramEnd = some (some k.root, k.machine) ∧
    k.sched = (Sched.reset kstacks rsp0).initIdle top

/-! ## The invariant -/

variable {k k' : Kernel} {op : KernelOp} {A A' : AddrSpace} {W : Nat → Option Nat} {pid : Nat}
  {r : Option Nat}

/-- The slots of processes. -/
def IsSlot (pid : Nat) : Prop := 1 ≤ pid ∧ pid < maxProcesses

/-- A region whose first page is mapped is complete. -/
structure Inv (k : Kernel) (W : Nat → Option Nat) (A : AddrSpace) : Prop where
  space : UserSpace k.root W k.machine A
  window : ∀ pid, IsSlot pid → W (codePage pid) = none
  regions : ∀ pid, IsSlot pid → A (codePage pid) ≠ none → Complete k.image A pid

/-- A region whose first page is mapped holds the image. -/
def Fresh (k : Kernel) (A : AddrSpace) : Prop :=
  ∀ pid, IsSlot pid → A (codePage pid) ≠ none → Loaded k.image k.machine A pid

theorem translate_low {s : Machine} {root n : Nat} (h : Holds root W s A) (hn : n < 2 ^ 35) :
    (s.translate root (n * frameSize)).isSome = true ↔ A n ≠ none ∨ W n ≠ none := by
  obtain ⟨hva, hc, hdiv, -⟩ := page_canonical (o := 0) hn (by decide)
  rw [Nat.add_zero] at hva hc hdiv
  rw [h.translate_eq hva, if_pos hc, hdiv, Option.isSome_map, Option.isSome_iff_ne_none, ne_eq,
    walkOf_eq_none, not_and_or]

theorem translate_region {s : Machine} {root : Nat} (h : Holds root W s A) (hpid : IsSlot pid) :
    (s.translate root (userCodeVa pid)).isSome = true ↔
      A (codePage pid) ≠ none ∨ W (codePage pid) ≠ none := by
  have hp := codePage_le hpid.2
  rw [userCodeVa_eq]
  exact translate_low h (by omega)

theorem Inv.translate_isSome (h : k.Inv W A) (hpid : IsSlot pid) :
    (k.machine.translate k.root (userCodeVa pid)).isSome = true ↔ A (codePage pid) ≠ none := by
  rw [translate_region h.space.holds hpid, or_iff_left (not_not.2 (h.window pid hpid))]

/-- A booted kernel has no pages of processes, and no window reaches into their regions. -/
theorem Started.space (h : k.Started) :
    ∃ W, UserSpace k.root W k.machine AddrSpace.empty ∧
      ∀ pid, IsSlot pid → ∀ i < 512, W (codePage pid + i) = none := by
  obtain ⟨boot, specs, outUntyped, caps, heapLen, mem, info, s₀, s, ramEnd, kstacks, rsp0, top,
    hbelow, hinit, hrun, hbase, hram, hwin, hnew, -⟩ := h
  have hpmm : ReflTransGen PmmStep s₀ s := by
    have hle : DisciplinedStep ≤ PmmStep := by
      rintro a b ⟨op, hok, -, hexec⟩
      exact ⟨op, hok, hexec⟩
    exact ReflTransGen.mono hle _ _ hrun
  have hboot : Booted s :=
    ⟨boot, specs, outUntyped, caps, heapLen, mem, info, s₀, hbelow, hinit, hpmm⟩
  obtain ⟨W, hholds⟩ := NewSpace.holds ⟨s, hboot, Or.inr ⟨ramEnd, hnew⟩⟩
  obtain ⟨-, hgrows, -⟩ := newKernel_spec hboot.coherent hnew
  have hsettled : s.AllSettled := (allSettled_of_idle (pmmInit_idle hinit.returns)).run hrun
  have hregions := (procRegions_unmapped_iff hboot hbase hram hnew).2
    (hwin.trans (by decide))
  have hempty : ∀ n pa flags, AddrSpace.empty n ≠ some (pa, flags) := by
    intro n pa flags hA
    cases hA
  refine ⟨W, ⟨hholds, hgrows.settled hsettled, fun n pa flags hA => absurd hA (hempty n pa flags),
    fun n pa flags hA => absurd hA (hempty n pa flags),
    fun n _ pa _ flags _ hA => absurd hA (hempty n pa flags)⟩, fun pid hpid i hi => ?_⟩
  have hp := codePage_le hpid.2
  have hnone : k.machine.translate k.root ((codePage pid + i) * frameSize) = none := by
    refine hregions pid hpid.1 hpid.2 _ ?_ ?_
    · rw [Nat.add_mul, ← userCodeVa_eq]
      exact Nat.le_add_right _ _
    · rw [Nat.add_mul, ← userCodeVa_eq]
      simp only [frameSize, procStride]
      omega
  by_contra hW
  have hsome := (translate_low hholds (by omega)).2 (Or.inr hW)
  rw [hnone] at hsome
  cases hsome

theorem Started.inv (h : k.Started) : ∃ W, k.Inv W AddrSpace.empty := by
  obtain ⟨W, hspace, hwindow⟩ := h.space
  refine ⟨W, hspace, fun pid hpid => ?_, fun pid _ hA => absurd rfl hA⟩
  rw [← Nat.add_zero (codePage pid)]
  exact hwindow pid hpid 0 (by decide)

/-! ## What a step does -/

theorem prepare_cases {x : Bool × Machine} (h : k.prepare pid = some x) :
    (k.machine.translate k.root (userCodeVa pid)).isSome = true ∧ x = (true, k.machine) ∨
      (k.machine.translate k.root (userCodeVa pid)).isSome = false ∧
        k.machine.mapProcess k.root pid k.image = some x := by
  unfold prepare at h
  split_ifs at h with hmapped
  · exact Or.inl ⟨hmapped, (Option.some.inj h).symm⟩
  · exact Or.inr ⟨Bool.eq_false_iff.2 hmapped, h⟩

theorem register_cases {name : List UInt8} {x : Option (Bool × Machine)}
    (h : k.register pid name x = some (r, k')) :
    k'.root = k.root ∧ k'.image = k.image ∧
      ∃ b, x = some (b, k'.machine) ∧ r = if b then some pid else none := by
  cases x with
  | none => cases h
  | some x =>
      obtain ⟨b, m⟩ := x
      cases b with
      | false =>
          obtain ⟨rfl, rfl⟩ := Prod.mk.inj (Option.some.inj h)
          exact ⟨rfl, rfl, false, rfl, rfl⟩
      | true =>
          obtain ⟨sched, -, heq⟩ := Option.map_eq_some_iff.1 h
          obtain ⟨rfl, rfl⟩ := Prod.mk.inj heq
          exact ⟨rfl, rfl, true, rfl, rfl⟩

/-- **All a spawn can do.** -/
theorem spawnProcess_cases {name : List UInt8} (h : k.spawnProcess name = some (r, k')) :
    k'.root = k.root ∧ k'.image = k.image ∧
      (r = none ∧ k'.machine = k.machine ∨
        ∃ pid, k.sched.freeSlot = some pid ∧ IsSlot pid ∧
          ((k.machine.translate k.root (userCodeVa pid)).isSome = true ∧ r = some pid ∧
              k'.machine = k.machine ∨
            (k.machine.translate k.root (userCodeVa pid)).isSome = false ∧
              ∃ b, k.machine.mapProcess k.root pid k.image = some (b, k'.machine) ∧
                r = if b then some pid else none)) := by
  unfold spawnProcess at h
  cases hslot : k.sched.freeSlot with
  | none =>
      rw [hslot] at h
      obtain ⟨rfl, rfl⟩ := Prod.mk.inj (Option.some.inj h)
      exact ⟨rfl, rfl, Or.inl ⟨rfl, rfl⟩⟩
  | some pid =>
      obtain ⟨hpos, hlt, -⟩ := Sched.freeSlot_some hslot
      rw [hslot] at h
      obtain ⟨hroot, himage, b, hprep, hr⟩ := register_cases h
      refine ⟨hroot, himage, Or.inr ⟨pid, rfl, ⟨hpos, hlt⟩, ?_⟩⟩
      rcases prepare_cases hprep with ⟨hmapped, heq⟩ | ⟨hunmapped, hmap⟩
      · obtain ⟨rfl, hm⟩ := Prod.mk.inj heq
        exact Or.inl ⟨hmapped, hr, hm⟩
      · exact Or.inr ⟨hunmapped, b, hmap, hr⟩

/-- What a step leaves: the invariant, and complete regions where it spawned. -/
structure Next (k : Kernel) (W : Nat → Option Nat) (A : AddrSpace) (op : KernelOp) (r : Option Nat)
    (k' : Kernel) (A' : AddrSpace) : Prop where
  inv : k'.Inv W A'
  spawned : ∀ pid, r = some pid → IsSlot pid ∧ Complete k'.image A' pid
  /-- The regions that held the image do so still, and the one just spawned does. -/
  fresh : op.KeepsImage k → k.Fresh A →
    k'.Fresh A' ∧ ∀ pid, r = some pid → Loaded k'.image k'.machine A' pid

/-- Steps of the machine that change no page and no byte of one. -/
theorem Inv.machine {m : Machine} (h : k.Inv W A) (hspace : UserSpace k.root W m A)
    (hbytes : ∀ n pa flags, A n = some (pa, flags) → ∀ o < frameSize,
      m.mem (pa + o) = k.machine.mem (pa + o)) :
    k.Next W A op none { k with machine := m } A where
  inv := ⟨hspace, h.window, h.regions⟩
  spawned := by simp
  fresh _ hfresh := ⟨fun pid hpid hA => (hfresh pid hpid hA).mono (fun _ _ => rfl) hbytes, (by simp)⟩

/-- **Spawning.** The frames matter only if it fails. -/
theorem Inv.spawn {name : List UInt8} (h : k.Inv W A) (hrun : k.spawnProcess name = some (r, k'))
    (hclean : r = none → (KernelOp.spawn name).Clean k) : ∃ A', k.Next W A (.spawn name) r k' A' := by
  obtain ⟨hroot, himage, hcases⟩ := spawnProcess_cases hrun
  -- a spawn that changes no page
  have hsame : k'.machine = k.machine → k'.Inv W A ∧ (k.Fresh A → k'.Fresh A) := by
    intro hm
    refine ⟨⟨by rw [hroot, hm]; exact h.space, h.window, by rw [himage]; exact h.regions⟩, ?_⟩
    unfold Fresh
    rw [himage, hm]
    exact id
  rcases hcases with ⟨rfl, hm⟩ | ⟨pid, hslot, hpid, ⟨hsome, rfl, hm⟩ | ⟨hnone, b, hmap, rfl⟩⟩
  · obtain ⟨hinv, hfresh⟩ := hsame hm
    exact ⟨A, hinv, (by simp), fun _ hf => ⟨hfresh hf, (by simp)⟩⟩
  · -- the region was mapped before
    have hA := (h.translate_isSome hpid).1 hsome
    obtain ⟨hinv, hfresh⟩ := hsame hm
    refine ⟨A, hinv, ?_, fun _ hf => ⟨hfresh hf, ?_⟩⟩
    · rintro _ ⟨rfl⟩
      exact ⟨hpid, hinv.regions pid hpid hA⟩
    · rintro _ ⟨rfl⟩
      exact hfresh hf pid hpid hA
  · have hA : A (codePage pid) = none := by
      by_contra hA
      rw [(h.translate_isSome hpid).2 hA] at hnone
      cases hnone
    cases b with
    | false =>
        -- there was no frame at all, so no page has changed
        have hunmapped : k.machine.translate k.root (userCodeVa pid) = none :=
          Option.isNone_iff_eq_none.1 (Option.isSome_eq_false_iff.1 hnone)
        have hdry : k.machine.supply = 0 :=
          (hclean rfl pid hslot hunmapped).resolve_right (h.space.mapProcess_short hpid.2 hmap)
        obtain ⟨-, hspace, hleaves⟩ := h.space.mapProcess_dry hdry hmap
        rw [← hroot] at hspace
        refine ⟨A, ⟨hspace, h.window, by rw [himage]; exact h.regions⟩, (by simp),
          fun _ hf => ⟨fun pid' hpid' hA' => ?_, (by simp)⟩⟩
        rw [himage]
        exact (hf pid' hpid' hA').mono (fun _ _ => rfl)
          fun n pa flags hn o ho => h.space.mem_eq hleaves hn ho
    | true =>
        obtain ⟨A', hp⟩ := h.space.mapProcess hpid.2 k.image_lt hmap
        have hspace : UserSpace k'.root W k'.machine A' := by
          rw [hroot]
          exact hp.space
        -- the other regions are as before
        have hother : ∀ pid', pid' ≠ pid → A' (codePage pid') = A (codePage pid') :=
          fun pid' hne => hp.only _ (codePage_apart (Ne.symm hne))
        refine ⟨A', ⟨hspace, h.window, fun pid' hpid' hA' => ?_⟩, ?_, fun _ hf => ⟨fun pid' hpid' hA' => ?_, ?_⟩⟩
        · rw [himage]
          by_cases hne : pid' = pid
          · exact hne ▸ hp.complete
          · rw [hother pid' hne] at hA'
            exact (h.regions pid' hpid' hA').mono hp.kept
        · rintro _ ⟨rfl⟩
          rw [himage]
          exact ⟨hpid, hp.complete⟩
        · rw [himage]
          by_cases hne : pid' = pid
          · exact hne ▸ hp.loaded
          · rw [hother pid' hne] at hA'
            exact (hf pid' hpid' hA').mono hp.kept hp.bytes
        · rintro _ ⟨rfl⟩
          rw [himage]
          exact hp.loaded

theorem userWrite_page {va : Nat} {c : UInt8} (h : UserSpace k.root W k.machine A)
    (hallowed : (KernelOp.userWrite va c).Allowed k)
    (hrun : (KernelOp.userWrite va c).exec k = some (r, k')) :
    r = none ∧ ∃ pa flags, A (va / frameSize) = some (pa, flags) ∧
      k' = { k with machine :=
        { k.machine with mem := k.machine.mem.poke (pa + va % frameSize) c } } ∧
      UserSpace k'.root W k'.machine A := by
  obtain ⟨hva, huser, -⟩ := hallowed
  obtain ⟨a, hmmu, heq⟩ := Option.map_eq_some_iff.1 hrun
  obtain ⟨rfl, rfl⟩ := Prod.mk.inj heq
  have hc : isCanonical va = true := by
    by_contra hc
    rw [mmu, if_neg hc] at hmmu
    cases hmmu
  obtain ⟨pa, flags, hA⟩ := h.holds.user_page hva hc (by rw [hmmu]; rfl) huser
  rw [h.holds.mmu_page hva hc hA] at hmmu
  obtain rfl := Option.some.inj hmmu
  have hoff : va % frameSize < frameSize := Nat.mod_lt _ (by decide)
  have hpa := (h.holds.ram _ pa flags hA).1
  refine ⟨rfl, pa, flags, hA, rfl, h.setMem hA fun x hx => ByteMem.poke_of_ne ?_⟩
  rintro rfl
  simp only [frameSize] at hpa hoff hx
  omega

/-- **What user code writes.** -/
theorem Inv.userWrite {va : Nat} {c : UInt8} (h : k.Inv W A)
    (hallowed : (KernelOp.userWrite va c).Allowed k)
    (hrun : (KernelOp.userWrite va c).exec k = some (r, k')) :
    k.Next W A (.userWrite va c) r k' A := by
  obtain ⟨rfl, pa, flags, hA, rfl, hspace⟩ := userWrite_page h.space hallowed hrun
  have hoff : va % frameSize < frameSize := Nat.mod_lt _ (by decide)
  refine ⟨⟨hspace, h.window, h.regions⟩, (by simp),
    fun hkeeps hfresh => ⟨fun pid hpid hpage i o ho hlen => ?_, (by simp)⟩⟩
  obtain ⟨pa', hA', hbyte⟩ := hfresh pid hpid hpage i o ho hlen
  refine ⟨pa', hA', ?_⟩
  by_cases hsame : va / frameSize = codePage pid + i ∧ va % frameSize = o
  · -- a byte of the image: the same one is written
    obtain ⟨hdiv, rfl⟩ := hsame
    rw [hdiv] at hA
    obtain ⟨rfl, -⟩ := Prod.mk.inj (Option.some.inj (hA.symm.trans hA'))
    have hva' : va = userCodeVa pid + (i * frameSize + va % frameSize) := by
      rw [userCodeVa_eq, ← Nat.add_assoc, ← Nat.add_mul, ← hdiv, Nat.div_add_mod']
    rw [hkeeps pid hpid.1 hpid.2 _ hlen hva']
    exact Function.update_self _ _ _
  · rw [← hbyte]
    refine h.space.poke_of_ne hA hA' hoff ho ?_
    rw [← not_and_or]
    exact hsame

/-- **The step lemma.** -/
theorem Inv.step (h : k.Inv W A) (hallowed : op.Allowed k) (hrun : op.exec k = some (r, k'))
    (hclean : op.Clean k) : ∃ A', k.Next W A op r k' A' := by
  cases op with
  | spawn name => exact h.spawn hrun fun _ => hclean
  | sched op =>
      obtain ⟨x, -, heq⟩ := Option.map_eq_some_iff.1 hrun
      obtain ⟨rfl, rfl⟩ := Prod.mk.inj heq
      exact ⟨A, ⟨h.space, h.window, h.regions⟩, (by simp), fun _ hf => ⟨hf, (by simp)⟩⟩
  | alloc =>
      obtain ⟨⟨f, m⟩, halloc, heq⟩ := Option.map_eq_some_iff.1 hrun
      obtain ⟨rfl, rfl⟩ := Prod.mk.inj heq
      obtain ⟨hspace, hleaves⟩ := h.space.alloc halloc
      exact ⟨A, h.machine hspace fun n pa flags hA o ho => h.space.mem_eq hleaves hA ho⟩
  | release f =>
      obtain ⟨m, hrel, heq⟩ := Option.map_eq_some_iff.1 hrun
      obtain ⟨rfl, rfl⟩ := Prod.mk.inj heq
      obtain ⟨hspace, hmem⟩ := h.space.release hallowed hrel
      refine ⟨A, h.machine hspace fun n pa flags hA o ho => ?_⟩
      refine hmem _ (h.space.aside n pa flags hA) (h.space.mapped n pa flags hA) _ ?_
      have hpa := (h.space.holds.ram n pa flags hA).1
      simp only [frameSize] at hpa ho ⊢
      omega
  | userWrite va c => exact ⟨A, h.userWrite hallowed hrun⟩

/-! ## Runs -/

/-- **The run lemma**, for clean steps. -/
theorem Started.run {k₀ : Kernel} (h : k₀.Started) (hrun : ReflTransGen CleanStep k₀ k) :
    ∃ W A, k.Inv W A := by
  induction hrun with
  | refl =>
      obtain ⟨W, hinv⟩ := h.inv
      exact ⟨W, AddrSpace.empty, hinv⟩
  | tail _ hstep ih =>
      obtain ⟨W, A, hinv⟩ := ih
      obtain ⟨op, r, hallowed, hclean, hexec⟩ := hstep
      obtain ⟨A', hnext⟩ := hinv.step hallowed hexec hclean
      exact ⟨W, A', hnext.inv⟩

/-- **The run lemma**, for clean steps that keep the images. -/
theorem Started.run_fresh {k₀ : Kernel} (h : k₀.Started) (hrun : ReflTransGen TidyStep k₀ k) :
    ∃ W A, k.Inv W A ∧ k.Fresh A := by
  induction hrun with
  | refl =>
      obtain ⟨W, hinv⟩ := h.inv
      exact ⟨W, AddrSpace.empty, hinv, fun _ _ hA => absurd rfl hA⟩
  | tail _ hstep ih =>
      obtain ⟨W, A, hinv, hfresh⟩ := ih
      obtain ⟨op, r, hallowed, hclean, hkeeps, hexec⟩ := hstep
      obtain ⟨A', hnext⟩ := hinv.step hallowed hexec hclean
      exact ⟨W, A', hnext.inv, (hnext.fresh hkeeps hfresh).1⟩

/-- User code may write at `va`. -/
def UserWritable (k : Kernel) (va : Nat) : Prop :=
  (k.machine.translate k.root va).isSome = true ∧ (k.machine.effective k.root va).user = true ∧
    (k.machine.effective k.root va).writable = true

/-- Every page of the image and the stack page are mapped for user code. -/
def HasPages (k : Kernel) (pid : Nat) : Prop :=
  (∀ va, userCodeVa pid ≤ va → va < userCodeVa pid + codeFrames k.image * frameSize →
    k.UserWritable va) ∧
  ∀ va, userStackTop pid - frameSize ≤ va → va < userStackTop pid → k.UserWritable va

/-- The region holds the image. -/
def HoldsImage (k : Kernel) (pid : Nat) : Prop :=
  ∀ j < k.image.length, k.machine.byteAt k.root (userCodeVa pid + j) = k.image[j]?

theorem lt_of_page {va n : Nat} (h : va / frameSize = n) (hn : n < 2 ^ 35) : va < 2 ^ 47 := by
  simp only [frameSize] at h
  omega

theorem Inv.userWritable (h : k.Inv W A) {va pa : Nat} (hva : va < 2 ^ 47)
    (hA : A (va / frameSize) = some (pa, userFlags)) : k.UserWritable va := by
  have hva64 : va < 2 ^ 64 := by omega
  have hc : isCanonical va = true := (isCanonical_iff hva64).2 (Or.inl hva)
  rw [UserWritable, h.space.holds.effective_page hva64 hc hA, h.space.holds.translate_eq hva64,
    if_pos hc, walkOf, hA]
  exact ⟨rfl, by decide, by decide⟩

theorem Inv.hasPages (h : k.Inv W A) (hpid : IsSlot pid) (hcomplete : Complete k.image A pid) :
    k.HasPages pid := by
  have hp := codePage_le hpid.2
  have hlen := k.image_lt
  obtain ⟨hcode, pa, hstack⟩ := hcomplete
  constructor
  · intro va hge hlt
    rw [userCodeVa_eq] at hge hlt
    have hcount : codeFrames k.image * frameSize < 2 ^ 45 := by
      simp only [codeFrames, frameSize]
      omega
    obtain ⟨pa, hpa⟩ := hcode (va / frameSize - codePage pid) (by
      simp only [frameSize] at hge hlt ⊢
      omega)
    refine h.userWritable ?_ (show A _ = some (pa, userFlags) from ?_)
    · simp only [frameSize] at hlt hcount
      omega
    · rw [← hpa, Nat.add_sub_cancel']
      exact (Nat.le_div_iff_mul_le (by decide)).2 hge
  · intro va hge hlt
    have hva := userStackVa_eq pid
    have htop : userStackTop pid = userStackVa pid + frameSize := by
      simp only [userStackVa, userStackTop, frameSize]
      omega
    rw [htop] at hlt
    rw [htop, Nat.add_sub_cancel, hva] at hge
    rw [hva] at hlt
    have hdiv : va / frameSize = codePage pid + 256 := by
      simp only [frameSize] at hge hlt ⊢
      omega
    refine h.userWritable (lt_of_page hdiv ?_) (by rw [hdiv, hstack])
    exact lt_of_le_of_lt (Nat.add_le_add_right hp 256) (by decide)

theorem Inv.holdsImage (h : k.Inv W A) (hpid : IsSlot pid)
    (hloaded : Loaded k.image k.machine A pid) : k.HoldsImage pid := by
  intro j hj
  have hp := codePage_le hpid.2
  have hlen := k.image_lt
  have hoff : j % frameSize < frameSize := Nat.mod_lt _ (by decide)
  have hsplit := Nat.div_add_mod' j frameSize
  obtain ⟨pa, hA, hbyte⟩ := hloaded (j / frameSize) (j % frameSize) hoff (by omega)
  obtain ⟨hva, hc, hdiv, hmod⟩ := page_canonical (n := codePage pid + j / frameSize) (by
    simp only [frameSize]
    omega) hoff
  have hva' : userCodeVa pid + j = (codePage pid + j / frameSize) * frameSize + j % frameSize := by
    rw [userCodeVa_eq, Nat.add_mul, Nat.add_assoc, hsplit]
  rw [hva', h.space.holds.byteAt_page hva hc (by rw [hdiv, hA]), hmod, hbyte, hsplit,
    List.getElem?_eq_getElem hj, List.getD_eq_getElem _ _ hj]

end Kernel

open Kernel

/-! ## A small machine -/

/-- A region of `n` usable frames above the legacy area. -/
def lowBoot (n : Nat) : BootInfo where
  physmapBase := physMapBase
  regions := [⟨0x100000, n * frameSize, .usable⟩]
  kernelImage := (0, 0)

theorem lowBoot_apart {n : Nat} (hbelow : (lowBoot n).Below16TiB) : (lowBoot n).TableApart 0 :=
  tableApart_noHeap ⟨by simp [lowBoot, physMapBase], by simp [lowBoot], by simp [lowBoot]⟩
    (by simp [lowBoot, misaligned, frameSize]) hbelow

/-- The kernel that boots on it, with a program of one byte, and its physmap base. -/
def bootKernel (n : Nat) : Option (Nat × Kernel) :=
  (finish (pmmInit (lowBoot n) [] [] 0) (reset fun _ => 0)).bind fun r =>
    (r.2.newKernel (0x100000 + n * frameSize)).bind fun q => q.1.map fun root =>
      (r.2.physmapBase, ⟨q.2, Sched.shellOnly, root, [0x90], by decide⟩)

theorem bootKernel_started {n : Nat} {k : Kernel} (h : bootKernel n = some (physMapBase, k))
    (hbelow : (lowBoot n).Below16TiB) (hram : 0x100000 + n * frameSize ≤ 2 ^ 44)
    (hwin : windowBytes (0x100000 + n * frameSize) ≤ procBase) : k.Started := by
  obtain ⟨⟨⟨info, caps⟩, s⟩, hinit, h⟩ := Option.bind_eq_some_iff.1 h
  obtain ⟨⟨o, m⟩, hnew, h⟩ := Option.bind_eq_some_iff.1 h
  obtain ⟨root, rfl, h⟩ := Option.map_eq_some_iff.1 h
  obtain ⟨hbase, rfl⟩ := Prod.mk.inj h
  exact ⟨lowBoot n, [], [], caps, 0, _, info, s, s, _, 0x400000, 0x500000, 0x500000, hbelow,
    ⟨lowBoot_apart hbelow, returns_of_finish hinit⟩, ReflTransGen.refl, hbase, hram, hwin, hnew, rfl⟩

section Spawn

variable {k₀ k k' : Kernel} {name : List UInt8} {pid : Nat}

/-! ## Completeness -/

/-- **A spawned process has all its pages**, if no spawn before found frames, but too few. -/
theorem spawn_complete (h : k₀.Started) (hrun : ReflTransGen CleanStep k₀ k)
    (hspawn : k.spawnProcess name = some (some pid, k')) : k'.HasPages pid := by
  obtain ⟨W, A, hinv⟩ := h.run hrun
  obtain ⟨A', hnext⟩ := hinv.spawn hspawn fun hr => by cases hr
  obtain ⟨hpid, hcomplete⟩ := hnext.spawned pid rfl
  exact hnext.inv.hasPages hpid hcomplete

/-- Eleven frames are enough for one process. -/
theorem spawn_complete_small :
    ∃ k₀ k' : Kernel, k₀.Started ∧ k₀.spawnProcess [112] = some (some 1, k') ∧ k'.HasPages 1 := by
  have hrun : ((bootKernel 11).bind fun x => (x.2.spawnProcess [112]).map fun r => (x.1, r.1)) =
      some (physMapBase, some 1) := by
    decide +kernel
  obtain ⟨⟨base, k₀⟩, hboot, hrun⟩ := Option.bind_eq_some_iff.1 hrun
  obtain ⟨⟨r, k'⟩, hspawn, hrun⟩ := Option.map_eq_some_iff.1 hrun
  simp only [Prod.mk.injEq] at hrun
  obtain ⟨rfl, rfl⟩ := hrun
  have hstarted := bootKernel_started hboot (by decide) (by decide) (by decide)
  exact ⟨k₀, k', hstarted, hspawn, spawn_complete hstarted ReflTransGen.refl hspawn⟩

/-- **A process without a stack.** On a machine with ten frames the first spawn maps the code page
and finds no frame for the stack; the second one takes the region as it is. -/
theorem spawn_incomplete :
    ∃ k₀ k₁ k₂ : Kernel, k₀.Started ∧ k₀.spawnProcess [112] = some (none, k₁) ∧
      k₁.spawnProcess [112] = some (some 1, k₂) ∧
      k₂.machine.translate k₂.root (userStackTop 1 - frameSize) = none ∧ ¬ k₂.HasPages 1 := by
  have hrun : ((bootKernel 10).bind fun x => (x.2.spawnProcess [112]).bind fun r =>
      (r.2.spawnProcess [112]).map fun q => (x.1, r.1, q.1,
        q.2.machine.translate q.2.root (userStackTop 1 - frameSize))) =
      some (physMapBase, none, some 1, none) := by
    decide +kernel
  obtain ⟨⟨base, k₀⟩, hboot, hrun⟩ := Option.bind_eq_some_iff.1 hrun
  obtain ⟨⟨r, k₁⟩, hfirst, hrun⟩ := Option.bind_eq_some_iff.1 hrun
  obtain ⟨⟨q, k₂⟩, hsecond, hrun⟩ := Option.map_eq_some_iff.1 hrun
  simp only [Prod.mk.injEq] at hrun
  obtain ⟨rfl, rfl, rfl, hstack⟩ := hrun
  have hstarted := bootKernel_started hboot (by decide) (by decide) (by decide)
  refine ⟨k₀, k₁, k₂, hstarted, hfirst, hsecond, hstack, fun hpages => ?_⟩
  have hsome := (hpages.2 (userStackTop 1 - frameSize) le_rfl (by decide)).1
  rw [hstack] at hsome
  cases hsome

/-! ## Fresh images -/

/-- **A spawned process starts on the program image**, if in addition no image was changed. -/
theorem spawn_fresh (h : k₀.Started) (hrun : ReflTransGen TidyStep k₀ k)
    (hspawn : k.spawnProcess name = some (some pid, k')) : k'.HoldsImage pid := by
  obtain ⟨W, A, hinv, hfresh⟩ := h.run_fresh hrun
  obtain ⟨A', hnext⟩ := hinv.spawn hspawn fun hr => by cases hr
  obtain ⟨-, hloaded⟩ := hnext.fresh trivial hfresh
  exact hnext.inv.holdsImage (hnext.spawned pid rfl).1 (hloaded pid rfl)

/-- The image of a process that was killed, in the slot it is spawned in again. -/
theorem spawn_fresh_small :
    ∃ k₀ k₁ k₂ k₃ : Kernel, k₀.Started ∧ k₀.spawnProcess [112] = some (some 1, k₁) ∧
      (KernelOp.sched (.kill 1)).exec k₁ = some (none, k₂) ∧
      k₂.spawnProcess [113] = some (some 1, k₃) ∧ k₃.HoldsImage 1 := by
  have hrun : ((bootKernel 11).bind fun x => (x.2.spawnProcess [112]).bind fun r =>
      ((KernelOp.sched (.kill 1)).exec r.2).bind fun q => (q.2.spawnProcess [113]).map fun t =>
        decide ((x.1 = physMapBase ∧ r.1 = some 1 ∧ q.1 = none ∧ t.1 = some 1) ∧
          x.2.sched.freeSlot = some 1 ∧ x.2.image = [0x90] ∧ x.2.machine.supply = 4 ∧
          missing childOf x.2.machine.entries x.2.root (upper (userCodeVa 1)) = 2)) = some true := by
    decide +kernel
  obtain ⟨⟨base, k₀⟩, hboot, hrun⟩ := Option.bind_eq_some_iff.1 hrun
  obtain ⟨⟨r, k₁⟩, hfirst, hrun⟩ := Option.bind_eq_some_iff.1 hrun
  obtain ⟨⟨q, k₂⟩, hkill, hrun⟩ := Option.bind_eq_some_iff.1 hrun
  obtain ⟨⟨t, k₃⟩, hsecond, hrun⟩ := Option.map_eq_some_iff.1 hrun
  obtain ⟨⟨rfl, rfl, rfl, rfl⟩, hslot, himage, hsupply, hmissing⟩ := of_decide_eq_true hrun
  have hstarted := bootKernel_started hboot (by decide) (by decide) (by decide)
  have hclean : (KernelOp.spawn [112]).Clean k₀ := by
    intro pid hpid _
    obtain rfl : (1 : Nat) = pid := Option.some.inj (hslot.symm.trans hpid)
    refine Or.inr ⟨?_, ?_⟩
    · rw [himage]
      decide
    · rw [himage, hmissing, hsupply]
      decide
  have hspawn : TidyStep k₀ k₁ := ⟨.spawn [112], some 1, trivial, hclean, trivial, hfirst⟩
  have hdead : TidyStep k₁ k₂ :=
    ⟨.sched (.kill 1), none, (fun _ _ h => by cases h), trivial, trivial, hkill⟩
  exact ⟨k₀, k₁, k₂, k₃, hstarted, hfirst, hkill, hsecond,
    spawn_fresh hstarted ((ReflTransGen.single hspawn).tail hdead) hsecond⟩

/-- **A process on stale code.** Process 1 runs, overwrites its first instruction and exits; the
process spawned next in its slot starts on what it wrote. -/
theorem spawn_stale :
    ∃ k₀ k₁ k₂ k₃ k₄ k₅ : Kernel, k₀.Started ∧ k₀.spawnProcess [112] = some (some 1, k₁) ∧
      (KernelOp.sched (.tick 0x4ff000)).exec k₁ = some (none, k₂) ∧ k₂.sched.current = 1 ∧
      (KernelOp.userWrite (userCodeVa 1) 0xcc).Allowed k₂ ∧
      (KernelOp.userWrite (userCodeVa 1) 0xcc).exec k₂ = some (none, k₃) ∧
      (KernelOp.sched .exit).exec k₃ = some (none, k₄) ∧
      k₄.spawnProcess [113] = some (some 1, k₅) ∧
      k₅.machine.byteAt k₅.root (userCodeVa 1) = some 0xcc ∧ ¬ k₅.HoldsImage 1 := by
  have hrun : ((bootKernel 11).bind fun x => (x.2.spawnProcess [112]).bind fun r =>
      ((KernelOp.sched (.tick 0x4ff000)).exec r.2).bind fun t =>
      ((KernelOp.userWrite (userCodeVa 1) 0xcc).exec t.2).bind fun w =>
      ((KernelOp.sched .exit).exec w.2).bind fun e => (e.2.spawnProcess [113]).map fun q =>
        decide ((x.1 = physMapBase ∧ r.1 = some 1 ∧ t.1 = none ∧ w.1 = none ∧ e.1 = none ∧
          q.1 = some 1) ∧ t.2.sched.current = 1 ∧
          t.2.machine.effective t.2.root (userCodeVa 1) = ⟨true, true, false⟩ ∧
          q.2.machine.byteAt q.2.root (userCodeVa 1) = some 0xcc ∧ q.2.image = [0x90])) =
      some true := by
    decide +kernel
  obtain ⟨⟨base, k₀⟩, hboot, hrun⟩ := Option.bind_eq_some_iff.1 hrun
  obtain ⟨⟨r, k₁⟩, hfirst, hrun⟩ := Option.bind_eq_some_iff.1 hrun
  obtain ⟨⟨t, k₂⟩, htick, hrun⟩ := Option.bind_eq_some_iff.1 hrun
  obtain ⟨⟨w, k₃⟩, hwrite, hrun⟩ := Option.bind_eq_some_iff.1 hrun
  obtain ⟨⟨e, k₄⟩, hexit, hrun⟩ := Option.bind_eq_some_iff.1 hrun
  obtain ⟨⟨q, k₅⟩, hsecond, hrun⟩ := Option.map_eq_some_iff.1 hrun
  obtain ⟨⟨rfl, rfl, rfl, rfl, rfl, rfl⟩, hcur, hrights, hbyte, himage⟩ := of_decide_eq_true hrun
  have hstarted := bootKernel_started hboot (by decide) (by decide) (by decide)
  refine ⟨k₀, k₁, k₂, k₃, k₄, k₅, hstarted, hfirst, htick, hcur, ?_, hwrite, hexit, hsecond, hbyte,
    fun himage' => ?_⟩
  · show _ < 2 ^ 64 ∧ _
    rw [hrights]
    exact ⟨by decide, rfl, rfl⟩
  · have hfirst' := himage' 0 (by rw [himage]; decide)
    rw [Nat.add_zero, hbyte, himage] at hfirst'
    exact absurd hfirst' (by decide)

end Spawn

end Rolnix
