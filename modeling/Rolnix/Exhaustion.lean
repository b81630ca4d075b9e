import Rolnix.CallersProof

/-!
# When `alloc_frame` finds nothing

`alloc_frame` tries its shard, refills it from the global list and tries once more. Between its
critical sections other callers run, and two things can leave it with nothing though frames are
free: a batch that another caller has peeled and not spliced yet, and another caller that takes the
last frame of the shard before the second try. `spurious_exhaustion` is a run of the first kind.

`exhaustion_real` says that these are all. A call is `Patient` if it does not start its refill on
empty lists while frames are in flight or on other shards, and if it does not take the last frame
of a shard from a call that waits for its second try. In a run of patient steps a call that returns
`None` has seen a moment at which no frame was free. The step lemma is `Sound.doomed_step`: a call
comes to stand before its second try on an empty shard only at such a moment.
-/

namespace Rolnix

open Linked Relation Machine

/-- No frame is free. -/
def Machine.Exhausted (s : Machine) : Prop := ∀ f < s.numFrames, (s.frames f).ownerTag ≠ .free

instance (s : Machine) : Decidable s.Exhausted :=
  inferInstanceAs (Decidable (∀ f < s.numFrames, (s.frames f).ownerTag ≠ .free))

variable {n : Nat} {c c' : Callers n} {t u : Fin n} {k : Fin shardCount} {L : Nat → List Nat}
  {G : List Nat} {B : Fin n → List Nat} {σ : Nat → Callers n} {i j : Nat}

namespace Callers

/-- A refill of `k` that finds its shard and the global list empty starts with no frame in flight or
on another shard. -/
def RefillsLast (c : Callers n) (k : Fin shardCount) : Prop :=
  c.machine.global.count = 0 → (c.machine.shards k).isEmpty = true →
    (∀ u, (c.pc u).batch = none) ∧ ∀ i < shardCount, (c.machine.shards i).isEmpty = true

/-- If `t` takes the last frame of shard `k`, then no other call is before its second `pop_shard`
there, or the frame is the last free one. -/
def SparesWaiting (c : Callers n) (t : Fin n) (k : Fin shardCount) : Prop :=
  (c.machine.shards k).count = 1 →
    (∀ u, u ≠ t → c.pc u ≠ .again k) ∨
      ∀ f < c.machine.numFrames, (c.machine.frames f).ownerTag = .free →
        f = (c.machine.shards k).head

/-- The next critical section of `t` does not take what another call relies on. -/
def PatientAt (c : Callers n) (t : Fin n) : Pc → Prop
  | .peel k => c.RefillsLast k
  | .pop k | .again k => c.SparesWaiting t k
  | .idle | .splice _ _ => True

instance (c : Callers n) (t : Fin n) : DecidablePred (c.PatientAt t)
  | .peel _ => by unfold PatientAt RefillsLast; infer_instance
  | .pop _ | .again _ => by unfold PatientAt SparesWaiting; infer_instance
  | .idle | .splice _ _ => inferInstanceAs (Decidable True)

end Callers

namespace CallerOp

def Patient (c : Callers n) : CallerOp n → Prop
  | next t => c.PatientAt t (c.pc t)
  | _ => True

instance (c : Callers n) : DecidablePred (Patient c)
  | next t => inferInstanceAs (Decidable (c.PatientAt t (c.pc t)))
  | call .. | release .. | give .. | write .. => inferInstanceAs (Decidable True)

end CallerOp

namespace Callers

/-- The guard of patient steps. -/
def allowedPatient (c : Callers n) (op : CallerOp n) : Prop := op.Allowed c ∧ op.Patient c

instance (c : Callers n) : DecidablePred (allowedPatient c) :=
  fun op => inferInstanceAs (Decidable (op.Allowed c ∧ op.Patient c))

/-- A step whose caller is patient. -/
def PatientStep : Callers n → Callers n → Prop :=
  Runs.Step allowedPatient CallerOp.exec

theorem PatientStep.step (h : PatientStep c c') : Step c c' := by
  obtain ⟨op, hok, hexec⟩ := h
  exact ⟨op, hok.1, hexec⟩

/-- A call of `t` for shard `k` that returns `None`: it makes its first `pop_shard` in state `i` and
its second one in state `j`, which finds nothing. -/
structure ReturnsNone (σ : Nat → Callers n) (t : Fin n) (k : Fin shardCount) (i j : Nat) : Prop where
  le : i ≤ j
  begins : (σ i).pc t = .pop k
  inside : ∀ l, i ≤ l → l ≤ j → (σ l).pc t ≠ .idle
  ends : (σ j).pc t = .again k
  nothing : ∃ s, (σ j).machine.popShard k = some (none, s)

theorem finish_pc {r : Option Nat} {s : Machine} : (c.finish t r s).pc t = .idle :=
  Function.update_self _ _ _

theorem Section.pc_of_ne (h : Section c t c') (hne : u ≠ t) : c'.pc u = c.pc u := by
  cases h with
  | popNone | popSome | peelNone | peelSome | splice | again => exact Function.update_of_ne hne _ _

namespace Sound

/-! ## Empty lists -/

theorem isEmpty_iff (h : c.Sound L G B) {i : Nat} (hi : i < shardCount) :
    (c.machine.shards i).isEmpty = true ↔ L i = [] := by
  have hchain : Chain c.machine.listNext listEnd (c.machine.shards i).head (L i) :=
    h.lists.shardChain i hi
  rw [Shard.isEmpty, decide_eq_true_iff, hchain.eq_nil_iff]

theorem exhausted (h : c.Sound L G B) (hglobal : c.machine.global.count = 0)
    (hflight : ∀ u, (c.pc u).batch = none)
    (hshards : ∀ i < shardCount, (c.machine.shards i).isEmpty = true) :
    c.machine.Exhausted := by
  intro f hf htag
  have hG : G = [] := by
    have hcount : c.machine.global.count = G.length := h.lists.globalLength
    rw [← List.length_eq_zero_iff, ← hcount, hglobal]
  have hB : ∀ u, B u = [] := by
    intro u
    have hcarries := h.carries u
    rw [hflight u] at hcarries
    exact hcarries
  have hocc : occ L G f = 0 := by
    rw [occ, hG, List.count_nil, Nat.add_zero]
    refine Finset.sum_eq_zero fun i hi => ?_
    rw [(h.isEmpty_iff (Finset.mem_range.1 hi)).1 (hshards i (Finset.mem_range.1 hi)),
      List.count_nil]
  have hcount := h.occ_add f
  rw [hocc, if_pos ⟨hf, h.tag f htag⟩] at hcount
  simp [hB] at hcount

/-! ## One step -/

/-- A pop by `t`, seen by a call that waits on shard `k`: if the shard is empty now, it was before, or
no frame is left at all. -/
theorem pop_spares (h : c.Sound L G B) {k' : Fin shardCount} (hspares : c.SparesWaiting t k')
    (hwait : c.pc u = .again k) (hne : u ≠ t) {r : Option Nat} {s : Machine}
    (hpop : c.machine.popShard k' = some (r, s)) (hempty : (s.shards k).isEmpty = true) :
    s.Exhausted ∨ (c.machine.shards k).isEmpty = true := by
  cases hl : L k' with
  | nil =>
      have hend := (h.isEmpty_iff k'.isLt).2 hl
      rw [popShard_of_empty (of_decide_eq_true hend)] at hpop
      obtain ⟨-, rfl⟩ := Prod.mk.inj (Option.some.inj hpop)
      exact Or.inr hempty
  | cons f l =>
      obtain ⟨hlt, hhidden⟩ := h.lists.of_mem_shard k'.isLt (hl ▸ List.mem_cons_self)
      have hchain : Chain c.machine.listNext listEnd (c.machine.shards k').head (L k') :=
        h.lists.shardChain k' k'.isLt
      rw [hl] at hchain
      obtain ⟨hhead, hend, hrest⟩ := chain_cons_iff.1 hchain
      have htable : c.machine.tableBase ≠ 0 := h.lists.table
      rw [popShard_of_head htable hhead hend hlt (hide_free.1 hhidden).2] at hpop
      obtain ⟨-, rfl⟩ := Prod.mk.inj (Option.some.inj hpop)
      by_cases hk : k = k'
      · -- the frame was the last one of the shard
        subst hk
        left
        have hshard : (c.machine.popped k f).shards k =
            ⟨c.machine.listNext f, Word.sub 32 (c.machine.shards k).count 1⟩ :=
          Function.update_self _ _ _
        rw [hshard] at hempty
        have hnil : l = [] := hrest.eq_nil_iff.2 (of_decide_eq_true hempty)
        have hcount : (c.machine.shards k).count = 1 := by
          have hlength : (c.machine.shards k).count = (L k).length :=
            h.lists.shardLength k k.isLt
          rw [hlength, hl, hnil]
          rfl
        rcases hspares hcount with hnone | hlast
        · exact absurd hwait (hnone u hne)
        · intro g hg
          by_cases hgf : g = f
          · subst hgf
            rw [popped, setInfo_frames, Function.update_self]
            intro howner
            cases howner
          · rw [popped, setInfo_frames, Function.update_of_ne hgf]
            intro htag
            exact hgf ((hlast g hg htag).trans hhead)
      · right
        have hkv : (k : Nat) ≠ k' := fun hv => hk (Fin.ext hv)
        have hsame : (c.machine.popped k' f).shards k = c.machine.shards k :=
          Function.update_of_ne hkv _ _
        rw [← hsame]
        exact hempty

theorem splice_nonempty (h : c.Sound L G B) {b : Batch} (hpc : c.pc t = .splice k b) :
    ¬ ((c.machine.spliceShard k b).shards k).isEmpty = true := by
  intro hempty
  have hnil := ((h.splice hpc).isEmpty_iff k.isLt).1 hempty
  rw [Function.update_self, List.append_eq_nil_iff] at hnil
  have hcarries := h.carries t
  rw [hpc, hnil.1] at hcarries
  cases hcarries.2.1

theorem shards_splice {s : Machine} {k' : Fin shardCount} {b : Batch} (hk : k ≠ k') :
    (s.spliceShard k' b).shards k = s.shards k :=
  Function.update_of_ne (fun hv => hk (Fin.ext hv)) _ _

theorem shards_peelGlobal (s : Machine) : s.peelGlobal.2.shards = s.shards := by
  rcases hpeel : s.peelGlobal with ⟨b, s'⟩
  obtain ⟨g, rfl⟩ := peelGlobal_state hpeel
  rfl

theorem peelGlobal_none {s s' : Machine} (h : s.peelGlobal = (none, s')) :
    s' = s ∧ s.global.count = 0 := by
  unfold peelGlobal PoolMem.peelGlobal at h
  dsimp only [PoolMem.global] at h
  split_ifs at h with hbatch
  · obtain ⟨-, rfl⟩ := Prod.mk.inj h
    refine ⟨rfl, ?_⟩
    simp only [shardRefillBatch] at hbatch
    omega
  · cases (Prod.mk.inj h).1

theorem doomed_own (h : c.Sound L G B) (hpatient : c.PatientAt t (c.pc t))
    (hstep : Section c t c') (hends : c'.pc t = .again k)
    (hempty : (c'.machine.shards k).isEmpty = true) : c'.machine.Exhausted := by
  cases hstep with
  | popNone | peelSome =>
      rw [goto_pc] at hends
      cases hends
  | popSome | again =>
      rw [finish_pc] at hends
      cases hends
  | peelNone hpc hpeel =>
      rw [goto_pc] at hends
      obtain rfl := Pc.again.inj hends
      obtain ⟨rfl, hglobal⟩ := peelGlobal_none hpeel
      rw [hpc] at hpatient
      obtain ⟨hflight, hshards⟩ := hpatient hglobal hempty
      exact h.exhausted hglobal hflight hshards
  | splice hpc =>
      rw [goto_pc] at hends
      obtain rfl := Pc.again.inj hends
      exact absurd hempty (h.splice_nonempty hpc)

theorem doomed_other (h : c.Sound L G B) (hpatient : c.PatientAt t (c.pc t))
    (hstep : Section c t c') (hne : u ≠ t) (hwait : c.pc u = .again k)
    (hempty : (c'.machine.shards k).isEmpty = true) :
    c'.machine.Exhausted ∨ (c.machine.shards k).isEmpty = true := by
  cases hstep with
  | popNone hpc hpop | popSome hpc hpop | again hpc hpop =>
      rw [hpc] at hpatient
      exact h.pop_spares hpatient hwait hne hpop hempty
  | peelNone hpc hpeel | peelSome hpc hpeel =>
      have hshards := shards_peelGlobal c.machine
      rw [hpeel] at hshards
      exact Or.inr (hshards ▸ hempty)
  | splice hpc =>
      rename_i k' b
      by_cases hk : k = k'
      · subst hk
        exact absurd hempty (h.splice_nonempty hpc)
      · have hshard := shards_splice (s := c.machine) (b := b) hk
        exact Or.inr (hshard ▸ hempty)

/-- **A call comes to stand before its second try on an empty shard only when no frame is free.** -/
theorem doomed_step (h : c.Sound L G B) {op : CallerOp n} (hok : op.Allowed c)
    (hpatient : op.Patient c) (hexec : op.exec c = some c') (hin : c.pc u ≠ .idle)
    (hends : c'.pc u = .again k) (hempty : (c'.machine.shards k).isEmpty = true) :
    c'.machine.Exhausted ∨ c.pc u = .again k ∧ (c.machine.shards k).isEmpty = true := by
  cases op with
  | call t cpu =>
      obtain rfl := Option.some.inj hexec
      have hut : u ≠ t := by
        rintro rfl
        exact hin hok
      refine Or.inr ⟨?_, hempty⟩
      rw [← hends]
      exact (Function.update_of_ne hut _ _).symm
  | give t v f =>
      obtain rfl := Option.some.inj hexec
      exact Or.inr ⟨hends, hempty⟩
  | write t a b =>
      obtain rfl := Option.some.inj hexec
      exact Or.inr ⟨hends, hempty⟩
  | release t f cpu =>
      obtain ⟨hrel, hsound⟩ := h.release (CallerOp.shardOf cpu) hok.1 hok.2.1 hok.2.2
      simp only [CallerOp.exec, hrel, Option.map_some] at hexec
      obtain rfl := Option.some.inj hexec
      refine Or.inr ⟨hends, ?_⟩
      by_cases hk : k = CallerOp.shardOf cpu
      · have hnil := (hsound.isEmpty_iff k.isLt).1 hempty
        rw [hk, Function.update_self] at hnil
        cases hnil
      · have hsame : (c.machine.freedOn (CallerOp.shardOf cpu) f).shards k = c.machine.shards k :=
          Function.update_of_ne (fun hv => hk (Fin.ext hv)) _ _
        rw [← hsame]
        exact hempty
  | next t =>
      have hstep : Section c t c' := section_of_next hexec
      have hpatient : c.PatientAt t (c.pc t) := hpatient
      by_cases hut : u = t
      · subst hut
        exact Or.inl (h.doomed_own hpatient hstep hends hempty)
      · rw [hstep.pc_of_ne hut] at hends
        rcases h.doomed_other hpatient hstep hut hends hempty with hex | hold
        · exact Or.inl hex
        · exact Or.inr ⟨hends, hold⟩

end Sound

/-! ## Runs -/

/-- What the step lemma says along a run: before its second try a call has frames on its shard, or it
has seen a moment without a free frame. -/
theorem seen_exhausted (hsound : ∀ l ≤ j, ∃ L G B, (σ l).Sound L G B)
    (hrun : ∀ l < j, PatientStep (σ l) (σ (l + 1))) (hij : i ≤ j) (hbegins : (σ i).pc t = .pop k)
    (hinside : ∀ l, i ≤ l → l ≤ j → (σ l).pc t ≠ .idle) (hends : (σ j).pc t = .again k)
    (hempty : ((σ j).machine.shards k).isEmpty = true) :
    ∃ l, i ≤ l ∧ l ≤ j ∧ (σ l).machine.Exhausted := by
  induction j, hij using Nat.le_induction with
  | base =>
      rw [hbegins] at hends
      cases hends
  | succ j hij ih =>
      obtain ⟨L, G, B, h⟩ := hsound j (Nat.le_succ j)
      obtain ⟨op, ⟨hok, hpatient⟩, hexec⟩ := hrun j (Nat.lt_succ_self j)
      rcases h.doomed_step hok hpatient hexec (hinside j hij (Nat.le_succ j)) hends hempty with
        hex | ⟨hends', hempty'⟩
      · exact ⟨j + 1, Nat.le_succ_of_le hij, le_rfl, hex⟩
      · obtain ⟨l, hil, hlj, hex⟩ := ih (fun l hl => hsound l (Nat.le_succ_of_le hl))
          (fun l hl => hrun l (Nat.lt_succ_of_lt hl))
          (fun l hl hl' => hinside l hl (Nat.le_succ_of_le hl')) hends' hempty'
        exact ⟨l, hil, Nat.le_succ_of_le hlj, hex⟩

theorem isEmpty_of_popShard {s s' : Machine} {k : Nat} (h : s.popShard k = some (none, s')) :
    (s.shards k).isEmpty = true := by
  by_contra hne
  simp only [popShard, PoolMem.popShard, PoolMem.shards, if_neg hne] at h
  obtain ⟨s₁, -, heq⟩ := Option.bind_eq_some_iff.1 h
  cases (Prod.mk.inj (Option.some.inj heq)).1

/-- **`None` means that no frame was free**, at some moment during the call, in every run of patient
steps of any number of callers. -/
theorem exhaustion_real (hstart : (σ 0).Starts) (hrun : ∀ l < j, PatientStep (σ l) (σ (l + 1)))
    (hcall : ReturnsNone σ t k i j) : ∃ l, i ≤ l ∧ l ≤ j ∧ (σ l).machine.Exhausted := by
  obtain ⟨L₀, G₀, h₀⟩ := hstart.sound
  have hsound : ∀ l ≤ j, ∃ L G B, (σ l).Sound L G B := by
    intro l hl
    induction l with
    | zero => exact ⟨L₀, G₀, _, h₀⟩
    | succ l ih =>
        obtain ⟨L, G, B, h⟩ := ih (Nat.le_of_succ_le hl)
        exact h.run (ReflTransGen.single (hrun l hl).step)
  obtain ⟨s, hpop⟩ := hcall.nothing
  exact seen_exhausted hsound hrun hcall.le hcall.begins hcall.inside hcall.ends
    (isEmpty_of_popShard hpop)

/-- One caller takes all three frames of a small machine and asks for a fourth. -/
def fourCalls : List (CallerOp 1) :=
  [.call 0 0, .next 0, .next 0, .next 0, .next 0, .call 0 0, .next 0, .call 0 0, .next 0, .call 0 0,
    .next 0, .next 0]

/-- What `ReturnsNone` says, for a shard that can be looked at. -/
def FindsNothing (σ : Nat → Callers n) (t : Fin n) (k : Fin shardCount) (i j : Nat) : Prop :=
  (σ i).pc t = .pop k ∧ (∀ l < j + 1, i ≤ l → (σ l).pc t ≠ .idle) ∧ (σ j).pc t = .again k ∧
    ((σ j).machine.shards k).isEmpty = true

instance (σ : Nat → Callers n) (t : Fin n) (k : Fin shardCount) (i j : Nat) :
    Decidable (FindsNothing σ t k i j) := by
  unfold FindsNothing
  infer_instance

theorem FindsNothing.returnsNone (h : FindsNothing σ t k i j) (hij : i ≤ j) :
    ReturnsNone σ t k i j where
  le := hij
  begins := h.1
  inside := fun l hl hl' => h.2.1 l (Nat.lt_succ_of_le hl') hl
  ends := h.2.2.1
  nothing := ⟨_, popShard_of_empty (of_decide_eq_true h.2.2.2)⟩

theorem exhaustion_real_small :
    ∃ σ : Nat → Callers 1, (σ 0).Starts ∧ ReturnsNone σ 0 (CallerOp.shardOf 0) 10 12 ∧
      ∃ l, 10 ≤ l ∧ l ≤ 12 ∧ (σ l).machine.Exhausted := by
  have hcompute : ((Rolnix.finish (pmmInit smallBoot [] [] 0) (reset fun _ => 0)).bind fun x =>
      (Runs.run allowedPatient CallerOp.exec fourCalls (quiet 1 x.2)).map fun _ =>
        decide (FindsNothing (Runs.after allowedPatient CallerOp.exec fourCalls (quiet 1 x.2)) 0
          (CallerOp.shardOf 0) 10 12)) = some true := by
    decide +kernel
  obtain ⟨⟨⟨info, caps⟩, s⟩, hinit, hcompute⟩ := Option.bind_eq_some_iff.1 hcompute
  obtain ⟨c, hops, hfacts⟩ := Option.map_eq_some_iff.1 hcompute
  have hstart : (quiet 1 s).Starts := quiet_starts ⟨smallBoot, [], [], caps, 0, _, info, s,
    smallBoot_below, ⟨smallBoot_apart, returns_of_finish hinit⟩, ReflTransGen.refl⟩
  have hcall := FindsNothing.returnsNone (of_decide_eq_true hfacts) (by decide)
  exact ⟨_, hstart, hcall, exhaustion_real hstart (fun l hl => Runs.step_after hops hl) hcall⟩

/-- One caller peels the whole global list; another one calls before it is spliced. -/
def twoCalls : List (CallerOp 2) := [.call 0 0, .next 0, .next 0, .call 1 0, .next 1, .next 1]

/-- Some frame is free in every state from `i` to `j`. -/
def NeverExhausted (σ : Nat → Callers n) (i j : Nat) : Prop :=
  ∀ l < j + 1, i ≤ l → ¬ (σ l).machine.Exhausted

instance (σ : Nat → Callers n) (i j : Nat) : Decidable (NeverExhausted σ i j) := by
  unfold NeverExhausted
  infer_instance

/-- **A call that returns `None` while all frames are free.** The second caller finds its shard and
the global list empty; the frames are in the batch of the first. -/
theorem spurious_exhaustion :
    ∃ σ : Nat → Callers 2, (σ 0).Starts ∧ (∀ l < 6, Step (σ l) (σ (l + 1))) ∧
      ReturnsNone σ 1 (CallerOp.shardOf 0) 4 6 ∧
      ∀ l, 4 ≤ l → l ≤ 6 → ¬ (σ l).machine.Exhausted := by
  have hcompute : ((Rolnix.finish (pmmInit smallBoot [] [] 0) (reset fun _ => 0)).bind fun x =>
      (Runs.run CallerOp.Allowed CallerOp.exec twoCalls (quiet 2 x.2)).map fun _ =>
        decide (FindsNothing (Runs.after CallerOp.Allowed CallerOp.exec twoCalls (quiet 2 x.2)) 1
            (CallerOp.shardOf 0) 4 6 ∧
          NeverExhausted (Runs.after CallerOp.Allowed CallerOp.exec twoCalls (quiet 2 x.2)) 4 6)) =
      some true := by
    decide +kernel
  obtain ⟨⟨⟨info, caps⟩, s⟩, hinit, hcompute⟩ := Option.bind_eq_some_iff.1 hcompute
  obtain ⟨c, hops, hfacts⟩ := Option.map_eq_some_iff.1 hcompute
  obtain ⟨hcall, hfree⟩ := of_decide_eq_true hfacts
  have hstart : (quiet 2 s).Starts := quiet_starts ⟨smallBoot, [], [], caps, 0, _, info, s,
    smallBoot_below, ⟨smallBoot_apart, returns_of_finish hinit⟩, ReflTransGen.refl⟩
  exact ⟨Runs.after CallerOp.Allowed CallerOp.exec twoCalls (quiet 2 s), hstart,
    fun l hl => Runs.step_after hops hl, hcall.returnsNone (by decide),
    fun l hl hl' => hfree l (Nat.lt_succ_of_le hl') hl⟩

end Callers

end Rolnix
