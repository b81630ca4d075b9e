import Rolnix.Callers
import Mathlib.Algebra.BigOperators.Fin

/-!
# No frame is lost or handed out twice

While a batch is on its way from the global list to a shard its frames are free and on no list, and
any number of batches may be on their way. `Sound c L G B` accounts for them: `B t` are the frames
caller `t` carries, they are linked as the batch says, and the lists are coherent once the frames
in flight are taken for allocated (`Machine.hide`). With that view each critical section is the
sequential operation of `FreeLists`.

* `Sound.step`: every step of every caller keeps `Sound`, and does not panic.
* `frames_conserved`: what that means for the frames, in every interleaving.
-/

namespace Rolnix

open Linked Relation Machine

variable {n : Nat} {c c' : Callers n} {t u : Fin n} {L : Nat → List Nat} {G : List Nat}
  {B : Fin n → List Nat} {s s' : Machine} {f : Nat} {l : List Nat}

/-- The frames `l` are those of the batch, linked from its head to its tail. -/
def Carries (s : Machine) : Option Batch → List Nat → Prop
  | none, l => l = []
  | some b, l => b.count = l.length ∧ l.getLast? = some b.tail ∧ ∃ x, Seg s.listNext b.head l x

theorem Carries.congr {b : Option Batch} (h : Carries s b l)
    (hnext : ∀ f ∈ l, s'.listNext f = s.listNext f) : Carries s' b l := by
  cases b with
  | none => exact h
  | some b =>
      obtain ⟨hcount, htail, x, hs⟩ := h
      exact ⟨hcount, htail, x, hs.congr hnext⟩

theorem carries_update {pc : Fin n → Pc} {new : Pc} (B : Fin n → List Nat) :
    (∀ u, Carries s (Function.update pc t new u).batch (B u)) ↔
      Carries s new.batch (B t) ∧ ∀ u, u ≠ t → Carries s (pc u).batch (B u) :=
  Function.forall_update_iff pc (p := fun u x => Carries s x.batch (B u))

/-- The frames that are in some batch. -/
def inFlight (B : Fin n → List Nat) : Set Nat := {f | ∃ t, f ∈ B t}

theorem mem_inFlight : f ∈ inFlight B ↔ ∃ t, f ∈ B t := Iff.rfl

/-- The lists `L`, `G`, the batches `B` and the holders account for every frame. -/
structure Callers.Sound (c : Callers n) (L : Nat → List Nat) (G : List Nat)
    (B : Fin n → List Nat) : Prop where
  lists : Coherent (c.machine.hide (inFlight B)) L G
  carries : ∀ t, Carries c.machine (c.pc t).batch (B t)
  free : ∀ f ∈ inFlight B, f < c.machine.numFrames ∧ (c.machine.frames f).owner = .free
  once : ∀ f, ∑ t, (B t).count f ≤ 1
  owned : ∀ t, ∀ f ∈ c.held t, f < c.machine.numFrames ∧
    (c.machine.frames f).owner.tag ≠ .free ∧ (c.machine.frames f).owner.tag ≠ .reserved
  single : ∀ f, ∑ t, (c.held t).count f ≤ 1

namespace Callers.Sound

theorem batch_free (h : c.Sound L G B) (hf : f ∈ B t) :
    f < c.machine.numFrames ∧ (c.machine.frames f).owner = .free :=
  h.free f ⟨t, hf⟩

theorem held_notMem (h : c.Sound L G B) (hf : f ∈ c.held t) : f ∉ inFlight B := fun hmem =>
  (h.owned t f hf).2.1 (congrArg FrameOwner.tag (h.free f hmem).2)

theorem not_held (h : c.Sound L G B) (hfree : (c.machine.frames f).owner = .free) :
    ∀ u, f ∉ c.held u := fun u hf =>
  (h.owned u f hf).2.1 (congrArg FrameOwner.tag hfree)

/-! ## Moving on without a change to the machine -/

theorem goto (h : c.Sound L G B) {pc : Pc} (hold : (c.pc t).batch = none)
    (hnew : pc.batch = none) : (c.goto t pc c.machine).Sound L G B where
  lists := h.lists
  carries := by
    refine (carries_update _).2 ⟨?_, fun u _ => h.carries u⟩
    rw [hnew, ← hold]
    exact h.carries t
  free := h.free
  once := h.once
  owned := h.owned
  single := h.single

theorem finish_none (h : c.Sound L G B) (hold : (c.pc t).batch = none) :
    (c.finish t none c.machine).Sound L G B := by
  have hfinish : c.finish t none c.machine = c.goto t .idle c.machine := by
    simp only [finish, Callers.goto, Option.toList_none, List.nil_append,
      Function.update_eq_self]
  rw [hfinish]
  exact h.goto hold rfl

/-! ## The critical sections -/

theorem pop (h : c.Sound L G B) (hold : (c.pc t).batch = none) (k : Fin shardCount) :
    c.machine.popShard k = some (none, c.machine) ∨
      ∃ f m l, c.machine.popShard k = some (some f, m) ∧ (∀ u, f ∉ c.held u) ∧
        (c.finish t (some f) m).Sound (Function.update L k l) G B := by
  have hchain : Chain c.machine.listNext listEnd (c.machine.shards k).head (L k) :=
    h.lists.shardChain k k.isLt
  cases hl : L k with
  | nil => exact Or.inl (popShard_of_empty (hchain.eq_nil_iff.1 hl))
  | cons f l =>
      obtain ⟨hlt, hhidden⟩ := h.lists.of_mem_shard k.isLt (hl ▸ List.mem_cons_self)
      obtain ⟨hout, hfree⟩ := hide_free.1 hhidden
      have hnot := h.not_held hfree
      have hlists := (popShard_cons h.lists k.isLt hl).2
      have hpopped : (c.machine.hide (inFlight B)).popped k f =
          (c.machine.popped k f).hide (inFlight B) := by
        rw [popped, popped, hide_setInfo hout, hide_frames_of_notMem hout]
        rfl
      rw [hl] at hchain
      obtain ⟨hhead, hne, -⟩ := chain_cons_iff.1 hchain
      refine Or.inr ⟨f, c.machine.popped k f, l,
        popShard_of_head h.lists.table hhead hne hlt hfree, hnot, ?_⟩
      have hframes : ∀ g, g ≠ f →
          (c.machine.popped k f).frames g = c.machine.frames g := fun g hg => by
        rw [popped, setInfo_frames, Function.update_of_ne hg]
        rfl
      exact {
        lists := hpopped ▸ hlists
        carries := by
          have hcarries : ∀ u, Carries (c.machine.popped k f) (c.pc u).batch (B u) :=
            fun u => (h.carries u).congr fun _ _ => rfl
          refine (carries_update _).2 ⟨?_, fun u _ => hcarries u⟩
          show Carries _ none (B t)
          rw [← hold]
          exact hcarries t
        free := by
          intro g hg
          show g < c.machine.numFrames ∧ ((c.machine.popped k f).frames g).owner = .free
          rw [hframes g fun he => hout (he ▸ hg)]
          exact h.free g hg
        once := h.once
        owned := by
          intro u g hg
          show g < c.machine.numFrames ∧ ((c.machine.popped k f).frames g).owner.tag ≠ .free ∧
            ((c.machine.popped k f).frames g).owner.tag ≠ .reserved
          by_cases hgf : g = f
          · subst hgf
            rw [popped, setInfo_frames, Function.update_self]
            exact ⟨hlt, (fun h => by cases h), (fun h => by cases h)⟩
          · rw [hframes g hgf]
            rw [finish_held] at hg
            by_cases hut : u = t
            · subst hut
              rw [Function.update_self] at hg
              exact h.owned u g ((List.mem_cons.1 hg).resolve_left hgf)
            · rw [Function.update_of_ne hut] at hg
              exact h.owned u g hg
        single := by
          intro g
          have hupd := Counts.sum_count_update (Finset.mem_univ t) c.held (f :: c.held t) g
          have hone := h.single g
          show ∑ u, (Function.update c.held t (f :: c.held t) u).count g ≤ 1
          rw [List.count_cons] at hupd
          by_cases hgf : g = f
          · subst hgf
            have hzero := Counts.sum_count_eq_zero (s := Finset.univ) fun u _ => hnot u
            simp only [beq_self_eq_true, if_true] at hupd
            omega
          · simp only [beq_eq_false_iff_ne.2 (Ne.symm hgf), Bool.false_eq_true, if_false] at hupd
            omega }

theorem peel (h : c.Sound L G B) (hold : (c.pc t).batch = none) (k : Fin shardCount) :
    c.machine.peelGlobal = (none, c.machine) ∨
      ∃ b m G' l, c.machine.peelGlobal = (some b, m) ∧
        (c.goto t (.splice k b) m).Sound L G' (Function.update B t l) := by
  have hcount : c.machine.global.count = G.length := h.lists.globalLength
  have hcarried := h.carries t
  rw [hold] at hcarried
  have hnil : B t = [] := hcarried
  by_cases hne : G = []
  · left
    simp [PoolMem.peelGlobal, PoolMem.global, hcount, hne]
  right
  -- the batch is `l ++ [a]`
  have hpos : 0 < min G.length shardRefillBatch :=
    lt_min (List.length_pos_iff.2 hne) (by decide)
  obtain ⟨l, a, G₂, hG, hlen⟩ := exists_split_at hpos (min_le_left G.length shardRefillBatch)
  have hlists := h.lists
  rw [hG] at hlists
  have hchain : Chain c.machine.listNext listEnd c.machine.global.head (l ++ [a] ++ G₂) :=
    hlists.globalChain
  obtain ⟨x, hs, -⟩ := seg_append.1 hchain.seg
  have hnd : (l ++ [a]).Nodup := List.Nodup.of_append_left hchain.nodup
  have hbatch : ∀ f ∈ l ++ [a], f < c.machine.numFrames ∧ f ∉ inFlight B ∧
      (c.machine.frames f).owner = .free := by
    intro f hf
    obtain ⟨hlt, hhidden⟩ := hlists.of_mem_global (List.mem_append_left G₂ hf)
    exact ⟨hlt, hide_free.1 hhidden⟩
  have hflight : inFlight (Function.update B t (l ++ [a])) = inFlight B ∪ {f | f ∈ l ++ [a]} := by
    ext f
    simp only [mem_inFlight, Set.mem_union, Set.mem_ofPred_eq]
    constructor
    · rintro ⟨u, hu⟩
      by_cases hut : u = t
      · subst hut
        rw [Function.update_self] at hu
        exact Or.inr hu
      · rw [Function.update_of_ne hut] at hu
        exact Or.inl ⟨u, hu⟩
    · rintro (⟨u, hu⟩ | hf)
      · refine ⟨u, ?_⟩
        rwa [Function.update_of_ne]
        rintro rfl
        simp [hnil] at hu
      · refine ⟨t, ?_⟩
        rwa [Function.update_self]
  have hpeeled := hlists.peeled hs
  rw [List.length_append, List.length_singleton] at hpeeled
  refine ⟨_, _, G₂, l ++ [a], PoolMem.peelGlobal_eq hcount hlen hs, ?_⟩
  exact {
    lists := hflight ▸ hpeeled
    carries := by
      refine (carries_update _).2 ⟨?_, fun u hu => ?_⟩
      · rw [Function.update_self]
        exact ⟨by simp, by simp, x, hs⟩
      · rw [Function.update_of_ne hu]
        exact (h.carries u).congr fun _ _ => rfl
    free := by
      intro f hf
      rw [hflight] at hf
      rcases hf with hf | hf
      · exact h.free f hf
      · exact ⟨(hbatch f hf).1, (hbatch f hf).2.2⟩
    once := by
      intro f
      have hupd := Counts.sum_count_update (Finset.mem_univ t) B (l ++ [a]) f
      have hone := h.once f
      rw [hnil, List.count_nil] at hupd
      by_cases hf : f ∈ l ++ [a]
      · have hzero := Counts.sum_count_eq_zero (s := Finset.univ)
          fun u _ hu => (hbatch f hf).2.1 ⟨u, hu⟩
        rw [List.count_eq_one_of_mem hnd hf] at hupd
        omega
      · rw [List.count_eq_zero_of_not_mem hf] at hupd
        omega
    owned := h.owned
    single := h.single }

theorem splice (h : c.Sound L G B) {k : Fin shardCount} {b : Batch}
    (hpc : c.pc t = .splice k b) :
    (c.goto t (.again k) (c.machine.spliceShard k b)).Sound
      (Function.update L k (B t ++ L k)) G (Function.update B t []) := by
  have hcarried := h.carries t
  rw [hpc] at hcarried
  obtain ⟨hcount, htail, x, hs⟩ : b.count = (B t).length ∧ (B t).getLast? = some b.tail ∧
    ∃ x, Seg c.machine.listNext b.head (B t) x := hcarried
  have hnd := Counts.nodup_of_once h.once (Finset.mem_univ t)
  have huniq : ∀ u f, f ∈ B u → f ∈ B t → u = t := fun u f hu ht =>
    Counts.eq_of_mem h.once (Finset.mem_univ u) (Finset.mem_univ t) hu ht
  have hflight : inFlight (Function.update B t []) = inFlight B \ {f | f ∈ B t} := by
    ext f
    simp only [mem_inFlight, Set.mem_sdiff, Set.mem_ofPred_eq]
    constructor
    · rintro ⟨u, hu⟩
      by_cases hut : u = t
      · subst hut
        simp at hu
      · rw [Function.update_of_ne hut] at hu
        exact ⟨⟨u, hu⟩, fun ht => hut (huniq u f hu ht)⟩
    · rintro ⟨⟨u, hu⟩, ht⟩
      refine ⟨u, ?_⟩
      rwa [Function.update_of_ne]
      rintro rfl
      exact ht hu
  obtain ⟨l, hl⟩ := List.getLast?_eq_some_iff.1 htail
  have hb : b = ⟨b.head, b.tail, l.length + 1⟩ := by
    rw [hl, List.length_append, List.length_singleton] at hcount
    rw [← hcount]
  have hspliced := h.lists.spliced k.isLt (hl ▸ hs) (hl ▸ hnd)
    fun f hf => ⟨⟨t, hl ▸ hf⟩, h.batch_free (hl ▸ hf : f ∈ B t)⟩
  rw [← hb, ← hl, ← hflight] at hspliced
  have hlast : b.tail ∈ B t := by
    rw [hl]
    simp
  have hnext : ∀ f, f ≠ b.tail →
      (c.machine.spliceShard k b).listNext f = c.machine.listNext f := by
    intro f hf
    rw [listNext_spliceShard, Function.update_of_ne hf]
  exact {
    lists := hspliced
    carries := by
      refine (carries_update _).2 ⟨?_, fun u hu => ?_⟩
      · rw [Function.update_self]
        rfl
      · rw [Function.update_of_ne hu]
        refine (h.carries u).congr fun f hf => hnext f ?_
        rintro rfl
        exact hu (huniq u _ hf hlast)
    free := by
      intro f hf
      rw [hflight] at hf
      exact h.free f hf.1
    once := by
      intro f
      have hupd := Counts.sum_count_update (Finset.mem_univ t) B [] f
      have hone := h.once f
      rw [List.count_nil] at hupd
      omega
    owned := h.owned
    single := h.single }

/-! ## What the holders do -/

/-- `release_frame` of a frame its holder has neither pinned nor mapped. -/
theorem release (h : c.Sound L G B) (k : Fin shardCount) (hf : f ∈ c.held t)
    (hpinned : (c.machine.frames f).pinned = 0) (hmappings : (c.machine.frames f).mappings = 0) :
    c.machine.releaseOn k f = some (c.machine.freedOn k f) ∧
      Sound { c with
        machine := c.machine.freedOn k f
        held := Function.update c.held t ((c.held t).erase f) }
        (Function.update L k (f :: L k)) G B := by
  obtain ⟨hlt, hnfree, hnres⟩ := h.owned t f hf
  have hout := h.held_notMem hf
  have hnd := Counts.nodup_of_once h.single (Finset.mem_univ t)
  have hfree : ((c.machine.frames f).withOwner .free).bumpGen.owner = .free := rfl
  have hlists := h.lists.push (f := f) k.isLt hlt
    (fun hcon => hnfree (congrArg FrameOwner.tag (hide_free.1 hcon).2)) hfree
  rw [← hide_setInfo hout] at hlists
  have hframes : ∀ g, g ≠ f → (c.machine.freedOn k f).frames g = c.machine.frames g :=
    fun g hg => Function.update_of_ne hg _ c.machine.frames
  have hb : c.machine.tableBase ≠ 0 := h.lists.table
  constructor
  · rw [releaseOn_eq k hb hlt, if_neg (not_or.2 ⟨hnres, hnfree⟩),
      if_neg (by simp [hpinned, hmappings])]
  · exact {
      lists := hlists
      carries := by
        intro u
        refine (h.carries u).congr fun g hg => ?_
        have hgf : g ≠ f := by
          rintro rfl
          exact hout ⟨u, hg⟩
        show ((c.machine.setInfo f _).pushShard k f).listNext g = _
        rw [listNext_pushShard, Function.update_of_ne hgf]
        rfl
      free := by
        intro g hg
        have hgf : g ≠ f := by
          rintro rfl
          exact hout hg
        show g < c.machine.numFrames ∧ ((c.machine.freedOn k f).frames g).owner = .free
        rw [hframes g hgf]
        exact h.free g hg
      once := h.once
      owned := by
        intro u g hg
        have hheld : g ∈ c.held u ∧ g ≠ f := by
          by_cases hut : u = t
          · subst hut
            have hmem : g ∈ (c.held u).erase f := by simpa using hg
            exact ⟨List.mem_of_mem_erase hmem, ((List.Nodup.mem_erase_iff hnd).1 hmem).1⟩
          · have hmem : g ∈ c.held u := by simpa [Function.update_of_ne hut] using hg
            refine ⟨hmem, ?_⟩
            rintro rfl
            exact hut (Counts.eq_of_mem h.single (Finset.mem_univ u) (Finset.mem_univ t) hmem hf)
        show g < c.machine.numFrames ∧ ((c.machine.freedOn k f).frames g).owner.tag ≠ .free ∧
          ((c.machine.freedOn k f).frames g).owner.tag ≠ .reserved
        rw [hframes g hheld.2]
        exact h.owned u g hheld.1
      single := by
        intro g
        have hupd := Counts.sum_count_update (Finset.mem_univ t) c.held ((c.held t).erase f) g
        have hle : ((c.held t).erase f).count g ≤ (c.held t).count g :=
          List.erase_sublist.count_le g
        have hone := h.single g
        show ∑ u, (Function.update c.held t ((c.held t).erase f) u).count g ≤ 1
        omega }

theorem give (h : c.Sound L G B) (u : Fin n) (hf : f ∈ c.held t) {held : Fin n → List Nat}
    (hheld : held = Function.update c.held t ((c.held t).erase f)) :
    Sound { c with held := Function.update held u (f :: held u) } L G B where
  lists := h.lists
  carries := h.carries
  free := h.free
  once := h.once
  owned := by
    have hsub : ∀ v, ∀ g ∈ held v, ∃ w, g ∈ c.held w := by
      intro v g hg
      rw [hheld] at hg
      by_cases hvt : v = t
      · subst hvt
        rw [Function.update_self] at hg
        exact ⟨v, List.mem_of_mem_erase hg⟩
      · rw [Function.update_of_ne hvt] at hg
        exact ⟨v, hg⟩
    have hsub' : ∀ v, ∀ g ∈ Function.update held u (f :: held u) v, ∃ w, g ∈ c.held w := by
      refine (Function.forall_update_iff held (p := fun _ l => ∀ g ∈ l, ∃ w, g ∈ c.held w)).2
        ⟨?_, fun v _ => hsub v⟩
      intro g hg
      rcases List.mem_cons.1 hg with rfl | hg
      · exact ⟨t, hf⟩
      · exact hsub u g hg
    intro v g hg
    obtain ⟨w, hw⟩ := hsub' v g hg
    exact h.owned w g hw
  single := by
    intro g
    have hfirst := Counts.sum_count_update (Finset.mem_univ t) c.held ((c.held t).erase f) g
    have hsecond := Counts.sum_count_update (Finset.mem_univ u) held (f :: held u) g
    have hcount := (List.perm_cons_erase hf).count_eq g
    have hone := h.single g
    rw [← hheld] at hfirst
    rw [List.count_cons] at hcount hsecond
    show ∑ v, (Function.update held u (f :: held u) v).count g ≤ 1
    omega

theorem write (h : c.Sound L G B) {a : Nat} (hf : a / frameSize ∈ c.held t) (b : UInt8) :
    Sound { c with machine := { c.machine with mem := c.machine.mem.poke a b } } L G B where
  lists := by
    refine h.lists.write fun x _ hfree => ByteMem.poke_of_ne ?_
    rintro rfl
    exact h.not_held (hide_free.1 hfree).2 t hf
  carries := by
    intro u
    refine (h.carries u).congr fun g hg => listNext_congr fun x hx => ByteMem.poke_of_ne ?_
    rintro rfl
    exact h.not_held (h.batch_free hg).2 t (hx ▸ hf)
  free := h.free
  once := h.once
  owned := h.owned
  single := h.single

/-! ## Steps -/

/-- **Every step of every caller goes through and keeps the account.** -/
theorem step (h : c.Sound L G B) {op : CallerOp n} (hok : op.Allowed c) :
    ∃ c' L' G' B', op.exec c = some c' ∧ c'.Sound L' G' B' := by
  cases op with
  | call t cpu => exact ⟨_, L, G, B, rfl, h.goto (by rw [show c.pc t = .idle from hok]; rfl) rfl⟩
  | release t f cpu =>
      obtain ⟨hrel, hsound⟩ := h.release (CallerOp.shardOf cpu) hok.1 hok.2.1 hok.2.2
      refine ⟨_, _, G, B, ?_, hsound⟩
      simp only [CallerOp.exec, hrel, Option.map_some]
  | give t u f => exact ⟨_, L, G, B, rfl, h.give u hok rfl⟩
  | write t a b => exact ⟨_, L, G, B, rfl, h.write hok b⟩
  | next t =>
      show ∃ c' L' G' B', c.next t = some c' ∧ c'.Sound L' G' B'
      cases hpc : c.pc t with
      | idle => exact absurd hpc hok
      | pop k =>
          have hold : (c.pc t).batch = none := by rw [hpc]; rfl
          obtain hpop | ⟨f, m, l, hpop, -, hsound⟩ := h.pop hold k
          · exact ⟨_, L, G, B, next_pop_none hpc hpop, h.goto hold rfl⟩
          · exact ⟨_, _, G, B, next_pop_some hpc hpop, hsound⟩
      | peel k =>
          have hold : (c.pc t).batch = none := by rw [hpc]; rfl
          obtain hpeel | ⟨b, m, G', l, hpeel, hsound⟩ := h.peel hold k
          · exact ⟨_, L, G, B, next_peel_none hpc hpeel, h.goto hold rfl⟩
          · exact ⟨_, L, G', _, next_peel_some hpc hpeel, hsound⟩
      | splice k b => exact ⟨_, _, G, _, next_splice hpc, h.splice hpc⟩
      | again k =>
          have hold : (c.pc t).batch = none := by rw [hpc]; rfl
          obtain hpop | ⟨f, m, l, hpop, -, hsound⟩ := h.pop hold k
          · exact ⟨_, L, G, B, next_again hpc hpop, h.finish_none hold⟩
          · exact ⟨_, _, G, B, next_again hpc hpop, hsound⟩

/-! ## What the account says -/

theorem tag (h : c.Sound L G B) (f : Nat) (htag : (c.machine.frames f).owner.tag = .free) :
    (c.machine.frames f).owner = .free := by
  by_cases hf : f ∈ inFlight B
  · exact (h.free f hf).2
  · exact h.lists.tag_of_hide hf htag

/-- A free frame is on one list or in one batch, any other frame nowhere. -/
theorem occ_add (h : c.Sound L G B) (f : Nat) :
    occ L G f + ∑ t, (B t).count f =
      if f < c.machine.numFrames ∧ (c.machine.frames f).owner = .free then 1 else 0 := by
  classical
  have hocc := h.lists.occ f
  simp only [hide_free] at hocc
  by_cases hf : f ∈ inFlight B
  · obtain ⟨t, ht⟩ := hf
    rw [if_neg fun hcon => hcon.2.1 ⟨t, ht⟩] at hocc
    rw [hocc, Counts.sum_count_eq_one h.once (Finset.mem_univ t) ht, if_pos (h.batch_free ht)]
  · have hzero := Counts.sum_count_eq_zero (s := Finset.univ) fun t _ ht => hf ⟨t, ht⟩
    rw [hzero, hocc]
    simp only [hf, not_false_eq_true, true_and, Nat.add_zero]
    rfl

theorem batchSize_eq (h : c.Sound L G B) (t : Fin n) : (c.pc t).batchSize = (B t).length := by
  have hcarried := h.carries t
  cases hpc : c.pc t with
  | splice k b =>
      rw [hpc] at hcarried
      exact hcarried.1
  | idle | pop k | peel k | again k =>
      rw [hpc] at hcarried
      rw [show B t = [] from hcarried]
      rfl

theorem count_add (h : c.Sound L G B) :
    c.machine.freeFrameCount + ∑ t, (c.pc t).batchSize =
      (c.machine.freeBelow c.machine.numFrames).length := by
  have hshards : ((List.range shardCount).map fun i => (c.machine.shards i).count) =
      (List.range shardCount).map fun i => (L i).length :=
    List.map_congr_left fun i hi => h.lists.shardLength i (List.mem_range.1 hi)
  have hglobal : c.machine.global.count = G.length := h.lists.globalLength
  have hperm : (allFree L G ++ (List.finRange n).flatMap B).Perm
      (c.machine.freeBelow c.machine.numFrames) := by
    refine perm_freeBelow h.tag fun f => ?_
    rw [List.count_append, count_allFree, List.count_flatMap, ← h.occ_add f, Fin.sum_univ_def]
    rfl
  have hbatches : ∑ t, (c.pc t).batchSize = ((List.finRange n).map fun t => (B t).length).sum := by
    rw [Fin.sum_univ_def]
    exact congrArg List.sum (List.map_congr_left fun t _ => h.batchSize_eq t)
  rw [← hperm.length_eq, allFree, List.length_append, List.length_append, List.length_flatMap,
    List.length_flatMap, freeFrameCount_def, hglobal, hshards, hbatches]

theorem popped_not_held (h : c.Sound L G B) {k : Nat} {m : Machine}
    (hpop : c.machine.popShard k = some (some f, m)) : ∀ u, f ∉ c.held u := by
  obtain ⟨hnone, -⟩ | ⟨g, hg, hfree, -⟩ := popShard_frames hpop
  · cases hnone
  · obtain rfl := Option.some.inj hg
    exact h.not_held hfree

end Callers.Sound

/-! ## Runs -/

namespace Callers

theorem Starts.sound (h : c.Starts) : ∃ L G, c.Sound L G fun _ => [] := by
  obtain ⟨L, G, hcoh⟩ := h.booted.coherent
  have hnone : inFlight (fun _ : Fin n => []) = ∅ := by
    refine Set.eq_empty_iff_forall_notMem.2 ?_
    rintro f ⟨t, ht⟩
    exact absurd ht List.not_mem_nil
  refine ⟨L, G, ?_, fun t => ?_, fun f hf => ?_, fun f => by simp, h.owned, h.single⟩
  · rw [hnone, hide_empty]
    exact hcoh
  · rw [h.idle t]
    rfl
  · rw [hnone] at hf
    exact absurd hf (Set.notMem_empty f)

theorem Sound.run (h : c.Sound L G B) (hrun : ReflTransGen Step c c') :
    ∃ L' G' B', c'.Sound L' G' B' := by
  refine Runs.invariant (P := fun c => ∃ L G B, Sound c L G B) ?_ ⟨L, G, B, h⟩ hrun
  rintro c op c₂ ⟨L₁, G₁, B₁, h₁⟩ hok hexec
  obtain ⟨c₂, L₂, G₂, B₂, hexec', h₂⟩ := h₁.step hok
  obtain rfl := Option.some.inj (hexec.symm.trans hexec')
  exact ⟨L₂, G₂, B₂, h₂⟩

/-- **No frame is lost or handed out twice**, in whatever order the critical sections of any number
of callers come. `L` and `G` are the frames found along the lists, `B t` those along the batch that
caller `t` carries. A frame is held at most once, and no `pop_shard` would return one that is. -/
theorem frames_conserved {c₀ : Callers n} (hstart : c₀.Starts) (hrun : ReflTransGen Step c₀ c) :
    ∃ (L : Nat → List Nat) (G : List Nat) (B : Fin n → List Nat),
      (∀ i < shardCount, Chain c.machine.listNext listEnd (c.machine.shards i).head (L i) ∧
        (c.machine.shards i).count = (L i).length) ∧
      (Chain c.machine.listNext listEnd c.machine.global.head G ∧
        c.machine.global.count = G.length) ∧
      (∀ t, Carries c.machine (c.pc t).batch (B t)) ∧
      (∀ f, occ L G f + ∑ t, (B t).count f =
        if f < c.machine.numFrames ∧ (c.machine.frames f).ownerTag = .free then 1 else 0) ∧
      c.machine.freeFrameCount + ∑ t, (c.pc t).batchSize =
        ((List.range c.machine.numFrames).filter
          fun f => (c.machine.frames f).ownerTag = .free).length ∧
      (∀ f, ∑ t, (c.held t).count f ≤ 1) ∧
      (∀ (k f : Nat) (m : Machine), c.machine.popShard k = some (some f, m) → ∀ u, f ∉ c.held u) ∧
      ∀ op : CallerOp n, op.Allowed c → (op.exec c).isSome := by
  obtain ⟨L₀, G₀, h₀⟩ := hstart.sound
  obtain ⟨L, G, B, h⟩ := h₀.run hrun
  refine ⟨L, G, B, fun i hi => ⟨h.lists.shardChain i hi, h.lists.shardLength i hi⟩,
    ⟨h.lists.globalChain, h.lists.globalLength⟩, h.carries, fun f => ?_, h.count_add, h.single,
    fun k f m hpop => h.popped_not_held hpop, fun op hok => ?_⟩
  · have htag : (c.machine.frames f).ownerTag = .free ↔ (c.machine.frames f).owner = .free :=
      ⟨h.tag f, fun ho => congrArg FrameOwner.tag ho⟩
    simp only [h.occ_add f, htag]
  · obtain ⟨c', L', G', B', hexec, -⟩ := h.step hok
    rw [hexec]
    rfl

/-- Two callers on two CPUs and a pool of three frames: the first has peeled all of them and not
spliced them yet. -/
theorem frames_conserved_small :
    ∃ c₀ c : Callers 2, c₀.Starts ∧ ReflTransGen Step c₀ c ∧ (c.pc 0).batchSize = 3 ∧
      c.machine.freeFrameCount + ∑ t, (c.pc t).batchSize =
        ((List.range c.machine.numFrames).filter
          fun f => (c.machine.frames f).ownerTag = .free).length := by
  have hrun : ((Rolnix.finish (pmmInit smallBoot [] [] 0) (reset fun _ => 0)).bind fun x =>
      (Runs.run CallerOp.Allowed CallerOp.exec
        [.call 0 0, .next 0, .call 1 1, .next 0, .next 1] (quiet 2 x.2)).map fun c =>
          (c.pc 0).batchSize) = some 3 := by
    decide +kernel
  obtain ⟨⟨⟨info, caps⟩, s⟩, hinit, hrun⟩ := Option.bind_eq_some_iff.1 hrun
  obtain ⟨c, hops, hsize⟩ := Option.map_eq_some_iff.1 hrun
  have hstart : (quiet 2 s).Starts := quiet_starts ⟨smallBoot, [], [], caps, 0, _, info, s,
    smallBoot_below, ⟨smallBoot_apart, returns_of_finish hinit⟩, ReflTransGen.refl⟩
  have hsteps : ReflTransGen Step (quiet 2 s) c := Runs.steps_of_run hops
  obtain ⟨-, -, -, -, -, -, -, hcount, -⟩ := frames_conserved hstart hsteps
  exact ⟨quiet 2 s, c, hstart, hsteps, hsize, hcount⟩

end Callers

/-- **A listed frame that is not free.** With the frame table in memory: the list is 0x102, 0x103, 0x200,
and the link from 0x103, which holds the end of the table, is written where the owner of 0x200 stands.
There is no call in flight, the list counts three frames and two are free; the third `alloc_frame`
panics. -/
theorem listed_frame_lost :
    ∃ info r r₁ r₂, Returns (pmmInit
        (usableBoot [(0x100000, 0x4000), (0x101000, 0x1000), (0x200000, 0x1000)]) [] [] 0x1000)
        (Ram.reset fun _ => 0) (info, []) r ∧
      PoolMem.freeFrameCount r = 3 ∧
      ((List.range r.numFrames).filter fun f => FrameTable.ownerTag r f = some .free).length = 2 ∧
      PoolMem.allocFrame r = some (some 0x102, r₁) ∧ PoolMem.allocFrame r₁ = some (some 0x103, r₂) ∧
      PoolMem.allocFrame r₂ = none := by
  have hobs : ((finish (pmmInit
      (usableBoot [(0x100000, 0x4000), (0x101000, 0x1000), (0x200000, 0x1000)]) [] [] 0x1000)
      (Ram.reset fun _ => 0)).bind fun x => (PoolMem.allocFrame x.2).bind fun a =>
        (PoolMem.allocFrame a.2).map fun b => decide (x.1.2 = [] ∧ PoolMem.freeFrameCount x.2 = 3 ∧
          ((List.range x.2.numFrames).filter fun f =>
            FrameTable.ownerTag x.2 f = some .free).length = 2 ∧
          a.1 = some 0x102 ∧ b.1 = some 0x103 ∧ (PoolMem.allocFrame b.2).isNone)) = some true := by
    decide +kernel
  obtain ⟨⟨⟨info, caps⟩, r⟩, hinit, hobs⟩ := Option.bind_eq_some_iff.1 hobs
  obtain ⟨⟨a, r₁⟩, ha, hobs⟩ := Option.bind_eq_some_iff.1 hobs
  obtain ⟨⟨b, r₂⟩, hb, hobs⟩ := Option.map_eq_some_iff.1 hobs
  obtain ⟨rfl, hcount, hfree, rfl, rfl, hpanic⟩ := of_decide_eq_true hobs
  exact ⟨info, r, r₁, r₂, returns_of_finish hinit, hcount, hfree, ha, hb,
    Option.isNone_iff_eq_none.1 hpanic⟩

end Rolnix
