import Rolnix.Allocator
import Rolnix.Lib.Linked
import Rolnix.Lib.Counts
import Mathlib.Algebra.Order.BigOperators.Group.Finset
import Mathlib.Tactic.NormNum
import Mathlib.Data.List.Perm.Subperm

/-!
# The free lists and the frame table agree

The allocator's lists live in the free frames' own memory, so a lost, duplicated or cyclic frame
is a matter of pointers. `Coherent s L G` names the lists: `L i` are the frames on shard `i` and
`G` those on the global list. Each is a chain of embedded next words that ends in the sentinel,
each count is the length of its list, and every frame occurs exactly once over all lists if it is
free and not at all otherwise.

One lemma per operation says which lists come out: `popShard_cons`, `refillShard_coherent`,
`Coherent.push`. Everything else an operation does is a change of one frame that does not touch
its freeness (`Coherent.setInfo`) or a write outside the free frames (`Coherent.write`).
-/

namespace Rolnix

open Linked

/-! ## The batch of a refill -/

namespace PoolMem

variable {σ : Type} [PoolMem σ] {s : σ} {l G : List Nat} {a t : Nat}

/-- The loop of `refill_shard` stops at the last node of the batch, with the node after it. -/
theorem peel_of_seg {h : Nat} (hs : Seg (listNext s) h (l ++ [a]) t) :
    peel s l.length (h, listNext s h) = (a, t) := by
  induction l generalizing h with
  | nil =>
      obtain ⟨rfl, rfl⟩ := hs
      rfl
  | cons b l ih =>
      obtain ⟨rfl, hs⟩ := hs
      exact ih hs

theorem peelGlobal_eq (hG : (global s).count = G.length)
    (hlen : l.length + 1 = min G.length shardRefillBatch)
    (hs : Seg (listNext s) (global s).head (l ++ [a]) t) :
    peelGlobal s = (some ⟨(global s).head, a, l.length + 1⟩,
      setGlobal s ⟨t, Word.sub 32 (global s).count (l.length + 1)⟩) := by
  have hpeel := peel_of_seg hs
  have hne0 : ¬ min (global s).count shardRefillBatch = 0 := by rw [hG, ← hlen]; omega
  unfold peelGlobal
  rw [if_neg hne0, hG, ← hlen, Nat.add_sub_cancel]
  simp only [hpeel]

end PoolMem

namespace Machine

/-! ## Next words -/

theorem framePhys_apart {f g : Nat} (h : f ≠ g) :
    framePhys f + frameSize ≤ framePhys g ∨ framePhys g + frameSize ≤ framePhys f := by
  simp only [framePhys, frameSize]
  omega

@[simp] theorem listNext_setInfo (s : Machine) (f : Nat) (i : FrameInfo) :
    (s.setInfo f i).listNext = s.listNext := rfl

@[simp] theorem listNext_setShard (s : Machine) (k : Nat) (sh : Shard) :
    (s.setShard k sh).listNext = s.listNext := rfl

theorem listNext_setListNext (s : Machine) (f : Nat) (v : Nat) :
    (s.setListNext f v).listNext = Function.update s.listNext f (v % 2 ^ 32) := by
  funext g
  by_cases hg : g = f
  · subst hg
    rw [Function.update_self, listNext, setListNext, ByteMem.load_store_same,
      show (256 : Nat) ^ 4 = 2 ^ 32 by norm_num]
  · rw [Function.update_of_ne hg, listNext, setListNext,
      ByteMem.load_store_of_disjoint, listNext]
    have := framePhys_apart hg
    simp only [frameSize] at this
    omega

theorem listNext_pushShard (s : Machine) (k f : Nat) : (s.pushShard k f).listNext =
    Function.update s.listNext f ((s.shards k).head % 2 ^ 32) :=
  listNext_setListNext s f _

theorem listNext_spliceShard (s : Machine) (k : Nat) (b : Batch) : (s.spliceShard k b).listNext =
    Function.update s.listNext b.tail ((s.shards k).head % 2 ^ 32) :=
  listNext_setListNext s b.tail _

theorem listNext_congr {s s' : Machine} {f : Nat}
    (h : ∀ a, a / frameSize = f → s'.mem a = s.mem a) : s'.listNext f = s.listNext f := by
  refine ByteMem.load_congr fun x hx hx' => h x ?_
  simp only [framePhys, frameSize] at hx hx' ⊢
  omega

/-! ## Occurrences -/

/-- How often `f` occurs over all lists. -/
def occ (L : Nat → List Nat) (G : List Nat) (f : Nat) : Nat :=
  (∑ i ∈ Finset.range shardCount, (L i).count f) + G.count f

variable {s s' : Machine} {L : Nat → List Nat} {G : List Nat} {f g : Nat}
  {k : Nat} {l : List Nat}

theorem occ_update (hk : k < shardCount) (l : List Nat) (f : Nat) :
    occ (Function.update L k l) G f + (L k).count f = occ L G f + l.count f := by
  have hupd := Counts.sum_count_update (Finset.mem_range.2 hk) L l f
  simp only [occ]
  omega

theorem count_shard_le_occ (hk : k < shardCount) : (L k).count f ≤ occ L G f :=
  (Counts.count_le_sum (Finset.mem_range.2 hk) L f).trans (Nat.le_add_right _ _)

theorem count_global_le_occ : G.count f ≤ occ L G f := Nat.le_add_left _ _

theorem length_le_of_count {n : Nat} (h : ∀ f, l.count f ≤ if f < n then 1 else 0) :
    l.length ≤ n := by
  have hnd : l.Nodup := List.nodup_iff_count_le_one.2 fun f => (h f).trans (by split_ifs <;> simp)
  have hsub : l ⊆ List.range n := by
    intro f hf
    rw [List.mem_range]
    by_contra hlt
    have hle := h f
    rw [if_neg hlt] at hle
    have := List.count_pos_iff.2 hf
    omega
  simpa using (hnd.subperm hsub).length_le

/-! ## Coherence -/

/-- The free lists `L`, `G` and the owners agree. -/
structure Coherent (s : Machine) (L : Nat → List Nat) (G : List Nat) : Prop where
  /-- The frame table is set up. -/
  table : s.tableBase ≠ 0
  /-- No frame index is the sentinel. -/
  bound : s.numFrames ≤ listEnd
  shardChain : ∀ i < shardCount, Chain s.listNext listEnd (s.shards i).head (L i)
  globalChain : Chain s.listNext listEnd s.global.head G
  shardLength : ∀ i < shardCount, (s.shards i).count = (L i).length
  globalLength : s.global.count = G.length
  /-- A free frame occurs once, any other frame not at all. -/
  occ : ∀ f, occ L G f = if f < s.numFrames ∧ (s.frames f).owner = .free then 1 else 0
  /-- `Free` carries no id. -/
  tag : ∀ f, (s.frames f).owner.tag = .free → (s.frames f).owner = .free

namespace Coherent

theorem of_mem_shard (h : Coherent s L G) (hk : k < shardCount) (hf : f ∈ L k) :
    f < s.numFrames ∧ (s.frames f).owner = .free := by
  have hpos := List.count_pos_iff.2 hf
  have hle := count_shard_le_occ (L := L) (G := G) (f := f) hk
  rw [h.occ f] at hle
  by_contra hcon
  rw [if_neg hcon] at hle
  omega

theorem of_mem_global (h : Coherent s L G) (hf : f ∈ G) :
    f < s.numFrames ∧ (s.frames f).owner = .free := by
  have hpos := List.count_pos_iff.2 hf
  have hle := count_global_le_occ (L := L) (G := G) (f := f)
  rw [h.occ f] at hle
  by_contra hcon
  rw [if_neg hcon] at hle
  omega

theorem head_lt (h : Coherent s L G) (hk : k < shardCount) : (s.shards k).head < 2 ^ 32 := by
  have hc := h.shardChain k hk
  cases hl : L k with
  | nil =>
      rw [hc.eq_nil_iff.1 hl]
      decide
  | cons a l =>
      rw [hl] at hc
      obtain ⟨rfl, -, -⟩ := chain_cons_iff.1 hc
      have hlt := (h.of_mem_shard hk (hl ▸ List.mem_cons_self)).1
      have hb := h.bound
      simp only [listEnd] at hb
      omega

theorem length_le (h : Coherent s L G) (hk : k < shardCount) : (L k).length ≤ s.numFrames := by
  refine length_le_of_count fun f => (count_shard_le_occ (G := G) hk).trans ?_
  rw [h.occ f]
  split_ifs <;> omega

theorem global_length_le (h : Coherent s L G) : G.length ≤ s.numFrames := by
  refine length_le_of_count fun f => (count_global_le_occ (L := L)).trans ?_
  rw [h.occ f]
  split_ifs <;> omega

/-! ## Changes that leave the lists alone -/

theorem setInfo (h : Coherent s L G) {info : FrameInfo}
    (hfree : info.owner = .free ↔ (s.frames f).owner = .free)
    (htag : info.owner.tag = .free → info.owner = .free) : Coherent (s.setInfo f info) L G where
  table := h.table
  bound := h.bound
  shardChain := h.shardChain
  globalChain := h.globalChain
  shardLength := h.shardLength
  globalLength := h.globalLength
  occ := by
    intro g
    rw [h.occ g, setInfo_frames, setInfo_numFrames]
    by_cases hg : g = f
    · subst hg
      simp only [Function.update_self, hfree]
    · rw [Function.update_of_ne hg]
  tag := by
    intro g
    rw [setInfo_frames]
    by_cases hg : g = f
    · subst hg
      rw [Function.update_self]
      exact htag
    · rw [Function.update_of_ne hg]
      exact h.tag g

theorem write (h : Coherent s L G) {mem : ByteMem}
    (hmem : ∀ a, a / frameSize < s.numFrames → (s.frames (a / frameSize)).owner = .free →
      mem a = s.mem a) : Coherent { s with mem := mem } L G := by
  have hnext : ∀ f, f < s.numFrames → (s.frames f).owner = .free →
      listNext { s with mem := mem } f = s.listNext f := by
    intro f hf hfree
    refine listNext_congr fun a ha => ?_
    subst ha
    exact hmem a hf hfree
  exact {
    table := h.table
    bound := h.bound
    shardChain := fun i hi => (h.shardChain i hi).congr fun f hf =>
      hnext f (h.of_mem_shard hi hf).1 (h.of_mem_shard hi hf).2
    globalChain := h.globalChain.congr fun f hf =>
      hnext f (h.of_mem_global hf).1 (h.of_mem_global hf).2
    shardLength := h.shardLength
    globalLength := h.globalLength
    occ := h.occ
    tag := h.tag }

end Coherent

/-! ## Pop -/

theorem popShard_of_empty (hend : (s.shards k).head = listEnd) :
    s.popShard k = some (none, s) := by
  simp [popShard, PoolMem.popShard, PoolMem.shards, Shard.isEmpty, hend]

theorem popShard_nil (h : Coherent s L G) (hk : k < shardCount) (hl : L k = []) :
    s.popShard k = some (none, s) :=
  popShard_of_empty ((h.shardChain k hk).eq_nil_iff.1 hl)

/-- The state after popping `f` from shard `k`. -/
def popped (s : Machine) (k : Nat) (f : Nat) : Machine :=
  (s.setShard k ⟨s.listNext f, Word.sub 32 (s.shards k).count 1⟩).setInfo f
    ((s.frames f).withOwner .kernel)

theorem popShard_of_head (hb : s.tableBase ≠ 0) (hhead : (s.shards k).head = f)
    (hne : f ≠ listEnd) (hlt : f < s.numFrames) (hfree : (s.frames f).owner = .free) :
    s.popShard k = some (some f, s.popped k f) := by
  have hne' : ¬ (s.shards k).isEmpty := by simpa [Shard.isEmpty, hhead] using hne
  have hset : (s.setShard k ⟨s.listNext f, Word.sub 32 (s.shards k).count 1⟩).setOwner f
      .free .kernel = some (s.popped k f) :=
    setOwner_eq_some.2 ⟨hb, hlt, hfree, rfl⟩
  simp only [popShard, PoolMem.popShard, PoolMem.shards, PoolMem.setShard, PoolMem.listNext,
    if_neg hne', hhead]
  exact Option.bind_eq_some_iff.2 ⟨_, hset, rfl⟩

/-- **Popping takes the head off its list.** -/
theorem popShard_cons (h : Coherent s L G) (hk : k < shardCount) (hl : L k = f :: l) :
    s.popShard k = some (some f, s.popped k f) ∧
      Coherent (s.popped k f) (Function.update L k l) G := by
  have hmem : f ∈ L k := hl ▸ List.mem_cons_self
  obtain ⟨hlt, hfree⟩ := h.of_mem_shard hk hmem
  have hc := h.shardChain k hk
  rw [hl] at hc
  obtain ⟨hhead, hne, hrest⟩ := chain_cons_iff.1 hc
  have hlen := h.length_le hk
  have hcount := h.shardLength k hk
  have hbound := h.bound
  simp only [hl, List.length_cons, listEnd] at hlen hcount hbound
  constructor
  · exact popShard_of_head h.table hhead hne hlt hfree
  · refine {
      table := h.table
      bound := h.bound
      shardChain := ?_
      globalChain := h.globalChain
      shardLength := ?_
      globalLength := h.globalLength
      occ := ?_
      tag := ?_ }
    · intro i hi
      by_cases hik : i = k
      · subst hik
        simpa [popped] using hrest
      · simpa [popped, hik] using h.shardChain i hi
    · intro i hi
      by_cases hik : i = k
      · subst hik
        simp only [popped, setInfo_shards, setShard_shards, Function.update_self]
        rw [Word.sub_of_le (by omega) (by omega)]
        omega
      · simpa [popped, hik] using h.shardLength i hi
    · intro g
      have hupd := occ_update (L := L) (G := G) hk l g
      have hocc := h.occ g
      rw [hl, List.count_cons] at hupd
      simp only [popped, setInfo_frames, setInfo_numFrames, setShard_numFrames, setShard_frames]
      by_cases hg : g = f
      · subst hg
        rw [if_pos ⟨hlt, hfree⟩] at hocc
        simp only [beq_self_eq_true, if_true] at hupd
        simp only [Function.update_self, FrameInfo.withOwner_owner, FrameOwner.kernel_ne_free, and_false,
          if_false]
        omega
      · simp only [Function.update_of_ne hg, ← hocc]
        simp only [beq_eq_false_iff_ne.2 (Ne.symm hg), Bool.false_eq_true, if_false] at hupd
        omega
    · intro g
      simp only [popped, setInfo_frames, setShard_frames]
      by_cases hg : g = f
      · subst hg
        simp [FrameOwner.kernel]
      · rw [Function.update_of_ne hg]
        exact h.tag g

/-! ## Frames off the lists -/

open Classical in
/-- The machine as the lists see it while the frames `F` are in flight between two of them: free,
but on no list, like frames somebody holds. -/
noncomputable def hide (s : Machine) (F : Set Nat) : Machine :=
  { s with frames := fun f => if f ∈ F then (s.frames f).withOwner .kernel else s.frames f }

section Hide

variable {F : Set Nat}

@[simp] theorem hide_listNext : (s.hide F).listNext = s.listNext := rfl

theorem hide_frames_of_mem (hf : f ∈ F) :
    (s.hide F).frames f = (s.frames f).withOwner .kernel :=
  if_pos hf

theorem hide_frames_of_notMem (hf : f ∉ F) : (s.hide F).frames f = s.frames f := if_neg hf

theorem hide_free : ((s.hide F).frames f).owner = .free ↔ f ∉ F ∧ (s.frames f).owner = .free := by
  by_cases hf : f ∈ F
  · rw [hide_frames_of_mem hf]
    simp [hf]
  · rw [hide_frames_of_notMem hf]
    simp [hf]

theorem hide_tag (htag : ∀ f ∉ F, (s.frames f).owner.tag = .free → (s.frames f).owner = .free) :
    ∀ f, ((s.hide F).frames f).owner.tag = .free → ((s.hide F).frames f).owner = .free := by
  intro f
  by_cases hf : f ∈ F
  · rw [hide_frames_of_mem hf]
    simp [FrameOwner.kernel]
  · rw [hide_frames_of_notMem hf]
    exact htag f hf

theorem Coherent.tag_of_hide (h : Coherent (s.hide F) L G) (hf : f ∉ F)
    (htag : (s.frames f).owner.tag = .free) : (s.frames f).owner = .free := by
  have := h.tag f
  rw [hide_frames_of_notMem hf] at this
  exact this htag

theorem hide_empty : s.hide ∅ = s := by
  have hframes : (s.hide ∅).frames = s.frames :=
    funext fun f => hide_frames_of_notMem (Set.notMem_empty f)
  calc s.hide ∅ = { s with frames := (s.hide ∅).frames } := rfl
    _ = s := by rw [hframes]

theorem hide_setInfo (hf : f ∉ F) (info : FrameInfo) :
    (s.setInfo f info).hide F = (s.hide F).setInfo f info := by
  have hframes : ((s.setInfo f info).hide F).frames = ((s.hide F).setInfo f info).frames := by
    funext g
    by_cases hg : g = f
    · subst hg
      rw [hide_frames_of_notMem hf, setInfo_frames, setInfo_frames, Function.update_self,
        Function.update_self]
    · by_cases hgF : g ∈ F
      · rw [hide_frames_of_mem hgF, setInfo_frames, setInfo_frames, Function.update_of_ne hg,
          Function.update_of_ne hg, hide_frames_of_mem hgF]
      · rw [hide_frames_of_notMem hgF, setInfo_frames, setInfo_frames, Function.update_of_ne hg,
          Function.update_of_ne hg, hide_frames_of_notMem hgF]
  calc (s.setInfo f info).hide F
      = { s.hide F with frames := ((s.setInfo f info).hide F).frames } := rfl
    _ = (s.hide F).setInfo f info := by rw [hframes]; rfl

end Hide

/-! ## Refill -/

theorem exists_split_at {n : Nat} (hn : 0 < n) (hle : n ≤ l.length) :
    ∃ l₁ a l₂, l = l₁ ++ [a] ++ l₂ ∧ l₁.length + 1 = n := by
  have hlen : (l.take n).length = n := by rw [List.length_take]; omega
  have hne : l.take n ≠ [] := by rw [← List.length_pos_iff, hlen]; exact hn
  refine ⟨(l.take n).dropLast, (l.take n).getLast hne, l.drop n, ?_, ?_⟩
  · rw [List.dropLast_append_getLast hne, List.take_append_drop]
  · rw [List.length_dropLast, hlen]
    omega

variable {F : Set Nat} {B : List Nat} {t : Nat}

/-- **Peeling takes the front off the global list**; the peeled frames are in flight. -/
theorem Coherent.peeled (h : Coherent (s.hide F) L (B ++ G))
    (hs : Seg s.listNext s.global.head B t) :
    Coherent (hide { s with global := ⟨t, Word.sub 32 s.global.count B.length⟩ }
      (F ∪ {f | f ∈ B})) L G := by
  classical
  have hchain : Chain s.listNext listEnd s.global.head (B ++ G) := h.globalChain
  have hlen : s.global.count = B.length + G.length := by
    rw [← List.length_append]
    exact h.globalLength
  have hfits := h.global_length_le
  have hbound := h.bound
  rw [List.length_append] at hfits
  simp only [listEnd] at hbound
  refine {
    table := h.table
    bound := h.bound
    shardChain := h.shardChain
    globalChain := ?_
    shardLength := h.shardLength
    globalLength := ?_
    occ := ?_
    tag := hide_tag fun f hf => h.tag_of_hide fun hmem => hf (Or.inl hmem) }
  · obtain ⟨u, hu, hrest⟩ := seg_append.1 hchain.seg
    obtain rfl : t = u := hs.iterate.symm.trans hu.iterate
    exact ⟨hrest, fun hmem => hchain.stop_notMem (List.mem_append_right B hmem)⟩
  · show Word.sub 32 s.global.count B.length = G.length
    rw [Word.sub_of_le (by omega) (by omega)]
    omega
  · intro f
    have hocc := h.occ f
    have hsplit : Machine.occ L (B ++ G) f = Machine.occ L G f + B.count f := by
      simp only [Machine.occ, List.count_append]
      omega
    rw [hsplit] at hocc
    simp only [hide_free, Set.mem_union, Set.mem_ofPred_eq, not_or] at hocc ⊢
    by_cases hf : f ∈ B
    · have hpos := List.count_pos_iff.2 hf
      rw [if_neg fun hcon => hcon.2.1.2 hf]
      split_ifs at hocc <;> omega
    · rw [List.count_eq_zero_of_not_mem hf, Nat.add_zero] at hocc
      rw [hocc]
      simp only [hf, not_false_eq_true, and_true]
      rfl

/-- **Splicing puts a batch in flight on the front of a shard.** -/
theorem Coherent.spliced {a head : Nat} (h : Coherent (s.hide F) L G) (hk : k < shardCount)
    (hs : Seg s.listNext head (l ++ [a]) t) (hnd : (l ++ [a]).Nodup)
    (hB : ∀ f ∈ l ++ [a], f ∈ F ∧ f < s.numFrames ∧ (s.frames f).owner = .free) :
    Coherent ((s.spliceShard k ⟨head, a, l.length + 1⟩).hide (F \ {f | f ∈ l ++ [a]}))
      (Function.update L k (l ++ [a] ++ L k)) G := by
  classical
  have hbound : s.numFrames ≤ listEnd := h.bound
  simp only [listEnd] at hbound
  have haB : a ∈ l ++ [a] := by simp
  have hnot : ∀ f ∈ l ++ [a], ((s.hide F).frames f).owner ≠ .free :=
    fun f hf hfree => (hide_free.1 hfree).1 (hB f hf).1
  have hshard : ∀ i < shardCount, a ∉ L i :=
    fun i hi hmem => hnot a haB (h.of_mem_shard hi hmem).2
  have hglobal : a ∉ G := fun hmem => hnot a haB (h.of_mem_global hmem).2
  have hstop : listEnd ∉ l ++ [a] := by
    intro hmem
    have := (hB listEnd hmem).2.1
    exact absurd h.bound (Nat.not_le_of_lt this)
  have hnext : (s.spliceShard k ⟨head, a, l.length + 1⟩).listNext =
      Function.update s.listNext a (s.shards k).head := by
    have hhead : (s.shards k).head < 2 ^ 32 := h.head_lt hk
    show ((s.setListNext a (s.shards k).head).setShard k _).listNext = _
    rw [listNext_setShard, listNext_setListNext, Nat.mod_eq_of_lt hhead]
  have hocc : ∀ f, Machine.occ (Function.update L k (l ++ [a] ++ L k)) G f =
      if f < s.numFrames ∧
        (((s.spliceShard k ⟨head, a, l.length + 1⟩).hide (F \ {f | f ∈ l ++ [a]})).frames f).owner =
          .free then 1 else 0 := by
    intro f
    have hupd := occ_update (L := L) (G := G) hk (l ++ [a] ++ L k) f
    rw [List.count_append] at hupd
    have hold := h.occ f
    simp only [hide_free, show (s.spliceShard k ⟨head, a, l.length + 1⟩).frames = s.frames from rfl]
    by_cases hf : f ∈ l ++ [a]
    · rw [if_neg fun hcon => hnot f hf hcon.2] at hold
      rw [if_pos ⟨(hB f hf).2.1, fun hcon => hcon.2 hf, (hB f hf).2.2⟩]
      rw [List.count_eq_one_of_mem hnd hf] at hupd
      omega
    · rw [List.count_eq_zero_of_not_mem hf] at hupd
      simp only [hide_free] at hold
      have hsame : (f ∉ F \ {f | f ∈ l ++ [a]}) ↔ f ∉ F := by
        rw [Set.mem_sdiff, not_and_not_right]
        exact ⟨fun hcon hmem => hf (hcon hmem), fun hcon hmem => absurd hmem hcon⟩
      simp only [hsame]
      exact (by omega : _ = Machine.occ L G f).trans hold
  have hfits : (l ++ [a] ++ L k).length ≤ s.numFrames := by
    refine length_le_of_count fun g => ?_
    have hle := count_shard_le_occ (L := Function.update L k (l ++ [a] ++ L k)) (G := G)
      (f := g) hk
    rw [Function.update_self, hocc] at hle
    refine hle.trans ?_
    split_ifs <;> omega
  refine {
    table := h.table
    bound := h.bound
    shardChain := ?_
    globalChain := ?_
    shardLength := ?_
    globalLength := h.globalLength
    occ := hocc
    tag := hide_tag fun f hf htag => ?_ }
  · intro i hi
    rw [hide_listNext, hnext]
    show Chain _ _ (Function.update s.shards k _ i).head _
    by_cases hik : i = k
    · subst hik
      rw [Function.update_self, Function.update_self]
      exact chain_splice hs hstop hnd (h.shardChain i hi) (hshard i hi)
    · rw [Function.update_of_ne hik, Function.update_of_ne hik]
      exact (h.shardChain i hi).update (hshard i hi) _
  · rw [hide_listNext, hnext]
    exact h.globalChain.update hglobal _
  · intro i hi
    show (Function.update s.shards k _ i).count = _
    by_cases hik : i = k
    · subst hik
      have hcount : (s.shards i).count = (L i).length := h.shardLength i hi
      rw [List.length_append, List.length_append, List.length_singleton] at hfits
      rw [Function.update_self, Function.update_self, List.length_append, List.length_append,
        List.length_singleton]
      show Word.add 32 (s.shards i).count (l.length + 1) = _
      rw [Word.add_of_lt (by omega)]
      omega
    · rw [Function.update_of_ne hik, Function.update_of_ne hik]
      exact h.shardLength i hi
  · by_cases hfB : f ∈ l ++ [a]
    · exact (hB f hfB).2.2
    · exact h.tag_of_hide (fun hmem => hf ⟨hmem, hfB⟩) htag

/-- **A refill moves the front of the global list to the front of the shard.** Only next words of
free frames are written. -/
theorem refillShard_coherent (h : Coherent s L G) (hk : k < shardCount) :
    ∃ G₁ G₂, G = G₁ ++ G₂ ∧ (G₁ = [] → G = []) ∧
      Coherent (s.refillShard k) (Function.update L k (G₁ ++ L k)) G₂ ∧
      (s.refillShard k).frames = s.frames ∧
      ∀ b, (s.frames (b / frameSize)).owner ≠ .free → (s.refillShard k).mem b = s.mem b := by
  by_cases hne : G = []
  · refine ⟨[], [], by simp [hne], fun _ => hne, ?_, ?_⟩
    all_goals
      have hself : s.refillShard k = s := by
        refine refillShard_of_none k (if_pos ?_)
        show min s.global.count _ = 0
        simp [h.globalLength, hne]
      rw [hself]
    · simpa [hne] using h
    · exact ⟨rfl, fun _ _ => rfl⟩
  -- the batch is `l ++ [a]`
  have hpos : 0 < min G.length shardRefillBatch :=
    lt_min (List.length_pos_iff.2 hne) (by decide)
  obtain ⟨l, a, G₂, hG, hlen⟩ := exists_split_at hpos (min_le_left G.length shardRefillBatch)
  have hchain := h.globalChain
  rw [hG] at hchain
  obtain ⟨t, hs, hrest⟩ := seg_append.1 hchain.seg
  have hnd := hchain.nodup
  have hmemG : ∀ f ∈ l ++ [a], f ∈ G := fun f hf => by
    rw [hG]
    exact List.mem_append_left G₂ hf
  have hfree : (s.frames a).owner = .free := (h.of_mem_global (hmemG a (by simp))).2
  have hpeeled := (hide_empty ▸ hG ▸ h : Coherent (s.hide ∅) L (l ++ [a] ++ G₂)).peeled hs
  rw [List.length_append, List.length_singleton] at hpeeled
  have hspliced := hpeeled.spliced hk hs (List.Nodup.of_append_left hnd)
    fun f hf => ⟨Or.inr hf, h.of_mem_global (hmemG f hf)⟩
  rw [Set.empty_union, Set.sdiff_self, hide_empty] at hspliced
  rw [refillShard_of_some k (PoolMem.peelGlobal_eq h.globalLength hlen hs)]
  refine ⟨l ++ [a], G₂, hG, by simp, hspliced, rfl, ?_⟩
  intro b hb
  have hba : b / frameSize ≠ a := fun hba => hb (hba ▸ hfree)
  refine ByteMem.store_of_not_mem ?_
  simp only [framePhys, frameSize] at hba ⊢
  omega

/-! ## Push -/

/-- **Freeing pushes on the front of a shard.** `info` is the metadata of the freed frame. -/
theorem Coherent.push (h : Coherent s L G) (hk : k < shardCount) (hlt : f < s.numFrames)
    (hnot : (s.frames f).owner ≠ .free) {info : FrameInfo} (hinfo : info.owner = .free) :
    Coherent ((s.setInfo f info).pushShard k f) (Function.update L k (f :: L k)) G := by
  have hbound := h.bound
  simp only [listEnd] at hbound
  have hhead := h.head_lt hk
  have hnmem : ∀ i, i < shardCount → f ∉ L i := fun i hi hf => hnot (h.of_mem_shard hi hf).2
  have hnext : ((s.setInfo f info).pushShard k f).listNext =
      Function.update s.listNext f (s.shards k).head := by
    show (((s.setInfo f info).setListNext f (s.shards k).head).setShard k _).listNext = _
    rw [listNext_setShard, listNext_setListNext, Nat.mod_eq_of_lt hhead, listNext_setInfo]
  have hocc : ∀ g, Machine.occ (Function.update L k (f :: L k)) G g =
      if g < s.numFrames ∧ (Function.update s.frames f info g).owner = .free then 1 else 0 := by
    intro g
    have hupd := occ_update (L := L) (G := G) hk (f :: L k) g
    have hold := h.occ g
    rw [List.count_cons] at hupd
    by_cases hg : g = f
    · subst hg
      rw [if_neg (fun hcon => hnot hcon.2)] at hold
      simp only [Function.update_self, hinfo, hlt, and_self, if_true]
      simp only [beq_self_eq_true, if_true] at hupd
      omega
    · simp only [Function.update_of_ne hg, ← hold]
      simp only [beq_eq_false_iff_ne.2 (Ne.symm hg), Bool.false_eq_true, if_false] at hupd
      omega
  have hfits : (f :: L k).length ≤ s.numFrames := by
    refine length_le_of_count fun g => ?_
    have hle := count_shard_le_occ (L := Function.update L k (f :: L k)) (G := G) (f := g) hk
    rw [Function.update_self, hocc g] at hle
    refine hle.trans ?_
    split_ifs <;> omega
  refine {
    table := h.table
    bound := h.bound
    shardChain := ?_
    globalChain := ?_
    shardLength := ?_
    globalLength := h.globalLength
    occ := hocc
    tag := ?_ }
  · intro i hi
    rw [hnext]
    by_cases hik : i = k
    · subst hik
      simp only [pushShard_shards, Function.update_self]
      exact chain_push (h.shardChain i hi) (hnmem i hi) (by simp only [listEnd]; omega)
    · simp only [pushShard_shards, Function.update_of_ne hik]
      exact (h.shardChain i hi).update (hnmem i hi) _
  · rw [hnext]
    exact h.globalChain.update (fun hf => hnot (h.of_mem_global hf).2) _
  · intro i hi
    by_cases hik : i = k
    · subst hik
      have hcount := h.shardLength i hi
      simp only [pushShard_shards, Function.update_self, setInfo_shards]
      rw [List.length_cons] at hfits ⊢
      rw [Word.add_of_lt (by omega), hcount]
    · simp only [pushShard_shards, Function.update_of_ne hik]
      exact h.shardLength i hi
  · intro g
    show (Function.update s.frames f info g).owner.tag = .free →
      (Function.update s.frames f info g).owner = .free
    by_cases hg : g = f
    · subst hg
      simp [hinfo]
    · simp only [Function.update_of_ne hg]
      exact h.tag g

/-! ## Allocation -/

/-- The statics that only `pmm_init` sets are the same. -/
structure SameBoot (s s' : Machine) : Prop where
  physmapBase : s'.physmapBase = s.physmapBase
  tableBase : s'.tableBase = s.tableBase
  numFrames : s'.numFrames = s.numFrames

theorem SameBoot.refl (s : Machine) : SameBoot s s := ⟨rfl, rfl, rfl⟩

theorem SameBoot.trans {s₁ s₂ s₃ : Machine} (h : SameBoot s₁ s₂) (h' : SameBoot s₂ s₃) :
    SameBoot s₁ s₃ :=
  ⟨h'.physmapBase.trans h.physmapBase, h'.tableBase.trans h.tableBase,
    h'.numFrames.trans h.numFrames⟩

theorem peelGlobal_state {r : Option Batch} (h : s.peelGlobal = (r, s')) :
    ∃ g, s' = { s with global := g } := by
  unfold peelGlobal PoolMem.peelGlobal at h
  dsimp only at h
  split_ifs at h
  · exact ⟨s.global, (Prod.mk.inj h).2.symm⟩
  · exact ⟨_, (Prod.mk.inj h).2.symm⟩

theorem refillShard_state (s : Machine) (k : Nat) : ∃ mem g sh, s.refillShard k =
    { s with mem := mem, global := g, shards := Function.update s.shards k sh } := by
  rcases hpeel : s.peelGlobal with ⟨_ | b, s'⟩
  · obtain ⟨g, rfl⟩ := peelGlobal_state hpeel
    rw [refillShard_of_none k hpeel]
    exact ⟨s.mem, g, s.shards k, by rw [Function.update_eq_self]⟩
  · obtain ⟨g, rfl⟩ := peelGlobal_state hpeel
    rw [refillShard_of_some k hpeel]
    exact ⟨_, g, _, rfl⟩

theorem refillShard_boot (s : Machine) (k : Nat) : SameBoot s (s.refillShard k) := by
  obtain ⟨mem, g, sh, hstate⟩ := refillShard_state s k
  rw [hstate]
  exact ⟨rfl, rfl, rfl⟩

/-- What an allocation does to the frame table and to memory. -/
structure Allocates (s : Machine) (r : Option Nat) (s' : Machine) : Prop where
  boot : SameBoot s s'
  /-- Only free frames are written. -/
  mem : ∀ b, (s.frames (b / frameSize)).owner ≠ .free → s'.mem b = s.mem b
  none : r = none → s'.frames = s.frames
  some : ∀ f, r = some f → f < s.numFrames ∧ (s.frames f).owner = .free ∧
    s'.frames = Function.update s.frames f ((s.frames f).withOwner .kernel)

theorem allocates_popped (hlt : f < s.numFrames) (hfree : (s.frames f).owner = .free) :
    Allocates s (some f) (s.popped k f) where
  boot := ⟨rfl, rfl, rfl⟩
  mem := fun _ _ => rfl
  none := by simp
  some := by
    rintro g ⟨rfl⟩
    exact ⟨hlt, hfree, rfl⟩

theorem currentShard_lt : currentCpu % shardCount < shardCount := by decide

/-- The frames `alloc_frame` can reach. -/
def supply (s : Machine) : Nat := (s.shards (currentCpu % shardCount)).count + s.global.count

theorem Coherent.supply_eq (h : Coherent s L G) :
    s.supply = (L (currentCpu % shardCount)).length + G.length := by
  rw [supply, h.shardLength _ currentShard_lt, h.globalLength]

/-- **`alloc_frame` never panics, keeps the lists coherent, and fails only when both lists it
looks at are empty.** -/
theorem allocFrame_spec (h : Coherent s L G) :
    ∃ r s' L' G', s.allocFrame = some (r, s') ∧ Coherent s' L' G' ∧
      (∀ i, i ≠ currentCpu % shardCount → L' i = L i) ∧ Allocates s r s' ∧
      (r = none → s.supply = 0 ∧ s'.supply = 0) ∧ (∀ f, r = some f → s'.supply + 1 = s.supply) := by
  have hk := currentShard_lt
  have hsupply : ∀ {t : Machine} {L G}, Coherent t L G →
      t.supply = (L (currentCpu % shardCount)).length + G.length := Coherent.supply_eq
  generalize hkdef : currentCpu % shardCount = k at hk hsupply ⊢
  cases hl : L k with
  | cons f l =>
      obtain ⟨hpop, hcoh⟩ := popShard_cons h hk hl
      obtain ⟨hlt, hfree⟩ := h.of_mem_shard hk (hl ▸ List.mem_cons_self)
      refine ⟨some f, s.popped k f, Function.update L k l, G, ?_, hcoh, ?_,
        allocates_popped hlt hfree, by simp, fun _ _ => ?_⟩
      · simp [PoolMem.allocFrame, hkdef, hpop]
      · intro i hi
        rw [Function.update_of_ne hi]
      · rw [hsupply h, hsupply hcoh, hl, Function.update_self, List.length_cons]
        omega
  | nil =>
      have hpop := popShard_nil h hk hl
      obtain ⟨G₁, G₂, hG, hempty, hcoh, hframes, hmem⟩ := refillShard_coherent h hk
      have hboot := refillShard_boot s k
      have hfirst : s.allocFrame = (s.refillShard k).popShard k := by
        simp [PoolMem.allocFrame, hkdef, hpop]
      rw [hfirst]
      rw [hl, List.append_nil] at hcoh
      cases hG₁ : G₁ with
      | nil =>
          rw [hG₁] at hcoh
          refine ⟨none, s.refillShard k, _, _, ?_, hcoh, ?_, ?_, fun _ => ?_, by simp⟩
          · exact popShard_nil hcoh hk (Function.update_self k [] L)
          · intro i hi
            rw [Function.update_of_ne hi]
          · exact ⟨hboot, hmem, fun _ => hframes, by simp⟩
          · have hnil : G = [] := hempty hG₁
            rw [hnil] at hG
            rw [hsupply h, hsupply hcoh, hl, hnil, Function.update_self,
              (List.append_eq_nil_iff.1 hG.symm).2]
            exact ⟨rfl, rfl⟩
      | cons f l =>
          rw [hG₁] at hcoh
          obtain ⟨hpop', hcoh'⟩ := popShard_cons hcoh hk (Function.update_self k (f :: l) L)
          have hfG : f ∈ G := by rw [hG, hG₁]; simp
          obtain ⟨hlt, hfree⟩ := h.of_mem_global hfG
          refine ⟨some f, _, _, _, hpop', hcoh', ?_, ?_, by simp, fun _ _ => ?_⟩
          · intro i hi
            rw [Function.update_of_ne hi, Function.update_of_ne hi]
          · refine ⟨hboot.trans ⟨rfl, rfl, rfl⟩, hmem, by simp, ?_⟩
            rintro g ⟨rfl⟩
            refine ⟨hlt, hfree, ?_⟩
            simp only [popped, setInfo_frames, setShard_frames, hframes]
          · rw [hsupply h, hsupply hcoh', hl, Function.update_self, hG, hG₁, List.length_append,
              List.length_cons, List.length_nil]
            omega

end Machine

end Rolnix
