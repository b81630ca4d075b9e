import Mathlib.Data.List.Count
import Mathlib.Data.List.Perm.Basic
import Mathlib.Algebra.BigOperators.Ring.Finset
import Mathlib.Algebra.Order.Ring.Nat
import Mathlib.Order.Interval.Finset.Nat

/-!
# Intervals that partition a range

A block `(a, n)` is the half-open interval `[a, a + n)`. A list of blocks is a `Partition` of
`[lo, hi)` if every address of the range is in exactly one of them and every other address in
none. The order of the list does not matter, so splitting a block, joining two that touch and
moving a block from one owner to another are all edits at the head, up to `List.Perm`.
-/

namespace Interval

variable {bs bs' : List (Nat × Nat)} {b c : Nat × Nat} {a m n lo hi x : Nat}

/-- `x` lies in the block. -/
def Contains (b : Nat × Nat) (x : Nat) : Prop := b.1 ≤ x ∧ x < b.1 + b.2

instance : Decidable (Contains b x) := inferInstanceAs (Decidable (_ ∧ _))

/-- How many of the blocks contain `x`. -/
def hits (bs : List (Nat × Nat)) (x : Nat) : Nat := bs.countP fun b => Contains b x

theorem hits_cons : hits (b :: bs) x = hits bs x + if Contains b x then 1 else 0 := by
  simp [hits, List.countP_cons]

theorem hits_perm (h : bs.Perm bs') : hits bs x = hits bs' x := h.countP_eq _

theorem hits_pos (hb : b ∈ bs) (hx : Contains b x) : 0 < hits bs x :=
  List.countP_pos_iff.2 ⟨b, hb, by simpa using hx⟩

theorem hits_split : hits ((a, m + n) :: bs) x = hits ((a, m) :: (a + m, n) :: bs) x := by
  simp only [hits_cons, Contains]
  by_cases hlow : a ≤ x
  · by_cases hmid : x < a + m
    · simp only [hlow, hmid, show x < a + (m + n) by omega, show ¬ a + m ≤ x by omega]
      simp
    · by_cases hhigh : x < a + m + n
      · simp only [hlow, hmid, hhigh, show x < a + (m + n) by omega, show a + m ≤ x by omega]
        simp
      · simp only [hmid, hhigh, show ¬ x < a + (m + n) by omega]
        simp
  · simp only [hlow, show ¬ a + m ≤ x by omega]
    simp

/-- Every address of `[lo, hi)` is in exactly one block, every other address in none. -/
def Partition (bs : List (Nat × Nat)) (lo hi : Nat) : Prop :=
  ∀ x, hits bs x = if lo ≤ x ∧ x < hi then 1 else 0

theorem partition_singleton : Partition [(a, n)] a (a + n) := by
  intro x
  rw [hits_cons, show hits [] x = 0 from rfl, Nat.zero_add]
  exact if_congr Iff.rfl rfl rfl

theorem Partition.perm (h : Partition bs lo hi) (hp : bs.Perm bs') : Partition bs' lo hi :=
  fun x => (hits_perm hp).symm.trans (h x)

theorem partition_split :
    Partition ((a, m + n) :: bs) lo hi ↔ Partition ((a, m) :: (a + m, n) :: bs) lo hi :=
  forall_congr' fun _ => by rw [hits_split]

theorem Partition.inside (h : Partition bs lo hi) (hb : b ∈ bs) (hpos : 0 < b.2) :
    lo ≤ b.1 ∧ b.1 + b.2 ≤ hi := by
  have hrange : ∀ x, Contains b x → lo ≤ x ∧ x < hi := by
    intro x hx
    have hhit := hits_pos hb hx
    rw [h x] at hhit
    by_contra hout
    rw [if_neg hout] at hhit
    exact absurd hhit (lt_irrefl 0)
  have hfirst := hrange b.1 ⟨le_rfl, by omega⟩
  have hlast := hrange (b.1 + b.2 - 1) ⟨by omega, by omega⟩
  omega

/-- Two blocks have no address in common. -/
def Apart (b c : Nat × Nat) : Prop := b.1 + b.2 ≤ c.1 ∨ c.1 + c.2 ≤ b.1

theorem Partition.pairwise (h : Partition bs lo hi) (hpos : ∀ b ∈ bs, 0 < b.2) :
    bs.Pairwise Apart := by
  have hle : ∀ x, hits bs x ≤ 1 := by
    intro x
    rw [h x]
    split_ifs
    · exact le_rfl
    · exact Nat.zero_le 1
  clear h
  induction bs with
  | nil => exact List.Pairwise.nil
  | cons b bs ih =>
      refine List.pairwise_cons.2 ⟨fun c hc => ?_, ih (fun c hc => hpos c (List.mem_cons_of_mem b hc))
        fun x => ?_⟩
      · by_contra hnot
        have hb := hpos b List.mem_cons_self
        have hcpos := hpos c (List.mem_cons_of_mem b hc)
        simp only [Apart, not_or, not_le] at hnot
        -- both blocks contain the larger of the two starts
        have hone := hle (max b.1 c.1)
        have hin := hits_pos (x := max b.1 c.1) hc ⟨by omega, by omega⟩
        rw [hits_cons, if_pos ⟨by omega, by omega⟩] at hone
        omega
      · have := hle x
        rw [hits_cons] at this
        omega

theorem Partition.apart (h : Partition bs lo hi) (hpos : ∀ b ∈ bs, 0 < b.2)
    (hp : bs.Perm (b :: bs')) (hc : c ∈ bs') : Apart b c :=
  List.rel_of_pairwise_cons ((h.perm hp).pairwise fun d hd => hpos d (hp.mem_iff.2 hd)) hc

/-! ## Maximal runs -/

/-- `[a, e)` is a maximal run of addresses in `P`. -/
structure MaxRun (P : Nat → Prop) (a e : Nat) : Prop where
  lt : a < e
  inside : ∀ x, a ≤ x → x < e → P x
  before : ∀ x, x + 1 = a → ¬ P x
  behind : ¬ P e

/-- Some block contains `x`. -/
def Covered (bs : List (Nat × Nat)) (x : Nat) : Prop := ∃ b ∈ bs, Contains b x

/-- No two of the blocks touch. -/
def Gapped (bs : List (Nat × Nat)) : Prop := bs.Pairwise fun b c => b.1 + b.2 < c.1

theorem Gapped.eq_or_apart (hg : Gapped bs) (hb : b ∈ bs) (hc : c ∈ bs) :
    b = c ∨ b.1 + b.2 < c.1 ∨ c.1 + c.2 < b.1 := by
  let R : Nat × Nat → Nat × Nat → Prop := fun b c => b = c ∨ b.1 + b.2 < c.1 ∨ c.1 + c.2 < b.1
  have hall : bs.Pairwise R := List.Pairwise.imp (fun hlt => Or.inr (Or.inl hlt)) hg
  have hflip : bs.Pairwise (flip R) := List.Pairwise.imp (fun hlt => Or.inr (Or.inr hlt)) hg
  have hrefl : ∀ b ∈ bs, R b b := fun _ _ => Or.inl rfl
  exact hall.forall_of_forall_of_flip hrefl hflip hb hc

theorem Gapped.not_covered (hg : Gapped bs) (hb : b ∈ bs) : ¬ Covered bs (b.1 + b.2) := by
  rintro ⟨c, hc, hle, hlt⟩
  rcases hg.eq_or_apart hb hc with rfl | h | h
  · omega
  · omega
  · omega

/-- **The maximal runs of blocks that do not touch are the blocks.** -/
theorem Gapped.maxRun_iff (hg : Gapped bs) (hpos : ∀ b ∈ bs, 0 < b.2) {e : Nat} :
    MaxRun (Covered bs) a e ↔ ∃ b ∈ bs, a = b.1 ∧ e = b.1 + b.2 := by
  constructor
  · intro hrun
    obtain ⟨b, hb, hle, hlt⟩ := hrun.inside a le_rfl hrun.lt
    refine ⟨b, hb, ?_, ?_⟩
    · by_contra hne
      exact hrun.before (a - 1) (by omega) ⟨b, hb, by omega, by omega⟩
    · rcases Nat.lt_trichotomy e (b.1 + b.2) with h | h | h
      · have hltE := hrun.lt
        exact absurd ⟨b, hb, by omega, h⟩ hrun.behind
      · exact h
      · exact absurd (hrun.inside _ hlt.le h) (hg.not_covered hb)
  · rintro ⟨b, hb, rfl, rfl⟩
    have hb2 := hpos b hb
    refine ⟨by omega, fun x hle hlt => ⟨b, hb, hle, hlt⟩, ?_, hg.not_covered hb⟩
    rintro x hx ⟨c, hc, hle, hlt⟩
    rcases hg.eq_or_apart hb hc with rfl | h | h
    · omega
    · omega
    · omega

theorem Gapped.mem_of_covered (hg : Gapped bs) (hg' : Gapped bs') (hpos : ∀ b ∈ bs, 0 < b.2)
    (hpos' : ∀ b ∈ bs', 0 < b.2) (hcov : Covered bs = Covered bs') (hb : b ∈ bs) : b ∈ bs' := by
  have hrun : MaxRun (Covered bs) b.1 (b.1 + b.2) := (hg.maxRun_iff hpos).2 ⟨b, hb, rfl, rfl⟩
  rw [hcov] at hrun
  obtain ⟨c, hc, hstart, hstop⟩ := (hg'.maxRun_iff hpos').1 hrun
  have heq : b = c := Prod.ext hstart (by omega)
  rw [heq]
  exact hc

/-- **Blocks that do not touch, in address order, are determined by what they cover.** -/
theorem Gapped.eq_of_covered (hg : Gapped bs) (hg' : Gapped bs') (hpos : ∀ b ∈ bs, 0 < b.2)
    (hpos' : ∀ b ∈ bs', 0 < b.2) (hcov : Covered bs = Covered bs') : bs = bs' := by
  have hnodup : ∀ {cs : List (Nat × Nat)}, Gapped cs → cs.Nodup := by
    intro cs hcs
    refine List.Pairwise.imp ?_ hcs
    rintro b c hlt rfl
    omega
  have hperm : bs.Perm bs' := by
    refine (List.perm_ext_iff_of_nodup (hnodup hg) (hnodup hg')).2 fun b => ⟨?_, ?_⟩
    · exact hg.mem_of_covered hg' hpos hpos' hcov
    · exact hg'.mem_of_covered hg hpos' hpos hcov.symm
  refine hperm.eq_of_pairwise ?_ hg hg'
  intro b c _ _ hlt hlt'
  omega

/-! ## Total length -/

theorem sum_contains {N : Nat} (h : b.1 + b.2 ≤ N) :
    ∑ x ∈ Finset.range N, (if Contains b x then 1 else 0) = b.2 := by
  have hfilter : (Finset.range N).filter (Contains b) = Finset.Ico b.1 (b.1 + b.2) := by
    ext x
    simp only [Finset.mem_filter, Finset.mem_range, Finset.mem_Ico, Contains]
    omega
  rw [Finset.sum_boole, hfilter, Nat.card_Ico]
  simp

theorem sum_hits {N : Nat} (h : ∀ b ∈ bs, b.1 + b.2 ≤ N) :
    ∑ x ∈ Finset.range N, hits bs x = (bs.map Prod.snd).sum := by
  induction bs with
  | nil => simp [hits]
  | cons b bs ih =>
      rw [Finset.sum_congr rfl fun x _ => hits_cons, Finset.sum_add_distrib,
        ih fun c hc => h c (List.mem_cons_of_mem b hc), sum_contains (h b List.mem_cons_self),
        List.map_cons, List.sum_cons, Nat.add_comm]

/-- **The blocks of a partition add up to the range.** -/
theorem Partition.sum (h : Partition bs lo (lo + n)) (hpos : ∀ b ∈ bs, 0 < b.2) :
    (bs.map Prod.snd).sum = n := by
  have hrange : hits [(lo, n)] = hits bs := by
    funext x
    rw [h x, partition_singleton x]
  rw [← sum_hits fun b hb => (h.inside hb (hpos b hb)).2, ← hrange,
    sum_hits (by simp)]
  simp

end Interval
