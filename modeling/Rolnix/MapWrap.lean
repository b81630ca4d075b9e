import Rolnix.OneRegion
import Rolnix.MapCount

/-!
# The mapping count wraps

The mapping count is a `u32`, and one table can map a frame 2 ^ 32 times: that takes a little over
2 ^ 23 tables, about half the frames of a machine with 64 GiB. `Filled` is the state after the first
`k` pages were mapped to one frame, `Filled.step` the call that maps the next. After 2 ^ 32 calls
the count is zero again, and releasing the frame returns it to the pool with all its pages in place
(`count_wraps`).
-/

namespace Rolnix

open Radix Relation

/-! ## The tables for a run of pages -/

/-- How many tables below the root the first `k` pages need. -/
def tablesFor (k : Nat) : Nat :=
  (k + (2 ^ 9 - 1)) / 2 ^ 9 + (k + (2 ^ 18 - 1)) / 2 ^ 18 + (k + (2 ^ 27 - 1)) / 2 ^ 27

/-- One page more needs one more table at a level exactly if it is the first of its table. -/
theorem ceil_succ (k : Nat) {d : Nat} (hd : 0 < d) :
    (k + 1 + (d - 1)) / d = (k + (d - 1)) / d + if k % d = 0 then 1 else 0 := by
  have hdvd : d ∣ k + (d - 1) + 1 ↔ k % d = 0 := by
    rw [show k + (d - 1) + 1 = k + d by omega, Nat.dvd_add_self_right, Nat.dvd_iff_mod_eq_zero]
  rw [Nat.add_right_comm, Nat.succ_div]
  simp only [hdvd]

/-- Page `k` shares the tables `a` with the page before it and needs one more for each slot in
`b`. -/
theorem tablesFor_succ {k : Nat} (hk : k < 2 ^ 32) :
    ∃ a b, upper (k * frameSize) = a ++ b ∧ (a = [] ∨ 0 < k ∧ a <+: upper ((k - 1) * frameSize)) ∧
      tablesFor (k + 1) = tablesFor k + b.length := by
  have hindex : ∀ n level, index (n * frameSize) level = n / 2 ^ (9 * level) % 512 := by
    intro n level
    rw [index_eq, Nat.pow_add, ← Nat.div_div_eq_div_mul, show (2 : Nat) ^ 12 = frameSize from rfl,
      Nat.mul_div_cancel n (by decide)]
  have hupper : ∀ n, upper (n * frameSize) = [n / 2 ^ 27 % 512, n / 2 ^ 18 % 512, n / 2 ^ 9 % 512] :=
    fun n => by simp only [upper, List.map_cons, List.map_nil, hindex]
  have hcount : tablesFor (k + 1) = tablesFor k + ((if k % 2 ^ 9 = 0 then 1 else 0) +
      (if k % 2 ^ 18 = 0 then 1 else 0) + if k % 2 ^ 27 = 0 then 1 else 0) := by
    rw [tablesFor, tablesFor, ceil_succ k (by decide), ceil_succ k (by decide), ceil_succ k (by decide)]
    ac_rfl
  rw [hupper, hupper, hcount]
  by_cases h9 : k % 2 ^ 9 = 0
  swap
  · -- the same page table
    have h18 : k % 2 ^ 18 ≠ 0 := by omega
    have h27 : k % 2 ^ 27 ≠ 0 := by omega
    rw [if_neg h9, if_neg h18, if_neg h27]
    refine ⟨_, [], (List.append_nil _).symm, Or.inr ⟨by omega, ?_⟩, rfl⟩
    rw [show (k - 1) / 2 ^ 27 = k / 2 ^ 27 by omega, show (k - 1) / 2 ^ 18 = k / 2 ^ 18 by omega,
      show (k - 1) / 2 ^ 9 = k / 2 ^ 9 by omega]
  by_cases h18 : k % 2 ^ 18 = 0
  swap
  · have h27 : k % 2 ^ 27 ≠ 0 := by omega
    rw [if_pos h9, if_neg h18, if_neg h27]
    refine ⟨[k / 2 ^ 27 % 512, k / 2 ^ 18 % 512], [k / 2 ^ 9 % 512], rfl, Or.inr ⟨by omega, ?_⟩, rfl⟩
    rw [show (k - 1) / 2 ^ 27 = k / 2 ^ 27 by omega, show (k - 1) / 2 ^ 18 = k / 2 ^ 18 by omega]
    exact ⟨_, rfl⟩
  by_cases h27 : k % 2 ^ 27 = 0
  swap
  · rw [if_pos h9, if_pos h18, if_neg h27]
    refine ⟨[k / 2 ^ 27 % 512], [k / 2 ^ 18 % 512, k / 2 ^ 9 % 512], rfl, Or.inr ⟨by omega, ?_⟩, rfl⟩
    rw [show (k - 1) / 2 ^ 27 = k / 2 ^ 27 by omega]
    exact ⟨_, rfl⟩
  · rw [if_pos h9, if_pos h18, if_pos h27]
    exact ⟨[], _, rfl, Or.inl rfl, rfl⟩

namespace Machine

variable {s s' s₀ : Machine} {root f k n : Nat}

/-! ## Mapping one frame again and again -/

/-- The first `k` pages map to frame `f`, and no other page is mapped; `n` frames were in the
pool when the table was new. -/
structure Filled (root f n k : Nat) (s : Machine) : Prop where
  inv : VmInv s root
  ram : f < s.numFrames
  pages : ∀ m < numPages, lookup s.entries root (path (m * frameSize)) =
    if m < k then some (4, pageEntry (f * frameSize) .user) else none
  tables : ∀ m < k, ∃ t, walk childOf s.entries root (upper (m * frameSize)) = some t
  owner : (s.frames f).owner = .kernel
  pinned : (s.frames f).pinned = 0
  count : (s.frames f).mappings = BitVec.ofNat 32 k
  supply : n ≤ s.supply + tablesFor k

/-- **The next page can be mapped** while there are tables. -/
theorem Filled.step (h : Filled root f n k s) (hk : k < 2 ^ 32) (hn : tablesFor (k + 1) ≤ n) :
    ∃ s', TableStep root s s' ∧ Filled root f n (k + 1) s' := by
  have hframe : f * frameSize / frameSize = f := Nat.mul_div_cancel f (by decide)
  have hpage : k < numPages := by
    simp only [numPages]
    omega
  have hlow : k * frameSize < 2 ^ 47 := by
    simp only [frameSize]
    omega
  obtain ⟨r, s', hmap, hm⟩ :
      ∃ r s', s.map root (k * frameSize) (f * frameSize) .user = some (r, s') ∧ _ :=
    map_spec h.inv ((isCanonical_iff (by omega)).2 (Or.inl hlow)) (Nat.mul_mod_left _ _)
      (Nat.mul_mod_left _ _) (Nat.mul_lt_mul_of_pos_right h.ram (by decide))
  have hfree : lookup s.entries root (path (k * frameSize)) = none := by
    rw [h.pages k hpage, if_neg (Nat.lt_irrefl k)]
  -- the tables this call allocates
  obtain ⟨a, b, hab, hshared, hcost⟩ := tablesFor_succ hk
  obtain ⟨t, ht⟩ : ∃ t, walk childOf s.entries root a = some t := by
    rcases hshared with rfl | ⟨hpos, hpre⟩
    · exact ⟨root, rfl⟩
    · obtain ⟨u, hu⟩ := h.tables (k - 1) (by omega)
      exact walk_upto hpre hu
  obtain ⟨htaken, hfew⟩ := hm.supply a b t hab ht
  have hsupply := h.supply
  cases r with
  | error e =>
      obtain ⟨⟨rfl, hfull⟩ | ⟨rfl, -⟩, -⟩ := hm.error e rfl
      · rw [hfree] at hfull
        cases hfull
      · have := hfew rfl
        omega
  | ok u =>
      obtain ⟨-, hpages, htable, s₁, hgrows, hframes⟩ := hm.ok rfl
      rw [hframe] at hframes
      have hnf : (s.frames f).owner ≠ .free := by rw [h.owner]; decide
      rw [hgrows.eq_of_not_free hnf] at hframes
      refine ⟨s', ⟨.map (k * frameSize) (f * frameSize) .user, ⟨by omega, ?_⟩, ?_⟩, hm.inv, ?_,
        fun m hm' => ?_, fun m hm' => ?_, ?_, ?_, ?_, ?_⟩
      · rw [hframe, FrameInfo.ownerTag, h.owner]
        decide
      · rw [TableOp.exec, hmap]
        rfl
      · rw [hm.boot.numFrames]
        exact h.ram
      · rw [hpages _ rfl, h.pages m hm']
        have hpath : path (m * frameSize) = path (k * frameSize) ↔ m = k := by
          rw [path_page_eq_iff hm', Nat.mul_div_cancel k (by decide), Nat.mod_eq_of_lt hpage]
        by_cases hmk : m = k
        · rw [if_pos (hpath.2 hmk), if_pos (by omega)]
        · rw [if_neg fun hp => hmk (hpath.1 hp)]
          by_cases hlt : m < k
          · rw [if_pos hlt, if_pos (by omega)]
          · rw [if_neg hlt, if_neg (by omega)]
      · by_cases hmk : m = k
        · exact hmk ▸ htable
        · obtain ⟨t, ht⟩ := h.tables m (by omega)
          exact ⟨t, hm.tables _ t le_rfl ht⟩
      · rw [hframes, Function.update_self]
        exact h.owner
      · rw [hframes, Function.update_self]
        exact h.pinned
      · rw [hframes, Function.update_self, BitVec.ofNat_add, ← h.count]
        rfl
      · omega

theorem Filled.run (h : Filled root f n 0 s₀) (hk : k ≤ 2 ^ 32) (hn : tablesFor k ≤ n) :
    ∃ s, ReflTransGen (TableStep root) s₀ s ∧ Filled root f n k s := by
  induction k with
  | zero => exact ⟨s₀, ReflTransGen.refl, h⟩
  | succ k ih =>
      have hle : tablesFor k ≤ tablesFor (k + 1) := by
        unfold tablesFor
        omega
      obtain ⟨s, hrun, hs⟩ := ih (by omega) (by omega)
      obtain ⟨s', hstep, hs'⟩ := hs.step (by omega) hn
      exact ⟨s', hrun.tail hstep, hs'⟩

theorem Filled.leafCount_eq (h : Filled root f n k s) (hk : k ≤ numPages) : s.leafCount root f = k := by
  have haddr : f * frameSize < 2 ^ 52 :=
    h.inv.addr_lt (Nat.mul_lt_mul_of_pos_right h.ram (by decide))
  have hleaf : ∀ m < numPages, s.leafFrame root m = some f ↔ m < k := by
    intro m hm
    rw [leafFrame, h.pages m hm]
    split_ifs with hlt
    · rw [leafOf_pageEntry _ (Nat.mul_mod_left _ _) haddr, Nat.mul_div_cancel f (by decide)]
      exact iff_of_true rfl hlt
    · exact iff_of_false (by simp [leafOf]) hlt
  have hfilter : ((Finset.range numPages).filter fun m => s.leafFrame root m = some f) =
      Finset.range k := by
    ext m
    simp only [Finset.mem_filter, Finset.mem_range]
    constructor
    · rintro ⟨hm, hmf⟩
      exact (hleaf m hm).1 hmf
    · intro hm
      exact ⟨by omega, (hleaf m (by omega)).2 hm⟩
  rw [leafCount, hfilter, Finset.card_range]

end Machine

open Machine

/-- **A frame with 2 ^ 32 leaves counts as unmapped.** On a machine with 2 ^ 24 frames, a frame from
the pool is mapped at the first 2 ^ 32 pages of a new table. Its count is then zero, and a release
frees it. -/
theorem count_wraps :
    ∃ root f s₀ s s', NewTable root s₀ ∧ s₀.totalFrames ≤ 2 ^ 24 ∧
      ReflTransGen (TableStep root) s₀ s ∧ s.leafCount root f = 2 ^ 32 ∧
      (s.frames f).mappings = 0 ∧ s.releaseFrame f = some s' ∧ (s'.frames f).ownerTag = .free := by
  obtain ⟨info, b, hinit, hnum, -, -, hpool, -⟩ :=
    oneRegion_boots (n := 2 ^ 24) (fun _ => 0) (by decide) (by decide)
  have hbelow : (oneRegion (2 ^ 24)).Below16TiB := by decide
  have hidle := pmmInit_idle hinit
  have hunref : b.Unreferenced := ⟨(pmmInit_coherent hbelow hinit).1, allSettled_of_idle hidle,
    hidle.pinned, hidle.mappings⟩
  have hpool : 2 ^ 24 - 98304 = b.supply := by
    rw [hpool]
    decide
  -- a frame to map
  obtain ⟨L, G, hcoh⟩ := hunref.coherent
  obtain ⟨r, s₁, L', G', halloc, -, -, ha, hnone, hsome⟩ := allocFrame_spec hcoh
  obtain ⟨f, rfl⟩ : ∃ f, r = some f := by
    cases r with
    | none =>
        have := (hnone rfl).1
        omega
    | some f => exact ⟨f, rfl⟩
  have hstep : PlainStep b s₁ := ⟨.alloc, ⟨trivial, trivial⟩, by simp [PmmOp.exec, halloc]⟩
  have hrun := ReflTransGen.single hstep
  have h₁ := hunref.run hrun
  have hleft := hsome f rfl
  -- and a table
  obtain ⟨root, s₀, hnew, hboot, hleft'⟩ := newTable_total h₁.coherent (by omega)
  obtain ⟨r, s', hnew', hgrows, hempty⟩ := newTable_spec h₁.coherent
  obtain ⟨rfl, rfl⟩ := Prod.mk.inj (Option.some.inj (hnew.symm.trans hnew'))
  obtain ⟨hinv, hlookup⟩ := hempty root rfl
  have htable : NewTable root s₀ := ⟨oneRegion (2 ^ 24), [], [], [], 0, _, info, b, s₁, hbelow,
    ⟨oneRegion_apart hbelow, hinit⟩, hrun, Or.inl hnew⟩
  obtain ⟨hf, -, hframes⟩ := ha.some f rfl
  have hkernel : (s₁.frames f).owner = .kernel := by
    rw [hframes, Function.update_self]
    rfl
  have htotal : s₀.numFrames = 2 ^ 24 := (ha.boot.trans hboot).numFrames.trans hnum
  have hsame : s₀.frames f = s₁.frames f := hgrows.eq_of_not_free (by rw [hkernel]; decide)
  have hfilled : Filled root f s₀.supply 0 s₀ := by
    refine ⟨hinv, ?_, fun m _ => ?_, fun m hm => by omega, ?_, ?_, ?_,
      Nat.le_add_right _ _⟩
    · rw [htotal, ← hnum]
      exact hf
    · rw [hlookup _ (by simp [path]), if_neg (Nat.not_lt_zero m)]
    · rw [hsame, hkernel]
    · rw [hsame, h₁.unpinned]
    · rw [hsame, h₁.unmapped]
      rfl
  have henough : tablesFor (2 ^ 32) ≤ s₀.supply := by
    have htables : tablesFor (2 ^ 32) = 2 ^ 23 + 2 ^ 14 + 2 ^ 5 := by decide
    omega
  obtain ⟨s, hmaps, hs⟩ := hfilled.run le_rfl henough
  have hcount : (s.frames f).mappings = 0 := hs.count
  obtain ⟨L, G, hcoh⟩ := hs.inv.coherent
  refine ⟨root, f, s₀, s, s.freed f, htable, htotal.le, hmaps, hs.leafCount_eq (by decide), hcount,
    ?_, ?_⟩
  · rw [releaseFrame_eq hcoh.table hs.ram, if_neg (by rw [hs.owner]; decide),
      if_neg (by rw [hs.pinned, hcount]; decide)]
  · rw [freed_frames, Function.update_self]
    rfl

end Rolnix
