import Rolnix.FreeLists
import Rolnix.PageTree

/-!
# Page-table entries

The encodings `vmm.rs` writes, bit by bit, and the tables in memory as the function `entries`.
-/

namespace Rolnix

open Radix

/-! ## Bits -/

theorem and_present_eq_zero {e : Nat} : e &&& ptePresent = 0 ↔ e.testBit 0 = false :=
  Word.and_two_pow_eq_zero_iff (x := e) (i := 0)

theorem and_huge_eq_zero {e : Nat} : e &&& pteHuge = 0 ↔ e.testBit 7 = false :=
  Word.and_two_pow_eq_zero_iff (x := e) (i := 7)

theorem and_user_eq_zero {e : Nat} : e &&& pteUser = 0 ↔ e.testBit 2 = false :=
  Word.and_two_pow_eq_zero_iff (x := e) (i := 2)

theorem and_user_cases (e : Nat) : e &&& pteUser = 0 ∨ e &&& pteUser = pteUser := by
  have hand : e &&& pteUser = (e.testBit 2).toNat * 2 ^ 2 := Nat.and_two_pow e 2
  cases h : e.testBit 2 with
  | false =>
      rw [h] at hand
      exact Or.inl (by simpa using hand)
  | true =>
      rw [h] at hand
      exact Or.inr hand

theorem index_lt (va level : Nat) : index va level < 512 := by
  have h : index va level = (va >>> (12 + 9 * level)) % 2 ^ 9 :=
    Nat.and_two_pow_sub_one_eq_mod _ 9
  rw [h]
  exact Nat.mod_lt _ (by decide)

theorem physOf_eq (e : Nat) : physOf e = e / 2 ^ 12 % 2 ^ 32 := by
  have h : (e >>> 12) &&& 0x000fffffffff = (e >>> 12) % 2 ^ 36 :=
    Nat.and_two_pow_sub_one_eq_mod _ 36
  rw [physOf, h, Nat.shiftRight_eq_div_pow]
  omega

theorem or_div_two_pow {a b k : Nat} (hb : b < 2 ^ k) : (a ||| b) / 2 ^ k = a / 2 ^ k := by
  rw [← Nat.shiftRight_eq_div_pow, Nat.shiftRight_or_distrib, Nat.shiftRight_eq_div_pow,
    Nat.shiftRight_eq_div_pow, Nat.div_eq_of_lt hb, Nat.or_zero]

theorem testBit_mul_of_lt {a k i : Nat} (hi : i < k) : (a * 2 ^ k).testBit i = false := by
  rw [Nat.testBit_mul_two_pow]
  simp [hi]

/-! ## Entries that point to tables -/

/-- The entry written for a new table. -/
def tableEntry (new user : Nat) : Nat := framePhys new ||| ptePresent ||| pteWritable ||| user

section TableEntry

variable {new user : Nat}

theorem framePhys_eq (f : Nat) : framePhys f = f * 2 ^ 12 := rfl

theorem testBit_tableEntry {i : Nat} :
    (tableEntry new user).testBit i =
      ((framePhys new).testBit i || decide (i = 0) || decide (i = 1) || user.testBit i) := by
  rw [tableEntry, Nat.testBit_or, Nat.testBit_or, Nat.testBit_or]
  congr 1
  congr 1
  · congr 1
    rw [ptePresent, Nat.one_shiftLeft, Nat.testBit_two_pow]
    simp [eq_comm]
  · rw [pteWritable, Nat.one_shiftLeft, Nat.testBit_two_pow]
    simp [eq_comm]

theorem tableEntry_inner (huser : user = 0 ∨ user = pteUser) (hnew : new < 2 ^ 32) {d : Nat} :
    (tableEntry new user).testBit 0 = true ∧ InnerOk d (tableEntry new user) := by
  have hlow : ∀ i < 12, (framePhys new).testBit i = false := fun i hi => testBit_mul_of_lt hi
  have hhigh : (framePhys new).testBit 63 = false := by
    refine Nat.testBit_lt_two_pow ?_
    rw [framePhys_eq]
    omega
  have huser7 : user.testBit 7 = false := by
    rcases huser with rfl | rfl
    · simp
    · decide
  have huser63 : user.testBit 63 = false := by
    rcases huser with rfl | rfl
    · simp
    · decide
  refine ⟨by rw [testBit_tableEntry]; simp, ⟨by simp [testBit_tableEntry], ?_, fun hhuge => ?_⟩⟩
  · simp [testBit_tableEntry, hhigh, huser63]
  · simp [testBit_tableEntry, hlow 7 (by decide), huser7] at hhuge

theorem tableEntry_user (hnew : user = pteUser) : (tableEntry new user).testBit 2 = true := by
  rw [testBit_tableEntry, hnew]
  simp only [Bool.or_eq_true]
  exact Or.inr (by decide)

theorem physOf_tableEntry (huser : user = 0 ∨ user = pteUser) (hnew : new < 2 ^ 32) :
    physOf (tableEntry new user) = new := by
  have hlt : user < 2 ^ 12 := by
    rcases huser with rfl | rfl
    · decide
    · decide
  rw [physOf_eq, tableEntry, or_div_two_pow hlt, or_div_two_pow (by decide),
    or_div_two_pow (by decide), framePhys_eq, Nat.mul_div_cancel _ (by decide),
    Nat.mod_eq_of_lt hnew]

theorem childOf_tableEntry (huser : user = 0 ∨ user = pteUser) (hnew : new < 2 ^ 32) :
    childOf (tableEntry new user) = some new := by
  obtain ⟨hpres, hok⟩ := tableEntry_inner (d := 0) huser hnew
  refine childOf_eq_some.2 ⟨hpres, ?_, physOf_tableEntry huser hnew⟩
  by_contra hhuge
  have hd := (hok.huge (by simpa using hhuge)).1
  omega

theorem tableEntry_lt (huser : user = 0 ∨ user = pteUser) (hnew : new < 2 ^ 32) :
    tableEntry new user < 2 ^ 64 := by
  have hphys : framePhys new < 2 ^ 64 := by
    rw [framePhys_eq]
    omega
  have hlt : user < 2 ^ 64 := by
    rcases huser with rfl | rfl
    · decide
    · decide
  exact Nat.or_lt_two_pow (Nat.or_lt_two_pow (Nat.or_lt_two_pow hphys (by decide)) (by decide)) hlt

end TableEntry

theorem testBit_or_user {e i : Nat} (hi : i ≠ 2) : (e ||| pteUser).testBit i = e.testBit i := by
  rw [Nat.testBit_or, pteUser, Nat.one_shiftLeft, Nat.testBit_two_pow]
  simp [hi.symm]

theorem childOf_or_user (e : Nat) : childOf (e ||| pteUser) = childOf e := by
  have hphys : physOf (e ||| pteUser) = physOf e := by
    rw [physOf_eq, physOf_eq, or_div_two_pow (by decide)]
  rw [childOf, childOf, testBit_or_user (by decide), testBit_or_user (by decide), hphys]

/-! ## Entries for pages -/

/-- The entry written for a page. -/
def pageEntry (pa : Nat) (flags : Flags) : Nat := pa ||| flags.bits ||| ptePresent

section PageEntry

variable {pa n : Nat} {flags : Flags}

theorem testBit_pageEntry {i : Nat} :
    (pageEntry pa flags).testBit i = (pa.testBit i || flags.bits.testBit i || decide (i = 0)) := by
  rw [pageEntry, Nat.testBit_or, Nat.testBit_or]
  congr 1
  rw [ptePresent, Nat.one_shiftLeft, Nat.testBit_two_pow]
  simp [eq_comm]

theorem pageEntry_present : (pageEntry pa flags).testBit 0 = true := by
  rw [testBit_pageEntry]
  simp

/-- Below bit 12 and from bit 44 on, a page's entry is its flags. -/
theorem testBit_pageEntry_flag {i : Nat} (hpa : pa % frameSize = 0) (hlt : pa < 2 ^ 44)
    (hi : i < 12 ∨ 44 ≤ i) (h0 : i ≠ 0) :
    (pageEntry pa flags).testBit i = flags.bits.testBit i := by
  have haddr : pa.testBit i = false := by
    rcases hi with hi | hi
    · obtain ⟨k, rfl⟩ := Nat.dvd_of_mod_eq_zero hpa
      rw [Nat.mul_comm]
      exact testBit_mul_of_lt (k := 12) hi
    · exact Nat.testBit_lt_two_pow (lt_of_lt_of_le hlt (Nat.pow_le_pow_right (by decide) hi))
  rw [testBit_pageEntry, haddr]
  simp [h0]

theorem flags_testBit {i : Nat} (hi : 12 ≤ i) (hi' : i < 63) : flags.bits.testBit i = false := by
  by_contra hbit
  have := flags.known i (by simpa using hbit)
  omega

theorem pageEntry_and_field {k : Nat} (hpa : pa % frameSize = 0) (hk : 12 + k ≤ 63) :
    pageEntry pa flags &&& (2 ^ k - 1) * 2 ^ 12 = pa % 2 ^ (12 + k) := by
  apply Nat.eq_of_testBit_eq
  intro i
  rw [Nat.testBit_and, testBit_pageEntry, Nat.testBit_mul_two_pow,
    Nat.testBit_two_pow_sub_one, Nat.testBit_mod_two_pow]
  by_cases hlow : i < 12
  · have haddr : pa.testBit i = false := by
      obtain ⟨k, rfl⟩ := Nat.dvd_of_mod_eq_zero hpa
      rw [Nat.mul_comm]
      exact testBit_mul_of_lt (k := 12) hlow
    simp [haddr, show ¬ 12 ≤ i by omega]
  · by_cases hhigh : i < 12 + k
    · rw [flags_testBit (by omega) (by omega)]
      simp [hhigh, show 12 ≤ i by omega, show i - 12 < k by omega, show i ≠ 0 by omega]
    · simp [hhigh, show ¬ i - 12 < k by omega]

/-- **What the 4 KiB mask reads back**: the low 36 bits of the address. -/
theorem pageEntry_and_mask (hpa : pa % frameSize = 0) :
    pageEntry pa flags &&& addrMask4k = pa % 2 ^ 36 := by
  rw [show addrMask4k = (2 ^ 24 - 1) * 2 ^ 12 by decide]
  exact pageEntry_and_field hpa (by decide)

theorem flags_lt (flags : Flags) : flags.bits < 2 ^ 64 := by
  refine Nat.lt_pow_two_of_testBit _ fun i hi => ?_
  by_contra hbit
  have := flags.known i (by simpa using hbit)
  omega

theorem pageEntry_lt (hlt : pa < 2 ^ 44) : pageEntry pa flags < 2 ^ 64 :=
  Nat.or_lt_two_pow (Nat.or_lt_two_pow (by omega) (flags_lt flags)) (by decide)

theorem leafOk_pageEntry (hpa : pa % frameSize = 0) (hlt : pa < n * frameSize) :
    LeafOk n (pageEntry pa flags) :=
  ⟨pa, flags, rfl, hpa, hlt⟩

end PageEntry

/-! ## Tables in memory -/

namespace Machine

/-- Entry `i` of table `t`. -/
def entries (s : Machine) (t i : Nat) : Nat := if i < tableEntries then s.readEntry t i else 0

variable {s s' : Machine} {t u i v : Nat}

theorem entries_of_lt (hi : i < 512) : s.entries t i = s.readEntry t i := if_pos hi

theorem entries_lt (s : Machine) (t i : Nat) : s.entries t i < 2 ^ 64 := by
  unfold entries
  split_ifs
  · exact lt_of_lt_of_eq (ByteMem.load_lt _ _ 8) (by norm_num)
  · decide

theorem entries_congr (h : ∀ b, b / frameSize = t → s'.mem b = s.mem b) :
    s'.entries t = s.entries t := by
  funext i
  unfold entries
  split_ifs with hi
  · refine ByteMem.load_congr fun b hb hb' => h b ?_
    simp only [tableEntries, framePhys, frameSize] at hi hb hb' ⊢
    omega
  · rfl

theorem entries_writeEntry (hi : i < 512) (hv : v < 2 ^ 64) :
    (s.writeEntry t i v).entries = setSlot s.entries t i v := by
  funext u j
  by_cases hslot : u = t ∧ j = i
  · obtain ⟨rfl, rfl⟩ := hslot
    rw [setSlot_self, entries_of_lt hi]
    exact ByteMem.load_store_same_of_lt (by omega)
  · rw [setSlot_of_ne (by tauto), entries, entries]
    split_ifs with hj
    · refine ByteMem.load_store_of_disjoint ?_
      simp only [tableEntries, framePhys, frameSize] at hj ⊢
      omega
    · rfl

theorem entries_zeroTable_self : (s.zeroTable t).entries t = fun _ => 0 := by
  funext i
  unfold entries
  split_ifs with hi
  · refine ByteMem.load_fill_zero ?_ ?_
    · omega
    · simp only [tableEntries, frameSize] at hi ⊢
      omega
  · rfl

theorem entries_zeroTable_of_ne (h : u ≠ t) : (s.zeroTable t).entries u = s.entries u := by
  refine entries_congr fun b hb => ByteMem.fill_of_not_mem ?_
  simp only [framePhys, frameSize] at hb ⊢
  omega

end Machine

end Rolnix
