import Mathlib.Data.List.Nodup
import Mathlib.Data.List.Perm.Subperm
import Mathlib.Logic.Function.Iterate

/-!
# Singly linked lists

A linked list is a `next` function, a head and a terminator. `Seg next h l t` says that
following `next` from `h` visits exactly the nodes `l` and then arrives at `t`; a list that
ends in the terminator `stop` is a `Chain`. Cells may be stored anywhere: only the `next`
function is mentioned.

* `Chain.unique`, `Chain.nodup`: the nodes are determined by the head, and none is repeated.
* `Seg.congr`: a segment reads the `next` of its own nodes only.
* `chain_push`, `Chain.pop`, `chain_splice`: the edits an allocator makes.
* `collect`: the walk, executable, which finds the nodes of every chain.
* `scan`, `Chain.scan_eq`: the search loop that carries a previous node along, and where it stops.
* `relinked`, `chain_relinked`: writing the link out of the previous node, or the head if there is
  none.
-/

namespace Linked

variable {α : Type*} {next next' : α → α} {h t u a stop : α} {l l' l₁ l₂ : List α}

/-- Following `next` from `h` visits `l`, in order, and arrives at `t`. -/
def Seg (next : α → α) : α → List α → α → Prop
  | h, [], t => h = t
  | h, a :: l, t => h = a ∧ Seg next (next a) l t

@[simp] theorem seg_nil : Seg next h [] t ↔ h = t := Iff.rfl

@[simp] theorem seg_cons : Seg next h (a :: l) t ↔ h = a ∧ Seg next (next a) l t := Iff.rfl

theorem seg_append : Seg next h (l₁ ++ l₂) t ↔ ∃ u, Seg next h l₁ u ∧ Seg next u l₂ t := by
  induction l₁ generalizing h with
  | nil => simp
  | cons a l₁ ih => simp [ih, and_assoc]

theorem Seg.congr (hs : Seg next h l t) (heq : ∀ a ∈ l, next' a = next a) :
    Seg next' h l t := by
  induction l generalizing h with
  | nil => exact hs
  | cons a l ih =>
      refine ⟨hs.1, ?_⟩
      rw [heq a List.mem_cons_self]
      exact ih hs.2 fun b hb => heq b (List.mem_cons_of_mem a hb)

/-- The node `n` steps from the head, and where a segment of that length arrives. -/
theorem Seg.iterate (hs : Seg next h l t) : next^[l.length] h = t := by
  induction l generalizing h with
  | nil => exact hs
  | cons a l ih =>
      rw [List.length_cons, Function.iterate_succ_apply, hs.1]
      exact ih hs.2

/-- A list that ends in the terminator `stop`. -/
structure Chain (next : α → α) (stop h : α) (l : List α) : Prop where
  seg : Seg next h l stop
  stop_notMem : stop ∉ l

theorem chain_nil : Chain next stop stop [] := ⟨rfl, by simp⟩

theorem chain_cons_iff :
    Chain next stop h (a :: l) ↔ h = a ∧ a ≠ stop ∧ Chain next stop (next a) l := by
  constructor
  · intro hc
    have hne : stop ≠ a ∧ stop ∉ l := by simpa using hc.stop_notMem
    exact ⟨hc.seg.1, hne.1.symm, hc.seg.2, hne.2⟩
  · rintro ⟨rfl, hne, hc⟩
    refine ⟨⟨rfl, hc.seg⟩, ?_⟩
    simp only [List.mem_cons, not_or]
    exact ⟨hne.symm, hc.stop_notMem⟩

theorem Chain.congr (hc : Chain next stop h l) (heq : ∀ a ∈ l, next' a = next a) :
    Chain next' stop h l :=
  ⟨hc.seg.congr heq, hc.stop_notMem⟩

theorem Chain.eq_nil_iff (hc : Chain next stop h l) : l = [] ↔ h = stop := by
  cases l with
  | nil => simpa using hc.seg
  | cons a l =>
      obtain ⟨rfl, hne, -⟩ := chain_cons_iff.1 hc
      simp [hne]

/-- **The head determines the nodes.** -/
theorem Chain.unique (hc : Chain next stop h l) (hc' : Chain next stop h l') : l = l' := by
  induction l generalizing h l' with
  | nil => exact (hc'.eq_nil_iff.2 hc.seg).symm
  | cons a l ih =>
      obtain ⟨rfl, hne, hl⟩ := chain_cons_iff.1 hc
      cases l' with
      | nil => exact absurd hc'.seg hne
      | cons b l' =>
          obtain ⟨rfl, -, hl'⟩ := chain_cons_iff.1 hc'
          rw [ih hl hl']

theorem Chain.suffix (hc : Chain next stop h (l₁ ++ a :: l₂)) :
    Chain next stop a (a :: l₂) := by
  obtain ⟨u, -, hu⟩ := seg_append.1 hc.seg
  obtain rfl : u = a := hu.1
  exact ⟨hu, fun hmem => hc.stop_notMem (List.mem_append_right l₁ hmem)⟩

theorem Chain.drop (hc : Chain next stop h (l₁ ++ l₂)) : Chain next stop (l₂.headD stop) l₂ := by
  cases l₂ with
  | nil => exact chain_nil
  | cons a l₂ => exact hc.suffix

/-- **A chain is acyclic.** A repeated node would have two different tails. -/
theorem Chain.nodup (hc : Chain next stop h l) : l.Nodup := by
  induction l generalizing h with
  | nil => exact List.nodup_nil
  | cons a l ih =>
      obtain ⟨rfl, hne, hl⟩ := chain_cons_iff.1 hc
      refine List.nodup_cons.2 ⟨fun hmem => ?_, ih hl⟩
      obtain ⟨p, q, rfl⟩ := List.append_of_mem hmem
      have heq := hl.suffix.unique hc
      have hlen := congrArg List.length heq
      simp at hlen
      omega

/-! ## Edits -/

theorem Chain.pop (hc : Chain next stop h l) (hne : h ≠ stop) :
    ∃ l', l = h :: l' ∧ Chain next stop (next h) l' := by
  cases l with
  | nil => exact absurd hc.seg hne
  | cons a l' =>
      obtain ⟨rfl, -, hl⟩ := chain_cons_iff.1 hc
      exact ⟨l', rfl, hl⟩

theorem chain_relink {x : α} (hs : Seg next h l₁ t) (hstop : stop ∉ l₁)
    (hkeep : ∀ a ∈ l₁.dropLast, next' a = next a) (hlast : ∀ a ∈ l₁.getLast?, next' a = x)
    (hc : Chain next' stop x l₂) : Chain next' stop (if l₁ = [] then x else h) (l₁ ++ l₂) := by
  induction l₁ generalizing h with
  | nil => simpa using hc
  | cons a l ih =>
      have hne : stop ≠ a ∧ stop ∉ l := by simpa using hstop
      refine chain_cons_iff.2 ⟨hs.1, hne.1.symm, ?_⟩
      cases l with
      | nil =>
          rw [hlast a rfl]
          exact hc
      | cons b l =>
          have htail := ih hs.2 hne.2 (fun c hc => hkeep c (List.mem_cons_of_mem a hc)) hlast
          rwa [if_neg (by simp), ← hkeep a List.mem_cons_self] at htail

variable [DecidableEq α]

theorem Chain.update (hc : Chain next stop h l) (ha : a ∉ l) (u : α) :
    Chain (Function.update next a u) stop h l := by
  refine hc.congr fun b hb => ?_
  rw [Function.update_of_ne (fun hba : b = a => ha (hba ▸ hb))]

theorem chain_push (hc : Chain next stop h l) (ha : a ∉ l) (hne : a ≠ stop) :
    Chain (Function.update next a h) stop a (a :: l) := by
  refine chain_cons_iff.2 ⟨rfl, hne, ?_⟩
  rw [Function.update_self]
  exact hc.update ha h

theorem Seg.redirect (hs : Seg next h (l ++ [a]) t) (ha : a ∉ l) (u : α) :
    Seg (Function.update next a u) h (l ++ [a]) u := by
  obtain ⟨v, hl, hv⟩ := seg_append.1 hs
  refine seg_append.2 ⟨v, ?_, ?_⟩
  · refine hl.congr fun b hb => ?_
    rw [Function.update_of_ne (fun hba : b = a => ha (hba ▸ hb))]
  · refine ⟨hv.1, ?_⟩
    rw [Function.update_self]
    rfl

/-- Write the link out of `prev`; there is none to write if `prev` is the terminator. -/
def relinked (next : α → α) (stop prev x : α) : α → α :=
  if prev = stop then next else Function.update next prev x

theorem relinked_of_ne {p x : α} (ha : a ≠ p) : relinked next stop p x a = next a := by
  unfold relinked
  split_ifs
  · rfl
  · rw [Function.update_of_ne ha]

omit [DecidableEq α] in
theorem getLastD_cases (l : List α) (d : α) : l = [] ∧ l.getLastD d = d ∨ l.getLastD d ∈ l := by
  obtain rfl | ⟨l, a, rfl⟩ := List.eq_nil_or_concat' l
  · exact Or.inl ⟨rfl, rfl⟩
  · rw [List.getLastD_concat]
    exact Or.inr (by simp)

theorem relinked_of_notMem {x : α} (ha : a ∉ l) :
    relinked next stop (l.getLastD stop) x a = next a := by
  rcases getLastD_cases l stop with ⟨-, hp⟩ | hp
  · rw [relinked, if_pos hp]
  · exact relinked_of_ne fun he => ha (he ▸ hp)

theorem chain_relinked {x : α} (hs : Seg next h l₁ t) (hstop : stop ∉ l₁) (hnd : l₁.Nodup)
    (hc : Chain (relinked next stop (l₁.getLastD stop) x) stop x l₂) :
    Chain (relinked next stop (l₁.getLastD stop) x) stop
      (if l₁.getLastD stop = stop then x else h) (l₁ ++ l₂) := by
  obtain rfl | ⟨l, a, rfl⟩ := List.eq_nil_or_concat' l₁
  · simpa using hc
  have hne : a ≠ stop := fun he => hstop (by simp [he])
  have hal : a ∉ l := fun hmem => (List.disjoint_of_nodup_append hnd) hmem (by simp)
  rw [List.getLastD_concat] at hc ⊢
  have hrelink := chain_relink (x := x) hs hstop ?_ ?_ hc
  · rw [if_neg hne]
    rwa [if_neg (by simp)] at hrelink
  · intro b hb
    rw [List.dropLast_concat] at hb
    exact relinked_of_ne fun he => hal (he ▸ hb)
  · intro b hb
    obtain rfl : a = b := by simpa using hb
    rw [relinked, if_neg hne, Function.update_self]

theorem chain_splice {g : α} (hs : Seg next g (l₁ ++ [a]) t) (hstop : stop ∉ l₁ ++ [a])
    (hnd : (l₁ ++ [a]).Nodup) (hc : Chain next stop h l₂) (ha : a ∉ l₂) :
    Chain (Function.update next a h) stop g (l₁ ++ [a] ++ l₂) := by
  have ha₁ : a ∉ l₁ := fun hmem => (List.disjoint_of_nodup_append hnd) hmem (by simp)
  refine ⟨seg_append.2 ⟨h, hs.redirect ha₁ h, (hc.update ha h).seg⟩, ?_⟩
  rw [List.mem_append, not_or]
  exact ⟨hstop, hc.stop_notMem⟩

/-! ## The walk -/

/-- Collect the nodes from `h` up to `stop`, in at most `fuel` steps. -/
def collect (next : α → α) (stop : α) : Nat → α → Option (List α)
  | 0, _ => none
  | fuel + 1, h =>
      if h = stop then some []
      else (collect next stop fuel (next h)).map (h :: ·)

theorem Chain.collect_eq (hc : Chain next stop h l) {fuel : Nat} (hf : l.length < fuel) :
    collect next stop fuel h = some l := by
  induction l generalizing h fuel with
  | nil =>
      obtain ⟨fuel, rfl⟩ := Nat.exists_eq_succ_of_ne_zero (Nat.ne_of_gt hf)
      rw [collect, if_pos (show h = stop from hc.seg)]
  | cons a l ih =>
      obtain ⟨fuel, rfl⟩ := Nat.exists_eq_succ_of_ne_zero (Nat.ne_of_gt (Nat.zero_lt_of_lt hf))
      obtain ⟨rfl, hne, hl⟩ := chain_cons_iff.1 hc
      rw [collect, if_neg hne, ih hl (by simpa using hf)]
      rfl

/-! ## Searching -/

/-- `while cur != stop && !found(cur) { prev = cur; cur = next(cur) }`, in at most `fuel` steps. -/
def scan (next : α → α) (stop : α) (found : α → Bool) : Nat → α → α → Option (α × α)
  | 0, _, _ => none
  | fuel + 1, prev, cur =>
      if cur = stop then some (prev, cur)
      else if found cur then some (prev, cur)
      else scan next stop found fuel cur (next cur)

theorem Chain.scan_eq (hc : Chain next stop h l) (found : α → Bool) {fuel : Nat} (p : α)
    (hf : l.length < fuel) :
    ∃ l₁ l₂, l = l₁ ++ l₂ ∧ (∀ a ∈ l₁, found a = false) ∧ (∀ a ∈ l₂.head?, found a = true) ∧
      scan next stop found fuel p h = some (l₁.getLastD p, l₂.headD stop) := by
  induction l generalizing h fuel p with
  | nil =>
      obtain ⟨fuel, rfl⟩ := Nat.exists_eq_succ_of_ne_zero (Nat.ne_of_gt hf)
      refine ⟨[], [], rfl, by simp, by simp, ?_⟩
      rw [scan, if_pos (show h = stop from hc.seg), show h = stop from hc.seg]
      rfl
  | cons a l ih =>
      obtain ⟨fuel, rfl⟩ := Nat.exists_eq_succ_of_ne_zero (Nat.ne_of_gt (Nat.zero_lt_of_lt hf))
      obtain ⟨rfl, hne, hl⟩ := chain_cons_iff.1 hc
      rw [scan, if_neg hne]
      by_cases hfound : found h = true
      · exact ⟨[], h :: l, rfl, by simp, by simpa using hfound, by rw [if_pos hfound]; rfl⟩
      · obtain ⟨l₁, l₂, rfl, hl₁, hl₂, hscan⟩ := ih hl h (by simpa using hf)
        refine ⟨h :: l₁, l₂, rfl, ?_, hl₂, ?_⟩
        · intro a ha
          rcases List.mem_cons.1 ha with rfl | ha
          · simpa using hfound
          · exact hl₁ a ha
        · rw [if_neg hfound, hscan, List.getLastD_cons]

/-- The search from `h` looks at the node `a`. -/
inductive Visits (next : α → α) (stop : α) (found : α → Bool) : α → α → Prop
  | here {h : α} (hne : h ≠ stop) : Visits next stop found h h
  | there {h a : α} (hne : h ≠ stop) (hmiss : found h = false)
      (hrest : Visits next stop found (next h) a) : Visits next stop found h a

omit [DecidableEq α] in
theorem Chain.visits_iff {found : α → Bool} (hc : Chain next stop h (l₁ ++ l₂))
    (hl₁ : ∀ a ∈ l₁, found a = false) (hl₂ : ∀ a ∈ l₂.head?, found a = true) :
    Visits next stop found h a ↔ a ∈ l₁ ∨ a ∈ l₂.head? := by
  induction l₁ generalizing h with
  | nil =>
      cases l₂ with
      | nil =>
          have hend : h = stop := hc.seg
          constructor
          · intro hv
            cases hv with
            | here hne => exact absurd hend hne
            | there hne => exact absurd hend hne
          · simp
      | cons b l =>
          obtain ⟨rfl, hne, -⟩ := chain_cons_iff.1 hc
          have hfound : found h = true := hl₂ h rfl
          constructor
          · intro hv
            cases hv with
            | here => exact Or.inr rfl
            | there _ hmiss => rw [hfound] at hmiss; cases hmiss
          · intro ha
            obtain rfl : h = a := by simpa using ha
            exact .here hne
  | cons b l ih =>
      obtain ⟨rfl, hne, hrest⟩ := chain_cons_iff.1 hc
      have hmiss : found h = false := hl₁ h List.mem_cons_self
      rw [List.mem_cons, or_assoc, ← ih hrest fun a ha => hl₁ a (List.mem_cons_of_mem h ha)]
      constructor
      · intro hv
        cases hv with
        | here => exact Or.inl rfl
        | there _ _ hrest => exact Or.inr hrest
      · rintro (rfl | hv)
        · exact .here hne
        · exact .there hne hmiss hv

theorem Chain.length_lt {next : Nat → Nat} {stop h : Nat} {l : List Nat}
    (hc : Chain next stop h l) {B : Nat} (hstop : stop < B) (hl : ∀ a ∈ l, a < B) :
    l.length < B := by
  have hnodup : (stop :: l).Nodup := List.nodup_cons.2 ⟨hc.stop_notMem, hc.nodup⟩
  have hsub : stop :: l ⊆ List.range B := by
    intro a ha
    rw [List.mem_range]
    rcases List.mem_cons.1 ha with rfl | ha
    · exact hstop
    · exact hl a ha
  have hlen := (hnodup.subperm hsub).length_le
  simp only [List.length_cons, List.length_range] at hlen
  omega

end Linked
