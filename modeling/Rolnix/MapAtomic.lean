import Rolnix.Rights

/-!
# Failed calls of `map` and `unmap`

`map` changes the tables before it knows whether it succeeds: level by level it hangs in new tables
and promotes entries to USER, and at any level it can find a page in the way or the pool empty.
`unmap` fails before its first write.

`failed_calls_invisible`: an error leaves every address with its translation and its rights, and all
counts as they were. The frames that left the pool are page tables. Each is linked from the table
above it, on the way to the page, and all its entries are zero but the link to the next one, so that
a later `map` finds it and none is leaked.

The descent is followed twice, by induction on its levels: `descend_entries` says what it does to the
frames in use, and `descend_linked` what became of the frames it took.
-/

namespace Rolnix

open Radix Relation

namespace Machine

variable {s s' s₁ s₂ : Machine} {root t i new user va pa : Nat} {flags : Flags} {q : List Nat}
  {levels : List Nat} {r : Except MapError Nat}

/-- The rights on `va`. An address that is not mapped has none. -/
def permissions (s : Machine) (root va : Nat) : Option Rights :=
  (lookup s.entries root (path va)).map fun _ => s.effective root va

/-- A frame that was free and is not any more. -/
def LeftPool (s s' : Machine) (f : Nat) : Prop :=
  (s.frames f).owner = .free ∧ (s'.frames f).owner ≠ .free

instance (s s' : Machine) (f : Nat) : Decidable (LeftPool s s' f) :=
  inferInstanceAs (Decidable (_ ∧ _))

/-- A page table made on the way along `p`: its entry in the table above leads to it, and no slot of
its own is set but the one that leads to the next table that was made. -/
def LinkedTable (root user : Nat) (p : List Nat) (s s' : Machine) (f : Nat) : Prop :=
  ∃ q t i, q ++ [i] <+: p ∧ walk childOf s'.entries root q = some t ∧
    s'.entries t i = tableEntry f user ∧ walk childOf s'.entries root (q ++ [i]) = some f ∧
    ∀ j, s'.entries f j = 0 ∨
      q ++ [i] ++ [j] <+: p ∧ ∃ g, LeftPool s s' g ∧ s'.entries f j = tableEntry g user

/-! ## The loop, from the table it is at -/

/-- The loop is at the table `t` at the end of `q`. -/
structure At (user root : Nat) (q : List Nat) (t : Nat) (s : Machine) : Prop where
  inv : VmInv s root
  table : walk childOf s.entries root q = some t
  user : user ≠ 0 → UserPath s.entries root q

theorem VmInv.at_root (h : VmInv s root) (user : Nat) : At user root [] root s :=
  ⟨h, rfl, fun _ r u j hpre => by simp at hpre⟩

theorem At.promoted (h : At user root q t s) (hq : q.length ≤ 2) (hi : i < 512)
    (hpres : (s.entries t i).testBit 0 = true) (hsmall : (s.entries t i).testBit 7 = false)
    (huser : user = 0 ∨ user = pteUser)
    (hs₁ : (if user ≠ 0 then s.writeEntry t i (s.entries t i ||| user) else s) = s₁) :
    At user root (q ++ [i]) (physOf (s₁.entries t i)) s₁ := by
  obtain ⟨hinv, -, hext, -, -, hw, hbit, -⟩ := h.inv.promote hq h.table hi hpres hsmall huser hs₁
  refine ⟨hinv, hw, fun hu => ?_⟩
  exact userPath_snoc (hext.user q t (by omega) h.table (h.user hu))
    (hext.tables q t (by omega) h.table) (hbit hu)

theorem At.added (h : At user root q t s) (hq : q.length ≤ 2) (hi : i < 512)
    (habsent : (s.entries t i).testBit 0 = false) (huser : user = 0 ∨ user = pteUser)
    (hcoh : s₁.IsCoherent) (ha : Allocates s (some new) s₁)
    (hs₂ : (s₁.zeroTable new).writeEntry t i (tableEntry new user) = s₂) :
    At user root (q ++ [i]) new s₂ := by
  obtain ⟨hinv, -, hext, -, hw, hentry⟩ := h.inv.addTable hq h.table hi habsent huser hcoh ha hs₂
  refine ⟨hinv, hw, fun hu => ?_⟩
  exact userPath_snoc (hext.user q t (by omega) h.table (h.user hu))
    (hext.tables q t (by omega) h.table)
    (by rw [hentry]; exact tableEntry_user (huser.resolve_left hu))

/-! ## Entries of frames in use -/

theorem Allocates.entries {a : Option Nat} {u : Nat} (ha : Allocates s a s')
    (hu : (s.frames u).owner ≠ .free) : s'.entries u = s.entries u := by
  refine entries_congr fun b hb => ha.mem b ?_
  rw [hb]
  exact hu

theorem entries_promoted {u j : Nat} (hi : i < 512) (huser : user = 0 ∨ user = pteUser)
    (hs₁ : (if user ≠ 0 then s.writeEntry t i (s.entries t i ||| user) else s) = s₁)
    (hne : u ≠ t ∨ j ≠ i) : s₁.entries u j = s.entries u j := by
  rw [← hs₁]
  split_ifs with hu
  · have hlt : s.entries t i ||| user < 2 ^ 64 := by
      rw [huser.resolve_left hu]
      exact Nat.or_lt_two_pow (entries_lt s t i) (by decide)
    rw [entries_writeEntry hi hlt, setSlot_of_ne hne]
  · rfl

theorem frames_promoted (hs₁ : (if user ≠ 0 then s.writeEntry t i (s.entries t i ||| user) else s) = s₁) :
    s₁.frames = s.frames := by
  rw [← hs₁]
  split_ifs <;> rfl

/-- A table added: entries of frames in use, but the one that was set. -/
theorem entries_added {u j : Nat} (hi : i < 512) (huser : user = 0 ∨ user = pteUser)
    (hnew : new < 2 ^ 32) (ha : Allocates s (some new) s₁)
    (hs₂ : (s₁.zeroTable new).writeEntry t i (tableEntry new user) = s₂)
    (hu : (s.frames u).owner ≠ .free) (hne : u ≠ t ∨ j ≠ i) :
    s₂.entries u j = s.entries u j := by
  have hun : u ≠ new := by
    rintro rfl
    exact hu (ha.some u rfl).2.1
  rw [← hs₂, entries_writeEntry hi (tableEntry_lt huser hnew), setSlot_of_ne hne,
    entries_zeroTable_of_ne hun, ha.entries hu]

theorem entries_added_self {j : Nat} (hi : i < 512) (huser : user = 0 ∨ user = pteUser)
    (hnew : new < 2 ^ 32) (ht : new ≠ t)
    (hs₂ : (s₁.zeroTable new).writeEntry t i (tableEntry new user) = s₂) :
    s₂.entries new j = 0 := by
  rw [← hs₂, entries_writeEntry hi (tableEntry_lt huser hnew), setSlot_of_ne (Or.inl ht),
    entries_zeroTable_self]

/-- **What the descent does to the frames in use.** It sets entries on the way down only, and one
that was empty leads to a frame it took from the pool. -/
theorem descend_entries (va : Nat) (levels : List Nat) (h : At user root q t s)
    (hlen : q.length + levels.length ≤ 3) (huser : user = 0 ∨ user = pteUser)
    (hrun : descend va user levels t s = some (r, s')) {u j : Nat}
    (hu : (s.frames u).owner ≠ .free) :
    s'.entries u j = s.entries u j ∨
      ∃ p, q <+: p ∧ p ++ [j] <+: q ++ levels.map (index va) ∧
        walk childOf s.entries root p = some u ∧
        ((s.entries u j).testBit 0 = false →
          ∃ f, LeftPool s s' f ∧ s'.entries u j = tableEntry f user) := by
  induction levels generalizing q t s with
  | nil =>
      obtain ⟨-, rfl⟩ := Prod.mk.inj (Option.some.inj hrun)
      exact Or.inl rfl
  | cons level levels ih =>
      rw [List.length_cons] at hlen
      have hi := index_lt va level
      have hq : q.length ≤ 2 := by omega
      have hlen' : (q ++ [index va level]).length + levels.length ≤ 3 := by simp; omega
      have hpath : q ++ (level :: levels).map (index va) =
          q ++ [index va level] ++ levels.map (index va) := by simp
      have hslot : q ++ [index va level] <+: q ++ (level :: levels).map (index va) := by
        rw [hpath]
        exact List.prefix_append _ _
      cases iteration_of_descend h.inv.coherent hrun with
      | huge hpres hhuge hr hs =>
          rw [hs]
          exact Or.inl rfl
      | dry habsent hr hcoh ha hsupply =>
          rw [ha.entries hu]
          exact Or.inl rfl
      | promoted s₁ hpres hsmall hs₁ hrest =>
          have hframes := frames_promoted hs₁
          obtain ⟨-, -, -, -, hwalk, -⟩ := h.inv.promote hq h.table hi hpres hsmall huser hs₁
          by_cases hslot' : u = t ∧ j = index va level
          · obtain ⟨rfl, rfl⟩ := hslot'
            refine Or.inr ⟨q, List.prefix_rfl, hslot, h.table, fun habsent => ?_⟩
            rw [hpres] at habsent
            exact absurd habsent (by simp)
          · have hsame : s₁.entries u j = s.entries u j :=
              entries_promoted hi huser hs₁ (not_and_or.1 hslot')
            rcases ih (h.promoted hq hi hpres hsmall huser hs₁) hlen' hrest (hframes ▸ hu) with
              he | ⟨p, hqp, hp, hpw, hnew⟩
            · exact Or.inl (he.trans hsame)
            · refine Or.inr ⟨p, (List.prefix_append _ _).trans hqp, hpath ▸ hp, ?_, ?_⟩
              · rw [← hwalk, hpw]
              · intro habsent
                obtain ⟨f, hf, he⟩ := hnew (by rw [hsame]; exact habsent)
                exact ⟨f, ⟨hframes ▸ hf.1, hf.2⟩, he⟩
      | added new s₁ s₂ habsent hcoh ha hs₂ hsupply hrest =>
          obtain ⟨hlt, hfree, hframes⟩ := ha.some new rfl
          have hnew := h.inv.frame_lt hlt
          obtain ⟨-, hgrows, -, honly, hw₂, hentry⟩ :=
            h.inv.addTable hq h.table hi habsent huser hcoh ha hs₂
          have hat := h.added hq hi habsent huser hcoh ha hs₂
          have hd := descended_of_run hat.inv hat.table hlen' huser hat.user hrest
          rcases ih hat hlen' hrest (hgrows.not_free hu) with he | ⟨p, hqp, hp, hpw, -⟩
          · by_cases hslot' : u = t ∧ j = index va level
            · obtain ⟨rfl, rfl⟩ := hslot'
              refine Or.inr ⟨q, List.prefix_rfl, hslot, h.table, fun _ => ⟨new, ⟨hfree, ?_⟩, ?_⟩⟩
              · exact hd.grows.not_free (hat.inv.isTable ⟨_, by simp; omega, hw₂⟩).not_free
              · rw [he, hentry]
            · exact Or.inl (he.trans
                (entries_added hi huser hnew ha hs₂ hu (not_and_or.1 hslot')))
          · -- only the new table is below the slot
            exfalso
            have hp3 : p.length ≤ 3 := by
              have := hp.length_le
              simp only [List.length_append, List.length_singleton, List.length_map] at this
              omega
            by_cases hpq : p = q ++ [index va level]
            · rw [hpq, hw₂] at hpw
              exact hu (Option.some.inj hpw ▸ hfree)
            · rw [honly p hp3 hpq] at hpw
              obtain ⟨x, hx⟩ := walk_upto hqp hpw
              rw [walk_snoc, h.table, Option.bind_some, childOf_eq_none.2 (Or.inl habsent)] at hx
              cases hx

/-! ## The frames taken -/

theorem LinkedTable.mono {p : List Nat} {f : Nat} (hpool : ∀ g, LeftPool s₁ s' g → LeftPool s s' g)
    (h : LinkedTable root user p s₁ s' f) : LinkedTable root user p s s' f := by
  obtain ⟨q, t, i, hp, hw, hentry, hwf, hslots⟩ := h
  refine ⟨q, t, i, hp, hw, hentry, hwf, fun j => ?_⟩
  rcases hslots j with hzero | ⟨hj, g, hg, he⟩
  · exact Or.inl hzero
  · exact Or.inr ⟨hj, g, hpool g hg, he⟩

/-- **The frames the descent takes are linked tables.** -/
theorem descend_linked (va : Nat) (levels : List Nat) (h : At user root q t s)
    (hlen : q.length + levels.length ≤ 3) (huser : user = 0 ∨ user = pteUser)
    (hrun : descend va user levels t s = some (r, s')) {f : Nat} (hf : LeftPool s s' f) :
    LinkedTable root user (q ++ levels.map (index va)) s s' f := by
  induction levels generalizing q t s with
  | nil =>
      obtain ⟨-, rfl⟩ := Prod.mk.inj (Option.some.inj hrun)
      exact absurd hf.1 hf.2
  | cons level levels ih =>
      rw [List.length_cons] at hlen
      have hi := index_lt va level
      have hq : q.length ≤ 2 := by omega
      have hlen' : (q ++ [index va level]).length + levels.length ≤ 3 := by simp; omega
      have hpath : q ++ (level :: levels).map (index va) =
          q ++ [index va level] ++ levels.map (index va) := by simp
      rw [hpath]
      cases iteration_of_descend h.inv.coherent hrun with
      | huge hpres hhuge hr hs =>
          rw [hs] at hf
          exact absurd hf.1 hf.2
      | dry habsent hr hcoh ha hsupply =>
          rw [LeftPool, ha.none rfl] at hf
          exact absurd hf.1 hf.2
      | promoted s₁ hpres hsmall hs₁ hrest =>
          have hpool : ∀ g, LeftPool s₁ s' g ↔ LeftPool s s' g := by
            intro g
            rw [LeftPool, frames_promoted hs₁, LeftPool]
          exact (ih (h.promoted hq hi hpres hsmall huser hs₁) hlen' hrest ((hpool f).2 hf)).mono
            fun g => (hpool g).1
      | added new s₁ s₂ habsent hcoh ha hs₂ hsupply hrest =>
          obtain ⟨hlt, hfree, hframes⟩ := ha.some new rfl
          have hnew := h.inv.frame_lt hlt
          obtain ⟨-, hgrows, hext, -, hw₂, hentry⟩ :=
            h.inv.addTable hq h.table hi habsent huser hcoh ha hs₂
          have hat := h.added hq hi habsent huser hcoh ha hs₂
          have hd := descended_of_run hat.inv hat.table hlen' huser hat.user hrest
          have hpool : ∀ g, LeftPool s₂ s' g → LeftPool s s' g := by
            intro g hg
            refine ⟨?_, hg.2⟩
            by_contra hused
            exact hgrows.not_free hused hg.1
          by_cases hfn : f = new
          · -- the table of this level
            subst hfn
            have hwt : walk childOf s₂.entries root q = some t :=
              hext.tables q t (by omega) h.table
            have hlen₁ : (q ++ [index va level]).length ≤ 3 := by simp; omega
            have hold : InTree s.entries root t := ⟨q, by omega, h.table⟩
            have hlen₃ : ∀ p k, p ++ [k] <+: q ++ [index va level] ++ levels.map (index va) →
                p.length ≤ 3 := by
              intro p k hp
              have := hp.length_le
              simp only [List.length_append, List.length_singleton, List.length_map] at this
              omega
            refine ⟨q, t, index va level, List.prefix_append _ _, hd.ext.tables q t (by omega) hwt,
              ?_, hd.ext.tables _ _ hlen₁ hw₂, fun j => ?_⟩
            · -- the levels below do not come back to the table above
              rcases descend_entries va levels hat hlen' huser hrest
                (hgrows.not_free (h.inv.isTable hold).not_free) with he | ⟨p, hqp, hp, hpw, -⟩
              · rw [he, hentry]
              · have hpq := hat.inv.tree.noSharing p q t (hlen₃ p _ hp) (by omega) hpw hwt
                have hle := hqp.length_le
                rw [hpq, List.length_append, List.length_singleton] at hle
                omega
            · have hne : f ≠ t := by
                rintro rfl
                exact (h.inv.isTable hold).not_free hfree
              have hzero : s₂.entries f j = 0 := entries_added_self hi huser hnew hne hs₂
              rcases descend_entries va levels hat hlen' huser hrest
                (hat.inv.isTable ⟨_, hlen₁, hw₂⟩).not_free with he | ⟨p, -, hp, hpw, hlink⟩
              · exact Or.inl (he.trans hzero)
              · have hpq := hat.inv.tree.noSharing p _ f (hlen₃ p _ hp) hlen₁ hpw hw₂
                obtain ⟨g, hg, he⟩ := hlink (by rw [hzero]; rfl)
                exact Or.inr ⟨hpq ▸ hp, g, hpool g hg, he⟩
          · refine (ih hat hlen' hrest ⟨?_, hf.2⟩).mono hpool
            rw [← hs₂]
            show (s₁.frames f).owner = .free
            rw [hframes, Function.update_of_ne hfn]
            exact hf.1

/-! ## Errors -/

/-- Nothing that can be observed of the address space or of the counts changed, and every frame that
left the pool is a table on the way to `va`. -/
structure Invisible (root va user : Nat) (s s' : Machine) : Prop where
  translate : ∀ w, s'.translate root w = s.translate root w
  permissions : ∀ w, s'.permissions root w = s.permissions root w
  mappings : ∀ f, (s'.frames f).mappings = (s.frames f).mappings
  pinned : ∀ f, (s'.frames f).pinned = (s.frames f).pinned
  /-- The free lists hold exactly the frames that are still free. -/
  pool : s'.IsCoherent
  tables : ∀ f, LeftPool s s' f → LinkedTable root user (upper va) s s' f

theorem Invisible.refl (va user : Nat) (h : VmInv s root) : Invisible root va user s s :=
  ⟨fun _ => rfl, fun _ => rfl, fun _ => rfl, fun _ => rfl, h.coherent,
    fun _ hf => absurd hf.1 hf.2⟩

theorem VmInv.translate_congr (h : VmInv s root) (h' : VmInv s' root)
    (hpages : ∀ p, p.length = 4 → lookup s'.entries root p = lookup s.entries root p) (w : Nat) :
    s'.translate root w = s.translate root w := by
  rw [h.translate_eq, h'.translate_eq, hpages (path w) (length_path w)]

theorem VmInv.permissions_congr (h : VmInv s root) (h' : VmInv s' root)
    (hpages : ∀ p, p.length = 4 → lookup s'.entries root p = lookup s.entries root p) (w : Nat) :
    s'.permissions root w = s.permissions root w := by
  have hpage := hpages (path w) (length_path w)
  rw [permissions, permissions, hpage]
  cases hw : lookup s.entries root (path w) with
  | none => rw [Option.map_none, Option.map_none]
  | some k =>
      rw [hw] at hpage
      rw [Option.map_some, Option.map_some, h.effective_eq hw, h'.effective_eq hpage]

/-- Once the arguments are accepted `map` descends. It writes nothing more if it fails. -/
theorem descend_of_map {r : Except MapError Unit} (hc : isCanonical va = true)
    (hal : ¬ (va % frameSize ≠ 0 ∨ pa % frameSize ≠ 0)) (hlt : ¬ pa ≥ s.totalFrames * frameSize)
    (hmap : s.map root va pa flags = some (r, s')) :
    ∃ r₁ s₁, descend va (flags.bits &&& pteUser) [3, 2, 1] root s = some (r₁, s₁) ∧
      (∀ e, r = .error e → s' = s₁) ∧ (r = .ok () → ∃ t, r₁ = .ok t) := by
  rw [map, PageMem.map, if_neg (by simp [hc]), if_neg hal] at hmap
  rw [if_neg (show ¬ pa ≥ FrameTable.totalFrames s * frameSize from hlt)] at hmap
  cases hd : descend va (flags.bits &&& pteUser) [3, 2, 1] root s with
  | none => simp [hd] at hmap
  | some x =>
      obtain ⟨r₁, s₁⟩ := x
      refine ⟨r₁, s₁, rfl, ?_⟩
      simp only [hd] at hmap
      cases r₁ with
      | error e =>
          obtain ⟨rfl, rfl⟩ := Prod.mk.inj (Option.some.inj hmap)
          exact ⟨fun _ _ => rfl, (by simp)⟩
      | ok t =>
          refine ⟨fun e he => ?_, fun _ => ⟨t, rfl⟩⟩
          simp only at hmap
          split_ifs at hmap with hpres
          · exact (Prod.mk.inj (Option.some.inj hmap)).2.symm
          · obtain ⟨x, -, hx⟩ := Option.map_eq_some_iff.1 hmap
            cases (Prod.mk.inj hx).1.trans he

/-- **A call of `map` that fails.** -/
theorem VmInv.map_error {e : MapError} (h : VmInv s root)
    (hmap : s.map root va pa flags = some (.error e, s')) :
    Invisible root va (flags.bits &&& pteUser) s s' := by
  by_cases hbad : ¬ isCanonical va = true ∨ (va % frameSize ≠ 0 ∨ pa % frameSize ≠ 0) ∨
      pa ≥ s.numFrames * frameSize
  · obtain ⟨e', he'⟩ : ∃ e', s.map root va pa flags = some (.error e', s) := map_of_bad hbad
    obtain ⟨-, rfl⟩ := Prod.mk.inj (Option.some.inj (hmap.symm.trans he'))
    exact Invisible.refl _ _ h
  · rw [not_or, not_not, not_or] at hbad
    obtain ⟨hc, hal, hlt⟩ := hbad
    obtain ⟨r, s₁, hrun, hs, -⟩ := descend_of_map hc hal hlt hmap
    obtain rfl := hs e rfl
    have huser := and_user_cases flags.bits
    have hat := h.at_root (flags.bits &&& pteUser)
    have hd := descended_of_run h rfl (by simp) huser hat.user hrun
    exact ⟨h.translate_congr hd.inv hd.ext.pages, h.permissions_congr hd.inv hd.ext.pages,
      hd.grows.mappings, hd.grows.pinned, hd.inv.coherent,
      fun f hf => descend_linked va [3, 2, 1] hat (by simp) huser hrun hf⟩

/-- **A call of `unmap` that fails.** -/
theorem VmInv.unmap_error {e : MapError} (h : VmInv s root)
    (hunmap : s.unmap root va = some (.error e, s')) : s' = s := by
  by_cases hbad : ¬ isCanonical va = true ∨ va % frameSize ≠ 0
  · obtain ⟨e', he'⟩ : ∃ e', s.unmap root va = some (.error e', s) := unmap_of_bad hbad
    exact (Prod.mk.inj (Option.some.inj (hunmap.symm.trans he'))).2
  · rw [not_or, not_not, not_not] at hbad
    obtain ⟨r, s₁, hrun, hu⟩ := unmap_spec h hbad.1 hbad.2
    obtain ⟨rfl, rfl⟩ := Prod.mk.inj (Option.some.inj (hunmap.symm.trans hrun))
    exact (hu.error e rfl).1

end Machine

open Machine

section Runs

variable {s₀ s : Machine} {root : Nat} {A : AddrSpace}

/-- **Failed calls are invisible.** In every state a run reaches, a call of `map` or `unmap` that
returns an error leaves all translations, rights and counts as they were, and the frames it took
from the pool are tables, linked on the way to the address. -/
theorem failed_calls_invisible (hnew : NewSpace root s₀)
    (hrun : ReflTransGen (VmStep root) (s₀, AddrSpace.empty) (s, A)) (va pa : Nat) (flags : Flags) :
    (∀ e s', s.map root va pa flags = some (.error e, s') →
      Invisible root va (flags.bits &&& pteUser) s s') ∧
    ∀ e s', s.unmap root va = some (.error e, s') → s' = s ∧ Invisible root va 0 s s' := by
  obtain ⟨W, h₀⟩ := hnew.holds
  obtain ⟨h, -⟩ := h₀.run hrun
  refine ⟨fun e s' hmap => h.inv.map_error hmap, fun e s' hunmap => ?_⟩
  have hs := h.inv.unmap_error hunmap
  refine ⟨hs, ?_⟩
  rw [hs]
  exact Invisible.refl _ _ h.inv

/-- Three frames in the pool, one taken for the root: `map` takes the other two and fails. -/
theorem failed_calls_invisible_small :
    ∃ root s s' f, NewSpace root s ∧
      s.map root 0x1000 0x100000 .user = some (.error .allocFailed, s') ∧ LeftPool s s' f ∧
      LinkedTable root pteUser (upper 0x1000) s s' f ∧
      s'.translate root 0x1000 = s.translate root 0x1000 := by
  have hrun : ((finish (pmmInit smallBoot [] [] 0) (reset fun _ => 0)).bind fun r =>
      r.2.newTable.bind fun t => t.1.bind fun root =>
        (t.2.map root 0x1000 0x100000 .user).map fun m =>
          (decide (m.1 = .error .allocFailed), decide (LeftPool t.2 m.2 0x103))) = some (true, true) := by
    decide +kernel
  obtain ⟨⟨⟨info, caps⟩, s₀⟩, hinit, hrun⟩ := Option.bind_eq_some_iff.1 hrun
  obtain ⟨⟨o, s⟩, hnew, hrun⟩ := Option.bind_eq_some_iff.1 hrun
  obtain ⟨root, rfl, hrun⟩ := Option.bind_eq_some_iff.1 hrun
  obtain ⟨⟨r, s'⟩, hmap, hrun⟩ := Option.map_eq_some_iff.1 hrun
  obtain ⟨hfail, hleft⟩ := Prod.mk.inj hrun
  have hr : r = .error .allocFailed := of_decide_eq_true hfail
  have hpool : LeftPool s s' 0x103 := of_decide_eq_true hleft
  subst hr
  have hspace : NewSpace root s := by
    refine ⟨s₀, ?_, Or.inl hnew⟩
    exact ⟨smallBoot, [], [], caps, 0, _, info, s₀, by decide,
      ⟨smallBoot_apart, returns_of_finish hinit⟩, ReflTransGen.refl⟩
  have h := (failed_calls_invisible hspace ReflTransGen.refl 0x1000 0x100000 .user).1 _ _ hmap
  exact ⟨root, s, s', 0x103, hspace, hmap, hpool, h.tables 0x103 hpool, h.translate 0x1000⟩

/-- **A failed call that is seen.** With the frame table in memory: the pool has two frames, the root of a
new table is one, and the other holds the end of the frame table. `map` makes a table of it before it
fails: the mapping count of frame 0x155 becomes zero, and an untyped frame reserved. -/
theorem failed_map_seen :
    ∃ info caps r root r₁ r₂, Returns (pmmInit (usableBoot [(0x100000, 0x1000), (0x102000, 0x3000),
        (0x103000, 0x1000), (0x17f000, 0x1000)]) [⟨0x17f000, 0x1000⟩] [.new 0 0 0] 0x1000)
        (Ram.reset fun _ => 0) (info, caps) r ∧
      PageMem.newTable r = some (some root, r₁) ∧
      PageMem.map r₁ root 0x1000 0x100000 .user = some (.error .allocFailed, r₂) ∧
      FrameTable.mappings r₁ 0x155 = some 0xffffffff ∧ FrameTable.mappings r₂ 0x155 = some 0 ∧
      FrameTable.ownerTag r₁ 0x17f = some .untyped ∧ FrameTable.ownerTag r₂ 0x17f = some .reserved := by
  have hobs : ((finish (pmmInit (usableBoot [(0x100000, 0x1000), (0x102000, 0x3000),
      (0x103000, 0x1000), (0x17f000, 0x1000)]) [⟨0x17f000, 0x1000⟩] [.new 0 0 0] 0x1000)
      (Ram.reset fun _ => 0)).bind fun x => (PageMem.newTable x.2).bind fun t => t.1.bind fun root =>
        (PageMem.map t.2 root 0x1000 0x100000 .user).map fun m =>
          decide (m.1 = .error .allocFailed ∧
            FrameTable.mappings t.2 0x155 = some 0xffffffff ∧ FrameTable.mappings m.2 0x155 = some 0 ∧
            FrameTable.ownerTag t.2 0x17f = some .untyped ∧
            FrameTable.ownerTag m.2 0x17f = some .reserved)) = some true := by
    decide +kernel
  obtain ⟨⟨⟨info, caps⟩, r⟩, hinit, hobs⟩ := Option.bind_eq_some_iff.1 hobs
  obtain ⟨⟨o, r₁⟩, hnew, hobs⟩ := Option.bind_eq_some_iff.1 hobs
  obtain ⟨root, rfl, hobs⟩ := Option.bind_eq_some_iff.1 hobs
  obtain ⟨⟨e, r₂⟩, hmap, hobs⟩ := Option.map_eq_some_iff.1 hobs
  obtain ⟨rfl, hfacts⟩ := of_decide_eq_true hobs
  exact ⟨info, caps, r, root, r₁, r₂, returns_of_finish hinit, hnew, hmap, hfacts⟩

end Runs

end Rolnix
