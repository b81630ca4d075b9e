import Rolnix.BootOwners
import Rolnix.PmmProof
import Rolnix.Lib.Cyclic
import Rolnix.Lib.Runs

/-!
# Once-only grants of untyped memory

`pmm_init` makes one capability for every untyped region, and `split` makes more of them. All stay
in use, each with a cursor of its own that may be long out of date, and the frames they grant come
back to the general pool.

A grant is safe because nothing that runs after boot makes a frame untyped: a frame that was granted
once stays gone for every capability (`untyped_of_exec`). And it is complete because a cursor is only
where the search starts: `retype_frame` goes once around the whole range (`retypeFrame_spec`).
`once_only_grants` puts the two together for every run.
-/

namespace Rolnix

open Relation Machine

/-! ## Capabilities -/

namespace UntypedCap

/-- The frame is in the range of the capability. -/
def Covers (cap : UntypedCap) (f : Nat) : Prop :=
  cap.baseFrame ≤ f ∧ f < cap.baseFrame + cap.numFrames

/-- The frame `k` steps around the range. -/
def frameAt (cap : UntypedCap) (k : Nat) : Nat := cap.baseFrame + k % cap.numFrames

/-- A capability over frames of a table with `n` frames, whose cursor is in the range or just
behind it. -/
structure Valid (n : Nat) (cap : UntypedCap) : Prop where
  pos : 0 < cap.numFrames
  lt_listEnd : cap.baseFrame + cap.numFrames < listEnd
  le_table : cap.baseFrame + cap.numFrames ≤ n
  le_cursor : cap.baseFrame ≤ cap.cursor
  cursor_le : cap.cursor ≤ cap.baseFrame + cap.numFrames

variable {cap a b : UntypedCap} {n len : Nat}

theorem valid_new {id : UntypedId} {base num : Nat} (hpos : 0 < num) (hlt : base + num < listEnd)
    (hle : base + num ≤ n) : (UntypedCap.new id base num).Valid n :=
  ⟨hpos, hlt, hle, Nat.le_refl base, Nat.le_add_right base num⟩

theorem Valid.frameAt_covers (h : cap.Valid n) (k : Nat) : cap.Covers (cap.frameAt k) := by
  have hlt := Nat.mod_lt k h.pos
  unfold Covers frameAt
  omega

/-- **Splitting** divides the range of a capability among two. -/
theorem Valid.split (h : cap.Valid n) (hlen : len < cap.numFrames * frameSize)
    (hsplit : cap.split len = .ok (a, b)) :
    a.Valid n ∧ b.Valid n ∧ a.id = cap.id ∧ b.id = cap.id ∧
      ∀ f, cap.Covers f ↔ a.Covers f ∨ b.Covers f := by
  obtain ⟨-, hbound, hinside, -, -⟩ := h
  simp only [listEnd] at hbound
  have hlt : len / frameSize < cap.numFrames := Nat.div_lt_of_lt_mul (Nat.mul_comm _ _ ▸ hlen)
  obtain ⟨⟨hne, hdvd, -⟩, rfl, rfl⟩ := split_eq_ok_iff.1 hsplit
  obtain ⟨hpos, -⟩ := exists_frames hne hdvd
  rw [Nat.mod_eq_of_lt (hlt.trans (by omega)), Word.add_of_lt (by omega),
    Word.sub_of_le (by omega) (by omega)]
  refine ⟨valid_new hpos (by simp only [listEnd]; omega) (by omega),
    valid_new (by omega) (by simp only [listEnd]; omega) (by omega), rfl, rfl, fun f => ?_⟩
  simp only [Covers, UntypedCap.new]
  omega

end UntypedCap

/-! ## Retyping -/

namespace Machine

variable {s : Machine} {cap : UntypedCap} {n k : Nat}

/-- The state after a grant of frame `f`. -/
def granted (s : Machine) (f : Nat) (domain : DomainId) : Machine :=
  s.setInfo f ((s.frames f).withOwner (.domain domain))

theorem owner_eq_untyped {o : FrameOwner} {id : UntypedId} :
    o.tag = .untyped ∧ o.id = id ↔ o = .untyped id := by
  constructor
  · rintro ⟨htag, hid⟩
    cases o
    simp only at htag hid
    rw [htag, hid]
    rfl
  · rintro rfl
    exact ⟨rfl, rfl⟩

/-- The search grants a frame of the range, or has passed over `n` frames in cyclic order. -/
theorem retypeLoop_spec (hb : s.tableBase ≠ 0) (h : cap.Valid s.numFrames) (domain : DomainId)
    (hk : k ≤ cap.numFrames) :
    (∃ f, s.retypeLoop cap domain (cap.baseFrame + cap.numFrames) n (cap.baseFrame + k) =
        some (.ok f, { cap with cursor := f + 1 }, s.granted f domain) ∧
        cap.Covers f ∧ (s.frames f).owner = .untyped cap.id) ∨
      s.retypeLoop cap domain (cap.baseFrame + cap.numFrames) n (cap.baseFrame + k) =
        some (.error .exhausted, cap, s) ∧
        ∀ j < n, (s.frames (cap.frameAt (k + j))).owner ≠ .untyped cap.id := by
  induction n generalizing k with
  | zero => exact Or.inr ⟨rfl, (by simp)⟩
  | succ n ih =>
      obtain ⟨hle, hlt⟩ := h.frameAt_covers k
      have hbound := h.lt_listEnd
      simp only [listEnd] at hbound
      have hidx : (if cap.baseFrame + k ≥ cap.baseFrame + cap.numFrames then cap.baseFrame
          else cap.baseFrame + k) = cap.frameAt k := by
        unfold UntypedCap.frameAt
        split_ifs with hend
        · obtain rfl : k = cap.numFrames := by omega
          rw [Nat.mod_self, Nat.add_zero]
        · rw [Nat.mod_eq_of_lt (by omega)]
      have hinfo : s.frameInfo (cap.frameAt k) = some (s.frames (cap.frameAt k)) :=
        frameInfo_of_lt hb (hlt.trans_le h.le_table)
      have hnext : Word.add 32 (cap.frameAt k) 1 = cap.baseFrame + (k % cap.numFrames + 1) :=
        Word.add_of_lt (by omega)
      simp only [FrameTable.retypeLoop, hidx, ownerTag_eq, ownerId_eq, hinfo, Option.map_some,
        Option.bind_eq_bind, Option.bind_some, FrameInfo.ownerTag, owner_eq_untyped]
      by_cases howner : (s.frames (cap.frameAt k)).owner = .untyped cap.id
      · have htry : s.trySetOwner (cap.frameAt k) (.untyped cap.id) (.domain domain) =
            some (true, s.granted (cap.frameAt k) domain) :=
          trySetOwner_eq_some.2 ⟨hb, hlt.trans_le h.le_table, Or.inl ⟨rfl, howner, rfl⟩⟩
        refine Or.inl ⟨cap.frameAt k, ?_, ⟨hle, hlt⟩, howner⟩
        simp only [if_pos howner, htry, hnext]
        rfl
      · rw [if_neg howner, hnext]
        obtain hfound | ⟨hrest, hpassed⟩ := ih (Nat.mod_lt k h.pos)
        · exact Or.inl hfound
        · refine Or.inr ⟨hrest, fun j hj => ?_⟩
          cases j with
          | zero => exact howner
          | succ j =>
              have hsame : cap.frameAt (k % cap.numFrames + 1 + j) = cap.frameAt (k + (j + 1)) := by
                rw [UntypedCap.frameAt, UntypedCap.frameAt, Nat.add_assoc, Nat.mod_add_mod,
                  Nat.add_comm 1 j]
              exact hsame ▸ hpassed j (Nat.lt_of_succ_lt_succ hj)

/-- **`retype_frame`** grants a frame of the range that is still untyped, if there is one. -/
theorem retypeFrame_spec (hb : s.tableBase ≠ 0) (h : cap.Valid s.numFrames) (domain : DomainId) :
    (∃ f, s.retypeFrame cap domain =
        some (.ok f, { cap with cursor := f + 1 }, s.granted f domain) ∧
        cap.Covers f ∧ (s.frames f).owner = .untyped cap.id) ∨
      s.retypeFrame cap domain = some (.error .exhausted, cap, s) ∧
        ∀ f, cap.Covers f → (s.frames f).owner ≠ .untyped cap.id := by
  have hbound := h.lt_listEnd
  have hcursor := h.le_cursor
  have hcursor' := h.cursor_le
  simp only [listEnd] at hbound
  have hloop := retypeLoop_spec (n := cap.numFrames) (k := cap.cursor - cap.baseFrame)
    hb h domain (by omega)
  rw [Nat.add_sub_cancel' hcursor, ← Word.add_of_lt (w := 32) (by omega)] at hloop
  obtain hfound | ⟨hrest, hpassed⟩ := hloop
  · exact Or.inl hfound
  · refine Or.inr ⟨hrest, fun f hf => ?_⟩
    -- the search came by every frame of the range
    obtain ⟨hle, hlt⟩ := hf
    have hstart := Nat.mod_lt (cap.cursor - cap.baseFrame) h.pos
    have hp : f - cap.baseFrame < cap.numFrames := by omega
    have hat : cap.frameAt (cap.cursor - cap.baseFrame + Cyclic.gap cap.numFrames
        ((cap.cursor - cap.baseFrame) % cap.numFrames) (f - cap.baseFrame)) = f := by
      rw [UntypedCap.frameAt, ← Nat.mod_add_mod, Cyclic.add_gap hstart hp]
      omega
    exact hat ▸ hpassed _ (Cyclic.gap_lt hstart hp)

end Machine

/-! ## Runs -/

/-- The machine, the capabilities in use, and the frames granted so far, the last one first. -/
structure Grants where
  machine : Machine
  caps : List UntypedCap
  granted : List Nat

/-- What holders of capabilities do, and the rest of the kernel. -/
inductive GrantOp
  | split (k len : Nat)
  | retype (k : Nat) (domain : DomainId)
  | call (op : PmmOp)

namespace GrantOp

/-- Split or retype from capability `k`. The halves are new, and the whole stays in use. -/
def exec (g : Grants) : GrantOp → Option Grants
  | split k len => g.caps[k]?.map fun cap =>
      match cap.split len with
      | .ok (a, b) => { g with caps := g.caps ++ [a, b] }
      | .error _ => g
  | retype k domain => do
      let cap ← g.caps[k]?
      let (r, cap', s) ← g.machine.retypeFrame cap domain
      return {
        machine := s
        caps := g.caps.set k cap'
        granted := match r with
          | .ok f => f :: g.granted
          | .error _ => g.granted }
  | call op => (op.exec g.machine).map fun s => { g with machine := s }

/-- A capability is split below its length, and none is made up. -/
def Allowed (g : Grants) : GrantOp → Prop
  | split k len => ∀ cap, g.caps[k]? = some cap → len < cap.numFrames * frameSize
  | retype _ _ => True
  | call op => ∀ cap domain, op ≠ .retype cap domain

end GrantOp

/-- One step. -/
def GrantStep : Grants → Grants → Prop := Runs.Step GrantOp.Allowed GrantOp.exec

namespace Grants

variable {g g' : Grants}

/-- The capabilities are valid, and what was granted is gone for good. -/
structure Inv (g : Grants) : Prop where
  table : g.machine.tableBase ≠ 0
  valid : ∀ cap ∈ g.caps, cap.Valid g.machine.numFrames
  gone : ∀ f ∈ g.granted, (g.machine.frames f).ownerTag ≠ .untyped
  once : g.granted.Nodup

/-- **Nothing becomes untyped** after boot. -/
theorem untyped_of_exec {op : PmmOp} {s s' : Machine} {f : Nat} (hexec : op.exec s = some s')
    (hold : (s.frames f).ownerTag ≠ .untyped) : (s'.frames f).ownerTag ≠ .untyped := by
  have hchange := exec_change hexec f
  generalize s.frames f = i at hchange hold
  generalize s'.frames f = i' at hchange
  cases hchange with
  | same | pinned | mapped => exact hold
  | taken | deferred | freed | retyped =>
      intro htag
      cases htag
  | unpinned | unmapped =>
      unfold drained
      split_ifs
      · intro htag
        cases htag
      · exact hold

theorem Inv.retype (h : g.Inv) {k : Nat} {cap : UntypedCap} {domain : DomainId}
    (hcap : g.caps[k]? = some cap) (hexec : (GrantOp.retype k domain).exec g = some g') : g'.Inv := by
  have hvalid := h.valid cap (List.mem_of_getElem? hcap)
  obtain ⟨f, hretype, hcovers, howner⟩ | ⟨hretype, -⟩ := retypeFrame_spec h.table hvalid domain
  · simp only [GrantOp.exec, hcap, hretype, Option.bind_eq_bind, Option.bind_some, Option.pure_def,
      Option.some.injEq] at hexec
    subst hexec
    have huntyped : (g.machine.frames f).ownerTag = .untyped := congrArg FrameOwner.tag howner
    have hnew : f ∉ g.granted := fun hmem => h.gone f hmem huntyped
    refine ⟨h.table, fun c hc => ?_, fun f' hf' => ?_, List.nodup_cons.2 ⟨hnew, h.once⟩⟩
    · obtain hc | rfl := List.mem_or_eq_of_mem_set hc
      · exact h.valid c hc
      · obtain ⟨hle, hlt⟩ := hcovers
        exact ⟨hvalid.pos, hvalid.lt_listEnd, hvalid.le_table, by simp only; omega, hlt⟩
    · show ((Function.update g.machine.frames f _) f').ownerTag ≠ .untyped
      by_cases hf : f' = f
      · rw [hf, Function.update_self]
        intro htag
        cases htag
      · rw [Function.update_of_ne hf]
        exact h.gone f' ((List.mem_cons.1 hf').resolve_left hf)
  · simp only [GrantOp.exec, hcap, hretype, Option.bind_eq_bind, Option.bind_some, Option.pure_def,
      Option.some.injEq] at hexec
    subst hexec
    refine ⟨h.table, fun c hc => ?_, h.gone, h.once⟩
    obtain hc | rfl := List.mem_or_eq_of_mem_set hc
    · exact h.valid c hc
    · exact hvalid

/-- **The step lemma.** -/
theorem Inv.step (h : g.Inv) {op : GrantOp} (hok : op.Allowed g) (hexec : op.exec g = some g') :
    g'.Inv := by
  cases op with
  | split k len =>
      obtain ⟨cap, hcap, rfl⟩ := Option.map_eq_some_iff.1 hexec
      have hvalid := h.valid cap (List.mem_of_getElem? hcap)
      cases hsplit : cap.split len with
      | error e => exact h
      | ok p =>
          obtain ⟨a, b⟩ := p
          obtain ⟨ha, hb, -⟩ := hvalid.split (hok cap hcap) hsplit
          refine ⟨h.table, fun c hc => ?_, h.gone, h.once⟩
          obtain hc | hc := List.mem_append.1 hc
          · exact h.valid c hc
          · obtain rfl | rfl : c = a ∨ c = b := by simpa using hc
            · exact ha
            · exact hb
  | retype k domain =>
      obtain ⟨cap, hcap, -⟩ := Option.bind_eq_some_iff.1 hexec
      exact h.retype hcap hexec
  | call op =>
      obtain ⟨s, hcall, rfl⟩ := Option.map_eq_some_iff.1 hexec
      have hboot := exec_boot hcall
      refine ⟨?_, fun c hc => ?_, fun f hf => untyped_of_exec hcall (h.gone f hf), h.once⟩
      · exact hboot.tableBase ▸ h.table
      · exact hboot.numFrames ▸ h.valid c hc

/-- **The run lemma.** -/
theorem Inv.run (h : g.Inv) (hrun : ReflTransGen GrantStep g g') : g'.Inv :=
  Runs.invariant (P := Inv) (fun _ _ _ h hok hexec => h.step hok hexec) h hrun

end Grants

/-! ## From boot on -/

section Boot

variable {boot : BootInfo} {specs : List UntypedSpec} {outUntyped caps : List UntypedCap}
  {heapLen : Nat} {mem : ByteMem} {info : PmInitOut} {s₀ : Machine}

theorem carveSpecs_caps {s s' : Machine} {i : Nat} {out : List UntypedCap}
    (h : Returns (carveSpecs i specs out) s caps s') :
    s'.numFrames = s.numFrames ∧ caps.length = out.length ∧
      (∀ k < i, caps[k]? = out[k]?) ∧
      ∀ k < specs.length, ∀ cap, caps[i + k]? = some cap → cap.Valid s.numFrames := by
  induction specs generalizing i out s with
  | nil =>
      obtain ⟨rfl, rfl⟩ := returns_pure.1 h
      exact ⟨rfl, rfl, fun _ _ => rfl, (by simp)⟩
  | cons spec specs ih =>
      obtain ⟨cap, s₁, h₁, h₂⟩ := returns_bind.1 h
      obtain ⟨hcap, hpos, hlt, hle⟩ := carveUntypedRegion_cap h₁
      have hnum : s₁.numFrames = s.numFrames := (carveUntypedRegion_claims h₁).1.numFrames
      obtain ⟨hnum', hlen, hkeep, hrest⟩ := ih h₂
      refine ⟨hnum'.trans hnum, by rw [hlen, List.length_set], fun k hk => ?_, fun k hk c hc => ?_⟩
      · rw [hkeep k (by omega), List.getElem?_set_ne (by omega)]
      · cases k with
        | zero =>
            rw [Nat.add_zero, hkeep i (Nat.lt_succ_self i)] at hc
            obtain ⟨hi, rfl⟩ := List.getElem?_eq_some_iff.1 hc
            rw [List.getElem_set_self, hcap]
            exact UntypedCap.valid_new hpos hlt hle
        | succ k =>
            rw [← hnum]
            refine hrest k (Nat.lt_of_succ_lt_succ hk) c ?_
            rwa [Nat.add_right_comm]

theorem pmmInit_caps
    (h : Returns (pmmInit boot specs outUntyped heapLen) (reset mem) (info, caps) s₀) :
    (Grants.mk s₀ (caps.take specs.length) []).Inv := by
  obtain ⟨regions, ftPhys, heapEnd, bootAlloc, s₁, s₂, s₃, s₄, s₅, s₆, hrun⟩ := pmmInit_returns h
  obtain ⟨mem', hs₀⟩ := buildGlobalFreelist_state hrun.pool
  have hbooting := hrun.booting
  have htable : s₀.tableBase = s₆.tableBase ∧ s₀.numFrames = s₆.numFrames := by
    rw [hs₀]
    exact ⟨rfl, rfl⟩
  obtain ⟨hnum, -, -, hvalid⟩ := carveSpecs_caps hrun.carve
  refine ⟨?_, fun cap hcap => ?_, (by simp), List.nodup_nil⟩
  · exact htable.1 ▸ hbooting.table
  · obtain ⟨k, hk⟩ := List.mem_iff_getElem?.1 hcap
    have hlt : k < specs.length := by
      by_contra hge
      rw [List.getElem?_eq_none (by rw [List.length_take]; omega)] at hk
      cases hk
    rw [List.getElem?_take_of_lt hlt] at hk
    show cap.Valid s₀.numFrames
    rw [htable.2, hnum]
    exact hvalid k hlt cap (by rwa [Nat.zero_add])

/-- **Once-only grants.** Whatever capabilities are split off the regions of `pmm_init`, and however
their use is mixed with the rest of the kernel, no frame is granted twice. `retype_frame` returns a
frame of the capability's range that then belongs to the domain, and `Exhausted` exactly if no frame
of the range is untyped any more. -/
theorem once_only_grants {g : Grants}
    (hinit : BootsApart boot specs outUntyped heapLen mem info caps s₀)
    (hrun : ReflTransGen GrantStep ⟨s₀, caps.take specs.length, []⟩ g) :
    g.granted.Nodup ∧
      ∀ cap ∈ g.caps, ∀ domain, ∃ r cap' s', g.machine.retypeFrame cap domain = some (r, cap', s') ∧
        (∀ f, r = .ok f → cap.Covers f ∧ (s'.frames f).owner = .domain domain ∧ f ∉ g.granted) ∧
        (r = .error .exhausted ↔
          ∀ f, cap.Covers f → (g.machine.frames f).owner ≠ .untyped cap.id) := by
  have hinv : g.Inv := (pmmInit_caps hinit.returns).run hrun
  refine ⟨hinv.once, fun cap hcap domain => ?_⟩
  obtain ⟨f, hretype, hcovers, howner⟩ | ⟨hretype, hnone⟩ :=
    retypeFrame_spec hinv.table (hinv.valid cap hcap) domain
  · refine ⟨_, _, _, hretype, ?_, ?_⟩
    · rintro f' ⟨rfl⟩
      refine ⟨hcovers, ?_, fun hmem => hinv.gone f hmem (congrArg FrameOwner.tag howner)⟩
      rw [Machine.granted, setInfo_frames, Function.update_self]
      rfl
    · constructor
      · simp
      · intro hnone
        exact absurd howner (hnone f hcovers)
  · exact ⟨_, _, _, hretype, (by simp), fun _ => hnone, fun _ => rfl⟩

end Boot

/-- A region of two frames, split in two. The whole grants the first frame, so the first half has
nothing left to grant. -/
theorem once_only_grants_small :
    ∃ info caps s₀ g cap, Returns (pmmInit smallBoot [⟨0x103000, 0x2000⟩] [.new 0 0 0] 0)
        (reset fun _ => 0) (info, caps) s₀ ∧
      ReflTransGen GrantStep ⟨s₀, caps.take 1, []⟩ g ∧ g.granted = [0x103] ∧ cap ∈ g.caps ∧
      cap.Covers 0x103 ∧
      (g.machine.retypeFrame cap 7).map (fun x => x.1) = some (.error .exhausted) := by
  have hcompute : ((finish (pmmInit smallBoot [⟨0x103000, 0x2000⟩] [.new 0 0 0] 0)
      (reset fun _ => 0)).bind fun x =>
      ((GrantOp.split 0 0x1000).exec ⟨x.2, x.1.2.take 1, []⟩).bind fun g₁ =>
        ((GrantOp.retype 0 7).exec g₁).map fun g₂ =>
          decide (x.1.2 = [.new 0 0x103 2] ∧ g₂.granted = [0x103] ∧ .new 0 0x103 1 ∈ g₂.caps ∧
            (g₂.machine.frames 0x103).owner ≠ .untyped 0)) = some true := by
    decide +kernel
  obtain ⟨⟨⟨info, caps⟩, s₀⟩, hinit, hrest⟩ := Option.bind_eq_some_iff.1 hcompute
  obtain ⟨g₁, hsplit, hrest⟩ := Option.bind_eq_some_iff.1 hrest
  obtain ⟨g₂, hretype, hfacts⟩ := Option.map_eq_some_iff.1 hrest
  obtain ⟨rfl, hgranted, hcap, howner⟩ := of_decide_eq_true hfacts
  have hreturns := returns_of_finish hinit
  have hbelow : (GrantOp.split 0 0x1000).Allowed ⟨s₀, [.new 0 0x103 2], []⟩ := by
    rintro cap ⟨rfl⟩
    decide
  have hrun : ReflTransGen GrantStep ⟨s₀, [.new 0 0x103 2], []⟩ g₂ :=
    (ReflTransGen.single ⟨_, hbelow, hsplit⟩).tail ⟨.retype 0 7, trivial, hretype⟩
  obtain ⟨-, hall⟩ := once_only_grants ⟨smallBoot_apart, hreturns⟩ hrun
  obtain ⟨r, cap', s', hlast, -, hexhausted⟩ := hall _ hcap 7
  refine ⟨info, _, s₀, g₂, _, hreturns, hrun, hgranted, hcap, ⟨le_rfl, by decide⟩, ?_⟩
  rw [hlast, hexhausted.2]
  · rfl
  · rintro f ⟨hle, hlt⟩
    obtain rfl : f = 0x103 := Nat.le_antisymm (Nat.le_of_lt_succ hlt) hle
    exact howner

/-- **A frame granted twice.** With the frame table in memory: frame 0x103 holds the owner of frame 0x200,
of which the third region is made. The capability grants it, and the release of 0x103 links that frame
to frame 0x204: what is then written where the owner of 0x200 stands says that it is untyped memory of
the third region. -/
theorem frame_granted_twice :
    ∃ info cap cap' cap'' r r₁ r₂ r₃ r₄ r₅, Returns (pmmInit
        (usableBoot [(0x100000, 0x4000), (0x101000, 0x1000), (0x200000, 0x8000)])
        [⟨0x201000, 0x1000⟩, ⟨0x202000, 0x2000⟩, ⟨0x200000, 0x1000⟩]
        [.new 0 0 0, .new 0 0 0, .new 0 0 0] 0x1000)
        (Ram.reset fun _ => 0) (info, [.new 0 0x201 1, .new 1 0x202 2, cap]) r ∧
      PoolMem.allocFrame r = some (some 0x102, r₁) ∧ PoolMem.allocFrame r₁ = some (some 0x103, r₂) ∧
      FrameTable.retypeFrame r₂ cap 7 = some (.ok 0x200, cap', r₃) ∧
      PoolMem.releaseFrame r₃ 0x103 = some r₄ ∧
      FrameTable.retypeFrame r₄ cap' 8 = some (.ok 0x200, cap'', r₅) := by
  have hobs : ((finish (pmmInit
      (usableBoot [(0x100000, 0x4000), (0x101000, 0x1000), (0x200000, 0x8000)])
      [⟨0x201000, 0x1000⟩, ⟨0x202000, 0x2000⟩, ⟨0x200000, 0x1000⟩]
      [.new 0 0 0, .new 0 0 0, .new 0 0 0] 0x1000)
      (Ram.reset fun _ => 0)).bind fun x => (PoolMem.allocFrame x.2).bind fun a =>
        (PoolMem.allocFrame a.2).bind fun b =>
        (FrameTable.retypeFrame b.2 (.new 2 0x200 1) 7).bind fun c =>
        (PoolMem.releaseFrame c.2.2 0x103).bind fun r =>
        (FrameTable.retypeFrame r c.2.1 8).map fun d =>
          (x.1.2, a.1, b.1, c.1.toOption, d.1.toOption)) =
      some ([.new 0 0x201 1, .new 1 0x202 2, .new 2 0x200 1], some 0x102, some 0x103, some 0x200,
        some 0x200) := by
    decide +kernel
  obtain ⟨⟨⟨info, caps⟩, r⟩, hinit, hobs⟩ := Option.bind_eq_some_iff.1 hobs
  obtain ⟨⟨a, r₁⟩, ha, hobs⟩ := Option.bind_eq_some_iff.1 hobs
  obtain ⟨⟨b, r₂⟩, hb, hobs⟩ := Option.bind_eq_some_iff.1 hobs
  obtain ⟨⟨c, cap', r₃⟩, hc, hobs⟩ := Option.bind_eq_some_iff.1 hobs
  obtain ⟨r₄, hrelease, hobs⟩ := Option.bind_eq_some_iff.1 hobs
  obtain ⟨⟨d, cap'', r₅⟩, hd, hobs⟩ := Option.map_eq_some_iff.1 hobs
  simp only [Prod.mk.injEq] at hobs
  obtain ⟨rfl, rfl, rfl, hc', hd'⟩ := hobs
  cases c with
  | error e => exact absurd hc' (by simp [Except.toOption])
  | ok f =>
      cases d with
      | error e => exact absurd hd' (by simp [Except.toOption])
      | ok f' =>
          obtain rfl := Option.some.inj hc'
          obtain rfl := Option.some.inj hd'
          exact ⟨info, _, cap', cap'', r, r₁, r₂, r₃, r₄, r₅, returns_of_finish hinit, ha, hb, hc,
            hrelease, hd⟩

end Rolnix
