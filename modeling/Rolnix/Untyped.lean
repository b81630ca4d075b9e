import Rolnix.Machine

/-!
# Untyped memory

`untyped.rs`: capabilities over a run of frames owned by an untyped region, and the retype that
moves one of them to a protection domain. A capability is a client-held value; its cursor is
only a hint, and the per-frame owner exchange decides.

`split` works on frame counts cut to 32 bits, while the length it is given is a `usize`.
`split_partitions_iff` says for which lengths the two parts are the bytes asked for.
-/

namespace Rolnix

/-- A chunk of raw physical memory from which frames can be retyped. -/
structure UntypedCap where
  id : UntypedId
  baseFrame : Nat
  numFrames : Nat
  /-- Hint for the next frame to try. -/
  cursor : Nat
  deriving DecidableEq, Repr

namespace UntypedCap

def new (id : UntypedId) (baseFrame : Nat) (numFrames : Nat) : UntypedCap :=
  ⟨id, baseFrame, numFrames, baseFrame⟩

def basePhys (cap : UntypedCap) : Nat := framePhys cap.baseFrame

def endPhys (cap : UntypedCap) : Nat := framePhys cap.baseFrame + cap.numFrames * frameSize

/-- Split into the first `splitLen` bytes and the remainder. -/
def split (cap : UntypedCap) (splitLen : Nat) : Except String (UntypedCap × UntypedCap) :=
  if splitLen = 0 ∨ splitLen % frameSize ≠ 0 then
    .error "split length must be a nonzero multiple of the frame size"
  else
    let splitFrames := splitLen / frameSize
    if splitFrames % 2 ^ 32 ≥ cap.numFrames then
      .error "split length must leave a nonempty remainder"
    else
      .ok (new cap.id cap.baseFrame (splitFrames % 2 ^ 32),
        new cap.id (Word.add 32 cap.baseFrame (splitFrames % 2 ^ 32))
          (Word.sub 32 cap.numFrames (splitFrames % 2 ^ 32)))

/-! ## Splitting -/

/-- The bytes of `cap` divided at `len`: the first `len` to `a`, the others to `b`. -/
structure SplitsAt (cap a b : UntypedCap) (len : Nat) : Prop where
  first_base : a.basePhys = cap.basePhys
  first_end : a.endPhys = cap.basePhys + len
  second_base : b.basePhys = cap.basePhys + len
  second_end : b.endPhys = cap.endPhys
  first_nonempty : a.basePhys < a.endPhys
  second_nonempty : b.basePhys < b.endPhys
  disjoint : ∀ x, ¬ ((a.basePhys ≤ x ∧ x < a.endPhys) ∧ b.basePhys ≤ x ∧ x < b.endPhys)
  first_id : a.id = cap.id
  second_id : b.id = cap.id

/-- A length that `split` accepts: its number of frames, cut to 32 bits, is below the capability's. -/
def Splittable (cap : UntypedCap) (len : Nat) : Prop :=
  len ≠ 0 ∧ frameSize ∣ len ∧ len / frameSize % 2 ^ 32 < cap.numFrames

variable {cap a b : UntypedCap} {len : Nat}

theorem split_eq_ok_iff :
    cap.split len = .ok (a, b) ↔ cap.Splittable len ∧
      a = new cap.id cap.baseFrame (len / frameSize % 2 ^ 32) ∧
      b = new cap.id (Word.add 32 cap.baseFrame (len / frameSize % 2 ^ 32))
        (Word.sub 32 cap.numFrames (len / frameSize % 2 ^ 32)) := by
  unfold split Splittable
  dsimp only
  split_ifs with hbad hwhole
  · have hnot : ¬ (len ≠ 0 ∧ frameSize ∣ len) := by
      rw [Nat.dvd_iff_mod_eq_zero]
      exact fun h => hbad.elim h.1 (fun hne => hne h.2)
    simp only [false_iff]
    exact fun h => hnot ⟨h.1.1, h.1.2.1⟩
  · simp only [false_iff]
    exact fun h => absurd h.1.2.2 (Nat.not_lt.2 hwhole)
  · rw [not_or, not_not, ← Nat.dvd_iff_mod_eq_zero] at hbad
    simp only [Except.ok.injEq, Prod.mk.injEq, eq_comm (b := a), eq_comm (b := b)]
    exact ⟨fun h => ⟨⟨hbad.1, hbad.2, Nat.lt_of_not_le hwhole⟩, h⟩, fun h => h.2⟩

theorem split_isOk_iff : (cap.split len).isOk = true ↔ cap.Splittable len := by
  constructor
  · intro hok
    cases hsplit : cap.split len with
    | error e => simp [hsplit, Except.isOk, Except.toBool] at hok
    | ok r => exact (split_eq_ok_iff.1 hsplit).1
  · intro h
    rw [split_eq_ok_iff.2 ⟨h, rfl, rfl⟩]
    rfl

theorem exists_frames (hne : len ≠ 0) (hdvd : frameSize ∣ len) :
    0 < len / frameSize ∧ len = len / frameSize * frameSize := by
  obtain ⟨k, rfl⟩ := hdvd
  have hk : 0 < k := Nat.pos_of_ne_zero (by rintro rfl; exact hne (Nat.mul_zero _))
  rw [Nat.mul_div_cancel_left k (by decide)]
  exact ⟨hk, Nat.mul_comm _ _⟩

/-- Where no number of frames is cut, the parts are the bytes asked for. -/
theorem splitsAt_of_split (hnum : cap.numFrames < 2 ^ 32) (hsplit : cap.split len = .ok (a, b))
    (hlt : cap.baseFrame + len / frameSize < 2 ^ 32) :
    cap.SplitsAt a b len ∧ len < cap.numFrames * frameSize := by
  obtain ⟨⟨hne, hdvd, hcut⟩, rfl, rfl⟩ := split_eq_ok_iff.1 hsplit
  obtain ⟨hpos, hlen⟩ := exists_frames hne hdvd
  generalize len / frameSize = k at *
  rw [Nat.mod_eq_of_lt (by omega)] at hcut ⊢
  rw [Word.add_of_lt hlt, Word.sub_of_le hcut.le hnum]
  subst hlen
  refine ⟨⟨rfl, rfl, ?_, ?_, ?_, ?_, fun x hx => ?_, rfl, rfl⟩, ?_⟩
  all_goals simp only [basePhys, endPhys, new, framePhys, frameSize] at *; omega

/-- **When `split` partitions.** It succeeds exactly on the lengths it should and divides the bytes
there, if and only if no accepted length takes the first frame of the second part beyond a
`u32`. -/
theorem split_partitions_iff (cap : UntypedCap) (hnum : cap.numFrames < 2 ^ 32) (len : Nat) :
    ((cap.split len).isOk = true ↔
        len ≠ 0 ∧ frameSize ∣ len ∧ len < cap.endPhys - cap.basePhys) ∧
      (∀ a b, cap.split len = .ok (a, b) → cap.SplitsAt a b len) ↔
      (cap.Splittable len → cap.baseFrame + len / frameSize < 2 ^ 32) := by
  have hbytes : cap.endPhys - cap.basePhys = cap.numFrames * frameSize := Nat.add_sub_cancel_left ..
  rw [hbytes, split_isOk_iff]
  constructor
  · rintro ⟨-, hparts⟩ haccepted
    have hsecond := (hparts _ _ (split_eq_ok_iff.2 ⟨haccepted, rfl, rfl⟩)).second_base
    obtain ⟨-, hlen⟩ := exists_frames haccepted.1 haccepted.2.1
    have hword := Word.add_lt 32 cap.baseFrame (len / frameSize % 2 ^ 32)
    simp only [basePhys, new, framePhys] at hsecond
    generalize Word.add 32 cap.baseFrame (len / frameSize % 2 ^ 32) = next at *
    generalize len / frameSize = k at *
    simp only [frameSize] at hsecond hlen
    omega
  · intro hfits
    constructor
    · constructor
      · intro haccepted
        have hsplit := split_eq_ok_iff.2 ⟨haccepted, rfl, rfl⟩
        exact ⟨haccepted.1, haccepted.2.1, (splitsAt_of_split hnum hsplit (hfits haccepted)).2⟩
      · rintro ⟨hne, hdvd, hlt⟩
        have hk : len / frameSize < cap.numFrames :=
          Nat.div_lt_of_lt_mul (Nat.mul_comm _ _ ▸ hlt)
        exact ⟨hne, hdvd, (Nat.mod_le _ _).trans_lt hk⟩
    · intro a b hsplit
      exact (splitsAt_of_split hnum hsplit (hfits (split_eq_ok_iff.1 hsplit).1)).1

/-- Four frames split after one. -/
theorem split_partitions_four :
    (new 7 256 4).SplitsAt (new 7 256 1) (new 7 257 3) 4096 :=
  ((split_partitions_iff (new 7 256 4) (by decide) 4096).2 (by intro _; decide)).2 _ _ rfl

/-- **A split beyond the region.** Of four frames, `split` gives the first `2 ^ 44 + 4096` bytes to
one capability: one frame, and three frames remain. -/
theorem split_cuts_length :
    (new 7 256 4).split (2 ^ 44 + 4096) = .ok (new 7 256 1, new 7 257 3) ∧
      ¬ 2 ^ 44 + 4096 < (new 7 256 4).endPhys - (new 7 256 4).basePhys := by
  refine ⟨rfl, by decide⟩

end UntypedCap

inductive RetypeError
  /-- The region has no remaining untaken frames. -/
  | exhausted
  deriving DecidableEq, Repr

namespace FrameTable

variable {σ : Type} [FrameTable σ]

/-- The loop of `retype_frame`, with `remaining` of its `num_frames` attempts left. -/
def retypeLoop (s : σ) (cap : UntypedCap) (domain : DomainId) (endFrame : Nat) :
    Nat → Nat → Option (Except RetypeError Nat × UntypedCap × σ)
  | 0, _ => some (.error .exhausted, cap, s)
  | remaining + 1, idx => do
      let idx := if idx ≥ endFrame then cap.baseFrame else idx
      if (← ownerTag s idx) = .untyped ∧ (← ownerId s idx) = cap.id then
        let (ok, s') ← trySetOwner s idx (FrameOwner.untyped cap.id).raw (.domain domain)
        if ok then return (.ok idx, { cap with cursor := Word.add 32 idx 1 }, s')
        else retypeLoop s' cap domain endFrame remaining (Word.add 32 idx 1)
      else retypeLoop s cap domain endFrame remaining (Word.add 32 idx 1)

/-- Retype the next untaken frame covered by `cap` into a frame owned by `domain`. -/
def retypeFrame (s : σ) (cap : UntypedCap) (domain : DomainId) :
    Option (Except RetypeError Nat × UntypedCap × σ) :=
  retypeLoop s cap domain (Word.add 32 cap.baseFrame cap.numFrames) cap.numFrames cap.cursor

end FrameTable

namespace Machine

abbrev retypeLoop (s : Machine) (cap : UntypedCap) (domain : DomainId) (endFrame n idx : Nat) :
    Option (Except RetypeError Nat × UntypedCap × Machine) :=
  FrameTable.retypeLoop s cap domain endFrame n idx

abbrev retypeFrame (s : Machine) (cap : UntypedCap) (domain : DomainId) :
    Option (Except RetypeError Nat × UntypedCap × Machine) :=
  FrameTable.retypeFrame s cap domain

/-- **All a retype can do** is move one untyped frame to the domain. -/
theorem retypeLoop_cases {s s' : Machine} {cap cap' : UntypedCap} {domain : DomainId}
    {endFrame n idx : Nat} {r : Except RetypeError Nat}
    (h : s.retypeLoop cap domain endFrame n idx = some (r, cap', s')) :
    (r = .error .exhausted ∧ s' = s) ∨
      ∃ f, r = .ok f ∧ f < s.numFrames ∧ (s.frames f).owner = .untyped cap.id ∧
        s' = s.setInfo f ((s.frames f).withOwner (.domain domain)) := by
  induction n generalizing idx with
  | zero =>
      simp only [FrameTable.retypeLoop, Option.some.injEq, Prod.mk.injEq] at h
      exact Or.inl ⟨h.1.symm, h.2.2.symm⟩
  | succ n ih =>
      rw [retypeLoop, FrameTable.retypeLoop] at h
      generalize (if idx ≥ endFrame then cap.baseFrame else idx) = i at h
      obtain ⟨tag, -, h⟩ := Option.bind_eq_some_iff.1 h
      obtain ⟨id, -, hrest⟩ := Option.bind_eq_some_iff.1 h
      by_cases hmatch : tag = .untyped ∧ id = cap.id
      · rw [if_pos hmatch] at hrest
        obtain ⟨⟨ok, s₁⟩, htry, hok⟩ := Option.bind_eq_some_iff.1 hrest
        obtain ⟨-, hf, ⟨rfl, howner, rfl⟩ | ⟨rfl, -, rfl⟩⟩ := trySetOwner_eq_some.1 htry
        · simp only [if_true, Option.pure_def, Option.some.injEq, Prod.mk.injEq] at hok
          exact Or.inr ⟨i, hok.1.symm, hf, howner, hok.2.2.symm⟩
        · exact ih (by simpa using hok)
      · rw [if_neg hmatch] at hrest
        exact ih hrest

theorem retypeFrame_cases {s s' : Machine} {cap cap' : UntypedCap} {domain : DomainId}
    {r : Except RetypeError Nat} (h : s.retypeFrame cap domain = some (r, cap', s')) :
    (r = .error .exhausted ∧ s' = s) ∨
      ∃ f, r = .ok f ∧ f < s.numFrames ∧ (s.frames f).owner = .untyped cap.id ∧
        s' = s.setInfo f ((s.frames f).withOwner (.domain domain)) :=
  retypeLoop_cases h

end Machine

end Rolnix
