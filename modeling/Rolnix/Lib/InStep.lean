import Mathlib.Logic.Relation
import Mathlib.Tactic.SplitIfs

/-!
# One program on two kinds of state

A program that is written over an interface runs on every state that has it. Two runs of it are in
step if both fail, or both return the same value, in states that are related again (`InStep`). For
programs that also report errors there is one more outcome, the same error on both sides
(`Corres`); in which states is then left open.

The rules follow the text of a program. A step of the second run is at hand when the rest is
considered, so that what is known about that run alone can be used. Reads need no rule: they are
rewritten with equations.
-/

variable {σ τ α β γ δ ε : Type} {R R' : σ → τ → Prop} {s : σ} {t : τ}

/-! ## Results that may be missing -/

namespace Option.Rel

theorem bind {S : α → β → Prop} {S' : γ → δ → Prop} {x : Option α} {y : Option β}
    {f : α → Option γ} {g : β → Option δ} (h : Option.Rel S x y)
    (hk : ∀ a b, x = .some a → y = .some b → S a b → Option.Rel S' (f a) (g b)) :
    Option.Rel S' (x.bind f) (y.bind g) := by
  cases h with
  | none => exact .none
  | some hab => exact hk _ _ rfl rfl hab

theorem map {S : α → β → Prop} {S' : γ → δ → Prop} {x : Option α} {y : Option β}
    {f : α → γ} {g : β → δ} (h : Option.Rel S x y) (hk : ∀ a b, S a b → S' (f a) (g b)) :
    Option.Rel S' (x.map f) (y.map g) := by
  cases h with
  | none => exact .none
  | some hab => exact .some (hk _ _ hab)

theorem same {S' : γ → δ → Prop} {x : Option α} {f : α → Option γ} {g : α → Option δ}
    (hk : ∀ a, x = .some a → Option.Rel S' (f a) (g a)) : Option.Rel S' (x.bind f) (x.bind g) := by
  cases x with
  | none => exact .none
  | some a => exact hk a rfl

theorem ite {S : α → β → Prop} {c : Prop} [Decidable c] {x x' : Option α} {y y' : Option β}
    (hpos : c → Option.Rel S x y) (hneg : ¬ c → Option.Rel S x' y') :
    Option.Rel S (if c then x else x') (if c then y else y') := by
  split_ifs with hc
  · exact hpos hc
  · exact hneg hc

theorem left {S : α → β → Prop} {x : Option α} {y : Option β} (h : Option.Rel S x y) {a : α}
    (hx : x = .some a) : ∃ b, y = .some b ∧ S a b := by
  cases h with
  | none => cases hx
  | some hab =>
      obtain rfl := Option.some.inj hx
      exact ⟨_, rfl, hab⟩

theorem right {S : α → β → Prop} {x : Option α} {y : Option β} (h : Option.Rel S x y) {b : β}
    (hy : y = .some b) : ∃ a, x = .some a ∧ S a b := by
  cases h with
  | none => cases hy
  | some hab =>
      obtain rfl := Option.some.inj hy
      exact ⟨_, rfl, hab⟩

end Option.Rel

/-! ## Functions of the state -/

/-- Both fail, or both return the same value, in related states. -/
def InStep (R : σ → τ → Prop) : Option (α × σ) → Option (α × τ) → Prop :=
  Option.Rel fun x y => x.1 = y.1 ∧ R x.2 y.2

namespace InStep

theorem ret {a : α} (h : R s t) : InStep R (some (a, s)) (some (a, t)) := .some ⟨rfl, h⟩

theorem bind {x : Option (α × σ)} {y : Option (α × τ)} {f : α × σ → Option γ} {g : α × τ → Option δ}
    {S : γ → δ → Prop} (h : InStep R x y)
    (hk : ∀ a s t, y = some (a, t) → R s t → Option.Rel S (f (a, s)) (g (a, t))) :
    Option.Rel S (x.bind f) (y.bind g) := by
  refine Option.Rel.bind h ?_
  rintro ⟨a, s⟩ ⟨_, t⟩ - hy ⟨rfl, hst⟩
  exact hk a s t hy hst

theorem left {x : Option (α × σ)} {y : Option (α × τ)} (h : InStep R x y) {a : α}
    (hx : x = some (a, s)) : ∃ t, y = some (a, t) ∧ R s t := by
  obtain ⟨⟨_, t⟩, hy, rfl, hst⟩ := Option.Rel.left h hx
  exact ⟨t, hy, hst⟩

theorem right {x : Option (α × σ)} {y : Option (α × τ)} (h : InStep R x y) {a : α}
    (hy : y = some (a, t)) : ∃ s, x = some (a, s) ∧ R s t := by
  obtain ⟨⟨a', s⟩, hx, heq, hst⟩ := Option.Rel.right h hy
  obtain rfl : a' = a := heq
  exact ⟨s, hx, hst⟩

/-- The states alone. -/
theorem state {x : Option (α × σ)} {y : Option (α × τ)} (h : InStep R x y) :
    Option.Rel R (x.map (·.2)) (y.map (·.2)) :=
  Option.Rel.map h fun _ _ hab => hab.2

end InStep

/-! ## Programs with errors -/

/-- `x` from `s` and `y` from `t`: both fail, both report the same error, or both return the same
value, in states related by `Q`. -/
def Corres (Q : σ → τ → Prop) (x : ExceptT ε (StateT σ Option) α) (s : σ)
    (y : ExceptT ε (StateT τ Option) α) (t : τ) : Prop :=
  Option.Rel (fun a b => a.1 = b.1 ∧ ∀ v, a.1 = .ok v → Q a.2 b.2) (x.run.run s) (y.run.run t)

namespace Corres

variable {Q Q' : σ → τ → Prop} {x : ExceptT ε (StateT σ Option) α}
  {y : ExceptT ε (StateT τ Option) α} {f : α → ExceptT ε (StateT σ Option) β}
  {g : α → ExceptT ε (StateT τ Option) β}

theorem ret {a : α} (h : Q s t) : Corres Q (pure a : ExceptT ε (StateT σ Option) α) s (pure a) t :=
  .some ⟨rfl, fun _ _ => h⟩

theorem error {e : ε} : Corres Q (throw e : ExceptT ε (StateT σ Option) α) s (throw e) t :=
  .some ⟨rfl, fun _ h => by cases h⟩

theorem bind (h : Corres Q x s y t)
    (hk : ∀ v s' t', y.run.run t = some (.ok v, t') → Q s' t' → Corres Q' (f v) s' (g v) t') :
    Corres Q' (x >>= f) s (y >>= g) t := by
  unfold Corres
  rw [ExceptT.run_bind, StateT.run_bind, ExceptT.run_bind, StateT.run_bind]
  refine Option.Rel.bind h ?_
  rintro ⟨r, s'⟩ ⟨_, t'⟩ - hy ⟨rfl, hq⟩
  cases r with
  | ok v => exact hk v s' t' hy (hq v rfl)
  | error e => exact .some ⟨rfl, fun _ h => by cases h⟩

/-- Nothing follows where no run returns. -/
theorem stop_bind (h : Corres (fun _ _ => False) x s y t) : Corres Q' (x >>= f) s (y >>= g) t :=
  h.bind fun _ _ _ _ hfalse => hfalse.elim

theorem ite {c : Prop} [Decidable c] {x' : ExceptT ε (StateT σ Option) α}
    {y' : ExceptT ε (StateT τ Option) α} (hx : c → Corres Q x s y t)
    (hy : ¬ c → Corres Q x' s y' t) :
    Corres Q (if c then x else x') s (if c then y else y') t := by
  split_ifs with hc
  · exact hx hc
  · exact hy hc

theorem get_bind {f : σ → ExceptT ε (StateT σ Option) β} {g : τ → ExceptT ε (StateT τ Option) β}
    (h : Corres Q (f s) s (g t) t) : Corres Q (get >>= f) s (get >>= g) t := h

theorem modify_bind {p : σ → σ} {q : τ → τ} {f : PUnit → ExceptT ε (StateT σ Option) β}
    {g : PUnit → ExceptT ε (StateT τ Option) β} (h : Corres Q (f ⟨⟩) (p s) (g ⟨⟩) (q t)) :
    Corres Q (modify p >>= f) s (modify q >>= g) t := h

theorem left (h : Corres Q x s y t) {v : α} {s' : σ} (hx : x.run.run s = some (.ok v, s')) :
    ∃ t', y.run.run t = some (.ok v, t') ∧ Q s' t' := by
  obtain ⟨⟨_, t'⟩, hy, rfl, hq⟩ := Option.Rel.left h hx
  exact ⟨t', hy, hq v rfl⟩

theorem right (h : Corres Q x s y t) {v : α} {t' : τ} (hy : y.run.run t = some (.ok v, t')) :
    ∃ s', x.run.run s = some (.ok v, s') ∧ Q s' t' := by
  obtain ⟨⟨v', s'⟩, hx, heq, hq⟩ := Option.Rel.right h hy
  obtain rfl : v' = .ok v := heq
  exact ⟨s', hx, hq v rfl⟩

end Corres

/-! ## Systems -/

/-- **What is followed step by step is followed along a run.** -/
theorem follows_run {step : σ → σ → Prop} {step' : τ → τ → Prop}
    (hstep : ∀ s s' t, R s t → step s s' → ∃ t', step' t t' ∧ R s' t') {s' : σ} (h : R s t)
    (hrun : Relation.ReflTransGen step s s') : ∃ t', Relation.ReflTransGen step' t t' ∧ R s' t' := by
  induction hrun with
  | refl => exact ⟨t, .refl, h⟩
  | tail _ hlast ih =>
      obtain ⟨t₁, hrun₁, h₁⟩ := ih
      obtain ⟨t', hnext, h'⟩ := hstep _ _ t₁ h₁ hlast
      exact ⟨t', hrun₁.tail hnext, h'⟩
