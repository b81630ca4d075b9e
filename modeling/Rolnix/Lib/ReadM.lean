import Rolnix.Lib.ByteMem

/-!
# Programs that read memory

A program is a tree: it is done, or it reads a word and goes on with the value. Its result in a memory
is `run`; `reads` are the ranges it looks at on the way, whether or not the result depends on them.
-/

/-- A program that reads memory and returns an `α`. -/
inductive ReadM (α : Type) where
  | done (a : α)
  | read (addr n : Nat) (next : Nat → ReadM α)

namespace ReadM

variable {α β : Type}

def bind : ReadM α → (α → ReadM β) → ReadM β
  | done a, f => f a
  | read addr n next, f => read addr n fun v => (next v).bind f

instance : Monad ReadM where
  pure := done
  bind := bind

/-- Read the `n`-byte word at `addr`. -/
def load (addr n : Nat) : ReadM Nat := read addr n done

/-- The result. -/
def run (mem : ByteMem) : ReadM α → α
  | done a => a
  | read addr n next => (next (mem.load addr n)).run mem

/-- Address and length of every read, in order. -/
def reads (mem : ByteMem) : ReadM α → List (Nat × Nat)
  | done _ => []
  | read addr n next => (addr, n) :: (next (mem.load addr n)).reads mem

variable {mem : ByteMem}

@[simp] theorem run_pure (a : α) : (pure a : ReadM α).run mem = a := rfl

@[simp] theorem reads_pure (a : α) : (pure a : ReadM α).reads mem = [] := rfl

@[simp] theorem run_load (addr n : Nat) : (load addr n).run mem = mem.load addr n := rfl

@[simp] theorem reads_load (addr n : Nat) : (load addr n).reads mem = [(addr, n)] := rfl

@[simp] theorem run_bind (p : ReadM α) (f : α → ReadM β) :
    (p >>= f).run mem = (f (p.run mem)).run mem := by
  induction p with
  | done a => rfl
  | read addr n next ih => exact ih (mem.load addr n)

@[simp] theorem reads_bind (p : ReadM α) (f : α → ReadM β) :
    (p >>= f).reads mem = p.reads mem ++ (f (p.run mem)).reads mem := by
  induction p with
  | done a => rfl
  | read addr n next ih => exact congrArg ((addr, n) :: ·) (ih (mem.load addr n))

@[simp] theorem run_ite (c : Prop) [Decidable c] (p q : ReadM α) :
    (if c then p else q).run mem = if c then p.run mem else q.run mem := by
  split <;> rfl

@[simp] theorem reads_ite (c : Prop) [Decidable c] (p q : ReadM α) :
    (if c then p else q).reads mem = if c then p.reads mem else q.reads mem := by
  split <;> rfl

end ReadM
