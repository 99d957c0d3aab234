/-!
# Steps

Parsing and evaluation both move a state forward and may fail on the way.
A failure does not undo anything: what was consumed or changed before it
stays so, which is why a failed step still has a final state.
-/

namespace Scriptlet

/-- How a step ends: with a value or an error, and with a state in either
case. -/
inductive Outcome (ε σ α : Type) where
  | done (value : α) (state : σ)
  | failed (error : ε) (state : σ)
  deriving Repr

namespace Outcome

variable {ε σ α : Type}

def state : Outcome ε σ α → σ
  | .done _ s => s
  | .failed _ s => s

/-- The value or the error, without the state. -/
def result : Outcome ε σ α → Except ε α
  | .done value _ => .ok value
  | .failed error _ => .error error

end Outcome

/-- A computation on a state that may fail. -/
def Step (ε σ α : Type) : Type := σ → Outcome ε σ α

namespace Step

variable {ε σ α β : Type}

def run (step : Step ε σ α) (s : σ) : Outcome ε σ α := step s

@[always_inline, inline]
protected def pure (value : α) : Step ε σ α := fun s => .done value s

@[always_inline, inline]
protected def bind (step : Step ε σ α) (next : α → Step ε σ β) : Step ε σ β :=
  fun s =>
    match step s with
    | .done value s => next value s
    | .failed error s => .failed error s

instance : Monad (Step ε σ) where
  pure := Step.pure
  bind := Step.bind

def fail (error : ε) : Step ε σ α := fun s => .failed error s

def get : Step ε σ σ := fun s => .done s s

def modify (f : σ → σ) : Step ε σ Unit := fun s => .done () (f s)

/-- A result that does not depend on the state. -/
def lift : Except ε α → Step ε σ α
  | .ok value => Step.pure value
  | .error error => Step.fail error

@[simp] theorem pure_apply (value : α) (s : σ) :
    (pure value : Step ε σ α) s = .done value s := rfl

@[simp] theorem bind_apply (step : Step ε σ α) (next : α → Step ε σ β)
    (s : σ) :
    (step >>= next) s =
      match step s with
      | .done value s => next value s
      | .failed error s => .failed error s := rfl

@[simp] theorem fail_apply (error : ε) (s : σ) :
    (fail error : Step ε σ α) s = .failed error s := rfl

@[simp] theorem get_apply (s : σ) : (get : Step ε σ σ) s = .done s s := rfl

@[simp] theorem modify_apply (f : σ → σ) (s : σ) :
    (modify f : Step ε σ Unit) s = .done () (f s) := rfl

@[simp] theorem lift_ok (value : α) (s : σ) :
    (lift (.ok value) : Step ε σ α) s = .done value s := rfl

@[simp] theorem lift_error (error : ε) (s : σ) :
    (lift (.error error) : Step ε σ α) s = .failed error s := rfl

/-- A sequence of two steps ends well exactly when both do. -/
theorem bind_eq_done_iff {step : Step ε σ α} {next : α → Step ε σ β}
    {s t : σ} {b : β} :
    (step >>= next) s = .done b t ↔
      ∃ a u, step s = .done a u ∧ next a u = .done b t := by
  rw [bind_apply]
  cases step s with
  | done a u =>
      constructor
      · intro h
        exact ⟨a, u, rfl, h⟩
      · rintro ⟨a', u', h, h'⟩
        cases h
        exact h'
  | failed e u => simp

/-- A sequence of two steps fails exactly when the first does, or the
second does behind it. -/
theorem bind_eq_failed_iff {step : Step ε σ α} {next : α → Step ε σ β}
    {s t : σ} {e : ε} :
    (step >>= next) s = .failed e t ↔
      step s = .failed e t ∨
        ∃ a u, step s = .done a u ∧ next a u = .failed e t := by
  rw [bind_apply]
  cases step s with
  | done a u =>
      constructor
      · intro h
        exact .inr ⟨a, u, rfl, h⟩
      · rintro (h | ⟨a', u', h, h'⟩)
        · cases h
        · cases h
          exact h'
  | failed e u => simp

end Step

end Scriptlet
