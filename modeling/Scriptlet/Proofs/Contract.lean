import Scriptlet.Step

/-!
# Contracts of steps

A step ends in one of two ways, and what is known then may differ: a
contract has one condition for a value and the state it comes with, and
one for an error and the state that it leaves. In a sequence of steps the
second condition has to hold wherever the sequence stops, which is why
`bind` asks for the same one of both steps.
-/

namespace Scriptlet

variable {ε σ α β : Type}

/-- The step ended with a value and a state as in `good`, or with an error
and a state as in `bad`. -/
def Outcome.Ensures (o : Outcome ε σ α) (good : α → σ → Prop)
    (bad : ε → σ → Prop) : Prop :=
  match o with
  | .done value s => good value s
  | .failed error s => bad error s

theorem Outcome.Ensures.imp {o : Outcome ε σ α} {good good' : α → σ → Prop}
    {bad bad' : ε → σ → Prop} (h : o.Ensures good bad)
    (hgood : ∀ a s, good a s → good' a s) (hbad : ∀ e s, bad e s → bad' e s) :
    o.Ensures good' bad' := by
  cases o with
  | done a s => exact hgood a s h
  | failed e s => exact hbad e s h

theorem Outcome.Ensures.result {o : Outcome ε σ α} {good : α → σ → Prop}
    {bad : ε → σ → Prop} (h : o.Ensures good bad) :
    (∃ a, o.result = .ok a ∧ good a o.state) ∨
      ∃ e, o.result = .error e ∧ bad e o.state := by
  cases o with
  | done a s => exact Or.inl ⟨a, rfl, h⟩
  | failed e s => exact Or.inr ⟨e, rfl, h⟩

theorem Outcome.eq_failed_of_result {o : Outcome ε σ α} {e : ε}
    (h : o.result = .error e) : o = .failed e o.state := by
  cases o with
  | done a s => cases h
  | failed e' s =>
      cases h
      rfl

/-- Whichever way the step ended, the state is as in `p`. -/
def Outcome.Leaves (o : Outcome ε σ α) (p : σ → Prop) : Prop :=
  o.Ensures (fun _ s => p s) fun _ s => p s

theorem Outcome.leaves_iff {o : Outcome ε σ α} {p : σ → Prop} :
    o.Leaves p ↔ p o.state := by
  cases o <;> rfl

theorem Outcome.Leaves.imp {o : Outcome ε σ α} {p q : σ → Prop}
    (h : o.Leaves p) (hpq : ∀ s, p s → q s) : o.Leaves q :=
  Ensures.imp h (fun _ s => hpq s) fun _ s => hpq s

theorem Outcome.Leaves.of_done {step : Step ε σ α} {s t : σ} {a : α}
    {p : σ → Prop} (h : (step s).Leaves p) (ht : step s = .done a t) :
    p t := by
  rw [ht] at h
  exact h

namespace Step

theorem pure_bind (a : α) (next : α → Step ε σ β) :
    (pure a >>= next) = next a := rfl

theorem bind_assoc {γ : Type} (step : Step ε σ α) (next : α → Step ε σ β)
    (last : β → Step ε σ γ) :
    (step >>= next) >>= last = step >>= fun a => next a >>= last := by
  funext s
  simp only [bind_apply]
  cases step s <;> rfl

theorem ensures_bind {step : Step ε σ α} {next : α → Step ε σ β} {s : σ}
    {mid : α → σ → Prop} {good : β → σ → Prop} {bad : ε → σ → Prop}
    (h : (step s).Ensures mid bad)
    (hnext : ∀ a t, mid a t → (next a t).Ensures good bad) :
    ((step >>= next) s).Ensures good bad := by
  rw [bind_apply]
  cases hs : step s with
  | done a t =>
      rw [hs] at h
      exact hnext a t h
  | failed e t =>
      rw [hs] at h
      exact h

/-- Returning something leaves the state as it is. -/
theorem state_bind_pure (step : Step ε σ α) (b : β) (s : σ) :
    ((do
      let _ ← step
      return b : Step ε σ β) s).state = (step s).state := by
  rw [bind_apply]
  cases step s <;> rfl

theorem state_lift (result : Except ε α) (s : σ) :
    (lift result s).state = s := by
  cases result <;> rfl

theorem result_lift (result : Except ε α) (s : σ) :
    (lift result s).result = result := by
  cases result <;> rfl

theorem leaves_lift {result : Except ε α} {s : σ} {p : σ → Prop} (h : p s) :
    ((lift result : Step ε σ α) s).Leaves p := by
  cases result <;> exact h

end Step

/-! ## Steps without a state -/

theorem eq_ok_of_bind {first : Except ε α}
    {next : α → Except ε β} {b : β} (h : first >>= next = .ok b) :
    ∃ a, first = .ok a ∧ next a = .ok b := by
  cases first with
  | error e => cases h
  | ok a => exact ⟨a, rfl, h⟩

/-- A sequence that fails does so at its first part, or at what comes
behind. -/
theorem eq_error_of_bind {first : Except ε α}
    {next : α → Except ε β} {e : ε} (h : first >>= next = .error e) :
    first = .error e ∨ ∃ a, first = .ok a ∧ next a = .error e := by
  cases first with
  | error e' =>
      cases h
      exact Or.inl rfl
  | ok a => exact Or.inr ⟨a, rfl, h⟩

end Scriptlet
