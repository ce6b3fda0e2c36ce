/-
# LazyBsd.Lib.Fallible — inversion rules for computations that may fail.

Two monads: `Except ε`, and `EStateM ε σ`, where a failure keeps the state it was reached in. A sequence ends
with a value exactly if its first part does and the rest does from there. A failure of the first part is the
failure of the sequence.
-/
import Mathlib.Data.List.Basic

namespace LazyBsd.Lib

theorem bind_eq_ok {ε α β : Type*} {x : Except ε α} {f : α → Except ε β} {b : β} :
    x.bind f = .ok b ↔ ∃ a, x = .ok a ∧ f a = .ok b := by
  cases x with
  | error e => simp [Except.bind]
  | ok a => simp [Except.bind]

section State

variable {ε σ α β : Type} {x : EStateM ε σ α} {f : α → EStateM ε σ β} {s s' : σ} {b : β} {e : ε}

/-- `EStateM.run_throw` at any type. -/
@[simp] theorem run_throw (e : ε) (s : σ) : (throw e : EStateM ε σ α).run s = .error e s := rfl

theorem run_bind_ok (h : (x >>= f).run s = .ok b s') :
    ∃ a s₁, x.run s = .ok a s₁ ∧ (f a).run s₁ = .ok b s' := by
  rw [EStateM.run_bind] at h
  cases hx : x.run s with
  | ok a s₁ =>
      rw [hx] at h
      exact ⟨a, s₁, rfl, h⟩
  | error e s₁ =>
      simp only [hx, reduceCtorEq] at h

theorem run_bind_of_ok {a : α} (h : x.run s = .ok a s') : (x >>= f).run s = (f a).run s' := by
  rw [EStateM.run_bind, h]

theorem run_bind_of_error (h : x.run s = .error e s') : (x >>= f).run s = .error e s' := by
  rw [EStateM.run_bind, h]

end State

end LazyBsd.Lib
