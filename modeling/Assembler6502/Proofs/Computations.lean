/-!
# Computations that may fail

A computation of several steps stops at the first one that fails. These are the rules by which a
result or a failure of the whole is traced to its steps.

## Main results

* `bind_eq_ok`, `bind_eq_error`: when a step behind another one succeeds and when it fails
* `map_bind_eq_bind`: computations that correspond step by step
-/

namespace Assembler6502

variable {ε α β γ δ : Type} {x : Except ε α} {f : α → Except ε β}

/-- A computation that goes on behind another one succeeds if both do. -/
theorem bind_eq_ok {b : β} : x >>= f = .ok b ↔ ∃ a, x = .ok a ∧ f a = .ok b := by
  cases x <;> simp [bind, Except.bind]

/-- A computation that goes on behind another one fails if either does. -/
theorem bind_eq_error {err : ε} :
    x >>= f = .error err ↔ x = .error err ∨ ∃ a, x = .ok a ∧ f a = .error err := by
  cases x <;> simp [bind, Except.bind]

/-- Computations that correspond step by step have results that correspond. -/
theorem map_bind_eq_bind {g : β → γ} {h : α → δ} {k : δ → Except ε γ}
    (hk : ∀ a, (f a).map g = k (h a)) : (x >>= f).map g = x.map h >>= k := by
  cases x with
  | error err => rfl
  | ok a => exact hk a

end Assembler6502
