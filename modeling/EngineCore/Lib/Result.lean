import Mathlib.Logic.Basic

/-!
# Computations that may fail

* `Except.either`: the value of one of two functions;
* `Except.bind_ok`, `Except.pure_ok`: what is known of a computation that has succeeded, part by part.
-/

namespace Except

variable {ε α β : Type}

def either (onError : ε → β) (onOk : α → β) : Except ε α → β
  | .error e => onError e
  | .ok a => onOk a

theorem bind_ok {x : Except ε α} {f : α → Except ε β} {b : β} :
    (x >>= f) = .ok b ↔ ∃ a, x = .ok a ∧ f a = .ok b := by
  cases x <;> simp [bind, Except.bind]

@[simp] theorem pure_ok {a b : α} : (pure a : Except ε α) = .ok b ↔ a = b := by
  simp [pure, Except.pure]

end Except
