import Mathlib

/-!
# Computations that can fail

How a sequence of computations ends well, and when two sequences are equal.
-/

namespace Checked

variable {ε α β : Type}

theorem ok_bind (a : α) (f : α → Except ε β) : Except.ok a >>= f = f a := rfl

variable {m : Except ε α}

theorem bind_eq_ok : m >>= f = .ok b ↔ ∃ a, m = .ok a ∧ f a = .ok b := by
  cases m with
  | error e => simp [bind, Except.bind]
  | ok a => simp [bind, Except.bind]

theorem map_eq_ok : m.map f = .ok b ↔ ∃ a, m = .ok a ∧ f a = b := by
  cases m with
  | error e => simp [Except.map]
  | ok a => simp [Except.map]

theorem exists_map_eq_ok : (∃ b, m.map f = .ok b) ↔ ∃ a, m = .ok a := by
  cases m with
  | error e => simp [Except.map]
  | ok a => simp [Except.map]

theorem map_bind (m : Except ε α) (f : α → Except ε β) (g : β → γ) :
    (m >>= f).map g = m >>= fun a => (f a).map g := by
  cases m <;> rfl

theorem bind_congr_ok (h : ∀ a, m = .ok a → f a = g a) : m >>= f = m >>= g := by
  cases m with
  | error e => rfl
  | ok a => exact h a rfl

end Checked
