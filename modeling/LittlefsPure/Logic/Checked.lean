import Mathlib.Tactic.Common
import Mathlib.Tactic.Linarith

/-!
# Checked arithmetic

The arithmetic of unsigned words of `w` bits as partial operations on the natural numbers.
An operation has a value exactly when the true result is a word, so a computation that has a
value at all computed what the same expression means over the natural numbers.

## Why partial operations

The alternative is to compute modulo `2 ^ w` and to prove that no sum wraps.  Then each use of a
sum carries its bound as a side condition, and a bound that is missing shows only where a proof
gets stuck.  A partial operation has the bound in its value: a function written with these
operations has a value on exactly the inputs on which it does not go wrong, and that set can be
named by a theorem of its own.
-/

namespace Logic
namespace Checked

variable {w a b n m : ℕ}

/-- A number that is a word of `w` bits. -/
def fit (w n : ℕ) : Option ℕ := if n < 2 ^ w then some n else none

/-- Addition that does not overflow. -/
def add (w a b : ℕ) : Option ℕ := fit w (a + b)

/-- Multiplication that does not overflow. -/
def mul (w a b : ℕ) : Option ℕ := fit w (a * b)

/-- Subtraction that does not underflow. -/
def sub (a b : ℕ) : Option ℕ := if b ≤ a then some (a - b) else none

/-- Division by a positive number. -/
def div (a b : ℕ) : Option ℕ := if b = 0 then none else some (a / b)

@[simp] theorem fit_eq_some : fit w n = some m ↔ n < 2 ^ w ∧ n = m := by
  simp [fit]

@[simp] theorem fit_eq_none : fit w n = none ↔ 2 ^ w ≤ n := by
  simp [fit]

theorem add_of_lt (h : a + b < 2 ^ w) : add w a b = some (a + b) :=
  fit_eq_some.2 ⟨h, rfl⟩

theorem mul_of_lt (h : a * b < 2 ^ w) : mul w a b = some (a * b) :=
  fit_eq_some.2 ⟨h, rfl⟩

theorem sub_of_le (h : b ≤ a) : sub a b = some (a - b) :=
  if_pos h

theorem div_of_pos (h : 0 < b) : div a b = some (a / b) :=
  if_neg (Nat.ne_of_gt h)

end Checked
end Logic
