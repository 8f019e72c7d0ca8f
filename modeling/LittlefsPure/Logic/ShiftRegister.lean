import Mathlib.Tactic.Common
import Mathlib.Data.Nat.Bitwise

/-!
# Shift registers with feedback

A register of `w` bits that is shifted right by one bit, and added to a polynomial when the
bit that falls out is set.  The step is linear over exclusive or.  So `k` steps of a
register are `k` steps of its low `k` bits, which a table can hold, added to the register
shifted down by `k`.

## Why linearity is all it takes

A table holds the result of `k` steps for each value of the low `k` bits.  That this is enough is
not a matter of the polynomial: the feedback of a step depends on the bit that falls out, and of
the bits that fall out in `k` steps none comes from above the low `k`, but for what the feedback
itself has put there.  Since the step is linear, the low part with its feedback and the high part
without can be run apart and added.
-/

namespace Logic
namespace ShiftRegister

variable {w : ℕ} (p x y : BitVec w)

/-- One step.  The low bit, negated, is the mask of the polynomial. -/
def step : BitVec w := (x >>> 1) ^^^ (p &&& -(x &&& 1#w))

/-- A number of steps. -/
def steps : ℕ → BitVec w → BitVec w
  | 0, x => x
  | n + 1, x => steps n (step p x)

theorem step_eq : step p x = (x >>> 1) ^^^ (if x.getLsbD 0 then p else 0#w) := by
  rw [step, BitVec.and_one_eq_setWidth_ofBool_getLsbD]
  cases x.getLsbD 0 with
  | false => simp
  | true =>
      have hmask : -(BitVec.setWidth w (BitVec.ofBool true)) = BitVec.allOnes w := by
        have hone : BitVec.setWidth w (BitVec.ofBool true) = 1#w := by
          apply BitVec.eq_of_toNat_eq
          simp
        rw [hone, BitVec.neg_one_eq_allOnes]
      rw [hmask, BitVec.and_allOnes, if_pos rfl]

theorem step_xor : step p (x ^^^ y) = step p x ^^^ step p y := by
  have hxor : ∀ a b c d : BitVec w, (a ^^^ b) ^^^ (c ^^^ d) = (a ^^^ c) ^^^ (b ^^^ d) := by
    intro a b c d
    ac_rfl
  have hbit : (if (x ^^^ y).getLsbD 0 then p else 0#w) =
      (if x.getLsbD 0 then p else 0#w) ^^^ (if y.getLsbD 0 then p else 0#w) := by
    rw [BitVec.getLsbD_xor]
    cases x.getLsbD 0 <;> cases y.getLsbD 0 <;> simp
  rw [step_eq, step_eq, step_eq, hbit, BitVec.ushiftRight_xor_distrib, hxor]

theorem steps_xor (n : ℕ) : steps p n (x ^^^ y) = steps p n x ^^^ steps p n y := by
  induction n generalizing x y with
  | zero => rfl
  | succ n ih => rw [steps, step_xor, ih, steps, steps]

theorem steps_add (m n : ℕ) : steps p (m + n) x = steps p n (steps p m x) := by
  induction m generalizing x with
  | zero => rw [Nat.zero_add, steps]
  | succ m ih => rw [Nat.add_right_comm, steps, ih, steps]

/-- A register whose low bits are clear only moves down. -/
theorem steps_of_clear {n : ℕ} (h : ∀ i < n, x.getLsbD i = false) : steps p n x = x >>> n := by
  induction n generalizing x with
  | zero => rw [steps, BitVec.ushiftRight_zero]
  | succ n ih =>
      have hstep : step p x = x >>> 1 := by
        rw [step_eq, h 0 (Nat.succ_pos n)]
        simp
      have hclear : ∀ i < n, (x >>> 1).getLsbD i = false := by
        intro i hi
        rw [BitVec.getLsbD_ushiftRight, Nat.add_comm]
        exact h (i + 1) (Nat.succ_lt_succ hi)
      rw [steps, hstep, ih _ hclear, ← BitVec.shiftRight_add, Nat.add_comm]

/-- What is shifted in from below comes out again. -/
theorem steps_shiftLeft {n : ℕ} (h : x.toNat < 2 ^ (w - n)) (hn : n ≤ w) :
    steps p n (x <<< n) = x := by
  have hclear : ∀ i < n, (x <<< n).getLsbD i = false := by
    intro i hi
    rw [BitVec.getLsbD_shiftLeft, decide_eq_true hi]
    simp
  rw [steps_of_clear p _ hclear]
  apply BitVec.eq_of_toNat_eq
  have hpow : 2 ^ w = 2 ^ (w - n) * 2 ^ n := by
    rw [← pow_add, Nat.sub_add_cancel hn]
  have hfit : x.toNat * 2 ^ n < 2 ^ w := by
    rw [hpow]
    exact Nat.mul_lt_mul_of_pos_right h (Nat.two_pow_pos n)
  rw [BitVec.toNat_ushiftRight, BitVec.toNat_shiftLeft, Nat.shiftLeft_eq, Nat.mod_eq_of_lt hfit,
    Nat.shiftRight_eq_div_pow, Nat.mul_div_cancel _ (Nat.two_pow_pos n)]

/-- The low bits of a register. -/
def low (n : ℕ) : BitVec w := BitVec.ofNat w (x.toNat % 2 ^ n)

theorem split_low (n : ℕ) : x = (x >>> n) <<< n ^^^ low x n := by
  apply BitVec.eq_of_getLsbD_eq
  intro i hi
  rw [BitVec.getLsbD_xor, BitVec.getLsbD_shiftLeft, BitVec.getLsbD_ushiftRight, low,
    BitVec.getLsbD_ofNat, Nat.testBit_mod_two_pow, BitVec.getLsbD]
  by_cases hlow : i < n
  · simp [hlow, hi]
  · have hback : n + (i - n) = i := by omega
    simp [hlow, hi, hback, BitVec.getLsbD]

/-- **The table.**  A number of steps is the register shifted down, added to as many steps
of its low bits. -/
theorem steps_eq_table (n : ℕ) : steps p n x = (x >>> n) ^^^ steps p n (low x n) := by
  have hclear : ∀ i < n, ((x >>> n) <<< n).getLsbD i = false := by
    intro i hi
    rw [BitVec.getLsbD_shiftLeft, decide_eq_true hi]
    simp
  have hhigh : ((x >>> n) <<< n) >>> n = x >>> n := by
    apply BitVec.eq_of_getLsbD_eq
    intro i hi
    rw [BitVec.getLsbD_ushiftRight, BitVec.getLsbD_shiftLeft, BitVec.getLsbD_ushiftRight]
    by_cases hin : n + i < w
    · simp [hin]
    · simp [hin, BitVec.getLsbD_of_ge x (n + i) (Nat.le_of_not_lt hin)]
  conv_lhs => rw [split_low x n]
  rw [steps_xor, steps_of_clear p _ hclear, hhigh]

end ShiftRegister
end Logic
