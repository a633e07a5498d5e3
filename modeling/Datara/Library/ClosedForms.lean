import Mathlib.Algebra.BigOperators.Intervals
import Mathlib.Tactic.Ring
import Mathlib.LinearAlgebra.Matrix.Notation
import Mathlib.Tactic.LinearCombination

/-!
# Sums of powers and linear recurrences

The sums of the powers below `m`, up to the fourth, as the products they divide, and a recurrence of the second order
as a power of its companion matrix.
-/

namespace Datara.Library

open Finset Matrix

section
variable (m : Nat)

theorem two_mul_sum_range : 2 * ∑ i ∈ range m, (i : Int) = m * (m - 1) := by
  induction m with
  | zero => rfl
  | succ m ih =>
    rw [sum_range_succ, mul_add, ih]
    push_cast
    ring

theorem six_mul_sum_range_sq : 6 * ∑ i ∈ range m, (i : Int) ^ 2 = m * (m - 1) * (2 * m - 1) := by
  induction m with
  | zero => rfl
  | succ m ih =>
    rw [sum_range_succ, mul_add, ih]
    push_cast
    ring

theorem sum_range_cube : ∑ i ∈ range m, (i : Int) ^ 3 = (∑ i ∈ range m, (i : Int)) ^ 2 := by
  induction m with
  | zero => rfl
  | succ m ih =>
    have hsum := two_mul_sum_range m
    rw [sum_range_succ, sum_range_succ, ih]
    linear_combination -(m : Int) * hsum

theorem thirty_mul_sum_range_fourth :
    30 * ∑ i ∈ range m, (i : Int) ^ 4 = m * (m - 1) * (2 * m - 1) * (3 * m * m - 3 * m - 1) := by
  induction m with
  | zero => rfl
  | succ m ih =>
    rw [sum_range_succ, mul_add, ih]
    push_cast
    ring

end

/-- One step of exponentiation by squaring, in any monoid: what is left of the power is halved and the base squared. -/
theorem mul_pow_halve {M : Type*} [Monoid M] (r m : M) (k : Nat) :
    (if k % 2 = 1 then r * m else r) * (m * m) ^ (k / 2) = r * m ^ k := by
  rw [← pow_two, ← pow_mul]
  split_ifs with hodd
  · rw [mul_assoc, ← pow_succ']
    congr 2
    omega
  · congr 2
    omega

section
variable {R : Type*} [CommRing R]

/-- `x (k + 2) = a * x (k + 1) + b * x k`, from `x 0` and `x 1`. -/
def recurrence (a b x0 x1 : R) : Nat → R
  | 0 => x0
  | 1 => x1
  | k + 2 => a * recurrence a b x0 x1 (k + 1) + b * recurrence a b x0 x1 k

/-- The companion matrix takes two neighbours of the sequence to the next two. -/
theorem companion_pow (a b x0 x1 : R) (k : Nat) :
    (!![a, b; 1, 0] ^ k) *ᵥ ![x1, x0] = ![recurrence a b x0 x1 (k + 1), recurrence a b x0 x1 k] := by
  induction k with
  | zero => simp [recurrence]
  | succ k ih =>
    rw [pow_succ', ← Matrix.mulVec_mulVec, ih]
    ext i
    fin_cases i <;> simp [recurrence, Matrix.mulVec, dotProduct]

end

end Datara.Library
