import Mathlib.Algebra.Group.Int.Defs
import Mathlib.Algebra.Group.Nat.Defs
import Mathlib.Tactic.SplitIfs

/-!
# Rounding to a number of significant bits

Round to nearest, ties to even, of integers whose magnitude the exponent never limits. Rounding keeps the order
(`roundInt_mono`) and commutes with negation; what has no more bits than are kept is not changed.
-/

namespace Datara.Library

/-- A natural number with `p` significant bits. -/
def roundNat (p n : Nat) : Nat :=
  let e := n.log2 + 1 - p
  let q := n / 2 ^ e
  let r := n % 2 ^ e
  if 2 * r < 2 ^ e ∨ 2 * r = 2 ^ e ∧ q % 2 = 0 then q * 2 ^ e else (q + 1) * 2 ^ e

def roundInt (p : Nat) (i : Int) : Int := i.sign * (roundNat p i.natAbs : Nat)

section
variable {p n m : Nat} {i j : Int}

theorem roundNat_zero : roundNat p 0 = 0 := by
  have hpos := Nat.two_pow_pos (Nat.log2 0 + 1 - p)
  rw [roundNat, if_pos (.inl (by rwa [Nat.zero_mod, Nat.mul_zero])), Nat.zero_div, Nat.zero_mul]

/-- Within one binade the rounded number is between neighbours that are multiples of its unit. -/
theorem roundNat_bounds (hp : 0 < p) (hn : n ≠ 0) :
    2 ^ n.log2 ≤ roundNat p n ∧ roundNat p n ≤ 2 ^ (n.log2 + 1) := by
  obtain ⟨k, hk⟩ : ∃ k, n.log2 = n.log2 + 1 - p + k := ⟨n.log2 - (n.log2 + 1 - p), by omega⟩
  have hlow := Nat.log2_self_le hn
  have hhigh := Nat.lt_log2_self (n := n)
  rw [roundNat]
  generalize n.log2 + 1 - p = e at *
  have hunit := Nat.two_pow_pos e
  have hq : 2 ^ k ≤ n / 2 ^ e := by
    rw [Nat.le_div_iff_mul_le hunit, Nat.mul_comm, ← Nat.pow_add, ← hk]
    exact hlow
  have hq' : n / 2 ^ e + 1 ≤ 2 ^ (k + 1) := by
    rw [Nat.succ_le_iff, Nat.div_lt_iff_lt_mul hunit, Nat.mul_comm, ← Nat.pow_add, ← Nat.add_assoc, ← hk]
    exact hhigh
  have hpow : 2 ^ (n.log2 + 1) = 2 ^ (k + 1) * 2 ^ e := by rw [Nat.mul_comm, ← Nat.pow_add, ← Nat.add_assoc, ← hk]
  have hfloor : 2 ^ n.log2 ≤ n / 2 ^ e * 2 ^ e := by
    rw [hk, Nat.pow_add, Nat.mul_comm]
    exact Nat.mul_le_mul_right _ hq
  have hceil : (n / 2 ^ e + 1) * 2 ^ e ≤ 2 ^ (n.log2 + 1) := by
    rw [hpow]
    exact Nat.mul_le_mul_right _ hq'
  have hstep : n / 2 ^ e * 2 ^ e ≤ (n / 2 ^ e + 1) * 2 ^ e := Nat.mul_le_mul_right _ (Nat.le_succ _)
  split_ifs
  · exact ⟨hfloor, Nat.le_trans hstep hceil⟩
  · exact ⟨Nat.le_trans hfloor hstep, hceil⟩

theorem roundNat_mono (hp : 0 < p) (h : n ≤ m) : roundNat p n ≤ roundNat p m := by
  by_cases hn : n = 0
  · rw [hn, roundNat_zero]
    exact Nat.zero_le _
  have hm : m ≠ 0 := by omega
  have hlog : n.log2 ≤ m.log2 := (Nat.le_log2 hm).mpr (Nat.le_trans (Nat.log2_self_le hn) h)
  by_cases hsame : n.log2 = m.log2
  · rw [roundNat, roundNat, ← hsame]
    generalize n.log2 + 1 - p = e
    have hq : n / 2 ^ e ≤ m / 2 ^ e := Nat.div_le_div_right h
    have hn' := Nat.div_add_mod n (2 ^ e)
    have hm' := Nat.div_add_mod m (2 ^ e)
    generalize n / 2 ^ e = q at *
    generalize m / 2 ^ e = q' at *
    by_cases heq : q = q'
    · subst heq
      have hstep : q * 2 ^ e ≤ (q + 1) * 2 ^ e := Nat.mul_le_mul_right _ (Nat.le_succ _)
      split_ifs <;> omega
    · have hstep : (q + 1) * 2 ^ e ≤ q' * 2 ^ e := Nat.mul_le_mul_right _ (by omega)
      have hleft : q * 2 ^ e ≤ (q + 1) * 2 ^ e := Nat.mul_le_mul_right _ (Nat.le_succ _)
      have hright : q' * 2 ^ e ≤ (q' + 1) * 2 ^ e := Nat.mul_le_mul_right _ (Nat.le_succ _)
      split_ifs <;> omega
  · -- the numbers are in different binades, and a power of two is between them
    calc roundNat p n ≤ 2 ^ (n.log2 + 1) := (roundNat_bounds hp hn).2
      _ ≤ 2 ^ m.log2 := Nat.pow_le_pow_right (by decide) (by omega)
      _ ≤ roundNat p m := (roundNat_bounds hp hm).1

theorem roundInt_neg : roundInt p (-i) = -roundInt p i := by
  rw [roundInt, Int.sign_neg, Int.natAbs_neg, Int.neg_mul, roundInt]

theorem roundInt_natCast : roundInt p n = roundNat p n := by
  by_cases hn : n = 0
  · simp [hn, roundInt, roundNat_zero]
  · rw [roundInt, Int.natAbs_natCast, Int.sign_natCast_of_ne_zero hn, Int.one_mul]

theorem roundInt_mono (hp : 0 < p) (h : i ≤ j) : roundInt p i ≤ roundInt p j := by
  obtain ⟨n, rfl | rfl⟩ := Int.eq_nat_or_neg i
  all_goals obtain ⟨m, rfl | rfl⟩ := Int.eq_nat_or_neg j
  all_goals simp only [roundInt_neg, roundInt_natCast]
  · exact Int.ofNat_le.mpr (roundNat_mono hp (Int.ofNat_le.mp h))
  · obtain rfl : n = 0 := by omega
    obtain rfl : m = 0 := by omega
    rw [roundNat_zero]
    exact Int.le_refl 0
  · omega
  · have hle := roundNat_mono (p := p) hp (show m ≤ n by omega)
    omega

end

end Datara.Library
