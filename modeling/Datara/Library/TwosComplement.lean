import Mathlib.Data.Nat.Bits
import Mathlib.Tactic.Linarith
import Mathlib.Tactic.Ring

/-!
# Two's-complement arithmetic

Facts about fixed-width words that an instruction selector rests on: when two integers share a
word, the powers of two among the words, and truncating division as a biased arithmetic shift.
-/

namespace Datara.Library

/-- Two integers have one word exactly when they differ by a multiple of `2 ^ w`. -/
theorem ofInt_eq_ofInt {w : Nat} {a b : Int} : BitVec.ofInt w a = BitVec.ofInt w b ↔ (2 ^ w : Int) ∣ a - b := by
  rw [← BitVec.toNat_inj, BitVec.toNat_ofInt, BitVec.toNat_ofInt,
    Int.dvd_iff_emod_eq_zero, ← Int.emod_eq_emod_iff_emod_sub_eq_zero]
  push_cast at *
  omega

theorem odd_multiple_of_lowest_bit {n k : Nat} (hk : n.testBit k = true)
    (hlow : ∀ i < k, n.testBit i = false) : ∃ q, n = 2 ^ k * (2 * q + 1) := by
  have hmod : n % 2 ^ k = 0 := by
    apply Nat.eq_of_testBit_eq
    intro i
    rw [Nat.testBit_mod_two_pow, Nat.zero_testBit]
    by_cases hi : i < k
    · simp [hlow i hi]
    · simp [hi]
  obtain ⟨m, hm⟩ := Nat.dvd_of_mod_eq_zero hmod
  have hbit : m % 2 = 1 := by
    rw [hm, Nat.testBit_two_pow_mul] at hk
    simpa using hk
  exact ⟨m / 2, by rw [hm]; congr 1; omega⟩

/-- `n &&& (n - 1) = 0` leaves the lowest set bit only. -/
theorem eq_two_pow_of_and_pred {n k : Nat} (hk : n.testBit k = true)
    (hlow : ∀ i < k, n.testBit i = false) (hand : n &&& (n - 1) = 0) : n = 2 ^ k := by
  obtain ⟨q, hq⟩ := odd_multiple_of_lowest_bit hk hlow
  have hpos : 0 < 2 ^ k := Nat.two_pow_pos k
  have hn : n / 2 ^ (k + 1) = q := by
    rw [hq, pow_succ, Nat.mul_div_mul_left _ _ hpos]; omega
  have hpred : (n - 1) / 2 ^ (k + 1) = q := by
    rw [Nat.div_eq_iff (by positivity), hq, pow_succ]
    constructor <;> (ring_nf; omega)
  have hshift : (n &&& (n - 1)) >>> (k + 1) = 0 := by rw [hand, Nat.zero_shiftRight]
  rw [Nat.shiftRight_and_distrib, Nat.shiftRight_eq_div_pow, Nat.shiftRight_eq_div_pow, hn, hpred,
    Nat.and_self] at hshift
  rw [hq, hshift]; ring

/-- A nonzero word with `c &&& (c - 1) = 0` is the power of two its trailing zeros count. -/
theorem toNat_eq_two_pow_ctz {w : Nat} {c : BitVec w} (hc : c ≠ 0) (hand : c &&& (c - 1) = 0) :
    c.toNat = 2 ^ c.ctz.toNat := by
  have hpos : 0 < c.toNat := by
    rcases Nat.eq_zero_or_pos c.toNat with h | h
    · exact absurd (BitVec.eq_of_toNat_eq (by simpa using h)) hc
    · exact h
  apply eq_two_pow_of_and_pred (k := c.ctz.toNat)
  · exact BitVec.getLsbD_true_ctz_of_ne_zero hc
  · intro i hi
    exact BitVec.getLsbD_false_of_lt_ctz hi
  · have h := congrArg BitVec.toNat hand
    have hone : (1 : BitVec w).toNat ≤ c.toNat := by
      have : (1 : BitVec w).toNat ≤ 1 := by
        simpa using Nat.mod_le 1 (2 ^ w)
      omega
    have hw : 1 < 2 ^ w := by have := c.isLt; omega
    rw [BitVec.toNat_and, BitVec.toNat_sub_of_le (BitVec.le_def.mpr hone)] at h
    simpa [Nat.mod_eq_of_lt hw] using h

/-- Truncating division by a power of two is a floor division after adding `2 ^ k - 1` to a
negative dividend. -/
theorem tdiv_two_pow_eq_biased (x : Int) (k : Nat) :
    x.tdiv (2 ^ k) = (x + if x < 0 then 2 ^ k - 1 else 0) / 2 ^ k := by
  have hp : (0 : Int) < 2 ^ k := by positivity
  split
  case isFalse h => rw [add_zero, Int.tdiv_eq_ediv_of_nonneg (by omega)]
  case isTrue h =>
    rw [Int.tdiv_eq_ediv, Int.sign_eq_one_of_pos hp]
    have hdm := Int.mul_ediv_add_emod x (2 ^ k)
    have hm1 := Int.emod_lt_of_pos x hp
    symm
    split
    case isTrue hd =>
      rcases hd with hd | hd
      · omega
      · have hz : x % 2 ^ k = 0 := Int.emod_eq_zero_of_dvd hd
        rw [Int.ediv_eq_iff_of_pos hp]
        constructor <;> nlinarith
    case isFalse hd =>
      rw [Int.ediv_eq_iff_of_pos hp]
      have : 1 ≤ x % 2 ^ k := by omega
      constructor <;> nlinarith

/-!
## Products compared through quotients

A product is beyond a bound exactly when one factor is beyond the quotient of the bound by the other. Quotients are
truncated towards zero, so each pair of signs has its own form.
-/

variable {a b m : Int}

theorem tdiv_lt_iff (hm : 0 ≤ m) (hb : 0 < b) : m.tdiv b < a ↔ m < a * b := by
  rw [Int.tdiv_eq_ediv_of_nonneg hm]
  exact Int.ediv_lt_iff_lt_mul hb

theorem lt_neg_tdiv_iff (hm : 0 ≤ m) (ha : 0 < a) : b < (-m).tdiv a ↔ a * b < -m := by
  have hquot : b < (-m).tdiv a ↔ m.tdiv a < -b := by
    rw [Int.neg_tdiv]
    omega
  rw [hquot, tdiv_lt_iff hm ha, Int.neg_mul, Int.mul_comm b a]
  omega

theorem lt_tdiv_of_neg_iff (hm : 0 ≤ m) (ha : a < 0) : b < m.tdiv a ↔ m < a * b := by
  have hquot : b < m.tdiv a ↔ m.tdiv (-a) < -b := by
    rw [Int.tdiv_neg]
    omega
  rw [hquot, tdiv_lt_iff hm (by omega), Int.neg_mul_neg, Int.mul_comm]

end Datara.Library
