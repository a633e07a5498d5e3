import Datara.Library.AggregateLayout
import Mathlib.Data.BitVec
import Mathlib.Data.Nat.Bitwise

/-!
# Fields of a word

A field of a word is read through a mask. A field is not changed by what is put under another mask
(`and_or_disjoint`), what is put under a mask is read back (`and_or_part`), and a field of a field is a field
of the word (`and_subfield`).
-/

namespace Datara.Library

variable {w : Nat} {a c p v mask sub : BitVec w}

/-- A field put next to what is above it. -/
theorem shiftLeft_or {a b j k : Nat} (h : b < 2 ^ k) : a <<< (k + j) ||| b <<< j = (a * 2 ^ k + b) <<< j := by
  rw [Nat.shiftLeft_add, ← Nat.shiftLeft_or_distrib, ← Nat.shiftLeft_add_eq_or_of_lt h, Nat.shiftLeft_eq a]

/-- What is put under a mask does not show under a disjoint one. -/
theorem and_or_disjoint (h : mask &&& sub = 0#w) : (a ||| (p &&& mask)) &&& sub = a &&& sub := by
  rw [BitVec.and_comm, BitVec.and_or_distrib_left, BitVec.and_comm sub (p &&& mask), BitVec.and_assoc, h,
    BitVec.and_zero, BitVec.or_zero, BitVec.and_comm]

/-- What is put under a mask where there was nothing is read back. -/
theorem and_or_part (h : a &&& mask = 0#w) : (a ||| (p &&& mask)) &&& mask = p &&& mask := by
  rw [BitVec.and_comm, BitVec.and_or_distrib_left, BitVec.and_comm mask a, h, BitVec.zero_or,
    BitVec.and_comm mask, BitVec.and_assoc, BitVec.and_self]

/-- A field of a field. -/
theorem and_subfield (h : mask &&& sub = sub) (hv : v &&& mask = c) : v &&& sub = c &&& sub := by
  rw [← hv, BitVec.and_assoc, h]

theorem toNat_and_low {n : Nat} (h : mask.toNat = 2 ^ n - 1) : (p &&& mask).toNat = p.toNat % 2 ^ n := by
  rw [BitVec.toNat_and, h, Nat.and_two_pow_sub_one_eq_mod]

theorem setWidth_and_low {k n : Nat} {q : BitVec k} (h : mask.toNat = 2 ^ n - 1) (hk : k ≤ n) :
    q.setWidth w &&& mask = q.setWidth w := by
  apply BitVec.eq_of_toNat_eq
  have hq : (q.setWidth w).toNat < 2 ^ n := by
    rw [BitVec.toNat_setWidth]
    calc q.toNat % 2 ^ w ≤ q.toNat := Nat.mod_le _ _
      _ < 2 ^ k := q.isLt
      _ ≤ 2 ^ n := Nat.pow_le_pow_right (by decide) hk
  rw [toNat_and_low h, Nat.mod_eq_of_lt hq]

theorem and_high_eq {x k : Nat} (hx : x < 2 ^ 64) (hk : k ≤ 64) :
    x &&& (2 ^ 64 - 1 - (2 ^ k - 1)) = x / 2 ^ k * 2 ^ k := by
  have hmask : 2 ^ 64 - 1 - (2 ^ k - 1) = (2 ^ (64 - k) - 1) <<< k := by
    have hpow : 2 ^ (64 - k) * 2 ^ k = 2 ^ 64 := by rw [← Nat.pow_add, Nat.sub_add_cancel hk]
    have hpos : 0 < 2 ^ k := Nat.two_pow_pos k
    rw [Nat.shiftLeft_eq, Nat.sub_mul, hpow]
    omega
  have hshift : x / 2 ^ k * 2 ^ k = (x >>> k) <<< k := by
    rw [Nat.shiftLeft_eq, Nat.shiftRight_eq_div_pow]
  rw [hmask, hshift]
  apply Nat.eq_of_testBit_eq
  intro i
  rw [Nat.testBit_and, Nat.testBit_shiftLeft, Nat.testBit_shiftLeft, Nat.testBit_two_pow_sub_one,
    Nat.testBit_shiftRight]
  by_cases hi : k ≤ i
  · rw [Nat.add_sub_cancel' hi]
    simp only [hi, decide_true, Bool.true_and]
    by_cases hlt : i - k < 64 - k
    · simp [hlt]
    · have hbit : x.testBit i = false :=
        Nat.testBit_lt_two_pow (hx.trans_le (Nat.pow_le_pow_right (by decide) (by omega)))
      simp [hbit]
  · simp [hi]

/-- Rounding a word up to a power of two through the mask of its high bits. -/
theorem add_and_high_eq {n k : Nat} (hk : k ≤ 64) (hn : n + (2 ^ k - 1) < 2 ^ 64) :
    (n + (2 ^ k - 1)) % 2 ^ 64 &&& (2 ^ 64 - 1 - (2 ^ k - 1)) = alignUp (2 ^ k) n := by
  rw [Nat.mod_eq_of_lt hn, and_high_eq hn hk, alignUp, Nat.add_sub_assoc (Nat.two_pow_pos k)]

end Datara.Library
