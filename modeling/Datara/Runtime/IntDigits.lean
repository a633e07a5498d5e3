import Datara.Library.Decimal

/-!
# Integers to text

`fast_i64toa` of `runtime/datara_string.c` writes the decimal digits of an integer by table lookups of two at a
time, with paths of its own for small ones. The text is that of the integer in decimal (`fastI64toa_eq`).
-/

namespace Datara.Runtime

open Library

/-- The digits of the loop: two at a time from the end, and one or two at last. -/
def digitsLoop (uval : Nat) (tail : List UInt8) : List UInt8 :=
  if 100 ≤ uval then digitsLoop (uval / 100) (digitPair (uval % 100) ++ tail)
  else if 10 ≤ uval then digitPair uval ++ tail
  else digit uval :: tail

/-- `fast_i64toa`: the text, without its terminator. -/
def fastI64toa (val : Int) : List UInt8 :=
  if 0 ≤ val ∧ val < 10000 then
    let v := val.toNat
    if v < 10 then [digit v]
    else if v < 100 then digitPair v
    else
      let q := v / 100
      let r := v - q * 100
      if 10 ≤ q then digitPair q ++ digitPair r else digit q :: digitPair r
  else if 0 ≤ val ∧ val < 1000000 then
    let v := val.toNat
    let q1 := v / 10000
    let rem := v - q1 * 10000
    let q2 := rem / 100
    let r := rem - q2 * 100
    (if 10 ≤ q1 then digitPair q1 else [digit q1]) ++ digitPair q2 ++ digitPair r
  else
    -- `(uint64_t)(-(val + 1)) + 1` is the magnitude of the least integer too
    let uval := if val < 0 then (-(val + 1)).toNat + 1 else val.toNat
    if val < 0 then 45 :: digitsLoop uval [] else digitsLoop uval []

variable {v : Nat} {val : Int}

theorem digitsLoop_eq (uval : Nat) (tail : List UInt8) : digitsLoop uval tail = decimal uval ++ tail := by
  induction uval using Nat.strong_induction_on generalizing tail with
  | _ uval ih =>
    rw [digitsLoop]
    by_cases hhundred : 100 ≤ uval
    · rw [if_pos hhundred, ih (uval / 100) (by omega), decimal_hundred hhundred, List.append_assoc]
    · rw [if_neg hhundred]
      by_cases hten : 10 ≤ uval
      · rw [if_pos hten, decimal_pair hten (by omega)]
      · rw [if_neg hten, decimal_ten (by omega)]
        rfl

theorem leading_eq (h : v < 100) : (if 10 ≤ v then digitPair v else [digit v]) = decimal v := by
  by_cases hten : 10 ≤ v
  · rw [if_pos hten, decimal_pair hten h]
  · rw [if_neg hten, decimal_ten (by omega)]

/-- **The text is the integer in decimal.** -/
theorem fastI64toa_eq (val : Int) : fastI64toa val = decimalInt val := by
  unfold fastI64toa decimalInt
  by_cases hneg : val < 0
  · have huval : (-(val + 1)).toNat + 1 = val.natAbs := by omega
    rw [if_neg (by omega), if_neg (by omega), if_pos hneg]
    simp only [hneg, if_true, huval, digitsLoop_eq, List.append_nil]
  have hnat : val.toNat = val.natAbs := by omega
  have hspec : (if val < 0 then 45 :: decimal val.natAbs else decimal val.natAbs) = decimal val.natAbs := if_neg hneg
  rw [hspec]
  by_cases hfour : 0 ≤ val ∧ val < 10000
  · rw [if_pos hfour, hnat]
    have hlt : val.natAbs < 10000 := by omega
    generalize val.natAbs = v at hlt
    by_cases hten : v < 10
    · simp [hten, decimal_ten]
    by_cases hhundred : v < 100
    · simp only [hten, hhundred, if_true, if_false]
      exact (decimal_pair (by omega) hhundred).symm
    have hr : v - v / 100 * 100 = v % 100 := by omega
    simp only [hten, hhundred, if_false, hr]
    rw [decimal_hundred (by omega), ← leading_eq (v := v / 100) (by omega)]
    split <;> rfl
  by_cases hsix : 0 ≤ val ∧ val < 1000000
  · rw [if_neg hfour, if_pos hsix, hnat]
    have hlow : 10000 ≤ val.natAbs := by omega
    have hhigh : val.natAbs < 1000000 := by omega
    generalize val.natAbs = v at hlow hhigh
    have hq : v / 10000 = v / 100 / 100 := (Nat.div_div_eq_div_mul v 100 100).symm
    have hq₂ : (v - v / 10000 * 10000) / 100 = v / 100 % 100 := by omega
    have hr : v - v / 10000 * 10000 - (v - v / 10000 * 10000) / 100 * 100 = v % 100 := by omega
    simp only [hr]
    rw [hq₂, hq, leading_eq (by omega), ← decimal_hundred (by omega), ← decimal_hundred (by omega)]
  · rw [if_neg hfour, if_neg hsix]
    simp [hneg, hnat, digitsLoop_eq]

theorem decimalInt_nulFree (val : Int) : 0 ∉ decimalInt val := by
  unfold decimalInt
  split
  · rw [List.mem_cons]
    exact fun h => h.elim (by decide) (decimal_nulFree _)
  · exact decimal_nulFree _

/-- The text of a 64-bit integer, with its terminator, is within 22 bytes. -/
theorem decimalInt_length (hlow : -2 ^ 63 ≤ val) (hhigh : val < 2 ^ 63) : (decimalInt val).length ≤ 20 := by
  have habs := decimal_length (n := val.natAbs) (k := 18) (by omega)
  unfold decimalInt
  split
  · rw [List.length_cons]
    omega
  · omega

end Datara.Runtime
