import Datara.Library.Decimal
import Mathlib.Data.Rat.Cast.Order
import Mathlib.Tactic.FieldSimp
import Mathlib.Tactic.Ring

/-!
# Decimal fractions

A number with a given number of places after its point, in ASCII. The text without trailing zeros is the
shortest of its value (`shortest_fixedInt`), and the text of a number of places tells the number
(`fixedInt_injective`).
-/

namespace Datara.Library

/-- The digits of a number, as many as are asked for. -/
def fractionDigits : Nat → Nat → List UInt8
  | 0, _ => []
  | k + 1, f => fractionDigits k (f / 10) ++ [digit (f % 10)]

/-- A number of `10 ^ -k`, with a point before the last `k` digits. -/
def pointed (k n : Nat) : List UInt8 := decimal (n / 10 ^ k) ++ 46 :: fractionDigits k (n % 10 ^ k)

/-- The same, without a point that no digit follows. -/
def fixed (k n : Nat) : List UInt8 := if k = 0 then decimal n else pointed k n

/-- A text with a sign or without. -/
def signed (neg : Bool) (t : List UInt8) : List UInt8 := if neg then 45 :: t else t

/-- An integer of `10 ^ -k`. -/
def fixedInt (k : Nat) (r : Int) : List UInt8 := signed (r < 0) (fixed k r.natAbs)

/-- The text is a plain decimal of the value: a sign or none, a numeral, and a fraction or none. -/
def Denotes (t : List UInt8) (q : ℚ) : Prop :=
  ∃ neg k n, t = signed neg (fixed k n) ∧ q = (if neg then -1 else 1) * (n : ℚ) / 10 ^ k

/-- The plain decimal of the value that every other is longer than. -/
def Shortest (t : List UInt8) (q : ℚ) : Prop := Denotes t q ∧ ∀ t', Denotes t' q → t' = t ∨ t.length < t'.length

/-- `r` is the nearest integer to `a / b`, the one further from zero of two. -/
def RoundedAway (a b r : Int) : Prop :=
  2 * (a - r * b).natAbs ≤ b ∧ (2 * ((a - r * b).natAbs : Int) = b → a.natAbs ≤ (r * b).natAbs)

variable {k n m : Nat} {r : Int} {t s : List UInt8}

/-! ## Trailing zeros -/

theorem fractionDigits_length (k f : Nat) : (fractionDigits k f).length = k := by
  induction k generalizing f with
  | zero => rfl
  | succ k ih => rw [fractionDigits, List.length_append, ih, List.length_singleton]

theorem pointed_zero (n : Nat) : pointed 0 n = decimal n ++ [46] := by
  rw [pointed, pow_zero, Nat.div_one]
  rfl

theorem pointed_succ (k n : Nat) : pointed (k + 1) n = pointed k (n / 10) ++ [digit (n % 10)] := by
  have hint : n / 10 ^ (k + 1) = n / 10 / 10 ^ k := by rw [pow_succ', Nat.div_div_eq_div_mul]
  have hfrac : n % 10 ^ (k + 1) / 10 = n / 10 % 10 ^ k := by
    rw [pow_succ', Nat.mod_mul_right_div_self]
  have hlast : n % 10 ^ (k + 1) % 10 = n % 10 := Nat.mod_mod_of_dvd n (dvd_pow_self 10 (Nat.succ_ne_zero k))
  rw [pointed, fractionDigits, hint, hfrac, hlast, pointed, List.append_assoc]
  rfl

/-- The places that are left without trailing zeros, and the number of them. -/
def stripped : Nat → Nat → Nat × Nat
  | 0, n => (0, n)
  | k + 1, n => if n % 10 = 0 then stripped k (n / 10) else (k + 1, n)

theorem stripped_spec (k n : Nat) : (stripped k n).1 ≤ k ∧ (stripped k n).2 * 10 ^ (k - (stripped k n).1) = n ∧
    ((stripped k n).1 ≠ 0 → (stripped k n).2 % 10 ≠ 0) := by
  induction k generalizing n with
  | zero => exact ⟨Nat.le_refl 0, Nat.mul_one n, fun h => absurd rfl h⟩
  | succ k ih =>
    rw [stripped]
    by_cases hlast : n % 10 = 0
    · obtain ⟨hle, hval, hmod⟩ := ih (n / 10)
      rw [if_pos hlast]
      refine ⟨by omega, ?_, hmod⟩
      rw [Nat.succ_sub hle, pow_succ, ← Nat.mul_assoc, hval]
      omega
    · rw [if_neg hlast]
      exact ⟨Nat.le_refl _, by rw [Nat.sub_self, pow_zero, Nat.mul_one], fun _ => hlast⟩

theorem fixed_length (k n : Nat) :
    (fixed k n).length = (decimal (n / 10 ^ k)).length + if k = 0 then 0 else k + 1 := by
  rw [fixed]
  split
  case isTrue h => rw [h, pow_zero, Nat.div_one, Nat.add_zero]
  case isFalse h => rw [pointed, List.length_append, List.length_cons, fractionDigits_length]

theorem signed_length (neg : Bool) (t : List UInt8) : (signed neg t).length = t.length + if neg then 1 else 0 := by
  cases neg <;> rfl

/-- One more place makes the text longer. -/
theorem fixed_length_lt {j p : Nat} (h : j < p) : (fixed j m).length < (fixed p (m * 10 ^ (p - j))).length := by
  have hint : m * 10 ^ (p - j) / 10 ^ p = m / 10 ^ j := by
    have hp : 10 ^ p = 10 ^ j * 10 ^ (p - j) := by rw [← pow_add, Nat.add_sub_cancel' h.le]
    rw [hp, Nat.mul_div_mul_right _ _ (Nat.pow_pos (by decide))]
  rw [fixed_length, fixed_length, hint]
  split <;> split <;> omega

theorem sign_mul_natAbs (r : Int) : (if decide (r < 0) = true then -1 else 1) * (r.natAbs : ℚ) = r := by
  rw [Nat.cast_natAbs]
  by_cases h : r < 0
  · rw [if_pos (decide_eq_true h), abs_of_neg h, Int.cast_neg]
    ring
  · rw [if_neg (by rwa [decide_eq_true_eq]), abs_of_nonneg (by omega), one_mul]

theorem denotes_fixedInt (k : Nat) (r : Int) : Denotes (fixedInt k r) ((r : ℚ) / 10 ^ k) :=
  ⟨_, k, _, rfl, by rw [sign_mul_natAbs]⟩

/-- Two plain decimals of one value, without the fractions. -/
theorem cross_of_value {neg : Bool} {p : Nat} (h : (r : ℚ) / 10 ^ k = (if neg then -1 else 1) * (n : ℚ) / 10 ^ p) :
    r * 10 ^ p = (if neg then -1 else 1) * (n : Int) * 10 ^ k := by
  have hk : (10 : ℚ) ^ k ≠ 0 := pow_ne_zero k (by norm_num)
  have hp : (10 : ℚ) ^ p ≠ 0 := pow_ne_zero p (by norm_num)
  rw [div_eq_div_iff hk hp] at h
  exact_mod_cast h

/-- **The text without trailing zeros is the shortest of its value.** -/
theorem shortest_fixedInt (h : k ≠ 0 → r.natAbs % 10 ≠ 0) : Shortest (fixedInt k r) ((r : ℚ) / 10 ^ k) := by
  refine ⟨denotes_fixedInt k r, ?_⟩
  intro t' ht'
  obtain ⟨neg, p, n, rfl, hvalue⟩ := ht'
  have hcross := cross_of_value hvalue
  have hpow (i : Nat) : (0 : Int) < 10 ^ i := Int.pow_pos (by decide)
  have hsign : r < 0 → neg = true := by
    intro hneg
    by_contra hpos
    rw [if_neg hpos, one_mul] at hcross
    have hleft : r * 10 ^ p < 0 := Int.mul_neg_of_neg_of_pos hneg (hpow p)
    have hright : (0 : Int) ≤ n * 10 ^ k := Int.mul_nonneg (Int.natCast_nonneg n) (hpow k).le
    omega
  have habs : r.natAbs * 10 ^ p = n * 10 ^ k := by
    have := congrArg Int.natAbs hcross
    rw [Int.natAbs_mul, Int.natAbs_mul, Int.natAbs_mul, Int.natAbs_pow, Int.natAbs_pow] at this
    cases neg <;> simpa using this
  have hlen : (fixedInt k r).length ≤ (fixed k r.natAbs).length + if neg then 1 else 0 := by
    rw [fixedInt, signed_length]
    by_cases hneg : r < 0
    · rw [hsign hneg, decide_eq_true hneg]
    · rw [decide_eq_false hneg]
      exact Nat.add_le_add_left (Nat.zero_le _) _
  obtain hlt | rfl | hgt := Nat.lt_trichotomy p k
  · have hk : 10 ^ k = 10 ^ (k - p) * 10 ^ p := by rw [← pow_add, Nat.sub_add_cancel hlt.le]
    rw [hk, ← Nat.mul_assoc] at habs
    have hval := Nat.eq_of_mul_eq_mul_right (Nat.pow_pos (by decide)) habs
    have hdvd : 10 ∣ r.natAbs := hval ▸ Dvd.dvd.mul_left (dvd_pow_self 10 (by omega)) n
    exact absurd (Nat.mod_eq_zero_of_dvd hdvd) (h (by omega))
  · obtain rfl := Nat.eq_of_mul_eq_mul_right (Nat.pow_pos (by decide)) habs
    by_cases heq : neg = decide (r < 0)
    · exact .inl (by rw [heq, fixedInt])
    · right
      rw [signed_length, fixedInt, signed_length]
      by_cases hneg : r < 0
      · exact absurd (by rw [hsign hneg, decide_eq_true hneg]) heq
      · rw [decide_eq_false hneg] at heq ⊢
        rw [Bool.eq_true_of_not_eq_false heq]
        exact Nat.lt_succ_self _
  · have hp : 10 ^ p = 10 ^ (p - k) * 10 ^ k := by rw [← pow_add, Nat.sub_add_cancel hgt.le]
    rw [hp, ← Nat.mul_assoc] at habs
    obtain rfl := Nat.eq_of_mul_eq_mul_right (Nat.pow_pos (by decide)) habs
    right
    rw [signed_length]
    have := fixed_length_lt (m := r.natAbs) hgt
    omega

/-! ## Reading a number of places -/

/-- The number of places a text stands for. -/
def readPlaces : List UInt8 → Int
  | 45 :: t => -(readDecimal (t.filter (· != 46)) : Int)
  | t => readDecimal (t.filter (· != 46))

theorem readDecimal_fraction {f : Nat} (hf : f < 10 ^ k) :
    readDecimal (t ++ fractionDigits k f) = readDecimal t * 10 ^ k + f := by
  induction k generalizing f with
  | zero =>
    have hzero : f = 0 := by omega
    rw [fractionDigits, List.append_nil, hzero, pow_zero, Nat.mul_one, Nat.add_zero]
  | succ k ih =>
    rw [pow_succ] at hf
    rw [fractionDigits, ← List.append_assoc, readDecimal_snoc, ih (by omega), digit_toNat (Nat.mod_lt f (by decide)),
      pow_succ, ← Nat.mul_assoc]
    omega

theorem fractionDigits_digits (k f : Nat) : ∀ c ∈ fractionDigits k f, 48 ≤ c.toNat ∧ c.toNat ≤ 57 := by
  induction k generalizing f with
  | zero => exact nofun
  | succ k ih =>
    intro c hc
    obtain hc | hc := List.mem_append.mp hc
    · exact ih (f / 10) c hc
    · rw [List.mem_singleton.mp hc, digit_toNat (Nat.mod_lt f (by decide))]
      omega

theorem filter_digits (h : ∀ c ∈ t, 48 ≤ c.toNat ∧ c.toNat ≤ 57) : t.filter (· != 46) = t := by
  rw [List.filter_eq_self]
  intro c hc
  rw [bne_iff_ne]
  intro heq
  rw [heq] at hc
  exact absurd (h 46 hc).1 (by decide)

theorem readDecimal_fixed (k n : Nat) : readDecimal ((fixed k n).filter (· != 46)) = n := by
  rw [fixed]
  split
  · rw [filter_digits (decimal_digits n), readDecimal_decimal]
  · have hpoint : List.filter (· != 46) (46 :: fractionDigits k (n % 10 ^ k)) = fractionDigits k (n % 10 ^ k) := by
      rw [List.filter_cons_of_neg (by decide), filter_digits (fractionDigits_digits k _)]
    rw [pointed, List.filter_append, hpoint, filter_digits (decimal_digits _),
      readDecimal_fraction (Nat.mod_lt n (Nat.pow_pos (by decide))), readDecimal_decimal]
    exact Nat.div_add_mod' n (10 ^ k)

theorem fixed_head (k n : Nat) : (fixed k n).head? ≠ some 45 := by
  have hdecimal (m : Nat) : (decimal m).head? ≠ some 45 := by
    intro h
    exact absurd (decimal_digits m 45 (List.mem_of_mem_head? h)).1 (by decide)
  rw [fixed]
  split
  · exact hdecimal n
  · rw [pointed, List.head?_append, Option.or_of_isSome (List.isSome_head?.mpr (decimal_ne_nil _))]
    exact hdecimal _

theorem readPlaces_fixedInt (k : Nat) (r : Int) : readPlaces (fixedInt k r) = r := by
  by_cases h : r < 0
  · rw [fixedInt, decide_eq_true h]
    show -(readDecimal ((fixed k r.natAbs).filter (· != 46)) : Int) = r
    rw [readDecimal_fixed]
    omega
  · rw [fixedInt, decide_eq_false h]
    show readPlaces (fixed k r.natAbs) = r
    unfold readPlaces
    split
    · rename_i t heq
      exact absurd (by rw [heq]; rfl) (fixed_head k r.natAbs)
    · rw [readDecimal_fixed]
      omega

/-- **The text of a number of places tells the number.** -/
theorem fixedInt_injective {r' : Int} (h : fixedInt k r = fixedInt k r') : r = r' := by
  rw [← readPlaces_fixedInt k r, h, readPlaces_fixedInt]

end Datara.Library
