import Mathlib.Algebra.Order.Ring.Nat

/-!
# Decimal digits

A number in decimal, in ASCII. Two digits at a time give the same text (`decimal_hundred`).
-/

namespace Datara.Library

/-- The digit of a number below ten. -/
def digit (d : Nat) : UInt8 := UInt8.ofNat (48 + d)

def decimal (n : Nat) : List UInt8 :=
  if n < 10 then [digit n] else decimal (n / 10) ++ [digit (n % 10)]

/-- An integer in decimal. -/
def decimalInt (v : Int) : List UInt8 := if v < 0 then 45 :: decimal v.natAbs else decimal v.natAbs

/-- The two digits of a number below a hundred. -/
def digitPair (r : Nat) : List UInt8 := [digit (r / 10), digit (r % 10)]

variable {n k : Nat}

theorem decimal_ten (h : n < 10) : decimal n = [digit n] := by
  rw [decimal, if_pos h]

theorem decimal_pair (hlow : 10 ≤ n) (hhigh : n < 100) : decimal n = digitPair n := by
  rw [decimal, if_neg (by omega), decimal_ten (by omega)]
  rfl

theorem decimal_hundred (h : 100 ≤ n) : decimal n = decimal (n / 100) ++ digitPair (n % 100) := by
  have hdiv : n / 10 / 10 = n / 100 := Nat.div_div_eq_div_mul n 10 10
  have htens : n % 100 / 10 = n / 10 % 10 := by omega
  have hones : n % 100 % 10 = n % 10 := by omega
  rw [decimal, if_neg (by omega), decimal, if_neg (by omega), hdiv, digitPair, htens, hones,
    List.append_assoc]
  rfl

theorem digit_ne_zero {d : Nat} (h : d < 10) : digit d ≠ 0 := by
  intro heq
  have hval := congrArg UInt8.toNat heq
  rw [digit, UInt8.toNat_ofNat'] at hval
  have hzero : (0 : UInt8).toNat = 0 := rfl
  omega

theorem decimal_nulFree (n : Nat) : 0 ∉ decimal n := by
  induction n using Nat.strong_induction_on with
  | _ n ih =>
    rw [decimal]
    by_cases h : n < 10
    · rw [if_pos h, List.mem_singleton]
      exact (digit_ne_zero h).symm
    · rw [if_neg h, List.mem_append, List.mem_singleton]
      exact fun hmem => hmem.elim (ih (n / 10) (by omega)) (digit_ne_zero (Nat.mod_lt n (by omega))).symm

theorem decimal_length (h : n < 10 ^ (k + 1)) : (decimal n).length ≤ k + 1 := by
  induction k generalizing n with
  | zero =>
    rw [decimal_ten (by omega)]
    exact Nat.le_refl 1
  | succ k ih =>
    rw [decimal]
    by_cases hten : n < 10
    · rw [if_pos hten, List.length_singleton]
      omega
    · rw [if_neg hten, List.length_append, List.length_singleton]
      have := ih (n := n / 10) (Nat.div_lt_of_lt_mul (by rwa [← pow_succ']))
      omega

/-! ## Reading a numeral -/

/-- The number a list of digits stands for. -/
def readDecimal (t : List UInt8) : Nat := t.foldl (fun n c => 10 * n + (c.toNat - 48)) 0

def readInt : List UInt8 → Int
  | 45 :: t => -(readDecimal t : Int)
  | t => readDecimal t

/-- Digits without leading zeros. -/
def Numeral (t : List UInt8) : Prop :=
  t ≠ [] ∧ (∀ c ∈ t, 48 ≤ c.toNat ∧ c.toNat ≤ 57) ∧ (t.head? = some 48 → t = [48])

/-- A numeral, after a sign where it is that of a negative number. -/
def IntNumeral (t : List UInt8) : Prop := Numeral t ∨ ∃ u, t = 45 :: u ∧ Numeral u ∧ u ≠ [48]

theorem digit_toNat {d : Nat} (h : d < 10) : (digit d).toNat = 48 + d := by
  rw [digit, UInt8.toNat_ofNat']
  omega

theorem digit_eq_zero {d : Nat} (h : d < 10) (heq : digit d = 48) : d = 0 := by
  have hval := congrArg UInt8.toNat heq
  rw [digit_toNat h] at hval
  have hzero : (48 : UInt8).toNat = 48 := rfl
  omega

theorem readDecimal_snoc (t : List UInt8) (c : UInt8) :
    readDecimal (t ++ [c]) = 10 * readDecimal t + (c.toNat - 48) := by
  rw [readDecimal, List.foldl_append]
  rfl

/-- **A numeral is read as the number it is of.** -/
theorem readDecimal_decimal (n : Nat) : readDecimal (decimal n) = n := by
  induction n using Nat.strong_induction_on with
  | _ n ih =>
    rw [decimal]
    by_cases h : n < 10
    · rw [if_pos h, ← List.nil_append [digit n], readDecimal_snoc, digit_toNat h]
      show 10 * 0 + (48 + n - 48) = n
      omega
    · rw [if_neg h, readDecimal_snoc, ih (n / 10) (by omega), digit_toNat (Nat.mod_lt n (by omega))]
      omega

theorem decimal_ne_nil (n : Nat) : decimal n ≠ [] := by
  rw [decimal]
  split
  · exact List.cons_ne_nil _ _
  · exact List.append_ne_nil_of_right_ne_nil _ (List.cons_ne_nil _ _)

theorem decimal_digits (n : Nat) : ∀ c ∈ decimal n, 48 ≤ c.toNat ∧ c.toNat ≤ 57 := by
  induction n using Nat.strong_induction_on with
  | _ n ih =>
    intro c hc
    rw [decimal] at hc
    by_cases h : n < 10
    · rw [if_pos h, List.mem_singleton] at hc
      rw [hc, digit_toNat h]
      omega
    · rw [if_neg h, List.mem_append, List.mem_singleton] at hc
      obtain hc | rfl := hc
      · exact ih (n / 10) (by omega) c hc
      · rw [digit_toNat (Nat.mod_lt n (by omega))]
        omega

/-- Only zero begins with a zero. -/
theorem decimal_head {n : Nat} (h : (decimal n).head? = some 48) : n = 0 := by
  induction n using Nat.strong_induction_on with
  | _ n ih =>
    rw [decimal] at h
    by_cases hten : n < 10
    · rw [if_pos hten] at h
      exact digit_eq_zero hten (Option.some.inj h)
    · rw [if_neg hten, List.head?_append, Option.or_of_isSome (List.isSome_head?.mpr (decimal_ne_nil _))] at h
      have := ih (n / 10) (by omega) h
      omega

theorem decimal_numeral (n : Nat) : Numeral (decimal n) := by
  refine ⟨decimal_ne_nil n, decimal_digits n, fun h => ?_⟩
  rw [decimal_head h]
  exact decimal_ten (by decide)

theorem decimalInt_numeral (v : Int) : IntNumeral (decimalInt v) := by
  unfold decimalInt
  split
  case isTrue h =>
    refine .inr ⟨_, rfl, decimal_numeral _, fun hzero => ?_⟩
    have := decimal_head (n := v.natAbs) (by rw [hzero]; rfl)
    omega
  case isFalse h => exact .inl (decimal_numeral _)

/-- **An integer is read back from its text.** -/
theorem readInt_decimalInt (v : Int) : readInt (decimalInt v) = v := by
  unfold decimalInt
  split
  case isTrue h =>
    show -(readDecimal (decimal v.natAbs) : Int) = v
    rw [readDecimal_decimal]
    omega
  case isFalse h =>
    have hplain : readInt (decimal v.natAbs) = readDecimal (decimal v.natAbs) := by
      unfold readInt
      split
      · rename_i t heq
        have := decimal_digits v.natAbs 45 (by rw [heq]; exact List.mem_cons_self)
        exact absurd this.1 (by decide)
      · rfl
    rw [hplain, readDecimal_decimal]
    omega

end Datara.Library
