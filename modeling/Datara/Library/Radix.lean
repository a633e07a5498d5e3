import Mathlib.Tactic.IntervalCases

/-!
# Numbers in a radix

Reading digits with a bound on the value (`parseDigits`), and writing them with leading zeros up to a width
(`zeroPadded`). What was written is read again (`parseDigits_zeroPadded`).
-/

namespace Datara.Library

/-- The digit a character is in a radix. -/
def digitVal (r : Nat) (c : Char) : Option Nat :=
  let d :=
    if '0' ≤ c ∧ c ≤ '9' then some (c.toNat - 48)
    else if 'a' ≤ c ∧ c ≤ 'z' then some (c.toNat - 87)
    else if 'A' ≤ c ∧ c ≤ 'Z' then some (c.toNat - 55)
    else none
  d.filter (· < r)

/-- The number that digits make, after those of `acc`. -/
def digitsValue (r : Nat) : Nat → List Char → Option Nat
  | acc, [] => some acc
  | acc, c :: cs => (digitVal r c).bind fun d => digitsValue r (acc * r + d) cs

/-- The same, when no step goes over `limit`. -/
def parseDigits (limit r : Nat) : Nat → List Char → Option Nat
  | acc, [] => some acc
  | acc, c :: cs => (digitVal r c).bind fun d =>
      if limit < acc * r + d then none else parseDigits limit r (acc * r + d) cs

/-- A number with leading zeros, in `width` digits or more. -/
def zeroPadded (r width n : Nat) : List Char :=
  List.replicate (width - (Nat.toDigits r n).length) '0' ++ Nat.toDigits r n

section
variable {r n v acc limit width : Nat} {cs ds : List Char} {c : Char}

theorem le_of_digitsValue (hr : 0 < r) (h : digitsValue r acc cs = some v) : acc ≤ v := by
  induction cs generalizing acc with
  | nil => exact (Option.some.inj h).le
  | cons c cs ih =>
    obtain ⟨d, -, h⟩ := Option.bind_eq_some_iff.mp h
    exact ((Nat.le_mul_of_pos_right acc hr).trans (Nat.le_add_right _ d)).trans (ih h)

theorem parseDigits_eq (hr : 0 < r) (h : digitsValue r acc cs = some v) (hv : v ≤ limit) :
    parseDigits limit r acc cs = some v := by
  induction cs generalizing acc with
  | nil => exact h
  | cons c cs ih =>
    obtain ⟨d, hd, h⟩ := Option.bind_eq_some_iff.mp h
    have hle := le_of_digitsValue hr h
    rw [parseDigits, hd, Option.bind_some, if_neg (by omega)]
    exact ih h

theorem digitsValue_append (hcs : digitsValue r acc cs = some n) :
    digitsValue r acc (cs ++ ds) = digitsValue r n ds := by
  induction cs generalizing acc with
  | nil =>
    cases hcs
    rfl
  | cons c cs ih =>
    obtain ⟨d, hd, h⟩ := Option.bind_eq_some_iff.mp hcs
    rw [List.cons_append, digitsValue, hd, Option.bind_some]
    exact ih h

theorem digitVal_isSome_of_digitsValue (h : digitsValue r acc cs = some v) (hc : c ∈ cs) :
    (digitVal r c).isSome := by
  induction cs generalizing acc with
  | nil => cases hc
  | cons d cs ih =>
    obtain ⟨x, hx, h⟩ := Option.bind_eq_some_iff.mp h
    obtain rfl | hc := List.mem_cons.mp hc
    · rw [hx]
      rfl
    · exact ih h hc

/-- A digit of any radix is ASCII, and neither a sign nor a blank. -/
theorem digitVal_range (h : (digitVal r c).isSome) : 48 ≤ c.toNat ∧ c.toNat ≤ 122 := by
  have bounds : ∀ {a b : Char}, a ≤ c ∧ c ≤ b → a.toNat ≤ c.toNat ∧ c.toNat ≤ b.toNat := fun h =>
    ⟨UInt32.le_iff_toNat_le.mp h.1, UInt32.le_iff_toNat_le.mp h.2⟩
  simp only [digitVal] at h
  split_ifs at h with h₀ h₁ h₂
  · have hb := bounds h₀
    simp only [Char.reduceToNat] at hb
    omega
  · have hb := bounds h₁
    simp only [Char.reduceToNat] at hb
    omega
  · have hb := bounds h₂
    simp only [Char.reduceToNat] at hb
    omega
  · cases h

/-! ## Writing -/

theorem digitVal_digitChar (hr : r ≤ 10) (h : n < r) : digitVal r n.digitChar = some n := by
  have hn : n < 10 := h.trans_le hr
  interval_cases n <;> simp [digitVal, Nat.digitChar, h]

theorem digitsValue_toDigits (hr : 1 < r) (hr' : r ≤ 10) : digitsValue r 0 (Nat.toDigits r n) = some n := by
  induction n using Nat.strong_induction_on with
  | _ n ih =>
    by_cases h : n < r
    · rw [Nat.toDigits_of_lt_base h, digitsValue, digitVal_digitChar hr' h]
      simp [digitsValue]
    · have hdiv : n / r < n := Nat.div_lt_self (by omega) hr
      rw [Nat.toDigits_of_base_le hr (by omega), digitsValue_append (ih _ hdiv), digitsValue,
        digitVal_digitChar hr' (Nat.mod_lt n (by omega)), Option.bind_some, digitsValue, Nat.div_add_mod']

theorem digitsValue_zeros (hr : 0 < r) (k : Nat) (cs : List Char) :
    digitsValue r 0 (List.replicate k '0' ++ cs) = digitsValue r 0 cs := by
  have hzero : digitVal r '0' = some 0 := by simp [digitVal, hr]
  induction k with
  | zero => rfl
  | succ k ih =>
    rw [List.replicate_succ, List.cons_append, digitsValue, hzero, Option.bind_some, Nat.zero_mul, ih]

theorem digitsValue_zeroPadded (hr : 1 < r) (hr' : r ≤ 10) : digitsValue r 0 (zeroPadded r width n) = some n := by
  rw [zeroPadded, digitsValue_zeros (by omega), digitsValue_toDigits hr hr']

theorem length_zeroPadded (hr : 1 < r) (hwidth : 0 < width) (h : n < r ^ width) :
    (zeroPadded r width n).length = width := by
  have hle := (Nat.length_toDigits_le_iff hr hwidth).mpr h
  rw [zeroPadded, List.length_append, List.length_replicate]
  omega

end

end Datara.Library
