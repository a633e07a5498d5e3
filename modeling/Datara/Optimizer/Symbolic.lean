import Datara.Library.ClosedForms
import Datara.Optimizer.ConstExpr
import Mathlib.Data.BitVec
import Mathlib.Tactic.IntervalCases

/-!
# The symbolic closed forms

`solve_closed_form_sum` and `solve_linear_recurrence_2x2` of `optimizer/symbolic.rs`. The sums are computed with plain
operators, which panic on overflow in a build with overflow checks and keep the low 64 bits in one without; the
quotient of such a product is not the sum. They are exact up to one bound for each degree. The recurrence is computed
with wrapping operators only and is exact for every term.
-/

namespace Datara.Optimizer.Symbolic

open Datara.Dmir Datara.Library

/-! ## Sums of powers -/

/-- How a sum has no value: the thread panics, or the result is `None`. -/
inductive Exit
  | panic
  | none
  deriving DecidableEq

/-- A plain `i64` operation, from its exact result. `checks` is whether the build checks for overflow. -/
def plain (checks : Bool) (exact : Int) : Except Exit Int :=
  if IntTy.int.Contains exact then .ok exact
  else if checks then .error .panic
  else .ok (BitVec.ofInt 64 exact).toInt

/-- `sum_{i=0}^{n-1} i^degree`, by the formula of the degree. -/
def powerSum (checks : Bool) (n : Int) : Nat → Except Exit Int
  | 0 => .ok n
  | 1 => do
    let before ← plain checks (n - 1)
    let product ← plain checks (n * before)
    return product.tdiv 2
  | 2 => do
    let before ← plain checks (n - 1)
    let product ← plain checks (n * before)
    let twice ← plain checks (2 * n)
    let odd ← plain checks (twice - 1)
    let product ← plain checks (product * odd)
    return product.tdiv 6
  | 3 => do
    let before ← plain checks (n - 1)
    let product ← plain checks (n * before)
    let g := product.tdiv 2
    plain checks (g * g)
  | 4 => do
    let before ← plain checks (n - 1)
    let product ← plain checks (n * before)
    let twice ← plain checks (2 * n)
    let odd ← plain checks (twice - 1)
    let product ← plain checks (product * odd)
    let thrice ← plain checks (3 * n)
    let square ← plain checks (thrice * n)
    let thrice ← plain checks (3 * n)
    let quadratic ← plain checks (square - thrice)
    let quadratic ← plain checks (quadratic - 1)
    let product ← plain checks (product * quadratic)
    return product.tdiv 30
  | _ => .error .none

/-- The terms are pairs of a coefficient and a degree. -/
def solveClosedFormSum (checks : Bool) (terms : List (BitVec 64 × Nat)) (n : BitVec 64) : Except Exit (BitVec 64) :=
  if n.toInt ≤ 0 then .ok 0
  else terms.foldlM (fun total term => do
    let s ← powerSum checks n.toInt term.2
    return total + term.1 * BitVec.ofInt 64 s) 0

/-- The largest number of addends for which the formula of a degree is computed without overflow. -/
def largest : Nat → Int
  | 1 => 3037000500
  | 2 => 1664511
  | 3 => 77936
  | 4 => 4339
  | _ => 9223372036854775807

/-! ## The recurrence -/

/-- The four variables of a two by two matrix. -/
structure Square where
  e00 : BitVec 64
  e01 : BitVec 64
  e10 : BitVec 64
  e11 : BitVec 64

def Square.mul (r m : Square) : Square where
  e00 := r.e00 * m.e00 + r.e01 * m.e10
  e01 := r.e00 * m.e01 + r.e01 * m.e11
  e10 := r.e10 * m.e00 + r.e11 * m.e10
  e11 := r.e10 * m.e01 + r.e11 * m.e11

/-- `while power > 0`, with `power & 1` and `power >>= 1`. -/
def powerLoop (r m : Square) (power : Int) : Square :=
  if 0 < power then powerLoop (if power % 2 = 1 then r.mul m else r) (m.mul m) (power / 2) else r
termination_by power.toNat
decreasing_by omega

def solveLinearRecurrence2x2 (checks : Bool) (a b x0 x1 n : BitVec 64) : Except Exit (BitVec 64) :=
  if n = 0 then .ok x0
  else if n = 1 then .ok x1
  else do
    let power ← plain checks (n.toInt - 1)
    let r := powerLoop ⟨1, 0, 0, 1⟩ ⟨a, b, 1, 0⟩ power
    return r.e00 * x1 + r.e01 * x0

/-! ## The formulas -/

section
variable {checks : Bool} {n m z : Int} {d : Nat}

theorem contains_iff : IntTy.int.Contains z ↔ -9223372036854775808 ≤ z ∧ z ≤ 9223372036854775807 := Iff.rfl

theorem plain_of_contains (hlow : -9223372036854775808 ≤ z) (hhigh : z ≤ 9223372036854775807) :
    plain checks z = .ok z :=
  if_pos ⟨hlow, hhigh⟩

/-- With overflow checks an operation panics, or it fits and the rest is computed with its exact result. -/
theorem plain_bind_panic {α : Type} {f : Int → Except Exit α}
    (h : z ≤ 9223372036854775807 → f z = .error .panic) : (plain true z >>= f) = .error .panic := by
  by_cases hz : IntTy.int.Contains z
  · rw [plain, if_pos hz]
    exact h hz.2
  · rw [plain, if_neg hz]
    rfl

theorem plain_panic (h : 9223372036854775807 < z) : plain true z = .error .panic := by
  rw [plain, if_neg fun hz => by have := hz.2; rw [contains_iff] at hz; omega]
  rfl

theorem product_mono (hm : 1 ≤ m) (hle : m ≤ n) : m * (m - 1) ≤ n * (n - 1) :=
  Int.mul_le_mul hle (by omega) (by omega) (by omega)

theorem product_nonneg (hn : 1 ≤ n) : 0 ≤ n * (n - 1) := Int.mul_nonneg (by omega) (by omega)

theorem cubic_mono (hm : 1 ≤ m) (hle : m ≤ n) : m * (m - 1) * (2 * m - 1) ≤ n * (n - 1) * (2 * n - 1) :=
  Int.mul_le_mul (product_mono hm hle) (by omega) (by omega) (product_nonneg (by omega))

theorem cubic_nonneg (hn : 1 ≤ n) : 0 ≤ n * (n - 1) * (2 * n - 1) := Int.mul_nonneg (product_nonneg hn) (by omega)

/-- `3 n^2 - 3 n - 1` is three times the product of the neighbours, less one. -/
theorem quadratic_eq : 3 * n * n - 3 * n - 1 = 3 * (n * (n - 1)) - 1 := by ring

theorem plain_bind_ok {α : Type} {f : Int → Except Exit α} (hlow : -9223372036854775808 ≤ z)
    (hhigh : z ≤ 9223372036854775807) : (plain checks z >>= f) = f z := by
  rw [plain_of_contains hlow hhigh]
  rfl

theorem powerSum_linear {sum : Int} (hn : 1 ≤ n) (hle : n ≤ 3037000500) (hsum : 2 * sum = n * (n - 1)) :
    powerSum checks n 1 = .ok sum := by
  have hprod := product_mono hn hle
  have hnonneg := product_nonneg hn
  simp only [powerSum]
  rw [plain_bind_ok (by omega) (by omega), plain_bind_ok (by omega) (by omega), ← hsum,
    Int.mul_tdiv_cancel_left _ (by decide)]
  rfl

theorem powerSum_quadratic {sum : Int} (hn : 1 ≤ n) (hle : n ≤ 1664511)
    (hsum : 6 * sum = n * (n - 1) * (2 * n - 1)) : powerSum checks n 2 = .ok sum := by
  have hprod := product_mono hn hle
  have hnonneg := product_nonneg hn
  have hcubic := cubic_mono hn hle
  have hcubicNonneg := cubic_nonneg hn
  simp only [powerSum]
  rw [plain_bind_ok (by omega) (by omega), plain_bind_ok (by omega) (by omega),
    plain_bind_ok (by omega) (by omega), plain_bind_ok (by omega) (by omega),
    plain_bind_ok (by omega) (by omega), ← hsum, Int.mul_tdiv_cancel_left _ (by decide)]
  rfl

theorem powerSum_cubic {sum : Int} (hn : 1 ≤ n) (hle : n ≤ 77936) (hsum : 2 * sum = n * (n - 1)) :
    powerSum checks n 3 = .ok (sum ^ 2) := by
  have hprod := product_mono hn hle
  have hnonneg := product_nonneg hn
  have hsq : sum * sum ≤ 3036971080 * 3036971080 := Int.mul_le_mul (by omega) (by omega) (by omega) (by omega)
  have hsqNonneg : 0 ≤ sum * sum := Int.mul_nonneg (by omega) (by omega)
  simp only [powerSum]
  rw [plain_bind_ok (by omega) (by omega), plain_bind_ok (by omega) (by omega), ← hsum,
    Int.mul_tdiv_cancel_left _ (by decide), plain_of_contains (by omega) (by omega), pow_two]

theorem powerSum_quartic {sum : Int} (hn : 1 ≤ n) (hle : n ≤ 4339)
    (hsum : 30 * sum = n * (n - 1) * (2 * n - 1) * (3 * n * n - 3 * n - 1)) : powerSum checks n 4 = .ok sum := by
  have hprod := product_mono hn hle
  have hnonneg := product_nonneg hn
  have hcubic := cubic_mono hn hle
  have hcubicNonneg := cubic_nonneg hn
  have hquad := quadratic_eq (n := n)
  have hupper : n * (n - 1) * (2 * n - 1) * (3 * n * n - 3 * n - 1) ≤
      4339 * (4339 - 1) * (2 * 4339 - 1) * (3 * 4339 * 4339 - 3 * 4339 - 1) :=
    calc n * (n - 1) * (2 * n - 1) * (3 * n * n - 3 * n - 1)
      _ ≤ n * (n - 1) * (2 * n - 1) * (3 * 4339 * 4339 - 3 * 4339 - 1) :=
        Int.mul_le_mul_of_nonneg_left (by omega) hcubicNonneg
      _ ≤ _ := Int.mul_le_mul_of_nonneg_right hcubic (by decide)
  have hlower : -(n * (n - 1) * (2 * n - 1)) ≤ n * (n - 1) * (2 * n - 1) * (3 * n * n - 3 * n - 1) := by
    have hfactor := Int.mul_le_mul_of_nonneg_left (show -1 ≤ 3 * n * n - 3 * n - 1 by omega) hcubicNonneg
    rwa [Int.mul_neg, Int.mul_one] at hfactor
  simp only [powerSum]
  rw [plain_bind_ok (by omega) (by omega), plain_bind_ok (by omega) (by omega),
    plain_bind_ok (by omega) (by omega), plain_bind_ok (by omega) (by omega),
    plain_bind_ok (by omega) (by omega), plain_bind_ok (by omega) (by omega),
    plain_bind_ok (by omega) (by omega), plain_bind_ok (by omega) (by omega),
    plain_bind_ok (by omega) (by omega), plain_bind_ok (by omega) (by omega),
    plain_bind_ok (by omega) (by omega), ← hsum, Int.mul_tdiv_cancel_left _ (by decide)]
  rfl

theorem powerSum_exact (hn : 1 ≤ n) (hle : n ≤ largest d) (hd : d ≤ 4) :
    powerSum checks n d = .ok (∑ i ∈ Finset.range n.toNat, (i : Int) ^ d) := by
  obtain ⟨k, rfl⟩ : ∃ k : Nat, n = k := ⟨n.toNat, by omega⟩
  rw [Int.toNat_natCast]
  interval_cases d
  · simp [powerSum]
  · apply powerSum_linear hn hle
    simpa using two_mul_sum_range k
  · exact powerSum_quadratic hn hle (six_mul_sum_range_sq k)
  · rw [sum_range_cube]
    exact powerSum_cubic hn hle (two_mul_sum_range k)
  · exact powerSum_quartic hn hle (thirty_mul_sum_range_fourth k)

theorem powerSum_panic (hlt : largest d < n) (hmax : n ≤ 9223372036854775807) (hd : d ≤ 4) :
    powerSum true n d = .error .panic := by
  interval_cases d
  · simp only [largest] at hlt
    omega
  · have hprod := product_mono (m := 3037000501) (by omega) (show 3037000501 ≤ n from hlt)
    apply plain_bind_panic
    intro hbefore
    apply plain_bind_panic
    intro hfits
    omega
  · have hcubic := cubic_mono (m := 1664512) (by omega) (show 1664512 ≤ n from hlt)
    refine plain_bind_panic fun _ => plain_bind_panic fun _ => plain_bind_panic fun _ => plain_bind_panic fun _ =>
      plain_bind_panic fun hfits => ?_
    omega
  · have hn : 77937 ≤ n := hlt
    have hprod := product_mono (m := 77937) (by omega) hn
    obtain ⟨k, rfl⟩ : ∃ k : Nat, n = k := ⟨n.toNat, by omega⟩
    have hsum := two_mul_sum_range k
    refine plain_bind_panic fun _ => plain_bind_panic fun _ => ?_
    rw [← hsum, Int.mul_tdiv_cancel_left _ (by decide)]
    apply plain_panic
    have hsq : 3037049016 * 3037049016 ≤ (∑ i ∈ Finset.range k, (i : Int)) * ∑ i ∈ Finset.range k, (i : Int) :=
      Int.mul_le_mul (by omega) (by omega) (by omega) (by omega)
    omega
  · have hn : 4340 ≤ n := hlt
    have hprod := product_mono (m := 4340) (by omega) hn
    have hcubic := cubic_mono (m := 4340) (by omega) hn
    have hquad := quadratic_eq (n := n)
    have hquartic : 4340 * (4340 - 1) * (2 * 4340 - 1) * (3 * 4340 * (4340 - 1) - 1) ≤
        n * (n - 1) * (2 * n - 1) * (3 * n * n - 3 * n - 1) :=
      Int.mul_le_mul hcubic (by omega) (by decide) (cubic_nonneg (by omega))
    refine plain_bind_panic fun _ => plain_bind_panic fun _ => plain_bind_panic fun _ => plain_bind_panic fun _ =>
      plain_bind_panic fun _ => plain_bind_panic fun _ => plain_bind_panic fun _ => plain_bind_panic fun _ =>
      plain_bind_panic fun _ => plain_bind_panic fun _ => plain_bind_panic fun hfits => ?_
    omega

end

/-! ## The sum of a polynomial -/

/-- `sum_{i=0}^{n-1} (sum_k c_k * i^k)` over the integers. -/
def polynomialSum (terms : List (BitVec 64 × Nat)) (n : Int) : Int :=
  ∑ i ∈ Finset.range n.toNat, (terms.map fun term => term.1.toInt * (i : Int) ^ term.2).sum

theorem polynomialSum_cons (term : BitVec 64 × Nat) (terms : List (BitVec 64 × Nat)) (n : Int) :
    polynomialSum (term :: terms) n =
      term.1.toInt * ∑ i ∈ Finset.range n.toNat, (i : Int) ^ term.2 + polynomialSum terms n := by
  simp only [polynomialSum, List.map_cons, List.sum_cons, Finset.sum_add_distrib, Finset.mul_sum]

section
variable {checks : Bool} {terms : List (BitVec 64 × Nat)} {n : BitVec 64} {total : BitVec 64}

theorem fold_exact (hn : 1 ≤ n.toInt) (hdeg : ∀ term ∈ terms, term.2 ≤ 4)
    (hle : ∀ term ∈ terms, n.toInt ≤ largest term.2) :
    terms.foldlM (fun total term => do
      let s ← powerSum checks n.toInt term.2
      return total + term.1 * BitVec.ofInt 64 s) total =
      (.ok (total + BitVec.ofInt 64 (polynomialSum terms n.toInt)) : Except Exit (BitVec 64)) := by
  induction terms generalizing total with
  | nil =>
    rw [List.foldlM_nil]
    simp only [polynomialSum, List.map_nil, List.sum_nil, Finset.sum_const_zero]
    exact congrArg Except.ok (BitVec.add_zero total).symm
  | cons term terms ih =>
    rw [List.foldlM_cons, powerSum_exact hn (hle term (by simp)) (hdeg term (by simp))]
    refine (ih (fun t ht => hdeg t (List.mem_cons_of_mem _ ht)) fun t ht => hle t (List.mem_cons_of_mem _ ht)).trans ?_
    rw [polynomialSum_cons, BitVec.ofInt_add, BitVec.ofInt_mul, BitVec.ofInt_toInt, BitVec.add_assoc]

theorem fold_panic (hn : 1 ≤ n.toInt) (hdeg : ∀ term ∈ terms, term.2 ≤ 4)
    (hlt : ∃ term ∈ terms, largest term.2 < n.toInt) :
    terms.foldlM (fun total term => do
      let s ← powerSum true n.toInt term.2
      return total + term.1 * BitVec.ofInt 64 s) total = (.error .panic : Except Exit (BitVec 64)) := by
  induction terms generalizing total with
  | nil => simp at hlt
  | cons term terms ih =>
    rw [List.foldlM_cons]
    by_cases hpast : largest term.2 < n.toInt
    · have hmax := BitVec.toInt_lt (x := n)
      rw [powerSum_panic hpast (by omega) (hdeg term (by simp))]
      rfl
    · rw [powerSum_exact hn (by omega) (hdeg term (by simp))]
      apply ih fun t ht => hdeg t (List.mem_cons_of_mem _ ht)
      obtain ⟨t, ht, hpast⟩ := hlt
      rcases List.mem_cons.mp ht with rfl | hin
      · omega
      · exact ⟨t, hin, hpast⟩

/-- With overflow checks and without, a call returns, and what it returns is the sum modulo `2 ^ 64`. -/
def ExactSum (terms : List (BitVec 64 × Nat)) (n : BitVec 64) : Prop :=
  ∀ checks, solveClosedFormSum checks terms n ≠ .error .panic ∧
    ∀ v, solveClosedFormSum checks terms n = .ok v → v = BitVec.ofInt 64 (polynomialSum terms n.toInt)

section
variable (hdeg : ∀ term ∈ terms, term.2 ≤ 4)
include hdeg

theorem exactSum_of_le
    (hle : n.toInt ≤ 0 ∨ ∀ term ∈ terms, n.toInt ≤ largest term.2) : ExactSum terms n := by
  intro checks
  unfold solveClosedFormSum
  by_cases hn : n.toInt ≤ 0
  · have hempty : polynomialSum terms n.toInt = 0 := by simp [polynomialSum, Int.toNat_of_nonpos hn]
    rw [if_pos hn, hempty]
    exact ⟨by simp, fun v hv => (Except.ok.inj hv).symm⟩
  · have hfits := hle.resolve_left hn
    rw [if_neg hn, fold_exact (by omega) hdeg hfits]
    refine ⟨by simp, fun v hv => ?_⟩
    rw [← Except.ok.inj hv]
    exact BitVec.zero_add _

theorem not_exactSum_of_past (hn : 1 ≤ n.toInt)
    (hlt : ∃ term ∈ terms, largest term.2 < n.toInt) : ¬ExactSum terms n := by
  intro hexact
  apply (hexact true).1
  rw [solveClosedFormSum, if_neg (by omega)]
  exact fold_panic hn hdeg hlt

theorem exactSum_iff :
    ExactSum terms n ↔ n.toInt ≤ 0 ∨ ∀ term ∈ terms, n.toInt ≤ largest term.2 := by
  constructor
  · intro hexact
    by_contra hpast
    rw [not_or] at hpast
    obtain ⟨hn, hterms⟩ := hpast
    have hsome : ∃ term ∈ terms, largest term.2 < n.toInt := by simpa using hterms
    exact not_exactSum_of_past hdeg (by omega) hsome hexact
  · exact exactSum_of_le hdeg

end

end

/-! ## The recurrence -/

def Square.toMatrix (m : Square) : Matrix (Fin 2) (Fin 2) (BitVec 64) := !![m.e00, m.e01; m.e10, m.e11]

theorem toMatrix_mul (r m : Square) : (r.mul m).toMatrix = r.toMatrix * m.toMatrix := by
  rw [Square.toMatrix, Square.toMatrix, Square.toMatrix, Matrix.mul_fin_two]
  rfl

theorem toMatrix_powerLoop (r m : Square) (power : Int) :
    (powerLoop r m power).toMatrix = r.toMatrix * m.toMatrix ^ power.toNat := by
  induction r, m, power using powerLoop.induct with
  | case1 r m power hpos ih =>
    have hhalf : (power / 2).toNat = power.toNat / 2 := by omega
    have hodd : power % 2 = 1 ↔ power.toNat % 2 = 1 := by omega
    simp only [dite_eq_ite] at ih
    rw [powerLoop, if_pos hpos, ih, toMatrix_mul, hhalf, ← mul_pow_halve r.toMatrix m.toMatrix power.toNat]
    congr 1
    simp only [hodd]
    split_ifs
    · exact toMatrix_mul r m
    · rfl
  | case2 r m power hneg =>
    rw [powerLoop, if_neg hneg, show power.toNat = 0 by omega, pow_zero, mul_one]

/-- The recurrence over the integers, reduced, is the recurrence over the words. -/
theorem ofInt_recurrence (a b x0 x1 : BitVec 64) (k : Nat) :
    BitVec.ofInt 64 (recurrence a.toInt b.toInt x0.toInt x1.toInt k) = recurrence a b x0 x1 k := by
  induction k using recurrence.induct with
  | case1 => exact BitVec.ofInt_toInt
  | case2 => exact BitVec.ofInt_toInt
  | case3 k ih ih' =>
    simp only [recurrence, BitVec.ofInt_add, BitVec.ofInt_mul, BitVec.ofInt_toInt, ih, ih']

theorem solveLinearRecurrence2x2_exact {checks : Bool} {a b x0 x1 n : BitVec 64} (hn : 0 ≤ n.toInt) :
    solveLinearRecurrence2x2 checks a b x0 x1 n =
      .ok (BitVec.ofInt 64 (recurrence a.toInt b.toInt x0.toInt x1.toInt n.toInt.toNat)) := by
  rw [ofInt_recurrence, solveLinearRecurrence2x2]
  split_ifs with hzero hone
  · rw [hzero]
    rfl
  · rw [hone]
    rfl
  · have hne : n.toInt ≠ 0 := fun h => hzero (BitVec.eq_of_toInt_eq h)
    have hmax := BitVec.toInt_lt (x := n)
    rw [plain_bind_ok (by omega) (by omega)]
    obtain ⟨k, hk⟩ : ∃ k, n.toInt.toNat = k + 1 := ⟨n.toInt.toNat - 1, by omega⟩
    have hpower : (n.toInt - 1).toNat = k := by omega
    have hloop := toMatrix_powerLoop ⟨1, 0, 0, 1⟩ ⟨a, b, 1, 0⟩ (n.toInt - 1)
    have hident : (⟨1, 0, 0, 1⟩ : Square).toMatrix = 1 := Matrix.one_fin_two.symm
    rw [hident, one_mul, hpower] at hloop
    have hentry := congrFun (companion_pow a b x0 x1 k) 0
    have hmat : (!![a, b; 1, 0] : Matrix (Fin 2) (Fin 2) (BitVec 64)) ^ k =
        (powerLoop ⟨1, 0, 0, 1⟩ ⟨a, b, 1, 0⟩ (n.toInt - 1)).toMatrix := hloop.symm
    rw [hmat] at hentry
    rw [hk]
    generalize powerLoop ⟨1, 0, 0, 1⟩ ⟨a, b, 1, 0⟩ (n.toInt - 1) = r at hentry ⊢
    exact congrArg Except.ok (by simpa [Square.toMatrix, mul_comm] using hentry)

/-- The closed forms return the sum modulo `2 ^ 64` in every build exactly when the number of addends is within the
bound of each degree, and the recurrence returns its term modulo `2 ^ 64` always. -/
theorem closed_forms_exact_iff {terms : List (BitVec 64 × Nat)} {n : BitVec 64} (hdeg : ∀ term ∈ terms, term.2 ≤ 4) :
    (ExactSum terms n ↔ n.toInt ≤ 0 ∨ ∀ term ∈ terms, n.toInt ≤ largest term.2) ∧
      ∀ checks a b x0 x1 m, 0 ≤ BitVec.toInt m → solveLinearRecurrence2x2 checks a b x0 x1 m =
        .ok (BitVec.ofInt 64 (recurrence a.toInt b.toInt x0.toInt x1.toInt m.toInt.toNat)) :=
  ⟨exactSum_iff hdeg, fun _ _ _ _ _ _ hm => solveLinearRecurrence2x2_exact hm⟩

/-- The sum of `3 i^2 - i` below ten. -/
theorem closed_forms_exact_ten :
    ExactSum [(3, 2), (-1, 1)] 10 :=
  (closed_forms_exact_iff (by decide)).1.mpr (.inr (by decide))

/-- Of the numbers below four billion: with overflow checks the thread panics, without the sum is off by `2 ^ 63`. -/
theorem closed_form_four_billion :
    solveClosedFormSum true [(1, 1)] 4000000000 = .error .panic ∧
      solveClosedFormSum false [(1, 1)] 4000000000 = .ok (-1223372038854775808) ∧
      2 * polynomialSum [(1, 1)] 4000000000 = 4000000000 * 3999999999 ∧
      ¬ExactSum [(1, 1)] 4000000000 := by
  refine ⟨by decide, by decide, ?_, not_exactSum_of_past (by decide) (by decide) ⟨_, List.mem_cons_self .., by decide⟩⟩
  have hsum := two_mul_sum_range 4000000000
  simpa [polynomialSum] using hsum

end Datara.Optimizer.Symbolic
