import Datara.Library.TwosComplement
import Mathlib.Data.Int.ModEq

/-!
# Checked, saturating and wrapping arithmetic

The `datara_rt_checked_*`, `datara_rt_saturating_*` and `datara_rt_wrapping_*` functions of `runtime/datara_print.c`.
Each of the first two groups has a branch for compilers with the overflow builtins and a portable one. Signed arithmetic
that overflows, and a division without a quotient, is undefined in C: it has no result here.
-/

namespace Datara.Runtime.CheckedArith

open Library

/-! ## Signed arithmetic of C -/

def INT64_MAX : Int := 2 ^ 63 - 1

def INT64_MIN : Int := -2 ^ 63

/-- The integers that an `int64_t` holds. -/
def Fits (z : Int) : Prop := INT64_MIN ≤ z ∧ z ≤ INT64_MAX

instance (z : Int) : Decidable (Fits z) := inferInstanceAs (Decidable (_ ∧ _))

/-- The result of a signed operation. -/
def signed (z : Int) : Option Int := if Fits z then some z else none

/-- `a / b`. -/
def quotient (a b : Int) : Option Int := if b = 0 then none else signed (a.tdiv b)

/-- `a % b`, which is undefined where `a / b` is. -/
def remainder (a b : Int) : Option Int := (quotient a b).map fun _ => a.tmod b

/-- `p && q`: the second operand is looked at when the first holds. -/
def both (p : Bool) (q : Option Bool) : Option Bool := if p then q else some false

/-- `p || q`. -/
def either (p q : Option Bool) : Option Bool := do
  if ← p then return true
  q

/-- What a function comes to. -/
inductive Result
  | value (v : BitVec 64)
  | panic (message : String)
  deriving DecidableEq

/-- `return`. -/
def ret (z : Int) : Result := .value (BitVec.ofInt 64 z)

def overflowPanic : Result := .panic "integer overflow"

def divZeroPanic : Result := .panic "integer division by zero"

/-- `__builtin_add_overflow` and its like, from the exact result: whether it is out of range, and its low 64 bits. -/
def builtinOverflow (exact : Int) : Bool × BitVec 64 := (¬Fits exact, BitVec.ofInt 64 exact)

/-- The builtin branch of the checked functions. -/
def checkedBuiltin (exact : Int) : Option Result :=
  let r := builtinOverflow exact
  some (if r.1 then overflowPanic else .value r.2)

/-- The builtin branch of the saturating functions. `positive` is what decides between the two ends. -/
def saturatingBuiltin (positive : Bool) (exact : Int) : Option Result :=
  let r := builtinOverflow exact
  some (if r.1 then ret (if positive then INT64_MAX else INT64_MIN) else .value r.2)

/-! ## The functions -/

/-- `INT64_MAX - b < a`, with `b` positive, and the three tests like it. -/
def addAbove (a b : Int) : Option Bool := both (0 < b) ((signed (INT64_MAX - b)).map fun m => m < a)

def addBelow (a b : Int) : Option Bool := both (b < 0) ((signed (INT64_MIN - b)).map fun m => a < m)

def subAbove (a b : Int) : Option Bool := both (b < 0) ((signed (INT64_MAX + b)).map fun m => m < a)

def subBelow (a b : Int) : Option Bool := both (0 < b) ((signed (INT64_MIN + b)).map fun m => a < m)

/-- `a > INT64_MAX / b`, and the three tests like it, one for each pair of signs. -/
def mulAboveMax (a b : Int) : Option Bool := (quotient INT64_MAX b).map fun q => q < a

def mulBelowMin (a b : Int) : Option Bool := (quotient INT64_MIN a).map fun q => b < q

def mulUnderMin (a b : Int) : Option Bool := (quotient INT64_MIN b).map fun q => a < q

def mulUnderMax (a b : Int) : Option Bool := (quotient INT64_MAX a).map fun q => b < q

section
variable (gnu : Bool) (x y : BitVec 64)

def checkedAdd : Option Result :=
  let a := x.toInt
  let b := y.toInt
  if gnu then checkedBuiltin (a + b)
  else do
    if ← either (addAbove a b) (addBelow a b) then return overflowPanic
    return ret (← signed (a + b))

def checkedSub : Option Result :=
  let a := x.toInt
  let b := y.toInt
  if gnu then checkedBuiltin (a - b)
  else do
    if ← either (subAbove a b) (subBelow a b) then return overflowPanic
    return ret (← signed (a - b))

/-- The portable test of `checked_mul`. -/
def mulOverflows (a b : Int) : Option Bool :=
  if 0 < a then
    if 0 < b then mulAboveMax a b else mulBelowMin a b
  else
    if 0 < b then mulUnderMin a b else both (a ≠ 0) (mulUnderMax a b)

def checkedMul : Option Result :=
  let a := x.toInt
  let b := y.toInt
  if gnu then checkedBuiltin (a * b)
  else do
    if ← mulOverflows a b then return overflowPanic
    return ret (← signed (a * b))

def checkedDiv : Option Result :=
  let a := x.toInt
  let b := y.toInt
  if b = 0 then some divZeroPanic
  else if a = INT64_MIN ∧ b = -1 then some overflowPanic
  else (quotient a b).map ret

def checkedRem : Option Result :=
  let a := x.toInt
  let b := y.toInt
  if b = 0 then some divZeroPanic
  else if a = INT64_MIN ∧ b = -1 then some overflowPanic
  else (remainder a b).map ret

def saturatingAdd : Option Result :=
  let a := x.toInt
  let b := y.toInt
  if gnu then saturatingBuiltin (0 ≤ a) (a + b)
  else do
    if ← addAbove a b then return ret INT64_MAX
    if ← addBelow a b then return ret INT64_MIN
    return ret (← signed (a + b))

def saturatingSub : Option Result :=
  let a := x.toInt
  let b := y.toInt
  if gnu then saturatingBuiltin (0 ≤ a) (a - b)
  else do
    if ← subAbove a b then return ret INT64_MAX
    if ← subBelow a b then return ret INT64_MIN
    return ret (← signed (a - b))

def saturatingMul : Option Result :=
  let a := x.toInt
  let b := y.toInt
  if gnu then saturatingBuiltin (0 ≤ (x ^^^ y).toInt) (a * b)
  else if 0 < a then do
    if ← both (0 < b) (mulAboveMax a b) then return ret INT64_MAX
    if ← both (b < 0) (mulBelowMin a b) then return ret INT64_MIN
    return ret (← signed (a * b))
  else if a < 0 then do
    if ← both (0 < b) (mulUnderMin a b) then return ret INT64_MIN
    if ← both (b < 0) (mulUnderMax a b) then return ret INT64_MAX
    return ret (← signed (a * b))
  else (signed (a * b)).map ret

/-- The operands are converted to `uint64_t`, the result back. -/
def wrappingAdd : BitVec 64 := x + y

def wrappingSub : BitVec 64 := x - y

def wrappingMul : BitVec 64 := x * y

end

/-! ## The exact results -/

/-- The exact result where it fits, the panic where it does not. -/
def Checked (exact : Int) (r : Option Result) : Prop :=
  (Fits exact → ∃ v, r = some (.value v) ∧ v.toInt = exact) ∧ (¬Fits exact → r = some overflowPanic)

/-- The exact result, moved to the nearer end where it does not fit. -/
def Saturated (exact : Int) (r : Option Result) : Prop :=
  ∃ v, r = some (.value v) ∧ v.toInt = max INT64_MIN (min INT64_MAX exact)

/-- A division fails on a zero divisor and on the one quotient that does not fit, and is exact elsewhere. -/
def Divided (a b exact : Int) (r : Option Result) : Prop :=
  (b = 0 → r = some divZeroPanic) ∧ (a = INT64_MIN ∧ b = -1 → r = some overflowPanic) ∧
    (b ≠ 0 → ¬(a = INT64_MIN ∧ b = -1) → ∃ v, r = some (.value v) ∧ v.toInt = exact)

theorem signed_of_fits {z : Int} (hz : Fits z) : signed z = some z := if_pos hz

theorem toInt_fits (x : BitVec 64) : Fits x.toInt := by
  have hlow := BitVec.le_toInt x
  have hhigh := BitVec.toInt_lt (x := x)
  simp only [Fits, INT64_MIN, INT64_MAX]
  omega

theorem toInt_ofInt_of_fits {z : Int} (hz : Fits z) : (BitVec.ofInt 64 z).toInt = z := by
  simp only [Fits, INT64_MIN, INT64_MAX] at hz
  rw [BitVec.toInt_ofInt, Int.bmod_eq_of_le] <;> omega

/-- A test that is looked at under its guard and decides `P` there holds exactly where `P` does. -/
theorem both_decide {g P : Prop} [Decidable g] [Decidable P] {q : Option Bool} (hguard : P → g)
    (hq : g → q = some (decide P)) : both g q = some (decide P) := by
  by_cases hg : g
  · simpa [both, hg] using hq hg
  · simp [both, hg, mt hguard hg]

theorem map_decide {z : Int} {P : Prop} [Decidable P] {p : Int → Prop} [DecidablePred p]
    (hz : Fits z) (hp : p z ↔ P) : (signed z).map (fun m => decide (p m)) = some (decide P) := by
  rw [signed_of_fits hz]
  exact congrArg some (decide_eq_decide.mpr hp)

section
variable {a b : Int}

theorem addAbove_eq (ha : Fits a) (hb : Fits b) : addAbove a b = some (decide (INT64_MAX < a + b)) := by
  unfold addAbove
  unfold Fits INT64_MIN INT64_MAX at *
  refine both_decide (by omega) fun hpos => map_decide ?_ (by omega)
  unfold Fits INT64_MIN INT64_MAX
  omega

theorem addBelow_eq (ha : Fits a) (hb : Fits b) : addBelow a b = some (decide (a + b < INT64_MIN)) := by
  unfold addBelow
  unfold Fits INT64_MIN INT64_MAX at *
  refine both_decide (by omega) fun hneg => map_decide ?_ (by omega)
  unfold Fits INT64_MIN INT64_MAX
  omega

theorem subAbove_eq (ha : Fits a) (hb : Fits b) : subAbove a b = some (decide (INT64_MAX < a - b)) := by
  unfold subAbove
  unfold Fits INT64_MIN INT64_MAX at *
  refine both_decide (by omega) fun hneg => map_decide ?_ (by omega)
  unfold Fits INT64_MIN INT64_MAX
  omega

theorem subBelow_eq (ha : Fits a) (hb : Fits b) : subBelow a b = some (decide (a - b < INT64_MIN)) := by
  unfold subBelow
  unfold Fits INT64_MIN INT64_MAX at *
  refine both_decide (by omega) fun hpos => map_decide ?_ (by omega)
  unfold Fits INT64_MIN INT64_MAX
  omega

/-- A quotient is no further from zero than what is divided, so it fits unless it is that of the smallest number
by -1. -/
theorem quotient_of_fits (ha : Fits a) (hb : b ≠ 0) (hmin : ¬(a = INT64_MIN ∧ b = -1)) :
    quotient a b = some (a.tdiv b) := by
  rw [quotient, if_neg hb]
  apply signed_of_fits
  have habs : (a.tdiv b).natAbs = a.natAbs / b.natAbs := Int.natAbs_tdiv a b
  unfold Fits INT64_MIN INT64_MAX at *
  rcases Nat.lt_or_ge 1 b.natAbs with hlarge | hone
  · have hhalf : a.natAbs / b.natAbs ≤ a.natAbs / 2 := Nat.div_le_div_left hlarge (by omega)
    omega
  · obtain rfl | rfl : b = 1 ∨ b = -1 := by omega
    · rwa [Int.tdiv_one]
    · rw [Int.tdiv_neg, Int.tdiv_one]
      omega

theorem max_fits : Fits INT64_MAX := by decide

theorem min_fits : Fits INT64_MIN := by decide

theorem mulAboveMax_eq (hb : 0 < b) : mulAboveMax a b = some (decide (INT64_MAX < a * b)) := by
  rw [mulAboveMax, quotient_of_fits max_fits hb.ne' (by omega)]
  exact congrArg some (decide_eq_decide.mpr (tdiv_lt_iff (by decide) hb))

theorem mulBelowMin_eq (ha : 0 < a) : mulBelowMin a b = some (decide (a * b < INT64_MIN)) := by
  rw [mulBelowMin, quotient_of_fits min_fits ha.ne' (by omega)]
  exact congrArg some (decide_eq_decide.mpr (lt_neg_tdiv_iff (m := 2 ^ 63) (by decide) ha))

theorem mulUnderMin_eq (hb : 0 < b) : mulUnderMin a b = some (decide (a * b < INT64_MIN)) := by
  rw [Int.mul_comm]
  exact mulBelowMin_eq hb

theorem mulUnderMax_eq (ha : a < 0) : mulUnderMax a b = some (decide (INT64_MAX < a * b)) := by
  rw [mulUnderMax, quotient_of_fits max_fits ha.ne fun h => absurd h.1 (by decide)]
  exact congrArg some (decide_eq_decide.mpr (lt_tdiv_of_neg_iff (by decide) ha))

theorem not_fits_of_nonneg {z : Int} (hz : 0 ≤ z) : ¬Fits z ↔ INT64_MAX < z := by
  unfold Fits INT64_MIN INT64_MAX
  omega

theorem not_fits_of_nonpos {z : Int} (hz : z ≤ 0) : ¬Fits z ↔ z < INT64_MIN := by
  unfold Fits INT64_MIN INT64_MAX
  omega

theorem mulOverflows_eq : mulOverflows a b = some (decide ¬Fits (a * b)) := by
  unfold mulOverflows
  by_cases ha : 0 < a <;> by_cases hb : 0 < b
  · rw [if_pos ha, if_pos hb, mulAboveMax_eq hb]
    exact congrArg some (decide_eq_decide.mpr (not_fits_of_nonneg (Int.mul_pos ha hb).le).symm)
  · rw [if_pos ha, if_neg hb, mulBelowMin_eq ha]
    have hsign : a * b ≤ 0 := Int.mul_nonpos_of_nonneg_of_nonpos ha.le (by omega)
    exact congrArg some (decide_eq_decide.mpr (not_fits_of_nonpos hsign).symm)
  · rw [if_neg ha, if_pos hb, mulUnderMin_eq hb]
    have hsign : a * b ≤ 0 := Int.mul_nonpos_of_nonpos_of_nonneg (by omega) hb.le
    exact congrArg some (decide_eq_decide.mpr (not_fits_of_nonpos hsign).symm)
  · rw [if_neg ha, if_neg hb]
    have hsign : 0 ≤ a * b := Int.mul_nonneg_of_nonpos_of_nonpos (by omega) (by omega)
    simp only [not_fits_of_nonneg hsign]
    apply both_decide
    · intro hover hzero
      rw [hzero, Int.zero_mul] at hover
      exact absurd hover (by decide)
    · intro hne
      exact mulUnderMax_eq (by omega)

end

/-! ## The functions are exact -/

section
variable {exact : Int}

theorem checkedBuiltin_checked : Checked exact (checkedBuiltin exact) := by
  constructor
  · intro hfits
    refine ⟨_, ?_, toInt_ofInt_of_fits hfits⟩
    simp [checkedBuiltin, builtinOverflow, hfits]
  · intro hover
    simp [checkedBuiltin, builtinOverflow, hover]

theorem portable_checked {test : Option Bool} (htest : test = some (decide ¬Fits exact)) :
    Checked exact (do
      if ← test then return overflowPanic
      return ret (← signed exact)) := by
  subst htest
  constructor
  · intro hfits
    refine ⟨_, ?_, toInt_ofInt_of_fits hfits⟩
    simp [hfits, signed_of_fits hfits, ret]
  · intro hover
    simp [hover]

theorem clamp_of_above (hover : INT64_MAX < exact) : Saturated exact (some (ret INT64_MAX)) := by
  refine ⟨_, rfl, ?_⟩
  rw [toInt_ofInt_of_fits max_fits]
  unfold INT64_MIN INT64_MAX at *
  omega

theorem clamp_of_below (hunder : exact < INT64_MIN) : Saturated exact (some (ret INT64_MIN)) := by
  refine ⟨_, rfl, ?_⟩
  rw [toInt_ofInt_of_fits min_fits]
  unfold INT64_MIN INT64_MAX at *
  omega

theorem clamp_of_fits (hfits : Fits exact) : Saturated exact (some (ret exact)) := by
  refine ⟨_, rfl, ?_⟩
  rw [toInt_ofInt_of_fits hfits]
  unfold Fits at hfits
  omega

theorem saturatingBuiltin_saturated {positive : Bool} (habove : INT64_MAX < exact → positive = true)
    (hbelow : exact < INT64_MIN → positive = false) : Saturated exact (saturatingBuiltin positive exact) := by
  by_cases hfits : Fits exact
  · simpa [saturatingBuiltin, builtinOverflow, hfits, ret] using clamp_of_fits hfits
  · rcases lt_or_ge INT64_MAX exact with hover | hle
    · simpa [saturatingBuiltin, builtinOverflow, hfits, habove hover] using clamp_of_above hover
    · have hunder : exact < INT64_MIN := by
        unfold Fits at hfits
        omega
      simpa [saturatingBuiltin, builtinOverflow, hfits, hbelow hunder] using clamp_of_below hunder

theorem portable_saturated {P Q : Prop} [Decidable P] [Decidable Q] {first second : Option Bool} {rP rQ : Result}
    (hcover : ¬Fits exact → P ∨ Q) (hP : P → Saturated exact (some rP)) (hQ : Q → Saturated exact (some rQ))
    (hfirst : first = some (decide P)) (hsecond : second = some (decide Q)) :
    Saturated exact (do
      if ← first then return rP
      if ← second then return rQ
      return ret (← signed exact)) := by
  subst hfirst hsecond
  by_cases hp : P
  · simpa [hp] using hP hp
  · by_cases hq : Q
    · simpa [hp, hq] using hQ hq
    · have hfits : Fits exact := by
        by_contra hover
        exact (hcover hover).elim hp hq
      simpa [hp, hq, signed_of_fits hfits] using clamp_of_fits hfits

theorem past_an_end (hover : ¬Fits exact) : INT64_MAX < exact ∨ exact < INT64_MIN := by
  unfold Fits at hover
  omega

end

section
variable (gnu : Bool) (x y : BitVec 64)

theorem either_ends {exact : Int} {above below : Option Bool}
    (habove : above = some (decide (INT64_MAX < exact))) (hbelow : below = some (decide (exact < INT64_MIN))) :
    either above below = some (decide ¬Fits exact) := by
  have hends : ¬Fits exact ↔ INT64_MAX < exact ∨ exact < INT64_MIN := by
    unfold Fits
    omega
  rw [habove, hbelow]
  by_cases hover : INT64_MAX < exact <;> simp [either, hover, hends]

theorem checkedAdd_checked : Checked (x.toInt + y.toInt) (checkedAdd gnu x y) := by
  cases gnu with
  | true => exact checkedBuiltin_checked
  | false =>
    apply portable_checked
    exact either_ends (addAbove_eq (toInt_fits x) (toInt_fits y)) (addBelow_eq (toInt_fits x) (toInt_fits y))

theorem checkedSub_checked : Checked (x.toInt - y.toInt) (checkedSub gnu x y) := by
  cases gnu with
  | true => exact checkedBuiltin_checked
  | false =>
    apply portable_checked
    exact either_ends (subAbove_eq (toInt_fits x) (toInt_fits y)) (subBelow_eq (toInt_fits x) (toInt_fits y))

theorem checkedMul_checked : Checked (x.toInt * y.toInt) (checkedMul gnu x y) := by
  cases gnu with
  | true => exact checkedBuiltin_checked
  | false => exact portable_checked mulOverflows_eq

theorem saturatingAdd_saturated : Saturated (x.toInt + y.toInt) (saturatingAdd gnu x y) := by
  have hx := toInt_fits x
  have hy := toInt_fits y
  cases gnu with
  | true =>
    unfold Fits INT64_MIN INT64_MAX at hx hy
    apply saturatingBuiltin_saturated
    · unfold INT64_MAX
      simp only [decide_eq_true_eq]
      omega
    · unfold INT64_MIN
      simp only [decide_eq_false_iff_not]
      omega
  | false =>
    exact portable_saturated past_an_end clamp_of_above clamp_of_below (addAbove_eq hx hy) (addBelow_eq hx hy)

theorem saturatingSub_saturated : Saturated (x.toInt - y.toInt) (saturatingSub gnu x y) := by
  have hx := toInt_fits x
  have hy := toInt_fits y
  cases gnu with
  | true =>
    unfold Fits INT64_MIN INT64_MAX at hx hy
    apply saturatingBuiltin_saturated
    · unfold INT64_MAX
      simp only [decide_eq_true_eq]
      omega
    · unfold INT64_MIN
      simp only [decide_eq_false_iff_not]
      omega
  | false =>
    exact portable_saturated past_an_end clamp_of_above clamp_of_below (subAbove_eq hx hy) (subBelow_eq hx hy)

/-- The sign bit of `a ^ b` is clear when the signs agree. -/
theorem xor_sign : 0 ≤ (x ^^^ y).toInt ↔ (0 ≤ x.toInt ↔ 0 ≤ y.toInt) := by
  have hmsb : (x ^^^ y).msb = (x.msb ^^ y.msb) := BitVec.msb_xor
  simp only [BitVec.msb_eq_toInt] at hmsb
  by_cases hx : x.toInt < 0 <;> by_cases hy : y.toInt < 0 <;> simp [hx, hy] at hmsb ⊢ <;> omega

theorem signs_of_above {a b : Int} (hover : INT64_MAX < a * b) : 0 < a ∧ 0 < b ∨ a < 0 ∧ b < 0 :=
  Int.mul_pos_iff.mp (lt_trans (by decide) hover)

theorem signs_of_below {a b : Int} (hunder : a * b < INT64_MIN) : 0 < a ∧ b < 0 ∨ a < 0 ∧ 0 < b :=
  Int.mul_neg_iff.mp (lt_trans hunder (by decide))

theorem saturatingMul_saturated : Saturated (x.toInt * y.toInt) (saturatingMul gnu x y) := by
  have habove := signs_of_above (a := x.toInt) (b := y.toInt)
  have hbelow := signs_of_below (a := x.toInt) (b := y.toInt)
  cases gnu with
  | true =>
    have hsign := xor_sign x y
    apply saturatingBuiltin_saturated
    · intro hover
      rw [decide_eq_true_eq, hsign]
      rcases habove hover with h | h <;> omega
    · intro hunder
      rw [decide_eq_false_iff_not, hsign]
      rcases hbelow hunder with h | h <;> omega
  | false =>
    unfold saturatingMul
    simp only [Bool.false_eq_true, if_false]
    split_ifs with hpos hneg
    · refine portable_saturated past_an_end clamp_of_above clamp_of_below (both_decide ?_ mulAboveMax_eq)
        (both_decide ?_ fun _ => mulBelowMin_eq hpos)
      · intro hover
        rcases habove hover with h | h <;> omega
      · intro hunder
        rcases hbelow hunder with h | h <;> omega
    · refine portable_saturated (fun hover => (past_an_end hover).symm) clamp_of_below clamp_of_above
        (both_decide ?_ mulUnderMin_eq) (both_decide ?_ fun _ => mulUnderMax_eq hneg)
      · intro hunder
        rcases hbelow hunder with h | h <;> omega
      · intro hover
        rcases habove hover with h | h <;> omega
    · have hfits : Fits (x.toInt * y.toInt) := by
        by_contra hover
        rcases past_an_end hover with h | h
        · rcases habove h with h | h <;> omega
        · rcases hbelow h with h | h <;> omega
      rw [signed_of_fits hfits]
      exact clamp_of_fits hfits

/-- A division has a result exactly when it is neither by zero nor of the smallest number by -1. -/
theorem divided_of_tests {a b exact : Int} {test : Option Int}
    (htest : b ≠ 0 → ¬(a = INT64_MIN ∧ b = -1) → test = some exact ∧ Fits exact) :
    Divided a b exact (if b = 0 then some divZeroPanic else if a = INT64_MIN ∧ b = -1 then some overflowPanic
      else test.map ret) := by
  refine ⟨fun hzero => if_pos hzero, fun hmin => ?_, fun hzero hmin => ?_⟩
  · rw [if_neg (by omega), if_pos hmin]
  · obtain ⟨hsome, hfits⟩ := htest hzero hmin
    refine ⟨BitVec.ofInt 64 exact, ?_, toInt_ofInt_of_fits hfits⟩
    rw [if_neg hzero, if_neg hmin, hsome]
    rfl

theorem checkedDiv_divided : Divided x.toInt y.toInt (x.toInt.tdiv y.toInt) (checkedDiv x y) := by
  apply divided_of_tests
  intro hzero hmin
  have hquot := quotient_of_fits (toInt_fits x) hzero hmin
  refine ⟨hquot, ?_⟩
  by_contra hover
  simp [quotient, hzero, signed, hover] at hquot

theorem checkedRem_divided : Divided x.toInt y.toInt (x.toInt.tmod y.toInt) (checkedRem x y) := by
  apply divided_of_tests
  intro hzero hmin
  constructor
  · rw [remainder, quotient_of_fits (toInt_fits x) hzero hmin]
    rfl
  · have hy := toInt_fits y
    have hless : (x.toInt.tmod y.toInt).natAbs < y.toInt.natAbs := by
      rw [Int.natAbs_tmod]
      exact Nat.mod_lt _ (by omega)
    unfold Fits INT64_MIN INT64_MAX at *
    omega

theorem wrappingAdd_congruent : (wrappingAdd x y).toInt ≡ x.toInt + y.toInt [ZMOD 2 ^ 64] := by
  rw [wrappingAdd, BitVec.toInt_add]
  exact Int.bmod_emod

theorem wrappingSub_congruent : (wrappingSub x y).toInt ≡ x.toInt - y.toInt [ZMOD 2 ^ 64] := by
  rw [wrappingSub, BitVec.toInt_sub]
  exact Int.bmod_emod

theorem wrappingMul_congruent : (wrappingMul x y).toInt ≡ x.toInt * y.toInt [ZMOD 2 ^ 64] := by
  rw [wrappingMul, BitVec.toInt_mul]
  exact Int.bmod_emod

/-- On every pair of operands, with the builtins or without: the checked functions return the exact result or panic
when it does not fit, the saturating ones return it moved to the nearer end, a division fails on exactly the operands
without a quotient, and the wrapping functions return the residue modulo `2 ^ 64`. No test divides by zero or
overflows on the way. -/
theorem arithmetic_exact :
    (Checked (x.toInt + y.toInt) (checkedAdd gnu x y) ∧ Checked (x.toInt - y.toInt) (checkedSub gnu x y) ∧
      Checked (x.toInt * y.toInt) (checkedMul gnu x y)) ∧
    (Saturated (x.toInt + y.toInt) (saturatingAdd gnu x y) ∧
      Saturated (x.toInt - y.toInt) (saturatingSub gnu x y) ∧
      Saturated (x.toInt * y.toInt) (saturatingMul gnu x y)) ∧
    (Divided x.toInt y.toInt (x.toInt.tdiv y.toInt) (checkedDiv x y) ∧
      Divided x.toInt y.toInt (x.toInt.tmod y.toInt) (checkedRem x y)) ∧
    (wrappingAdd x y).toInt ≡ x.toInt + y.toInt [ZMOD 2 ^ 64] ∧
    (wrappingSub x y).toInt ≡ x.toInt - y.toInt [ZMOD 2 ^ 64] ∧
    (wrappingMul x y).toInt ≡ x.toInt * y.toInt [ZMOD 2 ^ 64] :=
  ⟨⟨checkedAdd_checked gnu x y, checkedSub_checked gnu x y, checkedMul_checked gnu x y⟩,
    ⟨saturatingAdd_saturated gnu x y, saturatingSub_saturated gnu x y, saturatingMul_saturated gnu x y⟩,
    ⟨checkedDiv_divided x y, checkedRem_divided x y⟩,
    wrappingAdd_congruent x y, wrappingSub_congruent x y, wrappingMul_congruent x y⟩

end

end Datara.Runtime.CheckedArith
