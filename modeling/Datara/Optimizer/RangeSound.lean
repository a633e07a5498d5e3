import Datara.Library.OrBound
import Datara.Optimizer.OvfRangeCorrect

/-!
# When the abstract ranges are sound

Every interval of the domain for two ranges, and every value of each (`Range.Sound`). The sums, differences and
products of 64-bit values are in their intervals, but for a difference with `-2 ^ 63` whose interval the negated
end makes one too small. The bit operators are right for two ranges of which no or leaves the greater end, and on
negative values only where the operands agree or share no bit (`sound_iff`).
-/

namespace Datara.Optimizer

open Dmir Library

namespace Range

/-- The ends are `i64`. -/
def InSlot (r : Range) : Prop := IntTy.int.Contains r.lo ∧ IntTy.int.Contains r.hi

instance (r : Range) : Decidable r.InSlot :=
  inferInstanceAs (Decidable (IntTy.int.Contains r.lo ∧ IntTy.int.Contains r.hi))

/-- What the intervals of the domain say of two values. -/
structure SoundAt (r s : Range) (v u : BitVec 64) : Prop where
  add : IntTy.int.Contains (v.toInt + u.toInt) → (r.add s).Contains (v.toInt + u.toInt)
  sub : IntTy.int.Contains (v.toInt - u.toInt) → (r.sub s).Contains (v.toInt - u.toInt)
  mul : IntTy.int.Contains (v.toInt * u.toInt) → (r.mul s).Contains (v.toInt * u.toInt)
  and : (r.bitand s).Contains (v &&& u).toInt
  or : (r.bitor s).Contains (v ||| u).toInt
  xor : (r.xor s).Contains (v ^^^ u).toInt
  neg : r.neg.Contains (-v.toInt)
  addFits : (r.add s).fits = true → IntTy.int.Contains (v.toInt + u.toInt)
  subFits : (r.sub s).fits = true → IntTy.int.Contains (v.toInt - u.toInt)
  mulFits : (r.mul s).fits = true → IntTy.int.Contains (v.toInt * u.toInt)
  negFits : r.neg.fits = true → IntTy.int.Contains (-v.toInt)

/-- **The domain is sound for two ranges.** -/
def Sound (r s : Range) : Prop :=
  ∀ v u : BitVec 64, r.Contains v.toInt → s.Contains u.toInt → SoundAt r s v u

/-- Two ranges of numbers that are not negative, no two of which have an or above the greater end. -/
def Below (r s : Range) : Prop :=
  0 ≤ r.lo ∧ 0 ≤ s.lo ∧
    ((s.hi ≤ r.hi ∧ OrFree r.lo.toNat r.hi.toNat s.lo.toNat s.hi.toNat) ∨
      (r.hi ≤ s.hi ∧ OrFree s.lo.toNat s.hi.toNat r.lo.toNat r.hi.toNat))

/-- A range of negative numbers and one of others, the values of which share no bit, and the second so small
that with the first it stays below its own negation. -/
def Split (r s : Range) : Prop :=
  r.hi < 0 ∧ 0 ≤ s.lo ∧ r.hi + 2 * s.hi ≤ 0 ∧
    ∀ v u : BitVec 64, r.Contains v.toInt → s.Contains u.toInt → v &&& u = 0

/-- The ranges for which the domain is sound: one of them has no value, or the first is without the least
number and they are one negative number twice, split, or below their greater end. -/
def Trusted (r s : Range) : Prop :=
  r.hi < r.lo ∨ s.hi < s.lo ∨
    (r.lo ≠ IntTy.int.lo ∧ (Below r s ∨ (r = s ∧ r.lo = r.hi ∧ r.hi < 0) ∨ Split r s ∨ Split s r))

section
variable {r s : Range} {v u : BitVec 64} {x y : Int}

theorem int_ends : IntTy.int.lo = -2 ^ 63 ∧ IntTy.int.hi = 2 ^ 63 - 1 := ⟨rfl, rfl⟩

theorem zero_toInt : (0 : BitVec 64).toInt = 0 := rfl

theorem InSlot.contains (h : r.InSlot) (hx : r.Contains x) : IntTy.int.Contains x :=
  ⟨Int.le_trans h.1.1 hx.1, Int.le_trans hx.2 h.2.2⟩

theorem InSlot.exists_value (h : r.InSlot) (hx : r.Contains x) : ∃ v : BitVec 64, v.toInt = x :=
  ⟨BitVec.ofInt 64 x, toInt_ofInt (h.contains hx)⟩

theorem contains_value (v : BitVec 64) : IntTy.int.Contains v.toInt := IntTy.contains_decode_int v

/-! ## Sums, differences, negations -/

theorem neg_fits (h : r.neg.fits = true) (hr : r.InSlot) (hx : r.Contains x) : IntTy.int.Contains (-x) := by
  obtain ⟨h₁, h₂⟩ := Bool.and_eq_true_iff.mp h
  have h₂ := of_decide_eq_true h₂
  obtain ⟨hlo, hhi⟩ := hr.contains hx
  obtain ⟨hx₁, hx₂⟩ := hx
  obtain ⟨⟨hr₁, -⟩, -⟩ := hr
  simp only [neg, checkedI64, IntTy.Contains, int_ends.1, int_ends.2] at *
  split at h₂
  · rw [Option.getD_some] at h₂
    omega
  · rw [Option.getD_none] at h₂
    omega

/-- A difference is in its interval, unless `-2 ^ 63` is subtracted from negative numbers only. -/
theorem sub_contains_of (hr : 0 ≤ r.hi ∨ s.lo ≠ IntTy.int.lo) (hs : s.InSlot) (hx : r.Contains x) (hy : s.Contains y)
    (hz : IntTy.int.Contains (x - y)) : (r.sub s).Contains (x - y) := by
  by_cases hne : y = IntTy.int.lo
  · have hlo : s.lo = IntTy.int.lo := Int.le_antisymm (hne ▸ hy.1) hs.1.1
    have hneg : s.neg.hi = IntTy.int.hi := by
      rw [neg, hlo]
      rfl
    have hneglo : s.neg.lo ≤ -y := by
      obtain ⟨hy₁, hy₂⟩ := hy
      obtain ⟨-, hs₂⟩ := hs
      simp only [neg, checkedI64, IntTy.Contains, int_ends.1, int_ends.2] at *
      split
      · rw [Option.getD_some]
        omega
      · rw [Option.getD_none]
        omega
    constructor
    · rw [← saturateI64_of_contains hz]
      exact saturateI64_mono (Int.add_le_add hx.1 hneglo)
    · have hsat : saturateI64 (r.hi + s.neg.hi) = IntTy.int.hi := by
        rw [hneg]
        simp only [saturateI64, IntTy.clamp, int_ends.1, int_ends.2]
        omega
      show x - y ≤ saturateI64 (r.hi + s.neg.hi)
      rw [hsat]
      exact hz.2
  · exact sub_contains hx hy (hs.contains hy) hne hz

theorem sub_fits (h : (r.sub s).fits = true) (hs : s.InSlot) (hr : r.InSlot) (hx : r.Contains x) (hy : s.Contains y) :
    IntTy.int.Contains (x - y) := by
  by_cases hne : y = IntTy.int.lo
  · have hlo : s.lo = IntTy.int.lo := Int.le_antisymm (hne ▸ hy.1) hs.1.1
    have hneg : s.neg.hi = IntTy.int.hi := by
      rw [neg, hlo]
      rfl
    have hhi : saturateI64 (r.hi + s.neg.hi) < IntTy.int.hi :=
      of_decide_eq_true (Bool.and_eq_true_iff.mp h).2
    have hsum := lt_of_saturateI64_lt hhi
    obtain ⟨hx₁, hx₂⟩ := hx
    obtain ⟨⟨hr₁, -⟩, -⟩ := hr
    rw [hneg] at hsum
    simp only [IntTy.Contains, int_ends.1, int_ends.2] at *
    omega
  · exact add_fits hx (neg_contains hy (hs.contains hy) hne) (t := r.sub s) ⟨Int.le_refl _, Int.le_refl _⟩ h

/-! ## Bits -/

theorem msb_iff (v : BitVec 64) : v.msb = false ↔ 0 ≤ v.toInt := by
  rw [← Bool.not_eq_true, ← toInt_neg_iff, Int.not_lt]

theorem toInt_of_nonneg (hv : 0 ≤ v.toInt) : v.toInt = v.toNat :=
  BitVec.toInt_eq_toNat_of_msb ((msb_iff v).mpr hv)

theorem or_nonneg_iff : 0 ≤ (v ||| u).toInt ↔ 0 ≤ v.toInt ∧ 0 ≤ u.toInt := by
  rw [← msb_iff, ← msb_iff, ← msb_iff, BitVec.msb_or, Bool.or_eq_false_iff]

theorem or_of_nonneg (hv : 0 ≤ v.toInt) (hu : 0 ≤ u.toInt) :
    (v ||| u).toInt = ((v.toInt.toNat ||| u.toInt.toNat : Nat) : Int) := by
  rw [toInt_of_nonneg (or_nonneg_iff.mpr ⟨hv, hu⟩), toInt_of_nonneg hv, toInt_of_nonneg hu, BitVec.toNat_or,
    Int.toNat_natCast, Int.toNat_natCast]

/-- The two values without a common bit. -/
theorem or_of_disjoint (h : v &&& u = 0) : v ||| u = v + u ∧ v ^^^ u = v ||| u := by
  refine ⟨(BitVec.add_eq_or_of_and_eq_zero v u h).symm, ?_⟩
  ext i hi
  have hbit : (v &&& u)[i] = false := by
    rw [h]
    exact BitVec.getElem_zero hi
  rw [BitVec.getElem_and] at hbit
  rw [BitVec.getElem_xor, BitVec.getElem_or]
  cases hv : v[i] with
  | false => rw [Bool.false_xor, Bool.false_or]
  | true =>
    rw [hv, Bool.true_and] at hbit
    rw [hbit]
    rfl

theorem toInt_add_of_split (hv : v.toInt < 0) (hu : 0 ≤ u.toInt) : (v + u).toInt = v.toInt + u.toInt := by
  have hvin := contains_value v
  have huin := contains_value u
  simp only [IntTy.Contains, int_ends.1, int_ends.2] at hvin huin
  rw [BitVec.toInt_add, Int.bmod_eq_of_le (by omega) (by omega)]

/-- An or is not below either value of a negative sign, nor below a number of both. -/
theorem min_le_or (v u : BitVec 64) : min v.toInt u.toInt ≤ (v ||| u).toInt := by
  have hle₁ : v.toNat ≤ (v ||| u).toNat := by rw [BitVec.toNat_or]; exact Nat.left_le_or
  have hle₂ : u.toNat ≤ (v ||| u).toNat := by rw [BitVec.toNat_or]; exact Nat.right_le_or
  have hmsb : (v ||| u).msb = (v.msb || u.msb) := BitVec.msb_or
  rw [BitVec.toInt_eq_msb_cond (v ||| u), BitVec.toInt_eq_msb_cond v, BitVec.toInt_eq_msb_cond u, hmsb]
  cases v.msb with
  | false =>
    cases u.msb with
    | false =>
      simp only [Bool.or_false, Bool.false_eq_true, if_false]
      omega
    | true =>
      simp only [Bool.or_true, Bool.false_eq_true, if_false, if_true]
      omega
  | true =>
    simp only [Bool.true_or, if_true]
    omega

theorem and_nonneg_iff : 0 ≤ (v &&& u).toInt ↔ 0 ≤ v.toInt ∨ 0 ≤ u.toInt := by
  rw [← msb_iff, ← msb_iff, ← msb_iff, BitVec.msb_and, Bool.and_eq_false_iff]

theorem xor_nonneg (h : 0 ≤ v.toInt ↔ 0 ≤ u.toInt) : 0 ≤ (v ^^^ u).toInt := by
  have hmsb : v.msb = u.msb := by
    rw [← msb_iff, ← msb_iff] at h
    cases hu : u.msb with
    | false => exact h.mpr hu
    | true => exact Bool.eq_true_of_not_eq_false fun hv => by rw [h.mp hv] at hu; cases hu
  rw [← msb_iff, BitVec.msb_xor, hmsb, Bool.xor_self]

/-- What the intervals of the bit operators say of two values. -/
structure BitsAt (r s : Range) (v u : BitVec 64) : Prop where
  and : (r.bitand s).Contains (v &&& u).toInt
  or : (r.bitor s).Contains (v ||| u).toInt
  xor : (r.xor s).Contains (v ^^^ u).toInt

theorem BitsAt.symm (h : BitsAt r s v u) : BitsAt s r u v := by
  have hand : r.bitand s = s.bitand r := by
    simp [bitand, or_comm (a := 0 ≤ r.lo), Int.min_comm r.hi]
  have hor : r.bitor s = s.bitor r := by
    simp [bitor, or_comm (a := r.lo < 0), Int.min_comm r.lo, Int.max_comm r.hi]
  have hxor : r.xor s = s.xor r := by
    simp [Range.xor, Int.min_comm r.lo, Int.max_comm r.hi]
  obtain ⟨h₁, h₂, h₃⟩ := h
  rw [hand, BitVec.and_comm] at h₁
  rw [hor, BitVec.or_comm] at h₂
  rw [hxor, BitVec.xor_comm] at h₃
  exact ⟨h₁, h₂, h₃⟩

/-- The bit operators on two ranges. -/
def BitsSound (r s : Range) : Prop :=
  ∀ v u : BitVec 64, r.Contains v.toInt → s.Contains u.toInt → BitsAt r s v u

theorem BitsSound.symm (h : BitsSound r s) : BitsSound s r := fun v u hv hu => (h u v hu hv).symm

/-- The interval of `|` of ranges with a negative number is below zero. -/
theorem bitor_hi (h : r.lo < 0 ∨ s.lo < 0) : (r.bitor s).hi ≤ -1 ∧ (r.bitor s).hi ≤ -r.hi ∧ (r.bitor s).hi ≤ -s.hi := by
  simp only [bitor, if_pos h]
  omega

theorem xor_contains_nonneg (hr : 0 ≤ r.lo) (hs : 0 ≤ s.lo) (hv : r.Contains v.toInt) (hu : s.Contains u.toInt)
    (hor : (v ||| u).toInt ≤ max r.hi s.hi) : (r.xor s).Contains (v ^^^ u).toInt := by
  have hv₀ : 0 ≤ v.toInt := Int.le_trans hr hv.1
  have hu₀ : 0 ≤ u.toInt := Int.le_trans hs hu.1
  have hxor : 0 ≤ (v ^^^ u).toInt := xor_nonneg ⟨fun _ => hu₀, fun _ => hv₀⟩
  have hle : (v ^^^ u).toInt ≤ (v ||| u).toInt := by
    rw [toInt_of_nonneg hxor, toInt_of_nonneg (or_nonneg_iff.mpr ⟨hv₀, hu₀⟩), BitVec.toNat_xor, BitVec.toNat_or]
    refine Int.ofNat_le.mpr (Nat.le_of_testBit fun j hj => ?_)
    rw [Nat.testBit_xor] at hj
    rw [Nat.testBit_or]
    cases hvj : v.toNat.testBit j with
    | true => exact Bool.true_or _
    | false => rwa [hvj, Bool.false_xor] at hj
  have hin := (contains_value (v ^^^ u)).2
  simp only [int_ends.2] at hin
  have hlo : ¬min r.lo s.lo < 0 := by omega
  simp only [Range.xor, Contains, if_neg hlo]
  refine ⟨hxor, ?_⟩
  split
  case isTrue hpos =>
    rw [doubled_of_pos hpos]
    split <;> omega
  case isFalse hpos => omega

theorem BitsAt.of_nonneg (hr : 0 ≤ r.lo) (hs : 0 ≤ s.lo) (hv : r.Contains v.toInt) (hu : s.Contains u.toInt)
    (hor : (v ||| u).toInt ≤ max r.hi s.hi) : BitsAt r s v u := by
  have hv₀ : 0 ≤ v.toInt := Int.le_trans hr hv.1
  have hu₀ : 0 ≤ u.toInt := Int.le_trans hs hu.1
  refine ⟨bitand_contains hv hu ⟨fun _ => hu₀, fun _ => hv₀⟩, ⟨?_, ?_⟩, xor_contains_nonneg hr hs hv hu hor⟩
  · have hmin := min_le_or v u
    have := hv.1
    have := hu.1
    simp only [bitor]
    omega
  · simp only [bitor, if_neg (show ¬(r.lo < 0 ∨ s.lo < 0) by omega)]
    exact hor

/-- A negative number and itself. -/
theorem BitsAt.of_same (h : r.lo = r.hi) (hneg : r.hi < 0) (hv : r.Contains v.toInt) (hu : r.Contains u.toInt) :
    BitsAt r r v u := by
  obtain ⟨hv₁, hv₂⟩ := hv
  obtain ⟨hu₁, hu₂⟩ := hu
  obtain rfl : v = u := BitVec.eq_of_toInt_eq (by omega)
  refine ⟨bitand_contains ⟨hv₁, hv₂⟩ ⟨hu₁, hu₂⟩ Iff.rfl, ?_, ?_⟩
  · rw [BitVec.or_self]
    simp only [Contains, bitor]
    split <;> omega
  · rw [BitVec.xor_self, BitVec.toInt_zero]
    have hlo : min r.lo r.lo < 0 := by omega
    simp only [Range.xor, Contains, if_pos hlo, if_neg (show ¬0 < max r.hi r.hi by omega)]
    rw [doubled_of_neg hlo]
    split <;> omega

theorem BitsAt.of_split (h : Split r s) (hv : r.Contains v.toInt) (hu : s.Contains u.toInt) : BitsAt r s v u := by
  obtain ⟨hr, hs, hsum, hapart⟩ := h
  have hzero := hapart v u hv hu
  obtain ⟨hor, hxor⟩ := or_of_disjoint hzero
  obtain ⟨hv₁, hv₂⟩ := hv
  obtain ⟨hu₁, hu₂⟩ := hu
  have hadd : (v + u).toInt = v.toInt + u.toInt := toInt_add_of_split (by omega) (by omega)
  have hneg : (v + u).toInt < 0 := by
    rw [← hor, ← Int.not_le, or_nonneg_iff]
    omega
  rw [hadd] at hneg
  refine ⟨?_, ?_, ?_⟩
  · rw [hzero, zero_toInt]
    simp only [Contains, bitand, if_pos (show 0 ≤ r.lo ∨ 0 ≤ s.lo from .inr hs)]
    omega
  · rw [hor, hadd]
    simp only [Contains, bitor, if_pos (show r.lo < 0 ∨ s.lo < 0 by omega)]
    omega
  · have hvin := (contains_value v).1
    rw [int_ends.1] at hvin
    rw [hxor, hor, hadd]
    have hlo : min r.lo s.lo < 0 := by omega
    simp only [Range.xor, Contains, if_pos hlo]
    rw [doubled_of_neg hlo]
    constructor
    · split <;> omega
    · split
      case isTrue hpos =>
        rw [doubled_of_pos hpos]
        split <;> omega
      case isFalse => omega

/-! ## What soundness asks for -/

theorem exists_below (hr : r.InSlot) (hs : s.InSlot) (hr₀ : 0 ≤ r.lo) (hs₀ : 0 ≤ s.lo) (hre : r.lo ≤ r.hi)
    (hse : s.lo ≤ s.hi) (hle : s.hi ≤ r.hi) :
    (∀ v u : BitVec 64, r.Contains v.toInt → s.Contains u.toInt → (v ||| u).toInt ≤ r.hi) ↔
      OrFree r.lo.toNat r.hi.toNat s.lo.toNat s.hi.toNat := by
  rw [← or_le_iff (Int.toNat_le_toNat hre) (Int.toNat_le_toNat hse)]
  constructor
  · intro h a b ha hb
    obtain ⟨v, hv⟩ := hr.exists_value (x := a) ⟨by omega, by omega⟩
    obtain ⟨u, hu⟩ := hs.exists_value (x := b) ⟨by omega, by omega⟩
    have hor := h v u (hv ▸ ⟨by omega, by omega⟩) (hu ▸ ⟨by omega, by omega⟩)
    rw [or_of_nonneg (by omega) (by omega), hv, hu, Int.toNat_natCast, Int.toNat_natCast] at hor
    omega
  · intro h v u hv hu
    obtain ⟨hv₁, hv₂⟩ := hv
    obtain ⟨hu₁, hu₂⟩ := hu
    have hor := h v.toInt.toNat u.toInt.toNat ⟨by omega, by omega⟩ ⟨by omega, by omega⟩
    rw [or_of_nonneg (by omega) (by omega)]
    omega

theorem below_of_sound (h : BitsSound r s) (hr : r.InSlot) (hs : s.InSlot) (hr₀ : 0 ≤ r.lo) (hs₀ : 0 ≤ s.lo)
    (hre : r.lo ≤ r.hi) (hse : s.lo ≤ s.hi) : Below r s := by
  have hmax : ∀ v u : BitVec 64, r.Contains v.toInt → s.Contains u.toInt → (v ||| u).toInt ≤ max r.hi s.hi := by
    intro v u hv hu
    have hor := (h v u hv hu).or.2
    simp only [bitor, if_neg (show ¬(r.lo < 0 ∨ s.lo < 0) by omega)] at hor
    exact hor
  refine ⟨hr₀, hs₀, ?_⟩
  obtain hle | hle := Int.le_total s.hi r.hi
  · refine .inl ⟨hle, (exists_below hr hs hr₀ hs₀ hre hse hle).mp fun v u hv hu => ?_⟩
    have := hmax v u hv hu
    omega
  · refine .inr ⟨hle, (exists_below hs hr hs₀ hr₀ hse hre hle).mp fun v u hv hu => ?_⟩
    have := hmax u v hu hv
    rw [BitVec.or_comm]
    omega

theorem split_of_sound (h : BitsSound r s) (hr : r.InSlot) (hs : s.InSlot) (hre : r.lo ≤ r.hi) (hse : s.lo ≤ s.hi)
    (hneg : r.hi < 0) : (r = s ∧ r.lo = r.hi) ∨ Split r s := by
  by_cases hsneg : s.hi < 0
  · -- the interval of `^` is zero at most, so any two values are the same
    left
    have hsame : ∀ {x y : Int}, r.Contains x → s.Contains y → x = y := by
      intro x y hx hy
      obtain ⟨v, rfl⟩ := hr.exists_value hx
      obtain ⟨u, rfl⟩ := hs.exists_value hy
      have hle := (h v u hx hy).xor.2
      have hge : 0 ≤ (v ^^^ u).toInt := xor_nonneg (by have := hx.2; have := hy.2; omega)
      simp only [Range.xor, if_neg (show ¬0 < max r.hi s.hi by omega)] at hle
      have hzero : v ^^^ u = 0 := BitVec.eq_of_toInt_eq (by rw [zero_toInt]; omega)
      rw [BitVec.xor_eq_zero_iff.mp hzero]
    have hlo := hsame ⟨Int.le_refl _, hre⟩ ⟨Int.le_refl _, hse⟩
    have hhi := hsame ⟨hre, Int.le_refl _⟩ ⟨hse, Int.le_refl _⟩
    have hcross := hsame ⟨Int.le_refl _, hre⟩ ⟨hse, Int.le_refl _⟩
    refine ⟨?_, by omega⟩
    obtain ⟨r₀, r₁⟩ := r
    obtain ⟨s₀, s₁⟩ := s
    exact congrArg₂ Range.mk hlo hhi
  · right
    have hs₀ : 0 ≤ s.lo := by
      by_contra hlt
      obtain ⟨v, hv⟩ := hr.exists_value ⟨hre, Int.le_refl _⟩
      have hin : s.Contains (0 : BitVec 64).toInt := zero_toInt ▸ ⟨by omega, by omega⟩
      have hand := (h v 0 (hv ▸ ⟨hre, Int.le_refl _⟩) hin).and.2
      have hzero : v &&& 0 = 0 := BitVec.and_zero
      rw [hzero, zero_toInt] at hand
      simp only [bitand, if_neg (show ¬(0 ≤ r.lo ∨ 0 ≤ s.lo) by omega), int_ends.1] at hand
      omega
    have hapart : ∀ v u : BitVec 64, r.Contains v.toInt → s.Contains u.toInt → v &&& u = 0 := by
      intro v u hv hu
      have hand := (h v u hv hu).and.2
      have hge : 0 ≤ (v &&& u).toInt := and_nonneg_iff.mpr (.inr (Int.le_trans hs₀ hu.1))
      simp only [bitand, if_pos (show 0 ≤ r.lo ∨ 0 ≤ s.lo from .inr hs₀)] at hand
      exact BitVec.eq_of_toInt_eq (by rw [zero_toInt]; omega)
    refine ⟨hneg, hs₀, ?_, hapart⟩
    obtain ⟨v, hv⟩ := hr.exists_value ⟨hre, Int.le_refl _⟩
    obtain ⟨u, hu⟩ := hs.exists_value ⟨hse, Int.le_refl _⟩
    have hvin : r.Contains v.toInt := hv ▸ ⟨hre, Int.le_refl _⟩
    have huin : s.Contains u.toInt := hu ▸ ⟨hse, Int.le_refl _⟩
    have hor := (h v u hvin huin).or.2
    rw [(or_of_disjoint (hapart v u hvin huin)).1, toInt_add_of_split (by omega) (by omega), hv, hu] at hor
    have hhi := (bitor_hi (r := r) (s := s) (.inl (by omega))).2.2
    omega

/-! ## Both directions -/

theorem bitsSound_iff (hr : r.InSlot) (hs : s.InSlot) (hre : r.lo ≤ r.hi) (hse : s.lo ≤ s.hi) :
    BitsSound r s ↔ Below r s ∨ (r = s ∧ r.lo = r.hi ∧ r.hi < 0) ∨ Split r s ∨ Split s r := by
  constructor
  · intro h
    by_cases hnonneg : 0 ≤ r.lo ∧ 0 ≤ s.lo
    · exact .inl (below_of_sound h hr hs hnonneg.1 hnonneg.2 hre hse)
    · right
      by_cases hrneg : r.hi < 0
      · obtain ⟨heq, hone⟩ | hsplit := split_of_sound h hr hs hre hse hrneg
        · exact .inl ⟨heq, hone, hrneg⟩
        · exact .inr (.inl hsplit)
      · have hsneg : s.hi < 0 := by
          by_contra hs₀
          obtain ⟨v, hv⟩ := hr.exists_value ⟨hre, Int.le_refl _⟩
          obtain ⟨u, hu⟩ := hs.exists_value ⟨hse, Int.le_refl _⟩
          have hor := (h v u (hv ▸ ⟨hre, Int.le_refl _⟩) (hu ▸ ⟨hse, Int.le_refl _⟩)).or.2
          have hge : 0 ≤ (v ||| u).toInt := or_nonneg_iff.mpr ⟨by omega, by omega⟩
          have hhi := (bitor_hi (r := r) (s := s) (by omega)).1
          omega
        obtain ⟨rfl, hone⟩ | hsplit := split_of_sound h.symm hs hr hse hre hsneg
        · exact absurd hsneg hrneg
        · exact .inr (.inr hsplit)
  · rintro (⟨hr₀, hs₀, hfree⟩ | ⟨rfl, hone, hneg⟩ | hsplit | hsplit) v u hv hu
    · refine BitsAt.of_nonneg hr₀ hs₀ hv hu ?_
      obtain ⟨hle, hfree⟩ | ⟨hle, hfree⟩ := hfree
      · have := (exists_below hr hs hr₀ hs₀ hre hse hle).mpr hfree v u hv hu
        omega
      · have := (exists_below hs hr hs₀ hr₀ hse hre hle).mpr hfree u v hu hv
        rw [BitVec.or_comm] at this
        omega
    · exact BitsAt.of_same hone hneg hv hu
    · exact BitsAt.of_split hsplit hv hu
    · exact (BitsAt.of_split hsplit hu hv).symm

/-- **When the abstract ranges are sound.** -/
theorem sound_iff (hr : r.InSlot) (hs : s.InSlot) : Sound r s ↔ Trusted r s := by
  by_cases hre : r.hi < r.lo
  · exact ⟨fun _ => .inl hre, fun _ v u hv _ => by have := hv.1; have := hv.2; omega⟩
  by_cases hse : s.hi < s.lo
  · exact ⟨fun _ => .inr (.inl hse), fun _ v u _ hu => by have := hu.1; have := hu.2; omega⟩
  have hre := Int.not_lt.mp hre
  have hse := Int.not_lt.mp hse
  constructor
  · intro h
    refine .inr (.inr ⟨fun hlo => ?_, (bitsSound_iff hr hs hre hse).mp fun v u hv hu =>
      ⟨(h v u hv hu).and, (h v u hv hu).or, (h v u hv hu).xor⟩⟩)
    obtain ⟨v, hv⟩ := hr.exists_value ⟨Int.le_refl _, hre⟩
    obtain ⟨u, hu⟩ := hs.exists_value ⟨Int.le_refl _, hse⟩
    have hneg := (h v u (hv ▸ ⟨Int.le_refl _, hre⟩) (hu ▸ ⟨Int.le_refl _, hse⟩)).neg.2
    have hhi : r.neg.hi = IntTy.int.hi := by
      rw [neg, hlo]
      rfl
    rw [hhi, hv, hlo, int_ends.1, int_ends.2] at hneg
    omega
  · intro h
    obtain ⟨hlo, hbits⟩ := (h.resolve_left (Int.not_lt.mpr hre)).resolve_left (Int.not_lt.mpr hse)
    have hsub : 0 ≤ r.hi ∨ s.lo ≠ IntTy.int.lo := by
      rw [int_ends.1]
      obtain ⟨-, hs₀, -⟩ | ⟨rfl, -, -⟩ | ⟨-, hs₀, -⟩ | ⟨-, hr₀, -⟩ := hbits
      · exact .inr (by omega)
      · exact .inr hlo
      · exact .inr (by omega)
      · exact .inl (by omega)
    intro v u hv hu
    obtain ⟨hand, hor, hxor⟩ := (bitsSound_iff hr hs hre hse).mpr hbits v u hv hu
    have hself : ∀ {t : Range}, t.Within t := ⟨Int.le_refl _, Int.le_refl _⟩
    exact {
      add := add_contains hv hu
      sub := sub_contains_of hsub hs hv hu
      mul := mul_contains hv hu
      and := hand
      or := hor
      xor := hxor
      neg := neg_contains hv (contains_value v) fun hmin => hlo (Int.le_antisymm (hmin ▸ hv.1) hr.1.1)
      addFits := add_fits hv hu hself
      subFits := fun hfits => sub_fits hfits hs hr hv hu
      mulFits := mul_fits hv hu hself
      negFits := fun hfits => neg_fits hfits hr hv }

theorem sound_iff_sample : Sound (const 6) (const 2) := by
  refine (sound_iff (by decide) (by decide)).mpr (.inr (.inr ⟨by decide, .inl ⟨by decide, by decide, .inl ⟨by decide, ?_⟩⟩⟩))
  constructor
  · intro k hk
    have hor : (6 : Nat) = 6 ||| 2 := rfl
    rw [show (const 6).hi.toNat = 6 from rfl, hor, Nat.testBit_or, show Nat.testBit 2 k = true from hk, Bool.or_true]
  · intro k _ hlow
    exact hlow.elim (fun h => absurd h (Nat.lt_irrefl _)) fun h => absurd h (Nat.lt_irrefl _)

/-- The interval of `1 | 2` is from 1 to 2. -/
theorem not_sound_or : (const 1).InSlot ∧ (const 2).InSlot ∧ ¬Sound (const 1) (const 2) :=
  ⟨by decide, by decide, fun h => absurd (h 1 2 (by decide) (by decide)).or.2 (by decide)⟩

end

end Range

end Datara.Optimizer
