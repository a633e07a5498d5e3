import Datara.Optimizer.ConstExpr
import Datara.Optimizer.OvfDelta
import Datara.Optimizer.ProvenNoOverflow

/-!
# The abstract ranges, correct

What each operator's interval says of its result. The saturating corners are right for what does not
overflow; a wrapped result, a subtraction of `-2 ^ 63`, and the bit operators on operands of both signs
leave their interval (`OpFits`). The interval of `|` is wrong outright.
-/

namespace Datara.Optimizer

open Dmir

namespace Range

/-- `x` is in the interval. -/
def Contains (r : Range) (x : Int) : Prop := r.lo ≤ x ∧ x ≤ r.hi

/-- An interval in another. -/
def Within (r s : Range) : Prop := s.lo ≤ r.lo ∧ r.hi ≤ s.hi

instance (r : Range) (x : Int) : Decidable (r.Contains x) :=
  inferInstanceAs (Decidable (r.lo ≤ x ∧ x ≤ r.hi))

variable {r s t : Range} {x y z : Int}

theorem Within.contains (h : r.Within s) (hx : r.Contains x) : s.Contains x :=
  ⟨Int.le_trans h.1 hx.1, Int.le_trans hx.2 h.2⟩

theorem within_of_union_eq (h : r.union s = r) : s.Within r := by
  have hlo : min r.lo s.lo = r.lo := congrArg Range.lo h
  have hhi : max r.hi s.hi = r.hi := congrArg Range.hi h
  exact ⟨by omega, by omega⟩

theorem saturateI64_of_contains (h : IntTy.int.Contains z) : saturateI64 z = z :=
  IntTy.clamp_of_contains h

theorem saturateI64_mono (h : x ≤ y) : saturateI64 x ≤ saturateI64 y := by
  unfold saturateI64 IntTy.clamp
  omega

theorem lt_of_lt_saturateI64 (h : IntTy.int.lo < saturateI64 z) : IntTy.int.lo < z := by
  unfold saturateI64 IntTy.clamp at h
  omega

theorem lt_of_saturateI64_lt (h : saturateI64 z < IntTy.int.hi) : z < IntTy.int.hi := by
  unfold saturateI64 IntTy.clamp at h
  omega

/-! ## Addition and subtraction -/

theorem add_contains (hx : r.Contains x) (hy : s.Contains y) (hz : IntTy.int.Contains (x + y)) :
    (r.add s).Contains (x + y) := by
  rw [← saturateI64_of_contains hz]
  exact ⟨saturateI64_mono (Int.add_le_add hx.1 hy.1), saturateI64_mono (Int.add_le_add hx.2 hy.2)⟩

theorem neg_contains (hy : s.Contains y) (hi : IntTy.int.Contains y) (hne : y ≠ IntTy.int.lo) :
    s.neg.Contains (-y) := by
  obtain ⟨h₁, h₂⟩ := hy
  obtain ⟨h₃, h₄⟩ := hi
  simp only [IntTy.lo, IntTy.hi, IntTy.signed, IntTy.width, if_true] at h₃ h₄ hne
  unfold neg checkedI64 IntTy.Contains
  simp only [IntTy.lo, IntTy.hi, IntTy.signed, IntTy.width, if_true]
  constructor <;> dsimp only <;> split_ifs <;> simp only [Option.getD_some, Option.getD_none] <;> omega

theorem sub_contains (hx : r.Contains x) (hy : s.Contains y) (hi : IntTy.int.Contains y)
    (hne : y ≠ IntTy.int.lo) (hz : IntTy.int.Contains (x - y)) : (r.sub s).Contains (x - y) :=
  add_contains hx (neg_contains hy hi hne) hz

/-- A sum whose interval is off both ends does not overflow. -/
theorem add_fits (hx : r.Contains x) (hy : s.Contains y) (h : (r.add s).Within t)
    (ht : t.fits = true) : IntTy.int.Contains (x + y) := by
  obtain ⟨h₁, h₂⟩ := h
  obtain ⟨h₃, h₄⟩ := Bool.and_eq_true_iff.mp ht
  have h₃ := of_decide_eq_true h₃
  have h₄ := of_decide_eq_true h₄
  obtain ⟨h₅, h₆⟩ := hx
  obtain ⟨h₇, h₈⟩ := hy
  simp only [add, saturateI64, IntTy.clamp] at h₁ h₂
  exact ⟨by omega, by omega⟩

/-! ## Multiplication -/

theorem mul_corners (hx : r.Contains x) (hy : s.Contains y) :
    (r.lo * s.lo ≤ x * y ∨ r.lo * s.hi ≤ x * y ∨ r.hi * s.lo ≤ x * y ∨ r.hi * s.hi ≤ x * y) ∧
      (x * y ≤ r.lo * s.lo ∨ x * y ≤ r.lo * s.hi ∨ x * y ≤ r.hi * s.lo ∨ x * y ≤ r.hi * s.hi) := by
  -- a factor between two others gives a product between theirs, on the side of its sign
  have side : ∀ {a b u k : Int}, a ≤ u → u ≤ b → (a * k ≤ u * k ∨ b * k ≤ u * k) ∧
      (u * k ≤ a * k ∨ u * k ≤ b * k) := by
    intro a b u k ha hb
    rcases Int.le_total 0 k with hk | hk
    · exact ⟨.inl (Int.mul_le_mul_of_nonneg_right ha hk), .inr (Int.mul_le_mul_of_nonneg_right hb hk)⟩
    · exact ⟨.inr (Int.mul_le_mul_of_nonpos_right hb hk), .inl (Int.mul_le_mul_of_nonpos_right ha hk)⟩
  obtain ⟨hlo, hhi⟩ := side (k := x) hy.1 hy.2
  obtain ⟨hlo₁, hhi₁⟩ := side (k := s.lo) hx.1 hx.2
  obtain ⟨hlo₂, hhi₂⟩ := side (k := s.hi) hx.1 hx.2
  rw [Int.mul_comm s.lo x, Int.mul_comm s.hi x, Int.mul_comm y x] at hlo hhi
  constructor <;> omega

theorem mul_contains (hx : r.Contains x) (hy : s.Contains y) (hz : IntTy.int.Contains (x * y)) :
    (r.mul s).Contains (x * y) := by
  obtain ⟨hlo, hhi⟩ := mul_corners hx hy
  rw [← saturateI64_of_contains hz]
  simp only [mul, Contains]
  constructor
  · rcases hlo with h | h | h | h <;> have := saturateI64_mono h <;> omega
  · rcases hhi with h | h | h | h <;> have := saturateI64_mono h <;> omega

theorem mul_fits (hx : r.Contains x) (hy : s.Contains y) (h : (r.mul s).Within t)
    (ht : t.fits = true) : IntTy.int.Contains (x * y) := by
  obtain ⟨h₁, h₂⟩ := h
  obtain ⟨h₃, h₄⟩ := Bool.and_eq_true_iff.mp ht
  have h₃ := of_decide_eq_true h₃
  have h₄ := of_decide_eq_true h₄
  obtain ⟨hlo, hhi⟩ := mul_corners hx hy
  simp only [mul] at h₁ h₂
  constructor
  · rcases hlo with h | h | h | h <;> refine Int.le_trans (Int.le_of_lt ?_) h <;>
      exact lt_of_lt_saturateI64 (by omega)
  · rcases hhi with h | h | h | h <;> refine Int.le_trans h (Int.le_of_lt ?_) <;>
      exact lt_of_saturateI64_lt (by omega)

/-! ## Bit operators -/

theorem toInt_neg_iff (v : BitVec 64) : v.toInt < 0 ↔ v.msb = true := by
  rw [BitVec.toInt_eq_msb_cond]
  split_ifs with h <;> simp only [h, iff_true, iff_false, Bool.false_eq_true] <;> omega

/-- On operands of one sign, `&` is not above either. -/
theorem and_le {v u : BitVec 64} (h : 0 ≤ v.toInt ↔ 0 ≤ u.toInt) :
    (v &&& u).toInt ≤ v.toInt ∧ (v &&& u).toInt ≤ u.toInt ∧ (0 ≤ v.toInt → 0 ≤ (v &&& u).toInt) := by
  have h₁ : (v &&& u).toNat ≤ v.toNat := by rw [BitVec.toNat_and]; exact Nat.and_le_left
  have h₂ : (v &&& u).toNat ≤ u.toNat := by rw [BitVec.toNat_and]; exact Nat.and_le_right
  have hmsb : v.msb = u.msb := by
    rw [Bool.eq_iff_iff, ← toInt_neg_iff, ← toInt_neg_iff]
    omega
  have hand : (v &&& u).msb = v.msb := by rw [BitVec.msb_and, ← hmsb, Bool.and_self]
  rw [BitVec.toInt_eq_msb_cond (v &&& u), BitVec.toInt_eq_msb_cond v, BitVec.toInt_eq_msb_cond u, hand,
    ← hmsb]
  split_ifs <;> refine ⟨by omega, by omega, fun _ => by omega⟩

theorem bitand_contains {v u : BitVec 64} (hx : r.Contains v.toInt) (hy : s.Contains u.toInt)
    (h : 0 ≤ v.toInt ↔ 0 ≤ u.toInt) : (r.bitand s).Contains (v &&& u).toInt := by
  obtain ⟨h₁, h₂, h₃⟩ := and_le h
  obtain ⟨hx₁, hx₂⟩ := hx
  obtain ⟨hy₁, hy₂⟩ := hy
  have hmin := (IntTy.contains_decode_int (v &&& u)).1
  simp only [IntTy.decode, IntTy.signed, if_true] at hmin
  simp only [bitand, Contains]
  split_ifs <;> constructor <;> omega

theorem doubled_of_neg {a : Int} (h : a < 0) :
    (doubled a).getD IntTy.int.lo = if -2 ^ 63 ≤ a * 2 then a * 2 + 1 else -2 ^ 63 := by
  unfold doubled checkedI64 IntTy.Contains
  simp only [IntTy.lo, IntTy.hi, IntTy.signed, IntTy.width, if_true]
  by_cases hlo : -2 ^ 63 ≤ a * 2
  · rw [if_pos ⟨hlo, by omega⟩, Option.bind_some, if_pos ⟨by omega, by omega⟩, if_pos hlo]
    rfl
  · rw [if_neg fun hc => hlo hc.1, if_neg hlo]
    rfl

theorem doubled_of_pos {a : Int} (h : 0 < a) :
    (doubled a).getD IntTy.int.hi = if a * 2 < 2 ^ 63 - 1 then a * 2 + 1 else 2 ^ 63 - 1 := by
  unfold doubled checkedI64 IntTy.Contains
  simp only [IntTy.lo, IntTy.hi, IntTy.signed, IntTy.width, if_true]
  by_cases hhi : a * 2 < 2 ^ 63 - 1
  · rw [if_pos ⟨by omega, by omega⟩, Option.bind_some, if_pos ⟨by omega, by omega⟩, if_pos hhi]
    rfl
  · rw [if_neg fun hc => hhi (by omega), if_neg hhi]
    rfl

theorem xorLo_mono {l m : Int} (h : l ≤ m) :
    (if l < 0 then (doubled l).getD IntTy.int.lo else 0) ≤
      if m < 0 then (doubled m).getD IntTy.int.lo else 0 := by
  by_cases hl : l < 0 <;> by_cases hm : m < 0 <;> simp only [hl, hm, if_true, if_false]
  · rw [doubled_of_neg hl, doubled_of_neg hm]
    split_ifs <;> omega
  · rw [doubled_of_neg hl]
    split_ifs <;> omega
  · omega
  · exact Int.le_refl 0

theorem xorHi_mono {k u : Int} (h : k ≤ u) :
    (if 0 < k then (doubled k).getD IntTy.int.hi else 0) ≤
      if 0 < u then (doubled u).getD IntTy.int.hi else 0 := by
  by_cases hk : 0 < k <;> by_cases hu : 0 < u <;> simp only [hk, hu, if_true, if_false]
  · rw [doubled_of_pos hk, doubled_of_pos hu]
    split_ifs <;> omega
  · omega
  · rw [doubled_of_pos hu]
    split_ifs <;> omega
  · exact Int.le_refl 0

/-- The interval of `^` grows with its operands. -/
theorem xor_mono (hx : r.Contains x) (hy : s.Contains y) : ((const x).xor (const y)).Within (r.xor s) := by
  obtain ⟨hx₁, hx₂⟩ := hx
  obtain ⟨hy₁, hy₂⟩ := hy
  refine ⟨xorLo_mono (m := min x y) ?_, xorHi_mono (k := max x y) ?_⟩ <;> omega

end Range

/-! ## Operators -/

/-- What the interval of an operator takes for granted of its operands: a wrapping operator does not
wrap, a subtraction does not subtract `-2 ^ 63`, `&` has operands of one sign, `^` stays in the
interval of the two values, and there is no `|`. -/
def OpFits (op : String) (x y : BitVec 64) : Prop :=
  match op with
  | "wrapping_+" => IntTy.int.Contains (x.toInt + y.toInt)
  | "-" => y.toInt ≠ IntTy.int.lo
  | "wrapping_-" => IntTy.int.Contains (x.toInt - y.toInt) ∧ y.toInt ≠ IntTy.int.lo
  | "&" => 0 ≤ x.toInt ↔ 0 ≤ y.toInt
  | "^" => ((Range.const x.toInt).xor (.const y.toInt)).Contains (x ^^^ y).toInt
  | "|" => False
  | _ => True

instance (op : String) (x y : BitVec 64) : Decidable (OpFits op x y) := by
  unfold OpFits; split <;> infer_instance

section
variable {h : Host} {safe : Bool} {op : String} {x y : BitVec 64} {r s t : Range} {res : Val}

/-- An `Int` operator on integers. -/
theorem evalBinOp_ints : h.evalBinOp safe op "Int" (.int x) (.int y) = evalIntBinOp safe op "Int" x y := by
  have hstr : mentionsStr "Int" = false := by decide
  simp [Host.evalBinOp, hstr, Val.bits]

/-- A checked result is exact. A marked one is when the mark holds. -/
theorem checked_result {o : IntOp} {z : Int} (ho : IntOp.ofSpelling op = some o)
    (hne : op ≠ "&&" ∧ op ≠ "||")
    (hchecked : IntTy.int.eval o x.toInt y.toInt = .num <$> IntTy.int.checked z)
    (hunchecked : IntTy.int.eval o.unchecked x.toInt y.toInt = .ok (.num (IntTy.int.wrap z)))
    (hsafe : safe = true → IntTy.int.Contains z)
    (hres : evalIntBinOp safe op "Int" x y = .ok res) :
    IntTy.int.Contains z ∧ res = .int (.ofInt 64 z) := by
  have hty : IntTy.ofRepr "Int" = .int := rfl
  have hdec : ∀ v, IntTy.int.decode v = v.toInt := fun _ => rfl
  unfold evalIntBinOp at hres
  rw [if_neg hne.1, if_neg hne.2] at hres
  simp only [hty, ho, hdec] at hres
  by_cases hz : IntTy.int.Contains z
  · refine ⟨hz, ?_⟩
    cases safe with
    | true =>
      rw [if_pos rfl, hunchecked, IntTy.wrap_of_contains hz] at hres
      exact (Except.ok.inj hres).symm
    | false =>
      rw [if_neg Bool.false_ne_true, hchecked, IntTy.checked, if_neg (by decide), if_pos hz] at hres
      exact (Except.ok.inj hres).symm
  · cases safe with
    | true => exact absurd (hsafe rfl) hz
    | false =>
      rw [if_neg Bool.false_ne_true, hchecked, IntTy.checked, if_neg (by decide), if_neg hz] at hres
      cases hres

/-- **An operator's result is in its interval.** -/
theorem ofOp_contains (hop : op ∈ rangeOps) (hx : r.Contains x.toInt) (hy : s.Contains y.toInt)
    (hfits : OpFits op x y)
    (hsafe : safe = true → ∀ z, exactResult op x.toInt y.toInt = some z → IntTy.int.Contains z)
    (hres : h.evalBinOp safe op "Int" (.int x) (.int y) = .ok res) :
    ∃ v, res = .int v ∧ (Range.ofOp op r s).Contains v.toInt := by
  rw [evalBinOp_ints] at hres
  have hyin := IntTy.contains_decode_int y
  simp only [rangeOps, List.mem_cons, List.not_mem_nil, or_false] at hop
  rcases hop with rfl | rfl | rfl | rfl | rfl | rfl | rfl | rfl
  · obtain ⟨hz, rfl⟩ := checked_result (z := x.toInt + y.toInt) rfl (by decide) rfl rfl
      (fun hs => hsafe hs _ rfl) hres
    exact ⟨_, rfl, by rw [toInt_ofInt hz]; exact Range.add_contains hx hy hz⟩
  · obtain ⟨hz, rfl⟩ := checked_result (z := x.toInt - y.toInt) rfl (by decide) rfl rfl
      (fun hs => hsafe hs _ rfl) hres
    exact ⟨_, rfl, by rw [toInt_ofInt hz]; exact Range.sub_contains hx hy hyin hfits hz⟩
  · obtain ⟨hz, rfl⟩ := checked_result (z := x.toInt * y.toInt) rfl (by decide) rfl rfl
      (fun hs => hsafe hs _ rfl) hres
    exact ⟨_, rfl, by rw [toInt_ofInt hz]; exact Range.mul_contains hx hy hz⟩
  · have hw : evalIntBinOp safe "wrapping_+" "Int" x y =
        .ok (.int (.ofInt 64 (IntTy.int.wrap (x.toInt + y.toInt)))) := by cases safe <;> rfl
    rw [hw, IntTy.wrap_of_contains hfits] at hres
    cases hres
    exact ⟨_, rfl, by rw [toInt_ofInt hfits]; exact Range.add_contains hx hy hfits⟩
  · have hw : evalIntBinOp safe "wrapping_-" "Int" x y =
        .ok (.int (.ofInt 64 (IntTy.int.wrap (x.toInt - y.toInt)))) := by cases safe <;> rfl
    obtain ⟨hz, hne⟩ := hfits
    rw [hw, IntTy.wrap_of_contains hz] at hres
    cases hres
    exact ⟨_, rfl, by rw [toInt_ofInt hz]; exact Range.sub_contains hx hy hyin hne hz⟩
  · have hw : evalIntBinOp safe "&" "Int" x y = .ok (.int (x &&& y)) := by
      cases safe <;> simp [evalIntBinOp, IntOp.ofSpelling, IntTy.eval, IntOp.unchecked,
        IntTy.encode_decode]
    rw [hw] at hres
    cases hres
    exact ⟨_, rfl, Range.bitand_contains hx hy hfits⟩
  · exact hfits.elim
  · have hw : evalIntBinOp safe "^" "Int" x y = .ok (.int (x ^^^ y)) := by
      cases safe <;> simp [evalIntBinOp, IntOp.ofSpelling, IntTy.eval, IntOp.unchecked,
        IntTy.encode_decode]
    rw [hw] at hres
    cases hres
    exact ⟨_, rfl, (Range.xor_mono hx hy).contains hfits⟩

/-- **An operator whose interval is off both ends of `i64` does not overflow.** -/
theorem ofOp_fits (hop : op ∈ ["+", "-", "*"]) (hx : r.Contains x.toInt) (hy : s.Contains y.toInt)
    (hfits : OpFits op x y) (h : (Range.ofOp op r s).Within t) (ht : t.fits = true) :
    ∃ z, exactResult op x.toInt y.toInt = some z ∧ IntTy.int.Contains z := by
  simp only [List.mem_cons, List.not_mem_nil, or_false] at hop
  rcases hop with rfl | rfl | rfl
  · exact ⟨_, rfl, Range.add_fits hx hy h ht⟩
  · have hneg := Range.neg_contains hy (IntTy.contains_decode_int y) hfits
    exact ⟨_, rfl, Range.add_fits hx hneg h ht⟩
  · exact ⟨_, rfl, Range.mul_fits hx hy h ht⟩

end

end Datara.Optimizer
