import Datara.Codegen.NativeArith

/-!
# The native lowering of comparisons, bitwise operators and shifts

Comparisons are emitted signed and, on a type taken for unsigned, emitted again by the signedness
fix-up. Bitwise operators keep canonical slots canonical. Shift counts are masked to the width.
-/

namespace Datara.Codegen

open Datara.Dmir Datara.Optimizer Datara.Library Clif

/-! ## Comparisons -/

variable {T : IntTy}

/-- The mask of the signedness fix-up keeps a slot in canonical form. -/
theorem mask_canonical {v : BitVec 64} (hu : isUnsigned T.repr = true)
    (hc : T.Canonical v) : v &&& operandMask T.repr = v := by
  have hs : T.signed = false := by cases T <;> first | rfl | (exact absurd hu (by decide))
  have hm : (operandMask T.repr).toNat = 2 ^ T.width - 1 := by
    cases T <;> first | rfl | (exact absurd hu (by decide))
  have hlt : v.toNat < 2 ^ T.width := by
    have := hc.2
    simp only [IntTy.decode, IntTy.hi, hs, Bool.false_eq_true, if_false] at this
    zify
    omega
  apply BitVec.eq_of_toNat_eq
  rw [BitVec.toNat_and, hm, Nat.and_two_pow_sub_one_eq_mod, Nat.mod_eq_of_lt hlt]

/-- An operator that tests an order: what it does on the machine, in the type and in the folder is
one relation, and that relation tells `a < b` from `b < a`. -/
structure OrderOp where
  op : IntOp
  rel : Int → Int → Prop
  [dec : ∀ a b, Decidable (rel a b)]
  cc : IntCC
  /-- Whether the relation holds of a smaller and a greater number. -/
  less : Bool
  /-- Whether it holds of a number and itself. -/
  same : Bool
  comparison : isComparisonOp op.spelling = true
  arm : ∀ ctx repr l r, integerArm ctx op.spelling repr l r = .ok (.ok (uextend (icmp cc l r)))
  signed : ∀ l r, icmp cc l r = decide (rel l.toInt r.toInt)
  unsigned : ∀ l r : BitVec 64, icmp (unsignedCC op.spelling) l r = decide (rel l.toNat r.toNat)
  eval : ∀ T x y, IntTy.eval T op x y = .ok (.truth (decide (rel x y)))
  fold : ∀ ty l r, foldIntBinOp op.spelling ty l r = some (.bool (decide (rel l.toInt r.toInt)))
  rel_iff : ∀ a b, rel a b ↔ (if a < b then less else if b < a then !less else same) = true

attribute [instance] OrderOp.dec

def orderLt : OrderOp where
  op := .lt
  rel := (· < ·)
  cc := .signedLessThan
  less := true
  same := false
  comparison := rfl
  arm := fun _ _ _ _ => rfl
  signed := fun _ _ => rfl
  unsigned := fun _ _ => by simp [icmp, unsignedCC, IntOp.spelling]
  eval := fun _ _ _ => rfl
  fold := fun _ _ _ => rfl
  rel_iff := fun a b => by split_ifs <;> simp <;> omega

def orderLe : OrderOp where
  op := .le
  rel := (· ≤ ·)
  cc := .signedLessThanOrEqual
  less := true
  same := true
  comparison := rfl
  arm := fun _ _ _ _ => rfl
  signed := fun _ _ => rfl
  unsigned := fun _ _ => by simp [icmp, unsignedCC, IntOp.spelling]
  eval := fun _ _ _ => rfl
  fold := fun _ _ _ => rfl
  rel_iff := fun a b => by split_ifs <;> simp <;> omega

def orderGt : OrderOp where
  op := .gt
  rel := (· > ·)
  cc := .signedGreaterThan
  less := false
  same := false
  comparison := rfl
  arm := fun _ _ _ _ => rfl
  signed := fun _ _ => rfl
  unsigned := fun _ _ => by simp [icmp, unsignedCC, IntOp.spelling]
  eval := fun _ _ _ => rfl
  fold := fun _ _ _ => rfl
  rel_iff := fun a b => by split_ifs <;> simp <;> omega

def orderGe : OrderOp where
  op := .ge
  rel := (· ≥ ·)
  cc := .signedGreaterThanOrEqual
  less := false
  same := true
  comparison := rfl
  arm := fun _ _ _ _ => rfl
  signed := fun _ _ => rfl
  unsigned := fun _ _ => by simp [icmp, unsignedCC, IntOp.spelling]
  eval := fun _ _ _ => rfl
  fold := fun _ _ _ => rfl
  rel_iff := fun a b => by split_ifs <;> simp <;> omega

/-- A relation of this kind depends on the order of its operands only. -/
theorem OrderOp.rel_congr (o : OrderOp) {a b c d : Int} (h : a < b ↔ c < d) (h' : b < a ↔ d < c) :
    o.rel a b ↔ o.rel c d := by
  rw [o.rel_iff a b, o.rel_iff c d]
  simp [h, h']

/-- Reversing the order of two different numbers changes the answer. -/
theorem OrderOp.rel_reversed (o : OrderOp) {a b c d : Int} (h : a < b ∧ d < c ∨ b < a ∧ c < d) :
    ¬(o.rel a b ↔ o.rel c d) := by
  rw [o.rel_iff a b, o.rel_iff c d]
  rcases h with ⟨h1, h2⟩ | ⟨h1, h2⟩ <;>
    simp only [h1, h2, lt_asymm h1, lt_asymm h2, if_true, if_false] <;> cases o.less <;> simp

theorem decide_slot (b : Bool) (T : IntTy) : IntResult.slot T (.truth b) = uextend b := rfl

variable {l r : BitVec 64}

theorem OrderOp.lowered (o : OrderOp) (ctx : BinopCtx)
    (hl : T.Canonical l) (hr : T.Canonical r) : Lowered ctx T o.op l r := by
  have hk : keepsWidth o.op.spelling = true := by simp [keepsWidth, o.comparison]
  unfold Lowered compileBinop
  rw [o.arm, o.eval]
  simp only [bind, Except.bind, hk, if_true, o.comparison, Bool.and_true, pure, Except.pure,
    Except.map, decide_slot]
  cases hu : isUnsigned T.repr with
  | true =>
    have hs : T.signed = false := by cases T <;> first | rfl | (exact absurd hu (by decide))
    simp [signednessFixup, mask_canonical hu hl, mask_canonical hu hr, o.unsigned, IntTy.decode, hs]
  | false =>
    have hw : wideUnsigned T = false := by
      cases T <;> first | rfl | (exact absurd hu (by decide))
    simp [o.signed, toInt_eq_decode hl hw, toInt_eq_decode hr hw]

theorem OrderOp.folded_iff (o : OrderOp)
    (hl : T.Canonical l) (hr : T.Canonical r) :
    Folded T o.op l r ↔
      (wideUnsigned T = true → (T.decode l < 2 ^ 63 ↔ T.decode r < 2 ^ 63)) := by
  have hf : Folded T o.op l r ↔
      (o.rel (T.decode l) (T.decode r) ↔ o.rel l.toInt r.toInt) := by
    unfold Folded
    rw [o.fold, o.eval]
    simp only [Option.some.injEq, forall_eq', Except.map, decide_slot, FoldedConst.slot,
      Except.ok.injEq, uextend]
    by_cases h : o.rel (T.decode l) (T.decode r) <;> by_cases h' : o.rel l.toInt r.toInt <;>
      simp [h, h']
  rw [hf]
  cases hw : wideUnsigned T with
  | false =>
    rw [toInt_eq_decode hl hw, toInt_eq_decode hr hw]
    exact iff_of_true Iff.rfl (fun h => Bool.noConfusion h)
  | true =>
    obtain ⟨hl0, hl1, hL⟩ := toInt_wideUnsigned hw l
    obtain ⟨hr0, hr1, hR⟩ := toInt_wideUnsigned hw r
    by_cases hx : T.decode l < 2 ^ 63 <;> by_cases hy : T.decode r < 2 ^ 63 <;>
      simp only [hx, hy, if_true, if_false] at hL hR
    · exact iff_of_true (o.rel_congr (by omega) (by omega)) (fun _ => iff_of_true hx hy)
    · exact iff_of_false (o.rel_reversed (by omega)) (fun h => hy ((h rfl).mp hx))
    · exact iff_of_false (o.rel_reversed (by omega)) (fun h => hx ((h rfl).mpr hy))
    · exact iff_of_true (o.rel_congr (by omega) (by omega)) (fun _ => iff_of_false hx hy)

/-- Words of a type are equal exactly when the values are: both equalities are folded right. -/
theorem folded_eq (T : IntTy) (l r : BitVec 64) : Folded T .eq l r := by
  intro c hc
  obtain rfl : FoldedConst.bool (decide (l = r)) = c := Option.some.inj hc
  simp [IntTy.eval, decode_inj, Except.map, IntResult.slot, FoldedConst.slot]

theorem folded_ne (T : IntTy) (l r : BitVec 64) : Folded T .ne l r := by
  intro c hc
  obtain rfl : FoldedConst.bool (decide (l ≠ r)) = c := Option.some.inj hc
  simp [IntTy.eval, decode_inj, Except.map, IntResult.slot, FoldedConst.slot]

theorem slot_eq (ctx : BinopCtx) (hl : T.Canonical l)
    (hr : T.Canonical r) : Lowered ctx T .eq l r ∧ Folded T .eq l r := by
  refine ⟨?_, folded_eq T l r⟩
  unfold Lowered compileBinop
  simp only [IntOp.spelling, integerArm, IntTy.eval, decode_inj, bind, Except.bind, pure,
    Except.pure, Except.map, decide_slot]
  cases hu : isUnsigned T.repr with
  | true =>
    simp [isComparisonOp, signednessFixup, mask_canonical hu hl, mask_canonical hu hr,
      unsignedCC, icmp]
  | false => simp [isComparisonOp, keepsWidth, icmp]

/-- `!=` is folded right on every type. It is lowered to an equality on the types taken for
unsigned. -/
theorem slot_ne (ctx : BinopCtx) (hl : T.Canonical l)
    (hr : T.Canonical r) :
    (Lowered ctx T .ne l r ∧ Folded T .ne l r) ↔ (T.signed = true ∨ T = .byte) := by
  rw [and_iff_left (folded_ne T l r)]
  unfold Lowered compileBinop
  simp only [IntOp.spelling, integerArm, IntTy.eval, ne_eq, decode_inj, bind, Except.bind, pure,
    Except.pure, Except.map, decide_slot]
  cases hu : isUnsigned T.repr with
  | true =>
    refine iff_of_false ?_ ?_
    · simp only [isComparisonOp, signednessFixup, mask_canonical hu hl, mask_canonical hu hr,
        unsignedCC, icmp]
      by_cases h : l = r <;> simp [h, uextend]
    · cases T <;> first | decide | (exact absurd hu (by decide))
  | false =>
    refine iff_of_true ?_ ?_
    · simp [isComparisonOp, keepsWidth, icmp]
    · cases T <;> first | decide | (exact absurd hu (by decide))

/-! ## Bitwise operators -/

/-- A bitwise operation on words commutes with reduction to a width and extension back. -/
structure BitwiseOp where
  op : IntOp
  fn : ∀ {w : Nat}, BitVec w → BitVec w → BitVec w
  truncate : ∀ {w : Nat} (a b : BitVec 64), (fn a b).truncate w = fn (a.truncate w) (b.truncate w)
  signExtend : ∀ {w : Nat} (a b : BitVec w),
    (fn a b).signExtend 64 = fn (a.signExtend 64) (b.signExtend 64)
  zeroExtend : ∀ {w : Nat} (a b : BitVec w),
    (fn a b).zeroExtend 64 = fn (a.zeroExtend 64) (b.zeroExtend 64)
  width : keepsWidth op.spelling = false
  arm : ∀ ctx repr l r, integerArm ctx op.spelling repr l r = .ok (.ok (fn l r))
  eval : ∀ T x y, IntTy.eval T op x y = .ok (.num (T.decode (fn (T.encode x) (T.encode y))))
  fold : ∀ ty l r, foldIntBinOp op.spelling ty l r = some (.int (fn l r))

def bitwiseAnd : BitwiseOp where
  op := .and
  fn := (· &&& ·)
  truncate := fun _ _ => BitVec.setWidth_and
  signExtend := fun _ _ => BitVec.signExtend_and
  zeroExtend := fun _ _ => BitVec.setWidth_and
  width := rfl
  arm := fun _ _ _ _ => rfl
  eval := fun _ _ _ => rfl
  fold := fun _ _ _ => rfl

def bitwiseOr : BitwiseOp where
  op := .or
  fn := (· ||| ·)
  truncate := fun _ _ => BitVec.setWidth_or
  signExtend := fun _ _ => BitVec.signExtend_or
  zeroExtend := fun _ _ => BitVec.setWidth_or
  width := rfl
  arm := fun _ _ _ _ => rfl
  eval := fun _ _ _ => rfl
  fold := fun _ _ _ => rfl

def bitwiseXor : BitwiseOp where
  op := .xor
  fn := (· ^^^ ·)
  truncate := fun _ _ => BitVec.setWidth_xor
  signExtend := fun _ _ => BitVec.signExtend_xor
  zeroExtend := fun _ _ => BitVec.setWidth_xor
  width := rfl
  arm := fun _ _ _ _ => rfl
  eval := fun _ _ _ => rfl
  fold := fun _ _ _ => rfl

theorem BitwiseOp.widthFixup_fn (o : BitwiseOp)
    (hl : T.Canonical l) (hr : T.Canonical r) : widthFixup T.repr (o.fn l r) = o.fn l r := by
  have hcomm : widthFixup T.repr (o.fn l r) =
      o.fn (widthFixup T.repr l) (widthFixup T.repr r) := by
    cases T with
    | int | uint | uint64 => rfl
    | int8 | int16 | int32 | byte | uint8 | uint16 | uint32 =>
      simp [widthFixup, IntTy.repr, reduceSigned, reduceUnsigned, o.truncate, o.signExtend, o.zeroExtend]
  rw [hcomm, widthFixup_canonical hl, widthFixup_canonical hr]

theorem BitwiseOp.slot (o : BitwiseOp) (ctx : BinopCtx)
    (hl : T.Canonical l) (hr : T.Canonical r) : Lowered ctx T o.op l r ∧ Folded T o.op l r := by
  have heval : (T.eval o.op (T.decode l) (T.decode r)).map (·.slot T) = .ok (o.fn l r) := by
    rw [o.eval]
    simp only [Except.map, IntResult.slot, IntTy.encode_decode]
  constructor
  · unfold Lowered
    rw [compileBinop_value o.width (o.arm ctx T.repr l r), heval]
    simp only [Except.map, o.widthFixup_fn hl hr]
  · intro c hc
    rw [o.fold] at hc
    cases hc
    exact heval

/-! ## Shifts -/

theorem masked_count (T : IntTy) (r : BitVec 64) :
    (r &&& shiftMask T.repr).toNat = (T.decode r % T.width).toNat ∧
      (r &&& shiftMask T.repr).toNat < T.width := by
  have hm : (shiftMask T.repr).toNat = T.width - 1 := by cases T <;> rfl
  have hp : ∃ k, k ≤ 6 ∧ T.width = 2 ^ k := by
    cases T with
    | int | uint | uint64 => exact ⟨6, by decide, rfl⟩
    | int32 | uint32 => exact ⟨5, by decide, rfl⟩
    | int16 | uint16 => exact ⟨4, by decide, rfl⟩
    | int8 | byte | uint8 => exact ⟨3, by decide, rfl⟩
  obtain ⟨k, hk6, hk⟩ := hp
  have hnat : (r &&& shiftMask T.repr).toNat = r.toNat % T.width := by
    rw [BitVec.toNat_and, hm, hk, Nat.and_two_pow_sub_one_eq_mod]
  have hdec : T.decode r % (T.width : Int) = ((r.toNat % T.width : Nat) : Int) := by
    have hdvd : (T.width : Int) ∣ 2 ^ 64 := by cases T <;> decide
    unfold IntTy.decode
    split
    · rw [BitVec.toInt_eq_toNat_cond]
      split
      · push_cast; rfl
      · push_cast
        exact Int.emod_eq_emod_iff_emod_sub_eq_zero.mpr
          (Int.emod_eq_zero_of_dvd (by simpa using hdvd))
    · push_cast; rfl
  have hpos : 0 < T.width := by rw [hk]; exact Nat.two_pow_pos k
  rw [hnat, hdec, Int.toNat_natCast]
  exact ⟨rfl, Nat.mod_lt _ hpos⟩

theorem width_le (T : IntTy) : T.width ≤ 64 := by cases T <;> decide

/-- A left shift of a slot is the slot of the multiplied value. -/
theorem ishl_encode {l c : BitVec 64} (hc : c.toNat < 64) : ishl l c = T.encode (T.decode l * 2 ^ c.toNat) := by
  rw [ishl_eq_mul l c hc, IntTy.encode, BitVec.ofInt_mul]
  congr 1
  · exact (IntTy.encode_decode T l).symm
  · apply BitVec.eq_of_toNat_eq
    rw [BitVec.toNat_twoPow_of_lt hc, BitVec.toNat_ofInt]
    have hlt : 2 ^ c.toNat < 2 ^ 64 := Nat.pow_lt_pow_right (by decide) hc
    have hcast : (2 : Int) ^ c.toNat = ((2 ^ c.toNat : Nat) : Int) := by push_cast; rfl
    rw [hcast, Int.emod_eq_of_lt (Int.natCast_nonneg _) (by exact_mod_cast hlt),
      Int.toNat_natCast]

/-- The exact result of a narrow left shift is a 64-bit integer. -/
theorem contains_shl_narrow {x : Int} (hn : T.narrow = true) (hx : T.Contains x)
    {n : Nat} (h : n < T.width) : IntTy.int.Contains (x * 2 ^ n) := by
  have hp : (0 : Int) < 2 ^ n := by positivity
  have hb : -2 ^ 31 ≤ x ∧ x ≤ 2 ^ 32 - 1 := by
    cases T <;> simp_all [IntTy.Contains, IntTy.narrow, IntTy.lo, IntTy.hi, IntTy.signed,
      IntTy.width] <;> omega
  have hn31 : (2 : Int) ^ n ≤ 2 ^ 31 := by
    refine pow_le_pow_right₀ (by norm_num) ?_
    cases T <;> simp_all [IntTy.narrow, IntTy.width] <;> omega
  simp only [IntTy.Contains, int_lo, int_hi]
  constructor <;> nlinarith

theorem shiftInRange_iff {r : BitVec 64} : shiftInRange T.repr r = true ↔ 0 ≤ r.toInt ∧ r.toInt < T.width := by
  have hw : dmReprShiftWidth T.repr = T.width := by cases T <;> rfl
  rw [shiftInRange, hw, Bool.and_eq_true, decide_eq_true_eq, decide_eq_true_eq]

theorem count_of_shiftInRange {r : BitVec 64} (h : shiftInRange T.repr r = true) :
    r.toNat < 64 ∧ (T.decode r % T.width).toNat = r.toNat := by
  obtain ⟨h0, h1⟩ := shiftInRange_iff.mp h
  have hle := width_le T
  have hcond := BitVec.toInt_eq_toNat_cond r
  obtain ⟨hm, -⟩ := masked_count T r
  have hd : T.decode r = r.toNat := by unfold IntTy.decode; split <;> omega
  rw [hd]
  refine ⟨by omega, ?_⟩
  rw [Int.emod_eq_of_lt (by omega) (by omega), Int.toNat_natCast]

theorem folded_shl (T : IntTy) (l r : BitVec 64) : Folded T .shl l r := by
  intro c hc
  rw [IntOp.spelling, foldIntBinOp_arith rfl rfl] at hc
  simp only [foldArith] at hc
  split at hc
  case isFalse => cases hc
  case isTrue h =>
    obtain ⟨h64, hr⟩ := count_of_shiftInRange h
    cases hc
    have hshl : l <<< r.toNat = T.encode (T.decode l * 2 ^ r.toNat) := by
      rw [← ishl_encode h64, ishl, Nat.mod_eq_of_lt h64]
    have heval : (T.eval .shl (T.decode l) (T.decode r)).map (·.slot T) =
      .ok (T.encode (T.wrap (T.decode l * 2 ^ (T.decode r % T.width).toNat))) := rfl
    rw [heval, hr, FoldedConst.slot, hshl, dmWrap_encode]

/-- The lowering of `<<` keeps bits past a narrow type's width; the folder drops them. -/
theorem slot_shl (ctx : BinopCtx) (hl : T.Canonical l) :
    (Lowered ctx T .shl l r ∧ Folded T .shl l r) ↔
      (T.narrow = true → T.Contains (T.decode l * 2 ^ (T.decode r % T.width).toNat)) := by
  obtain ⟨hcount, hlt⟩ := masked_count T r
  have heval : (T.eval .shl (T.decode l) (T.decode r)).map (·.slot T) =
      .ok (T.encode (T.wrap (T.decode l * 2 ^ (T.decode r % T.width).toNat))) := rfl
  have harm : compileBinop ctx "<<" T.repr l r = .ok (.ok (ishl l (r &&& shiftMask T.repr))) := by
    simp [compileBinop, integerArm, keepsWidth, isComparisonOp, bind, Except.bind, pure, Except.pure]
  rw [and_iff_left (folded_shl T l r), Lowered, heval, IntOp.spelling, harm,
    ishl_encode (T := T) (by have := width_le T; omega), hcount, Except.ok.injEq, Except.ok.injEq]
  cases hn : T.narrow with
  | false => simp [encode_wrap_wide hn]
  | true =>
    rw [hcount] at hlt
    have hz := contains_shl_narrow hn hl hlt
    have hw : IntTy.int.Contains (T.wrap (T.decode l * 2 ^ (T.decode r % T.width).toNat)) := by
      have := T.contains_wrap (T.decode l * 2 ^ (T.decode r % T.width).toNat)
      cases T <;> simp_all [IntTy.Contains, IntTy.narrow, IntTy.lo, IntTy.hi, IntTy.signed,
        IntTy.width] <;> omega
    rw [show T.encode = IntTy.int.encode from rfl, encode_inj hz hw]
    simp only [forall_const]
    exact ⟨fun h => h ▸ T.contains_wrap _, fun h => (IntTy.wrap_of_contains h).symm⟩

/-- An arithmetic right shift leaves the word of the signed reading's floor quotient. -/
theorem sshr_eq_ofInt (l : BitVec 64) {c : BitVec 64} (hc : c.toNat < 64) :
    sshr l c = BitVec.ofInt 64 (l.toInt / 2 ^ c.toNat) := by
  rw [← sshr_toInt l hc, BitVec.ofInt_toInt]

/-- A logical right shift leaves that of the unsigned reading's. -/
theorem ushr_eq_ofInt (l : BitVec 64) {c : BitVec 64} (hc : c.toNat < 64) :
    ushr l c = BitVec.ofInt 64 ((l.toNat : Int) / 2 ^ c.toNat) := by
  have hcast : (l.toNat : Int) / 2 ^ c.toNat = ((l.toNat / 2 ^ c.toNat : Nat) : Int) := by
    push_cast; rfl
  rw [hcast, BitVec.ofInt_natCast]
  apply BitVec.eq_of_toNat_eq
  have hlt : l.toNat / 2 ^ c.toNat < 2 ^ 64 :=
    lt_of_le_of_lt (Nat.div_le_self _ _) l.isLt
  rw [ushr, Nat.mod_eq_of_lt hc, BitVec.toNat_ushiftRight, Nat.shiftRight_eq_div_pow,
    BitVec.toNat_ofNat, Nat.mod_eq_of_lt hlt]

theorem shrArm_eq (hl : T.Canonical l) :
    shrArm T.repr l r = T.encode (T.decode l / 2 ^ (T.decode r % T.width).toNat) := by
  obtain ⟨hcount, hlt⟩ := masked_count T r
  have h64 : (r &&& shiftMask T.repr).toNat < 64 := by have := width_le T; omega
  unfold shrArm
  cases hu : isUnsigned T.repr with
  | true =>
    have hs : T.decode l = l.toNat := by cases T <;> first | rfl | (exact absurd hu (by decide))
    simp only [if_true, select, icmp, decide_eq_true_eq]
    split
    case isTrue hneg => rw [ushr_eq_ofInt l h64, hcount, hs]; rfl
    case isFalse hneg =>
      have hcond := BitVec.toInt_eq_toNat_cond l
      have hz : (0 : BitVec 64).toInt = 0 := rfl
      have hnat : l.toInt = l.toNat := by split at hcond <;> omega
      rw [sshr_eq_ofInt l h64, hcount, hs, hnat]; rfl
  | false =>
    have hw : wideUnsigned T = false := by
      cases T <;> first | rfl | (exact absurd hu (by decide))
    simp only [Bool.false_eq_true, if_false]
    rw [sshr_eq_ofInt l h64, hcount, toInt_eq_decode hl hw]; rfl

/-- Dividing `2 ^ 64` below a number moves the quotient by a nonzero amount below `2 ^ 64`. -/
theorem shifted_quotient_ne {x : Int} {k : Nat} (h0 : 0 < k) (h64 : k < 64) :
    ¬(2 ^ 64 : Int) ∣ x / 2 ^ k - (x - 2 ^ 64) / 2 ^ k := by
  have hp : (0 : Int) < 2 ^ k := by positivity
  have hsplit : (2 : Int) ^ 64 = 2 ^ (64 - k) * 2 ^ k := by rw [← pow_add]; congr 1; omega
  have hq : (x - 2 ^ 64) / 2 ^ k = x / 2 ^ k - 2 ^ (64 - k) := by
    rw [hsplit, Int.sub_mul_ediv_right _ _ hp.ne']
  have hlt : (2 : Int) ^ (64 - k) < 2 ^ 64 := pow_lt_pow_right₀ (by norm_num) (by omega)
  have hpos : (0 : Int) < 2 ^ (64 - k) := by positivity
  rw [hq, sub_sub_cancel]
  intro h
  exact absurd (Int.le_of_dvd hpos h) (not_le.mpr hlt)

theorem folded_shr_iff :
    Folded T .shr l r ↔ (shiftInRange T.repr r = true →
      (2 ^ 64 : Int) ∣ T.decode l / 2 ^ r.toNat - l.toInt / 2 ^ r.toNat) := by
  have heval : (T.eval .shr (T.decode l) (T.decode r)).map (·.slot T) =
      .ok (T.encode (T.decode l / 2 ^ (T.decode r % T.width).toNat)) := rfl
  unfold Folded
  rw [IntOp.spelling, foldIntBinOp_arith rfl rfl, heval]
  simp only [foldArith]
  cases h : shiftInRange T.repr r with
  | false => simp
  | true =>
    obtain ⟨h64, hr⟩ := count_of_shiftInRange h
    have hshift : l.sshiftRight r.toNat = BitVec.ofInt 64 (l.toInt / 2 ^ r.toNat) := by
      rw [← sshr_eq_ofInt l h64, sshr, Nat.mod_eq_of_lt h64]
    simp only [if_true, Option.map_some, Option.some.injEq, forall_eq', FoldedConst.slot, hshift,
      Except.ok.injEq, hr, forall_const]
    exact ofInt_eq_ofInt

/-- The lowering of `>>` is always right; the folder shifts a wide unsigned value as a signed
one. -/
theorem slot_shr (ctx : BinopCtx) (hl : T.Canonical l) :
    (Lowered ctx T .shr l r ∧ Folded T .shr l r) ↔
      (wideUnsigned T = true → T.decode l < 2 ^ 63 ∨ T.decode r = 0 ∨ 64 ≤ T.decode r) := by
  have heval : (T.eval .shr (T.decode l) (T.decode r)).map (·.slot T) =
      .ok (T.encode (T.decode l / 2 ^ (T.decode r % T.width).toNat)) := rfl
  have hlow : Lowered ctx T .shr l r := by
    have harm : compileBinop ctx ">>" T.repr l r = .ok (.ok (shrArm T.repr l r)) := by
      simp [compileBinop, integerArm, keepsWidth, isComparisonOp, bind, Except.bind, pure,
        Except.pure]
    rw [Lowered, heval, IntOp.spelling, harm, shrArm_eq hl]
  rw [and_iff_right hlow, folded_shr_iff]
  cases hw : wideUnsigned T with
  | false =>
    rw [toInt_eq_decode hl hw]
    exact iff_of_true (fun _ => by rw [sub_self]; exact dvd_zero _) (fun h => Bool.noConfusion h)
  | true =>
    obtain ⟨hr0, hr1, hr⟩ := toInt_wideUnsigned hw r
    have hnat := decode_wideUnsigned hw r
    have hwidth : T.width = 64 := by cases T <;> first | rfl | (exact absurd hw (by decide))
    simp only [forall_const]
    by_cases hx : T.decode l < 2 ^ 63
    · rw [toInt_small hw l hx]
      exact iff_of_true (fun _ => by rw [sub_self]; exact dvd_zero _) (.inl hx)
    · obtain ⟨a, ha, ha63, hla, hlx⟩ := toInt_wrapped hw l hx
      have hli : l.toInt = T.decode l - 2 ^ 64 := by omega
      rw [shiftInRange_iff, hwidth, hli]
      constructor
      · intro h
        by_contra hc
        have hk0 : 0 < r.toNat := by omega
        have hk64 : r.toNat < 64 := by omega
        refine shifted_quotient_ne hk0 hk64 (h ?_)
        split at hr <;> omega
      · rintro (h | h | h)
        · exact absurd h hx
        · intro _
          have : r.toNat = 0 := by omega
          rw [this]; omega
        · rintro ⟨h1, h2⟩
          split at hr <;> omega

end Datara.Codegen
