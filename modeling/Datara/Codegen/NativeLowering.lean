import Datara.Codegen.NativeDivision
import Datara.Codegen.NativeBits

/-!
# The native lowering against the typed semantics

For every operator and every integer type: what `compile_binop` and `compile_unop` leave in the
result's slot, compared with the typed result and with the constant `constant_fold` computes.
`BinopExact` and `UnopExact` are the operands on which all three agree, and `nativeLowering_exact`
says that they agree nowhere else.
-/

namespace Datara.Codegen

open Datara.Dmir Datara.Optimizer Datara.Library Clif

/-! ## The whole table -/

/-- **The operands on which an operator's lowering and its fold are right.** -/
def BinopExact (T : IntTy) (op : IntOp) (l r : BitVec 64) : Prop :=
  let x := T.decode l
  let y := T.decode r
  match op with
  | .add => OverflowAgrees T (x + y) (l.toInt + r.toInt)
  | .sub => OverflowAgrees T (x - y) (l.toInt - r.toInt)
  | .mul => OverflowAgrees T (x * y) (l.toInt * r.toInt)
  | .wrappingAdd | .wrappingSub | .wrappingMul => True
  | .saturatingAdd => SaturationAgrees T (x + y) (l.toInt + r.toInt)
  | .saturatingSub => SaturationAgrees T (x - y) (l.toInt - r.toInt)
  | .saturatingMul => SaturationAgrees T (x * y) (l.toInt * r.toInt)
  | .div => DivAgrees T x y
  | .rem => RemAgrees T x y
  | .lt | .le | .gt | .ge => wideUnsigned T = true → (x < 2 ^ 63 ↔ y < 2 ^ 63)
  | .eq => True
  | .ne => T.signed = true ∨ T = .byte
  | .and | .or | .xor => True
  | .shl => T.narrow = true → T.Contains (x * 2 ^ (y % T.width).toNat)
  | .shr => wideUnsigned T = true → x < 2 ^ 63 ∨ y = 0 ∨ 64 ≤ y

/-- The exact signed result of a checked operator does not overflow. -/
def NoSignedOverflow (op : IntOp) (l r : BitVec 64) : Prop :=
  match op with
  | .add => IntTy.int.Contains (l.toInt + r.toInt)
  | .sub => IntTy.int.Contains (l.toInt - r.toInt)
  | .mul => IntTy.int.Contains (l.toInt * r.toInt)
  | _ => True

/-- The code generator's knowledge is right: the known constants are the operands' values, and a
result in `proven_no_overflow` does not overflow. -/
structure BinopCtx.Sound (ctx : BinopCtx) (op : IntOp) (l r : BitVec 64) : Prop extends
    ctx.Known l r where
  safe : ctx.provenSafe = true → NoSignedOverflow op l r

/-- **A binary operator** is lowered and folded right on exactly the operands of `BinopExact`. -/
theorem binop_exact_iff {ctx : BinopCtx} {T : IntTy} {op : IntOp} {l r : BitVec 64}
    (hl : T.Canonical l) (hr : T.Canonical r) (hs : ctx.Sound op l r) :
    (Lowered ctx T op l r ∧ Folded T op l r) ↔ BinopExact T op l r := by
  cases op with
  | add => exact ringAdd.slot_checked hl hr hs.safe
  | sub => exact ringSub.slot_checked hl hr hs.safe
  | mul => exact ringMul.slot_checked hl hr hs.safe
  | wrappingAdd => exact iff_true_intro (ringAdd.slot_wrapping hl hr hs.toKnown)
  | wrappingSub => exact iff_true_intro (ringSub.slot_wrapping hl hr hs.toKnown)
  | wrappingMul => exact iff_true_intro (ringMul.slot_wrapping hl hr hs.toKnown)
  | saturatingAdd => exact ringAdd.slot_saturating ctx hl hr
  | saturatingSub => exact ringSub.slot_saturating ctx hl hr
  | saturatingMul => exact ringMul.slot_saturating ctx hl hr
  | div => exact slot_div hl hr hs.toKnown
  | rem => exact slot_rem hl hr hs.toKnown
  | lt => exact (and_iff_right (orderLt.lowered ctx hl hr)).trans (orderLt.folded_iff hl hr)
  | le => exact (and_iff_right (orderLe.lowered ctx hl hr)).trans (orderLe.folded_iff hl hr)
  | gt => exact (and_iff_right (orderGt.lowered ctx hl hr)).trans (orderGt.folded_iff hl hr)
  | ge => exact (and_iff_right (orderGe.lowered ctx hl hr)).trans (orderGe.folded_iff hl hr)
  | eq => exact iff_true_intro (slot_eq ctx hl hr)
  | ne => exact slot_ne ctx hl hr
  | and => exact iff_true_intro (bitwiseAnd.slot ctx hl hr)
  | or => exact iff_true_intro (bitwiseOr.slot ctx hl hr)
  | xor => exact iff_true_intro (bitwiseXor.slot ctx hl hr)
  | shl => exact slot_shl ctx hl
  | shr => exact slot_shr ctx hl

/-! ## Unary operators -/

/-- The unary operators on integers. The checker gives `!` a truth value whatever its operand. -/
inductive IntUnOp
  | neg | not | copy
  deriving DecidableEq, Repr

def IntUnOp.spelling : IntUnOp → String
  | neg => "-" | not => "!" | copy => "copy"

/-- What a unary operator computes on a value of a type. -/
def IntUnOp.eval (T : IntTy) (op : IntUnOp) (x : Int) : IntResult :=
  match op with
  | neg => .num (T.neg x)
  | not => .truth (x = 0)
  | copy => .num x

/-- The lowering leaves the slot of the typed result, and so does a fold. -/
def UnopRight (T : IntTy) (op : IntUnOp) (v : BitVec 64) : Prop :=
  compileUnop false op.spelling v = (op.eval T (T.decode v)).slot T ∧
    ∀ c, foldIntUnOp op.spelling v = some c → c = (op.eval T (T.decode v)).slot T

/-- **The operands on which a unary operator is lowered and folded right.** A negation is not
reduced to a narrow type's width. An integer is complemented by `!`, which is a truth value only
for the slot of all ones. -/
def UnopExact (T : IntTy) (op : IntUnOp) (v : BitVec 64) : Prop :=
  match op with
  | .neg => T.narrow = true → T.Contains (-T.decode v)
  | .not => v = -1
  | .copy => True

theorem neg_encode (T : IntTy) (v : BitVec 64) : -v = T.encode (-T.decode v) := by
  rw [IntTy.encode, BitVec.ofInt_neg]
  exact congrArg _ (IntTy.encode_decode T v).symm

theorem unop_exact_iff {T : IntTy} {op : IntUnOp} {v : BitVec 64} (hv : T.Canonical v) :
    UnopRight T op v ↔ UnopExact T op v := by
  cases op with
  | neg =>
    have hiff : -v = T.encode (T.wrap (-T.decode v)) ↔ UnopExact T .neg v := by
      rw [neg_encode T]
      cases hn : T.narrow with
      | false => simp [encode_wrap_wide hn, UnopExact, hn]
      | true =>
        obtain ⟨h1, h2, -⟩ := narrow_range hn hv
        have hw : IntTy.int.Contains (T.wrap (-T.decode v)) := by
          have := T.contains_wrap (-T.decode v)
          cases T <;> simp_all [IntTy.Contains, IntTy.narrow, IntTy.lo, IntTy.hi, IntTy.signed,
            IntTy.width] <;> omega
        have hz : IntTy.int.Contains (-T.decode v) := by
          rw [IntTy.Contains, int_lo, int_hi]; omega
        rw [show T.encode = IntTy.int.encode from rfl, encode_inj hz hw]
        simp only [UnopExact, hn, forall_const]
        exact ⟨fun h => h ▸ T.contains_wrap _, fun h => (IntTy.wrap_of_contains h).symm⟩
    rw [← hiff]
    constructor
    · exact fun h => h.1
    · intro h
      refine ⟨h, fun c hc => ?_⟩
      cases hc
      exact h
  | not =>
    have hfold : ∀ c, foldIntUnOp "!" v ≠ some c := fun c h => by cases h
    have hslot : (IntUnOp.not.eval T (T.decode v)).slot T = if v = 0 then 1 else 0 := by
      simp [IntUnOp.eval, IntResult.slot, decode_eq_zero]
    have hcompile : compileUnop false "!" v = ~~~v := rfl
    rw [UnopRight, UnopExact, hslot, IntUnOp.spelling, hcompile,
      and_iff_left (fun c hc => absurd hc (hfold c))]
    constructor
    · intro h
      split at h
      case isTrue hv => subst hv; exact absurd h (by decide)
      case isFalse hv => rw [← BitVec.not_not (b := v), h]; rfl
    · rintro rfl
      rfl
  | copy =>
    have hslot : (IntUnOp.copy.eval T (T.decode v)).slot T = v := IntTy.encode_decode T v
    refine iff_true_intro ⟨hslot.symm, fun c hc => ?_⟩
    cases hc
    exact hslot.symm

/-! ## The lowering as a whole -/

/-- **Lowering, typed semantics and folder agree on exactly the operands of `BinopExact` and
`UnopExact`**, for every operator, every type and all canonical operands, whatever the code generator
knows of them. -/
theorem nativeLowering_exact (ctx : BinopCtx) (T : IntTy) (op : IntOp) (unop : IntUnOp)
    (l r : BitVec 64) (hl : T.Canonical l) (hr : T.Canonical r) (hs : ctx.Sound op l r) :
    ((Lowered ctx T op l r ∧ Folded T op l r) ↔ BinopExact T op l r) ∧
      (UnopRight T unop l ↔ UnopExact T unop l) :=
  ⟨binop_exact_iff hl hr hs, unop_exact_iff hl⟩

/-- `20 + 100` on `Int8`, with the right operand a known constant, and `-20`. -/
theorem nativeLowering_exact_int8 :
    (Lowered { constRight := some 100 } .int8 .add 20 100 ∧ Folded .int8 .add 20 100) ∧
      UnopRight .int8 .neg 20 := by
  have hexact := nativeLowering_exact { constRight := some 100 } .int8 .add .neg 20 100 (by decide)
    (by decide) ⟨⟨fun _ => nofun, fun _ h => (Option.some.inj h).symm⟩, nofun⟩
  exact ⟨hexact.1.mpr (by show OverflowAgrees _ _ _; decide), hexact.2.mpr (by intro _; decide)⟩

/-- The lowering does not implement the typed semantics: `3 != 3` on `UInt8` leaves `1`. -/
theorem nativeLowering_not_exact :
    ¬∀ (ctx : BinopCtx) (T : IntTy) (op : IntOp) (l r : BitVec 64), T.Canonical l →
      T.Canonical r → ctx.Sound op l r → Lowered ctx T op l r ∧ Folded T op l r := by
  intro h
  have hne := (h {} .uint8 .ne 3 3 (by decide) (by decide)
    ⟨⟨fun _ => nofun, fun _ => nofun⟩, nofun⟩).1
  exact absurd hne (by rw [Lowered]; decide)

end Datara.Codegen
