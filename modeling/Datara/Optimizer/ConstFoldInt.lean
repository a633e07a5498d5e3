import Datara.Dmir.Arith

/-!
# Folding an integer operator

The integer arms of `constant_fold`: what the folder computes for a `BinOp` or a `UnOp` whose
operands are known 64-bit constants. `none` leaves the instruction as it is.
-/

namespace Datara.Optimizer

open Datara.Dmir

/-- The constant a fold leaves behind. -/
inductive FoldedConst
  | int (v : BitVec 64)
  | bool (b : Bool)
  deriving DecidableEq, Repr

/-- The slot of a folded constant. -/
def FoldedConst.slot : FoldedConst → BitVec 64
  | .int v => v
  | .bool b => if b then 1 else 0

/-- `i64::saturating_*` of an operation whose exact result is `z`. -/
def saturatingI64 (z : Int) : BitVec 64 := BitVec.ofInt 64 (IntTy.int.clamp z)

/-- `v.clamp(lo, hi)` on `i64`. -/
def clampI64 (lo hi : Int) (v : BitVec 64) : BitVec 64 :=
  BitVec.ofInt 64 (max lo (min hi v.toInt))

/-- `r` is a shift count of the type: `*r_val >= 0 && *r_val < shift_w`. -/
def shiftInRange (ty : String) (r : BitVec 64) : Bool :=
  0 ≤ r.toInt && r.toInt < dmReprShiftWidth ty

/-- The first match: the value an arithmetic operator folds to, before saturation is narrowed. -/
def foldArith (op ty : String) (l r : BitVec 64) : Option (BitVec 64) :=
  let narrow := dmReprIsNarrowInt ty
  let divides := r ≠ 0 && !(l = BitVec.intMin 64 && r = -1)
  match op with
  | "+" =>
    if narrow then some (dmWrapI64ToRepr ty (l + r))
    else if l.saddOverflow r then none else some (l + r)
  | "-" =>
    if narrow then some (dmWrapI64ToRepr ty (l - r))
    else if l.ssubOverflow r then none else some (l - r)
  | "*" =>
    if narrow then some (dmWrapI64ToRepr ty (l * r))
    else if l.smulOverflow r then none else some (l * r)
  | "wrapping_+" => some (dmWrapI64ToRepr ty (l + r))
  | "wrapping_-" => some (dmWrapI64ToRepr ty (l - r))
  | "wrapping_*" => some (dmWrapI64ToRepr ty (l * r))
  | "saturating_+" => some (saturatingI64 (l.toInt + r.toInt))
  | "saturating_-" => some (saturatingI64 (l.toInt - r.toInt))
  | "saturating_*" => some (saturatingI64 (l.toInt * r.toInt))
  | "&" => some (l &&& r)
  | "|" => some (l ||| r)
  | "^" => some (l ^^^ r)
  | "<<" => if shiftInRange ty r then some (dmWrapI64ToRepr ty (l <<< r.toNat)) else none
  | ">>" => if shiftInRange ty r then some (l.sshiftRight r.toNat) else none
  | "/" => if divides then some (dmWrapI64ToRepr ty (l.sdiv r)) else none
  | "%" => if divides then some (dmWrapI64ToRepr ty (l.srem r)) else none
  | _ => none

/-- Saturating operators clamp to the width's bounds: `op.starts_with("saturating_")`. -/
def isSaturating (op : String) : Bool := "saturating_".toList.isPrefixOf op.toList

/-- The second match: comparisons, on `i64`. -/
def foldCompare (op : String) (l r : BitVec 64) : Option Bool :=
  match op with
  | "<" => some (l.toInt < r.toInt)
  | "<=" => some (l.toInt ≤ r.toInt)
  | ">" => some (r.toInt < l.toInt)
  | ">=" => some (r.toInt ≤ l.toInt)
  | "==" => some (l = r)
  | "!=" => some (l ≠ r)
  | _ => none

/-- **The fold of a `BinOp`** whose operands are the integer constants `l` and `r`. -/
def foldIntBinOp (op ty : String) (l r : BitVec 64) : Option FoldedConst :=
  let folded := foldArith op ty l r
  let folded :=
    match isSaturating op, dmReprSatBounds ty with
    | true, some (lo, hi) => folded.map (clampI64 lo hi)
    | _, _ => folded
  match folded with
  | some v => some (.int v)
  | none => (foldCompare op l r).map .bool

/-- The fold of a `UnOp` whose operand is the integer constant `v`. -/
def foldIntUnOp (op : String) (v : BitVec 64) : Option (BitVec 64) :=
  if op = "copy" then some v
  else if op = "-" then some (-v)
  else none

end Datara.Optimizer
