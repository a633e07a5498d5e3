import Datara.Dmir.Arith

/-!
# The native lowering of integer operators

`compile_binop` and `compile_unop` of the Cranelift back end, on operands that are integers: the
code emitted for an operator, run on the operands' slots. The arms for strings and floats are taken
only by operands of those types and are not part of this module.

An operator without a lowering is a compile error, which is kept apart from a run-time fault.
-/

/-!
## The Cranelift instructions of the integer lowering

Each definition is one instruction of the back end's IR on 64-bit values, with the meaning its
documentation gives it. A flag is a `Bool`; `uextend` turns it into a slot. Shift counts are taken
modulo the width. An instruction that can fault returns in `Except Trap`.
-/

namespace Datara.Codegen.Clif

open Datara.Dmir

/-- The condition codes of an integer comparison. -/
inductive IntCC
  | equal | notEqual
  | signedLessThan | signedLessThanOrEqual | signedGreaterThan | signedGreaterThanOrEqual
  | unsignedLessThan | unsignedLessThanOrEqual | unsignedGreaterThan
  | unsignedGreaterThanOrEqual
  deriving DecidableEq, Repr

def icmp (cc : IntCC) (a b : BitVec 64) : Bool :=
  match cc with
  | .equal => a = b
  | .notEqual => a ≠ b
  | .signedLessThan => a.toInt < b.toInt
  | .signedLessThanOrEqual => a.toInt ≤ b.toInt
  | .signedGreaterThan => b.toInt < a.toInt
  | .signedGreaterThanOrEqual => b.toInt ≤ a.toInt
  | .unsignedLessThan => a.toNat < b.toNat
  | .unsignedLessThanOrEqual => a.toNat ≤ b.toNat
  | .unsignedGreaterThan => b.toNat < a.toNat
  | .unsignedGreaterThanOrEqual => b.toNat ≤ a.toNat

/-- A flag as a slot. -/
def uextend (c : Bool) : BitVec 64 := if c then 1 else 0

def select (c : Bool) (a b : BitVec 64) : BitVec 64 := if c then a else b

/-- Fault when the flag is set. -/
def trapnz (c : Bool) (code : Trap) : Except Trap Unit := if c then .error code else .ok ()

def saddOverflow (a b : BitVec 64) : BitVec 64 × Bool := (a + b, a.saddOverflow b)
def ssubOverflow (a b : BitVec 64) : BitVec 64 × Bool := (a - b, a.ssubOverflow b)
def smulOverflow (a b : BitVec 64) : BitVec 64 × Bool := (a * b, a.smulOverflow b)

def ishl (a c : BitVec 64) : BitVec 64 := a <<< (c.toNat % 64)
def sshr (a c : BitVec 64) : BitVec 64 := a.sshiftRight (c.toNat % 64)
def ushr (a c : BitVec 64) : BitVec 64 := a >>> (c.toNat % 64)

/-- Truncating signed division. Faults on a zero divisor and on the one quotient out of range. -/
def sdiv (a b : BitVec 64) : Except Trap (BitVec 64) :=
  if b = 0 then .error .divisionByZero
  else if a = BitVec.intMin 64 ∧ b = -1 then .error .overflow
  else .ok (a.sdiv b)

/-- Truncating signed remainder. Faults on a zero divisor only. -/
def srem (a b : BitVec 64) : Except Trap (BitVec 64) :=
  if b = 0 then .error .divisionByZero else .ok (a.srem b)

/-- `ireduce` to `w` bits and `sextend` back. -/
def reduceSigned (w : Nat) (v : BitVec 64) : BitVec 64 := (v.truncate w).signExtend 64

/-- `ireduce` to `w` bits and `uextend` back. -/
def reduceUnsigned (w : Nat) (v : BitVec 64) : BitVec 64 := (v.truncate w).zeroExtend 64

end Datara.Codegen.Clif

namespace Datara.Codegen

open Datara.Dmir Clif

/-- What the code generator knows of the two operands and of the result when it emits an operator:
the entries of `const_int_map`, and membership of the result in `proven_no_overflow`. -/
structure BinopCtx where
  constLeft : Option (BitVec 64) := none
  constRight : Option (BitVec 64) := none
  provenSafe : Bool := false
  deriving DecidableEq, Repr

/-- The types `compile_binop` takes for unsigned. -/
def isUnsigned (repr : String) : Bool :=
  repr ∈ ["UInt32", "UInt16", "UInt8", "UInt", "UInt64", "u64", "usize"]

/-- The checked form of `+ - *`: the overflow gate is dropped for a result proven safe. -/
def checkedArm (provenSafe : Bool) (r : BitVec 64 × Bool) : Except Trap (BitVec 64) :=
  if provenSafe then .ok r.1
  else do
    trapnz r.2 .overflow
    return r.1

/-- `c` is positive and a power of two: `c > 0 && (c & (c - 1)) == 0`. -/
def isPowerOfTwo (c : BitVec 64) : Bool := 0 < c.toInt && (c &&& (c - 1)) = 0

/-- `c.trailing_zeros()`. -/
def trailingZeros (c : BitVec 64) : BitVec 64 := BitVec.ofNat 64 c.ctz.toNat

/-- The multiplication by a known constant `c`. -/
def constMultArm (c varVal lv rv : BitVec 64) : BitVec 64 :=
  if c = 0 then 0
  else if c = 1 then varVal
  else if c = 2 then ishl varVal 1
  else if c = 3 then ishl varVal 1 + varVal
  else if c = 4 then ishl varVal 2
  else if c = 5 then ishl varVal 2 + varVal
  else if c = 8 then ishl varVal 3
  else if c = 9 then ishl varVal 3 + varVal
  else if isPowerOfTwo c then ishl varVal (trailingZeros c)
  else lv * rv

/-- The `wrapping_*` arm. The right operand is looked up first. -/
def wrappingMulArm (ctx : BinopCtx) (lv rv : BitVec 64) : BitVec 64 :=
  let varVal := if ctx.constRight.isSome then lv else rv
  match ctx.constRight.or ctx.constLeft with
  | some c => constMultArm c varVal lv rv
  | none => lv * rv

/-- The `saturating_` arms: on overflow, the bound on the side `positive` tells. -/
def saturatingArm (r : BitVec 64 × Bool) (positive : Bool) : BitVec 64 :=
  select r.2 (select positive (BitVec.intMax 64) (BitVec.intMin 64)) r.1

/-- The two gates in front of a division or a remainder. -/
def divisionGates (lv rv : BitVec 64) : Except Trap Unit := do
  trapnz (icmp .equal rv 0) .divisionByZero
  let isMin := icmp .equal lv (BitVec.intMin 64)
  let isNegOne := icmp .equal rv (-1)
  trapnz (isMin && isNegOne) .overflow

/-- The divisors a division shortcut is taken for: `c > 1`, a power of two, at most `1 << 62`. -/
def isShiftDivisor (c : BitVec 64) : Bool :=
  1 < c.toInt && (c &&& (c - 1)) = 0 && c.toInt ≤ 2 ^ 62

/-- Signed truncating division by the power of two `c`. -/
def shiftQuotient (c lv : BitVec 64) : BitVec 64 :=
  let k := trailingZeros c
  let sign := sshr lv 63
  let bias := ushr sign (64 - k)
  sshr (lv + bias) k

/-- The `/` arm. -/
def divArm (ctx : BinopCtx) (lv rv : BitVec 64) : Except Trap (BitVec 64) := do
  divisionGates lv rv
  match ctx.constRight with
  | some c => if isShiftDivisor c then return shiftQuotient c lv else sdiv lv rv
  | none => sdiv lv rv

/-- The `%` arm. -/
def remArm (ctx : BinopCtx) (lv rv : BitVec 64) : Except Trap (BitVec 64) := do
  divisionGates lv rv
  match ctx.constRight with
  | some c =>
    if isShiftDivisor c then return lv - ishl (shiftQuotient c lv) (trailingZeros c)
    else srem lv rv
  | none => srem lv rv

/-- The mask on a shift count. -/
def shiftMask (repr : String) : BitVec 64 :=
  match repr with
  | "Int8" | "i8" | "UInt8" | "Byte" | "u8" => 7
  | "Int16" | "i16" | "UInt16" | "u16" => 15
  | "Int32" | "i32" | "UInt32" | "u32" => 31
  | _ => 63

/-- The `>>` arm. -/
def shrArm (repr : String) (lv rv : BitVec 64) : BitVec 64 :=
  let count := rv &&& shiftMask repr
  if isUnsigned repr then
    select (icmp .signedLessThan lv 0) (ushr lv count) (sshr lv count)
  else sshr lv count

/-- The value an operator's own arm leaves, before the fix-ups. -/
def integerArm (ctx : BinopCtx) (op repr : String) (lv rv : BitVec 64) :
    Except String (Except Trap (BitVec 64)) :=
  match op with
  | "+" => .ok (checkedArm ctx.provenSafe (saddOverflow lv rv))
  | "-" => .ok (checkedArm ctx.provenSafe (ssubOverflow lv rv))
  | "*" => .ok (checkedArm ctx.provenSafe (smulOverflow lv rv))
  | "wrapping_+" => .ok (.ok (lv + rv))
  | "wrapping_-" => .ok (.ok (lv - rv))
  | "wrapping_*" => .ok (.ok (wrappingMulArm ctx lv rv))
  | "saturating_+" =>
    .ok (.ok (saturatingArm (saddOverflow lv rv) (icmp .signedGreaterThanOrEqual lv 0)))
  | "saturating_-" =>
    .ok (.ok (saturatingArm (ssubOverflow lv rv) (icmp .signedGreaterThanOrEqual lv 0)))
  | "saturating_*" =>
    .ok (.ok (saturatingArm (smulOverflow lv rv) (icmp .signedGreaterThanOrEqual (lv ^^^ rv) 0)))
  | "/" => .ok (divArm ctx lv rv)
  | "%" => .ok (remArm ctx lv rv)
  | "<" => .ok (.ok (uextend (icmp .signedLessThan lv rv)))
  | "<=" => .ok (.ok (uextend (icmp .signedLessThanOrEqual lv rv)))
  | ">" => .ok (.ok (uextend (icmp .signedGreaterThan lv rv)))
  | ">=" => .ok (.ok (uextend (icmp .signedGreaterThanOrEqual lv rv)))
  | "==" => .ok (.ok (uextend (icmp .equal lv rv)))
  | "!=" => .ok (.ok (uextend (icmp .notEqual lv rv)))
  | "&" | "&&" => .ok (.ok (lv &&& rv))
  | "|" | "||" => .ok (.ok (lv ||| rv))
  | "^" => .ok (.ok (lv ^^^ rv))
  | "<<" => .ok (.ok (ishl lv (rv &&& shiftMask repr)))
  | ">>" => .ok (.ok (shrArm repr lv rv))
  | other =>
    .error ("No Cranelift lowering for integer operator '" ++ other ++
      "'. Refusing to fall back to 'iadd' and silently compute the wrong result.")

/-- The comparison operators. -/
def isComparisonOp (op : String) : Bool := op ∈ ["<", "<=", ">", ">=", "==", "!="]

/-- The operators whose result is not reduced to the operand width. -/
def keepsWidth (op : String) : Bool := isComparisonOp op || op ∈ ["&&", "||", "<<", ">>"]

/-- The width fix-up. -/
def widthFixup (repr : String) (res : BitVec 64) : BitVec 64 :=
  match repr with
  | "Int8" | "i8" => reduceSigned 8 res
  | "Int16" | "i16" => reduceSigned 16 res
  | "Int32" | "i32" => reduceSigned 32 res
  | "UInt8" | "Byte" | "u8" => reduceUnsigned 8 res
  | "UInt16" | "u16" => reduceUnsigned 16 res
  | "UInt32" | "u32" => reduceUnsigned 32 res
  | _ => res

/-- The condition code of the signedness fix-up. Every operator it does not name compares for
equality, and `!=` is not named. -/
def unsignedCC (op : String) : IntCC :=
  match op with
  | "<" => .unsignedLessThan
  | "<=" => .unsignedLessThanOrEqual
  | ">" => .unsignedGreaterThan
  | ">=" => .unsignedGreaterThanOrEqual
  | _ => .equal

/-- The mask of the signedness fix-up. -/
def operandMask (repr : String) : BitVec 64 :=
  match repr with
  | "UInt8" | "Byte" | "u8" => 0xFF
  | "UInt16" | "u16" => 0xFFFF
  | "UInt32" | "u32" => 0xFFFFFFFF
  | _ => -1

/-- The signedness fix-up: an unsigned comparison is emitted again. -/
def signednessFixup (op repr : String) (lv rv : BitVec 64) : BitVec 64 :=
  uextend (icmp (unsignedCC op) (lv &&& operandMask repr) (rv &&& operandMask repr))

/-- **`compile_binop`** on integer operands. -/
def compileBinop (ctx : BinopCtx) (op repr : String) (lv rv : BitVec 64) :
    Except String (Except Trap (BitVec 64)) := do
  let res ← integerArm ctx op repr lv rv
  let res := if keepsWidth op then res else res.map (widthFixup repr)
  if isUnsigned repr && isComparisonOp op then
    -- the generic comparison stays behind as dead code; it cannot fault
    return .ok (signednessFixup op repr lv rv)
  return res

/-- **`compile_unop`** on an operand that is not a float. `operandIsBool` is membership of the
operand in `bool_vids`. -/
def compileUnop (operandIsBool : Bool) (op : String) (v : BitVec 64) : BitVec 64 :=
  if op = "-" then -v
  else if op = "!" then
    if operandIsBool then uextend (icmp .equal v 0) else ~~~v
  else v

end Datara.Codegen
