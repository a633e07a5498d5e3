import Datara.Dmir.Ir

/-!
# Integer arithmetic of the language

What an integer operator of the language does, over the mathematical integers, for each integer
type: checked `+ - *` on the 64-bit types, wrapping at its own width on the narrow ones, explicit
wrapping and saturating forms, truncating division, shifts whose count is reduced to the width.
A value of a type lives in a 64-bit slot, sign-extended when the type is signed and zero-extended
when it is not (`IntTy.encode`); that is the canonical form.

Nothing here is read off a pass or a back end: both are compared with this module.
-/

namespace Datara.Dmir

/-- Why an execution stops with a fault. -/
inductive Trap
  | overflow
  | divisionByZero
  | nullReference
  | unreachable
  | unsupported
  | foreign (code : Nat)
  deriving DecidableEq, Repr

/-- The integer types. `byte` and `uint8` differ in name only, as do `uint` and `uint64`. -/
inductive IntTy
  | int | int8 | int16 | int32
  | uint | byte | uint8 | uint16 | uint32 | uint64
  deriving DecidableEq, Repr

namespace IntTy

/-- The type's name, as an instruction's `ty` carries it. -/
def repr : IntTy → String
  | int => "Int" | int8 => "Int8" | int16 => "Int16" | int32 => "Int32"
  | uint => "UInt" | byte => "Byte" | uint8 => "UInt8" | uint16 => "UInt16"
  | uint32 => "UInt32" | uint64 => "UInt64"

/-- The integer type an instruction's `ty` names. Every other name rides in a signed 64-bit slot. -/
def ofRepr : String → IntTy
  | "Int8" | "i8" => int8
  | "Int16" | "i16" => int16
  | "Int32" | "i32" => int32
  | "UInt8" => uint8
  | "Byte" | "u8" => byte
  | "UInt16" | "u16" => uint16
  | "UInt32" | "u32" => uint32
  | "UInt" | "usize" => uint
  | "UInt64" | "u64" => uint64
  | _ => int

theorem ofRepr_repr (T : IntTy) : ofRepr T.repr = T := by cases T <;> rfl

/-- Bits of a value of the type. -/
def width : IntTy → Nat
  | int | uint | uint64 => 64
  | int32 | uint32 => 32
  | int16 | uint16 => 16
  | int8 | byte | uint8 => 8

def signed : IntTy → Bool
  | int | int8 | int16 | int32 => true
  | _ => false

/-- Narrower than the slot. -/
def narrow (T : IntTy) : Bool := T.width < 64

/-- Least value. -/
def lo (T : IntTy) : Int := if T.signed then -2 ^ (T.width - 1) else 0

/-- Greatest value. -/
def hi (T : IntTy) : Int := if T.signed then 2 ^ (T.width - 1) - 1 else 2 ^ T.width - 1

/-- `z` is a value of the type. -/
def Contains (T : IntTy) (z : Int) : Prop := T.lo ≤ z ∧ z ≤ T.hi

instance (T : IntTy) (z : Int) : Decidable (T.Contains z) :=
  inferInstanceAs (Decidable (T.lo ≤ z ∧ z ≤ T.hi))

/-- Reduction modulo `2 ^ width`, to a value of the type. -/
def wrap (T : IntTy) (z : Int) : Int :=
  if T.signed then (z + 2 ^ (T.width - 1)) % 2 ^ T.width - 2 ^ (T.width - 1) else z % 2 ^ T.width

/-- The nearest value of the type. -/
def clamp (T : IntTy) (z : Int) : Int := max T.lo (min T.hi z)

/-- The slot of a value. -/
def encode (_ : IntTy) (z : Int) : BitVec 64 := BitVec.ofInt 64 z

/-- The integer a slot stands for. -/
def decode (T : IntTy) (v : BitVec 64) : Int := if T.signed then v.toInt else v.toNat

/-- A slot in canonical form: it encodes a value of the type. -/
def Canonical (T : IntTy) (v : BitVec 64) : Prop := T.Contains (T.decode v)

instance (T : IntTy) (v : BitVec 64) : Decidable (T.Canonical v) :=
  inferInstanceAs (Decidable (T.Contains (T.decode v)))

/-- A default arithmetic result: reduced on a narrow type, checked on a 64-bit one. -/
def checked (T : IntTy) (z : Int) : Except Trap Int :=
  if T.narrow then .ok (T.wrap z) else if T.Contains z then .ok z else .error .overflow

end IntTy

/-- The integer operators. -/
inductive IntOp
  | add | sub | mul
  | wrappingAdd | wrappingSub | wrappingMul
  | saturatingAdd | saturatingSub | saturatingMul
  | div | rem
  | lt | le | gt | ge | eq | ne
  | and | or | xor | shl | shr
  deriving DecidableEq, Repr

namespace IntOp

/-- The operator's spelling in a `BinOp`. -/
def spelling : IntOp → String
  | add => "+" | sub => "-" | mul => "*"
  | wrappingAdd => "wrapping_+" | wrappingSub => "wrapping_-" | wrappingMul => "wrapping_*"
  | saturatingAdd => "saturating_+" | saturatingSub => "saturating_-"
  | saturatingMul => "saturating_*"
  | div => "/" | rem => "%"
  | lt => "<" | le => "<=" | gt => ">" | ge => ">=" | eq => "==" | ne => "!="
  | and => "&" | or => "|" | xor => "^" | shl => "<<" | shr => ">>"

def ofSpelling : String → Option IntOp
  | "+" => some add | "-" => some sub | "*" => some mul
  | "wrapping_+" => some wrappingAdd | "wrapping_-" => some wrappingSub
  | "wrapping_*" => some wrappingMul
  | "saturating_+" => some saturatingAdd | "saturating_-" => some saturatingSub
  | "saturating_*" => some saturatingMul
  | "/" => some div | "%" => some rem
  | "<" => some lt | "<=" => some le | ">" => some gt | ">=" => some ge
  | "==" => some eq | "!=" => some ne
  | "&" => some and | "|" => some or | "^" => some xor | "<<" => some shl | ">>" => some shr
  | _ => none

theorem ofSpelling_spelling (o : IntOp) : ofSpelling o.spelling = some o := by cases o <;> rfl

theorem eq_spelling_of_ofSpelling {s : String} {o : IntOp} (h : ofSpelling s = some o) : s = o.spelling := by
  unfold ofSpelling at h
  split at h <;> cases h <;> rfl

/-- The result is a truth value. -/
def isComparison : IntOp → Bool
  | lt | le | gt | ge | eq | ne => true
  | _ => false

end IntOp

/-- The result of an integer operator: a number of the operand type, or a truth value. -/
inductive IntResult
  | num (z : Int)
  | truth (b : Bool)
  deriving DecidableEq, Repr

/-- The slot a result is held in. A truth value is `0` or `1`. -/
def IntResult.slot (T : IntTy) : IntResult → BitVec 64
  | .num z => T.encode z
  | .truth b => if b then 1 else 0

/-- The quotient's remainder, with the one case the 64-bit machine faults on. -/
def IntTy.remainder (T : IntTy) (x y : Int) : Except Trap Int :=
  if y = 0 then .error .divisionByZero
  else if T = .int ∧ x = T.lo ∧ y = -1 then .error .overflow
  else .ok (x.tmod y)

/-- **What an operator computes** on two values of a type. -/
def IntTy.eval (T : IntTy) (op : IntOp) (x y : Int) : Except Trap IntResult :=
  match op with
  | .add => .num <$> T.checked (x + y)
  | .sub => .num <$> T.checked (x - y)
  | .mul => .num <$> T.checked (x * y)
  | .wrappingAdd => .ok (.num (T.wrap (x + y)))
  | .wrappingSub => .ok (.num (T.wrap (x - y)))
  | .wrappingMul => .ok (.num (T.wrap (x * y)))
  | .saturatingAdd => .ok (.num (T.clamp (x + y)))
  | .saturatingSub => .ok (.num (T.clamp (x - y)))
  | .saturatingMul => .ok (.num (T.clamp (x * y)))
  | .div => if y = 0 then .error .divisionByZero else .num <$> T.checked (x.tdiv y)
  | .rem => .num <$> T.remainder x y
  | .lt => .ok (.truth (x < y))
  | .le => .ok (.truth (x ≤ y))
  | .gt => .ok (.truth (y < x))
  | .ge => .ok (.truth (y ≤ x))
  | .eq => .ok (.truth (x = y))
  | .ne => .ok (.truth (x ≠ y))
  | .and => .ok (.num (T.decode (T.encode x &&& T.encode y)))
  | .or => .ok (.num (T.decode (T.encode x ||| T.encode y)))
  | .xor => .ok (.num (T.decode (T.encode x ^^^ T.encode y)))
  | .shl => .ok (.num (T.wrap (x * 2 ^ (y % T.width).toNat)))
  | .shr => .ok (.num (x / 2 ^ (y % T.width).toNat))

/-- Negation reduces to the type; no form of it faults. -/
def IntTy.neg (T : IntTy) (x : Int) : Int := T.wrap (-x)

/-! ## Slots and values -/

namespace IntTy

attribute [local simp] Contains lo hi decode encode signed width wrap clamp

theorem contains_decode_int (v : BitVec 64) : IntTy.int.Canonical v := by
  have := v.toInt_lt
  have := v.le_toInt
  simp only [Canonical, Contains, lo, hi, decode, signed, width, if_true] at *
  omega

theorem decode_encode {T : IntTy} {z : Int} (h : T.Contains z) : T.decode (T.encode z) = z := by
  cases T <;> simp only [Contains, lo, hi, decode, encode, signed, width, if_true,
    Bool.false_eq_true, if_false, BitVec.toInt_ofInt, BitVec.toNat_ofInt] at h ⊢ <;>
    first
    | (rw [Int.bmod_eq_of_le] <;> omega)
    | (rw [Int.toNat_of_nonneg (by omega)]; omega)

theorem encode_decode (T : IntTy) (v : BitVec 64) : T.encode (T.decode v) = v := by
  unfold encode decode
  split
  · exact BitVec.ofInt_toInt
  · simp

theorem contains_wrap (T : IntTy) (z : Int) : T.Contains (T.wrap z) := by
  cases T <;> simp only [Contains, wrap, lo, hi, signed, width, if_true, Bool.false_eq_true,
    if_false] <;> constructor <;> omega

theorem contains_clamp (T : IntTy) (z : Int) : T.Contains (T.clamp z) := by
  cases T <;> simp only [Contains, clamp, lo, hi, signed, width, if_true, Bool.false_eq_true,
    if_false] <;> constructor <;> omega

theorem wrap_of_contains {T : IntTy} {z : Int} (h : T.Contains z) : T.wrap z = z := by
  cases T <;> simp only [Contains, wrap, lo, hi, signed, width, if_true, Bool.false_eq_true,
    if_false] at h ⊢ <;> omega

theorem clamp_of_contains {T : IntTy} {z : Int} (h : T.Contains z) : T.clamp z = z := by
  unfold clamp Contains at *; omega

end IntTy

end Datara.Dmir
