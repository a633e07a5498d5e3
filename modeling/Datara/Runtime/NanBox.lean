import Datara.Library.Masks

/-!
# Values in one word

`runtime/datara_value.c` keeps a dynamic value in one word: a double as its bits, anything else as a quiet NaN
with a tag of three bits and a payload of 48. The tag of a box is that of its value, and the payload is read
back, but for the integers that do not fit in it (`faithful_iff`).
-/

namespace Datara.Runtime.NanBox

open Library

abbrev DataraValue := BitVec 64

def qnanMask : DataraValue := 0xFFF8000000000000#64
def qnanPrefix : DataraValue := 0x7FF8000000000000#64
def tagMask : DataraValue := 0x0007000000000000#64
def payloadMask : DataraValue := 0x0000FFFFFFFFFFFF#64

def tagInt : DataraValue := 0x0001000000000000#64
def tagBool : DataraValue := 0x0002000000000000#64
def tagStr : DataraValue := 0x0003000000000000#64
def tagRawptr : DataraValue := 0x0004000000000000#64
def tagHandle : DataraValue := 0x0005000000000000#64
def tagNull : DataraValue := 0x0006000000000000#64
def tagUndefined : DataraValue := 0x0007000000000000#64

/-! ## The constructors, the predicates and the readers, a double given by its bits -/

def fromFloat (f : BitVec 64) : DataraValue :=
  if f &&& qnanMask = qnanPrefix ∧ f &&& tagMask ≠ 0 then qnanPrefix else f

def fromInt (val : BitVec 64) : DataraValue := qnanPrefix ||| tagInt ||| (val &&& payloadMask)

def fromBool (b : BitVec 32) : DataraValue := qnanPrefix ||| tagBool ||| (if b ≠ 0 then 1#64 else 0#64)

def fromStr (s : BitVec 64) : DataraValue := qnanPrefix ||| tagStr ||| (s &&& payloadMask)

def fromRawptr (ptr : BitVec 64) : DataraValue := qnanPrefix ||| tagRawptr ||| (ptr &&& payloadMask)

def fromHandle (handleId : BitVec 32) : DataraValue := qnanPrefix ||| tagHandle ||| handleId.setWidth 64

def valNull : DataraValue := qnanPrefix ||| tagNull

def valUndefined : DataraValue := qnanPrefix ||| tagUndefined

def isFloat (v : DataraValue) : Bool := v &&& qnanMask != qnanPrefix || v &&& tagMask == 0

/-- The test the other predicates make, each with its tag. -/
def hasTag (tag v : DataraValue) : Bool := v &&& qnanMask == qnanPrefix && v &&& tagMask == tag

def isInt (v : DataraValue) : Bool := hasTag tagInt v
def isBool (v : DataraValue) : Bool := hasTag tagBool v
def isStr (v : DataraValue) : Bool := hasTag tagStr v
def isRawptr (v : DataraValue) : Bool := hasTag tagRawptr v
def isHandle (v : DataraValue) : Bool := hasTag tagHandle v
def isNull (v : DataraValue) : Bool := hasTag tagNull v
def isUndefined (v : DataraValue) : Bool := hasTag tagUndefined v

def toFloat (v : DataraValue) : BitVec 64 := v

def toInt (v : DataraValue) : BitVec 64 :=
  let payload := v &&& payloadMask
  if payload &&& 0x0000800000000000#64 ≠ 0 then payload ||| 0xFFFF000000000000#64 else payload

def toBool (v : DataraValue) : BitVec 32 := if v &&& 1#64 ≠ 0 then 1 else 0

def toStr (v : DataraValue) : BitVec 64 := v &&& payloadMask

def toRawptr (v : DataraValue) : BitVec 64 := v &&& payloadMask

def toHandle (v : DataraValue) : BitVec 32 := (v &&& 0xFFFFFFFF#64).setWidth 32

/-- `datara_rt_val_from_f64_bits`. -/
def fromF64Bits (bits : BitVec 64) : DataraValue :=
  if bits &&& qnanMask = qnanPrefix ∧ bits &&& tagMask ≠ 0 then qnanPrefix else bits

/-- `datara_rt_val_to_f64_bits_checked`; nothing comes back from the panic on another tag. -/
def toF64BitsChecked (v : DataraValue) : Option (BitVec 64) :=
  if isFloat v then some (toFloat v) else none

/-! ## The union the words stand for -/

inductive Kind where
  | float | int | bool | str | rawptr | handle | null | undefined
  deriving DecidableEq

/-- The predicate of a kind. -/
def Kind.holds : Kind → DataraValue → Bool
  | .float => isFloat
  | .int => isInt
  | .bool => isBool
  | .str => isStr
  | .rawptr => isRawptr
  | .handle => isHandle
  | .null => isNull
  | .undefined => isUndefined

/-- A value of the union. Pointers have 48 bits, and handles 32. -/
inductive Value where
  | float (bits : BitVec 64)
  | int (val : BitVec 64)
  | bool (b : Bool)
  | str (s : BitVec 48)
  | rawptr (ptr : BitVec 48)
  | handle (handleId : BitVec 32)
  | null
  | undefined

def Value.kind : Value → Kind
  | .float _ => .float
  | .int _ => .int
  | .bool _ => .bool
  | .str _ => .str
  | .rawptr _ => .rawptr
  | .handle _ => .handle
  | .null => .null
  | .undefined => .undefined

/-- The words a value is boxed as; a double has a constructor in each of the two calling conventions. -/
def Value.boxes : Value → List DataraValue
  | .float bits => [fromFloat bits, fromF64Bits bits]
  | .int val => [fromInt val]
  | .bool b => [fromBool (if b then 1 else 0)]
  | .str s => [fromStr (s.setWidth 64)]
  | .rawptr ptr => [fromRawptr (ptr.setWidth 64)]
  | .handle handleId => [fromHandle handleId]
  | .null => [valNull]
  | .undefined => [valUndefined]

/-- The exponent is all ones, and the fraction is not zero. -/
def IsNaN (bits : BitVec 64) : Prop :=
  bits &&& 0x7FF0000000000000#64 = 0x7FF0000000000000#64 ∧ bits &&& 0x000FFFFFFFFFFFFF#64 ≠ 0

/-- The same double, whatever the payload of a NaN. -/
def SameDouble (a b : BitVec 64) : Prop := a = b ∨ IsNaN a ∧ IsNaN b

/-- The readers of the kind of the value give it back. -/
def Value.ReadFrom (box : DataraValue) : Value → Prop
  | .float bits => SameDouble (toFloat box) bits ∧ ∃ read, toF64BitsChecked box = some read ∧ SameDouble read bits
  | .int val => toInt box = val
  | .bool b => toBool box = if b then 1 else 0
  | .str s => toStr box = s.setWidth 64
  | .rawptr ptr => toRawptr box = ptr.setWidth 64
  | .handle handleId => toHandle box = handleId
  | .null => True
  | .undefined => True

/-- Every box of the value has the one kind of the value, and gives it back. -/
def Value.Faithful (x : Value) : Prop :=
  ∀ box ∈ x.boxes, (∀ k : Kind, k.holds box = true ↔ k = x.kind) ∧ x.ReadFrom box

variable {x : Value} {v bits : BitVec 64} {k : Kind}

/-! ## The tags -/

theorem holds_payload (k : Kind) (a p : DataraValue) : k.holds (a ||| (p &&& payloadMask)) = k.holds a := by
  have hhigh : (a ||| (p &&& payloadMask)) &&& qnanMask = a &&& qnanMask := and_or_disjoint (by decide)
  have htag : (a ||| (p &&& payloadMask)) &&& tagMask = a &&& tagMask := and_or_disjoint (by decide)
  cases k <;>
    simp [Kind.holds, isFloat, isInt, isBool, isStr, isRawptr, isHandle, isNull, isUndefined, hasTag, hhigh, htag]

theorem payload_setWidth {n : Nat} (h : n ≤ 48) (q : BitVec n) : q.setWidth 64 &&& payloadMask = q.setWidth 64 :=
  setWidth_and_low (n := 48) (by decide) h

theorem holds_fromInt (k : Kind) (val : BitVec 64) : k.holds (fromInt val) = true ↔ k = .int := by
  rw [fromInt, holds_payload]
  cases k <;> decide

theorem holds_fromBool (k : Kind) (b : Bool) : k.holds (fromBool (if b then 1 else 0)) = true ↔ k = .bool := by
  cases b <;> cases k <;> decide

theorem holds_fromStr (k : Kind) (s : BitVec 64) : k.holds (fromStr s) = true ↔ k = .str := by
  rw [fromStr, holds_payload]
  cases k <;> decide

theorem holds_fromRawptr (k : Kind) (ptr : BitVec 64) : k.holds (fromRawptr ptr) = true ↔ k = .rawptr := by
  rw [fromRawptr, holds_payload]
  cases k <;> decide

theorem holds_fromHandle (k : Kind) (handleId : BitVec 32) :
    k.holds (fromHandle handleId) = true ↔ k = .handle := by
  rw [fromHandle, ← payload_setWidth (by decide) handleId, holds_payload]
  cases k <;> decide

theorem holds_of_isFloat (h : isFloat v = true) (k : Kind) : k.holds v = true ↔ k = .float := by
  have hno (tag : DataraValue) (htag : tag ≠ 0) : hasTag tag v = false := by
    rw [hasTag, Bool.and_eq_false_iff]
    rw [isFloat, Bool.or_eq_true] at h
    apply h.imp
    · intro hhigh
      rw [bne_iff_ne] at hhigh
      exact beq_eq_false_iff_ne.mpr hhigh
    · intro hzero
      rw [eq_of_beq hzero]
      exact beq_eq_false_iff_ne.mpr htag.symm
  cases k with
  | float => exact ⟨fun _ => rfl, fun _ => h⟩
  | _ => exact ⟨fun hk => absurd ((hno _ (by decide)).symm.trans hk) (by decide), nofun⟩

/-! ## Doubles -/

theorem fromF64Bits_eq (bits : BitVec 64) : fromF64Bits bits = fromFloat bits := rfl

theorem isFloat_fromFloat (bits : BitVec 64) : isFloat (fromFloat bits) = true := by
  unfold fromFloat
  split
  case isTrue h => decide
  case isFalse h =>
    rw [isFloat, Bool.or_eq_true, bne_iff_ne, beq_iff_eq]
    by_cases hhigh : bits &&& qnanMask = qnanPrefix
    · exact .inr (by_contra fun htag => h ⟨hhigh, htag⟩)
    · exact .inl hhigh

theorem isNaN_of_high (h : v &&& qnanMask = qnanPrefix) : IsNaN v := by
  constructor
  · exact and_subfield (by decide) h
  · intro hzero
    have hquiet : v &&& 0x0008000000000000#64 = 0x0008000000000000#64 := and_subfield (by decide) h
    have hnone : v &&& 0x0008000000000000#64 = 0 &&& 0x0008000000000000#64 := and_subfield (by decide) hzero
    rw [hquiet] at hnone
    exact absurd hnone (by decide)

theorem sameDouble_fromFloat (bits : BitVec 64) : SameDouble (fromFloat bits) bits := by
  unfold fromFloat
  split
  case isTrue h => exact .inr ⟨isNaN_of_high (by decide), isNaN_of_high h.1⟩
  case isFalse h => exact .inl rfl

/-! ## Payloads -/

theorem toStr_fromStr (s : BitVec 48) : toStr (fromStr (s.setWidth 64)) = s.setWidth 64 := by
  rw [toStr, fromStr, and_or_part (by decide), payload_setWidth (Nat.le_refl 48)]

theorem toRawptr_fromRawptr (ptr : BitVec 48) : toRawptr (fromRawptr (ptr.setWidth 64)) = ptr.setWidth 64 := by
  rw [toRawptr, fromRawptr, and_or_part (by decide), payload_setWidth (Nat.le_refl 48)]

theorem toHandle_fromHandle (handleId : BitVec 32) : toHandle (fromHandle handleId) = handleId := by
  have hlow : handleId.setWidth 64 &&& 0xFFFFFFFF#64 = handleId.setWidth 64 :=
    setWidth_and_low (n := 32) (by decide) (Nat.le_refl 32)
  rw [toHandle, fromHandle, ← hlow, and_or_part (by decide), hlow, BitVec.setWidth_setWidth_of_le _ (by decide),
    BitVec.setWidth_eq]

theorem toBool_fromBool (b : Bool) : toBool (fromBool (if b then 1 else 0)) = if b then 1 else 0 := by
  cases b <;> decide

theorem sign_payload (v : BitVec 64) :
    v &&& payloadMask &&& 0x0000800000000000#64 ≠ 0 ↔ 2 ^ 47 ≤ v.toNat % 2 ^ 48 := by
  have hbit : payloadMask &&& 0x0000800000000000#64 = BitVec.twoPow 64 47 := by decide
  have hread : v.getLsbD 47 = decide (2 ^ 47 ≤ v.toNat % 2 ^ 48) := by
    rw [BitVec.getLsbD, Nat.testBit_eq_decide_div_mod_eq, decide_eq_decide]
    omega
  rw [BitVec.and_assoc, hbit, BitVec.and_twoPow, hread]
  by_cases h : 2 ^ 47 ≤ v.toNat % 2 ^ 48
  · simp only [h, decide_true, if_true]
    decide
  · simp only [h, decide_false, Bool.false_eq_true, if_false, iff_false]
    decide

theorem payload_extended (p : BitVec 64) :
    ((p &&& payloadMask) ||| 0xFFFF000000000000#64).toNat = p.toNat % 2 ^ 48 + (2 ^ 64 - 2 ^ 48) := by
  have hlow : (p &&& payloadMask).toNat = p.toNat % 2 ^ 48 := toNat_and_low (by decide)
  have hhigh : (0xFFFF000000000000#64).toNat = 2 ^ 48 * (2 ^ 16 - 1) := by decide
  rw [BitVec.toNat_or, hlow, hhigh, Nat.or_comm, ← Nat.two_pow_add_eq_or_of_lt (Nat.mod_lt _ (by decide))]
  omega

/-- **An integer is read back as its low 48 bits, with their sign.** -/
theorem toInt_fromInt_toNat (v : BitVec 64) :
    (toInt (fromInt v)).toNat = if 2 ^ 47 ≤ v.toNat % 2 ^ 48 then v.toNat % 2 ^ 48 + (2 ^ 64 - 2 ^ 48)
      else v.toNat % 2 ^ 48 := by
  have hpart : fromInt v &&& payloadMask = v &&& payloadMask := and_or_part (by decide)
  simp only [toInt, hpart, sign_payload]
  split
  · exact payload_extended v
  · exact toNat_and_low (by decide)

theorem toInt_fromInt : toInt (fromInt v) = v ↔ -2 ^ 47 ≤ v.toInt ∧ v.toInt < 2 ^ 47 := by
  rw [← BitVec.toNat_inj, toInt_fromInt_toNat, BitVec.toInt_eq_toNat_cond]
  split <;> split <;> omega

/-! ## The boxes -/

theorem holds_boxes (x : Value) : ∀ box ∈ x.boxes, ∀ k : Kind, k.holds box = true ↔ k = x.kind := by
  intro box hbox
  cases x with
  | float bits =>
    obtain rfl | hbox := List.mem_cons.mp hbox
    · exact holds_of_isFloat (isFloat_fromFloat bits)
    · rw [List.mem_singleton.mp hbox, fromF64Bits_eq]
      exact holds_of_isFloat (isFloat_fromFloat bits)
  | int val => exact List.mem_singleton.mp hbox ▸ fun k => holds_fromInt k val
  | bool b => exact List.mem_singleton.mp hbox ▸ fun k => holds_fromBool k b
  | str s => exact List.mem_singleton.mp hbox ▸ fun k => holds_fromStr k _
  | rawptr ptr => exact List.mem_singleton.mp hbox ▸ fun k => holds_fromRawptr k _
  | handle handleId => exact List.mem_singleton.mp hbox ▸ fun k => holds_fromHandle k handleId
  | null => exact List.mem_singleton.mp hbox ▸ fun k => by cases k <;> decide
  | undefined => exact List.mem_singleton.mp hbox ▸ fun k => by cases k <;> decide

theorem readFrom_float (bits : BitVec 64) : (Value.float bits).ReadFrom (fromFloat bits) :=
  ⟨sameDouble_fromFloat bits, _, if_pos (isFloat_fromFloat bits), sameDouble_fromFloat bits⟩

/-- **Boxing is faithful to a value** but for the integers that do not fit in 48 bits: those come back as
others. -/
theorem faithful_iff (x : Value) :
    x.Faithful ↔ ∀ val, x = .int val → -2 ^ 47 ≤ val.toInt ∧ val.toInt < 2 ^ 47 := by
  have hread : x.Faithful ↔ ∀ box ∈ x.boxes, x.ReadFrom box :=
    ⟨fun h box hbox => (h box hbox).2, fun h box hbox => ⟨holds_boxes x box hbox, h box hbox⟩⟩
  rw [hread]
  cases x with
  | float bits =>
    refine iff_of_true (fun box hbox => ?_) nofun
    obtain rfl | hbox := List.mem_cons.mp hbox
    · exact readFrom_float bits
    · rw [List.mem_singleton.mp hbox, fromF64Bits_eq]
      exact readFrom_float bits
  | int val =>
    constructor
    · intro h val' heq
      cases heq
      exact toInt_fromInt.mp (h _ (List.mem_singleton.mpr rfl))
    · intro h box hbox
      rw [List.mem_singleton.mp hbox]
      exact toInt_fromInt.mpr (h val rfl)
  | bool b => exact iff_of_true (fun box hbox => List.mem_singleton.mp hbox ▸ toBool_fromBool b) nofun
  | str s => exact iff_of_true (fun box hbox => List.mem_singleton.mp hbox ▸ toStr_fromStr s) nofun
  | rawptr ptr => exact iff_of_true (fun box hbox => List.mem_singleton.mp hbox ▸ toRawptr_fromRawptr ptr) nofun
  | handle handleId =>
    exact iff_of_true (fun box hbox => List.mem_singleton.mp hbox ▸ toHandle_fromHandle handleId) nofun
  | null => exact iff_of_true (fun _ _ => trivial) nofun
  | undefined => exact iff_of_true (fun _ _ => trivial) nofun

/-- The first integer of 49 bits is read back as the least one of 48. -/
theorem box_two_pow_47 : ¬ (Value.int (2 ^ 47)).Faithful := by
  intro h
  have hread : toInt (fromInt (2 ^ 47)) = 2 ^ 47 := (h _ (List.mem_singleton.mpr rfl)).2
  exact absurd hread (by decide)

end Datara.Runtime.NanBox
