import Mathlib.Algebra.Group.Int.Defs
import Mathlib.Data.List.Basic

/-!
# The DMIR syntax

The instructions, terminators, blocks and functions of the mid-level representation every
optimizer pass rewrites, as `dmir/ir.rs` declares them. Value ids and block ids are newtypes over
`usize` in the source and plain numbers here. A floating-point constant is its 64-bit pattern: no
pass of this development reads one as a number.

A function keeps the fields a modelled pass or the verifier reads. Contracts, refinements and the
other records of a module are not read by any of them and are left out.
-/

namespace Datara.Dmir

/-- `struct ValueId(pub usize)`. -/
abbrev ValueId := Nat

/-- `struct BasicBlockId(pub usize)`. -/
abbrev BasicBlockId := Nat

/-- How a block ends. -/
inductive Terminator
  | branch (target : BasicBlockId) (args : List ValueId)
  | condBranch (cond : ValueId) (thenBlock : BasicBlockId) (thenArgs : List ValueId)
      (elseBlock : BasicBlockId) (elseArgs : List ValueId)
  | ret (value : Option ValueId)
  | unreachable
  deriving DecidableEq, Repr, Inhabited

/-- A block parameter: the value it binds, its type and the variable it came from. -/
structure BlockParam where
  val : ValueId
  ty : String
  name : Option String := none
  deriving DecidableEq, Repr, Inhabited

/-- The instructions. `whileLoop` and `ret` are the legacy compound nodes: the lowering no longer
emits them and the back end compiles them to nothing. -/
inductive Inst
  | constInt (dest : ValueId) (value : BitVec 64)
  | constFloat (dest : ValueId) (value : BitVec 64)
  | constStr (dest : ValueId) (value : String)
  | constBool (dest : ValueId) (value : Bool)
  | loadVar (dest : ValueId) (name : String)
  | assignVar (name : String) (value : ValueId)
  | binOp (dest : ValueId) (op : String) (left right : ValueId) (ty : String)
  | unOp (dest : ValueId) (op : String) (operand : ValueId) (ty : String)
  | cast (dest : ValueId) (value : ValueId) (fromTy toTy : String)
  | call (dest : ValueId) (func : String) (args : List ValueId) (ty : String)
  | methodCall (dest : ValueId) (object : ValueId) (method : String) (args : List ValueId)
      (ty : String)
  | structInit (dest : ValueId) (className : String) (fields : List (String × ValueId))
  | getField (dest : ValueId) (object : ValueId) (field : String) (ty : String)
  | setField (object : ValueId) (field : String) (value : ValueId)
  | out (value : ValueId) (ty : String)
  | err (value : ValueId)
  | formatStr (dest : ValueId) (parts : List String) (values : List ValueId)
      (valueTys : List String)
  | decide (dest : ValueId) (arms : List (ValueId × ValueId)) (elseVal : Option ValueId)
      (ty : String)
  | whileLoop (conditionInsts : List Inst) (condVal : ValueId) (bodyInsts : List Inst)
  | ret (value : Option ValueId)
  | getFuncAddr (dest : ValueId) (funcName : String)
  | select (dest : ValueId) (cond thenVal elseVal : ValueId) (ty : String)
  | inlineAsm (template : String) (outputs inputs : List (String × ValueId))
      (clobbers options : List String)
  | volatileLoad (dest : ValueId) (addr : ValueId) (ty : String)
  | volatileStore (addr : ValueId) (value : ValueId) (ty : String)
  deriving Repr, Inhabited

mutual

/-- `Inst::visit_vids`: every value id an instruction mentions, definitions and uses. -/
def Inst.visitVids : Inst → List ValueId
  | .constInt d _ | .constFloat d _ | .constStr d _ | .constBool d _ | .getFuncAddr d _ => [d]
  | .loadVar d _ => [d]
  | .assignVar _ v => [v]
  | .binOp d _ l r _ => [d, l, r]
  | .unOp d _ o _ => [d, o]
  | .cast d v _ _ => [d, v]
  | .call d _ args _ => d :: args
  | .methodCall d o _ args _ => d :: o :: args
  | .structInit d _ fs => d :: fs.map Prod.snd
  | .getField d o _ _ => [d, o]
  | .setField o _ v => [o, v]
  | .volatileLoad d a _ => [d, a]
  | .volatileStore a v _ => [a, v]
  | .out v _ | .err v => [v]
  | .formatStr d _ vs _ => d :: vs
  | .select d c t e _ => [d, c, t, e]
  | .decide d arms ev _ => d :: arms.flatMap (fun a => [a.1, a.2]) ++ ev.toList
  | .whileLoop ci cv bi => cv :: visitVidsAll ci ++ visitVidsAll bi
  | .ret v => v.toList
  | .inlineAsm _ outs ins _ _ => outs.map Prod.snd ++ ins.map Prod.snd

/-- `visitVids` along a nested instruction list. -/
def visitVidsAll : List Inst → List ValueId
  | [] => []
  | i :: is => i.visitVids ++ visitVidsAll is

end

/-- The value ids a terminator mentions. -/
def Terminator.vids : Terminator → List ValueId
  | .branch _ args => args
  | .condBranch c _ ta _ ea => c :: ta ++ ea
  | .ret v => v.toList
  | .unreachable => []

/-- The branch targets of a terminator, in edge order. -/
def Terminator.targets : Terminator → List BasicBlockId
  | .branch t _ => [t]
  | .condBranch _ t _ e _ => [t, e]
  | .ret _ | .unreachable => []

/-- A basic block. The label only steers code layout and is kept for the passes that write one. -/
structure BasicBlock where
  id : BasicBlockId
  label : String := ""
  params : List BlockParam := []
  instructions : List Inst
  terminator : Terminator
  deriving Repr, Inhabited

/-- The `@inline` family. -/
inductive InlineHint
  | none | inline | always | never
  deriving DecidableEq, Repr, Inhabited

/-- The allocator tier of a function. -/
inductive ArenaHint
  | none | arena | arenaSized (bytes : Nat) | pool (slots : Nat)
  deriving DecidableEq, Repr, Inhabited

/-- A function parameter: name, type and the value that holds the argument. -/
structure Param where
  name : String
  ty : String
  val : ValueId
  deriving DecidableEq, Repr, Inhabited

/-- A DMIR function. `provenNoOverflow` holds the `BinOp` results whose overflow trap the back end
may drop. -/
structure Function where
  name : String
  params : List Param := []
  returnType : String := ""
  entryBlock : BasicBlockId := 0
  blocks : List BasicBlock
  inlineHint : InlineHint := .none
  allocHint : ArenaHint := .none
  hasInlineAsm : Bool := false
  provenNoOverflow : List ValueId := []
  deriving Repr, Inhabited

/-- `Function::get_block`. The source tries the position `id` first; with unique block ids, which
the verifier demands, both lookups find the same block. -/
def Function.getBlock (f : Function) (id : BasicBlockId) : Option BasicBlock :=
  match f.blocks[id]? with
  | some b => if b.id = id then some b else f.blocks.find? (·.id = id)
  | none => f.blocks.find? (·.id = id)

/-- The instructions of a function, in the order of its blocks. -/
def Function.insts (f : Function) : List Inst := f.blocks.flatMap (·.instructions)

theorem Function.mem_insts {f : Function} {i : Inst} :
    i ∈ f.insts ↔ ∃ b ∈ f.blocks, i ∈ b.instructions := List.mem_flatMap

/-- The value ids a function mentions. -/
def Function.valueIds (f : Function) : List ValueId :=
  f.params.map (·.val) ++ f.blocks.flatMap fun b =>
    b.params.map (·.val) ++ b.instructions.flatMap Inst.visitVids ++ b.terminator.vids

/-- `max_value_id_in_function`. -/
def Function.maxValueId (f : Function) : Nat := f.valueIds.foldl max 0

theorem le_maxValueId {f : Function} {v : ValueId} (h : v ∈ f.valueIds) : v ≤ f.maxValueId := by
  have fold : ∀ (l : List Nat) (m : Nat), m ≤ l.foldl max m ∧ ∀ x ∈ l, x ≤ l.foldl max m := by
    intro l
    induction l with
    | nil => exact fun m => ⟨Nat.le_refl m, fun x hx => by cases hx⟩
    | cons a l ih =>
      intro m
      obtain ⟨h₁, h₂⟩ := ih (max m a)
      refine ⟨Nat.le_trans (Nat.le_max_left _ _) h₁, fun x hx => ?_⟩
      rcases List.mem_cons.mp hx with rfl | hx
      · exact Nat.le_trans (Nat.le_max_right _ _) h₁
      · exact h₂ x hx
  exact (fold _ 0).2 v h

/-! ## Type representations -/

/-- `dm_repr_is_narrow_int`. -/
def dmReprIsNarrowInt (repr : String) : Bool :=
  repr ∈ ["Int8", "Int16", "Int32", "UInt8", "UInt16", "UInt32", "Byte",
    "I8", "I16", "I32", "U8", "U16", "U32"]

/-- `dm_repr_is_f32`. -/
def dmReprIsF32 (repr : String) : Bool :=
  repr ∈ ["Float32", "f32", "F32"]

/-- Truncation to `w` bits, extended back by sign. -/
def signTrunc (w : Nat) (v : BitVec 64) : BitVec 64 := (v.truncate w).signExtend 64

/-- Truncation to `w` bits, extended back by zeros. -/
def zeroTrunc (w : Nat) (v : BitVec 64) : BitVec 64 := (v.truncate w).zeroExtend 64

/-- `dm_wrap_i64_to_repr`. -/
def dmWrapI64ToRepr (repr : String) (v : BitVec 64) : BitVec 64 :=
  match repr with
  | "Int8" | "i8" => signTrunc 8 v
  | "Int16" | "i16" => signTrunc 16 v
  | "Int32" | "i32" => signTrunc 32 v
  | "UInt8" | "Byte" | "u8" => zeroTrunc 8 v
  | "UInt16" | "u16" => zeroTrunc 16 v
  | "UInt32" | "u32" => zeroTrunc 32 v
  | _ => v

/-- `dm_repr_sat_bounds`. -/
def dmReprSatBounds (repr : String) : Option (Int × Int) :=
  match repr with
  | "Int8" | "i8" => some (-2 ^ 7, 2 ^ 7 - 1)
  | "Int16" | "i16" => some (-2 ^ 15, 2 ^ 15 - 1)
  | "Int32" | "i32" => some (-2 ^ 31, 2 ^ 31 - 1)
  | "UInt8" | "Byte" | "u8" => some (0, 2 ^ 8 - 1)
  | "UInt16" | "u16" => some (0, 2 ^ 16 - 1)
  | "UInt32" | "u32" => some (0, 2 ^ 32 - 1)
  | _ => none

/-- `dm_repr_shift_width`. -/
def dmReprShiftWidth (repr : String) : Nat :=
  match repr with
  | "Int8" | "i8" | "UInt8" | "Byte" | "u8" => 8
  | "Int16" | "i16" | "UInt16" | "u16" => 16
  | "Int32" | "i32" | "UInt32" | "u32" => 32
  | _ => 64

end Datara.Dmir
