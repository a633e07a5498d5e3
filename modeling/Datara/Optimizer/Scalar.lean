import Datara.Dmir.Cfg

/-!
# Global common-subexpression elimination

`ScalarOptimizer::eliminate_common_subexpressions` of `optimizer/scalar.rs`: the blocks are walked in
dominator preorder, with the block of the surviving definition of each expression. A later occurrence
that this block dominates becomes a copy of the first operator with the expression's key there.

The cost model's verdict on a key is a parameter, asked once for each key: the source keeps the answer
in a map. The records of the decision trace are left out.
-/

namespace Datara.Optimizer

open Dmir

/-- Expression identity. -/
structure ExprKey where
  op : String
  ty : String
  left : ValueId
  right : ValueId
  deriving DecidableEq, Repr

/-- The operators whose operands may be swapped, on `Int`. -/
def commutingOps : List String := ["+", "*", "==", "!=", "&", "|", "^"]

def canonicalKey (op ty : String) (left right : ValueId) : ExprKey :=
  if ty = "Int" ∧ op ∈ commutingOps ∧ right < left then ⟨op, ty, right, left⟩
  else ⟨op, ty, left, right⟩

/-- The key of an operator. -/
def keyOf : Inst → Option ExprKey
  | .binOp _ op left right ty => some (canonicalKey op ty left right)
  | _ => none

/-- How often an expression occurs. -/
def occurrences (f : Function) (key : ExprKey) : Nat :=
  (f.blocks.flatMap (·.instructions)).countP fun i => keyOf i = some key

/-- The verdict of `CostModel::evaluate_cse`. -/
def evaluateCse (count : Nat) : Bool := !(count ≤ 1)

/-- `dom_tree_children`. -/
def domChildren (f : Function) (idom : Cfg.Idom) (b : BasicBlockId) : List BasicBlockId :=
  (f.blocks.map (·.id)).filter fun c => c ≠ f.entryBlock ∧ idom c = some b

/-- The blocks in dominator preorder, from a stack. Each step takes one block off the stack. -/
def domOrder (f : Function) (idom : Cfg.Idom) :
    Nat → List BasicBlockId → List BasicBlockId → List BasicBlockId
  | 0, _, order => order
  | _ + 1, [], order => order
  | n + 1, b :: stack, order =>
    if b ∈ order then domOrder f idom n stack order
    else domOrder f idom n (domChildren f idom b ++ stack) (order ++ [b])

/-- The first operator with the key. -/
def firstVal (key : ExprKey) (is : List Inst) : Option ValueId :=
  is.findSome? fun
    | .binOp dest op left right ty => if canonicalKey op ty left right = key then some dest else none
    | _ => none

/-- The surviving value of a key: from the block that is walked, else from the block `db`. -/
def survivor (blocks : List BasicBlock) (bid db : BasicBlockId) (key : ExprKey) (code : List Inst) :
    Option ValueId :=
  (if bid = db then firstVal key code else none).or
    ((blocks.find? (·.id = db)).bind fun b => firstVal key b.instructions)

/-- What the walk carries: the block of the surviving definition of a key, and the count of
eliminated operators. -/
structure Cse where
  defBlock : ExprKey → Option BasicBlockId
  eliminated : Nat

def Cse.empty : Cse := ⟨fun _ => none, 0⟩

section
variable (approve : ExprKey → Bool) (dominates : BasicBlockId → BasicBlockId → Bool)

/-- One instruction, with what stands before it in its block by now and what stands after. -/
def cseInst (blocks : List BasicBlock) (bid : BasicBlockId) (before : List Inst) (i : Inst)
    (rest : List Inst) (st : Cse) : Inst × Cse :=
  match i with
  | .binOp dest op left right ty =>
    let key := canonicalKey op ty left right
    match (st.defBlock key).filter fun db => db = bid || dominates db bid with
    | none =>
      (i, { st with defBlock := Function.update st.defBlock key ((st.defBlock key).or (some bid)) })
    | some db =>
      if approve key then
        match survivor blocks bid db key (before ++ i :: rest) with
        | some v => (.unOp dest "copy" v ty, { st with eliminated := st.eliminated + 1 })
        | none => (i, { st with defBlock := Function.update st.defBlock key none })
      else (i, { st with defBlock := Function.update st.defBlock key none })
  | i => (i, st)

/-- The instructions of a block. -/
def cseCode (blocks : List BasicBlock) (bid : BasicBlockId) :
    List Inst → List Inst → Cse → List Inst × Cse
  | before, [], st => (before, st)
  | before, i :: rest, st =>
    let r := cseInst approve dominates blocks bid before i rest st
    cseCode blocks bid (before ++ [r.1]) rest r.2

/-- Put other instructions into the block with the id. -/
def setCode (bid : BasicBlockId) (is : List Inst) : List BasicBlock → List BasicBlock
  | [] => []
  | b :: bs => if b.id = bid then { b with instructions := is } :: bs else b :: setCode bid is bs

/-- The blocks, in the order of the walk. -/
def cseBlocks : List BasicBlockId → List BasicBlock → Cse → List BasicBlock × Nat
  | [], blocks, st => (blocks, st.eliminated)
  | bid :: order, blocks, st =>
    match blocks.find? (·.id = bid) with
    | none => cseBlocks order blocks st
    | some b =>
      let r := cseCode approve dominates blocks bid [] b.instructions st
      cseBlocks order (setCode bid r.1 blocks) r.2

end

/-- `eliminate_common_subexpressions`, under the verdicts of a cost model. A block is pushed at most
once as a child, so the walk takes at most one step more than there are blocks. -/
def eliminateCommonSubexpressionsWith (approve : ExprKey → Bool) (n : Nat) (f : Function) :
    Option (Function × Nat) :=
  (Cfg.computeDominance n f).map fun idom =>
    let order := domOrder f idom (f.blocks.length + 1) [f.entryBlock] []
    let r := cseBlocks approve (fun a b => Cfg.dominates n idom a b = some true) order f.blocks .empty
    ({ f with blocks := r.1 }, r.2)

/-- `eliminate_common_subexpressions`, with the verdicts of `CostModel`. -/
def eliminateCommonSubexpressions (n : Nat) (f : Function) : Option (Function × Nat) :=
  eliminateCommonSubexpressionsWith (fun key => evaluateCse (occurrences f key)) n f

end Datara.Optimizer
