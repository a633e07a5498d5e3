import Datara.Dmir.Loops
import Datara.Dmir.Semantics

/-!
# Overflow-check elision for induction variables

`prove_loop` of `optimizer/loops/ovf_elide.rs`, with the constant walk `const_expr_int_value` of
`optimizer/loops/fold.rs` it rests on. A loop whose header compares one of its parameters with a
constant, and whose single latch passes that parameter on after a chain of constant steps, has the
results of the chain marked: the back end drops their overflow trap.

`Ok(None)` is a loop of another shape; an error is the reason a loop that looks analyzable is
refused.
-/

namespace Datara.Optimizer

open Dmir

/-- The result of a `checked_` operation on `i64`. -/
def checkedI64 (z : Int) : Option Int := if IntTy.int.Contains z then some z else none

/-- `const_int_value`. -/
def constIntValue (f : Function) (vid : ValueId) : Option Int :=
  f.blocks.findSome? fun b => b.instructions.findSome? fun
    | .constInt dest value => if dest = vid then some value.toInt else none
    | _ => none

/-- The operator and the operands of the first `BinOp` that defines a value. -/
def binOpOf (f : Function) (vid : ValueId) : Option (String × ValueId × ValueId) :=
  f.blocks.findSome? fun b => b.instructions.findSome? fun
    | .binOp dest op left right _ => if dest = vid then some (op, left, right) else none
    | _ => none

/-- The constant an operator makes of two constants. The plain and the wrapping form are one. -/
def constExprOp (op : String) (l r : Int) : Option Int :=
  match op with
  | "+" | "wrapping_+" => checkedI64 (l + r)
  | "-" | "wrapping_-" => checkedI64 (l - r)
  | "*" | "wrapping_*" => checkedI64 (l * r)
  | _ => none

/-- `const_expr_int_value_depth`. -/
def constExprIntValueDepth (f : Function) : Nat → ValueId → Option Int
  | 0, _ => none
  | depth + 1, vid =>
    match constIntValue f vid with
    | some v => some v
    | none =>
      match binOpOf f vid with
      | some (op, left, right) => do
        let l ← constExprIntValueDepth f depth left
        let r ← constExprIntValueDepth f depth right
        constExprOp op l r
      | none => none

/-- `const_expr_int_value`. -/
def constExprIntValue (f : Function) (vid : ValueId) : Option Int := constExprIntValueDepth f 4 vid

/-- The comparison of a header parameter with a constant, the parameter on the left. -/
structure BoundCheck where
  op : String
  bound : Int
  mirrored : Bool
  deriving DecidableEq, Repr

/-- The operator of a comparison with its operands exchanged. -/
def mirroredOp : String → String
  | "<" => ">"
  | "<=" => ">="
  | ">" => "<"
  | _ => "<="

/-- The comparison an instruction of the header is, if it defines the branch condition. -/
def boundCheckOf (f : Function) (params : List ValueId) (cond : ValueId) :
    Inst → Option (ValueId × BoundCheck)
  | .binOp dest op left right ty =>
    if dest ≠ cond ∨ (ty ≠ "Bool" ∧ ty ≠ "Int") then none
    else if op ∉ ["<", "<=", ">", ">="] then none
    else if left ∈ params then
      (constExprIntValue f right).map fun bound => (left, { op, bound, mirrored := false })
    else if right ∈ params then
      (constExprIntValue f left).map fun bound =>
        (right, { op := mirroredOp op, bound, mirrored := true })
    else none
  | _ => none

/-- The comparison the header branches on. A later match replaces an earlier one. -/
def findCheck (f : Function) (params : List ValueId) (cond : ValueId) (is : List Inst) :
    Option (ValueId × BoundCheck) :=
  is.foldl (fun found i => (boundCheckOf f params cond i).or found) none

/-- The first `+` or `-` of the latch that defines a value. -/
def chainLinkDef (is : List Inst) (vid : ValueId) : Option (String × ValueId × ValueId) :=
  is.findSome? fun
    | .binOp dest op left right _ =>
      if dest = vid ∧ (op = "+" ∨ op = "-") then some (op, left, right) else none
    | _ => none

/-- The predecessor and the step of a chain link. -/
def chainLink (f : Function) (header : BasicBlockId) (cursor : ValueId) (op : String)
    (left right : ValueId) : Except String (Option (ValueId × Int)) :=
  if op = "+" then
    match constExprIntValue f right with
    | some s => .ok (some (left, s))
    | none =>
      match constExprIntValue f left with
      | some s => .ok (some (right, s))
      | none => .error
          s!"loop bb{header} induction chain link v{cursor} is not an 'i + const' update"
  else
    match constExprIntValue f right with
    | some step => .ok ((checkedI64 (-step)).map fun delta => (left, delta))
    | none => .error
        s!"loop bb{header} induction chain link v{cursor} is not an 'i - const' update"

/-- The chain from the forwarded value back to the parameter, at most `room` links long. The links
found so far come after it. -/
def chainLinks (f : Function) (header : BasicBlockId) (latch : List Inst) (iVid : ValueId) :
    Nat → ValueId → List (ValueId × Int) → Except String (Option (List (ValueId × Int)))
  | room, cursor, links =>
    if cursor = iVid then .ok (some links)
    else
      match room with
      | 0 => .error
          s!"loop bb{header} induction increment chain exceeds 8 constant-step links"
      | room + 1 =>
        match chainLinkDef latch cursor with
        | none => .error
            s!"loop bb{header} forwarded induction value v{cursor} is not a '+/-' constant-step chain rooted at the induction parameter"
        | some (op, left, right) => do
          match ← chainLink f header cursor op left right with
          | none => .ok none
          | some (prev, delta) =>
            chainLinks f header latch iVid room prev ((cursor, delta) :: links)

/-- The condition bounds the parameter from above. -/
def BoundCheck.increasing (c : BoundCheck) : Bool := c.op ∈ ["<", "<="]

/-- Every step goes the way the condition bounds. -/
def checkDirection (header : BasicBlockId) (c : BoundCheck) (links : List (ValueId × Int)) :
    Except String Unit :=
  links.forM fun link =>
    if (0 < link.2 ∧ ¬c.increasing) ∨ (link.2 < 0 ∧ c.increasing) then
      .error s!"loop bb{header} condition '{c.op}' disagrees with step {link.2} on chain link v{link.1}; trip range is not statically bounded"
    else .ok ()

/-- The last value of the parameter for which the loop goes on. -/
def BoundCheck.edge (c : BoundCheck) : Option Int :=
  match c.op with
  | "<" => checkedI64 (c.bound - 1)
  | "<=" => some c.bound
  | ">" => checkedI64 (c.bound + 1)
  | ">=" => some c.bound
  | _ => none

/-- The steps, added up from the loop edge. -/
def checkLinks (header : BasicBlockId) (c : BoundCheck) :
    Int → List (ValueId × Int) → Except String (List ValueId)
  | _, [] => .ok []
  | running, (dest, delta) :: links =>
    match checkedI64 (running + delta) with
    | none => .error s!"loop bb{header} bound {c.bound} with accumulated step {running} overflows i64 at the loop edge; overflow trap kept"
    | some extreme => do
      let marked ← checkLinks header c extreme links
      .ok (dest :: marked)

/-- The proof a marked loop is recorded with. -/
def proofText (header : BasicBlockId) (c : BoundCheck) (links : List (ValueId × Int)) : String :=
  if c.mirrored then
    s!"bb{header}: bound {c.bound} (written on the left) with a {links.length} link constant-step increment chain; constant range check passed"
  else
    s!"bb{header}: condition 'i {c.op} {c.bound}' with a {links.length} link constant-step increment chain; constant range check passed"

/-- The value a single latch passes on for the parameter. -/
def latchValue (f : Function) (lp : NaturalLoop) (paramIndex : Nat) :
    Except String (Option (BasicBlock × ValueId)) :=
  match lp.backEdges with
  | [latchId] =>
    match f.getBlock latchId with
    | none => .ok none
    | some latch =>
      match latch.terminator with
      | .branch target args =>
        if target = lp.header then .ok ((args[paramIndex]?).map fun v => (latch, v))
        else .error s!"loop bb{lp.header} latch bb{latchId} does not branch unconditionally to the header"
      | _ => .error s!"loop bb{lp.header} latch bb{latchId} does not branch unconditionally to the header"
  | edges => .error s!"loop bb{lp.header} has {edges.length} back edges; only a single-latch loop is analyzable"

/-- The chain of a loop whose header is compared, once it is found: its links are checked and
marked. -/
def proveChain (header : BasicBlockId) (c : BoundCheck) (links : List (ValueId × Int)) :
    Except String (Option (List ValueId × String)) :=
  if links = [] then .ok none
  else do
    checkDirection header c links
    match c.edge with
    | none => .error s!"loop bb{header} bound {c.bound} has no in-range loop edge; overflow trap kept"
    | some running =>
      let marked ← checkLinks header c running links
      .ok (some (marked, proofText header c links))

/-- `prove_loop`. -/
def proveLoop (f : Function) (lp : NaturalLoop) : Except String (Option (List ValueId × String)) :=
  match f.getBlock lp.header with
  | none => .ok none
  | some header =>
    match header.terminator with
    | .condBranch cond _ _ _ _ =>
      let params := header.params.map (·.val)
      match findCheck f params cond header.instructions with
      | none => .ok none
      | some (iVid, check) => do
        match ← latchValue f lp (params.idxOf iVid) with
        | none => .ok none
        | some (latch, nextVid) =>
          match ← chainLinks f lp.header latch.instructions iVid 8 nextVid [] with
          | none => .ok none
          | some links => proveChain lp.header check links
    | _ => .ok none

end Datara.Optimizer
