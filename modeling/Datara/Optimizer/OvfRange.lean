import Datara.Optimizer.OvfElide

/-!
# The abstract range of a value

`Range`, `RState` and `induction_range` of `optimizer/loops/ovf_range.rs`: the signed intervals the
range proof computes with, and the range a loop's compared parameter is taken to have. The arithmetic
on `i64` saturates, so an interval that reaches an end of `i64` stands for an unbounded one.
-/

namespace Datara.Optimizer

open Dmir

/-- `i64::saturating_add` and `saturating_mul`, of the exact result. -/
def saturateI64 (z : Int) : Int := IntTy.int.clamp z

/-- A signed interval. -/
structure Range where
  lo : Int
  hi : Int
  deriving DecidableEq, Repr

namespace Range

def const (c : Int) : Range := ⟨c, c⟩

/-- The full hull of `i64`. -/
def full : Range := ⟨IntTy.int.lo, IntTy.int.hi⟩

def add (r s : Range) : Range := ⟨saturateI64 (r.lo + s.lo), saturateI64 (r.hi + s.hi)⟩

def neg (r : Range) : Range :=
  ⟨(checkedI64 (-r.hi)).getD IntTy.int.lo, (checkedI64 (-r.lo)).getD IntTy.int.hi⟩

def sub (r s : Range) : Range := r.add s.neg

def bitand (r s : Range) : Range :=
  let lo := if 0 ≤ r.lo ∨ 0 ≤ s.lo then 0 else IntTy.int.lo
  ⟨lo, max (min r.hi s.hi) lo⟩

/-- The source writes the upper bound of the negative case `-1i64.max(..)`, which negates the
maximum. -/
def bitor (r s : Range) : Range :=
  ⟨min r.lo s.lo, if r.lo < 0 ∨ s.lo < 0 then -max 1 (max r.hi s.hi) else max r.hi s.hi⟩

/-- The hull of the four corner products. -/
def mul (r s : Range) : Range :=
  let a := saturateI64 (r.lo * s.lo)
  let b := saturateI64 (r.lo * s.hi)
  let c := saturateI64 (r.hi * s.lo)
  let d := saturateI64 (r.hi * s.hi)
  ⟨min (min a b) (min c d), max (max a b) (max c d)⟩

def union (r s : Range) : Range := ⟨min r.lo s.lo, max r.hi s.hi⟩

/-- `x.checked_mul(2).and_then(|v| v.checked_add(1))`. -/
def doubled (x : Int) : Option Int := (checkedI64 (x * 2)).bind fun v => checkedI64 (v + 1)

def xor (r s : Range) : Range :=
  let loSrc := min r.lo s.lo
  let hiSrc := max r.hi s.hi
  ⟨if loSrc < 0 then (doubled loSrc).getD IntTy.int.lo else 0,
    if 0 < hiSrc then (doubled hiSrc).getD IntTy.int.hi else 0⟩

/-- The interval of an operator's results. -/
def ofOp (op : String) (r s : Range) : Range :=
  match op with
  | "+" | "wrapping_+" => r.add s
  | "-" | "wrapping_-" => r.sub s
  | "&" => r.bitand s
  | "|" => r.bitor s
  | "^" => r.xor s
  | _ => r.mul s

end Range

/-- The state of a value in the fixpoint. `bot` is a value nothing was derived for yet, `top` one the
analysis cannot model. -/
inductive RState
  | bot
  | known (r : Range)
  | top
  deriving DecidableEq, Repr

/-- `join_state`: the new change count and state, if the state changes. The fourth change gives the
value up. -/
def joinState (count : Nat) (old s : RState) : Option (Nat × RState) :=
  let merged :=
    match old, s with
    | .bot, s => some s
    | _, .bot => none
    | .top, _ | _, .top => some .top
    | .known x, .known y => some (.known (x.union y))
  match merged with
  | none => none
  | some m =>
    if m = old then none else some (count + 1, if 3 < count + 1 then .top else m)

/-- A parameter with a proven range. -/
structure ProvenInduction where
  vid : ValueId
  lo : Int
  hiEdge : Int
  blocks : List BasicBlockId
  headerId : BasicBlockId
  deriving DecidableEq, Repr

/-- The comparison an instruction of the header is, the parameter on the left. -/
def inductionCheckOf (f : Function) (params : List ValueId) (cond : ValueId) :
    Inst → Option (ValueId × String × Int)
  | .binOp dest op left right ty =>
    if dest ≠ cond ∨ (ty ≠ "Bool" ∧ ty ≠ "Int") then none
    else do
      let (iVid, boundVid, normalized) ←
        if left ∈ params then some (left, right, op)
        else if right ∈ params then some (right, left, mirroredOp op)
        else none
      if normalized ∉ ["<", "<="] then none
      else (constExprIntValue f boundVid).map fun b => (iVid, normalized, b)
  | _ => none

/-- The comparison the header branches on. A later match replaces an earlier one. -/
def findInductionCheck (f : Function) (params : List ValueId) (cond : ValueId) (is : List Inst) :
    Option (ValueId × String × Int) :=
  is.foldl (fun found i => (inductionCheckOf f params cond i).or found) none

/-- The first constant-step operator of the latch that defines a value. -/
def stepDef (is : List Inst) (vid : ValueId) : Option (String × ValueId × ValueId) :=
  is.findSome? fun
    | .binOp dest op left right _ =>
      if dest = vid ∧ op ∈ ["+", "wrapping_+", "-", "wrapping_-"] then some (op, left, right)
      else none
    | _ => none

/-- The predecessor and the step of a chain link. -/
def stepLink (f : Function) (op : String) (left right : ValueId) : Option (ValueId × Int) :=
  if op = "+" ∨ op = "wrapping_+" then
    match constExprIntValue f right with
    | some s => some (left, s)
    | none => (constExprIntValue f left).map fun s => (right, s)
  else do
    let step ← constExprIntValue f right
    let d ← checkedI64 (-step)
    some (left, d)

/-- The chain from the forwarded value back to the parameter. -/
def stepChain (f : Function) (latch : List Inst) (iVid : ValueId) :
    Nat → ValueId → List (ValueId × Int) → Option (List (ValueId × Int))
  | room, cursor, chain =>
    if cursor = iVid then some chain
    else
      match room with
      | 0 => none
      | room + 1 => do
        let (op, left, right) ← stepDef latch cursor
        let (prev, delta) ← stepLink f op left right
        stepChain f latch iVid room prev ((cursor, delta) :: chain)

/-- The arguments a block outside the loop enters the header with. -/
def entryArgs (header : BasicBlockId) : Terminator → Option (List ValueId)
  | .branch t args => if t = header then some args else none
  | .condBranch _ t ta e ea => if t = header then some ta else if e = header then some ea else none
  | _ => none

/-- The constant all blocks enter the header with, one after the other. -/
def entryStart (f : Function) (lp : NaturalLoop) (k : Nat) : List BasicBlock → Option Int → Option Int
  | [], start => start
  | b :: bs, start =>
    if b.id ∈ lp.blocks then entryStart f lp k bs start
    else
      match entryArgs lp.header b.terminator with
      | none => entryStart f lp k bs start
      | some args => do
        let arg ← args[k]?
        let s ← constExprIntValue f arg
        match start with
        | none => entryStart f lp k bs (some s)
        | some prev => if prev = s then entryStart f lp k bs (some prev) else none

/-- The steps of a chain, added up. -/
def chainExtreme : Int → List (ValueId × Int) → Option Int
  | running, [] => some running
  | running, (_, delta) :: chain => do
    let next ← checkedI64 (running + delta)
    chainExtreme next chain

/-- The value a single latch hands back. -/
def latchNext (f : Function) (lp : NaturalLoop) (k : Nat) : Option (BasicBlock × ValueId) :=
  match lp.backEdges with
  | [latchId] => do
    let latch ← f.getBlock latchId
    match latch.terminator with
    | .branch target args =>
      if target = lp.header then (args[k]?).map fun v => (latch, v) else none
    | _ => none
  | _ => none

/-- The last value of the parameter for which the body runs. -/
def bodyEdge (op : String) (bound : Int) : Option Int :=
  if op = "<" then checkedI64 (bound - 1) else some bound

/-- `induction_range`. -/
def inductionRange (f : Function) (lp : NaturalLoop) : Option ProvenInduction := do
  let header ← f.getBlock lp.header
  match header.terminator with
  | .condBranch cond _ _ _ _ =>
    let params := header.params.map (·.val)
    let (iVid, op, bound) ← findInductionCheck f params cond header.instructions
    let k := params.idxOf iVid
    let (latch, nextVid) ← latchNext f lp k
    let chain ← stepChain f latch.instructions iVid 8 nextVid []
    if chain = [] ∨ chain.any (·.2 ≤ 0) then none
    else
      let start ← entryStart f lp k f.blocks none
      let hi ← bodyEdge op bound
      if start > hi then none
      else
        let running ← chainExtreme hi chain
        some { vid := iVid, lo := start, hiEdge := running, blocks := lp.blocks
               headerId := lp.header }
  | _ => none

end Datara.Optimizer
