import Datara.Dmir.VerifierSound
import Datara.Library.Rounds
import Datara.Optimizer.OvfRange

/-!
# Range-guided overflow-check elision

The range fixpoint of `prove_body_arithmetic` in `optimizer/loops/ovf_delta.rs`, up to the marking of
`to_mark`. The ranges of the compared loop parameters are given (`inductions`); the states of the
other parameters are joined from the edges, those of the operators derived from their operands, and
both are swept until nothing changes. An operator inside such a loop whose range stays away from both
ends of `i64` is marked.

The source keeps the edges in a hash map. They are swept here in block order; what is proved of the
fixpoint does not depend on it.
-/

namespace Datara.Optimizer

open Dmir Library

/-- The operators whose result a range is derived for. -/
def rangeOps : List String := ["+", "-", "*", "wrapping_+", "wrapping_-", "&", "|", "^"]

/-- The operators a range is read back for. The source's entry for `wrapping_-` has a line break in
it, so a wrapping subtraction is not one of them. -/
def readableOps : List String := ["+", "-", "*", "wrapping_+", "&", "|", "^"]

/-- `const_ranges`. A later constant replaces an earlier one. -/
def constRange (f : Function) (v : ValueId) : Option Range :=
  (f.blocks.flatMap (·.instructions)).reverse.findSome? fun
    | .constInt dest value => if dest = v then some (.const value.toInt) else none
    | _ => none

/-- `analyzable`. -/
def analyzable (f : Function) (v : ValueId) : Bool :=
  (f.blocks.flatMap (·.instructions)).any fun
    | .binOp dest op _ _ ty => dest = v && ty = "Int" && op ∈ readableOps
    | .unOp dest op _ ty => dest = v && ty = "Int" && op = "copy"
    | _ => false

/-- `param_owner`. -/
def paramOwner (f : Function) (v : ValueId) : Option BasicBlockId :=
  f.blocks.reverse.findSome? fun b => if v ∈ b.params.map (·.val) then some b.id else none

/-- `proven_params`: the loop parameters with a proven range, and the function's parameters as
parameters of the entry block. A later loop replaces an earlier one. -/
def provenParam (f : Function) (inductions : List ProvenInduction) (b : BasicBlockId) (v : ValueId) :
    Option Range :=
  match inductions.reverse.find? fun pi => pi.headerId = b ∧ pi.vid = v with
  | some pi => some ⟨pi.lo, pi.hiEdge⟩
  | none =>
    if b = f.entryBlock ∧ v ∈ f.params.map (·.val) ∧
        ((f.blocks.find? (·.id = f.entryBlock)).any fun e => v ∈ e.params.map (·.val)) then
      some .full
    else none

/-- The state of the fixpoint: what was derived for an instruction or a parameter, and how often it
changed. -/
structure Ranges where
  inst : ValueId → Option RState
  instCount : ValueId → Nat
  param : BasicBlockId × ValueId → Option RState
  paramCount : BasicBlockId × ValueId → Nat

def Ranges.empty : Ranges := ⟨fun _ => none, fun _ => 0, fun _ => none, fun _ => 0⟩

/-- `range_of`. -/
def Ranges.rangeOf (R : Ranges) (f : Function) (inductions : List ProvenInduction) (v : ValueId) :
    RState :=
  match constRange f v with
  | some r => .known r
  | none =>
    match paramOwner f v with
    | some owner =>
      match provenParam f inductions owner v with
      | some r => .known r
      | none => (R.param (owner, v)).getD .bot
    | none => if analyzable f v then (R.inst v).getD .bot else .top

/-- An edge's argument for a parameter, or an instruction. -/
inductive RangeItem
  | edge (target : BasicBlockId) (param arg : ValueId)
  | inst (i : Inst)
  deriving Repr

/-- The state of an operator, from the states of its operands. -/
def opState (op : String) : RState → RState → RState
  | .known r, .known s => .known (.ofOp op r s)
  | .top, _ | _, .top => .top
  | _, _ => .bot

/-- The state an instruction is derived to have. -/
def Ranges.derived (R : Ranges) (f : Function) (inductions : List ProvenInduction) :
    Inst → Option (ValueId × RState)
  | .binOp dest op left right ty =>
    if ty = "Int" ∧ op ∈ rangeOps then
      some (dest, opState op (R.rangeOf f inductions left) (R.rangeOf f inductions right))
    else none
  | .unOp dest op operand ty =>
    if ty = "Int" ∧ op = "copy" then some (dest, R.rangeOf f inductions operand) else none
  | _ => none

/-- Join a state into what a parameter has. -/
def Ranges.joinParam (R : Ranges) (key : BasicBlockId × ValueId) (s : RState) : Option Ranges :=
  match R.param key with
  | none => some { R with param := Function.update R.param key (some s) }
  | some old => (joinState (R.paramCount key) old s).map fun c =>
      { R with param := Function.update R.param key (some c.2)
               paramCount := Function.update R.paramCount key c.1 }

/-- Join a state into what an instruction has. -/
def Ranges.joinInst (R : Ranges) (dest : ValueId) (s : RState) : Option Ranges :=
  match R.inst dest with
  | none => some { R with inst := Function.update R.inst dest (some s) }
  | some old => (joinState (R.instCount dest) old s).map fun c =>
      { R with inst := Function.update R.inst dest (some c.2)
               instCount := Function.update R.instCount dest c.1 }

/-- What an item changes. -/
def Ranges.step (f : Function) (inductions : List ProvenInduction) (R : Ranges) :
    RangeItem → Option Ranges
  | .edge target param arg =>
    if (provenParam f inductions target param).isSome then none
    else R.joinParam (target, param) (R.rangeOf f inductions arg)
  | .inst i =>
    match R.derived f inductions i with
    | some (dest, s) => R.joinInst dest s
    | none => none

/-- What a round sweeps: the edges, then the instructions. -/
def rangeItems (f : Function) : List RangeItem :=
  (f.blocks.flatMap fun b => b.terminator.edges.flatMap fun e =>
    match f.getBlock e.1 with
    | some target => ((target.params.map (·.val)).zip e.2).map fun x => .edge e.1 x.1 x.2
    | none => []) ++
  f.blocks.flatMap fun b => b.instructions.map .inst

/-- The converged states. After 256 rounds the source gives up. -/
def fixpoint (f : Function) (inductions : List ProvenInduction) : Option Ranges :=
  rounds (Ranges.step f inductions) (rangeItems f) 256 .empty

/-- A range away from both ends of `i64`. -/
def Range.fits (r : Range) : Bool := IntTy.int.lo < r.lo && r.hi < IntTy.int.hi

/-- An operator of one of the loops, and its range. -/
def Ranges.marks (R : Ranges) : Inst → Option ValueId
  | .binOp dest op _ _ ty =>
    if ty = "Int" ∧ op ∈ rangeOps then
      match R.inst dest with
      | some (.known r) => if r.fits then some dest else none
      | _ => none
    else none
  | _ => none

/-- `prove_body_arithmetic`, the marks from the range fixpoint. -/
def proveBodyArithmetic (f : Function) (loops : List NaturalLoop) : List ValueId :=
  let inductions := loops.filterMap (inductionRange f)
  if inductions = [] then []
  else
    match fixpoint f inductions with
    | none => []
    | some R =>
      (f.blocks.filter fun b => inductions.any fun pi => b.id ∈ pi.blocks).flatMap fun b =>
        b.instructions.filterMap R.marks

/-!
## The delta of an accumulator's arm

`resolve_arm_delta` of `optimizer/loops/ovf_delta.rs`: how far the value that a latch hands back to a
loop's parameter can be from the parameter, as an interval. An arm is the parameter itself, a sum
`param ± term` with a term of known range, a parameter of a join, whose delta is the hull of its edges',
or a parameter of an inner loop, whose delta is that of its entry and the one registered for a whole run
of that loop.

The tables are the source's hash maps. Deltas are `i64`: a registered sum is clamped, and a negated end
of a range wraps.
-/

/-- `AccDelta`. -/
structure AccDelta where
  dlo : Int
  dhi : Int
  links : List ValueId
  blocks : List BasicBlockId
  deriving DecidableEq, Repr

/-- What a call of `resolve_arm_delta` is given besides the function, the value and the parameter. -/
structure ArmTables where
  curHeader : BasicBlockId
  piBlocks : List BasicBlockId
  paramOwner : ValueId → Option BasicBlockId
  allLoopHeaders : List BasicBlockId
  registry : BasicBlockId → ValueId → Option AccDelta
  provenParams : BasicBlockId → ValueId → Option Range
  constRanges : ValueId → Option Range
  instRanges : ValueId → Option Range

/-- The tables `prove_body_arithmetic` has, for the loop of one of its inductions. -/
def armTables (f : Function) (inductions : List ProvenInduction) (pi : ProvenInduction)
    (registry : BasicBlockId → ValueId → Option AccDelta) (instRanges : ValueId → Option Range) :
    ArmTables where
  curHeader := pi.headerId
  piBlocks := pi.blocks
  paramOwner := paramOwner f
  allLoopHeaders := inductions.map (·.headerId)
  registry := registry
  provenParams := provenParam f inductions
  constRanges := constRange f
  instRanges := instRanges

/-- The range of a term. -/
def ArmTables.termRange (T : ArmTables) (term : ValueId) : Option Range :=
  (T.instRanges term).or ((T.constRanges term).or
    ((T.paramOwner term).bind fun own => T.provenParams own term))

/-- The edges of a terminator to a block that `incoming_edges` lists: one, when both go there. -/
def edgesTo (target : BasicBlockId) (t : Terminator) : List (List ValueId) :=
  match t with
  | .branch t args => if t = target then [args] else []
  | .condBranch _ thenBlock thenArgs elseBlock elseArgs =>
    (if thenBlock = target then [thenArgs] else []) ++
      if elseBlock = target ∧ elseBlock ≠ thenBlock then [elseArgs] else []
  | .ret _ | .unreachable => []

/-- `incoming_edges`. -/
def incomingEdges (f : Function) (target : BasicBlockId) : List (BasicBlockId × List ValueId) :=
  f.blocks.flatMap fun b => (edgesTo target b.terminator).map fun args => (b.id, args)

/-- A resolved delta, with the links it is a sum of. -/
structure ArmDelta where
  lo : Int
  hi : Int
  links : List ValueId
  deriving DecidableEq, Repr

/-- The join of some edges' deltas: `jlo`, `jhi`, `links` and `any`. -/
structure ArmJoin extends ArmDelta where
  any : Bool
  deriving DecidableEq, Repr

def ArmJoin.start (links : List ValueId) : ArmJoin := ⟨⟨IntTy.int.hi, IntTy.int.lo, links⟩, false⟩

def ArmJoin.add (j : ArmJoin) (d : ArmDelta) : ArmJoin :=
  ⟨⟨min j.lo d.lo, max j.hi d.hi, j.links ++ d.links⟩, true⟩

/-- The join over the edges, less those from the blocks in `skip`. An edge from outside the analyzed
loop is not resolved. -/
def joinEdges (T : ArmTables) (resolve : ValueId → Option ArmDelta) (skip : List BasicBlockId)
    (idx : Nat) : ArmJoin → List (BasicBlockId × List ValueId) → Option ArmJoin
  | j, [] => some j
  | j, (src, args) :: es =>
    if src ∈ skip then joinEdges T resolve skip idx j es
    else if src ∉ T.piBlocks then none
    else
      match args[idx]? with
      | none => joinEdges T resolve skip idx j es
      | some a => (resolve a).bind fun d => joinEdges T resolve skip idx (j.add d) es

/-- The term of a `param ± term` that defines the value, and whether it is subtracted. -/
def armLink (param val : ValueId) : Inst → Option (ValueId × Bool)
  | .binOp dest op left right ty =>
    if ty = "Int" ∧ dest = val ∧ (op = "+" ∨ op = "-") then
      if left = param then some (right, op = "-")
      else if right = param ∧ op = "+" then some (left, false)
      else none
    else none
  | _ => none

/-- Whether a term with this range is added or subtracted. -/
def Range.linked (r : Range) (subtracted : Bool) : Int × Int :=
  if subtracted then (IntTy.int.wrap (-r.hi), IntTy.int.wrap (-r.lo)) else (r.lo, r.hi)

/-- The first such sum of the analyzed loop. -/
def findLink (f : Function) (T : ArmTables) (param val : ValueId) : Option (ValueId × Bool) :=
  ((f.blocks.filter (·.id ∈ T.piBlocks)).flatMap (·.instructions)).findSome? (armLink param val)

/-- The delta of a sum. -/
def linkDelta (f : Function) (T : ArmTables) (param val : ValueId) : Option ArmDelta :=
  (findLink f T param val).bind fun link =>
    (T.termRange link.1).map fun r => ⟨(r.linked link.2).1, (r.linked link.2).2, [val]⟩

/-- The position of a parameter among those of its block. -/
def paramPosition (f : Function) (owner : BasicBlockId) (val : ValueId) : Option Nat :=
  (f.getBlock owner).bind fun b =>
    let params := b.params.map (·.val)
    if val ∈ params then some (params.idxOf val) else none

/-- The delta of a parameter of a block other than the loop's header. -/
def paramDelta (f : Function) (T : ArmTables) (resolve : ValueId → Option ArmDelta)
    (owner : BasicBlockId) (val : ValueId) : Option ArmDelta :=
  if owner ∉ T.piBlocks then none
  else
    (paramPosition f owner val).bind fun idx =>
      if owner ∈ T.allLoopHeaders then
        if owner = T.curHeader then none
        else
          (T.registry owner val).bind fun d =>
            (joinEdges T resolve d.blocks idx (.start d.links) (incomingEdges f owner)).bind fun j =>
              if j.any then
                some ⟨IntTy.int.clamp (j.lo + d.dlo), IntTy.int.clamp (j.hi + d.dhi), j.links⟩
              else none
      else
        (joinEdges T resolve [] idx (.start []) (incomingEdges f owner)).bind fun j =>
          if j.any then some j.toArmDelta else none

/-- `resolve_arm_delta`, at a depth that leaves this many. -/
def resolveArmDepth (f : Function) (T : ArmTables) (param : ValueId) : Nat → ValueId → Option ArmDelta
  | 0, _ => none
  | n + 1, val =>
    if val = param then some ⟨0, 0, []⟩
    else
      match T.paramOwner val with
      | some owner => paramDelta f T (resolveArmDepth f T param n) owner val
      | none => linkDelta f T param val

/-- `resolve_arm_delta`: depths `0` to `MAX_DEPTH = 6` are resolved. -/
def resolveArmDelta (f : Function) (T : ArmTables) (param val : ValueId) : Option ArmDelta :=
  resolveArmDepth f T param 7 val

end Datara.Optimizer
