import Datara.Optimizer.Dce

/-!
# If-conversion

`Optimizer::convert_branches_to_select` of `optimizer/mod.rs`. The first diamond of the function,
two short arms of pure instructions between a conditional branch and a common merge block, is
collapsed: both arms are appended to the head, a `Select` picks each merge argument that differs, and
the arms are removed. `may_trap` is the only thing that keeps a fault of the arm not taken away.
-/

namespace Datara.Optimizer

open Dmir

/-- A diamond: the position of the head, the arms, the merge block and the condition. -/
structure Diamond where
  headPos : Nat
  thenId : BasicBlockId
  elseId : BasicBlockId
  merge : BasicBlockId
  cond : ValueId
  deriving DecidableEq, Repr

/-- The number of edges into a block. -/
def predCount (f : Function) (id : BasicBlockId) : Nat :=
  (f.blocks.flatMap fun b => b.terminator.targets).count id

theorem eq_of_predCount {f : Function} {id : BasicBlockId} (h : predCount f id ≤ 1) {b c : BasicBlock}
    (hb : b ∈ f.blocks) (hc : c ∈ f.blocks) (hbt : id ∈ b.terminator.targets) (hct : id ∈ c.terminator.targets) :
    b = c := by
  unfold predCount at h
  generalize f.blocks = bs at h hb hc
  induction bs with
  | nil => cases hb
  | cons x bs ih =>
    rw [List.flatMap_cons, List.count_append] at h
    have pos : ∀ y ∈ bs, id ∈ y.terminator.targets → 0 < (bs.flatMap fun b => b.terminator.targets).count id :=
      fun y hy hyt => List.count_pos_iff.mpr (List.mem_flatMap.mpr ⟨y, hy, hyt⟩)
    have posx : id ∈ x.terminator.targets → 0 < x.terminator.targets.count id := List.count_pos_iff.mpr
    cases List.mem_cons.mp hb with
    | inl hbx =>
      cases List.mem_cons.mp hc with
      | inl hcx => rw [hbx, hcx]
      | inr hc =>
        have := pos c hc hct
        have := posx (hbx ▸ hbt)
        omega
    | inr hb =>
      cases List.mem_cons.mp hc with
      | inl hcx =>
        have := pos b hb hbt
        have := posx (hcx ▸ hct)
        omega
      | inr hc => exact ih (by omega) hb hc

/-- The instructions an arm may have. -/
def isArmPure : Inst → Bool
  | .constInt _ _ | .constFloat _ _ | .constBool _ _ | .constStr _ _ | .binOp _ _ _ _ _
  | .unOp _ _ _ _ | .select _ _ _ _ _ => true
  | _ => false

/-- A block that can be an arm: no parameters, at most four instructions, and a plain branch, which
is returned. -/
def armBranch (f : Function) (id : BasicBlockId) :
    Option (BasicBlock × BasicBlockId × List ValueId) :=
  match f.blocks.find? (·.id = id) with
  | some b =>
    if b.params = [] ∧ b.instructions.length ≤ 4 then
      match b.terminator with
      | .branch target args => some (b, target, args)
      | _ => none
    else none
  | none => none

/-- The diamond below the block at a position, if there is one. -/
def diamondAt (f : Function) (b : BasicBlock × Nat) : Option Diamond :=
  match b.1.terminator with
  | .condBranch cond thenId thenArgs elseId elseArgs =>
    if thenArgs ≠ [] ∨ elseArgs ≠ [] ∨ thenId = elseId then none
    else if predCount f thenId ≠ 1 ∨ predCount f elseId ≠ 1 then none
    else do
      let (thenB, thenTarget, thenBranchArgs) ← armBranch f thenId
      let (elseB, elseTarget, elseBranchArgs) ← armBranch f elseId
      if thenTarget ≠ elseTarget ∨ thenBranchArgs.length ≠ elseBranchArgs.length then none
      else if ¬(thenB.instructions.all isArmPure && elseB.instructions.all isArmPure) then none
      else if thenB.instructions.any mayTrap || elseB.instructions.any mayTrap then none
      else some { headPos := b.2, thenId, elseId, merge := thenTarget, cond }
  | _ => none

/-- The first diamond. -/
def findDiamond (f : Function) : Option Diamond := f.blocks.zipIdx.findSome? (diamondAt f)

/-- The type an instruction gives its result, as far as the pass tracks it. -/
def trackTy (valTy : ValueId → Option String) : Inst → ValueId → Option String
  | .constInt d _ => Function.update valTy d (some "Int")
  | .constFloat d _ => Function.update valTy d (some "Float")
  | .constBool d _ => Function.update valTy d (some "Bool")
  | .constStr d _ => Function.update valTy d (some "String")
  | .binOp d _ _ _ ty | .getField d _ _ ty => Function.update valTy d (some ty)
  | .unOp d op o _ =>
    if op = "copy" then
      match valTy o with
      | some ty => Function.update valTy d (some ty)
      | none => valTy
    else valTy
  | _ => valTy

/-- The types known at the end of the head and of the arms. -/
def diamondTypes (f : Function) (head thenB elseB : BasicBlock) : ValueId → Option String :=
  let params : ValueId → Option String := f.params.foldl
    (fun m p => if p.ty = "" then m else Function.update m p.val (some p.ty)) fun _ => none
  (head.instructions ++ thenB.instructions ++ elseB.instructions).foldl trackTy params

/-- The type of the `Select` for a pair of merge arguments: `none` refuses the conversion, and
`some none` says that no `Select` is needed. -/
def selectTy (valTy : ValueId → Option String) (mergeB : Option BasicBlock)
    (pair : (ValueId × ValueId) × Nat) : Option (Option String) :=
  if pair.1.1 = pair.1.2 then some none
  else
    let targetParamTy := ((mergeB.bind (·.params[pair.2]?)).map (·.ty)).filter (· ≠ "")
    let ty := match valTy pair.1.1, valTy pair.1.2 with
      | some t, some e => if t = e then some t else targetParamTy
      | _, _ => targetParamTy
    ty.map some

/-- The `Select`s and the merged arguments, with fresh results from `maxId + 1` on. -/
def mergeArgs (cond : ValueId) : Nat → List ((ValueId × ValueId) × Option String) →
    List Inst × List ValueId
  | _, [] => ([], [])
  | maxId, ((t, e), ty) :: rest =>
    if t = e then
      let (is, args) := mergeArgs cond maxId rest
      (is, t :: args)
    else
      match ty with
      | some ty =>
        let (is, args) := mergeArgs cond (maxId + 1) rest
        (.select (maxId + 1) cond t e ty :: is, (maxId + 1) :: args)
      | none => mergeArgs cond maxId rest

/-- The function without the arms, the head replaced. -/
def collapse (f : Function) (headPos thenPos elsePos : Nat) (head : BasicBlock) : Function :=
  let blocks := f.blocks.set headPos head
  { f with blocks := (blocks.eraseIdx (max thenPos elsePos)).eraseIdx (min thenPos elsePos) }

/-- `Optimizer::convert_branches_to_select`: the function, and whether it changed. -/
def convertBranchesToSelect (f : Function) : Function × Bool :=
  if f.blocks.length ≤ 2 then (f, false)
  else
    match findDiamond f with
    | none => (f, false)
    | some D =>
      match f.blocks[D.headPos]?, armBranch f D.thenId, armBranch f D.elseId with
      | some head, some (thenB, _, thenArgs), some (elseB, _, elseArgs) =>
        -- a diamond that merges into itself is a loop
        if D.merge = head.id ∨ D.merge = D.thenId ∨ D.merge = D.elseId then (f, false)
        else
          let valTy := diamondTypes f head thenB elseB
          let mergeB := f.blocks.find? (·.id = D.merge)
          match (thenArgs.zip elseArgs).zipIdx.mapM (selectTy valTy mergeB) with
          | none => (f, false)
          | some selTypes =>
            let (selects, mergedArgs) :=
              mergeArgs D.cond f.maxValueId ((thenArgs.zip elseArgs).zip selTypes)
            let head' := { head with
              instructions :=
                head.instructions ++ thenB.instructions ++ elseB.instructions ++ selects
              terminator := .branch D.merge mergedArgs }
            (collapse f D.headPos (f.blocks.findIdx (·.id = D.thenId))
              (f.blocks.findIdx (·.id = D.elseId)) head', true)
      | _, _, _ => (f, false)

end Datara.Optimizer
