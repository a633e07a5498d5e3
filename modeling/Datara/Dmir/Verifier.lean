import Datara.Dmir.Cfg

/-!
# The verifier

`dmir/verifier.rs`: unique block ids, an entry block, every value defined once, every use after its
definition in the same block or in a block the defining block dominates, and as many edge arguments
as the target has parameters.

`verifyFunction_ok_iff` says what acceptance amounts to, with the errors and their order out of the
way. `Accepts` is what the passes assume of their input.
-/

namespace Datara.Dmir

open Library

/-- Why verification did not accept: it was still running, or it returned `Err`. -/
inductive VerifyStop
  | running
  | failed (message : String)
  deriving DecidableEq, Repr

abbrev Verify := Except VerifyStop

def Verify.fail {α : Type} (message : String) : Verify α := .error (.failed message)

/-- A loop that ran out of fuel. -/
def Verify.ofFuel {α : Type} : Option α → Verify α
  | none => .error .running
  | some a => .ok a

/-- A definition position: the block, and the instruction's index or `none` for a parameter. -/
abbrev DefSite := BasicBlockId × Option Nat

/-- `instruction_dest`. -/
def instructionDest : Inst → Option ValueId
  | .constInt d _ | .constFloat d _ | .constStr d _ | .constBool d _ | .loadVar d _
  | .binOp d _ _ _ _ | .unOp d _ _ _ | .cast d _ _ _ | .call d _ _ _ | .methodCall d _ _ _ _
  | .structInit d _ _ | .getField d _ _ _ | .formatStr d _ _ _ | .getFuncAddr d _
  | .select d _ _ _ _ | .volatileLoad d _ _ | .decide d _ _ _ => some d
  | .inlineAsm _ outs _ _ _ => (outs.map Prod.snd).head?
  | .assignVar _ _ | .setField _ _ _ | .out _ _ | .err _ | .whileLoop _ _ _ | .ret _
  | .volatileStore _ _ _ => none

/-- All values an instruction defines: an `InlineAsm` defines its outputs. -/
def Inst.dests : Inst → List ValueId
  | .inlineAsm _ outs _ _ _ => outs.map Prod.snd
  | i => (instructionDest i).toList

mutual

/-- `instruction_uses`. -/
def instructionUses : Inst → List ValueId
  | .constInt _ _ | .constFloat _ _ | .constStr _ _ | .constBool _ _ | .getFuncAddr _ _
  | .loadVar _ _ => []
  | .inlineAsm _ _ ins _ _ => ins.map Prod.snd
  | .assignVar _ v | .out v _ | .err v => [v]
  | .ret v => v.toList
  | .binOp _ _ l r _ => [l, r]
  | .unOp _ _ o _ => [o]
  | .cast _ v _ _ => [v]
  | .call _ _ args _ => args
  | .methodCall _ o _ args _ => o :: args
  | .structInit _ _ fs => fs.map Prod.snd
  | .getField _ o _ _ => [o]
  | .setField o _ v => [o, v]
  | .volatileLoad _ a _ => [a]
  | .volatileStore a v _ => [a, v]
  | .formatStr _ _ vs _ => vs
  | .select _ c t e _ => [c, t, e]
  | .decide _ arms ev _ => arms.flatMap (fun a => [a.1, a.2]) ++ ev.toList
  | .whileLoop ci cv bi => nestedUses ci ++ nestedUses bi ++ [cv]

/-- `instructionUses` along a nested instruction list. -/
def nestedUses : List Inst → List ValueId
  | [] => []
  | i :: is => instructionUses i ++ nestedUses is

end

/-- The definitions of a block's instructions, the first of them at index `k`. -/
def instDefs (b : BasicBlockId) : Nat → List Inst → List (ValueId × DefSite × String)
  | _, [] => []
  | k, i :: is =>
    i.dests.map (fun d => (d, (b, some k), "instruction result")) ++ instDefs b (k + 1) is

/-- A parameter of the entry block that mirrors a function parameter is not a second definition. -/
def Function.mirrors (f : Function) (b : BasicBlock) (p : BlockParam) : Bool :=
  b.id = f.entryBlock && p.val ∈ f.params.map (·.val)

/-- The definitions of a block. -/
def Function.blockDefs (f : Function) (b : BasicBlock) : List (ValueId × DefSite × String) :=
  (b.params.filter (fun p => !f.mirrors b p)).map
      (fun p => (p.val, (b.id, none), "block parameter")) ++
    instDefs b.id 0 b.instructions

/-- The definitions of a function, in the order the verifier makes them. -/
def Function.defs (f : Function) : List (ValueId × DefSite × String) :=
  f.params.map (fun p => (p.val, (f.entryBlock, none), "function parameter")) ++
    f.blocks.flatMap f.blockDefs

/-- `define_value`, along a list. -/
def defineAll : List (ValueId × DefSite × String) → (ValueId → Option DefSite) →
    Verify (ValueId → Option DefSite)
  | [], m => .ok m
  | (v, site, kind) :: rest, m =>
    if (m v).isSome then .fail s!"value {v} defined more than once ({kind} redefinition)"
    else defineAll rest (Function.update m v (some site))

/-- A use at an index of the defining block comes after the definition. The index `none` is the
end of the block. -/
def usable : Option Nat → Option Nat → Bool
  | none, _ => true
  | some d, some u => d < u
  | some _, none => true

/-- `check_use`. -/
def checkUse (n : Nat) (definitions : ValueId → Option DefSite) (idom : Cfg.Idom)
    (block : BasicBlockId) (index : Option Nat) (value : ValueId) : Verify Unit :=
  match definitions value with
  | none => .fail s!"use of undefined value {value}"
  | some (defBlock, defIndex) =>
    if defBlock = block then
      if usable defIndex index then .ok ()
      else .fail s!"value {value} used in block {block} before its definition in the same block"
    else
      match Cfg.dominates n idom defBlock block with
      | none => .error .running
      | some true => .ok ()
      | some false => .fail s!"value {value} used in block {block} before its definition dominates it"

/-- The parameter count of a branch target. -/
def Function.paramCount (f : Function) (target : BasicBlockId) : Verify Nat :=
  match f.getBlock target with
  | some b => .ok b.params.length
  | none => .fail s!"branch targets missing block {target}"

/-- One edge of `check_edge_arity`. -/
def checkArity (edge : String) (target : BasicBlockId) (supplied expected : Nat) : Verify Unit :=
  if supplied ≠ expected then
    .fail s!"{edge} to block {target} supplies {supplied} arguments but target declares {expected} parameters"
  else .ok ()

/-- `check_edge_arity`. -/
def checkEdgeArity (f : Function) : Terminator → Verify Unit
  | .branch t args => do
    let expected ← f.paramCount t
    checkArity "branch" t args.length expected
  | .condBranch _ t ta e ea => do
    let thenExpected ← f.paramCount t
    let elseExpected ← f.paramCount e
    checkArity "then-edge" t ta.length thenExpected
    checkArity "else-edge" e ea.length elseExpected
  | .ret _ | .unreachable => .ok ()

/-- The uses and edges of one block. `terminator_uses` lists what `Terminator.vids` does. -/
def verifyBlock (n : Nat) (f : Function) (definitions : ValueId → Option DefSite)
    (idom : Cfg.Idom) (b : BasicBlock) : Verify Unit := do
  b.instructions.zipIdx.forM fun ik =>
    (instructionUses ik.1).forM (checkUse n definitions idom b.id (some ik.2))
  b.terminator.vids.forM (checkUse n definitions idom b.id none)
  checkEdgeArity f b.terminator

/-- `verify_function`. -/
def verifyFunction (n : Nat) (f : Function) : Verify Unit :=
  if ¬(f.blocks.map (·.id)).Nodup then .fail "duplicate basic-block id"
  else if f.entryBlock ∉ f.blocks.map (·.id) then
    .fail s!"entry block bb{f.entryBlock} does not exist"
  else do
    let definitions ← defineAll f.defs fun _ => none
    let idom ← Verify.ofFuel (Cfg.computeDominance n f)
    f.blocks.forM (verifyBlock n f definitions idom)

/-- The verifier accepts a function: it returns `Ok`. -/
def Accepts (f : Function) : Prop := ∃ n, verifyFunction n f = .ok ()

/-! ## What acceptance amounts to -/

theorem forM_ok_iff {α ε : Type} {l : List α} {g : α → Except ε Unit} :
    l.forM g = .ok () ↔ ∀ x ∈ l, g x = .ok () := by
  induction l with
  | nil => exact ⟨fun _ x hx => (List.not_mem_nil hx).elim, fun _ => rfl⟩
  | cons a l ih =>
    rw [List.forall_mem_cons, ← ih, List.forM]
    cases g a <;> simp [bind, Except.bind]

theorem bind_ok_iff {α β ε : Type} {x : Except ε α} {g : α → Except ε β} {b : β} :
    x >>= g = .ok b ↔ ∃ a, x = .ok a ∧ g a = .ok b := by
  cases x <;> simp [bind, Except.bind]

theorem seq_ok_iff {β ε : Type} {x : Except ε Unit} {y : Except ε β} {b : β} :
    (x >>= fun _ => y) = .ok b ↔ x = .ok () ∧ y = .ok b := by
  cases x <;> simp [bind, Except.bind]

theorem ofFuel_ok_iff {α : Type} {x : Option α} {a : α} : Verify.ofFuel x = .ok a ↔ x = some a := by
  cases x <;> simp [Verify.ofFuel]

/-- The first entry of a list of definitions under a value. -/
def firstSite (l : List (ValueId × DefSite × String)) (v : ValueId) : Option DefSite :=
  (l.find? (·.1 = v)).map (·.2.1)

theorem firstSite_eq_none {l : List (ValueId × DefSite × String)} {v : ValueId}
    (h : v ∉ l.map (·.1)) : firstSite l v = none := by
  rw [firstSite, Option.map_eq_none_iff, List.find?_eq_none]
  intro x hx he
  exact h (List.mem_map.mpr ⟨x, hx, of_decide_eq_true he⟩)

theorem defineAll_ok_iff {l : List (ValueId × DefSite × String)} {m m' : ValueId → Option DefSite} :
    defineAll l m = .ok m' ↔
      ((l.map (·.1)).Nodup ∧ ∀ v ∈ l.map (·.1), m v = none) ∧
        m' = fun v => (firstSite l v).or (m v) := by
  induction l generalizing m with
  | nil => simp [defineAll, firstSite, eq_comm]
  | cons x l ih =>
    obtain ⟨v, site, kind⟩ := x
    have hcons : ∀ u, firstSite ((v, site, kind) :: l) u =
        if v = u then some site else firstSite l u := by
      intro u
      by_cases hvu : v = u <;> simp [firstSite, hvu]
    have hfun : v ∉ l.map (·.1) →
        (fun u => (firstSite l u).or (Function.update m v (some site) u)) =
          fun u => (firstSite ((v, site, kind) :: l) u).or (m u) := by
      intro hnot
      funext u
      rw [hcons]
      by_cases hvu : v = u
      · subst hvu
        rw [if_pos rfl, firstSite_eq_none hnot, Function.update_self]; rfl
      · rw [if_neg hvu, Function.update_of_ne (Ne.symm hvu)]
    simp only [defineAll, List.map_cons, List.nodup_cons, List.forall_mem_cons]
    by_cases hv : (m v).isSome
    · have : m v ≠ none := Option.isSome_iff_ne_none.mp hv
      simp [hv, Verify.fail, this]
    · have hv' : m v = none := Option.not_isSome_iff_eq_none.mp hv
      rw [if_neg hv, ih]
      constructor
      · rintro ⟨⟨hnd, hnone⟩, rfl⟩
        have hnot : v ∉ l.map (·.1) := fun hm => by
          have := hnone v hm
          rw [Function.update_self] at this
          cases this
        refine ⟨⟨⟨hnot, hnd⟩, hv', fun u hu => ?_⟩, hfun hnot⟩
        have := hnone u hu
        rwa [Function.update_of_ne (ne_of_mem_of_not_mem hu hnot)] at this
      · rintro ⟨⟨⟨hnot, hnd⟩, _, hnone⟩, rfl⟩
        refine ⟨⟨hnd, fun u hu => ?_⟩, (hfun hnot).symm⟩
        rw [Function.update_of_ne (ne_of_mem_of_not_mem hu hnot)]
        exact hnone u hu

/-- Where a value is defined. -/
def Function.site (f : Function) : ValueId → Option DefSite := firstSite f.defs

/-- A use that `check_use` accepts. -/
def UseOk (n : Nat) (f : Function) (idom : Cfg.Idom) (block : BasicBlockId) (index : Option Nat)
    (v : ValueId) : Prop :=
  ∃ defBlock defIndex, f.site v = some (defBlock, defIndex) ∧
    (defBlock = block ∧ usable defIndex index ∨
      defBlock ≠ block ∧ Cfg.dominates n idom defBlock block = some true)

/-- The edges of a terminator go to blocks, with an argument for each parameter. -/
def EdgesOk (f : Function) : Terminator → Prop
  | .branch t args => ∃ b, f.getBlock t = some b ∧ args.length = b.params.length
  | .condBranch _ t ta e ea =>
    (∃ b, f.getBlock t = some b ∧ ta.length = b.params.length) ∧
      ∃ b, f.getBlock e = some b ∧ ea.length = b.params.length
  | .ret _ | .unreachable => True

/-- What the verifier checks of a block. -/
structure BlockOk (n : Nat) (f : Function) (idom : Cfg.Idom) (b : BasicBlock) : Prop where
  uses : ∀ k i, b.instructions[k]? = some i → ∀ v ∈ instructionUses i, UseOk n f idom b.id (some k) v
  termUses : ∀ v ∈ b.terminator.vids, UseOk n f idom b.id none v
  edges : EdgesOk f b.terminator

variable {f : Function} {n : Nat}

theorem checkUse_ok_iff {idom : Cfg.Idom} {block : BasicBlockId}
    {index : Option Nat} {v : ValueId} :
    checkUse n f.site idom block index v = .ok () ↔ UseOk n f idom block index v := by
  unfold checkUse UseOk
  cases hs : f.site v with
  | none => simp [Verify.fail]
  | some site =>
    obtain ⟨defBlock, defIndex⟩ := site
    simp only [Option.some.injEq, Prod.mk.injEq]
    by_cases hb : defBlock = block
    · subst hb
      cases hu : usable defIndex index <;> simp [hu, Verify.fail]
    · rw [if_neg hb]
      cases hd : Cfg.dominates n idom defBlock block with
      | none => simp [hb, hd]
      | some d => cases d <;> simp [hb, hd, Verify.fail]

theorem paramCount_ok_iff {t : BasicBlockId} {k : Nat} :
    f.paramCount t = .ok k ↔ ∃ b, f.getBlock t = some b ∧ k = b.params.length := by
  unfold Function.paramCount
  cases f.getBlock t <;> simp [Verify.fail, eq_comm]

theorem checkArity_ok_iff {edge : String} {t : BasicBlockId} {supplied expected : Nat} :
    checkArity edge t supplied expected = .ok () ↔ supplied = expected := by
  unfold checkArity
  split_ifs with h <;> simp_all [Verify.fail]

theorem checkEdgeArity_ok_iff {t : Terminator} : checkEdgeArity f t = .ok () ↔ EdgesOk f t := by
  cases t with
  | branch t args =>
    simp only [checkEdgeArity, EdgesOk, bind_ok_iff, paramCount_ok_iff, checkArity_ok_iff]
    constructor
    · rintro ⟨_, ⟨b, hb, rfl⟩, h⟩; exact ⟨b, hb, h⟩
    · rintro ⟨b, hb, h⟩; exact ⟨_, ⟨b, hb, rfl⟩, h⟩
  | condBranch c t ta e ea =>
    simp only [checkEdgeArity, EdgesOk, seq_ok_iff, bind_ok_iff (α := Nat), paramCount_ok_iff,
      checkArity_ok_iff]
    constructor
    · rintro ⟨_, ⟨b, hb, rfl⟩, _, ⟨b', hb', rfl⟩, h, h'⟩; exact ⟨⟨b, hb, h⟩, b', hb', h'⟩
    · rintro ⟨⟨b, hb, h⟩, b', hb', h'⟩; exact ⟨_, ⟨b, hb, rfl⟩, _, ⟨b', hb', rfl⟩, h, h'⟩
  | _ => simp [checkEdgeArity, EdgesOk]

theorem verifyBlock_ok_iff {idom : Cfg.Idom} {b : BasicBlock} :
    verifyBlock n f f.site idom b = .ok () ↔ BlockOk n f idom b := by
  simp only [verifyBlock, seq_ok_iff, forM_ok_iff, checkUse_ok_iff, checkEdgeArity_ok_iff]
  constructor
  · rintro ⟨hu, ht, he⟩
    refine ⟨fun k i hi => ?_, ht, he⟩
    exact hu (i, k) (List.mk_mem_zipIdx_iff_getElem?.mpr hi)
  · rintro ⟨hu, ht, he⟩
    exact ⟨fun ⟨i, k⟩ hik => hu k i (List.mk_mem_zipIdx_iff_getElem?.mp hik), ht, he⟩

/-- **What `verify_function` accepts.** -/
theorem verifyFunction_ok_iff :
    verifyFunction n f = .ok () ↔
      (f.blocks.map (·.id)).Nodup ∧ f.entryBlock ∈ f.blocks.map (·.id) ∧
        (f.defs.map (·.1)).Nodup ∧
        ∃ idom, Cfg.computeDominance n f = some idom ∧ ∀ b ∈ f.blocks, BlockOk n f idom b := by
  unfold verifyFunction
  by_cases hnd : (f.blocks.map (·.id)).Nodup
  · by_cases hen : f.entryBlock ∈ f.blocks.map (·.id)
    · simp only [hnd, hen, not_true_eq_false, if_false, true_and, bind_ok_iff, ofFuel_ok_iff,
        forM_ok_iff, defineAll_ok_iff]
      constructor
      · rintro ⟨m, ⟨⟨hd, _⟩, rfl⟩, idom, hi, hb⟩
        refine ⟨hd, idom, hi, fun b hbm => verifyBlock_ok_iff.mp ?_⟩
        simpa [Function.site] using hb b hbm
      · rintro ⟨hd, idom, hi, hb⟩
        refine ⟨f.site, ⟨⟨hd, fun _ _ => trivial⟩, by simp [Function.site]⟩, idom, hi, fun b hbm => ?_⟩
        exact verifyBlock_ok_iff.mpr (hb b hbm)
    · simp [hnd, hen, Verify.fail]
  · simp [hnd, Verify.fail]

end Datara.Dmir
