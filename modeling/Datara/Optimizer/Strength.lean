import Datara.Dmir.Expand
import Datara.Library.Rounds

/-!
# Algebraic strength reduction

`ScalarOptimizer::apply_strength_reduction` of `optimizer/scalar.rs`: one scan collects the constants and the greatest
value id, rounds over the instructions propagate what is known not to be negative, and a walk over the blocks rewrites
the identities of the integer operators, the remainders by a power of two and the selections that are decided.

The walk adds what it learns to the tables, so that later instructions, in the order of the blocks, see it. The table
from constants to values is filled and never read in the source, and is left out with the records of the trace.
-/

namespace Datara.Optimizer

open Dmir Library

/-! ## The scan -/

/-- The result of an instruction that the scan for the greatest id looks at. -/
def scannedDest : Inst → Option ValueId
  | .constInt d _ | .constFloat d _ | .constStr d _ | .constBool d _ | .loadVar d _ | .binOp d _ _ _ _
  | .unOp d _ _ _ | .cast d _ _ _ | .call d _ _ _ | .methodCall d _ _ _ _ | .structInit d _ _ | .getField d _ _ _
  | .formatStr d _ _ _ | .getFuncAddr d _ | .select d _ _ _ _ | .decide d _ _ _ => some d
  | .inlineAsm _ outs _ _ _ => (outs.map Prod.snd).head?
  | _ => none

/-- The value ids the scan looks at. -/
def scannedIds (f : Function) : List ValueId :=
  f.params.map (·.val) ++ f.blocks.flatMap fun b =>
    b.params.map (·.val) ++ b.terminator.vids ++ b.instructions.filterMap scannedDest

/-- `max_id` after the scan. -/
def scannedMax (f : Function) : Nat := (scannedIds f).foldl max 0

/-- What the pass has in its tables. -/
structure Strength where
  intConsts : ValueId → Option (BitVec 64) := fun _ => none
  nonNegatives : List ValueId := []
  boolConsts : ValueId → Option Bool := fun _ => none
  maxId : Nat := 0
  simplified : Nat := 0

/-- The constants. -/
def Strength.collect (st : Strength) : Inst → Strength
  | .constInt d v =>
    { st with
      intConsts := Function.update st.intConsts d (some v)
      nonNegatives := if 0 ≤ v.toInt then st.nonNegatives.insert d else st.nonNegatives }
  | .constBool d v => { st with boolConsts := Function.update st.boolConsts d (some v) }
  | _ => st

def collected (f : Function) : Strength := f.insts.foldl Strength.collect { maxId := scannedMax f }

/-! ## What is not negative -/

/-- One instruction of a round: sums, products and copies. -/
def propagate (nonNegatives : List ValueId) : Inst → Option (List ValueId)
  | .binOp d op l r ty =>
    if ty = "Int" ∧ (op = "+" ∨ op = "*") ∧ l ∈ nonNegatives ∧ r ∈ nonNegatives ∧ d ∉ nonNegatives then
      some (d :: nonNegatives)
    else none
  | .unOp d op o _ =>
    if op = "copy" ∧ o ∈ nonNegatives ∧ d ∉ nonNegatives then some (d :: nonNegatives) else none
  | _ => none

/-- The tables before the walk. A round that changes something adds the result of an instruction. -/
def analyzed (f : Function) : Strength :=
  let st := collected f
  { st with nonNegatives := (rounds propagate f.insts (f.insts.length + 1) st.nonNegatives).getD st.nonNegatives }

/-! ## The rewriting -/

/-- What an integer operator with a constant operand comes to. -/
inductive Identity
  | left | right | zero
  deriving DecidableEq, Repr

/-- The identities, under what is known of the two operands. -/
def identityOf (op : String) (lC rC : Option (BitVec 64)) : Option Identity :=
  if op = "+" ∧ rC = some 0 then some .left
  else if op = "+" ∧ lC = some 0 then some .right
  else if op = "-" ∧ rC = some 0 then some .left
  else if op = "*" ∧ (lC = some 0 ∨ rC = some 0) then some .zero
  else if op = "*" ∧ rC = some 1 then some .left
  else if op = "*" ∧ lC = some 1 then some .right
  else if op = "/" ∧ rC = some 1 then some .left
  else if op = "%" ∧ rC = some 1 then some .zero
  else none

/-- The mask for a remainder by a power of two other than one. -/
def maskOf (op : String) (rC : Option (BitVec 64)) : Option (BitVec 64) :=
  if op = "%" then (rC.filter fun c => 1 < c.toInt ∧ c &&& (c - 1) = 0).map (· - 1) else none

/-- The value a decided selection yields. -/
def selectedArm (boolConsts : ValueId → Option Bool) (c t e : ValueId) : Option ValueId :=
  if t = e then some t else (boolConsts c).map fun b => if b then t else e

/-- One instruction, and what stands in its place. -/
def reduceInst (st : Strength) : Inst → List Inst × Strength
  | .binOp d op l r ty =>
    if ty = "Int" then
      match identityOf op (st.intConsts l) (st.intConsts r) with
      | some .left => ([.unOp d "copy" l ty], { st with simplified := st.simplified + 1 })
      | some .right => ([.unOp d "copy" r ty], { st with simplified := st.simplified + 1 })
      | some .zero =>
        ([.constInt d 0], { st with
          intConsts := Function.update st.intConsts d (some 0)
          nonNegatives := st.nonNegatives.insert d
          simplified := st.simplified + 1 })
      | none =>
        -- `srem` takes the sign of the dividend
        match maskOf op (st.intConsts r), decide (l ∈ st.nonNegatives) with
        | some mask, true =>
          ([.constInt (st.maxId + 1) mask, .binOp d "&" l (st.maxId + 1) ty], { st with
            intConsts := Function.update st.intConsts (st.maxId + 1) (some mask)
            maxId := st.maxId + 1
            simplified := st.simplified + 1 })
        | _, _ => ([.binOp d op l r ty], st)
    else ([.binOp d op l r ty], st)
  | .select d c t e ty =>
    match selectedArm st.boolConsts c t e with
    | some v => ([.unOp d "copy" v ty], { st with simplified := st.simplified + 1 })
    | none => ([.select d c t e ty], st)
  | i => ([i], st)

/-- The instructions of a block. -/
def reduceCode : Strength → List Inst → List Inst × Strength
  | st, [] => ([], st)
  | st, i :: rest =>
    let r := reduceInst st i
    let rs := reduceCode r.2 rest
    (r.1 ++ rs.1, rs.2)

/-- The blocks, in their order. -/
def reduceBlocks : Strength → List BasicBlock → List BasicBlock × Strength
  | st, [] => ([], st)
  | st, b :: rest =>
    let r := reduceCode st b.instructions
    let rs := reduceBlocks r.2 rest
    ({ b with instructions := r.1 } :: rs.1, rs.2)

/-- `apply_strength_reduction`: the function, and how many instructions were simplified. -/
def applyStrengthReduction (f : Function) : Function × Nat :=
  let r := reduceBlocks (analyzed f) f.blocks
  ({ f with blocks := r.1 }, r.2.simplified)

/-!
## What strength reduction knows, and what it leaves

What the tables hold is so by the instructions (`KnownInt`, `KnownNonNeg`, `Tables`). Each instruction is kept, or has in
its place what its operands, as far as they are known, let stand for it (`Reduced`). The masks are loaded into values that
the function does not mention, where none that the scan overlooks is in their way (`Unhidden`, `strength_expands`).
-/

/-! ## What is known -/

/-- What an identity leaves. -/
def Identity.inst (d l r : ValueId) : Identity → Inst
  | .left => .unOp d "copy" l "Int"
  | .right => .unOp d "copy" r "Int"
  | .zero => .constInt d 0

/-- A value is a constant. -/
inductive KnownInt (f : Function) : ValueId → BitVec 64 → Prop
  | const {d : ValueId} {c : BitVec 64} : .constInt d c ∈ f.insts → KnownInt f d c
  | zero {d l r : ValueId} {op : String} {lC rC : Option (BitVec 64)} : .binOp d op l r "Int" ∈ f.insts →
      (∀ c, lC = some c → KnownInt f l c) → (∀ c, rC = some c → KnownInt f r c) →
      identityOf op lC rC = some .zero → KnownInt f d 0

/-- A value is not negative. -/
inductive KnownNonNeg (f : Function) : ValueId → Prop
  | known {v : ValueId} {c : BitVec 64} : KnownInt f v c → 0 ≤ c.toInt → KnownNonNeg f v
  | sum {d l r : ValueId} {op : String} : .binOp d op l r "Int" ∈ f.insts → op = "+" ∨ op = "*" →
      KnownNonNeg f l → KnownNonNeg f r → KnownNonNeg f d
  | copy {d o : ValueId} {ty : String} : .unOp d "copy" o ty ∈ f.insts → KnownNonNeg f o → KnownNonNeg f d

/-- What stands in the place of an instruction. -/
inductive Reduced (f : Function) : Inst → Chunk → Prop
  | same (i : Inst) : Reduced f i { inst := i }
  | identity {d l r : ValueId} {op : String} {lC rC : Option (BitVec 64)} {x : Identity} :
      (∀ c, lC = some c → KnownInt f l c) → (∀ c, rC = some c → KnownInt f r c) → identityOf op lC rC = some x →
      Reduced f (.binOp d op l r "Int") { inst := x.inst d l r }
  | mask {d l r v : ValueId} {c : BitVec 64} : KnownInt f r c → 1 < c.toInt → c &&& (c - 1) = 0 → KnownNonNeg f l →
      Reduced f (.binOp d "%" l r "Int") { consts := [(v, c - 1)], inst := .binOp d "&" l v "Int" }
  | same_arms {d c t : ValueId} {ty : String} : Reduced f (.select d c t t ty) { inst := .unOp d "copy" t ty }
  | decided {d c t e : ValueId} {b : Bool} {ty : String} : .constBool c b ∈ f.insts →
      Reduced f (.select d c t e ty) { inst := .unOp d "copy" (if b then t else e) ty }

/-- The tables hold what is so. -/
structure Tables (f : Function) (st : Strength) : Prop where
  ints : ∀ v ∈ f.valueIds, ∀ c, st.intConsts v = some c → KnownInt f v c
  /-- The walk finds no constants of its own but zero. -/
  found : ∀ v ∈ f.valueIds, ∀ c, st.intConsts v = some c → c = 0 ∨ (collected f).intConsts v = some c
  nonNegs : ∀ v ∈ st.nonNegatives, KnownNonNeg f v
  bools : ∀ v b, st.boolConsts v = some b → .constBool v b ∈ f.insts

open Classical in
/-- A remainder of a value that is not negative by a power of two, as far as it is known. -/
noncomputable def isMasked (f : Function) : Inst → Bool
  | .binOp _ op l r ty => ty = "Int" ∧ (maskOf op ((collected f).intConsts r)).isSome ∧ KnownNonNeg f l
  | _ => false

/-- The remainders that may need a mask. -/
noncomputable def maskedRemainders (f : Function) : Nat := f.insts.countP (isMasked f)

/-- No value that the scan overlooks has one of the next ids, as many as there are remainders by a power of two. -/
def Unhidden (f : Function) : Prop := ∀ v ∈ f.valueIds, v ≤ scannedMax f ∨ scannedMax f + maskedRemainders f < v

variable {f : Function} {st st' : Strength} {i : Inst} {c : Chunk} {k k' : Nat} {fresh fresh' : List ValueId}

theorem Reduced.dests (h : Reduced f i c) : c.inst.dests = i.dests := by
  cases h with
  | @identity d l r op lC rC x => cases x <;> rfl
  | _ => rfl

theorem map_dests {is : List Inst} {cs : List Chunk} (h : List.Forall₂ (Reduced f) is cs) :
    cs.map (·.inst.dests) = is.map Inst.dests := by
  induction h with
  | nil => rfl
  | cons h _ ih => rw [List.map_cons, List.map_cons, h.dests, ih]

/-! ## The tables before the walk -/

theorem collect_spec {is : List Inst} (his : ∀ i ∈ is, i ∈ f.insts) (hints : ∀ v c, st.intConsts v = some c → KnownInt f v c)
    (hnonNegs : ∀ v ∈ st.nonNegatives, KnownNonNeg f v) (hbools : ∀ v b, st.boolConsts v = some b → .constBool v b ∈ f.insts) :
    (∀ v c, (is.foldl Strength.collect st).intConsts v = some c → KnownInt f v c) ∧
      (∀ v ∈ (is.foldl Strength.collect st).nonNegatives, KnownNonNeg f v) ∧
      (∀ v b, (is.foldl Strength.collect st).boolConsts v = some b → .constBool v b ∈ f.insts) ∧
      (is.foldl Strength.collect st).maxId = st.maxId := by
  induction is generalizing st with
  | nil => exact ⟨hints, hnonNegs, hbools, rfl⟩
  | cons i is ih =>
    rw [List.forall_mem_cons] at his
    rw [List.foldl_cons]
    cases i with
    | constInt d c =>
      have hconst : KnownInt f d c := .const his.1
      refine ih his.2 ?_ ?_ hbools
      · intro v x hv
        change Function.update st.intConsts d (some c) v = some x at hv
        by_cases hvd : v = d
        · subst hvd
          rw [Function.update_self] at hv
          exact Option.some.inj hv ▸ hconst
        · rw [Function.update_of_ne hvd] at hv
          exact hints v x hv
      · intro v hv
        change v ∈ (if 0 ≤ c.toInt then st.nonNegatives.insert d else st.nonNegatives) at hv
        split at hv
        case isTrue hc =>
          rcases List.mem_insert_iff.mp hv with rfl | hv
          · exact .known hconst hc
          · exact hnonNegs v hv
        case isFalse => exact hnonNegs v hv
    | constBool d x =>
      refine ih his.2 hints hnonNegs ?_
      intro v b hv
      change Function.update st.boolConsts d (some x) v = some b at hv
      by_cases hvd : v = d
      · subst hvd
        rw [Function.update_self] at hv
        exact Option.some.inj hv ▸ his.1
      · rw [Function.update_of_ne hvd] at hv
        exact hbools v b hv
    | _ => exact ih his.2 hints hnonNegs hbools

theorem rounds_propagate_isSome (is : List Inst) (nonNegatives : List ValueId) :
    (rounds propagate is (is.length + 1) nonNegatives).isSome := by
  apply rounds_isSome (μ := fun nonNegatives => is.countP fun i => i.dests.any (· ∉ nonNegatives))
  · intro nonNegatives i hi nonNegatives' h
    obtain ⟨d, hd, hnot, rfl⟩ : ∃ d, i.dests = [d] ∧ d ∉ nonNegatives ∧ nonNegatives' = d :: nonNegatives := by
      cases i with
      | binOp d op l r ty =>
        obtain ⟨hc, hnew⟩ := Option.ite_none_right_eq_some.mp h
        exact ⟨d, rfl, hc.2.2.2.2, (Option.some.inj hnew).symm⟩
      | unOp d op o ty =>
        obtain ⟨hc, hnew⟩ := Option.ite_none_right_eq_some.mp h
        exact ⟨d, rfl, hc.2.2, (Option.some.inj hnew).symm⟩
      | _ => cases h
    have hkeep : ∀ j : Inst, j.dests.any (· ∉ d :: nonNegatives) → j.dests.any (· ∉ nonNegatives) := by
      intro j hj
      obtain ⟨v, hv, hnew⟩ := List.any_eq_true.mp hj
      exact List.any_eq_true.mpr ⟨v, hv, decide_eq_true fun hmem => of_decide_eq_true hnew (List.mem_cons_of_mem d hmem)⟩
    obtain ⟨pre, post, rfl⟩ := List.append_of_mem hi
    have hpre := List.countP_mono_left fun j (_ : j ∈ pre) => hkeep j
    have hpost := List.countP_mono_left fun j (_ : j ∈ post) => hkeep j
    have hbefore : (i.dests.any (· ∉ nonNegatives)) = true := by simp [hd, hnot]
    have hafter : (i.dests.any (· ∉ d :: nonNegatives)) = false := by simp [hd]
    rw [List.countP_append, List.countP_cons, List.countP_append, List.countP_cons, hbefore, hafter, if_pos rfl,
      if_neg Bool.false_ne_true]
    omega
  · exact Nat.lt_succ_of_le List.countP_le_length

theorem tables_analyzed (f : Function) : Tables f (analyzed f) ∧ (analyzed f).maxId = scannedMax f := by
  obtain ⟨hints, hnonNegs, hbools, hmax⟩ : _ ∧ _ ∧ _ ∧ (collected f).maxId = scannedMax f :=
    @collect_spec f { maxId := scannedMax f } f.insts (fun i hi => hi) (by simp) (by simp) (by simp)
  refine ⟨⟨fun v _ c hv => hints v c hv, fun v _ c hv => .inr hv, fun v hv => ?_, hbools⟩, hmax⟩
  obtain ⟨nonNegatives, hrounds⟩ := Option.isSome_iff_exists.mp
    (rounds_propagate_isSome f.insts (collected f).nonNegatives)
  have heq : (analyzed f).nonNegatives = nonNegatives := by
    show (rounds propagate f.insts _ _).getD _ = _
    rw [hrounds]
    rfl
  rw [heq] at hv
  refine rounds_invariant (I := fun s => ∀ v ∈ s, KnownNonNeg f v) ?_ hnonNegs hrounds v hv
  intro s i hi s' hs h v hv
  cases i with
  | binOp d op l r ty =>
    obtain ⟨⟨rfl, hop, hl, hr, -⟩, hnew⟩ := Option.ite_none_right_eq_some.mp h
    rw [← Option.some.inj hnew] at hv
    rcases List.mem_cons.mp hv with rfl | hv
    · exact .sum hi hop (hs l hl) (hs r hr)
    · exact hs v hv
  | unOp d op o ty =>
    obtain ⟨⟨rfl, ho, -⟩, hnew⟩ := Option.ite_none_right_eq_some.mp h
    rw [← Option.some.inj hnew] at hv
    rcases List.mem_cons.mp hv with rfl | hv
    · exact .copy hi (hs o ho)
    · exact hs v hv
  | _ => cases h

/-! ## The walk -/

theorem maskOf_eq_some {op : String} {rC : Option (BitVec 64)} {mask : BitVec 64} (h : maskOf op rC = some mask) :
    op = "%" ∧ ∃ c, rC = some c ∧ 1 < c.toInt ∧ c &&& (c - 1) = 0 ∧ mask = c - 1 := by
  obtain ⟨hop, h⟩ := Option.ite_none_right_eq_some.mp h
  obtain ⟨c, hc, rfl⟩ := Option.map_eq_some_iff.mp h
  obtain ⟨hc, hpow⟩ := Option.filter_eq_some_iff.mp hc
  obtain ⟨hone, hpow⟩ := of_decide_eq_true hpow
  exact ⟨hop, c, hc, hone, hpow, rfl⟩

/-- What a part of the walk does with the ids: it takes the next ones, which the function does not mention. -/
structure Walked (f : Function) (st st' : Strength) (k : Nat) (fresh : List ValueId) : Prop where
  tables : Tables f st'
  ids : fresh = List.range' (st.maxId + 1) fresh.length
  maxId : st'.maxId = st.maxId + fresh.length
  length_le : fresh.length ≤ k
  unused : ∀ v ∈ fresh, v ∉ f.valueIds

/-- The next ids, as many as may be needed, are not mentioned. -/
def HasRoom (f : Function) (st : Strength) (k : Nat) : Prop := ∀ v ∈ f.valueIds, v ≤ st.maxId ∨ st.maxId + k < v

theorem Walked.hasRoom (h : Walked f st st' k fresh) (hroom : HasRoom f st (k + k')) : HasRoom f st' k' := by
  intro v hv
  rw [h.maxId]
  have := h.length_le
  rcases hroom v hv with hle | hlt
  · exact .inl (hle.trans (Nat.le_add_right _ _))
  · exact .inr (lt_of_le_of_lt (by omega) hlt)

theorem Walked.append {st'' : Strength} (h : Walked f st st' k fresh) (h' : Walked f st' st'' k' fresh') :
    Walked f st st'' (k + k') (fresh ++ fresh') := by
  refine ⟨h'.tables, ?_, ?_, ?_, ?_⟩
  · have hids := h'.ids
    rw [h.maxId, Nat.add_right_comm] at hids
    rw [List.length_append, ← List.range'_append_1, ← h.ids, ← hids]
  · rw [h'.maxId, h.maxId, List.length_append, Nat.add_assoc]
  · rw [List.length_append]
    exact Nat.add_le_add h.length_le h'.length_le
  · intro v hv
    rcases List.mem_append.mp hv with hv | hv
    · exact h.unused v hv
    · exact h'.unused v hv

theorem Walked.none (h : Tables f st') (hmax : st'.maxId = st.maxId) : Walked f st st' k [] :=
  ⟨h, rfl, hmax, Nat.zero_le k, nofun⟩

section
variable (h : Tables f st)
include h

theorem Tables.update {d : ValueId} (hknown : KnownInt f d 0) : Tables f { st with
    intConsts := Function.update st.intConsts d (some 0)
    nonNegatives := st.nonNegatives.insert d
    simplified := st.simplified + 1 } := by
  refine ⟨fun v hv c hc => ?_, fun v hv c hc => ?_, fun v hv => ?_, h.bools⟩
  · change Function.update st.intConsts d (some 0) v = some c at hc
    by_cases hvd : v = d
    · subst hvd
      rw [Function.update_self] at hc
      exact Option.some.inj hc ▸ hknown
    · rw [Function.update_of_ne hvd] at hc
      exact h.ints v hv c hc
  · change Function.update st.intConsts d (some 0) v = some c at hc
    by_cases hvd : v = d
    · subst hvd
      rw [Function.update_self] at hc
      exact .inl (Option.some.inj hc).symm
    · rw [Function.update_of_ne hvd] at hc
      exact h.found v hv c hc
  · rcases List.mem_insert_iff.mp hv with rfl | hv
    · exact .known hknown (by decide)
    · exact h.nonNegs v hv

theorem Tables.load {v : ValueId} (hv : v ∉ f.valueIds) (mask : BitVec 64) : Tables f { st with
    intConsts := Function.update st.intConsts v (some mask)
    maxId := v
    simplified := st.simplified + 1 } := by
  have hsame : ∀ u ∈ f.valueIds, Function.update st.intConsts v (some mask) u = st.intConsts u := fun u hu =>
    Function.update_of_ne (ne_of_mem_of_not_mem hu hv) _ _
  refine ⟨fun u hu c hc => h.ints u hu c ?_, fun u hu c hc => h.found u hu c ?_, h.nonNegs, h.bools⟩
  · rw [← hsame u hu]
    exact hc
  · rw [← hsame u hu]
    exact hc

/-- **What stands in the place of an instruction.** -/
theorem reduceInst_spec (hi : i ∈ f.insts)
    (hroom : HasRoom f st (if isMasked f i then 1 else 0)) : ∃ c : Chunk, (reduceInst st i).1 = c.code ∧ Reduced f i c ∧
      Walked f st (reduceInst st i).2 (if isMasked f i then 1 else 0) c.fresh := by
  have hcount : ∀ n, Tables f { st with simplified := n } := fun _ => ⟨h.ints, h.found, h.nonNegs, h.bools⟩
  have hkept : (∃ c : Chunk, [i] = c.code ∧ Reduced f i c ∧ Walked f st st (if isMasked f i then 1 else 0) c.fresh) :=
    ⟨{ inst := i }, rfl, .same i, .none h rfl⟩
  have hmention : ∀ v ∈ i.visitVids, v ∈ f.valueIds := fun v hv => by
    obtain ⟨b, hb, hib⟩ := Function.mem_insts.mp hi
    exact mem_valueIds_of_visit hb hib hv
  cases i with
  | binOp d op l r ty =>
    by_cases hty : ty = "Int"
    · subst hty
      have hl : ∀ c, st.intConsts l = some c → KnownInt f l c := h.ints l (hmention l (by simp [Inst.visitVids]))
      have hr : ∀ c, st.intConsts r = some c → KnownInt f r c := h.ints r (hmention r (by simp [Inst.visitVids]))
      rw [reduceInst, if_pos rfl]
      cases hid : identityOf op (st.intConsts l) (st.intConsts r) with
      | some x =>
        cases x with
        | left => exact ⟨_, rfl, .identity hl hr hid, .none (hcount _) rfl⟩
        | right => exact ⟨_, rfl, .identity hl hr hid, .none (hcount _) rfl⟩
        | zero => exact ⟨_, rfl, .identity hl hr hid, .none (h.update (.zero hi hl hr hid)) rfl⟩
      | none =>
        cases hmask : maskOf op (st.intConsts r) with
        | none => exact hkept
        | some mask =>
          by_cases hnonNeg : l ∈ st.nonNegatives
          · obtain ⟨rfl, c, hc, hone, hpow, rfl⟩ := maskOf_eq_some hmask
            have hscan : (collected f).intConsts r = some c := by
              refine (h.found r (hmention r (by simp [Inst.visitVids])) c hc).resolve_left fun hzero => ?_
              rw [hzero] at hone
              exact absurd hone (by decide)
            have hmasked : isMasked f (.binOp d "%" l r "Int") = true := by
              rw [isMasked, hscan, ← hc, hmask]
              classical exact decide_eq_true ⟨rfl, rfl, h.nonNegs l hnonNeg⟩
            rw [hmasked, if_pos rfl] at hroom ⊢
            have hnew : st.maxId + 1 ∉ f.valueIds := fun hv => by
              rcases hroom _ hv with hle | hlt
              · exact absurd hle (Nat.not_succ_le_self _)
              · exact absurd hlt (Nat.lt_irrefl _)
            simp only [hnonNeg, decide_true]
            refine ⟨_, rfl, .mask (hr c hc) hone hpow (h.nonNegs l hnonNeg), h.load hnew _, rfl, rfl, Nat.le_refl 1, ?_⟩
            exact List.forall_mem_singleton.mpr hnew
          · simp only [hnonNeg, decide_false]
            exact hkept
    · rw [reduceInst, if_neg hty]
      exact hkept
  | select d c t e ty =>
    rw [reduceInst]
    cases harm : selectedArm st.boolConsts c t e with
    | none => exact hkept
    | some v =>
      rw [selectedArm] at harm
      split at harm
      case isTrue hte =>
        subst hte
        cases harm
        exact ⟨_, rfl, .same_arms, .none (hcount _) rfl⟩
      case isFalse =>
        obtain ⟨b, hb, rfl⟩ := Option.map_eq_some_iff.mp harm
        exact ⟨_, rfl, .decided (h.bools c b hb), .none (hcount _) rfl⟩
  | _ => exact hkept

theorem reduceCode_spec {is : List Inst} (his : ∀ i ∈ is, i ∈ f.insts)
    (hroom : HasRoom f st (is.countP (isMasked f))) : ∃ cs : List Chunk, (reduceCode st is).1 = codeOf cs ∧
      List.Forall₂ (Reduced f) is cs ∧
      Walked f st (reduceCode st is).2 (is.countP (isMasked f)) (cs.flatMap Chunk.fresh) := by
  induction is generalizing st with
  | nil => exact ⟨[], rfl, .nil, .none h rfl⟩
  | cons i is ih =>
    rw [List.forall_mem_cons] at his
    rw [List.countP_cons, Nat.add_comm] at hroom ⊢
    obtain ⟨c, hcode, hreduced, hwalked⟩ := reduceInst_spec h his.1 fun v hv => (hroom v hv).imp_right fun hlt => by omega
    obtain ⟨cs, hcodes, hall, hrest⟩ := ih hwalked.tables his.2 (hwalked.hasRoom hroom)
    refine ⟨c :: cs, ?_, .cons hreduced hall, hwalked.append hrest⟩
    rw [reduceCode, codeOf, List.flatMap_cons, ← codeOf, ← hcode, ← hcodes]

theorem reduceBlocks_spec {bs : List BasicBlock} (hids : (bs.map (·.id)).Nodup)
    (hbs : ∀ b ∈ bs, b ∈ f.blocks)
    (hroom : HasRoom f st ((bs.flatMap (·.instructions)).countP (isMasked f))) : ∃ g : BasicBlock → List Chunk,
      (reduceBlocks st bs).1 = bs.map (fun b => b.withCode (codeOf (g b))) ∧
      (∀ b ∈ bs, List.Forall₂ (Reduced f) b.instructions (g b)) ∧
      Walked f st (reduceBlocks st bs).2 ((bs.flatMap (·.instructions)).countP (isMasked f))
        (bs.flatMap fun b => (g b).flatMap Chunk.fresh) := by
  induction bs generalizing st with
  | nil => exact ⟨fun _ => [], rfl, nofun, .none h rfl⟩
  | cons b bs ih =>
    rw [List.forall_mem_cons] at hbs
    obtain ⟨hid, hids⟩ := List.nodup_cons.mp hids
    rw [List.flatMap_cons, List.countP_append] at hroom ⊢
    obtain ⟨cs, hcode, hreduced, hwalked⟩ := reduceCode_spec h
      (fun i hi => Function.mem_insts.mpr ⟨b, hbs.1, hi⟩) fun v hv => (hroom v hv).imp_right fun hlt => by omega
    obtain ⟨g, hcodes, hall, hrest⟩ := ih hwalked.tables hids hbs.2 (hwalked.hasRoom hroom)
    have hother : ∀ c ∈ bs, (if c.id = b.id then cs else g c) = g c := fun c hc =>
      if_neg fun heq => hid (List.mem_map.mpr ⟨c, hc, heq⟩)
    refine ⟨fun c => if c.id = b.id then cs else g c, ?_, ?_, ?_⟩ <;> dsimp only
    · rw [reduceBlocks, List.map_cons, if_pos rfl, ← hcode]
      rw [hcodes]
      refine congrArg _ (List.map_congr_left fun c hc => ?_)
      rw [hother c hc]
    · refine List.forall_mem_cons.mpr ⟨?_, fun c hc => ?_⟩
      · rw [if_pos rfl]
        exact hreduced
      · rw [hother c hc]
        exact hall c hc
    · rw [List.flatMap_cons, if_pos rfl]
      have hfresh : (bs.flatMap fun c => (if c.id = b.id then cs else g c).flatMap Chunk.fresh) =
          bs.flatMap fun c => (g c).flatMap Chunk.fresh := List.flatMap_congr fun c hc => by rw [hother c hc]
      rw [hfresh]
      exact hwalked.append hrest

end

/-- **What the pass leaves**: each instruction reduced, with masks in values that the function does not mention. -/
theorem strength_expands (hids : (f.blocks.map (·.id)).Nodup) (hfree : Unhidden f) : ∃ g : BasicBlock → List Chunk,
    (applyStrengthReduction f).1 = f.expand g ∧ Expands f g ∧
      ∀ b ∈ f.blocks, List.Forall₂ (Reduced f) b.instructions (g b) := by
  obtain ⟨htables, hmax⟩ := tables_analyzed f
  have hroom : HasRoom f (analyzed f) (maskedRemainders f) := by
    rw [HasRoom, hmax]
    exact hfree
  obtain ⟨g, hcode, hall, hwalked⟩ := reduceBlocks_spec htables hids (fun _ hb => hb) hroom
  refine ⟨g, ?_, ⟨fun b hb => map_dests (hall b hb), ?_, fun b hb c hc v hv => ?_⟩, hall⟩
  · rw [applyStrengthReduction]
    rw [hcode]
    rfl
  · rw [hwalked.ids]
    exact List.nodup_range'
  · exact hwalked.unused v (List.mem_flatMap.mpr ⟨b, hb, List.mem_flatMap.mpr ⟨c, hc, hv⟩⟩)

end Datara.Optimizer
