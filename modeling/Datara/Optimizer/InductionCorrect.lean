import Datara.Optimizer.OvfElideCorrect
import Datara.Optimizer.OvfRange
import Datara.Dmir.VerifierSound

/-!
# The range of a compared loop parameter

`induction_range` takes a parameter that starts at a constant, is compared from above, and is handed
back after constant steps up, to stay between the start and the loop edge plus the steps. That is so
in the runs in which the comparison is one, guards the body, and the steps do not wrap
(`InductionFits`, `InductionStep`).
-/

namespace Datara.Optimizer

open Dmir Library
open Option (bind_eq_bind bind_eq_some_iff bind_some map_eq_some_iff)

/-- The operator of a step, wrapping or not. -/
def plainOp : String → String
  | "wrapping_+" => "+"
  | "wrapping_-" => "-"
  | op => op

/-- The value a latch hands back for a parameter, and the operands it is computed from. -/
inductive OnChain (f : Function) (lp : NaturalLoop) (vid : ValueId) : ValueId → Prop
  | back {header latch : BasicBlock} {id : BasicBlockId} {args : List ValueId} {v : ValueId} :
      f.getBlock lp.header = some header → id ∈ lp.backEdges → f.getBlock id = some latch →
      latch.terminator = .branch lp.header args →
      args[(header.params.map (·.val)).idxOf vid]? = some v → OnChain f lp vid v
  | operand {latch : BasicBlock} {id : BasicBlockId} {d l r v : ValueId} {op : String} :
      OnChain f lp vid d → d ≠ vid → id ∈ lp.backEdges → f.getBlock id = some latch →
      stepDef latch.instructions d = some (op, l, r) → v = l ∨ v = r → OnChain f lp vid v

/-- A chain whose first link follows `prev`. -/
inductive StepLinks (f : Function) (lp : NaturalLoop) (vid : ValueId) (latch : List Inst) :
    ValueId → List (ValueId × Int) → Prop
  | nil (prev : ValueId) : StepLinks f lp vid latch prev []
  | cons {prev dest left right : ValueId} {op : String} {delta : Int}
      {links : List (ValueId × Int)} : OnChain f lp vid dest →
      stepDef latch dest = some (op, left, right) → AddsStep f (plainOp op) left right prev delta →
      StepLinks f lp vid latch dest links → StepLinks f lp vid latch prev ((dest, delta) :: links)

/-- The links of a chain and their bounds, counted up from the parameter in the body. -/
inductive StepBound (f : Function) (lp : NaturalLoop) (vid : ValueId) (latch : List Inst) (hi : Int) :
    ValueId → Int → Prop
  | root : StepBound f lp vid latch hi vid hi
  | link {prev dest left right : ValueId} {op : String} {bound delta : Int} :
      StepBound f lp vid latch hi prev bound → OnChain f lp vid dest →
      stepDef latch dest = some (op, left, right) → AddsStep f (plainOp op) left right prev delta →
      0 < delta → IntTy.int.Contains (bound + delta) →
      StepBound f lp vid latch hi dest (bound + delta)

/-- What `induction_range` has established of a loop. -/
structure InductionProof (f : Function) (lp : NaturalLoop) (pi : ProvenInduction) extends
    Guard f lp where
  latch : BasicBlock
  latchId : BasicBlockId
  op : String
  bound : Int
  hi : Int
  next : ValueId
  vid : pi.vid = iVid
  headerId : pi.headerId = lp.header
  blocks : pi.blocks = lp.blocks
  tests : inductionCheckOf f (header.params.map (·.val)) cond test = some (iVid, op, bound)
  edge : bodyEdge op bound = some hi
  sole : lp.backEdges = [latchId]
  latch_get : f.getBlock latchId = some latch
  jumps : ∃ args, latch.terminator = .branch lp.header args ∧
    args[(header.params.map (·.val)).idxOf iVid]? = some next
  chain : StepBound f lp iVid latch.instructions hi next pi.hiEdge
  next_ne : next ≠ iVid
  starts : entryStart f lp ((header.params.map (·.val)).idxOf iVid) f.blocks none = some pi.lo
  start_le : pi.lo ≤ hi

variable {op : String} {i : Inst} {k : Nat}

section
variable {f : Function} {lp : NaturalLoop} {vid : ValueId} {latch : List Inst}

theorem stepDef_mem {d left right : ValueId}
    (h : stepDef latch d = some (op, left, right)) :
    op ∈ ["+", "wrapping_+", "-", "wrapping_-"] ∧ ∃ ty, .binOp d op left right ty ∈ latch := by
  obtain ⟨i, hi, h⟩ := List.exists_of_findSome?_eq_some h
  cases i with
  | binOp d' op' l r ty =>
    simp only [Option.ite_none_right_eq_some, Option.some.injEq, Prod.mk.injEq] at h
    obtain ⟨⟨rfl, hop⟩, rfl, rfl, rfl⟩ := h
    exact ⟨hop, ty, hi⟩
  | _ => cases h

theorem stepLink_ok {left right prev : ValueId} {delta : Int}
    (hop : op ∈ ["+", "wrapping_+", "-", "wrapping_-"])
    (h : stepLink f op left right = some (prev, delta)) :
    AddsStep f (plainOp op) left right prev delta := by
  simp only [List.mem_cons, List.not_mem_nil, or_false] at hop
  unfold stepLink at h
  split_ifs at h with hplus
  · have hplain : plainOp op = "+" := by rcases hplus with rfl | rfl <;> rfl
    split at h
    case h_1 s hs =>
      cases h
      exact .right hplain rfl hs
    case h_2 =>
      obtain ⟨s, hs, he⟩ := map_eq_some_iff.mp h
      cases he
      exact .left hplain rfl hs
  · have hplain : plainOp op = "-" := by
      rcases hop with rfl | rfl | rfl | rfl
      · exact absurd (.inl rfl) hplus
      · exact absurd (.inr rfl) hplus
      · rfl
      · rfl
    obtain ⟨s, hs, h⟩ := bind_eq_some_iff.mp h
    obtain ⟨d, hd, h⟩ := bind_eq_some_iff.mp h
    cases h
    obtain ⟨rfl, -⟩ := checkedI64_eq_some.mp hd
    exact .sub hplain rfl (by rw [hs, Int.neg_neg])

theorem AddsStep.prev_mem {left right prev : ValueId} {delta : Int}
    (h : AddsStep f op left right prev delta) : prev = left ∨ prev = right := by
  cases h with
  | right _ hp _ => exact .inl hp
  | left _ hp _ => exact .inr hp
  | sub _ hp _ => exact .inl hp

theorem stepChain_ok {b : BasicBlock} {id : BasicBlockId} (hid : id ∈ lp.backEdges)
    (hget : f.getBlock id = some b) {room : Nat} {cursor : ValueId} {links out : List (ValueId × Int)}
    (h : stepChain f b.instructions vid room cursor links = some out) (hc : OnChain f lp vid cursor)
    (hlinks : StepLinks f lp vid b.instructions cursor links) :
    StepLinks f lp vid b.instructions vid out := by
  induction room generalizing cursor links with
  | zero =>
    unfold stepChain at h
    split_ifs at h with he
    cases h
    exact he ▸ hlinks
  | succ room ih =>
    unfold stepChain at h
    split_ifs at h with he
    · cases h
      exact he ▸ hlinks
    · obtain ⟨⟨op, left, right⟩, hdef, h⟩ := bind_eq_some_iff.mp h
      obtain ⟨⟨prev, delta⟩, hlink, h⟩ := bind_eq_some_iff.mp h
      have hstep := stepLink_ok (stepDef_mem hdef).1 hlink
      exact ih h (.operand hc he hid hget hdef hstep.prev_mem) (.cons hc hdef hstep hlinks)

/-- The last link of a chain. -/
def lastLink (prev : ValueId) (links : List (ValueId × Int)) : ValueId :=
  (links.getLast?.map (·.1)).getD prev

theorem StepLinks.bounded {prev : ValueId} {links : List (ValueId × Int)} {hi bound out : Int}
    (h : StepLinks f lp vid latch prev links) (hprev : StepBound f lp vid latch hi prev bound)
    (hpos : ∀ l ∈ links, 0 < l.2) (hout : chainExtreme bound links = some out) :
    StepBound f lp vid latch hi (lastLink prev links) out := by
  induction h generalizing bound with
  | nil prev =>
    cases hout
    exact hprev
  | @cons prev dest left right op delta links hc hdef hstep _ ih =>
    obtain ⟨next, hnext, hout⟩ := bind_eq_some_iff.mp hout
    obtain ⟨rfl, hin⟩ := checkedI64_eq_some.mp hnext
    have hd : 0 < delta := hpos (dest, delta) List.mem_cons_self
    have hlast := ih (.link hprev hc hdef hstep hd hin)
      (fun l hl => hpos l (List.mem_cons_of_mem _ hl)) hout
    have hsame : lastLink prev ((dest, delta) :: links) = lastLink dest links := by
      cases links <;> rfl
    rw [hsame]
    exact hlast

theorem stepChain_last {room : Nat} {cursor : ValueId} {links out : List (ValueId × Int)}
    (h : stepChain f latch vid room cursor links = some out) :
    (links = [] → cursor = vid ∧ out = [] ∨ lastLink vid out = cursor) ∧
      ∀ x, links.getLast? = some x → out.getLast? = some x := by
  induction room generalizing cursor links with
  | zero =>
    unfold stepChain at h
    split_ifs at h with he
    cases h
    exact ⟨fun hl => .inl ⟨he, hl⟩, fun x hx => hx⟩
  | succ room ih =>
    unfold stepChain at h
    split_ifs at h with he
    · cases h
      exact ⟨fun hl => .inl ⟨he, hl⟩, fun x hx => hx⟩
    · obtain ⟨⟨op, left, right⟩, -, h⟩ := bind_eq_some_iff.mp h
      obtain ⟨⟨prev, delta⟩, -, h⟩ := bind_eq_some_iff.mp h
      have hlast := (ih h).2
      refine ⟨fun hl => .inr ?_, fun x hx => hlast x ?_⟩
      · subst hl
        rw [lastLink, hlast (cursor, delta) rfl]
        rfl
      · cases links with
        | nil => cases hx
        | cons k ks => rw [List.getLast?_cons_cons]; exact hx

theorem StepBound.le {hi bound : Int} {d : ValueId} (h : StepBound f lp vid latch hi d bound) : hi ≤ bound := by
  induction h with
  | root => exact Int.le_refl _
  | link _ _ _ _ hpos _ ih => omega

theorem inductionCheckOf_param {params : List ValueId} {cond : ValueId}
    {bound : Int} (h : inductionCheckOf f params cond i = some (vid, op, bound)) :
    vid ∈ params ∧ cond ∈ i.dests := by
  cases i with
  | binOp d op' l r ty =>
    simp only [inductionCheckOf] at h
    split_ifs at h with h₁ h₂ h₃
    · simp only [bind_eq_bind, bind_some] at h
      split_ifs at h
      obtain ⟨_, -, he⟩ := map_eq_some_iff.mp h
      exact ⟨(Prod.mk.inj he).1 ▸ h₂, List.mem_singleton.mpr (by tauto)⟩
    · simp only [bind_eq_bind, bind_some] at h
      split_ifs at h
      obtain ⟨_, -, he⟩ := map_eq_some_iff.mp h
      exact ⟨(Prod.mk.inj he).1 ▸ h₃, List.mem_singleton.mpr (by tauto)⟩
    · cases h
  | _ => cases h

theorem latchNext_ok {l : BasicBlock} {v : ValueId}
    (h : latchNext f lp k = some (l, v)) :
    ∃ id, lp.backEdges = [id] ∧ f.getBlock id = some l ∧
      ∃ args, l.terminator = .branch lp.header args ∧ args[k]? = some v := by
  unfold latchNext at h
  split at h
  case h_1 id hedges =>
    obtain ⟨latch, hget, h⟩ := bind_eq_some_iff.mp h
    split at h
    case h_1 t args ht =>
      split_ifs at h with hh
      obtain ⟨w, hw, he⟩ := map_eq_some_iff.mp h
      cases he
      exact ⟨id, hedges, hget, args, hh ▸ ht, hw⟩
    case h_2 => cases h
  case h_2 => cases h

theorem inductionRange_ok {pi : ProvenInduction} (h : inductionRange f lp = some pi) :
    Nonempty (InductionProof f lp pi) := by
  obtain ⟨header, hget, h⟩ := bind_eq_some_iff.mp h
  split at h
  case h_2 => cases h
  case h_1 cond t ta e ea ht =>
    obtain ⟨⟨iVid, op, bound⟩, hfind, h⟩ := bind_eq_some_iff.mp h
    obtain ⟨⟨latch, next⟩, hnext, h⟩ := bind_eq_some_iff.mp h
    obtain ⟨chain, hchain, h⟩ := bind_eq_some_iff.mp h
    split_ifs at h with hempty
    obtain ⟨start, hstart, h⟩ := bind_eq_some_iff.mp h
    obtain ⟨hi, hhi, h⟩ := bind_eq_some_iff.mp h
    split_ifs at h with hle
    obtain ⟨running, hrun, h⟩ := bind_eq_some_iff.mp h
    cases h
    obtain ⟨test, htest, hcheck⟩ := exists_of_foldl_or hfind
    obtain ⟨id, hsole, hlatch, args, hjump, harg⟩ := latchNext_ok hnext
    have hid : id ∈ lp.backEdges := hsole ▸ List.mem_singleton_self id
    obtain ⟨hne, hpos⟩ := not_or.mp hempty
    have hpos : ∀ l ∈ chain, 0 < l.2 := by
      intro l hl
      by_contra hle
      exact hpos (List.any_eq_true.mpr ⟨l, hl, decide_eq_true (Int.not_lt.mp hle)⟩)
    have hlast : lastLink iVid chain = next := by
      rcases (stepChain_last hchain).1 rfl with ⟨-, he⟩ | hlast
      · exact absurd he hne
      · exact hlast
    have hbound := (stepChain_ok hid hlatch hchain (.back hget hid hlatch hjump harg) (.nil _)).bounded
      .root hpos hrun
    rw [hlast] at hbound
    refine ⟨{
      header, latch, cond, iVid, test, op, bound, hi, next
      latchId := id
      header_get := hget
      branches := ⟨t, ta, e, ea, ht⟩
      param := (inductionCheckOf_param hcheck).1
      test_mem := htest
      cond_mem := (inductionCheckOf_param hcheck).2
      vid := rfl
      headerId := rfl
      blocks := rfl
      tests := hcheck
      edge := hhi
      sole := hsole
      latch_get := hlatch
      jumps := ⟨args, hjump, harg⟩
      chain := hbound
      next_ne := ?_
      starts := hstart
      start_le := Int.not_lt.mp hle }⟩
    rintro rfl
    unfold stepChain at hchain
    rw [if_pos rfl] at hchain
    exact hne (Option.some.inj hchain).symm

theorem entryStart_const {bs : List BasicBlock} {old : Option Int} {start : Int}
    (h : entryStart f lp k bs old = some start) :
    (∀ prev, old = some prev → prev = start) ∧ ∀ b ∈ bs, b.id ∉ lp.blocks →
      ∀ args, entryArgs lp.header b.terminator = some args →
        ∃ arg, args[k]? = some arg ∧ constExprIntValue f arg = some start := by
  induction bs generalizing old with
  | nil => exact ⟨fun prev hp => Option.some.inj (hp.symm.trans h), fun b hb => by cases hb⟩
  | cons c bs ih =>
    unfold entryStart at h
    split_ifs at h with hc
    · obtain ⟨h₁, h₂⟩ := ih h
      refine ⟨h₁, fun b hb hout => ?_⟩
      rcases List.mem_cons.mp hb with rfl | hb
      · exact absurd hc hout
      · exact h₂ b hb hout
    · cases hargs : entryArgs lp.header c.terminator with
      | none =>
        simp only [hargs] at h
        obtain ⟨h₁, h₂⟩ := ih h
        refine ⟨h₁, fun b hb hout args ha => ?_⟩
        rcases List.mem_cons.mp hb with rfl | hb
        · rw [hargs] at ha; cases ha
        · exact h₂ b hb hout args ha
      | some args =>
        simp only [hargs] at h
        obtain ⟨arg, harg, h⟩ := bind_eq_some_iff.mp h
        obtain ⟨s, hs, h⟩ := bind_eq_some_iff.mp h
        have hrest : entryStart f lp k bs (some s) = some start ∧ ∀ prev, old = some prev → prev = s := by
          cases old with
          | none => exact ⟨h, fun prev hp => by cases hp⟩
          | some prev =>
            simp only at h
            split_ifs at h with he
            exact ⟨he ▸ h, fun p hp => (Option.some.inj hp).symm.trans he⟩
        obtain ⟨h₁, h₂⟩ := ih hrest.1
        obtain rfl := h₁ s rfl
        refine ⟨hrest.2, fun b hb hout args' ha => ?_⟩
        rcases List.mem_cons.mp hb with rfl | hb
        · cases hargs.symm.trans ha
          exact ⟨arg, harg, hs⟩
        · exact h₂ b hb hout args' ha

end

theorem entryStart_contains {f : Function} {lp : NaturalLoop} {bs : List BasicBlock}
    {old : Option Int} {start : Int} (hold : ∀ prev, old = some prev → IntTy.int.Contains prev)
    (h : entryStart f lp k bs old = some start) : IntTy.int.Contains start := by
  induction bs generalizing old with
  | nil => exact hold start h
  | cons c bs ih =>
    unfold entryStart at h
    split_ifs at h
    · exact ih hold h
    · cases hargs : entryArgs lp.header c.terminator with
      | none =>
        simp only [hargs] at h
        exact ih hold h
      | some args =>
        simp only [hargs] at h
        obtain ⟨arg, -, h⟩ := bind_eq_some_iff.mp h
        obtain ⟨s, hs, h⟩ := bind_eq_some_iff.mp h
        have hin : ∀ prev, some s = some prev → IntTy.int.Contains prev := fun prev hp =>
          Option.some.inj hp ▸ constExprIntValueDepth_contains hs
        cases old with
        | none => exact ih hin h
        | some prev =>
          simp only at h
          split_ifs at h
          exact ih hold h

/-! ## Runs -/

/-- What `induction_range` takes for granted of a loop: its header is not the entry block and has one
edge from each block outside, the branch condition is a comparison, and the constants are what the
walk makes of them. -/
structure InductionFits (h : Host) (f : Function) (lp : NaturalLoop) (vid : ValueId) : Prop where
  header : lp.header ≠ f.entryBlock
  compares : ∀ header c op l r ty, f.getBlock lp.header = some header →
    branchCondition header.terminator = some c → .binOp c op l r ty ∈ header.instructions →
    op ∈ ["<", "<=", ">", ">="] ∧ ConstFits h f 4 l ∧ ConstFits h f 4 r
  entries : ∀ b ∈ f.blocks, b.id ∉ lp.blocks → ∀ c ta ea,
    b.terminator ≠ .condBranch c lp.header ta lp.header ea
  starts : ∀ header, f.getBlock lp.header = some header → ∀ b ∈ f.blocks, b.id ∉ lp.blocks →
    ∀ args v, entryArgs lp.header b.terminator = some args →
      args[(header.params.map (·.val)).idxOf vid]? = some v → ConstFits h f 4 v
  steps : ∀ id ∈ lp.backEdges, ∀ latch, f.getBlock id = some latch → ∀ d op l r,
    OnChain f lp vid d → stepDef latch.instructions d = some (op, l, r) →
    ConstFits h f 4 l ∧ ConstFits h f 4 r

/-- A step on integers of its type, with its exact result in the type. -/
structure StepReads (op ty : String) (x y : BitVec 64) : Prop where
  left : (IntTy.ofRepr ty).Contains x.toInt
  right : (IntTy.ofRepr ty).Contains y.toInt
  exact : ∀ z, exactResult (plainOp op) x.toInt y.toInt = some z → (IntTy.ofRepr ty).Contains z

/-- What `induction_range` takes for granted of a state of a run: the loop is left when the condition is
false, and the steps of the chain are exact. -/
structure InductionStep (f : Function) (lp : NaturalLoop) (vid : ValueId) (s : Frame × World) :
    Prop where
  leaves : LeavesWhenFalse f lp s
  steps : ∀ d, OnChain f lp vid d → ∀ op l r ty rest, s.1.code = .binOp d op l r ty :: rest →
    op ∈ ["+", "wrapping_+", "-", "wrapping_-"] →
    ∃ x y, s.1.regs l = .int x ∧ s.1.regs r = .int y ∧ StepReads op ty x y

theorem step_result {h : Host} {safe : Bool} {op ty : String} {x y v : BitVec 64} {z : Int}
    (hop : op ∈ ["+", "wrapping_+", "-", "wrapping_-"]) (hr : StepReads op ty x y)
    (hz : exactResult (plainOp op) x.toInt y.toInt = some z) (hin : IntTy.int.Contains z)
    (hres : h.evalBinOp safe op ty (.int x) (.int y) = .ok (.int v)) : v.toInt = z := by
  have hx := decode_of_contains hr.left
  have hy := decode_of_contains hr.right
  have hT := hr.exact z hz
  have hw : (IntTy.ofRepr ty).wrap z = z := IntTy.wrap_of_contains hT
  have hc : (IntTy.ofRepr ty).checked z = .ok z := by
    unfold IntTy.checked
    rw [hw, if_pos hT, ite_self]
  have hout : evalIntBinOp safe op ty x y =
      .ok (if ty = "Bool" then .bool ((IntTy.ofRepr ty).encode z ≠ 0)
        else .int ((IntTy.ofRepr ty).encode z)) := by
    simp only [List.mem_cons, List.not_mem_nil, or_false] at hop
    rcases hop with rfl | rfl | rfl | rfl <;> obtain rfl := Option.some.inj hz <;> cases safe <;>
      simp [evalIntBinOp, IntOp.ofSpelling, IntTy.eval, IntOp.unchecked, hx, hy, hw, hc]
  have hres' : evalIntBinOp safe op ty x y = .ok (.int v) := by
    simp only [Host.evalBinOp, Val.bits] at hres
    split_ifs at hres
    · cases hres
    · exact hres
  rw [hout] at hres'
  split_ifs at hres'
  · cases hres'
  · cases hres'
    exact IntTy.decode_encode (T := .int) hin

/-- The comparison of the header: its operands are the parameter and the bound, and when it holds
the parameter is at most the last value the body runs for. -/
theorem inductionCheckOf_true {f : Function} {params : List ValueId} {cond iVid : ValueId}
    {bound hi : Int} (h : inductionCheckOf f params cond i = some (iVid, op, bound))
    (hedge : bodyEdge op bound = some hi) :
    ∃ op' l r ty bnd, i = .binOp cond op' l r ty ∧ (iVid = l ∧ bnd = r ∨ iVid = r ∧ bnd = l) ∧
      constExprIntValue f bnd = some bound ∧ (op' ∈ ["<", "<=", ">", ">="] →
        ∀ (host : Host) (safe : Bool) (rd : ValueId → Val) (x : BitVec 64) (res : Val),
          rd iVid = .int x → rd bnd = .int (.ofInt 64 bound) →
          host.evalBinOp safe op' ty (rd l) (rd r) = .ok res → res.truthy = true → x.toInt ≤ hi) := by
  -- a passed comparison bounds the parameter
  have passed : ∀ {x : Int}, op ∈ ["<", "<="] → compares op x bound = true → x ≤ hi := by
    intro x hop hcmp
    simp only [List.mem_cons, List.not_mem_nil, or_false] at hop
    rcases hop with rfl | rfl
    · obtain ⟨rfl, -⟩ := checkedI64_eq_some.mp hedge
      have := of_decide_eq_true hcmp
      omega
    · cases hedge
      exact of_decide_eq_true hcmp
  cases i with
  | binOp d op' l r ty =>
    simp only [inductionCheckOf] at h
    split_ifs at h with h₁ h₂ h₃
    · simp only [bind_eq_bind, bind_some] at h
      split_ifs at h with hop
      obtain ⟨B, hB, he⟩ := map_eq_some_iff.mp h
      obtain ⟨rfl, hpair⟩ := Prod.mk.inj he
      obtain ⟨rfl, rfl⟩ := Prod.mk.inj hpair
      obtain ⟨rfl, hty⟩ : d = cond ∧ (ty = "Bool" ∨ ty = "Int") := by tauto
      refine ⟨op', l, r, ty, r, rfl, .inl ⟨rfl, rfl⟩, hB, fun hop' host safe rd x res hx hb hres ht => ?_⟩
      rw [hx, hb, evalBinOp_compare _ _ hop' hty,
        toInt_ofInt (constExprIntValueDepth_contains hB)] at hres
      cases hres
      exact passed hop ht
    · simp only [bind_eq_bind, bind_some] at h
      split_ifs at h with hop
      obtain ⟨B, hB, he⟩ := map_eq_some_iff.mp h
      obtain ⟨rfl, hpair⟩ := Prod.mk.inj he
      obtain ⟨rfl, rfl⟩ := Prod.mk.inj hpair
      obtain ⟨rfl, hty⟩ : d = cond ∧ (ty = "Bool" ∨ ty = "Int") := by tauto
      refine ⟨op', l, r, ty, l, rfl, .inr ⟨rfl, rfl⟩, hB, fun hop' host safe rd x res hx hb hres ht => ?_⟩
      rw [hx, hb, evalBinOp_compare _ _ hop' hty,
        toInt_ofInt (constExprIntValueDepth_contains hB)] at hres
      cases hres
      exact passed hop ((compares_mirroredOp hop' x.toInt B).2.trans ht)
    · cases h
  | _ => cases h

variable {vs : List Val}

theorem edge_of_goto {f : Function} {t : Terminator} {rd : ValueId → Val}
    {id : BasicBlockId} (h : t.exit f rd = .goto id vs) :
    ∃ args, (id, args) ∈ t.edges ∧ vs = args.map rd ∧ args ⊆ t.vids := by
  cases t with
  | branch t args =>
    cases h
    exact ⟨args, List.mem_singleton_self _, rfl, List.Subset.refl _⟩
  | condBranch c t ta e ea =>
    simp only [Terminator.exit] at h
    split_ifs at h
    · cases h
      exact ⟨ta, List.mem_cons_self, rfl, fun v hv =>
        List.mem_append_left _ (List.mem_cons_of_mem _ hv)⟩
    · cases h
      exact ⟨ea, List.mem_cons_of_mem _ (List.mem_singleton_self _), rfl, fun v hv =>
        List.mem_append_right _ hv⟩
  | ret v => cases h
  | unreachable => cases h

theorem entryArgs_of_edge {header : BasicBlockId} {t : Terminator} {args : List ValueId}
    (hone : ∀ c ta ea, t ≠ .condBranch c header ta header ea) (h : (header, args) ∈ t.edges) :
    entryArgs header t = some args := by
  cases t with
  | branch t args' =>
    cases List.mem_singleton.mp h
    exact if_pos rfl
  | condBranch c t ta e ea =>
    simp only [Terminator.edges, List.mem_cons, Prod.mk.injEq, List.not_mem_nil, or_false] at h
    rcases h with ⟨rfl, rfl⟩ | ⟨rfl, rfl⟩
    · exact if_pos rfl
    · have hne : t ≠ header := fun he => hone c ta args (he ▸ rfl)
      rw [entryArgs, if_neg hne, if_pos rfl]
  | ret v => cases h
  | unreachable => cases h

/-- In a list without repetition, a paired value is at the position of its key. -/
theorem getElem?_idxOf_of_mem_zip {ks : List ValueId} {k : ValueId} {v : Val}
    (hk : ks.Nodup) (h : (k, v) ∈ ks.zip vs) : vs[ks.idxOf k]? = some v := by
  obtain ⟨j, hj⟩ := List.mem_iff_getElem?.mp h
  obtain ⟨hkj, hvj⟩ := List.getElem?_zip_eq_some.mp hj
  obtain ⟨hlt, rfl⟩ := List.getElem?_eq_some_iff.mp hkj
  rw [List.Nodup.idxOf_getElem hk]
  exact hvj

/-! ## The invariant -/

section
variable {P : Program} {f : Function} {lp : NaturalLoop} {pi : ProvenInduction} {n : Nat}
  {idom : Cfg.Idom} {b : BasicBlock} {before : List Inst} {s : Frame × World}

/-- The parameter is at most the last value the body runs for in the body, and the links the latch has
executed are between the start and their bounds. -/
structure InductionInv (L : InductionProof f lp pi) (b : BasicBlock) (before : List Inst)
    (regs : ValueId → Val) : Prop where
  guard : GuardInv L.toGuard (fun v => ∀ x, v = .int x → x.toInt ≤ L.hi) b before regs
  links : b = L.latch → ∀ d bound, StepBound f lp L.iVid L.latch.instructions L.hi d bound →
    d ∈ destsOf before → ∀ x, regs d = .int x → pi.lo ≤ x.toInt ∧ x.toInt ≤ bound

namespace InductionProof
variable (L : InductionProof f lp pi)
include L

theorem latchId_mem : L.latchId ∈ lp.backEdges := L.sole ▸ List.mem_singleton_self _

theorem latch_spec (V : Verified n f idom) (hlp : lp.Closed f idom) :
    L.latch ∈ f.blocks ∧ L.latch.id ∈ lp.blocks ∧ L.latch.id ≠ lp.header := by
  obtain ⟨hmem, hid⟩ := Function.getBlock_eq_some L.latch_get
  obtain ⟨args, hjump, -⟩ := L.jumps
  exact ⟨hmem, hid ▸ hlp.backEdges _ L.latchId_mem, L.ne_header V hmem hjump⟩

theorem iVid_available (V : Verified n f idom) (hlp : lp.Closed f idom) (hb' : b ∈ f.blocks)
    (hbody : b.id ∈ lp.blocks) (hr : (idom b.id).isSome) : Available f (Anc idom) b before L.iVid := by
  obtain ⟨hmem, hid⟩ := L.header_spec
  by_cases hb : b.id = lp.header
  · obtain rfl : b = L.header := List.inj_on_of_nodup_map V.ids hb' hmem (hb.trans hid.symm)
    exact .inl L.iVid_headDef
  · exact .inr (.inr ⟨L.header, hmem, hid ▸ Ne.symm hb, List.mem_append_left _ L.iVid_headDef,
      hid ▸ hlp.dominated _ hbody hr⟩)

/-- The start is a constant. -/
theorem lo_contains : IntTy.int.Contains pi.lo :=
  entryStart_contains (fun _ h => by cases h) L.starts

end InductionProof

namespace InductionInv
variable {L : InductionProof f lp pi}

theorem bounds (V : Verified n f idom) (hlp : lp.Closed f idom)
    (hJ : InductionInv L L.latch before s.1.regs)
    (hlow : ∀ x, s.1.regs L.iVid = .int x → pi.lo ≤ x.toInt) {d : ValueId} {bound : Int}
    (h : StepBound f lp L.iVid L.latch.instructions L.hi d bound)
    (hav : Available f (Anc idom) L.latch before d) :
    ∀ x, s.1.regs d = .int x → pi.lo ≤ x.toInt ∧ x.toInt ≤ bound := by
  obtain ⟨hmem, hbody, hne⟩ := L.latch_spec V hlp
  cases h with
  | root => exact fun x hx => ⟨hlow x hx, hJ.guard.body hbody hne x hx⟩
  | @link _ _ l r op _ _ hprev hc hdef hstep hpos hin =>
    refine hJ.links rfl d _ (.link hprev hc hdef hstep hpos hin) ?_
    obtain ⟨-, ty, hi⟩ := stepDef_mem hdef
    obtain ⟨pre, post, hi⟩ := List.append_of_mem hi
    exact V.dest_of_available hmem hi (List.mem_singleton_self d) hav

theorem after (V : Verified n f idom) (hlp : lp.Closed f idom)
    (hfit : InductionFits P.host f lp L.iVid) (hgood : InductionStep f lp L.iVid s)
    (hconst : FactsAt f idom (ConstFact P.host f) b before s.1.regs)
    (hlow : Available f (Anc idom) b before L.iVid → ∀ x, s.1.regs L.iVid = .int x →
      pi.lo ≤ x.toInt)
    (hat : At f idom b before s.1) (hJ : InductionInv L b before s.1.regs)
    {rest : List Inst} {ws : List (ValueId × Val)} {vars : String → Val} {w : World}
    (hcode : s.1.code = i :: rest)
    (hp : (s.1.effect P i).perform P f s.1.vars s.2 = .done ws vars w) :
    InductionInv L b (before ++ [i]) (s.1.after rest ws vars).regs := by
  have hi : b.instructions = before ++ i :: rest := hcode ▸ hat.code
  have hold : ∀ v, v ∉ i.dests → (s.1.after rest ws vars).regs v = s.1.regs v :=
    fun v hv => bindRegs_of_notMem (Effect.perform_dests hp ▸ hv)
  have hbin : ∀ {d op l r ty}, i = .binOp d op l r ty → ∃ res, (s.1.after rest ws vars).regs d = res ∧
      P.host.evalBinOp (d ∈ f.provenNoOverflow) op ty (s.1.regs l) (s.1.regs r) = .ok res := by
    rintro d op l r ty rfl
    obtain ⟨res, hres, -, hev⟩ := binOp_result hat.fn hp
    exact ⟨res, hres, hev⟩
  have hint : ∀ {v : ValueId} {u : BitVec 64} {k : Int}, s.1.regs v = .int u →
      Available f (Anc idom) b before v → ConstFits P.host f 4 v →
      constExprIntValue f v = some k → u.toInt = k := by
    intro v u k hu hav hfv hk
    have hv := hconst v hav 4 k hfv hk
    rw [hu] at hv
    rw [Val.int.inj hv]
    exact toInt_ofInt (constExprIntValueDepth_contains hk)
  refine ⟨hJ.guard.after V hat hcode hp fun hi' hb ht x hx => ?_, fun hl d bound hd hmem x hx => ?_⟩
  · obtain ⟨op, l, r, ty, bnd, htest, hsides, hbound, hholds⟩ := inductionCheckOf_true L.tests L.edge
    rw [← hi'] at htest
    obtain ⟨res, hres, hev⟩ := hbin htest
    obtain ⟨hop, hfl, hfr⟩ := hfit.compares L.header L.cond op l r ty L.header_get
      (by obtain ⟨t, ta, e, ea, hterm⟩ := L.branches; rw [hterm]; rfl)
      (htest ▸ hi' ▸ L.test_mem)
    have huse : ∀ v, v = l ∨ v = r → Available f (Anc idom) b before v := fun v hv =>
      V.use_available hat.mem hi (by rw [htest]; simpa [instructionUses] using hv)
    have hbv : s.1.regs bnd = .int (.ofInt 64 L.bound) := by
      rcases hsides with ⟨-, rfl⟩ | ⟨-, rfl⟩
      · exact hconst _ (huse _ (.inr rfl)) 4 _ hfr hbound
      · exact hconst _ (huse _ (.inl rfl)) 4 _ hfl hbound
    exact hholds hop P.host _ s.1.regs x res hx hbv hev (hres ▸ ht)
  · by_cases hd' : d ∈ i.dests
    · cases hd with
      | root => exact absurd hd' (L.iVid_not_dest V hat.mem hi)
      | @link prev _ l r op bnd delta hprev hc hdef hstep hpos hin =>
        subst hl
        obtain ⟨hop, ty, hlink⟩ := stepDef_mem hdef
        obtain ⟨pre, post, hlink⟩ := List.append_of_mem hlink
        obtain ⟨-, -, rfl⟩ := V.def_unique hat.mem hat.mem hi hd' hlink (List.mem_singleton_self _)
        obtain ⟨res, hres, hev⟩ := hbin rfl
        obtain ⟨u, u', hu, hu', hreads⟩ := hgood.steps d hc op l r ty rest hcode hop
        obtain ⟨hfl, hfr⟩ := hfit.steps _ L.latchId_mem _ L.latch_get d op l r hc hdef
        have hal := V.use_available (v := l) hat.mem hi (by simp [instructionUses])
        have har := V.use_available (v := r) hat.mem hi (by simp [instructionUses])
        -- the parameter is available in the latch, where its range is known from below
        have hlow' := hlow (L.iVid_available V hlp hat.mem (L.latch_spec V hlp).2.1 hat.reached)
        rw [hu, hu'] at hev
        rw [hx] at hres
        subst hres
        have close : ∀ {a : Int}, exactResult (plainOp op) u.toInt u'.toInt = some (a + delta) →
            pi.lo ≤ a → a ≤ bnd → pi.lo ≤ x.toInt ∧ x.toInt ≤ bnd + delta := by
          intro a hz ha hb
          have hzin : IntTy.int.Contains (a + delta) := by
            obtain ⟨h₁, h₂⟩ := hin
            have hlo : IntTy.int.lo ≤ pi.lo := L.lo_contains.1
            exact ⟨by omega, by omega⟩
          rw [step_result hop hreads hz hzin hev]
          exact ⟨by omega, by omega⟩
        cases hstep with
        | right hplus hp' hk =>
          subst hp'
          obtain ⟨h₁, h₂⟩ := hJ.bounds V hlp hlow' hprev hal u hu
          exact close (by rw [hplus, hint hu' har hfr hk]; rfl) h₁ h₂
        | left hplus hp' hk =>
          subst hp'
          obtain ⟨h₁, h₂⟩ := hJ.bounds V hlp hlow' hprev har u' hu'
          exact close (by rw [hplus, hint hu hal hfl hk, exactResult, Int.add_comm]) h₁ h₂
        | sub hminus hp' hk =>
          subst hp'
          obtain ⟨h₁, h₂⟩ := hJ.bounds V hlp hlow' hprev hal u hu
          exact close (by rw [hminus, hint hu' har hfr hk, exactResult, Int.sub_neg]) h₁ h₂
    · rw [destsOf, List.flatMap_append, List.mem_append] at hmem
      exact hJ.links hl d bound hd (hmem.resolve_right (by simpa using hd')) x (hold _ hd' ▸ hx)

theorem start (hentry : f.entryBlock ∉ lp.blocks) (hid : b.id = f.entryBlock)
    (regs : ValueId → Val) : InductionInv L b [] regs :=
  ⟨.start hentry hid regs, fun _ _ _ _ hd => by cases hd⟩

theorem into (V : Verified n f idom) (hlp : lp.Closed f idom)
    (hgood : InductionStep f lp L.iVid s) (hat : At f idom b b.instructions s.1)
    (hJ : InductionInv L b b.instructions s.1.regs) {c : BasicBlock}
    (hexit : b.terminator.exit f s.1.regs = .goto c.id vs) (ht : c.id ∈ b.terminator.targets)
    (hc : c ∈ f.blocks) : InductionInv L c [] (s.1.into c vs).regs :=
  ⟨hJ.guard.into V hlp hgood.leaves hat hexit ht hc, fun _ _ _ _ hd => by cases hd⟩

/-- What the parameter is bound to is in its range: from outside the start, from the latch the end
of the chain. -/
theorem enters (V : Verified n f idom) (hlp : lp.Closed f idom)
    (hback : ∀ b ∈ f.blocks, b.id ∈ lp.blocks → (idom b.id).isSome →
      lp.header ∈ Cfg.successors f b.id → b.id ∈ lp.backEdges)
    (hfit : InductionFits P.host f lp L.iVid)
    (hconst : FactsAt f idom (ConstFact P.host f) b b.instructions s.1.regs)
    (hlow : Available f (Anc idom) b b.instructions L.iVid → ∀ x, s.1.regs L.iVid = .int x →
      pi.lo ≤ x.toInt)
    (hat : At f idom b b.instructions s.1) (hJ : InductionInv L b b.instructions s.1.regs)
    {c : BasicBlock} (hexit : b.terminator.exit f s.1.regs = .goto c.id vs)
    (ht : c.id ∈ b.terminator.targets) (hc : c ∈ f.blocks) {val : Val}
    (hm : (L.iVid, val) ∈ (c.params.map (·.val)).zip vs) :
    ∀ x, val = .int x → pi.lo ≤ x.toInt ∧ x.toInt ≤ pi.hiEdge := by
  obtain ⟨hhmem, hhid⟩ := L.header_spec
  have hcid : c.id = lp.header := by
    by_contra hne
    exact L.iVid_not_param V hc hne (List.of_mem_zip hm).1
  obtain rfl : c = L.header := List.inj_on_of_nodup_map V.ids hc hhmem (hcid.trans hhid.symm)
  obtain ⟨args, hedge, rfl, hsub⟩ := edge_of_goto hexit
  obtain ⟨arg, harg, hav, rfl⟩ : ∃ arg, args[(L.header.params.map (·.val)).idxOf L.iVid]? = some arg ∧
      Available f (Anc idom) b b.instructions arg ∧ s.1.regs arg = val := by
    have hval := getElem?_idxOf_of_mem_zip (V.params_nodup hc (hcid ▸ hfit.header)) hm
    rw [List.getElem?_map] at hval
    obtain ⟨arg, harg, he⟩ := map_eq_some_iff.mp hval
    exact ⟨arg, harg, V.termUse_available hat.mem (hsub (List.mem_of_getElem? harg)), he⟩
  rw [hcid] at hedge
  intro x hx
  by_cases hin : b.id ∈ lp.blocks
  · -- from inside, along the sole back edge
    have hlatch := hback b hat.mem hin hat.reached ((V.mem_successors hat.mem).mpr (hcid ▸ ht))
    rw [L.sole, List.mem_singleton] at hlatch
    obtain ⟨hlmem, hlid⟩ := Function.getBlock_eq_some L.latch_get
    obtain rfl : b = L.latch := List.inj_on_of_nodup_map V.ids hat.mem hlmem (hlatch.trans hlid.symm)
    obtain ⟨args', hjump, hnext⟩ := L.jumps
    rw [hjump] at hedge
    obtain rfl : args = args' := (Prod.mk.inj (List.mem_singleton.mp hedge)).2
    obtain rfl : arg = L.next := Option.some.inj (harg.symm.trans hnext)
    exact hJ.bounds V hlp (hlow (L.iVid_available V hlp hat.mem hin hat.reached)) L.chain hav x hx
  · have hentry : entryArgs lp.header b.terminator = some args :=
      entryArgs_of_edge (hfit.entries b hat.mem hin) hedge
    obtain ⟨arg', harg', hstart⟩ := (entryStart_const L.starts).2 b hat.mem hin args hentry
    obtain rfl : arg = arg' := Option.some.inj (harg.symm.trans harg')
    have hfits := hfit.starts L.header L.header_get b hat.mem hin args arg hentry harg
    have hval := hconst arg hav 4 pi.lo hfits hstart
    rw [hx] at hval
    rw [Val.int.inj hval, toInt_ofInt L.lo_contains]
    exact ⟨Int.le_refl _, Int.le_trans L.start_le L.chain.le⟩

end InductionInv

end

end Datara.Optimizer
