import Datara.Dmir.LoopGuard
import Datara.Optimizer.ConstExpr
import Datara.Optimizer.ProvenNoOverflow

/-!
# Overflow-check elision for induction variables, correct

The compared parameter stays within the loop edge in the body, because a natural loop is entered
through its header and the header was left with the condition true; each link of the latch's chain
stays within the edge and the steps so far (`LoopInv`). So no marked operator overflows.

`prove_loop` does not look at which successor of the header is the body, at the type of an
operator, or at the type of a constant expression. The result holds for the runs in which these do
not matter (`StaysBounded`, `ConstsFit`).
-/

namespace Datara.Optimizer

open Dmir Library

/-! ## What a proof of a loop says -/

/-- A value on the side of a bound that the condition bounds. -/
def BoundCheck.Within (c : BoundCheck) (bound x : Int) : Prop :=
  if c.increasing then x ≤ bound else bound ≤ x

/-- An integer in a register is within a bound. -/
def BoundCheck.Bounds (c : BoundCheck) (bound : Int) (val : Val) : Prop :=
  ∀ x, val = .int x → c.Within bound x.toInt

/-- A chain link adds a constant to its predecessor. -/
inductive AddsStep (f : Function) (op : String) (left right prev : ValueId) (delta : Int) : Prop
  | right (hop : op = "+") (hprev : prev = left) (hstep : constExprIntValue f right = some delta)
  | left (hop : op = "+") (hprev : prev = right) (hstep : constExprIntValue f left = some delta)
  | sub (hop : op = "-") (hprev : prev = left) (hstep : constExprIntValue f right = some (-delta))

/-- The links of a chain and their bounds, counted up from the parameter at the loop edge. -/
inductive LinkBound (f : Function) (latch : List Inst) (c : BoundCheck) (iVid : ValueId)
    (marked : List ValueId) : ValueId → Int → Prop
  | root {edge : Int} : c.edge = some edge → LinkBound f latch c iVid marked iVid edge
  | link {prev dest left right : ValueId} {op : String} {bound delta : Int} :
      LinkBound f latch c iVid marked prev bound → dest ∈ marked →
      chainLinkDef latch dest = some (op, left, right) →
      AddsStep f op left right prev delta → c.Within 0 (-delta) →
      IntTy.int.Contains (bound + delta) → LinkBound f latch c iVid marked dest (bound + delta)

/-- What `prove_loop` has established of a loop it marks. -/
structure LoopProof (f : Function) (lp : NaturalLoop) (marked : List ValueId) extends Guard f lp where
  latch : BasicBlock
  check : BoundCheck
  tests : boundCheckOf f (header.params.map (·.val)) cond test = some (iVid, check)
  latch_get : ∃ id ∈ lp.backEdges, f.getBlock id = some latch
  jumps : ∃ args, latch.terminator = .branch lp.header args
  bounds : ∀ d ∈ marked, ∃ bound, LinkBound f latch.instructions check iVid marked d bound

variable {i : Inst}

section
variable {f : Function} {lp : NaturalLoop} {c : BoundCheck} {iVid : ValueId}

theorem boundCheckOf_param {params : List ValueId} {cond : ValueId}
    (h : boundCheckOf f params cond i = some (iVid, c)) : iVid ∈ params ∧ cond ∈ i.dests := by
  cases i with
  | binOp d op l r ty =>
    simp only [boundCheckOf] at h
    split_ifs at h with h₁ h₂ h₃ h₄
    · obtain ⟨_, -, he⟩ := Option.map_eq_some_iff.mp h
      exact ⟨(Prod.mk.inj he).1 ▸ h₃, List.mem_singleton.mpr (by tauto)⟩
    · obtain ⟨_, -, he⟩ := Option.map_eq_some_iff.mp h
      exact ⟨(Prod.mk.inj he).1 ▸ h₄, List.mem_singleton.mpr (by tauto)⟩
  | _ => cases h

theorem latchValue_ok {k : Nat} {latch : BasicBlock} {v : ValueId}
    (h : latchValue f lp k = .ok (some (latch, v))) :
    (∃ id ∈ lp.backEdges, f.getBlock id = some latch) ∧
      ∃ args, latch.terminator = .branch lp.header args := by
  unfold latchValue at h
  split at h
  case h_1 id hedges =>
    split at h
    case h_1 => cases h
    case h_2 l hget =>
      split at h
      case h_1 target args ht =>
        split_ifs at h with hh
        obtain ⟨_, -, he⟩ := Option.map_eq_some_iff.mp (Except.ok.inj h)
        obtain rfl := (Prod.mk.inj he).1
        exact ⟨⟨id, by rw [hedges]; exact List.mem_singleton_self id, hget⟩, args, hh ▸ ht⟩
      case h_2 => cases h
  case h_2 => cases h

variable {header : BasicBlockId}

theorem chainLink_ok {cursor left right prev : ValueId} {op : String}
    {delta : Int} (hop : op = "+" ∨ op = "-")
    (h : chainLink f header cursor op left right = .ok (some (prev, delta))) :
    AddsStep f op left right prev delta := by
  unfold chainLink at h
  split_ifs at h with hplus
  · split at h
    case h_1 s hs =>
      cases h
      exact .right hplus rfl hs
    case h_2 =>
      split at h
      case h_1 s hs =>
        cases h
        exact .left hplus rfl hs
      case h_2 => cases h
  · split at h
    case h_1 s hs =>
      obtain ⟨d, hd, he⟩ := Option.map_eq_some_iff.mp (Except.ok.inj h)
      cases he
      obtain ⟨rfl, -⟩ := checkedI64_eq_some.mp hd
      exact .sub (hop.resolve_left hplus) rfl (by rw [hs, Int.neg_neg])
    case h_2 => cases h

theorem chainLinkDef_mem {is : List Inst} {d left right : ValueId} {op : String}
    (h : chainLinkDef is d = some (op, left, right)) :
    (op = "+" ∨ op = "-") ∧ ∃ ty, .binOp d op left right ty ∈ is := by
  obtain ⟨i, hi, h⟩ := List.exists_of_findSome?_eq_some h
  cases i with
  | binOp d' op' l r ty =>
    simp only [Option.ite_none_right_eq_some, Option.some.injEq, Prod.mk.injEq] at h
    obtain ⟨⟨rfl, hop⟩, rfl, rfl, rfl⟩ := h
    exact ⟨hop, ty, hi⟩
  | _ => cases h

/-- A chain whose first link follows `prev`. -/
inductive LinkChain (f : Function) (latch : List Inst) : ValueId → List (ValueId × Int) → Prop
  | nil (prev : ValueId) : LinkChain f latch prev []
  | cons {prev dest left right : ValueId} {op : String} {delta : Int}
      {links : List (ValueId × Int)} : chainLinkDef latch dest = some (op, left, right) →
      AddsStep f op left right prev delta → LinkChain f latch dest links →
      LinkChain f latch prev ((dest, delta) :: links)

theorem chainLinks_ok {latch : List Inst} {room : Nat} {cursor : ValueId}
    {links out : List (ValueId × Int)}
    (h : chainLinks f header latch iVid room cursor links = .ok (some out))
    (hlinks : LinkChain f latch cursor links) : LinkChain f latch iVid out := by
  induction room generalizing cursor links with
  | zero =>
    unfold chainLinks at h
    split_ifs at h with hc
    cases h
    exact hc ▸ hlinks
  | succ room ih =>
    unfold chainLinks at h
    split_ifs at h with hc
    · cases h
      exact hc ▸ hlinks
    · cases hdef : chainLinkDef latch cursor with
      | none => simp [hdef] at h
      | some d =>
        obtain ⟨op, left, right⟩ := d
        simp only [hdef] at h
        obtain ⟨link, hlink, h⟩ := bind_ok_iff.mp h
        cases link with
        | none => cases h
        | some link =>
          obtain ⟨prev, delta⟩ := link
          exact ih h (.cons hdef (chainLink_ok (chainLinkDef_mem hdef).1 hlink) hlinks)

/-- **Every link that was checked is bounded.** -/
theorem LinkChain.bounded {latch : List Inst} {prev : ValueId}
    {links : List (ValueId × Int)} {bound : Int} {marked out : List ValueId}
    (h : LinkChain f latch prev links) (hprev : LinkBound f latch c iVid marked prev bound)
    (hdir : checkDirection header c links = .ok ())
    (hout : checkLinks header c bound links = .ok out) (hsub : out ⊆ marked) :
    ∀ d ∈ out, ∃ bound, LinkBound f latch c iVid marked d bound := by
  induction h generalizing bound out with
  | nil prev =>
    cases hout
    exact fun d hd => absurd hd List.not_mem_nil
  | @cons prev dest left right op delta links hdef hstep _ ih =>
    have hdir := forM_ok_iff.mp hdir
    unfold checkLinks at hout
    cases hext : checkedI64 (bound + delta) with
    | none => simp [hext] at hout
    | some extreme =>
      simp only [hext] at hout
      obtain ⟨rest, hrest, hout⟩ := bind_ok_iff.mp hout
      cases hout
      obtain ⟨hdest, hsub⟩ := List.cons_subset.mp hsub
      obtain ⟨rfl, hin⟩ := checkedI64_eq_some.mp hext
      have hlink : LinkBound f latch c iVid marked dest (bound + delta) := by
        refine .link hprev hdest hdef hstep ?_ hin
        have hd := hdir (dest, delta) List.mem_cons_self
        unfold BoundCheck.Within
        by_cases hc : c.increasing = true
        · simp only [hc, if_true, not_true_eq_false, and_false, false_or, and_true] at hd ⊢
          split_ifs at hd
          omega
        · simp only [hc, if_false, not_false_eq_true, and_true, and_false, or_false,
            Bool.false_eq_true] at hd ⊢
          split_ifs at hd
          omega
      intro d hd
      rcases List.mem_cons.mp hd with rfl | hd
      · exact ⟨_, hlink⟩
      · exact ih hlink (forM_ok_iff.mpr fun x hx => hdir x (List.mem_cons_of_mem _ hx)) hrest hsub
          d hd

theorem proveLoop_ok {marked : List ValueId} {text : String}
    (h : proveLoop f lp = .ok (some (marked, text))) : Nonempty (LoopProof f lp marked) := by
  unfold proveLoop at h
  split at h
  case h_1 => cases h
  case h_2 header hget =>
    split at h
    case h_2 => cases h
    case h_1 cond t ta e ea ht =>
      simp only at h
      split at h
      case h_1 => cases h
      case h_2 iVid check hfind =>
        obtain ⟨test, htest, hcheck⟩ := exists_of_foldl_or hfind
        obtain ⟨l, hl, h⟩ := bind_ok_iff.mp h
        cases l with
        | none => cases h
        | some l =>
          obtain ⟨latch, nextVid⟩ := l
          obtain ⟨links, hlinks, h⟩ := bind_ok_iff.mp h
          cases links with
          | none => cases h
          | some links =>
            obtain ⟨hlatch, hjumps⟩ := latchValue_ok hl
            simp only [proveChain] at h
            split_ifs at h
            · cases h
            obtain ⟨⟨⟩, hdir, h⟩ := bind_ok_iff.mp h
            cases hedge : check.edge with
            | none => simp [hedge] at h
            | some edge =>
              simp only [hedge] at h
              obtain ⟨m, hm, h⟩ := bind_ok_iff.mp h
              cases h
              exact ⟨{
                header, latch, cond, iVid, check, test
                header_get := hget
                branches := ⟨t, ta, e, ea, ht⟩
                param := (boundCheckOf_param hcheck).1
                test_mem := htest
                cond_mem := (boundCheckOf_param hcheck).2
                tests := hcheck
                latch_get := hlatch
                jumps := hjumps
                bounds := (chainLinks_ok hlinks (.nil _)).bounded (.root hedge) hdir hm
                  (List.Subset.refl _) }⟩

end

/-! ## The arithmetic of a link -/

/-- A marked operator reads integers that its type holds, and does not take a 64-bit unsigned one
below zero. -/
structure LinkReads (op ty : String) (x y : BitVec 64) : Prop where
  left : (IntTy.ofRepr ty).Contains x.toInt
  right : (IntTy.ofRepr ty).Contains y.toInt
  nonneg : (IntTy.ofRepr ty).signed = false → (IntTy.ofRepr ty).narrow = false →
    ∀ z, exactResult op x.toInt y.toInt = some z → 0 ≤ z

variable {safe : Bool} {h : Host}

section
variable {T : IntTy} {op ty : String} {x y : BitVec 64} {z : Int} {c : BoundCheck}

theorem decode_of_contains (h : T.Contains x.toInt) : T.decode x = x.toInt := by
  unfold IntTy.decode
  split_ifs with hs
  · rfl
  · have hnn : 0 ≤ x.toInt := by
      have := h.1
      rwa [IntTy.lo, if_neg hs] at this
    rw [BitVec.toInt_eq_toNat_cond] at hnn ⊢
    split_ifs at hnn ⊢ <;> omega

theorem checked_eq_wrap (hin : IntTy.int.Contains z)
    (hnn : T.signed = false → T.narrow = false → 0 ≤ z) : T.checked z = .ok (T.wrap z) := by
  unfold IntTy.checked
  split_ifs with hn hc
  · rfl
  · rw [IntTy.wrap_of_contains hc]
  · refine absurd ?_ hc
    cases T <;> simp [IntTy.Contains, IntTy.lo, IntTy.hi, IntTy.signed, IntTy.width, IntTy.narrow]
      at * <;> omega

/-- A step reduced to the type is no further than the step. -/
theorem wrap_toward {a : Int} (ha : T.Contains a) (hin : IntTy.int.Contains z)
    (hnn : T.signed = false → T.narrow = false → 0 ≤ z) :
    IntTy.int.Contains (T.wrap z) ∧ (a ≤ z → T.wrap z ≤ z) ∧ (z ≤ a → z ≤ T.wrap z) := by
  obtain ⟨h₁, h₂⟩ := ha
  obtain ⟨h₃, h₄⟩ := hin
  obtain ⟨h₅, h₆⟩ := T.contains_wrap z
  cases T <;> simp only [IntTy.Contains, IntTy.lo, IntTy.hi, IntTy.signed, IntTy.width,
    IntTy.narrow, IntTy.wrap, if_true, if_false, Bool.false_eq_true, forall_const, reduceCtorEq,
    IsEmpty.forall_iff, Nat.reduceLT, decide_false, decide_true] at * <;> omega

/-- **What a link computes**, marked or not. -/
theorem evalBinOp_link (hop : op = "+" ∨ op = "-")
    (hr : LinkReads op ty x y) (hz : exactResult op x.toInt y.toInt = some z)
    (hin : IntTy.int.Contains z) :
    h.evalBinOp safe op ty (.int x) (.int y) =
      if op = "+" ∧ mentionsStr ty then .ok (.str (h.textOf (.int x) ++ h.textOf (.int y)))
      else .ok (if ty = "Bool" then .bool ((IntTy.ofRepr ty).encode ((IntTy.ofRepr ty).wrap z) ≠ 0)
        else .int ((IntTy.ofRepr ty).encode ((IntTy.ofRepr ty).wrap z))) := by
  have hchecked := checked_eq_wrap hin fun hs hn => hr.nonneg hs hn z hz
  have hx := decode_of_contains hr.left
  have hy := decode_of_contains hr.right
  rcases hop with rfl | rfl
  · cases hz
    by_cases hstr : mentionsStr ty = true
    · simp [Host.evalBinOp, hstr]
    · cases safe <;>
        simp [Host.evalBinOp, hstr, evalIntBinOp, IntOp.ofSpelling, IntTy.eval, IntOp.unchecked,
          Val.bits, hx, hy, hchecked]
  · cases hz
    cases safe <;>
      simp [Host.evalBinOp, evalIntBinOp, IntOp.ofSpelling, IntTy.eval, IntOp.unchecked,
        Val.bits, hx, hy, hchecked]

theorem link_bounds {a bound delta : Int} {res : Val}
    (hop : op = "+" ∨ op = "-") (hr : LinkReads op ty x y)
    (hz : exactResult op x.toInt y.toInt = some z) (hin : IntTy.int.Contains z)
    (ha : (IntTy.ofRepr ty).Contains a) (hstep : z = a + delta) (hdir : c.Within 0 (-delta))
    (hbound : c.Within bound a)
    (hres : h.evalBinOp safe op ty (.int x) (.int y) = .ok res) :
    c.Bounds (bound + delta) res := by
  rw [evalBinOp_link hop hr hz hin] at hres
  intro v hv
  subst hv
  obtain ⟨hw, hup, hdown⟩ := wrap_toward ha hin fun hs hn => hr.nonneg hs hn z hz
  split_ifs at hres
  · cases hres
  · cases hres
  · cases hres
    have hint : ((IntTy.ofRepr ty).encode ((IntTy.ofRepr ty).wrap z)).toInt =
        (IntTy.ofRepr ty).wrap z := IntTy.decode_encode (T := .int) hw
    rw [hint]
    unfold BoundCheck.Within at *
    split_ifs at * <;> omega

end

/-- A comparison of integers. -/
def compares (op : String) (x y : Int) : Bool :=
  match op with
  | "<" => x < y
  | "<=" => x ≤ y
  | ">" => y < x
  | _ => y ≤ x

theorem evalBinOp_compare {op ty : String} (x y : BitVec 64)
    (hop : op ∈ ["<", "<=", ">", ">="]) (hty : ty = "Bool" ∨ ty = "Int") :
    h.evalBinOp safe op ty (.int x) (.int y) = .ok (.bool (compares op x.toInt y.toInt)) := by
  simp only [List.mem_cons, List.not_mem_nil, or_false] at hop
  cases safe <;> rcases hop with rfl | rfl | rfl | rfl <;> rcases hty with rfl | rfl <;> rfl

theorem compares_mirroredOp {op : String} (hop : op ∈ ["<", "<=", ">", ">="]) (x y : Int) :
    mirroredOp op ∈ ["<", "<=", ">", ">="] ∧ compares (mirroredOp op) x y = compares op y x := by
  simp only [List.mem_cons, List.not_mem_nil, or_false] at hop
  rcases hop with rfl | rfl | rfl | rfl <;> exact ⟨by decide, rfl⟩

theorem BoundCheck.within_edge {c : BoundCheck} {x edge : Int} (hop : c.op ∈ ["<", "<=", ">", ">="])
    (h : compares c.op x c.bound = true) (hedge : c.edge = some edge) : c.Within edge x := by
  obtain ⟨op, bound, mirrored⟩ := c
  simp only [List.mem_cons, List.not_mem_nil, or_false] at hop
  rcases hop with rfl | rfl | rfl | rfl <;>
    simp [BoundCheck.edge, checkedI64_eq_some, compares, BoundCheck.Within,
      BoundCheck.increasing] at hedge h ⊢ <;> omega

/-- The comparison of the header: its operands are the parameter and the bound, and when it holds
the parameter is within the loop edge. -/
theorem boundCheckOf_true {f : Function} {params : List ValueId} {cond iVid : ValueId}
    {c : BoundCheck} (h : boundCheckOf f params cond i = some (iVid, c)) :
    ∃ op l r ty bound, i = .binOp cond op l r ty ∧ (iVid = l ∧ bound = r ∨ iVid = r ∧ bound = l) ∧
      constExprIntValue f bound = some c.bound ∧
      ∀ (host : Host) (safe : Bool) (rd : ValueId → Val) (x : BitVec 64) (res : Val),
        rd iVid = .int x → rd bound = .int (.ofInt 64 c.bound) →
        host.evalBinOp safe op ty (rd l) (rd r) = .ok res → res.truthy = true →
        ∀ edge, c.edge = some edge → c.Within edge x.toInt := by
  have slot : ∀ {v : ValueId} {B : Int}, constExprIntValue f v = some B →
      (BitVec.ofInt 64 B).toInt = B := fun hB =>
    IntTy.decode_encode (T := .int) (constExprIntValueDepth_contains hB)
  cases i with
  | binOp d op l r ty =>
    simp only [boundCheckOf] at h
    split_ifs at h with h₁ hop h₃ h₄
    · obtain ⟨B, hB, he⟩ := Option.map_eq_some_iff.mp h
      obtain ⟨rfl, rfl⟩ := Prod.mk.inj he
      obtain ⟨rfl, hty⟩ : d = cond ∧ (ty = "Bool" ∨ ty = "Int") := by tauto
      refine ⟨op, l, r, ty, r, rfl, .inl ⟨rfl, rfl⟩, hB, ?_⟩
      intro host safe rd x res hx hb hres ht edge hedge
      rw [hx, hb, evalBinOp_compare _ _ hop hty, slot hB] at hres
      cases hres
      exact BoundCheck.within_edge hop ht hedge
    · obtain ⟨B, hB, he⟩ := Option.map_eq_some_iff.mp h
      obtain ⟨rfl, rfl⟩ := Prod.mk.inj he
      obtain ⟨rfl, hty⟩ : d = cond ∧ (ty = "Bool" ∨ ty = "Int") := by tauto
      refine ⟨op, l, r, ty, l, rfl, .inr ⟨rfl, rfl⟩, hB, ?_⟩
      intro host safe rd x res hx hb hres ht edge hedge
      rw [hx, hb, evalBinOp_compare _ _ hop hty, slot hB] at hres
      cases hres
      obtain ⟨hop', hcmp⟩ := compares_mirroredOp hop x.toInt B
      exact BoundCheck.within_edge hop' (hcmp.trans ht) hedge
  | _ => cases h

/-! ## The invariant -/

/-- The condition of a branch. -/
def branchCondition : Terminator → Option ValueId
  | .condBranch c _ _ _ _ => some c
  | _ => none

/-- The constant expressions a proof of the loop rests on, the bound and the steps, mean what the walk
makes of them. -/
def ConstsFit (h : Host) (f : Function) (lp : NaturalLoop) (marked : List ValueId) : Prop :=
  ∀ b ∈ f.blocks, ∀ d op l r ty, .binOp d op l r ty ∈ b.instructions →
    (d ∈ marked ∨ ∃ header, f.getBlock lp.header = some header ∧
      branchCondition header.terminator = some d) → ConstFits h f 4 l ∧ ConstFits h f 4 r

/-- What `prove_loop` takes for granted of a state of a run: at the end of the header the loop is
left when the condition is false, and a marked operator reads integers of its type. -/
structure StaysBounded (f : Function) (lp : NaturalLoop) (marked : List ValueId)
    (s : Frame × World) : Prop where
  leaves : LeavesWhenFalse f lp s
  reads : ∀ d op l r ty rest, s.1.code = .binOp d op l r ty :: rest → d ∈ marked →
    ∃ x y, s.1.regs l = .int x ∧ s.1.regs r = .int y ∧ LinkReads op ty x y

section
variable {P : Program} {f : Function} {lp : NaturalLoop} {marked : List ValueId} {n : Nat}
  {idom : Cfg.Idom} {b : BasicBlock} {before : List Inst} {s : Frame × World}

/-- **The invariant of the loop**: the parameter is within the loop edge in the body, and in the
header once the condition was found true; the links the latch has executed are within their
bounds. -/
structure LoopInv (P : Program) (f : Function) (idom : Cfg.Idom) (lp : NaturalLoop)
    (L : LoopProof f lp marked) (b : BasicBlock) (before : List Inst) (regs : ValueId → Val) :
    Prop where
  consts : FactsAt f idom (ConstFact P.host f) b before regs
  guard : GuardInv L.toGuard (fun v => ∀ edge, L.check.edge = some edge → L.check.Bounds edge v) b
    before regs
  links : b = L.latch → ∀ d bound, LinkBound f L.latch.instructions L.check L.iVid marked d bound →
    d ∈ destsOf before → L.check.Bounds bound (regs d)

namespace LoopProof
variable (L : LoopProof f lp marked)
include L

theorem latch_spec (V : Verified n f idom) (hlp : lp.Closed f idom) :
    L.latch ∈ f.blocks ∧ L.latch.id ∈ lp.blocks ∧ L.latch.id ≠ lp.header := by
  obtain ⟨id, hback, hget⟩ := L.latch_get
  obtain ⟨hmem, hid⟩ := Function.getBlock_eq_some hget
  obtain ⟨args, hjump⟩ := L.jumps
  exact ⟨hmem, hid ▸ hlp.backEdges id hback, L.ne_header V hmem hjump⟩

end LoopProof

variable {w : World}

namespace LoopInv
variable {L : LoopProof f lp marked}

section
variable (V : Verified n f idom)
include V

theorem start (hentry : f.entryBlock ∉ lp.blocks) (hb : b ∈ f.blocks)
    (hid : b.id = f.entryBlock) (regs : ValueId → Val) :
    LoopInv P f idom lp L b [] regs :=
  ⟨.start V hid fun _ hv => .of_head V hb hv _, .start hentry hid regs, fun _ _ _ _ hd => by cases hd⟩

theorem prev_bounds (hlp : lp.Closed f idom)
    (hJ : LoopInv P f idom lp L L.latch before s.1.regs) {prev : ValueId} {bound : Int}
    (h : LinkBound f L.latch.instructions L.check L.iVid marked prev bound)
    (hav : Available f (Anc idom) L.latch before prev) : L.check.Bounds bound (s.1.regs prev) := by
  obtain ⟨hmem, hbody, hne⟩ := L.latch_spec V hlp
  cases h with
  | root hedge => exact hJ.guard.body hbody hne _ hedge
  | @link _ _ l r op _ _ hprev hm hdef hstep hdir hin =>
    refine hJ.links rfl prev _ (.link hprev hm hdef hstep hdir hin) ?_
    obtain ⟨-, ty, hi⟩ := chainLinkDef_mem hdef
    obtain ⟨pre, post, hi⟩ := List.append_of_mem hi
    exact V.dest_of_available hmem hi (List.mem_singleton_self prev) hav

/-- **A link about to execute** adds its step to a value within the bound before it. -/
theorem link_step (hlp : lp.Closed f idom)
    (hfit : ConstsFit P.host f lp marked) (hgood : StaysBounded f lp marked s)
    (hat : At f idom b before s.1) (hJ : LoopInv P f idom lp L b before s.1.regs)
    {rest : List Inst} (hcode : s.1.code = i :: rest) {d : ValueId} (hd : d ∈ i.dests) {bound' : Int}
    (h : LinkBound f L.latch.instructions L.check L.iVid marked d bound') :
    ∃ op l r ty x y z a bound delta, i = .binOp d op l r ty ∧ (op = "+" ∨ op = "-") ∧
      s.1.regs l = .int x ∧ s.1.regs r = .int y ∧ LinkReads op ty x y ∧
      exactResult op x.toInt y.toInt = some z ∧ IntTy.int.Contains z ∧
      (IntTy.ofRepr ty).Contains a ∧ z = a + delta ∧ bound' = bound + delta ∧
      L.check.Within 0 (-delta) ∧ L.check.Within bound a := by
  have hi : b.instructions = before ++ i :: rest := hcode ▸ hat.code
  cases h with
  | root hedge => exact absurd hd (L.iVid_not_dest V hat.mem hi)
  | @link prev _ l r op bound delta hprev hm hdef hstep hdir hin =>
    obtain ⟨hlmem, -, -⟩ := L.latch_spec V hlp
    obtain ⟨hop, ty, hlink⟩ := chainLinkDef_mem hdef
    have hlink' := hlink
    obtain ⟨pre, post, hlink⟩ := List.append_of_mem hlink
    obtain ⟨rfl, rfl, rfl⟩ := V.def_unique hat.mem hlmem hi hd hlink (List.mem_singleton_self _)
    obtain ⟨x, y, hx, hy, hreads⟩ := hgood.reads d op l r ty rest hcode hm
    obtain ⟨hfl, hfr⟩ := hfit _ hlmem d op l r ty hlink' (.inl hm)
    have hal := V.use_available (v := l) hat.mem hi (by simp [instructionUses])
    have har := V.use_available (v := r) hat.mem hi (by simp [instructionUses])
    -- the constant operand is the step, the other one the predecessor
    have hconst : ∀ {v : ValueId} {u : BitVec 64} {k : Int}, s.1.regs v = .int u →
        Available f (Anc idom) L.latch before v → ConstFits P.host f 4 v →
        constExprIntValue f v = some k → u.toInt = k := by
      intro v u k hu hav hfv hk
      have hv := hJ.consts v hav 4 k hfv hk
      rw [hu] at hv
      rw [Val.int.inj hv]
      exact IntTy.decode_encode (T := .int) (constExprIntValueDepth_contains hk)
    have hwithin : ∀ {a : Int}, IntTy.int.Contains a → L.check.Within bound a →
        IntTy.int.Contains (a + delta) := by
      intro a ha hb
      obtain ⟨h₁, h₂⟩ := hin
      obtain ⟨h₃, h₄⟩ := ha
      unfold BoundCheck.Within at hb hdir
      split_ifs at hb hdir <;> exact ⟨by omega, by omega⟩
    cases hstep with
    | right hplus hp hk =>
      subst hplus hp
      have hb := hJ.prev_bounds V hlp hprev hal x hx
      have hyk := hconst hy har hfr hk
      exact ⟨_, prev, r, ty, x, y, _, x.toInt, bound, delta, rfl, hop, hx, hy, hreads, rfl,
        hyk ▸ hwithin (IntTy.contains_decode_int x) hb, hreads.left, by rw [hyk], rfl, hdir, hb⟩
    | left hplus hp hk =>
      subst hplus hp
      have hb := hJ.prev_bounds V hlp hprev har y hy
      have hxk := hconst hx hal hfl hk
      have hcomm : x.toInt + y.toInt = y.toInt + delta := by rw [hxk, Int.add_comm]
      exact ⟨_, l, prev, ty, x, y, _, y.toInt, bound, delta, rfl, hop, hx, hy, hreads, rfl,
        hcomm ▸ hwithin (IntTy.contains_decode_int y) hb, hreads.right, hcomm, rfl, hdir, hb⟩
    | sub hminus hp hk =>
      subst hminus hp
      have hb := hJ.prev_bounds V hlp hprev hal x hx
      have hyk := hconst hy har hfr hk
      have hneg : x.toInt - y.toInt = x.toInt + delta := by rw [hyk]; omega
      exact ⟨_, prev, r, ty, x, y, _, x.toInt, bound, delta, rfl, hop, hx, hy, hreads, rfl,
        hneg ▸ hwithin (IntTy.contains_decode_int x) hb, hreads.left, hneg, rfl, hdir, hb⟩

theorem after (hlp : lp.Closed f idom)
    (hfit : ConstsFit P.host f lp marked) (hgood : StaysBounded f lp marked s)
    (hat : At f idom b before s.1) (hJ : LoopInv P f idom lp L b before s.1.regs)
    {rest : List Inst} {ws : List (ValueId × Val)} {vars : String → Val}
    (hcode : s.1.code = i :: rest)
    (hp : (s.1.effect P i).perform P f s.1.vars s.2 = .done ws vars w) :
    LoopInv P f idom lp L b (before ++ [i]) (s.1.after rest ws vars).regs := by
  have hi : b.instructions = before ++ i :: rest := hcode ▸ hat.code
  have hkeys : ws.map (·.1) = i.dests := Effect.perform_dests hp
  have hold : ∀ v, v ∉ i.dests → (s.1.after rest ws vars).regs v = s.1.regs v :=
    fun v hv => bindRegs_of_notMem (hkeys ▸ hv)
  have hsplit : ∀ {v}, v ∈ destsOf (before ++ [i]) → v ∉ i.dests → v ∈ destsOf before := by
    intro v hv hn
    rw [destsOf, List.flatMap_append, List.mem_append] at hv
    exact hv.resolve_right (by simpa using hn)
  -- what the instruction computes, when it is an operator
  have hbin : ∀ {d op l r ty}, i = .binOp d op l r ty → ∃ res, (s.1.after rest ws vars).regs d = res ∧
      P.host.evalBinOp (d ∈ f.provenNoOverflow) op ty (s.1.regs l) (s.1.regs r) = .ok res := by
    rintro d op l r ty rfl
    obtain ⟨res, hres, -, hev⟩ := binOp_result hat.fn hp
    exact ⟨res, hres, hev⟩
  refine ⟨hJ.consts.after hp (.of_inst V hat hJ.consts hcode hp),
    hJ.guard.after V hat hcode hp fun hi' hb ht => ?_, fun hl d bound hd hmem => ?_⟩
  · obtain ⟨op, l, r, ty, bound, htest, hsides, hbound, hholds⟩ := boundCheckOf_true L.tests
    rw [← hi'] at htest
    obtain ⟨res, hres, hev⟩ := hbin htest
    intro edge hedge x hx
    obtain ⟨hfl, hfr⟩ := hfit _ hat.mem L.cond op l r ty (by rw [hi, htest]; simp)
      (.inr ⟨L.header, L.header_get, by
        obtain ⟨t, ta, e, ea, hterm⟩ := L.branches
        rw [hterm]; rfl⟩)
    have huse : ∀ v, v = l ∨ v = r → Available f (Anc idom) b before v := fun v hv =>
      V.use_available hat.mem hi (by rw [htest]; simpa [instructionUses] using hv)
    have hb : s.1.regs bound = .int (.ofInt 64 L.check.bound) := by
      rcases hsides with ⟨-, rfl⟩ | ⟨-, rfl⟩
      · exact hJ.consts _ (huse _ (.inr rfl)) 4 _ hfr hbound
      · exact hJ.consts _ (huse _ (.inl rfl)) 4 _ hfl hbound
    exact hholds P.host _ s.1.regs x res hx hb hev (hres ▸ ht) edge hedge
  · by_cases hd' : d ∈ i.dests
    · obtain ⟨op, l, r, ty, x, y, z, a, bnd, delta, hi', hop, hx, hy, hr, hz, hin, ha, hza, rfl, hdir,
        hb⟩ := hJ.link_step V hlp hfit hgood hat hcode hd' hd
      obtain ⟨res, hres, hev⟩ := hbin hi'
      rw [hres]
      rw [hx, hy] at hev
      exact link_bounds hop hr hz hin ha hza hdir hb hev
    · rw [hold _ hd']
      exact hJ.links hl d bound hd (hsplit hmem hd')

/-- An edge keeps the invariant: a block of the body is entered from the loop, and from the header
with the condition true. -/
theorem into (hlp : lp.Closed f idom) (hgood : StaysBounded f lp marked s)
    (hat : At f idom b b.instructions s.1)
    (hJ : LoopInv P f idom lp L b b.instructions s.1.regs) {c : BasicBlock} {vs : List Val}
    (hexit : b.terminator.exit f s.1.regs = .goto c.id vs) (ht : c.id ∈ b.terminator.targets)
    (hc : c ∈ f.blocks) (hlen : vs.length = c.params.length) :
    LoopInv P f idom lp L c [] (s.1.into c vs).regs := by
  refine ⟨hJ.consts.into V hat.mem hc hat.reached ht hlen fun x hx => ?_,
    hJ.guard.into V hlp hgood.leaves hat hexit ht hc, fun _ d bound _ hd => by cases hd⟩
  exact .of_head V hc (List.mem_append_right _ (List.of_mem_zip hx).1) _

end

end LoopInv

theorem LoopProof.invariant (V : Verified n f idom) (hlp : lp.Closed f idom)
    (hentry : f.entryBlock ∉ lp.blocks) (L : LoopProof f lp marked)
    (hfit : ConstsFit P.host f lp marked) {args : List Val}
    (hgood : ∀ s, P.leafMachine.Steps (f.start args, w) s → StaysBounded f lp marked s)
    (h : P.leafMachine.Steps (f.start args, w) s) :
    ∃ b before, At f idom b before s.1 ∧ LoopInv P f idom lp L b before s.1.regs :=
  V.invariant (J := fun b before s => LoopInv P f idom lp L b before s.1.regs)
    (fun _ hb hid => .start V hentry hb hid _)
    (fun _ _ _ _ _ _ _ _ hs hat hJ hcode hp => hJ.after V hlp hfit (hgood _ hs) hat hcode hp)
    (fun _ _ _ _ hs hat hJ hexit ht hc hlen => hJ.into V hlp (hgood _ hs) hat hexit ht hc hlen) h

/-- **No marked operator overflows.** -/
theorem LoopProof.noOverflow (V : Verified n f idom) (hlp : lp.Closed f idom)
    (hentry : f.entryBlock ∉ lp.blocks) (L : LoopProof f lp marked)
    (hfit : ConstsFit P.host f lp marked) {args : List Val}
    (hgood : ∀ s, P.leafMachine.Steps (f.start args, w) s → StaysBounded f lp marked s)
    (h : P.leafMachine.Steps (f.start args, w) s) : NoOverflowAt P marked s := by
  intro d op l r ty rest hcode hm _
  obtain ⟨b, before, hat, hJ⟩ := L.invariant V hlp hentry hfit hgood h
  obtain ⟨bound, hbound⟩ := L.bounds d hm
  obtain ⟨op', l', r', ty', x, y, z, a, bnd, delta, hi, hop, hx, hy, hr, hz, hin, -⟩ :=
    hJ.link_step V hlp hfit (hgood s h) hat hcode (List.mem_singleton_self d) hbound
  cases hi
  refine ⟨x, y, z, hx, hy, ?_, hin, fun safe => ?_⟩
  · rw [decode_of_contains hr.left, decode_of_contains hr.right, hz]
  · rw [hx, hy, evalBinOp_link hop hr hz hin, evalBinOp_link hop hr hz hin]

end

/-- **Elision for induction variables is sound** in the runs that stay bounded: a marked operator never
overflows, and the marks are not observed. -/
theorem proveLoop_sound (P : Program) (f : Function) (hf : Accepts f) {n : Nat}
    {loops : List NaturalLoop} (hloops : Cfg.loops n f = some loops) {lp : NaturalLoop}
    (hlp : lp ∈ loops) (hne : lp.header ≠ f.entryBlock) {marked : List ValueId} {text : String}
    (hprove : proveLoop f lp = .ok (some (marked, text))) (hfit : ConstsFit P.host f lp marked)
    {args : List Val} {w : World}
    (hgood : ∀ s, P.leafMachine.Steps (f.start args, w) s → StaysBounded f lp marked s) :
    (∀ s, P.leafMachine.Steps (f.start args, w) s → NoOverflowAt P marked s) ∧
      ∀ o, P.RunsTo (markProven f marked) args w o ↔ P.RunsTo f args w o := by
  obtain ⟨m, hm⟩ := hf
  obtain ⟨idom, V⟩ := verifyFunction_ok_iff_verified.mp hm
  obtain ⟨hclosed, hentry, -⟩ := Cfg.loops_closed V.blocks_ne_nil V.dominance hloops hlp hne
  obtain ⟨L⟩ := proveLoop_ok hprove
  have hall : ∀ s, P.leafMachine.Steps (f.start args, w) s → NoOverflowAt P marked s :=
    fun s hs => L.noOverflow V hclosed hentry hfit hgood hs
  exact ⟨hall, fun o => runsTo_markProven_iff hall⟩

/-- A loop that counts its parameter by one. -/
def countingLoop (params : List Param) (entry : List Inst) (op step : String) (bound : BitVec 64)
    (thenBlock elseBlock : BasicBlockId) : Function where
  name := "f"
  params := params
  returnType := "Int"
  blocks :=
    [{ id := 0, instructions := entry, terminator := .branch 1 [0] },
     { id := 1, params := [⟨1, "Int", none⟩]
       instructions := [.constInt 2 bound, .binOp 3 op 1 2 "Int"]
       terminator := .condBranch 3 thenBlock [] elseBlock [] },
     { id := 2, instructions := [.constInt 4 1, .binOp 5 step 1 4 "Int"], terminator := .branch 1 [5] },
     { id := 3, instructions := [], terminator := .ret (some 1) }]

/-- An operator about to execute reads integers. -/
def readsInts (s : Frame × World) : Bool :=
  match s.1.code with
  | .binOp _ _ l r _ :: _ =>
    match s.1.regs l, s.1.regs r with
    | .int _, .int _ => true
    | _, _ => false
  | _ => true

/-- `i = 0; while i < 1 { i = i + 1 }`: the increment is marked, and does not overflow. -/
theorem proveLoop_sound_counting :
    (∀ s, (Program.bare []).leafMachine.Steps
        ((countingLoop [] [.constInt 0 0] "<" "+" 1 2 3).start [], World.initial) s →
      NoOverflowAt (Program.bare []) [5] s) ∧
    ∀ o, (Program.bare []).RunsTo
        (markProven (countingLoop [] [.constInt 0 0] "<" "+" 1 2 3) [5]) [] World.initial o ↔
      (Program.bare []).RunsTo (countingLoop [] [.constInt 0 0] "<" "+" 1 2 3) [] World.initial o := by
  refine proveLoop_sound (Program.bare []) _ ⟨16, rfl⟩ (n := 16) rfl (List.mem_singleton_self _)
    (by decide) rfl ?_ fun s hs => ⟨?_, ?_⟩
  · intro b hb d op l r ty hi _
    simp only [countingLoop, List.mem_cons, List.not_mem_nil, or_false] at hb
    rcases hb with rfl | rfl | rfl | rfl <;>
      simp only [List.mem_cons, List.not_mem_nil, or_false, reduceCtorEq, false_or,
        Inst.binOp.injEq] at hi
    all_goals
      obtain ⟨rfl, rfl, rfl, rfl, rfl⟩ := hi
      exact ⟨.of_no_binOp (by simp [countingLoop]) 4, .of_no_binOp (by simp [countingLoop]) 4⟩
  · intro header c t ta e ea hget hterm _ _ _
    cases hget
    cases hterm
    decide
  · intro d op l r ty rest hcode hm
    have hints := Machine.forall_of_always (n := 16) (p := readsInts) rfl hs
    have hty : ty = "Int" := by
      obtain ⟨b, hb, hi⟩ := (Function.mem_of_steps hs).2 _ (hcode ▸ List.mem_cons_self)
      simp only [countingLoop, List.mem_cons, List.not_mem_nil, or_false] at hb
      rcases hb with rfl | rfl | rfl | rfl <;>
        simp only [List.mem_cons, List.not_mem_nil, or_false, reduceCtorEq, false_or,
          Inst.binOp.injEq] at hi
      all_goals exact hi.2.2.2.2
    subst hty
    simp only [readsInts, hcode] at hints
    split at hints
    case h_1 x y hx hy =>
      exact ⟨x, y, hx, hy, IntTy.contains_decode_int x, IntTy.contains_decode_int y,
        fun h => Bool.noConfusion h⟩
    case h_2 => cases hints

/-- `while !(i > 0) { i = i - 1 }`: the decrement is marked, although the body is entered when the
comparison is false. -/
theorem proveLoop_not_sound :
    ¬∀ (P : Program) (f : Function), Accepts f → ∀ (n : Nat) (loops : List NaturalLoop),
      Cfg.loops n f = some loops → ∀ lp ∈ loops, lp.header ≠ f.entryBlock →
      ∀ marked text, proveLoop f lp = .ok (some (marked, text)) → ∀ args w s,
        P.leafMachine.Steps (f.start args, w) s → NoOverflowAt P marked s := by
  intro h
  have hno := h (Program.bare []) (countingLoop [⟨"n", "Int", 0⟩] [] ">" "-" 0 3 2) ⟨16, rfl⟩ 16 _ rfl
    { header := 1, backEdges := [2], blocks := [1, 2] } (List.mem_singleton_self _) (by decide) _ _
    rfl [.int (.intMin 64)] World.initial _
    -- into the header, its two instructions, into the body, the step
    (.head rfl (.head rfl (.head rfl (.head rfl (.head rfl (.refl _)))))) 5 "-" 1 4 "Int" [] rfl
    (List.mem_singleton_self _) (by decide)
  obtain ⟨x, y, z, hx, hy, hz, hin, -⟩ := hno
  cases hx
  cases hy
  cases hz
  exact absurd hin (by decide)

end Datara.Optimizer
