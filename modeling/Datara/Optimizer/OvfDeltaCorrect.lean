import Datara.Optimizer.InductionCorrect
import Datara.Optimizer.OvfRangeCorrect

/-!
# Range-guided elision, in the runs its transfer functions fit

A converged range fixpoint is a statement about the values of a run: the state of a value holds of
every value the run gives it (`RangeInv`), as soon as each operator stays in its interval and the seeds
do. A marked operator then does not overflow (`proveBodyArithmetic_sound`). What a run has to keep to
is `RangeStep`: the wrapping operators do not wrap, the bit operators stay in their intervals, and the
compared loop parameters step as `induction_range` takes them to.

Nothing is said of how the rounds went, only of what they end in: no item changes it.
-/

namespace Datara.Optimizer

open Dmir Library

/-- What a state says of a value. For a value the run reaches, something was derived. -/
def RState.Holds : RState → Val → Prop
  | .bot, _ => False
  | .known r, v => ∀ x, v = .int x → r.Contains x.toInt
  | .top, _ => True

/-- A join that changes nothing was one of a state that says no less. -/
theorem joinState_none {k : Nat} {old s : RState} (h : joinState k old s = none) :
    s = .bot ∨ old = .top ∨ ∃ r t, old = .known r ∧ s = .known t ∧ t.Within r := by
  cases old with
  | bot =>
    cases s with
    | bot => exact .inl rfl
    | known t => simp [joinState] at h
    | top => simp [joinState] at h
  | top => exact .inr (.inl rfl)
  | known r =>
    cases s with
    | bot => exact .inl rfl
    | top => simp [joinState] at h
    | known t =>
      refine .inr (.inr ⟨r, t, rfl, rfl, Range.within_of_union_eq ?_⟩)
      simpa [joinState] using h

theorem RState.Holds.of_join {k : Nat} {old s : RState} {v : Val} (h : joinState k old s = none)
    (hs : s.Holds v) : old.Holds v := by
  rcases joinState_none h with rfl | rfl | ⟨r, t, rfl, rfl, hw⟩
  · exact hs.elim
  · trivial
  · exact fun x hx => hw.contains (hs x hx)

theorem opState_holds {h : Host} {safe : Bool} {op : String} {x y : BitVec 64} {s t : RState}
    {res : Val} (hop : op ∈ rangeOps) (hs : s.Holds (.int x)) (ht : t.Holds (.int y))
    (hfits : OpFits op x y)
    (hsafe : safe = true → ∀ z, exactResult op x.toInt y.toInt = some z → IntTy.int.Contains z)
    (hres : h.evalBinOp safe op "Int" (.int x) (.int y) = .ok res) : (opState op s t).Holds res := by
  cases s with
  | bot => exact hs.elim
  | top => cases t <;> trivial
  | known r =>
    cases t with
    | bot => exact ht.elim
    | top => trivial
    | known r' =>
      obtain ⟨v, rfl, hv⟩ := ofOp_contains hop (hs x rfl) (ht y rfl) hfits hsafe hres
      exact fun u hu => Val.int.inj hu ▸ hv

/-- What the range proof takes for granted of a function: the entry block's parameters are the
function's, and the compared loop parameters fit. -/
structure RangesFit (h : Host) (f : Function) (loops : List NaturalLoop) : Prop where
  bound : f.unboundParams = []
  loops : ∀ lp ∈ loops, ∀ pi, inductionRange f lp = some pi → InductionFits h f lp pi.vid

/-- What the range proof takes for granted of a state of a run: an `Int` operator reads integers that
fit, the marks made before hold, and the compared loop parameters step as they are taken to. -/
structure RangeStep (P : Program) (f : Function) (loops : List NaturalLoop) (s : Frame × World) :
    Prop where
  fits : ∀ d op l r rest, s.1.code = .binOp d op l r "Int" :: rest → op ∈ rangeOps →
    ∃ x y, s.1.regs l = .int x ∧ s.1.regs r = .int y ∧ OpFits op x y
  marked : NoOverflowAt P f.provenNoOverflow s
  loops : ∀ lp ∈ loops, ∀ pi, inductionRange f lp = some pi → InductionStep f lp pi.vid s

/-! ## Where a value's state comes from -/

section
variable {P : Program} {f : Function} {n : Nat} {idom : Cfg.Idom} {b c : BasicBlock}
  {before rest : List Inst} {i : Inst} {v : ValueId} {inductions : List ProvenInduction} {R : Ranges}

theorem constRange_def {r : Range} (h : constRange f v = some r) :
    ∃ b ∈ f.blocks, ∃ k, .constInt v k ∈ b.instructions ∧ r = .const k.toInt := by
  obtain ⟨i, hi, h⟩ := List.exists_of_findSome?_eq_some h
  obtain ⟨b, hb, hi⟩ := List.mem_flatMap.mp (List.mem_reverse.mp hi)
  cases i with
  | constInt d k =>
    simp only [Option.ite_none_right_eq_some, Option.some.injEq] at h
    obtain ⟨rfl, rfl⟩ := h
    exact ⟨b, hb, k, hi, rfl⟩
  | _ => cases h

theorem analyzable_def (h : analyzable f v = true) :
    ∃ b ∈ f.blocks, ∃ i ∈ b.instructions, v ∈ i.dests ∧
      ((∃ op l r, i = .binOp v op l r "Int" ∧ op ∈ readableOps) ∨
        ∃ x, i = .unOp v "copy" x "Int") := by
  obtain ⟨i, hi, h⟩ := List.any_eq_true.mp h
  obtain ⟨b, hb, hi⟩ := List.mem_flatMap.mp hi
  refine ⟨b, hb, i, hi, ?_⟩
  cases i with
  | binOp d op l r ty =>
    simp only [Bool.and_eq_true, decide_eq_true_eq] at h
    obtain ⟨⟨rfl, rfl⟩, hop⟩ := h
    exact ⟨List.mem_singleton_self _, .inl ⟨op, l, r, rfl, hop⟩⟩
  | unOp d op x ty =>
    simp only [Bool.and_eq_true, decide_eq_true_eq] at h
    obtain ⟨⟨rfl, rfl⟩, rfl⟩ := h
    exact ⟨List.mem_singleton_self _, .inr ⟨x, rfl⟩⟩
  | _ => cases h

theorem paramOwner_def {owner : BasicBlockId} (h : paramOwner f v = some owner) :
    ∃ b ∈ f.blocks, b.id = owner ∧ v ∈ b.params.map (·.val) := by
  obtain ⟨b, hb, h⟩ := List.exists_of_findSome?_eq_some h
  simp only [Option.ite_none_right_eq_some, Option.some.injEq] at h
  exact ⟨b, List.mem_reverse.mp hb, h.2, h.1⟩

theorem readableOps_sub {op : String} (h : op ∈ readableOps) : op ∈ rangeOps := by
  simp only [readableOps, rangeOps, List.mem_cons, List.not_mem_nil, or_false] at h ⊢
  tauto

section
variable (V : Verified n f idom)
include V

theorem paramOwner_eq (hc : c ∈ f.blocks) (hv : v ∈ c.params.map (·.val)) :
    paramOwner f v = some c.id := by
  cases h : paramOwner f v with
  | none =>
    have hnone := List.findSome?_eq_none_iff.mp h c (List.mem_reverse.mpr hc)
    rw [if_pos hv] at hnone
    cases hnone
  | some owner =>
    obtain ⟨b, hb, rfl, hvb⟩ := paramOwner_def h
    have hs := site_of_headDefs V.once hb (List.mem_append_right _ hvb)
    rw [site_of_headDefs V.once hc (List.mem_append_right _ hv)] at hs
    rw [(Prod.mk.inj (Option.some.inj hs)).1]

/-- A parameter is neither a constant nor the result of an operator. -/
theorem head_not_inst (hc : c ∈ f.blocks) (hv : v ∈ f.headDefs c) :
    constRange f v = none ∧ analyzable f v = false := by
  have hno : ∀ b ∈ f.blocks, ∀ i ∈ b.instructions, v ∉ i.dests := by
    intro b hb i hi hd
    obtain ⟨pre, post, hi⟩ := List.append_of_mem hi
    exact V.head_not_dest hb hc hi hd hv
  constructor
  · rw [Option.eq_none_iff_forall_not_mem]
    intro r hr
    obtain ⟨b, hb, k, hi, -⟩ := constRange_def hr
    exact hno b hb _ hi (List.mem_singleton_self v)
  · rw [Bool.eq_false_iff]
    intro ha
    obtain ⟨b, hb, i, hi, hd, -⟩ := analyzable_def ha
    exact hno b hb i hi hd

theorem rangeOf_param (hc : c ∈ f.blocks) (hv : v ∈ c.params.map (·.val)) :
    R.rangeOf f inductions v = match provenParam f inductions c.id v with
      | some r => .known r
      | none => (R.param (c.id, v)).getD .bot := by
  have hnone := (head_not_inst V hc (List.mem_append_right _ hv)).1
  have howner := paramOwner_eq V hc hv
  cases hp : provenParam f inductions c.id v <;>
    simp [Ranges.rangeOf, hnone, howner, hp]

theorem rangeOf_entry (hb : b ∈ f.blocks) (hid : b.id = f.entryBlock)
    (hv : v ∈ f.params.map (·.val)) (hentry : ∀ pi ∈ inductions, pi.headerId ≠ f.entryBlock) :
    R.rangeOf f inductions v = .top ∨ R.rangeOf f inductions v = .known .full := by
  have hhead : v ∈ f.headDefs b := List.mem_append_left _ (by rwa [if_pos hid])
  obtain ⟨hconst, hinst⟩ := head_not_inst V hb hhead
  by_cases hp : v ∈ b.params.map (·.val)
  · right
    have hno : inductions.reverse.find? (fun pi => pi.headerId = f.entryBlock ∧ pi.vid = v) = none := by
      apply List.find?_eq_none.mpr
      intro pi hpi
      simp [hentry pi (List.mem_reverse.mp hpi)]
    have hfind : f.blocks.find? (·.id = f.entryBlock) = some b := by
      cases hf : f.blocks.find? (·.id = f.entryBlock) with
      | none => simpa [hid] using List.find?_eq_none.mp hf b hb
      | some b' =>
        have hid' : b'.id = f.entryBlock := by simpa using List.find?_some hf
        rw [List.inj_on_of_nodup_map V.ids (List.mem_of_find?_eq_some hf) hb (hid'.trans hid.symm)]
    have hfull : provenParam f inductions b.id v = some .full := by
      rw [provenParam, hid, hno]
      exact if_pos ⟨rfl, hv, by rw [hfind]; exact decide_eq_true hp⟩
    rw [rangeOf_param V hb hp, hfull]
  · left
    have howner : paramOwner f v = none := by
      rw [Option.eq_none_iff_forall_not_mem]
      intro owner ho
      obtain ⟨c, hc, rfl, hvc⟩ := paramOwner_def ho
      have hs := site_of_headDefs V.once hc (List.mem_append_right _ hvc)
      rw [site_of_headDefs V.once hb hhead] at hs
      obtain rfl : b = c :=
        List.inj_on_of_nodup_map V.ids hb hc (Prod.mk.inj (Option.some.inj hs)).1
      exact hp hvc
    simp [Ranges.rangeOf, hconst, howner, hinst]

theorem rangeOf_dest (hb : b ∈ f.blocks)
    (hi : b.instructions = before ++ i :: rest) (hd : v ∈ i.dests) :
    (∃ k, i = .constInt v k ∧ R.rangeOf f inductions v = .known (.const k.toInt)) ∨
      (∃ s, R.derived f inductions i = some (v, s) ∧
        R.rangeOf f inductions v = (R.inst v).getD .bot) ∨
      R.rangeOf f inductions v = .top := by
  have same : ∀ {b' i'}, b' ∈ f.blocks → i' ∈ b'.instructions → v ∈ i'.dests → i = i' := by
    intro b' i' hb' hi' hd'
    obtain ⟨pre, post, hi'⟩ := List.append_of_mem hi'
    exact (V.def_unique hb hb' hi hd hi' hd').2.2
  cases hconst : constRange f v with
  | some r =>
    obtain ⟨b', hb', k, hk, rfl⟩ := constRange_def hconst
    exact .inl ⟨k, same hb' hk (List.mem_singleton_self v), by simp [Ranges.rangeOf, hconst]⟩
  | none =>
    right
    have howner : paramOwner f v = none := by
      rw [Option.eq_none_iff_forall_not_mem]
      intro owner ho
      obtain ⟨c, hc, -, hvc⟩ := paramOwner_def ho
      exact V.head_not_dest hb hc hi hd (List.mem_append_right _ hvc)
    cases ha : analyzable f v with
    | false =>
      right
      simp [Ranges.rangeOf, hconst, howner, ha]
    | true =>
      left
      have hr : R.rangeOf f inductions v = (R.inst v).getD .bot := by
        simp [Ranges.rangeOf, hconst, howner, ha]
      obtain ⟨b', hb', i', hi', hd', ⟨op, l, r, he, hop⟩ | ⟨x, he⟩⟩ := analyzable_def ha
      · obtain rfl := (same hb' hi' hd').trans he
        exact ⟨_, if_pos ⟨rfl, readableOps_sub hop⟩, hr⟩
      · obtain rfl := (same hb' hi' hd').trans he
        exact ⟨R.rangeOf f inductions x, by simp [Ranges.derived], hr⟩

end

end

/-! ## Converged states -/

/-- A state of the fixpoint that no item changes. -/
def Ranges.Stable (R : Ranges) (f : Function) (inductions : List ProvenInduction) : Prop :=
  ∀ x ∈ rangeItems f, R.step f inductions x = none

namespace Ranges.Stable

variable {f : Function} {inductions : List ProvenInduction} {R : Ranges} {b c : BasicBlock}
  {v arg : ValueId}

theorem inst (h : R.Stable f inductions) (hb : b ∈ f.blocks) {i : Inst} (hi : i ∈ b.instructions)
    {s : RState} (hs : R.derived f inductions i = some (v, s)) :
    ∃ k old, R.inst v = some old ∧ joinState k old s = none := by
  have hstep := h (.inst i) (List.mem_append_right _
    (List.mem_flatMap.mpr ⟨b, hb, List.mem_map_of_mem hi⟩))
  simp only [Ranges.step, hs, Ranges.joinInst] at hstep
  cases hold : R.inst v with
  | none => simp only [hold, reduceCtorEq] at hstep
  | some old =>
    simp only [hold, Option.map_eq_none_iff] at hstep
    exact ⟨_, old, rfl, hstep⟩

theorem edge (h : R.Stable f inductions) (V : (f.blocks.map (·.id)).Nodup) (hb : b ∈ f.blocks)
    (hc : c ∈ f.blocks) {args : List ValueId} (he : (c.id, args) ∈ b.terminator.edges)
    (hm : (v, arg) ∈ (c.params.map (·.val)).zip args)
    (hp : provenParam f inductions c.id v = none) :
    ∃ k old, R.param (c.id, v) = some old ∧ joinState k old (R.rangeOf f inductions arg) = none := by
  have hitem : RangeItem.edge c.id v arg ∈ rangeItems f := by
    refine List.mem_append_left _ (List.mem_flatMap.mpr ⟨b, hb, List.mem_flatMap.mpr ⟨_, he, ?_⟩⟩)
    rw [Function.getBlock_of_mem V hc]
    exact List.mem_map_of_mem hm
  have hstep := h _ hitem
  simp only [Ranges.step, hp, Option.isSome_none, Bool.false_eq_true, if_false, Ranges.joinParam]
    at hstep
  cases hold : R.param (c.id, v) with
  | none => simp only [hold, reduceCtorEq] at hstep
  | some old =>
    simp only [hold, Option.map_eq_none_iff] at hstep
    exact ⟨_, old, rfl, hstep⟩

end Ranges.Stable

/-! ## The invariant -/

section
variable {P : Program} {f : Function} {loops : List NaturalLoop} {n : Nat} {idom : Cfg.Idom}
  {b : BasicBlock} {before : List Inst} {s : Frame × World} {R : Ranges}

/-- What is known of a value: its state, and the range of a compared loop parameter. -/
structure RangeFact (f : Function) (loops : List NaturalLoop) (R : Ranges) (v : ValueId) (val : Val) :
    Prop where
  state : (R.rangeOf f (loops.filterMap (inductionRange f)) v).Holds val
  induction : ∀ lp ∈ loops, ∀ pi, inductionRange f lp = some pi → v = pi.vid →
    ∀ x, val = .int x → pi.lo ≤ x.toInt ∧ x.toInt ≤ pi.hiEdge

/-- The constants are constants, the states hold, and the compared parameters are in their loops what
the comparison tells. -/
structure RangeInv (P : Program) (f : Function) (loops : List NaturalLoop) (idom : Cfg.Idom)
    (R : Ranges) (b : BasicBlock) (before : List Inst) (regs : ValueId → Val) : Prop where
  consts : FactsAt f idom (ConstFact P.host f) b before regs
  ranges : FactsAt f idom (RangeFact f loops R) b before regs
  loops : ∀ lp ∈ loops, ∀ pi, ∀ L : InductionProof f lp pi, inductionRange f lp = some pi →
    InductionInv L b before regs

theorem provenParam_eq_some {inductions : List ProvenInduction} {id : BasicBlockId} {v : ValueId}
    {r : Range} (h : provenParam f inductions id v = some r) :
    (∃ pi ∈ inductions, pi.vid = v ∧ r = ⟨pi.lo, pi.hiEdge⟩) ∨ r = .full := by
  unfold provenParam at h
  split at h
  case h_1 pi hfind =>
    have hpi := List.find?_some hfind
    simp only [decide_eq_true_eq] at hpi
    exact .inl ⟨pi, List.mem_reverse.mp (List.mem_of_find?_eq_some hfind), hpi.2,
      (Option.some.inj h).symm⟩
  case h_2 =>
    split_ifs at h
    exact .inr (Option.some.inj h).symm

theorem full_holds (val : Val) : (RState.known .full).Holds val :=
  fun x _ => IntTy.contains_decode_int x

namespace RangeInv

theorem start (V : Verified n f idom) (hfit : RangesFit P.host f loops)
    (hloops : ∀ lp ∈ loops, lp.header ≠ f.entryBlock → f.entryBlock ∉ lp.blocks)
    (hb : b ∈ f.blocks) (hid : b.id = f.entryBlock) (regs : ValueId → Val) :
    RangeInv P f loops idom R b [] regs where
  consts := .start V hid fun v hv => .of_head V hb hv _
  ranges := by
    refine .start V hid fun v hv => ⟨?_, ?_⟩
    · have hv' : v ∈ f.params.map (·.val) := by
        by_contra hno
        have hget : f.getBlock f.entryBlock = some b := hid ▸ Function.getBlock_of_mem V.ids hb
        rw [Function.headDefs, if_pos hid] at hv
        have := (mem_unboundParams hget).mpr ⟨(List.mem_append.mp hv).resolve_left hno, hno⟩
        rw [hfit.bound] at this
        cases this
      have hentry : ∀ pi ∈ loops.filterMap (inductionRange f), pi.headerId ≠ f.entryBlock := by
        intro pi hpi
        obtain ⟨lp, hlp, hpi⟩ := List.mem_filterMap.mp hpi
        obtain ⟨L⟩ := inductionRange_ok hpi
        exact L.headerId ▸ (hfit.loops lp hlp pi hpi).header
      rcases rangeOf_entry (R := R) V hb hid hv' hentry with he | he
      · rw [he]
        trivial
      · rw [he]
        exact full_holds _
    · intro lp hlp pi hpi he
      obtain ⟨L⟩ := inductionRange_ok hpi
      have hs := site_of_headDefs V.once L.header_spec.1 L.iVid_headDef
      rw [← L.vid, ← he, site_of_headDefs V.once hb hv] at hs
      exact absurd ((Prod.mk.inj (Option.some.inj hs)).1.symm.trans hid)
        (L.header_spec.2 ▸ (hfit.loops lp hlp pi hpi).header)
  loops lp hlp pi L hpi :=
    .start (hloops lp hlp (hfit.loops lp hlp pi hpi).header) hid regs

theorem holds (h : RangeInv P f loops idom R b before s.1.regs) {v : ValueId} {x : BitVec 64}
    (hv : Available f (Anc idom) b before v) (hx : s.1.regs v = .int x) :
    (R.rangeOf f (loops.filterMap (inductionRange f)) v).Holds (.int x) :=
  hx ▸ (h.ranges v hv).state

theorem low (h : RangeInv P f loops idom R b before s.1.regs) {lp : NaturalLoop} (hlp : lp ∈ loops)
    {pi : ProvenInduction} (hpi : inductionRange f lp = some pi) (L : InductionProof f lp pi) :
    Available f (Anc idom) b before L.iVid → ∀ x, s.1.regs L.iVid = .int x → pi.lo ≤ x.toInt :=
  fun hv x hx => ((h.ranges _ hv).induction lp hlp pi hpi L.vid.symm x hx).1

section
variable (V : Verified n f idom)
include V

theorem inst_state
    (hR : R.Stable f (loops.filterMap (inductionRange f))) (hgood : RangeStep P f loops s)
    (hat : At f idom b before s.1) (hJ : RangeInv P f loops idom R b before s.1.regs) {i : Inst}
    {rest : List Inst} {ws : List (ValueId × Val)} {vars : String → Val} {w : World}
    (hcode : s.1.code = i :: rest)
    (hp : (s.1.effect P i).perform P f s.1.vars s.2 = .done ws vars w) :
    ∀ x ∈ ws, (R.rangeOf f (loops.filterMap (inductionRange f)) x.1).Holds x.2 := by
  intro x hx
  have hd : x.1 ∈ i.dests := Effect.perform_dests hp ▸ List.mem_map_of_mem hx
  have hi : b.instructions = before ++ i :: rest := hcode ▸ hat.code
  rcases rangeOf_dest (R := R) V hat.mem hi hd with
    ⟨k, rfl, he⟩ | ⟨st, hder, he⟩ | he
  · cases hp
    rw [he, List.mem_singleton.mp hx]
    rintro _ ⟨⟩
    exact ⟨Int.le_refl _, Int.le_refl _⟩
  · obtain ⟨k, old, hold, hjoin⟩ := hR.inst hat.mem (by rw [hi]; simp) hder
    rw [he, hold]
    refine RState.Holds.of_join hjoin ?_
    cases i with
    | binOp d op l r ty =>
      simp only [Ranges.derived, Option.ite_none_right_eq_some, Option.some.injEq] at hder
      obtain ⟨⟨rfl, hop⟩, hder⟩ := hder
      obtain ⟨-, rfl⟩ := Prod.mk.inj hder
      obtain ⟨u, u', hu, hu', hfits⟩ := hgood.fits d op l r rest hcode hop
      obtain ⟨res, -, rfl, hev⟩ := @binOp_result _ _ _ _ _ _ _ _ _ rest _ _ hat.fn hp
      rw [List.mem_singleton.mp hx]
      rw [hu, hu'] at hev
      refine opState_holds hop (hJ.holds (V.use_available hat.mem hi (by simp [instructionUses])) hu)
        (hJ.holds (V.use_available hat.mem hi (by simp [instructionUses])) hu') hfits ?_ hev
      intro hsafe z hz
      -- a result marked before does not overflow either
      by_cases hop' : op ∈ ["+", "-", "*"]
      · obtain ⟨y, y', z', hy, hy', hz', hin, -⟩ :=
          hgood.marked d op l r "Int" rest hcode (of_decide_eq_true hsafe) hop'
        cases hu.symm.trans hy
        cases hu'.symm.trans hy'
        cases hz.symm.trans hz'
        exact hin
      · simp only [List.mem_cons, List.not_mem_nil, or_false, not_or] at hop'
        simp [exactResult, hop'] at hz
    | unOp d op v ty =>
      simp only [Ranges.derived, Option.ite_none_right_eq_some, Option.some.injEq] at hder
      obtain ⟨⟨rfl, rfl⟩, hder⟩ := hder
      cases hder
      cases hp
      rw [List.mem_singleton.mp hx]
      exact (hJ.ranges v (V.use_available hat.mem hi (by simp [instructionUses]))).state
    | _ => cases hder
  · rw [he]
    trivial

theorem after (hfit : RangesFit P.host f loops)
    (hclosed : ∀ lp ∈ loops, lp.header ≠ f.entryBlock → lp.Closed f idom)
    (hR : R.Stable f (loops.filterMap (inductionRange f))) (hgood : RangeStep P f loops s)
    (hat : At f idom b before s.1) (hJ : RangeInv P f loops idom R b before s.1.regs) {i : Inst}
    {rest : List Inst} {ws : List (ValueId × Val)} {vars : String → Val} {w : World}
    (hcode : s.1.code = i :: rest)
    (hp : (s.1.effect P i).perform P f s.1.vars s.2 = .done ws vars w) :
    RangeInv P f loops idom R b (before ++ [i]) (s.1.after rest ws vars).regs where
  consts := hJ.consts.after hp (.of_inst V hat hJ.consts hcode hp)
  ranges := hJ.ranges.after hp fun x hx => by
    refine ⟨hJ.inst_state V hR hgood hat hcode hp x hx, ?_⟩
    intro lp _ pi hpi he
    obtain ⟨L⟩ := inductionRange_ok hpi
    have hd : x.1 ∈ i.dests := Effect.perform_dests hp ▸ List.mem_map_of_mem hx
    exact absurd (he.trans L.vid ▸ hd) (L.iVid_not_dest V hat.mem (hcode ▸ hat.code))
  loops lp hlp pi L hpi := by
    have hlfit := hfit.loops lp hlp pi hpi
    exact (hJ.loops lp hlp pi L hpi).after V (hclosed lp hlp hlfit.header) (L.vid ▸ hlfit)
      (L.vid ▸ hgood.loops lp hlp pi hpi) hJ.consts (hJ.low hlp hpi L) hat hcode hp

theorem edge_state
    (hR : R.Stable f (loops.filterMap (inductionRange f)))
    (hat : At f idom b b.instructions s.1)
    (hJ : RangeInv P f loops idom R b b.instructions s.1.regs) {c : BasicBlock} {vs : List Val}
    (hexit : b.terminator.exit f s.1.regs = .goto c.id vs) (hc : c ∈ f.blocks)
    {x : ValueId × Val} (hx : x ∈ (c.params.map (·.val)).zip vs)
    (hind : ∀ lp ∈ loops, ∀ pi, inductionRange f lp = some pi → x.1 = pi.vid →
      ∀ y, x.2 = .int y → pi.lo ≤ y.toInt ∧ y.toInt ≤ pi.hiEdge) :
    (R.rangeOf f (loops.filterMap (inductionRange f)) x.1).Holds x.2 := by
  obtain ⟨args, hedge, rfl, hsub⟩ := edge_of_goto hexit
  rw [List.zip_map_right] at hx
  obtain ⟨⟨v, arg⟩, hm, rfl⟩ := List.mem_map.mp hx
  have hav := V.termUse_available hat.mem (hsub (List.of_mem_zip hm).2)
  simp only [Prod.map, id] at hind ⊢
  rw [rangeOf_param V hc (List.of_mem_zip hm).1]
  cases hproven : provenParam f (loops.filterMap (inductionRange f)) c.id v with
  | some r =>
    rcases provenParam_eq_some hproven with ⟨pi, hpi, rfl, rfl⟩ | rfl
    · obtain ⟨lp, hlp, hpi⟩ := List.mem_filterMap.mp hpi
      exact hind lp hlp pi hpi rfl
    · exact full_holds _
  | none =>
    obtain ⟨k, old, hold, hjoin⟩ := hR.edge V.ids hat.mem hc hedge hm hproven
    simp only [hold, Option.getD_some]
    exact RState.Holds.of_join hjoin (hJ.ranges arg hav).state

theorem into (hfit : RangesFit P.host f loops)
    (hclosed : ∀ lp ∈ loops, lp.header ≠ f.entryBlock → lp.Closed f idom ∧
      ∀ b ∈ f.blocks, b.id ∈ lp.blocks → (idom b.id).isSome → lp.header ∈ Cfg.successors f b.id →
        b.id ∈ lp.backEdges)
    (hR : R.Stable f (loops.filterMap (inductionRange f))) (hgood : RangeStep P f loops s)
    (hat : At f idom b b.instructions s.1)
    (hJ : RangeInv P f loops idom R b b.instructions s.1.regs) {c : BasicBlock} {vs : List Val}
    (hexit : b.terminator.exit f s.1.regs = .goto c.id vs) (ht : c.id ∈ b.terminator.targets)
    (hc : c ∈ f.blocks) (hlen : vs.length = c.params.length) :
    RangeInv P f loops idom R c [] (s.1.into c vs).regs where
  consts := hJ.consts.into V hat.mem hc hat.reached ht hlen fun x hx =>
    .of_head V hc (List.mem_append_right _ (List.of_mem_zip hx).1) _
  ranges := hJ.ranges.into V hat.mem hc hat.reached ht hlen fun x hx => by
    have hind : ∀ lp ∈ loops, ∀ pi, inductionRange f lp = some pi → x.1 = pi.vid →
        ∀ y, x.2 = .int y → pi.lo ≤ y.toInt ∧ y.toInt ≤ pi.hiEdge := by
      intro lp hlp pi hpi he
      obtain ⟨L⟩ := inductionRange_ok hpi
      have hlfit := hfit.loops lp hlp pi hpi
      obtain ⟨hcl, hback⟩ := hclosed lp hlp hlfit.header
      exact (hJ.loops lp hlp pi L hpi).enters V hcl hback (L.vid ▸ hlfit) hJ.consts
        (hJ.low hlp hpi L) hat hexit ht hc (by rw [← L.vid, ← he]; exact hx)
    exact ⟨hJ.edge_state V hR hat hexit hc hx hind, hind⟩
  loops lp hlp pi L hpi :=
    (hJ.loops lp hlp pi L hpi).into V (hclosed lp hlp (hfit.loops lp hlp pi hpi).header).1
      (L.vid ▸ hgood.loops lp hlp pi hpi) hat hexit ht hc

end

end RangeInv

/-- The invariant along a run. -/
theorem rangeInv_of_steps (V : Verified n f idom) (hfit : RangesFit P.host f loops) {m : Nat}
    (hloops : Cfg.loops m f = some loops)
    (hR : R.Stable f (loops.filterMap (inductionRange f))) {args : List Val} {w : World}
    (hgood : ∀ s, P.leafMachine.Steps (f.start args, w) s → RangeStep P f loops s)
    (h : P.leafMachine.Steps (f.start args, w) s) :
    ∃ b before, At f idom b before s.1 ∧ RangeInv P f loops idom R b before s.1.regs := by
  have hclosed := fun lp hlp hne =>
    Cfg.loops_closed V.blocks_ne_nil V.dominance hloops (l := lp) hlp hne
  refine V.invariant (J := fun b before s => RangeInv P f loops idom R b before s.1.regs) ?_ ?_ ?_ h
  · exact fun b hb hid => .start V hfit (fun lp hlp hne => (hclosed lp hlp hne).2.1) hb hid _
  · intro s b before i rest ws vars w' hs hat hJ hcode hp
    exact hJ.after V hfit (fun lp hlp hne => (hclosed lp hlp hne).1) hR (hgood s hs) hat hcode hp
  · intro s b c vs hs hat hJ hexit ht hc hlen
    exact hJ.into V hfit (fun lp hlp hne => ⟨(hclosed lp hlp hne).1, (hclosed lp hlp hne).2.2⟩) hR
      (hgood s hs) hat hexit ht hc hlen

end

/-! ## Marks -/

section
variable {P : Program} {f : Function} {loops : List NaturalLoop} {R : Ranges} {d : ValueId}

theorem marks_def {i : Inst} (h : R.marks i = some d) :
    ∃ op l r t, i = .binOp d op l r "Int" ∧ op ∈ rangeOps ∧ R.inst d = some (.known t) ∧
      t.fits = true := by
  cases i with
  | binOp d' op l r ty =>
    simp only [Ranges.marks, Option.ite_none_right_eq_some] at h
    obtain ⟨⟨rfl, hop⟩, h⟩ := h
    split at h
    case h_1 t ht =>
      split_ifs at h with hfits
      cases h
      exact ⟨op, l, r, t, rfl, hop, ht, hfits⟩
    case h_2 => cases h
  | _ => cases h

theorem proveBodyArithmetic_def (h : d ∈ proveBodyArithmetic f loops) :
    ∃ R : Ranges, R.Stable f (loops.filterMap (inductionRange f)) ∧
      ∃ b ∈ f.blocks, ∃ i ∈ b.instructions, R.marks i = some d := by
  unfold proveBodyArithmetic at h
  simp only at h
  split_ifs at h with hempty
  · cases h
  · split at h
    case h_1 => cases h
    case h_2 R hR =>
      obtain ⟨b, hb, h⟩ := List.mem_flatMap.mp h
      obtain ⟨i, hi, hm⟩ := List.mem_filterMap.mp h
      exact ⟨R, rounds_stable hR, b, (List.mem_filter.mp hb).1, i, hi, hm⟩

/-- An operator that does not overflow computes the same, marked or not. -/
theorem evalBinOp_exact {h : Host} {safe : Bool} {op : String} {x y : BitVec 64} {z : Int}
    (hz : exactResult op x.toInt y.toInt = some z) (hin : IntTy.int.Contains z) :
    h.evalBinOp safe op "Int" (.int x) (.int y) = .ok (.int (IntTy.int.encode z)) := by
  have hw : IntTy.int.wrap z = z := IntTy.wrap_of_contains hin
  have hc : IntTy.int.checked z = .ok z := by rw [IntTy.checked, if_neg (by decide), if_pos hin]
  have hty : IntTy.ofRepr "Int" = .int := rfl
  have hdec : ∀ v, IntTy.int.decode v = v.toInt := fun _ => rfl
  rw [evalBinOp_ints]
  unfold exactResult at hz
  split at hz <;> cases hz
  all_goals
    cases safe <;>
      simp [evalIntBinOp, IntOp.ofSpelling, IntTy.eval, IntOp.unchecked, hty, hdec, hw, hc]

/-- **A marked operator does not overflow.** -/
theorem RangeInv.noOverflow {n : Nat} {idom : Cfg.Idom} {b : BasicBlock} {before : List Inst}
    {s : Frame × World} (V : Verified n f idom)
    (hR : R.Stable f (loops.filterMap (inductionRange f))) (hgood : RangeStep P f loops s)
    (hat : At f idom b before s.1) (hJ : RangeInv P f loops idom R b before s.1.regs)
    {b' : BasicBlock} {i : Inst} (hb' : b' ∈ f.blocks) (hi' : i ∈ b'.instructions)
    (hmark : R.marks i = some d) {op ty : String} {l r : ValueId} {rest : List Inst}
    (hcode : s.1.code = .binOp d op l r ty :: rest) (hop : op ∈ ["+", "-", "*"]) :
    ∃ x y z, s.1.regs l = .int x ∧ s.1.regs r = .int y ∧
      exactResult op ((IntTy.ofRepr ty).decode x) ((IntTy.ofRepr ty).decode y) = some z ∧
      IntTy.int.Contains z ∧ ∀ safe, P.host.evalBinOp safe op ty (s.1.regs l) (s.1.regs r) =
        P.host.evalBinOp true op ty (s.1.regs l) (s.1.regs r) := by
  obtain ⟨op', l', r', t, rfl, hops, ht, hfits⟩ := marks_def hmark
  have hi : b.instructions = before ++ .binOp d op l r ty :: rest := hcode ▸ hat.code
  obtain ⟨pre, post, hsplit⟩ := List.append_of_mem hi'
  obtain ⟨rfl, -, he⟩ :=
    V.def_unique hat.mem hb' hi (List.mem_singleton_self d) hsplit (List.mem_singleton_self d)
  cases he
  obtain ⟨x, y, hx, hy, hxy⟩ := hgood.fits d op l r rest hcode hops
  have hsl := hJ.holds (V.use_available hat.mem hi (by simp [instructionUses])) hx
  have hsr := hJ.holds (V.use_available hat.mem hi (by simp [instructionUses])) hy
  obtain ⟨k, old, hold, hjoin⟩ := hR.inst hat.mem hi' (if_pos ⟨rfl, hops⟩)
  cases ht.symm.trans hold
  -- the operands have intervals, as the result has one
  obtain ⟨z, hz, hin⟩ : ∃ z, exactResult op x.toInt y.toInt = some z ∧ IntTy.int.Contains z := by
    cases hl : R.rangeOf f (loops.filterMap (inductionRange f)) l with
    | bot => rw [hl] at hsl; exact hsl.elim
    | top =>
      rw [hl] at hjoin
      rcases joinState_none hjoin with h | h | ⟨_, _, _, h, _⟩ <;> cases h
    | known p =>
      cases hr : R.rangeOf f (loops.filterMap (inductionRange f)) r with
      | bot => rw [hr] at hsr; exact hsr.elim
      | top =>
        rw [hl, hr] at hjoin
        rcases joinState_none hjoin with h | h | ⟨_, _, _, h, _⟩ <;> cases h
      | known q =>
        rw [hl] at hsl hjoin
        rw [hr] at hsr hjoin
        rcases joinState_none hjoin with h | h | ⟨t', u, ht', hu, hw⟩
        · cases h
        · cases h
        · cases ht'
          cases hu
          exact ofOp_fits hop (hsl x rfl) (hsr y rfl) hxy hw hfits
  refine ⟨x, y, z, hx, hy, hz, hin, fun safe => ?_⟩
  rw [hx, hy, evalBinOp_exact hz hin, evalBinOp_exact hz hin]

end

/-- `i = 0; while i < 1 { body; i = i + 1 }`. -/
def onceLoop (body : List Inst) : Function where
  name := "f"
  params := []
  returnType := "Int"
  blocks :=
    [{ id := 0, instructions := [.constInt 0 0], terminator := .branch 1 [0] },
     { id := 1, params := [⟨1, "Int", none⟩]
       instructions := [.constInt 2 1, .binOp 3 "<" 1 2 "Int"]
       terminator := .condBranch 3 2 [] 3 [] },
     { id := 2, instructions := body ++ [.constInt 4 1, .binOp 5 "+" 1 4 "Int"]
       terminator := .branch 1 [5] },
     { id := 3, instructions := [], terminator := .ret (some 1) }]

instance (op ty : String) (x y : BitVec 64) : Decidable (StepReads op ty x y) :=
  decidable_of_iff
    ((IntTy.ofRepr ty).Contains x.toInt ∧ (IntTy.ofRepr ty).Contains y.toInt ∧
      ∀ z ∈ exactResult (plainOp op) x.toInt y.toInt, (IntTy.ofRepr ty).Contains z)
    ⟨fun h => ⟨h.1, h.2.1, h.2.2⟩, fun h => ⟨h.left, h.right, h.exact⟩⟩

/-- An `Int` operator about to execute reads integers that fit. -/
def readsFitting (s : Frame × World) : Bool :=
  match s.1.code with
  | .binOp _ op l r _ :: _ =>
    match s.1.regs l, s.1.regs r with
    | .int x, .int y => OpFits op x y && StepReads op "Int" x y
    | _, _ => false
  | _ => true

end Datara.Optimizer
