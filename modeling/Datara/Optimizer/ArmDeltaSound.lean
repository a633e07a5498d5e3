import Datara.Dmir.Walk
import Datara.Optimizer.OvfDeltaCorrect

/-!
# Accumulator deltas, in the runs they hold of

What `resolveArmDelta` gives for the value of a latch bounds how far it is from the loop's parameter, in
every iteration (`resolveArmDelta_sound`), as long as

* no end of a subtracted term's range is the least `i64`, which negation wraps to itself;
* a branch with both edges to one block passes it the same argument, as only one of the two is read;
* the registered parameter of an inner loop is read where that loop is left, not on an edge inside it;
* the ranges and the registered deltas are those of the run, and the sums stay in `i64`.

The proof follows an iteration from the loop's header. Along it, an available value is as far from the
parameter as was resolved for it, and inside an inner loop the value with which it was entered was.
-/

namespace Datara.Optimizer

open Dmir Library

/-! ## What the resolution reads -/

/-- The delta a value is registered with. The analyzed parameter itself is not looked up. -/
def ArmTables.registered (T : ArmTables) (param v : ValueId) : Option AccDelta :=
  if v = param then none
  else (T.paramOwner v).bind fun owner =>
    if owner ∈ T.allLoopHeaders then T.registry owner v else none

/-- The blocks whose edges to the value's block are left out: the registered delta accounts for
them. -/
def ArmTables.skips (T : ArmTables) (param v : ValueId) : List BasicBlockId :=
  ((T.registered param v).map (·.blocks)).getD []

/-- An edge the resolution of a parameter follows, and the argument it reads there. -/
structure ArmEdge (f : Function) (T : ArmTables) (param v : ValueId) (src owner : BasicBlockId)
    (arg : ValueId) : Prop where
  ne : v ≠ param
  owned : T.paramOwner v = some owner
  listed : ∃ idx args, paramPosition f owner v = some idx ∧ (src, args) ∈ incomingEdges f owner ∧
    args[idx]? = some arg
  reads : src ∉ T.skips param v

/-- The values the resolution of `val` is about. -/
inductive ArmReads (f : Function) (T : ArmTables) (param val : ValueId) : ValueId → Prop
  | self : ArmReads f T param val val
  | edge {v arg : ValueId} {src owner : BasicBlockId} :
      ArmReads f T param val v → ArmEdge f T param v src owner arg → ArmReads f T param val arg

/-! ## The conditions -/

/-- The tables are those of a function and one of its loops. The ranges are of `i64` values. -/
structure ArmTables.Of (T : ArmTables) (f : Function) (loops : List NaturalLoop) (l : NaturalLoop) :
    Prop where
  curHeader : T.curHeader = l.header
  piBlocks : T.piBlocks = l.blocks
  paramOwner : T.paramOwner = Optimizer.paramOwner f
  analyzed : l.header ∈ T.allLoopHeaders
  ranges : ∀ term r, T.termRange term = some r → IntTy.int.Contains r.lo ∧ IntTy.int.Contains r.hi
  registry : ∀ owner v d, T.registry owner v = some d →
    ∃ lp ∈ loops, lp.header = owner ∧ d.blocks = lp.blocks

/-- What the resolution takes for granted of the function. -/
structure ArmFits (f : Function) (T : ArmTables) (param val : ValueId) : Prop where
  /-- No end of a subtracted term's range is the least `i64`. -/
  negates : ∀ v, ArmReads f T param val v → ∀ term, findLink f T param v = some (term, true) →
    ∀ r, T.termRange term = some r → IntTy.int.lo < r.lo ∧ IntTy.int.lo < r.hi
  /-- A branch with both edges to a parameter's block passes the same argument on both. -/
  oneEdge : ∀ v, ArmReads f T param val v → v ≠ param → ∀ owner idx, T.paramOwner v = some owner →
    paramPosition f owner v = some idx → ∀ b ∈ f.blocks, b.id ∉ T.skips param v →
    ∀ c thenArgs elseArgs, b.terminator = .condBranch c owner thenArgs owner elseArgs →
      thenArgs[idx]? = elseArgs[idx]?
  /-- A registered parameter is not read on an edge inside its loop. -/
  leaves : ∀ v, ArmReads f T param val v → ∀ src owner arg, ArmEdge f T param v src owner arg →
    ∀ d, T.registered param arg = some d → src ∈ d.blocks → owner ∉ d.blocks

/-- A walk inside one iteration of a loop. -/
def Iterates (P : Program) (f : Function) (l : NaturalLoop) : Place → Place → Prop :=
  P.WalkIn f fun q => q.block.id ∈ l.blocks ∧ ¬q.AtHead l.header

/-- A complete run of an inner loop, from the place where it is entered to one where it is left. -/
structure RunsThrough (P : Program) (f : Function) (blocks : List BasicBlockId) (s e q : Place) :
    Prop where
  enters : P.Walk f s e
  outside : s.block.id ∉ blocks
  inside : e.block.id ∈ blocks
  walk : P.WalkIn f (·.block.id ∈ blocks) e q

/-- What the resolution takes for granted of an iteration that starts at `p`: the terms are in their
ranges, the marks hold, and what is registered for an inner loop is true of a complete run of it. What
a registered parameter is then away from the analyzed one is an `i64`. -/
structure ArmRun (P : Program) (f : Function) (l : NaturalLoop) (T : ArmTables) (param val : ValueId)
    (p : Place) : Prop where
  terms : ∀ q, Iterates P f l p q → ∀ i rest, q.state.1.code = i :: rest →
    ∀ v, ArmReads f T param val v → ∀ term neg, armLink param v i = some (term, neg) →
    ∀ r, T.termRange term = some r → ∃ x, q.regs term = .int x ∧ r.lo ≤ x.toInt ∧ x.toInt ≤ r.hi
  marked : ∀ q, Iterates P f l p q → NoOverflowAt P f.provenNoOverflow q.state
  full : ∀ v, ArmReads f T param val v → ∀ d, T.registered param v = some d →
    ∀ s e q, Iterates P f l p s → RunsThrough P f d.blocks s e q → ∀ target vs,
    q.Leaves f target vs → target ∉ d.blocks → ∀ x, q.regs v = .int x →
      ∃ y, e.regs v = .int y ∧ d.dlo ≤ x.toInt - y.toInt ∧ x.toInt - y.toInt ≤ d.dhi
  fits : ∀ v, ArmReads f T param val v → ∀ d, T.registered param v = some d →
    ∀ q, Iterates P f l p q → q.block.id ∈ d.blocks → ∀ target vs, q.Leaves f target vs →
    target ∉ d.blocks → ∀ x y, q.regs v = .int x → q.regs param = .int y →
      IntTy.int.Contains (x.toInt - y.toInt)

/-- Two integers differ by what a delta allows. -/
def ArmDelta.Bounds (δ : ArmDelta) (a b : Val) : Prop :=
  ∀ x y, a = .int x → b = .int y → δ.lo ≤ x.toInt - y.toInt ∧ x.toInt - y.toInt ≤ δ.hi

/-! ## The resolution -/

variable {args : List ValueId} {term : ValueId} {i : Inst} {neg : Bool} {idx : Nat}

section
variable {f : Function} {T : ArmTables} {param val v : ValueId} {owner : BasicBlockId} {n : Nat}
  {δ : ArmDelta} {b c : BasicBlock}

/-- A delta allows no less than another. -/
def ArmDelta.Covers (δ ε : ArmDelta) : Prop := δ.lo ≤ ε.lo ∧ ε.hi ≤ δ.hi

theorem ArmDelta.Bounds.mono {ε : ArmDelta} {a b : Val} (h : ε.Bounds a b) (hc : δ.Covers ε) : δ.Bounds a b := by
  intro x y ha hb
  obtain ⟨h₁, h₂⟩ := h x y ha hb
  exact ⟨Int.le_trans hc.1 h₁, Int.le_trans h₂ hc.2⟩

theorem joinEdges_covers {resolve : ValueId → Option ArmDelta} {skip : List BasicBlockId}
    {es : List (BasicBlockId × List ValueId)} {j j' : ArmJoin}
    (h : joinEdges T resolve skip idx j es = some j') :
    j'.toArmDelta.Covers j.toArmDelta ∧ ∀ src args a, (src, args) ∈ es → src ∉ skip →
      args[idx]? = some a → ∃ ε, resolve a = some ε ∧ j'.toArmDelta.Covers ε := by
  induction es generalizing j with
  | nil =>
    cases h
    exact ⟨⟨Int.le_refl _, Int.le_refl _⟩, fun _ _ _ hm => absurd hm List.not_mem_nil⟩
  | cons e es ih =>
    obtain ⟨src, args⟩ := e
    simp only [joinEdges] at h
    split_ifs at h with hskip hin
    · obtain ⟨hj, hes⟩ := ih h
      refine ⟨hj, fun src' args' a hm hns ha => ?_⟩
      rcases List.mem_cons.mp hm with he | hm
      · cases he
        exact absurd hskip hns
      · exact hes src' args' a hm hns ha
    · split at h
      case h_1 hnone =>
        obtain ⟨hj, hes⟩ := ih h
        refine ⟨hj, fun src' args' a hm hns ha => ?_⟩
        rcases List.mem_cons.mp hm with he | hm
        · cases he
          rw [hnone] at ha
          cases ha
        · exact hes src' args' a hm hns ha
      case h_2 a₀ harg =>
        obtain ⟨ε, hε, h⟩ := Option.bind_eq_some_iff.mp h
        obtain ⟨hj, hes⟩ := ih h
        have hadd : j'.toArmDelta.Covers j.toArmDelta ∧ j'.toArmDelta.Covers ε := by
          simp only [ArmDelta.Covers, ArmJoin.add] at hj ⊢
          omega
        refine ⟨hadd.1, fun src' args' a hm hns ha => ?_⟩
        rcases List.mem_cons.mp hm with he | hm
        · cases he
          rw [harg] at ha
          exact ⟨ε, Option.some.inj ha ▸ hε, hadd.2⟩
        · exact hes src' args' a hm hns ha

theorem exists_incomingEdges (hb : b ∈ f.blocks)
    (he : (owner, args) ∈ b.terminator.edges)
    (hone : ∀ c thenArgs elseArgs, b.terminator = .condBranch c owner thenArgs owner elseArgs →
      thenArgs[idx]? = elseArgs[idx]?) :
    ∃ args', (b.id, args') ∈ incomingEdges f owner ∧ args'[idx]? = args[idx]? := by
  suffices h : ∃ args' ∈ edgesTo owner b.terminator, args'[idx]? = args[idx]? by
    obtain ⟨args', hargs, hidx⟩ := h
    exact ⟨args', List.mem_flatMap.mpr ⟨b, hb, List.mem_map_of_mem hargs⟩, hidx⟩
  cases hterm : b.terminator with
  | branch t as =>
    rw [hterm] at he
    cases List.mem_singleton.mp he
    exact ⟨args, by simp [edgesTo], rfl⟩
  | condBranch c t ta e ea =>
    rw [hterm] at he
    rcases List.mem_cons.mp he with he | he
    · cases he
      exact ⟨args, by simp [edgesTo], rfl⟩
    · cases List.mem_singleton.mp he
      by_cases ht : t = owner
      · subst ht
        exact ⟨ta, by simp [edgesTo], hone c ta args hterm⟩
      · exact ⟨args, by simp [edgesTo, ht, Ne.symm ht], rfl⟩
  | ret v => rw [hterm] at he; cases he
  | unreachable => rw [hterm] at he; cases he

theorem edge_args_vids {t : Terminator} {e : BasicBlockId × List ValueId} (he : e ∈ t.edges)
    {a : ValueId} (ha : a ∈ e.2) : a ∈ t.vids := by
  cases t with
  | branch t args =>
    obtain rfl := List.mem_singleton.mp he
    exact ha
  | condBranch c t ta e' ea =>
    rcases List.mem_cons.mp he with rfl | he
    · exact List.mem_append_left _ (List.mem_cons_of_mem _ ha)
    · obtain rfl := List.mem_singleton.mp he
      exact List.mem_append_right _ ha
  | ret v => cases he
  | unreachable => cases he

theorem resolveArmDepth_cases (h : resolveArmDepth f T param n v = some δ) :
    v = param ∧ δ = ⟨0, 0, []⟩ ∨
      v ≠ param ∧ ∃ m, n = m + 1 ∧
        ((∃ owner, T.paramOwner v = some owner ∧
            paramDelta f T (resolveArmDepth f T param m) owner v = some δ) ∨
          T.paramOwner v = none ∧ linkDelta f T param v = some δ) := by
  cases n with
  | zero => cases h
  | succ m =>
    simp only [resolveArmDepth] at h
    split_ifs at h with hv
    · exact .inl ⟨hv, (Option.some.inj h).symm⟩
    · refine .inr ⟨hv, m, rfl, ?_⟩
      split at h
      case h_1 owner ho => exact .inl ⟨owner, ho, h⟩
      case h_2 ho => exact .inr ⟨ho, h⟩

theorem paramDelta_cases {resolve : ValueId → Option ArmDelta} (hne : v ≠ param)
    (howner : T.paramOwner v = some owner) (h : paramDelta f T resolve owner v = some δ) :
    owner ∈ T.piBlocks ∧ ∃ idx, paramPosition f owner v = some idx ∧ ∃ j : ArmJoin,
      (∀ src args a, (src, args) ∈ incomingEdges f owner → src ∉ T.skips param v →
        args[idx]? = some a → ∃ ε, resolve a = some ε ∧ j.toArmDelta.Covers ε) ∧
      ((∃ d, T.registered param v = some d ∧ owner ≠ T.curHeader ∧
          δ.lo = IntTy.int.clamp (j.lo + d.dlo) ∧ δ.hi = IntTy.int.clamp (j.hi + d.dhi)) ∨
        T.registered param v = none ∧ owner ∉ T.allLoopHeaders ∧ δ = j.toArmDelta) := by
  unfold paramDelta at h
  split_ifs at h with hin hheader hcur
  · obtain ⟨-, -, h⟩ := Option.bind_eq_some_iff.mp h
    cases h
  · obtain ⟨idx, hidx, h⟩ := Option.bind_eq_some_iff.mp h
    obtain ⟨d, hd, h⟩ := Option.bind_eq_some_iff.mp h
    obtain ⟨j, hj, h⟩ := Option.bind_eq_some_iff.mp h
    split_ifs at h
    cases h
    have hreg : T.registered param v = some d := by
      simp [ArmTables.registered, hne, howner, hheader, hd]
    have hskip : T.skips param v = d.blocks := by simp [ArmTables.skips, hreg]
    refine ⟨hin, idx, hidx, j, ?_, .inl ⟨d, hreg, hcur, rfl, rfl⟩⟩
    rw [hskip]
    exact (joinEdges_covers hj).2
  · obtain ⟨idx, hidx, h⟩ := Option.bind_eq_some_iff.mp h
    obtain ⟨j, hj, h⟩ := Option.bind_eq_some_iff.mp h
    split_ifs at h
    cases h
    have hreg : T.registered param v = none := by
      simp [ArmTables.registered, howner, hheader]
    have hskip : T.skips param v = [] := by simp [ArmTables.skips, hreg]
    refine ⟨hin, idx, hidx, j, ?_, .inr ⟨hreg, hheader, rfl⟩⟩
    rw [hskip]
    exact (joinEdges_covers hj).2

theorem linkDelta_cases (h : linkDelta f T param v = some δ) :
    ∃ b ∈ f.blocks, b.id ∈ T.piBlocks ∧ ∃ i ∈ b.instructions, ∃ term neg,
      findLink f T param v = some (term, neg) ∧ armLink param v i = some (term, neg) ∧
      ∃ r, T.termRange term = some r ∧ δ = ⟨(r.linked neg).1, (r.linked neg).2, [v]⟩ := by
  obtain ⟨⟨term, neg⟩, hlink, h⟩ := Option.bind_eq_some_iff.mp h
  obtain ⟨r, hr, rfl⟩ := Option.map_eq_some_iff.mp h
  obtain ⟨i, hi, hil⟩ := List.exists_of_findSome?_eq_some hlink
  obtain ⟨b, hb, hi⟩ := List.mem_flatMap.mp hi
  obtain ⟨hb, hin⟩ := List.mem_filter.mp hb
  exact ⟨b, hb, of_decide_eq_true hin, i, hi, term, neg, hlink, hil, r, hr, rfl⟩

theorem armLink_cases
    (h : armLink param v i = some (term, neg)) :
    (i = .binOp v "+" param term "Int" ∧ neg = false) ∨
      (i = .binOp v "+" term param "Int" ∧ neg = false) ∨
      i = .binOp v "-" param term "Int" ∧ neg = true := by
  cases i with
  | binOp d op l r ty =>
    simp only [armLink] at h
    split_ifs at h with hop hl hr
    · obtain ⟨rfl, rfl, rfl | rfl⟩ := hop <;> obtain ⟨rfl, rfl⟩ := Prod.mk.inj (Option.some.inj h)
      · exact .inl ⟨by rw [hl], rfl⟩
      · exact .inr (.inr ⟨by rw [hl], rfl⟩)
    · obtain ⟨rfl, rfl, -⟩ := hop
      obtain ⟨rfl, rfl⟩ := hr
      cases h
      exact .inr (.inl ⟨rfl, rfl⟩)
  | _ => cases h

theorem armLink_dest (h : armLink param v i = some (term, neg)) : v ∈ i.dests := by
  rcases armLink_cases h with ⟨rfl, -⟩ | ⟨rfl, -⟩ | ⟨rfl, -⟩ <;> exact List.mem_singleton_self v

end

/-! ## One instruction -/

variable {w : World}

section
variable {P : Program} {f : Function} {T : ArmTables} {param v : ValueId} {s : Frame × World}
  {res : Val}

/-- A sum that goes through is exact: it was checked, or its mark holds. -/
theorem sum_exact {op : String} {d l r : ValueId} {rest : List Inst} {a b : BitVec 64}
    (hop : op = "+" ∨ op = "-") (hcode : s.1.code = .binOp d op l r "Int" :: rest)
    (hmarked : NoOverflowAt P f.provenNoOverflow s) (ha : s.1.regs l = .int a)
    (hb : s.1.regs r = .int b)
    (hres : P.host.evalBinOp (d ∈ f.provenNoOverflow) op "Int" (s.1.regs l) (s.1.regs r) = .ok res) :
    ∃ z, exactResult op a.toInt b.toInt = some z ∧ IntTy.int.Contains z ∧
      res = .int (.ofInt 64 z) := by
  have hsafe : ∀ z, exactResult op a.toInt b.toInt = some z →
      decide (d ∈ f.provenNoOverflow) = true → IntTy.int.Contains z := by
    intro z hz hd
    obtain ⟨x, y, z', hx, hy, hz', hin, -⟩ := hmarked d op l r "Int" rest hcode (of_decide_eq_true hd)
      (by rcases hop with rfl | rfl <;> decide)
    cases ha.symm.trans hx
    cases hb.symm.trans hy
    cases hz.symm.trans hz'
    exact hin
  rw [ha, hb, evalBinOp_ints] at hres
  rcases hop with rfl | rfl
  · obtain ⟨hz, hr⟩ := checked_result (z := a.toInt + b.toInt) rfl (by decide) rfl rfl
      (hsafe _ rfl) hres
    exact ⟨_, rfl, hz, hr⟩
  · obtain ⟨hz, hr⟩ := checked_result (z := a.toInt - b.toInt) rfl (by decide) rfl rfl
      (hsafe _ rfl) hres
    exact ⟨_, rfl, hz, hr⟩

/-- The ends of a range whose negation is an `i64`. -/
theorem negated_contains {r : Range} (h : IntTy.int.Contains r.lo ∧ IntTy.int.Contains r.hi)
    (hlo : IntTy.int.lo < r.lo) (hhi : IntTy.int.lo < r.hi) :
    IntTy.int.Contains (-r.hi) ∧ IntTy.int.Contains (-r.lo) := by
  simp only [IntTy.Contains, IntTy.lo, IntTy.hi, IntTy.signed, IntTy.width, if_true] at *
  omega

/-- **A link is its term away from the parameter.** -/
theorem armLink_bounds {r : Range} {rest : List Inst}
    {ws : List (ValueId × Val)} {vars : String → Val} (hfn : s.1.fn = f)
    (hlink : armLink param v i = some (term, neg)) (hcode : s.1.code = i :: rest)
    (hp : (s.1.effect P i).perform P f s.1.vars s.2 = .done ws vars w)
    (hmarked : NoOverflowAt P f.provenNoOverflow s)
    (hterm : ∃ x, s.1.regs term = .int x ∧ r.lo ≤ x.toInt ∧ x.toInt ≤ r.hi)
    (hneg : neg = true → IntTy.int.Contains (-r.hi) ∧ IntTy.int.Contains (-r.lo)) :
    (⟨(r.linked neg).1, (r.linked neg).2, [v]⟩ : ArmDelta).Bounds
      ((s.1.after rest ws vars).regs v) (s.1.regs param) := by
  obtain ⟨t, ht, hlo, hhi⟩ := hterm
  intro x y hx hy
  rcases armLink_cases hlink with ⟨rfl, rfl⟩ | ⟨rfl, rfl⟩ | ⟨rfl, rfl⟩
  all_goals
    obtain ⟨res, hv, -, hres⟩ :
        ∃ res, (s.1.after rest ws vars).regs v = res ∧ _ ∧ _ := binOp_result hfn hp
    rw [hv] at hx
    subst hx
  · obtain ⟨z, hz, hin, hxz⟩ := sum_exact (.inl rfl) hcode hmarked hy ht hres
    cases hz
    rw [Val.int.inj hxz, toInt_ofInt hin]
    simp only [Range.linked, Bool.false_eq_true, if_false]
    omega
  · obtain ⟨z, hz, hin, hxz⟩ := sum_exact (.inl rfl) hcode hmarked ht hy hres
    cases hz
    rw [Val.int.inj hxz, toInt_ofInt hin]
    simp only [Range.linked, Bool.false_eq_true, if_false]
    omega
  · obtain ⟨z, hz, hin, hxz⟩ := sum_exact (.inr rfl) hcode hmarked hy ht hres
    cases hz
    obtain ⟨hwhi, hwlo⟩ := hneg rfl
    rw [Val.int.inj hxz, toInt_ofInt hin]
    simp only [Range.linked, if_true, IntTy.wrap_of_contains hwhi, IntTy.wrap_of_contains hwlo]
    omega

end

/-! ## The invariant -/

/-- A loop that is analyzed, with its tables and one of its parameters. -/
structure Analyzed (f : Function) (idom : Cfg.Idom) (loops : List NaturalLoop) (l : NaturalLoop)
    (T : ArmTables) (param : ValueId) : Prop where
  tables : T.Of f loops l
  mem : l ∈ loops
  closed : ∀ lp ∈ loops, lp.Closed f idom
  owned : paramOwner f param = some l.header

/-- What holds in an iteration that started at `p`, at the place `q`: the parameter is what it was, an
available value is as far from it as was resolved, and inside an inner loop the value with which its
registered parameter was entered was. -/
structure ArmInv (P : Program) (f : Function) (idom : Cfg.Idom) (l : NaturalLoop) (T : ArmTables)
    (param val : ValueId) (p q : Place) : Prop where
  unchanged : q.regs param = p.regs param
  deltas : ∀ v, ArmReads f T param val v → Available f (Anc idom) q.block q.before v →
    (∀ d, T.registered param v = some d → q.block.id ∉ d.blocks) →
    ∀ k δ, resolveArmDepth f T param k v = some δ → δ.Bounds (q.regs v) (q.regs param)
  inner : ∀ v, ArmReads f T param val v → ∀ d, T.registered param v = some d →
    q.block.id ∈ d.blocks → ∀ k δ, resolveArmDepth f T param k v = some δ →
    ∃ s e, Iterates P f l p s ∧ RunsThrough P f d.blocks s e q ∧ e.regs param = q.regs param ∧
      ∃ j : ArmDelta, j.Bounds (e.regs v) (e.regs param) ∧
        δ.lo = IntTy.int.clamp (j.lo + d.dlo) ∧ δ.hi = IntTy.int.clamp (j.hi + d.dhi)

section
variable {P : Program} {f : Function} {n : Nat} {idom : Cfg.Idom} {loops : List NaturalLoop}
  {l : NaturalLoop} {T : ArmTables} {param val v : ValueId} {p q : Place} {b c : BasicBlock} {k : Nat}
  {δ : ArmDelta} {d : AccDelta}

namespace Analyzed

theorem owner_eq (V : Verified n f idom) (A : Analyzed f idom loops l T param) (hc : c ∈ f.blocks)
    (hv : v ∈ c.params.map (·.val)) : T.paramOwner v = some c.id := by
  rw [A.tables.paramOwner]
  exact paramOwner_eq V hc hv

theorem owner_def (A : Analyzed f idom loops l T param) {owner : BasicBlockId}
    (h : T.paramOwner v = some owner) :
    ∃ c ∈ f.blocks, c.id = owner ∧ v ∈ c.params.map (·.val) := by
  rw [A.tables.paramOwner] at h
  exact paramOwner_def h

theorem param_unbound (V : Verified n f idom) (A : Analyzed f idom loops l T param)
    (hc : c ∈ f.blocks) : (c.id ≠ l.header → param ∉ c.params.map (·.val)) ∧
      ∀ i ∈ c.instructions, param ∉ i.dests := by
  obtain ⟨b, hb, hid, hp⟩ := paramOwner_def A.owned
  constructor
  · intro hne hm
    have := (paramOwner_eq V hc hm).symm.trans A.owned
    exact hne (Option.some.inj this)
  · intro i hi hd
    obtain ⟨pre, post, hi⟩ := List.append_of_mem hi
    exact V.head_not_dest hc hb hi hd (List.mem_append_right _ hp)

theorem registered_def (A : Analyzed f idom loops l T param) (h : T.registered param v = some d) :
    v ≠ param ∧ ∃ lp ∈ loops, T.paramOwner v = some lp.header ∧ d.blocks = lp.blocks := by
  unfold ArmTables.registered at h
  split_ifs at h with hv
  obtain ⟨owner, howner, h⟩ := Option.bind_eq_some_iff.mp h
  split_ifs at h
  obtain ⟨lp, hlp, rfl, hblocks⟩ := A.tables.registry owner v d h
  exact ⟨hv, lp, hlp, howner, hblocks⟩

/-- **Nothing of the loop is available where it is entered**, other than what is bound there. -/
theorem headDefs_of_available (V : Verified n f idom) (A : Analyzed f idom loops l T param)
    (hid : b.id = l.header) (hr : (idom b.id).isSome) (hc : c ∈ f.blocks) (hin : c.id ∈ l.blocks) (hv : v ∈ f.definesIn c) (hav : Available f (Anc idom) b [] v) :
    v ∈ f.headDefs b := by
  obtain ⟨rank, tree⟩ := V.tree
  rcases hav with h | h | ⟨b', hb', hne, hdef, hanc⟩
  · exact h
  · cases h
  · obtain rfl := V.definesIn_unique hb' hc hdef hv
    have hdom := (A.closed l A.mem).dominated b'.id hin (tree.anc_in hanc hr)
    exact absurd (tree.antisymm hanc (hid ▸ hdom)) hne

theorem eq_param_of_resolved (V : Verified n f idom) (A : Analyzed f idom loops l T param)
    (hb : b ∈ f.blocks) (hid : b.id = l.header) (hr : (idom b.id).isSome)
    (hav : Available f (Anc idom) b [] v) (h : resolveArmDepth f T param k v = some δ) : v = param := by
  rcases resolveArmDepth_cases h with ⟨hv, -⟩ | ⟨hne, m, -, ⟨owner, howner, h⟩ | ⟨-, h⟩⟩
  · exact hv
  · obtain ⟨hin, idx, -, j, -, hcase⟩ := paramDelta_cases hne howner h
    obtain ⟨c, hc, rfl, hvc⟩ := A.owner_def howner
    rw [A.tables.piBlocks] at hin
    have hhead := A.headDefs_of_available V hid hr hc hin
      (List.mem_append_left _ (List.mem_append_right _ hvc)) hav
    obtain rfl := V.definesIn_unique hb hc (List.mem_append_left _ hhead)
      (List.mem_append_left _ (List.mem_append_right _ hvc))
    rcases hcase with ⟨-, -, hcur, -⟩ | ⟨-, hno, -⟩
    · exact absurd (hid.trans A.tables.curHeader.symm) hcur
    · exact absurd (hid ▸ A.tables.analyzed) hno
  · obtain ⟨c, hc, hin, i, hi, term, neg, -, hlink, -⟩ := linkDelta_cases h
    obtain ⟨pre, post, hi⟩ := List.append_of_mem hi
    rw [A.tables.piBlocks] at hin
    have hhead := A.headDefs_of_available V hid hr hc hin
      (mem_definesIn_of_dest hi (armLink_dest hlink)) hav
    exact absurd hhead (V.head_not_dest hc hb hi (armLink_dest hlink))

theorem header_notMem (V : Verified n f idom) (A : Analyzed f idom loops l T param)
    (hr : (idom l.header).isSome) (hreg : T.registered param v = some d)
    (h : resolveArmDepth f T param k v = some δ) : l.header ∉ d.blocks := by
  intro hin
  obtain ⟨hne, lp, hlp, howner, hblocks⟩ := A.registered_def hreg
  obtain ⟨rank, tree⟩ := V.tree
  rcases resolveArmDepth_cases h with ⟨hv, -⟩ | ⟨-, m, -, ⟨owner, howner', h⟩ | ⟨hnone, -⟩⟩
  · exact hne hv
  · cases howner.symm.trans howner'
    obtain ⟨hown, idx, -, j, -, hcase⟩ := paramDelta_cases hne howner h
    rw [A.tables.piBlocks] at hown
    have hanc := (A.closed lp hlp).dominated l.header (hblocks ▸ hin) hr
    have hanc' := (A.closed l A.mem).dominated lp.header hown (tree.anc_in hanc hr)
    rcases hcase with ⟨-, -, hcur, -⟩ | ⟨hnone, -⟩
    · exact hcur ((tree.antisymm hanc hanc').trans A.tables.curHeader.symm)
    · rw [hnone] at hreg
      cases hreg
  · rw [hnone] at howner
    cases howner

end Analyzed

theorem ArmInv.start (V : Verified n f idom) (A : Analyzed f idom loops l T param)
    (hat : p.Located f idom) (hhead : p.AtHead l.header) : ArmInv P f idom l T param val p p := by
  obtain ⟨hid, hbefore⟩ := hhead
  refine ⟨rfl, fun v _ hav _ k δ h => ?_, fun v _ d hreg hin k δ h => ?_⟩
  · rw [hbefore] at hav
    obtain rfl := A.eq_param_of_resolved V hat.mem hid hat.reached hav h
    obtain rfl : δ = ⟨0, 0, []⟩ := by
      rcases resolveArmDepth_cases h with ⟨-, h⟩ | ⟨hne, -⟩
      · exact h
      · exact absurd rfl hne
    intro x y hx hy
    cases hx.symm.trans hy
    simp
  · exact absurd (hid ▸ hin) (A.header_notMem V (hid ▸ hat.reached) hreg h)

/-- A value that is read where no registered loop of it goes on is as far from the parameter as was
resolved: either no such loop is about, or this is where it is left. -/
theorem ArmInv.leaving (hrun : ArmRun P f l T param val p) (I : ArmInv P f idom l T param val p q)
    (hq : Iterates P f l p q) {target : BasicBlockId} {vs : List Val} (hleave : q.Leaves f target vs)
    (hreads : ArmReads f T param val v) (hav : Available f (Anc idom) q.block q.before v)
    (hexit : ∀ d, T.registered param v = some d → q.block.id ∈ d.blocks → target ∉ d.blocks)
    (h : resolveArmDepth f T param k v = some δ) : δ.Bounds (q.regs v) (q.regs param) := by
  by_cases hreg : ∃ d, T.registered param v = some d ∧ q.block.id ∈ d.blocks
  · obtain ⟨d, hd, hin⟩ := hreg
    obtain ⟨s, e, hs, hthrough, hsame, j, hj, hlo, hhi⟩ := I.inner v hreads d hd hin k δ h
    have hout := hexit d hd hin
    intro x y hx hy
    obtain ⟨z, hz, hdlo, hdhi⟩ := hrun.full v hreads d hd s e q hs hthrough target vs hleave hout x hx
    obtain ⟨hjlo, hjhi⟩ := hj z y hz (hsame.trans hy)
    have hfits := hrun.fits v hreads d hd q hq hin target vs hleave hout x y hx hy
    rw [hlo, hhi]
    simp only [IntTy.clamp, IntTy.Contains] at hfits ⊢
    omega
  · exact I.deltas v hreads hav (fun d hd hin => hreg ⟨d, hd, hin⟩) k δ h

section
variable (V : Verified n f idom)
include V

theorem ArmInv.after (A : Analyzed f idom loops l T param)
    (hfits : ArmFits f T param val) (hrun : ArmRun P f l T param val p) {before rest : List Inst}
    {s : Frame × World} {ws : List (ValueId × Val)} {vars : String → Val}
    (hat : Place.Located f idom ⟨b, before, s⟩) (hq : Iterates P f l p ⟨b, before, s⟩)
    (I : ArmInv P f idom l T param val p ⟨b, before, s⟩) (hcode : s.1.code = i :: rest)
    (hp : (s.1.effect P i).perform P f s.1.vars s.2 = .done ws vars w) :
    ArmInv P f idom l T param val p ⟨b, before ++ [i], (s.1.after rest ws vars, w)⟩ := by
  have hb : b ∈ f.blocks := hat.mem
  have hi : b.instructions = before ++ i :: rest := hcode ▸ hat.code
  have hkeys := Effect.perform_dests hp
  have hkeep : ∀ u, u ∉ i.dests → (s.1.after rest ws vars).regs u = s.1.regs u := by
    intro u hu
    exact bindRegs_of_notMem (hkeys ▸ hu)
  have hparam := hkeep param ((A.param_unbound V hb).2 i (hi ▸ by simp))
  refine ⟨hparam.trans I.unchanged, fun v hreads hav hreg k δ h => ?_, fun v hreads d hreg hin k δ h => ?_⟩
  · by_cases hd : v ∈ i.dests
    · show δ.Bounds ((s.1.after rest ws vars).regs v) ((s.1.after rest ws vars).regs param)
      rw [hparam]
      rcases resolveArmDepth_cases h with ⟨rfl, -⟩ | ⟨-, m, -, ⟨owner, howner, -⟩ | ⟨-, h⟩⟩
      · exact absurd hd ((A.param_unbound V hb).2 i (hi ▸ by simp))
      · obtain ⟨c, hc, -, hvc⟩ := A.owner_def howner
        exact absurd (List.mem_append_right _ hvc) (V.head_not_dest hb hc hi hd)
      · obtain ⟨b', hb', -, i', hi', term, neg, hfind, hlink, r, hr, rfl⟩ := linkDelta_cases h
        obtain ⟨pre, post, hi'⟩ := List.append_of_mem hi'
        obtain ⟨-, -, rfl⟩ := V.def_unique hb hb' hi hd hi' (armLink_dest hlink)
        refine armLink_bounds hat.fn hlink hcode hp (hrun.marked _ hq)
          (hrun.terms _ hq i rest hcode v hreads term neg hlink r hr) fun hneg => ?_
        subst hneg
        obtain ⟨hlo, hhi⟩ := hfits.negates v hreads term hfind r hr
        exact negated_contains (A.tables.ranges term r hr) hlo hhi
    · show δ.Bounds ((s.1.after rest ws vars).regs v) ((s.1.after rest ws vars).regs param)
      rw [hparam, hkeep v hd]
      exact I.deltas v hreads (hav.cases_snoc.resolve_left hd) hreg k δ h
  · obtain ⟨s', e, hs, hthrough, hsame, hj⟩ := I.inner v hreads d hreg hin k δ h
    exact ⟨s', e, hs, { hthrough with walk := hthrough.walk.tail ⟨.inst hcode hp, hin⟩ },
      hsame.trans hparam.symm, hj⟩

theorem bound_arg {s : Frame × World}
    (hc : c ∈ f.blocks) (hne : c.id ≠ f.entryBlock) (hlen : args.length = c.params.length)
    (hv : v ∈ c.params.map (·.val)) :
    ∃ idx arg, paramPosition f c.id v = some idx ∧ args[idx]? = some arg ∧
      (s.1.into c (args.map s.1.regs)).regs v = s.1.regs arg := by
  refine ⟨(c.params.map (·.val)).idxOf v, ?_⟩
  have hkeys : ((c.params.map (·.val)).zip (args.map s.1.regs)).map (·.1) = c.params.map (·.val) :=
    List.map_fst_zip (by simp [hlen])
  have hval := @bindRegs_of_forall s.1.regs ((c.params.map (·.val)).zip (args.map s.1.regs))
    (fun u val => (args.map s.1.regs)[(c.params.map (·.val)).idxOf u]? = some val)
    (fun x hx => getElem?_idxOf_of_mem_zip (V.params_nodup hc hne) hx) v (hkeys.symm ▸ hv)
  rw [List.getElem?_map] at hval
  obtain ⟨arg, harg, he⟩ := Option.map_eq_some_iff.mp hval
  refine ⟨arg, ?_, harg, he.symm⟩
  simp only [paramPosition, Function.getBlock_of_mem V.ids hc, Option.bind_some, if_pos hv]

section
variable (A : Analyzed f idom loops l T param)
include A

theorem Analyzed.ne_entry
    (hr : (idom c.id).isSome) (hin : c.id ∈ l.blocks) (hne : c.id ≠ l.header) :
    c.id ≠ f.entryBlock := by
  intro he
  obtain ⟨rank, tree⟩ := V.tree
  have hanc := (A.closed l A.mem).dominated c.id hin hr
  exact hne (he.trans (tree.anc_entry (he ▸ hanc)).symm)

/-- What the parameter of a block is bound to is as far from the analyzed parameter as the join of the
edges says. -/
theorem ArmInv.joined
    (hfits : ArmFits f T param val) (hrun : ArmRun P f l T param val p) {s : Frame × World}
    (hat : Place.Located f idom ⟨b, b.instructions, s⟩)
    (hq : Iterates P f l p ⟨b, b.instructions, s⟩)
    (I : ArmInv P f idom l T param val p ⟨b, b.instructions, s⟩)
    (hleave : Place.Leaves f ⟨b, b.instructions, s⟩ c.id (args.map s.1.regs))
    (hedge : (c.id, args) ∈ b.terminator.edges) (hsub : args ⊆ b.terminator.vids)
    (hc : c ∈ f.blocks) (hne : c.id ≠ f.entryBlock) (hlen : args.length = c.params.length)
    (hreads : ArmReads f T param val v) (hv : v ∈ c.params.map (·.val)) (hvp : v ≠ param)
    (hskip : b.id ∉ T.skips param v) (hidx : paramPosition f c.id v = some idx)
    {j : ArmDelta} (hj : ∀ src as a, (src, as) ∈ incomingEdges f c.id → src ∉ T.skips param v →
      as[idx]? = some a → ∃ ε, resolveArmDepth f T param k a = some ε ∧ j.Covers ε) :
    j.Bounds ((s.1.into c (args.map s.1.regs)).regs v) (s.1.regs param) := by
  have howner := A.owner_eq V hc hv
  obtain ⟨idx', arg, hidx', harg, hbound⟩ := bound_arg V (s := s) hc hne hlen hv
  cases hidx.symm.trans hidx'
  obtain ⟨args', hlisted, hsame⟩ := exists_incomingEdges hat.mem hedge
    (hfits.oneEdge v hreads hvp c.id idx howner hidx b hat.mem hskip)
  rw [harg] at hsame
  have hfollow : ArmEdge f T param v b.id c.id arg :=
    ⟨hvp, howner, ⟨idx, args', hidx, hlisted, hsame⟩, hskip⟩
  obtain ⟨ε, hε, hcover⟩ := hj b.id args' arg hlisted hskip hsame
  rw [hbound]
  refine (I.leaving hrun hq hleave (.edge hreads hfollow) ?_ ?_ hε).mono hcover
  · exact V.termUse_available hat.mem (hsub (List.mem_of_getElem? harg))
  · exact hfits.leaves v hreads b.id c.id arg hfollow

theorem ArmInv.into
    (hfits : ArmFits f T param val) (hrun : ArmRun P f l T param val p) {s : Frame × World}
    {vs : List Val} (hat : Place.Located f idom ⟨b, b.instructions, s⟩)
    (hq : Iterates P f l p ⟨b, b.instructions, s⟩)
    (I : ArmInv P f idom l T param val p ⟨b, b.instructions, s⟩)
    (hleave : Place.Leaves f ⟨b, b.instructions, s⟩ c.id vs) (hc : c ∈ f.blocks)
    (hin : c.id ∈ l.blocks) (hheader : c.id ≠ l.header) :
    ArmInv P f idom l T param val p ⟨c, [], (s.1.into c vs, s.2)⟩ := by
  have hexit : b.terminator.exit f s.1.regs = .goto c.id vs := hleave.exit
  obtain ⟨args, hedge, rfl, hsub⟩ := edge_of_goto hexit
  obtain ⟨c', hc', -, hid, hlen, ht⟩ := V.exit_goto hat.mem hexit
  obtain rfl := List.inj_on_of_nodup_map V.ids hc' hc hid
  rw [List.length_map] at hlen
  have hentry := A.ne_entry V (V.reached_of_edge hat.mem hat.reached ht) hin hheader
  have hkeys : ((c'.params.map (·.val)).zip (args.map s.1.regs)).map (·.1) = c'.params.map (·.val) :=
    List.map_fst_zip (by simp [hlen])
  have hkeep : ∀ u, u ∉ c'.params.map (·.val) →
      (s.1.into c' (args.map s.1.regs)).regs u = s.1.regs u := by
    intro u hu
    exact bindRegs_of_notMem (by rw [hkeys]; exact hu)
  have hparam := hkeep param ((A.param_unbound V hc).1 hheader)
  refine ⟨hparam.trans I.unchanged, fun v hreads hav hreg k δ h => ?_, fun v hreads d hreg hinner k δ h => ?_⟩
  · show δ.Bounds ((s.1.into c' (args.map s.1.regs)).regs v)
      ((s.1.into c' (args.map s.1.regs)).regs param)
    rw [hparam]
    by_cases hv : v ∈ c'.params.map (·.val)
    · -- a parameter that is bound here is that of a join
      have howner := A.owner_eq V hc hv
      rcases resolveArmDepth_cases h with ⟨rfl, -⟩ | ⟨hvp, m, -, ⟨owner, howner', h⟩ | ⟨hnone, -⟩⟩
      · exact absurd hv ((A.param_unbound V hc).1 hheader)
      · cases howner.symm.trans howner'
        obtain ⟨-, idx, hidx, j, hj, ⟨d, hd, -⟩ | ⟨hnone, -, rfl⟩⟩ := paramDelta_cases hvp howner h
        · obtain ⟨-, lp, hlp, hlpo, hblocks⟩ := A.registered_def hd
          have hhead : c'.id = lp.header := Option.some.inj (howner.symm.trans hlpo)
          exact absurd (hblocks ▸ hhead ▸ (A.closed lp hlp).header) (hreg d hd)
        · exact I.joined V A hfits hrun hat hq hleave hedge hsub hc hentry hlen hreads hv hvp
            (by simp [ArmTables.skips, hnone]) hidx hj
      · rw [hnone] at howner
        cases howner
    · rw [hkeep v hv]
      refine I.leaving hrun hq hleave hreads ?_ (fun d hd _ => hreg d hd) h
      exact (V.available_of_edge hat.mem hc hat.reached ht hav).resolve_left hv
  · obtain ⟨hvp, lp, hlp, hlpo, hblocks⟩ := A.registered_def hreg
    have hstep : P.Walk f ⟨b, b.instructions, s⟩ ⟨c', [], (s.1.into c' (args.map s.1.regs), s.2)⟩ :=
      .edge hleave hc
    by_cases hfrom : b.id ∈ d.blocks
    · obtain ⟨s', e, hs, hthrough, hsame, hj⟩ := I.inner v hreads d hreg hfrom k δ h
      exact ⟨s', e, hs, { hthrough with walk := hthrough.walk.tail ⟨hstep, hinner⟩ },
        hsame.trans hparam.symm, hj⟩
    · -- the inner loop is entered, which is at its header
      have hhead : c'.id = lp.header := by
        by_contra hne
        refine hfrom (hblocks ▸ (A.closed lp hlp).preds c'.id (hblocks ▸ hinner) hne b.id ?_)
        exact Cfg.mem_predecessors.mpr ((V.mem_successors hat.mem).mpr ht)
      obtain ⟨c, hcm, hcid, hv⟩ := A.owner_def hlpo
      obtain rfl := List.inj_on_of_nodup_map V.ids hcm hc (hcid.trans hhead.symm)
      rw [← hhead] at hlpo
      rcases resolveArmDepth_cases h with ⟨rfl, -⟩ | ⟨-, m, -, ⟨owner, howner', h⟩ | ⟨hnone, -⟩⟩
      · exact absurd rfl hvp
      · cases hlpo.symm.trans howner'
        obtain ⟨-, idx, hidx, j, hj, ⟨d', hd', -, hlo, hhi⟩ | ⟨hnone, -⟩⟩ := paramDelta_cases hvp hlpo h
        · cases hreg.symm.trans hd'
          refine ⟨_, _, hq, ⟨hstep, hfrom, hinner, .refl⟩, rfl, j.toArmDelta, ?_, hlo, hhi⟩
          show j.toArmDelta.Bounds ((s.1.into c (args.map s.1.regs)).regs v)
            ((s.1.into c (args.map s.1.regs)).regs param)
          rw [hparam]
          exact I.joined V A hfits hrun hat hq hleave hedge hsub hc hentry hlen hreads hv hvp
            (by simpa [ArmTables.skips, hreg] using hfrom) hidx hj
        · rw [hnone] at hreg
          cases hreg
      · rw [hnone] at hlpo
        cases hlpo

theorem armInv_of_iterates
    (hfits : ArmFits f T param val) (hrun : ArmRun P f l T param val p) (hat : p.Located f idom)
    (hhead : p.AtHead l.header) (hq : Iterates P f l p q) : ArmInv P f idom l T param val p q := by
  induction hq with
  | refl => exact .start V A hat hhead
  | @tail q r hpre hstep ih =>
    obtain ⟨hwalk, hin, hnot⟩ := hstep
    have hatq := Program.WalkIn.located V hat hpre
    cases hwalk with
    | inst hcode hp => exact ih.after V A hfits hrun hatq hpre hcode hp
    | edge hleave hc => exact ih.into V A hfits hrun hatq hpre hleave hc hin fun he => hnot ⟨he, rfl⟩

end

end

end

/-! ## The deltas -/

/-- **Accumulator deltas are sound**, where they fit: in an iteration that keeps to what was taken for
granted, what a latch hands back is as far from the parameter as was resolved, and no negation of a
term's range leaves `i64`. -/
theorem resolveArmDelta_sound (P : Program) (f : Function) (hf : Accepts f) {n : Nat}
    {loops : List NaturalLoop} (hloops : Cfg.loops n f = some loops) {l : NaturalLoop} (hl : l ∈ loops)
    {T : ArmTables} (hT : T.Of f loops l) {param : ValueId} (hparam : paramOwner f param = some l.header)
    {val : ValueId} {δ : ArmDelta} (hres : resolveArmDelta f T param val = some δ)
    (hfits : ArmFits f T param val) :
    (∀ (args : List Val) (w : World) (p : Place), P.Visits f args w p → p.AtHead l.header →
      ArmRun P f l T param val p → ∀ q, Iterates P f l p q → ∀ latchArgs,
      (l.header, latchArgs) ∈ q.block.terminator.edges → val ∈ latchArgs →
      q.Leaves f l.header (latchArgs.map q.regs) → δ.Bounds (q.regs val) (p.regs param)) ∧
      ∀ v, ArmReads f T param val v → ∀ term, findLink f T param v = some (term, true) →
        ∀ r, T.termRange term = some r →
          IntTy.int.Contains (-r.hi) ∧ IntTy.int.Contains (-r.lo) := by
  obtain ⟨m, hm⟩ := hf
  obtain ⟨idom, V⟩ := verifyFunction_ok_iff_verified.mp hm
  have A : Analyzed f idom loops l T param :=
    ⟨hT, hl, Cfg.closed_of_loops V.blocks_ne_nil V.dominance hloops, hparam⟩
  constructor
  · intro args w p hp hhead hrun q hq latchArgs hedge hval hleave
    have hat := hp.located V
    have I := armInv_of_iterates V A hfits hrun hat hhead hq
    have hatq := Program.WalkIn.located V hat hq
    have hbefore : q.before = q.block.instructions := by
      have := hatq.code
      rwa [hleave.code, List.append_nil, eq_comm] at this
    rw [← I.unchanged]
    refine I.leaving hrun hq hleave .self ?_ (fun d hd _ => ?_) hres
    · rw [hbefore]
      exact V.termUse_available hatq.mem (edge_args_vids hedge hval)
    · exact A.header_notMem V (hhead.1 ▸ hat.reached) hd hres
  · intro v hv term hfind r hr
    obtain ⟨hlo, hhi⟩ := hfits.negates v hv term hfind r hr
    exact negated_contains (hT.ranges term r hr) hlo hhi

/-! ## A loop that sums -/

/-- `acc = 0; i = 0; while i < 1 { acc = acc op term; i = i + 1 }`. -/
def accumulate (params : List Param) (start : List Inst) (op : String) : Function where
  name := "f"
  params := params
  returnType := "Int"
  blocks :=
    [{ id := 0, params := params.map fun p => ⟨p.val, p.ty, none⟩
       instructions := start ++ [.constInt 0 0], terminator := .branch 1 [0, 0] },
     { id := 1, params := [⟨1, "Int", none⟩, ⟨2, "Int", none⟩]
       instructions := [.constInt 3 1, .binOp 4 "<" 1 3 "Int"]
       terminator := .condBranch 4 2 [] 3 [] },
     { id := 2, instructions := [.binOp 5 op 2 9 "Int", .binOp 6 "+" 1 3 "Int"]
       terminator := .branch 1 [6, 5] },
     { id := 3, instructions := [], terminator := .ret (some 2) }]

def accumulateLoop : NaturalLoop := { header := 1, backEdges := [2], blocks := [1, 2] }

/-- Its tables, with nothing registered. -/
def accumulateTables (f : Function) : ArmTables :=
  armTables f [⟨1, 0, 1, [1, 2], 1⟩] ⟨1, 0, 1, [1, 2], 1⟩ (fun _ _ => none) fun _ => none

/-- A link about to execute reads a term in its range. -/
def linkReads (T : ArmTables) (param : ValueId) (s : Frame × World) : Bool :=
  match s.1.code with
  | .binOp d op l r ty :: _ =>
    match armLink param d (.binOp d op l r ty) with
    | some (term, _) =>
      match T.termRange term, s.1.regs term with
      | some r, .int x => r.lo ≤ x.toInt && x.toInt ≤ r.hi
      | some _, _ => false
      | none, _ => true
    | none => true
  | _ => true

theorem accumulateTables_registered (f : Function) (param v : ValueId) :
    (accumulateTables f).registered param v = none := by
  unfold ArmTables.registered
  split_ifs
  · rfl
  · simp [accumulateTables, armTables]

theorem accumulateTables_of (f : Function) : (accumulateTables f).Of f [accumulateLoop] accumulateLoop := by
  refine ⟨rfl, rfl, rfl, List.mem_singleton_self _, fun term r hr => ?_, fun _ _ _ h => by cases h⟩
  have hr' : (constRange f term).or ((paramOwner f term).bind fun own =>
      provenParam f [⟨1, 0, 1, [1, 2], 1⟩] own term) = some r := by
    simpa [ArmTables.termRange, accumulateTables, armTables] using hr
  rcases Option.or_eq_some_iff.mp hr' with h | ⟨-, h⟩
  · obtain ⟨b, -, k, -, rfl⟩ := constRange_def h
    exact ⟨IntTy.contains_decode_int k, IntTy.contains_decode_int k⟩
  · obtain ⟨own, -, h⟩ := Option.bind_eq_some_iff.mp h
    rcases provenParam_eq_some h with ⟨pi, hpi, -, rfl⟩ | rfl
    · obtain rfl := List.mem_singleton.mp hpi
      exact ⟨by decide, by decide⟩
    · exact ⟨by decide, by decide⟩

/-- With nothing registered or marked, an iteration fits when the terms do. -/
theorem accumulate_run {P : Program} {f : Function} {n : Nat} {idom : Cfg.Idom} (V : Verified n f idom)
    {args : List Val} {param val : ValueId} (hmarks : f.provenNoOverflow = [])
    (hreads : ∀ s, P.leafMachine.Steps (f.start args, w) s →
      linkReads (accumulateTables f) param s = true) {p : Place} (hp : P.Visits f args w p) :
    ArmRun P f accumulateLoop (accumulateTables f) param val p := by
  have hnone : ∀ {v d}, (accumulateTables f).registered param v ≠ some d := by
    intro v d h
    rw [accumulateTables_registered] at h
    cases h
  refine ⟨fun q hq i rest hcode v _ term neg hlink r hr => ?_, fun q hq d op l r ty rest _ hm => ?_,
    fun v _ d h => absurd h hnone, fun v _ d h => absurd h hnone⟩
  · have h := hreads q.state ((Program.WalkIn.visits hp hq).steps V)
    rcases armLink_cases hlink with ⟨rfl, rfl⟩ | ⟨rfl, rfl⟩ | ⟨rfl, rfl⟩
    all_goals
      simp only [linkReads, hcode, hlink, hr] at h
      split at h
      case h_1 r' x hr' hx =>
        cases hr'
        simp only [Bool.and_eq_true, decide_eq_true_eq] at h
        exact ⟨x, hx, h⟩
      case h_2 => cases h
      case h_3 h' => cases h'
  · rw [hmarks] at hm
    cases hm

/-- `acc = acc + 3`: what the latch hands back is three more. -/
theorem resolveArmDelta_sound_three :
    (∀ p, (Program.bare []).Visits (accumulate [] [.constInt 9 3] "+") [] World.initial p →
      p.AtHead 1 → ∀ q, Iterates (Program.bare []) (accumulate [] [.constInt 9 3] "+") accumulateLoop p q →
      ∀ latchArgs, (1, latchArgs) ∈ q.block.terminator.edges → 5 ∈ latchArgs →
        q.Leaves (accumulate [] [.constInt 9 3] "+") 1 (latchArgs.map q.regs) →
        (⟨3, 3, [5]⟩ : ArmDelta).Bounds (q.regs 5) (p.regs 2)) ∧
      resolveArmDelta (accumulate [] [.constInt 9 3] "+")
        (accumulateTables (accumulate [] [.constInt 9 3] "+")) 2 5 = some ⟨3, 3, [5]⟩ := by
  have hacc : Accepts (accumulate [] [.constInt 9 3] "+") := ⟨16, rfl⟩
  obtain ⟨m, hm⟩ := hacc
  obtain ⟨idom, V⟩ := verifyFunction_ok_iff_verified.mp hm
  have hfits : ArmFits (accumulate [] [.constInt 9 3] "+")
      (accumulateTables (accumulate [] [.constInt 9 3] "+")) 2 5 := by
    refine ⟨fun v _ term h r _ => ?_, fun v _ _ owner idx _ _ b hb _ c ta ea hterm => ?_,
      fun v _ src owner arg _ d h => ?_⟩
    · obtain ⟨i, hi, hlink⟩ := List.exists_of_findSome?_eq_some h
      obtain ⟨b, hb, hi⟩ := List.mem_flatMap.mp hi
      have hb := (List.mem_filter.mp hb).1
      rcases armLink_cases hlink with ⟨rfl, hneg⟩ | ⟨rfl, hneg⟩ | ⟨rfl, -⟩
      · cases hneg
      · cases hneg
      · simp only [accumulate, List.mem_cons, List.not_mem_nil, or_false] at hb
        rcases hb with rfl | rfl | rfl | rfl <;> simp at hi
    · simp only [accumulate, List.mem_cons, List.not_mem_nil, or_false] at hb
      rcases hb with rfl | rfl | rfl | rfl <;> cases hterm
    · rw [accumulateTables_registered] at h
      cases h
  have hsound := resolveArmDelta_sound (Program.bare []) (accumulate [] [.constInt 9 3] "+") ⟨16, rfl⟩
    (rfl : Cfg.loops 16 _ = some [accumulateLoop]) (List.mem_singleton_self _) (accumulateTables_of _)
    (rfl : paramOwner _ 2 = _) (rfl : resolveArmDelta _ _ 2 5 = some ⟨3, 3, [5]⟩) hfits
  refine ⟨fun p hp hhead => ?_, rfl⟩
  refine hsound.1 [] World.initial p hp hhead (accumulate_run V rfl (fun s hs => ?_) hp)
  exact Machine.forall_of_always (n := 20)
    (p := linkReads (accumulateTables (accumulate [] [.constInt 9 3] "+")) 2) rfl hs

/-- `acc = acc - n`, run with `n = 5`: nothing is known of `n`, and the least `i64` is its own
negation, so the delta ends before it starts. -/
theorem resolveArmDelta_not_sound :
    ¬∀ (P : Program) (f : Function), Accepts f → ∀ (n : Nat) (loops : List NaturalLoop),
      Cfg.loops n f = some loops → ∀ l ∈ loops, ∀ T : ArmTables, T.Of f loops l → ∀ param val δ,
      paramOwner f param = some l.header → resolveArmDelta f T param val = some δ →
      ∀ args w p, P.Visits f args w p → p.AtHead l.header → ArmRun P f l T param val p →
      ∀ q, Iterates P f l p q → ∀ latchArgs, (l.header, latchArgs) ∈ q.block.terminator.edges →
        val ∈ latchArgs → q.Leaves f l.header (latchArgs.map q.regs) →
        δ.Bounds (q.regs val) (p.regs param) := by
  intro h
  have hacc : Accepts (accumulate [⟨"n", "Int", 9⟩] [] "-") := ⟨16, rfl⟩
  obtain ⟨m, hm⟩ := hacc
  obtain ⟨idom, V⟩ := verifyFunction_ok_iff_verified.mp hm
  let f := accumulate [⟨"n", "Int", 9⟩] [] "-"
  obtain ⟨hentry, hsound⟩ : (Program.bare []).Visits f [.int 5] World.initial
      ⟨f.blocks[0], [], (f.start [.int 5], World.initial)⟩ ∧ Place.Sound _ :=
    Program.Visits.entry rfl
  -- the entry's constant, and the edge to the header
  obtain ⟨hwalk, hsound⟩ := hsound.get (P := Program.bare []) (f := f) (n := 2)
    (h := show (Place.walk _ _ (fun _ => true) _ _).isSome = true by decide +kernel)
  have hp := hwalk.visits hentry
  -- the comparison, the edge to the body, and its two sums
  obtain ⟨hwalk, -⟩ := hsound.get (P := Program.bare []) (f := f) (n := 5)
    (h := show (Place.walk _ _ (fun q => decide (q.block.id ∈ [1, 2] ∧
      ¬(q.block.id = 1 ∧ q.before.isEmpty))) _ _).isSome = true by decide +kernel)
  have hq : Iterates (Program.bare []) f accumulateLoop _ _ := hwalk.mono fun q hq => by
    simpa [accumulateLoop, Place.AtHead, imp_iff_not_or] using hq
  have hrun : ArmRun (Program.bare []) f accumulateLoop (accumulateTables f) 2 5 _ :=
    accumulate_run V rfl (fun s hs => Machine.forall_of_always (n := 20)
      (p := linkReads (accumulateTables f) 2) rfl hs) hp
  have hbody := List.inj_on_of_nodup_map V.ids (Program.WalkIn.located V (hp.located V) hq).mem
    (List.getElem_mem (show 2 < 4 by decide) : f.blocks[2] ∈ f.blocks) (by decide +kernel)
  have hbounds := h (Program.bare []) f ⟨16, rfl⟩ 16 [accumulateLoop] rfl accumulateLoop
    (List.mem_singleton_self _) (accumulateTables f) (accumulateTables_of f) 2 5
    ⟨-9223372036854775807, -9223372036854775808, [5]⟩ rfl rfl _ _ _ hp
    ⟨by decide +kernel, List.isEmpty_iff.mp (by decide +kernel)⟩ hrun _ hq [6, 5]
    (by decide +kernel) (by decide) ⟨List.isEmpty_iff.mp (by decide +kernel), by rw [hbody]; rfl⟩
    (-5) 0 (by decide +kernel) (by decide +kernel)
  exact absurd hbounds.2 (by decide)

end Datara.Optimizer
