import Datara.Dmir.Availability
import Datara.Dmir.Reachability
import Datara.Ownership.Fresh
import Mathlib.Data.List.Pairwise

/-!
# The fresh-set against runs

A call of a function of the set, in the machine of its module. The values that the analysis traces from
a return (`Followed`) hold objects that were made since the call began, in every frame on the stack
(`Traces`): an allocation makes one, a call of a function of the set is answered with one, and copies
and identity calls pass them on. What no step stores or hands to the environment is referred to by
nothing but registers and variables (`agreeOff_of_not_lets`).

**So the returned object is the caller's alone, where no traced variable is a parameter and the object
was let out by no step** (`computeFreshSet_sound`). The analysis checks neither
(`computeFreshSet_not_sound`).
-/

namespace Datara.Ownership

open Dmir Library

/-! ## The claim -/

/-- An object that was made since the allocation counts were `b`. -/
def Since (b : String × ValueId → Nat) (r : Ref) : Prop :=
  ∃ fn d k, r = .site fn d k ∧ b (fn, d) ≤ k

/-- What a call starts from: nothing refers to an object that was not made yet. -/
structure Started (args : List Val) (w : World) : Prop where
  args : ∀ a ∈ args, a.Off (Since w.allocs)
  globals : ∀ n, (w.globals n).Off (Since w.allocs)
  fields : ∀ r o, w.heap r = some o → ∀ field, (o.fields field).Off (Since w.allocs)
  known : ∀ r ∈ w.known, ¬Since w.allocs r

/-- An object made during a call that began on `start`, to which nothing but the answer refers. -/
structure HandedOver (start : World) (args : List Val) (w : World) (r : Ref) : Prop where
  made : Since start.allocs r
  params : ∀ a ∈ args, a ≠ .ref r
  globals : ∀ n, w.globals n ≠ .ref r
  fields : ∀ x o, x ≠ r → w.heap x = some o → ∀ field, o.fields field ≠ .ref r
  known : r ∉ w.known

/-! ## The condition -/

/-- A value has one definition, and is not a parameter. -/
def DefinedOnce (f : Function) : Prop :=
  ∀ i ∈ walked f, ∀ d ∈ i.dests, (∀ j ∈ walked f, d ∈ j.dests → j = i) ∧
    (∀ p ∈ f.params, p.val ≠ d) ∧ ∀ b ∈ f.blocks, ∀ p ∈ b.params, p.val ≠ d

/-- The values that are traced from the returns of a function. -/
inductive Followed (f : Function) : ValueId → Prop
  | returned {v : ValueId} : v ∈ returnedValues f → Followed f v
  | copy {d u : ValueId} {x : String} : Followed f d → .loadVar d x ∈ walked f →
    .assignVar x u ∈ walked f → Followed f u
  | ident {d u : ValueId} {func : String} {args : List ValueId} {ty : String} : Followed f d →
    .call d func (u :: args) ty ∈ walked f → func ∈ identityCalls → Followed f u

/-- The traced values have one definition each, and the traced variables are the function's own: none
is a module variable or a parameter, and none goes under a second name. -/
structure Traceable (P : Program) (f : Function) : Prop where
  once : DefinedOnce f
  own : ∀ d x, Followed f d → .loadVar d x ∈ walked f → P.isGlobal x = false
  noParam : ∀ d x, Followed f d → .loadVar d x ∈ walked f → ∀ p ∈ f.params,
    f.slotOf p.name ≠ f.slotOf x
  oneName : ∀ d x, Followed f d → .loadVar d x ∈ walked f → ∀ m u, .assignVar m u ∈ walked f →
    P.isGlobal m = false → f.slotOf m = f.slotOf x → m = x

/-- The effect stores a reference in a module variable or a field, or hands it to the environment. -/
def Lets (P : Program) (M : Module) (r : Ref) : Effect → Prop
  | .store n v => P.isGlobal n = true ∧ v = .ref r
  | .alloc _ _ fs => ∃ f ∈ fs, f.2 = .ref r
  | .setField _ _ v => v = .ref r
  | .request e _ => .ref r ∈ e.handed
  | .call _ func args => (M.function func).isNone ∧ .ref r ∈ args
  | .method _ _ o args => .ref r ∈ o :: args
  | _ => False

/-- The step ahead lets a reference out. -/
def LetsOut (P : Program) (M : Module) (t : Thread) (r : Ref) : Prop :=
  ∃ i rest, t.frame.code = i :: rest ∧ Lets P M r (t.frame.effect P i)

/-- What a module is linked with: it defines no built-in function, and the identity calls are the
run-time library's, which answers with the argument. -/
structure Linked (P : Program) (M : Module) : Prop where
  builtin : ∀ g ∈ M.functions, P.host.builtin g.name = none
  identity : ∀ func ∈ identityCalls, M.function func = none ∧ P.host.builtin func = none ∧
    ∀ a args trace, P.env (.call func (a :: args) :: trace) = .ret a

/-! ## Traced values -/

theorem mem_walked {f : Function} {i : Inst} (h : i ∈ f.insts) : i ∈ walked f := by
  obtain ⟨b, hb, hi⟩ := Function.mem_insts.mp h
  refine List.mem_flatMap.mpr ⟨b, hb, ?_⟩
  have hself : ∀ i : Inst, i ∈ walkInst i := by
    intro i
    cases i <;> simp [walkInst]
  have hlist : ∀ is : List Inst, ∀ i ∈ is, i ∈ walkInsts is := by
    intro is
    induction is with
    | nil => exact fun i hi => hi
    | cons j is ih =>
      intro i hi
      rw [walkInsts, List.mem_append]
      rcases List.mem_cons.mp hi with rfl | hi
      · exact .inl (hself i)
      · exact .inr (ih i hi)
  exact hlist _ i hi

theorem Creates.dests {fresh : FreshSet} {d : ValueId} {i : Inst} (h : Creates fresh d i) : d ∈ i.dests := by
  cases h <;> exact List.mem_singleton.mpr rfl

theorem Passes.dests {d u : ValueId} {i : Inst} (h : Passes d u i) : d ∈ i.dests := by
  cases h
  exact List.mem_singleton.mpr rfl

section
variable {P : Program} {M : Module} {fresh : FreshSet} {f : Function} {v : ValueId}

/-- A value that resolves is defined by an instruction. -/
theorem Origin.exists_dest (h : Origin fresh f v) : ∃ i ∈ walked f, v ∈ i.dests := by
  cases h with
  | created hi hc => exact ⟨_, hi, hc.dests⟩
  | passed hi hp _ => exact ⟨_, hi, hp.dests⟩
  | copied hi _ => exact ⟨_, hi, List.mem_singleton.mpr rfl⟩

/-- **What is traced resolves.** One case for each way to go on from a value that does. -/
theorem Followed.resolves (hf : transfersFresh fresh f = true) (honce : DefinedOnce f)
    (hident : ∀ func ∈ identityCalls, fresh.lookup func = none) (h : Followed f v) :
    Resolves fresh f v := by
  induction h with
  | returned hv =>
    simp only [transfersFresh, Bool.and_eq_true, List.all_eq_true, decide_eq_true_eq] at hf
    exact ⟨17, Option.isSome_iff_exists.mpr ⟨_, hf.2 _ hv⟩⟩
  | @copy d u x _ hl ha ih =>
    have hone := (honce _ hl d (List.mem_singleton.mpr rfl)).1
    cases ih.origin with
    | created hi hc =>
      obtain rfl := hone _ hi hc.dests
      cases hc
    | passed hi hp _ =>
      obtain rfl := hone _ hi hp.dests
      cases hp
    | copied hi hall =>
      obtain rfl := (Inst.loadVar.inj (hone _ hi (List.mem_singleton.mpr rfl))).2
      exact hall u ha
  | @ident d u func args ty _ hc hfunc ih =>
    have hone := (honce _ hc d (List.mem_singleton.mpr rfl)).1
    cases ih.origin with
    | created hi hcr =>
      obtain rfl := hone _ hi hcr.dests
      cases hcr with
      | call _ hl =>
        rw [hident func hfunc] at hl
        cases hl
    | passed hi hp hu =>
      obtain rfl := hone _ hi hp.dests
      cases hp
      exact hu
    | copied hi _ => cases hone _ hi (List.mem_singleton.mpr rfl)

end

/-! ## One frame -/

/-- The value holds no object from before. -/
def HoldsSince (b : String × ValueId → Nat) (v : Val) : Prop := ∀ r, v = .ref r → Since b r

/-- What is traced holds objects made since the call began. -/
structure Traces (b : String × ValueId → Nat) (F : Frame) : Prop where
  regs : ∀ v, Followed F.fn v → HoldsSince b (F.regs v)
  vars : ∀ d x, Followed F.fn d → .loadVar d x ∈ walked F.fn →
    HoldsSince b (F.vars (F.fn.slotOf x))

/-- A set that a function of a module joined on: it has functions of the module only. -/
def OfModule (M : Module) (fresh : FreshSet) : Prop :=
  ∀ n c, fresh.lookup n = some c → ∃ g, M.function n = some g

theorem Since.mono {b b' : String × ValueId → Nat} {r : Ref} (h : Since b r) (hle : ∀ x, b' x ≤ b x) :
    Since b' r := by
  obtain ⟨fn, d, k, hr, hk⟩ := h
  exact ⟨fn, d, k, hr, Nat.le_trans (hle _) hk⟩

theorem HoldsSince.of_ref?_eq_none {b : String × ValueId → Nat} {v : Val} (h : v.ref? = none) : HoldsSince b v := by
  rintro r rfl
  cases h

/-- An environment that answers with the first argument does so. -/
theorem ask_identity {env : Env} {w : World} {func : String} {a : Val} {args : List Val}
    (h : ∀ trace, env (.call func (a :: args) :: trace) = .ret a) :
    (w.ask env (.call func (a :: args))).1 = .returned a := by
  have hkeeps : ∀ (vs : List Val) (w : World), w.knows a = true →
      (vs.foldl World.learn w).knows a = true := by
    intro vs
    induction vs with
    | nil => exact fun w hw => hw
    | cons v vs ih =>
      refine fun w hw => ih _ ?_
      cases v with
      | ref r =>
        unfold World.knows at hw ⊢
        split at hw
        · simpa [World.learn] using .inr (of_decide_eq_true hw)
        · rfl
      | _ => exact hw
  have hknows : (((a :: args).foldl World.learn (w.emit (.call func (a :: args))))).knows a = true := by
    refine hkeeps args _ ?_
    cases a with
    | ref r => cases r <;> simp [World.knows, World.learn]
    | _ => rfl
  simp only [World.ask, h, Reply.run, Event.handed, hknows, if_true]

section
variable {P : Program} {M : Module} {fresh : FreshSet} {F : Frame} {b : String × ValueId → Nat}
  {w w' : World} {i : Inst} {rest : List Inst} {ws : List (ValueId × Val)} {vars : String → Val}

theorem OfModule.identity (h : OfModule M fresh) (hlink : Linked P M) :
    ∀ func ∈ identityCalls, fresh.lookup func = none := by
  intro func hfunc
  cases hl : fresh.lookup func with
  | none => rfl
  | some c =>
    obtain ⟨g, hg⟩ := h func c hl
    rw [(hlink.identity func hfunc).1] at hg
    cases hg

theorem Traces.after (h : Traces b F) (hlink : Linked P M) (hmod : OfModule M fresh)
    (hf : transfersFresh fresh F.fn = true) (htr : Traceable P F.fn) (hi : i ∈ F.fn.insts)
    (hb : ∀ x, b x ≤ w.allocs x) (hin : (F.effect P i).enters P M = none)
    (hp : (F.effect P i).perform P F.fn F.vars w = .done ws vars w') :
    Traces b (F.after rest ws vars) := by
  have hident := hmod.identity hlink
  refine ⟨fun v hv => ?_, fun d x hd hl => ?_⟩
  · rcases bindRegs_cases F.regs ws v with hold | hnew
    · simp only [Frame.after, hold]
      exact h.regs v hv
    · -- the instruction is the one that the trace of the value goes through
      have hdest : v ∈ i.dests := by
        rw [← Effect.perform_dests hp]
        exact List.mem_map_of_mem hnew
      have hone := (htr.once i (mem_walked hi) v hdest).1
      show HoldsSince b (bindRegs F.regs ws v)
      cases ((hv.resolves hf htr.once hident).origin) with
      | @created j hj hc =>
        obtain rfl := hone j hj hc.dests
        cases hc with
        | structInit c fs =>
          cases hp
          rintro r hr
          have hr : Val.ref (.site F.fn.name v (w.allocs (F.fn.name, v))) = .ref r := by
            simpa [bindRegs, World.alloc] using hr
          cases hr
          exact ⟨_, v, _, rfl, hb _⟩
        | @call func args ty hl =>
          -- such a call would have entered the function
          obtain ⟨g, hg⟩ := hmod func _ hl
          have hbuiltin : P.host.builtin func = none := by
            rw [← Module.name_of_function hg]
            exact hlink.builtin g (List.mem_of_find?_eq_some hg)
          simp [Frame.effect, Inst.effect, Effect.enters, hbuiltin, hg] at hin
      | @passed j u hj hpass hu =>
        obtain rfl := hone j hj hpass.dests
        cases hpass with
        | @mk func args ty hfunc =>
          obtain ⟨-, hbuiltin, henv⟩ := hlink.identity func hfunc
          simp only [Frame.effect, Inst.effect, Effect.perform, hbuiltin] at hp
          obtain ⟨a, ha, rfl, -⟩ := Result.answered_done hp
          have hanswer := ask_identity (w := w) (henv (F.regs u) (args.map F.regs))
          rw [List.map_cons] at ha
          cases (congrArg Prod.fst ha).symm.trans hanswer
          simpa [bindRegs] using h.regs u (.ident hv hj hfunc)
      | @copied x hl hall =>
        obtain rfl := hone _ hl (List.mem_singleton.mpr rfl)
        simp only [Frame.effect, Inst.effect, Effect.perform, htr.own v x hv hl,
          Bool.false_eq_true, if_false] at hp
        cases hp
        simpa [bindRegs] using h.vars v x hv hl
  · by_cases hstore : ∃ n u, i = .assignVar n u
    · obtain ⟨n, u, rfl⟩ := hstore
      simp only [Frame.effect, Inst.effect, Effect.perform] at hp
      split_ifs at hp with hg
      · cases hp
        exact h.vars d x hd hl
      · cases hp
        by_cases hslot : F.fn.slotOf n = F.fn.slotOf x
        · obtain rfl := htr.oneName d x hd hl n u (mem_walked hi) (Bool.not_eq_true _ ▸ hg) hslot
          simp only [Frame.after, Function.update_self]
          exact h.regs u (.copy hd hl (mem_walked hi))
        · simp only [Frame.after, Function.update_of_ne (Ne.symm hslot)]
          exact h.vars d x hd hl
    · rw [show vars = F.vars from Effect.perform_vars hp fun n v he => hstore <| by
        obtain ⟨u, hu⟩ := Inst.eq_assignVar_of_effect he
        exact ⟨n, u, hu⟩]
      exact h.vars d x hd hl

/-- The first frame of a call: what is traced is neither a parameter nor the variable of one. -/
theorem Traces.start {f : Function} {args : List Val} (hident : ∀ func ∈ identityCalls,
    fresh.lookup func = none) (hf : transfersFresh fresh f = true) (htr : Traceable P f) :
    Traces b (f.start args) := by
  have hfold : ∀ (bound : List (Param × Val)) (x : String) (vars : String → Val),
      (∀ p ∈ bound, f.slotOf p.1.name ≠ f.slotOf x) →
      bound.foldl (fun vars p => Function.update vars (f.slotOf p.1.name) p.2) vars (f.slotOf x) =
        vars (f.slotOf x) := by
    intro bound x
    induction bound with
    | nil => exact fun vars _ => rfl
    | cons p bound ih =>
      intro vars hp
      rw [List.forall_mem_cons] at hp
      rw [List.foldl_cons, ih _ hp.2, Function.update_of_ne (Ne.symm hp.1)]
  refine ⟨fun v hv => ?_, fun d x hd hl => ?_⟩
  · obtain ⟨i, hi, hdest⟩ := (hv.resolves hf htr.once hident).origin.exists_dest
    have hnew : v ∉ ((f.params.zip args).map fun p => (p.1.val, p.2)).map (·.1) := by
      intro hmem
      simp only [List.map_map, List.mem_map] at hmem
      obtain ⟨p, hp, hpv⟩ := hmem
      exact (htr.once i hi v hdest).2.1 p.1 (List.of_mem_zip hp).1 hpv
    have hzero : (f.start args).regs v = .zero := bindRegs_of_notMem hnew
    rw [hzero]
    exact .of_ref?_eq_none rfl
  · have hzero : (f.start args).vars (f.slotOf x) = .zero :=
      hfold _ x _ fun p hp => htr.noParam d x hd hl p.1 (List.of_mem_zip hp).1
    show HoldsSince b ((f.start args).vars (f.slotOf x))
    rw [hzero]
    exact .of_ref?_eq_none rfl

theorem Traces.into (h : Traces b F) (hident : ∀ func ∈ identityCalls, fresh.lookup func = none)
    (hf : transfersFresh fresh F.fn = true) (htr : Traceable P F.fn) {c : BasicBlock}
    (hc : c ∈ F.fn.blocks) (vs : List Val) : Traces b (F.into c vs) := by
  refine ⟨fun v hv => ?_, h.vars⟩
  obtain ⟨i, hi, hdest⟩ := (hv.resolves hf htr.once hident).origin.exists_dest
  have hnew : v ∉ ((c.params.map (·.val)).zip vs).map (·.1) := by
    intro hmem
    obtain ⟨e, he, rfl⟩ := List.mem_map.mp hmem
    obtain ⟨p, hp, hpv⟩ := List.mem_map.mp (List.of_mem_zip he).1
    exact (htr.once i hi _ hdest).2.2 c hc p hp hpv
  rw [show (F.into c vs).regs v = F.regs v from bindRegs_of_notMem hnew]
  exact h.regs v hv

theorem Traces.returned (h : Traces b F) {blk : BasicBlock} (hblk : blk ∈ F.fn.blocks) {v : Val}
    (hret : blk.terminator.exit F.fn F.regs = .ret v) : HoldsSince b v := by
  cases ht : blk.terminator with
  | ret u =>
    simp only [ht, Terminator.exit, Exit.ret.injEq, Function.returnValue] at hret
    cases u with
    | none =>
      obtain rfl | rfl : Val.unit = v ∨ Val.zero = v := by
        split_ifs at hret
        · exact .inl hret
        · exact .inr hret
      · exact .of_ref?_eq_none rfl
      · exact .of_ref?_eq_none rfl
    | some u =>
      split_ifs at hret
      · rw [← hret]
        exact .of_ref?_eq_none rfl
      · rw [← hret]
        refine h.regs u (.returned (List.mem_flatMap.mpr ⟨blk, hblk, List.mem_append_right _ ?_⟩))
        rw [ht]
        exact List.mem_singleton.mpr rfl
  | branch t args => rw [ht] at hret; cases hret
  | condBranch c t ta e ea =>
    simp only [ht, Terminator.exit] at hret
    split_ifs at hret
  | unreachable => rw [ht] at hret; cases hret

end

/-! ## The stack -/

/-- A function of the set. -/
def InSet (fresh : FreshSet) (f : Function) : Prop := (fresh.lookup f.name).isSome

instance (fresh : FreshSet) (f : Function) : Decidable (InSet fresh f) :=
  inferInstanceAs (Decidable ((fresh.lookup f.name).isSome = true))

/-- A set whose functions joined it, each on a part of it. -/
def Joined (M : Module) (fresh : FreshSet) : Prop :=
  ∀ f, M.function f.name = some f → InSet fresh f →
    ∃ part, OfModule M part ∧ part.Sub fresh ∧ transfersFresh part f = true

/-- A frame of a function of the module. -/
structure Inside (M : Module) (F : Frame) : Prop where
  fn : M.function F.fn.name = some F.fn
  code : ∀ i ∈ F.code, i ∈ F.fn.insts
  term : F.term = .unreachable ∨ ∃ b ∈ F.fn.blocks, F.term = b.terminator

/-- The callers below a frame of `g` whose call began on the allocation counts `b`, down to a call of
`f₀` that began on `b₀`. A register that is traced waits for a function of the set only. -/
inductive Stack (M : Module) (fresh : FreshSet) (b₀ : String × ValueId → Nat) (f₀ : Function) :
    (String × ValueId → Nat) → Function → List Caller → Prop
  | nil : Stack M fresh b₀ f₀ b₀ f₀ []
  | cons {c : Caller} {cs : List Caller} {b b' : String × ValueId → Nat} {g : Function} :
    (∀ x, b' x ≤ b x) → Inside M c.frame → (InSet fresh c.frame.fn → Traces b' c.frame) →
    (InSet fresh c.frame.fn → Followed c.frame.fn c.dest → InSet fresh g) →
    Stack M fresh b₀ f₀ b' c.frame.fn cs → Stack M fresh b₀ f₀ b g (c :: cs)

/-- A thread of a call of `f₀`. -/
structure Running (M : Module) (fresh : FreshSet) (b₀ : String × ValueId → Nat) (f₀ : Function)
    (t : Thread) (b : String × ValueId → Nat) : Prop where
  le : ∀ x, b x ≤ t.world.allocs x
  inside : Inside M t.frame
  traces : InSet fresh t.frame.fn → Traces b t.frame
  stack : Stack M fresh b₀ f₀ b t.frame.fn t.callers

section
variable {P : Program} {M : Module} {fresh : FreshSet} {b₀ b : String × ValueId → Nat}
  {f₀ g : Function} {t t' : Thread} {args : List Val}

theorem Inside.start (hg : M.function g.name = some g) : Inside M (g.start args) := by
  refine ⟨hg, fun i hi => ?_, ?_⟩
  · simp only [Function.start] at hi
    cases hb : g.getBlock g.entryBlock with
    | none => simp [hb] at hi
    | some blk =>
      exact Function.mem_insts.mpr ⟨blk, (Function.getBlock_eq_some hb).1, by simpa [hb] using hi⟩
  · cases hb : g.getBlock g.entryBlock with
    | none => exact .inl (by simp [Function.start, hb])
    | some blk => exact .inr ⟨blk, (Function.getBlock_eq_some hb).1, by simp [Function.start, hb]⟩

theorem traces_start (hlink : Linked P M) (hjoined : Joined M fresh)
    (htr : ∀ f, M.function f.name = some f → InSet fresh f → Traceable P f)
    (hg : M.function g.name = some g) (hin : InSet fresh g) : Traces b (g.start args) := by
  obtain ⟨part, hmod, -, hf⟩ := hjoined g hg hin
  exact .start (hmod.identity hlink) hf (htr g hg hin)

/-- **One step.** A call begins on the counts of its moment; its answer was made since then, and so
since its caller began. -/
theorem Running.step (h : Running M fresh b₀ f₀ t b) (hlink : Linked P M) (hjoined : Joined M fresh)
    (htr : ∀ f, M.function f.name = some f → InSet fresh f → Traceable P f)
    (hs : P.callStep M t = .inl t') : ∃ b', Running M fresh b₀ f₀ t' b' := by
  cases hcode : t.frame.code with
  | cons i rest =>
    have hi : i ∈ t.frame.fn.insts := h.inside.code i (hcode ▸ List.mem_cons_self)
    have hrest : ∀ j ∈ rest, j ∈ t.frame.fn.insts :=
      fun j hj => h.inside.code j (hcode ▸ List.mem_cons_of_mem _ hj)
    cases hin : (t.frame.effect P i).enters P M with
    | some call =>
      obtain ⟨d, g, vs⟩ := call
      simp only [Program.callStep, hcode, hin] at hs
      cases hs
      obtain ⟨func, as, ty, rfl, hg⟩ := eq_call_of_enters hin
      have hname := Module.name_of_function hg
      have hself : M.function g.name = some g := by rwa [hname]
      refine ⟨t.world.allocs, fun x => Nat.le_refl _, .start hself,
        traces_start hlink hjoined htr hself, .cons h.le ⟨h.inside.fn, hrest, h.inside.term⟩
          (fun hset => ⟨(h.traces hset).regs, (h.traces hset).vars⟩) (fun hset hd => ?_) h.stack⟩
      obtain ⟨part, hmod, hsub, hf⟩ := hjoined _ h.inside.fn hset
      have honce := (htr _ h.inside.fn hset).once
      have hone := (honce _ (mem_walked hi) d (List.mem_singleton.mpr rfl)).1
      cases (hd.resolves hf honce (hmod.identity hlink)).origin with
      | created hj hc =>
        obtain rfl := hone _ hj hc.dests
        cases hc with
        | call _ hl =>
          show (fresh.lookup g.name).isSome = true
          rw [hname, hsub _ _ hl]
          rfl
      | passed hj hpass _ =>
        obtain rfl := hone _ hj hpass.dests
        cases hpass with
        | mk _ _ hfunc =>
          rw [(hlink.identity _ hfunc).1] at hg
          cases hg
      | copied hj _ => cases hone _ hj (List.mem_singleton.mpr rfl)
    | none =>
      cases hp : (t.frame.effect P i).perform P t.frame.fn t.frame.vars t.world with
      | halt e w =>
        simp only [Program.callStep, hcode, hin, hp] at hs
        cases hs
      | done ws vars w =>
        simp only [Program.callStep, hcode, hin, hp] at hs
        cases hs
        refine ⟨b, fun x => Nat.le_trans (h.le x) (Effect.allocs_le hp x),
          ⟨h.inside.fn, hrest, h.inside.term⟩, fun hset => ?_, h.stack⟩
        obtain ⟨part, hmod, -, hf⟩ := hjoined _ h.inside.fn hset
        exact (h.traces hset).after hlink hmod hf (htr _ h.inside.fn hset) hi h.le hin hp
  | nil =>
    cases hx : t.frame.term.exit t.frame.fn t.frame.regs with
    | trap e =>
      simp only [Program.callStep, hcode, hx] at hs
      cases hs
    | goto target vs =>
      cases hF : t.frame.enter target vs with
      | none =>
        simp only [Program.callStep, hcode, hx, hF] at hs
        cases hs
      | some F =>
        simp only [Program.callStep, hcode, hx, hF] at hs
        cases hs
        obtain ⟨c, hc, rfl⟩ := Option.map_eq_some_iff.mp hF
        have hmem := (Function.getBlock_eq_some hc).1
        refine ⟨b, h.le, ⟨h.inside.fn, fun j hj => Function.mem_insts.mpr ⟨c, hmem, hj⟩,
          .inr ⟨c, hmem, rfl⟩⟩, fun hset => ?_, h.stack⟩
        obtain ⟨part, hmod, -, hf⟩ := hjoined _ h.inside.fn hset
        exact (h.traces hset).into (hmod.identity hlink) hf (htr _ h.inside.fn hset) hmem vs
    | ret v =>
      cases hcs : t.callers with
      | nil =>
        simp only [Program.callStep, hcode, hx, hcs] at hs
        cases hs
      | cons c cs =>
        simp only [Program.callStep, hcode, hx, hcs] at hs
        cases hs
        have hstack := h.stack
        rw [hcs] at hstack
        cases hstack with
        | @cons _ _ _ b' _ hle hin hframe hwaits hbelow =>
          refine ⟨b', fun x => Nat.le_trans (hle x) (h.le x), ⟨hin.fn, hin.code, hin.term⟩,
            fun hset => ⟨fun u hu => ?_, (hframe hset).vars⟩, hbelow⟩
          by_cases hud : u = c.dest
          · subst hud
            have hanswer : HoldsSince b v := by
              rcases h.inside.term with hterm | ⟨blk, hblk, hterm⟩
              · rw [hterm] at hx
                cases hx
              · exact (h.traces (hwaits hset hu)).returned hblk (hterm ▸ hx)
            intro r hr
            refine (hanswer r ?_).mono hle
            simpa [Caller.answered, Frame.after, bindRegs] using hr
          · intro r hr
            refine (hframe hset).regs u hu r ?_
            simpa [Caller.answered, Frame.after, bindRegs, hud] using hr

theorem running_of_steps {w : World} (hlink : Linked P M) (hjoined : Joined M fresh)
    (htr : ∀ f, M.function f.name = some f → InSet fresh f → Traceable P f)
    (hg : M.function g.name = some g) (h : (P.callMachine M).Steps (g.thread args w) t) :
    ∃ b, Running M fresh w.allocs g t b := by
  refine h.invariant (I := fun t => ∃ b, Running M fresh w.allocs g t b) (fun a c ha hs => ?_) ?_
  · obtain ⟨b, hb⟩ := ha
    exact hb.step hlink hjoined htr hs
  · exact ⟨w.allocs, fun x => Nat.le_refl _, .start hg, traces_start hlink hjoined htr hg, .nil⟩

/-! ## What no step lets out -/

theorem perform_of_not_lets {r : Ref} {f : Function} {e : Effect} {vars vars' : String → Val}
    {w w' : World} {ws : List (ValueId × Val)} (hr : ∀ n, Ref.ext n ≠ r)
    (hw : w.AgreeOff (· = r) w) (he : ¬Lets P M r e) (hin : e.enters P M = none)
    (hp : e.perform P f vars w = .done ws vars' w') : w'.AgreeOff (· = r) w' := by
  have handed : ∀ {vs : List Val}, .ref r ∉ vs → ∀ v ∈ vs, v.Off (· = r) := by
    rintro vs hvs v hv x rfl rfl
    exact hvs hv
  have hands : e.Hands (· = r) → w'.AgreeOff (· = r) w' :=
    fun h => (Effect.perform_hands hr hw h hp).2
  cases e with
  | store n v =>
    simp only [Effect.perform] at hp
    split_ifs at hp with hg
    · cases hp
      refine (hw.setGlobal n ?_).emit _
      rintro x rfl rfl
      exact he ⟨hg, rfl⟩
    · cases hp
      exact hw
  | alloc d c fs =>
    cases hp
    refine World.agreeOff_alloc hw ?_
    rintro p hpf x hx rfl
    exact he ⟨p, hpf, hx⟩
  | setField o field v =>
    simp only [Effect.perform] at hp
    split at hp
    case h_1 x ob hro =>
      cases hp
      cases o with
      | ref y =>
        obtain ⟨ob', ho, heq⟩ := Option.map_eq_some_iff.mp hro
        cases heq
        refine World.agreeOff_setObj hw ho (.inr ?_)
        rintro z rfl rfl
        exact he rfl
      | _ => cases hro
    case h_2 => cases hp
  | call d func args =>
    cases hb : P.host.builtin func with
    | some g =>
      simp only [Effect.perform, hb] at hp
      cases hp
      exact hw
    | none =>
      cases hm : M.function func with
      | some g => simp [Effect.enters, hb, hm] at hin
      | none =>
        refine hands (handed fun hmem => he ⟨by rw [hm]; rfl, hmem⟩)
  | request ev binds => exact hands (handed he)
  | method d m o args => exact hands (handed he)
  | _ => exact hands trivial

/-- **An object that no step lets out stays unreferred to.** -/
theorem agreeOff_of_not_lets {r : Ref} {s : Thread} (hr : ∀ n, Ref.ext n ≠ r)
    (hs : s.world.AgreeOff (· = r) s.world) (h : (P.callMachine M).Steps s t)
    (hlets : ∀ u, (P.callMachine M).Steps s u → ¬LetsOut P M u r) :
    t.world.AgreeOff (· = r) t.world := by
  induction h with
  | refl => exact hs
  | @head a c t hstep _ ih =>
    refine ih ?_ fun u hu => hlets u (.head hstep hu)
    have hstep : P.callStep M a = .inl c := hstep
    simp only [Program.callStep] at hstep
    split at hstep
    case h_1 i rest hcode =>
      cases hin : (a.frame.effect P i).enters P M with
      | some call =>
        simp only [hin] at hstep
        cases hstep
        exact hs
      | none =>
        simp only [hin] at hstep
        split at hstep
        case h_1 ws vars w hp =>
          cases hstep
          exact perform_of_not_lets hr hs (fun he => hlets a (.refl _) ⟨i, rest, hcode, he⟩) hin hp
        case h_2 => cases hstep
    case h_2 =>
      split at hstep
      · split at hstep <;> cases hstep
        exact hs
      · split at hstep <;> cases hstep
        exact hs
      · cases hstep

end

/-! ## The fresh-set is sound -/

section
variable {P : Program} {M : Module} {arcClasses cyclicClasses : List String}

theorem joined_computeFreshSet : Joined M (computeFreshSet M arcClasses cyclicClasses) := by
  intro f hf hset
  obtain ⟨c, hc⟩ := Option.isSome_iff_exists.mp hset
  obtain ⟨g, part, hg, hpass, hsub⟩ := computeFreshSet_joined hc
  cases hf.symm.trans hg
  refine ⟨part, fun n k hn => ?_, hsub, hpass⟩
  obtain ⟨g', -, hg', -⟩ := computeFreshSet_joined (hsub n k hn)
  exact ⟨g', hg'⟩

theorem Started.agreeOff {args : List Val} {w : World} (h : Started args w) {r : Ref}
    (hr : Since w.allocs r) : w.AgreeOff (· = r) w := by
  have hoff : ∀ v : Val, v.Off (Since w.allocs) → v.Off (· = r) := fun v hv => hv.mono fun x hx => hx ▸ hr
  exact World.agreeOff_of (fun x o _ ho field => hoff _ (h.fields x o ho field))
    (fun n => hoff _ (h.globals n)) fun x hx he => h.known x hx (he ▸ hr)

/-- **The object a function of the set returns is the caller's alone**: it was made during the call,
and no parameter, module variable, field or reference the environment holds refers to it. -/
theorem computeFreshSet_sound (P : Program) (M : Module) (arcClasses cyclicClasses : List String)
    (hlink : Linked P M) {g : Function} (hg : M.function g.name = some g)
    (hset : InSet (computeFreshSet M arcClasses cyclicClasses) g)
    (htr : ∀ f, M.function f.name = some f → InSet (computeFreshSet M arcClasses cyclicClasses) f →
      Traceable P f)
    {args : List Val} {w : World} (hstart : Started args w) {t : Thread} {v : Val}
    (h : (P.callMachine M).Steps (g.thread args w) t) (hcallers : t.callers = [])
    (hret : t.frame.term.exit t.frame.fn t.frame.regs = .ret v)
    (hobject : v.ref?.isSome)
    (hlets : ∀ u, (P.callMachine M).Steps (g.thread args w) u → ∀ r, v = .ref r → ¬LetsOut P M u r) :
    ∃ r, v = .ref r ∧ HandedOver w args t.world r := by
  obtain ⟨b, hrun⟩ := running_of_steps hlink joined_computeFreshSet htr hg h
  -- no caller is left, so the frame is that of the call itself
  have hstack : Stack M (computeFreshSet M arcClasses cyclicClasses) w.allocs g b t.frame.fn [] :=
    hcallers ▸ hrun.stack
  have hown : t.frame.fn = g ∧ b = w.allocs := by
    generalize t.frame.fn = f at hstack
    cases hstack
    exact ⟨rfl, rfl⟩
  obtain ⟨hfn, rfl⟩ := hown
  obtain ⟨r, rfl⟩ : ∃ r, v = .ref r := by
    cases v with
    | ref r => exact ⟨r, rfl⟩
    | _ => cases hobject
  have hmade : Since w.allocs r := by
    rcases hrun.inside.term with hterm | ⟨blk, hblk, hterm⟩
    · rw [hterm] at hret
      cases hret
    · exact (hrun.traces (hfn ▸ hset)).returned hblk (hterm ▸ hret) r rfl
  have hoff := agreeOff_of_not_lets (fun n => ?_) (hstart.agreeOff hmade) h fun u hu =>
    hlets u hu r rfl
  · exact ⟨r, rfl, hmade, fun a ha he => hstart.args a ha r he hmade,
      fun n he => hoff.globals_off n r he rfl, fun x o hx ho field he => hoff.fields x o hx ho field r he rfl,
      fun hk => hoff.known_off r hk rfl⟩
  · rintro rfl
    obtain ⟨fn, d, k, he, -⟩ := hmade
    cases he

end

/-! ## Where it holds, and where it fails -/

theorem definedOnce_of_nodup {f : Function} (h : ((walked f).flatMap Inst.dests).Nodup)
    (hp : ∀ d ∈ (walked f).flatMap Inst.dests, (∀ p ∈ f.params, p.val ≠ d) ∧
      ∀ b ∈ f.blocks, ∀ p ∈ b.params, p.val ≠ d) : DefinedOnce f := by
  intro i hi d hd
  refine ⟨fun j hj hdj => ?_, hp d (List.mem_flatMap.mpr ⟨i, hi, hd⟩)⟩
  by_contra hne
  have hapart := (List.nodup_flatMap.mp h).2
  have : Std.Symm (Function.onFun List.Disjoint Inst.dests) := ⟨fun x y hxy d hy hx => hxy hx hy⟩
  exact hapart.forall hj hi hne hdj hd

/-- A run-time library without functions, and an environment that answers with the first argument. -/
def echoing : Program := { Program.bare [] with
  env := fun trace => match trace with
    | .call _ (a :: _) :: _ => .ret a
    | _ => .ret .unit }

/-- A function that makes an object. -/
def mkA : Function where
  name := "mk"
  returnType := "A"
  blocks := [{
    id := 0
    instructions := [.structInit 0 "A" [], .assignVar "a" 0, .loadVar 1 "a"]
    terminator := .ret (some 1) }]

/-- A function that hands on what `mkA` returns. -/
def remake : Function where
  name := "remake"
  returnType := "A"
  blocks := [{ id := 0, instructions := [.call 0 "mk" [] "A"], terminator := .ret (some 0) }]

def makers : Module := ⟨[remake, mkA]⟩

example : computeFreshSet makers [] [] = [("remake", "A"), ("mk", "A")] := by decide

/-- A function without parameters, in a program without module variables. -/
theorem traceable_of_params_nil {f : Function} (hf : DefinedOnce f) (hp : f.params = []) :
    Traceable echoing f where
  once := hf
  own _ _ _ _ := rfl
  noParam _ _ _ _ p h := by
    rw [hp] at h
    cases h
  oneName _ _ _ _ _ _ _ _ h := by simpa [Function.slotOf, hp] using h

/-- The instructions of the makers let nothing out. -/
def handsNothing (t : Thread) : Bool :=
  match t.frame.code with
  | .structInit _ _ [] :: _ | .assignVar _ _ :: _ | .loadVar _ _ :: _ | .call _ _ [] _ :: _ | [] => true
  | _ => false

theorem not_letsOut_of_handsNothing {t : Thread} {r : Ref} (h : handsNothing t = true) :
    ¬LetsOut echoing makers t r := by
  rintro ⟨i, rest, hcode, hlets⟩
  rw [handsNothing, hcode] at h
  cases i with
  | structInit d c fs =>
    cases fs with
    | nil =>
      obtain ⟨f, hf, -⟩ := hlets
      cases hf
    | cons f fs => cases h
  | assignVar n v => cases hlets.1
  | loadVar d n => exact hlets
  | call d func args ty =>
    cases args with
    | nil => cases hlets.2
    | cons a args => cases h
  | _ => cases h

theorem linked_echoing : Linked echoing makers where
  builtin _ _ := rfl
  identity := by
    intro func hfunc
    refine ⟨?_, rfl, fun _ _ _ => rfl⟩
    simp only [identityCalls, List.mem_cons, List.not_mem_nil, or_false] at hfunc
    rcases hfunc with rfl | rfl <;> decide

theorem started_initial {args : List Val} (h : ∀ a ∈ args, ∀ fn d k, a ≠ .ref (.site fn d k)) :
    Started args World.initial where
  args a ha r hr := by
    rintro ⟨fn, d, k, rfl, -⟩
    exact h a ha fn d k hr
  globals n := Val.zero_off
  fields r o ho := by cases ho
  known r hr := by cases hr

theorem computeFreshSet_sound_remake :
    ∃ t r, (echoing.callMachine makers).Steps (remake.thread [] World.initial) t ∧
      t.callers = [] ∧ t.frame.term.exit t.frame.fn t.frame.regs = .ret (.ref r) ∧
      HandedOver World.initial [] t.world r := by
  have hsteps : (echoing.callMachine makers).Steps (remake.thread [] World.initial) _ :=
    .head rfl (.head rfl (.head rfl (.head rfl (.head rfl (.refl _)))))
  have htr : ∀ f, makers.function f.name = some f →
      InSet (computeFreshSet makers [] []) f → Traceable echoing f := by
    intro f hf _
    have hmem : f ∈ makers.functions := List.mem_of_find?_eq_some hf
    simp only [makers, List.mem_cons, List.not_mem_nil, or_false] at hmem
    rcases hmem with rfl | rfl
    · exact traceable_of_params_nil (definedOnce_of_nodup (by decide) (by decide)) rfl
    · exact traceable_of_params_nil (definedOnce_of_nodup (by decide) (by decide)) rfl
  obtain ⟨r, hr, hover⟩ := computeFreshSet_sound echoing makers [] [] linked_echoing
    (g := remake) rfl (by decide) htr
    (started_initial fun a ha => absurd ha List.not_mem_nil) hsteps rfl rfl rfl
    fun u hu r _ => not_letsOut_of_handsNothing <|
      Machine.forall_of_always (n := 8) (p := handsNothing) rfl hu
  exact ⟨_, r, hsteps, rfl, congrArg _ hr, hover⟩

/-- A function that assigns its parameter on one path only. -/
def pick : Function where
  name := "pick"
  params := [{ name := "a", ty := "A", val := 0 }, { name := "c", ty := "Bool", val := 1 }]
  returnType := "A"
  blocks := [
    { id := 0, instructions := [], terminator := .condBranch 1 1 [] 2 [] },
    { id := 1, instructions := [.structInit 2 "A" [], .assignVar "a" 2], terminator := .branch 2 [] },
    { id := 2, instructions := [.loadVar 3 "a"], terminator := .ret (some 3) }]

/-- On the other path it returns the caller's object. -/
theorem computeFreshSet_not_sound :
    ¬∀ (P : Program) (M : Module) (arcClasses cyclicClasses : List String), Linked P M →
      ∀ g, M.function g.name = some g → InSet (computeFreshSet M arcClasses cyclicClasses) g →
      ∀ args w, Started args w → ∀ t v, (P.callMachine M).Steps (g.thread args w) t →
        t.callers = [] → t.frame.term.exit t.frame.fn t.frame.regs = .ret v →
        ∃ r, v = .ref r ∧ HandedOver w args t.world r := by
  intro h
  have hlink : Linked echoing ⟨[pick]⟩ := by
    refine ⟨fun _ _ => rfl, fun func hfunc => ⟨?_, rfl, fun _ _ _ => rfl⟩⟩
    simp only [identityCalls, List.mem_cons, List.not_mem_nil, or_false] at hfunc
    rcases hfunc with rfl | rfl <;> decide
  have hstart : Started [.ref (.ext 0), .bool false] World.initial := by
    refine started_initial fun a ha fn d k he => ?_
    simp only [List.mem_cons, List.not_mem_nil, or_false] at ha
    rcases ha with rfl | rfl <;> cases he
  obtain ⟨r, hr, hover⟩ := h echoing ⟨[pick]⟩ [] [] hlink pick rfl (by decide) _ _ hstart _ _
    (.head rfl (.head rfl (.refl _))) rfl rfl
  cases hr
  obtain ⟨fn, d, k, he, -⟩ := hover.made
  cases he

end Datara.Ownership
