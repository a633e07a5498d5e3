import Datara.Dmir.Calls
import Datara.Library.Rounds
import Mathlib.Data.List.Sort

/-!
# The fresh-set

`compute_fresh_set` (`ownership/fresh.rs`) collects the functions that hand out an object of their
own making: every returned value is traced, through identity calls and copies of variables, to
allocations and to calls of functions that are in the set already. The facts it traces in are
`FnFacts` (`ownership/dataflow.rs`), without the uses and positions that only the release planner
reads.

A variable is traced to all its assignments, wherever they stand; that it was assigned at all, and
that nothing else refers to the object, is not looked at.
-/

namespace Datara.Ownership

open Dmir Library

/-- `PRIMITIVE_TYPES`. -/
def primitiveTypes : List String :=
  ["Int", "Int8", "Int16", "Int32", "Float", "Float32", "Bool", "Str", "String", "RawPtr"]

/-- `IDENTITY_CALLS`. -/
def identityCalls : List String := ["datara_rt_arc_init", "datara_rt_arc_acquire"]

/-- `RELEASE_CALLS`. -/
def releaseCalls : List String := ["arc_release", "datara_rt_weak_drop", "destroy", "drop"]

/-- A map from the functions of the set to the classes they return. -/
abbrev FreshSet := List (String × String)

mutual

/-- The instructions `walk_insts` looks at: a compound instruction is opened. -/
def walkInst : Inst → List Inst
  | .whileLoop ci cv bi => .whileLoop ci cv bi :: walkInsts ci ++ walkInsts bi
  | i => [i]

/-- `walkInst` along a list. -/
def walkInsts : List Inst → List Inst
  | [] => []
  | i :: is => walkInst i ++ walkInsts is

end

/-- All instructions of a function, nested ones included. -/
def walked (f : Function) : List Inst := f.blocks.flatMap fun b => walkInsts b.instructions

/-! ## Facts about one function -/

/-- `FnFacts`, as far as the fresh-set reads it. -/
structure FnFacts where
  creations : ValueId → Option String
  identity : ValueId → Option ValueId
  copies : ValueId → Option String
  bindings : List (String × ValueId)

namespace FnFacts

def new : FnFacts := ⟨fun _ => none, fun _ => none, fun _ => none, []⟩

/-- The object a call creates: a call of a function in the set, of the class the set says. -/
def createdBy (fresh : FreshSet) (func : String) (args : List ValueId) (ty : String) : Bool :=
  func ≠ "datara_rt_free" && func ≠ "datara_rt_arc_release" &&
    !(func ∈ releaseCalls && args ≠ []) && ty ≠ "" && ty ∉ primitiveTypes &&
      fresh.lookup func = some ty

/-- The value a call passes on. -/
def identityOf (func : String) (args : List ValueId) : Option ValueId :=
  if func ∈ identityCalls then args.head? else none

/-- `walk_insts` at one instruction. -/
def walk (fresh : FreshSet) (facts : FnFacts) : Inst → FnFacts
  | .structInit d c _ =>
    { facts with creations := Function.update facts.creations d (some c) }
  | .call d func args ty =>
    { facts with
      identity :=
        match identityOf func args with
        | some src => Function.update facts.identity d (some src)
        | none => facts.identity
      creations :=
        if createdBy fresh func args ty then Function.update facts.creations d (some ty)
        else facts.creations }
  | .assignVar n v => { facts with bindings := facts.bindings ++ [(n, v)] }
  | .loadVar d n => { facts with copies := Function.update facts.copies d (some n) }
  | _ => facts

/-- The facts about a function, under the set so far. -/
def of (fresh : FreshSet) (f : Function) : FnFacts := (walked f).foldl (walk fresh) new

/-- `resolve_creation`. -/
def resolveCreation (facts : FnFacts) : Nat → ValueId → Option String
  | 0, _ => none
  | n + 1, v =>
    match facts.creations v with
    | some c => some c
    | none => (facts.identity v).bind (facts.resolveCreation n)

/-- The values assigned to a variable. -/
def defs (facts : FnFacts) (x : String) : List ValueId :=
  (facts.bindings.filter (·.1 = x)).map Prod.snd

/-- `resolve_return_class_depth`, with the depths that are left. -/
def resolveReturnClass (facts : FnFacts) : Nat → ValueId → Option String
  | 0, _ => none
  | n + 1, v =>
    match facts.resolveCreation 16 v with
    | some c => some c
    | none =>
      (facts.copies v).bind fun src =>
        match facts.defs src with
        | [] => none
        | u :: us =>
          (facts.resolveReturnClass n u).bind fun c =>
            if us.all fun u => facts.resolveReturnClass n u = some c then some c else none

end FnFacts

/-! ## The fixpoint -/

/-- The values a function returns. -/
def returnedValues (f : Function) : List ValueId :=
  f.blocks.flatMap fun b =>
    (b.instructions.filterMap fun
      | .ret v => v
      | _ => none) ++
    match b.terminator with
    | .ret (some v) => [v]
    | _ => []

/-- Every return hands out a fresh object of the declared class, and there is one. -/
def transfersFresh (fresh : FreshSet) (f : Function) : Bool :=
  returnedValues f ≠ [] &&
    (returnedValues f).all fun v => (FnFacts.of fresh f).resolveReturnClass 17 v = some f.returnType

/-- The functions that may be fresh, by name. -/
def freshCandidates (M : Module) (arcClasses cyclicClasses : List String) : List Function :=
  ((M.functions.map (·.name)).dedup.insertionSort (· ≤ ·)).filterMap M.function |>.filter fun f =>
    f.returnType ≠ "" && f.returnType ∉ primitiveTypes && f.returnType ∉ arcClasses &&
      f.returnType ∉ cyclicClasses

/-- A candidate joins the set. -/
def joinFresh (fresh : FreshSet) (f : Function) : Option FreshSet :=
  if (fresh.lookup f.name).isNone && transfersFresh fresh f then
    some ((f.name, f.returnType) :: fresh)
  else none

/-- `compute_fresh_set`. -/
def computeFreshSet (M : Module) (arcClasses cyclicClasses : List String) : FreshSet :=
  let candidates := freshCandidates M arcClasses cyclicClasses
  (rounds joinFresh candidates (candidates.length + 1) []).getD []

/-! ## What the facts say -/

/-- An instruction that creates an object, under a set. -/
inductive Creates (fresh : FreshSet) (d : ValueId) : Inst → Prop
  | structInit (c : String) (fs : List (String × ValueId)) : Creates fresh d (.structInit d c fs)
  | call {func : String} (args : List ValueId) {ty : String} :
    fresh.lookup func = some ty → Creates fresh d (.call d func args ty)

/-- An instruction that passes a value on. -/
inductive Passes (d u : ValueId) : Inst → Prop
  | mk {func : String} (args : List ValueId) (ty : String) :
    func ∈ identityCalls → Passes d u (.call d func (u :: args) ty)

variable {f : Function} {fresh : FreshSet} {v : ValueId}

namespace FnFacts

/-- What facts about some instructions say. -/
structure SoundFor (fresh : FreshSet) (is : List Inst) (facts : FnFacts) : Prop where
  creations : ∀ d c, facts.creations d = some c → ∃ i ∈ is, Creates fresh d i
  identity : ∀ d u, facts.identity d = some u → ∃ i ∈ is, Passes d u i
  copies : ∀ d x, facts.copies d = some x → .loadVar d x ∈ is

variable {facts : FnFacts}

theorem SoundFor.walk {is : List Inst} {i : Inst}
    (h : facts.SoundFor fresh is) (hi : i ∈ is) : (facts.walk fresh i).SoundFor fresh is := by
  cases i with
  | structInit d c fs =>
    refine ⟨fun e c' he => ?_, h.identity, h.copies⟩
    by_cases hed : e = d
    · subst hed
      exact ⟨_, hi, .structInit c fs⟩
    · exact h.creations e c' (by simpa [FnFacts.walk, hed] using he)
  | call d func args ty =>
    refine ⟨fun e c he => ?_, fun e u he => ?_, h.copies⟩
    · simp only [FnFacts.walk] at he
      split_ifs at he with hc
      · by_cases hed : e = d
        · subst hed
          simp only [createdBy, Bool.and_eq_true, decide_eq_true_eq] at hc
          exact ⟨_, hi, .call args hc.2⟩
        · exact h.creations e c (by simpa [hed] using he)
      · exact h.creations e c he
    · simp only [FnFacts.walk] at he
      cases hsrc : identityOf func args with
      | some src =>
        rw [hsrc] at he
        by_cases hed : e = d
        · subst hed
          obtain rfl : src = u := by simpa using he
          simp only [identityOf] at hsrc
          split_ifs at hsrc with hf
          cases args with
          | nil => cases hsrc
          | cons a args =>
            cases hsrc
            exact ⟨_, hi, .mk args ty hf⟩
        · exact h.identity e u (by simpa [hed] using he)
      | none =>
        rw [hsrc] at he
        exact h.identity e u he
  | loadVar d n =>
    refine ⟨h.creations, h.identity, fun e x he => ?_⟩
    by_cases hed : e = d
    · subst hed
      obtain rfl : n = x := by simpa [FnFacts.walk] using he
      exact hi
    · exact h.copies e x (by simpa [FnFacts.walk, hed] using he)
  | _ => exact ⟨h.creations, h.identity, h.copies⟩

theorem soundFor_of (fresh : FreshSet) (f : Function) : (FnFacts.of fresh f).SoundFor fresh (walked f) := by
  suffices h : ∀ (is : List Inst), (∀ i ∈ is, i ∈ walked f) → ∀ facts : FnFacts,
      facts.SoundFor fresh (walked f) → (is.foldl (walk fresh) facts).SoundFor fresh (walked f) by
    exact h _ (fun _ => id) _ ⟨fun _ _ h => (nomatch h), fun _ _ h => (nomatch h),
      fun _ _ h => (nomatch h)⟩
  intro is
  induction is with
  | nil => exact fun _ facts h => h
  | cons i is ih =>
    intro his facts h
    rw [List.forall_mem_cons] at his
    exact ih his.2 _ (h.walk his.1)

theorem mem_defs_of {x : String} {u : ValueId}
    (h : .assignVar x u ∈ walked f) : u ∈ (FnFacts.of fresh f).defs x := by
  have hb : ∀ (is : List Inst) (facts : FnFacts),
      (x, u) ∈ facts.bindings ∨ .assignVar x u ∈ is → (x, u) ∈ (is.foldl (walk fresh) facts).bindings := by
    intro is
    induction is with
    | nil => exact fun facts h => h.resolve_right List.not_mem_nil
    | cons i is ih =>
      intro facts h
      refine ih _ ?_
      rcases h with h | h
      · left
        cases i with
        | assignVar n v => exact List.mem_append_left _ h
        | _ => exact h
      · rcases List.mem_cons.mp h with rfl | h
        · exact .inl (List.mem_append_right _ List.mem_cons_self)
        · exact .inr h
  refine List.mem_map.mpr ⟨(x, u), List.mem_filter.mpr ⟨hb _ _ (.inr h), ?_⟩, rfl⟩
  simp

variable {c : String} {n : Nat}

theorem resolveCreation_cases
    (h : facts.resolveCreation (n + 1) v = some c) :
    facts.creations v = some c ∨
      facts.creations v = none ∧ ∃ u, facts.identity v = some u ∧ facts.resolveCreation n u = some c := by
  simp only [resolveCreation] at h
  cases hc : facts.creations v with
  | some c' => exact .inl (by simpa only [hc] using h)
  | none =>
    simp only [hc] at h
    exact .inr ⟨rfl, Option.bind_eq_some_iff.mp h⟩

theorem resolveCreation_succ
    (h : facts.resolveCreation n v = some c) : facts.resolveCreation (n + 1) v = some c := by
  induction n generalizing v with
  | zero => cases h
  | succ n ih =>
    rcases resolveCreation_cases h with hc | ⟨hc, u, hu, hr⟩
    · simp [resolveCreation, hc]
    · have := ih hr
      rw [resolveCreation]
      simp [hc, hu, this]

theorem resolves_defs {x : String} {u : ValueId}
    (h : (match facts.defs x with
      | [] => none
      | u :: us => (facts.resolveReturnClass n u).bind fun c =>
          if us.all fun u => facts.resolveReturnClass n u = some c then some c else none) = some c)
    (hu : u ∈ facts.defs x) : (facts.resolveReturnClass n u).isSome := by
  cases hd : facts.defs x with
  | nil =>
    rw [hd] at hu
    cases hu
  | cons u' us =>
    rw [hd] at h hu
    obtain ⟨c', hc', hall⟩ := Option.bind_eq_some_iff.mp h
    split_ifs at hall with hus
    rcases List.mem_cons.mp hu with rfl | hu
    · exact Option.isSome_iff_exists.mpr ⟨c', hc'⟩
    · exact Option.isSome_iff_exists.mpr ⟨c', of_decide_eq_true (List.all_eq_true.mp hus u hu)⟩

end FnFacts

/-- The analysis traces a value to creations. -/
def Resolves (fresh : FreshSet) (f : Function) (v : ValueId) : Prop :=
  ∃ n, ((FnFacts.of fresh f).resolveReturnClass n v).isSome

/-- One step of the trace. -/
inductive Origin (fresh : FreshSet) (f : Function) (v : ValueId) : Prop
  | created {i : Inst} : i ∈ walked f → Creates fresh v i → Origin fresh f v
  | passed {i : Inst} {u : ValueId} : i ∈ walked f → Passes v u i → Resolves fresh f u →
    Origin fresh f v
  | copied {x : String} : .loadVar v x ∈ walked f →
    (∀ u, .assignVar x u ∈ walked f → Resolves fresh f u) → Origin fresh f v

/-- **A traced value is created, or passed on from a traced value, or copied from a variable to which
traced values are assigned.** -/
theorem Resolves.origin (h : Resolves fresh f v) : Origin fresh f v := by
  obtain ⟨n, hn⟩ := h
  obtain ⟨c, hc⟩ := Option.isSome_iff_exists.mp hn
  have hsound := FnFacts.soundFor_of fresh f
  cases n with
  | zero => cases hc
  | succ n =>
    simp only [FnFacts.resolveReturnClass] at hc
    cases hcr : (FnFacts.of fresh f).resolveCreation 16 v with
    | some c' =>
      rcases FnFacts.resolveCreation_cases hcr with hcreated | ⟨-, u, hu, hr⟩
      · obtain ⟨i, hi, hcreates⟩ := hsound.creations v c' hcreated
        exact .created hi hcreates
      · obtain ⟨i, hi, hpasses⟩ := hsound.identity v u hu
        refine .passed hi hpasses ⟨1, ?_⟩
        simp [FnFacts.resolveReturnClass, FnFacts.resolveCreation_succ hr]
    | none =>
      simp only [hcr] at hc
      obtain ⟨x, hx, hdefs⟩ := Option.bind_eq_some_iff.mp hc
      exact .copied (hsound.copies v x hx) fun u hu =>
        ⟨n, FnFacts.resolves_defs hdefs (FnFacts.mem_defs_of hu)⟩

/-! ## What the fixpoint leaves -/

section
variable {M : Module} {arcClasses cyclicClasses : List String}

theorem Module.name_of_function {n : String} (h : M.function n = some f) : f.name = n := by
  have h : M.functions.find? (·.name = n) = some f := h
  simpa using List.find?_some h

theorem function_of_mem_freshCandidates
    (h : f ∈ freshCandidates M arcClasses cyclicClasses) : M.function f.name = some f := by
  obtain ⟨n, -, hn⟩ := List.mem_filterMap.mp (List.mem_filter.mp h).1
  rw [Module.name_of_function hn]
  exact hn

/-- One set is part of another. -/
def FreshSet.Sub (a b : FreshSet) : Prop := ∀ n c, a.lookup n = some c → b.lookup n = some c

theorem joinFresh_eq {fresh fresh' : FreshSet} (h : joinFresh fresh f = some fresh') :
    fresh.lookup f.name = none ∧ transfersFresh fresh f = true ∧
      fresh' = (f.name, f.returnType) :: fresh := by
  simp only [joinFresh] at h
  split_ifs at h with hc
  simp only [Bool.and_eq_true, Option.isNone_iff_eq_none] at hc
  exact ⟨hc.1, hc.2, (Option.some.inj h).symm⟩

theorem sub_of_joinFresh {fresh fresh' : FreshSet} (h : joinFresh fresh f = some fresh') : fresh.Sub fresh' := by
  obtain ⟨hnone, -, rfl⟩ := joinFresh_eq h
  intro n c hn
  have hne : (n == f.name) = false := by
    rw [beq_eq_false_iff_ne]
    rintro rfl
    rw [hnone] at hn
    cases hn
  simpa only [List.lookup_cons, hne] using hn

theorem rounds_joinFresh :
    rounds joinFresh (freshCandidates M arcClasses cyclicClasses)
        ((freshCandidates M arcClasses cyclicClasses).length + 1) [] =
      some (computeFreshSet M arcClasses cyclicClasses) := by
  suffices h : (rounds joinFresh (freshCandidates M arcClasses cyclicClasses)
      ((freshCandidates M arcClasses cyclicClasses).length + 1) []).isSome by
    obtain ⟨t, ht⟩ := Option.isSome_iff_exists.mp h
    rw [computeFreshSet, ht, Option.getD_some]
  refine rounds_isSome (μ := fun s => ((freshCandidates M arcClasses cyclicClasses).filter fun f =>
    (s.lookup f.name).isNone).length) (fun s f hf t ht => ?_)
    (Nat.lt_succ_of_le (List.length_filter_le _ _))
  obtain ⟨hnone, -, rfl⟩ := joinFresh_eq ht
  have hsub : ((freshCandidates M arcClasses cyclicClasses).filter fun g =>
        (List.lookup g.name ((f.name, f.returnType) :: s)).isNone) =
      ((freshCandidates M arcClasses cyclicClasses).filter fun g => (s.lookup g.name).isNone).filter
        fun g => g.name ≠ f.name := by
    rw [List.filter_filter]
    refine List.filter_congr fun g _ => ?_
    by_cases hg : g.name = f.name
    · simp [List.lookup_cons, hg]
    · simp [List.lookup_cons, hg, beq_eq_false_iff_ne.mpr hg]
  rw [hsub, List.length_filter_lt_length_iff_exists]
  exact ⟨f, List.mem_filter.mpr ⟨hf, by simp [hnone]⟩, by simp⟩

/-- **A function of the set joined it**, on what part of the set said of it. -/
theorem computeFreshSet_joined {n c : String}
    (h : (computeFreshSet M arcClasses cyclicClasses).lookup n = some c) :
    ∃ f fresh, M.function n = some f ∧ transfersFresh fresh f = true ∧
      fresh.Sub (computeFreshSet M arcClasses cyclicClasses) := by
  refine rounds_invariant (I := fun s => ∀ n c, s.lookup n = some c →
    ∃ f fresh, M.function n = some f ∧ transfersFresh fresh f = true ∧ FreshSet.Sub fresh s)
    (fun s f hf t hs ht n c hn => ?_) (fun n c h => by cases h) rounds_joinFresh n c h
  have hsub := sub_of_joinFresh ht
  obtain ⟨-, hpass, rfl⟩ := joinFresh_eq ht
  by_cases hnf : n = f.name
  · subst hnf
    exact ⟨f, s, function_of_mem_freshCandidates hf, hpass, hsub⟩
  · have hn : s.lookup n = some c := by
      simpa only [List.lookup_cons, beq_eq_false_iff_ne.mpr hnf] using hn
    obtain ⟨g, fresh, hg, hp, hle⟩ := hs n c hn
    exact ⟨g, fresh, hg, hp, fun m k hm => hsub m k (hle m k hm)⟩

end

end Datara.Ownership
