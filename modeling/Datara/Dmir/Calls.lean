import Datara.Dmir.Frames

/-!
# Calls inside a module

A thread of a module: the frame that runs, the callers that wait for it, and the store. A call of a
function of the module runs that function's own code; what the run-time library and the environment
answer is as for one function on its own. A method is dispatched on the class of its receiver, which
the store knows and the module does not: it goes to the environment.

A step that is silent (`Thread.Silent`) neither looks at the store nor touches it, so a silent run is
the same from every store (`haltsIn_on`), and under any callers (`steps_under`).
-/

namespace Datara.Dmir

open Library

/-- The functions of a module. -/
structure Module where
  functions : List Function

/-- The function of a name. -/
def Module.function (M : Module) (name : String) : Option Function :=
  M.functions.find? (·.name = name)

/-- A caller that waits: its frame after the call, and the register the answer is bound to. -/
structure Caller where
  frame : Frame
  dest : ValueId

/-- The caller, answered. -/
def Caller.answered (c : Caller) (v : Val) : Frame :=
  c.frame.after c.frame.code [(c.dest, v)] c.frame.vars

structure Thread where
  frame : Frame
  callers : List Caller
  world : World

/-- The thread with other callers below its own. -/
def Thread.under (s : Thread) (below : List Caller) : Thread :=
  { s with callers := s.callers ++ below }

/-- The thread on another store. -/
def Thread.on (s : Thread) (w : World) : Thread := { s with world := w }

/-- A function of the module that is called, with its arguments and where the answer goes. The
built-in functions come first. -/
def Effect.enters (P : Program) (M : Module) : Effect → Option (ValueId × Function × List Val)
  | .call d func args =>
    if (P.host.builtin func).isSome then none else (M.function func).map fun g => (d, g, args)
  | _ => none

/-- Only a `Call` enters a function, the one of its name. -/
theorem eq_call_of_enters {P : Program} {M : Module} {F : Frame} {i : Inst} {d : ValueId}
    {g : Function} {vs : List Val} (h : (F.effect P i).enters P M = some (d, g, vs)) :
    ∃ func args ty, i = .call d func args ty ∧ M.function func = some g := by
  cases i with
  | call d' func args ty =>
    simp only [Frame.effect, Inst.effect, Effect.enters] at h
    split_ifs at h
    obtain ⟨g', hg, he⟩ := Option.map_eq_some_iff.mp h
    cases he
    exact ⟨func, args, ty, rfl, hg⟩
  | methodCall d' o m args ty =>
    simp only [Frame.effect, Inst.effect] at h
    split at h <;> cases h
  | _ => cases h

/-- One step of a thread. -/
def Program.callStep (P : Program) (M : Module) (s : Thread) : Thread ⊕ (Ending × World) :=
  match s.frame.code with
  | i :: rest =>
    match (s.frame.effect P i).enters P M with
    | some (d, g, args) =>
      .inl ⟨g.start args, ⟨{ s.frame with code := rest }, d⟩ :: s.callers, s.world⟩
    | none =>
      match (s.frame.effect P i).perform P s.frame.fn s.frame.vars s.world with
      | .done writes vars w => .inl { s with frame := s.frame.after rest writes vars, world := w }
      | .halt e w => .inr (e, w)
  | [] =>
    match s.frame.term.exit s.frame.fn s.frame.regs with
    | .goto t args =>
      match s.frame.enter t args with
      | some F => .inl { s with frame := F }
      | none => .inr (.trapped .unsupported, s.world)
    | .ret v =>
      match s.callers with
      | [] => .inr (.returned v, s.world)
      | c :: cs => .inl ⟨c.answered v, cs, s.world⟩
    | .trap t => .inr (.trapped t, s.world)

/-- The machine of a module. -/
def Program.callMachine (P : Program) (M : Module) : Machine Thread (Ending × World) where
  step := P.callStep M

/-- A call of a function, on its own. -/
def Function.thread (g : Function) (args : List Val) (w : World) : Thread := ⟨g.start args, [], w⟩

/-! ## Silent steps -/

/-- An effect that leaves the store alone: a computation, a variable of the frame, a call of a function
that is built in or in the module. -/
def Effect.Silent (P : Program) (M : Module) : Effect → Prop
  | .compute _ _ | .skip => True
  | .load _ n | .store n _ => P.isGlobal n = false
  | .call _ func _ => (P.host.builtin func).isSome ∨ (M.function func).isSome
  | _ => False

/-- The instruction about to execute leaves the store alone. -/
def Thread.Silent (P : Program) (M : Module) (s : Thread) : Prop :=
  ∀ i rest, s.frame.code = i :: rest → (s.frame.effect P i).Silent P M

section
variable {P : Program} {M : Module} {s t : Thread} {e : Effect} {f : Function} {vars : String → Val}

theorem Effect.Silent.perform (h : e.Silent P M) (hin : e.enters P M = none) :
    (∃ ws vars', ∀ w, e.perform P f vars w = .done ws vars' w) ∨
      ∃ t, ∀ w, e.perform P f vars w = .halt (.trapped t) w := by
  cases e with
  | compute d r =>
    cases r with
    | ok v => exact .inl ⟨_, _, fun _ => rfl⟩
    | error t => exact .inr ⟨t, fun _ => rfl⟩
  | skip => exact .inl ⟨_, _, fun _ => rfl⟩
  | load d n =>
    have h : P.isGlobal n = false := h
    exact .inl ⟨[(d, vars (f.slotOf n))], _, fun w => by rw [Effect.perform, h]; rfl⟩
  | store n v =>
    have h : P.isGlobal n = false := h
    exact .inl ⟨_, _, fun w => by rw [Effect.perform, h]; rfl⟩
  | call d func args =>
    cases hb : P.host.builtin func with
    | some g => exact .inl ⟨_, _, fun w => by simp only [Effect.perform, hb]; rfl⟩
    | none =>
      rcases h with h | h
      · rw [hb] at h
        cases h
      · obtain ⟨g, hg⟩ := Option.isSome_iff_exists.mp h
        simp [Effect.enters, hb, hg] at hin
  | _ => exact h.elim

/-- **A silent step** is the same on every store, and leaves the store as it is. -/
theorem callStep_on (h : s.Silent P M) :
    (∃ F cs, ∀ w, P.callStep M (s.on w) = .inl ⟨F, cs, w⟩) ∨
      ∃ e, ∀ w, P.callStep M (s.on w) = .inr (e, w) := by
  cases hcode : s.frame.code with
  | cons i rest =>
    cases hin : (s.frame.effect P i).enters P M with
    | some call =>
      obtain ⟨d, g, args⟩ := call
      exact .inl ⟨g.start args, ⟨{ s.frame with code := rest }, d⟩ :: s.callers, fun w => by
        simp [Program.callStep, Thread.on, hcode, hin]⟩
    | none =>
      rcases @Effect.Silent.perform _ _ _ s.frame.fn s.frame.vars (h i rest hcode) hin with
        ⟨ws, vars', hp⟩ | ⟨trap, hp⟩
      · exact .inl ⟨s.frame.after rest ws vars', s.callers, fun w => by
          simp [Program.callStep, Thread.on, hcode, hin, hp]⟩
      · exact .inr ⟨.trapped trap, fun w => by
          simp [Program.callStep, Thread.on, hcode, hin, hp]⟩
  | nil =>
    cases hx : s.frame.term.exit s.frame.fn s.frame.regs with
    | goto target args =>
      cases hF : s.frame.enter target args with
      | some F =>
        exact .inl ⟨F, s.callers, fun w => by
          simp [Program.callStep, Thread.on, hcode, hx, hF]⟩
      | none =>
        exact .inr ⟨.trapped .unsupported, fun w => by
          simp [Program.callStep, Thread.on, hcode, hx, hF]⟩
    | ret v =>
      cases hcs : s.callers with
      | nil =>
        exact .inr ⟨.returned v, fun w => by
          simp [Program.callStep, Thread.on, hcode, hx, hcs]⟩
      | cons c cs =>
        exact .inl ⟨c.answered v, cs, fun w => by
          simp [Program.callStep, Thread.on, hcode, hx, hcs]⟩
    | trap t =>
      exact .inr ⟨.trapped t, fun w => by simp [Program.callStep, Thread.on, hcode, hx]⟩

theorem callStep_inl (h : s.Silent P M) (hs : P.callStep M s = .inl t) :
    t.world = s.world ∧ ∀ w, P.callStep M (s.on w) = .inl (t.on w) := by
  rcases callStep_on h with ⟨F, cs, hon⟩ | ⟨e, hon⟩
  · cases hs.symm.trans (hon s.world)
    exact ⟨rfl, hon⟩
  · cases hs.symm.trans (hon s.world)

theorem callStep_inr {o : Ending × World} (h : s.Silent P M) (hs : P.callStep M s = .inr o) :
    o.2 = s.world ∧ ∀ w, P.callStep M (s.on w) = .inr (o.1, w) := by
  rcases callStep_on h with ⟨F, cs, hon⟩ | ⟨e, hon⟩
  · cases hs.symm.trans (hon s.world)
  · cases hs.symm.trans (hon s.world)
    exact ⟨rfl, hon⟩

theorem world_of_steps (h : (P.callMachine M).Steps s t)
    (hsilent : ∀ u, (P.callMachine M).Steps s u → u.Silent P M) : t.world = s.world := by
  induction h with
  | refl => rfl
  | @head a b t hstep _ ih =>
    rw [← (callStep_inl (hsilent a (.refl _)) hstep).1]
    exact ih fun u hu => hsilent u (.head hstep hu)

theorem haltsIn_on {n : Nat} {o : Ending × World} (h : (P.callMachine M).HaltsIn n s o)
    (hsilent : ∀ u, (P.callMachine M).Steps s u → u.Silent P M) (w : World) :
    (P.callMachine M).HaltsIn n (s.on w) (o.1, w) := by
  induction h with
  | @done a o hstep => exact .done ((callStep_inr (hsilent a (.refl _)) hstep).2 w)
  | @next n a b o hstep _ ih =>
    exact .next ((callStep_inl (hsilent a (.refl _)) hstep).2 w) (ih fun u hu => hsilent u (.head hstep hu))

theorem silent_on (w : World) (hsilent : ∀ u, (P.callMachine M).Steps s u → u.Silent P M) :
    ∀ u, (P.callMachine M).Steps (s.on w) u → u.Silent P M := by
  intro u hu
  generalize hs : s.on w = s' at hu
  induction hu generalizing s with
  | refl =>
    subst hs
    exact hsilent s (.refl _)
  | @head a b u hstep _ ih =>
    subst hs
    have hstep : P.callStep M (s.on w) = .inl b := hstep
    rcases callStep_on (hsilent s (.refl _)) with ⟨F, cs, hon⟩ | ⟨e, hon⟩
    · cases hstep.symm.trans (hon w)
      exact ih (s := ⟨F, cs, s.world⟩) (fun u hu => hsilent u (.head (hon s.world) hu)) rfl
    · cases hstep.symm.trans (hon w)

theorem callStep_under (h : P.callStep M s = .inl t) (below : List Caller) :
    P.callStep M (s.under below) = .inl (t.under below) := by
  cases hcode : s.frame.code with
  | cons i rest =>
    cases hin : (s.frame.effect P i).enters P M with
    | some call =>
      obtain ⟨d, g, args⟩ := call
      simp only [Program.callStep, hcode, hin] at h
      cases h
      simp [Program.callStep, Thread.under, hcode, hin]
    | none =>
      cases hp : (s.frame.effect P i).perform P s.frame.fn s.frame.vars s.world with
      | done ws vars w =>
        simp only [Program.callStep, hcode, hin, hp] at h
        cases h
        simp [Program.callStep, Thread.under, hcode, hin, hp]
      | halt e w =>
        simp only [Program.callStep, hcode, hin, hp] at h
        cases h
  | nil =>
    cases hx : s.frame.term.exit s.frame.fn s.frame.regs with
    | goto target args =>
      cases hF : s.frame.enter target args with
      | some F =>
        simp only [Program.callStep, hcode, hx, hF] at h
        cases h
        simp [Program.callStep, Thread.under, hcode, hx, hF]
      | none =>
        simp only [Program.callStep, hcode, hx, hF] at h
        cases h
    | ret v =>
      cases hcs : s.callers with
      | nil =>
        simp only [Program.callStep, hcode, hx, hcs] at h
        cases h
      | cons c cs =>
        simp only [Program.callStep, hcode, hx, hcs] at h
        cases h
        simp [Program.callStep, Thread.under, hcode, hx, hcs]
    | trap t =>
      simp only [Program.callStep, hcode, hx] at h
      cases h

theorem callStep_return {v : Val} {w : World} (hsilent : s.Silent P M)
    (h : P.callStep M s = .inr (.returned v, w)) (c : Caller) (cs : List Caller) :
    P.callStep M (s.under (c :: cs)) = .inl ⟨c.answered v, cs, w⟩ := by
  cases hcode : s.frame.code with
  | cons i rest =>
    -- an instruction that ends a silent run traps
    cases hin : (s.frame.effect P i).enters P M with
    | some call => simp [Program.callStep, hcode, hin] at h
    | none =>
      rcases @Effect.Silent.perform _ _ _ s.frame.fn s.frame.vars (hsilent i rest hcode) hin with
        ⟨ws, vars', hp⟩ | ⟨trap, hp⟩ <;> simp [Program.callStep, hcode, hin, hp] at h
  | nil =>
    unfold Program.callStep at h ⊢
    simp only [Thread.under, hcode] at h ⊢
    cases hx : s.frame.term.exit s.frame.fn s.frame.regs with
    | goto target args =>
      simp only [hx] at h
      split at h <;> cases h
    | ret u =>
      simp only [hx] at h ⊢
      split at h
      case h_1 hcs =>
        cases h
        simp [hcs]
      case h_2 => cases h
    | trap t =>
      simp only [hx] at h
      cases h

/-- **A silent call returns to its caller**, with the store as it was. -/
theorem steps_under {n : Nat} {v : Val} {w : World}
    (h : (P.callMachine M).HaltsIn n s (.returned v, w))
    (hsilent : ∀ u, (P.callMachine M).Steps s u → u.Silent P M) (c : Caller) (cs : List Caller) :
    (P.callMachine M).Steps (s.under (c :: cs)) ⟨c.answered v, cs, w⟩ := by
  generalize ho : (Ending.returned v, w) = o at h
  induction h with
  | @done a o hstep =>
    subst ho
    exact .single (callStep_return (hsilent a (.refl _)) hstep c cs)
  | @next n a b o hstep _ ih =>
    exact .head (callStep_under hstep _) (ih (fun u hu => hsilent u (.head hstep hu)) ho)

end

end Datara.Dmir
