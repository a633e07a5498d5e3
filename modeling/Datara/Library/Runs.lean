import Mathlib.Data.List.Basic
import Mathlib.Data.Nat.Basic
import Mathlib.Data.Option.Basic

/-!
# Runs of events

A system whose states change by events, some of which a state does not admit. What one step keeps under a
condition on the event and the state before it, a run keeps whose steps all meet the condition
(`Meets.invariant`).
-/

namespace Datara.Library

universe u v

section Runs

variable {σ : Type u} {ε : Type v} (step : ε → σ → Option σ)

/-- Where a run leads, if every state admits its event. -/
def runEvents : List ε → σ → Option σ
  | [], s => some s
  | e :: es, s => (step e s).bind (runEvents es)

/-- The steps of a run all meet a condition. -/
def Meets (cond : ε → σ → Prop) : List ε → σ → Prop
  | [], _ => True
  | e :: es, s => cond e s ∧ ∀ s', step e s = some s' → Meets cond es s'

variable {step} {cond : ε → σ → Prop} {e : ε} {es : List ε} {s s' t : σ}

attribute [local simp] runEvents

theorem runEvents_cons (h : step e s = some s') (hrun : runEvents step es s' = some t) :
    runEvents step (e :: es) s = some t := by
  rw [runEvents, h]
  exact hrun

theorem runEvents_append {es' : List ε} (h : runEvents step es s = some s') :
    runEvents step (es ++ es') s = runEvents step es' s' := by
  induction es generalizing s with
  | nil =>
    cases h
    rfl
  | cons e es ih =>
    rw [runEvents, Option.bind_eq_some_iff] at h
    obtain ⟨t, ht, h⟩ := h
    rw [List.cons_append, runEvents, ht]
    exact ih h

theorem Meets.cons (hcond : cond e s) (hstep : step e s = some s') (h : Meets step cond es s') :
    Meets step cond (e :: es) s := by
  refine ⟨hcond, fun t ht => ?_⟩
  cases hstep.symm.trans ht
  exact h

theorem Meets.of_forall (h : ∀ e ∈ es, ∀ s, cond e s) : Meets step cond es s := by
  induction es generalizing s with
  | nil => trivial
  | cons e es ih => exact ⟨h e List.mem_cons_self s, fun _ _ => ih fun a ha => h a (List.mem_cons_of_mem e ha)⟩

/-- **What each step keeps, a run keeps.** -/
theorem Meets.invariant {I : σ → Prop}
    (hkeep : ∀ e s s', I s → cond e s → step e s = some s' → I s') (hmeets : Meets step cond es s)
    (h : I s) (hrun : runEvents step es s = some t) : I t := by
  induction es generalizing s with
  | nil =>
    cases hrun
    exact h
  | cons e es ih =>
    rw [runEvents, Option.bind_eq_some_iff] at hrun
    obtain ⟨s', hs', hrun⟩ := hrun
    exact ih (hmeets.2 s' hs') (hkeep e s s' h hmeets.1 hs') hrun

/-- **A property that shows which steps met the condition.** Where a step under the condition keeps an invariant that
has the property, and the states after a step have the property only under the condition, the steps of a run all
meet the condition exactly if every state of it has the property. -/
theorem meets_iff {I good : σ → Prop} (hgood : ∀ s, I s → good s)
    (hkeep : ∀ e s s', I s → cond e s → step e s = some s' → I s')
    (hshow : ∀ e s, I s → (∀ s', step e s = some s' → good s') → cond e s) (h : I s) :
    Meets step cond es s ↔ ∀ pre t, pre <+: es → runEvents step pre s = some t → good t := by
  induction es generalizing s with
  | nil =>
    refine ⟨fun _ pre t hpre hrun => ?_, fun _ => trivial⟩
    obtain rfl := List.prefix_nil.mp hpre
    cases hrun
    exact hgood s h
  | cons a as ih =>
    constructor
    · intro hmeets pre t hpre hrun
      cases pre with
      | nil =>
        cases hrun
        exact hgood s h
      | cons b bs =>
        obtain ⟨rfl, hbs⟩ := List.cons_prefix_cons.mp hpre
        rw [runEvents, Option.bind_eq_some_iff] at hrun
        obtain ⟨s', hs', hrun⟩ := hrun
        exact (ih (hkeep b s s' h hmeets.1 hs')).mp (hmeets.2 s' hs') bs t hbs hrun
    · intro hall
      have hcond : cond a s := by
        apply hshow a s h
        intro s' hs'
        exact hall [a] s' (List.cons_prefix_cons.mpr ⟨rfl, List.nil_prefix⟩) (runEvents_cons hs' rfl)
      refine ⟨hcond, fun s' hs' => ?_⟩
      apply (ih (hkeep a s s' h hcond hs')).mpr
      intro pre t hpre hrun
      exact hall (a :: pre) t (List.cons_prefix_cons.mpr ⟨rfl, hpre⟩) (runEvents_cons hs' hrun)

theorem runEvents_invariant {I : σ → Prop} (hkeep : ∀ e s s', I s → step e s = some s' → I s')
    (h : I s) (hrun : runEvents step es s = some t) : I t := by
  induction es generalizing s with
  | nil =>
    cases hrun
    exact h
  | cons e es ih =>
    rw [runEvents, Option.bind_eq_some_iff] at hrun
    obtain ⟨s', hs', hrun⟩ := hrun
    exact ih (hkeep e s s' h hs') hrun

end Runs

/-!
## What was so when something happened

A history in which every entry is justified by those before it (`Justified`): what a run keeps when it adds
one entry at a time.
-/

section History

variable {α : Type u} {P : List α → α → Prop} {history : List α} {a : α}

/-- Every entry is justified by those before it. -/
def Justified (P : List α → α → Prop) (history : List α) : Prop :=
  ∀ pre a post, history = pre ++ a :: post → P pre a

theorem Justified.nil : Justified P [] := by
  intro pre a post heq
  cases pre <;> cases heq

/-- One more entry. -/
theorem Justified.snoc (h : Justified P history) (ha : P history a) : Justified P (history ++ [a]) := by
  intro pre b post heq
  obtain rfl | ⟨post', c, rfl⟩ := List.eq_nil_or_concat' post
  · obtain ⟨hpre, hlast⟩ := List.append_inj' heq rfl
    rw [← hpre, ← List.singleton_inj.mp hlast]
    exact ha
  · rw [← List.cons_append, ← List.append_assoc] at heq
    exact h pre b post' (List.append_inj' heq rfl).1

end History

/-!
## Loops that end

A loop whose step fails, ends or goes on with a smaller measure. What a step keeps, a run keeps
(`runLoop_invariant`).
-/

section Loops

variable {σ : Type u} {ε : Type v}

/-- Each state a step goes on with is smaller. -/
def Shrinks (step : σ → Except ε (Option σ)) (size : σ → Nat) : Prop :=
  ∀ s s', step s = .ok (some s') → size s' < size s

/-- The last state of the loop, or its error. -/
def runLoop (step : σ → Except ε (Option σ)) (size : σ → Nat) (hsize : Shrinks step size) (s : σ) : Except ε σ :=
  match _h : step s with
  | .error e => .error e
  | .ok none => .ok s
  | .ok (some s') => runLoop step size hsize s'
termination_by size s
decreasing_by exact hsize s s' _h

section
variable {step : σ → Except ε (Option σ)} {size : σ → Nat} {hsize : Shrinks step size} {s s' : σ}

theorem runLoop_step (h : step s = .ok (some s')) : runLoop step size hsize s = runLoop step size hsize s' := by
  rw [runLoop]
  split
  case h_1 e he => cases h.symm.trans he
  case h_2 he => cases h.symm.trans he
  case h_3 s₁ he => rw [Option.some.inj (Except.ok.inj (h.symm.trans he))]

theorem runLoop_end (h : step s = .ok none) : runLoop step size hsize s = .ok s := by
  rw [runLoop]
  split
  case h_1 e he => cases h.symm.trans he
  case h_2 he => rfl
  case h_3 s₁ he => cases h.symm.trans he

theorem runLoop_error {e : ε} (h : step s = .error e) : runLoop step size hsize s = .error e := by
  rw [runLoop]
  split
  case h_1 e' he => rw [Except.error.inj (h.symm.trans he)]
  case h_2 he => cases h.symm.trans he
  case h_3 s₁ he => cases h.symm.trans he

theorem runLoop_invariant {I : σ → Prop} (hI : ∀ s s', I s → step s = .ok (some s') → I s') (hs : I s) {e : ε}
    (h : runLoop step size hsize s = .error e) : ∃ s', I s' ∧ step s' = .error e := by
  induction hn : size s using Nat.strong_induction_on generalizing s with
  | _ n ih =>
    subst hn
    match hstep : step s with
    | .error e' =>
      cases (runLoop_error hstep).symm.trans h
      exact ⟨s, hs, hstep⟩
    | .ok none => cases (runLoop_end hstep).symm.trans h
    | .ok (some s') =>
      rw [runLoop_step hstep] at h
      exact ih (size s') (hsize s s' hstep) (hI s s' hs hstep) h rfl

end

end Loops

end Datara.Library
