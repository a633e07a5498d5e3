import Mathlib.Logic.Basic

/-!
# Deterministic machines and simulations

A machine takes a step or halts with an outcome. A simulation relates the states of two machines so
that every step of the first is matched by some steps of the second; where the second takes none, a
measure goes down. Two related states then halt with related outcomes or neither halts
(`Simulation.halts_iff`): a simulation by a deterministic machine works in both directions.

A simulation may lean on a condition that holds all along the run of the first machine
(`Simulation.Good`), and then says something about those runs only.
-/

namespace Datara.Library

universe u v

/-- A deterministic machine with states `σ` and outcomes `ω`. -/
structure Machine (σ : Type u) (ω : Type v) where
  step : σ → σ ⊕ ω

namespace Machine

variable {σ : Type u} {ω : Type v} (M : Machine σ ω)

/-- Zero or more steps. -/
inductive Steps : σ → σ → Prop
  | refl (s : σ) : Steps s s
  | head {s s' t : σ} : M.step s = .inl s' → Steps s' t → Steps s t

/-- Halting from a state, with an outcome, after `n` steps. -/
inductive HaltsIn : Nat → σ → ω → Prop
  | done {s : σ} {o : ω} : M.step s = .inr o → HaltsIn 0 s o
  | next {n : Nat} {s s' : σ} {o : ω} : M.step s = .inl s' → HaltsIn n s' o → HaltsIn (n + 1) s o

/-- Halting from a state with an outcome. -/
def Halts (s : σ) (o : ω) : Prop := ∃ n, M.HaltsIn n s o

variable {M} {s s' t : σ} {o o' : ω} {n m : Nat}

theorem Steps.single (h : M.step s = .inl t) : M.Steps s t := .head h (.refl t)

theorem Steps.trans (h : M.Steps s s') (h' : M.Steps s' t) : M.Steps s t := by
  induction h with
  | refl => exact h'
  | head hs _ ih => exact .head hs (ih h')

theorem Steps.snoc (h : M.Steps s s') (h' : M.step s' = .inl t) : M.Steps s t :=
  h.trans (.single h')

theorem Steps.snoc_first (h : M.Steps s s') (h' : M.step s' = .inl t) :
    ∃ s₁, M.step s = .inl s₁ ∧ M.Steps s₁ t := by
  cases h with
  | refl => exact ⟨t, h', .refl t⟩
  | head hs hrest => exact ⟨_, hs, hrest.snoc h'⟩

/-- What holds initially and is kept by every step holds all along. -/
theorem Steps.invariant {I : σ → Prop} (hstep : ∀ a b, I a → M.step a = .inl b → I b)
    (h : M.Steps s t) (hs : I s) : I t := by
  induction h with
  | refl => exact hs
  | head hst _ ih => exact ih (hstep _ _ hs hst)

theorem HaltsIn.unique (h : M.HaltsIn n s o) (h' : M.HaltsIn m s o') : n = m ∧ o = o' := by
  induction h generalizing m with
  | done hs =>
    cases h' with
    | done hs' => exact ⟨rfl, Sum.inr.inj (hs.symm.trans hs')⟩
    | next hs' _ => rw [hs] at hs'; cases hs'
  | next hs _ ih =>
    cases h' with
    | done hs' => rw [hs] at hs'; cases hs'
    | next hs' hh' =>
      cases hs.symm.trans hs'
      obtain ⟨hn, ho⟩ := ih hh'
      exact ⟨by rw [hn], ho⟩

theorem Halts.unique (h : M.Halts s o) (h' : M.Halts s o') : o = o' :=
  (h.choose_spec.unique h'.choose_spec).2

theorem Halts.of_step (hs : M.step s = .inl s') (h : M.Halts s' o) : M.Halts s o :=
  ⟨_, .next hs h.choose_spec⟩

theorem Halts.of_steps (hs : M.Steps s t) (h : M.Halts t o) : M.Halts s o := by
  induction hs with
  | refl => exact h
  | head hst _ ih => exact .of_step hst (ih h)

theorem Halts.of_halt (hs : M.step s = .inr o) : M.Halts s o := ⟨0, .done hs⟩

/-- The steps taken so far are a part of the run. -/
theorem HaltsIn.after_step (h : M.HaltsIn n s o) (hs : M.step s = .inl s') : ∃ m, n = m + 1 ∧ M.HaltsIn m s' o := by
  cases h with
  | done hs' => rw [hs] at hs'; cases hs'
  | next hs' hh =>
    cases hs.symm.trans hs'
    exact ⟨_, rfl, hh⟩

theorem HaltsIn.after_steps (h : M.HaltsIn n s o) (hs : M.Steps s t) : ∃ m, m ≤ n ∧ M.HaltsIn m t o := by
  induction hs generalizing n with
  | refl => exact ⟨n, Nat.le_refl n, h⟩
  | head hst _ ih =>
    obtain ⟨m, rfl, hm⟩ := h.after_step hst
    obtain ⟨k, hk, hh⟩ := ih hm
    exact ⟨k, Nat.le_succ_of_le hk, hh⟩

/-- `n` steps of a machine, as a function: what a run on a fixed input is evaluated with. -/
def run (M : Machine σ ω) : Nat → σ → σ ⊕ ω
  | 0, s => .inl s
  | n + 1, s =>
    match M.step s with
    | .inl s' => M.run n s'
    | .inr o => .inr o

theorem halts_of_run (h : M.run n s = .inr o) : M.Halts s o := by
  induction n generalizing s with
  | zero => cases h
  | succ n ih =>
    unfold run at h
    split at h
    case h_1 s' hs => exact .of_step hs (ih h)
    case h_2 o' hs => exact .of_halt (hs.trans (congrArg _ (Sum.inr.inj h)))

/-- A run halts within `n` steps, and all its states pass a test. -/
def always (M : Machine σ ω) (p : σ → Bool) : Nat → σ → Bool
  | 0, _ => false
  | n + 1, s => p s &&
    match M.step s with
    | .inl s' => M.always p n s'
    | .inr _ => true

theorem forall_of_always {p : σ → Bool} (h : M.always p n s = true) (ht : M.Steps s t) : p t = true := by
  induction n generalizing s with
  | zero => cases h
  | succ n ih =>
    obtain ⟨hs, h⟩ := Bool.and_eq_true_iff.mp h
    cases ht with
    | refl => exact hs
    | head hstep hrest =>
      rw [hstep] at h
      exact ih h hrest

end Machine

/-- A match for one step of the first machine: some steps of the second, or none and a lower
measure. -/
inductive Matches {τ : Type u} {ω' : Type v} (N : Machine τ ω') (R : τ → Prop) (lower : Prop) (t : τ) :
    Prop
  | steps {t₁ t' : τ} (first : N.step t = .inl t₁) (rest : N.Steps t₁ t') (rel : R t')
  | stutter (low : lower) (rel : R t)

/-- Any number of steps match, if the measure goes down as well. -/
theorem Matches.of_steps {τ : Type u} {ω' : Type v} {N : Machine τ ω'} {R : τ → Prop} {lower : Prop}
    {t t' : τ} (h : N.Steps t t') (rel : R t') (low : lower) : Matches N R lower t := by
  cases h with
  | refl => exact .stutter low rel
  | head first rest => exact .steps first rest rel

/-- A simulation of `M` by `N`. -/
structure Simulation {σ τ : Type u} {ω ω' : Type v} (M : Machine σ ω) (N : Machine τ ω')
    (O : ω → ω' → Prop) where
  /-- The related states. -/
  R : σ → τ → Prop
  /-- What goes down while the second machine waits. -/
  measure : σ → Nat
  /-- What the first machine's run is assumed to meet. -/
  Good : σ → Prop
  halt : ∀ s t o, R s t → Good s → M.step s = .inr o → ∃ o', N.Halts t o' ∧ O o o'
  step : ∀ s t s', R s t → Good s → M.step s = .inl s' →
    Matches N (R s') (measure s' < measure s) t

namespace Simulation

variable {σ τ : Type u} {ω ω' : Type v} {M : Machine σ ω} {N : Machine τ ω'} {O : ω → ω' → Prop}

theorem forward (S : Simulation M N O) {s : σ} {t : τ} {o : ω} {n : Nat} (hR : S.R s t)
    (hG : ∀ u, M.Steps s u → S.Good u) (h : M.HaltsIn n s o) : ∃ o', N.Halts t o' ∧ O o o' := by
  induction h generalizing t with
  | done hs => exact S.halt _ _ _ hR (hG _ (.refl _)) hs
  | next hs _ ih =>
    have hG' := fun u hu => hG u (.head hs hu)
    cases S.step _ _ _ hR (hG _ (.refl _)) hs with
    | steps first rest rel =>
      obtain ⟨o', ho', hO⟩ := ih rel hG'
      exact ⟨o', .of_step first (.of_steps rest ho'), hO⟩
    | stutter _ rel => exact ih rel hG'

/-- A halting run of the second machine was a match for one of the first. The induction is on the
length of that run, and inside it on the measure. -/
theorem backward (S : Simulation M N O) {n : Nat} {t : τ} {o' : ω'} (h : N.HaltsIn n t o') :
    ∀ {s : σ}, S.R s t → (∀ u, M.Steps s u → S.Good u) → ∃ o, M.Halts s o ∧ O o o' := by
  induction n using Nat.strongRecOn generalizing t with
  | ind n ih =>
    intro s
    induction hk : S.measure s using Nat.strongRecOn generalizing s with
    | ind k ihm =>
      intro hR hG
      cases hs : M.step s with
      | inr o =>
        obtain ⟨o'', ho'', hO⟩ := S.halt _ _ _ hR (hG _ (.refl _)) hs
        obtain rfl := Machine.Halts.unique ⟨n, h⟩ ho''
        exact ⟨o, .of_halt hs, hO⟩
      | inl s' =>
        have hG' := fun u hu => hG u (.head hs hu)
        cases S.step _ _ _ hR (hG _ (.refl _)) hs with
        | steps first rest rel =>
          obtain ⟨m, rfl, hm⟩ := h.after_step first
          obtain ⟨p, hp, hh⟩ := hm.after_steps rest
          obtain ⟨o, ho, hO⟩ := ih p (Nat.lt_succ_of_le hp) hh rel hG'
          exact ⟨o, .of_step hs ho, hO⟩
        | stutter low rel =>
          obtain ⟨o, ho, hO⟩ := ihm _ (hk ▸ low) rfl rel hG'
          exact ⟨o, .of_step hs ho, hO⟩

/-- **Related states have the same outcomes**, when the simulation relates equal outcomes only. -/
theorem halts_iff {M : Machine σ ω} {N : Machine τ ω} (S : Simulation M N (· = ·)) {s : σ} {t : τ}
    (hR : S.R s t) (hG : ∀ u, M.Steps s u → S.Good u) (o : ω) : M.Halts s o ↔ N.Halts t o := by
  constructor
  · rintro ⟨n, h⟩
    obtain ⟨o', ho', rfl⟩ := S.forward hR hG h
    exact ho'
  · rintro ⟨n, h⟩
    obtain ⟨o', ho', rfl⟩ := S.backward h hR hG
    exact ho'

end Simulation

end Datara.Library
