import Mathlib.Data.List.Basic
import Mathlib.Logic.Function.Iterate

/-!
# Rounds until nothing changes

A state that a list of items may change, swept round after round until a round changes nothing. What
the rounds end in is stable: no item changes it (`rounds_stable`). Nothing is asked of the order of the
items, of what a change is, or of the values in between.
-/

namespace Datara.Library

universe u v

variable {σ : Type u} {ι : Type v}

/-- One round. An item that answers `none` changes nothing. -/
def round (step : σ → ι → Option σ) : List ι → σ → σ × Bool
  | [], s => (s, false)
  | i :: is, s =>
    match step s i with
    | none => round step is s
    | some s' => ((round step is s').1, true)

/-- Rounds until one changes nothing. -/
def rounds (step : σ → ι → Option σ) (is : List ι) : Nat → σ → Option σ
  | 0, _ => none
  | n + 1, s =>
    let r := round step is s
    if r.2 then rounds step is n r.1 else some r.1

/-- Rounds until one changes nothing, or until the cap. -/
def cappedRounds (step : σ → ι → Option σ) (is : List ι) : Nat → σ → σ
  | 0, s => s
  | n + 1, s =>
    let r := round step is s
    if r.2 then cappedRounds step is n r.1 else r.1

/-- What a round leaves, whether or not it changes anything. -/
def sweep (step : σ → ι → Option σ) (is : List ι) (s : σ) : σ := (round step is s).1

variable {step : σ → ι → Option σ} {is : List ι} {s t : σ}

/-- A round that changes nothing was one of items that change nothing. -/
theorem round_stable (h : (round step is s).2 = false) : (round step is s).1 = s ∧ ∀ i ∈ is, step s i = none := by
  induction is with
  | nil => exact ⟨rfl, fun i hi => absurd hi List.not_mem_nil⟩
  | cons i is ih =>
    cases hi : step s i with
    | none =>
      simp only [round, hi] at h ⊢
      obtain ⟨hsame, hall⟩ := ih h
      exact ⟨hsame, List.forall_mem_cons.mpr ⟨hi, hall⟩⟩
    | some s' => simp [round, hi] at h

/-- **What the rounds end in is stable.** -/
theorem rounds_stable {n : Nat} (h : rounds step is n s = some t) : ∀ i ∈ is, step t i = none := by
  induction n generalizing s with
  | zero => cases h
  | succ n ih =>
    simp only [rounds] at h
    split_ifs at h with hc
    · exact ih h
    · cases h
      obtain ⟨hsame, hall⟩ := round_stable (Bool.not_eq_true _ ▸ hc)
      rw [hsame]
      exact hall

theorem rounds_invariant {I : σ → Prop} {n : Nat}
    (hstep : ∀ a, ∀ i ∈ is, ∀ b, I a → step a i = some b → I b) (hs : I s)
    (h : rounds step is n s = some t) : I t := by
  have one : ∀ js, (∀ i ∈ js, i ∈ is) → ∀ a, I a → I (round step js a).1 := by
    intro js
    induction js with
    | nil => exact fun _ a ha => ha
    | cons i js ih =>
      intro hjs a ha
      rw [List.forall_mem_cons] at hjs
      cases hi : step a i with
      | none => simpa only [round, hi] using ih hjs.2 a ha
      | some b => simpa only [round, hi] using ih hjs.2 b (hstep a i hjs.1 b ha hi)
  induction n generalizing s with
  | zero => cases h
  | succ n ih =>
    simp only [rounds] at h
    split_ifs at h
    · exact ih (one is (fun _ => id) s hs) h
    · cases h
      exact one is (fun _ => id) s hs

/-- Where every change lowers a measure, the rounds end. -/
theorem rounds_isSome {μ : σ → Nat} {n : Nat}
    (hstep : ∀ a, ∀ i ∈ is, ∀ b, step a i = some b → μ b < μ a) (h : μ s < n) :
    (rounds step is n s).isSome := by
  have one : ∀ js, (∀ i ∈ js, i ∈ is) → ∀ a, μ (round step js a).1 ≤ μ a ∧
      ((round step js a).2 = true → μ (round step js a).1 < μ a) := by
    intro js
    induction js with
    | nil => exact fun _ a => ⟨Nat.le_refl _, fun h => by cases h⟩
    | cons i js ih =>
      intro hjs a
      rw [List.forall_mem_cons] at hjs
      cases hi : step a i with
      | none => simpa only [round, hi] using ih hjs.2 a
      | some b =>
        have hlow := Nat.lt_of_le_of_lt (ih hjs.2 b).1 (hstep a i hjs.1 b hi)
        simp only [round, hi]
        exact ⟨Nat.le_of_lt hlow, fun _ => hlow⟩
  induction n generalizing s with
  | zero => exact absurd h (Nat.not_lt_zero _)
  | succ n ih =>
    simp only [rounds]
    split_ifs with hc
    · exact ih (Nat.lt_of_lt_of_le ((one is (fun _ => id) s).2 hc) (Nat.le_of_lt_succ h))
    · rfl

theorem sweep_cons (i : ι) : sweep step (i :: is) s = sweep step is ((step s i).getD s) := by
  cases h : step s i <;> simp [sweep, round, h]

theorem sweep_append (is js : List ι) : sweep step (is ++ js) s = sweep step js (sweep step is s) := by
  induction is generalizing s with
  | nil => rfl
  | cons i is ih => rw [List.cons_append, sweep_cons, sweep_cons, ih]

/-- **Stopping at a round that changes nothing loses nothing**: the capped rounds end where that many
rounds end. -/
theorem cappedRounds_eq_iterate (n : Nat) (s : σ) : cappedRounds step is n s = (sweep step is)^[n] s := by
  induction n generalizing s with
  | zero => rfl
  | succ n ih =>
    rw [Function.iterate_succ_apply]
    by_cases hc : (round step is s).2 = true
    · rw [cappedRounds, if_pos hc, ih]
      rfl
    · have hsame : sweep step is s = s := (round_stable (Bool.not_eq_true _ ▸ hc)).1
      rw [cappedRounds, if_neg hc, hsame, Function.iterate_fixed hsame]
      exact hsame

end Datara.Library
