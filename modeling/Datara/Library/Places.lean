import Mathlib.Logic.Function.Basic

/-!
# Tokens at places

Tokens that are at one place at a time (`Exclusive`). What a system does to them is to bring in new ones or
to carry some from one place to another; both keep them apart.
-/

namespace Datara.Library

universe u v

variable {P : Type u} {T : Type v} {holds holds' : P → T → Prop} {p q : P} {t : T}

/-- No token is at two places. -/
def Exclusive (holds : P → T → Prop) : Prop := ∀ p q t, holds p t → holds q t → p = q

/-- A token that was nowhere is now at a place. -/
def Arrives (holds holds' : P → T → Prop) (t : T) (p : P) : Prop :=
  (∀ r, ¬holds r t) ∧ ∀ r u, holds' r u ↔ (u = t ∧ r = p) ∨ holds r u

/-- A token goes from one place to another. -/
def Moves (holds holds' : P → T → Prop) (t : T) (p q : P) : Prop :=
  holds p t ∧ ∀ r u, holds' r u ↔ (u = t ∧ r = q) ∨ (u ≠ t ∧ holds r u)

/-- Tokens that were nowhere are now at a place. -/
def Brings (holds holds' : P → T → Prop) (S : T → Prop) (p : P) : Prop :=
  (∀ t, S t → ∀ r, ¬holds r t) ∧ ∀ r u, holds' r u ↔ (S u ∧ r = p) ∨ holds r u

/-- Tokens go from one place to another, all at once. -/
def Carries (holds holds' : P → T → Prop) (S : T → Prop) (p q : P) : Prop :=
  (∀ t, S t → holds p t) ∧ ∀ r u, holds' r u ↔ (S u ∧ r = q) ∨ (¬S u ∧ holds r u)

variable {S : T → Prop}

theorem Exclusive.brings (h : Exclusive holds) (hb : Brings holds holds' S p) : Exclusive holds' := by
  intro r r' u hr hr'
  obtain ⟨hnew, hiff⟩ := hb
  obtain ⟨hu, hp⟩ | hr := (hiff r u).mp hr <;> obtain ⟨hu', hp'⟩ | hr' := (hiff r' u).mp hr'
  · exact hp.trans hp'.symm
  · exact absurd hr' (hnew u hu r')
  · exact absurd hr (hnew u hu' r)
  · exact h r r' u hr hr'

theorem Exclusive.carries (h : Exclusive holds) (hc : Carries holds holds' S p q) : Exclusive holds' := by
  intro r r' u hr hr'
  obtain ⟨hu, hp⟩ | ⟨hne, hr⟩ := (hc.2 r u).mp hr <;> obtain ⟨hu', hp'⟩ | ⟨hne', hr'⟩ := (hc.2 r' u).mp hr'
  · exact hp.trans hp'.symm
  · exact absurd hu hne'
  · exact absurd hu' hne
  · exact h r r' u hr hr'

theorem Brings.somewhere (hb : Brings holds holds' S p) {u : T} : (∃ r, holds' r u) ↔ S u ∨ ∃ r, holds r u := by
  constructor
  · rintro ⟨r, hr⟩
    exact ((hb.2 r u).mp hr).imp And.left fun h => ⟨r, h⟩
  · rintro (hu | ⟨r, hr⟩)
    · exact ⟨p, (hb.2 p u).mpr (.inl ⟨hu, rfl⟩)⟩
    · exact ⟨r, (hb.2 r u).mpr (.inr hr)⟩

theorem Carries.somewhere (hc : Carries holds holds' S p q) {u : T} : (∃ r, holds' r u) ↔ ∃ r, holds r u := by
  by_cases hu : S u
  · exact ⟨fun _ => ⟨p, hc.1 u hu⟩, fun _ => ⟨q, (hc.2 q u).mpr (.inl ⟨hu, rfl⟩)⟩⟩
  · refine exists_congr fun r => (hc.2 r u).trans ?_
    rw [or_iff_right fun h => hu h.1, and_iff_right hu]

/-- Two places change, and no other. -/
theorem Exclusive.carried (h : Exclusive holds) (hne : p ≠ q) (hS : ∀ t, S t → holds p t)
    (hp : ∀ u, holds' p u ↔ holds p u ∧ ¬S u) (hq : ∀ u, holds' q u ↔ S u ∨ holds q u)
    (hrest : ∀ r u, r ≠ p → r ≠ q → (holds' r u ↔ holds r u)) : Carries holds holds' S p q := by
  refine ⟨hS, fun r u => ?_⟩
  by_cases hrq : r = q
  · subst hrq
    by_cases hu : S u <;> simp [hq, hu]
  · rw [or_iff_right fun h => hrq h.2]
    by_cases hrp : r = p
    · rw [hrp, hp, and_comm]
    · rw [hrest r u hrp hrq]
      exact ⟨fun hr => ⟨fun hu => hrp (h r p u hr (hS u hu)), hr⟩, And.right⟩

theorem Arrives.brings (ha : Arrives holds holds' t p) : Brings holds holds' (· = t) p :=
  ⟨fun _ he r => he ▸ ha.1 r, ha.2⟩

theorem Moves.carries (hm : Moves holds holds' t p q) : Carries holds holds' (· = t) p q :=
  ⟨fun _ he => he ▸ hm.1, hm.2⟩

theorem Exclusive.arrives (h : Exclusive holds) (ha : Arrives holds holds' t p) : Exclusive holds' :=
  h.brings ha.brings

theorem Exclusive.moves (h : Exclusive holds) (hm : Moves holds holds' t p q) : Exclusive holds' :=
  h.carries hm.carries

theorem Moves.self (hm : Moves holds holds' t p q) : holds' q t := (hm.2 q t).mpr (.inl ⟨rfl, rfl⟩)

/-- What is somewhere. -/
theorem Arrives.exists_iff (ha : Arrives holds holds' t p) {u : T} : (∃ r, holds' r u) ↔ u = t ∨ ∃ r, holds r u :=
  ha.brings.somewhere

/-- What is at some of the places, when the new one is not among them. -/
theorem Arrives.exists_among {S : P → Prop} (ha : Arrives holds holds' t p) (hp : ¬S p) {u : T} :
    (∃ r, S r ∧ holds' r u) ↔ ∃ r, S r ∧ holds r u := by
  refine exists_congr fun r => and_congr_right fun hr => ?_
  rw [ha.2 r u]
  refine or_iff_right ?_
  rintro ⟨-, rfl⟩
  exact hp hr

/-- A token that moves is still somewhere, and the others are where they were. -/
theorem Moves.exists_iff (hm : Moves holds holds' t p q) {u : T} : (∃ r, holds' r u) ↔ ∃ r, holds r u :=
  hm.carries.somewhere

/-- Some of the places: the token was among them before iff it is after. -/
theorem Moves.exists_among {S : P → Prop} (h : Exclusive holds) (hm : Moves holds holds' t p q) (hs : S p ↔ S q)
    {u : T} : (∃ r, S r ∧ holds' r u) ↔ ∃ r, S r ∧ holds r u := by
  by_cases hu : u = t
  · subst hu
    constructor
    · rintro ⟨r, hr, hr'⟩
      obtain ⟨-, rfl⟩ | ⟨hne, -⟩ := (hm.2 r u).mp hr'
      · exact ⟨p, hs.mpr hr, hm.1⟩
      · exact absurd rfl hne
    · rintro ⟨r, hr, hr'⟩
      obtain rfl := h r p u hr' hm.1
      exact ⟨q, hs.mp hr, hm.self⟩
  · refine exists_congr fun r => and_congr_right fun _ => (hm.2 r u).trans ?_
    rw [or_iff_right fun h => hu h.1, and_iff_right hu]

/-- Some of the places, which the token comes to. -/
theorem Moves.exists_enters {S : P → Prop} (hm : Moves holds holds' t p q) (hq : S q) {u : T} :
    (∃ r, S r ∧ holds' r u) ↔ u = t ∨ ∃ r, S r ∧ holds r u := by
  by_cases hu : u = t
  · exact ⟨fun _ => .inl hu, fun _ => ⟨q, hq, hu ▸ hm.self⟩⟩
  · rw [or_iff_right hu]
    refine exists_congr fun r => and_congr_right fun _ => (hm.2 r u).trans ?_
    rw [or_iff_right fun h => hu h.1, and_iff_right hu]

end Datara.Library
