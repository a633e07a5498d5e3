import Mathlib.Order.Interval.Finset.Nat

/-!
# Open addressing

A table of slots in which each element stands at a slot that no empty one separates from its home
(`Probed.reach`). A probe that places an element keeps this, whether it passes the slots that are taken or puts
the element there and goes on with the one that was (`Pending.skip`, `Pending.swap`, `Pending.place`); so a
search may stop at an empty slot (`Probed.found`), and comes to one in a table that is not full
(`Probed.exists_empty`).
-/

namespace Datara.Library

universe u

variable {ι : Type u} {home : ι → Nat} {slots n slot : Nat} {cells : Nat → Option ι}
  {stored : Set ι} {e p : ι}

/-- The slots that are taken. -/
def taken (slots : Nat) (cells : Nat → Option ι) : Finset Nat :=
  (Finset.range slots).filter fun s => (cells s).isSome

/-- A slot that no empty one separates from an element's home. -/
def Reaches (home : ι → Nat) (slots : Nat) (cells : Nat → Option ι) (e : ι) (slot : Nat) : Prop :=
  ∃ d, slot = (home e + d) % slots ∧ ∀ j < d, cells ((home e + j) % slots) ≠ none

/-- A table of some elements, in `n` slots at most. -/
structure Probed (home : ι → Nat) (slots : Nat) (cells : Nat → Option ι) (stored : Set ι) (n : Nat) : Prop where
  mem : ∀ s e, s < slots → cells s = some e → e ∈ stored
  placed : ∀ e ∈ stored, ∃ s < slots, cells s = some e
  reach : ∀ s e, s < slots → cells s = some e → Reaches home slots cells e s
  few : (taken slots cells).card ≤ n

/-- A table of some elements but for one, whose probe has come to a slot. -/
structure Pending (home : ι → Nat) (slots : Nat) (cells : Nat → Option ι) (stored : Set ι) (n : Nat) (p : ι)
    (slot : Nat) : Prop where
  mem : ∀ s e, s < slots → cells s = some e → e ∈ stored
  placed : ∀ e ∈ stored, e ≠ p → ∃ s < slots, cells s = some e
  reach : ∀ s e, s < slots → cells s = some e → Reaches home slots cells e s
  few : (taken slots cells).card ≤ n
  pending : p ∈ stored
  comes : Reaches home slots cells p slot

theorem Probed.nil : Probed home slots (fun _ => none) ∅ 0 where
  mem _ _ _ h := nomatch h
  placed _ h := h.elim
  reach _ _ _ h := nomatch h
  few := by
    have hnone : taken slots (fun _ => (none : Option ι)) = ∅ :=
      Finset.filter_eq_empty_iff.mpr fun _ _ => Bool.false_ne_true
    rw [hnone, Finset.card_empty]

theorem Probed.congr_home {home' : ι → Nat} (h : Probed home slots cells stored n)
    (heq : ∀ e ∈ stored, home e = home' e) : Probed home' slots cells stored n :=
  { h with
    reach := fun s e hs hc => by
      have hreach := h.reach s e hs hc
      rw [Reaches, heq e (h.mem s e hs hc)] at hreach
      exact hreach }

/-! ## Empty slots -/

theorem exists_offset (hslot : slot < slots) {s : Nat} (hs : s < slots) : ∃ m < slots, (slot + m) % slots = s := by
  by_cases hle : slot ≤ s
  · refine ⟨s - slot, by omega, ?_⟩
    rw [Nat.add_sub_cancel' hle, Nat.mod_eq_of_lt hs]
  · refine ⟨s + slots - slot, by omega, ?_⟩
    have hsum : slot + (s + slots - slot) = s + slots := by omega
    rw [hsum, Nat.add_mod_right, Nat.mod_eq_of_lt hs]

theorem exists_empty (hfew : (taken slots cells).card ≤ n) (hn : n < slots) : ∃ s < slots, cells s = none := by
  have hcard : (taken slots cells).card < (Finset.range slots).card := by
    rw [Finset.card_range]
    omega
  obtain ⟨s, hs, hnot⟩ := Finset.exists_mem_notMem_of_card_lt_card hcard
  refine ⟨s, Finset.mem_range.mp hs, ?_⟩
  cases hc : cells s with
  | none => rfl
  | some e => exact absurd (Finset.mem_filter.mpr ⟨hs, by rw [hc]; rfl⟩) hnot

/-- The probe of an element in a table that is not full comes to its slot in one round. -/
theorem Probed.found (h : Probed home slots cells stored n) (hn : n < slots) (hhome : home e < slots)
    (he : e ∈ stored) : ∃ d < slots, cells ((home e + d) % slots) = some e ∧
      ∀ j < d, cells ((home e + j) % slots) ≠ none := by
  obtain ⟨s, hs, hc⟩ := h.placed e he
  obtain ⟨d, rfl, hbefore⟩ := h.reach s e hs hc
  refine ⟨d, Nat.lt_of_not_le fun hd => ?_, hc, hbefore⟩
  obtain ⟨s, hs, hempty⟩ := exists_empty h.few hn
  obtain ⟨m, hm, rfl⟩ := exists_offset hhome hs
  exact hbefore m (by omega) hempty

/-! ## Placing an element -/

/-- What is taken stays so when a slot is written. -/
theorem update_ne_none {s : Nat} {v : ι} (h : cells s ≠ none) : Function.update cells slot (some v) s ≠ none := by
  by_cases hs : s = slot
  · rw [hs, Function.update_self]
    exact Option.some_ne_none v
  · rwa [Function.update_of_ne hs]

theorem Reaches.next (h : Reaches home slots cells e slot) (hc : cells slot ≠ none) :
    Reaches home slots cells e ((slot + 1) % slots) := by
  obtain ⟨d, rfl, hbefore⟩ := h
  refine ⟨d + 1, ?_, fun j hj => ?_⟩
  · rw [Nat.mod_add_mod, Nat.add_assoc]
  · by_cases hjd : j = d
    · rwa [hjd]
    · exact hbefore j (by omega)

theorem Reaches.update {v : ι} {t : Nat} (h : Reaches home slots cells e t) :
    Reaches home slots (Function.update cells slot (some v)) e t := by
  obtain ⟨d, rfl, hbefore⟩ := h
  exact ⟨d, rfl, fun j hj => update_ne_none (hbefore j hj)⟩

namespace Pending

theorem start (h : Probed home slots cells stored n) (hhome : home p < slots) :
    Pending home slots cells (insert p stored) n p (home p) where
  mem s e hs hc := Set.mem_insert_of_mem p (h.mem s e hs hc)
  placed e he hne := h.placed e (Set.mem_of_mem_insert_of_ne he hne)
  reach := h.reach
  few := h.few
  pending := Set.mem_insert p stored
  comes := ⟨0, by rw [Nat.add_zero, Nat.mod_eq_of_lt hhome], fun j hj => absurd hj (Nat.not_lt_zero j)⟩

section
variable (h : Pending home slots cells stored n p slot)
include h

theorem skip (hc : cells slot ≠ none) :
    Pending home slots cells stored n p ((slot + 1) % slots) :=
  { h with comes := h.comes.next hc }

theorem mem_update (s : Nat) (e : ι) (hs : s < slots)
    (hc : Function.update cells slot (some p) s = some e) : e ∈ stored := by
  by_cases hss : s = slot
  · rw [hss, Function.update_self] at hc
    exact Option.some.inj hc ▸ h.pending
  · rw [Function.update_of_ne hss] at hc
    exact h.mem s e hs hc

theorem reach_update (s : Nat) (e : ι) (hs : s < slots)
    (hc : Function.update cells slot (some p) s = some e) :
    Reaches home slots (Function.update cells slot (some p)) e s := by
  by_cases hss : s = slot
  · rw [hss, Function.update_self] at hc
    rw [hss, ← Option.some.inj hc]
    exact h.comes.update
  · rw [Function.update_of_ne hss] at hc
    exact (h.reach s e hs hc).update

end

/-- An element takes the slot of another one, whose probe goes on. -/
theorem swap (hslot : slot < slots) (h : Pending home slots cells stored n p slot) (hc : cells slot = some e) :
    Pending home slots (Function.update cells slot (some p)) stored n e ((slot + 1) % slots) where
  mem := h.mem_update
  placed f hf hne := by
    by_cases hfp : f = p
    · exact ⟨slot, hslot, by rw [Function.update_self, hfp]⟩
    · obtain ⟨s, hs, hcs⟩ := h.placed f hf hfp
      have hss : s ≠ slot := by
        rintro rfl
        exact hne (Option.some.inj (hcs.symm.trans hc))
      exact ⟨s, hs, by rwa [Function.update_of_ne hss]⟩
  reach := h.reach_update
  few := by
    have hsame : taken slots (Function.update cells slot (some p)) = taken slots cells := by
      ext s
      rw [taken, taken, Finset.mem_filter, Finset.mem_filter]
      by_cases hss : s = slot
      · rw [hss, Function.update_self, hc]
        rfl
      · rw [Function.update_of_ne hss]
    rw [hsame]
    exact h.few
  pending := h.mem slot e hslot hc
  comes := (h.reach slot e hslot hc).update.next (by rw [Function.update_self]; exact Option.some_ne_none p)

theorem place (hslot : slot < slots) (h : Pending home slots cells stored n p slot) (hc : cells slot = none) :
    Probed home slots (Function.update cells slot (some p)) stored (n + 1) where
  mem := h.mem_update
  placed f hf := by
    by_cases hfp : f = p
    · exact ⟨slot, hslot, by rw [Function.update_self, hfp]⟩
    · obtain ⟨s, hs, hcs⟩ := h.placed f hf hfp
      have hss : s ≠ slot := by
        rintro rfl
        rw [hc] at hcs
        cases hcs
      exact ⟨s, hs, by rwa [Function.update_of_ne hss]⟩
  reach := h.reach_update
  few := by
    have hsub : taken slots (Function.update cells slot (some p)) ⊆ insert slot (taken slots cells) := by
      intro s hs
      rw [taken, Finset.mem_filter] at hs
      by_cases hss : s = slot
      · rw [hss]
        exact Finset.mem_insert_self slot _
      · rw [Function.update_of_ne hss] at hs
        exact Finset.mem_insert_of_mem (Finset.mem_filter.mpr hs)
    have hle := (Finset.card_le_card hsub).trans (Finset.card_insert_le _ _)
    have := h.few
    omega

end Pending

end Datara.Library
