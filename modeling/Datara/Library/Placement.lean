import Mathlib.Data.List.Count
import Mathlib.Data.List.Nodup
import Mathlib.Data.List.Perm.Basic

/-!
# Items placed in lists

A family of lists and, for every item, the list it is in, if any. They agree (`Placed`) when an item
occurs once in the list of its place and in no other. An item is put into a list it was not in
(`Placed.insert`), taken out (`Placed.remove`) or moved (`Placed.move`, `Placed.moveAll`); what order a list has does not
matter.
-/

namespace Datara.Library

universe u v

open scoped List

variable {α : Type u} {κ : Type v}

/-- The last cell of an array goes into a cell that is given up. -/
def swapRemove (l : List α) (i : Nat) : List α :=
  match l.getLast? with
  | some x => (l.set i x).dropLast
  | none => []

theorem swapRemove_perm {l : List α} {i : Nat} {a : α} (h : l[i]? = some a) : l.Perm (a :: swapRemove l i) := by
  rcases List.eq_nil_or_concat l with rfl | ⟨init, x, rfl⟩
  · cases h
  · rw [List.concat_eq_append] at h ⊢
    obtain ⟨hlt, hget⟩ := List.getElem?_eq_some_iff.mp h
    have hswap : swapRemove (init ++ [x]) i = ((init ++ [x]).set i x).dropLast := by
      rw [swapRemove, List.getLast?_concat]
    rw [hswap]
    rw [List.length_append, List.length_singleton] at hlt
    rcases Nat.lt_succ_iff_lt_or_eq.mp hlt with hi | rfl
    · rw [List.getElem_append_left hi] at hget
      subst hget
      rw [List.set_append_left _ _ hi, List.dropLast_concat]
      calc init ++ [x] ~ x :: init := List.perm_append_singleton x init
        _ ~ x :: init[i] :: init.eraseIdx i := (List.getElem_cons_eraseIdx_perm hi).symm.cons x
        _ ~ init[i] :: x :: init.eraseIdx i := .swap _ _ _
        _ ~ init[i] :: init.set i x := (List.set_perm_cons_eraseIdx hi x).symm.cons _
    · have hax : x = a := by simpa using hget
      subst hax
      rw [List.set_append_right _ _ (Nat.le_refl _), Nat.sub_self, List.set_cons_zero, List.dropLast_concat]
      exact List.perm_append_singleton x init

/-- What the cells of an array hold below a count. -/
def cells (c : Nat → Option α) (n : Nat) : List α := (List.range n).filterMap c

section
variable {c : Nat → Option α} {n i : Nat} {a : α}

theorem cells_succ : cells c (n + 1) = cells c n ++ (c n).toList := by
  rw [cells, cells, List.range_succ, List.filterMap_append]
  cases hc : c n <;> simp [hc]

theorem cells_congr {c' : Nat → Option α} (h : ∀ i, i < n → c i = c' i) : cells c n = cells c' n :=
  List.filterMap_congr fun i hi => h i (List.mem_range.mp hi)

theorem cells_push : cells (Function.update c n (some a)) (n + 1) = cells c n ++ [a] := by
  rw [cells_succ, Function.update_self]
  congr 1
  exact cells_congr fun i hi => Function.update_of_ne (Nat.ne_of_lt hi) _ _

theorem cells_update_perm (hi : i < n) (x : Option α) :
    cells c n ++ x.toList ~ (c i).toList ++ cells (Function.update c i x) n := by
  induction n with
  | zero => cases hi
  | succ n ih =>
    rw [cells_succ, cells_succ]
    rcases Nat.lt_succ_iff_lt_or_eq.mp hi with hlt | rfl
    · rw [Function.update_of_ne (Nat.ne_of_gt hlt)]
      calc cells c n ++ (c n).toList ++ x.toList
          ~ cells c n ++ x.toList ++ (c n).toList := by
            rw [List.append_assoc, List.append_assoc]
            exact List.perm_append_comm.append_left _
        _ ~ (c i).toList ++ cells (Function.update c i x) n ++ (c n).toList := (ih hlt).append_right _
        _ ~ (c i).toList ++ (cells (Function.update c i x) n ++ (c n).toList) := by
            rw [List.append_assoc]
    · have hsame : cells (Function.update c i x) i = cells c i :=
        cells_congr fun j hj => Function.update_of_ne (Nat.ne_of_lt hj) _ _
      rw [hsame, Function.update_self, ← List.append_assoc]
      exact List.perm_append_comm.append_right _

/-- The last cell goes into one that is given up. -/
theorem cells_swap (hi : i ≤ n) (ha : c i = some a) :
    cells c (n + 1) ~ a :: cells (Function.update c i (c n)) n := by
  rw [cells_succ]
  rcases Nat.lt_or_eq_of_le hi with hlt | rfl
  · have := cells_update_perm (c := c) hlt (c n)
    rwa [ha] at this
  · rw [ha, ← ha, Function.update_eq_self, ha]
    exact List.perm_append_singleton a _

end

variable [DecidableEq α] [DecidableEq κ]

/-- Every item is once in the list of its place. -/
structure Placed (lists : κ → List α) (place : α → Option κ) : Prop where
  count : ∀ k a, (lists k).count a = if place a = some k then 1 else 0

namespace Placed

variable {lists lists' : κ → List α} {place place' : α → Option κ} {a : α} {k k' : κ}

section
variable (h : Placed lists place)
include h

theorem mem_iff : a ∈ lists k ↔ place a = some k := by
  rw [← List.count_pos_iff, h.count]
  split <;> simp_all

theorem insert (ha : place a = none) (hk : (lists' k).Perm (a :: lists k))
    (hlists : ∀ j, j ≠ k → (lists' j).Perm (lists j)) (hplace : place' a = some k)
    (hothers : ∀ b, b ≠ a → place' b = place b) : Placed lists' place' where
  count j b := by
    by_cases hj : j = k
    · subst hj
      rw [hk.count_eq, List.count_cons, h.count]
      by_cases hb : b = a
      · subst hb
        rw [ha, hplace]
        simp
      · rw [hothers b hb, beq_false_of_ne (Ne.symm hb)]
        simp
    · rw [(hlists j hj).count_eq, h.count]
      by_cases hb : b = a
      · subst hb
        rw [ha, hplace]
        simp [Ne.symm hj]
      · rw [hothers b hb]

theorem remove (hk : (lists k).Perm (a :: lists' k))
    (hlists : ∀ j, j ≠ k → (lists' j).Perm (lists j)) (hplace : place' a = none)
    (hothers : ∀ b, b ≠ a → place' b = place b) : Placed lists' place' where
  count j b := by
    have hin : place a = some k := h.mem_iff.mp (hk.mem_iff.mpr List.mem_cons_self)
    have hcount := h.count k b
    by_cases hj : j = k
    · subst hj
      rw [hk.count_eq, List.count_cons] at hcount
      by_cases hb : b = a
      · subst hb
        rw [hin, beq_self_eq_true] at hcount
        rw [hplace]
        simp at hcount ⊢
        exact hcount
      · rw [beq_false_of_ne (Ne.symm hb)] at hcount
        rw [hothers b hb]
        simpa using hcount
    · rw [(hlists j hj).count_eq, h.count]
      by_cases hb : b = a
      · subst hb
        rw [hin, hplace]
        simp [Ne.symm hj]
      · rw [hothers b hb]

theorem moveAll {items : List α} (hnodup : items.Nodup)
    (hfrom : ∀ j, j ≠ k → (lists j).Perm (items.filter (fun a => place a = some j) ++ lists' j))
    (hto : (lists' k).Perm (items ++ lists k)) (hnot : ∀ a ∈ items, place a ≠ some k)
    (hplace : ∀ a ∈ items, place' a = some k) (hothers : ∀ a, a ∉ items → place' a = place a) :
    Placed lists' place' where
  count j b := by
    have hcount := h.count j b
    by_cases hj : j = k
    · subst hj
      rw [hto.count_eq, List.count_append, hcount]
      by_cases hb : b ∈ items
      · rw [hplace b hb, if_neg (hnot b hb), if_pos rfl, List.count_eq_one_of_mem hnodup hb]
      · rw [hothers b hb, List.count_eq_zero_of_not_mem hb, Nat.zero_add]
    · rw [(hfrom j hj).count_eq, List.count_append] at hcount
      by_cases hb : b ∈ items
      · rw [hplace b hb, if_neg (fun h => hj (Option.some.inj h).symm)]
        by_cases hin : place b = some j
        · have hmem : b ∈ items.filter (fun a => place a = some j) :=
            List.mem_filter.mpr ⟨hb, decide_eq_true hin⟩
          rw [List.count_eq_one_of_mem (hnodup.filter _) hmem, if_pos hin] at hcount
          omega
        · rw [if_neg hin] at hcount
          omega
      · have hmem : b ∉ items.filter (fun a => place a = some j) := fun hm => hb (List.mem_filter.mp hm).1
        rw [List.count_eq_zero_of_not_mem hmem, Nat.zero_add] at hcount
        rw [hothers b hb, hcount]

theorem move (hne : k' ≠ k) (hfrom : (lists k').Perm (a :: lists' k'))
    (hto : (lists' k).Perm (a :: lists k)) (hlists : ∀ j, j ≠ k → j ≠ k' → (lists' j).Perm (lists j))
    (hplace : place' a = some k) (hothers : ∀ b, b ≠ a → place' b = place b) : Placed lists' place' := by
  have hin : place a = some k' := h.mem_iff.mp (hfrom.mem_iff.mpr List.mem_cons_self)
  refine h.moveAll (List.nodup_singleton a) (fun j hj => ?_) hto ?_ ?_ ?_
  · by_cases hjk : j = k'
    · subst hjk
      rw [List.filter_cons_of_pos (by rw [hin]; exact decide_eq_true rfl)]
      exact hfrom
    · rw [List.filter_cons_of_neg (by rw [hin]; simpa using Ne.symm hjk)]
      exact (hlists j hj hjk).symm
  · intro b hb
    obtain rfl := List.mem_singleton.mp hb
    rw [hin]
    exact fun h => hne (Option.some.inj h)
  · intro b hb
    obtain rfl := List.mem_singleton.mp hb
    exact hplace
  · exact fun b hb => hothers b fun he => hb (List.mem_singleton.mpr he)

theorem nodup (k : κ) : (lists k).Nodup := by
  rw [List.nodup_iff_count_le_one]
  intro a
  rw [h.count]
  split <;> omega

/-- The lists may be in another order, the places given otherwise. -/
theorem congr (hlists : ∀ k, (lists' k).Perm (lists k))
    (hplace : ∀ a, place' a = place a) : Placed lists' place' where
  count k a := by rw [(hlists k).count_eq, h.count, hplace]

end

end Placed

end Datara.Library
