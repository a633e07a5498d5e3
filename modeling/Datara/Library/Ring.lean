import Mathlib.Data.Int.ModEq
import Mathlib.Data.List.Basic

/-!
# A list in a ring of cells

A ring buffer keeps the items of a list in the cells of consecutive indices, each index taken modulo the
capacity. Indices within one turn of each other have different cells (`cell_ne`), so an item is written
at one end and read at either end without disturbing the others.
-/

namespace Datara.Library

universe u

variable {α : Type u} {cap : Nat} {cells : Nat → Option α} {first i j : Int} {l : List α} {x : α}

/-- The cell of an index. -/
def ringCell (cap : Nat) (i : Int) : Nat := (i % cap).toNat

theorem ringCell_lt (hcap : 0 < cap) : ringCell cap i < cap := by
  have h₂ := Int.emod_lt_of_pos i (b := (cap : Int)) (by omega)
  rw [ringCell]
  omega

/-- Two indices have one cell when they are whole turns apart. -/
theorem ringCell_eq_iff (hcap : 0 < cap) : ringCell cap i = ringCell cap j ↔ (cap : Int) ∣ j - i := by
  have h₁ := Int.emod_nonneg i (b := (cap : Int)) (by omega)
  have h₂ := Int.emod_nonneg j (b := (cap : Int)) (by omega)
  rw [← Int.modEq_iff_dvd, Int.ModEq, ringCell, ringCell]
  omega

/-- Within one turn, different indices have different cells. -/
theorem ringCell_ne (hcap : 0 < cap) (hij : i < j) (hturn : j < i + cap) : ringCell cap i ≠ ringCell cap j := by
  intro h
  have := Int.le_of_dvd (by omega) ((ringCell_eq_iff hcap).mp h)
  omega

/-- The items of a list are in the cells of the indices from the first one on. -/
structure InRing (cap : Nat) (cells : Nat → Option α) (first : Int) (l : List α) : Prop where
  length : l.length ≤ cap
  item : ∀ (n : Nat) x, l[n]? = some x → cells (ringCell cap (first + n)) = some x

theorem InRing.nil : InRing cap cells first [] := ⟨Nat.zero_le _, nofun⟩

/-- An item is written behind the last. -/
theorem InRing.push (h : InRing cap cells first l) (hlt : l.length < cap) :
    InRing cap (Function.update cells (ringCell cap (first + l.length)) (some x)) first (l ++ [x]) where
  length := by
    rw [List.length_append, List.length_singleton]
    exact hlt
  item n y hy := by
    rw [List.getElem?_append] at hy
    split at hy
    case isTrue hn =>
      rw [Function.update_of_ne (ringCell_ne (by omega) (by omega) (by omega))]
      exact h.item n y hy
    case isFalse hn =>
      obtain ⟨hn', hy⟩ := List.getElem?_eq_some_iff.mp hy
      rw [List.length_singleton] at hn'
      have hlast : n = l.length := by omega
      rw [hlast, Function.update_self, ← hy, List.getElem_singleton]

theorem InRing.update {c : Nat} {v : Option α} (h : InRing cap cells first l)
    (hc : ∀ n : Nat, n < l.length → ringCell cap (first + n) ≠ c) :
    InRing cap (Function.update cells c v) first l where
  length := h.length
  item n y hy := by
    rw [Function.update_of_ne (hc n (List.getElem?_eq_some_iff.mp hy).1)]
    exact h.item n y hy

theorem InRing.head (h : InRing cap cells first (x :: l)) : cells (ringCell cap first) = some x := by
  have := h.item 0 x rfl
  rwa [Int.natCast_zero, Int.add_zero] at this

theorem InRing.tail (h : InRing cap cells first (x :: l)) : InRing cap cells (first + 1) l where
  length := Nat.le_of_succ_le h.length
  item n y hy := by
    have := h.item (n + 1) y hy
    rwa [Int.natCast_add, Int.natCast_one, Int.add_comm (n : Int) 1, ← Int.add_assoc] at this

theorem InRing.last (h : InRing cap cells first (l ++ [x])) : cells (ringCell cap (first + l.length)) = some x := by
  refine h.item l.length x ?_
  rw [List.getElem?_append_right (Nat.le_refl _), Nat.sub_self]
  rfl

theorem InRing.dropLast (h : InRing cap cells first (l ++ [x])) : InRing cap cells first l where
  length := by
    have := h.length
    rw [List.length_append] at this
    omega
  item n y hy := by
    refine h.item n y ?_
    rw [List.getElem?_append_left (List.getElem?_eq_some_iff.mp hy).1, hy]

theorem InRing.filterMap_range (h : InRing cap cells first l) :
    ((List.range l.length).filterMap fun n : Nat => cells (ringCell cap (first + n))) = l := by
  induction l generalizing first with
  | nil => rfl
  | cons x l ih =>
    rw [List.length_cons, List.range_succ_eq_map, List.filterMap_cons_some (b := x), List.filterMap_map]
    · refine congrArg (x :: ·) (Eq.trans ?_ (ih h.tail))
      refine List.filterMap_congr fun n _ => ?_
      show cells (ringCell cap (first + (n + 1 : Nat))) = _
      rw [Int.natCast_add, Int.natCast_one, Int.add_comm (n : Int) 1, ← Int.add_assoc]
    · rw [Int.natCast_zero, Int.add_zero]
      exact h.head

theorem ringCell_mask {k : Nat} (hk : k ≤ 64) (i : Int) :
    (i % 2 ^ 64).toNat &&& (2 ^ k - 1) = ringCell (2 ^ k) i := by
  have hdvd : (2 : Int) ^ k ∣ 2 ^ 64 := pow_dvd_pow 2 hk
  have hmod : i % 2 ^ 64 % 2 ^ k = i % 2 ^ k := Int.emod_emod_of_dvd i hdvd
  have hnonneg : 0 ≤ i % 2 ^ 64 := Int.emod_nonneg i (by decide)
  have hpow : ((2 ^ k : Nat) : Int) = 2 ^ k := by rw [Nat.cast_pow, Nat.cast_ofNat]
  rw [Nat.and_two_pow_sub_one_eq_mod, ringCell, hpow, ← hmod,
    Int.toNat_emod hnonneg (Int.pow_nonneg (by decide)), ← hpow, Int.toNat_natCast]

end Datara.Library
