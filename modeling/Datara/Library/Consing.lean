import Mathlib.Data.List.Basic

/-!
# Tables that give each value one number

Hash-consing: values are kept in the order in which they first came, and an index finds the number of each. While the
two agree (`Consed`), numbers are equal when values are, and a table that grows at its end leaves the old numbers with
their values.
-/

namespace Datara.Library

universe u

variable {α : Type u}

/-- The index of a table finds each row, and nothing else. -/
def Consed (rows : List α) (index : α → Option Nat) : Prop :=
  ∀ a i, index a = some i ↔ rows[i]? = some a

namespace Consed

variable {rows : List α} {index : α → Option Nat} {a b : α} {i j : Nat}

theorem inj (h : Consed rows index) (hi : rows[i]? = some a) (hj : rows[j]? = some b) : i = j ↔ a = b := by
  constructor
  · rintro rfl
    exact Option.some.inj (hi.symm.trans hj)
  · rintro rfl
    exact Option.some.inj (((h a i).mpr hi).symm.trans ((h a j).mpr hj))

theorem single [DecidableEq α] (a : α) : Consed [a] (Function.update (fun _ => none) a (some 0)) := by
  intro b i
  by_cases hb : b = a
  · subst hb
    cases i <;> simp
  · cases i <;> simp [Function.update_of_ne hb, Ne.symm hb]

/-- A value that is not there goes to the end. -/
theorem push [DecidableEq α] (h : Consed rows index) (ha : index a = none) :
    Consed (rows ++ [a]) (Function.update index a (some rows.length)) := by
  intro b i
  rcases Nat.lt_trichotomy i rows.length with hi | rfl | hi
  · rw [List.getElem?_append_left hi, ← h b i]
    by_cases hb : b = a
    · subst hb
      simp only [Function.update_self, Option.some.injEq, ha, reduceCtorEq, iff_false]
      omega
    · rw [Function.update_of_ne hb]
  · rw [List.getElem?_append_right (Nat.le_refl _), Nat.sub_self]
    by_cases hb : b = a
    · simp [hb]
    · have hne : index b ≠ some rows.length := by
        rw [ne_eq, h b, List.getElem?_eq_none (Nat.le_refl _)]
        exact Option.some_ne_none b ∘ Eq.symm
      simp [Function.update_of_ne hb, hne, Ne.symm hb]
  · rw [List.getElem?_eq_none (by simp; omega)]
    by_cases hb : b = a
    · subst hb
      simp only [Function.update_self, Option.some.injEq, reduceCtorEq, iff_false]
      omega
    · rw [Function.update_of_ne hb, h b, List.getElem?_eq_none (by omega)]

end Consed

/-- The rows of a table are still there when it has grown. -/
theorem getElem?_kept {rows rows' : List α} {a : α} {i : Nat} (h : rows <+: rows') (hi : rows[i]? = some a) :
    rows'[i]? = some a := by
  obtain ⟨more, rfl⟩ := h
  rw [List.getElem?_append_left (List.getElem?_eq_some_iff.mp hi).1]
  exact hi

end Datara.Library
