import Mathlib.Data.List.Basic
import Mathlib.Order.Lattice

/-!
# Binary heaps in a list

The children of place `i` are `2 * i + 1` and `2 * i + 2`, and no element is above its parent (`IsHeap`). A sift holds
the one element that may be: with `AboveAt` a swap with the parent moves the place up, with `BelowAt` a swap with the
larger child moves it down.
-/

namespace Datara.Library

universe u

namespace Heap

def parent (i : Nat) : Nat := (i - 1) / 2

variable {α : Type u}

/-- The elements at two places, swapped. -/
def swap (l : List α) (i k : Nat) (x y : α) : List α := (l.set i y).set k x

section
variable {l : List α} {i k j : Nat} {x y : α}

theorem swap_getElem? (hi : l[i]? = some x) (hk : l[k]? = some y) (j : Nat) :
    (swap l i k x y)[j]? = if j = k then some x else if j = i then some y else l[j]? := by
  have hilt := (List.getElem?_eq_some_iff.mp hi).1
  have hklt := (List.getElem?_eq_some_iff.mp hk).1
  rw [swap, List.getElem?_set, List.getElem?_set, List.length_set]
  by_cases hjk : j = k
  · subst hjk
    simp [hklt]
  · by_cases hji : j = i
    · subst hji
      simp [hjk, Ne.symm hjk, hilt]
    · simp [Ne.symm hjk, Ne.symm hji, hjk, hji]

theorem swap_length : (swap l i k x y).length = l.length := by rw [swap, List.length_set, List.length_set]

theorem swap_perm (hi : l[i]? = some x) (hk : l[k]? = some y) : (swap l i k x y).Perm l := by
  obtain ⟨hilt, rfl⟩ := List.getElem?_eq_some_iff.mp hi
  obtain ⟨hklt, rfl⟩ := List.getElem?_eq_some_iff.mp hk
  exact List.set_set_perm hilt hklt

end

variable [LinearOrder α]

/-- The element at a place is not above the one at its parent. -/
def OrderedAt (l : List α) (j : Nat) : Prop := ∀ x y, l[j]? = some x → l[parent j]? = some y → x ≤ y

def IsHeap (l : List α) : Prop := ∀ j, 0 < j → OrderedAt l j

/-- The children of a place are not above its parent. -/
def GrandAt (l : List α) (i : Nat) : Prop :=
  ∀ j, 0 < j → 0 < i → parent j = i → ∀ x y, l[j]? = some x → l[parent i]? = some y → x ≤ y

/-- A heap, but for the element at a place, which may be above its parent. -/
structure AboveAt (l : List α) (i : Nat) : Prop where
  ordered : ∀ j, 0 < j → j ≠ i → OrderedAt l j
  grand : GrandAt l i

/-- A heap, but for the element at a place, which may be below its children. -/
structure BelowAt (l : List α) (i : Nat) : Prop where
  ordered : ∀ j, 0 < j → parent j ≠ i → OrderedAt l j
  grand : GrandAt l i

variable {l : List α} {i j k : Nat} {a x y z : α}

theorem parent_lt (h : 0 < i) : parent i < i := by unfold parent; omega

theorem IsHeap.le_root (h : IsHeap l) (hroot : l[0]? = some a) (hx : x ∈ l) : x ≤ a := by
  obtain ⟨i, hi⟩ := List.mem_iff_getElem?.mp hx
  clear hx
  induction i using Nat.strongRecOn generalizing x with
  | ind i ih =>
    rcases Nat.eq_zero_or_pos i with rfl | hpos
    · exact le_of_eq (Option.some.inj (hi.symm.trans hroot))
    · have hlt := parent_lt hpos
      have hlen := (List.getElem?_eq_some_iff.mp hi).1
      have hparent := List.getElem?_eq_getElem (Nat.lt_trans hlt hlen)
      exact le_trans (h i hpos x _ hi hparent) (ih _ hlt hparent)

/-- An element that goes to the end may be above its parent. -/
theorem IsHeap.append (h : IsHeap l) (a : α) : AboveAt (l ++ [a]) l.length where
  ordered j hpos hne x y hx hy := by
    have hlt : j < l.length := by
      have := (List.getElem?_eq_some_iff.mp hx).1
      simp only [List.length_append, List.length_singleton] at this
      omega
    rw [List.getElem?_append_left hlt] at hx
    rw [List.getElem?_append_left (Nat.lt_trans (parent_lt hpos) hlt)] at hy
    exact h j hpos x y hx hy
  grand j hpos _ hparent x y hx _ := by
    have := (List.getElem?_eq_some_iff.mp hx).1
    simp only [List.length_append, List.length_singleton] at this
    have := parent_lt hpos
    omega

theorem AboveAt.isHeap (h : AboveAt l i) (hi : 0 < i → OrderedAt l i) : IsHeap l := by
  intro j hpos
  by_cases hj : j = i
  · subst hj
    exact hi hpos
  · exact h.ordered j hpos hj

/-- **Up**: the parent comes down to the place, and the element may be above the parent it has now. -/
theorem AboveAt.swap (h : AboveAt l i) (hpos : 0 < i) (hx : l[i]? = some x) (hy : l[parent i]? = some y)
    (hlt : y < x) : AboveAt (swap l i (parent i) x y) (parent i) where
  ordered j hj hne u v hu hv := by
    rw [swap_getElem? hx hy, if_neg hne] at hu
    rw [swap_getElem? hx hy] at hv
    by_cases hji : j = i
    · subst hji
      rw [if_pos rfl] at hu hv
      cases hu
      cases hv
      exact le_of_lt hlt
    · rw [if_neg hji] at hu
      by_cases hpj : parent j = parent i
      · -- the other child of the parent
        rw [if_pos hpj] at hv
        cases hv
        exact le_trans (h.ordered j hj hji u y hu (hpj ▸ hy)) (le_of_lt hlt)
      · rw [if_neg hpj] at hv
        by_cases hpi : parent j = i
        · rw [if_pos hpi] at hv
          cases hv
          exact h.grand j hj hpos hpi u y hu hy
        · rw [if_neg hpi] at hv
          exact h.ordered j hj hji u v hu hv
  grand j hj hpos' hparent u v hu hv := by
    have hlt' := parent_lt hpos'
    have hlt'' := parent_lt hpos
    have hjlt := parent_lt hj
    rw [swap_getElem? hx hy, if_neg (by omega)] at hu
    rw [swap_getElem? hx hy, if_neg (by omega), if_neg (by omega)] at hv
    have hyv : y ≤ v := h.ordered (parent i) hpos' (by omega) y v hy hv
    by_cases hji : j = i
    · rw [if_pos hji] at hu
      exact Option.some.inj hu ▸ hyv
    · rw [if_neg hji] at hu
      exact le_trans (h.ordered j hj hji u y hu (hparent ▸ hy)) hyv

theorem BelowAt.isHeap (h : BelowAt l i) (hi : ∀ j, 0 < j → parent j = i → OrderedAt l j) : IsHeap l := by
  intro j hpos
  by_cases hj : parent j = i
  · exact hi j hpos hj
  · exact h.ordered j hpos hj

theorem IsHeap.setRoot (h : IsHeap l) (a : α) : BelowAt (l.set 0 a) 0 where
  ordered j hpos hne x y hx hy := by
    rw [List.getElem?_set_ne (Nat.ne_of_lt hpos)] at hx
    rw [List.getElem?_set_ne (Ne.symm hne)] at hy
    exact h j hpos x y hx hy
  grand j _ h0 := absurd h0 (Nat.lt_irrefl 0)

theorem IsHeap.take (h : IsHeap l) (n : Nat) : IsHeap (l.take n) := by
  intro j hpos x y hx hy
  rw [List.getElem?_take, Option.ite_none_right_eq_some] at hx hy
  exact h j hpos x y hx.2 hy.2

/-- **Down**: the larger child comes up to the place, and the element may be below the children it has now. -/
theorem BelowAt.swap (h : BelowAt l i) (hk : 0 < k) (hki : parent k = i) (hx : l[i]? = some x) (hy : l[k]? = some y)
    (hle : x ≤ y) (hmax : ∀ j z, 0 < j → parent j = i → l[j]? = some z → z ≤ y) :
    BelowAt (swap l i k x y) k where
  ordered j hj hne u v hu hv := by
    have hik := parent_lt hk
    have hjlt := parent_lt hj
    rw [swap_getElem? hx hy] at hu
    rw [swap_getElem? hx hy, if_neg hne] at hv
    by_cases hpj : parent j = i
    · rw [if_pos hpj] at hv
      cases hv
      by_cases hjk : j = k
      · rw [if_pos hjk] at hu
        exact Option.some.inj hu ▸ hle
      · rw [if_neg hjk, if_neg (by omega)] at hu
        exact hmax j u hj hpj hu
    · rw [if_neg hpj] at hv
      rw [if_neg (by rintro rfl; exact hpj hki)] at hu
      by_cases hji : j = i
      · -- the child that came up is not above the parent of the place
        subst hji
        rw [if_pos rfl] at hu
        cases hu
        exact h.grand k hk hj hki y v hy hv
      · rw [if_neg hji] at hu
        exact h.ordered j hj hpj u v hu hv
  grand j hj _ hparent u v hu hv := by
    have hjlt := parent_lt hj
    have hik := parent_lt hk
    rw [swap_getElem? hx hy, if_neg (by omega), if_neg (by omega)] at hu
    rw [swap_getElem? hx hy, if_neg (by omega), if_pos hki] at hv
    cases hv
    exact h.ordered j hj (by omega) u y hu (hparent ▸ hy)

end Heap

end Datara.Library
