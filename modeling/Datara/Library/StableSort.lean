import Mathlib.Data.List.Basic

/-!
# Stable sorting

A list sorted stably by a total preorder: the same elements, in order, and those of one class as they were. Merging two
such lists sorts the list they come from.
-/

namespace Datara.Library

universe u

variable {α : Type u} {le : α → α → Bool} {xs ys xs' ys' : List α} {z : α}

/-- Neither comes before the other. -/
def sameClass (le : α → α → Bool) (z x : α) : Bool := le z x && le x z

structure SortsStably (le : α → α → Bool) (xs out : List α) : Prop where
  perm : out.Perm xs
  ordered : out.Pairwise fun a b => le a b = true
  stable : ∀ z, out.filter (sameClass le z) = xs.filter (sameClass le z)

theorem SortsStably.of_length (h : xs.length ≤ 1) : SortsStably le xs xs := by
  refine ⟨List.Perm.refl _, ?_, fun _ => rfl⟩
  cases xs with
  | nil => exact List.Pairwise.nil
  | cons x xs =>
    obtain rfl : xs = [] := List.eq_nil_of_length_eq_zero (by simpa using h)
    exact List.pairwise_singleton _ _

section
variable (trans : ∀ a b c, le a b = true → le b c = true → le a c = true) (total : ∀ a b, (le a b || le b a) = true)
include trans total

theorem filter_merge (hx : xs.Pairwise fun a b => le a b = true) (hy : ys.Pairwise fun a b => le a b = true) :
    (List.merge xs ys le).filter (sameClass le z) =
      xs.filter (sameClass le z) ++ ys.filter (sameClass le z) := by
  induction xs generalizing ys with
  | nil => simp
  | cons x xs ihx =>
    induction ys with
    | nil => simp
    | cons y ys ihy =>
      by_cases hle : le x y = true
      · rw [List.cons_merge_cons_pos le xs ys hle]
        simp only [List.filter_cons, ihx (List.Pairwise.of_cons hx) hy]
        split_ifs <;> rfl
      · rw [List.cons_merge_cons_neg le xs ys hle, List.filter_cons, ihy (List.Pairwise.of_cons hy),
          List.filter_cons (x := y)]
        split_ifs with hclass
        · -- nothing of `y`'s class comes at `x` or after it
          have hnone : (x :: xs).filter (sameClass le z) = [] := by
            apply List.filter_eq_nil_iff.mpr
            intro w hw hsame
            have hxw : le x w = true := by
              rcases List.mem_cons.mp hw with rfl | hin
              · simpa using total w w
              · exact List.rel_of_pairwise_cons hx hin
            simp only [sameClass, Bool.and_eq_true] at hsame hclass
            exact hle (trans _ _ _ hxw (trans _ _ _ hsame.2 hclass.1))
          rw [hnone]
          rfl
        · rfl

theorem SortsStably.merge (hx : SortsStably le xs xs') (hy : SortsStably le ys ys') :
    SortsStably le (xs ++ ys) (List.merge xs' ys' le) where
  perm := (List.merge_perm_append le).trans (hx.perm.append hy.perm)
  ordered := List.pairwise_merge trans total _ _ hx.ordered hy.ordered
  stable z := by rw [filter_merge trans total hx.ordered hy.ordered, List.filter_append, hx.stable, hy.stable]

end

section
variable (total : ∀ a b, (le a b || le b a) = true)
include total

/-- Two ordered lists with the same elements of each class are one list. -/
theorem eq_of_filter_sameClass (hx : xs.Pairwise fun a b => le a b = true)
    (hy : ys.Pairwise fun a b => le a b = true) (hclass : ∀ z, xs.filter (sameClass le z) = ys.filter (sameClass le z)) :
    xs = ys := by
  have hself : ∀ z, sameClass le z z = true := fun z => by simpa [sameClass] using total z z
  induction xs generalizing ys with
  | nil =>
    cases ys with
    | nil => rfl
    | cons y ys => simpa [List.filter_cons, hself] using hclass y
  | cons x xs ih =>
    cases ys with
    | nil => simpa [List.filter_cons, hself] using hclass x
    | cons y ys =>
      have hxin : x ∈ (y :: ys).filter (sameClass le x) := by rw [← hclass x]; simp [hself]
      have hyin : y ∈ (x :: xs).filter (sameClass le y) := by rw [hclass y]; simp [hself]
      have hyx : le y x = true := by
        rcases List.mem_cons.mp (List.mem_of_mem_filter hxin) with rfl | h
        · simpa using total x x
        · exact List.rel_of_pairwise_cons hy h
      have hxy : le x y = true := by
        rcases List.mem_cons.mp (List.mem_of_mem_filter hyin) with rfl | h
        · simpa using total y y
        · exact List.rel_of_pairwise_cons hx h
      have hhead := hclass x
      have hsame : sameClass le x y = true := by simp [sameClass, hxy, hyx]
      rw [List.filter_cons_of_pos (hself x), List.filter_cons_of_pos hsame] at hhead
      obtain rfl := (List.cons.inj hhead).1
      refine congrArg _ (ih hx.of_cons hy.of_cons fun z => ?_)
      have hz := hclass z
      rw [List.filter_cons, List.filter_cons] at hz
      split_ifs at hz
      · exact (List.cons.inj hz).2
      · exact hz

theorem SortsStably.eq_iff_ordered {out : List α} (h : SortsStably le xs out) :
    out = xs ↔ xs.Pairwise fun a b => le a b = true :=
  ⟨fun heq => heq ▸ h.ordered, fun hxs => eq_of_filter_sameClass total h.ordered hxs h.stable⟩

end

end Datara.Library
