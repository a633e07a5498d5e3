import Mathlib.Logic.Function.Iterate
import Mathlib.Tactic.SplitIfs

/-!
# Union-find

Classes of values as a forest of parent pointers. The forest carries a bound on the length of its
paths, so the root of a value is a total function (`root`). Compressing a path changes no root
(`root_compress`), linking a root under another one joins the two classes and no others
(`root_union`), and a value stays with whom it was joined (`root_unions`).
-/

namespace Datara.Library

universe u

/-- Parent pointers whose paths end, after at most `height` steps, in a value that is its own
parent. -/
structure UnionFind (α : Type u) where
  parent : α → α
  height : Nat
  rooted : ∀ a, parent (parent^[height] a) = parent^[height] a

/-- Two ends of one path are one. -/
theorem iterate_fixed_unique {α : Type u} {p : α → α} {m n : Nat} {a : α}
    (hm : p (p^[m] a) = p^[m] a) (hn : p (p^[n] a) = p^[n] a) : p^[m] a = p^[n] a := by
  have further : ∀ {m k : Nat}, p (p^[m] a) = p^[m] a → p^[k + m] a = p^[m] a := by
    intro m k h
    rw [Function.iterate_add_apply]
    exact Function.iterate_fixed h k
  rcases Nat.le_total m n with h | h
  · rw [← Nat.sub_add_cancel h]
    exact (further hm).symm
  · rw [← Nat.sub_add_cancel h]
    exact further hn

namespace UnionFind

variable {α : Type u}

/-- Every value on its own. -/
def discrete (α : Type u) : UnionFind α := ⟨id, 0, fun _ => rfl⟩

/-- The end of a value's path. -/
def root (u : UnionFind α) (a : α) : α := u.parent^[u.height] a

theorem parent_root (u : UnionFind α) (a : α) : u.parent (u.root a) = u.root a := u.rooted a

variable {u : UnionFind α}

theorem root_of_fixed {a : α} (h : u.parent a = a) : u.root a = a :=
  Function.iterate_fixed h u.height

@[simp] theorem root_root (u : UnionFind α) (a : α) : u.root (u.root a) = u.root a :=
  root_of_fixed (u.parent_root a)

@[simp] theorem root_discrete (a : α) : (discrete α).root a = a := rfl

theorem root_eq {n : Nat} {a : α} (h : u.parent (u.parent^[n] a) = u.parent^[n] a) :
    u.parent^[n] a = u.root a := iterate_fixed_unique h (u.rooted a)

section
variable [DecidableEq α]

/-! ## Compression -/

/-- A pointer past the path, to its end, leaves the ends of all paths where they were. -/
theorem iterate_shortcut (u : UnionFind α) (c : α) (n : Nat) (a : α)
    (h : u.parent (u.parent^[n] a) = u.parent^[n] a) :
    (Function.update u.parent c (u.root c))^[n] a = u.parent^[n] a := by
  induction n generalizing a with
  | zero => rfl
  | succ n ih =>
    rw [Function.iterate_succ_apply]
    by_cases hac : a = c
    · subst hac
      have hfix : Function.update u.parent a (u.root a) (u.root a) = u.root a := by
        by_cases hr : u.root a = a
        · rw [hr, Function.update_self]
        · rw [Function.update_of_ne hr, parent_root]
      rw [Function.update_self, Function.iterate_fixed hfix, root_eq h]
    · rw [Function.update_of_ne hac]
      exact ih _ h

/-- A pointer to the end of the path. -/
def shortcut (u : UnionFind α) (c : α) : UnionFind α where
  parent := Function.update u.parent c (u.root c)
  height := u.height
  rooted a := by
    rw [iterate_shortcut u c u.height a (u.rooted a)]
    by_cases h : u.parent^[u.height] a = c
    · rw [h, Function.update_self, ← h]
      exact u.root_root a
    · rw [Function.update_of_ne h]
      exact u.rooted a

@[simp] theorem root_shortcut (u : UnionFind α) (c a : α) : (u.shortcut c).root a = u.root a :=
  iterate_shortcut u c u.height a (u.rooted a)

/-- Shortcuts all along a path. -/
def compress : Nat → UnionFind α → α → UnionFind α
  | 0, u, _ => u
  | n + 1, u, c => if c = u.root c then u else compress n (u.shortcut c) (u.parent c)

@[simp] theorem root_compress (n : Nat) (u : UnionFind α) (c a : α) : (compress n u c).root a = u.root a := by
  induction n generalizing u c with
  | zero => rfl
  | succ n ih =>
    simp only [compress]
    split
    · rfl
    · rw [ih, root_shortcut]

/-- The root of a value, and the forest with that value's path compressed. -/
def find (u : UnionFind α) (a : α) : α × UnionFind α := (u.root a, compress u.height u a)

@[simp] theorem find_fst (u : UnionFind α) (a : α) : (u.find a).1 = u.root a := rfl

@[simp] theorem root_find (u : UnionFind α) (a b : α) : (u.find a).2.root b = u.root b :=
  root_compress u.height u a b

/-! ## Union -/

variable {a b : α}

theorem iterate_link (ha : u.parent a = a) (hb : u.parent b = b) (n : Nat)
    (c : α) (h : u.parent (u.parent^[n] c) = u.parent^[n] c) :
    (Function.update u.parent a b)^[n + 1] c = if u.parent^[n] c = a then b else u.parent^[n] c := by
  have hfix : Function.update u.parent a b b = b := by
    by_cases hab : b = a
    · rw [hab, Function.update_self]
    · rw [Function.update_of_ne hab, hb]
  induction n generalizing c with
  | zero =>
    by_cases hc : c = a
    · simp [hc]
    · simpa [hc] using h
  | succ n ih =>
    rw [Function.iterate_succ_apply]
    by_cases hc : c = a
    · subst hc
      rw [Function.update_self, Function.iterate_fixed hfix, Function.iterate_fixed ha, if_pos rfl]
    · rw [Function.update_of_ne hc]
      exact ih _ h

/-- A root put under another root. -/
def link (u : UnionFind α) (a b : α) (ha : u.parent a = a) (hb : u.parent b = b) : UnionFind α where
  parent := Function.update u.parent a b
  height := u.height + 1
  rooted c := by
    rw [iterate_link ha hb u.height c (u.rooted c)]
    split_ifs with h
    · by_cases hab : b = a
      · rw [hab, Function.update_self]
      · rw [Function.update_of_ne hab, hb]
    · rw [Function.update_of_ne h]
      exact u.rooted c

theorem root_link (ha : u.parent a = a) (hb : u.parent b = b) (c : α) :
    (u.link a b ha hb).root c = if u.root c = a then b else u.root c :=
  iterate_link ha hb u.height c (u.rooted c)

/-- The classes of two values become one. -/
def union (u : UnionFind α) (a b : α) : UnionFind α :=
  let ra := u.find a
  let rb := ra.2.find b
  if ra.1 = rb.1 then rb.2
  else
    rb.2.link ra.1 rb.1
      (by simpa [ra, rb] using rb.2.parent_root a)
      (by simpa [ra, rb] using rb.2.parent_root b)

/-- **A union joins two classes and leaves the others.** -/
theorem root_union (u : UnionFind α) (a b c : α) :
    (u.union a b).root c = if u.root c = u.root a then u.root b else u.root c := by
  simp only [union]
  by_cases hab : (u.find a).1 = ((u.find a).2.find b).1
  · have hroots : u.root a = u.root b := by simpa using hab
    rw [if_pos hab, root_find, root_find]
    by_cases hc : u.root c = u.root a
    · rw [if_pos hc, hc, hroots]
    · rw [if_neg hc]
  · rw [if_neg hab, root_link]
    simp

/-- Unions, in the order of a list. -/
def unions (u : UnionFind α) (l : List (α × α)) : UnionFind α :=
  l.foldl (fun u e => u.union e.1 e.2) u

theorem root_unions_of_root (l : List (α × α)) (h : u.root a = u.root b) :
    (u.unions l).root a = (u.unions l).root b := by
  induction l generalizing u with
  | nil => exact h
  | cons e l ih => exact ih (by rw [root_union, root_union, h])

/-- **Whoever was joined has one root.** -/
theorem root_unions {l : List (α × α)} (h : (a, b) ∈ l) : (u.unions l).root a = (u.unions l).root b := by
  induction l generalizing u with
  | nil => cases h
  | cons e l ih =>
    rcases List.mem_cons.mp h with rfl | h
    · refine root_unions_of_root l ?_
      rw [root_union, root_union, if_pos rfl]
      split_ifs <;> rfl
    · exact ih h

end

end UnionFind

end Datara.Library
