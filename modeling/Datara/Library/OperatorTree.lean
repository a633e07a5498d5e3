import Mathlib.Data.List.Basic

/-!
# Operator trees

A sequence of operands with binary operators between them, and the trees that read back to it. Among these there is
one in which an operator of a higher level binds tighter and operators of one level associate to the left
(`Climbs.unique`). A stack of operators that wait for their right operand stands for the tree it will be closed to
(`closeAll`); pushing an operator and an operand on it extends the sequence by one (`closeAll_push`).
-/

namespace Datara.Library

universe u v

inductive OpTree (α : Type u) (ω : Type v)
  | leaf (a : α)
  | node (op : ω) (left right : OpTree α ω)

namespace OpTree

variable {α : Type u} {ω : Type v}

/-- The first operand of the sequence. -/
def first : OpTree α ω → α
  | leaf a => a
  | node _ left _ => left.first

/-- What follows it: each operator with the operand after it. -/
def rest : OpTree α ω → List (ω × α)
  | leaf _ => []
  | node op left right => left.rest ++ (op, right.first) :: right.rest

/-- The trees waiting on a stack are closed from its top. -/
def closeAll : List (OpTree α ω × ω) → OpTree α ω → OpTree α ω
  | [], t => t
  | (left, op) :: below, t => closeAll below (node op left t)

section
variable (level : ω → Nat)

/-- The operator at the root is of level `n` or tighter. -/
def AtLeast (n : Nat) : OpTree α ω → Prop
  | leaf _ => True
  | node op _ _ => n ≤ level op

/-- Operators of a higher level bind tighter; those of one level associate to the left. -/
def Climbs : OpTree α ω → Prop
  | leaf _ => True
  | node op left right =>
    left.Climbs ∧ right.Climbs ∧ left.AtLeast level (level op) ∧ right.AtLeast level (level op + 1)

/-- The operator on top of a stack is looser than level `n`. -/
def TopBelow (n : Nat) (s : List (OpTree α ω × ω)) : Prop :=
  ∀ entry ∈ s.head?, level entry.2 < n

/-- Closes the waiting operators of level `n` or tighter, from the top. -/
def closeWhile (n : Nat) : List (OpTree α ω × ω) → OpTree α ω → List (OpTree α ω × ω) × OpTree α ω
  | [], t => ([], t)
  | (left, op) :: below, t =>
    if n ≤ level op then closeWhile n below (node op left t) else ((left, op) :: below, t)

end

variable {level : ω → Nat} {n m : Nat} {s : List (OpTree α ω × ω)} {t t' : OpTree α ω} {op : ω} {a : α}

attribute [local simp] rest closeAll closeWhile

theorem AtLeast.mono (h : t.AtLeast level n) (hle : m ≤ n) : t.AtLeast level m := by
  cases t with
  | leaf a => trivial
  | node op left right => exact Nat.le_trans hle h

theorem Climbs.atLeast (hclimbs : t.Climbs level) (hroot : t.AtLeast level n) : ∀ item ∈ t.rest, n ≤ level item.1 := by
  induction t with
  | leaf a => simp [rest]
  | node op left right ihleft ihright =>
    obtain ⟨hleft, hright, hroots⟩ := hclimbs
    have hop : n ≤ level op := hroot
    intro item hitem
    rcases List.mem_append.mp hitem with hin | hin
    · exact ihleft hleft (hroots.1.mono hop) item hin
    · rcases List.mem_cons.mp hin with rfl | hin
      · exact hop
      · exact ihright hright (hroots.2.mono (by omega)) item hin

/-- A sequence splits in one way at the last of its loosest operators. -/
theorem split_unique {before before' after after' : List (ω × α)} {x x' : ω × α}
    (heq : before ++ x :: after = before' ++ x' :: after')
    (hbefore : ∀ item ∈ before, level x.1 ≤ level item.1) (hafter : ∀ item ∈ after, level x.1 < level item.1)
    (hbefore' : ∀ item ∈ before', level x'.1 ≤ level item.1) (hafter' : ∀ item ∈ after', level x'.1 < level item.1) :
    before = before' ∧ x = x' ∧ after = after' := by
  rcases List.append_eq_append_iff.mp heq with ⟨mid, hmid, htail⟩ | ⟨mid, hmid, htail⟩
  · cases mid with
    | nil =>
      rw [List.nil_append] at htail
      exact ⟨by simpa using hmid.symm, List.cons.inj htail⟩
    | cons y mid =>
      obtain ⟨rfl, hin⟩ := List.cons.inj htail
      have hle := hbefore' x (by simp [hmid])
      have hlt := hafter x' (by simp [hin])
      omega
  · cases mid with
    | nil =>
      rw [List.nil_append] at htail
      obtain ⟨hx, hrest⟩ := List.cons.inj htail
      exact ⟨by simpa using hmid, hx.symm, hrest.symm⟩
    | cons y mid =>
      obtain ⟨rfl, hin⟩ := List.cons.inj htail
      have hle := hbefore x' (by simp [hmid])
      have hlt := hafter' x (by simp [hin])
      omega

theorem Climbs.unique (hclimbs : t.Climbs level) (hclimbs' : t'.Climbs level) (hfirst : t.first = t'.first)
    (hrest : t.rest = t'.rest) : t = t' := by
  induction t generalizing t' with
  | leaf a =>
    cases t' with
    | leaf a' => exact congrArg leaf hfirst
    | node op' left' right' => simp [rest] at hrest
  | node op left right ihleft ihright =>
    cases t' with
    | leaf a' => simp [rest] at hrest
    | node op' left' right' =>
      obtain ⟨hleft, hright, hleftRoot, hrightRoot⟩ := hclimbs
      obtain ⟨hleft', hright', hleftRoot', hrightRoot'⟩ := hclimbs'
      have hsplit := split_unique hrest (hleft.atLeast hleftRoot) (hright.atLeast hrightRoot)
        (hleft'.atLeast hleftRoot') (hright'.atLeast hrightRoot')
      obtain ⟨hbefore, hmid, hafter⟩ := hsplit
      obtain ⟨rfl, hoperand⟩ := Prod.mk.inj hmid
      rw [ihleft hleft hleft' hfirst hbefore, ihright hright hright' hoperand hafter]

theorem Climbs.of_closeAll (h : (closeAll s t).Climbs level) : t.Climbs level := by
  induction s generalizing t with
  | nil => exact h
  | cons entry below ih => exact (ih h).2.1

/-- Operators wait on the stack in order: each is looser than what is closed above it. -/
theorem Climbs.topBelow (h : (closeAll s (node op t t')).Climbs level) : TopBelow level (level op) s := by
  intro entry hentry
  cases s with
  | nil => simp at hentry
  | cons top below =>
    obtain rfl : top = entry := by simpa using hentry
    have hnode := Climbs.of_closeAll (s := below) h
    exact hnode.2.2.2

/-- The tree on top of a stack may be replaced by one that is tighter than the operator that waits for it. -/
theorem Climbs.replace (h : (closeAll s t).Climbs level) (ht' : t'.Climbs level)
    (htop : ∀ entry ∈ s.head?, t'.AtLeast level (level entry.2 + 1)) : (closeAll s t').Climbs level := by
  induction s generalizing t t' with
  | nil => exact ht'
  | cons entry below ih =>
    have hnode := Climbs.of_closeAll (s := below) h
    refine ih h ⟨hnode.1, ht', hnode.2.2.1, htop entry rfl⟩ ?_
    exact Climbs.topBelow (s := below) h

/-- An operator that is tighter than the ones that wait, and not tighter than the tree on top, takes that tree as its
left operand. -/
theorem Climbs.push (h : (closeAll s t).Climbs level) (hroot : t.AtLeast level (level op))
    (htop : TopBelow level (level op) s) : (closeAll ((t, op) :: s) (leaf a)).Climbs level :=
  h.replace ⟨h.of_closeAll, trivial, hroot, trivial⟩ htop

theorem first_closeAll (hfirst : t'.first = t.first) : (closeAll s t').first = (closeAll s t).first := by
  induction s generalizing t t' with
  | nil => exact hfirst
  | cons entry below ih =>
    have hnode : (node entry.2 entry.1 t').first = (node entry.2 entry.1 t).first := rfl
    exact ih hnode

theorem rest_closeAll {more : List (ω × α)} (hfirst : t'.first = t.first) (hrest : t'.rest = t.rest ++ more) :
    (closeAll s t').rest = (closeAll s t).rest ++ more := by
  induction s generalizing t t' with
  | nil => exact hrest
  | cons entry below ih =>
    have hnode : (node entry.2 entry.1 t').first = (node entry.2 entry.1 t).first := rfl
    apply ih hnode
    simp [rest, hfirst, hrest]

/-- Pushing extends the sequence by the operator and its operand. -/
theorem rest_push : (closeAll ((t, op) :: s) (leaf a)).rest = (closeAll s t).rest ++ [(op, a)] :=
  have hfirst : (node op t (leaf a)).first = t.first := rfl
  rest_closeAll hfirst rfl

theorem first_push : (closeAll ((t, op) :: s) (leaf a)).first = (closeAll s t).first :=
  have hfirst : (node op t (leaf a)).first = t.first := rfl
  first_closeAll hfirst

/-- Closing some of the waiting operators leaves the tree of the stack as it is. -/
theorem closeAll_closeWhile : closeAll (closeWhile level n s t).1 (closeWhile level n s t).2 = closeAll s t := by
  induction s generalizing t with
  | nil => rfl
  | cons entry below ih =>
    rw [closeWhile]
    split_ifs
    · exact ih
    · rfl

theorem closeWhile_topBelow : TopBelow level n (closeWhile level n s t).1 := by
  induction s generalizing t with
  | nil => simp [closeWhile, TopBelow]
  | cons entry below ih =>
    rw [closeWhile]
    split_ifs with hle
    · exact ih
    · simpa [TopBelow] using hle

theorem closeWhile_atLeast (ht : t.AtLeast level n) : (closeWhile level n s t).2.AtLeast level n := by
  induction s generalizing t with
  | nil => exact ht
  | cons entry below ih =>
    rw [closeWhile]
    split_ifs with hle
    · exact ih hle
    · exact ht

theorem closeWhile_suffix : (closeWhile level n s t).1 <:+ s := by
  induction s generalizing t with
  | nil => exact List.suffix_refl _
  | cons entry below ih =>
    rw [closeWhile]
    split_ifs
    · exact ih.trans (List.suffix_cons _ _)
    · exact List.suffix_refl _

/-- When every waiting operator is of level `n` or tighter, all are closed. -/
theorem closeWhile_eq_closeAll (h : ∀ entry ∈ s, n ≤ level entry.2) : closeWhile level n s t = ([], closeAll s t) := by
  induction s generalizing t with
  | nil => rfl
  | cons entry below ih =>
    rw [closeWhile, if_pos (h entry (by simp))]
    exact ih fun other hother => h other (List.mem_cons_of_mem _ hother)

end OpTree

end Datara.Library
