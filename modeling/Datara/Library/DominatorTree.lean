import Mathlib.Logic.Function.Basic
import Mathlib.Logic.Relation

/-!
# Dominator trees

A map of immediate dominators over the nodes of a graph, read as a tree that grows from the entry.
Two local facts make it one: ranks go down towards the entry, and the immediate dominator of a node
is an ancestor of every predecessor (`DominatorTree.edge_up`). From them an ancestor of the target
of an edge, other than the target, is an ancestor of its source (`DominatorTree.anc_of_edge`). That
is the form in which dominance is used along a run.
-/

namespace Datara.Library

universe u

/-- `a` is `b`, or an ancestor of `b` in a map of immediate dominators. -/
inductive Anc {α : Type u} (idom : α → Option α) : α → α → Prop
  | refl (a : α) : Anc idom a a
  | up {a p b : α} : idom b = some p → Anc idom a p → Anc idom a b

variable {α : Type u} {idom : α → Option α} {a b c p : α}

theorem Anc.trans (h : Anc idom a b) (h' : Anc idom b c) : Anc idom a c := by
  induction h' with
  | refl => exact h
  | up hp _ ih => exact .up hp ih

/-- An ancestor of `b` other than `b` is one of its parent. -/
theorem Anc.of_parent (h : Anc idom a b) (hp : idom b = some p) (hne : a ≠ b) : Anc idom a p := by
  cases h with
  | refl => exact absurd rfl hne
  | up hq h =>
    cases hp.symm.trans hq
    exact h

/-- The ancestors of a node are above each other. -/
theorem Anc.total (h : Anc idom a c) (h' : Anc idom b c) : Anc idom a b ∨ Anc idom b a := by
  induction h with
  | refl => exact .inr h'
  | up hp h ih =>
    cases h' with
    | refl => exact .inl (.up hp h)
    | up hq h' =>
      cases hp.symm.trans hq
      exact ih h'

/-- A node that is not in the map has no ancestor but itself. -/
theorem Anc.eq_of_none (h : Anc idom a b) (hb : idom b = none) : a = b := by
  cases h with
  | refl => rfl
  | up hp _ =>
    rw [hb] at hp
    cases hp

/-- What a map of immediate dominators keeps while it is being computed: the entry is its own
parent, and every other node's parent is nearer to the entry and in the map as well. -/
structure RankedTree (entry : α) (idom : α → Option α) (rank : α → Nat) : Prop where
  root : idom entry = some entry
  lower : ∀ {b p}, idom b = some p → b ≠ entry → rank p < rank b ∧ (idom p).isSome

namespace RankedTree

variable {entry : α} {rank : α → Nat}

section
variable (T : RankedTree entry idom rank)
include T

theorem eq_entry_of_loop (h : idom b = some b) : b = entry := by
  by_contra hne
  exact absurd (T.lower h hne).1 (Nat.lt_irrefl _)

theorem anc_entry (h : Anc idom a entry) : a = entry := by
  suffices ∀ b, Anc idom a b → b = entry → a = entry from this entry h rfl
  intro b hb
  induction hb with
  | refl => exact id
  | up hp _ ih => exact fun he => ih (Option.some.inj (T.root.symm.trans (he ▸ hp))).symm

theorem entry_anc (h : (idom b).isSome) : Anc idom entry b := by
  induction hk : rank b using Nat.strongRecOn generalizing b with
  | ind k ih =>
    by_cases hb : b = entry
    · exact hb ▸ .refl _
    · obtain ⟨p, hp⟩ := Option.isSome_iff_exists.mp h
      obtain ⟨hlt, hin⟩ := T.lower hp hb
      exact .up hp (ih _ (hk ▸ hlt) hin rfl)

theorem anc_in (h : Anc idom a b) (hb : (idom b).isSome) : (idom a).isSome := by
  induction h with
  | refl => exact hb
  | @up p b hp _ ih =>
    by_cases he : b = entry
    · exact ih (Option.some.inj (T.root.symm.trans (he ▸ hp)) ▸ by rw [T.root]; rfl)
    · exact ih (T.lower hp he).2

theorem rank_le (h : Anc idom a b) : rank a ≤ rank b := by
  induction h with
  | refl => exact Nat.le_refl _
  | @up p b hp _ ih =>
    by_cases he : b = entry
    · subst he
      cases T.root.symm.trans hp
      exact ih
    · exact Nat.le_trans ih (Nat.le_of_lt (T.lower hp he).1)

theorem rank_lt (h : Anc idom a b) (hne : a ≠ b) : rank a < rank b := by
  cases h with
  | refl => exact absurd rfl hne
  | up hp h' =>
    by_cases he : b = entry
    · exact absurd (T.anc_entry (he ▸ .up hp h')) (he ▸ hne)
    · exact Nat.lt_of_le_of_lt (T.rank_le h') (T.lower hp he).1

theorem antisymm (h : Anc idom a b) (h' : Anc idom b a) : a = b := by
  by_contra hne
  exact absurd (T.rank_lt h hne) (Nat.not_lt.mpr (T.rank_le h'))

/-- Entering a node whose parent is in the map and nearer to the entry. -/
theorem insert [DecidableEq α] (hb : b ≠ entry)
    (hin : (idom p).isSome) (hlt : rank p < rank b) :
    RankedTree entry (Function.update idom b (some p)) rank where
  root := by rw [Function.update_of_ne hb.symm]; exact T.root
  lower := by
    intro c q hq hc
    have keep : ∀ x, (idom x).isSome → (Function.update idom b (some p) x).isSome := by
      intro x hx
      by_cases hxb : x = b
      · rw [hxb, Function.update_self]; rfl
      · rwa [Function.update_of_ne hxb]
    by_cases hcb : c = b
    · rw [hcb, Function.update_self] at hq
      cases hq
      exact ⟨hcb ▸ hlt, keep _ hin⟩
    · rw [Function.update_of_ne hcb] at hq
      exact ⟨(T.lower hq hc).1, keep _ (T.lower hq hc).2⟩

end

end RankedTree

/-- A finished map: the parent of a node is an ancestor of all predecessors in the map, and one of
them is nearer to the entry. -/
structure DominatorTree (edge : α → α → Prop) (entry : α) (idom : α → Option α) (rank : α → Nat) :
    Prop extends RankedTree entry idom rank where
  edge_up : ∀ {p b}, (idom p).isSome → edge p b → b ≠ entry → ∃ d, idom b = some d ∧ Anc idom d p
  pred : ∀ {b}, (idom b).isSome → b ≠ entry → ∃ p, (idom p).isSome ∧ edge p b ∧ rank p < rank b

namespace DominatorTree

variable {edge : α → α → Prop} {entry : α} {rank : α → Nat}

section
variable (T : DominatorTree edge entry idom rank)
include T

theorem closed (hp : (idom p).isSome) (h : edge p b) :
    (idom b).isSome := by
  by_cases hb : b = entry
  · rw [hb, T.root]; rfl
  · obtain ⟨d, hd, _⟩ := T.edge_up hp h hb
    rw [hd]; rfl

/-- The map holds the nodes that the entry leads to. -/
theorem isSome_iff :
    (idom b).isSome ↔ Relation.ReflTransGen edge entry b := by
  constructor
  · intro hb
    induction hk : rank b using Nat.strongRecOn generalizing b with
    | ind k ih =>
      subst hk
      by_cases he : b = entry
      · exact he ▸ .refl
      · obtain ⟨p, hp, hedge, hlt⟩ := T.pred hb he
        exact (ih _ hlt hp rfl).tail hedge
  · intro hb
    induction hb with
    | refl => rw [T.root]; rfl
    | tail _ hedge ih => exact T.closed ih hedge

/-- **Dominance along an edge**: an ancestor of the target, other than the target, is an ancestor of
the source. -/
theorem anc_of_edge (hp : (idom p).isSome)
    (h : edge p b) (ha : Anc idom a b) (hne : a ≠ b) : Anc idom a p := by
  by_cases hb : b = entry
  · exact absurd (T.anc_entry (hb ▸ ha)) (hb ▸ hne)
  · obtain ⟨d, hd, hdp⟩ := T.edge_up hp h hb
    exact (ha.of_parent hd hne).trans hdp

/-- A node is no ancestor of its only predecessor. -/
theorem not_anc_of_sole (hb : (idom b).isSome)
    (hne : b ≠ entry) (hsole : ∀ q, edge q b → q = p) : ¬Anc idom b p := by
  intro h
  obtain ⟨q, _, hq, hlt⟩ := T.pred hb hne
  rw [hsole q hq] at hlt
  exact absurd (T.rank_le h) (Nat.not_le.mpr hlt)

end

end DominatorTree

end Datara.Library
