import Mathlib.Data.List.Basic

/-!
# Walks that carry the names in scope

A tree whose nodes have operands, each under some names that come into scope on the way to it. `Reach`
follows operands and collects the names. A pass over the tree threads a state with the names it holds
for declared; what it gathers is compared with what the nodes yield under the names on the way to them
(`Gathers`), and the lemmas here compose passes as a recursion over the tree composes them.
-/

namespace Datara.Library

universe u v w x

/-- An operand of a node and the names that come into scope on the way to it. -/
structure Operand (κ : Type u) (ν : Type v) where
  binds : List κ
  node : ν

variable {κ : Type u} {ν : Type v} {σ : Type w} {Ω : Type x}

/-- The operand with more names on the way to it. -/
def Operand.under (names : List κ) (o : Operand κ ν) : Operand κ ν := ⟨o.binds ++ names, o.node⟩

/-- A node is reached from another along operands, under the names on the way. -/
inductive Reach (parts : ν → List (Operand κ ν)) : ν → List κ → ν → Prop
  | refl (n) : Reach parts n [] n
  | head {n p binds m} : p ∈ parts n → Reach parts p.node binds m →
    Reach parts n (binds ++ p.binds) m

theorem Reach.single {parts : ν → List (Operand κ ν)} {n : ν} {p : Operand κ ν} (h : p ∈ parts n) :
    Reach parts n p.binds p.node :=
  .head h (.refl _)

/-- What a pass `f` over some operands has to do with what their nodes yield: it keeps what it has,
ends with the names in `leak` added to its names, and has what every node reached yields under the names
on the way to it. -/
structure Gathers (parts : ν → List (Operand κ ν)) (names : σ → List κ) (out : σ → Ω → Prop)
    (yields : (κ → Prop) → ν → Ω → Prop) (ps : List (Operand κ ν)) (leak : List κ)
    (f : σ → σ) : Prop where
  keeps : ∀ s o, out s o → out (f s) o
  leaves : ∀ s a, a ∈ names (f s) ↔ a ∈ leak ∨ a ∈ names s
  finds : ∀ s, ∀ p ∈ ps, ∀ binds m, Reach parts p.node binds m → ∀ o,
    yields (fun a => a ∈ binds ∨ a ∈ p.binds ∨ a ∈ names s) m o → out (f s) o

namespace Gathers

variable {parts : ν → List (Operand κ ν)} {names : σ → List κ} {out : σ → Ω → Prop}
  {yields : (κ → Prop) → ν → Ω → Prop} {ps qs : List (Operand κ ν)} {leak leak' : List κ}
  {f g : σ → σ}

theorem nothing : Gathers parts names out yields [] [] fun s => s where
  keeps _ _ h := h
  leaves _ _ := by simp
  finds _ _ h := absurd h List.not_mem_nil

/-- A pass that goes through no operand. -/
theorem of_frame (hout : ∀ s o, out s o → out (f s) o)
    (hnames : ∀ s a, a ∈ names (f s) ↔ a ∈ leak ∨ a ∈ names s) :
    Gathers parts names out yields [] leak f where
  keeps := hout
  leaves := hnames
  finds _ _ h := absurd h List.not_mem_nil

theorem comp (hg : Gathers parts names out yields qs leak' g)
    (hf : Gathers parts names out yields ps leak f) :
    Gathers parts names out yields (ps ++ qs.map (Operand.under leak)) (leak' ++ leak)
      fun s => g (f s) where
  keeps s o h := hg.keeps _ o (hf.keeps s o h)
  leaves s a := by rw [hg.leaves, hf.leaves, List.mem_append, or_assoc]
  finds s p hp binds m hreach o hy := by
    obtain hp | hp := List.mem_append.mp hp
    · exact hg.keeps _ o (hf.finds s p hp binds m hreach o hy)
    · obtain ⟨q, hq, rfl⟩ := List.mem_map.mp hp
      apply hg.finds (f s) q hq binds m hreach o
      have hsame : (fun a => a ∈ binds ∨ a ∈ q.binds ∨ a ∈ names (f s)) =
          fun a => a ∈ binds ∨ a ∈ (q.under leak).binds ∨ a ∈ names s := by
        ext a
        simp only [hf.leaves, Operand.under, List.mem_append, or_assoc]
      exact hsame ▸ hy

theorem after (hg : Gathers parts names out yields qs leak' g)
    (hf : Gathers parts names out yields ps [] f) :
    Gathers parts names out yields (ps ++ qs) leak' fun s => g (f s) := by
  have hsame : qs.map (Operand.under ([] : List κ)) = qs := by
    conv_rhs => rw [← List.map_id qs]
    apply List.map_congr_left
    intro q _
    simp [Operand.under]
  have h := hg.comp hf
  rwa [hsame, List.append_nil] at h

/-- A pass whose names are put back afterwards leaves none. -/
theorem restore (hf : Gathers parts names out yields ps leak f)
    (hout : ∀ s o, out (g s) o ↔ out (f s) o) (hnames : ∀ s, names (g s) = names s) :
    Gathers parts names out yields ps [] g where
  keeps s o h := (hout s o).mpr (hf.keeps s o h)
  leaves s a := by rw [hnames]; simp
  finds s p hp binds m hreach o hy := (hout s o).mpr (hf.finds s p hp binds m hreach o hy)

theorem node {n : ν} (hf : Gathers parts names out yields (parts n) leak f)
    (hown : ∀ s o, yields (fun a => a ∈ names s) n o → out (f s) o) :
    Gathers parts names out yields [⟨[], n⟩] leak f where
  keeps := hf.keeps
  leaves := hf.leaves
  finds s p hp binds m hreach o hy := by
    obtain rfl := List.mem_singleton.mp hp
    cases hreach with
    | refl =>
      apply hown s o
      simpa using hy
    | @head _ q binds' _ hq hrest =>
      apply hf.finds s q hq binds' m hrest o
      have hsame : (fun a => a ∈ binds' ++ q.binds ∨ a ∈ ([] : List κ) ∨ a ∈ names s) =
          fun a => a ∈ binds' ∨ a ∈ q.binds ∨ a ∈ names s := by
        ext a
        simp [or_assoc]
      exact hsame ▸ hy

end Gathers

end Datara.Library
