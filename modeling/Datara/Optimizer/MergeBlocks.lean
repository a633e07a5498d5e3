import Datara.Optimizer.IfConversion
import Datara.Dmir.Substitute
import Mathlib.Data.List.Perm.Basic

/-!
# Block merging

`Optimizer::merge_blocks` of `optimizer/mod.rs`. The first branch along which the only edge into a block comes is
found; the block is taken out of the function, the arguments of the branch are put in the place of its parameters
everywhere, and its code goes behind that of the branching block.
-/

namespace Datara.Optimizer

open Dmir

/-- A branch to merge along: the position of its block, its target and its arguments. -/
structure Merge where
  pos : Nat
  target : BasicBlockId
  args : List ValueId
  deriving DecidableEq, Repr

/-- The branch at the end of a block, if its target can be merged into the block. -/
def mergeAt (f : Function) (b : BasicBlock × Nat) : Option Merge :=
  match b.1.terminator with
  | .branch target args =>
    if target ≠ b.1.id ∧ target ≠ f.entryBlock ∧ predCount f target = 1 then
      match f.blocks.find? (·.id = target) with
      | some t => if t.params.length = args.length then some ⟨b.2, target, args⟩ else none
      | none => none
    else none
  | _ => none

/-- The first such branch. -/
def mergeCandidate (f : Function) : Option Merge := f.blocks.zipIdx.findSome? (mergeAt f)

/-- The parameters of the target, with the arguments in their places. -/
def mergeSubst (params : List BlockParam) (args : List ValueId) : Subst :=
  .ofPairs ((params.map (·.val)).zip args)

/-- The operands of a block, replaced. -/
def substituteBlock (subst : Subst) (b : BasicBlock) : BasicBlock :=
  { b with
    instructions := b.instructions.map (substituteOperands subst)
    terminator := substituteTerminator subst b.terminator }

/-- The code of a block behind that of another. -/
def appendBlock (t a : BasicBlock) : BasicBlock :=
  { a with instructions := a.instructions ++ t.instructions, terminator := t.terminator }

/-- `Optimizer::merge_blocks`: the function, and whether it changed. -/
def mergeBlocks (f : Function) : Function × Bool :=
  if f.blocks.length ≤ 1 then (f, false)
  else
    match mergeCandidate f with
    | none => (f, false)
    | some m =>
      let targetPos := f.blocks.findIdx (·.id = m.target)
      match f.blocks[targetPos]? with
      | none => (f, false)
      | some target =>
        let subst := mergeSubst target.params m.args
        let blocks := (f.blocks.eraseIdx targetPos).map (substituteBlock subst)
        let pos := if targetPos < m.pos then m.pos - 1 else m.pos
        ({ f with blocks := blocks.modify pos (appendBlock (substituteBlock subst target)) }, true)

/-! ## What was found -/

/-- A branch along which the only edge into a block comes. -/
structure Merges (f : Function) (a t : BasicBlock) (args : List ValueId) : Prop where
  source : a ∈ f.blocks
  target : t ∈ f.blocks
  terminator : a.terminator = .branch t.id args
  ne : t.id ≠ a.id
  notEntry : t.id ≠ f.entryBlock
  sole : predCount f t.id = 1
  length : t.params.length = args.length

/-- The block that both become. -/
def mergedBlock (a t : BasicBlock) (args : List ValueId) : BasicBlock :=
  appendBlock (substituteBlock (mergeSubst t.params args) t) (substituteBlock (mergeSubst t.params args) a)

section
variable {f : Function} {b : BasicBlock} {k : Nat} {m : Merge}

theorem mergeAt_eq_some (h : mergeAt f (b, k) = some m) :
    m.pos = k ∧ b.terminator = .branch m.target m.args ∧ m.target ≠ b.id ∧ m.target ≠ f.entryBlock ∧
      predCount f m.target = 1 ∧
      ∃ t, f.blocks.find? (·.id = m.target) = some t ∧ t.params.length = m.args.length := by
  unfold mergeAt at h
  split at h
  case h_1 target args hterm =>
    split_ifs at h with hcond
    split at h
    case h_1 t ht =>
      split_ifs at h with hlen
      cases h
      exact ⟨rfl, hterm, hcond.1, hcond.2.1, hcond.2.2, t, ht, hlen⟩
    case h_2 => cases h
  case h_2 => cases h

theorem find?_eq_getElem?_findIdx {α : Type} (p : α → Bool) (l : List α) : l.find? p = l[l.findIdx p]? := by
  induction l with
  | nil => rfl
  | cons x l ih =>
    rw [List.find?_cons, List.findIdx_cons]
    cases p x with
    | true => rfl
    | false => exact ih

theorem map_modify_of_eq {α β : Type} {g : α → β} {h : α → α} (hg : ∀ x, g (h x) = g x) (l : List α) (k : Nat) :
    (l.modify k h).map g = l.map g := by
  apply List.ext_getElem?
  intro j
  rw [List.getElem?_map, List.getElem?_modify, List.getElem?_map]
  cases l[j]? with
  | none => rfl
  | some x =>
    show some (g (if k = j then h x else x)) = some (g x)
    split_ifs
    · rw [hg]
    · rfl

theorem perm_eraseIdx_modify {α : Type} {l : List α} {i j : Nat} {x y : α} (g h : α → α) (hi : l[i]? = some x)
    (hj : l[j]? = some y) (hne : j ≠ i) :
    ∃ rest, l.Perm (y :: x :: rest) ∧
      (((l.eraseIdx i).map g).modify (if i < j then j - 1 else j) h).Perm (h (g y) :: rest.map g) := by
  have hlt : i < l.length := (List.getElem?_eq_some_iff.mp hi).1
  have hy : (l.eraseIdx i)[if i < j then j - 1 else j]? = some y := by
    rw [List.getElem?_eraseIdx]
    split_ifs with hij hlt' hlt'
    · omega
    · rw [Nat.sub_add_cancel (by omega)]
      exact hj
    · exact hj
    · omega
  generalize (if i < j then j - 1 else j) = p at hy
  obtain ⟨hp, hget⟩ := List.getElem?_eq_some_iff.mp hy
  refine ⟨(l.eraseIdx i).eraseIdx p, ?_, ?_⟩
  · have h₁ := List.getElem_cons_eraseIdx_perm hlt
    rw [(List.getElem?_eq_some_iff.mp hi).2] at h₁
    have h₂ := List.getElem_cons_eraseIdx_perm hp
    rw [hget] at h₂
    exact h₁.symm.trans ((h₂.symm.cons x).trans (.swap y x _))
  · have hp' : p < ((l.eraseIdx i).map g).length := by rwa [List.length_map]
    have hset := List.set_perm_cons_eraseIdx hp' (h (((l.eraseIdx i).map g).get ⟨p, hp'⟩))
    rw [← List.modify_eq_set_get h hp', List.eraseIdx_map, List.get_eq_getElem, List.getElem_map, hget] at hset
    exact hset

/-- **What the pass does**: nothing, or it merges along a branch. -/
theorem mergeBlocks_cases (f : Function) :
    mergeBlocks f = (f, false) ∨
      ∃ a t args rest, Merges f a t args ∧ f.blocks.Perm (a :: t :: rest) ∧ (mergeBlocks f).2 = true ∧
        ∃ bs, (mergeBlocks f).1 = { f with blocks := bs } ∧
          bs.Perm (mergedBlock a t args :: rest.map (substituteBlock (mergeSubst t.params args))) ∧
          ∃ k, f.blocks[k]? = some t ∧ bs.map (·.id) = (f.blocks.map (·.id)).eraseIdx k := by
  unfold mergeBlocks
  split_ifs with hlen
  · exact .inl rfl
  · split
    case h_1 => exact .inl rfl
    case h_2 m hm =>
      obtain ⟨⟨a, k⟩, hak, hm⟩ := List.exists_of_findSome?_eq_some hm
      obtain ⟨rfl, hterm, hne, hentry, hsole, t, ht, hargs⟩ := mergeAt_eq_some hm
      have hak := List.mk_mem_zipIdx_iff_getElem?.mp hak
      have hid : t.id = m.target := by simpa using List.find?_some ht
      have hpos : f.blocks[f.blocks.findIdx (·.id = m.target)]? = some t := by
        rw [← find?_eq_getElem?_findIdx]
        exact ht
      right
      simp only [hpos]
      have hposne : m.pos ≠ f.blocks.findIdx (·.id = m.target) := by
        intro he
        rw [he, hpos] at hak
        exact hne (Option.some.inj hak ▸ hid.symm)
      obtain ⟨rest, hperm, hperm'⟩ := perm_eraseIdx_modify (substituteBlock (mergeSubst t.params m.args))
        (appendBlock (substituteBlock (mergeSubst t.params m.args) t)) hpos hak hposne
      refine ⟨a, t, m.args, rest, ⟨List.mem_of_getElem? hak, List.mem_of_getElem? hpos, ?_, ?_, ?_, ?_, hargs⟩, hperm,
        trivial, _, rfl, hperm', _, hpos, ?_⟩
      · rw [hid]
        exact hterm
      · rw [hid]
        exact hne
      · rw [hid]
        exact hentry
      · rw [hid]
        exact hsole
      · have hids : ∀ x, (appendBlock (substituteBlock (mergeSubst t.params m.args) t) x).id = x.id := fun _ => rfl
        rw [map_modify_of_eq hids, List.map_map, List.eraseIdx_map]
        rfl

end

end Datara.Optimizer
