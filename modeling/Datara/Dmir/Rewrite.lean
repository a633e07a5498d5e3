import Datara.Dmir.Provenance
import Datara.Dmir.Availability

/-!
# Rewriting instruction lists

A pass that leaves every block its head and its terminator (`Function.mapCode`) leaves the
control-flow graph alone: the dominators are computed the same way, edges keep their arity, and the
verifier accepts the result when the new definitions are among the old ones and every use is still
of an available value (`Verified.mapCode`).
-/

namespace Datara.Dmir

open Library

/-- The block with other instructions. -/
def BasicBlock.withCode (b : BasicBlock) (is : List Inst) : BasicBlock := { b with instructions := is }

/-- The function with the instructions of each block replaced. -/
def Function.mapCode (f : Function) (g : BasicBlock → List Inst) : Function :=
  { f with blocks := f.blocks.map fun b => b.withCode (g b) }

section
variable {f : Function} {g : BasicBlock → List Inst} {b : BasicBlock} {v : ValueId}

theorem getBlock_mapCode (id : BasicBlockId) :
    (f.mapCode g).getBlock id = (f.getBlock id).map fun b => b.withCode (g b) := by
  have find : (f.blocks.map fun b => b.withCode (g b)).find? (fun b => decide (b.id = id)) =
      (f.blocks.find? fun b => decide (b.id = id)).map fun b => b.withCode (g b) := by
    rw [List.find?_map]
    rfl
  simp only [Function.getBlock, Function.mapCode, List.getElem?_map, find]
  cases hb : f.blocks[id]? with
  | none => rfl
  | some b =>
    simp only [Option.map_some, BasicBlock.withCode]
    split_ifs <;> rfl

theorem mem_mapCode {b' : BasicBlock} : b' ∈ (f.mapCode g).blocks ↔ ∃ b ∈ f.blocks, b' = b.withCode (g b) := by
  simp only [Function.mapCode, List.mem_map, eq_comm]

theorem Cfg.successors_mapCode : Cfg.successors (f.mapCode g) = Cfg.successors f := by
  funext id
  simp only [Cfg.successors, Function.mapCode, List.filter_map, List.flatMap_map]
  rfl

theorem Cfg.predecessors_mapCode : Cfg.predecessors (f.mapCode g) = Cfg.predecessors f := by
  funext id
  simp only [Cfg.predecessors, Function.mapCode, List.flatMap_map]
  rfl

/-- Two functions with the same entry and the same edges have the same dominators. -/
theorem Cfg.passes_congr {f' : Function} (he : f'.entryBlock = f.entryBlock)
    (hp : Cfg.predecessors f' = Cfg.predecessors f) {rank : BasicBlockId → Nat}
    {rpo : List BasicBlockId} {n : Nat} (k : Nat) (idom : Cfg.Idom) :
    Cfg.passes f' rank rpo n k idom = Cfg.passes f rank rpo n k idom := by
  have hrelax : Cfg.relax f' rank n = Cfg.relax f rank n := by
    funext b idom
    simp [Cfg.relax, he, hp]
  have hpass : ∀ bs idom, Cfg.pass f' rank n bs idom = Cfg.pass f rank n bs idom := by
    intro bs
    induction bs with
    | nil => exact fun _ => rfl
    | cons b bs ih =>
      intro idom
      simp [Cfg.pass, hrelax, ih]
  induction k generalizing idom with
  | zero => rfl
  | succ k ih => simp only [Cfg.passes, hpass, ih]

theorem Cfg.computeDominance_congr {f' : Function} (he : f'.entryBlock = f.entryBlock)
    (hb : f'.blocks = [] ↔ f.blocks = []) (hs : Cfg.successors f' = Cfg.successors f)
    (hp : Cfg.predecessors f' = Cfg.predecessors f) (n : Nat) :
    Cfg.computeDominance n f' = Cfg.computeDominance n f := by
  simp [Cfg.computeDominance, hb, he, hs, Cfg.passes_congr he hp]

theorem Cfg.computeDominance_mapCode (n : Nat) :
    Cfg.computeDominance n (f.mapCode g) = Cfg.computeDominance n f := by
  refine Cfg.computeDominance_congr ?_ ?_ Cfg.successors_mapCode Cfg.predecessors_mapCode n
  · rfl
  · simp [Function.mapCode]

theorem edgesOk_mapCode {t : Terminator} (h : EdgesOk f t) : EdgesOk (f.mapCode g) t := by
  have edge : ∀ {id : BasicBlockId} {k : Nat}, (∃ b, f.getBlock id = some b ∧ k = b.params.length) →
      ∃ b, (f.mapCode g).getBlock id = some b ∧ k = b.params.length := by
    rintro id k ⟨b, hb, hk⟩
    exact ⟨b.withCode (g b), by rw [getBlock_mapCode, hb]; rfl, hk⟩
  cases t with
  | branch t args => exact edge h
  | condBranch c t ta e ea => exact ⟨edge h.1, edge h.2⟩
  | ret v => trivial
  | unreachable => trivial

theorem defs_mapCode_sublist
    (h : ∀ b ∈ f.blocks, (destsOf (g b)).Sublist (destsOf b.instructions)) :
    ((f.mapCode g).defs.map (·.1)).Sublist (f.defs.map (·.1)) := by
  have block : ∀ b ∈ f.blocks,
      (((f.mapCode g).blockDefs (b.withCode (g b))).map (·.1)).Sublist
        ((f.blockDefs b).map (·.1)) := by
    intro b hb
    simp only [Function.blockDefs, List.map_append, instDefs_keys]
    exact (List.Sublist.refl _).append (h b hb)
  simp only [Function.defs, List.map_append, List.map_flatMap, Function.mapCode, List.flatMap_map]
  exact (List.Sublist.refl _).append (List.Sublist.flatMap_right _ block)

/-- Acceptance is kept by a rewriting that adds no definition and keeps the definitions in use. -/
theorem Verified.mapCode {n : Nat} {idom : Cfg.Idom} (V : Verified n f idom)
    (hdefs : ∀ b ∈ f.blocks, (destsOf (g b)).Sublist (destsOf b.instructions))
    (huses : ∀ b ∈ f.blocks, ∀ before i after, g b = before ++ i :: after →
      ∀ v ∈ instructionUses i, Available (f.mapCode g)
        (fun d b => Cfg.dominates n idom d b = some true) (b.withCode (g b)) before v)
    (hterm : ∀ b ∈ f.blocks, ∀ v ∈ b.terminator.vids, Available (f.mapCode g)
        (fun d b => Cfg.dominates n idom d b = some true) (b.withCode (g b)) (g b) v) :
    Verified n (f.mapCode g) idom where
  ids := by
    have : (f.mapCode g).blocks.map (·.id) = f.blocks.map (·.id) := by
      simp only [Function.mapCode, List.map_map]
      rfl
    rw [this]
    exact V.ids
  entry := by
    obtain ⟨b, hb, he⟩ := List.mem_map.mp V.entry
    exact List.mem_map.mpr ⟨b.withCode (g b), mem_mapCode.mpr ⟨b, hb, rfl⟩, he⟩
  once := V.once.sublist (defs_mapCode_sublist hdefs)
  dominance := (Cfg.computeDominance_mapCode n).trans V.dominance
  uses := by
    intro b' hb' before i after hi v hv
    obtain ⟨b, hb, rfl⟩ := mem_mapCode.mp hb'
    exact huses b hb before i after hi v hv
  termUses := by
    intro b' hb' v hv
    obtain ⟨b, hb, rfl⟩ := mem_mapCode.mp hb'
    exact hterm b hb v hv
  edges := by
    intro b' hb'
    obtain ⟨b, hb, rfl⟩ := mem_mapCode.mp hb'
    exact edgesOk_mapCode (V.edges b hb)

end

end Datara.Dmir
