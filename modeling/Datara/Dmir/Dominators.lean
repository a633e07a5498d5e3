import Datara.Dmir.Frontiers
import Datara.Dmir.VerifierSound

/-!
# Acceptance, by paths

What `verify_function` accepts, with the dominators it computes replaced by what they are: a value may be used in
another block when the entry reaches that block, by paths through the defining block only (`accepts_iff`). A pass
that changes the graph is accepted by an argument about paths; the fixpoint need not be run again.
-/

namespace Datara.Dmir

open Library

/-- A block is reached, and by paths through another only. -/
structure Function.Dominates (f : Function) (a b : BasicBlockId) : Prop where
  reaches : f.Reaches b
  through : ¬Avoids (Cfg.Edge f) f.entryBlock a b

theorem Function.dominates_congr {f f' : Function} (he : f'.entryBlock = f.entryBlock)
    (hs : Cfg.successors f' = Cfg.successors f) : f'.Dominates = f.Dominates := by
  have hedge : Cfg.Edge f' = Cfg.Edge f := by
    funext p b
    rw [Cfg.Edge, Cfg.Edge, hs]
  have hreaches : f'.Reaches = f.Reaches := by
    funext b
    rw [Function.Reaches, Function.Reaches, he, hs]
  funext a b
  refine propext ⟨fun h => ⟨hreaches ▸ h.reaches, ?_⟩, fun h => ⟨hreaches ▸ h.reaches, ?_⟩⟩
  · rw [← hedge, ← he]
    exact h.through
  · rw [hedge, he]
    exact h.through

/-- The values that the verifier lists for a block. -/
def Function.definedBy (f : Function) (b : BasicBlock) : List ValueId :=
  (b.params.filter fun p => !f.mirrors b p).map (·.val) ++ destsOf b.instructions

theorem defs_keys (f : Function) : f.defs.map (·.1) = f.params.map (·.val) ++ f.blocks.flatMap f.definedBy := by
  have hblock : ∀ b, (f.blockDefs b).map (·.1) = f.definedBy b := by
    intro b
    simp only [Function.blockDefs, Function.definedBy, List.map_append, List.map_map, instDefs_keys]
    rfl
  simp only [Function.defs, List.map_append, List.map_map, List.map_flatMap, hblock]
  rfl

/-- What the verifier demands of a function. -/
structure WellFormed (f : Function) : Prop where
  ids : (f.blocks.map (·.id)).Nodup
  entry : f.entryBlock ∈ f.blocks.map (·.id)
  once : (f.defs.map (·.1)).Nodup
  uses : ∀ b ∈ f.blocks, ∀ before i after, b.instructions = before ++ i :: after →
    ∀ v ∈ instructionUses i, Available f f.Dominates b before v
  termUses : ∀ b ∈ f.blocks, ∀ v ∈ b.terminator.vids, Available f f.Dominates b b.instructions v
  edges : ∀ b ∈ f.blocks, EdgesOk f b.terminator

section
variable {f : Function} {n : Nat} {idom : Cfg.Idom} {a b : BasicBlockId}

theorem Verified.isSome_iff (V : Verified n f idom) : (idom b).isSome ↔ f.Reaches b := by
  obtain ⟨rank, T⟩ := V.tree
  exact T.isSome_iff

theorem Cfg.isSome_of_dominates (h : Cfg.dominates n idom a b = some true) (hne : a ≠ b) : (idom b).isSome := by
  rw [Cfg.dominates, if_neg hne] at h
  cases n with
  | zero => cases h
  | succ n =>
    cases hb : idom b with
    | none =>
      simp only [Cfg.dominatesFrom, hb] at h
      cases h
    | some p => rfl

theorem Verified.dominates_of_computed (V : Verified n f idom) (h : Cfg.dominates n idom a b = some true)
    (hne : a ≠ b) : f.Dominates a b := by
  obtain ⟨rank, T⟩ := V.tree
  exact ⟨V.isSome_iff.mp (Cfg.isSome_of_dominates h hne), T.not_avoids (Cfg.anc_of_dominates h)⟩

theorem Verified.dominates_iff_anc (V : Verified n f idom) : f.Dominates a b ↔ (idom b).isSome ∧ Anc idom a b := by
  obtain ⟨rank, T⟩ := V.tree
  constructor
  · intro h
    obtain ⟨m, idom', rank', node, hcompute, O, H, R, -⟩ := Cfg.computeDominance_total f V.blocks_ne_nil
    obtain rfl := Cfg.computeDominance_unique V.dominance hcompute
    have hb := V.isSome_iff.mpr h.reaches
    exact ⟨hb, (R.anc_iff H O (R.keys hb)).mpr h.through⟩
  · rintro ⟨hb, h⟩
    exact ⟨V.isSome_iff.mp hb, T.not_avoids h⟩

theorem Available.mono_of_ne {dom dom' : BasicBlockId → BasicBlockId → Prop} {b : BasicBlock} {before : List Inst}
    {v : ValueId} (h : Available f dom b before v) (hd : ∀ c, c ≠ b.id → dom c b.id → dom' c b.id) :
    Available f dom' b before v := by
  obtain h | h | ⟨c, hc, hne, hv, h⟩ := h
  · exact .inl h
  · exact .inr (.inl h)
  · exact .inr (.inr ⟨c, hc, hne, hv, hd _ hne h⟩)

theorem Verified.wellFormed (V : Verified n f idom) : WellFormed f where
  ids := V.ids
  entry := V.entry
  once := V.once
  uses := fun b hb before i after hi v hv =>
    (V.uses b hb before i after hi v hv).mono_of_ne fun _ hne h => V.dominates_of_computed h hne
  termUses := fun b hb v hv => (V.termUses b hb v hv).mono_of_ne fun _ hne h => V.dominates_of_computed h hne
  edges := V.edges

theorem WellFormed.verified (W : WellFormed f) : ∃ n idom, Verified n f idom := by
  have hne : f.blocks ≠ [] := by
    intro h
    have := W.entry
    rw [h] at this
    cases this
  obtain ⟨n, idom, rank, node, hcompute, O, H, R, hn⟩ := Cfg.computeDominance_total f hne
  have hdom : ∀ c b, f.Dominates c b → Cfg.dominates n idom c b = some true := by
    intro c b h
    have hb : node b := O.of_reaches h.reaches
    obtain ⟨v, hv, hiff⟩ := Cfg.dominates_iff_anc (a := c) R.tree (R.isSome_iff.mpr hb) (hn b hb)
    rw [hv, hiff.mpr ((R.anc_iff H O hb).mpr h.through)]
  exact ⟨n, idom, W.ids, W.entry, W.once, hcompute,
    fun b hb before i after hi v hv => (W.uses b hb before i after hi v hv).mono (hdom · ·) fun _ => id,
    fun b hb v hv => (W.termUses b hb v hv).mono (hdom · ·) fun _ => id, W.edges⟩

/-- **Acceptance, by paths.** -/
theorem accepts_iff : Accepts f ↔ WellFormed f := by
  constructor
  · rintro ⟨n, hn⟩
    obtain ⟨idom, V⟩ := verifyFunction_ok_iff_verified.mp hn
    exact V.wellFormed
  · intro W
    obtain ⟨n, idom, V⟩ := W.verified
    exact ⟨n, verifyFunction_ok_iff_verified.mpr ⟨idom, V⟩⟩

end

/-- **The verifier decides strictness by paths.** It accepts exactly the functions with distinct blocks, an entry among
them, one definition of each value and edges that fit, where each operand is defined at the head of its block, before
it in the block, or in a block on every path from the entry. The last does not count where the entry does not reach. -/
theorem verifyFunction_exact (f : Function) : Accepts f ↔
    (f.blocks.map (·.id)).Nodup ∧ f.entryBlock ∈ f.blocks.map (·.id) ∧ (f.defs.map (·.1)).Nodup ∧
      ∀ b ∈ f.blocks, EdgesOk f b.terminator ∧ ∀ before after v, b.instructions = before ++ after →
        v ∈ after.head?.elim b.terminator.vids instructionUses →
        Available f (fun c d => f.Reaches d ∧ Cfg.OnEveryPath f c d) b before v := by
  have hdom : f.Dominates = fun c d => f.Reaches d ∧ Cfg.OnEveryPath f c d := by
    funext c d
    exact propext ⟨fun h => ⟨h.reaches, not_avoids_iff.mp h.through⟩, fun h => ⟨h.1, not_avoids_iff.mpr h.2⟩⟩
  rw [accepts_iff, ← hdom]
  constructor
  · intro W
    refine ⟨W.ids, W.entry, W.once, fun b hb => ⟨W.edges b hb, fun before after v hi hv => ?_⟩⟩
    cases after with
    | nil =>
      obtain rfl := (List.append_nil before).symm.trans hi.symm
      exact W.termUses b hb v hv
    | cons i after => exact W.uses b hb before i after hi v hv
  · rintro ⟨hids, hentry, honce, hblocks⟩
    exact ⟨hids, hentry, honce, fun b hb before i after hi v hv => (hblocks b hb).2 before (i :: after) v hi hv,
      fun b hb v hv => (hblocks b hb).2 b.instructions [] v (List.append_nil _).symm hv, fun b hb => (hblocks b hb).1⟩

end Datara.Dmir
