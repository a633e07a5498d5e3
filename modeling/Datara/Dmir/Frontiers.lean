import Datara.Dmir.CfgExact

/-!
# Dominance frontiers

`compute_dominance_frontiers` of `dmir/cfg.rs`: from each predecessor of a block where paths meet, up the dominator tree
to the block's immediate dominator. The blocks on the way are those that dominate a predecessor and not the block.
-/

namespace Datara.Dmir.Cfg

open Library

/-- The `while` loop of `compute_dominance_frontiers`: the blocks that `runner` passes before it stops. -/
def frontierWalk (idom : Idom) (entry target : BasicBlockId) : Nat → BasicBlockId → Option (List BasicBlockId)
  | 0, _ => none
  | n + 1, runner =>
    if runner = target ∨ runner = entry then some []
    else
      match idom runner with
      | none => some []
      | some next => if next = runner then some [] else (frontierWalk idom entry target n next).map (runner :: ·)

/-- A loop that adds what it finds for each element. -/
def gather {α β : Type} (find : α → Option (List β)) (l : List α) : Option (List β) :=
  l.foldlM (fun found x => (find x).map (found ++ ·)) []

/-- The loop over the predecessors of a block, which enters `b` in the frontiers of the blocks passed. -/
def frontierOf (n : Nat) (f : Function) (idom : Idom) (b : BasicBlockId) :
    Option (List (BasicBlockId × BasicBlockId)) :=
  gather (fun p => (frontierWalk idom f.entryBlock ((idom b).getD b) n p).map (·.map (·, b))) (predecessors f b)

/-- `compute_dominance_frontiers`: the pairs of a block and a member of its frontier. -/
def dominanceFrontiers (n : Nat) (f : Function) (idom : Idom) : Option (List (BasicBlockId × BasicBlockId)) :=
  gather (fun b => if 2 ≤ (predecessors f b).length then frontierOf n f idom b else some []) (f.blocks.map (·.id))

/-- The dominance frontiers of `ControlFlowGraph::build`. -/
def frontiers (n : Nat) (f : Function) : Option (List (BasicBlockId × BasicBlockId)) :=
  (computeDominance n f).bind (dominanceFrontiers n f)

theorem gather_spec {α β : Type} {find : α → Option (List β)} {l : List α} (h : ∀ x ∈ l, ∃ found, find x = some found) :
    ∃ out, gather find l = some out ∧ ∀ y, y ∈ out ↔ ∃ x ∈ l, ∃ found, find x = some found ∧ y ∈ found := by
  suffices ∀ start : List β, ∃ out, l.foldlM (fun found x => (find x).map (found ++ ·)) start = some out ∧
      ∀ y, y ∈ out ↔ y ∈ start ∨ ∃ x ∈ l, ∃ found, find x = some found ∧ y ∈ found by
    simpa [gather] using this []
  intro start
  induction l generalizing start with
  | nil => exact ⟨start, rfl, fun y => by simp⟩
  | cons x l ih =>
    obtain ⟨⟨found, hfound⟩, hrest⟩ := List.forall_mem_cons.mp h
    obtain ⟨out, hout, hmem⟩ := ih hrest (start ++ found)
    refine ⟨out, ?_, fun y => ?_⟩
    · rw [List.foldlM_cons, hfound]
      exact hout
    · simp [hmem, hfound, or_assoc]

variable {f : Function} {idom : Idom} {rank : BasicBlockId → Nat} {a b d p entry : BasicBlockId} {n : Nat}

/-- **What the walk passes**: on the way up to an ancestor `d`, the ancestors that are not above `d` as well. -/
theorem frontierWalk_spec (T : RankedTree entry idom rank) (hp : (idom p).isSome) (hd : Anc idom d p)
    (hn : rank p < n) :
    ∃ out, frontierWalk idom entry d n p = some out ∧ ∀ a, a ∈ out ↔ Anc idom a p ∧ ¬Anc idom a d := by
  induction n generalizing p with
  | zero => exact absurd hn (Nat.not_lt_zero _)
  | succ n ih =>
    by_cases hpd : p = d
    · exact ⟨[], if_pos (.inl hpd), fun a => by simp [hpd]⟩
    · have he : p ≠ entry := by
        rintro rfl
        exact hpd (T.anc_entry hd).symm
      obtain ⟨q, hq⟩ := Option.isSome_iff_exists.mp hp
      obtain ⟨hlt, hin⟩ := T.lower hq he
      have hqp : q ≠ p := fun h => absurd hlt (h ▸ Nat.lt_irrefl _)
      obtain ⟨out, hout, hmem⟩ := ih hin (hd.of_parent hq (Ne.symm hpd)) (by omega)
      refine ⟨p :: out, ?_, fun a => ?_⟩
      · simp [frontierWalk, if_neg (not_or.mpr ⟨hpd, he⟩), hq, if_neg hqp, hout]
      · rw [List.mem_cons, hmem]
        constructor
        · rintro (rfl | ⟨ha, hnot⟩)
          · exact ⟨.refl _, fun h => hpd (T.antisymm h hd)⟩
          · exact ⟨.up hq ha, hnot⟩
        · rintro ⟨ha, hnot⟩
          by_cases hap : a = p
          · exact .inl hap
          · exact .inr ⟨ha.of_parent hq hap, hnot⟩

theorem frontierWalk_none (hp : idom p = none) : frontierWalk idom entry d (n + 1) p = some [] := by
  simp only [frontierWalk, hp]
  split_ifs <;> rfl

/-- The frontiers that a block is entered in: of what dominates a predecessor and is not above its parent. -/
theorem frontierOf_spec (T : DominatorTree (Edge f) f.entryBlock idom rank)
    (hrank : ∀ b, (idom b).isSome → rank b < n) (hpos : 0 < n) : ∃ out, frontierOf n f idom b = some out ∧
      ∀ a c, (a, c) ∈ out ↔ c = b ∧ ∃ p, Edge f p b ∧ (idom p).isSome ∧ Anc idom a p ∧
        ∀ d, idom b = some d → ¬Anc idom a d := by
  have hwalk : ∀ p ∈ predecessors f b, ∃ out, frontierWalk idom f.entryBlock ((idom b).getD b) n p = some out ∧
      ∀ a, a ∈ out ↔ (idom p).isSome ∧ Anc idom a p ∧ ∀ d, idom b = some d → ¬Anc idom a d := by
    intro p hp
    cases hin : idom p with
    | none =>
      obtain ⟨k, rfl⟩ : ∃ k, n = k + 1 := ⟨n - 1, by omega⟩
      exact ⟨[], frontierWalk_none hin, fun a => by simp⟩
    | some q =>
      have hsome : (idom p).isSome := by rw [hin]; rfl
      obtain ⟨d, hd, hdp⟩ : ∃ d, idom b = some d ∧ Anc idom d p := by
        by_cases hb : b = f.entryBlock
        · exact ⟨_, hb ▸ T.root, T.entry_anc hsome⟩
        · exact T.edge_up hsome (mem_predecessors.mp hp) hb
      obtain ⟨out, hout, hmem⟩ := frontierWalk_spec T.toRankedTree hsome hdp (hrank p hsome)
      refine ⟨out, by rw [hd]; exact hout, fun a => ?_⟩
      simp [hmem, hd]
  obtain ⟨out, hout, hmem⟩ := @gather_spec _ _
    (fun p => (frontierWalk idom f.entryBlock ((idom b).getD b) n p).map (·.map (·, b))) (predecessors f b)
    fun p hp => (hwalk p hp).elim fun passed h => ⟨_, by rw [h.1]; rfl⟩
  refine ⟨out, hout, fun a c => (hmem _).trans ?_⟩
  constructor
  · rintro ⟨p, hp, ys, hys, hy⟩
    obtain ⟨passed, hpassed, hspec⟩ := hwalk p hp
    rw [hpassed] at hys
    cases hys
    obtain ⟨x, hx, heq⟩ := List.mem_map.mp hy
    obtain ⟨rfl, rfl⟩ := Prod.mk.inj heq
    exact ⟨rfl, p, mem_predecessors.mp hp, (hspec x).mp hx⟩
  · rintro ⟨rfl, p, hedge, hp⟩
    obtain ⟨passed, hpassed, hspec⟩ := hwalk p (mem_predecessors.mpr hedge)
    exact ⟨p, mem_predecessors.mpr hedge, _, by rw [hpassed]; rfl, List.mem_map.mpr ⟨a, (hspec a).mpr hp, rfl⟩⟩

/-- A block has no frontier at a block with one predecessor: what dominates the one dominates the other. -/
theorem avoids_of_sole (hb : b ≠ f.entryBlock) (hsole : ∀ q, Edge f q b → q = p)
    (h : Avoids (Edge f) f.entryBlock a b) : Avoids (Edge f) f.entryBlock a p := by
  cases h with
  | start => exact absurd rfl hb
  | step hx hedge _ => exact hsole _ hedge ▸ hx

/-- Every path from the entry to `b` goes through `a`. -/
def OnEveryPath (f : Function) (a b : BasicBlockId) : Prop :=
  ∀ path : List BasicBlockId, path.IsChain (Edge f) → path.head? = some f.entryBlock → path.getLast? = some b → a ∈ path

/-- **The dominance frontiers are exact**, but for the entry: the computation comes to an end, and a block is entered in
the frontier of another when that dominates a predecessor that the entry reaches, and does not strictly dominate the
block. The entry is in the frontier of others only, and only when it has two predecessors. -/
theorem frontiers_exact (f : Function) : ∃ n df, frontiers n f = some df ∧ ∀ a b, (a, b) ∈ df ↔
    b ∈ f.blocks.map (·.id) ∧ (b = f.entryBlock → a ≠ f.entryBlock ∧ 2 ≤ (predecessors f b).length) ∧
      ∃ p, Edge f p b ∧ Relation.ReflTransGen (Edge f) f.entryBlock p ∧ OnEveryPath f a p ∧
        ¬(a ≠ b ∧ OnEveryPath f a b) := by
  by_cases hne : f.blocks = []
  · refine ⟨0, [], ?_, fun a b => by simp [hne]⟩
    rw [frontiers, computeDominance, if_pos hne, Option.bind_some, dominanceFrontiers, hne]
    rfl
  obtain ⟨n, idom, rank, node, hcompute, O, H, R, hn⟩ := computeDominance_total f hne
  have T := R.dominatorTree O
  have hrank : ∀ b, (idom b).isSome → rank b < n := fun b hb => hn b (R.isSome_iff.mp hb)
  have hpos : 0 < n := Nat.lt_of_le_of_lt (Nat.zero_le _) (hn _ O.entry_node)
  have hanc : ∀ {a b}, (idom b).isSome → (Anc idom a b ↔ OnEveryPath f a b) := fun hb =>
    (R.anc_iff H O (R.isSome_iff.mp hb)).trans not_avoids_iff
  obtain ⟨df, hdf, hmem⟩ := @gather_spec _ _
    (fun b => if 2 ≤ (predecessors f b).length then frontierOf n f idom b else some []) (f.blocks.map (·.id)) fun b _ => by
      split_ifs
      · exact (frontierOf_spec T hrank hpos).imp fun _ h => h.1
      · exact ⟨[], rfl⟩
  refine ⟨n, df, by rw [frontiers, hcompute]; exact hdf, fun a b => (hmem _).trans ?_⟩
  constructor
  · rintro ⟨c, hc, found, hfound, hab⟩
    split_ifs at hfound with hlen
    · obtain ⟨out, hout, hspec⟩ := @frontierOf_spec f idom rank c n T hrank hpos
      cases hout.symm.trans hfound
      obtain ⟨rfl, p, hedge, hp, hap, hnot⟩ := (hspec a b).mp hab
      have hb := T.closed hp hedge
      refine ⟨hc, fun he => ⟨?_, hlen⟩, p, hedge, T.isSome_iff.mp hp, (hanc hp).mp hap, ?_⟩
      · rintro rfl
        exact hnot _ (he ▸ T.root) (.refl _)
      · rintro ⟨hab, hdom⟩
        obtain ⟨d, hd⟩ := Option.isSome_iff_exists.mp hb
        exact hnot d hd (((hanc hb).mpr hdom).of_parent hd hab)
    · cases hfound
      cases hab
  · rintro ⟨hb, hentry, p, hedge, hreach, hdom, hnot⟩
    have hp := T.isSome_iff.mpr hreach
    have hin := T.closed hp hedge
    have hlen : 2 ≤ (predecessors f b).length := by
      by_cases he : b = f.entryBlock
      · exact (hentry he).2
      · by_contra hlt
        have hmem : ∀ q, Edge f q b → q ∈ predecessors f b := fun q => mem_predecessors.mpr
        obtain ⟨x, hx⟩ := List.length_eq_one_iff.mp
          (Nat.le_antisymm (by omega) (List.length_pos_of_mem (hmem p hedge)))
        rw [hx] at hmem
        have hsole : ∀ q, Edge f q b → q = p := fun q hq =>
          (List.mem_singleton.mp (hmem q hq)).trans (List.mem_singleton.mp (hmem p hedge)).symm
        refine hnot ⟨?_, not_avoids_iff.mp fun h => not_avoids_iff.mpr hdom (avoids_of_sole he hsole h)⟩
        rintro rfl
        exact T.not_anc_of_sole hin he hsole ((hanc hp).mpr hdom)
    obtain ⟨out, hout, hspec⟩ := @frontierOf_spec f idom rank b n T hrank hpos
    refine ⟨b, hb, out, by rw [if_pos hlen]; exact hout, (hspec a b).mpr
      ⟨rfl, p, hedge, hp, (hanc hp).mpr hdom, fun d hd ha => ?_⟩⟩
    by_cases he : b = f.entryBlock
    · cases T.root.symm.trans (he ▸ hd)
      exact (hentry he).1 (T.anc_entry ha)
    · refine hnot ⟨?_, (hanc hin).mp (.up hd ha)⟩
      rintro rfl
      exact absurd (T.lower hd he).1 (Nat.not_lt.mpr (T.rank_le ha))

end Datara.Dmir.Cfg
