import Datara.Optimizer.MergeBlocks
import Datara.Dmir.Dominators
import Datara.Dmir.ValueFacts

/-!
# Block merging, correct

A block with one edge into it comes right after the branching block in every path, so the two are one block of the
graph without that edge (`Merged.dominates`). Its parameters are read only below it, where they still have the values
of the branch's arguments: those are defined above it, and are not defined again before the parameters are
(`Merged.arg_not_defined`). So the outcome is accepted, and runs as before; the branch between the two is a step that
the merged function does not take (`mergeSimulation`).
-/

namespace Datara.Optimizer

open Dmir Library
open List (append_nil inj_on_of_nodup_map mem_append mem_append_left mem_append_right mem_cons mem_flatMap mem_map
  subset_append_left)

/-! ## The arguments in the places of the parameters -/

theorem mergeSubst_cases (params : List BlockParam) (args : List ValueId) (hlen : params.length = args.length)
    (v : ValueId) :
    mergeSubst params args v = none ∧ v ∉ params.map (·.val) ∨
      ∃ u ∈ args, mergeSubst params args v = some u ∧ v ∈ params.map (·.val) ∧
        ∀ regs rd : ValueId → Val, bindRegs regs ((params.map (·.val)).zip (args.map rd)) v = rd u := by
  have hkeys : ((params.map (·.val)).zip args).map (·.1) = params.map (·.val) :=
    List.map_fst_zip (by simp [hlen])
  obtain ⟨h, hv⟩ | ⟨u, h, hu, hb⟩ := Subst.ofPairs_cases ((params.map (·.val)).zip args) v
  · exact .inl ⟨h, hkeys ▸ hv⟩
  · refine .inr ⟨u, (List.of_mem_zip hu).2, h, (List.of_mem_zip hu).1, fun regs rd => ?_⟩
    rw [List.zip_map_right]
    exact hb regs rd

theorem append_eq_append_cons {α : Type} {xs ys before after : List α} {i : α} (h : xs ++ ys = before ++ i :: after) :
    (∃ mid, before = xs ++ mid ∧ ys = mid ++ i :: after) ∨ ∃ mid, xs = before ++ i :: mid := by
  obtain hleft | ⟨mid, hxs, hmid⟩ := List.append_eq_append_iff.mp h
  · exact .inl hleft
  · cases mid with
    | nil => exact .inl ⟨[], by rw [hxs, append_nil, append_nil], hmid.symm⟩
    | cons j mid => exact .inr ⟨mid, by rw [hxs, (List.cons.inj hmid).1]⟩

/-! ## The graph -/

theorem edge_iff {f : Function} {p q : BasicBlockId} :
    Cfg.Edge f p q ↔ ∃ b ∈ f.blocks, b.id = p ∧ q ∈ b.terminator.targets := by
  simp only [Cfg.Edge, Cfg.successors, mem_flatMap, List.mem_filter, decide_eq_true_eq, Terminator.mem_successors,
    and_assoc]

/-- The outcome of a merge, up to the order of the blocks. -/
structure Merged (f : Function) (a t : BasicBlock) (args : List ValueId) (rest : List BasicBlock) (f' : Function) :
    Prop where
  merges : Merges f a t args
  before : f.blocks.Perm (a :: t :: rest)
  after : f'.blocks.Perm (mergedBlock a t args :: rest.map (substituteBlock (mergeSubst t.params args)))
  name : f'.name = f.name
  params : f'.params = f.params
  returnType : f'.returnType = f.returnType
  entryBlock : f'.entryBlock = f.entryBlock
  provenNoOverflow : f'.provenNoOverflow = f.provenNoOverflow

/-- The block that a block of the function is a part of afterwards. -/
def homeId (a t : BasicBlock) (id : BasicBlockId) : BasicBlockId := if id = t.id then a.id else id

/-- What becomes of a block that is not the target. -/
def imageBlock (a t : BasicBlock) (args : List ValueId) (b : BasicBlock) : BasicBlock :=
  if b.id = a.id then mergedBlock a t args else substituteBlock (mergeSubst t.params args) b

section
variable {f f' : Function} {a t b c : BasicBlock} {args : List ValueId} {rest : List BasicBlock}
  {p q x y : BasicBlockId} {v u : ValueId}

theorem homeId_target : homeId a t t.id = a.id := if_pos rfl

theorem homeId_other (h : p ≠ t.id) : homeId a t p = p := if_neg h

theorem imageBlock_id : (imageBlock a t args b).id = b.id := by
  unfold imageBlock
  split_ifs with h
  · exact h.symm
  · rfl

section
variable (S : Merges f a t args)
include S

theorem Merges.mem_targets : t.id ∈ a.terminator.targets := by
  rw [S.terminator]
  exact List.mem_singleton_self _

theorem Merges.edge : Cfg.Edge f a.id t.id := edge_iff.mpr ⟨a, S.source, rfl, S.mem_targets⟩

theorem Merges.eq_source (hb : b ∈ f.blocks) (ht : t.id ∈ b.terminator.targets) : b = a :=
  eq_of_predCount (Nat.le_of_eq S.sole) hb S.source ht S.mem_targets

theorem Merges.edge_target (h : Cfg.Edge f p t.id) : p = a.id := by
  obtain ⟨b, hb, rfl, ht⟩ := edge_iff.mp h
  rw [S.eq_source hb ht]

end

namespace Merged

variable (M : Merged f a t args rest f')

include M

theorem ids (hids : (f.blocks.map (·.id)).Nodup) : (f'.blocks.map (·.id)).Nodup := by
  have h := (M.before.map (·.id)).nodup_iff.mp hids
  have hafter := (M.after.map (·.id)).nodup_iff
  rw [List.map_cons, List.map_map] at hafter
  refine hafter.mpr (h.sublist ?_)
  exact (List.sublist_cons_self t.id (rest.map (·.id))).cons_cons a.id

variable (hids : (f.blocks.map (·.id)).Nodup)

include hids

theorem mem_rest : b ∈ rest ↔ b ∈ f.blocks ∧ b.id ≠ a.id ∧ b.id ≠ t.id := by
  have h := (M.before.map (·.id)).nodup_iff.mp hids
  simp only [List.map_cons, List.nodup_cons, mem_cons, not_or] at h
  obtain ⟨⟨-, ha⟩, ht, -⟩ := h
  constructor
  · intro hb
    refine ⟨M.before.mem_iff.mpr (List.mem_cons_of_mem _ (List.mem_cons_of_mem _ hb)), fun he => ha ?_, fun he => ht ?_⟩
    · exact mem_map.mpr ⟨b, hb, he⟩
    · exact mem_map.mpr ⟨b, hb, he⟩
  · rintro ⟨hb, hba, hbt⟩
    obtain rfl | hb := mem_cons.mp (M.before.mem_iff.mp hb)
    · exact absurd rfl hba
    · obtain rfl | hb := mem_cons.mp hb
      · exact absurd rfl hbt
      · exact hb

theorem mem_blocks {b' : BasicBlock} :
    b' ∈ f'.blocks ↔ ∃ b ∈ f.blocks, b.id ≠ t.id ∧ b' = imageBlock a t args b := by
  rw [M.after.mem_iff, mem_cons, mem_map]
  constructor
  · rintro (rfl | ⟨b, hb, rfl⟩)
    · exact ⟨a, M.merges.source, M.merges.ne.symm, (if_pos rfl).symm⟩
    · obtain ⟨hb, hba, hbt⟩ := (M.mem_rest hids).mp hb
      exact ⟨b, hb, hbt, (if_neg hba).symm⟩
  · rintro ⟨b, hb, hbt, rfl⟩
    unfold imageBlock
    split_ifs with hba
    · exact .inl rfl
    · exact .inr ⟨b, (M.mem_rest hids).mpr ⟨hb, hba, hbt⟩, rfl⟩

theorem getBlock (hb : b ∈ f.blocks) (hbt : b.id ≠ t.id) : f'.getBlock b.id = some (imageBlock a t args b) := by
  have h := Function.getBlock_of_mem (M.ids hids) ((M.mem_blocks hids).mpr ⟨b, hb, hbt, rfl⟩)
  rwa [imageBlock_id] at h

omit M hids in
theorem targets_image (hba : b.id ≠ a.id) : (imageBlock a t args b).terminator.targets = b.terminator.targets := by
  rw [imageBlock, if_neg hba]
  exact substituteTerminator_targets ..

omit M hids in
theorem targets_merged : (mergedBlock a t args).terminator.targets = t.terminator.targets :=
  substituteTerminator_targets ..

theorem edge_after : Cfg.Edge f' p q ↔ p = a.id ∧ Cfg.Edge f t.id q ∨ p ≠ a.id ∧ p ≠ t.id ∧ Cfg.Edge f p q := by
  have htarget : ∀ {q}, Cfg.Edge f t.id q ↔ q ∈ t.terminator.targets := by
    intro q
    rw [edge_iff]
    constructor
    · rintro ⟨b, hb, hid, hq⟩
      exact inj_on_of_nodup_map hids hb M.merges.target hid ▸ hq
    · exact fun hq => ⟨t, M.merges.target, rfl, hq⟩
  rw [edge_iff, htarget]
  constructor
  · rintro ⟨b', hb', rfl, hq⟩
    obtain ⟨b, hb, hbt, rfl⟩ := (M.mem_blocks hids).mp hb'
    rw [imageBlock_id]
    by_cases hba : b.id = a.id
    · rw [imageBlock, if_pos hba, targets_merged] at hq
      exact .inl ⟨hba, hq⟩
    · rw [targets_image hba] at hq
      exact .inr ⟨hba, hbt, edge_iff.mpr ⟨b, hb, rfl, hq⟩⟩
  · rintro (⟨rfl, hq⟩ | ⟨hba, hbt, hedge⟩)
    · refine ⟨_, (M.mem_blocks hids).mpr ⟨a, M.merges.source, M.merges.ne.symm, rfl⟩, imageBlock_id, ?_⟩
      rwa [imageBlock, if_pos rfl, targets_merged]
    · obtain ⟨b, hb, rfl, hq⟩ := edge_iff.mp hedge
      refine ⟨_, (M.mem_blocks hids).mpr ⟨b, hb, hbt, rfl⟩, imageBlock_id, ?_⟩
      rwa [targets_image hba]

omit hids in
theorem homeId_entry : homeId a t f.entryBlock = f'.entryBlock := by
  rw [homeId_other M.merges.notEntry.symm, M.entryBlock]

theorem reaches (h : f.Reaches p) : f'.Reaches (homeId a t p) := by
  induction h with
  | refl =>
    rw [M.homeId_entry]
    exact .refl
  | @tail x y _ hedge ih =>
    by_cases hy : y = t.id
    · subst hy
      rw [M.merges.edge_target hedge, homeId_other M.merges.ne.symm] at ih
      rwa [homeId_target]
    · rw [homeId_other hy]
      by_cases hx : x = t.id
      · subst hx
        rw [homeId_target] at ih
        exact ih.tail ((M.edge_after hids).mpr (.inl ⟨rfl, hedge⟩))
      · rw [homeId_other hx] at ih
        refine ih.tail ((M.edge_after hids).mpr (.inr ⟨fun hxa => hy ?_, hx, hedge⟩))
        -- the only edge of the source is to the target
        subst hxa
        obtain ⟨b, hb, hid, hq⟩ := edge_iff.mp hedge
        rw [inj_on_of_nodup_map hids hb M.merges.source hid, M.merges.terminator] at hq
        exact List.mem_singleton.mp hq

theorem avoids (h : Avoids (Cfg.Edge f') f'.entryBlock (homeId a t p) x) : Avoids (Cfg.Edge f) f.entryBlock p x := by
  have hne : ∀ {y}, y ≠ homeId a t p → y ≠ t.id → y ≠ p := by
    intro y hy hyt hyp
    exact hy (by rw [hyp, homeId_other (hyp ▸ hyt)])
  have hnt : ∀ {q y}, Cfg.Edge f' q y → y ≠ t.id := by
    intro q y hedge hy
    obtain ⟨-, hedge⟩ | ⟨hqa, -, hedge⟩ := (M.edge_after hids).mp hedge
    · exact M.merges.ne (M.merges.edge_target (hy ▸ hedge))
    · exact hqa (M.merges.edge_target (hy ▸ hedge))
  induction h with
  | start hp =>
    rw [M.entryBlock] at hp ⊢
    exact .start (hne hp M.merges.notEntry.symm)
  | @step x y hx hedge hy ih =>
    have hyp := hne hy (hnt hedge)
    obtain ⟨rfl, hedge'⟩ | ⟨-, -, hedge'⟩ := (M.edge_after hids).mp hedge
    · have htp : t.id ≠ p := by
        rintro rfl
        exact hx.ne homeId_target.symm
      exact (ih.step M.merges.edge htp).step hedge' hyp
    · exact ih.step hedge' hyp

/-- **Dominance afterwards.** -/
theorem dominates (h : f.Dominates p q) (hne : homeId a t p ≠ homeId a t q) :
    f'.Dominates (homeId a t p) (homeId a t q) := by
  refine ⟨M.reaches hids h.reaches, fun havoid => h.through ?_⟩
  have hpath := M.avoids hids havoid
  by_cases hq : q = t.id
  · subst hq
    rw [homeId_target] at hpath
    exact hpath.step M.merges.edge fun htp => hne (by rw [← htp])
  · rwa [homeId_other hq] at hpath

end Merged

/-! ## What is available -/

namespace Merges

variable {n : Nat} {idom : Cfg.Idom} (S : Merges f a t args) (V : Verified n f idom)

include S V

/-- The target comes after the source. -/
theorem not_anc (h : (idom a.id).isSome) : ¬Anc idom t.id a.id := by
  obtain ⟨rank, T⟩ := V.tree
  exact T.not_anc_of_sole (T.closed h S.edge) S.notEntry fun q hq => S.edge_target hq

theorem not_dominates : ¬f.Dominates t.id a.id := fun h => by
  obtain ⟨ha, hanc⟩ := V.dominates_iff_anc.mp h
  exact S.not_anc V ha hanc

theorem anc_source (hb : (idom b.id).isSome) (h : Anc idom t.id b.id) : Anc idom a.id b.id := by
  have hdom : f.Dominates t.id b.id := V.dominates_iff_anc.mpr ⟨hb, h⟩
  refine (V.dominates_iff_anc.mp ⟨hdom.reaches, fun havoid => hdom.through ?_⟩).2
  -- a path that does without the source does without the target
  generalize b.id = x at havoid
  induction havoid with
  | start hne => exact .start fun he => S.notEntry he.symm
  | step hx hedge hne ih =>
    refine ih.step hedge fun he => ?_
    exact hx.ne (S.edge_target (he ▸ hedge))

omit S V in
theorem mem_definesIn_target (hv : v ∈ t.params.map (·.val)) : v ∈ f.definesIn t :=
  mem_append_left _ (mem_append_right _ hv)

omit V in
theorem headDefs_target : f.headDefs t = t.params.map (·.val) := by
  rw [Function.headDefs, if_neg S.notEntry, List.nil_append]

theorem anc_of_param {before : List Inst} (hb : b ∈ f.blocks) (hv : v ∈ t.params.map (·.val))
    (h : Available f (Anc idom) b before v) (hbefore : before ⊆ b.instructions) : Anc idom t.id b.id := by
  obtain h | h | ⟨c, hc, -, hv', hanc⟩ := h
  · rw [V.definesIn_unique hb S.target (mem_append_left _ h) (mem_definesIn_target hv)]
    exact .refl _
  · obtain ⟨i, hi, hiv⟩ := mem_flatMap.mp h
    have hb' : v ∈ f.definesIn b := mem_append_right _ (mem_flatMap.mpr ⟨i, hbefore hi, hiv⟩)
    rw [V.definesIn_unique hb S.target hb' (mem_definesIn_target hv)]
    exact .refl _
  · rwa [V.definesIn_unique hc S.target hv' (mem_definesIn_target hv)] at hanc

/-- An argument is defined in the source, or above it. -/
theorem arg_available (hu : u ∈ args) : Available f f.Dominates a a.instructions u := by
  refine V.wellFormed.termUses a S.source u ?_
  rw [S.terminator]
  exact hu

theorem arg_definesIn (hu : u ∈ args) (hb : b ∈ f.blocks) (hd : u ∈ f.definesIn b) :
    b = a ∨ f.Dominates b.id a.id := by
  obtain h | h | ⟨c, hc, -, h, hdom⟩ := S.arg_available V hu
  · exact .inl (V.definesIn_unique hb S.source hd (mem_append_left _ h))
  · exact .inl (V.definesIn_unique hb S.source hd (mem_append_right _ h))
  · exact .inr (V.definesIn_unique hb hc hd h ▸ hdom)

/-- **Where a parameter is available, no argument is defined.** -/
theorem arg_not_defined (hu : u ∈ args) (hb : b ∈ f.blocks) (h : Anc idom t.id b.id) : u ∉ f.definesIn b := by
  intro hd
  obtain hba | hdom := S.arg_definesIn V hu hb hd
  · -- reached or not, the source is not below the target
    rw [hba] at h
    by_cases ha : (idom a.id).isSome
    · exact S.not_anc V ha h
    · exact S.ne (h.eq_of_none (Option.not_isSome_iff_eq_none.mp ha))
  · obtain ⟨ha, hanc⟩ := V.dominates_iff_anc.mp hdom
    exact S.not_anc V ha (h.trans hanc)

theorem arg_not_param (hu : u ∈ args) : u ∉ t.params.map (·.val) := fun hv =>
  S.arg_not_defined V hu S.target (.refl _) (mem_definesIn_target hv)

theorem apply_dest {i : Inst} (hb : b ∈ f.blocks) (hi : i ∈ b.instructions) (hv : v ∈ i.dests) :
    mergeSubst t.params args v = none := by
  obtain ⟨h, -⟩ | ⟨u, -, -, hp, -⟩ := mergeSubst_cases t.params args S.length v
  · exact h
  · obtain ⟨before, after, hsplit⟩ := List.append_of_mem hi
    exact absurd (mem_append_right _ hp) (V.head_not_dest hb S.target hsplit hv)

theorem destsOf_substitute {is : List Inst} (hb : b ∈ f.blocks) (his : is ⊆ b.instructions) :
    destsOf (is.map (substituteOperands (mergeSubst t.params args))) = destsOf is := by
  rw [destsOf, List.flatMap_map]
  refine List.flatMap_congr fun i hi => ?_
  rw [substituteOperands_dests]
  refine (List.map_congr_left fun d hd => ?_).trans (List.map_id _)
  exact Subst.apply_of_none (S.apply_dest V hb (his hi) hd)

end Merges

/-! ## Acceptance -/

/-- The block that a block of the function becomes, or becomes a part of. -/
def homeBlock (a t : BasicBlock) (args : List ValueId) (b : BasicBlock) : BasicBlock :=
  imageBlock a t args (if b.id = t.id then a else b)

namespace Merged

variable {n : Nat} {idom : Cfg.Idom} (M : Merged f a t args rest f') (V : Verified n f idom)

include M V

omit M V in
theorem homeBlock_id : (homeBlock a t args b).id = homeId a t b.id := by
  rw [homeBlock, imageBlock_id, homeId]
  split_ifs <;> rfl

theorem imageBlock_params (hb : b ∈ f.blocks) : (imageBlock a t args b).params = b.params := by
  rw [imageBlock]
  split_ifs with hba
  · rw [inj_on_of_nodup_map V.ids hb M.merges.source hba]
    rfl
  · rfl

theorem headDefs_image (hb : b ∈ f.blocks) : f'.headDefs (imageBlock a t args b) = f.headDefs b := by
  rw [Function.headDefs, Function.headDefs, imageBlock_id, M.entryBlock, M.params, M.imageBlock_params V hb]

theorem homeBlock_mem (hb : b ∈ f.blocks) : homeBlock a t args b ∈ f'.blocks := by
  refine (M.mem_blocks V.ids).mpr ?_
  rw [homeBlock]
  split_ifs with hbt
  · exact ⟨a, M.merges.source, M.merges.ne.symm, rfl⟩
  · exact ⟨b, hb, hbt, rfl⟩

theorem destsOf_image (hb : b ∈ f.blocks) : destsOf (imageBlock a t args b).instructions =
    destsOf b.instructions ++ if b.id = a.id then destsOf t.instructions else [] := by
  have S := M.merges
  rw [imageBlock]
  split_ifs with hba
  · obtain rfl := inj_on_of_nodup_map V.ids hb S.source hba
    show destsOf (b.instructions.map _ ++ t.instructions.map _) = _
    rw [destsOf, List.flatMap_append]
    exact congrArg₂ _ (S.destsOf_substitute V hb (List.Subset.refl _))
      (S.destsOf_substitute V S.target (List.Subset.refl _))
  · rw [append_nil]
    exact S.destsOf_substitute V hb (List.Subset.refl _)

theorem definesIn_home (hb : b ∈ f.blocks) (hv : v ∈ f.definesIn b) (hp : v ∉ t.params.map (·.val)) :
    v ∈ f'.definesIn (homeBlock a t args b) := by
  have S := M.merges
  rw [homeBlock, Function.definesIn]
  split_ifs with hbt
  · obtain rfl := inj_on_of_nodup_map V.ids hb S.target hbt
    rw [Function.definesIn, S.headDefs_target] at hv
    refine mem_append_right _ ?_
    rw [M.destsOf_image V S.source, if_pos rfl]
    exact mem_append_right _ ((mem_append.mp hv).resolve_left hp)
  · obtain hv | hv := mem_append.mp hv
    · rw [M.headDefs_image V hb]
      exact mem_append_left _ hv
    · refine mem_append_right _ ?_
      rw [M.destsOf_image V hb]
      exact mem_append_left _ hv

theorem available_home {before before' : List Inst} (hb : b ∈ f.blocks) (h : Available f f.Dominates b before v)
    (hp : v ∉ t.params.map (·.val)) (hbefore : destsOf before ⊆ destsOf before')
    (hsource : b.id = t.id → destsOf a.instructions ⊆ destsOf before') :
    Available f' f'.Dominates (homeBlock a t args b) before' v := by
  have S := M.merges
  obtain h | h | ⟨c, hc, hne, hv, hdom⟩ := h
  · by_cases hbt : b.id = t.id
    · obtain rfl := inj_on_of_nodup_map V.ids hb S.target hbt
      rw [S.headDefs_target] at h
      exact absurd h hp
    · left
      rw [homeBlock, if_neg hbt, M.headDefs_image V hb]
      exact h
  · exact .inr (.inl (hbefore h))
  · by_cases hhome : homeId a t c.id = homeId a t b.id
    · -- the two are the source and the target
      by_cases hbt : b.id = t.id
      · rw [hbt, homeId_target, homeId_other (hbt ▸ hne)] at hhome
        obtain rfl := inj_on_of_nodup_map V.ids hc S.source hhome
        obtain hv | hv := mem_append.mp hv
        · left
          rw [homeBlock, if_pos hbt, M.headDefs_image V S.source]
          exact hv
        · exact .inr (.inl (hsource hbt hv))
      · rw [homeId_other hbt] at hhome
        by_cases hct : c.id = t.id
        · rw [hct, homeId_target] at hhome
          rw [hct, ← hhome] at hdom
          exact absurd hdom (S.not_dominates V)
        · rw [homeId_other hct] at hhome
          exact absurd hhome hne
    · refine .inr (.inr ⟨homeBlock a t args c, M.homeBlock_mem V hc, ?_, M.definesIn_home V hc hv hp, ?_⟩)
      · rwa [homeBlock_id, homeBlock_id]
      · rw [homeBlock_id, homeBlock_id]
        exact M.dominates V.ids hdom hhome

/-- **A use is of an available value afterwards.** -/
theorem use_home {before before' : List Inst} (hb : b ∈ f.blocks) (h : Available f f.Dominates b before v)
    (hsub : before ⊆ b.instructions) (hbefore : destsOf before ⊆ destsOf before')
    (hsource : b.id = t.id → destsOf a.instructions ⊆ destsOf before') :
    Available f' f'.Dominates (homeBlock a t args b) before' ((mergeSubst t.params args).apply v) := by
  have S := M.merges
  obtain ⟨hnone, hp⟩ | ⟨u, hu, hsome, hp, -⟩ := mergeSubst_cases t.params args S.length v
  · rw [Subst.apply_of_none hnone]
    exact M.available_home V hb h hp hbefore hsource
  · rw [Subst.apply_of_some hsome]
    have hup := S.arg_not_param V hu
    by_cases hbt : b.id = t.id
    · have harg := M.available_home V S.source (S.arg_available V hu) hup (hsource hbt)
        fun hat => absurd hat.symm S.ne
      rw [homeBlock, if_neg S.ne.symm] at harg
      rw [homeBlock, if_pos hbt]
      exact harg
    · -- below the target, the argument's definition is above
      have hbelow : f.Dominates t.id b.id := by
        have hsole : ∀ c ∈ f.blocks, v ∈ f.definesIn c → c = t := fun c hc hv =>
          V.definesIn_unique hc S.target hv (Merges.mem_definesIn_target hp)
        obtain h | h | ⟨c, hc, -, hv, hdom⟩ := h
        · exact absurd (congrArg BasicBlock.id (hsole b hb (mem_append_left _ h))) hbt
        · obtain ⟨i, hi, hiv⟩ := mem_flatMap.mp h
          have hv : v ∈ f.definesIn b := mem_append_right _ (mem_flatMap.mpr ⟨i, hsub hi, hiv⟩)
          exact absurd (congrArg BasicBlock.id (hsole b hb hv)) hbt
        · exact hsole c hc hv ▸ hdom
      obtain ⟨hin, hanc⟩ := V.dominates_iff_anc.mp hbelow
      have hsourceAnc := S.anc_source V hin hanc
      have hfrom : ∀ c ∈ f.blocks, u ∈ f.definesIn c → Anc idom c.id b.id → Available f f.Dominates b before u := by
        intro c hc huc hanc'
        refine .inr (.inr ⟨c, hc, fun he => ?_, huc, V.dominates_iff_anc.mpr ⟨hin, hanc'⟩⟩)
        rw [inj_on_of_nodup_map V.ids hc hb he] at huc
        exact S.arg_not_defined V hu hb hanc huc
      have havailable : Available f f.Dominates b before u := by
        obtain h | h | ⟨c, hc, -, huc, hdom⟩ := S.arg_available V hu
        · exact hfrom a S.source (mem_append_left _ h) hsourceAnc
        · exact hfrom a S.source (mem_append_right _ h) hsourceAnc
        · exact hfrom c hc huc ((V.dominates_iff_anc.mp hdom).2.trans hsourceAnc)
      exact M.available_home V hb havailable hup hbefore fun he => absurd he hbt

/-! ### The definitions -/

theorem once : (f'.defs.map (·.1)).Nodup := by
  have S := M.merges
  have hmirrors : f'.definedBy = f.definedBy := by
    funext b
    simp only [Function.definedBy, Function.mirrors, M.entryBlock, M.params]
  have hrest : (rest.map (substituteBlock (mergeSubst t.params args))).flatMap f.definedBy = rest.flatMap f.definedBy := by
    rw [List.flatMap_map]
    refine List.flatMap_congr fun b hb => ?_
    have hb := ((M.mem_rest V.ids).mp hb).1
    exact congrArg (_ ++ ·) (S.destsOf_substitute V hb (List.Subset.refl _))
  have hmerged : f.definedBy (mergedBlock a t args) = f.definedBy a ++ destsOf t.instructions := by
    have h := M.destsOf_image V S.source
    rw [imageBlock, if_pos rfl, if_pos rfl] at h
    rw [Function.definedBy, Function.definedBy, h, List.append_assoc]
    rfl
  have hbefore := V.once
  rw [defs_keys, ((M.before.flatMap_right f.definedBy).append_left _).nodup_iff, List.flatMap_cons, List.flatMap_cons] at hbefore
  rw [defs_keys, M.params, hmirrors, ((M.after.flatMap_right f.definedBy).append_left _).nodup_iff, List.flatMap_cons,
    hrest, hmerged, List.append_assoc]
  refine hbefore.sublist (.append_left (.append_left (.append_right ?_ _) _) _)
  exact List.sublist_append_right _ _

theorem edgesOk {trm : Terminator} (h : EdgesOk f trm) (ht : t.id ∉ trm.targets) : EdgesOk f' trm := by
  have edge : ∀ {x : BasicBlockId} {k : Nat}, x ≠ t.id → (∃ c, f.getBlock x = some c ∧ k = c.params.length) →
      ∃ c, f'.getBlock x = some c ∧ k = c.params.length := by
    rintro x k hx ⟨c, hget, hk⟩
    obtain ⟨hc, rfl⟩ := Function.getBlock_eq_some hget
    exact ⟨_, M.getBlock V.ids hc hx, by rw [M.imageBlock_params V hc, hk]⟩
  cases trm with
  | branch x xs => exact edge (fun he => ht (he ▸ List.mem_singleton_self _)) h
  | condBranch c x xs y ys =>
    refine ⟨edge (fun he => ht (he ▸ List.mem_cons_self)) h.1, edge (fun he => ht (he ▸ ?_)) h.2⟩
    exact List.mem_cons_of_mem _ List.mem_cons_self
  | ret v => trivial
  | unreachable => trivial

theorem instUse_home (hb : b ∈ f.blocks) {before after before' : List Inst} {i : Inst}
    (hi : b.instructions = before ++ i :: after) (hbefore : destsOf before ⊆ destsOf before')
    (hsource : b.id = t.id → destsOf a.instructions ⊆ destsOf before')
    (hv : v ∈ instructionUses (substituteOperands (mergeSubst t.params args) i)) :
    Available f' f'.Dominates (homeBlock a t args b) before' v := by
  rw [substituteOperands_uses] at hv
  obtain ⟨u, hu, rfl⟩ := mem_map.mp hv
  exact M.use_home V hb (V.wellFormed.uses b hb before i after hi u hu) (hi ▸ subset_append_left _ _) hbefore hsource

theorem termUse_home (hb : b ∈ f.blocks) {before' : List Inst}
    (hbefore : destsOf b.instructions ⊆ destsOf before')
    (hsource : b.id = t.id → destsOf a.instructions ⊆ destsOf before')
    (hv : v ∈ (substituteTerminator (mergeSubst t.params args) b.terminator).vids) :
    Available f' f'.Dominates (homeBlock a t args b) before' v := by
  rw [substituteTerminator_vids] at hv
  obtain ⟨u, hu, rfl⟩ := mem_map.mp hv
  exact M.use_home V hb (V.wellFormed.termUses b hb u hu) (List.Subset.refl _) hbefore hsource

/-- **The outcome is accepted.** -/
theorem wellFormed : WellFormed f' where
  ids := M.ids V.ids
  entry := by
    obtain ⟨b, hb, hid⟩ := mem_map.mp V.entry
    have hbt : b.id ≠ t.id := fun h => M.merges.notEntry (h.symm.trans hid)
    refine mem_map.mpr ⟨imageBlock a t args b, (M.mem_blocks V.ids).mpr ⟨b, hb, hbt, rfl⟩, ?_⟩
    rw [imageBlock_id, hid, M.entryBlock]
  once := M.once V
  uses := by
    intro b' hb' before' i' after' hi v' hv'
    obtain ⟨b, hb, hbt, rfl⟩ := (M.mem_blocks V.ids).mp hb'
    have S := M.merges
    have hother : homeBlock a t args b = imageBlock a t args b := by rw [homeBlock, if_neg hbt]
    have htarget : homeBlock a t args t = mergedBlock a t args := by rw [homeBlock, if_pos rfl, imageBlock, if_pos rfl]
    rw [imageBlock] at hi
    split_ifs at hi with hba
    · obtain rfl := inj_on_of_nodup_map V.ids hb S.source hba
      rw [imageBlock, if_pos rfl] at hother ⊢
      have hcode : (b.instructions ++ t.instructions).map (substituteOperands (mergeSubst t.params args)) =
          before' ++ i' :: after' := by
        rw [List.map_append]
        exact hi
      obtain ⟨before, tail, hsplit, rfl, htail⟩ := List.map_eq_append_iff.mp hcode
      obtain ⟨i, after, rfl, rfl, rfl⟩ := List.map_eq_cons_iff.mp htail
      obtain ⟨mid, rfl, ht⟩ | ⟨mid, hmid⟩ := append_eq_append_cons hsplit
      · -- behind the source's code
        have hdests : destsOf ((b.instructions ++ mid).map (substituteOperands (mergeSubst t.params args))) =
            destsOf b.instructions ++ destsOf mid := by
          rw [List.map_append, destsOf, List.flatMap_append]
          exact congrArg₂ _ (S.destsOf_substitute V S.source (List.Subset.refl _))
            (S.destsOf_substitute V S.target (ht ▸ subset_append_left _ _))
        rw [← htarget]
        refine M.instUse_home V S.target ht ?_ (fun _ => ?_) hv'
        · exact hdests ▸ List.subset_append_right _ _
        · exact hdests ▸ subset_append_left _ _
      · -- in the source's code
        rw [← hother]
        refine M.instUse_home V S.source hmid ?_ (fun he => absurd he hbt) hv'
        rw [S.destsOf_substitute V S.source (hmid ▸ subset_append_left _ _)]
        exact List.Subset.refl _
    · obtain ⟨before, tail, hsplit, rfl, htail⟩ := List.map_eq_append_iff.mp hi
      obtain ⟨i, after, rfl, rfl, rfl⟩ := List.map_eq_cons_iff.mp htail
      rw [← hother]
      refine M.instUse_home V hb hsplit ?_ (fun he => absurd he hbt) hv'
      rw [S.destsOf_substitute V hb (hsplit ▸ subset_append_left _ _)]
      exact List.Subset.refl _
  termUses := by
    intro b' hb' v' hv'
    obtain ⟨b, hb, hbt, rfl⟩ := (M.mem_blocks V.ids).mp hb'
    have S := M.merges
    have hdests := M.destsOf_image V hb
    by_cases hba : b.id = a.id
    · obtain rfl := inj_on_of_nodup_map V.ids hb S.source hba
      have htarget : homeBlock b t args t = imageBlock b t args b := by rw [homeBlock, if_pos rfl]
      rw [if_pos rfl] at hdests
      rw [← htarget] at hdests ⊢
      rw [imageBlock, if_pos rfl] at hv'
      refine M.termUse_home V S.target ?_ (fun _ => ?_) hv'
      · exact hdests ▸ List.subset_append_right _ _
      · exact hdests ▸ subset_append_left _ _
    · have hother : homeBlock a t args b = imageBlock a t args b := by rw [homeBlock, if_neg hbt]
      rw [if_neg hba, append_nil] at hdests
      rw [← hother] at hdests ⊢
      rw [imageBlock, if_neg hba] at hv'
      exact M.termUse_home V hb (hdests ▸ List.Subset.refl _) (fun he => absurd he hbt) hv'
  edges := by
    intro b' hb'
    obtain ⟨b, hb, hbt, rfl⟩ := (M.mem_blocks V.ids).mp hb'
    rw [imageBlock]
    split_ifs with hba
    · refine edgesOk_substituteTerminator.mpr (M.edgesOk V (V.edges t M.merges.target) fun ht => ?_)
      exact M.merges.ne (congrArg BasicBlock.id (M.merges.eq_source M.merges.target ht))
    · refine edgesOk_substituteTerminator.mpr (M.edgesOk V (V.edges b hb) fun ht => ?_)
      exact hba (congrArg BasicBlock.id (M.merges.eq_source hb ht))

end Merged

/-! ## Running -/

/-- The two functions at the same place: the merged one has the target's code behind the source's. -/
structure MergeAt (f f' : Function) (idom : Cfg.Idom) (a t : BasicBlock) (args : List ValueId) (b : BasicBlock)
    (before : List Inst) (F F' : Frame) : Prop where
  place : At f idom b before F
  fn : F'.fn = f'
  code : F'.code = F.code.map (substituteOperands (mergeSubst t.params args)) ++
    if b.id = a.id then t.instructions.map (substituteOperands (mergeSubst t.params args)) else []
  term : F'.term =
    substituteTerminator (mergeSubst t.params args) (if b.id = a.id then t.terminator else b.terminator)
  vars : F'.vars = F.vars
  regs : ∀ v ∉ t.params.map (·.val), F'.regs v = F.regs v
  settled : ∀ v ∈ t.params.map (·.val), Available f (Anc idom) b before v →
    F.regs v = F.regs ((mergeSubst t.params args).apply v)

section
variable {n : Nat} {idom : Cfg.Idom} {P : Program} {before : List Inst} {F F' : Frame}
  (M : Merged f a t args rest f') (V : Verified n f idom)

include M V

theorem MergeAt.read (h : MergeAt f f' idom a t args b before F F') (hu : Available f (Anc idom) b before u) :
    F'.regs ((mergeSubst t.params args).apply u) = F.regs u := by
  have S := M.merges
  obtain ⟨hnone, hp⟩ | ⟨x, hx, hsome, hp, -⟩ := mergeSubst_cases t.params args S.length u
  · rw [Subst.apply_of_none hnone, h.regs u hp]
  · rw [h.settled u hp hu, Subst.apply_of_some hsome, h.regs x (S.arg_not_param V hx)]

theorem MergeAt.start {vs : List Val} : ∃ b, MergeAt f f' idom a t args b [] (f.start vs) (f'.start vs) := by
  have S := M.merges
  obtain ⟨b, hb, hid, hget, hat⟩ : ∃ b ∈ f.blocks, b.id = f.entryBlock ∧ f.getBlock f.entryBlock = some b ∧
      At f idom b [] (f.start vs) := V.at_start
  have hbt : b.id ≠ t.id := fun h => S.notEntry (h.symm.trans hid)
  have hget' : f'.getBlock f'.entryBlock = some (imageBlock a t args b) := by
    rw [M.entryBlock, ← hid]
    exact M.getBlock V.ids hb hbt
  have hregs : (f'.start vs).regs = (f.start vs).regs := by
    simp only [Function.start, M.params]
  refine ⟨b, hat, rfl, ?_, ?_, ?_, fun v _ => by rw [hregs], fun v hv h => ?_⟩
  · simp only [Function.start, hget, hget', Option.map_some, Option.getD_some, imageBlock]
    split_ifs with hba
    · rw [inj_on_of_nodup_map V.ids hb S.source hba]
      rfl
    · exact (append_nil _).symm
  · simp only [Function.start, hget', Option.map_some, Option.getD_some, imageBlock]
    split_ifs
    · rfl
    · rfl
  · simp only [Function.start, M.params, Function.slotOf_congr M.params]
  · obtain ⟨rank, T⟩ := V.tree
    have hanc := S.anc_of_param V hb hv h (List.nil_subset _)
    rw [hid] at hanc
    exact absurd (T.anc_entry hanc) S.notEntry

theorem MergeAt.after {i : Inst} {code code' : List Inst} {ws : List (ValueId × Val)} {vars : String → Val}
    {w w' : World} (h : MergeAt f f' idom a t args b before F F') (hcode : F.code = i :: code)
    (hcode' : F'.code = substituteOperands (mergeSubst t.params args) i :: code')
    (hp : (F.effect P i).perform P f F.vars w = .done ws vars w') :
    MergeAt f f' idom a t args b (before ++ [i]) (F.after code ws vars) (F'.after code' ws vars) := by
  have S := M.merges
  have hi : b.instructions = before ++ i :: code := hcode ▸ h.place.code
  have hkeys : ws.map (·.1) = i.dests := Effect.perform_dests hp
  refine ⟨⟨h.place.fn, h.place.mem, h.place.reached, ?_, h.place.term⟩, h.fn, ?_, h.term, rfl, ?_, fun v hv hav => ?_⟩
  · rw [hi, List.append_assoc]
    rfl
  · have hrest := h.code
    rw [hcode, hcode'] at hrest
    exact (List.cons.inj hrest).2
  · exact fun v hv => bindRegs_congr fun _ => h.regs v hv
  · have hnot : v ∉ i.dests := fun hd => V.head_not_dest h.place.mem S.target hi hd (mem_append_right _ hv)
    have hav' := hav.cases_snoc.resolve_left hnot
    have hold : (F.after code ws vars).regs v = F.regs v := bindRegs_of_notMem (hkeys ▸ hnot)
    rw [hold, h.settled v hv hav']
    symm
    refine bindRegs_of_notMem fun hm => ?_
    obtain ⟨-, hp'⟩ | ⟨x, hx, hsome, -⟩ := mergeSubst_cases t.params args S.length v
    · exact hp' hv
    · rw [Subst.apply_of_some hsome, hkeys] at hm
      have hanc := S.anc_of_param V h.place.mem hv hav' (hi ▸ subset_append_left _ _)
      exact S.arg_not_defined V hx h.place.mem hanc (mem_definesIn_of_dest hi hm)

/-- The branch between the two blocks. -/
theorem MergeAt.into_target (h : MergeAt f f' idom a t args a a.instructions F F') (hcode : F.code = []) :
    MergeAt f f' idom a t args t [] (F.into t (args.map F.regs)) F' := by
  have S := M.merges
  have hreached := V.reached_of_edge S.source h.place.reached S.mem_targets
  have hother : ∀ v ∉ t.params.map (·.val), (F.into t (args.map F.regs)).regs v = F.regs v := by
    intro v hv
    refine bindRegs_of_notMem fun hm => hv ?_
    obtain ⟨x, hx, rfl⟩ := mem_map.mp hm
    exact (List.of_mem_zip hx).1
  refine ⟨⟨h.place.fn, S.target, hreached, rfl, rfl⟩, h.fn, ?_, ?_, h.vars, fun v hv => ?_, fun v hv _ => ?_⟩
  · rw [h.code, hcode, if_pos rfl, if_neg S.ne]
    exact (append_nil _).symm
  · rw [h.term, if_pos rfl, if_neg S.ne]
  · rw [hother v hv, h.regs v hv]
  · obtain ⟨-, hp⟩ | ⟨x, hx, hsome, -, hbind⟩ := mergeSubst_cases t.params args S.length v
    · exact absurd hv hp
    · rw [Subst.apply_of_some hsome, hother x (S.arg_not_param V hx)]
      exact hbind F.regs F.regs

/-- Every other edge. -/
theorem MergeAt.into {vs : List Val} (h : MergeAt f f' idom a t args b b.instructions F F') (hba : b.id ≠ a.id)
    (hc : c ∈ f.blocks) (ht : c.id ∈ b.terminator.targets) (hlen : vs.length = c.params.length) :
    MergeAt f f' idom a t args c [] (F.into c vs) (F'.into (imageBlock a t args c) vs) := by
  have S := M.merges
  have hct : c.id ≠ t.id := fun he => hba (congrArg BasicBlock.id (S.eq_source h.place.mem (he ▸ ht)))
  have hparams := M.imageBlock_params V hc
  have hkeys : ((c.params.map (·.val)).zip vs).map (·.1) = c.params.map (·.val) :=
    List.map_fst_zip (by simp [hlen])
  refine ⟨⟨h.place.fn, hc, V.reached_of_edge h.place.mem h.place.reached ht, rfl, rfl⟩, h.fn, ?_, ?_, h.vars,
    fun v hv => ?_, fun v hv hav => ?_⟩
  · rw [imageBlock]
    split_ifs with hca
    · rw [inj_on_of_nodup_map V.ids hc S.source hca]
      rfl
    · exact (append_nil _).symm
  · rw [imageBlock]
    split_ifs
    · rfl
    · rfl
  · show bindRegs F'.regs (((imageBlock a t args c).params.map (·.val)).zip vs) v = _
    rw [hparams]
    exact bindRegs_congr fun _ => h.regs v hv
  · have hvc : v ∉ c.params.map (·.val) := by
      intro hm
      have hd : v ∈ f.definesIn c := mem_append_left _ (mem_append_right _ hm)
      exact hct (congrArg BasicBlock.id (V.definesIn_unique hc S.target hd (Merges.mem_definesIn_target hv)))
    have hav' := (V.available_of_edge h.place.mem hc h.place.reached ht hav).resolve_left hvc
    have hold : (F.into c vs).regs v = F.regs v := bindRegs_of_notMem (by rw [hkeys]; exact hvc)
    rw [hold, h.settled v hv hav']
    symm
    refine bindRegs_of_notMem fun hm => ?_
    rw [hkeys] at hm
    obtain ⟨-, hp⟩ | ⟨x, hx, hsome, -⟩ := mergeSubst_cases t.params args S.length v
    · exact hp hv
    · rw [Subst.apply_of_some hsome] at hm
      have hanc := S.anc_of_param V hc hv hav (List.nil_subset _)
      exact S.arg_not_defined V hx hc hanc (mem_append_left _ (mem_append_right _ hm))

/-- The states of the two functions that belong together. -/
def MergeRel (f f' : Function) (idom : Cfg.Idom) (a t : BasicBlock) (args : List ValueId) (s s' : Frame × World) :
    Prop :=
  (∃ b before, MergeAt f f' idom a t args b before s.1 s'.1) ∧ s'.2 = s.2

/-- One step: the branch between the two blocks, a step of both, or the end of both. -/
theorem MergeRel.step {s s' : Frame × World} (h : MergeRel f f' idom a t args s s') :
    (∃ s₁, P.leafMachine.step s = .inl s₁ ∧ MergeRel f f' idom a t args s₁ s' ∧
        t.id ∈ s.1.term.targets ∧ t.id ∉ s₁.1.term.targets) ∨
      (∃ s₁ s₁', P.leafMachine.step s = .inl s₁ ∧ P.leafMachine.step s' = .inl s₁' ∧
        MergeRel f f' idom a t args s₁ s₁') ∨
      ∃ o, P.leafMachine.step s = .inr o ∧ P.leafMachine.step s' = .inr o := by
  have S := M.merges
  obtain ⟨⟨b, before, h⟩, hw⟩ := h
  cases hcode : s.1.code with
  | cons i code =>
    right
    have hi : b.instructions = before ++ i :: code := hcode ▸ h.place.code
    have hcode' := h.code
    rw [hcode, List.map_cons, List.cons_append] at hcode'
    have heffect : s'.1.effect P (substituteOperands (mergeSubst t.params args) i) = s.1.effect P i := by
      rw [Frame.effect, Frame.effect, h.fn, h.place.fn, M.provenNoOverflow]
      refine substituteOperands_effect (fun d hd => ?_) fun u hu => ?_
      · exact Subst.apply_of_none (S.apply_dest V h.place.mem (hi ▸ by simp) hd)
      · exact h.read M V (V.use_available h.place.mem hi (i.reads_subset hu))
    have hname : s.1.fn.name = s'.1.fn.name := by rw [h.fn, h.place.fn, M.name]
    have hparams : s.1.fn.params = s'.1.fn.params := by rw [h.fn, h.place.fn, M.params]
    obtain ⟨ws, vars, w, hp, hs, hs'⟩ | hend := leafStep_lockstep (P := P) hcode hcode' hname hparams heffect h.vars hw
    · rw [h.place.fn] at hp
      exact .inl ⟨_, _, hs, hs', ⟨b, _, h.after M V hcode hcode' hp⟩, rfl⟩
    · exact .inr hend
  | nil =>
    have hend : before = b.instructions := by rw [h.place.code, hcode, append_nil]
    subst hend
    by_cases hba : b.id = a.id
    · obtain rfl := inj_on_of_nodup_map V.ids h.place.mem S.source hba
      left
      have hexit : s.1.term.exit s.1.fn s.1.regs = .goto t.id (args.map s.1.regs) := by
        rw [h.place.term, S.terminator]
        rfl
      have hget : s.1.fn.getBlock t.id = some t := by
        rw [h.place.fn]
        exact Function.getBlock_of_mem V.ids S.target
      refine ⟨_, leafStep_goto hcode hexit hget, ⟨⟨t, [], h.into_target M V hcode⟩, hw⟩, ?_, fun ht => ?_⟩
      · rw [h.place.term]
        exact S.mem_targets
      · exact S.ne (congrArg BasicBlock.id (S.eq_source S.target ht))
    · right
      have hcode' : s'.1.code = [] := by rw [h.code, hcode, if_neg hba]; rfl
      have hexit : s'.1.term.exit s'.1.fn s'.1.regs = s.1.term.exit s.1.fn s.1.regs := by
        rw [h.term, if_neg hba, h.place.term, h.fn, h.place.fn]
        exact substituteTerminator_exit M.returnType fun u hu => h.read M V (V.termUse_available h.place.mem hu)
      cases hx : s.1.term.exit s.1.fn s.1.regs with
      | goto x vs =>
        have hgo := hx
        rw [h.place.fn, h.place.term] at hgo
        obtain ⟨c, hc, hget, hid, hlen, ht⟩ := V.exit_goto h.place.mem hgo
        have hct : c.id ≠ t.id := fun he => hba (congrArg BasicBlock.id (S.eq_source h.place.mem (he ▸ ht)))
        have hget' : s'.1.fn.getBlock x = some (imageBlock a t args c) := by
          rw [h.fn, ← hid]
          exact M.getBlock V.ids hc hct
        rw [← h.place.fn] at hget
        exact .inl ⟨_, _, leafStep_goto hcode hx hget, leafStep_goto hcode' (hexit.trans hx) hget',
          ⟨c, [], h.into M V hba hc ht hlen⟩, hw⟩
      | ret v =>
        refine .inr ⟨_, leafStep_ret hcode hx, ?_⟩
        rw [← hw]
        exact leafStep_ret hcode' (hexit.trans hx)
      | trap e =>
        refine .inr ⟨_, leafStep_trap hcode hx, ?_⟩
        rw [← hw]
        exact leafStep_trap hcode' (hexit.trans hx)

/-- **The merged function simulates the function**, and waits while it takes the branch between the two blocks. -/
def mergeSimulation (P : Program) (M : Merged f a t args rest f') (V : Verified n f idom) :
    Simulation P.leafMachine P.leafMachine (· = ·) where
  R := MergeRel f f' idom a t args
  measure s := if t.id ∈ s.1.term.targets then 1 else 0
  Good _ := True
  halt := by
    intro s s' o h _ hs
    obtain ⟨s₁, hs₁, -⟩ | ⟨s₁, s₁', hs₁, -⟩ | ⟨o', ho, ho'⟩ := h.step (P := P) M V
    · rw [hs] at hs₁
      cases hs₁
    · rw [hs] at hs₁
      cases hs₁
    · rw [hs] at ho
      exact ⟨o', .of_halt ho', Sum.inr.inj ho⟩
  step := by
    intro s s' s₁ h _ hs
    obtain ⟨s₂, hs₂, hrel, hin, hout⟩ | ⟨s₂, s₂', hs₂, hs₂', hrel⟩ | ⟨o', ho, -⟩ := h.step (P := P) M V
    · cases hs.symm.trans hs₂
      refine .stutter ?_ hrel
      rw [if_pos hin, if_neg hout]
      exact Nat.zero_lt_one
    · cases hs.symm.trans hs₂
      exact .steps hs₂' (.refl _) hrel
    · rw [hs] at ho
      cases ho

theorem Merged.runsTo_iff {vs : List Val} {w : World} (o : Outcome) : P.RunsTo f' vs w o ↔ P.RunsTo f vs w o := by
  obtain ⟨b, h⟩ : ∃ b, MergeAt f f' idom a t args b [] (f.start vs) (f'.start vs) :=
    MergeAt.start M V
  exact ((mergeSimulation P M V).halts_iff (s := (f.start vs, w)) (t := (f'.start vs, w)) ⟨⟨b, [], h⟩, rfl⟩
    (fun _ _ => trivial) o).symm

end

end

theorem Merged.not_used (M : Merged f a t args rest f') (V : Verified n f idom) {b' : BasicBlock}
    (hb' : b' ∈ f'.blocks) (hv : v ∈ t.params.map (·.val)) : v ∉ b'.uses := by
  have S := M.merges
  have happly : ∀ u, (mergeSubst t.params args).apply u ≠ v := by
    intro u hu
    obtain ⟨hnone, hp⟩ | ⟨x, hx, hsome, -⟩ := mergeSubst_cases t.params args S.length u
    · rw [Subst.apply_of_none hnone] at hu
      exact hp (hu ▸ hv)
    · rw [Subst.apply_of_some hsome] at hu
      exact S.arg_not_param V hx (hu ▸ hv)
  have hcode : ∀ is : List Inst,
      v ∉ (is.map (substituteOperands (mergeSubst t.params args))).flatMap instructionUses := by
    intro is hm
    obtain ⟨i', hi', hu⟩ := mem_flatMap.mp hm
    obtain ⟨i, -, rfl⟩ := mem_map.mp hi'
    rw [substituteOperands_uses] at hu
    obtain ⟨u, -, he⟩ := mem_map.mp hu
    exact happly u he
  have hterm : ∀ trm, v ∉ (substituteTerminator (mergeSubst t.params args) trm).vids := by
    intro trm hm
    rw [substituteTerminator_vids] at hm
    obtain ⟨u, -, he⟩ := mem_map.mp hm
    exact happly u he
  obtain ⟨b, -, -, rfl⟩ := (M.mem_blocks V.ids).mp hb'
  intro hm
  obtain hm | hm := mem_append.mp hm
  · rw [imageBlock] at hm
    split_ifs at hm
    · rw [mergedBlock, appendBlock, List.flatMap_append] at hm
      obtain hm | hm := mem_append.mp hm
      · exact hcode _ hm
      · exact hcode _ hm
    · exact hcode _ hm
  · rw [imageBlock] at hm
    split_ifs at hm
    · exact hterm _ hm
    · exact hterm _ hm

/-! ## The pass -/

section
variable {f : Function}

/-- **What a merge leaves of the function.** -/
theorem exists_merged (h : (mergeBlocks f).2 = true) : ∃ a t args rest, Merged f a t args rest (mergeBlocks f).1 ∧
    ∃ k, f.blocks[k]? = some t ∧ (mergeBlocks f).1.blocks.map (·.id) = (f.blocks.map (·.id)).eraseIdx k := by
  obtain hsame | ⟨a, t, args, rest, S, hperm, -, bs, hbs, hperm', hids⟩ := mergeBlocks_cases f
  · rw [hsame] at h
    cases h
  · rw [hbs]
    exact ⟨a, t, args, rest, ⟨S, hperm, hperm', rfl, rfl, rfl, rfl, rfl⟩, hids⟩

theorem mergeBlocks_of_false (h : (mergeBlocks f).2 = false) : (mergeBlocks f).1 = f := by
  obtain hsame | ⟨a, t, args, rest, -, -, htrue, -⟩ := mergeBlocks_cases f
  · rw [hsame]
  · rw [h] at htrue
    cases htrue

theorem mergeBlocks_length (h : (mergeBlocks f).2 = true) : (mergeBlocks f).1.blocks.length < f.blocks.length := by
  obtain ⟨a, t, args, rest, M, -⟩ := exists_merged h
  rw [M.before.length_eq, M.after.length_eq]
  simp

/-- **The merges come to an end.** -/
theorem mergeBlocks_iterate (f : Function) :
    ∃ k ≤ f.blocks.length, (mergeBlocks ((fun g => (mergeBlocks g).1)^[k] f)).2 = false := by
  induction hn : f.blocks.length using Nat.strong_induction_on generalizing f with
  | _ n ih =>
    subst hn
    cases h : (mergeBlocks f).2 with
    | false => exact ⟨0, Nat.zero_le _, h⟩
    | true =>
      have hlt := mergeBlocks_length h
      obtain ⟨k, hk, hend⟩ := ih _ hlt _ rfl
      exact ⟨k + 1, by omega, hend⟩

theorem eraseIdx_ids {t : BasicBlock} {k : Nat} (hids : (f.blocks.map (·.id)).Nodup) (hk : f.blocks[k]? = some t) :
    (f.blocks.map (·.id)).eraseIdx k = (f.blocks.map (·.id)).erase t.id := by
  have hget : (f.blocks.map (·.id))[k]? = some t.id := by rw [List.getElem?_map, hk, Option.map_some]
  obtain ⟨hlt, hget⟩ := List.getElem?_eq_some_iff.mp hget
  rw [← List.eraseIdx_idxOf_eq_erase, ← hget, hids.idxOf_getElem]

/-- **Block merging** of an accepted function yields an accepted function with the same runs. What it removes is a
block with one edge into it, other than the entry block, whose code goes behind that of the block the edge is from;
no block reads its parameters any more. Merging again and again comes to an end. -/
theorem mergeBlocks_preserves (f : Function) (hf : Accepts f) :
    (Accepts (mergeBlocks f).1 ∧
        ∀ (P : Program) (args : List Val) (w : World) (o : Outcome),
          P.RunsTo (mergeBlocks f).1 args w o ↔ P.RunsTo f args w o) ∧
      ((mergeBlocks f).2 = false → (mergeBlocks f).1 = f) ∧
      ((mergeBlocks f).2 = true → ∃ a t args, Merges f a t args ∧
        (mergeBlocks f).1.blocks.map (·.id) = (f.blocks.map (·.id)).erase t.id ∧
        (∀ b', b' ∈ (mergeBlocks f).1.blocks ↔ ∃ b ∈ f.blocks, b.id ≠ t.id ∧ b' = imageBlock a t args b) ∧
        ∀ b' ∈ (mergeBlocks f).1.blocks, ∀ v ∈ t.params.map (·.val), v ∉ b'.uses) ∧
      ∃ k ≤ f.blocks.length, (mergeBlocks ((fun g => (mergeBlocks g).1)^[k] f)).2 = false := by
  obtain ⟨n, hn⟩ := hf
  obtain ⟨idom, V⟩ := verifyFunction_ok_iff_verified.mp hn
  refine ⟨?_, mergeBlocks_of_false, fun h => ?_, mergeBlocks_iterate f⟩
  · cases h : (mergeBlocks f).2 with
    | true =>
      obtain ⟨a, t, args, rest, M, -⟩ := exists_merged h
      exact ⟨accepts_iff.mpr (M.wellFormed V), fun P vs w o => M.runsTo_iff V o⟩
    | false =>
      rw [mergeBlocks_of_false h]
      exact ⟨⟨n, hn⟩, fun P vs w o => Iff.rfl⟩
  · obtain ⟨a, t, args, rest, M, k, hk, hids⟩ := exists_merged h
    refine ⟨a, t, args, M.merges, hids.trans (eraseIdx_ids V.ids hk), fun b' => M.mem_blocks V.ids,
      fun b' hb' v hv => M.not_used V hb' hv⟩

end

/-- A branch with an argument: the target returns the sum of its parameter and itself. -/
def passesArgument : Function where
  name := "f"
  params := [⟨"a", "Int", 0⟩]
  returnType := "Int"
  blocks :=
    [{ id := 0, instructions := [], terminator := .branch 1 [0] },
      { id := 1, params := [⟨1, "Int", none⟩], instructions := [.binOp 2 "+" 1 1 "Int"], terminator := .ret (some 2) }]

/-- The two blocks become one, which adds the function's parameter to itself. -/
theorem mergeBlocks_preserves_argument :
    (mergeBlocks passesArgument).1.blocks.map (·.id) = [0] ∧ Accepts (mergeBlocks passesArgument).1 ∧
      (Program.bare []).RunsTo (mergeBlocks passesArgument).1 [.int 3] World.initial
        ⟨.returned (.int 6), [.returned (.int 6)]⟩ := by
  obtain ⟨⟨haccepts, hruns⟩, -⟩ := mergeBlocks_preserves passesArgument ⟨16, rfl⟩
  exact ⟨rfl, haccepts, (hruns _ _ _ _).mpr (Machine.halts_of_run (n := 16) rfl)⟩

end Datara.Optimizer
