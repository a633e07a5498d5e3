import Datara.Dmir.Frames
import Mathlib.Data.List.Nodup
import Mathlib.Data.List.Flatten

/-!
# Where a value is available

The verifier's check of a use, without indices: a value is available at a point of a block when it
is defined at the head of the block, by an instruction before the point, or in a block that
dominates this one (`Available`). `verifyFunction_ok_iff_verified` restates acceptance with it. What
is available where a block is entered was available where the edge left
(`Verified.available_of_edge`); that is the invariant a simulation carries along a run.
-/

namespace Datara.Dmir

open Library
open List (inj_on_of_nodup_map mem_append mem_append_left mem_append_right mem_filter mem_flatMap mem_map)

/-! ## Blocks -/

theorem Function.getBlock_eq_some {f : Function} {id : BasicBlockId} {b : BasicBlock}
    (h : f.getBlock id = some b) : b ∈ f.blocks ∧ b.id = id := by
  have find : f.blocks.find? (fun b => decide (b.id = id)) = some b → b ∈ f.blocks ∧ b.id = id :=
    fun h => ⟨List.mem_of_find?_eq_some h, by simpa using List.find?_some h⟩
  unfold Function.getBlock at h
  split at h
  case h_1 c hc =>
    split_ifs at h with hid
    · cases h
      exact ⟨List.mem_of_getElem? hc, hid⟩
    · exact find h
  case h_2 => exact find h

theorem Function.getBlock_of_mem {f : Function} {b : BasicBlock}
    (hids : (f.blocks.map (·.id)).Nodup) (hb : b ∈ f.blocks) : f.getBlock b.id = some b := by
  have same : ∀ c, f.getBlock b.id = some c → c = b := fun c hc => by
    obtain ⟨hc, hid⟩ := getBlock_eq_some hc
    exact inj_on_of_nodup_map hids hc hb hid
  cases hg : f.getBlock b.id with
  | some c => rw [same c hg]
  | none =>
    exfalso
    have find : f.blocks.find? (fun c => decide (c.id = b.id)) ≠ none := fun hn => by
      simpa using List.find?_eq_none.mp hn b hb
    unfold Function.getBlock at hg
    split at hg
    case h_1 c hc =>
      split_ifs at hg
      exact find hg
    case h_2 => exact find hg

variable {args : List Val}

theorem Function.mem_of_steps {P : Program} {f : Function} {w : World}
    {s : Frame × World} (h : P.leafMachine.Steps (f.start args, w) s) :
    s.1.fn = f ∧ ∀ i ∈ s.1.code, ∃ b ∈ f.blocks, i ∈ b.instructions := by
  refine h.invariant (I := fun s => s.1.fn = f ∧ ∀ i ∈ s.1.code, ∃ b ∈ f.blocks, i ∈ b.instructions)
    (fun a c ha hstep => ?_) ⟨rfl, fun i hi => ?_⟩
  · obtain ⟨hfn, hcode⟩ := ha
    simp only [Program.leafMachine, Program.leafStep] at hstep
    split at hstep
    case h_1 i rest hc =>
      split at hstep
      · cases hstep
        exact ⟨hfn, fun j hj => hcode j (hc ▸ List.mem_cons_of_mem _ hj)⟩
      · cases hstep
    case h_2 =>
      split at hstep
      · split at hstep
        case h_1 F hF =>
          cases hstep
          obtain ⟨b, hb, rfl⟩ := Option.map_eq_some_iff.mp hF
          exact ⟨hfn, fun j hj => ⟨b, hfn ▸ (getBlock_eq_some hb).1, hj⟩⟩
        case h_2 => cases hstep
      · cases hstep
      · cases hstep
  · simp only [Function.start] at hi
    cases hb : f.getBlock f.entryBlock with
    | none => simp [hb] at hi
    | some b => exact ⟨b, (getBlock_eq_some hb).1, by simpa [hb] using hi⟩

theorem Function.term_of_steps {P : Program} {f : Function} {w : World}
    {s : Frame × World} (h : P.leafMachine.Steps (f.start args, w) s) :
    s.1.term = .unreachable ∨ ∃ b ∈ f.blocks, s.1.term = b.terminator := by
  refine (h.invariant (I := fun s => s.1.fn = f ∧
    (s.1.term = .unreachable ∨ ∃ b ∈ f.blocks, s.1.term = b.terminator)) (fun a c ha hstep => ?_)
    ⟨rfl, ?_⟩).2
  · obtain ⟨hfn, hterm⟩ := ha
    simp only [Program.leafMachine, Program.leafStep] at hstep
    split at hstep
    case h_1 =>
      split at hstep <;> cases hstep
      exact ⟨hfn, hterm⟩
    case h_2 =>
      split at hstep
      · split at hstep
        case h_1 F hF =>
          cases hstep
          obtain ⟨b, hb, rfl⟩ := Option.map_eq_some_iff.mp hF
          exact ⟨hfn, .inr ⟨b, hfn ▸ (getBlock_eq_some hb).1, rfl⟩⟩
        case h_2 => cases hstep
      · cases hstep
      · cases hstep
  · cases hb : f.getBlock f.entryBlock with
    | none => exact .inl (by simp [Function.start, hb])
    | some b => exact .inr ⟨b, (getBlock_eq_some hb).1, by simp [Function.start, hb]⟩

/-! ## Availability -/

/-- The values defined at the head of a block: its parameters, and at the entry the function's. -/
def Function.headDefs (f : Function) (b : BasicBlock) : List ValueId :=
  (if b.id = f.entryBlock then f.params.map (·.val) else []) ++ b.params.map (·.val)

/-- The values a list of instructions defines. -/
def destsOf (is : List Inst) : List ValueId := is.flatMap Inst.dests

/-- The values a block defines. -/
def Function.definesIn (f : Function) (b : BasicBlock) : List ValueId :=
  f.headDefs b ++ destsOf b.instructions

/-- `v` is available in block `b` after the instructions `before`. -/
def Available (f : Function) (dom : BasicBlockId → BasicBlockId → Prop) (b : BasicBlock)
    (before : List Inst) (v : ValueId) : Prop :=
  v ∈ f.headDefs b ∨ v ∈ destsOf before ∨
    ∃ b' ∈ f.blocks, b'.id ≠ b.id ∧ v ∈ f.definesIn b' ∧ dom b'.id b.id

theorem Available.mono {f : Function} {dom dom' : BasicBlockId → BasicBlockId → Prop}
    {b : BasicBlock} {before before' : List Inst} {v : ValueId}
    (hd : ∀ a b, dom a b → dom' a b) (hb : before ⊆ before') (h : Available f dom b before v) :
    Available f dom' b before' v := by
  rcases h with h | h | ⟨b', hb', hne, hv, h⟩
  · exact .inl h
  · obtain ⟨i, hi, hv⟩ := mem_flatMap.mp h
    exact .inr (.inl (mem_flatMap.mpr ⟨i, hb hi, hv⟩))
  · exact .inr (.inr ⟨b', hb', hne, hv, hd _ _ h⟩)

variable {i : Inst}

theorem Available.cases_snoc {f : Function} {dom : BasicBlockId → BasicBlockId → Prop}
    {b : BasicBlock} {before : List Inst} {v : ValueId}
    (h : Available f dom b (before ++ [i]) v) : v ∈ i.dests ∨ Available f dom b before v := by
  rcases h with h | h | h
  · exact .inr (.inl h)
  · rw [destsOf, List.flatMap_append, mem_append] at h
    rcases h with h | h
    · exact .inr (.inr (.inl h))
    · exact .inl (by simpa using h)
  · exact .inr (.inr (.inr h))

theorem Available.le_maxValueId {f : Function} {dom : BasicBlockId → BasicBlockId → Prop}
    {b : BasicBlock} {before : List Inst} {v : ValueId} (h : Available f dom b before v)
    (hb : b ∈ f.blocks) (hbefore : before ⊆ b.instructions) : v ≤ f.maxValueId := by
  have inst : ∀ c ∈ f.blocks, ∀ x ∈ c.instructions, v ∈ x.dests → v ≤ f.maxValueId := by
    intro c hc x hx hv
    refine Dmir.le_maxValueId (mem_append_right _ (mem_flatMap.mpr ⟨c, hc, ?_⟩))
    exact mem_append_left _ (mem_append_right _
      (mem_flatMap.mpr ⟨x, hx, x.dests_subset_visitVids hv⟩))
  have head : ∀ c ∈ f.blocks, v ∈ f.headDefs c → v ≤ f.maxValueId := by
    intro c hc hv
    refine Dmir.le_maxValueId ?_
    rcases mem_append.mp hv with hv | hv
    · split_ifs at hv
      · exact mem_append_left _ hv
      · cases hv
    · exact mem_append_right _ (mem_flatMap.mpr
        ⟨c, hc, mem_append_left _ (mem_append_left _ hv)⟩)
  rcases h with h | h | ⟨c, hc, _, h, _⟩
  · exact head b hb h
  · obtain ⟨x, hx, hv⟩ := mem_flatMap.mp h
    exact inst b hb x (hbefore hx) hv
  · rcases mem_append.mp h with h | h
    · exact head c hc h
    · obtain ⟨x, hx, hv⟩ := mem_flatMap.mp h
      exact inst c hc x hx hv

/-- What the verifier has checked of a function. -/
structure Verified (n : Nat) (f : Function) (idom : Cfg.Idom) : Prop where
  ids : (f.blocks.map (·.id)).Nodup
  entry : f.entryBlock ∈ f.blocks.map (·.id)
  once : (f.defs.map (·.1)).Nodup
  dominance : Cfg.computeDominance n f = some idom
  uses : ∀ b ∈ f.blocks, ∀ before i after, b.instructions = before ++ i :: after →
    ∀ v ∈ instructionUses i,
      Available f (fun d b => Cfg.dominates n idom d b = some true) b before v
  termUses : ∀ b ∈ f.blocks, ∀ v ∈ b.terminator.vids,
    Available f (fun d b => Cfg.dominates n idom d b = some true) b b.instructions v
  edges : ∀ b ∈ f.blocks, EdgesOk f b.terminator

/-! ## Definitions -/

section
variable {f : Function} {b : BasicBlock} {v : ValueId}

theorem instDefs_keys (id : BasicBlockId) (k : Nat) (is : List Inst) :
    (instDefs id k is).map (·.1) = destsOf is := by
  induction is generalizing k with
  | nil => rfl
  | cons i is ih => simp [instDefs, destsOf, ih, Function.comp_def]

variable {s : DefSite}

theorem mem_instDefs {id : BasicBlockId} {k : Nat} {is : List Inst} {kind : String} :
    (v, s, kind) ∈ instDefs id k is ↔
      kind = "instruction result" ∧ ∃ j i, is[j]? = some i ∧ v ∈ i.dests ∧ s = (id, some (k + j)) := by
  induction is generalizing k with
  | nil => simp [instDefs]
  | cons i is ih =>
    rw [instDefs, mem_append, ih]
    constructor
    · rintro (h | ⟨rfl, j, i', hj, hv, rfl⟩)
      · obtain ⟨d, hd, he⟩ := mem_map.mp h
        obtain ⟨rfl, rfl, rfl⟩ := he
        exact ⟨rfl, 0, i, rfl, hd, rfl⟩
      · exact ⟨rfl, j + 1, i', hj, hv, by rw [Nat.add_right_comm]; rfl⟩
    · rintro ⟨rfl, j, i', hj, hv, rfl⟩
      cases j with
      | zero =>
        cases hj
        exact .inl (mem_map.mpr ⟨v, hv, rfl⟩)
      | succ j => exact .inr ⟨rfl, j, i', hj, hv, by rw [Nat.add_right_comm]; rfl⟩

theorem Function.mem_defs :
    (∃ kind, (v, s, kind) ∈ f.defs) ↔
      (v ∈ f.params.map (·.val) ∧ s = (f.entryBlock, none)) ∨
        ∃ b ∈ f.blocks, (v ∈ b.params.map (·.val) ∧
            ¬(b.id = f.entryBlock ∧ v ∈ f.params.map (·.val)) ∧ s = (b.id, none)) ∨
          ∃ j i, b.instructions[j]? = some i ∧ v ∈ i.dests ∧ s = (b.id, some j) := by
  have hmirror : ∀ (b : BasicBlock) (p : BlockParam),
      (!f.mirrors b p) = true ↔ ¬(b.id = f.entryBlock ∧ p.val ∈ f.params.map (·.val)) := by
    intro b p
    simp [Function.mirrors, imp_iff_not_or]
  constructor
  · rintro ⟨kind, h⟩
    rcases mem_append.mp h with h | h
    · obtain ⟨p, hp, he⟩ := mem_map.mp h
      obtain ⟨rfl, rfl, _⟩ := he
      exact .inl ⟨List.mem_map_of_mem hp, rfl⟩
    · obtain ⟨b, hb, h⟩ := mem_flatMap.mp h
      refine .inr ⟨b, hb, ?_⟩
      rcases mem_append.mp h with h | h
      · obtain ⟨p, hp, he⟩ := mem_map.mp h
        obtain ⟨hp, hm⟩ := mem_filter.mp hp
        obtain ⟨rfl, rfl, _⟩ := he
        exact .inl ⟨List.mem_map_of_mem hp, (hmirror b p).mp hm, rfl⟩
      · obtain ⟨_, j, i, hj, hv, rfl⟩ := mem_instDefs.mp h
        exact .inr ⟨j, i, hj, hv, by rw [Nat.zero_add]⟩
  · rintro (⟨hv, rfl⟩ | ⟨b, hb, ⟨hv, hm, rfl⟩ | ⟨j, i, hj, hv, rfl⟩⟩)
    · obtain ⟨p, hp, rfl⟩ := mem_map.mp hv
      exact ⟨_, mem_append_left _ (mem_map.mpr ⟨p, hp, rfl⟩)⟩
    · obtain ⟨p, hp, rfl⟩ := mem_map.mp hv
      refine ⟨"block parameter",
        mem_append_right _ (mem_flatMap.mpr ⟨b, hb, mem_append_left _ ?_⟩)⟩
      exact mem_map.mpr ⟨p, mem_filter.mpr ⟨hp, (hmirror b p).mpr hm⟩, rfl⟩
    · refine ⟨"instruction result",
        mem_append_right _ (mem_flatMap.mpr ⟨b, hb, mem_append_right _ ?_⟩)⟩
      exact mem_instDefs.mpr ⟨rfl, j, i, hj, hv, by rw [Nat.zero_add]⟩

theorem site_eq_some_iff (h : (f.defs.map (·.1)).Nodup) : f.site v = some s ↔ ∃ kind, (v, s, kind) ∈ f.defs := by
  unfold Function.site firstSite
  constructor
  · intro hs
    obtain ⟨x, hx, rfl⟩ := Option.map_eq_some_iff.mp hs
    have hv : x.1 = v := by simpa using List.find?_some hx
    exact ⟨x.2.2, hv ▸ List.mem_of_find?_eq_some hx⟩
  · rintro ⟨kind, hm⟩
    cases hf : f.defs.find? (·.1 = v) with
    | none => simpa using List.find?_eq_none.mp hf _ hm
    | some x =>
      have hv : x.1 = v := by simpa using List.find?_some hf
      have : x = (v, s, kind) := inj_on_of_nodup_map h (List.mem_of_find?_eq_some hf) hm hv
      rw [this]; rfl

theorem mem_destsOf {is : List Inst} : v ∈ destsOf is ↔ ∃ (j : Nat) (i : Inst), is[j]? = some i ∧ v ∈ i.dests := by
  rw [destsOf, mem_flatMap]
  constructor
  · rintro ⟨i, hi, hv⟩
    obtain ⟨j, hj⟩ := List.mem_iff_getElem?.mp hi
    exact ⟨j, i, hj, hv⟩
  · rintro ⟨j, i, hj, hv⟩
    exact ⟨i, List.mem_of_getElem? hj, hv⟩

theorem site_of_headDefs (h : (f.defs.map (·.1)).Nodup) (hb : b ∈ f.blocks)
    (hv : v ∈ f.headDefs b) : f.site v = some (b.id, none) := by
  rw [site_eq_some_iff h, Function.mem_defs]
  unfold Function.headDefs at hv
  by_cases hp : b.id = f.entryBlock ∧ v ∈ f.params.map (·.val)
  · exact .inl ⟨hp.2, by rw [hp.1]⟩
  · right
    refine ⟨b, hb, .inl ⟨?_, hp, rfl⟩⟩
    rcases mem_append.mp hv with hv | hv
    · split_ifs at hv with he
      · exact absurd ⟨he, hv⟩ hp
      · cases hv
    · exact hv

theorem site_of_dest (h : (f.defs.map (·.1)).Nodup) (hb : b ∈ f.blocks) {j : Nat}
    (hj : b.instructions[j]? = some i) (hv : v ∈ i.dests) : f.site v = some (b.id, some j) := by
  rw [site_eq_some_iff h, Function.mem_defs]
  exact .inr ⟨b, hb, .inr ⟨j, i, hj, hv, rfl⟩⟩

theorem definesIn_of_site (h : (f.defs.map (·.1)).Nodup) {d : BasicBlockId} {j : Option Nat}
    (hent : f.entryBlock ∈ f.blocks.map (·.id)) (hs : f.site v = some (d, j)) :
    ∃ b ∈ f.blocks, b.id = d ∧
      ((j = none ∧ v ∈ f.headDefs b) ∨ ∃ k i, j = some k ∧ b.instructions[k]? = some i ∧ v ∈ i.dests) := by
  rcases Function.mem_defs.mp ((site_eq_some_iff h).mp hs) with
    ⟨hv, he⟩ | ⟨b, hb, ⟨hv, _, he⟩ | ⟨k, i, hk, hv, he⟩⟩
  · cases he
    obtain ⟨b, hb, hid⟩ := mem_map.mp hent
    exact ⟨b, hb, hid, .inl ⟨rfl, mem_append_left _ (by rwa [if_pos hid])⟩⟩
  · cases he
    exact ⟨b, hb, rfl, .inl ⟨rfl, mem_append_right _ hv⟩⟩
  · cases he
    exact ⟨b, hb, rfl, .inr ⟨k, i, rfl, hk, hv⟩⟩

/-- An accepted use is of an available value, and the other way round. -/
theorem useOk_iff {n : Nat} {idom : Cfg.Idom} {u : Option Nat}
    (hids : (f.blocks.map (·.id)).Nodup) (hent : f.entryBlock ∈ f.blocks.map (·.id))
    (honce : (f.defs.map (·.1)).Nodup) (hb : b ∈ f.blocks) :
    UseOk n f idom b.id u v ↔
      Available f (fun d b => Cfg.dominates n idom d b = some true) b
        (match u with | some k => b.instructions.take k | none => b.instructions) v := by
  constructor
  · rintro ⟨d, j, hs, h⟩
    obtain ⟨b', hb', rfl, hdef⟩ := definesIn_of_site honce hent hs
    rcases h with ⟨hid, hu⟩ | ⟨hne, hd⟩
    · obtain rfl : b' = b := inj_on_of_nodup_map hids hb' hb hid
      rcases hdef with ⟨_, hv⟩ | ⟨k, i, rfl, hk, hv⟩
      · exact .inl hv
      · refine .inr (.inl (mem_destsOf.mpr ⟨k, i, ?_, hv⟩))
        cases u with
        | none => exact hk
        | some u =>
          rw [List.getElem?_take, if_pos (of_decide_eq_true hu)]
          exact hk
    · refine .inr (.inr ⟨b', hb', hne, ?_, hd⟩)
      rcases hdef with ⟨_, hv⟩ | ⟨k, i, _, hk, hv⟩
      · exact mem_append_left _ hv
      · exact mem_append_right _ (mem_destsOf.mpr ⟨k, i, hk, hv⟩)
  · rintro (hv | hv | ⟨b', hb', hne, hv, hd⟩)
    · exact ⟨b.id, none, site_of_headDefs honce hb hv, .inl ⟨rfl, rfl⟩⟩
    · obtain ⟨k, i, hk, hi⟩ := mem_destsOf.mp hv
      cases u with
      | none => exact ⟨b.id, some k, site_of_dest honce hb hk hi, .inl ⟨rfl, rfl⟩⟩
      | some u =>
        simp only [List.getElem?_take] at hk
        split_ifs at hk with hlt
        exact ⟨b.id, some k, site_of_dest honce hb hk hi, .inl ⟨rfl, decide_eq_true hlt⟩⟩
    · rcases mem_append.mp hv with hv | hv
      · exact ⟨b'.id, none, site_of_headDefs honce hb' hv, .inr ⟨hne, hd⟩⟩
      · obtain ⟨k, i, hk, hv⟩ := mem_destsOf.mp hv
        exact ⟨b'.id, some k, site_of_dest honce hb' hk hv, .inr ⟨hne, hd⟩⟩

end

/-- **Acceptance, by availability.** -/
theorem verifyFunction_ok_iff_verified {n : Nat} {f : Function} :
    verifyFunction n f = .ok () ↔ ∃ idom, Verified n f idom := by
  rw [verifyFunction_ok_iff]
  constructor
  · rintro ⟨hids, hent, honce, idom, hd, hok⟩
    refine ⟨idom, hids, hent, honce, hd, fun b hb before i after hi v hv => ?_, fun b hb v hv => ?_,
      fun b hb => (hok b hb).edges⟩
    · have := (useOk_iff hids hent honce hb).mp ((hok b hb).uses before.length i (by simp [hi]) v hv)
      simpa [hi] using this
    · exact (useOk_iff hids hent honce hb).mp ((hok b hb).termUses v hv)
  · rintro ⟨idom, V⟩
    refine ⟨V.ids, V.entry, V.once, idom, V.dominance, fun b hb => ⟨fun k i hi v hv => ?_,
      fun v hv => ?_, V.edges b hb⟩⟩
    · refine (useOk_iff V.ids V.entry V.once hb).mpr ?_
      refine V.uses b hb (b.instructions.take k) i (b.instructions.drop (k + 1)) ?_ v hv
      obtain ⟨hk, rfl⟩ := List.getElem?_eq_some_iff.mp hi
      rw [← List.drop_eq_getElem_cons hk, List.take_append_drop]
    · exact (useOk_iff V.ids V.entry V.once hb).mpr (V.termUses b hb v hv)

/-! ## Along an edge -/

namespace Verified

variable {n : Nat} {f : Function} {idom : Cfg.Idom} {b b' : BasicBlock} {v : ValueId}

theorem blocks_ne_nil (V : Verified n f idom) : f.blocks ≠ [] := by
  intro h
  have := V.entry
  rw [h] at this
  cases this

theorem tree (V : Verified n f idom) :
    ∃ rank, DominatorTree (fun p b => b ∈ Cfg.successors f p) f.entryBlock idom rank :=
  Cfg.dominatorTree_of_computeDominance V.dominance V.blocks_ne_nil

variable {t : BasicBlockId}

section
variable (V : Verified n f idom)
include V

theorem mem_successors (hb : b ∈ f.blocks) :
    t ∈ Cfg.successors f b.id ↔ t ∈ b.terminator.targets := by
  rw [← Terminator.mem_successors, Cfg.successors, mem_flatMap]
  constructor
  · rintro ⟨c, hc, ht⟩
    obtain ⟨hc, hid⟩ := mem_filter.mp hc
    obtain rfl : c = b := inj_on_of_nodup_map V.ids hc hb (of_decide_eq_true hid)
    exact ht
  · exact fun ht => ⟨b, mem_filter.mpr ⟨hb, decide_eq_true rfl⟩, ht⟩

theorem reached_entry : (idom f.entryBlock).isSome := by
  obtain ⟨rank, T⟩ := V.tree
  rw [T.root]; rfl

theorem reached_of_edge (hb : b ∈ f.blocks) (hr : (idom b.id).isSome)
    (ht : t ∈ b.terminator.targets) : (idom t).isSome := by
  obtain ⟨rank, T⟩ := V.tree
  exact T.closed hr ((V.mem_successors hb).mpr ht)

/-- **What is available where an edge arrives was available where it left**, or is a parameter of
the block. -/
theorem available_of_edge (hb : b ∈ f.blocks) (hb' : b' ∈ f.blocks)
    (hr : (idom b.id).isSome) (ht : b'.id ∈ b.terminator.targets)
    (h : Available f (Anc idom) b' [] v) :
    v ∈ b'.params.map (·.val) ∨ Available f (Anc idom) b b.instructions v := by
  obtain ⟨rank, T⟩ := V.tree
  -- a value defined in a dominator of `b` is available at the end of `b`
  have here : ∀ c ∈ f.blocks, v ∈ f.definesIn c → Anc idom c.id b.id →
      Available f (Anc idom) b b.instructions v := by
    intro c hc hv hanc
    by_cases hcb : c.id = b.id
    · obtain rfl : c = b := inj_on_of_nodup_map V.ids hc hb hcb
      exact (mem_append.mp hv).imp_right .inl
    · exact .inr (.inr ⟨c, hc, hcb, hv, hanc⟩)
  rcases h with h | h | ⟨c, hc, hne, hv, hanc⟩
  · rcases mem_append.mp h with h | h
    · -- a function parameter, when the entry is a branch target
      split_ifs at h with he
      · right
        refine here b' hb' (mem_append_left _ (mem_append_left _ (by rwa [if_pos he]))) ?_
        rw [he]
        exact T.entry_anc hr
      · cases h
    · exact .inl h
  · cases h
  · exact .inr (here c hc hv (T.anc_of_edge hr ((V.mem_successors hb).mpr ht) hanc hne))

/-- Registers that agree on what is available at the end of a block agree, with the same arguments,
on what is available where an edge arrives. -/
theorem agree_into (hb : b ∈ f.blocks) (hb' : b' ∈ f.blocks)
    (hr : (idom b.id).isSome) (ht : b'.id ∈ b.terminator.targets)
    (hlen : args.length = b'.params.length) {regs regs' : ValueId → Val}
    (h : ∀ u, Available f (Anc idom) b b.instructions u → regs u = regs' u)
    (hv : Available f (Anc idom) b' [] v) :
    bindRegs regs ((b'.params.map (·.val)).zip args) v =
      bindRegs regs' ((b'.params.map (·.val)).zip args) v := by
  refine bindRegs_congr fun hn => ?_
  have hkeys : ((b'.params.map (·.val)).zip args).map (·.1) = b'.params.map (·.val) :=
    List.map_fst_zip (by simp [hlen])
  exact h v ((V.available_of_edge hb hb' hr ht hv).resolve_left (hkeys ▸ hn))

theorem exit_goto (hb : b ∈ f.blocks) {rd : ValueId → Val}
    (h : b.terminator.exit f rd = .goto t args) :
    ∃ c ∈ f.blocks, f.getBlock t = some c ∧ c.id = t ∧ args.length = c.params.length ∧
      c.id ∈ b.terminator.targets := by
  have main : ∀ {as : List ValueId}, (∃ c, f.getBlock t = some c ∧ as.length = c.params.length) →
      args = as.map rd → t ∈ b.terminator.targets →
      ∃ c ∈ f.blocks, f.getBlock t = some c ∧ c.id = t ∧ args.length = c.params.length ∧
        c.id ∈ b.terminator.targets := by
    rintro as ⟨c, hc, hlen⟩ rfl ht
    obtain ⟨hmem, hid⟩ := Function.getBlock_eq_some hc
    exact ⟨c, hmem, hc, hid, by simpa using hlen, hid ▸ ht⟩
  have hok := V.edges b hb
  cases hterm : b.terminator with
  | branch t' as =>
    rw [hterm] at h hok
    cases h
    exact hterm ▸ main hok rfl (by simp [hterm, Terminator.targets])
  | condBranch c t' ta e ea =>
    rw [hterm] at h hok
    simp only [Terminator.exit] at h
    split_ifs at h <;> cases h
    · exact hterm ▸ main hok.1 rfl (by simp [hterm, Terminator.targets])
    · exact hterm ▸ main hok.2 rfl (by simp [hterm, Terminator.targets])
  | ret v => rw [hterm] at h; cases h
  | unreachable => rw [hterm] at h; cases h

end

variable {before after : List Inst}

section
variable (V : Verified n f idom)
include V

theorem use_available (hb : b ∈ f.blocks)
    (hi : b.instructions = before ++ i :: after) (hv : v ∈ instructionUses i) :
    Available f (Anc idom) b before v :=
  (V.uses b hb before i after hi v hv).mono (fun _ _ => Cfg.anc_of_dominates) (fun _ => id)

theorem termUse_available (hb : b ∈ f.blocks)
    (hv : v ∈ b.terminator.vids) : Available f (Anc idom) b b.instructions v :=
  (V.termUses b hb v hv).mono (fun _ _ => Cfg.anc_of_dominates) (fun _ => id)

theorem dests_nodup (hb : b ∈ f.blocks) : (destsOf b.instructions).Nodup := by
  have hsub : ((instDefs b.id 0 b.instructions).map (·.1)).Sublist (f.defs.map (·.1)) := by
    refine List.Sublist.map _ (List.Sublist.trans ?_ (List.sublist_append_right _ _))
    refine List.Sublist.trans (List.sublist_append_right _ _) (?_ : (f.blockDefs b).Sublist _)
    exact List.sublist_flatten_of_mem (List.mem_map_of_mem hb)
  rw [← instDefs_keys b.id 0]
  exact V.once.sublist hsub

theorem params_nodup (hb : b ∈ f.blocks) (hne : b.id ≠ f.entryBlock) :
    (b.params.map (·.val)).Nodup := by
  have hall : b.params.filter (fun p => !f.mirrors b p) = b.params := by
    apply List.filter_eq_self.mpr
    intro p _
    simp [Function.mirrors, hne]
  have hkeys : ((b.params.filter (fun p => !f.mirrors b p)).map fun p =>
      (p.val, ((b.id, none) : DefSite), "block parameter")).map (·.1) = b.params.map (·.val) := by
    rw [hall, List.map_map]
    rfl
  rw [← hkeys]
  refine V.once.sublist (List.Sublist.map _ (.trans ?_ (List.sublist_append_right _ _)))
  refine .trans (List.sublist_append_left _ _) (?_ : (f.blockDefs b).Sublist _)
  exact List.sublist_flatten_of_mem (List.mem_map_of_mem hb)

end

theorem getElem?_split (hi : b.instructions = before ++ i :: after) : b.instructions[before.length]? = some i := by
  rw [hi, List.getElem?_append_right (Nat.le_refl _), Nat.sub_self]; rfl

theorem def_unique (V : Verified n f idom) (hb : b ∈ f.blocks) (hb' : b' ∈ f.blocks)
    {before after before' after' : List Inst} {i i' : Inst}
    (hi : b.instructions = before ++ i :: after) (hv : v ∈ i.dests)
    (hi' : b'.instructions = before' ++ i' :: after') (hv' : v ∈ i'.dests) :
    b = b' ∧ before = before' ∧ i = i' := by
  have hs := site_of_dest V.once hb (getElem?_split hi) hv
  have hs' := site_of_dest V.once hb' (getElem?_split hi') hv'
  obtain ⟨hid, hlen⟩ := Prod.mk.inj (Option.some.inj (hs.symm.trans hs'))
  obtain rfl : b = b' := inj_on_of_nodup_map V.ids hb hb' hid
  obtain ⟨rfl, he⟩ := List.append_inj (hi.symm.trans hi') (Option.some.inj hlen)
  exact ⟨rfl, rfl, (List.cons.inj he).1⟩

theorem head_not_dest (V : Verified n f idom) (hb : b ∈ f.blocks) (hb' : b' ∈ f.blocks)
    (hi : b.instructions = before ++ i :: after)
    (hv : v ∈ i.dests) : v ∉ f.headDefs b' := fun hh => by
  have hs := site_of_dest V.once hb (getElem?_split hi) hv
  have hs' := site_of_headDefs V.once hb' hh
  cases (Prod.mk.inj (Option.some.inj (hs.symm.trans hs'))).2

end Verified

end Datara.Dmir
