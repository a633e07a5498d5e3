import Datara.Dmir.Availability

/-!
# What acceptance promises of an execution

The verifier reasons about the control-flow graph; this module is about executions. An execution
takes any edge of a terminator, whatever the values are, and remembers which values it has assigned
(`Executes`). Every value that an accepted function reads was assigned before, and every edge binds
the parameters of its target, with one exception: a parameter of the entry block that is no function
parameter is taken for defined, and nothing binds it when the function is entered.
`verifyFunction_sound_iff` says that this is the only exception.
-/

namespace Datara.Dmir

open Library

/-- The edges of a terminator, with the arguments they pass. -/
def Terminator.edges : Terminator → List (BasicBlockId × List ValueId)
  | .branch t args => [(t, args)]
  | .condBranch _ t ta e ea => [(t, ta), (e, ea)]
  | .ret _ | .unreachable => []

/-- A point of an execution: the block, the instructions of it that were executed, and the values
assigned so far. -/
structure Point where
  block : BasicBlock
  before : List Inst
  assigned : List ValueId

/-- The values an edge binds: a parameter for each argument. -/
def BasicBlock.bound (b : BasicBlock) (args : List ValueId) : List ValueId :=
  (b.params.map (·.val)).take args.length

/-- The points an execution can be at. The function is entered with its parameters assigned;
instructions assign what they define, and any edge may be taken. -/
inductive Executes (f : Function) : Point → Prop
  | entry {b : BasicBlock} : f.getBlock f.entryBlock = some b →
      Executes f ⟨b, [], f.params.map (·.val)⟩
  | inst {b : BasicBlock} {before after : List Inst} {i : Inst} {A : List ValueId} :
      Executes f ⟨b, before, A⟩ → b.instructions = before ++ i :: after →
      Executes f ⟨b, before ++ [i], i.dests ++ A⟩
  | edge {b c : BasicBlock} {A : List ValueId} {e : BasicBlockId × List ValueId} :
      Executes f ⟨b, b.instructions, A⟩ → e ∈ b.terminator.edges → f.getBlock e.1 = some c →
      Executes f ⟨c, [], c.bound e.2 ++ A⟩

/-- The next instruction, or the terminator at the end of the block, reads assigned values. -/
structure Point.ReadsAssigned (p : Point) : Prop where
  inst : ∀ i after, p.block.instructions = p.before ++ i :: after →
    ∀ v ∈ instructionUses i, v ∈ p.assigned
  term : p.before = p.block.instructions → ∀ v ∈ p.block.terminator.vids, v ∈ p.assigned

/-- Every edge out of a block goes to a block, and binds exactly its parameters. -/
def BasicBlock.EdgesBind (f : Function) (b : BasicBlock) : Prop :=
  ∀ e ∈ b.terminator.edges, ∃ c, f.getBlock e.1 = some c ∧ c.id = e.1 ∧
    c.bound e.2 = c.params.map (·.val) ∧ e.2.length = c.params.length

/-- The blocks the entry reaches. -/
def Function.Reaches (f : Function) (b : BasicBlockId) : Prop :=
  Relation.ReflTransGen (fun p b => b ∈ Cfg.successors f p) f.entryBlock b

/-- The parameters of the entry block that are no function parameters. -/
def Function.unboundParams (f : Function) : List ValueId :=
  ((f.getBlock f.entryBlock).toList.flatMap fun b => b.params.map (·.val)).filter
    (· ∉ f.params.map (·.val))

/-- The values a block reads. -/
def BasicBlock.uses (b : BasicBlock) : List ValueId :=
  b.instructions.flatMap instructionUses ++ b.terminator.vids

/-- No block that is reached reads a parameter that entering the function leaves unbound. -/
def EntryParamsBound (f : Function) : Prop :=
  ∀ b ∈ f.blocks, f.Reaches b.id → ∀ v ∈ f.unboundParams, v ∉ b.uses

section
variable {f : Function} {b c e : BasicBlock} {v : ValueId}

theorem mem_unboundParams (he : f.getBlock f.entryBlock = some e) :
    v ∈ f.unboundParams ↔ v ∈ e.params.map (·.val) ∧ v ∉ f.params.map (·.val) := by
  simp [Function.unboundParams, he]

theorem Terminator.mem_targets {t : Terminator} {id : BasicBlockId} : id ∈ t.targets ↔ ∃ d ∈ t.edges, d.1 = id := by
  cases t <;> simp [targets, edges, eq_comm]

theorem BasicBlock.mem_bound_of_length {args : List ValueId} (h : args.length = b.params.length) :
    b.bound args = b.params.map (·.val) := by
  rw [bound, List.take_of_length_le (by simp [h])]

theorem EdgesOk.bind (h : EdgesOk f b.terminator) : b.EdgesBind f := by
  have main : ∀ {t : BasicBlockId} {args : List ValueId},
      (∃ c, f.getBlock t = some c ∧ args.length = c.params.length) →
      ∃ c, f.getBlock t = some c ∧ c.id = t ∧ c.bound args = c.params.map (·.val) ∧
        args.length = c.params.length := by
    rintro t args ⟨c, hc, hlen⟩
    exact ⟨c, hc, (Function.getBlock_eq_some hc).2, BasicBlock.mem_bound_of_length hlen, hlen⟩
  rintro ⟨t, args⟩ hmem
  cases hterm : b.terminator with
  | branch t' args' =>
    rw [hterm] at h hmem
    cases List.mem_singleton.mp hmem
    exact main h
  | condBranch c t' ta e' ea =>
    rw [hterm] at h hmem
    rcases List.mem_cons.mp hmem with hd | hd
    · cases hd
      exact main h.1
    · cases List.mem_singleton.mp hd
      exact main h.2
  | ret v => rw [hterm] at hmem; cases hmem
  | unreachable => rw [hterm] at hmem; cases hmem

end

/-! ## Every available value was assigned -/

section
variable {n : Nat} {f : Function} {idom : Cfg.Idom} {v : ValueId}

/-- What an execution keeps: it is in a block that is reached, and every available value was
assigned or is an unbound parameter. -/
structure Tracked (f : Function) (idom : Cfg.Idom) (p : Point) : Prop where
  mem : p.block ∈ f.blocks
  inTree : (idom p.block.id).isSome
  reaches : f.Reaches p.block.id
  split : ∃ after, p.block.instructions = p.before ++ after
  assigned : ∀ v, Available f (Anc idom) p.block p.before v → v ∈ p.assigned ∨ v ∈ f.unboundParams

theorem Verified.getBlock_entry (V : Verified n f idom) :
    ∃ b ∈ f.blocks, f.getBlock f.entryBlock = some b ∧ b.id = f.entryBlock := by
  obtain ⟨b, hb, hid⟩ := List.mem_map.mp V.entry
  exact ⟨b, hb, hid ▸ Function.getBlock_of_mem V.ids hb, hid⟩

theorem Tracked.entry (V : Verified n f idom) {b : BasicBlock}
    (hb : f.getBlock f.entryBlock = some b) :
    Tracked f idom ⟨b, [], f.params.map (·.val)⟩ := by
  obtain ⟨hmem, hid⟩ := Function.getBlock_eq_some hb
  obtain ⟨rank, T⟩ := V.tree
  refine ⟨hmem, hid ▸ V.reached_entry, ?_, ⟨b.instructions, rfl⟩, fun v hv => ?_⟩
  · rw [hid]
    exact .refl
  · rcases hv with hv | hv | ⟨c, _, hne, _, hanc⟩
    · rw [Function.headDefs, if_pos hid] at hv
      by_cases hp : v ∈ f.params.map (·.val)
      · exact .inl hp
      · exact .inr ((mem_unboundParams hb).mpr
          ⟨(List.mem_append.mp hv).resolve_left hp, hp⟩)
    · cases hv
    · exact absurd (T.anc_entry (hid ▸ hanc)) (hid ▸ hne)

theorem Tracked.inst {b : BasicBlock} {before after : List Inst} {i : Inst} {A : List ValueId}
    (h : Tracked f idom ⟨b, before, A⟩) (hi : b.instructions = before ++ i :: after) :
    Tracked f idom ⟨b, before ++ [i], i.dests ++ A⟩ := by
  refine ⟨h.mem, h.inTree, h.reaches, ⟨after, by simpa using hi⟩, fun v hv => ?_⟩
  rcases hv.cases_snoc with hv | hv
  · exact .inl (List.mem_append_left _ hv)
  · exact (h.assigned v hv).imp_left (List.mem_append_right _)

theorem Tracked.edge (V : Verified n f idom) {b c : BasicBlock} {A : List ValueId}
    {e : BasicBlockId × List ValueId} (h : Tracked f idom ⟨b, b.instructions, A⟩)
    (he : e ∈ b.terminator.edges) (hc : f.getBlock e.1 = some c) :
    Tracked f idom ⟨c, [], c.bound e.2 ++ A⟩ := by
  obtain ⟨c', hc', hid, hbound, -⟩ := (V.edges b h.mem).bind e he
  obtain rfl : c = c' := Option.some.inj (hc.symm.trans hc')
  have hmem := (Function.getBlock_eq_some hc).1
  have htarget : c.id ∈ b.terminator.targets := hid ▸ Terminator.mem_targets.mpr ⟨e, he, rfl⟩
  refine ⟨hmem, V.reached_of_edge h.mem h.inTree htarget,
    h.reaches.tail ((V.mem_successors h.mem).mpr htarget), ⟨c.instructions, rfl⟩, fun v hv => ?_⟩
  rcases V.available_of_edge h.mem hmem h.inTree htarget hv with hv | hv
  · exact .inl (List.mem_append_left _ (hbound ▸ hv))
  · exact (h.assigned v hv).imp_left (List.mem_append_right _)

theorem Executes.tracked (V : Verified n f idom) {p : Point} (h : Executes f p) : Tracked f idom p := by
  induction h with
  | entry hb => exact .entry V hb
  | inst _ hi ih => exact ih.inst hi
  | edge _ he hc ih => exact ih.edge V he hc

theorem Tracked.readsAssigned (V : Verified n f idom) {p : Point} (h : Tracked f idom p)
    (hbound : EntryParamsBound f) : p.ReadsAssigned where
  inst i after hi v hv := by
    refine (h.assigned v (V.use_available h.mem hi hv)).resolve_right fun hu => ?_
    refine hbound p.block h.mem h.reaches v hu (List.mem_append_left _ ?_)
    exact List.mem_flatMap.mpr ⟨i, by simp [hi], hv⟩
  term hp v hv := by
    refine (h.assigned v (hp ▸ V.termUse_available h.mem hv)).resolve_right fun hu => ?_
    exact hbound p.block h.mem h.reaches v hu (List.mem_append_right _ hv)

/-! ## An unbound parameter that is read -/

theorem Executes.through {b : BasicBlock} {before : List Inst} {A : List ValueId}
    (mid after : List Inst) (h : Executes f ⟨b, before, A⟩) (hi : b.instructions = before ++ mid ++ after) :
    ∃ A', Executes f ⟨b, before ++ mid, A'⟩ ∧ ∀ v ∈ A', v ∈ A ∨ v ∈ destsOf b.instructions := by
  induction mid generalizing before A with
  | nil => exact ⟨A, by simpa using h, fun v hv => .inl hv⟩
  | cons i mid ih =>
    have hsplit : b.instructions = before ++ i :: (mid ++ after) := by simpa using hi
    obtain ⟨A', hA', hsub⟩ := ih (h.inst hsplit) (by simpa using hi)
    refine ⟨A', by simpa using hA', fun v hv => ?_⟩
    rcases hsub v hv with hv | hv
    · rcases List.mem_append.mp hv with hv | hv
      · exact .inr (List.mem_flatMap.mpr ⟨i, by simp [hi], hv⟩)
      · exact .inl hv
    · exact .inr hv

section
variable (V : Verified n f idom)
include V

theorem Verified.unbound_not_dest (hv : v ∈ f.unboundParams)
    {b : BasicBlock} (hb : b ∈ f.blocks) : v ∉ destsOf b.instructions := by
  intro hd
  obtain ⟨e, he, hget, -⟩ := V.getBlock_entry
  obtain ⟨i, hi, hvi⟩ := List.mem_flatMap.mp hd
  obtain ⟨before, after, hsplit⟩ := List.append_of_mem hi
  exact V.head_not_dest hb he hsplit hvi (List.mem_append_right _ ((mem_unboundParams hget).mp hv).1)

theorem Verified.unbound_not_param (hv : v ∈ f.unboundParams)
    {b : BasicBlock} (hb : b ∈ f.blocks) (hne : b.id ≠ f.entryBlock) :
    v ∉ b.params.map (·.val) := by
  intro hp
  obtain ⟨e, he, hget, hid⟩ := V.getBlock_entry
  have h₁ := site_of_headDefs V.once he
    (List.mem_append_right _ ((mem_unboundParams hget).mp hv).1 : v ∈ f.headDefs e)
  have h₂ := site_of_headDefs V.once hb (List.mem_append_right _ hp : v ∈ f.headDefs b)
  have hsite := Option.some.inj (h₁.symm.trans h₂)
  exact hne ((Prod.mk.inj hsite).1.symm.trans hid)

/-- An execution reaches every block the entry reaches without binding the parameter: a return to
the entry is cut out of the path. -/
theorem Verified.executes_unbound (hv : v ∈ f.unboundParams)
    {id : BasicBlockId} (h : f.Reaches id) :
    ∃ b A, b ∈ f.blocks ∧ b.id = id ∧ Executes f ⟨b, [], A⟩ ∧ v ∉ A := by
  obtain ⟨e, he, hget, hid⟩ := V.getBlock_entry
  have start : ∃ b A, b ∈ f.blocks ∧ b.id = f.entryBlock ∧ Executes f ⟨b, [], A⟩ ∧ v ∉ A :=
    ⟨e, _, he, hid, .entry hget, ((mem_unboundParams hget).mp hv).2⟩
  induction h with
  | refl => exact start
  | @tail p t _ hs ih =>
    by_cases hent : t = f.entryBlock
    · exact hent ▸ start
    · obtain ⟨b, A, hb, rfl, hx, hvA⟩ := ih
      obtain ⟨A', hx', hsub⟩ := hx.through b.instructions [] (by simp)
      have hvA' : v ∉ A' := fun hm => (hsub v hm).elim hvA (V.unbound_not_dest hv hb)
      have ht := (V.mem_successors hb).mp hs
      obtain ⟨d, hd, rfl⟩ := Terminator.mem_targets.mp ht
      obtain ⟨c, hc, hcid, hbound, -⟩ := (V.edges b hb).bind d hd
      have hcm := (Function.getBlock_eq_some hc).1
      refine ⟨c, _, hcm, hcid, hx'.edge hd hc, fun hm => ?_⟩
      rcases List.mem_append.mp hm with hm | hm
      · exact V.unbound_not_param hv hcm (hcid ▸ hent) (hbound ▸ hm)
      · exact hvA' hm

theorem Verified.entryParamsBound
    (h : ∀ p, Executes f p → p.ReadsAssigned) : EntryParamsBound f := by
  intro b hb hr v hv hu
  obtain ⟨b', A, hb', hid, hx, hvA⟩ := V.executes_unbound hv hr
  obtain rfl : b' = b := List.inj_on_of_nodup_map V.ids hb' hb hid
  have unassigned : ∀ {A' : List ValueId}, (∀ v ∈ A', v ∈ A ∨ v ∈ destsOf b'.instructions) → v ∉ A' :=
    fun hsub hm => (hsub v hm).elim hvA (V.unbound_not_dest hv hb)
  rcases List.mem_append.mp hu with hu | hu
  · obtain ⟨i, hi, hvi⟩ := List.mem_flatMap.mp hu
    obtain ⟨before, after, hsplit⟩ := List.append_of_mem hi
    obtain ⟨A', hx', hsub⟩ := hx.through before (i :: after) (by simpa using hsplit)
    exact unassigned hsub ((h _ hx').inst i after (by simpa using hsplit) v hvi)
  · obtain ⟨A', hx', hsub⟩ := hx.through b'.instructions [] (by simp)
    exact unassigned hsub ((h _ hx').term (by simp) v hu)

end

end

/-! ## The verifier -/

/-- **An accepted function reads assigned values and binds parameters on every edge, in every
execution, exactly when no reached block reads an entry parameter that is not the function's.** -/
theorem verifyFunction_sound_iff (f : Function) (hf : Accepts f) :
    (∀ p, Executes f p → p.ReadsAssigned ∧ p.block.EdgesBind f) ↔ EntryParamsBound f := by
  obtain ⟨n, hn⟩ := hf
  obtain ⟨idom, V⟩ := verifyFunction_ok_iff_verified.mp hn
  constructor
  · exact fun h => V.entryParamsBound fun p hp => (h p hp).1
  · intro hbound p hp
    have h := hp.tracked V
    exact ⟨h.readsAssigned V hbound, (V.edges p.block h.mem).bind⟩

/-- A function of one block that returns its entry block's parameter. -/
def returnsParam (params : List Param) : Function where
  name := "f"
  params := params
  blocks := [{ id := 0, params := [⟨0, "Int", none⟩], instructions := [], terminator := .ret (some 0) }]

/-- With the parameter mirrored, every read is of an assigned value. -/
theorem verifyFunction_sound_mirrored :
    EntryParamsBound (returnsParam [⟨"x", "Int", 0⟩]) ∧
      ∀ p, Executes (returnsParam [⟨"x", "Int", 0⟩]) p →
        p.ReadsAssigned ∧ p.block.EdgesBind (returnsParam [⟨"x", "Int", 0⟩]) := by
  have hbound : EntryParamsBound (returnsParam [⟨"x", "Int", 0⟩]) := by
    intro b _ _ v hv
    have hnone : (returnsParam [⟨"x", "Int", 0⟩]).unboundParams = [] := rfl
    rw [hnone] at hv
    cases hv
  exact ⟨hbound, (verifyFunction_sound_iff _ ⟨16, rfl⟩).mpr hbound⟩

/-- Acceptance is not enough: an entry parameter that no argument binds is read. -/
theorem verifyFunction_not_sound :
    ¬∀ f, Accepts f → ∀ p, Executes f p → p.ReadsAssigned ∧ p.block.EdgesBind f := by
  intro h
  have hread := (h (returnsParam []) ⟨16, rfl⟩ _ (.entry rfl)).1
  exact absurd (hread.term rfl 0 (by decide)) (by decide)

/-! ## The executions of the machine -/

section
variable {P : Program} {f : Function} {args : List Val} {w : World}

end

end Datara.Dmir
