import Datara.Dmir.Availability

/-!
# Facts about values, along a run

Where a run is (`At`), what one step of it can be (`At.cases`), and the rule for what holds all along
a run (`Verified.invariant`). Most analyses of a function rest on facts about values that their
definitions establish: an instruction keeps them for the other values (`FactsAt.after`), an edge keeps
them for all but the parameters it binds (`FactsAt.into`). That an available value is still the one
its definition gave it is the verifier's doing.
-/

namespace Datara.Dmir

open Library

/-- A frame in block `b`, after the instructions `before`. -/
structure At (f : Function) (idom : Cfg.Idom) (b : BasicBlock) (before : List Inst) (F : Frame) :
    Prop where
  fn : F.fn = f
  mem : b ∈ f.blocks
  reached : (idom b.id).isSome
  code : b.instructions = before ++ F.code
  term : F.term = b.terminator

section
variable {P : Program} {f : Function} {n : Nat} {idom : Cfg.Idom} {b : BasicBlock}
  {before : List Inst} {s s' : Frame × World} {args : List Val} {w : World}

theorem Verified.at_start (V : Verified n f idom) :
    ∃ b ∈ f.blocks, b.id = f.entryBlock ∧ f.getBlock f.entryBlock = some b ∧
      At f idom b [] (f.start args) := by
  obtain ⟨b, hb, hid⟩ := List.mem_map.mp V.entry
  have hget : f.getBlock f.entryBlock = some b := hid ▸ Function.getBlock_of_mem V.ids hb
  refine ⟨b, hb, hid, hget, rfl, hb, hid ▸ V.reached_entry, ?_, ?_⟩
  · simp [Function.start, hget]
  · simp [Function.start, hget]

/-- **What a step is**: an instruction that goes through, or an edge. -/
theorem At.cases (V : Verified n f idom) (h : At f idom b before s.1)
    (hs : P.leafMachine.step s = .inl s') :
    (∃ i rest ws vars w, s.1.code = i :: rest ∧
        (s.1.effect P i).perform P f s.1.vars s.2 = .done ws vars w ∧
        s' = (s.1.after rest ws vars, w) ∧ At f idom b (before ++ [i]) s'.1) ∨
      ∃ c args, s.1.code = [] ∧ before = b.instructions ∧
        b.terminator.exit f s.1.regs = .goto c.id args ∧ c.id ∈ b.terminator.targets ∧
        args.length = c.params.length ∧ s' = (s.1.into c args, s.2) ∧ At f idom c [] s'.1 := by
  simp only [Program.leafMachine, Program.leafStep] at hs
  split at hs
  case h_1 i rest hcode =>
    rw [h.fn] at hs
    split at hs
    case h_1 ws vars w hp =>
      cases hs
      refine .inl ⟨i, rest, ws, vars, w, hcode, hp, rfl, h.fn, h.mem, h.reached, ?_, h.term⟩
      rw [h.code, hcode, List.append_assoc]
      rfl
    case h_2 => cases hs
  case h_2 hcode =>
    have hend : before = b.instructions := by rw [h.code, hcode, List.append_nil]
    split at hs
    case h_1 t vs hexit =>
      rw [h.fn, h.term] at hexit
      obtain ⟨c, hc, hget, hid, hlen, ht⟩ := V.exit_goto h.mem hexit
      rw [Frame.enter, h.fn, hget, Option.map_some] at hs
      cases hs
      refine .inr ⟨c, vs, hcode, hend, hid ▸ hexit, ht, hlen, rfl, h.fn, hc, ?_, rfl, rfl⟩
      exact V.reached_of_edge h.mem h.reached ht
    case h_2 => cases hs
    case h_3 => cases hs

/-- **The rule for invariants of a run.** What holds at the entry, and is kept by an instruction that
goes through and by an edge, holds at every state the run reaches. -/
theorem Verified.invariant {J : BasicBlock → List Inst → Frame × World → Prop}
    (V : Verified n f idom)
    (hstart : ∀ b ∈ f.blocks, b.id = f.entryBlock → J b [] (f.start args, w))
    (hinst : ∀ s b before i rest ws vars w', P.leafMachine.Steps (f.start args, w) s →
      At f idom b before s.1 → J b before s → s.1.code = i :: rest →
      (s.1.effect P i).perform P f s.1.vars s.2 = .done ws vars w' →
      J b (before ++ [i]) (s.1.after rest ws vars, w'))
    (hedge : ∀ s b c vs, P.leafMachine.Steps (f.start args, w) s →
      At f idom b b.instructions s.1 → J b b.instructions s →
      b.terminator.exit f s.1.regs = .goto c.id vs → c.id ∈ b.terminator.targets → c ∈ f.blocks →
      vs.length = c.params.length → J c [] (s.1.into c vs, s.2))
    (h : P.leafMachine.Steps (f.start args, w) s) :
    ∃ b before, At f idom b before s.1 ∧ J b before s := by
  suffices hrun : ∀ a, P.leafMachine.Steps (f.start args, w) a →
      (∃ b before, At f idom b before a.1 ∧ J b before a) →
      ∀ s, P.leafMachine.Steps a s → ∃ b before, At f idom b before s.1 ∧ J b before s by
    obtain ⟨b, hb, hid, -, hat⟩ := V.at_start
    exact hrun _ (.refl _) ⟨b, [], hat, hstart b hb hid⟩ s h
  intro a hreach hinv s hs
  induction hs with
  | refl => exact hinv
  | @head a a' s hstep _ ih =>
    obtain ⟨b, before, hat, hJ⟩ := hinv
    refine ih (hreach.snoc hstep) ?_
    rcases hat.cases V hstep with
      ⟨i, rest, ws, vars, w', hcode, hp, rfl, hat'⟩ | ⟨c, vs, _, rfl, hexit, ht, hlen, rfl, hat'⟩
    · exact ⟨b, _, hat', hinst a b before i rest ws vars w' hreach hat hJ hcode hp⟩
    · exact ⟨c, _, hat', hedge a b c vs hreach hat hJ hexit ht hat'.mem hlen⟩

variable {i : Inst}

theorem At.unique (V : Verified n f idom) {F : Frame} {b' : BasicBlock} {before' rest : List Inst}
    {d : ValueId} (h : At f idom b before F) (h' : At f idom b' before' F)
    (hcode : F.code = i :: rest) (hd : d ∈ i.dests) : b = b' ∧ before = before' := by
  obtain ⟨hb, hbefore, -⟩ := V.def_unique h.mem h'.mem (hcode ▸ h.code) hd (hcode ▸ h'.code) hd
  exact ⟨hb, hbefore⟩

variable {v : ValueId}

theorem Verified.dest_of_available (V : Verified n f idom) (hb : b ∈ f.blocks)
    {pre post before : List Inst} (hi : b.instructions = pre ++ i :: post)
    (hd : v ∈ i.dests) (h : Available f (Anc idom) b before v) : v ∈ destsOf before := by
  rcases h with h | h | ⟨c, hc, hne, h, -⟩
  · exact absurd h (V.head_not_dest hb hb hi hd)
  · exact h
  · rcases List.mem_append.mp h with h | h
    · exact absurd h (V.head_not_dest hb hc hi hd)
    · obtain ⟨j, hj, hjd⟩ := List.mem_flatMap.mp h
      obtain ⟨pre', post', hj⟩ := List.append_of_mem hj
      obtain ⟨hsame, -⟩ := V.def_unique hc hb hj hjd hi hd
      exact absurd (congrArg BasicBlock.id hsame) hne

variable {c : BasicBlock}

theorem Verified.definesIn_unique (V : Verified n f idom) (hb : b ∈ f.blocks)
    (hc : c ∈ f.blocks) (hv : v ∈ f.definesIn b) (hv' : v ∈ f.definesIn c) : b = c := by
  have site : ∀ {d : BasicBlock}, d ∈ f.blocks → v ∈ f.definesIn d →
      ∃ j, f.site v = some (d.id, j) := by
    intro d hd hv
    rcases List.mem_append.mp hv with hv | hv
    · exact ⟨_, site_of_headDefs V.once hd hv⟩
    · obtain ⟨j, i, hj, hv⟩ := mem_destsOf.mp hv
      exact ⟨_, site_of_dest V.once hd hj hv⟩
  obtain ⟨j, hj⟩ := site hb hv
  obtain ⟨j', hj'⟩ := site hc hv'
  exact List.inj_on_of_nodup_map V.ids hb hc (Prod.mk.inj (Option.some.inj (hj.symm.trans hj'))).1

theorem mem_definesIn_of_dest {rest : List Inst}
    (hi : b.instructions = before ++ i :: rest) (hd : v ∈ i.dests) : v ∈ f.definesIn b :=
  List.mem_append_right _ (List.mem_flatMap.mpr ⟨i, by rw [hi]; simp, hd⟩)

/-- **An operand is defined first**: where it is about to be, what is computed from it is not
available. -/
theorem Verified.operand_first (V : Verified n f idom) {pre post rest : List Inst}
    {i j : Inst} {l v : ValueId} (hb : b ∈ f.blocks) (hi : b.instructions = before ++ i :: rest)
    (hl : l ∈ i.dests) (hc : c ∈ f.blocks) (hj : c.instructions = pre ++ j :: post)
    (hv : v ∈ j.dests) (hu : l ∈ instructionUses j) : ¬Available f (Anc idom) b before v := by
  obtain ⟨rank, T⟩ := V.tree
  have huse := V.use_available hc hj hu
  rintro (h | h | ⟨d, hd, hne, h, hanc⟩)
  · exact V.head_not_dest hc hb hj hv h
  · -- in one block, the operand's definition would stand before itself
    obtain ⟨j', hj', hv'⟩ := List.mem_flatMap.mp h
    obtain ⟨pre', mid, hbefore⟩ := List.append_of_mem hj'
    obtain ⟨rfl, rfl, rfl⟩ := V.def_unique hc hb hj hv
      (by rw [hi, hbefore, List.append_assoc]; rfl : b.instructions = pre' ++ j' :: (mid ++ i :: rest)) hv'
    have hmem := V.dest_of_available hc hi hl huse
    obtain ⟨k, hk, hlk⟩ := List.mem_flatMap.mp hmem
    obtain ⟨p, q, hpre⟩ := List.append_of_mem hk
    obtain ⟨-, hsame, -⟩ := V.def_unique hb hb hi hl
      (by rw [hj, hpre, List.append_assoc]; rfl : c.instructions = p ++ k :: (q ++ j :: post)) hlk
    have := congrArg List.length hbefore
    rw [hsame, hpre] at this
    simp only [List.length_append, List.length_cons] at this
    omega
  · obtain rfl := V.definesIn_unique hd hc h (mem_definesIn_of_dest hj hv)
    rcases huse with h' | h' | ⟨e, he, _, h', hanc'⟩
    · exact V.head_not_dest hb hc hi hl h'
    · have : l ∈ f.definesIn d := by
        rw [Function.definesIn, hj, destsOf, List.flatMap_append]
        exact List.mem_append_right _ (List.mem_append_left _ h')
      exact hne (congrArg BasicBlock.id (V.definesIn_unique hd hb this (mem_definesIn_of_dest hi hl)))
    · obtain rfl := V.definesIn_unique he hb h' (mem_definesIn_of_dest hi hl)
      exact hne (T.antisymm hanc hanc')

theorem Verified.operand_first_head (V : Verified n f idom) {pre post : List Inst}
    {j : Inst} {l v : ValueId} (hb : b ∈ f.blocks) (hl : l ∈ f.headDefs b) (hc : c ∈ f.blocks)
    (hj : c.instructions = pre ++ j :: post) (hv : v ∈ j.dests) (hu : l ∈ instructionUses j) :
    ¬Available f (Anc idom) b [] v := by
  obtain ⟨rank, T⟩ := V.tree
  have hl' : l ∈ f.definesIn b := List.mem_append_left _ hl
  rintro (h | h | ⟨d, hd, hne, h, hanc⟩)
  · exact V.head_not_dest hc hb hj hv h
  · cases h
  · obtain rfl := V.definesIn_unique hd hc h (mem_definesIn_of_dest hj hv)
    rcases V.use_available hc hj hu with h' | h' | ⟨e, he, _, h', hanc'⟩
    · exact hne (congrArg BasicBlock.id (V.definesIn_unique hd hb (List.mem_append_left _ h') hl'))
    · obtain ⟨k, hk, hlk⟩ := List.mem_flatMap.mp h'
      obtain ⟨p, q, hpre⟩ := List.append_of_mem hk
      exact V.head_not_dest hd hb
        (by rw [hj, hpre, List.append_assoc]; rfl : d.instructions = p ++ k :: (q ++ j :: post)) hlk hl
    · obtain rfl := V.definesIn_unique he hb h' hl'
      exact hne (T.antisymm hanc hanc')

/-- What an operator that goes through leaves in its register. -/
theorem binOp_result {d l r : ValueId} {op ty : String} {rest : List Inst}
    {ws : List (ValueId × Val)} {vars : String → Val} (hfn : s.1.fn = f)
    (hp : (s.1.effect P (.binOp d op l r ty)).perform P f s.1.vars s.2 = .done ws vars w) :
    ∃ res, (s.1.after rest ws vars).regs d = res ∧ ws = [(d, res)] ∧
      P.host.evalBinOp (d ∈ f.provenNoOverflow) op ty (s.1.regs l) (s.1.regs r) = .ok res := by
  simp only [Frame.effect, Inst.effect, hfn] at hp
  cases hev : P.host.evalBinOp (d ∈ f.provenNoOverflow) op ty (s.1.regs l) (s.1.regs r) with
  | error t => rw [hev] at hp; cases hp
  | ok res =>
    rw [hev] at hp
    cases hp
    exact ⟨res, Function.update_self _ _ _, rfl, rfl⟩

/-- The values that are available satisfy the fact. -/
def FactsAt (f : Function) (idom : Cfg.Idom) (fact : ValueId → Val → Prop) (b : BasicBlock)
    (before : List Inst) (regs : ValueId → Val) : Prop :=
  ∀ v, Available f (Anc idom) b before v → fact v (regs v)

/-- A written register holds the last value written to it. -/
theorem bindRegs_of_forall {regs : ValueId → Val} {ws : List (ValueId × Val)}
    {fact : ValueId → Val → Prop} (h : ∀ x ∈ ws, fact x.1 x.2) {v : ValueId}
    (hv : v ∈ ws.map (·.1)) : fact v (bindRegs regs ws v) := by
  induction ws generalizing regs with
  | nil => cases hv
  | cons x ws ih =>
    by_cases hm : v ∈ ws.map (·.1)
    · exact ih (fun y hy => h y (List.mem_cons_of_mem _ hy)) hm
    · obtain rfl : v = x.1 := (List.mem_cons.mp hv).resolve_right hm
      have hlast : bindRegs regs (x :: ws) x.1 = x.2 :=
        (bindRegs_of_notMem hm).trans
          (Function.update_self _ _ _)
      rw [hlast]
      exact h x List.mem_cons_self

variable {fact : ValueId → Val → Prop}

theorem FactsAt.after {rest : List Inst}
    {ws : List (ValueId × Val)} {vars : String → Val} {w : World}
    (h : FactsAt f idom fact b before s.1.regs)
    (hp : (s.1.effect P i).perform P f s.1.vars s.2 = .done ws vars w)
    (hnew : ∀ x ∈ ws, fact x.1 x.2) :
    FactsAt f idom fact b (before ++ [i]) (s.1.after rest ws vars).regs := by
  intro v hv
  have hkeys := Effect.perform_dests hp
  by_cases hm : v ∈ ws.map (·.1)
  · exact bindRegs_of_forall hnew hm
  · have hold : (s.1.after rest ws vars).regs v = s.1.regs v := bindRegs_of_notMem hm
    rw [hold]
    exact h v (hv.cases_snoc.resolve_left fun hd => hm (hkeys ▸ hd))

theorem FactsAt.into (V : Verified n f idom)
    (hb : b ∈ f.blocks) (hc : c ∈ f.blocks) (hr : (idom b.id).isSome)
    (h : FactsAt f idom fact b b.instructions s.1.regs) (ht : c.id ∈ b.terminator.targets)
    (hlen : args.length = c.params.length)
    (hnew : ∀ x ∈ (c.params.map (·.val)).zip args, fact x.1 x.2) :
    FactsAt f idom fact c [] (s.1.into c args).regs := by
  intro v hv
  have hkeys : ((c.params.map (·.val)).zip args).map (·.1) = c.params.map (·.val) :=
    List.map_fst_zip (by simp [hlen])
  by_cases hm : v ∈ c.params.map (·.val)
  · exact bindRegs_of_forall hnew (by rw [hkeys]; exact hm)
  · have hold : (s.1.into c args).regs v = s.1.regs v :=
      bindRegs_of_notMem (by rw [hkeys]; exact hm)
    rw [hold]
    exact h v ((V.available_of_edge hb hc hr ht hv).resolve_left hm)

theorem FactsAt.start (V : Verified n f idom)
    (hid : b.id = f.entryBlock) {regs : ValueId → Val}
    (hnew : ∀ v ∈ f.headDefs b, fact v (regs v)) : FactsAt f idom fact b [] regs := by
  obtain ⟨rank, T⟩ := V.tree
  rintro v (hv | hv | ⟨c, _, hne, _, hanc⟩)
  · exact hnew v hv
  · cases hv
  · exact absurd (T.anc_entry (hid ▸ hanc)) (hid ▸ hne)

end

end Datara.Dmir
