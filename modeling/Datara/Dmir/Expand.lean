import Datara.Dmir.Dominators
import Datara.Dmir.Rewrite
import Datara.Dmir.ValueFacts

/-!
# Loading constants before an instruction

A pass that puts another instruction with the same results in the place of an instruction, and in front of it loads
constants into values of its own (`Chunk`). The outcome is accepted when these values occur nowhere else and each new
instruction reads what is available or was loaded (`Expands.wellFormed`). It runs the same as long as the instruction
about to execute and the one in its place, once the constants are loaded, have the same effect (`Stands`,
`runsTo_expand_iff`).
-/

namespace Datara.Dmir

open Library

/-- What stands in the place of an instruction. -/
structure Chunk where
  consts : List (ValueId × BitVec 64) := []
  inst : Inst

namespace Chunk

def loads (c : Chunk) : List Inst := c.consts.map fun p => .constInt p.1 p.2

def code (c : Chunk) : List Inst := c.loads ++ [c.inst]

/-- The values the constants are loaded into. -/
def fresh (c : Chunk) : List ValueId := c.consts.map (·.1)

/-- What is written there. -/
def writes (c : Chunk) : List (ValueId × Val) := c.consts.map fun p => (p.1, .int p.2)

theorem destsOf_loads (c : Chunk) : destsOf c.loads = c.fresh := by
  simp only [destsOf, loads, fresh, List.flatMap_map]
  exact List.flatMap_pure_eq_map _ _

theorem destsOf_code (c : Chunk) : destsOf c.code = c.fresh ++ c.inst.dests := by
  rw [code, destsOf, List.flatMap_append, List.flatMap_singleton]
  exact congrArg (· ++ _) c.destsOf_loads

theorem writes_keys (c : Chunk) : c.writes.map (·.1) = c.fresh := by
  simp [writes, fresh, Function.comp_def]

end Chunk

/-- The code of a list of chunks. -/
def codeOf (cs : List Chunk) : List Inst := cs.flatMap Chunk.code

/-- The function with chunks in the place of its instructions. -/
def Function.expand (f : Function) (g : BasicBlock → List Chunk) : Function := f.mapCode fun b => codeOf (g b)

/-- The chunks have the results of the instructions and besides these values that the function does not mention. -/
structure Expands (f : Function) (g : BasicBlock → List Chunk) : Prop where
  dests : ∀ b ∈ f.blocks, (g b).map (·.inst.dests) = b.instructions.map Inst.dests
  nodup : (f.blocks.flatMap fun b => (g b).flatMap Chunk.fresh).Nodup
  unused : ∀ b ∈ f.blocks, ∀ c ∈ g b, ∀ v ∈ c.fresh, v ∉ f.valueIds

/-! ## The values a function mentions -/

section
variable {f : Function} {b : BasicBlock} {i : Inst} {v : ValueId}

theorem mem_valueIds_of_visit (hb : b ∈ f.blocks) (hi : i ∈ b.instructions) (hv : v ∈ i.visitVids) :
    v ∈ f.valueIds := by
  refine List.mem_append_right _ (List.mem_flatMap.mpr ⟨b, hb, List.mem_append_left _ ?_⟩)
  exact List.mem_append_right _ (List.mem_flatMap.mpr ⟨i, hi, hv⟩)

theorem mem_valueIds_of_term (hb : b ∈ f.blocks) (hv : v ∈ b.terminator.vids) : v ∈ f.valueIds :=
  List.mem_append_right _ (List.mem_flatMap.mpr ⟨b, hb, List.mem_append_right _ hv⟩)

theorem Inst.reads_subset_visitVids (i : Inst) : i.reads ⊆ i.visitVids := by
  cases i <;> simp [reads, instructionUses, visitVids]

theorem defs_subset_valueIds (f : Function) : f.defs.map (·.1) ⊆ f.valueIds := by
  intro v hv
  rw [defs_keys] at hv
  obtain hv | hv := List.mem_append.mp hv
  · exact List.mem_append_left _ hv
  · obtain ⟨b, hb, hv⟩ := List.mem_flatMap.mp hv
    obtain hv | hv := List.mem_append.mp hv
    · obtain ⟨p, hp, rfl⟩ := List.mem_map.mp hv
      refine List.mem_append_right _ (List.mem_flatMap.mpr ⟨b, hb, List.mem_append_left _ ?_⟩)
      exact List.mem_append_left _ (List.mem_map_of_mem (List.mem_filter.mp hp).1)
    · obtain ⟨i, hi, hv⟩ := List.mem_flatMap.mp hv
      exact mem_valueIds_of_visit hb hi (i.dests_subset_visitVids hv)

end

/-! ## Acceptance -/

section
variable {f : Function} {g : BasicBlock → List Chunk} {b : BasicBlock} {cs : List Chunk} {v : ValueId}

theorem codeOf_split {before after : List Inst} {i : Inst} (h : codeOf cs = before ++ i :: after) :
    ∃ cs₁ c cs₂ pre post, cs = cs₁ ++ c :: cs₂ ∧ c.code = pre ++ i :: post ∧ before = codeOf cs₁ ++ pre := by
  induction cs generalizing before with
  | nil => simp [codeOf] at h
  | cons c cs ih =>
    have hcons : c.code ++ codeOf cs = before ++ i :: after := h
    obtain ⟨rest, hbefore, hrest⟩ | ⟨rest, hcode, hrest⟩ := List.append_eq_append_iff.mp hcons
    · obtain ⟨cs₁, d, cs₂, pre, post, rfl, hd, rfl⟩ := ih hrest
      refine ⟨c :: cs₁, d, cs₂, pre, post, rfl, hd, ?_⟩
      rw [hbefore, ← List.append_assoc]
      rfl
    · cases rest with
      | nil =>
        have hrest' : codeOf cs = [] ++ i :: after := hrest.symm
        obtain ⟨cs₁, d, cs₂, pre, post, rfl, hd, hpre⟩ := ih hrest'
        refine ⟨c :: cs₁, d, cs₂, pre, post, rfl, hd, ?_⟩
        rw [List.append_nil] at hcode
        obtain ⟨h₁, h₂⟩ := List.append_eq_nil_iff.mp hpre.symm
        rw [← hcode, h₂, List.append_nil]
        show c.code = c.code ++ codeOf cs₁
        rw [h₁, List.append_nil]
      | cons j rest =>
        cases hrest
        exact ⟨[], c, cs, before, rest, rfl, hcode, rfl⟩

theorem Chunk.code_split {c : Chunk} {pre post : List Inst} {i : Inst} (h : c.code = pre ++ i :: post) :
    (∃ v n, i = .constInt v n) ∨ pre = c.loads ∧ i = c.inst := by
  obtain ⟨rest, hpre, hrest⟩ | ⟨rest, hloads, hrest⟩ := List.append_eq_append_iff.mp h
  · cases rest with
    | nil =>
      cases hrest
      exact .inr ⟨by rw [hpre, List.append_nil], rfl⟩
    | cons j rest => simp at hrest
  · cases rest with
    | nil =>
      cases hrest
      exact .inr ⟨by rw [hloads, List.append_nil], rfl⟩
    | cons j rest =>
      cases hrest
      have hi : i ∈ c.loads := by rw [hloads]; simp
      obtain ⟨p, -, hp⟩ := List.mem_map.mp hi
      exact .inl ⟨p.1, p.2, hp.symm⟩

theorem destsOf_codeOf_perm (cs : List Chunk) :
    (destsOf (codeOf cs)).Perm ((cs.map (·.inst.dests)).flatten ++ cs.flatMap Chunk.fresh) := by
  have h : destsOf (codeOf cs) = cs.flatMap fun c => c.fresh ++ c.inst.dests := by
    rw [destsOf, codeOf, List.flatMap_assoc]
    exact List.flatMap_congr fun c _ => c.destsOf_code
  rw [h, ← List.flatMap_def]
  exact (List.flatMap_append_perm cs Chunk.fresh _).symm.trans List.perm_append_comm

namespace Expands

variable (E : Expands f g)

include E

theorem length (hb : b ∈ f.blocks) : (g b).length = b.instructions.length := by
  simpa using congrArg List.length (E.dests b hb)

theorem get (hb : b ∈ f.blocks) {before rest : List Inst} {i : Inst} (hi : b.instructions = before ++ i :: rest) :
    ∃ c, (g b)[before.length]? = some c ∧ (g b).drop before.length = c :: (g b).drop (before.length + 1) ∧
      c.inst.dests = i.dests := by
  have hlt : before.length < (g b).length := by rw [E.length hb, hi]; simp
  have hget := List.getElem?_eq_getElem hlt
  refine ⟨_, hget, List.drop_eq_getElem_cons hlt, ?_⟩
  have hd := congrArg (·[before.length]?) (E.dests b hb)
  simp only [List.getElem?_map, hget, hi, List.getElem?_append_right (Nat.le_refl _),
    Nat.sub_self, List.getElem?_cons_zero, Option.map_some, Option.some.injEq] at hd
  exact hd

theorem destsOf_perm (hb : b ∈ f.blocks) :
    (destsOf (codeOf (g b))).Perm (destsOf b.instructions ++ (g b).flatMap Chunk.fresh) := by
  have h := destsOf_codeOf_perm (g b)
  rwa [E.dests b hb, ← List.flatMap_def] at h

/-- What stands before a place was defined by the chunks before it. -/
theorem destsOf_take (hb : b ∈ f.blocks) {before rest : List Inst} (hi : b.instructions = before ++ rest)
    (hv : v ∈ destsOf before) : v ∈ destsOf (codeOf ((g b).take before.length)) := by
  have h := destsOf_codeOf_perm ((g b).take before.length)
  rw [List.map_take, E.dests b hb, hi, List.map_append, List.take_left' (List.length_map _), ← List.flatMap_def] at h
  exact h.mem_iff.mpr (List.mem_append_left _ hv)

theorem defs_perm : ((f.expand g).defs.map (·.1)).Perm
    (f.defs.map (·.1) ++ f.blocks.flatMap fun b => (g b).flatMap Chunk.fresh) := by
  rw [defs_keys, defs_keys, List.append_assoc]
  refine List.Perm.append_left _ ?_
  have hblocks : (f.expand g).blocks.flatMap (f.expand g).definedBy =
      f.blocks.flatMap fun b => (f.expand g).definedBy (b.withCode (codeOf (g b))) := by
    rw [Function.expand, Function.mapCode, List.flatMap_map]
  rw [hblocks]
  refine List.Perm.trans ?_ (List.flatMap_append_perm f.blocks f.definedBy _).symm
  refine List.Perm.flatMap_left _ fun b hb => ?_
  rw [Function.definedBy, Function.definedBy, List.append_assoc]
  exact (E.destsOf_perm hb).append_left _

theorem once (h : (f.defs.map (·.1)).Nodup) : ((f.expand g).defs.map (·.1)).Nodup := by
  rw [E.defs_perm.nodup_iff]
  refine h.append E.nodup fun v hv hv' => ?_
  obtain ⟨b, hb, hv'⟩ := List.mem_flatMap.mp hv'
  obtain ⟨c, hc, hv'⟩ := List.mem_flatMap.mp hv'
  exact E.unused b hb c hc v hv' (defs_subset_valueIds f hv)

theorem available {dom : BasicBlockId → BasicBlockId → Prop} {before rest : List Inst} (hb : b ∈ f.blocks)
    (hi : b.instructions = before ++ rest) (h : Available f dom b before v) {code : List Inst}
    (hcode : destsOf (codeOf ((g b).take before.length)) ⊆ destsOf code) :
    Available (f.expand g) dom (b.withCode (codeOf (g b))) code v := by
  obtain hv | hv | ⟨c, hc, hne, hv, hd⟩ := h
  · exact .inl hv
  · exact .inr (.inl (hcode (E.destsOf_take hb hi hv)))
  · refine .inr (.inr ⟨c.withCode (codeOf (g c)), mem_mapCode.mpr ⟨c, hc, rfl⟩, hne, ?_, hd⟩)
    obtain hv | hv := List.mem_append.mp hv
    · exact List.mem_append_left _ hv
    · exact List.mem_append_right _ ((E.destsOf_perm hc).mem_iff.mpr (List.mem_append_left _ hv))

/-- **Acceptance is kept** by chunks that read what is available, or what they load. -/
theorem wellFormed (W : WellFormed f)
    (huses : ∀ b ∈ f.blocks, ∀ before i rest c, b.instructions = before ++ i :: rest →
      (g b)[before.length]? = some c → ∀ v ∈ instructionUses c.inst, v ∈ c.fresh ∨ Available f f.Dominates b before v) :
    WellFormed (f.expand g) := by
  have hdom : (f.expand g).Dominates = f.Dominates := Function.dominates_congr rfl Cfg.successors_mapCode
  have hids : (f.expand g).blocks.map (·.id) = f.blocks.map (·.id) := by
    rw [Function.expand, Function.mapCode, List.map_map]
    rfl
  refine ⟨hids ▸ W.ids, hids ▸ W.entry, E.once W.once, fun b' hb' before' i' after' hi' v hv => ?_,
    fun b' hb' v hv => ?_, fun b' hb' => ?_⟩
  · rw [hdom]
    obtain ⟨b, hb, rfl⟩ := mem_mapCode.mp hb'
    obtain ⟨cs₁, c, cs₂, pre, post, hcs, hc, rfl⟩ := codeOf_split hi'
    obtain ⟨u, n, rfl⟩ | ⟨rfl, rfl⟩ := Chunk.code_split hc
    · cases hv
    have hlen : cs₁.length < b.instructions.length := by rw [← E.length hb, hcs]; simp
    have hsplit : b.instructions = b.instructions.take cs₁.length ++
        b.instructions.get ⟨cs₁.length, hlen⟩ :: b.instructions.drop (cs₁.length + 1) := by simp
    have htake : (b.instructions.take cs₁.length).length = cs₁.length := List.length_take_of_le (Nat.le_of_lt hlen)
    have hget : (g b)[(b.instructions.take cs₁.length).length]? = some c := by rw [htake, hcs]; simp
    obtain hv | hv := huses b hb _ _ _ c hsplit hget v hv
    · refine .inr (.inl ?_)
      rw [← c.destsOf_loads] at hv
      rw [destsOf, List.flatMap_append]
      exact List.mem_append_right _ hv
    · refine E.available hb hsplit hv ?_
      rw [htake, hcs, List.take_left, destsOf, destsOf, List.flatMap_append]
      exact List.subset_append_left _ _
  · rw [hdom]
    obtain ⟨b, hb, rfl⟩ := mem_mapCode.mp hb'
    refine E.available hb (List.append_nil _).symm (W.termUses b hb v hv) ?_
    rw [← E.length hb, List.take_length]
    exact List.Subset.refl _
  · obtain ⟨b, hb, rfl⟩ := mem_mapCode.mp hb'
    exact edgesOk_mapCode (W.edges b hb)

end Expands

end

/-! ## Running -/

section
variable {P : Program} {f : Function} {g : BasicBlock → List Chunk} {n : Nat} {idom : Cfg.Idom} {b : BasicBlock}
  {before : List Inst} {s : Frame × World} {F F' : Frame}

/-- The instruction in the place of the one about to execute has its effect, once the constants before it are loaded. -/
def Stands (P : Program) (f : Function) (idom : Cfg.Idom) (g : BasicBlock → List Chunk) (s : Frame × World) : Prop :=
  ∀ b before i rest c, At f idom b before s.1 → s.1.code = i :: rest → (g b)[before.length]? = some c →
    ∀ regs, (∀ v ∈ f.valueIds, regs v = s.1.regs v) →
      c.inst.effect P.host f.provenNoOverflow (bindRegs regs c.writes) =
        i.effect P.host f.provenNoOverflow s.1.regs

theorem Inst.effect_of_agree {h : Host} {safe : List ValueId} {i : Inst} {regs regs' : ValueId → Val}
    (hb : b ∈ f.blocks) (hi : i ∈ b.instructions) (hregs : ∀ v ∈ f.valueIds, regs' v = regs v) :
    i.effect h safe regs' = i.effect h safe regs :=
  i.effect_congr (fun _ _ => Iff.rfl) fun _ hv =>
    hregs _ (mem_valueIds_of_visit hb hi (i.reads_subset_visitVids hv))

theorem steps_loads (consts : List (ValueId × BitVec 64)) (F : Frame) (code : List Inst) (w : World) :
    P.leafMachine.Steps ({ F with code := (consts.map fun p => .constInt p.1 p.2) ++ code }, w)
      ({ F with code, regs := bindRegs F.regs (consts.map fun p => (p.1, .int p.2)) }, w) := by
  induction consts generalizing F with
  | nil => exact .refl _
  | cons p consts ih =>
    have hstep : P.leafMachine.step
        ({ F with code := ((p :: consts).map fun p => .constInt p.1 p.2) ++ code }, w) =
        .inl ({ F with code := (consts.map fun p => .constInt p.1 p.2) ++ code
                       regs := bindRegs F.regs [(p.1, .int p.2)] }, w) := rfl
    exact .head hstep (ih { F with regs := bindRegs F.regs [(p.1, .int p.2)] })

/-- The two functions at the same place. -/
structure ExpandAt (f : Function) (g : BasicBlock → List Chunk) (idom : Cfg.Idom) (b : BasicBlock)
    (before : List Inst) (F F' : Frame) : Prop where
  place : At f idom b before F
  fn : F'.fn = f.expand g
  code : F'.code = codeOf ((g b).drop before.length)
  term : F'.term = F.term
  vars : F'.vars = F.vars
  regs : ∀ v ∈ f.valueIds, F'.regs v = F.regs v

variable (E : Expands f g) (V : Verified n f idom)

include E V

omit E in
theorem ExpandAt.start {args : List Val} : ∃ b, ExpandAt f g idom b [] (f.start args) ((f.expand g).start args) := by
  obtain ⟨b, hb, -, hget, hat⟩ : ∃ b ∈ f.blocks, b.id = f.entryBlock ∧ f.getBlock f.entryBlock = some b ∧
      At f idom b [] (f.start args) := V.at_start
  have hget' : (f.expand g).getBlock (f.expand g).entryBlock = some (b.withCode (codeOf (g b))) := by
    rw [Function.expand, getBlock_mapCode]
    exact hget ▸ rfl
  refine ⟨b, hat, rfl, ?_, ?_, rfl, fun _ _ => rfl⟩
  · simp only [Function.start, hget', Option.map_some, Option.getD_some]
    rfl
  · simp only [Function.start, hget, hget', Option.map_some, Option.getD_some]
    rfl

/-- **A step of both functions**, or the end of both. The constants before an instruction are loaded first. -/
theorem ExpandAt.step {w : World} (h : ExpandAt f g idom b before F F') (hgood : Stands P f idom g (F, w)) :
    (∃ s' b' before' t t', P.leafMachine.step (F, w) = .inl s' ∧ P.leafMachine.step (F', w) = .inl t ∧
        P.leafMachine.Steps t t' ∧ ExpandAt f g idom b' before' s'.1 t'.1 ∧ t'.2 = s'.2) ∨
      ∃ o, P.leafMachine.step (F, w) = .inr o ∧ P.leafMachine.Halts (F', w) o := by
  cases hcode : F.code with
  | cons i rest =>
    have hi : b.instructions = before ++ i :: rest := hcode ▸ h.place.code
    obtain ⟨c, hget, hdrop, hdests⟩ := E.get h.place.mem hi
    have hfresh := E.unused b h.place.mem c (List.mem_of_getElem? hget)
    have hcode' : F'.code = c.loads ++ c.inst :: codeOf ((g b).drop (before.length + 1)) := by
      rw [h.code, hdrop, codeOf, List.flatMap_cons, Chunk.code, List.append_assoc]
      rfl
    -- the frame once the constants are loaded
    let L : Frame := { F' with code := c.inst :: codeOf ((g b).drop (before.length + 1))
                               regs := bindRegs F'.regs c.writes }
    have hloads : P.leafMachine.Steps (F', w) (L, w) := by
      have := steps_loads (P := P) c.consts F' (c.inst :: codeOf ((g b).drop (before.length + 1))) w
      rwa [← Chunk.loads, ← hcode'] at this
    have hagree : ∀ v ∈ f.valueIds, L.regs v = F.regs v := by
      intro v hv
      have hkept : L.regs v = F'.regs v := bindRegs_of_notMem (c.writes_keys ▸ fun hm => hfresh v hm hv)
      rw [hkept, h.regs v hv]
    have heffect : L.effect P c.inst = F.effect P i := by
      show c.inst.effect P.host F'.fn.provenNoOverflow (bindRegs F'.regs c.writes) =
        i.effect P.host F.fn.provenNoOverflow F.regs
      rw [h.fn, h.place.fn]
      exact hgood b before i rest c h.place hcode hget F'.regs h.regs
    have hname : F.fn.name = L.fn.name := by rw [h.place.fn, show L.fn = f.expand g from h.fn]; rfl
    have hparams : F.fn.params = L.fn.params := by rw [h.place.fn, show L.fn = f.expand g from h.fn]; rfl
    obtain ⟨ws, vars, w', hp, hs, hs'⟩ | ⟨o, hs, hs'⟩ :=
      @leafStep_lockstep P (F, w) _ _ (L, w) _ _ hcode rfl hname hparams heffect h.vars rfl
    · left
      obtain ⟨t, hfirst, hrest⟩ := hloads.snoc_first hs'
      refine ⟨_, b, before ++ [i], t, _, hs, hfirst, hrest, ⟨⟨h.place.fn, h.place.mem, h.place.reached, ?_,
        h.place.term⟩, h.fn, ?_, h.term, rfl, fun v hv => ?_⟩, rfl⟩
      · rw [hi, List.append_assoc]
        rfl
      · rw [List.length_append]
        rfl
      · exact bindRegs_congr fun _ => hagree v hv
    · exact .inr ⟨o, hs, .of_steps hloads (.of_halt hs')⟩
  | nil =>
    have hend : before = b.instructions := by rw [h.place.code, hcode, List.append_nil]
    have hcode' : F'.code = [] := by
      rw [h.code, hend, ← E.length h.place.mem, List.drop_length]
      rfl
    have hexit : F'.term.exit F'.fn F'.regs = F.term.exit F.fn F.regs := by
      rw [h.term, h.fn, h.place.fn, h.place.term]
      exact Terminator.exit_congr rfl fun v hv => h.regs v (mem_valueIds_of_term h.place.mem hv)
    cases hx : F.term.exit F.fn F.regs with
    | goto x vs =>
      have hgo := hx
      rw [h.place.fn, h.place.term] at hgo
      obtain ⟨c, hc, hget, hid, hlen, ht⟩ := V.exit_goto h.place.mem hgo
      have hget' : F'.fn.getBlock x = some (c.withCode (codeOf (g c))) := by
        rw [h.fn, Function.expand, getBlock_mapCode, hget]
        rfl
      rw [← h.place.fn] at hget
      refine .inl ⟨_, c, [], _, _, leafStep_goto hcode hx hget, leafStep_goto hcode' (hexit.trans hx) hget', .refl _,
        ⟨⟨h.place.fn, hc, V.reached_of_edge h.place.mem h.place.reached ht, rfl, rfl⟩, h.fn, rfl, rfl, h.vars,
          fun v hv => ?_⟩, rfl⟩
      exact bindRegs_congr fun _ => h.regs v hv
    | ret v => exact .inr ⟨_, leafStep_ret hcode hx, .of_halt (leafStep_ret hcode' (hexit.trans hx))⟩
    | trap e => exact .inr ⟨_, leafStep_trap hcode hx, .of_halt (leafStep_trap hcode' (hexit.trans hx))⟩

/-- The function with the chunks simulates the function. -/
def expandSimulation (P : Program) (E : Expands f g) (V : Verified n f idom) :
    Simulation P.leafMachine P.leafMachine (· = ·) where
  R s t := (∃ b before, ExpandAt f g idom b before s.1 t.1) ∧ t.2 = s.2
  measure _ := 0
  Good := Stands P f idom g
  halt := by
    intro s t o h hgood hs
    obtain ⟨F, w⟩ := s
    obtain ⟨F', w'⟩ := t
    obtain ⟨⟨b, before, hat⟩, hw⟩ := h
    obtain rfl : w' = w := hw
    obtain ⟨s', b', before', t, t', hs', -⟩ | ⟨o', ho, ho'⟩ := hat.step E V hgood
    · rw [hs] at hs'
      cases hs'
    · rw [hs] at ho
      exact ⟨o', ho', Sum.inr.inj ho⟩
  step := by
    intro s t s' h hgood hs
    obtain ⟨F, w⟩ := s
    obtain ⟨F', w'⟩ := t
    obtain ⟨⟨b, before, hat⟩, hw⟩ := h
    obtain rfl : w' = w := hw
    obtain ⟨s₁, b', before', t, t', hs₁, hfirst, hrest, hat', hw'⟩ | ⟨o', ho, -⟩ := hat.step E V hgood
    · cases hs.symm.trans hs₁
      exact .steps hfirst hrest ⟨⟨b', before', hat'⟩, hw'⟩
    · rw [hs] at ho
      cases ho

/-- **Chunks that stand for their instructions run the same.** -/
theorem runsTo_expand_iff {args : List Val} {w : World}
    (hgood : ∀ s, P.leafMachine.Steps (f.start args, w) s → Stands P f idom g s) (o : Outcome) :
    P.RunsTo (f.expand g) args w o ↔ P.RunsTo f args w o := by
  obtain ⟨b, h⟩ : ∃ b, ExpandAt f g idom b [] (f.start args) ((f.expand g).start args) := ExpandAt.start V
  exact ((expandSimulation P E V).halts_iff (s := (f.start args, w)) (t := ((f.expand g).start args, w))
    ⟨⟨b, [], h⟩, rfl⟩ hgood o).symm

end

end Datara.Dmir
