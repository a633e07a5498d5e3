import Datara.Dmir.VerifierSound

/-!
# Substitution of values

The two walks over the operands of an instruction that the passes have: `substitute_operands` of
`optimizer/inline.rs`, which goes into the legacy loops and replaces definitions as well, and `subst_inst_operands` of
`optimizer/loops/mod.rs`, which does neither. A map from values to values is looked up where it is applied; what it
does not hold is left as it is.

An instruction with other operands has the same effect under registers that hold the same values there
(`Inst.rename_effect`).
-/

namespace Datara.Dmir

/-- `HashMap<ValueId, ValueId>`. -/
abbrev Subst := ValueId → Option ValueId

def Subst.empty : Subst := fun _ => none

/-- `subst.insert(v, u)`. -/
def Subst.insert (subst : Subst) (v u : ValueId) : Subst := Function.update subst v (some u)

/-- The pairs of a list, inserted in its order. -/
def Subst.ofPairs (l : List (ValueId × ValueId)) : Subst := l.foldl (fun subst p => subst.insert p.1 p.2) .empty

/-- `*v = subst.get(v)`, where there is one. -/
def Subst.apply (subst : Subst) (v : ValueId) : ValueId := (subst v).getD v

/-- The instruction with other values in the places of its definitions and of its operands. The legacy loops are
left to the walks. -/
def Inst.rename (def' use : ValueId → ValueId) : Inst → Inst
  | .constInt d v => .constInt (def' d) v
  | .constFloat d v => .constFloat (def' d) v
  | .constStr d s => .constStr (def' d) s
  | .constBool d b => .constBool (def' d) b
  | .loadVar d n => .loadVar (def' d) n
  | .assignVar n v => .assignVar n (use v)
  | .binOp d op l r ty => .binOp (def' d) op (use l) (use r) ty
  | .unOp d op o ty => .unOp (def' d) op (use o) ty
  | .cast d v s t => .cast (def' d) (use v) s t
  | .call d g args ty => .call (def' d) g (args.map use) ty
  | .methodCall d o m args ty => .methodCall (def' d) (use o) m (args.map use) ty
  | .structInit d c fs => .structInit (def' d) c (fs.map fun f => (f.1, use f.2))
  | .getField d o fl ty => .getField (def' d) (use o) fl ty
  | .setField o fl v => .setField (use o) fl (use v)
  | .out v ty => .out (use v) ty
  | .err v => .err (use v)
  | .formatStr d ps vs tys => .formatStr (def' d) ps (vs.map use) tys
  | .decide d arms ev ty => .decide (def' d) (arms.map fun a => (use a.1, use a.2)) (ev.map use) ty
  | .whileLoop ci cv bi => .whileLoop ci cv bi
  | .ret v => .ret (v.map use)
  | .getFuncAddr d g => .getFuncAddr (def' d) g
  | .select d c t e ty => .select (def' d) (use c) (use t) (use e) ty
  | .inlineAsm tm outs ins cl os =>
    .inlineAsm tm (outs.map fun o => (o.1, def' o.2)) (ins.map fun i => (i.1, use i.2)) cl os
  | .volatileLoad d a ty => .volatileLoad (def' d) (use a) ty
  | .volatileStore a v ty => .volatileStore (use a) (use v) ty

mutual

/-- `substitute_operands`. -/
def substituteOperands (subst : Subst) : Inst → Inst
  | .whileLoop ci cv bi => .whileLoop (substituteAll subst ci) (subst.apply cv) (substituteAll subst bi)
  | i => i.rename subst.apply subst.apply

/-- `substituteOperands` along a nested instruction list. -/
def substituteAll (subst : Subst) : List Inst → List Inst
  | [] => []
  | i :: is => substituteOperands subst i :: substituteAll subst is

end

/-- `subst_inst_operands`. -/
def substInstOperands (subst : Subst) (i : Inst) : Inst := i.rename id subst.apply

/-- `substitute_terminator`, and `subst_term_operands`. -/
def substituteTerminator (subst : Subst) : Terminator → Terminator
  | .branch t args => .branch t (args.map subst.apply)
  | .condBranch c t ta e ea =>
    .condBranch (subst.apply c) t (ta.map subst.apply) e (ea.map subst.apply)
  | .ret v => .ret (v.map subst.apply)
  | .unreachable => .unreachable

section
variable {def' use : ValueId → ValueId} {subst : Subst} {i : Inst} {t : Terminator} {v u : ValueId}

attribute [local simp] Inst.rename substituteOperands substituteTerminator

theorem Subst.apply_of_none (h : subst v = none) : subst.apply v = v := by rw [apply, h, Option.getD_none]

theorem Subst.apply_of_some (h : subst v = some u) : subst.apply v = u := by rw [apply, h, Option.getD_some]

theorem Subst.ofPairs_cases (l : List (ValueId × ValueId)) (v : ValueId) :
    ofPairs l v = none ∧ v ∉ l.map (·.1) ∨
      ∃ u, ofPairs l v = some u ∧ (v, u) ∈ l ∧
        ∀ regs rd : ValueId → Val, bindRegs regs (l.map fun p => (p.1, rd p.2)) v = rd u := by
  suffices h : ∀ (l : List (ValueId × ValueId)) (m : Subst),
      l.foldl (fun subst p => subst.insert p.1 p.2) m v = m v ∧ v ∉ l.map (·.1) ∨
        ∃ u, l.foldl (fun subst p => subst.insert p.1 p.2) m v = some u ∧ (v, u) ∈ l ∧
          ∀ regs rd : ValueId → Val, bindRegs regs (l.map fun p => (p.1, rd p.2)) v = rd u from h l .empty
  intro l
  induction l with
  | nil => exact fun m => .inl ⟨rfl, List.not_mem_nil⟩
  | cons x l ih =>
    intro m
    obtain ⟨h, hv⟩ | ⟨u, h, hu, hb⟩ := ih (m.insert x.1 x.2)
    · by_cases hx : v = x.1
      · refine .inr ⟨x.2, h.trans (hx ▸ Function.update_self ..), hx ▸ List.mem_cons_self, fun regs rd => ?_⟩
        have hkeys : v ∉ (l.map fun p => (p.1, rd p.2)).map (·.1) := by
          rw [List.map_map]
          exact hv
        exact (bindRegs_of_notMem hkeys).trans (hx ▸ Function.update_self ..)
      · refine .inl ⟨h.trans (Function.update_of_ne hx ..), fun hm => ?_⟩
        obtain hm | hm := List.mem_cons.mp hm
        · exact hx hm
        · exact hv hm
    · exact .inr ⟨u, h, List.mem_cons_of_mem _ hu, fun regs rd => hb _ rd⟩

/-! ## Definitions and uses -/

theorem Inst.rename_dests : (i.rename def' use).dests = i.dests.map def' := by
  cases i with
  | inlineAsm tm outs ins cl os =>
    simp only [rename, dests, List.map_map]
    rfl
  | _ => rfl

theorem Inst.rename_uses (h : ∀ ci cv bi, i ≠ .whileLoop ci cv bi) :
    instructionUses (i.rename def' use) = (instructionUses i).map use := by
  cases i with
  | whileLoop ci cv bi => exact absurd rfl (h ci cv bi)
  | decide d arms ev ty =>
    simp only [rename, instructionUses, List.map_append, List.flatMap_map, List.map_flatMap, List.map_cons, List.map_nil]
    cases ev <;> rfl
  | structInit d c fs =>
    simp only [rename, instructionUses, List.map_map]
    rfl
  | inlineAsm tm outs ins cl os =>
    simp only [rename, instructionUses, List.map_map]
    rfl
  | ret v => cases v <;> rfl
  | _ => rfl

theorem substituteOperands_eq (h : ∀ ci cv bi, i ≠ .whileLoop ci cv bi) :
    substituteOperands subst i = i.rename subst.apply subst.apply := by
  rw [substituteOperands.eq_def]
  split
  · exact absurd rfl (h _ _ _)
  · rfl

theorem substituteOperands_dests (subst : Subst) (i : Inst) :
    (substituteOperands subst i).dests = i.dests.map subst.apply := by
  by_cases h : ∃ ci cv bi, i = .whileLoop ci cv bi
  · obtain ⟨ci, cv, bi, rfl⟩ := h
    rw [substituteOperands]
    rfl
  · rw [substituteOperands_eq fun ci cv bi hi => h ⟨ci, cv, bi, hi⟩, Inst.rename_dests]

mutual

theorem substituteOperands_uses (subst : Subst) :
    ∀ i, instructionUses (substituteOperands subst i) = (instructionUses i).map subst.apply
  | .whileLoop ci cv bi => by
    simp only [substituteOperands, instructionUses, List.map_append, substituteAll_uses subst ci,
      substituteAll_uses subst bi]
    rfl
  | .constInt .. | .constFloat .. | .constStr .. | .constBool .. | .loadVar .. | .assignVar .. | .binOp .. | .unOp ..
  | .cast .. | .call .. | .methodCall .. | .structInit .. | .getField .. | .setField .. | .out .. | .err ..
  | .formatStr .. | .decide .. | .ret _ | .getFuncAddr .. | .select .. | .inlineAsm .. | .volatileLoad ..
  | .volatileStore .. => by
    refine (congrArg instructionUses (substituteOperands_eq ?_)).trans (Inst.rename_uses ?_) <;> exact nofun

theorem substituteAll_uses (subst : Subst) :
    ∀ is, nestedUses (substituteAll subst is) = (nestedUses is).map subst.apply
  | [] => rfl
  | i :: is => by
    simp [substituteAll, nestedUses, substituteOperands_uses subst i, substituteAll_uses subst is]

end

theorem substituteTerminator_targets (subst : Subst) (t : Terminator) :
    (substituteTerminator subst t).targets = t.targets := by cases t <;> rfl

theorem substituteTerminator_vids (subst : Subst) (t : Terminator) :
    (substituteTerminator subst t).vids = t.vids.map subst.apply := by
  cases t with
  | condBranch c t ta e ea => simp [substituteTerminator, Terminator.vids]
  | ret v => cases v <;> rfl
  | _ => rfl

theorem edgesOk_substituteTerminator {f : Function} : EdgesOk f (substituteTerminator subst t) ↔ EdgesOk f t := by
  cases t <;> simp [substituteTerminator, EdgesOk]

/-! ## Effects -/

variable {rd rd' : ValueId → Val}

/-- **The same effect**, under registers that hold at the new operands what the old ones did, as long as the
definitions stay. -/
theorem Inst.rename_effect {h : Host} {safe : List ValueId}
    (hd : ∀ d ∈ i.dests, def' d = d) (hr : ∀ v ∈ i.reads, rd' (use v) = rd v) :
    (i.rename def' use).effect h safe rd' = i.effect h safe rd := by
  have hmap : ∀ l : List ValueId, (∀ v ∈ l, rd' (use v) = rd v) → (l.map use).map rd' = l.map rd := by
    intro l hl
    rw [List.map_map]
    exact List.map_congr_left hl
  cases i with
  | structInit d c fs =>
    have hfs : (fs.map fun f => (f.1, use f.2)).map (fun f => (f.1, rd' f.2)) = fs.map fun f => (f.1, rd f.2) := by
      rw [List.map_map]
      exact List.map_congr_left fun f hf => congrArg (Prod.mk f.1) (hr f.2 (List.mem_map_of_mem hf))
    simp [rename, effect, hfs, hd d (List.mem_singleton_self d)]
  | decide d arms ev ty =>
    simp only [reads, instructionUses, List.mem_append, List.mem_flatMap] at hr
    have harms : (arms.map fun a => (use a.1, use a.2)).map (fun a => (rd' a.1, rd' a.2)) =
        arms.map fun a => (rd a.1, rd a.2) := by
      rw [List.map_map]
      refine List.map_congr_left fun a ha => ?_
      show (rd' (use a.1), rd' (use a.2)) = (rd a.1, rd a.2)
      rw [hr a.1 (.inl ⟨a, ha, by simp⟩), hr a.2 (.inl ⟨a, ha, by simp⟩)]
    have hev : (ev.map use).map rd' = ev.map rd := by
      cases ev with
      | none => rfl
      | some v => rw [Option.map_some, Option.map_some, Option.map_some, hr v (.inr (by simp))]
    simp [rename, effect, harms, hev, hd d (List.mem_singleton_self d)]
  | inlineAsm tm outs ins cl os =>
    have hins : (ins.map fun i => (i.1, use i.2)).map (fun i => rd' i.2) = ins.map fun i => rd i.2 := by
      rw [List.map_map]
      exact List.map_congr_left fun i hi => hr i.2 (List.mem_map_of_mem hi)
    have houts : ∀ v, (outs.map fun o => (o.1, def' o.2)).map (fun o => (o.2, (h.asmOutput o.1 v).1)) =
        outs.map fun o => (o.2, (h.asmOutput o.1 v).1) := by
      intro v
      rw [List.map_map]
      exact List.map_congr_left fun o ho => congrArg (Prod.mk · _) (hd o.2 (List.mem_map_of_mem ho))
    simp [rename, effect, hins, houts]
  | call d g args ty => simp only [rename, effect, hmap args hr, hd d (List.mem_singleton_self d)]
  | methodCall d o m args ty =>
    simp only [reads, instructionUses, List.forall_mem_cons] at hr
    have hconvert : ∀ x, h.convertMethod m (args.map use) x = h.convertMethod m args x := by
      intro x
      cases args with
      | nil => rfl
      | cons a args =>
        simp only [List.map_cons]
        unfold Host.convertMethod
        split <;> split <;> first | rfl | contradiction
    simp [rename, effect, hr.1, hmap args hr.2, hconvert, hd d (List.mem_singleton_self d)]
  | formatStr d ps vs tys => simp only [rename, effect, hmap vs hr, hd d (List.mem_singleton_self d)]
  | binOp d op l r ty =>
    simp only [reads, instructionUses, List.forall_mem_cons] at hr
    simp [rename, effect, hr, hd d (List.mem_singleton_self d)]
  | assignVar | setField | out | err | whileLoop | ret | volatileStore =>
    simp only [reads, instructionUses, List.forall_mem_cons] at hr
    simp [rename, effect, hr]
  | _ =>
    have hdest := hd _ (List.mem_singleton_self _)
    simp only [reads, instructionUses, List.forall_mem_cons] at hr
    simp [rename, effect, hr, hdest]

theorem substituteOperands_effect {h : Host} {safe : List ValueId}
    (hd : ∀ d ∈ i.dests, subst.apply d = d) (hr : ∀ v ∈ i.reads, rd' (subst.apply v) = rd v) :
    (substituteOperands subst i).effect h safe rd' = i.effect h safe rd := by
  by_cases h : ∃ ci cv bi, i = .whileLoop ci cv bi
  · obtain ⟨ci, cv, bi, rfl⟩ := h
    rw [substituteOperands]
    rfl
  · rw [substituteOperands_eq fun ci cv bi hi => h ⟨ci, cv, bi, hi⟩]
    exact Inst.rename_effect hd hr

theorem substituteTerminator_exit {f f' : Function} (hf : f'.returnType = f.returnType)
    (hr : ∀ v ∈ t.vids, rd' (subst.apply v) = rd v) :
    (substituteTerminator subst t).exit f' rd' = t.exit f rd := by
  have hmap : ∀ l : List ValueId, (∀ v ∈ l, rd' (subst.apply v) = rd v) →
      (l.map subst.apply).map rd' = l.map rd := by
    intro l hl
    rw [List.map_map]
    exact List.map_congr_left hl
  cases t with
  | branch t args => simp only [substituteTerminator, Terminator.exit, hmap args hr]
  | condBranch c t ta e ea =>
    simp only [Terminator.vids, List.cons_append, List.mem_cons, List.mem_append] at hr
    simp [substituteTerminator, Terminator.exit, hr c (.inl rfl), hmap ta fun v hv => hr v (.inr (.inl hv)), hmap ea fun v hv => hr v (.inr (.inr hv))]
  | ret v =>
    cases v with
    | none => simp only [substituteTerminator, Option.map_none, Terminator.exit, Function.returnValue, hf]
    | some v =>
      simp only [substituteTerminator, Option.map_some, Terminator.exit, Function.returnValue, hf,
        hr v (by simp [Terminator.vids])]
  | unreachable => rfl

end

end Datara.Dmir
