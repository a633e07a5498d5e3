import Datara.Dmir.Semantics
import Datara.Dmir.Verifier

/-!
# What one step looks at and what it changes

An instruction's effect depends on the registers it reads (`Inst.effect_congr`), writes the
registers it defines (`Effect.perform_dests`), and touches the function it runs in through its name
and its parameters only (`Effect.perform_congr`). Proofs about passes use these facts and do not
look into instructions again.
-/

namespace Datara.Dmir

/-! ## Registers -/

section
variable {regs regs' : ValueId → Val} {ws : List (ValueId × Val)} {v : ValueId}

theorem bindRegs_of_notMem (h : v ∉ ws.map (·.1)) : bindRegs regs ws v = regs v := by
  induction ws generalizing regs with
  | nil => rfl
  | cons w ws ih =>
    rw [List.map_cons, List.mem_cons, not_or] at h
    show bindRegs (Function.update regs w.1 w.2) ws v = regs v
    rw [ih h.2, Function.update_of_ne h.1]

theorem bindRegs_congr (h : v ∉ ws.map (·.1) → regs v = regs' v) : bindRegs regs ws v = bindRegs regs' ws v := by
  induction ws generalizing regs regs' with
  | nil => exact h List.not_mem_nil
  | cons w ws ih =>
    refine ih fun hn => ?_
    show Function.update regs w.1 w.2 v = Function.update regs' w.1 w.2 v
    by_cases hv : v = w.1
    · rw [hv, Function.update_self, Function.update_self]
    · rw [Function.update_of_ne hv, Function.update_of_ne hv]
      exact h (by simpa [hv] using hn)

/-- A register holds its old value or one that was written. -/
theorem bindRegs_cases (regs : ValueId → Val) (ws : List (ValueId × Val)) (v : ValueId) :
    bindRegs regs ws v = regs v ∨ (v, bindRegs regs ws v) ∈ ws := by
  induction ws generalizing regs with
  | nil => exact .inl rfl
  | cons w ws ih =>
    rcases ih (Function.update regs w.1 w.2) with h | h
    · by_cases hv : v = w.1
      · right
        have : bindRegs regs (w :: ws) v = w.2 := h.trans (by rw [hv, Function.update_self])
        rw [this, hv]
        exact List.mem_cons_self
      · exact .inl (h.trans (Function.update_of_ne hv _ _))
    · exact .inr (List.mem_cons_of_mem _ h)

end

/-! ## Effects -/

/-- The values an instruction's effect looks at. The compound instructions have none. -/
def Inst.reads : Inst → List ValueId
  | .whileLoop _ _ _ | .ret _ => []
  | i => instructionUses i

theorem Inst.dests_subset_visitVids (i : Inst) : i.dests ⊆ i.visitVids := by
  cases i <;> simp [dests, instructionDest, visitVids]

theorem Inst.reads_subset (i : Inst) : i.reads ⊆ instructionUses i := by
  cases i <;> simp [reads]

section
variable {h : Host} {safe safe' : List ValueId} {rd rd' : ValueId → Val} {i : Inst}

attribute [local simp] Inst.effect

theorem Inst.effect_congr (hs : ∀ d ∈ i.dests, d ∈ safe ↔ d ∈ safe')
    (hr : ∀ v ∈ i.reads, rd v = rd' v) : i.effect h safe rd = i.effect h safe' rd' := by
  have hmap : ∀ l : List ValueId, (∀ v ∈ l, rd v = rd' v) → l.map rd = l.map rd' :=
    fun l hl => List.map_congr_left hl
  cases i with
  | binOp d op l r ty =>
    have hd : Decidable.decide (d ∈ safe) = Decidable.decide (d ∈ safe') :=
      decide_eq_decide.mpr (hs d (by simp [dests, instructionDest]))
    simp only [reads, instructionUses, List.forall_mem_cons] at hr
    simp [effect, hr.1, hr.2.1, hd]
  | structInit d c fs =>
    simp only [effect, Effect.alloc.injEq, true_and]
    exact List.map_congr_left fun f hf => by rw [hr f.2 (List.mem_map_of_mem hf)]
  | decide d arms ev ty =>
    simp only [reads, instructionUses, List.mem_append, List.mem_flatMap] at hr
    have h₁ : arms.map (fun a => (rd a.1, rd a.2)) = arms.map fun a => (rd' a.1, rd' a.2) :=
      List.map_congr_left fun a ha => by
        rw [hr a.1 (.inl ⟨a, ha, by simp⟩), hr a.2 (.inl ⟨a, ha, by simp⟩)]
    have h₂ : ev.map rd = ev.map rd' := by
      cases ev with
      | none => rfl
      | some v => rw [Option.map_some, Option.map_some, hr v (.inr (by simp))]
    simp [effect, h₁, h₂]
  | inlineAsm tm outs ins cl os =>
    have : (ins.map fun i => rd i.2) = ins.map fun i => rd' i.2 :=
      List.map_congr_left fun a ha => hr a.2 (List.mem_map_of_mem ha)
    simp [effect, this]
  | call d f args ty => simp only [effect, hmap args hr]
  | methodCall d o m args ty =>
    simp only [reads, instructionUses, List.forall_mem_cons] at hr
    simp [effect, hr.1, hmap args hr.2]
  | formatStr d ps vs tys => simp only [effect, hmap vs hr]
  | _ =>
    simp only [reads, instructionUses, List.forall_mem_cons] at hr
    simp [effect, hr]

/-- Only a `LoadVar` reads a variable. -/
theorem Inst.eq_loadVar_of_effect {d : ValueId} {n : String} (he : i.effect h safe rd = .load d n) :
    i = .loadVar d n := by
  cases i with
  | loadVar d' n' =>
    cases he
    rfl
  | methodCall d' o m args ty =>
    simp only [effect] at he
    split at he <;> cases he
  | _ => cases he

/-- Only an `AssignVar` writes a variable. -/
theorem Inst.eq_assignVar_of_effect {n : String} {v : Val} (he : i.effect h safe rd = .store n v) :
    ∃ u, i = .assignVar n u := by
  cases i with
  | assignVar n' u =>
    cases he
    exact ⟨u, rfl⟩
  | methodCall d' o m args ty =>
    simp only [effect] at he
    split at he <;> cases he
  | _ => cases he

/-- Only a `StructInit` makes an object. -/
theorem Inst.eq_structInit_of_effect {d : ValueId} {c : String} {fs : List (String × Val)}
    (he : i.effect h safe rd = .alloc d c fs) : ∃ fs', i = .structInit d c fs' := by
  cases i with
  | structInit d' c' fs' =>
    cases he
    exact ⟨fs', rfl⟩
  | methodCall d' o m args ty =>
    simp only [effect] at he
    split at he <;> cases he
  | _ => cases he

end

section
variable {P : Program} {f f' : Function} {vars vars' : String → Val} {w w' : World} {e : Effect}

theorem Function.slotOf_congr (h : f.params = f'.params) : f.slotOf = f'.slotOf := by
  funext n
  simp only [Function.slotOf, h]

theorem Effect.perform_congr (hn : f.name = f'.name) (hp : f.params = f'.params) :
    e.perform P f vars w = e.perform P f' vars w := by
  cases e with
  | compute d r => cases r <;> rfl
  | _ => simp only [perform, hn, Function.slotOf_congr hp]

theorem Terminator.exit_congr {t : Terminator} {rd rd' : ValueId → Val}
    (ht : f.returnType = f'.returnType) (hr : ∀ v ∈ t.vids, rd v = rd' v) :
    t.exit f rd = t.exit f' rd' := by
  have hmap : ∀ l : List ValueId, (∀ v ∈ l, rd v = rd' v) → l.map rd = l.map rd' :=
    fun l hl => List.map_congr_left hl
  cases t with
  | branch t args => simp only [exit, hmap args hr]
  | condBranch c t ta e ea =>
    simp only [vids, List.cons_append, List.mem_cons, List.mem_append] at hr
    simp [exit, hr c (.inl rfl), hmap ta fun v hv => hr v (.inr (.inl hv)), hmap ea fun v hv => hr v (.inr (.inr hv))]
  | ret v =>
    cases v with
    | none => simp only [exit, Function.returnValue, ht]
    | some v => simp only [exit, Function.returnValue, ht, hr v (by simp [vids])]
  | unreachable => rfl

theorem Result.answered_done {binds : Val → List (ValueId × Val)} {a : Ending × World}
    {ws : List (ValueId × Val)} (h : Result.answered vars binds a = .done ws vars' w') :
    ∃ v, a = (.returned v, w') ∧ ws = binds v ∧ vars' = vars := by
  obtain ⟨e, w⟩ := a
  cases e with
  | returned v =>
    obtain ⟨rfl, rfl, rfl⟩ := h
    exact ⟨v, rfl, rfl, rfl⟩
  | trapped t => cases h
  | stopped => cases h

theorem Result.answered_halt {binds : Val → List (ValueId × Val)} {a : Ending × World} {x : Ending}
    (h : Result.answered vars binds a = .halt x w') (v : Val) : x ≠ .returned v := by
  rintro rfl
  obtain ⟨e, w⟩ := a
  cases e <;> cases h

theorem Effect.perform_halt {x : Ending} (h : e.perform P f vars w = .halt x w') (v : Val) : x ≠ .returned v := by
  cases e with
  | compute d r => cases r <;> cases h; exact Ending.noConfusion
  | store n u =>
    simp only [perform] at h
    split at h <;> cases h
  | getField d o field =>
    simp only [perform] at h
    split at h <;> cases h
    exact Ending.noConfusion
  | setField o field u =>
    simp only [perform] at h
    split at h <;> cases h
    exact Ending.noConfusion
  | request ev binds => exact Result.answered_halt h v
  | call d g args =>
    simp only [perform] at h
    split at h
    · cases h
    · exact Result.answered_halt h v
  | method d m o args => exact Result.answered_halt h v
  | _ => cases h

/-- An instruction that goes through writes the registers it defines. -/
theorem Effect.perform_dests {h : Host} {safe : List ValueId} {rd : ValueId → Val} {i : Inst}
    {ws : List (ValueId × Val)}
    (hp : (i.effect h safe rd).perform P f vars w = .done ws vars' w') :
    ws.map (·.1) = i.dests := by
  have answered : ∀ {binds : Val → List (ValueId × Val)} {a : Ending × World} {ds : List ValueId},
      Result.answered vars binds a = .done ws vars' w' → (∀ v, (binds v).map (·.1) = ds) →
      ws.map (·.1) = ds := by
    intro binds a ds ha hb
    obtain ⟨v, _, rfl, _⟩ := Result.answered_done ha
    exact hb v
  cases i with
  | binOp d op l r ty =>
    simp only [Inst.effect] at hp
    generalize h.evalBinOp _ op ty (rd l) (rd r) = x at hp
    cases x with
    | error t => cases hp
    | ok v => cases hp; rfl
  | assignVar n v =>
    simp only [Inst.effect, perform] at hp
    split at hp <;> cases hp <;> rfl
  | getField d o fl ty =>
    simp only [Inst.effect, perform] at hp
    split at hp <;> cases hp; rfl
  | setField o fl v =>
    simp only [Inst.effect, perform] at hp
    split at hp <;> cases hp; rfl
  | call d g args ty =>
    simp only [Inst.effect, perform] at hp
    split at hp
    · cases hp; rfl
    · exact answered hp fun v => rfl
  | methodCall d o m args ty =>
    simp only [Inst.effect] at hp
    split at hp
    case h_1 x hx =>
      cases x with
      | error t => cases hp
      | ok v => cases hp; rfl
    case h_2 => exact answered hp fun v => rfl
  | inlineAsm tm outs ins cl os => exact answered hp fun v => by simp [Inst.dests]
  | volatileLoad d a ty => exact answered hp fun v => rfl
  | volatileStore a v ty => exact answered hp fun v => rfl
  | _ => cases hp; rfl

end

/-! ## Steps -/

section
variable {P : Program} {s : Frame × World} {i : Inst} {rest : List Inst} {w : World}
  {t : BasicBlockId} {args : List Val}

theorem leafStep_done {ws : List (ValueId × Val)} {vars : String → Val} (hcode : s.1.code = i :: rest)
    (h : (s.1.effect P i).perform P s.1.fn s.1.vars s.2 = .done ws vars w) :
    P.leafMachine.step s = .inl (s.1.after rest ws vars, w) := by
  simp [Program.leafMachine, Program.leafStep, hcode, h]

theorem leafStep_halt {e : Ending} (hcode : s.1.code = i :: rest)
    (h : (s.1.effect P i).perform P s.1.fn s.1.vars s.2 = .halt e w) :
    P.leafMachine.step s = .inr (P.finish w e) := by
  simp [Program.leafMachine, Program.leafStep, hcode, h]

theorem leafStep_goto {b : BasicBlock} (hcode : s.1.code = [])
    (h : s.1.term.exit s.1.fn s.1.regs = .goto t args) (hb : s.1.fn.getBlock t = some b) :
    P.leafMachine.step s = .inl (s.1.into b args, s.2) := by
  simp [Program.leafMachine, Program.leafStep, hcode, h, Frame.enter, hb]

theorem leafStep_lockstep_of_perform {s' : Frame × World} {i' : Inst} {rest' : List Inst}
    (hcode : s.1.code = i :: rest) (hcode' : s'.1.code = i' :: rest')
    (hp : (s'.1.effect P i').perform P s'.1.fn s'.1.vars s'.2 =
      (s.1.effect P i).perform P s.1.fn s.1.vars s.2) :
    (∃ ws vars w, (s.1.effect P i).perform P s.1.fn s.1.vars s.2 = .done ws vars w ∧
        P.leafMachine.step s = .inl (s.1.after rest ws vars, w) ∧
        P.leafMachine.step s' = .inl (s'.1.after rest' ws vars, w)) ∨
      ∃ o, P.leafMachine.step s = .inr o ∧ P.leafMachine.step s' = .inr o := by
  cases h : (s.1.effect P i).perform P s.1.fn s.1.vars s.2 with
  | done ws vars w =>
    exact .inl ⟨ws, vars, w, rfl, leafStep_done hcode h, leafStep_done hcode' (hp.trans h)⟩
  | halt e w => exact .inr ⟨_, leafStep_halt hcode h, leafStep_halt hcode' (hp.trans h)⟩

theorem leafStep_lockstep {s' : Frame × World} {i' : Inst} {rest' : List Inst}
    (hcode : s.1.code = i :: rest) (hcode' : s'.1.code = i' :: rest')
    (hn : s.1.fn.name = s'.1.fn.name) (hp : s.1.fn.params = s'.1.fn.params)
    (he : s'.1.effect P i' = s.1.effect P i) (hvars : s'.1.vars = s.1.vars) (hw : s'.2 = s.2) :
    (∃ ws vars w, (s.1.effect P i).perform P s.1.fn s.1.vars s.2 = .done ws vars w ∧
        P.leafMachine.step s = .inl (s.1.after rest ws vars, w) ∧
        P.leafMachine.step s' = .inl (s'.1.after rest' ws vars, w)) ∨
      ∃ o, P.leafMachine.step s = .inr o ∧ P.leafMachine.step s' = .inr o := by
  refine leafStep_lockstep_of_perform hcode hcode' ?_
  rw [he, hvars, hw]
  exact Effect.perform_congr hn.symm hp.symm

theorem leafStep_missing (hcode : s.1.code = [])
    (h : s.1.term.exit s.1.fn s.1.regs = .goto t args) (hb : s.1.fn.getBlock t = none) :
    P.leafMachine.step s = .inr (P.finish s.2 (.trapped .unsupported)) := by
  simp [Program.leafMachine, Program.leafStep, hcode, h, Frame.enter, hb]

theorem leafStep_ret {v : Val} (hcode : s.1.code = [])
    (h : s.1.term.exit s.1.fn s.1.regs = .ret v) :
    P.leafMachine.step s = .inr (P.finish s.2 (.returned v)) := by
  simp [Program.leafMachine, Program.leafStep, hcode, h]

theorem leafStep_trap {e : Trap} (hcode : s.1.code = [])
    (h : s.1.term.exit s.1.fn s.1.regs = .trap e) :
    P.leafMachine.step s = .inr (P.finish s.2 (.trapped e)) := by
  simp [Program.leafMachine, Program.leafStep, hcode, h]

end

end Datara.Dmir
