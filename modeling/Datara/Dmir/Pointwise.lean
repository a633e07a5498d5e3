import Datara.Dmir.Rewrite
import Datara.Dmir.ValueFacts

/-!
# Rewriting instruction by instruction

A pass that puts another instruction in the place of an instruction, with the same results. The
verifier accepts the outcome as soon as each new instruction reads what is available where it stands
(`Verified.mapCode_pointwise`). The two functions run in lockstep, as long as the instruction about to
execute and the one in its place have the same effect (`Mimics`, `runsTo_mapCode_iff`): what the effect
depends on is known of the states a run reaches, not of all.
-/

namespace Datara.Dmir

open Library

section
variable {f : Function} {g : BasicBlock → List Inst} {b : BasicBlock} {n : Nat} {idom : Cfg.Idom}

/-- The results are the same, place by place. -/
def SameDests (f : Function) (g : BasicBlock → List Inst) : Prop :=
  ∀ b ∈ f.blocks, (g b).map Inst.dests = b.instructions.map Inst.dests

theorem SameDests.length (h : SameDests f g) (hb : b ∈ f.blocks) : (g b).length = b.instructions.length := by
  simpa using congrArg List.length (h b hb)

theorem destsOf_eq_flatten (is : List Inst) : destsOf is = (is.map Inst.dests).flatten := by
  rw [destsOf, List.flatMap_def]

theorem SameDests.take (h : SameDests f g) (hb : b ∈ f.blocks) (k : Nat) :
    destsOf ((g b).take k) = destsOf (b.instructions.take k) := by
  rw [destsOf_eq_flatten, destsOf_eq_flatten, List.map_take, List.map_take, h b hb]

theorem SameDests.all (h : SameDests f g) (hb : b ∈ f.blocks) : destsOf (g b) = destsOf b.instructions := by
  rw [destsOf_eq_flatten, destsOf_eq_flatten, h b hb]

theorem SameDests.available (h : SameDests f g) {dom : BasicBlockId → BasicBlockId → Prop}
    {before before' : List Inst} {v : ValueId} (hbefore : destsOf before' = destsOf before)
    (hv : Available f dom b before v) : Available (f.mapCode g) dom (b.withCode (g b)) before' v := by
  rcases hv with hv | hv | ⟨c, hc, hne, hv, hdom⟩
  · exact .inl hv
  · exact .inr (.inl (hbefore ▸ hv))
  · refine .inr (.inr ⟨c.withCode (g c), mem_mapCode.mpr ⟨c, hc, rfl⟩, hne, ?_, hdom⟩)
    rw [Function.definesIn] at hv ⊢
    exact (h.all hc).symm ▸ hv

theorem Verified.mono (V : Verified n f idom) {m : Nat} (hnm : n ≤ m) : Verified m f idom :=
  { V with
    dominance := Cfg.computeDominance_mono hnm V.dominance
    uses := fun b hb before i after hi v hv =>
      (V.uses b hb before i after hi v hv).mono (fun _ _ => Cfg.dominates_mono hnm) fun _ => id
    termUses := fun b hb v hv =>
      (V.termUses b hb v hv).mono (fun _ _ => Cfg.dominates_mono hnm) fun _ => id }

/-- **Acceptance is kept** by instructions with the same results that read what is available. -/
theorem Verified.mapCode_pointwise (V : Verified n f idom) (h : SameDests f g)
    (huses : ∀ b ∈ f.blocks, ∀ before i rest i', b.instructions = before ++ i :: rest →
      (g b)[before.length]? = some i' → ∀ v ∈ instructionUses i',
        Available f (fun d b => Cfg.dominates n idom d b = some true) b before v) :
    Verified n (f.mapCode g) idom := by
  refine V.mapCode (fun b hb => h.all hb ▸ List.Sublist.refl _) ?_ ?_
  · intro b hb before' i' after' hg v hv
    have hlt : before'.length < b.instructions.length := by
      rw [← h.length hb, hg]
      simp
    have hsplit : b.instructions = b.instructions.take before'.length ++
        b.instructions.get ⟨before'.length, hlt⟩ :: b.instructions.drop (before'.length + 1) := by
      simp
    have hlen : (b.instructions.take before'.length).length = before'.length :=
      List.length_take_of_le (Nat.le_of_lt hlt)
    refine h.available ?_ (huses b hb _ _ _ i' hsplit (by rw [hlen, hg]; simp) v hv)
    rw [← h.take hb, hg]
    simp
  · exact fun b hb v hv => h.available (h.all hb) (V.termUses b hb v hv)

/-- The instruction in the place of the one about to execute has its effect. -/
def Mimics (P : Program) (f : Function) (idom : Cfg.Idom) (g : BasicBlock → List Inst)
    (s : Frame × World) : Prop :=
  ∀ b before i rest i', At f idom b before s.1 → s.1.code = i :: rest →
    (g b)[before.length]? = some i' → i'.effect P.host f.provenNoOverflow s.1.regs =
      i.effect P.host f.provenNoOverflow s.1.regs

/-- The instruction in the place of the one about to execute performs as it does. -/
def PerformsAlike (P : Program) (f : Function) (idom : Cfg.Idom) (g : BasicBlock → List Inst)
    (s : Frame × World) : Prop :=
  ∀ b before i rest i', At f idom b before s.1 → s.1.code = i :: rest →
    (g b)[before.length]? = some i' →
    (i'.effect P.host f.provenNoOverflow s.1.regs).perform P f s.1.vars s.2 =
      (i.effect P.host f.provenNoOverflow s.1.regs).perform P f s.1.vars s.2

theorem Mimics.performsAlike {P : Program} {s : Frame × World} (h : Mimics P f idom g s) :
    PerformsAlike P f idom g s := by
  intro b before i rest i' hat hcode hi'
  rw [h b before i rest i' hat hcode hi']

/-- The frame of the rewritten function, after as many instructions. -/
def rewrittenFrame (f : Function) (g : BasicBlock → List Inst) (b : BasicBlock) (before : List Inst)
    (F : Frame) : Frame :=
  { F with fn := f.mapCode g, code := (g b).drop before.length }

variable {P : Program} {before : List Inst} {s : Frame × World}

theorem rewrittenFrame_step (V : Verified n f idom) (h : SameDests f g)
    (hsame : PerformsAlike P f idom g s) (hat : At f idom b before s.1) :
    (∃ s' b' before', P.leafMachine.step s = .inl s' ∧ At f idom b' before' s'.1 ∧
      P.leafMachine.step (rewrittenFrame f g b before s.1, s.2) =
        .inl (rewrittenFrame f g b' before' s'.1, s'.2)) ∨
      ∃ o, P.leafMachine.step s = .inr o ∧
        P.leafMachine.step (rewrittenFrame f g b before s.1, s.2) = .inr o := by
  cases hcode : s.1.code with
  | cons i rest =>
    have hi : b.instructions = before ++ i :: rest := hcode ▸ hat.code
    have hlt : before.length < (g b).length := by
      rw [h.length hat.mem, hi]
      simp
    have hcode' : (rewrittenFrame f g b before s.1).code =
        (g b).get ⟨before.length, hlt⟩ :: (g b).drop (before.length + 1) :=
      List.drop_eq_getElem_cons hlt
    have he := hsame b before i rest _ hat hcode (List.getElem?_eq_getElem hlt)
    have hfn : ∀ e : Effect, e.perform P (f.mapCode g) s.1.vars s.2 = e.perform P f s.1.vars s.2 :=
      fun _ => Effect.perform_congr rfl rfl
    have hp' : ((rewrittenFrame f g b before s.1).effect P ((g b).get ⟨before.length, hlt⟩)).perform P
        (f.mapCode g) s.1.vars s.2 = (s.1.effect P i).perform P s.1.fn s.1.vars s.2 := by
      rw [hfn, Frame.effect, Frame.effect, hat.fn]
      exact he
    rcases @leafStep_lockstep_of_perform _ _ _ _ (rewrittenFrame f g b before s.1, s.2) _ _ hcode
      hcode' hp' with ⟨ws, vars, w, hp, hs, ht⟩ | ⟨o, hs, ht⟩
    · refine .inl ⟨_, b, before ++ [i], hs, ⟨hat.fn, hat.mem, hat.reached, ?_, hat.term⟩, ?_⟩
      · rw [hi, List.append_assoc]
        rfl
      · rw [ht]
        simp [rewrittenFrame, Frame.after]
    · exact .inr ⟨o, hs, ht⟩
  | nil =>
    have hend : before = b.instructions := by rw [hat.code, hcode, List.append_nil]
    have hcode' : (rewrittenFrame f g b before s.1).code = [] := by
      apply List.drop_of_length_le
      exact Nat.le_of_eq (by rw [h.length hat.mem, hend])
    have hexit : (rewrittenFrame f g b before s.1).term.exit (f.mapCode g) s.1.regs =
        s.1.term.exit s.1.fn s.1.regs := Terminator.exit_congr (by rw [hat.fn]; rfl) fun _ _ => rfl
    cases hx : s.1.term.exit s.1.fn s.1.regs with
    | goto t args =>
      have hx' := hx
      rw [hat.fn, hat.term] at hx'
      obtain ⟨c, hc, hget, hid, hlen, ht⟩ := V.exit_goto hat.mem hx'
      have hget' : (f.mapCode g).getBlock t = some (c.withCode (g c)) := by
        rw [getBlock_mapCode, hget]
        rfl
      refine .inl ⟨_, c, [], leafStep_goto hcode hx (hat.fn ▸ hget), ⟨hat.fn, hc, ?_, rfl, rfl⟩, ?_⟩
      · exact V.reached_of_edge hat.mem hat.reached ht
      · rw [leafStep_goto hcode' (hexit.trans hx) hget']
        rfl
    | ret v => exact .inr ⟨_, leafStep_ret hcode hx, leafStep_ret hcode' (hexit.trans hx)⟩
    | trap t => exact .inr ⟨_, leafStep_trap hcode hx, leafStep_trap hcode' (hexit.trans hx)⟩

/-- The function and the rewritten one run side by side. -/
def pointwiseSimulation (P : Program) (V : Verified n f idom) (h : SameDests f g) :
    Simulation P.leafMachine P.leafMachine (· = ·) where
  R s t := ∃ b before, At f idom b before s.1 ∧ t = (rewrittenFrame f g b before s.1, s.2)
  measure _ := 0
  Good := PerformsAlike P f idom g
  halt := by
    rintro s _ o ⟨b, before, hat, rfl⟩ hgood hs
    rcases rewrittenFrame_step V h hgood hat with ⟨s', _, _, hs', -⟩ | ⟨o', hs', ht⟩
    · rw [hs] at hs'
      cases hs'
    · cases hs.symm.trans hs'
      exact ⟨o, .of_halt ht, rfl⟩
  step := by
    rintro s _ s' ⟨b, before, hat, rfl⟩ hgood hs
    rcases rewrittenFrame_step V h hgood hat with ⟨s₁, b', before', hs₁, hat', ht⟩ | ⟨o', hs', -⟩
    · cases hs.symm.trans hs₁
      exact .steps ht (.refl _) ⟨b', before', hat', rfl⟩
    · rw [hs] at hs'
      cases hs'

/-- **Instructions that perform alike run the same.** -/
theorem runsTo_mapCode_iff_of_perform (V : Verified n f idom) (h : SameDests f g) {args : List Val}
    {w : World} (hsame : ∀ s, P.leafMachine.Steps (f.start args, w) s → PerformsAlike P f idom g s)
    (o : Outcome) :
    P.RunsTo (f.mapCode g) args w o ↔ P.RunsTo f args w o := by
  obtain ⟨b, hb, hid, hget, hat⟩ := V.at_start
  have hget' : (f.mapCode g).getBlock (f.mapCode g).entryBlock = some (b.withCode (g b)) := by
    rw [getBlock_mapCode]
    exact hget ▸ rfl
  refine ((pointwiseSimulation P V h).halts_iff ⟨b, [], hat, ?_⟩ hsame o).symm
  have hstart : (f.mapCode g).start args = rewrittenFrame f g b [] (f.start args) := by
    simp only [Function.start, hget, hget', rewrittenFrame, Option.map_some, Option.getD_some]
    rfl
  rw [hstart]

/-- **Instructions with the same effects run the same.** -/
theorem runsTo_mapCode_iff (V : Verified n f idom) (h : SameDests f g) {args : List Val} {w : World}
    (hsame : ∀ s, P.leafMachine.Steps (f.start args, w) s → Mimics P f idom g s) (o : Outcome) :
    P.RunsTo (f.mapCode g) args w o ↔ P.RunsTo f args w o :=
  runsTo_mapCode_iff_of_perform V h (fun s hs => (hsame s hs).performsAlike) o

end

end Datara.Dmir
