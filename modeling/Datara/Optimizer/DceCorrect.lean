import Datara.Optimizer.Dce

/-!
# Dead-code elimination, correct

What the sweep removes and what it keeps. A removed instruction writes no register that is used and
no variable that is loaded, and its object, if it makes one, is reached by nothing
(`DceAt`); the two programs then run side by side, the second one waiting while the first executes a
removed instruction.

`may_trap` knows `/` and `%` only, and purity of a call is read off its name, so the runs agree
under `Harmless`: no removed `+ - *` overflows, and a removed call is a built-in function. The
verifier accepts the result exactly when no value that a legacy `WhileLoop` node mentions lost its
definition.
-/

namespace Datara.Optimizer

open Dmir Library

/-! ## What is removed -/

section
variable {L : Liveness} {before : List Inst} {i : Inst} {v : ValueId}

attribute [local simp] Liveness.removes isPure

theorem Liveness.removes_cases (h : L.removes before i = true) :
    (∃ n u, i = .assignVar n u ∧ n ∉ L.loaded ∧ n ∉ L.globals) ∨
      (isPure i = true ∧ ∃ d, i.dests = [d] ∧ d ∉ L.used) ∨
      ∃ d o fl ty, i = .getField d o fl ty ∧ d ∉ L.used ∧ initialized before o = true := by
  cases i with
  | assignVar n u =>
    refine .inl ⟨n, u, rfl, ?_⟩
    simpa [removes, isPure, isPureCallInst] using h
  | getField d o fl ty =>
    refine .inr (.inr ⟨d, o, fl, ty, rfl, ?_⟩)
    simpa [removes, isPure, isPureCallInst] using h
  | call d g args ty =>
    simp only [removes, pureDest, Bool.false_or, Bool.or_false, Bool.and_eq_true,
      decide_eq_true_eq] at h
    exact .inr (.inl ⟨h.1.1, d, rfl, h.2⟩)
  | binOp d op l r ty =>
    simp only [removes, pureDest, Bool.false_or, Bool.or_false, Bool.and_eq_true,
      decide_eq_true_eq] at h
    exact .inr (.inl ⟨rfl, d, rfl, h.2⟩)
  | constInt d _ | constFloat d _ | constStr d _ | constBool d _ | loadVar d _ | unOp d _ _ _
  | structInit d _ _ | formatStr d _ _ _ | select d _ _ _ _ | decide d _ _ _ =>
    exact .inr (.inl ⟨rfl, d, rfl, by simpa [removes, isPure, mayTrap, pureDest] using h⟩)
  | _ => simp [removes, isPure, isPureCallInst] at h

theorem Liveness.not_used_of_removes (h : L.removes before i = true) (hv : v ∈ i.dests) : v ∉ L.used := by
  rcases removes_cases h with ⟨n, u, rfl, _⟩ | ⟨_, d, hd, hu⟩ | ⟨d, o, fl, ty, rfl, hu, _⟩
  · cases hv
  · rw [hd, List.mem_singleton] at hv
    exact hv ▸ hu
  · obtain rfl := List.mem_singleton.mp hv
    exact hu

theorem Liveness.assigned_of_keeps {n : String} {u : ValueId}
    (h : L.removes before (.assignVar n u) = false) : n ∈ L.loaded ∨ n ∈ L.globals := by
  by_contra hn
  rw [not_or] at hn
  simp [removes, hn.1, hn.2] at h

end

/-! ## The sweep -/

section
variable {L : Liveness} {pre is : List Inst}

theorem Liveness.sweep_sublist (L : Liveness) (pre is : List Inst) : (L.sweep pre is).Sublist is := by
  induction is generalizing pre with
  | nil => exact .refl _
  | cons i is ih =>
    rw [sweep]
    split
    · exact (ih _).cons i
    · exact (ih _).cons_cons i

theorem Liveness.sweep_split {before' after' : List Inst} {i : Inst}
    (h : L.sweep pre is = before' ++ i :: after') :
    ∃ before after, is = before ++ i :: after ∧ before' = L.sweep pre before ∧
      L.removes (pre ++ before) i = false := by
  induction is generalizing pre before' with
  | nil => simp [sweep] at h
  | cons j is ih =>
    rw [sweep] at h
    split at h
    case isTrue hr =>
      obtain ⟨before, after, rfl, rfl, hk⟩ := ih h
      refine ⟨j :: before, after, rfl, by rw [sweep, if_pos hr], ?_⟩
      simpa using hk
    case isFalse hr =>
      cases before' with
      | nil =>
        obtain ⟨rfl, _⟩ := List.cons.inj h
        exact ⟨[], is, rfl, rfl, by simpa using hr⟩
      | cons k before' =>
        obtain ⟨rfl, htl⟩ := List.cons.inj h
        obtain ⟨before, after, rfl, rfl, hk⟩ := ih htl
        refine ⟨j :: before, after, rfl, by rw [sweep, if_neg hr], ?_⟩
        simpa using hk

theorem Liveness.mem_sweep (pre : List Inst) {before after : List Inst} {i : Inst}
    (h : is = before ++ i :: after)
    (hk : L.removes (pre ++ before) i = false) : i ∈ L.sweep pre is := by
  induction is generalizing pre before with
  | nil => simp at h
  | cons j is ih =>
    cases before with
    | nil =>
      cases h
      rw [sweep, if_neg (by simpa using hk)]
      exact List.mem_cons_self
    | cons k before =>
      obtain ⟨rfl, htl⟩ := List.cons.inj h
      have := ih (pre ++ [j]) htl (by simpa using hk)
      rw [sweep]
      split
      · exact this
      · exact List.mem_cons_of_mem _ this

end

/-! ## What is kept is used -/

section
variable {loaded globals : List String} {i : Inst} {v : ValueId}

theorem uses_subset_collectUsed (hw : ∀ ci cv bi, i ≠ .whileLoop ci cv bi)
    (ha : ∀ n u, i = .assignVar n u → n ∈ loaded ∨ n ∈ globals) :
    instructionUses i ⊆ collectUsedValues loaded globals i := by
  cases i with
  | whileLoop ci cv bi => exact absurd rfl (hw ci cv bi)
  | assignVar n u => simp [instructionUses, collectUsedValues, ha n u rfl]
  | _ => simp [instructionUses, collectUsedValues]

theorem reads_subset_collectUsed (ha : ∀ n u, i = .assignVar n u → n ∈ loaded ∨ n ∈ globals) :
    i.reads ⊆ collectUsedValues loaded globals i := by
  by_cases hw : ∃ ci cv bi, i = .whileLoop ci cv bi
  · obtain ⟨ci, cv, bi, rfl⟩ := hw
    simp [Inst.reads]
  · push Not at hw
    exact fun v hv => uses_subset_collectUsed hw ha (i.reads_subset hv)

end

section
variable {globals : List String} {f : Function} {b : BasicBlock} {before after : List Inst}
  {i : Inst} {v : ValueId}

theorem mem_usedValues (hb : b ∈ f.blocks) (hi : i ∈ b.instructions)
    (hv : v ∈ collectUsedValues (loadedVars f) globals i) : v ∈ (liveness globals f).used :=
  List.mem_flatMap.mpr ⟨b, hb, List.mem_append_left _ (List.mem_flatMap.mpr ⟨i, hi, hv⟩)⟩

theorem used_of_reads (hb : b ∈ f.blocks) (hi : b.instructions = before ++ i :: after)
    (hk : (liveness globals f).removes before i = false) (hv : v ∈ i.reads) :
    v ∈ (liveness globals f).used := by
  refine mem_usedValues hb (hi ▸ by simp) (reads_subset_collectUsed (fun n u he => ?_) hv)
  subst he
  exact Liveness.assigned_of_keeps hk

theorem used_of_terminator (hb : b ∈ f.blocks) (hv : v ∈ b.terminator.vids) : v ∈ (liveness globals f).used :=
  List.mem_flatMap.mpr ⟨b, hb, List.mem_append_right _ hv⟩

theorem loaded_of_load (globals : List String) {d : ValueId} {n : String} (hb : b ∈ f.blocks)
    (hi : .loadVar d n ∈ b.instructions) : n ∈ (liveness globals f).loaded :=
  List.mem_flatMap.mpr ⟨b, hb, List.mem_flatMap.mpr ⟨_, hi, List.mem_singleton_self _⟩⟩

end

/-! ## Acceptance -/

section
variable {globals : List String} {f : Function} {b : BasicBlock} {v : ValueId}

/-- A value whose definition the sweep removes. -/
def LosesDefinition (globals : List String) (f : Function) (v : ValueId) : Prop :=
  ∃ b ∈ f.blocks, ∃ before i after, b.instructions = before ++ i :: after ∧
    (liveness globals f).removes before i = true ∧ v ∈ i.dests

/-- No value that a `WhileLoop` node mentions loses its definition. -/
def NestedUsesKept (globals : List String) (f : Function) : Prop :=
  ∀ b ∈ f.blocks, ∀ ci cv bi, .whileLoop ci cv bi ∈ b.instructions →
    ∀ v ∈ nestedUses ci ++ nestedUses bi, ¬LosesDefinition globals f v

theorem not_losesDefinition_of_used (h : v ∈ (liveness globals f).used) : ¬LosesDefinition globals f v := by
  rintro ⟨b, _, before, i, after, _, hr, hv⟩
  exact Liveness.not_used_of_removes hr hv h

/-- A value that keeps its definition is defined by what is left of the instructions before a
point. -/
theorem mem_destsOf_sweep (hb : b ∈ f.blocks) {before after : List Inst}
    (hi : b.instructions = before ++ after) (hv : v ∈ destsOf before)
    (hk : ¬LosesDefinition globals f v) : v ∈ destsOf ((liveness globals f).sweep [] before) := by
  obtain ⟨i, hmem, hvi⟩ := List.mem_flatMap.mp hv
  obtain ⟨pre, post, rfl⟩ := List.append_of_mem hmem
  refine List.mem_flatMap.mpr ⟨i, Liveness.mem_sweep _ rfl ?_, hvi⟩
  by_contra hr
  refine hk ⟨b, hb, pre, i, post ++ after, ?_, by simpa using hr, hvi⟩
  rw [hi, List.append_assoc, List.cons_append]

theorem available_sweep {dom : BasicBlockId → BasicBlockId → Prop} (hb : b ∈ f.blocks)
    {before after : List Inst} (hi : b.instructions = before ++ after)
    (h : Available f dom b before v) (hk : ¬LosesDefinition globals f v) :
    Available (deadCodeElimination globals f).1 dom
      (b.withCode ((liveness globals f).sweep [] b.instructions))
      ((liveness globals f).sweep [] before) v := by
  rcases h with h | h | ⟨b', hb', hne, hv, hd⟩
  · exact .inl h
  · exact .inr (.inl (mem_destsOf_sweep hb hi h hk))
  · refine .inr (.inr ⟨_, mem_mapCode.mpr ⟨b', hb', rfl⟩, hne, ?_, hd⟩)
    rcases List.mem_append.mp hv with hv | hv
    · exact List.mem_append_left _ hv
    · exact List.mem_append_right _
        (mem_destsOf_sweep hb' (List.append_nil _).symm hv hk)

theorem accepts_of_nestedUsesKept (hf : Accepts f) (h : NestedUsesKept globals f) :
    Accepts (deadCodeElimination globals f).1 := by
  obtain ⟨n, hn⟩ := hf
  obtain ⟨idom, V⟩ := verifyFunction_ok_iff_verified.mp hn
  refine ⟨n, verifyFunction_ok_iff_verified.mpr ⟨idom, V.mapCode (fun b _ => ?_) ?_ ?_⟩⟩
  · exact (Liveness.sweep_sublist _ _ _).flatMap _
  · intro b hb before' i after' hi v hv
    obtain ⟨before, after, hsplit, rfl, hk⟩ := Liveness.sweep_split hi
    refine available_sweep hb hsplit (V.uses b hb before i after hsplit v hv) ?_
    by_cases hw : ∃ ci cv bi, i = .whileLoop ci cv bi
    · obtain ⟨ci, cv, bi, rfl⟩ := hw
      rcases List.mem_append.mp hv with hv | hv
      · exact h b hb ci cv bi (hsplit ▸ by simp) v hv
      · obtain rfl := List.mem_singleton.mp hv
        refine not_losesDefinition_of_used (mem_usedValues (i := .whileLoop ci v bi) hb ?_
          (by simp [collectUsedValues]))
        rw [hsplit]
        exact List.mem_append_right _ List.mem_cons_self
    · push Not at hw
      refine not_losesDefinition_of_used (mem_usedValues hb (hsplit ▸ by simp)
        (uses_subset_collectUsed hw (fun m u he => ?_) hv))
      subst he
      exact Liveness.assigned_of_keeps hk
  · intro b hb v hv
    exact available_sweep hb (List.append_nil _).symm (V.termUses b hb v hv)
      (not_losesDefinition_of_used (used_of_terminator hb hv))

theorem not_losesDefinition_of_defined {n : Nat} {idom : Cfg.Idom} (V : Verified n f idom)
    (hb : b ∈ f.blocks)
    (hv : v ∈ f.headDefs b ∨ v ∈ destsOf ((liveness globals f).sweep [] b.instructions)) :
    ¬LosesDefinition globals f v := by
  rintro ⟨c, hc, before, i, after, hi, hr, hvi⟩
  rcases hv with hv | hv
  · exact V.head_not_dest hc hb hi hvi hv
  · obtain ⟨i', hi', hvi'⟩ := List.mem_flatMap.mp hv
    obtain ⟨before'', after'', hs⟩ := List.append_of_mem hi'
    obtain ⟨before', after', hsplit, _, hk⟩ := Liveness.sweep_split hs
    obtain ⟨_, rfl, rfl⟩ := V.def_unique hc hb hi hvi hsplit hvi'
    rw [List.nil_append, hr] at hk
    cases hk

theorem nestedUsesKept_of_accepts (hf : Accepts f)
    (h : Accepts (deadCodeElimination globals f).1) : NestedUsesKept globals f := by
  obtain ⟨n, hn⟩ := hf
  obtain ⟨idom, V⟩ := verifyFunction_ok_iff_verified.mp hn
  obtain ⟨n', hn'⟩ := h
  obtain ⟨idom', V'⟩ := verifyFunction_ok_iff_verified.mp hn'
  intro b hb ci cv bi hw v hv
  obtain ⟨before, after, hi⟩ := List.append_of_mem hw
  have hkeep : (liveness globals f).removes before (.whileLoop ci cv bi) = false := by
    simp [Liveness.removes, isPure, isPureCallInst]
  obtain ⟨before', after', hi'⟩ := List.append_of_mem
    (Liveness.mem_sweep [] hi hkeep)
  have hav := V'.uses _ (mem_mapCode.mpr ⟨b, hb, rfl⟩) before' _ after' hi' v
    (List.mem_append_left _ hv)
  rcases hav with hav | hav | ⟨c', hc', _, hav, _⟩
  · exact not_losesDefinition_of_defined V hb (.inl hav)
  · refine not_losesDefinition_of_defined V hb (.inr ?_)
    obtain ⟨i, him, hvi⟩ := List.mem_flatMap.mp hav
    refine List.mem_flatMap.mpr ⟨i, ?_, hvi⟩
    rw [hi']
    exact List.mem_append_left _ him
  · obtain ⟨c, hc, rfl⟩ := mem_mapCode.mp hc'
    exact not_losesDefinition_of_defined V hc (List.mem_append.mp hav)

end

/-! ## Runs -/

/-- The sweep may remove the next instruction: what it would have done goes unseen. An operation
does not fault, a called function is built in, and a variable is not loaded under its other name. -/
def Harmless (P : Program) (globals : List String) (f : Function) (s : Frame × World) : Prop :=
  ∀ i rest, s.1.code = i :: rest → (liveness globals f).removes [] i = true →
    match s.1.effect P i with
    | .compute _ r => ∃ v, r = .ok v
    | .store n _ => ∀ m ∈ loadedVars f, f.slotOf m ≠ f.slotOf n
    | .call _ func _ => (P.host.builtin func).isSome
    | _ => True

/-- The objects of allocation sites whose result is unused. -/
def Unreached (globals : List String) (f : Function) (r : Ref) : Prop :=
  ∃ d k, r = .site f.name d k ∧ d ∉ (liveness globals f).used

/-- The variables that are loaded. -/
def LoadedSlot (f : Function) (slot : String) : Prop := ∃ m ∈ loadedVars f, f.slotOf m = slot

/-- The original and the result, both in block `b`, the original after the instructions `before`. -/
structure DceAt (globals : List String) (f : Function) (b : BasicBlock) (before : List Inst)
    (s t : Frame × World) : Prop where
  fn : s.1.fn = f
  fn' : t.1.fn = (deadCodeElimination globals f).1
  code : b.instructions = before ++ s.1.code
  code' : t.1.code = (liveness globals f).sweep before s.1.code
  term : s.1.term = b.terminator
  term' : t.1.term = b.terminator
  regs : ∀ v ∈ (liveness globals f).used,
    s.1.regs v = t.1.regs v ∧ (s.1.regs v).Off (Unreached globals f)
  vars : VarsAgree (Unreached globals f) (LoadedSlot f) s.1.vars t.1.vars
  world : s.2.AgreeOff (Unreached globals f) t.2
  made : ∀ d c fs, .structInit d c fs ∈ before →
    ∃ r, s.1.regs d = .ref r ∧ (s.2.heap r).isSome

section
variable {P : Program} {globals : List String} {f : Function} {b : BasicBlock}
  {before rest : List Inst} {i : Inst} {s t : Frame × World} {n : Nat} {idom : Cfg.Idom}

theorem unreached_ext (k : Nat) : ¬Unreached globals f (.ext k) := by
  rintro ⟨d, k, h, _⟩
  cases h

theorem DceAt.removed_step (hg : ∀ m, P.isGlobal m = decide (m ∈ globals))
    (h : DceAt globals f b before s t) (hcode : s.1.code = i :: rest)
    (hr : (liveness globals f).removes before i = true) (hH : Harmless P globals f s) :
    ∃ ws vars w, (s.1.effect P i).perform P s.1.fn s.1.vars s.2 = .done ws vars w ∧
      VarsAgree (Unreached globals f) (LoadedSlot f) vars t.1.vars ∧
      w.AgreeOff (Unreached globals f) t.2 ∧
      ∀ d c fs, i = .structInit d c fs → ∃ r, ws = [(d, .ref r)] ∧ (w.heap r).isSome := by
  have harm := hH i rest hcode
  rcases Liveness.removes_cases hr with ⟨m, u, rfl, hm, hmg⟩ | ⟨hp, d, hd, hu⟩ |
    ⟨d, o, fl, ty, rfl, hu, hinit⟩
  · -- an assignment to a variable that is not loaded
    replace harm := harm (by simpa [Liveness.removes, isPure, isPureCallInst] using hr)
    have hmg' : P.isGlobal m = false := by rw [hg]; exact decide_eq_false hmg
    refine ⟨[], Function.update s.1.vars (s.1.fn.slotOf m) (s.1.regs u), s.2, ?_, ?_, h.world, ?_⟩
    · simp [Frame.effect, Inst.effect, Effect.perform, hmg']
    · rintro x ⟨y, hy, rfl⟩
      rw [Function.update_of_ne (h.fn ▸ harm y hy)]
      exact h.vars _ ⟨y, hy, rfl⟩
    · rintro d c fs ⟨⟩
  · -- a value computed for nothing
    have compute : ∀ {d' r}, s.1.effect P i = .compute d' r → (∃ v, r = .ok v) →
        (∀ d c fs, i ≠ .structInit d c fs) →
        ∃ ws vars w, (s.1.effect P i).perform P s.1.fn s.1.vars s.2 = .done ws vars w ∧
          VarsAgree (Unreached globals f) (LoadedSlot f) vars t.1.vars ∧
          w.AgreeOff (Unreached globals f) t.2 ∧
          ∀ d c fs, i = .structInit d c fs → ∃ r, ws = [(d, .ref r)] ∧ (w.heap r).isSome := by
      rintro d' r he ⟨v, rfl⟩ hne
      exact ⟨[(d', v)], s.1.vars, s.2, by rw [he]; rfl, h.vars, h.world,
        fun d c fs hi => absurd hi (hne d c fs)⟩
    cases i with
    | binOp d' op l r ty =>
      exact compute rfl (harm (by simpa [Liveness.removes] using hr)) (fun _ _ _ hi => by cases hi)
    | call d' g args ty =>
      have hb := harm (by simpa [Liveness.removes] using hr)
      obtain ⟨F, hF⟩ := Option.isSome_iff_exists.mp hb
      refine ⟨[(d', (F (args.map s.1.regs)).1)], s.1.vars, s.2, ?_, h.vars, h.world, ?_⟩
      · simp [Frame.effect, Inst.effect, Effect.perform, hF]
      · rintro d c fs ⟨⟩
    | loadVar d' m =>
      exact ⟨_, _, _, rfl, h.vars, h.world, fun _ _ _ hi => by cases hi⟩
    | structInit d' c fs =>
      obtain rfl : d' = d := by simpa [Inst.dests, instructionDest] using hd
      refine ⟨_, _, _, rfl, h.vars, h.world.alloc_left fun k => ⟨d', k, ?_, hu⟩, ?_⟩
      · rw [h.fn]
      · rintro d c fs ⟨⟩
        exact ⟨_, rfl, by simp [World.alloc]⟩
    | constInt _ _ | constFloat _ _ | constStr _ _ | constBool _ _ | unOp _ _ _ _
    | formatStr _ _ _ _ | select _ _ _ _ _ | decide _ _ _ _ =>
      exact compute rfl ⟨_, rfl⟩ (fun _ _ _ hi => by cases hi)
    | _ => simp [isPure, isPureCallInst] at hp
  · -- a field of an object that was made in this block
    obtain ⟨j, hj, hjd⟩ := List.any_eq_true.mp hinit
    split at hjd
    case h_1 d' c fs =>
      obtain rfl : d' = o := of_decide_eq_true hjd
      obtain ⟨r, hreg, hheap⟩ := h.made d' c fs hj
      obtain ⟨obj, hobj⟩ := Option.isSome_iff_exists.mp hheap
      refine ⟨[(d, obj.fields fl)], s.1.vars, s.2, ?_, h.vars, h.world, ?_⟩
      · simp [Frame.effect, Inst.effect, Effect.perform, hreg, World.deref, hobj]
      · rintro d c fs ⟨⟩
    case h_2 => cases hjd

theorem DceAt.made_step (V : Verified n f idom) (hb : b ∈ f.blocks)
    (h : DceAt globals f b before s t) (hcode : s.1.code = i :: rest)
    {ws : List (ValueId × Val)} {vars : String → Val} {w : World}
    (hp : (s.1.effect P i).perform P s.1.fn s.1.vars s.2 = .done ws vars w)
    (hnew : ∀ d c fs, i = .structInit d c fs → ∃ r, ws = [(d, .ref r)] ∧ (w.heap r).isSome) :
    ∀ d c fs, .structInit d c fs ∈ before ++ [i] →
      ∃ r, bindRegs s.1.regs ws d = .ref r ∧ (w.heap r).isSome := by
  intro d c fs hm
  rcases List.mem_append.mp hm with hm | hm
  · obtain ⟨r, hr, hheap⟩ := h.made d c fs hm
    refine ⟨r, ?_, Effect.perform_grows hp r hheap⟩
    rw [bindRegs_of_notMem, hr]
    rw [Effect.perform_dests hp]
    intro hd
    have hnd := V.dests_nodup hb
    rw [h.code, hcode, destsOf, List.flatMap_append, List.flatMap_cons] at hnd
    refine (List.nodup_append.mp hnd).2.2 d (List.mem_flatMap.mpr ⟨_, hm, ?_⟩) d
      (List.mem_append_left _ hd) rfl
    simp [Inst.dests, instructionDest]
  · obtain ⟨r, rfl, hheap⟩ := hnew d c fs (List.mem_singleton.mp hm).symm
    exact ⟨r, Function.update_self .., hheap⟩

/-- The original executes a removed instruction, and the result waits. -/
theorem DceAt.skip (hg : ∀ m, P.isGlobal m = decide (m ∈ globals)) (V : Verified n f idom)
    (hb : b ∈ f.blocks) (h : DceAt globals f b before s t) (hcode : s.1.code = i :: rest)
    (hr : (liveness globals f).removes before i = true) (hH : Harmless P globals f s) :
    ∃ s', P.leafMachine.step s = .inl s' ∧ DceAt globals f b (before ++ [i]) s' t ∧
      s'.1.code = rest := by
  obtain ⟨ws, vars, w, hp, hvars, hw, hnew⟩ := h.removed_step hg hcode hr hH
  refine ⟨_, leafStep_done hcode hp, ⟨h.fn, h.fn', ?_, ?_, h.term, h.term', fun v hv => ?_, hvars, hw,
    h.made_step V hb hcode hp hnew⟩, rfl⟩
  · rw [h.code, hcode, List.append_assoc]; rfl
  · rw [h.code', hcode, Liveness.sweep, if_pos hr]; rfl
  · have : bindRegs s.1.regs ws v = s.1.regs v := bindRegs_of_notMem fun hm => by
      rw [Effect.perform_dests hp] at hm
      exact Liveness.not_used_of_removes hr hm hv
    simp only [Frame.after, this]
    exact h.regs v hv

/-- Both execute an instruction that is kept. -/
theorem DceAt.keep (V : Verified n f idom) (hb : b ∈ f.blocks)
    (h : DceAt globals f b before s t) (hcode : s.1.code = i :: rest)
    (hk : (liveness globals f).removes before i = false) :
    (∃ s' t', P.leafMachine.step s = .inl s' ∧ P.leafMachine.step t = .inl t' ∧
        DceAt globals f b (before ++ [i]) s' t') ∨
      ∃ o, P.leafMachine.step s = .inr o ∧ P.leafMachine.step t = .inr o := by
  have hsplit : b.instructions = before ++ i :: rest := by rw [h.code, hcode]
  have hmem : i ∈ b.instructions := by simp [hsplit]
  have hcode' : t.1.code = i :: (liveness globals f).sweep (before ++ [i]) rest := by
    rw [h.code', hcode, Liveness.sweep, hk]; rfl
  have hused : ∀ v ∈ i.reads, v ∈ (liveness globals f).used := fun v => used_of_reads hb hsplit hk
  have heff : t.1.effect P i = s.1.effect P i := by
    refine Inst.effect_congr (fun d _ => ?_) fun v hv => (h.regs v (hused v hv)).1.symm
    rw [h.fn, h.fn']; rfl
  have hperf : (t.1.effect P i).perform P t.1.fn t.1.vars t.2 =
      (s.1.effect P i).perform P s.1.fn t.1.vars t.2 := by
    rw [heff]
    exact Effect.perform_congr (by rw [h.fn, h.fn']; rfl) (by rw [h.fn, h.fn']; rfl)
  have hagree : Result.AgreeOff (Unreached globals f) (LoadedSlot f)
      ((s.1.effect P i).perform P s.1.fn s.1.vars s.2)
      ((s.1.effect P i).perform P s.1.fn t.1.vars t.2) := by
    refine Effect.perform_agreeOff unreached_ext h.world h.vars
      (Inst.effect_off fun v hv => (h.regs v (hused v hv)).2) ?_ ?_
    · intro d m he _
      obtain rfl := Inst.eq_loadVar_of_effect he
      exact ⟨_, loaded_of_load globals hb hmem, by rw [h.fn]⟩
    · intro d c fs he k
      obtain ⟨fs', rfl⟩ := Inst.eq_structInit_of_effect he
      rintro ⟨d', k', hsite, hd'⟩
      obtain ⟨_, rfl, _⟩ := Ref.site.inj hsite
      simp [Liveness.removes, isPure, mayTrap, pureDest, hd'] at hk
  cases hs : (s.1.effect P i).perform P s.1.fn s.1.vars s.2 with
  | done ws vars w =>
    rw [hs] at hagree
    generalize ht : (s.1.effect P i).perform P s.1.fn t.1.vars t.2 = res at hagree
    cases hagree with
    | done hws hvars hw =>
      refine .inl ⟨_, _, leafStep_done hcode hs, leafStep_done hcode' (hperf.trans ht), h.fn, h.fn',
        by simp [Frame.after, hsplit], rfl, h.term, h.term', fun v hv => ?_, hvars, hw,
        h.made_step V hb hcode hs ?_⟩
      · exact ⟨bindRegs_congr fun _ => (h.regs v hv).1, bindRegs_off hws (h.regs v hv).2⟩
      · rintro d c fs rfl
        cases hs
        exact ⟨_, rfl, by simp [World.alloc]⟩
  | halt e w =>
    rw [hs] at hagree
    generalize ht : (s.1.effect P i).perform P s.1.fn t.1.vars t.2 = res at hagree
    cases hagree with
    | halt hw =>
      refine .inr ⟨_, leafStep_halt hcode hs, ?_⟩
      rw [leafStep_halt hcode' (hperf.trans ht),
        Program.finish_agreeOff unreached_ext hw fun v hv => absurd hv (Effect.perform_halt hs v)]

theorem DceAt.leave (hb : b ∈ f.blocks) (h : DceAt globals f b before s t)
    (hcode : s.1.code = []) :
    (∃ c ∈ f.blocks, ∃ s' t', P.leafMachine.step s = .inl s' ∧ P.leafMachine.step t = .inl t' ∧
        DceAt globals f c [] s' t') ∨
      ∃ o, P.leafMachine.step s = .inr o ∧ P.leafMachine.step t = .inr o := by
  have hcode' : t.1.code = [] := by rw [h.code', hcode]; rfl
  have hvids : ∀ v ∈ s.1.term.vids, v ∈ (liveness globals f).used := fun v hv =>
    used_of_terminator hb (h.term ▸ hv)
  have hexit : t.1.term.exit t.1.fn t.1.regs = s.1.term.exit s.1.fn s.1.regs := by
    rw [h.term', ← h.term]
    refine Terminator.exit_congr (by rw [h.fn, h.fn']; rfl) fun v hv => ?_
    exact (h.regs v (hvids v hv)).1.symm
  obtain ⟨hgoto, hret⟩ := Terminator.exit_off (f := s.1.fn) (t := s.1.term)
    fun v hv => (h.regs v (hvids v hv)).2
  cases hex : s.1.term.exit s.1.fn s.1.regs with
  | goto target args =>
    have hget' : t.1.fn.getBlock target = (f.getBlock target).map fun c =>
        c.withCode ((liveness globals f).sweep [] c.instructions) := by
      rw [h.fn', deadCodeElimination, getBlock_mapCode]
    cases hget : f.getBlock target with
    | some c =>
      obtain ⟨hc, _⟩ := Function.getBlock_eq_some hget
      rw [hget] at hget'
      refine .inl ⟨c, hc, _, _, leafStep_goto hcode hex (h.fn ▸ hget),
        leafStep_goto hcode' (hexit.trans hex) hget', h.fn, h.fn', rfl, rfl, rfl, rfl,
        fun v hv => ?_, h.vars, h.world, fun d c' fs hm => by cases hm⟩
      refine ⟨bindRegs_congr fun _ => (h.regs v hv).1, bindRegs_off (fun p hp => ?_) (h.regs v hv).2⟩
      exact hgoto target args hex _ (List.of_mem_zip hp).2
    | none =>
      rw [hget] at hget'
      refine .inr ⟨_, leafStep_missing hcode hex (h.fn ▸ hget), ?_⟩
      rw [leafStep_missing hcode' (hexit.trans hex) hget',
        Program.finish_agreeOff unreached_ext h.world fun v hv => by cases hv]
  | ret v =>
    refine .inr ⟨_, leafStep_ret hcode hex, ?_⟩
    rw [leafStep_ret hcode' (hexit.trans hex), Program.finish_agreeOff unreached_ext h.world]
    rintro u ⟨⟩
    exact hret v hex
  | trap τ =>
    refine .inr ⟨_, leafStep_trap hcode hex, ?_⟩
    rw [leafStep_trap hcode' (hexit.trans hex),
      Program.finish_agreeOff unreached_ext h.world fun v hv => by cases hv]

/-- The simulation: while the original executes removed instructions, less of its block is left. -/
def dceSimulation (P : Program) (globals : List String) (f : Function) {n : Nat} {idom : Cfg.Idom}
    (hg : ∀ m, P.isGlobal m = decide (m ∈ globals)) (V : Verified n f idom) :
    Simulation P.leafMachine P.leafMachine (· = ·) where
  R s t := ∃ b ∈ f.blocks, ∃ before, DceAt globals f b before s t
  measure s := s.1.code.length
  Good := Harmless P globals f
  halt := by
    rintro s t o ⟨b, hb, before, h⟩ hH hs
    cases hcode : s.1.code with
    | nil =>
      rcases h.leave (P := P) hb hcode with ⟨_, _, s', _, hs', _⟩ | ⟨o', hs', ht'⟩
      · rw [hs] at hs'; cases hs'
      · cases hs.symm.trans hs'
        exact ⟨o, .of_halt ht', rfl⟩
    | cons i rest =>
      cases hr : (liveness globals f).removes before i with
      | true =>
        obtain ⟨s', hs', _⟩ := h.skip hg V hb hcode hr hH
        rw [hs] at hs'; cases hs'
      | false =>
        rcases h.keep (P := P) V hb hcode hr with ⟨s', _, hs', _⟩ | ⟨o', hs', ht'⟩
        · rw [hs] at hs'; cases hs'
        · cases hs.symm.trans hs'
          exact ⟨o, .of_halt ht', rfl⟩
  step := by
    rintro s t s' ⟨b, hb, before, h⟩ hH hs
    cases hcode : s.1.code with
    | nil =>
      rcases h.leave (P := P) hb hcode with ⟨c, hc, s₁, t₁, hs₁, ht₁, h₁⟩ | ⟨o', hs', _⟩
      · cases hs.symm.trans hs₁
        exact .steps ht₁ (.refl _) ⟨c, hc, [], h₁⟩
      · rw [hs] at hs'; cases hs'
    | cons i rest =>
      cases hr : (liveness globals f).removes before i with
      | true =>
        obtain ⟨s₁, hs₁, h₁, hlen⟩ := h.skip hg V hb hcode hr hH
        cases hs.symm.trans hs₁
        exact .stutter (by rw [hlen]; exact Nat.lt_succ_self _) ⟨b, hb, _, h₁⟩
      | false =>
        rcases h.keep (P := P) V hb hcode hr with ⟨s₁, t₁, hs₁, ht₁, h₁⟩ | ⟨o', hs', _⟩
        · cases hs.symm.trans hs₁
          exact .steps ht₁ (.refl _) ⟨b, hb, _, h₁⟩
        · rw [hs] at hs'; cases hs'

theorem start_dceAt (V : Verified n f idom) {args : List Val} {w : World} (hw : Outside args w) :
    ∃ b ∈ f.blocks, DceAt globals f b []
      (f.start args, w) ((deadCodeElimination globals f).1.start args, w) := by
  obtain ⟨b, hb, hid⟩ := List.mem_map.mp V.entry
  have hget : f.getBlock f.entryBlock = some b := hid ▸ Function.getBlock_of_mem V.ids hb
  have hget' : (deadCodeElimination globals f).1.getBlock f.entryBlock =
      some (b.withCode ((liveness globals f).sweep [] b.instructions)) := by
    simp [deadCodeElimination, getBlock_mapCode, hget]
  have off : ∀ v ∈ args, v.Off (Unreached globals f) := by
    rintro v hv r rfl ⟨d, k, rfl, _⟩
    exact hw.args _ hv _ _ _ rfl
  refine ⟨b, hb, rfl, rfl, ?_, ?_, ?_, ?_, fun v _ => ⟨rfl, ?_⟩, ?_, ?_, fun _ _ _ hm => by cases hm⟩
  · simp [Function.start, hget]
  · simp only [Function.start, hget]
    have : (deadCodeElimination globals f).1.entryBlock = f.entryBlock := rfl
    rw [this, hget']
    rfl
  · simp [Function.start, hget]
  · simp only [Function.start]
    have : (deadCodeElimination globals f).1.entryBlock = f.entryBlock := rfl
    rw [this, hget']
    rfl
  · refine bindRegs_off (fun p hp => ?_) Val.zero_off
    obtain ⟨q, hq, rfl⟩ := List.mem_map.mp hp
    exact off _ (List.of_mem_zip hq).2
  · intro m _
    refine ⟨rfl, ?_⟩
    have fold : ∀ (ps : List (Param × Val)) (vars : String → Val),
        (∀ p ∈ ps, p.2.Off (Unreached globals f)) → (∀ m, (vars m).Off (Unreached globals f)) →
        ((ps.foldl (fun vars b => Function.update vars (f.slotOf b.1.name) b.2) vars) m).Off
          (Unreached globals f) := by
      intro ps
      induction ps with
      | nil => exact fun _ _ hv => hv m
      | cons p ps ih =>
        intro vars hps hv
        rw [List.forall_mem_cons] at hps
        refine ih _ hps.2 fun k => ?_
        by_cases hk : k = f.slotOf p.1.name
        · simpa [hk] using hps.1
        · simpa [hk] using hv k
    exact fold _ _ (fun p hp => off _ (List.of_mem_zip hp).2) fun _ => Val.zero_off
  · refine ⟨fun _ _ => rfl, ?_, fun _ _ => rfl, rfl, ?_, rfl, ?_, rfl⟩
    · rintro r o _ ho field r' hr' ⟨d, k, rfl, _⟩
      exact hw.fields r o ho field _ _ _ hr'
    · rintro m r hr ⟨d, k, rfl, _⟩
      exact hw.globals m _ _ _ hr
    · rintro r hr ⟨d, k, rfl, _⟩
      exact hw.known _ hr _ _ _ rfl

end

/-- **Dead-code elimination.** The verifier accepts the result if and only if no value a `WhileLoop`
node mentions lost its definition. From the same arguments and store, a run of the original all of
whose removed instructions are harmless has the outcome of the result's run: the same value or trap,
after the same events. -/
theorem deadCodeElimination_preserves (P : Program) (globals : List String) (f : Function)
    (hg : ∀ m, P.isGlobal m = decide (m ∈ globals)) (hf : Accepts f) :
    (Accepts (deadCodeElimination globals f).1 ↔ NestedUsesKept globals f) ∧
      ∀ args w, Outside args w →
        (∀ s, P.leafMachine.Steps (f.start args, w) s → Harmless P globals f s) →
        ∀ o, P.RunsTo f args w o ↔ P.RunsTo (deadCodeElimination globals f).1 args w o := by
  refine ⟨⟨nestedUsesKept_of_accepts hf, accepts_of_nestedUsesKept hf⟩, fun args w hw hH o => ?_⟩
  obtain ⟨n, hn⟩ := hf
  obtain ⟨idom, V⟩ := verifyFunction_ok_iff_verified.mp hn
  obtain ⟨b, hb, hstart⟩ := start_dceAt V hw
  exact (dceSimulation P globals f hg V).halts_iff ⟨b, hb, [], hstart⟩ hH o

/-- A function with a value nobody uses. -/
def idleConstant : Function where
  name := "idle"
  params := [{ name := "a", ty := "Int", val := 0 }]
  returnType := "Int"
  blocks := [{ id := 0, instructions := [.constInt 1 5], terminator := .ret (some 0) }]

theorem deadCodeElimination_preserves_idleConstant :
    Accepts (deadCodeElimination [] idleConstant).1 ∧
      (Program.bare []).RunsTo (deadCodeElimination [] idleConstant).1 [.int 7] World.initial
        ⟨.returned (.int 7), [.returned (.int 7)]⟩ := by
  have main := deadCodeElimination_preserves (Program.bare []) [] idleConstant (fun _ => rfl) ⟨8, rfl⟩
  refine ⟨main.1.mpr ?_, (main.2 [.int 7] World.initial (World.outside_initial ?_) ?_ _).mp
    (Machine.halts_of_run (n := 8) rfl)⟩
  · intro b hb ci cv bi hw
    obtain rfl := List.mem_singleton.mp hb
    cases List.mem_singleton.mp hw
  · intro v hv
    obtain rfl := List.mem_singleton.mp hv
    rfl
  · intro s hs i rest hcode _
    obtain ⟨b, hb, hi⟩ := (Function.mem_of_steps hs).2 i (hcode ▸ List.mem_cons_self)
    obtain rfl := List.mem_singleton.mp hb
    obtain rfl := List.mem_singleton.mp hi
    exact ⟨_, rfl⟩

/-- A function with a sum nobody uses. -/
def idleSum : Function where
  name := "idle"
  params := [{ name := "a", ty := "Int", val := 0 }]
  returnType := "Int"
  blocks := [{ id := 0, instructions := [.binOp 1 "+" 0 0 "Int"], terminator := .ret (some 0) }]

/-- The sum overflows in the original, and is gone in the result. -/
theorem deadCodeElimination_drops_overflow :
    Accepts idleSum ∧ Outside [.int 9223372036854775807] World.initial ∧
      ¬∀ o, (Program.bare []).RunsTo idleSum [.int 9223372036854775807] World.initial o ↔
        (Program.bare []).RunsTo (deadCodeElimination [] idleSum).1 [.int 9223372036854775807]
          World.initial o := by
  refine ⟨⟨8, rfl⟩, World.outside_initial fun v hv => ?_, fun h => ?_⟩
  · obtain rfl := List.mem_singleton.mp hv
    rfl
  · have trapped : (Program.bare []).RunsTo idleSum [.int 9223372036854775807] World.initial
        ⟨.trapped .overflow, []⟩ := Machine.halts_of_run (n := 8) rfl
    have returned : (Program.bare []).RunsTo (deadCodeElimination [] idleSum).1 [.int 9223372036854775807]
        World.initial ⟨.returned (.int 9223372036854775807), [.returned (.int 9223372036854775807)]⟩ :=
      Machine.halts_of_run (n := 8) rfl
    cases ((h _).mp trapped).unique returned

end Datara.Optimizer
