import Datara.Dmir.Provenance

/-!
# Objects a run makes

The objects of a run's own function are numbered in the order they are made, site by site. Nothing in
reach refers to one that was not made yet (`born_of_steps`): an allocation is fresh.
-/

namespace Datara.Dmir

/-- An object that the function `fn` has not made yet. -/
def World.Unborn (fn : String) (w : World) (r : Ref) : Prop :=
  ∃ d k, r = .site fn d k ∧ w.allocs (fn, d) ≤ k

/-- Nothing in reach refers to an object that was not made yet. -/
structure Born (fn : String) (s : Frame × World) : Prop where
  world : s.2.AgreeOff (s.2.Unborn fn) s.2
  regs : ∀ v, (s.1.regs v).Off (s.2.Unborn fn)
  vars : ∀ n, (s.1.vars n).Off (s.2.Unborn fn)

variable {ws : List (ValueId × Val)} {dead : Ref → Prop}

section
variable {w w' : World} {fn : String} {d : ValueId}

theorem Reply.run_allocs (k : Reply) (w : World) : (k.run w).2.allocs = w.allocs := by
  have learn : ∀ (w : World) v, (w.learn v).allocs = w.allocs := fun w v => by cases v <;> rfl
  induction k generalizing w with
  | ret v => simp only [run]; split <;> rfl
  | trap t => rfl
  | stop => rfl
  | emit v k ih => exact ih _
  | getField r field k ih =>
    simp only [run]
    split
    · split
      · exact (ih _ _).trans (learn _ _)
      · rfl
    · rfl
  | setField r field v k ih =>
    simp only [run]
    split
    · split
      · exact ih _
      · rfl
    · rfl
  | put n o k ih => exact ih _
  | getGlobal n k ih => exact (ih _ _).trans (learn _ _)
  | setGlobal n v k ih =>
    simp only [run]
    split
    · exact ih _
    · rfl

theorem World.ask_allocs (env : Env) (w : World) (e : Event) : (w.ask env e).2.allocs = w.allocs := by
  have learnAll : ∀ (vs : List Val) (w : World), (vs.foldl World.learn w).allocs = w.allocs := by
    intro vs
    induction vs with
    | nil => exact fun w => rfl
    | cons v vs ih => exact fun w => (ih _).trans (by cases v <;> rfl)
  exact (Reply.run_allocs _ _).trans (learnAll _ _)

variable {vars vars' : String → Val} {e : Effect}

theorem Effect.perform_allocs {P : Program} {f : Function}
    (h : e.perform P f vars w = .done ws vars' w')
    (he : ∀ d c fs, e ≠ .alloc d c fs) : w'.allocs = w.allocs := by
  have answered : ∀ {binds : Val → List (ValueId × Val)} {ev : Event},
      Result.answered vars binds (w.ask P.env ev) = .done ws vars' w' → w'.allocs = w.allocs := by
    intro binds ev ha
    obtain ⟨v, hv, _⟩ := Result.answered_done ha
    have := World.ask_allocs P.env w ev
    rwa [hv] at this
  cases e with
  | compute d r => cases r <;> cases h; rfl
  | alloc d c fs => exact absurd rfl (he d c fs)
  | store n v =>
    simp only [perform] at h
    split at h <;> cases h <;> rfl
  | getField d o field =>
    simp only [perform] at h
    split at h <;> cases h
    rfl
  | setField o field v =>
    simp only [perform] at h
    split at h <;> cases h
    rfl
  | request e binds => exact answered h
  | call d g args =>
    simp only [perform] at h
    split at h
    · cases h; rfl
    · exact answered h
  | method d m o args => exact answered h
  | _ => cases h; rfl

/-- Only an assignment writes a variable. -/
theorem Effect.perform_vars {P : Program} {f : Function}
    (h : e.perform P f vars w = .done ws vars' w')
    (he : ∀ n v, e ≠ .store n v) : vars' = vars := by
  have answered : ∀ {binds : Val → List (ValueId × Val)} {a : Ending × World},
      Result.answered vars binds a = .done ws vars' w' → vars' = vars := by
    intro binds a ha
    obtain ⟨v, -, -, hvars⟩ := Result.answered_done ha
    exact hvars
  cases e with
  | compute d r => cases r <;> cases h; rfl
  | store n v => exact absurd rfl (he n v)
  | getField d o field =>
    simp only [perform] at h
    split at h <;> cases h
    rfl
  | setField o field v =>
    simp only [perform] at h
    split at h <;> cases h
    rfl
  | request e binds => exact answered h
  | call d g args =>
    simp only [perform] at h
    split at h
    · cases h; rfl
    · exact answered h
  | method d m o args => exact answered h
  | _ => cases h; rfl

theorem Effect.allocs_le {P : Program} {f : Function}
    (h : e.perform P f vars w = .done ws vars' w') (x : String × ValueId) :
    w.allocs x ≤ w'.allocs x := by
  by_cases halloc : ∃ d c fs, e = .alloc d c fs
  · obtain ⟨d, c, fs, rfl⟩ := halloc
    cases h
    by_cases hx : x = (f.name, d)
    · simp [World.alloc, hx]
    · simp [World.alloc, hx]
  · exact Nat.le_of_eq (congrFun (Effect.perform_allocs h fun d c fs he => halloc ⟨d, c, fs, he⟩) x).symm

/-- The fields of a new object are those it was given, and zero. -/
theorem World.alloc_fields_off (w : World) (fn : String) (d : ValueId) (c : String)
    {fs : List (String × Val)} (hf : ∀ f ∈ fs, f.2.Off dead) :
    ∃ o, (w.alloc fn d c fs).2.heap = Function.update w.heap (w.alloc fn d c fs).1 (some o) ∧
      ∀ f, (o.fields f).Off dead := by
  refine ⟨_, rfl, ?_⟩
  suffices hobj : ∀ (fs : List (String × Val)) (o : Obj), (∀ f, (o.fields f).Off dead) →
      (∀ f ∈ fs, f.2.Off dead) → ∀ f, ((fs.foldl (fun o f => o.set f.1 f.2) o).fields f).Off dead from
    hobj fs _ (fun _ => Val.zero_off) hf
  intro fs
  induction fs with
  | nil => exact fun o ho _ => ho
  | cons f fs ih =>
    intro o ho hfs
    rw [List.forall_mem_cons] at hfs
    exact ih _ (Obj.set_off ho hfs.1) hfs.2

/-- After an allocation everything is unborn that was, but the new object. -/
theorem World.unborn_alloc {c : String} {fs : List (String × Val)} {r : Ref} :
    (w.alloc fn d c fs).2.Unborn fn r ↔ w.Unborn fn r ∧ r ≠ (w.alloc fn d c fs).1 := by
  constructor
  · rintro ⟨d', k, rfl, hk⟩
    by_cases hd : d' = d
    · subst hd
      have hk' : w.allocs (fn, d') + 1 ≤ k := by simpa [World.alloc] using hk
      refine ⟨⟨d', k, rfl, Nat.le_of_succ_le hk'⟩, fun he => ?_⟩
      simp only [World.alloc, Ref.site.injEq, true_and] at he
      exact absurd hk' (by rw [he]; exact Nat.not_succ_le_self _)
    · have hk' : w.allocs (fn, d') ≤ k := by simpa [World.alloc, hd] using hk
      refine ⟨⟨d', k, rfl, hk'⟩, fun he => hd ?_⟩
      simp only [World.alloc, Ref.site.injEq] at he
      exact he.2.1
  · rintro ⟨⟨d', k, rfl, hk⟩, hne⟩
    refine ⟨d', k, rfl, ?_⟩
    by_cases hd : d' = d
    · subst hd
      have : k ≠ w.allocs (fn, d') := fun he => hne (by rw [he]; rfl)
      simpa [World.alloc] using Nat.succ_le_of_lt (Nat.lt_of_le_of_ne hk (Ne.symm this))
    · simpa [World.alloc, hd] using hk

theorem World.unborn_ext (w : World) (n : Nat) : ¬w.Unborn fn (.ext n) := by
  rintro ⟨d, k, h, _⟩
  cases h

/-- A new object was made by nobody before. -/
theorem World.unborn_new (w : World) (c : String) (fs : List (String × Val)) :
    w.Unborn fn (w.alloc fn d c fs).1 := ⟨d, _, rfl, Nat.le_refl _⟩

end

/-! ## Along a run -/

theorem Val.Off.mono {dead dead' : Ref → Prop} {v : Val} (h : v.Off dead)
    (hle : ∀ r, dead' r → dead r) : v.Off dead' := fun r hr hd => h r hr (hle r hd)

section
variable {P : Program} {f : Function} {s s' : Frame × World} {args : List Val} {w : World}

/-- What a run starts from refers to no object of a function. -/
theorem Outside.agreeOff (h : Outside args w)
    (hsite : ∀ r, dead r → ∃ fn d k, r = .site fn d k) :
    w.AgreeOff dead w ∧ ∀ v ∈ args, v.Off dead := by
  have hoff : ∀ v : Val, (∀ fn d k, v ≠ .ref (.site fn d k)) → v.Off dead := by
    rintro v hv r rfl hd
    obtain ⟨fn, d, k, rfl⟩ := hsite r hd
    exact hv fn d k rfl
  refine ⟨⟨fun _ _ => rfl, fun r o _ ho field => hoff _ (h.fields r o ho field), fun _ _ => rfl, rfl,
    fun n => hoff _ (h.globals n), rfl, fun r hr hd => ?_, rfl⟩, fun v hv => hoff v (h.args v hv)⟩
  obtain ⟨fn, d, k, rfl⟩ := hsite r hd
  exact h.known _ hr fn d k rfl

/-- The first frame holds what the arguments do. -/
theorem Function.start_off (h : ∀ v ∈ args, v.Off dead) :
    (∀ v, ((f.start args).regs v).Off dead) ∧ ∀ n, ((f.start args).vars n).Off dead := by
  have hvars : ∀ (bound : List (Param × Val)) (vars : String → Val),
      (∀ b ∈ bound, b.2.Off dead) → (∀ n, (vars n).Off dead) →
      ∀ n, (bound.foldl (fun vars b => Function.update vars (f.slotOf b.1.name) b.2) vars n).Off
        dead := by
    intro bound
    induction bound with
    | nil => exact fun vars _ hv => hv
    | cons b bound ih =>
      intro vars hb hv
      rw [List.forall_mem_cons] at hb
      refine ih _ hb.2 fun n => ?_
      by_cases hn : n = f.slotOf b.1.name
      · simpa [hn] using hb.1
      · simpa [hn] using hv n
  have harg : ∀ b ∈ f.params.zip args, b.2.Off dead := fun b hb => h _ (List.of_mem_zip hb).2
  refine ⟨fun v => bindRegs_off (fun b hb => ?_) Val.zero_off, hvars _ _ harg fun _ => Val.zero_off⟩
  obtain ⟨a, ha, rfl⟩ := List.mem_map.mp hb
  exact harg a ha

theorem Born.start (h : Outside args w) : Born f.name (f.start args, w) := by
  obtain ⟨hw, hargs⟩ := h.agreeOff fun r (hu : w.Unborn f.name r) => hu.elim fun d hd => hd.elim fun k hk => ⟨f.name, d, k, hk.1⟩
  obtain ⟨hregs, hvars⟩ := Function.start_off (f := f) hargs
  exact ⟨hw, hregs, hvars⟩

/-- An instruction that goes through keeps it so. The site that allocates is taken apart: its new
object is the one that stops being unborn. -/
theorem Born.after {i : Inst} {rest : List Inst} {vars : String → Val}
    (h : Born f.name s) (hp : (s.1.effect P i).perform P f s.1.vars s.2 = .done ws vars w) :
    Born f.name (s.1.after rest ws vars, w) := by
  have hext : ∀ n, ¬s.2.Unborn f.name (.ext n) := World.unborn_ext s.2
  have hoff : (s.1.effect P i).Off (s.2.Unborn f.name) := Inst.effect_off fun v _ => h.regs v
  have hall : VarsAgree (s.2.Unborn f.name) (fun _ => True) s.1.vars s.1.vars :=
    fun n _ => ⟨rfl, h.vars n⟩
  by_cases halloc : ∃ d c fs, s.1.effect P i = .alloc d c fs
  · obtain ⟨d, c, fs, he⟩ := halloc
    rw [he] at hp hoff
    cases hp
    have hle : ∀ r, (s.2.alloc f.name d c fs).2.Unborn f.name r → s.2.Unborn f.name r :=
      fun r hr => (World.unborn_alloc.mp hr).1
    obtain ⟨o, hheap, ho⟩ := World.alloc_fields_off s.2 f.name d c hoff
    refine ⟨⟨fun _ _ => rfl, fun r p hr hp field => ?_, fun _ _ => rfl, rfl,
      fun n => (h.world.globals_off n).mono hle, rfl, fun r hr hd => h.world.known_off r hr (hle r hd),
      rfl⟩, fun v => ?_, fun n => (h.vars n).mono hle⟩
    · rw [hheap] at hp
      by_cases hnew : r = (s.2.alloc f.name d c fs).1
      · obtain rfl : o = p := by simpa [hnew] using hp
        exact (ho field).mono hle
      · rw [Function.update_of_ne hnew] at hp
        exact (h.world.fields r p (fun hu => hr (World.unborn_alloc.mpr ⟨hu, hnew⟩)) hp field).mono hle
    · refine bindRegs_off (fun b hb => ?_) ((h.regs v).mono hle)
      obtain rfl := List.mem_singleton.mp hb
      rintro r hr hu
      cases hr
      exact (World.unborn_alloc.mp hu).2 rfl
  · have hagree := Effect.perform_agreeOff (P := P) (f := f) hext h.world hall hoff
      (fun _ _ _ _ => trivial) fun d c fs he => absurd ⟨d, c, fs, he⟩ halloc
    have hsame : w.Unborn f.name = s.2.Unborn f.name := by
      funext r
      simp [World.Unborn, Effect.perform_allocs hp fun d c fs he => halloc ⟨d, c, fs, he⟩]
    rw [hp] at hagree
    cases hagree with
    | done hws hvars hw =>
      refine ⟨hsame ▸ hw, fun v => ?_, fun n => hsame ▸ (hvars n trivial).2⟩
      exact hsame ▸ bindRegs_off hws (h.regs v)

theorem Born.into {b : BasicBlock} {vs : List Val} (h : Born f.name s)
    (hv : ∀ v ∈ vs, v.Off (s.2.Unborn f.name)) : Born f.name (s.1.into b vs, s.2) :=
  ⟨h.world, fun u => bindRegs_off (fun _ hp => hv _ (List.of_mem_zip hp).2) (h.regs u), h.vars⟩

/-- **An allocation is fresh**, at every state a run reaches. -/
theorem born_of_steps (hout : Outside args w) (h : P.leafMachine.Steps (f.start args, w) s) : Born f.name s := by
  refine (h.invariant (I := fun s => s.1.fn = f ∧ Born f.name s) (fun a c ha hstep => ?_)
    ⟨rfl, .start hout⟩).2
  obtain ⟨hfn, hborn⟩ := ha
  simp only [Program.leafMachine, Program.leafStep] at hstep
  split at hstep
  case h_1 i rest hcode =>
    split at hstep
    case h_1 ws vars w' hp =>
      cases hstep
      rw [hfn] at hp
      exact ⟨hfn, hborn.after hp⟩
    case h_2 => cases hstep
  case h_2 =>
    split at hstep
    case h_1 t vs hexit =>
      split at hstep
      case h_1 F hF =>
        cases hstep
        obtain ⟨b, hb, rfl⟩ := Option.map_eq_some_iff.mp hF
        exact ⟨hfn, hborn.into ((Terminator.exit_off fun v _ => hborn.regs v).1 t vs hexit)⟩
      case h_2 => cases hstep
    case h_2 => cases hstep
    case h_3 => cases hstep

end

end Datara.Dmir
