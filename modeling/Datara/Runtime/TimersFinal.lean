import Datara.Runtime.TimersInv

/-!
# Cancellation is final

In a run whose steps meet `TimerState.Admits`, callbacks begin once and not after a cancellation, a wait returns 1 for
those that have run, and a cancelled region executes nothing (`timers_lawful`).
-/

namespace Datara.Runtime

open Library

namespace TimerState

variable {s s' : TimerState} {id region : Int} {k : Nat} {c : TimerCall}

/-- The timers of a cancelled region are stopped, but for those that had run. -/
def Stops (s : TimerState) : Prop :=
  Justified (fun pre a => ∀ region, a = .regionCancelled region → ∀ id, .created id region ∈ pre → .ended id ∉ pre →
    s.Stopped id) s.history

structure Inv (s : TimerState) : Prop where
  timers : s.TimersInv
  runs : s.RunsInv
  stops : s.Stops
  lawful : Justified TimerAct.Lawful s.history

theorem Stops.step (h : s.Stops) (hstopped : ∀ id, s.Stopped id → s'.Stopped id)
    (hhistory : s'.history = s.history ∨ ∃ a, s'.history = s.history ++ [a] ∧ ∀ r, a = .regionCancelled r →
      ∀ id, .created id r ∈ s.history → .ended id ∉ s.history → s'.Stopped id) : s'.Stops := by
  have hold : Justified (fun pre a => ∀ region, a = .regionCancelled region → ∀ id, .created id region ∈ pre →
      .ended id ∉ pre → s'.Stopped id) s.history :=
    fun pre a post heq r ha id hc he => hstopped id (h pre a post heq r ha id hc he)
  rcases hhistory with heq | ⟨a, heq, hnew⟩
  · rw [Stops, heq]
    exact hold
  · rw [Stops, heq]
    exact hold.snoc fun r ha id hc he => hnew r ha id hc he

section
variable (h : s.Inv)
include h

theorem Inv.unstopped (hnot : ¬ s.Stopped id) : Unstopped s.history id := by
  refine ⟨fun hc => hnot (h.timers.cancelled id hc), fun r l l' heq hcreated => ?_⟩
  by_contra hended
  exact hnot (h.stops l _ l' heq r rfl id hcreated hended)

theorem Inv.quiet (hold : ∀ id, s.calls k ≠ .callback id ∧ s.calls k ≠ .mark id)
    (hnew : ∀ id, c ≠ .callback id ∧ c ≠ .mark id) (hwait : ∀ id, (c = .wait id ∨ ∃ t, c = .waitTime id t) → 0 < id)
    (htimers : s'.timers = s.timers) (hcounter : s'.timerCounter = s.timerCounter)
    (hcalls : s'.calls = Function.update s.calls k c)
    (hhistory : s'.history = s.history ∨ ∃ a, s'.history = s.history ++ [a] ∧ a.Quiet ∧
      (∀ r, a ≠ .regionCancelled r) ∧ TimerAct.Lawful s.history a) (hruns : s'.RunsInv) : s'.Inv := by
  have hmember : ∀ a, ¬ a.Quiet → (a ∈ s'.history ↔ a ∈ s.history) := by
    intro a ha
    rcases hhistory with heq | ⟨b, heq, hb, -⟩
    · rw [heq]
    · rw [heq]
      exact mem_snoc ha hb
  have hstopped : ∀ id, s.Stopped id → s'.Stopped id := by
    intro id hstop
    have hrecord : s'.recordOf id = s.recordOf id := by rw [recordOf, recordOf, htimers]
    refine ⟨hcounter ▸ hstop.given, fun hb => hstop.fresh ((hmember (.began id) not_false).mp hb), fun hp => ?_⟩
    rw [Pending, hrecord] at hp
    exact hstop.gone hp
  refine ⟨h.timers.quiet hold hnew hwait htimers hcounter hcalls hmember, hruns, ?_, ?_⟩
  · apply h.stops.step hstopped
    rcases hhistory with heq | ⟨a, heq, -, hno, -⟩
    · exact .inl heq
    · exact .inr ⟨a, heq, fun r hr => absurd hr (hno r)⟩
  · rcases hhistory with heq | ⟨a, heq, -, -, hlawful⟩
    · rw [heq]
      exact h.lawful
    · rw [heq]
      exact h.lawful.snoc hlawful

theorem Inv.of_ended (hended : .ended id ∈ s.history) :
    .began id ∈ s.history ∧ 0 < id ∧ id ≤ s.timerCounter :=
  ⟨h.timers.ended id hended, h.timers.bound id (h.timers.ended id hended)⟩

theorem Inv.create {delayMs now : Int} (hadmits : Admits (.create delayMs region now) s)
    (hs' : step (.create delayMs region now) s = some s') : s'.Inv := by
  rw [step] at hs'
  split at hs'
  next =>
    cases hs'
    refine And.elim (fun htimers hstopped => ⟨htimers, h.runs.same rfl rfl ⟨_, rfl, nofun, nofun⟩,
      h.stops.step hstopped (.inr ⟨_, rfl, nofun⟩), h.lawful.snoc trivial⟩) ?_
    exact h.timers.create hadmits rfl rfl rfl rfl rfl rfl rfl
  next => cases hs'

theorem Inv.wait (hs' : step (.wait k id) s = some s') : s'.Inv := by
  rw [step] at hs'
  split at hs'
  next hk =>
    have hold : ∀ id, s.calls k ≠ .callback id ∧ s.calls k ≠ .mark id := by simp [hk]
    have hno : ∀ r, ¬ (s.calls k).Runs r := by simp [hk, TimerCall.Runs, TimerCall.Unchecked]
    cases hs'
    split
    next hid =>
      refine h.quiet (k := k) (c := .done) hold (by simp) (by simp) rfl rfl rfl (.inr ⟨_, rfl, trivial, nofun, ?_⟩)
        (h.runs.other rfl rfl (by simp) hno (.inr ⟨_, rfl, nofun, nofun⟩))
      refine iff_of_false (by decide) fun he => ?_
      have := (h.of_ended he).2.1
      omega
    next hid =>
      refine h.quiet (k := k) (c := .wait id) hold (by simp) ?_ rfl rfl rfl (.inl rfl)
        (h.runs.other rfl rfl (by simp) hno (.inl rfl))
      simp only [TimerCall.wait.injEq, reduceCtorEq, exists_false, or_false]
      omega
  next => cases hs'

theorem Inv.cancel (hadmits : Admits (.cancel id) s) (hs' : step (.cancel id) s = some s') : s'.Inv := by
  cases hs'
  split
  next hc =>
    obtain ⟨htimers, hstopped⟩ := h.timers.cancel hc.1 hc.2 (hadmits hc.2)
    refine ⟨htimers, h.runs.same rfl rfl ⟨_, rfl, nofun, nofun⟩, ?_, h.lawful.snoc trivial⟩
    exact h.stops.step hstopped (.inr ⟨_, rfl, nofun⟩)
  next => exact h

theorem Inv.scheduleCancel (hadmits : Admits (.scheduleCancel k region) s)
    (hs' : step (.scheduleCancel k region) s = some s') : s'.Inv := by
  obtain ⟨hregion, hop⟩ := hadmits
  rw [step] at hs'
  split at hs'
  next hk =>
    rw [if_neg hregion] at hs'
    cases hs'
    obtain ⟨htimers, hstopped, hstops⟩ := h.timers.cancelRegion hk hop
    refine ⟨htimers, ?_, ?_, h.lawful.snoc trivial⟩
    · refine h.runs.other (k := k) (c := .register region) rfl rfl ?_ ?_ (.inr ⟨_, rfl, nofun, nofun⟩)
      · simp [hregion]
      · simp [hk, TimerCall.Runs, TimerCall.Unchecked]
    · refine h.stops.step hstopped (.inr ⟨_, rfl, ?_⟩)
      intro r hr id hc he
      cases hr
      exact hstops id hc he
  next => cases hs'

theorem Inv.scheduleRun {nodes : List TaskNode} (hs' : step (.scheduleRun k nodes region) s = some s') :
    s'.Inv := by
  rw [step] at hs'
  split at hs'
  next hk =>
    have hold : ∀ id, s.calls k ≠ .callback id ∧ s.calls k ≠ .mark id := by simp [hk]
    have hno : ∀ r, ¬ (s.calls k).Runs r := by simp [hk, TimerCall.Runs, TimerCall.Unchecked]
    cases hs'
    split
    next =>
      exact h.quiet (k := k) (c := .done) hold (by simp) (by simp) rfl rfl rfl (.inl rfl)
        (h.runs.other rfl rfl (by simp) hno (.inl rfl))
    next =>
      refine h.quiet (k := k) (c := .run region _) hold (by simp) (by simp) rfl rfl rfl
        (.inr ⟨_, rfl, trivial, nofun, trivial⟩) ?_
      refine h.runs.step (k := k) (c := .run region _) rfl (fun _ hr => hr) (by simp) ?_ ?_ ?_
      · exact fun r hr => absurd hr (hno r)
      · exact fun r _ _ hr => absurd (.inl hr) (hno r)
      · refine .inr ⟨_, rfl, nofun, ?_⟩
        intro j r hj
        cases hj
        exact ⟨rfl, .inr ⟨_, rfl⟩⟩
  next => cases hs'

theorem Inv.nextWait (hk : s.calls k = .wait id)
    (hadmits : (s.recordOf id).timerId = id ∨ s.timerCounter < id) {now : Int}
    (hs' : s.nextCall k now (.wait id) = some s') : s'.Inv := by
  have hold : ∀ id, s.calls k ≠ .callback id ∧ s.calls k ≠ .mark id := by simp [hk]
  have hno : ∀ r, ¬ (s.calls k).Runs r := by simp [hk, TimerCall.Runs, TimerCall.Unchecked]
  have hpos : 0 < id := h.timers.waits k id (.inl hk)
  cases hs'
  split
  next hheld =>
    split
    next hstatus =>
      refine h.quiet (k := k) (c := .done) hold (by simp) (by simp) rfl rfl rfl (.inr ⟨_, rfl, trivial, nofun, ?_⟩)
        (h.runs.other rfl rfl (by simp) hno (.inr ⟨_, rfl, nofun, nofun⟩))
      refine ⟨fun hone => h.timers.completed id hpos hheld hone, fun he => ?_⟩
      rcases h.timers.status (slotOf id) with hzero | hone | htwo
      · exact absurd hzero hstatus
      · exact hone
      · exact absurd (h.timers.ended id he) (h.timers.stopped id hpos hheld htwo)
    next =>
      refine h.quiet (k := k) (c := .waitTime id _) hold (by simp) ?_ rfl rfl rfl (.inl rfl)
        (h.runs.other rfl rfl (by simp) hno (.inl rfl))
      simp [hpos]
  next hheld =>
    refine h.quiet (k := k) (c := .done) hold (by simp) (by simp) rfl rfl rfl (.inr ⟨_, rfl, trivial, nofun, ?_⟩)
      (h.runs.other rfl rfl (by simp) hno (.inr ⟨_, rfl, nofun, nofun⟩))
    refine iff_of_false (by decide) fun he => ?_
    have := (h.of_ended he).2.2
    omega

theorem Inv.nextTime {fireTime now : Int} (hk : s.calls k = .waitTime id fireTime)
    (hadmits : fireTime ≤ now → s.Pending id ∧ ¬ s.InFlight id)
    (hs' : s.nextCall k now (.waitTime id fireTime) = some s') : s'.Inv := by
  have hno : ∀ r, ¬ (s.calls k).Runs r := by simp [hk, TimerCall.Runs, TimerCall.Unchecked]
  cases hs'
  split
  next hdue =>
    obtain ⟨hpending, hop⟩ := hadmits hdue
    have hfresh := h.timers.fresh hpending hop
    obtain ⟨htimers, hstopped⟩ := h.timers.begin ⟨_, hk⟩ hpending hop
    refine ⟨htimers, ?_, h.stops.step hstopped (.inr ⟨_, rfl, nofun⟩), h.lawful.snoc ⟨hfresh, ?_⟩⟩
    · exact h.runs.other (k := k) (c := .callback id) rfl rfl (by simp) hno (.inr ⟨_, rfl, nofun, nofun⟩)
    · exact h.unstopped fun hstop => hstop.gone hpending
  next =>
    have hold : ∀ id, s.calls k ≠ .callback id ∧ s.calls k ≠ .mark id := by simp [hk]
    have hpos : 0 < id := h.timers.waits k id (.inr ⟨_, hk⟩)
    refine h.quiet (k := k) (c := .wait id) hold (by simp) ?_ rfl rfl rfl (.inl rfl)
      (h.runs.other rfl rfl (by simp) hno (.inl rfl))
    simp [hpos]

theorem Inv.nextCallback (hk : s.calls k = .callback id) {now : Int}
    (hs' : s.nextCall k now (.callback id) = some s') : s'.Inv := by
  have hno : ∀ r, ¬ (s.calls k).Runs r := by simp [hk, TimerCall.Runs, TimerCall.Unchecked]
  cases hs'
  obtain ⟨htimers, hstopped⟩ := h.timers.finish hk
  refine ⟨htimers, ?_, h.stops.step hstopped (.inr ⟨_, rfl, nofun⟩), h.lawful.snoc ?_⟩
  · exact h.runs.other (k := k) (c := .mark id) rfl rfl (by simp) hno (.inr ⟨_, rfl, nofun, nofun⟩)
  · exact h.unstopped fun hstop => hstop.gone (h.timers.flight k id (.inl hk)).1

theorem Inv.nextMark (hk : s.calls k = .mark id) {now : Int}
    (hs' : s.nextCall k now (.mark id) = some s') : s'.Inv := by
  have hno : ∀ r, ¬ (s.calls k).Runs r := by simp [hk, TimerCall.Runs, TimerCall.Unchecked]
  have hpending := (h.timers.flight k id (.inr hk)).1
  rw [nextCall, if_pos hpending] at hs'
  cases hs'
  obtain ⟨htimers, hstopped⟩ := h.timers.complete hk
  refine ⟨htimers, ?_, h.stops.step hstopped (.inr ⟨_, rfl, nofun⟩), h.lawful.snoc ?_⟩
  · exact h.runs.other (k := k) (c := .done) rfl rfl (by simp) hno (.inr ⟨_, rfl, nofun, nofun⟩)
  · exact iff_of_true rfl (h.timers.marked k id hk)

theorem Inv.nextRegister (hk : s.calls k = .register region)
    (hadmits : s.cancelledRegions.length < maxCancelledRegions ∨ region ∈ s.cancelledRegions) {now : Int}
    (hs' : s.nextCall k now (.register region) = some s') : s'.Inv := by
  have hold : ∀ id, s.calls k ≠ .callback id ∧ s.calls k ≠ .mark id := by simp [hk]
  have hno : ∀ r, ¬ (s.calls k).Runs r := by simp [hk, TimerCall.Runs, TimerCall.Unchecked]
  cases hs'
  refine h.quiet (k := k) (c := .done) hold (by simp) (by simp) rfl rfl rfl (.inr ⟨_, rfl, trivial, nofun, trivial⟩) ?_
  refine h.runs.step (k := k) (c := .done) rfl ?_ (by simp) ?_ ?_ ?_
  · intro r hr
    split
    next => exact List.mem_append_left _ hr
    next => exact hr
  · exact fun r hr => absurd hr (hno r)
  · exact fun r _ _ hr => absurd (.inl hr) (hno r)
  · refine .inr ⟨_, rfl, ?_, nofun⟩
    intro r hr
    cases hr
    refine ⟨h.runs.registers k region hk, ?_⟩
    split
    next => exact List.mem_append_right _ (List.mem_singleton.mpr rfl)
    next hfull => exact hadmits.resolve_left hfull

theorem Inv.nextRun (hold : ∀ id, s.calls k ≠ .callback id ∧ s.calls k ≠ .mark id)
    (hnew : ∀ id, c ≠ .callback id ∧ c ≠ .mark id) (hwait : ∀ id, ¬ (c = .wait id ∨ ∃ t, c = .waitTime id t))
    (hregister : ∀ r, c ≠ .register r) (hruns : ∀ r, (s.calls k).Runs r → c.Runs r)
    (hlate : ∀ r, r ≠ 0 → r ∈ s.cancelledRegions → (s.calls k).Unchecked r → c.Unchecked r) :
    (s.goto k c).Inv := by
  refine h.quiet (k := k) (c := c) hold hnew (fun id hid => absurd hid (hwait id)) rfl rfl rfl (.inl rfl) ?_
  exact h.runs.step rfl (fun _ hr => hr) (fun r hr => absurd hr (hregister r)) hruns hlate (.inl rfl)

/-- **What a step keeps.** -/
theorem Inv.step {e : TimerEvent} (hadmits : Admits e s) (hs' : step e s = some s') : s'.Inv := by
  cases e with
  | create delayMs region now => exact h.create hadmits hs'
  | wait k id => exact h.wait hs'
  | cancel id => exact h.cancel hadmits hs'
  | scheduleCancel k region => exact h.scheduleCancel hadmits hs'
  | scheduleRun k nodes region => exact h.scheduleRun hs'
  | next k now =>
    rw [TimerState.step] at hs'
    rw [Admits] at hadmits
    generalize hk : s.calls k = c at hs' hadmits
    cases c with
    | none => cases hs'
    | wait id => exact h.nextWait hk hadmits hs'
    | waitTime id fireTime => exact h.nextTime hk hadmits hs'
    | callback id => exact h.nextCallback hk hs'
    | mark id => exact h.nextMark hk hs'
    | register region => exact h.nextRegister hk hadmits hs'
    | run region waves =>
      cases hs'
      split
      next =>
        apply h.nextRun <;> simp [hk, TimerCall.Runs, TimerCall.Unchecked]
      next hnot =>
        apply h.nextRun
        · simp [hk]
        · simp
        · simp
        · simp
        · simp [hk, TimerCall.Runs, TimerCall.Unchecked]
        · intro r hne hin hrun
          rw [hk] at hrun
          obtain hrun | ⟨waves', hrun⟩ := hrun
          · cases hrun
          · cases hrun
            exact absurd (by simp [isRegionCancelled, hne, hin]) hnot
    | runLoop region waves =>
      cases waves with
      | nil =>
        cases hs'
        apply h.nextRun <;> simp [hk, TimerCall.Runs, TimerCall.Unchecked]
      | cons wave waves =>
        cases hs'
        split
        next => apply h.nextRun <;> simp [hk, TimerCall.Runs, TimerCall.Unchecked]
        next => apply h.nextRun <;> simp [hk, TimerCall.Runs, TimerCall.Unchecked]
    | runWave region wave waves =>
      have hold : ∀ id, s.calls k ≠ .callback id ∧ s.calls k ≠ .mark id := by simp [hk]
      cases hs'
      refine h.quiet (k := k) (c := .runLoop region waves) hold (by simp) (by simp) rfl rfl rfl
        (.inr ⟨_, rfl, trivial, nofun, ?_⟩) ?_
      · -- A run that executes has passed a check, so its region had not been cancelled when it began.
        intro r l l' heq hin
        have hlate := h.runs.late l _ l' heq k r rfl hin
        rw [hk] at hlate
        obtain hlate | ⟨waves', hlate⟩ := hlate <;> cases hlate
      · refine h.runs.step (k := k) (c := .runLoop region waves) rfl (fun _ hr => hr) (by simp) ?_ ?_
          (.inr ⟨_, rfl, nofun, nofun⟩)
        · simp [hk, TimerCall.Runs, TimerCall.Unchecked]
        · simp [hk, TimerCall.Unchecked]
    | done => cases hs'

end

theorem inv_init : Inv {} where
  timers := by constructor <;> simp [InFlight, recordOf]
  runs := ⟨nofun, nofun, nofun, Justified.nil⟩
  stops := Justified.nil
  lawful := Justified.nil

end TimerState

/-- **Cancellation is final where every step is admitted.** -/
theorem timers_lawful {es : List TimerEvent} {t : TimerState} (hmeets : Meets TimerState.step TimerState.Admits es {})
    (hrun : runEvents TimerState.step es {} = some t) : Justified TimerAct.Lawful t.history :=
  (hmeets.invariant (fun _ _ _ h hadmits hs' => h.step hadmits hs') TimerState.inv_init hrun).lawful

theorem timers_lawful_one : ∃ t, runEvents TimerState.step
    [.create 5 0 0, .wait 0 1, .next 0 7, .next 0 7, .next 0 7, .next 0 7] {} = some t ∧
    t.history = [.created 1 0, .began 1, .ended 1, .returned 1 1] ∧ Justified TimerAct.Lawful t.history := by
  obtain ⟨t, hrun, hhistory⟩ : ∃ t, runEvents TimerState.step
      [.create 5 0 0, .wait 0 1, .next 0 7, .next 0 7, .next 0 7, .next 0 7] {} = some t ∧
      t.history = [.created 1 0, .began 1, .ended 1, .returned 1 1] := ⟨_, rfl, rfl⟩
  refine ⟨t, hrun, hhistory, timers_lawful ?_ hrun⟩
  refine .cons ?_ rfl (.cons trivial rfl (.cons (.inl rfl) rfl (.cons ?_ rfl ?_)))
  · intro ⟨k, hk⟩
    rcases hk with hk | hk <;> cases hk
  · refine fun _ => ⟨⟨rfl, rfl⟩, ?_⟩
    intro ⟨k, hk⟩
    change Function.update (Function.update _ 0 _) 0 _ k = _ ∨ Function.update (Function.update _ 0 _) 0 _ k = _ at hk
    by_cases hk0 : k = 0
    · rw [hk0, Function.update_self] at hk
      rcases hk with hk | hk <;> cases hk
    · rw [Function.update_of_ne hk0, Function.update_of_ne hk0] at hk
      rcases hk with hk | hk <;> cases hk
  · exact .cons trivial rfl (.cons trivial rfl trivial)

/-- Two waits read one timer as pending, and both run its callback. -/
theorem callback_twice : ¬ ∀ es t, runEvents TimerState.step es {} = some t → Justified TimerAct.Lawful t.history := by
  intro h
  have hboth := h [.create 0 0 0, .wait 0 1, .wait 1 1, .next 0 0, .next 1 0, .next 0 0, .next 1 0] _ rfl
  exact (hboth [.created 1 0, .began 1] (.began 1) [] rfl).1 (by decide)

end Datara.Runtime
