import Datara.Runtime.Timers

/-!
# Where timers and runs are

What every step of the timers keeps under `TimerState.Admits`: a timer is begun by a call that has not marked it, or has
ended and is no longer pending, or has not begun (`TimersInv`); and a run in a cancelled region has not passed its first
check (`RunsInv`).
-/

namespace Datara.Runtime

open Library
open Function (update_of_ne update_self)

/-- Acts that say nothing of a timer's callback. -/
def TimerAct.Quiet : TimerAct → Prop
  | .created _ _ | .began _ | .ended _ | .cancelled _ => False
  | _ => True

/-- The run has executed nothing, and asks first whether its region is cancelled. -/
def TimerCall.Unchecked (region : Int) (c : TimerCall) : Prop := c = .done ∨ ∃ waves, c = .run region waves

/-- A run in a region. -/
def TimerCall.Runs (region : Int) (c : TimerCall) : Prop :=
  c.Unchecked region ∨ (∃ waves, c = .runLoop region waves) ∨ ∃ wave waves, c = .runWave region wave waves

namespace TimerState

variable {s s' : TimerState} {id id' region : Int} {k j : Nat} {a : TimerAct} {c c' : TimerCall}

/-- A timer that has not begun its callback, and will not. -/
structure Stopped (s : TimerState) (id : Int) : Prop where
  given : id ≤ s.timerCounter
  fresh : .began id ∉ s.history
  gone : ¬ s.Pending id

/-- Where timers are. -/
structure TimersInv (s : TimerState) : Prop where
  counter : 0 ≤ s.timerCounter
  slots : ∀ i, (s.timers i).timerId ≠ 0 → slotOf (s.timers i).timerId = i ∧ 0 < (s.timers i).timerId ∧
    (s.timers i).timerId ≤ s.timerCounter ∧ .created (s.timers i).timerId (s.timers i).regionId ∈ s.history
  status : ∀ i, (s.timers i).status = 0 ∨ (s.timers i).status = 1 ∨ (s.timers i).status = 2
  created : ∀ id r, .created id r ∈ s.history → 0 < id ∧ id ≤ s.timerCounter
  region : ∀ id r r', .created id r ∈ s.history → .created id r' ∈ s.history → r = r'
  flight : ∀ k id, s.calls k = .callback id ∨ s.calls k = .mark id → s.Pending id ∧ 0 < id ∧ .began id ∈ s.history
  marked : ∀ k id, s.calls k = .mark id → .ended id ∈ s.history
  unique : ∀ k j id, s.calls k = .callback id ∨ s.calls k = .mark id → s.calls j = .callback id ∨ s.calls j = .mark id →
    k = j
  waits : ∀ k id, (s.calls k = .wait id ∨ ∃ t, s.calls k = .waitTime id t) → 0 < id
  began : ∀ id, .began id ∈ s.history → s.InFlight id ∨ (.ended id ∈ s.history ∧ ¬ s.Pending id)
  bound : ∀ id, .began id ∈ s.history → 0 < id ∧ id ≤ s.timerCounter
  ended : ∀ id, .ended id ∈ s.history → .began id ∈ s.history
  completed : ∀ id, 0 < id → (s.recordOf id).timerId = id → (s.recordOf id).status = 1 → .ended id ∈ s.history
  stopped : ∀ id, 0 < id → (s.recordOf id).timerId = id → (s.recordOf id).status = 2 → .began id ∉ s.history
  cancelled : ∀ id, .cancelled id ∈ s.history → s.Stopped id

/-- Where cancelled regions and runs are. -/
structure RunsInv (s : TimerState) : Prop where
  registers : ∀ k region, s.calls k = .register region → region ≠ 0
  listed : ∀ region, .cancelReturned region ∈ s.history → region ≠ 0 ∧ region ∈ s.cancelledRegions
  runs : ∀ k region, .runStarted k region ∈ s.history → (s.calls k).Runs region
  late : Justified (fun pre a => ∀ k region, a = .runStarted k region → .cancelReturned region ∈ pre →
    (s.calls k).Unchecked region) s.history

/-! ## What a step leaves -/

theorem update_eq_iff (hold : s.calls k ≠ c) (hnew : c' ≠ c) :
    Function.update s.calls k c' j = c ↔ s.calls j = c := by
  by_cases hj : j = k
  · subst hj
    rw [update_self]
    exact ⟨fun h => absurd h hnew, fun h => absurd h hold⟩
  · rw [update_of_ne hj]

theorem mem_snoc (h : ¬ a.Quiet) {b : TimerAct} (hb : b.Quiet) : a ∈ s.history ++ [b] ↔ a ∈ s.history := by
  rw [List.mem_append, List.mem_singleton]
  refine ⟨fun hab => hab.resolve_right fun heq => h (heq ▸ hb), .inl⟩

theorem TimersInv.frame (h : s.TimersInv) (htimers : s'.timers = s.timers) (hcounter : s'.timerCounter = s.timerCounter)
    (hhistory : ∀ a, ¬ a.Quiet → (a ∈ s'.history ↔ a ∈ s.history))
    (hcallback : ∀ k id, s'.calls k = .callback id ↔ s.calls k = .callback id)
    (hmark : ∀ k id, s'.calls k = .mark id ↔ s.calls k = .mark id)
    (hwaits : ∀ k id, (s'.calls k = .wait id ∨ ∃ t, s'.calls k = .waitTime id t) → 0 < id) : s'.TimersInv := by
  have hrecord : ∀ id, s'.recordOf id = s.recordOf id := fun id => by rw [recordOf, recordOf, htimers]
  have hpending : ∀ id, s'.Pending id ↔ s.Pending id := fun id => by rw [Pending, Pending, hrecord]
  have hflight : ∀ id, s'.InFlight id ↔ s.InFlight id := fun id => by
    simp [InFlight, hcallback, hmark]
  have hbegan : ∀ id, .began id ∈ s'.history ↔ .began id ∈ s.history := fun id => hhistory _ not_false
  have hended : ∀ id, .ended id ∈ s'.history ↔ .ended id ∈ s.history := fun id => hhistory _ not_false
  have hcreated : ∀ id r, .created id r ∈ s'.history ↔ .created id r ∈ s.history := fun id r => hhistory _ not_false
  have hcancelled : ∀ id, .cancelled id ∈ s'.history ↔ .cancelled id ∈ s.history := fun id => hhistory _ not_false
  refine ⟨hcounter ▸ h.counter, ?_, ?_, ?_, ?_, ?_, ?_, ?_, hwaits, ?_, ?_, ?_, ?_, ?_, ?_⟩
  · simp only [htimers, hcounter, hcreated]
    exact h.slots
  · simp only [htimers]
    exact h.status
  · simp only [hcreated, hcounter]
    exact h.created
  · simp only [hcreated]
    exact h.region
  · simp only [hcallback, hmark, hpending, hbegan]
    exact h.flight
  · simp only [hmark, hended]
    exact h.marked
  · simp only [hcallback, hmark]
    exact h.unique
  · simp only [hbegan, hflight, hended, hpending]
    exact h.began
  · simp only [hbegan, hcounter]
    exact h.bound
  · simp only [hbegan, hended]
    exact h.ended
  · simp only [hrecord, hended]
    exact h.completed
  · simp only [hrecord, hbegan]
    exact h.stopped
  · intro id hid
    obtain ⟨hgiven, hfresh, hgone⟩ := h.cancelled id ((hcancelled id).mp hid)
    exact ⟨hcounter ▸ hgiven, fun hb => hfresh ((hbegan id).mp hb), fun hp => hgone ((hpending id).mp hp)⟩

theorem TimersInv.waits_update (h : s.TimersInv)
    (hwait : ∀ id, (c = .wait id ∨ ∃ t, c = .waitTime id t) → 0 < id) (j : Nat) (id : Int)
    (hj : Function.update s.calls k c j = .wait id ∨ ∃ t, Function.update s.calls k c j = .waitTime id t) : 0 < id := by
  by_cases hjk : j = k
  · rw [hjk, update_self] at hj
    exact hwait id hj
  · rw [update_of_ne hjk] at hj
    exact h.waits j id hj

theorem TimersInv.quiet (h : s.TimersInv) (hold : ∀ id, s.calls k ≠ .callback id ∧ s.calls k ≠ .mark id)
    (hnew : ∀ id, c ≠ .callback id ∧ c ≠ .mark id) (hwait : ∀ id, (c = .wait id ∨ ∃ t, c = .waitTime id t) → 0 < id)
    (htimers : s'.timers = s.timers) (hcounter : s'.timerCounter = s.timerCounter)
    (hcalls : s'.calls = Function.update s.calls k c)
    (hhistory : ∀ a, ¬ a.Quiet → (a ∈ s'.history ↔ a ∈ s.history)) : s'.TimersInv := by
  refine h.frame htimers hcounter hhistory ?_ ?_ ?_
  · intro j id
    rw [hcalls]
    exact update_eq_iff (hold id).1 (hnew id).1
  · intro j id
    rw [hcalls]
    exact update_eq_iff (hold id).2 (hnew id).2
  · rw [hcalls]
    exact h.waits_update hwait

theorem mem_act {b : TimerAct} : a ∈ (s.act k c b).history ↔ a ∈ s.history ∨ a = b := by
  show _ ∈ s.history ++ [_] ↔ _
  rw [List.mem_append, List.mem_singleton]

namespace TimersInv

section
variable (h : s.TimersInv)
include h

theorem created_of_pending (hpos : 0 < id) (hpending : s.Pending id) :
    id ≤ s.timerCounter ∧ .created id (s.recordOf id).regionId ∈ s.history := by
  obtain ⟨hid, -⟩ := hpending
  obtain ⟨-, -, hle, hcreated⟩ := h.slots (slotOf id) (by rw [← recordOf, hid]; exact hpos.ne')
  rw [← recordOf, hid] at hle hcreated
  exact ⟨hle, hcreated⟩

theorem fresh (hpending : s.Pending id) (hflight : ¬ s.InFlight id) : .began id ∉ s.history := by
  intro hbegan
  rcases h.began id hbegan with hin | ⟨-, hnot⟩
  · exact hflight hin
  · exact hnot hpending

theorem create (hop : ¬ s.InFlight (s.recordOf (s.timerCounter + 1)).timerId) {r : TimerRecord}
    (hid : r.timerId = s.timerCounter + 1) (hstatus : r.status = 0) (hregion : r.regionId = region)
    (htimers : s'.timers = Function.update s.timers (slotOf (s.timerCounter + 1)) r)
    (hcounter : s'.timerCounter = s.timerCounter + 1)
    (hcalls : s'.calls = s.calls) (hhistory : s'.history = s.history ++ [.created (s.timerCounter + 1) region]) :
    s'.TimersInv ∧ ∀ id, s.Stopped id → s'.Stopped id := by
  have hsame : ∀ i, i ≠ slotOf (s.timerCounter + 1) → s'.timers i = s.timers i := fun i hi => by
    rw [htimers, update_of_ne hi]
  have hnew : s'.timers (slotOf (s.timerCounter + 1)) = r := by rw [htimers, update_self]
  have hother : ∀ id, id ≠ s.timerCounter + 1 → (s'.recordOf id).timerId = id → s'.recordOf id = s.recordOf id := by
    intro id hne hheld
    apply hsame
    intro hslot
    rw [recordOf, hslot, hnew, hid] at hheld
    exact hne hheld.symm
  have hback : ∀ id, id ≤ s.timerCounter → s'.Pending id → s.Pending id := by
    intro id hle hpending
    have hne : id ≠ s.timerCounter + 1 := by omega
    rw [Pending, hother id hne hpending.1] at hpending
    exact hpending
  have hacts : ∀ a, a ∈ s'.history ↔ a ∈ s.history ∨ a = .created (s.timerCounter + 1) region := fun a => by
    rw [hhistory, List.mem_append, List.mem_singleton]
  have hbegan : ∀ id, .began id ∈ s'.history ↔ .began id ∈ s.history := fun id => by
    rw [hacts, or_iff_left nofun]
  have hended : ∀ id, .ended id ∈ s'.history ↔ .ended id ∈ s.history := fun id => by
    rw [hacts, or_iff_left nofun]
  have hcreated : ∀ id r, .created id r ∈ s'.history ↔
      .created id r ∈ s.history ∨ (id = s.timerCounter + 1 ∧ r = region) := fun id r => by
    rw [hacts, TimerAct.created.injEq]
  have hstopped : ∀ id, s.Stopped id → s'.Stopped id := by
    intro id hstop
    refine ⟨?_, fun hb => hstop.fresh ((hbegan id).mp hb), fun hp => hstop.gone (hback id hstop.given hp)⟩
    rw [hcounter]
    have := hstop.given
    omega
  have hpos := h.counter
  refine ⟨⟨?_, ?_, ?_, ?_, ?_, ?_, ?_, ?_, ?_, ?_, ?_, ?_, ?_, ?_, ?_⟩, hstopped⟩
  · rw [hcounter]
    omega
  · intro i hi
    by_cases hslot : i = slotOf (s.timerCounter + 1)
    · subst hslot
      rw [hnew, hid, hregion, hcounter]
      exact ⟨rfl, by omega, le_rfl, (hcreated _ _).mpr (.inr ⟨rfl, rfl⟩)⟩
    · rw [hsame i hslot] at hi ⊢
      obtain ⟨hi', hpos', hle, hcr⟩ := h.slots i hi
      exact ⟨hi', hpos', by omega, (hcreated _ _).mpr (.inl hcr)⟩
  · intro i
    by_cases hslot : i = slotOf (s.timerCounter + 1)
    · subst hslot
      rw [hnew]
      exact .inl hstatus
    · rw [hsame i hslot]
      exact h.status i
  · intro id r hcr
    rcases (hcreated id r).mp hcr with hcr | ⟨rfl, -⟩
    · have := h.created id r hcr
      omega
    · omega
  · intro id r₁ r₂ h₁ h₂
    rcases (hcreated id r₁).mp h₁ with h₁ | ⟨rfl, rfl⟩
    · rcases (hcreated id r₂).mp h₂ with h₂ | ⟨rfl, rfl⟩
      · exact h.region id r₁ r₂ h₁ h₂
      · have := (h.created _ r₁ h₁).2
        omega
    · rcases (hcreated _ r₂).mp h₂ with h₂ | ⟨-, rfl⟩
      · have := (h.created _ r₂ h₂).2
        omega
      · rfl
  · intro k id hk
    rw [hcalls] at hk
    obtain ⟨⟨hheld, hpend⟩, hid', hb⟩ := h.flight k id hk
    have hslot : slotOf id ≠ slotOf (s.timerCounter + 1) := by
      intro heq
      apply hop
      rw [recordOf, ← heq, ← recordOf, hheld]
      exact ⟨k, hk⟩
    have hrecord : s'.recordOf id = s.recordOf id := hsame _ hslot
    exact ⟨⟨hrecord ▸ hheld, hrecord ▸ hpend⟩, hid', (hbegan id).mpr hb⟩
  · intro k id hk
    rw [hcalls] at hk
    exact (hended id).mpr (h.marked k id hk)
  · rw [hcalls]
    exact h.unique
  · rw [hcalls]
    exact h.waits
  · intro id hb
    rw [hbegan] at hb
    rw [hended, InFlight, hcalls]
    rcases h.began id hb with hin | ⟨hend, hnot⟩
    · exact .inl hin
    · exact .inr ⟨hend, fun hp => hnot (hback id (h.bound id hb).2 hp)⟩
  · intro id hb
    have := h.bound id ((hbegan id).mp hb)
    omega
  · intro id he
    exact (hbegan id).mpr (h.ended id ((hended id).mp he))
  · intro id hid' hheld hst
    by_cases hne : id = s.timerCounter + 1
    · subst hne
      rw [recordOf, hnew, hstatus] at hst
      cases hst
    · have hrecord := hother id hne hheld
      rw [hrecord] at hheld hst
      exact (hended id).mpr (h.completed id hid' hheld hst)
  · intro id hid' hheld hst
    by_cases hne : id = s.timerCounter + 1
    · subst hne
      rw [recordOf, hnew, hstatus] at hst
      cases hst
    · have hrecord := hother id hne hheld
      rw [hrecord] at hheld hst
      rw [hbegan]
      exact h.stopped id hid' hheld hst
  · intro id hc
    rw [hacts, or_iff_left nofun] at hc
    exact hstopped id (h.cancelled id hc)

theorem begin (hk : ∃ t, s.calls k = .waitTime id t) (hpending : s.Pending id)
    (hop : ¬ s.InFlight id) : (s.act k (.callback id) (.began id)).TimersInv ∧
      ∀ id', s.Stopped id' → (s.act k (.callback id) (.began id)).Stopped id' := by
  have hpos : 0 < id := h.waits k id (.inr hk)
  obtain ⟨t, hk⟩ := hk
  have hbegan : ∀ id', .began id' ∈ (s.act k (.callback id) (.began id)).history ↔
      .began id' ∈ s.history ∨ id' = id := fun id' => by
    rw [mem_act, TimerAct.began.injEq]
  have hended : ∀ id', .ended id' ∈ (s.act k (.callback id) (.began id)).history ↔ .ended id' ∈ s.history :=
    fun _ => mem_act.trans (or_iff_left nofun)
  have hcreated : ∀ id' r, .created id' r ∈ (s.act k (.callback id) (.began id)).history ↔
      .created id' r ∈ s.history := fun _ _ => mem_act.trans (or_iff_left nofun)
  have hcalls : ∀ j id', (s.act k (.callback id) (.began id)).calls j = .callback id' ↔
      s.calls j = .callback id' ∨ (j = k ∧ id' = id) := fun j id' => by
    show Function.update s.calls k _ j = _ ↔ _
    by_cases hj : j = k
    · subst hj
      rw [update_self, hk]
      simp [eq_comm]
    · rw [update_of_ne hj]
      simp [hj]
  have hmarks : ∀ j id', (s.act k (.callback id) (.began id)).calls j = .mark id' ↔ s.calls j = .mark id' :=
    fun j id' => update_eq_iff (by rw [hk]; exact nofun) nofun
  have hnone : ∀ j, ¬ (s.calls j = .callback id ∨ s.calls j = .mark id) := fun j hj => hop ⟨j, hj⟩
  have hstopped : ∀ id', s.Stopped id' → (s.act k (.callback id) (.began id)).Stopped id' := by
    intro id' hstop
    refine ⟨hstop.given, fun hb => ?_, hstop.gone⟩
    rcases (hbegan id').mp hb with hb | rfl
    · exact hstop.fresh hb
    · exact hstop.gone hpending
  refine ⟨⟨h.counter, ?_, h.status, ?_, ?_, ?_, ?_, ?_, ?_, ?_, ?_, ?_, ?_, ?_, ?_⟩, hstopped⟩
  · simp only [hcreated]
    exact h.slots
  · simp only [hcreated]
    exact h.created
  · simp only [hcreated]
    exact h.region
  · intro j id' hj
    rw [hcalls, hmarks] at hj
    rw [hbegan]
    rcases hj with (hj | ⟨-, rfl⟩) | hj
    · obtain ⟨hp, hpos', hb⟩ := h.flight j id' (.inl hj)
      exact ⟨hp, hpos', .inl hb⟩
    · exact ⟨hpending, hpos, .inr rfl⟩
    · obtain ⟨hp, hpos', hb⟩ := h.flight j id' (.inr hj)
      exact ⟨hp, hpos', .inl hb⟩
  · simp only [hended, hmarks]
    exact h.marked
  · intro i j id' hi hj
    rw [hcalls, hmarks] at hi hj
    rcases hi with (hi | ⟨rfl, rfl⟩) | hi
    · rcases hj with (hj | ⟨rfl, rfl⟩) | hj
      · exact h.unique i j id' (.inl hi) (.inl hj)
      · exact absurd (.inl hi) (hnone i)
      · exact h.unique i j id' (.inl hi) (.inr hj)
    · rcases hj with (hj | ⟨rfl, -⟩) | hj
      · exact absurd (.inl hj) (hnone j)
      · rfl
      · exact absurd (.inr hj) (hnone j)
    · rcases hj with (hj | ⟨rfl, rfl⟩) | hj
      · exact h.unique i j id' (.inr hi) (.inl hj)
      · exact absurd (.inr hi) (hnone i)
      · exact h.unique i j id' (.inr hi) (.inr hj)
  · exact h.waits_update (by simp)
  · intro id' hb
    rw [hended]
    rcases (hbegan id').mp hb with hb | rfl
    · rcases h.began id' hb with ⟨j, hj⟩ | hdone
      · refine .inl ⟨j, ?_⟩
        rw [hcalls, hmarks]
        exact hj.imp .inl fun hm => hm
      · exact .inr hdone
    · refine .inl ⟨k, ?_⟩
      rw [hcalls]
      exact .inl (.inr ⟨rfl, rfl⟩)
  · intro id' hb
    rcases (hbegan id').mp hb with hb | rfl
    · exact h.bound id' hb
    · exact ⟨hpos, (h.created_of_pending hpos hpending).1⟩
  · intro id' he
    rw [hended] at he
    exact (hbegan id').mpr (.inl (h.ended id' he))
  · simp only [hended]
    exact h.completed
  · intro id' hpos' hheld hst
    rw [hbegan]
    rintro (hb | rfl)
    · exact h.stopped id' hpos' hheld hst hb
    · have hzero := hpending.2
      change (s.recordOf id').status = 2 at hst
      rw [hzero] at hst
      cases hst
  · intro id' hc
    exact hstopped id' (h.cancelled id' (mem_act.mp hc |>.resolve_right nofun))

theorem finish (hk : s.calls k = .callback id) : (s.act k (.mark id) (.ended id)).TimersInv ∧
    ∀ id', s.Stopped id' → (s.act k (.mark id) (.ended id)).Stopped id' := by
  obtain ⟨hpending, hpos, hbegan⟩ := h.flight k id (.inl hk)
  have hended : ∀ id', .ended id' ∈ (s.act k (.mark id) (.ended id)).history ↔
      .ended id' ∈ s.history ∨ id' = id := fun id' => by
    rw [mem_act, TimerAct.ended.injEq]
  have hbegins : ∀ id', .began id' ∈ (s.act k (.mark id) (.ended id)).history ↔ .began id' ∈ s.history :=
    fun _ => mem_act.trans (or_iff_left nofun)
  have hcreated : ∀ id' r, .created id' r ∈ (s.act k (.mark id) (.ended id)).history ↔
      .created id' r ∈ s.history := fun _ _ => mem_act.trans (or_iff_left nofun)
  have hcalls : ∀ j id', (s.act k (.mark id) (.ended id)).calls j = .callback id' ∨
      (s.act k (.mark id) (.ended id)).calls j = .mark id' ↔ s.calls j = .callback id' ∨ s.calls j = .mark id' := by
    intro j id'
    show Function.update s.calls k _ j = _ ∨ Function.update s.calls k _ j = _ ↔ _
    by_cases hj : j = k
    · subst hj
      rw [update_self, hk]
      simp
    · rw [update_of_ne hj]
  have hstopped : ∀ id', s.Stopped id' → (s.act k (.mark id) (.ended id)).Stopped id' := by
    intro id' hstop
    refine ⟨hstop.given, fun hb => ?_, hstop.gone⟩
    exact hstop.fresh ((hbegins id').mp hb)
  refine ⟨⟨h.counter, ?_, h.status, ?_, ?_, ?_, ?_, ?_, ?_, ?_, ?_, ?_, ?_, ?_, ?_⟩, hstopped⟩
  · simp only [hcreated]
    exact h.slots
  · simp only [hcreated]
    exact h.created
  · simp only [hcreated]
    exact h.region
  · simp only [hcalls, hbegins]
    exact h.flight
  · intro j id' hj
    rw [hended]
    by_cases hjk : j = k
    · subst hjk
      change Function.update s.calls j _ j = _ at hj
      rw [update_self] at hj
      cases hj
      exact .inr rfl
    · change Function.update s.calls k _ j = _ at hj
      rw [update_of_ne hjk] at hj
      exact .inl (h.marked j id' hj)
  · simp only [hcalls]
    exact h.unique
  · exact h.waits_update (by simp)
  · intro id' hb
    rw [hbegins] at hb
    rw [hended]
    rcases h.began id' hb with ⟨j, hj⟩ | ⟨he, hnot⟩
    · exact .inl ⟨j, (hcalls j id').mpr hj⟩
    · exact .inr ⟨.inl he, hnot⟩
  · simp only [hbegins]
    exact h.bound
  · intro id' he
    rw [hbegins]
    rcases (hended id').mp he with he | rfl
    · exact h.ended id' he
    · exact hbegan
  · intro id' hpos' hheld hst
    exact (hended id').mpr (.inl (h.completed id' hpos' hheld hst))
  · simp only [hbegins]
    exact h.stopped
  · intro id' hc
    exact hstopped id' (h.cancelled id' (mem_act.mp hc |>.resolve_right nofun))

theorem setStatuses
    (hsame : ∀ i, (s'.timers i).timerId = (s.timers i).timerId ∧ (s'.timers i).regionId = (s.timers i).regionId)
    (hstatus : ∀ i, (s'.timers i).status = (s.timers i).status ∨ ((s.timers i).status = 0 ∧
      ((s'.timers i).status = 1 ∧ .ended (s.timers i).timerId ∈ s.history ∨
        (s'.timers i).status = 2 ∧ .began (s.timers i).timerId ∉ s.history)))
    (hcounter : s'.timerCounter = s.timerCounter)
    (hflight : ∀ k id, s'.calls k = .callback id ∨ s'.calls k = .mark id →
      (s.calls k = .callback id ∨ s.calls k = .mark id) ∧ (s'.recordOf id).status = 0)
    (hmark : ∀ k id, s'.calls k = .mark id → s.calls k = .mark id)
    (hlands : ∀ id, s.InFlight id → s'.InFlight id ∨ (.ended id ∈ s.history ∧ ¬ s'.Pending id))
    (hwaits : ∀ k id, (s'.calls k = .wait id ∨ ∃ t, s'.calls k = .waitTime id t) → 0 < id)
    (hcreated : ∀ id r, .created id r ∈ s'.history ↔ .created id r ∈ s.history)
    (hbegan : ∀ id, .began id ∈ s'.history ↔ .began id ∈ s.history)
    (hended : ∀ id, .ended id ∈ s'.history ↔ .ended id ∈ s.history)
    (hcancelled : ∀ id, .cancelled id ∈ s'.history → .cancelled id ∈ s.history ∨ s'.Stopped id) :
    s'.TimersInv ∧ ∀ id, s.Stopped id → s'.Stopped id := by
  have hback : ∀ id, s'.Pending id → s.Pending id := by
    intro id hp
    refine ⟨(hsame _).1.symm.trans hp.1, ?_⟩
    rcases hstatus (slotOf id) with heq | ⟨hzero, -⟩
    · exact heq.symm.trans hp.2
    · exact hzero
  have hstopped : ∀ id, s.Stopped id → s'.Stopped id := fun id hstop =>
    ⟨hcounter ▸ hstop.given, fun hb => hstop.fresh ((hbegan id).mp hb), fun hp => hstop.gone (hback id hp)⟩
  refine ⟨⟨hcounter ▸ h.counter, ?_, ?_, ?_, ?_, ?_, ?_, ?_, hwaits, ?_, ?_, ?_, ?_, ?_, ?_⟩, hstopped⟩
  · intro i
    rw [(hsame i).1, (hsame i).2, hcounter, hcreated]
    exact h.slots i
  · intro i
    rcases hstatus i with heq | ⟨-, ⟨hone, -⟩ | ⟨htwo, -⟩⟩
    · rw [heq]
      exact h.status i
    · exact .inr (.inl hone)
    · exact .inr (.inr htwo)
  · simp only [hcreated, hcounter]
    exact h.created
  · simp only [hcreated]
    exact h.region
  · intro k id hk
    obtain ⟨hk, hzero⟩ := hflight k id hk
    obtain ⟨hp, hpos, hb⟩ := h.flight k id hk
    exact ⟨⟨(hsame _).1.trans hp.1, hzero⟩, hpos, (hbegan id).mpr hb⟩
  · intro k id hk
    exact (hended id).mpr (h.marked k id (hmark k id hk))
  · intro k j id hk hj
    exact h.unique k j id (hflight k id hk).1 (hflight j id hj).1
  · intro id hb
    rw [hended]
    rcases h.began id ((hbegan id).mp hb) with hin | ⟨he, hnot⟩
    · exact hlands id hin
    · exact .inr ⟨he, fun hp => hnot (hback id hp)⟩
  · simp only [hbegan, hcounter]
    exact h.bound
  · simp only [hbegan, hended]
    exact h.ended
  · intro id hpos hheld hone
    rw [hended]
    have hheld : (s.recordOf id).timerId = id := (hsame _).1.symm.trans hheld
    rcases hstatus (slotOf id) with heq | ⟨-, ⟨-, he⟩ | ⟨htwo, -⟩⟩
    · exact h.completed id hpos hheld (heq.symm.trans hone)
    · rw [← recordOf, hheld] at he
      exact he
    · exact absurd (hone.symm.trans htwo) (by decide)
  · intro id hpos hheld htwo
    rw [hbegan]
    have hheld : (s.recordOf id).timerId = id := (hsame _).1.symm.trans hheld
    rcases hstatus (slotOf id) with heq | ⟨-, ⟨hone, -⟩ | ⟨-, hb⟩⟩
    · exact h.stopped id hpos hheld (heq.symm.trans htwo)
    · exact absurd (hone.symm.trans htwo) (by decide)
    · rw [← recordOf, hheld] at hb
      exact hb
  · intro id hc
    rcases hcancelled id hc with hc | hstop
    · exact hstopped id (h.cancelled id hc)
    · exact hstop

theorem complete (hk : s.calls k = .mark id) :
    ((s.setStatus id 1).act k .done (.returned id 1)).TimersInv ∧
      ∀ id', s.Stopped id' → ((s.setStatus id 1).act k .done (.returned id 1)).Stopped id' := by
  obtain ⟨hpending, -, -⟩ := h.flight k id (.inr hk)
  have hcalls : ∀ j, j ≠ k → ((s.setStatus id 1).act k .done (.returned id 1)).calls j = s.calls j :=
    fun j hj => update_of_ne hj _ _
  have hdone : ((s.setStatus id 1).act k .done (.returned id 1)).calls k = .done := update_self _ _ _
  have hslot : ∀ i, i ≠ slotOf id → ((s.setStatus id 1).act k .done (.returned id 1)).timers i = s.timers i :=
    fun i hi => update_of_ne hi _ _
  have hset : ((s.setStatus id 1).act k .done (.returned id 1)).timers (slotOf id) =
      { s.recordOf id with status := 1 } := update_self _ _ _
  have hmember : ∀ a, ¬ a.Quiet → (a ∈ ((s.setStatus id 1).act k .done (.returned id 1)).history ↔ a ∈ s.history) :=
    fun a ha => mem_snoc ha trivial
  apply h.setStatuses
  · intro i
    by_cases hi : i = slotOf id
    · subst hi
      rw [hset]
      exact ⟨rfl, rfl⟩
    · rw [hslot i hi]
      exact ⟨rfl, rfl⟩
  · intro i
    by_cases hi : i = slotOf id
    · subst hi
      refine .inr ⟨hpending.2, .inl ⟨by rw [hset], ?_⟩⟩
      rw [← recordOf, hpending.1]
      exact h.marked k id hk
    · rw [hslot i hi]
      exact .inl rfl
  · rfl
  · intro j id' hj
    have hjk : j ≠ k := by
      intro hjk
      rw [hjk, hdone] at hj
      rcases hj with hj | hj <;> cases hj
    rw [hcalls j hjk] at hj
    obtain ⟨hp, -⟩ := h.flight j id' hj
    refine ⟨hj, ?_⟩
    have hne : slotOf id' ≠ slotOf id := by
      intro heq
      have hsame : s.recordOf id' = s.recordOf id := by rw [recordOf, heq, recordOf]
      have hid : id' = id := by rw [← hp.1, hsame, hpending.1]
      exact hjk (h.unique j k id (hid ▸ hj) (.inr hk))
    rw [recordOf, hslot _ hne]
    exact hp.2
  · intro j id' hj
    by_cases hjk : j = k
    · rw [hjk, hdone] at hj
      cases hj
    · rw [hcalls j hjk] at hj
      exact hj
  · intro id' hin
    by_cases hid : id' = id
    · subst hid
      refine .inr ⟨h.marked k id' hk, fun hp => ?_⟩
      have hone := hp.2
      rw [recordOf, hset] at hone
      cases hone
    · obtain ⟨j, hj⟩ := hin
      refine .inl ⟨j, ?_⟩
      have hjk : j ≠ k := by
        intro hjk
        rw [hjk, hk] at hj
        rcases hj with hj | hj <;> cases hj
        exact hid rfl
      rw [hcalls j hjk]
      exact hj
  · intro j id' hj
    by_cases hjk : j = k
    · rw [hjk, hdone] at hj
      rcases hj with hj | ⟨t, hj⟩ <;> cases hj
    · rw [hcalls j hjk] at hj
      exact h.waits j id' hj
  · exact fun id' r => hmember _ not_false
  · exact fun id' => hmember _ not_false
  · exact fun id' => hmember _ not_false
  · exact fun id' hc => .inl ((hmember (.cancelled id') not_false).mp hc)

theorem cancel (hpos : 0 < id) (hpending : s.Pending id) (hop : ¬ s.InFlight id) :
    ({ s.setStatus id 2 with history := s.history ++ [.cancelled id] } : TimerState).TimersInv ∧
      ∀ id', s.Stopped id' →
        ({ s.setStatus id 2 with history := s.history ++ [.cancelled id] } : TimerState).Stopped id' := by
  have hfresh := h.fresh hpending hop
  have hslot : ∀ i, i ≠ slotOf id → (s.setStatus id 2).timers i = s.timers i := fun i hi => update_of_ne hi _ _
  have hset : (s.setStatus id 2).timers (slotOf id) = { s.recordOf id with status := 2 } := update_self _ _ _
  have hmember : ∀ a, a ∈ s.history ++ [.cancelled id] ↔ a ∈ s.history ∨ a = .cancelled id := fun a => by
    rw [List.mem_append, List.mem_singleton]
  apply h.setStatuses
  · intro i
    by_cases hi : i = slotOf id
    · subst hi
      rw [hset]
      exact ⟨rfl, rfl⟩
    · rw [hslot i hi]
      exact ⟨rfl, rfl⟩
  · intro i
    by_cases hi : i = slotOf id
    · subst hi
      refine .inr ⟨hpending.2, .inr ⟨congrArg TimerRecord.status hset, ?_⟩⟩
      rw [← recordOf, hpending.1]
      exact hfresh
    · exact .inl (congrArg TimerRecord.status (hslot i hi))
  · rfl
  · intro j id' hj
    refine ⟨hj, ?_⟩
    obtain ⟨hp, -⟩ := h.flight j id' hj
    have hne : slotOf id' ≠ slotOf id := by
      intro heq
      have hsame : s.recordOf id' = s.recordOf id := by rw [recordOf, heq, recordOf]
      have hid : id' = id := by rw [← hp.1, hsame, hpending.1]
      exact hop ⟨j, hid ▸ hj⟩
    exact (congrArg TimerRecord.status (hslot _ hne)).trans hp.2
  · exact fun _ _ hj => hj
  · exact fun _ hin => .inl hin
  · exact h.waits
  · exact fun id' r => (hmember _).trans (or_iff_left nofun)
  · exact fun id' => (hmember _).trans (or_iff_left nofun)
  · exact fun id' => (hmember _).trans (or_iff_left nofun)
  · intro id' hc
    rcases (hmember _).mp hc with hc | heq
    · exact .inl hc
    · cases heq
      refine .inr ⟨(h.created_of_pending hpos hpending).1, fun hb => ?_, fun hp => ?_⟩
      · exact hfresh (((hmember _).mp hb).resolve_right nofun)
      · have htwo := hp.2
        change ((s.setStatus id 2).timers (slotOf id)).status = 0 at htwo
        rw [hset] at htwo
        cases htwo

theorem cancelRegion (hk : s.calls k = .none)
    (hop : ∀ id, s.Pending id → (s.recordOf id).regionId = region → ¬ s.InFlight id) :
    ((s.cancelTimersInRegion region).act k (.register region) (.regionCancelled region)).TimersInv ∧
      (∀ id, s.Stopped id →
        ((s.cancelTimersInRegion region).act k (.register region) (.regionCancelled region)).Stopped id) ∧
      ∀ id, .created id region ∈ s.history → .ended id ∉ s.history →
        ((s.cancelTimersInRegion region).act k (.register region) (.regionCancelled region)).Stopped id := by
  generalize hs' : (s.cancelTimersInRegion region).act k (.register region) (.regionCancelled region) = s'
  have htimers : ∀ i, s'.timers i = s.timers i ∨ ((s.timers i).timerId ≠ 0 ∧ (s.timers i).regionId = region ∧
      (s.timers i).status = 0 ∧ s'.timers i = { s.timers i with status := 2 }) := by
    intro i
    subst hs'
    show (if _ then _ else _ : TimerRecord) = _ ∨ _ ∧ _ ∧ _ ∧ (if _ then _ else _ : TimerRecord) = _
    split
    next hc => exact .inr ⟨hc.2.2.1, hc.2.2.2.1, hc.2.2.2.2, rfl⟩
    next => exact .inl rfl
  have hpast : ∀ id, 0 < id → s'.Pending id → s.Pending id ∧ (s.recordOf id).regionId ≠ region := by
    intro id hpos hp
    subst hs'
    have hp' : (if _ then _ else _ : TimerRecord).timerId = id ∧ (if _ then _ else _ : TimerRecord).status = 0 := hp
    split at hp'
    next => exact absurd (show (2 : Int) = 0 from hp'.2) (by decide)
    next hc =>
      refine ⟨hp', fun hregion => hc ⟨Int.emod_nonneg _ (by decide), Int.emod_lt_of_pos _ (by decide), ?_, hregion, hp'.2⟩⟩
      rw [hp'.1]
      exact hpos.ne'
  have hfreshAt : ∀ i, (s.timers i).timerId ≠ 0 → (s.timers i).regionId = region → (s.timers i).status = 0 →
      .began (s.timers i).timerId ∉ s.history := by
    intro i hid hregion hzero
    obtain ⟨hslot, -, -, -⟩ := h.slots i hid
    have hrecord : s.recordOf (s.timers i).timerId = s.timers i := by rw [recordOf, hslot]
    have hp : s.Pending (s.timers i).timerId := ⟨by rw [hrecord], by rw [hrecord]; exact hzero⟩
    exact h.fresh hp (hop _ hp (by rw [hrecord]; exact hregion))
  have hcounter : s'.timerCounter = s.timerCounter := by
    subst hs'
    rfl
  have hcalls : ∀ j, s'.calls j = if j = k then .register region else s.calls j := by
    intro j
    subst hs'
    exact Function.update_apply _ _ _ _
  have hflight : ∀ j id, s'.calls j = .callback id ∨ s'.calls j = .mark id ↔
      s.calls j = .callback id ∨ s.calls j = .mark id := by
    intro j id
    rw [hcalls]
    split
    next hj => simp [hj, hk]
    next => exact Iff.rfl
  have hmember : ∀ a, ¬ a.Quiet → (a ∈ s'.history ↔ a ∈ s.history) := by
    intro a ha
    subst hs'
    exact mem_snoc ha trivial
  have hbegan : ∀ id, .began id ∈ s'.history ↔ .began id ∈ s.history := fun id => hmember _ not_false
  have hset := h.setStatuses
    (fun i => by
      rcases htimers i with heq | ⟨-, -, -, heq⟩
      · rw [heq]
        exact ⟨rfl, rfl⟩
      · rw [heq]
        exact ⟨rfl, rfl⟩)
    (fun i => by
      rcases htimers i with heq | ⟨hid, hregion, hzero, heq⟩
      · exact .inl (by rw [heq])
      · exact .inr ⟨hzero, .inr ⟨by rw [heq], hfreshAt i hid hregion hzero⟩⟩)
    hcounter
    (fun j id hj => by
      rw [hflight] at hj
      refine ⟨hj, ?_⟩
      obtain ⟨hp, hpos, -⟩ := h.flight j id hj
      rcases htimers (slotOf id) with heq | ⟨-, hregion, -, -⟩
      · rw [recordOf, heq]
        exact hp.2
      · exact absurd ⟨j, hj⟩ (hop id hp hregion))
    (fun j id hj => by
      rw [hcalls] at hj
      split at hj
      next => cases hj
      next => exact hj)
    (fun id hin => by
      obtain ⟨j, hj⟩ := hin
      exact .inl ⟨j, (hflight j id).mpr hj⟩)
    (fun j id hj => by
      rw [hcalls] at hj
      split at hj
      next => rcases hj with hj | ⟨t, hj⟩ <;> cases hj
      next => exact h.waits j id hj)
    (fun id r => hmember _ not_false) hbegan (fun id => hmember _ not_false)
    (fun id hc => .inl ((hmember (.cancelled id) not_false).mp hc))
  refine ⟨hset.1, hset.2, fun id hcreated hended => ⟨?_, ?_, ?_⟩⟩
  · rw [hcounter]
    exact (h.created id region hcreated).2
  · rw [hbegan]
    intro hb
    rcases h.began id hb with ⟨j, hj⟩ | ⟨he, -⟩
    · obtain ⟨hp, hpos, -⟩ := h.flight j id hj
      have hregion := h.region id _ _ (h.created_of_pending hpos hp).2 hcreated
      exact hop id hp hregion ⟨j, hj⟩
    · exact hended he
  · intro hp
    have hpos := (h.created id region hcreated).1
    obtain ⟨hp', hne⟩ := hpast id hpos hp
    exact hne (h.region id _ _ (h.created_of_pending hpos hp').2 hcreated)

end

end TimersInv

/-! ## Runs of a cancelled region -/

theorem RunsInv.step (h : s.RunsInv) (hcalls : s'.calls = Function.update s.calls k c)
    (hregions : ∀ r ∈ s.cancelledRegions, r ∈ s'.cancelledRegions) (hregister : ∀ r, c = .register r → r ≠ 0)
    (hruns : ∀ r, (s.calls k).Runs r → c.Runs r)
    (hlate : ∀ r, r ≠ 0 → r ∈ s.cancelledRegions → (s.calls k).Unchecked r → c.Unchecked r)
    (hhistory : s'.history = s.history ∨ ∃ a, s'.history = s.history ++ [a] ∧
      (∀ r, a = .cancelReturned r → r ≠ 0 ∧ r ∈ s'.cancelledRegions) ∧
      ∀ j r, a = .runStarted j r → j = k ∧ c.Unchecked r) : s'.RunsInv := by
  have hplace : ∀ j, j = k ∧ s'.calls j = c ∨ s'.calls j = s.calls j := by
    intro j
    rw [hcalls]
    by_cases hj : j = k
    · exact .inl ⟨hj, hj ▸ update_self _ _ _⟩
    · exact .inr (update_of_ne hj _ _)
  have hruns' : ∀ j r, .runStarted j r ∈ s.history → (s'.calls j).Runs r := by
    intro j r hj
    rcases hplace j with ⟨rfl, hc⟩ | hc
    · rw [hc]
      exact hruns r (h.runs j r hj)
    · rw [hc]
      exact h.runs j r hj
  have hlate' : Justified (fun pre a => ∀ j r, a = .runStarted j r → .cancelReturned r ∈ pre →
      (s'.calls j).Unchecked r) s.history := by
    intro pre a post heq j r ha hpre
    have hold := h.late pre a post heq j r ha hpre
    rcases hplace j with ⟨rfl, hc⟩ | hc
    · have hin : .cancelReturned r ∈ s.history := heq ▸ List.mem_append_left _ hpre
      obtain ⟨hne, hin⟩ := h.listed r hin
      rw [hc]
      exact hlate r hne hin hold
    · rw [hc]
      exact hold
  have hregisters : ∀ j r, s'.calls j = .register r → r ≠ 0 := by
    intro j r hj
    rcases hplace j with ⟨-, hc⟩ | hc
    · exact hregister r (hc.symm.trans hj)
    · exact h.registers j r (hc.symm.trans hj)
  rcases hhistory with heq | ⟨a, heq, hcancel, hstart⟩
  · refine ⟨hregisters, fun r hr => ?_, fun j r hj => hruns' j r (heq ▸ hj), heq ▸ hlate'⟩
    rw [heq] at hr
    obtain ⟨hne, hin⟩ := h.listed r hr
    exact ⟨hne, hregions r hin⟩
  · refine ⟨hregisters, fun r hr => ?_, fun j r hj => ?_, ?_⟩
    · rw [heq, List.mem_append, List.mem_singleton] at hr
      rcases hr with hr | hr
      · obtain ⟨hne, hin⟩ := h.listed r hr
        exact ⟨hne, hregions r hin⟩
      · exact hcancel r hr.symm
    · rw [heq, List.mem_append, List.mem_singleton] at hj
      rcases hj with hj | hj
      · exact hruns' j r hj
      · obtain ⟨rfl, hc⟩ := hstart j r hj.symm
        rw [hcalls, update_self]
        exact .inl hc
    · rw [heq]
      refine hlate'.snoc fun j r ha _ => ?_
      obtain ⟨rfl, hc⟩ := hstart j r ha
      rw [hcalls, update_self]
      exact hc

theorem RunsInv.other (h : s.RunsInv) (hcalls : s'.calls = Function.update s.calls k c)
    (hregions : s'.cancelledRegions = s.cancelledRegions) (hregister : ∀ r, c = .register r → r ≠ 0)
    (hno : ∀ r, ¬ (s.calls k).Runs r)
    (hhistory : s'.history = s.history ∨ ∃ a, s'.history = s.history ++ [a] ∧ (∀ r, a ≠ .cancelReturned r) ∧
      ∀ j r, a ≠ .runStarted j r) : s'.RunsInv := by
  apply h.step hcalls (hregions ▸ fun _ hr => hr) hregister
  · exact fun r hr => absurd hr (hno r)
  · exact fun r _ _ hr => absurd (.inl hr) (hno r)
  · rcases hhistory with heq | ⟨a, heq, hcancel, hstart⟩
    · exact .inl heq
    · exact .inr ⟨a, heq, fun r ha => absurd ha (hcancel r), fun j r ha => absurd ha (hstart j r)⟩

theorem RunsInv.same (h : s.RunsInv) (hcalls : s'.calls = s.calls)
    (hregions : s'.cancelledRegions = s.cancelledRegions)
    (hhistory : ∃ a, s'.history = s.history ++ [a] ∧ (∀ r, a ≠ .cancelReturned r) ∧ ∀ j r, a ≠ .runStarted j r) :
    s'.RunsInv := by
  obtain ⟨a, heq, hcancel, hstart⟩ := hhistory
  apply h.step (k := 0) (c := s.calls 0)
  · rw [hcalls, Function.update_eq_self]
  · exact hregions ▸ fun _ hr => hr
  · exact fun r hr => h.registers 0 r hr
  · exact fun r hr => hr
  · exact fun r _ _ hr => hr
  · exact .inr ⟨a, heq, fun r ha => absurd ha (hcancel r), fun j r ha => absurd ha (hstart j r)⟩

end TimerState

end Datara.Runtime
