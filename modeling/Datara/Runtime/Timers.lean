import Datara.Library.Runs
import Datara.Runtime.Schedule
import Mathlib.Algebra.Group.Int.Defs

/-!
# Timers and cancelled regions

The timers of `runtime/datara_rt_scheduler.c`, the registry of cancelled regions, and `datara_rt_schedule_run` where it
asks whether its region is cancelled. A step is a critical section, or what a call does between two of them. Every call
is its own party; that one made from a callback returns before the callback does is not needed. What a timer's callback
is does not matter, and a timer without one is as one whose callback does nothing.
-/

namespace Datara.Runtime

open Library

/-- `DataraTimerRecord`. -/
structure TimerRecord where
  timerId : Int := 0
  fireTimeMs : Int := 0
  delayMs : Int := 0
  regionId : Int := 0
  /-- 0 is pending, 1 completed, 2 cancelled. -/
  status : Int := 0

/-- Where a call is. -/
inductive TimerCall
  | none
  | wait (id : Int)
  /-- `datara_rt_timer_wait` has read the record and looks at the clock. -/
  | waitTime (id fireTime : Int)
  | callback (id : Int)
  /-- The callback has returned. -/
  | mark (id : Int)
  /-- `datara_rt_schedule_cancel` has cancelled the timers of the region. -/
  | register (region : Int)
  /-- `datara_rt_schedule_run` with the waves, or tasks, it has to run. -/
  | run (region : Int) (waves : List (List Nat))
  | runLoop (region : Int) (waves : List (List Nat))
  | runWave (region : Int) (wave : List Nat) (waves : List (List Nat))
  | done

/-- What happened. -/
inductive TimerAct
  | created (id region : Int)
  | began (id : Int)
  | ended (id : Int)
  /-- `datara_rt_timer_wait` returned. -/
  | returned (id result : Int)
  /-- `datara_rt_timer_cancel` returned 1. -/
  | cancelled (id : Int)
  | regionCancelled (region : Int)
  /-- `datara_rt_schedule_cancel` returned. -/
  | cancelReturned (region : Int)
  | runStarted (call : Nat) (region : Int)
  | executed (call : Nat) (tasks : List Nat)
  deriving DecidableEq

/-- What happens next. -/
inductive TimerEvent
  | create (delayMs region now : Int)
  | wait (call : Nat) (id : Int)
  | cancel (id : Int)
  | scheduleCancel (call : Nat) (region : Int)
  | scheduleRun (call : Nat) (nodes : List TaskNode) (region : Int)
  /-- The next step of a call, with the time of the clock. -/
  | next (call : Nat) (now : Int)

/-- The globals, the calls, and what happened. -/
structure TimerState where
  timers : Int → TimerRecord := fun _ => {}
  timerCounter : Int := 0
  cancelledRegions : List Int := []
  calls : Nat → TimerCall := fun _ => .none
  history : List TimerAct := []

namespace TimerState

/-- `MAX_CONCURRENT_TIMERS`. -/
def maxConcurrentTimers : Int := 4096

/-- `MAX_CANCELLED_REGIONS`. -/
def maxCancelledRegions : Nat := 512

def slotOf (id : Int) : Int := id % maxConcurrentTimers

/-- The record of a timer's slot, which may be another's. -/
def recordOf (s : TimerState) (id : Int) : TimerRecord := s.timers (slotOf id)

def goto (k : Nat) (c : TimerCall) (s : TimerState) : TimerState :=
  { s with calls := Function.update s.calls k c }

def act (k : Nat) (c : TimerCall) (a : TimerAct) (s : TimerState) : TimerState :=
  { s with calls := Function.update s.calls k c, history := s.history ++ [a] }

def setStatus (id status : Int) (s : TimerState) : TimerState :=
  { s with timers := Function.update s.timers (slotOf id) { s.recordOf id with status } }

/-- The slot has the timer, and it is pending. -/
def Pending (s : TimerState) (id : Int) : Prop := (s.recordOf id).timerId = id ∧ (s.recordOf id).status = 0

instance (s : TimerState) (id : Int) : Decidable (s.Pending id) := inferInstanceAs (Decidable (_ ∧ _))

/-- `cancel_timers_in_region`. -/
def cancelTimersInRegion (region : Int) (s : TimerState) : TimerState :=
  { s with
    timers := fun i =>
      if 0 ≤ i ∧ i < maxConcurrentTimers ∧ (s.timers i).timerId ≠ 0 ∧ (s.timers i).regionId = region ∧
          (s.timers i).status = 0 then
        { s.timers i with status := 2 }
      else s.timers i }

/-- `is_region_cancelled`. -/
def isRegionCancelled (region : Int) (s : TimerState) : Bool := region ≠ 0 && s.cancelledRegions.contains region

/-- The next step of a call. -/
def nextCall (k : Nat) (now : Int) (s : TimerState) : TimerCall → Option TimerState
  | .none => none
  | .wait id =>
    some (if (s.recordOf id).timerId = id then
        if (s.recordOf id).status ≠ 0 then s.act k .done (.returned id (s.recordOf id).status)
        else s.goto k (.waitTime id (s.recordOf id).fireTimeMs)
      else s.act k .done (.returned id 2))
  | .waitTime id fireTime => some (if now ≥ fireTime then s.act k (.callback id) (.began id) else s.goto k (.wait id))
  | .callback id => some (s.act k (.mark id) (.ended id))
  | .mark id => some ((if s.Pending id then s.setStatus id 1 else s).act k .done (.returned id 1))
  | .register region =>
    some ({ s with
      cancelledRegions :=
        if s.cancelledRegions.length < maxCancelledRegions then s.cancelledRegions ++ [region]
        else s.cancelledRegions }.act k .done (.cancelReturned region))
  | .run region waves => some (s.goto k (if s.isRegionCancelled region then .done else .runLoop region waves))
  | .runLoop _ [] => some (s.goto k .done)
  | .runLoop region (wave :: waves) =>
    some (s.goto k (if s.isRegionCancelled region then .done else .runWave region wave waves))
  | .runWave region wave waves => some (s.act k (.runLoop region waves) (.executed k wave))
  | .done => none

/-- A step, where it is possible. A call is made once; `++g_timer_counter` has no result past the largest number. -/
def step (e : TimerEvent) (s : TimerState) : Option TimerState :=
  match e with
  | .create delayMs region now =>
    if s.timerCounter < 2 ^ 63 - 1 then
      let id := s.timerCounter + 1
      some { s with
        timerCounter := id
        timers := Function.update s.timers (slotOf id)
          { timerId := id, fireTimeMs := now + delayMs, delayMs, regionId := region, status := 0 }
        history := s.history ++ [.created id region] }
    else none
  | .wait k id =>
    match s.calls k with
    | .none => some (if id ≤ 0 then s.act k .done (.returned id 0) else s.goto k (.wait id))
    | _ => none
  | .cancel id =>
    some (if 0 < id ∧ s.Pending id then
        { s.setStatus id 2 with history := s.history ++ [.cancelled id] }
      else s)
  | .scheduleCancel k region =>
    match s.calls k with
    | .none =>
      some (if region = 0 then s.act k .done (.cancelReturned region)
        else (s.cancelTimersInRegion region).act k (.register region) (.regionCancelled region))
    | _ => none
  | .scheduleRun k nodes region =>
    match s.calls k with
    | .none =>
      some (if nodes = [] then s.goto k .done
        else s.act k (.run region ((Schedule.scheduleRun nodes).elim [] (·.waves))) (.runStarted k region))
    | _ => none
  | .next k now => s.nextCall k now (s.calls k)

/-- A call has begun a timer's callback, and has not marked the timer yet. -/
def InFlight (s : TimerState) (id : Int) : Prop := ∃ k, s.calls k = .callback id ∨ s.calls k = .mark id

/-- What a step has to meet: a wait finds its timer's slot not used again; a callback begins while its timer is pending
in its slot and no call is between its beginning and the mark; what cancels a pending timer, or uses its slot again,
finds no such call; a region is not 0, which stands for none, and the registry has room for it. -/
def Admits : TimerEvent → TimerState → Prop
  | .create _ _ _, s => ¬ s.InFlight (s.recordOf (s.timerCounter + 1)).timerId
  | .cancel id, s => s.Pending id → ¬ s.InFlight id
  | .scheduleCancel _ region, s =>
    region ≠ 0 ∧ ∀ id, s.Pending id → (s.recordOf id).regionId = region → ¬ s.InFlight id
  | .next k now, s =>
    match s.calls k with
    | .wait id => (s.recordOf id).timerId = id ∨ s.timerCounter < id
    | .waitTime id fireTime => fireTime ≤ now → s.Pending id ∧ ¬ s.InFlight id
    | .register region => s.cancelledRegions.length < maxCancelledRegions ∨ region ∈ s.cancelledRegions
    | _ => True
  | _, _ => True

end TimerState

/-- A timer was not cancelled, and no region was that it had been created in and had not run. -/
def Unstopped (pre : List TimerAct) (id : Int) : Prop :=
  .cancelled id ∉ pre ∧ ∀ region l l', pre = l ++ .regionCancelled region :: l' → .created id region ∈ l → .ended id ∈ l

/-- What is asked of a history: a callback begins once, and neither begins nor ends after a cancellation; a wait
returns 1 when the callback has returned, and only then; and a run begun after its region's cancellation executes
nothing. -/
def TimerAct.Lawful (pre : List TimerAct) : TimerAct → Prop
  | .began id => .began id ∉ pre ∧ Unstopped pre id
  | .ended id => Unstopped pre id
  | .returned id result => result = 1 ↔ .ended id ∈ pre
  | .executed k _ => ∀ region l l', pre = l ++ .runStarted k region :: l' → .cancelReturned region ∉ l
  | _ => True

end Datara.Runtime
