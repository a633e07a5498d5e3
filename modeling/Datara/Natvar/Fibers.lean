import Datara.Library.Placement

/-!
# The fiber runtime

The one-thread scheduler of `runtime/datara_natvar.c`: its table of fibers, its lists, and the calls of
a program. The code between two calls of a fiber is not modelled; a fiber makes any calls in any
order, and so does the main thread while no fiber runs. Clock readings, the outcome of `select` and
`recv`, and the addresses `calloc` returns come with the calls.
-/

namespace Datara.Natvar

open Library

/-- An address `calloc` returned. -/
abbrev Ptr := Nat

/-- `FiberState`. -/
inductive FiberState
  | ready
  | running
  | done
  | sleeping
  | waitingJoin
  | waitingChan
  | waitingIo
  | waitingMutex
  deriving DecidableEq, Repr

/-- The call a fiber is parked in, where there is something left of it to do. -/
inductive Call
  | join (target : Ptr) (handle : Int)
  | recv (chan : Int)
  | lock
  | netRecv (sock timeout : Int)
  deriving DecidableEq, Repr

/-- `Fiber`. -/
structure Fiber where
  handle : Int
  state : FiberState
  wakeMs : Int := 0
  waitOn : Int := 0
  waitFd : Int := 0
  waitDeadline : Int := 0
  wakeResult : Int := 0
  exitCode : Int := 0
  /-- What its stack holds of this file. -/
  call : Option Call := none
  deriving DecidableEq, Repr

/-- `FiberChan`; its `id` is its index plus one. -/
structure FiberChan where
  buf : Int := 0
  hasValue : Bool := false
  deriving DecidableEq, Repr

/-- `FiberMutex`. -/
structure FiberMutex where
  locked : Bool := false
  owner : Int := 0
  waiters : List Ptr := []
  deriving DecidableEq, Repr

def fiberMax : Nat := 262144

def timerMax : Nat := 131072

def chanMax : Nat := 65536

def ioMax : Nat := 256

def mutexMax : Nat := 64

def mutexWaitersMax : Nat := 256

/-- The globals. The two arrays of channel waiters share one count, and keep what was in their cells. -/
structure Runtime where
  heap : Ptr → Option Fiber := fun _ => none
  fibers : List Ptr := []
  nextHandle : Int := 1
  ready : List Ptr := []
  running : Option Ptr := none
  doneCount : Nat := 0
  sleeping : List Ptr := []
  waitingJoin : List Ptr := []
  waitingChanRecv : Nat → Option Ptr := fun _ => none
  waitingChanSend : Nat → Option Ptr := fun _ => none
  waitingChanCount : Nat := 0
  ioWaiters : List Ptr := []
  chans : List FiberChan := []
  mutexes : List FiberMutex := []

/-- What a call returns; a call that parks its fiber, or starts one, does not return yet. -/
inductive Reply
  | unit
  | value (v : Int)
  | outcome (success : Bool) (value msg : String)
  | parked
  | switched
  | again
  deriving DecidableEq, Repr

namespace Runtime

/-- A change of one fiber's record. -/
def setFiber (p : Ptr) (g : Fiber → Fiber) (s : Runtime) : Runtime :=
  { s with heap := Function.update s.heap p ((s.heap p).map g) }

/-- `fiber_by_handle`. -/
def fiberByHandle (h : Int) (s : Runtime) : Option Ptr :=
  s.fibers.find? fun p => (s.heap p).any (·.handle = h)

def isDone (p : Ptr) (s : Runtime) : Bool := (s.heap p).any (·.state = .done)

/-! ## Lists -/

/-- `ready_push`. -/
def readyPush (p : Ptr) (s : Runtime) : Runtime := { s with ready := s.ready ++ [p] }

/-- `ready_pop`. -/
def readyPop (s : Runtime) : Option (Ptr × Runtime) :=
  match s.ready with
  | [] => none
  | p :: rest => some (p, { s with ready := rest })

/-- `f->state = FIB_READY; ready_push(f)`, with what else the waker sets. -/
def wake (g : Fiber → Fiber) (p : Ptr) (s : Runtime) : Runtime :=
  readyPush p (s.setFiber p fun f => { g f with state := .ready })

def wakeAll (g : Fiber → Fiber) (ps : List Ptr) (s : Runtime) : Runtime :=
  ps.foldl (fun s p => s.wake g p) s

/-- `timer_add`: a fiber that finds the list full is not added. -/
def timerAdd (p : Ptr) (s : Runtime) : Runtime :=
  if s.sleeping.length < timerMax then { s with sleeping := s.sleeping ++ [p] } else s

/-- `waiting_join_add`. -/
def waitingJoinAdd (p : Ptr) (s : Runtime) : Runtime :=
  if s.waitingJoin.length < timerMax then { s with waitingJoin := s.waitingJoin ++ [p] } else s

/-- `io_wait_add`. -/
def ioWaitAdd (p : Ptr) (s : Runtime) : Runtime :=
  if s.ioWaiters.length < ioMax then { s with ioWaiters := s.ioWaiters ++ [p] } else s

/-- The wake time of a sleeping fiber. -/
def wakeTime (p : Ptr) (s : Runtime) : Option Int :=
  (s.heap p).bind fun f => if f.state = .sleeping then some f.wakeMs else none

/-- The loop of `timer_pop_due`: the first index with the earliest due time. -/
def scanDue (now : Int) (s : Runtime) : List Ptr → Nat → Option (Nat × Ptr × Int) →
    Option (Nat × Ptr × Int)
  | [], _, due => due
  | p :: rest, i, due =>
    match s.wakeTime p with
    | some w =>
      if w ≤ now ∧ due.all (fun d => w < d.2.2) then scanDue now s rest (i + 1) (some (i, p, w))
      else scanDue now s rest (i + 1) due
    | none => scanDue now s rest (i + 1) due

/-- `timer_pop_due`. -/
def timerPopDue (now : Int) (s : Runtime) : Option (Ptr × Runtime) :=
  (scanDue now s s.sleeping 0 none).map fun d =>
    (d.2.1, { s with sleeping := swapRemove s.sleeping d.1 })

/-- `timer_peek_next_wake() >= 0`. -/
def timerPending (s : Runtime) : Bool :=
  match (s.sleeping.filterMap fun p => s.wakeTime p) with
  | [] => false
  | w :: ws => decide (0 ≤ ws.foldl (fun next w => if next < 0 ∨ w < next then w else next) w)

/-- `f && f->state == FIB_WAITING_CHAN && f->wait_on == chan_id`. -/
def waitsOnChan (chan : Int) (cell : Option Ptr) (s : Runtime) : Bool :=
  (cell.bind s.heap).any fun f => f.state = .waitingChan && f.waitOn = chan

/-- The first cell of a waiter of the channel. -/
def findWaiter (chan : Int) (cells : Nat → Option Ptr) (s : Runtime) : Option Nat :=
  (List.range s.waitingChanCount).find? fun i => s.waitsOnChan chan (cells i)

/-- `wake_recv_of`. -/
def wakeRecvOf (chan : Int) (s : Runtime) : Runtime :=
  match s.findWaiter chan s.waitingChanRecv with
  | none => s
  | some i =>
    let s := (s.waitingChanRecv i).elim s fun p => s.wake id p
    { s with waitingChanRecv :=
               Function.update s.waitingChanRecv i (s.waitingChanRecv (s.waitingChanCount - 1))
             waitingChanCount := s.waitingChanCount - 1 }

/-- `wake_send_of`. -/
def wakeSendOf (chan : Int) (s : Runtime) : Runtime :=
  match s.findWaiter chan s.waitingChanSend with
  | none => s
  | some i =>
    let s := (s.waitingChanSend i).elim s fun p => s.wake id p
    { s with waitingChanSend :=
               Function.update s.waitingChanSend i (s.waitingChanSend (s.waitingChanCount - 1))
             waitingChanCount := s.waitingChanCount - 1 }

/-- The end of a waiter's list of receivers, if there is room. -/
def chanRecvAdd (p : Ptr) (s : Runtime) : Runtime :=
  if s.waitingChanCount < timerMax then
    { s with waitingChanRecv := Function.update s.waitingChanRecv s.waitingChanCount (some p)
             waitingChanCount := s.waitingChanCount + 1 }
  else s

def chanSendAdd (p : Ptr) (s : Runtime) : Runtime :=
  if s.waitingChanCount < timerMax then
    { s with waitingChanSend := Function.update s.waitingChanSend s.waitingChanCount (some p)
             waitingChanCount := s.waitingChanCount + 1 }
  else s

/-- A deadline that has passed; zero is none. -/
def expired (now : Int) (f : Fiber) : Bool := 0 < f.waitDeadline && f.waitDeadline ≤ now

/-- `io_wait_poll_and_wake`: the clock when each waiter is looked at, and which sockets `select` reports
readable, if any. -/
def ioWaitPollAndWake (now : Ptr → Int) (readable : Option (Int → Bool)) (s : Runtime) : Runtime :=
  match readable with
  | none => s
  | some r =>
    let woken : Ptr → Bool := fun p => (s.heap p).any fun f => r f.waitFd || expired (now p) f
    wakeAll id (s.ioWaiters.filter woken) { s with ioWaiters := s.ioWaiters.filter fun p => !woken p }

/-- `mutex_wait_poll_and_wake`: how many were woken. -/
def mutexWaitPollAndWake (now : Ptr → Int) (s : Runtime) : Nat × Runtime :=
  let woken : Ptr → Bool := fun p => (s.heap p).any (expired (now p))
  let ps := s.mutexes.flatMap fun m => m.waiters.filter woken
  (ps.length, wakeAll (fun f => { f with wakeResult := 0 }) ps
    { s with mutexes := s.mutexes.map fun m => { m with waiters := m.waiters.filter fun p => !woken p } })

/-! ## Switching -/

/-- Back to the scheduler. -/
def switchOut (s : Runtime) : Runtime := { s with running := none }

/-- `fiber_switch_to`. -/
def fiberSwitchTo (p : Ptr) (s : Runtime) : Runtime :=
  { s.setFiber p fun f => { f with state := .running } with running := some p }

/-- `fiber_trampoline_entry`, after the body. Nothing calls `wake_waiters_of`. -/
def finish (p : Ptr) (s : Runtime) : Runtime :=
  switchOut { s.setFiber p fun f => { f with state := .done, exitCode := 0 } with doneCount := s.doneCount + 1 }

/-! ## Calls -/

/-- `datara_rt_fiber_spawn`, with the address of the new fiber if it could be allocated. -/
def spawn (addr : Option Ptr) (s : Runtime) : Reply × Runtime :=
  if fiberMax ≤ s.fibers.length then (.value (-1), s)
  else
    match addr with
    | none => (.value (-1), s)
    | some p =>
      (.value s.nextHandle, readyPush p
        { s with heap := Function.update s.heap p (some { handle := s.nextHandle, state := .ready })
                 fibers := s.fibers ++ [p]
                 nextHandle := s.nextHandle + 1 })

/-- `datara_rt_fiber_yield`. -/
def yield (s : Runtime) : Reply × Runtime :=
  match s.running with
  | none => (.unit, s)
  | some p => (.parked, switchOut (s.wake id p))

/-- `datara_rt_fiber_sleep_ms`. -/
def sleepMs (now ms : Int) (s : Runtime) : Reply × Runtime :=
  match s.running with
  | none => (.unit, s)
  | some p =>
    (.parked, switchOut (timerAdd p
      (s.setFiber p fun f => { f with state := .sleeping, wakeMs := now + ms })))

/-- The loop of `datara_rt_fiber_join`. -/
def joinLoop (p target : Ptr) (h : Int) (s : Runtime) : Reply × Runtime :=
  if s.isDone target then
    (.value ((s.heap target).elim 0 (·.exitCode)), s.setFiber p fun f => { f with call := none })
  else
    (.parked, switchOut (waitingJoinAdd p (s.setFiber p fun f =>
      { f with state := .waitingJoin, waitOn := h, call := some (.join target h) })))

/-- `datara_rt_fiber_join`. -/
def join (h : Int) (s : Runtime) : Reply × Runtime :=
  match s.running with
  | none =>
    match (s.fiberByHandle h).bind s.heap with
    | some t => (.value (if t.state = .done then t.exitCode else -1), s)
    | none => (.value (-1), s)
  | some p =>
    match s.fiberByHandle h with
    | none => (.value (-1), s)
    | some target => joinLoop p target h s

/-- `datara_rt_fiber_chan_create`. -/
def chanCreate (s : Runtime) : Reply × Runtime :=
  if chanMax ≤ s.chans.length then (.value (-1), s)
  else (.value (s.chans.length + 1), { s with chans := s.chans ++ [{}] })

/-- `chan_by_id`, its index. -/
def chanById (id : Int) (s : Runtime) : Option Nat :=
  if id < 1 ∨ s.chans.length < id then none else some (id.toNat - 1)

def setChan (i : Nat) (g : FiberChan → FiberChan) (s : Runtime) : Runtime :=
  { s with chans := s.chans.modify i g }

/-- `datara_rt_fiber_chan_send`. -/
def chanSend (id value : Int) (s : Runtime) : Reply × Runtime :=
  match s.chanById id, s.running with
  | some i, some p =>
    let s := wakeRecvOf id (s.setChan i fun _ => { buf := value, hasValue := true })
    if (s.chans[i]?).any (·.hasValue) then
      (.parked, switchOut (chanSendAdd p
        (s.setFiber p fun f => { f with state := .waitingChan, waitOn := id })))
    else (.unit, s)
  | _, _ => (.unit, s)

/-- The scheduler's next fiber. -/
def nextFiber (now : Int) (s : Runtime) : Option (Ptr × Runtime) :=
  match s.readyPop with
  | some next => some next
  | none => s.timerPopDue now

/-- An iteration of `datara_rt_fiber_chan_recv` on a channel: for a fiber, or for the main thread, which
steps the scheduler. -/
def recvLoop (id : Int) (i : Nat) (now : Int) (s : Runtime) : Reply × Runtime :=
  match s.chans[i]? with
  | none => (.value (-1), s)
  | some c =>
    if c.hasValue then
      let s := wakeSendOf id (s.setChan i fun c => { c with hasValue := false })
      (.value c.buf, s.running.elim s fun p => s.setFiber p fun f => { f with call := none })
    else
      match s.running with
      | some p =>
        (.parked, switchOut (chanRecvAdd p
          (s.setFiber p fun f => { f with state := .waitingChan, waitOn := id, call := some (.recv id) })))
      | none =>
        match s.nextFiber now with
        | some (p, s) => (.switched, fiberSwitchTo p s)
        | none => if s.fibers.length ≤ s.doneCount then (.value (-1), s) else (.again, s)

/-- `datara_rt_fiber_chan_recv`. -/
def chanRecv (id now : Int) (s : Runtime) : Reply × Runtime :=
  match s.chanById id with
  | none => (.value (-1), s)
  | some i => recvLoop id i now s

/-- `datara_rt_mutex_new`. -/
def mutexNew (s : Runtime) : Reply × Runtime :=
  if mutexMax ≤ s.mutexes.length then (.value (-1), s)
  else (.value s.mutexes.length, { s with mutexes := s.mutexes ++ [{}] })

/-- The index of a mutex. -/
def mutexById (id : Int) (s : Runtime) : Option Nat :=
  if id < 0 ∨ s.mutexes.length ≤ id then none else some id.toNat

def setMutex (i : Nat) (g : FiberMutex → FiberMutex) (s : Runtime) : Runtime :=
  { s with mutexes := s.mutexes.modify i g }

/-- `datara_rt_mutex_lock`, until it parks. -/
def mutexLock (id now timeout : Int) (s : Runtime) : Reply × Runtime :=
  match (s.mutexById id).bind fun i => (s.mutexes[i]?).map fun m => (i, m) with
  | none => (.outcome false "" "invalid mutex handle", s)
  | some (i, m) =>
    if !m.locked then
      (.outcome true "locked" "", s.setMutex i fun m =>
        { m with locked := true, owner := (s.running.bind s.heap).elim 0 (·.handle) })
    else
      match s.running with
      | none => (.outcome false "" "mutex busy", s)
      | some p =>
        if mutexWaitersMax ≤ m.waiters.length then (.outcome false "" "mutex busy", s)
        else
          (.parked, switchOut ((s.setFiber p fun f =>
            { f with state := .waitingMutex, waitOn := id, wakeResult := -1, call := some .lock
                     waitDeadline := if 0 < timeout then now + timeout else 0 }).setMutex i fun m =>
              { m with waiters := m.waiters ++ [p] }))

/-- What is left of `datara_rt_mutex_lock` when its fiber is resumed. -/
def lockResumed (p : Ptr) (s : Runtime) : Reply × Runtime :=
  (if (s.heap p).any (·.wakeResult = 1) then .outcome true "locked" "" else .outcome false "" "timeout",
    s.setFiber p fun f => { f with call := none })

/-- `datara_rt_mutex_unlock`. -/
def mutexUnlock (id : Int) (s : Runtime) : Reply × Runtime :=
  match (s.mutexById id).bind fun i => (s.mutexes[i]?).map fun m => (i, m) with
  | none => (.unit, s)
  | some (i, m) =>
    match m.waiters with
    | next :: rest =>
      (.unit, (s.setMutex i fun m =>
        { m with waiters := rest, owner := (s.heap next).elim 0 (·.handle) }).wake
          (fun f => { f with wakeResult := 1 }) next)
    | [] => (.unit, s.setMutex i fun m => { m with locked := false, owner := 0 })

/-- An iteration of `datara_rt_fiber_net_recv`: what `recv` returned, if it did not block. -/
def netRecv (sock now timeout : Int) (got : Option Reply) (s : Runtime) : Reply × Runtime :=
  if sock < 0 then (.outcome false "" "invalid socket handle", s)
  else
    match got, s.running with
    | some r, some p => (r, s.setFiber p fun f => { f with call := none })
    | some r, none => (r, s)
    | none, none => (.again, s)
    | none, some p =>
      (.parked, switchOut (ioWaitAdd p (s.setFiber p fun f =>
        { f with state := .waitingIo, waitFd := sock, call := some (.netRecv sock timeout)
                 waitDeadline := if 0 < timeout then now + timeout else 0 })))

/-- `datara_rt_fiber_reset`. -/
def reset (s : Runtime) : Reply × Runtime :=
  (.unit, { s with heap := fun _ => none, fibers := [], nextHandle := 1, ready := [], running := none
                   ioWaiters := [], doneCount := 0, sleeping := [], waitingJoin := [], waitingChanCount := 0
                   chans := [] })

/-! ## The scheduler -/

/-- The first part of a pass: a sleeper that is due is made ready. -/
def promote (now : Int) (s : Runtime) : Runtime :=
  match s.timerPopDue now with
  | some (p, s) => s.wake id p
  | none => s

/-- A pass of `datara_rt_fiber_run_until_done`, which starts a fiber, goes on or returns. The clock it
keeps (`last_now`) and the clock when each waiter is looked at are readings of its own. -/
def pass (lastNow : Int) (now : Ptr → Int) (readable : Option (Int → Bool)) (s : Runtime) :
    Reply × Runtime :=
  if s.fibers.length = 0 then (.value 0, s)
  else
    let s := s.promote lastNow
    match s.nextFiber lastNow with
    | some (p, s) => (.switched, fiberSwitchTo p s)
    | none =>
      if s.fibers.length ≤ s.doneCount then (.value s.doneCount, s)
      else if s.ioWaiters.length ≠ 0 then (.again, s.ioWaitPollAndWake now readable)
      else
        let polled := s.mutexWaitPollAndWake now
        if s.mutexes.length ≠ 0 ∧ 0 < polled.1 then (.again, polled.2)
        else if s.timerPending then (.again, s)
        else (.value s.doneCount, s)

/-! ## Runs -/

/-- What happens next: a call of the running fiber or of the main thread, the rest of a call, the end of
a fiber's body, or a pass of the scheduler. -/
inductive Event
  | spawn (addr : Option Ptr)
  | yield
  | sleep (now ms : Int)
  | join (h : Int)
  | chanCreate
  | send (id value : Int)
  | recv (id now : Int)
  | mutexNew
  | lock (id now timeout : Int)
  | unlock (id : Int)
  | netRecv (sock now timeout : Int) (got : Option Reply)
  | resume (now : Int) (got : Option Reply)
  | finish
  | reset
  | pass (lastNow : Int) (now : Ptr → Int) (readable : Option (Int → Bool))

/-- What is left of a call when its fiber is resumed. -/
def resume (p : Ptr) (call : Call) (now : Int) (got : Option Reply) (s : Runtime) : Reply × Runtime :=
  match call with
  | .join target h => joinLoop p target h s
  | .recv id => chanRecv id now s
  | .lock => lockResumed p s
  | .netRecv sock timeout => netRecv sock now timeout got s

/-- The call the running fiber is in. -/
def currentCall (s : Runtime) : Option Call := (s.running.bind s.heap).bind (·.call)

/-- A step, where it is possible: calls are made by a fiber that is in none, and only the fiber that runs
can be resumed or end. -/
def step (e : Event) (s : Runtime) : Option (Reply × Runtime) :=
  match e, s.running, s.currentCall with
  | .resume now got, some p, some call => some (s.resume p call now got)
  | .finish, some p, none => some (.unit, s.finish p)
  | .pass lastNow now readable, none, _ => some (s.pass lastNow now readable)
  | .spawn addr, _, none => if addr.any (fun p => (s.heap p).isSome) then none else some (s.spawn addr)
  | .yield, _, none => some s.yield
  | .sleep now ms, _, none => some (s.sleepMs now ms)
  | .join h, _, none => some (s.join h)
  | .chanCreate, _, none => some s.chanCreate
  | .send id value, _, none => some (s.chanSend id value)
  | .recv id now, _, none => some (s.chanRecv id now)
  | .mutexNew, _, none => some s.mutexNew
  | .lock id now timeout, _, none => some (s.mutexLock id now timeout)
  | .unlock id, _, none => some (s.mutexUnlock id)
  | .netRecv sock now timeout got, _, none => some (s.netRecv sock now timeout got)
  | .reset, _, none => some s.reset
  | _, _, _ => none

/-- Where a run leads. -/
def run : List Event → Runtime → Option Runtime
  | [], s => some s
  | e :: es, s => (s.step e).bind fun r => run es r.2

end Runtime

end Datara.Natvar
