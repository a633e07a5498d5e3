import Datara.Library.Places
import Datara.Library.Runs
import Mathlib.Algebra.Group.Int.Defs

/-!
# Fibers on several threads

`runtime/datara_natvar_mt.c`. A step of a thread is a critical section, or one access to a variable that the
threads share outside of one. A fiber's body may make the calls that any thread may; what it computes is left
out, and so are the counters that only the reporting calls read.
-/

namespace Datara.Natvar

open Library

/-- `MT_MAX_WORKERS`. -/
def mtMaxWorkers : Int := 64

/-- `MT_DONE_CAP`. -/
def mtDoneCap : Nat := 1048576

/-- `MtFiber`, and which block of memory it is. -/
structure MtFiber where
  block : Nat
  handle : Int
  fn : Int
  arg : Int
  deriving DecidableEq, Repr

/-- Where a thread is in a call. -/
inductive MtCall
  | none
  /-- `datara_rt_fiber_mt_spawn`: reads `g_mt_workers`. -/
  | spawn (fn arg : Int)
  /-- Allocates the fiber and reads `g_mt_spawned`. -/
  | spawnLoad (fn arg : Int)
  /-- Writes `g_mt_spawned`, which it has read. -/
  | spawnStore (fn arg spawned : Int)
  | spawnPush (f : MtFiber)
  /-- `datara_rt_fiber_mt_join`: scans the registry. -/
  | join (handle : Int)
  /-- Reads `g_mt_done_count`. -/
  | joinCount (handle : Int)
  /-- Compares it with `g_mt_spawned`. -/
  | joinCompare (handle doneCount : Int)
  /-- Compares `g_mt_spawned` with 0. -/
  | joinAny (handle : Int)
  /-- `datara_rt_fiber_mt_wait_idle`: reads `g_mt_done_count`. -/
  | waitIdle
  | idleAny (done : Int)
  | idleCompare (done : Int)
  | idleNone
  /-- `datara_rt_fiber_mt_start`: reads `g_mt_workers`. -/
  | start (nWorkers : Int)
  /-- Initialises the global queue, and then those of the workers. -/
  | startQueue (nWorkers i : Nat)
  | startRegistry (nWorkers : Nat)
  | startAlloc (nWorkers : Nat)
  | startFlag (nWorkers : Nat)
  | startWorkers (nWorkers : Nat)
  | startThreads (nWorkers i : Nat)
  /-- `datara_rt_fiber_mt_shutdown`. -/
  | shutdown
  | shutdownWorkers
  deriving DecidableEq, Repr

/-- Where a worker is in `mt_worker_main`, with its `wid`. -/
inductive MtWorker
  /-- The thread is no worker. -/
  | none
  | top (wid : Nat)
  | localQ (wid : Nat)
  | globalQ (wid : Nat)
  | steal (wid v : Nat)
  | stealFrom (wid v : Nat)
  /-- Has taken a fiber. -/
  | got (wid : Nat) (f : MtFiber)
  /-- In the fiber's body. -/
  | running (wid : Nat) (f : MtFiber)
  /-- The body has returned. -/
  | recording (wid : Nat) (f : MtFiber)
  | gone
  /-- Divided by `g_mt_workers` when it was 0. -/
  | crashed
  deriving DecidableEq, Repr

/-- What happened. -/
inductive MtAct
  /-- The fiber got its handle, which `spawn` returns. -/
  | spawned (f : MtFiber)
  /-- Its body was called. -/
  | ran (f : MtFiber)
  | finished (f : MtFiber)
  /-- The worker is through with it. -/
  | recorded (f : MtFiber)
  /-- `join` returned 0. -/
  | joined (handle : Int)
  /-- `join` returned -1. -/
  | unknown (handle : Int)
  /-- `wait_idle` returned. -/
  | idle
  deriving DecidableEq, Repr

/-- What happens next. -/
inductive MtEvent (Tid : Type)
  | spawn (th : Tid) (fn arg : Int)
  | join (th : Tid) (handle : Int)
  | waitIdle (th : Tid)
  | start (th : Tid) (nWorkers : Int)
  | shutdown (th : Tid)
  /-- The next step of a call. -/
  | next (th : Tid)
  /-- There is no memory, or no thread, for the next step. -/
  | fail (th : Tid)
  /-- A worker's thread is created. -/
  | create (th new : Tid)
  /-- The next step of a worker. -/
  | work (th : Tid)

/-- The globals, the threads, and what happened. -/
structure MtState (Tid : Type) where
  globalQ : List MtFiber := []
  workerQ : Nat → List MtFiber := fun _ => []
  workers : Nat := 0
  spawned : Int := 0
  shutdown : Bool := false
  /-- The first `g_mt_done_count` of `g_mt_done_handles`. -/
  doneHandles : Option (List Int) := none
  blocks : Nat := 0
  calls : Tid → MtCall := fun _ => .none
  roles : Tid → MtWorker := fun _ => .none
  history : List MtAct := []

namespace MtState

variable {Tid : Type} [DecidableEq Tid]

/-- `g_mt_done_count`. -/
def doneCount (s : MtState Tid) : Int := (s.doneHandles.getD []).length

def goto (th : Tid) (c : MtCall) (s : MtState Tid) : MtState Tid :=
  { s with calls := Function.update s.calls th c }

/-- A call returns. -/
def done (th : Tid) (a : MtAct) (s : MtState Tid) : MtState Tid :=
  { s with calls := Function.update s.calls th .none, history := s.history ++ [a] }

def role (th : Tid) (w : MtWorker) (s : MtState Tid) : MtState Tid :=
  { s with roles := Function.update s.roles th w }

/-- A worker's step with a fiber. -/
def act (th : Tid) (w : MtWorker) (a : MtAct) (s : MtState Tid) : MtState Tid :=
  { s with roles := Function.update s.roles th w, history := s.history ++ [a] }

/-- `++g_mt_spawned`, in 64 bits. -/
def succSpawned (n : Int) : Int := if n = 2 ^ 63 - 1 then -2 ^ 63 else n + 1

/-- The number of workers that `datara_rt_fiber_mt_start` starts. -/
def clampWorkers (n : Int) : Nat := (min (if n ≤ 0 then 1 else n) mtMaxWorkers).toNat

/-- The next step of a call. -/
def nextCall (th : Tid) (s : MtState Tid) : MtCall → Option (MtState Tid)
  | .none => none
  | .spawn fn arg => some (s.goto th (if s.workers = 0 then .none else .spawnLoad fn arg))
  | .spawnLoad fn arg => some (s.goto th (.spawnStore fn arg s.spawned))
  | .spawnStore fn arg n =>
    let f : MtFiber := { block := s.blocks, handle := succSpawned n, fn := fn, arg := arg }
    some { s with
      spawned := succSpawned n, blocks := s.blocks + 1, calls := Function.update s.calls th (.spawnPush f)
      history := s.history ++ [.spawned f] }
  | .spawnPush f => some ({ s with globalQ := s.globalQ ++ [f] }.goto th .none)
  | .join handle =>
    some (if handle ∈ s.doneHandles.getD [] then s.done th (.joined handle) else s.goto th (.joinCount handle))
  | .joinCount handle => some (s.goto th (.joinCompare handle s.doneCount))
  | .joinCompare handle doneCount =>
    some (s.goto th (if s.spawned ≤ doneCount then .joinAny handle else .join handle))
  | .joinAny handle => some (if 0 < s.spawned then s.done th (.unknown handle) else s.goto th (.join handle))
  | .waitIdle => some (s.goto th (.idleAny s.doneCount))
  | .idleAny done => some (s.goto th (if 0 < s.spawned then .idleCompare done else .idleNone))
  | .idleCompare done => some (if s.spawned ≤ done then s.done th .idle else s.goto th .idleNone)
  | .idleNone => some (if s.spawned = 0 then s.done th .idle else s.goto th .waitIdle)
  | .start n => some (s.goto th (if s.workers ≠ 0 then .none else .startQueue (clampWorkers n) 0))
  | .startQueue n 0 => some ({ s with globalQ := [] }.goto th (.startQueue n 1))
  | .startQueue n (i + 1) =>
    some (if i < n then { s with workerQ := Function.update s.workerQ i [] }.goto th (.startQueue n (i + 2))
      else s.goto th (.startRegistry n))
  | .startRegistry n => some (s.goto th (if s.doneHandles.isSome then .startFlag n else .startAlloc n))
  | .startAlloc n => some ({ s with doneHandles := some [] }.goto th (.startFlag n))
  | .startFlag n => some ({ s with shutdown := false }.goto th (.startWorkers n))
  | .startWorkers n => some ({ s with workers := n }.goto th (.startThreads n 0))
  | .startThreads n i => if i < n then none else some (s.goto th .none)
  | .shutdown => some ({ s with shutdown := true }.goto th .shutdownWorkers)
  | .shutdownWorkers => some ({ s with workers := 0 }.goto th .none)

/-- The next step of a call that finds no memory or no thread. -/
def failCall (th : Tid) (s : MtState Tid) : MtCall → Option (MtState Tid)
  | .spawnLoad _ _ => some (s.goto th .none)
  | .startAlloc n => some ({ s with doneHandles := none }.goto th (.startFlag n))
  | .startThreads n i => if i < n then some (s.goto th (.startThreads n (i + 1))) else none
  | _ => none

/-- A worker's fiber is entered in the registry, if there is one with room. -/
def record (f : MtFiber) (s : MtState Tid) : Option (List Int) :=
  s.doneHandles.map fun l => if l.length < mtDoneCap then l ++ [f.handle] else l

/-- The next step of a worker. -/
def nextWork (th : Tid) (s : MtState Tid) : MtWorker → Option (MtState Tid)
  | .none => none
  | .top wid => some (s.role th (if s.shutdown then .gone else .localQ wid))
  | .localQ wid =>
    match s.workerQ wid with
    | [] => some (s.role th (.globalQ wid))
    | f :: q => some ({ s with workerQ := Function.update s.workerQ wid q }.role th (.got wid f))
  | .globalQ wid =>
    match s.globalQ with
    | [] => some (s.role th (.steal wid 1))
    | f :: q => some ({ s with globalQ := q }.role th (.got wid f))
  | .steal wid v => some (s.role th (if v < s.workers then .stealFrom wid v else .top wid))
  | .stealFrom wid v =>
    if s.workers = 0 then some (s.role th .crashed)
    else
      match s.workerQ ((wid + v) % s.workers) with
      | [] => some (s.role th (.steal wid (v + 1)))
      | f :: q =>
        some ({ s with workerQ := Function.update s.workerQ ((wid + v) % s.workers) q }.role th (.got wid f))
  | .got wid f => some (s.act th (.running wid f) (.ran f))
  | .running wid f => if s.calls th = .none then some (s.act th (.recording wid f) (.finished f)) else none
  | .recording wid f => some ({ s with doneHandles := s.record f }.act th (.top wid) (.recorded f))
  | .gone => none
  | .crashed => none

/-- The thread is no worker, or runs a fiber's body. -/
def runsCode : MtWorker → Bool
  | .none => true
  | .running _ _ => true
  | _ => false

/-- The thread may call. -/
def Calls (th : Tid) (s : MtState Tid) : Prop := s.calls th = .none ∧ runsCode (s.roles th) = true

instance (th : Tid) (s : MtState Tid) : Decidable (s.Calls th) := inferInstanceAs (Decidable (_ ∧ _))

/-- A step, where it is possible. -/
def step (e : MtEvent Tid) (s : MtState Tid) : Option (MtState Tid) :=
  match e with
  | .spawn th fn arg => if s.Calls th then some (s.goto th (.spawn fn arg)) else none
  | .join th handle => if s.Calls th then some (s.goto th (.join handle)) else none
  | .waitIdle th => if s.Calls th then some (s.goto th .waitIdle) else none
  | .start th n => if s.Calls th then some (s.goto th (.start n)) else none
  | .shutdown th => if s.Calls th then some (s.goto th .shutdown) else none
  | .next th => s.nextCall th (s.calls th)
  | .fail th => s.failCall th (s.calls th)
  | .create th new =>
    match s.calls th with
    | .startThreads n i =>
      if i < n ∧ s.calls new = .none ∧ s.roles new = .none then
        some ((s.role new (.top i)).goto th (.startThreads n (i + 1)))
      else none
    | _ => none
  | .work th => s.nextWork th (s.roles th)

end MtState

/-- The fiber of a `spawned` entry, and of a `ran` entry. -/
def MtAct.spawnedFiber : MtAct → Option MtFiber
  | .spawned f => some f
  | _ => none

def MtAct.ranFiber : MtAct → Option MtFiber
  | .ran f => some f
  | _ => none

/-- What a return means. -/
def MtAct.Truthful (pre : List MtAct) : MtAct → Prop
  | .joined handle => ∃ f, .finished f ∈ pre ∧ f.handle = handle
  | .unknown handle => ∀ f, .spawned f ∈ pre → f.handle ≠ handle
  | .idle => ∀ f, .spawned f ∈ pre → .finished f ∈ pre
  | _ => True

/-- **Joins tell the truth**, and no fiber is run twice or lost. -/
structure MtState.TellsTruth {Tid : Type} (s : MtState Tid) : Prop where
  once : (s.history.filterMap MtAct.ranFiber).Nodup
  handles : ((s.history.filterMap MtAct.spawnedFiber).map MtFiber.handle).Nodup
  truthful : Justified MtAct.Truthful s.history
  kept : ∀ f, .spawned f ∈ s.history → .ran f ∈ s.history ∨ f ∈ s.globalQ ∨
    (∃ th, s.calls th = .spawnPush f) ∨ ∃ th wid, s.roles th = .got wid f

end Datara.Natvar
