import Datara.Library.Runs
import Mathlib.Algebra.Group.Int.Defs

/-!
# The parallel loops

`datara_rt_parallel_for` of `runtime/datara_parallel.c`, whose chunks the caller and the pool's workers claim
from process-wide variables, and `datara_parallel_for` of `runtime/datara_thread.c`, which creates a thread for
each chunk. Loads, stores and fetch-and-adds of threads interleave; a body that runs may call either function
again. A function pointer and a context are known by the call that passed them. The pool has been started and
serves only these loops.
-/

namespace Datara.Runtime

open Library

/-- An `int64_t` that got the value `x`. -/
def int64 (x : Int) : Int := (x + 2 ^ 63) % 2 ^ 64 - 2 ^ 63

inductive ParThread
  | user (n : Nat)
  /-- Runs `datara_worker_proc`. -/
  | worker (w : Nat)
  /-- Runs `parallel_chunk_worker`. -/
  | spawned (k : Nat)
  deriving DecidableEq, Repr

/-- What is to be done: `g_par_end`, `g_par_chunk`, `g_par_fn`, `g_par_ctx`, or a thread's copies. -/
structure ParWork where
  stop : Int := 0
  chunk : Int := 1
  fn : Option Nat := none
  ctx : Option Nat := none
  deriving DecidableEq, Repr

inductive ParVar
  | stop | chunk | fn | ctx
  deriving DecidableEq, Repr

/-- One variable gets the value that it has in `source`. -/
def ParWork.copy (source : ParWork) (work : ParWork) : ParVar → ParWork
  | .stop => { work with stop := source.stop }
  | .chunk => { work with chunk := source.chunk }
  | .fn => { work with fn := source.fn }
  | .ctx => { work with ctx := source.ctx }

/-- The process-wide variables. -/
structure ParGlobals where
  cur : Int := 0
  work : ParWork := {}
  deriving DecidableEq, Repr

/-- A store to `g_par_cur`, or to one of the others. -/
def ParGlobals.store (start : Int) (work : ParWork) (g : ParGlobals) : Option ParVar → ParGlobals
  | none => { g with cur := start }
  | some x => { g with work := work.copy g.work x }

/-- `for (int64_t i = next; i < stop; i++) fn(i, ctx);`, and the index whose body runs. -/
structure ParRange where
  next : Int
  stop : Int
  running : Option Int := none
  deriving DecidableEq, Repr

/-- Where a thread is in `datara_rt_run_dynamic_loop`. -/
inductive ParLoop
  | load (work : ParWork) (todo : List ParVar)
  | claim (work : ParWork)
  | each (work : ParWork) (r : ParRange)
  | left
  deriving DecidableEq, Repr

/-- Where a call is. -/
inductive ParFrame
  /-- In the sequential loop of either function. -/
  | each (r : ParRange)
  /-- `datara_rt_parallel_for` describes the work. -/
  | store (start : Int) (work : ParWork) (numW : Nat) (todo : List (Option ParVar))
  | wake (w numW : Nat)
  | share (numW : Nat) (l : ParLoop)
  | await (w numW : Nat)
  /-- `datara_parallel_for` creates its threads. -/
  | split (stop chunkSize : Int) (numCores i : Nat) (cur : Int) (first : ParRange) (threads : List Nat)
  | first (r : ParRange) (threads : List Nat)
  | join (threads : List Nat)
  deriving DecidableEq, Repr

/-- What happened. -/
inductive ParAct
  | called (c : Nat) (start stop : Int)
  /-- The function that one call passed is called with the context that one passed. -/
  | began (fn ctx : Option Nat) (i : Int)
  | ended (fn ctx : Option Nat) (i : Int)
  | returned (c : Nat)
  deriving DecidableEq, Repr

/-- What happens next. -/
inductive ParEvent
  /-- `datara_rt_parallel_for` is called. -/
  | callRt (th : ParThread) (start stop : Int64)
  /-- `datara_parallel_for` is called, on so many processors. -/
  | callSpawning (th : ParThread) (start stop : Int64) (processors : Int)
  /-- The body that the thread runs returns. -/
  | finish (th : ParThread)
  /-- The thread takes its next step, which is not the creation of a thread. -/
  | next (th : ParThread)
  /-- It creates a thread, or fails to. -/
  | create (th : ParThread) (ok : Bool)
  deriving DecidableEq

/-- The variables, where the threads are, and what happened. -/
structure ParState where
  globals : ParGlobals := {}
  ready : Nat → Bool := fun _ => false
  done : Nat → Bool := fun _ => false
  /-- `tls_in_parallel_region`. -/
  region : ParThread → Bool := fun _ => false
  /-- The calls that a thread is in, the innermost first. -/
  stack : ParThread → List Nat := fun _ => []
  frames : Nat → Option ParFrame := fun _ => none
  /-- The pool's workers that are not waiting. -/
  helpers : Nat → Option ParLoop := fun _ => none
  /-- The created threads that have not ended, with the call and the chunk of each. -/
  pieces : Nat → Option (Nat × ParRange) := fun _ => none
  calls : Nat := 0
  created : Nat := 0
  acts : List ParAct := []

/-! ## One thread's part -/

namespace ParRange

/-- Nothing runs, and nothing is left. -/
def spent (r : ParRange) : Bool := r.running.isNone && r.stop ≤ r.next

/-- The body of the next index is called. -/
def begin (fn ctx : Option Nat) (r : ParRange) : Option (ParAct × ParRange) :=
  if r.running = none ∧ r.next < r.stop then
    some (.began fn ctx r.next, { r with next := r.next + 1, running := some r.next })
  else none

def finish (fn ctx : Option Nat) (r : ParRange) : Option (ParAct × ParRange) :=
  r.running.map fun i => (.ended fn ctx i, { r with running := none })

end ParRange

namespace ParLoop

/-- `datara_rt_run_dynamic_loop` is entered. -/
def enter : ParLoop := .load {} [.chunk, .stop, .fn, .ctx]

def finish : ParLoop → Option (ParAct × ParLoop)
  | .each work r => (r.finish work.fn work.ctx).map fun p => (p.1, .each work p.2)
  | _ => none

/-- The next step, which no body and no return is. -/
def next (g : ParGlobals) : ParLoop → Option (ParGlobals × List ParAct × ParLoop)
  | .load work (x :: todo) => some (g, [], .load (g.work.copy work x) todo)
  | .load work [] => some (g, [], if work.fn = none then .left else .claim work)
  | .claim work =>
    let myEnd := int64 (g.cur + work.chunk)
    some ({ g with cur := int64 (g.cur + work.chunk) }, [],
      if work.stop ≤ g.cur then .left
      else .each work { next := g.cur, stop := if work.stop < myEnd then work.stop else myEnd })
  | .each work r =>
    if r.spent then some (g, [], .claim work)
    else (r.begin work.fn work.ctx).map fun p => (g, [p.1], .each work p.2)
  | .left => none

end ParLoop

def ParFrame.finish (c : Nat) : ParFrame → Option (ParAct × ParFrame)
  | .each r => (r.finish (some c) (some c)).map fun p => (p.1, .each p.2)
  | .share numW l => l.finish.map fun p => (p.1, .share numW p.2)
  | .first r threads => (r.finish (some c) (some c)).map fun p => (p.1, .first p.2 threads)
  | _ => none

namespace ParState

def setFrame (c : Nat) (f : ParFrame) (s : ParState) : ParState :=
  { s with frames := Function.update s.frames c (some f) }

def record (acts : List ParAct) (s : ParState) : ParState := { s with acts := s.acts ++ acts }

/-- A call begins, on top of the others of its thread. -/
def push (th : ParThread) (f : ParFrame) (s : ParState) : ParState :=
  { s with
    stack := Function.update s.stack th (s.calls :: s.stack th)
    frames := Function.update s.frames s.calls (some f)
    calls := s.calls + 1 }

/-- A call returns. -/
def pop (th : ParThread) (c : Nat) (s : ParState) : ParState :=
  { s with
    stack := Function.update s.stack th (s.stack th).tail
    frames := Function.update s.frames c none
    acts := s.acts ++ [.returned c] }

/-- The user's code runs on a thread: the program's, or the body of an index. -/
def userRuns (th : ParThread) (s : ParState) : Bool :=
  match s.stack th with
  | c :: _ => ((s.frames c).bind (·.finish c)).isSome
  | [] =>
    match th with
    | .user _ => true
    | .worker w => ((s.helpers w).bind ParLoop.finish).isSome
    | .spawned k => ((s.pieces k).bind fun p => p.2.finish (some p.1) (some p.1)).isSome

/-- The thread's body returns. -/
def finish (th : ParThread) (s : ParState) : Option ParState :=
  match s.stack th with
  | c :: _ => ((s.frames c).bind (·.finish c)).map fun p => (s.setFrame c p.2).record [p.1]
  | [] =>
    match th with
    | .user _ => none
    | .worker w => ((s.helpers w).bind ParLoop.finish).map fun p =>
        { s with helpers := Function.update s.helpers w (some p.2) }.record [p.1]
    | .spawned k => (s.pieces k).bind fun q => (q.2.finish (some q.1) (some q.1)).map fun p =>
        { s with pieces := Function.update s.pieces k (some (q.1, p.2)) }.record [p.1]

/-- `num_w`: at most one worker for each index. -/
def numWorkers (workers : Nat) (total : Int) : Nat := if total < workers then total.toNat else workers

/-- `chunk`. -/
def chunkOf (numW : Nat) (total : Int) : Int :=
  let chunk := total.tdiv (numW * 4)
  let chunk := if chunk < 1 then 1 else chunk
  if 2048 < chunk then 2048 else chunk

/-- `datara_rt_parallel_for` goes parallel. -/
def GoesParallel (workers : Nat) (th : ParThread) (start stop : Int) (s : ParState) : Prop :=
  s.region th = false ∧ 1 < workers ∧ 1 < int64 (stop - start)

instance (workers : Nat) (th : ParThread) (start stop : Int) (s : ParState) :
    Decidable (GoesParallel workers th start stop s) :=
  inferInstanceAs (Decidable (s.region th = false ∧ 1 < workers ∧ 1 < int64 (stop - start)))

/-- The beginning of `datara_rt_parallel_for`. -/
def callRt (workers : Nat) (th : ParThread) (start stop : Int) (s : ParState) : ParState :=
  let c := s.calls
  let s := s.record [.called c start stop]
  if stop ≤ start then { s with calls := c + 1 }.record [.returned c]
  else if GoesParallel workers th start stop s then
    let total := int64 (stop - start)
    let numW := numWorkers workers total
    let work := { stop := stop, chunk := chunkOf numW total, fn := some c, ctx := some c }
    { s with region := Function.update s.region th true }.push th
      (.store start work numW [none, some .stop, some .chunk, some .fn, some .ctx])
  else s.push th (.each { next := start, stop := stop })

/-- `num_cores`. -/
def numCores (processors : Int) : Nat := (if 32 < processors then 32 else if processors < 1 then 1 else processors).toNat

/-- `datara_parallel_for` creates threads. -/
def Splits (start stop : Int) : Prop := 128 < int64 (stop - start)

instance (start stop : Int) : Decidable (Splits start stop) :=
  inferInstanceAs (Decidable (128 < int64 (stop - start)))

/-- `chunk_size`. -/
def chunkSize (cores : Nat) (total : Int) : Int := (int64 (total + cores - 1)).tdiv cores

/-- The beginning of `datara_parallel_for`. -/
def callSpawning (th : ParThread) (start stop processors : Int) (s : ParState) : ParState :=
  let c := s.calls
  let s := s.record [.called c start stop]
  if stop ≤ start then { s with calls := c + 1 }.record [.returned c]
  else if Splits start stop then
    let cores := numCores processors
    s.push th (.split stop (chunkSize cores (int64 (stop - start))) cores 0 start
      { next := start, stop := start } [])
  else s.push th (.each { next := start, stop := stop })

/-- A step of a call on top of its thread's. -/
def nextFrame (th : ParThread) (c : Nat) (s : ParState) : ParFrame → Option ParState
  | .each r =>
    if r.spent then some (s.pop th c)
    else (r.begin (some c) (some c)).map fun p => (s.setFrame c (.each p.2)).record [p.1]
  | .store start work numW (x :: todo) =>
    some ({ s with globals := s.globals.store start work x }.setFrame c (.store start work numW todo))
  | .store _ _ numW [] => some (s.setFrame c (.wake 1 numW))
  | .wake w numW =>
    if w < numW then
      some ({ s with ready := Function.update s.ready w true, done := Function.update s.done w false }.setFrame c
        (.wake (w + 1) numW))
    else some (s.setFrame c (.share numW .enter))
  | .share numW .left => some (s.setFrame c (.await 1 numW))
  | .share numW l => (l.next s.globals).map fun p =>
      ({ s with globals := p.1 }.setFrame c (.share numW p.2.2)).record p.2.1
  | .await w numW =>
    if w < numW then if s.done w then some (s.setFrame c (.await (w + 1) numW)) else none
    else some ({ s with region := Function.update s.region th false }.pop th c)
  | .split stop chunkSize cores i cur first threads =>
    if i < cores ∧ cur < stop then
      if i = 0 then
        let next := int64 (cur + chunkSize)
        let next := if stop < next then stop else next
        some (s.setFrame c (.split stop chunkSize cores (i + 1) next { next := cur, stop := next } threads))
      else none
    else some (s.setFrame c (.first first threads))
  | .first r threads =>
    if r.spent then some (s.setFrame c (.join threads))
    else (r.begin (some c) (some c)).map fun p => (s.setFrame c (.first p.2 threads)).record [p.1]
  | .join (k :: threads) => if s.pieces k = none then some (s.setFrame c (.join threads)) else none
  | .join [] => some (s.pop th c)

/-- A step of `datara_worker_proc`. -/
def nextWorker (w : Nat) (s : ParState) : Option ParState :=
  match s.helpers w with
  | none =>
    if s.ready w then
      some { s with ready := Function.update s.ready w false, helpers := Function.update s.helpers w (some .enter) }
    else none
  | some .left =>
    some { s with helpers := Function.update s.helpers w none, done := Function.update s.done w true }
  | some l => (l.next s.globals).map fun p =>
      { s with globals := p.1, helpers := Function.update s.helpers w (some p.2.2) }.record p.2.1

/-- A step of `parallel_chunk_worker` on a created thread. -/
def nextPiece (k : Nat) (s : ParState) : Option ParState :=
  (s.pieces k).bind fun q =>
    if q.2.spent then some { s with pieces := Function.update s.pieces k none }
    else (q.2.begin (some q.1) (some q.1)).map fun p =>
      { s with pieces := Function.update s.pieces k (some (q.1, p.2)) }.record [p.1]

def next (th : ParThread) (s : ParState) : Option ParState :=
  match s.stack th with
  | c :: _ => (s.frames c).bind (s.nextFrame th c)
  | [] =>
    match th with
    | .user _ => none
    | .worker w => s.nextWorker w
    | .spawned k => s.nextPiece k

/-- `datara_thread_spawn` in the loop of `datara_parallel_for`. -/
def createFrame (c : Nat) (ok : Bool) (s : ParState) : ParFrame → Option ParState
  | .split stop chunkSize cores i cur first threads =>
    if i < cores ∧ cur < stop ∧ i ≠ 0 then
      let next := int64 (cur + chunkSize)
      let next := if stop < next then stop else next
      if ok then
        let piece := (c, { next := cur, stop := next })
        some ({ s with pieces := Function.update s.pieces s.created (some piece), created := s.created + 1 }.setFrame c
          (.split stop chunkSize cores (i + 1) next first (threads ++ [s.created])))
      -- `break`, with the remaining items left
      else some (s.setFrame c (.first first threads))
    else none
  | _ => none

def create (th : ParThread) (ok : Bool) (s : ParState) : Option ParState :=
  match s.stack th with
  | c :: _ => (s.frames c).bind (s.createFrame c ok)
  | [] => none

/-- A step, where it is possible, with a pool of so many workers, the caller among them. -/
def step (workers : Nat) (e : ParEvent) (s : ParState) : Option ParState :=
  match e with
  | .callRt th start stop =>
    if s.userRuns th then some (s.callRt workers th start.toInt stop.toInt) else none
  | .callSpawning th start stop processors =>
    if s.userRuns th then some (s.callSpawning th start.toInt stop.toInt processors) else none
  | .finish th => s.finish th
  | .next th => s.next th
  | .create th ok => s.create th ok

/-- **Every index exactly once**: no function runs twice for an index, each with the context and in the range of
the call that passed it, and a call that has returned has had all of its own. -/
structure ExactlyOnce (acts : List ParAct) : Prop where
  once : ∀ fn ctx i, acts.count (.began fn ctx i) ≤ 1
  own : ∀ fn ctx i, .began fn ctx i ∈ acts →
    ∃ c start stop, fn = some c ∧ ctx = some c ∧ .called c start stop ∈ acts ∧ start ≤ i ∧ i < stop
  all : ∀ c start stop, .called c start stop ∈ acts → .returned c ∈ acts → ∀ i, start ≤ i → i < stop →
    .began (some c) (some c) i ∈ acts ∧ .ended (some c) (some c) i ∈ acts

/-- What a chunk begins with that `n` fetches beyond the range may see. -/
def lastFetch (start stop chunk : Int) (n : Nat) : Int := start + ((stop - start + chunk - 1) / chunk + n) * chunk

/-- The condition on a step: a call goes parallel only while no thread is in a parallel region, no thread's
creation fails, and no position overflows. -/
def Apart (workers : Nat) (e : ParEvent) (s : ParState) : Prop :=
  match e with
  | .callRt th start stop =>
    let total := stop.toInt - start.toInt
    let numW := numWorkers workers total
    GoesParallel workers th start.toInt stop.toInt s → (∀ u, s.region u = false) ∧
      lastFetch start.toInt stop.toInt (chunkOf numW total) (numW - 1) < 2 ^ 63
  | .callSpawning _ start stop processors =>
    let total := stop.toInt - start.toInt
    let cores := numCores processors
    Splits start.toInt stop.toInt → total + cores - 1 < 2 ^ 63 ∧
      lastFetch start.toInt stop.toInt (chunkSize cores total) 0 < 2 ^ 63
  | .create _ ok => ok = true
  | _ => True

end ParState

end Datara.Runtime
