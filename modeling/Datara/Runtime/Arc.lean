import Datara.Library.Runs
import Mathlib.Algebra.Order.BigOperators.Group.Finset

/-!
# Atomic reference counts

The header of an `@arc` object and the operations of `runtime/datara_guard.c` on it. A step of a thread is
one atomic access to the header, one call of the allocator, or what lies between two of them. References
and weak handles are counted by the thread that owns them; a thread may hand one to another.
-/

namespace Datara.Runtime

open Library

/-- Where a thread is in an operation on the object. -/
inductive ArcPc
  | idle
  /-- `datara_rt_arc_acquire` with `prev`. -/
  | acquire (prev : Int)
  /-- `datara_rt_arc_release` with `prev`. -/
  | release (prev : Int)
  /-- It has brought the strong count to zero, and is to read the weak count. -/
  | releaseCheck
  /-- `datara_rt_weak_create`, which has counted its handle. -/
  | create
  /-- It got no memory for the handle. -/
  | createUndo
  /-- `datara_rt_weak_upgrade` with `prev`. -/
  | upgrade (prev : Int)
  /-- `datara_rt_weak_drop`, which has freed the handle. -/
  | drop
  /-- It has brought the weak count to zero, and is to read the strong count. -/
  | dropCheck
  /-- It is to free the allocation. -/
  | free
  /-- In `datara_rt_arc_use_after_free`. -/
  | aborted
  deriving DecidableEq, Repr

/-- A thread, with the references and the weak handles it owns. -/
structure ArcThread where
  pc : ArcPc := .idle
  strong : Nat := 0
  weak : Nat := 0
  deriving DecidableEq, Repr

/-- An object: the two counts of its header, and its threads. -/
structure Arc (Tid : Type) where
  strong : Int
  weak : Int
  threads : Tid → ArcThread
  /-- The counts at each free of the allocation. -/
  frees : List (Int × Int) := []
  /-- The header has been accessed after a free. -/
  late : Bool := false

/-- An operation of a thread. -/
inductive ArcOp
  | acquire
  | release
  | weakCreate
  | weakUpgrade
  | weakDrop
  deriving DecidableEq, Repr

/-- What happens next: a thread begins an operation, goes on with the one it is in (`malloc` gives memory
or does not), or hands a reference or a weak handle to another thread. -/
inductive ArcEvent (Tid : Type)
  | start (t : Tid) (op : ArcOp)
  | next (t : Tid) (malloc : Bool)
  | giveStrong (t u : Tid)
  | giveWeak (t u : Tid)

namespace Arc

variable {Tid : Type} [DecidableEq Tid]

def setThread (t : Tid) (th : ArcThread) (s : Arc Tid) : Arc Tid :=
  { s with threads := Function.update s.threads t th }

/-- An access to the header. -/
def touch (s : Arc Tid) : Arc Tid := { s with late := s.late || !s.frees.isEmpty }

/-- `datara_rt_arc_init`, called by the thread that allocates the object. -/
def init (t : Tid) : Arc Tid :=
  { strong := 1, weak := 0, threads := Function.update (fun _ => {}) t { strong := 1 } }

/-- A thread begins an operation on a reference or a weak handle of its own. -/
def start (t : Tid) (op : ArcOp) (s : Arc Tid) : Option (Arc Tid) :=
  let th := s.threads t
  if th.pc ≠ .idle then none
  else
    match op with
    | .acquire =>
      if th.strong = 0 then none
      else some (s.touch.setThread t { th with pc := .acquire s.strong })
    | .release =>
      if th.strong = 0 then none
      else some (s.touch.setThread t { th with pc := .release s.strong })
    | .weakCreate =>
      if th.strong = 0 then none
      else some ({ s.touch with weak := s.weak + 1 }.setThread t { th with pc := .create })
    | .weakUpgrade =>
      if th.weak = 0 then none
      else some (s.touch.setThread t { th with pc := .upgrade s.strong })
    | .weakDrop =>
      if th.weak = 0 then none
      else some (s.setThread t { th with pc := .drop, weak := th.weak - 1 })

/-- A thread goes on. -/
def next (t : Tid) (malloc : Bool) (s : Arc Tid) : Option (Arc Tid) :=
  let th := s.threads t
  match th.pc with
  | .idle | .aborted => none
  | .acquire prev =>
    if prev ≤ 0 then some (s.setThread t { th with pc := .aborted })
    else if s.strong = prev then
      some ({ s.touch with strong := prev + 1 }.setThread t
        { th with pc := .idle, strong := th.strong + 1 })
    else some (s.touch.setThread t { th with pc := .acquire s.strong })
  | .release prev =>
    if prev ≤ 0 then some (s.setThread t { th with pc := .aborted })
    else if s.strong = prev then
      some ({ s.touch with strong := prev - 1 }.setThread t
        { th with pc := if prev - 1 = 0 then .releaseCheck else .idle, strong := th.strong - 1 })
    else some (s.touch.setThread t { th with pc := .release s.strong })
  | .releaseCheck =>
    some (s.touch.setThread t { th with pc := if s.weak = 0 then .free else .idle })
  | .create =>
    if malloc then some (s.setThread t { th with pc := .idle, weak := th.weak + 1 })
    else some (s.setThread t { th with pc := .createUndo })
  | .createUndo => some ({ s.touch with weak := s.weak - 1 }.setThread t { th with pc := .idle })
  | .upgrade prev =>
    if prev ≤ 0 then some (s.setThread t { th with pc := .idle })
    else if s.strong = prev then
      some ({ s.touch with strong := prev + 1 }.setThread t
        { th with pc := .idle, strong := th.strong + 1 })
    else some (s.touch.setThread t { th with pc := .upgrade s.strong })
  | .drop =>
    some ({ s.touch with weak := s.weak - 1 }.setThread t
      { th with pc := if s.weak - 1 = 0 then .dropCheck else .idle })
  | .dropCheck =>
    some (s.touch.setThread t { th with pc := if s.strong = 0 then .free else .idle })
  | .free =>
    some ({ s with frees := s.frees ++ [(s.strong, s.weak)] }.setThread t { th with pc := .idle })

/-- A thread that is in no operation hands a reference of its own over. -/
def giveStrong (t u : Tid) (s : Arc Tid) : Option (Arc Tid) :=
  let th := s.threads t
  if th.pc ≠ .idle ∨ th.strong = 0 then none
  else
    let s := s.setThread t { th with strong := th.strong - 1 }
    some (s.setThread u { s.threads u with strong := (s.threads u).strong + 1 })

def giveWeak (t u : Tid) (s : Arc Tid) : Option (Arc Tid) :=
  let th := s.threads t
  if th.pc ≠ .idle ∨ th.weak = 0 then none
  else
    let s := s.setThread t { th with weak := th.weak - 1 }
    some (s.setThread u { s.threads u with weak := (s.threads u).weak + 1 })

def step (e : ArcEvent Tid) (s : Arc Tid) : Option (Arc Tid) :=
  match e with
  | .start t op => s.start t op
  | .next t malloc => s.next t malloc
  | .giveStrong t u => s.giveStrong t u
  | .giveWeak t u => s.giveWeak t u

/-- Where a run leads. -/
def run (es : List (ArcEvent Tid)) (s : Arc Tid) : Option (Arc Tid) := runEvents step es s

/-- No thread is in an operation, or owns a reference or a weak handle. -/
def Dropped (s : Arc Tid) : Prop :=
  ∀ t, (s.threads t).pc = .idle ∧ (s.threads t).strong = 0 ∧ (s.threads t).weak = 0

/-- **The allocation is freed once, and not early.** -/
structure Managed (s : Arc Tid) : Prop where
  once : s.frees.length ≤ 1
  dead : ∀ counts ∈ s.frees, counts = (0, 0)
  late : s.late = false
  last : s.Dropped → s.frees.length = 1

end Arc

end Datara.Runtime
