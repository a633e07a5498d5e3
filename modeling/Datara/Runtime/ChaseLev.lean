import Datara.Library.Ring
import Datara.Library.Runs

/-!
# The work-stealing deque

`runtime/scheduler/chase_lev.rs`: one owner pushes and pops, any number of threads steal. A step is one
access to `top`, to `bottom` or to a slot of the buffer; what an operation only computes from what it has
loaded is in the step of the load. The two indices do not overflow: that takes 2^63 pushes.
-/

namespace Datara.Runtime

open Library

/-- Where the owner is. -/
inductive OwnerPc (α : Type)
  | idle
  /-- `push`, which has loaded `bottom`. -/
  | push (task : α) (b : Int)
  /-- `push`, to write its slot. -/
  | pushWrite (task : α) (b : Int)
  /-- `push`, to store `bottom`. -/
  | pushStore (task : α) (b : Int)
  /-- `pop`, which has loaded `bottom`; `b` is one less. -/
  | pop (b : Int)
  /-- `pop`, to load `top`. -/
  | popTop (b : Int)
  /-- The queue was already empty; to store `bottom`. -/
  | popEmpty (t : Int)
  /-- More than one item remains; to read the slot. -/
  | popRead (b : Int)
  /-- Exactly one item remains; to read the slot. -/
  | popLast (b t : Int)
  /-- To compete for it. -/
  | popRace (t : Int) (task : Option α)
  /-- To store `bottom` and return. -/
  | popSet (t : Int) (result : Option α)
  deriving DecidableEq, Repr

/-- Where a stealing thread is. -/
inductive StealPc (α : Type)
  | idle
  /-- It has loaded `top`. -/
  | top (t : Int)
  /-- To read the slot. -/
  | read (t : Int)
  /-- To compete for the item. -/
  | race (t : Int) (item : α)
  deriving DecidableEq, Repr

/-- What an operation comes to, in the order in which the operations take effect. -/
inductive DequeAct (α : Type)
  | pushed (task : α)
  /-- `Err("Deque capacity saturated")`. -/
  | saturated (task : α)
  | popped (task : α)
  | popNone
  | stolen (task : α)
  /-- `Steal::Empty`. -/
  | stealEmpty
  /-- `Steal::Abort`. -/
  | stealAbort
  deriving DecidableEq, Repr

/-- The task a `push` took in. -/
def DequeAct.accepted : DequeAct α → Option α
  | .pushed task => some task
  | _ => none

/-- The task a `pop` or a `steal` returned. -/
def DequeAct.returned : DequeAct α → Option α
  | .popped task | .stolen task => some task
  | _ => none

/-- `ChaseLevDeque`, with its threads. -/
structure Deque (α Tid : Type) where
  capacity : Nat
  top : Int := 0
  bottom : Int := 0
  buffer : Nat → Option α := fun _ => none
  owner : OwnerPc α := .idle
  stealers : Tid → StealPc α := fun _ => .idle
  history : List (DequeAct α) := []

/-- What happens next: the owner begins an operation or goes on with it, or a thread goes on stealing. -/
inductive DequeEvent (α Tid : Type)
  | push (task : α)
  | pop
  | owner
  | steal (t : Tid)

namespace Deque

variable {α Tid : Type} [DecidableEq Tid]

/-- The slot of an index, under the mask. -/
def slot (s : Deque α Tid) (index : Int) : Nat := (index % 2 ^ 64).toNat &&& (s.capacity - 1)

def read (s : Deque α Tid) (index : Int) : Option α := s.buffer (s.slot index)

def write (index : Int) (value : Option α) (s : Deque α Tid) : Deque α Tid :=
  { s with buffer := Function.update s.buffer (s.slot index) value }

/-- An operation takes effect. -/
def log (a : DequeAct α) (s : Deque α Tid) : Deque α Tid := { s with history := s.history ++ [a] }

def setStealer (t : Tid) (pc : StealPc α) (s : Deque α Tid) : Deque α Tid :=
  { s with stealers := Function.update s.stealers t pc }

/-- What `pop` returns. -/
def popAct : Option α → DequeAct α
  | some task => .popped task
  | none => .popNone

/-- The owner goes on. -/
def ownerStep (s : Deque α Tid) : Option (Deque α Tid) :=
  match s.owner with
  | .idle => none
  | .push task b =>
    if (s.capacity : Int) ≤ b - s.top then some { s.log (.saturated task) with owner := .idle }
    else some { s with owner := .pushWrite task b }
  | .pushWrite task b => some { s.write b (some task) with owner := .pushStore task b }
  | .pushStore task b => some { s.log (.pushed task) with bottom := b + 1, owner := .idle }
  | .pop b => some { s with bottom := b, owner := .popTop b }
  | .popTop b =>
    if b < s.top then some { s.log .popNone with owner := .popEmpty s.top }
    else if s.top < b then some { s with owner := .popRead b }
    else some { s with owner := .popLast b s.top }
  | .popEmpty t => some { s with bottom := t, owner := .idle }
  | .popRead b => some { s.log (popAct (s.read b)) with owner := .idle }
  | .popLast b t => some { s with owner := .popRace t (s.read b) }
  | .popRace t task =>
    if s.top = t then some { s.log (popAct task) with top := t + 1, owner := .popSet t task }
    else some { s.log .popNone with owner := .popSet t none }
  | .popSet t _ => some { s with bottom := t + 1, owner := .idle }

/-- A thread goes on with `steal`. -/
def stealStep (th : Tid) (s : Deque α Tid) : Deque α Tid :=
  match s.stealers th with
  | .idle => s.setStealer th (.top s.top)
  | .top t =>
    if s.bottom ≤ t then (s.log .stealEmpty).setStealer th .idle
    else s.setStealer th (.read t)
  | .read t =>
    match s.read t with
    | some item => s.setStealer th (.race t item)
    | none => (s.log .stealEmpty).setStealer th .idle
  | .race t item =>
    if s.top = t then { s.log (.stolen item) with top := t + 1 }.setStealer th .idle
    else (s.log .stealAbort).setStealer th .idle

def step (e : DequeEvent α Tid) (s : Deque α Tid) : Option (Deque α Tid) :=
  match e, s.owner with
  | .push task, .idle => some { s with owner := .push task s.bottom }
  | .pop, .idle => some { s with owner := .pop (s.bottom - 1) }
  | .owner, _ => s.ownerStep
  | .steal t, _ => some (s.stealStep t)
  | _, _ => none

/-- Where a run leads. -/
def run (es : List (DequeEvent α Tid)) (s : Deque α Tid) : Option (Deque α Tid) := runEvents step es s

/-! ## What a deque is -/

/-- What an operation does to the tasks of a deque of bounded capacity, the oldest first. -/
inductive Acts (capacity : Nat) : List α → DequeAct α → List α → Prop
  | pushed {tasks : List α} (task : α) : tasks.length < capacity →
      Acts capacity tasks (.pushed task) (tasks ++ [task])
  | saturated {tasks : List α} (task : α) : tasks.length = capacity →
      Acts capacity tasks (.saturated task) tasks
  | popped {tasks : List α} (task : α) : Acts capacity (tasks ++ [task]) (.popped task) tasks
  | popNone : Acts capacity [] .popNone []
  | stolen {tasks : List α} (task : α) : Acts capacity (task :: tasks) (.stolen task) tasks
  | stealEmpty {tasks : List α} : Acts capacity tasks .stealEmpty tasks
  | stealAbort {tasks : List α} : Acts capacity tasks .stealAbort tasks

/-- What a sequence of operations makes of an empty deque. -/
inductive Plays (capacity : Nat) : List (DequeAct α) → List α → Prop
  | nil : Plays capacity [] []
  | snoc {acts : List (DequeAct α)} {a : DequeAct α} {tasks tasks' : List α} :
      Plays capacity acts tasks → Acts capacity tasks a tasks' → Plays capacity (acts ++ [a]) tasks'

/-- **A deque loses and duplicates nothing.** -/
theorem Plays.perm {capacity : Nat} {acts : List (DequeAct α)} {tasks : List α}
    (h : Plays capacity acts tasks) :
    (acts.filterMap DequeAct.accepted).Perm (acts.filterMap DequeAct.returned ++ tasks) := by
  induction h with
  | nil => exact .nil
  | snoc _ hact ih =>
    rw [List.filterMap_append, List.filterMap_append]
    cases hact with
    | pushed task _ =>
      show (_ ++ [task]).Perm (_ ++ [] ++ (_ ++ [task]))
      rw [List.append_nil, ← List.append_assoc]
      exact ih.append_right _
    | popped task =>
      show (_ ++ []).Perm (_ ++ [task] ++ _)
      rw [List.append_nil, List.append_assoc]
      exact ih.trans (List.perm_append_comm.append_left _)
    | stolen task =>
      show (_ ++ []).Perm (_ ++ [task] ++ _)
      rw [List.append_nil, List.append_assoc]
      exact ih
    | _ =>
      show (_ ++ []).Perm (_ ++ [] ++ _)
      rw [List.append_nil, List.append_nil]
      exact ih

end Deque

end Datara.Runtime
