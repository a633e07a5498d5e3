import Mathlib.Data.List.Sort

/-!
# The two scheduling paths

`datara_rt_schedule_run` of `runtime/datara_rt_scheduler.c`, without cancellation: the waves of the
deterministic path, and the ready queue of the dynamic one. The tasks' functions are not modelled, only which
tasks are run and when; the tasks of a wave run side by side.
-/

namespace Datara.Runtime

/-- `DataraRtTaskNode`. -/
structure TaskNode where
  id : Nat
  deps : List Nat := []
  deterministic : Bool := true
  status : Int := 0
  deriving DecidableEq, Repr

/-- What a path does: the tasks it runs, in waves that run one after the other, the table it leaves, and
what it returns. -/
structure ScheduleRun where
  waves : List (List Nat)
  nodes : List TaskNode
  count : Nat
  deriving DecidableEq, Repr

namespace Schedule

variable (nodes : List TaskNode)

def depsOf (i : Nat) : List Nat := (nodes[i]?).elim [] (·.deps)

/-- `cmp_u32`, under `qsort`. -/
def sortWave (wave : List Nat) : List Nat := wave.insertionSort (· ≤ ·)

/-- A task's function has returned. -/
def complete (nodes : List TaskNode) (i : Nat) : List TaskNode :=
  nodes.modify i fun node => { node with status := 2 }

/-! ## The deterministic path -/

/-- The index of a dependency: its id, if that is its index, or the first task with the id. -/
def depIndex (dep : Nat) : Option Nat :=
  if (nodes[dep]?).any (·.id = dep) then some dep else nodes.findIdx? (·.id = dep)

/-- `succ_lists[j]`, with an entry for each entry of a task's dependencies. -/
def successors (j : Nat) : List Nat :=
  (List.range nodes.length).flatMap fun i =>
    (depsOf nodes i).filterMap fun dep => if depIndex nodes dep = some j then some i else none

/-- A successor of a task that has completed, with the tasks of the next wave. -/
def release (st : (Nat → Nat) × List Nat) (i : Nat) : (Nat → Nat) × List Nat :=
  if 0 < st.1 i then
    (Function.update st.1 i (st.1 i - 1), if st.1 i - 1 = 0 then st.2 ++ [i] else st.2)
  else st

/-- The successors of each task of a wave. -/
def resolve (wave : List Nat) (inDegree : Nat → Nat) : (Nat → Nat) × List Nat :=
  wave.foldl (fun st j => (successors nodes j).foldl release st) (inDegree, [])

/-- The waves from a wave on; nothing when the loop has not ended after so many. -/
def wavesFrom : Nat → List Nat → (Nat → Nat) → Option (List (List Nat))
  | 0, _, _ => none
  | fuel + 1, wave, inDegree =>
    if wave = [] then some []
    else
      let st := resolve nodes wave inDegree
      (wavesFrom fuel (sortWave st.2) st.1).map (wave :: ·)

/-- `in_degree`, at first. -/
def inDegrees (i : Nat) : Nat := (depsOf nodes i).length

/-- The tasks with nothing to wait for. -/
def roots : List Nat := (List.range nodes.length).filter fun i => inDegrees nodes i = 0

def deterministicPath : Option ScheduleRun :=
  (wavesFrom nodes (nodes.length + 1) (sortWave (roots nodes)) (inDegrees nodes)).map fun waves =>
    { waves := waves, nodes := waves.flatten.foldl complete nodes, count := waves.flatten.length }

/-! ## The dynamic path -/

/-- `queue_push`: a full queue drops the task. -/
def queuePush (queue : List Nat) (i : Nat) : List Nat :=
  if queue.length < nodes.length + 16 then queue ++ [i] else queue

/-- A task that may be waiting for the one that has completed; its dependencies are looked through up to the
first match. -/
def wakeDependent (id : Nat) (st : (Nat → Nat) × List Nat) (i : Nat) : (Nat → Nat) × List Nat :=
  if 0 < st.1 i ∧ id ∈ depsOf nodes i then
    (Function.update st.1 i (st.1 i - 1),
      if st.1 i - 1 = 0 then queuePush nodes st.2 i else st.2)
  else st

/-- The tasks run while `completed < node_count`, until the queue is empty. -/
def dynamicLoop : Nat → List Nat → (Nat → Nat) → List Nat
  | 0, _, _ => []
  | _ + 1, [], _ => []
  | left + 1, j :: queue, inDegree =>
    let id := (nodes[j]?).elim 0 (·.id)
    let st := (List.range nodes.length).foldl (wakeDependent nodes id) (inDegree, queue)
    j :: dynamicLoop left st.2 st.1

def dynamicPath : ScheduleRun :=
  let order := dynamicLoop nodes nodes.length ((roots nodes).foldl (queuePush nodes) []) (inDegrees nodes)
  { waves := order.map ([·]), nodes := order.foldl complete nodes, count := order.length }

/-- `datara_rt_schedule_run`. -/
def scheduleRun : Option ScheduleRun :=
  if nodes.all (·.deterministic) then deterministicPath nodes else some (dynamicPath nodes)

/-! ## What a schedule is for -/

/-- A task has the id of another among its dependencies. -/
def DependsOn (i j : Nat) : Prop :=
  ∃ a b, nodes[i]? = some a ∧ nodes[j]? = some b ∧ b.id ∈ a.deps

/-- No task has the id of one of its dependencies. -/
def HasUnknown (i : Nat) : Prop :=
  ∃ a, nodes[i]? = some a ∧ ∃ dep ∈ a.deps, ∀ b ∈ nodes, b.id ≠ dep

/-- It depends, directly or not, on a cycle or on an unknown id. -/
def Stuck (i : Nat) : Prop :=
  ∃ j, Relation.ReflTransGen (DependsOn nodes) i j ∧
    (Relation.TransGen (DependsOn nodes) j j ∨ HasUnknown nodes j)

def Runs (i : Nat) : Prop := i < nodes.length ∧ ¬Stuck nodes i

/-- Exactly the tasks that can be are run, once, and after all they depend on. -/
structure Executes (r : ScheduleRun) : Prop where
  runs : ∀ i, i ∈ r.waves.flatten ↔ Runs nodes i
  once : r.waves.flatten.Nodup
  after : ∀ pre wave post, r.waves = pre ++ wave :: post →
    ∀ i ∈ wave, ∀ j, DependsOn nodes i j → j ∈ pre.flatten

/-- The deterministic path returns, and both paths run the same tasks, in order, and leave and return the
same. -/
def Agree : Prop :=
  ∃ r, deterministicPath nodes = some r ∧ Executes nodes r ∧ Executes nodes (dynamicPath nodes) ∧
    r.nodes = (dynamicPath nodes).nodes ∧ r.count = (dynamicPath nodes).count

/-- An id that a task depends on names one task at most. -/
def Named : Prop :=
  ∀ i j k, DependsOn nodes i j → DependsOn nodes i k → (nodes[j]?).map (·.id) = (nodes[k]?).map (·.id) → j = k

end Schedule

end Datara.Runtime
