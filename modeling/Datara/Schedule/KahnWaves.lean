import Datara.Runtime.ScheduleAgree
import Mathlib.Data.List.Destutter

/-!
# The waves of the static schedule

`compute_kahn_waves` of `schedule/mod.rs`. The waves of its loop are in the order of the dependencies; what the
loop leaves over, because it is on a cycle or downstream of one, is put in one last wave (`kahn_waves_iff`).
-/

namespace Datara.Schedule

open Library

/-- `TaskNode`, as far as the waves depend on it. -/
structure TaskNode where
  id : Nat
  deps : List Nat
  deriving DecidableEq

variable (tasks : List TaskNode)

/-- The ids of the tasks: the keys of `in_degree` and `dependents`. -/
def ids : List Nat := tasks.map (·.id)

/-- The dependencies that are keys, in the order of the loop over them. -/
def edges : List (Nat × Nat) :=
  tasks.flatMap fun t => (t.deps.filter fun dep => dep ∈ ids tasks).map fun dep => (dep, t.id)

/-- `in_degree` before the waves. -/
def inDegrees (id : Nat) : Nat := (edges tasks).countP fun e => e.2 = id

def dependents (id : Nat) : List Nat := ((edges tasks).filter fun e => e.1 = id).map Prod.snd

/-- `sort`. -/
def sorted (wave : List Nat) : List Nat := wave.insertionSort (· ≤ ·)

/-- A dependent of a task that has been visited, with the tasks of the next wave. -/
def release (visited : List Nat) (st : (Nat → Nat) × List Nat) (succ : Nat) : (Nat → Nat) × List Nat :=
  if 0 < st.1 succ then
    (Function.update st.1 succ (st.1 succ - 1),
      if st.1 succ - 1 = 0 ∧ succ ∉ visited then st.2 ++ [succ] else st.2)
  else st

/-- The dependents of each task of a wave. -/
def resolve (visited wave : List Nat) (inDegree : Nat → Nat) : (Nat → Nat) × List Nat :=
  wave.foldl (fun st id => (dependents tasks id).foldl (release visited) st) (inDegree, [])

/-- The waves from a wave on and all that is visited; nothing when the loop has not ended after so many. -/
def wavesFrom : Nat → List Nat → (Nat → Nat) → List Nat → Option (List (List Nat) × List Nat)
  | 0, _, _, _ => none
  | fuel + 1, wave, inDegree, visited =>
    if wave = [] then some ([], visited)
    else
      let visited := wave.foldl (fun visited id => visited.insert id) visited
      let st := resolve tasks visited wave inDegree
      (wavesFrom fuel ((sorted st.2).destutter (· ≠ ·)) st.1 visited).map fun r => (wave :: r.1, r.2)

/-- `compute_kahn_waves`. -/
def computeKahnWaves : Option (List (List Nat)) :=
  if tasks = [] then some []
  else do
    let roots := sorted ((ids tasks).dedup.filter fun id => inDegrees tasks id = 0)
    let (waves, visited) ← wavesFrom tasks (tasks.length + 1) roots (inDegrees tasks) []
    if visited.length < tasks.length then
      let residual := sorted ((tasks.filter fun t => t.id ∉ visited).map (·.id))
      if residual ≠ [] then some (waves ++ [residual]) else some waves
    else some waves

/-! ## What the waves are for -/

/-- A task of the first id has the second among its dependencies, and there is a task of that. -/
def DependsOn (x y : Nat) : Prop := ∃ t ∈ tasks, t.id = x ∧ y ∈ t.deps ∧ y ∈ ids tasks

/-- On a cycle, or downstream of one. -/
def Stuck (x : Nat) : Prop :=
  ∃ c, Relation.ReflTransGen (DependsOn tasks) x c ∧ Relation.TransGen (DependsOn tasks) c c

/-- The waves are there, each task is in one of them and once, and after what it depends on, unless that
depends back on it. -/
def Respects : Prop :=
  ∃ waves, computeKahnWaves tasks = some waves ∧
    (∀ x, waves.flatten.count x = if x ∈ ids tasks then 1 else 0) ∧
    ∀ t ∈ tasks, ∀ d ∈ t.deps, d ∈ ids tasks → ¬ Relation.TransGen (DependsOn tasks) d t.id →
      ∃ pre wave post, waves = pre ++ wave :: post ∧ t.id ∈ wave ∧ d ∈ pre.flatten

variable {tasks} {x y d : Nat} {done ready wave visited : List Nat} {e : Nat × Nat}

/-! ## The loop -/

theorem mem_edges : e ∈ edges tasks ↔ DependsOn tasks e.2 e.1 := by
  unfold edges DependsOn
  simp only [List.mem_flatMap, List.mem_map, List.mem_filter, decide_eq_true_eq]
  constructor
  · intro h
    obtain ⟨t, ht, dep, hdep, rfl⟩ := h
    exact ⟨t, ht, rfl, hdep⟩
  · intro h
    obtain ⟨t, ht, hid, hdep⟩ := h
    exact ⟨t, ht, e.1, hdep, by rw [hid]⟩

theorem DependsOn.left (h : DependsOn tasks x y) : x ∈ ids tasks := by
  obtain ⟨t, ht, rfl, -⟩ := h
  exact List.mem_map_of_mem ht

theorem DependsOn.right (h : DependsOn tasks x y) : y ∈ ids tasks := h.choose_spec.2.2.2

/-- What the loop waits for. -/
def Fires (tasks : List TaskNode) (done : List Nat) (x : Nat) : Prop :=
  x ∈ ids tasks ∧ ∀ y, DependsOn tasks x y → y ∈ done

/-- The edges a task still waits for. -/
def unmet (tasks : List TaskNode) (done : List Nat) (x : Nat) : Nat :=
  (edges tasks).countP fun e => e.2 = x ∧ e.1 ∉ done

theorem unmet_eq_zero : unmet tasks done x = 0 ↔ ∀ y, DependsOn tasks x y → y ∈ done := by
  rw [unmet, List.countP_eq_zero]
  simp only [decide_eq_true_eq, not_and, not_not, mem_edges]
  exact ⟨fun h y hy => h (y, x) hy rfl, fun h e he heq => h e.1 (heq ▸ he)⟩

theorem unmet_nil : unmet tasks [] x = inDegrees tasks x := by
  unfold unmet inDegrees
  congr 1
  ext e
  simp

theorem unmet_done (hd : d ∉ done) :
    unmet tasks (done ++ [d]) x + (dependents tasks d).count x = unmet tasks done x := by
  unfold unmet dependents
  induction edges tasks with
  | nil => rfl
  | cons e es ih =>
    rw [List.countP_cons, List.countP_cons, List.filter_cons, ← ih]
    by_cases hsrc : e.1 = d
    · by_cases hdst : e.2 = x
      · simp [hsrc, hdst, hd]
        omega
      · simp [hsrc, hdst]
    · simp [hsrc]
      omega

/-- A task that has been visited waits for nothing, so it is never asked whether one is visited. -/
theorem foldl_release_eq (l : List Nat) (st : (Nat → Nat) × List Nat) (hzero : ∀ v ∈ visited, st.1 v = 0) :
    l.foldl (release visited) st = l.foldl Runtime.Schedule.release st := by
  induction l generalizing st with
  | nil => rfl
  | cons a l ih =>
    rw [List.foldl_cons, List.foldl_cons]
    have hsame : release visited st a = Runtime.Schedule.release st a := by
      unfold release Runtime.Schedule.release
      by_cases hpos : 0 < st.1 a
      · have ha : a ∉ visited := fun h => by have := hzero a h; omega
        simp [hpos, ha]
      · rw [if_neg hpos, if_neg hpos]
    rw [hsame]
    apply ih
    intro v hv
    unfold Runtime.Schedule.release
    by_cases hpos : 0 < st.1 a
    · rw [if_pos hpos]
      show Function.update st.1 a (st.1 a - 1) v = 0
      rw [Function.update_of_ne (fun h => by have := hzero v hv; rw [h] at this; omega)]
      exact hzero v hv
    · rw [if_neg hpos]
      exact hzero v hv

/-- **A task of a wave has completed**: its dependents are counted down. -/
theorem release_fired {inDegree : Nat → Nat} {next : List Nat}
    (h : Fired (Fires tasks) done (d :: ready ++ next)) (hcounts : ∀ x, inDegree x = unmet tasks done x)
    (hvisited : ∀ v ∈ visited, inDegree v = 0) :
    ∃ inDegree' newly, (dependents tasks d).foldl (release visited) (inDegree, next) = (inDegree', next ++ newly) ∧
      (∀ x, inDegree' x = unmet tasks (done ++ [d]) x) ∧
      Fired (Fires tasks) (done ++ [d]) (ready ++ (next ++ newly)) := by
  have hd : d ∉ done := fun hd => (List.nodup_append.mp h.nodup).2.2 d hd d List.mem_cons_self rfl
  rw [foldl_release_eq _ _ hvisited]
  obtain ⟨hcount, newly, hlist, hnodup, hmem⟩ := Runtime.Schedule.foldl_release (dependents tasks d) (inDegree, next)
  have hafter (x : Nat) : ((dependents tasks d).foldl Runtime.Schedule.release (inDegree, next)).1 x =
      unmet tasks (done ++ [d]) x := by
    rw [hcount]
    show inDegree x - _ = _
    rw [hcounts x, ← unmet_done hd]
    exact Nat.add_sub_cancel ..
  refine ⟨_, newly, Prod.ext rfl hlist, hafter, ?_⟩
  rw [← List.append_assoc]
  refine Fired.next h (fun x hx => ⟨hx.1, fun y hy => List.mem_append_left _ (hx.2 y hy)⟩) hnodup fun x => ?_
  have hfires (done : List Nat) : Fires tasks done x ↔ x ∈ ids tasks ∧ unmet tasks done x = 0 := by
    rw [unmet_eq_zero]
    exact Iff.rfl
  have hkey : 0 < unmet tasks done x → x ∈ ids tasks := by
    intro hpos
    obtain ⟨e, he, hdst⟩ := List.countP_pos_iff.mp hpos
    obtain ⟨rfl, -⟩ := of_decide_eq_true hdst
    exact (mem_edges.mp he).left
  rw [hmem, hfires, hfires, ← hafter, hcount]
  show 0 < inDegree x ∧ inDegree x ≤ _ ↔ (x ∈ ids tasks ∧ inDegree x - _ = 0) ∧ ¬ (x ∈ ids tasks ∧ _)
  rw [hcounts x]
  constructor
  · intro hx
    exact ⟨⟨hkey hx.1, by omega⟩, fun hzero => by omega⟩
  · intro hx
    have hpos : unmet tasks done x ≠ 0 := fun hzero => hx.2 ⟨hx.1.1, hzero⟩
    exact ⟨by omega, by omega⟩

/-- **A wave has completed.** -/
theorem resolve_fired {inDegree : Nat → Nat} (next : List Nat)
    (h : Fired (Fires tasks) done (wave ++ next)) (hcounts : ∀ x, inDegree x = unmet tasks done x)
    (hvisited : ∀ v ∈ visited, unmet tasks done v = 0) :
    ∃ inDegree' next',
      wave.foldl (fun st id => (dependents tasks id).foldl (release visited) st) (inDegree, next) =
        (inDegree', next') ∧
      (∀ x, inDegree' x = unmet tasks (done ++ wave) x) ∧ Fired (Fires tasks) (done ++ wave) next' := by
  induction wave generalizing done inDegree next with
  | nil => exact ⟨inDegree, next, rfl, by rwa [List.append_nil], by rwa [List.append_nil]⟩
  | cons d wave ih =>
    obtain ⟨inDegree', newly, hrel, hcounts', hfired⟩ :=
      release_fired h hcounts fun v hv => (hcounts v).trans (hvisited v hv)
    have hzero (v : Nat) (hv : v ∈ visited) : unmet tasks (done ++ [d]) v = 0 :=
      unmet_eq_zero.mpr fun y hy => List.mem_append_left _ (unmet_eq_zero.mp (hvisited v hv) y hy)
    rw [List.foldl_cons, hrel]
    obtain ⟨inDegree'', next', hres, hrest⟩ := ih _ hfired hcounts' hzero
    refine ⟨inDegree'', next', hres, ?_⟩
    rwa [List.append_assoc] at hrest

theorem sorted_perm (wave : List Nat) : wave.Perm (sorted wave) := (List.perm_insertionSort _ wave).symm

theorem sorted_destutter (h : wave.Nodup) : (sorted wave).destutter (· ≠ ·) = sorted wave :=
  (List.destutter_eq_self_iff _ _).mpr (((sorted_perm wave).nodup_iff.mp h).isChain)

theorem mem_visit : x ∈ wave.foldl (fun visited id => visited.insert id) visited ↔ x ∈ wave ∨ x ∈ visited := by
  induction wave generalizing visited with
  | nil => exact (or_iff_right List.not_mem_nil).symm
  | cons a wave ih =>
    rw [List.foldl_cons, ih, List.mem_insert_iff, List.mem_cons]
    tauto

theorem nodup_visit (h : visited.Nodup) : (wave.foldl (fun visited id => visited.insert id) visited).Nodup := by
  induction wave generalizing visited with
  | nil => exact h
  | cons a wave ih => exact ih (h.insert)

/-- **The waves end**: the tasks of each wait only for those before it, and none that waits for nothing else is
left over. -/
theorem wavesFrom_fired (fuel : Nat) {inDegree : Nat → Nat} (h : Fired (Fires tasks) done wave)
    (hcounts : ∀ x, inDegree x = unmet tasks done x) (hfuel : tasks.length < done.length + fuel)
    (hvisited : ∀ x, x ∈ visited ↔ x ∈ done) (hnodup : visited.Nodup) :
    ∃ waves visited', wavesFrom tasks fuel wave inDegree visited = some (waves, visited') ∧
      Fired (Fires tasks) (done ++ waves.flatten) [] ∧ (∀ x, x ∈ visited' ↔ x ∈ done ++ waves.flatten) ∧
      visited'.Nodup ∧
      ∀ pre w post, waves = pre ++ w :: post → ∀ x ∈ w, Fires tasks (done ++ pre.flatten) x := by
  induction fuel generalizing done wave inDegree visited with
  | zero =>
    have hsub : done ++ wave ⊆ ids tasks := fun x hx => ((h.fired x).mp hx).1
    have hle := (h.nodup.subperm hsub).length_le
    rw [ids, List.length_map, List.length_append] at hle
    omega
  | succ fuel ih =>
    rw [wavesFrom]
    by_cases hnil : wave = []
    · subst hnil
      refine ⟨[], visited, if_pos rfl, by rwa [List.flatten_nil, List.append_nil], ?_, hnodup, ?_⟩
      · rwa [List.flatten_nil, List.append_nil]
      · intro pre w post heq
        exact absurd heq.symm (List.append_ne_nil_of_right_ne_nil _ (List.cons_ne_nil _ _))
    rw [if_neg hnil]
    have hvisit (x : Nat) : x ∈ wave.foldl (fun visited id => visited.insert id) visited ↔ x ∈ done ++ wave := by
      rw [mem_visit, hvisited, List.mem_append, or_comm]
    have hzero (v : Nat) (hv : v ∈ wave.foldl (fun visited id => visited.insert id) visited) :
        unmet tasks done v = 0 := unmet_eq_zero.mpr ((h.fired v).mp ((hvisit v).mp hv)).2
    obtain ⟨inDegree', next, hres, hcounts', hfired⟩ := resolve_fired [] (by rwa [List.append_nil]) hcounts hzero
    have hnext := sorted_destutter (List.nodup_append.mp hfired.nodup).2.1
    have hpos : 0 < wave.length := List.length_pos_iff.mpr hnil
    obtain ⟨waves, visited', hwaves, hend, hvisited', hnodup', hafter⟩ :=
      ih (hfired.perm (sorted_perm next)) hcounts' (by rw [List.length_append]; omega) hvisit (nodup_visit hnodup)
    refine ⟨wave :: waves, visited', ?_, ?_, ?_, hnodup', ?_⟩
    · simp only [resolve, hres, hnext, hwaves]
      rfl
    · rw [List.flatten_cons, ← List.append_assoc]
      exact hend
    · rw [List.flatten_cons, ← List.append_assoc]
      exact hvisited'
    · intro pre w post heq
      cases pre with
      | nil =>
        cases heq
        intro x hx
        rw [List.flatten_nil, List.append_nil]
        exact (h.fired x).mp (List.mem_append_right _ hx)
      | cons v pre =>
        obtain ⟨rfl, hrest⟩ := List.cons.inj heq
        rw [List.flatten_cons, ← List.append_assoc]
        exact hafter pre w post hrest

/-! ## What is left over -/

theorem Stuck.dep (h : Stuck tasks x) : ∃ y, DependsOn tasks x y ∧ Stuck tasks y := by
  obtain ⟨c, hpath, hcycle⟩ := h
  obtain rfl | ⟨y, hxy, hyc⟩ := hpath.cases_head
  · obtain ⟨y, hxy, hyx⟩ := Relation.TransGen.head'_iff.mp hcycle
    exact ⟨y, hxy, x, hyx, hcycle⟩
  · exact ⟨y, hxy, c, hyc, hcycle⟩

/-- **The loop leaves over exactly the tasks on a cycle and downstream of one.** -/
theorem mem_done_iff (h : Fired (Fires tasks) done []) : x ∈ done ↔ x ∈ ids tasks ∧ ¬ Stuck tasks x := by
  constructor
  · intro hx
    refine ⟨((h.exhausted x).mp hx).1, ?_⟩
    refine h.induction (motive := fun x => ¬ Stuck tasks x) (fun pre x _ hpre hfires hstuck => ?_) x hx
    obtain ⟨y, hxy, hy⟩ := hstuck.dep
    exact hpre y (hfires.2 y hxy) hy
  · intro hx
    by_contra hnot
    have hdep : ∀ i ∈ (ids tasks).filter (· ∉ done), ∃ j ∈ (ids tasks).filter (· ∉ done), DependsOn tasks i j := by
      intro i hi
      obtain ⟨hi, hleft⟩ := List.mem_filter.mp hi
      rw [decide_eq_true_eq, h.exhausted, Fires, not_and] at hleft
      obtain ⟨j, hj⟩ := not_forall.mp (hleft hi)
      obtain ⟨hij, hj⟩ := Classical.not_imp.mp hj
      exact ⟨j, List.mem_filter.mpr ⟨hij.right, decide_eq_true hj⟩, hij⟩
    obtain ⟨c, -, hpath, hcycle⟩ := exists_cycle hdep (List.mem_filter.mpr ⟨hx.1, decide_eq_true hnot⟩)
    exact hx.2 ⟨c, hpath, hcycle⟩

/-- The tasks of the last wave. -/
def leftOver (tasks : List TaskNode) (done : List Nat) : List Nat := (ids tasks).filter (· ∉ done)

theorem mem_leftOver (h : Fired (Fires tasks) done []) :
    x ∈ leftOver tasks done ↔ x ∈ ids tasks ∧ Stuck tasks x := by
  rw [leftOver, List.mem_filter, decide_eq_true_eq, mem_done_iff h]
  tauto

/-- The wave after those of the loop, if there is one. -/
def lastWave (tasks : List TaskNode) (done : List Nat) : List (List Nat) :=
  if leftOver tasks done = [] then [] else [sorted (leftOver tasks done)]

/-- **The waves**: those of the loop, and what it leaves over, if anything, in one. -/
theorem computeKahnWaves_spec (tasks : List TaskNode) :
    ∃ waves, Fired (Fires tasks) waves.flatten [] ∧
      (∀ pre w post, waves = pre ++ w :: post → ∀ x ∈ w, Fires tasks pre.flatten x) ∧
      computeKahnWaves tasks = some (waves ++ lastWave tasks waves.flatten) := by
  unfold lastWave
  by_cases hempty : tasks = []
  · subst hempty
    have hnone (done : List Nat) (x : Nat) : ¬ Fires [] done x := fun h => nomatch h.1
    refine ⟨[], .start .nil fun x => iff_of_false List.not_mem_nil (hnone [] x), ?_, rfl⟩
    intro pre w post heq
    exact absurd heq.symm (List.append_ne_nil_of_right_ne_nil _ (List.cons_ne_nil _ _))
  let roots := (ids tasks).dedup.filter fun id => inDegrees tasks id = 0
  have hroots : Fired (Fires tasks) [] roots := by
    refine .start ((List.nodup_dedup _).filter _) fun x => ?_
    rw [List.mem_filter, List.mem_dedup, decide_eq_true_eq, ← unmet_nil, unmet_eq_zero]
    exact Iff.rfl
  obtain ⟨waves, visited, hwaves, hfired, hvisited, hnodup, horder⟩ :=
    wavesFrom_fired (tasks.length + 1) (hroots.perm (sorted_perm roots)) (fun x => unmet_nil.symm)
      (by rw [List.length_nil]; omega) (fun x => Iff.rfl) List.nodup_nil
  rw [List.nil_append] at hfired
  simp only [List.nil_append] at hvisited horder
  refine ⟨waves, hfired, horder, ?_⟩
  have hleft : (tasks.filter fun t => t.id ∉ visited).map (·.id) = leftOver tasks waves.flatten := by
    rw [leftOver, ids, List.filter_map]
    congr 1
    apply List.filter_congr
    intro t _
    show decide (t.id ∉ visited) = decide (t.id ∉ waves.flatten)
    rw [decide_eq_decide, hvisited]
  rw [computeKahnWaves, if_neg hempty]
  show (wavesFrom _ _ _ _ _).bind _ = _
  rw [hwaves]
  show (if visited.length < tasks.length then _ else _) = _
  rw [hleft]
  by_cases hlen : visited.length < tasks.length
  · rw [if_pos hlen]
    by_cases hnone : leftOver tasks waves.flatten = []
    · rw [if_neg (not_not.mpr (by rw [hnone]; rfl)), if_pos hnone, List.append_nil]
    · have hne : sorted (leftOver tasks waves.flatten) ≠ [] :=
        fun h => hnone ((sorted_perm _).trans (h ▸ .refl _)).eq_nil
      rw [if_pos hne, if_neg hnone]
  · -- as many are visited as there are tasks, so all of them are
    have hsub : visited ⊆ ids tasks := fun x hx => ((hfired.exhausted x).mp ((hvisited x).mp hx)).1
    have hall := (hnodup.subperm hsub).perm_of_length_le (by rw [ids, List.length_map]; omega)
    have hnone : leftOver tasks waves.flatten = [] := by
      rw [leftOver, List.filter_eq_nil_iff]
      intro x hx
      rw [decide_eq_true_eq, not_not, ← hvisited]
      exact hall.mem_iff.mpr hx
    rw [if_neg hlen, if_pos hnone, List.append_nil]

theorem lastWave_perm (tasks : List TaskNode) (done : List Nat) :
    (lastWave tasks done).flatten.Perm (leftOver tasks done) := by
  unfold lastWave
  split
  case isTrue hnone => rw [hnone]; exact .refl _
  case isFalse => rw [List.flatten_singleton]; exact (sorted_perm _).symm

section
variable (h : Fired (Fires tasks) done [])
include h

theorem mem_lastWave (hx : x ∈ ids tasks) (hstuck : Stuck tasks x) :
    ∃ w, lastWave tasks done = [w] ∧ x ∈ w := by
  have hmem := (mem_leftOver h).mpr ⟨hx, hstuck⟩
  exact ⟨_, if_neg (List.ne_nil_of_mem hmem), (sorted_perm _).mem_iff.mp hmem⟩

theorem count_stuck (hstuck : Stuck tasks x) :
    done.count x + (lastWave tasks done).flatten.count x = (ids tasks).count x := by
  have hnot : x ∉ done := fun hx => ((mem_done_iff h).mp hx).2 hstuck
  rw [(lastWave_perm tasks done).count_eq, List.count_eq_zero_of_not_mem hnot, leftOver,
    List.count_filter (p := fun x => decide (x ∉ done)) (decide_eq_true hnot), Nat.zero_add]

theorem count_free (hx : x ∈ ids tasks) (hfree : ¬ Stuck tasks x) :
    done.count x + (lastWave tasks done).flatten.count x = 1 := by
  have hnodup := h.nodup
  rw [List.append_nil] at hnodup
  have hnot : x ∉ leftOver tasks done := fun hl => hfree ((mem_leftOver h).mp hl).2
  rw [(lastWave_perm tasks done).count_eq, List.count_eq_one_of_mem hnodup ((mem_done_iff h).mpr ⟨hx, hfree⟩),
    List.count_eq_zero_of_not_mem hnot]

theorem count_unknown (hx : x ∉ ids tasks) :
    done.count x + (lastWave tasks done).flatten.count x = 0 := by
  have hnot : x ∉ done := fun hd => hx ((mem_done_iff h).mp hd).1
  have hleft : x ∉ leftOver tasks done := fun hl => hx ((mem_leftOver h).mp hl).1
  rw [(lastWave_perm tasks done).count_eq, List.count_eq_zero_of_not_mem hnot, List.count_eq_zero_of_not_mem hleft]

end

theorem mem_loop_of_before {waves pre post : List (List Nat)}
    (hsplit : waves ++ lastWave tasks done = pre ++ wave :: post) (hy : y ∈ pre.flatten) : y ∈ waves.flatten := by
  obtain ⟨rest, rfl, hrest⟩ | ⟨rest, rfl, -⟩ := List.append_eq_append_iff.mp hsplit
  · cases rest with
    | nil => rwa [List.append_nil] at hy
    | cons v rest =>
      have hlen := congrArg List.length hrest
      rw [lastWave] at hlen
      split at hlen <;> simp at hlen
  · rw [List.flatten_append]
    exact List.mem_append_left _ hy

/-- **The waves respect the dependencies** exactly when no two tasks that are stuck have one id, and no task
depends on one that is stuck unless that depends back on it. -/
theorem kahn_waves_iff (tasks : List TaskNode) :
    Respects tasks ↔ (∀ x, Stuck tasks x → (ids tasks).count x ≤ 1) ∧
      ∀ x y, DependsOn tasks x y → Stuck tasks y → Relation.TransGen (DependsOn tasks) y x := by
  obtain ⟨waves, hfired, horder, heq⟩ := computeKahnWaves_spec tasks
  constructor
  · intro h
    obtain ⟨waves', heq', honce, hafter⟩ := h
    cases heq'.symm.trans heq
    constructor
    · intro x hstuck
      have := honce x
      rw [List.flatten_append, List.count_append, count_stuck hfired hstuck] at this
      rw [this]
      split <;> omega
    · intro x y hxy hstuck
      by_contra hback
      obtain ⟨t, ht, rfl, hdep, hy⟩ := hxy
      obtain ⟨pre, wave, post, hsplit, -, hbefore⟩ := hafter t ht y hdep hy hback
      exact ((mem_done_iff hfired).mp (mem_loop_of_before hsplit hbefore)).2 hstuck
  · intro h
    obtain ⟨hdup, hback⟩ := h
    refine ⟨_, heq, fun x => ?_, fun t ht y hdep hy hno => ?_⟩
    · rw [List.flatten_append, List.count_append]
      by_cases hx : x ∈ ids tasks
      · rw [if_pos hx]
        by_cases hstuck : Stuck tasks x
        · rw [count_stuck hfired hstuck]
          exact Nat.le_antisymm (hdup x hstuck) (List.count_pos_iff.mpr hx)
        · exact count_free hfired hx hstuck
      · rw [if_neg hx, count_unknown hfired hx]
    · have hxy : DependsOn tasks t.id y := ⟨t, ht, rfl, hdep, hy⟩
      have hfree : ¬ Stuck tasks y := fun hstuck => hno (hback _ _ hxy hstuck)
      by_cases hstuck : Stuck tasks t.id
      · obtain ⟨w, hw, hin⟩ := mem_lastWave hfired hxy.left hstuck
        exact ⟨waves, w, [], congrArg (waves ++ ·) hw, hin, (mem_done_iff hfired).mpr ⟨hy, hfree⟩⟩
      · have hin := (mem_done_iff hfired).mpr ⟨hxy.left, hstuck⟩
        obtain ⟨w, hw, hin⟩ := List.mem_flatten.mp hin
        obtain ⟨pre, post, hsplit⟩ := List.append_of_mem hw
        refine ⟨pre, w, post ++ lastWave tasks waves.flatten, ?_, hin, (horder pre w post hsplit _ hin).2 y hxy⟩
        calc waves ++ lastWave tasks waves.flatten
            = (pre ++ w :: post) ++ lastWave tasks waves.flatten := congrArg (· ++ _) hsplit
          _ = pre ++ w :: (post ++ lastWave tasks waves.flatten) := List.append_assoc ..

/-- A task on itself, one that depends on it, and one that depends on that. -/
def downstream : List TaskNode := [⟨0, [0]⟩, ⟨1, [0]⟩, ⟨2, [1]⟩]

/-- All three are in the one wave. -/
theorem downstream_not_respected : ¬ Respects downstream := by
  intro h
  obtain ⟨waves, heq, -, hafter⟩ := h
  have hwaves : computeKahnWaves downstream = some [[0, 1, 2]] := by decide
  cases heq.symm.trans hwaves
  have hback : ¬ Relation.TransGen (DependsOn downstream) 1 2 := by
    intro hpath
    obtain ⟨y, -, hlast⟩ := Relation.TransGen.tail'_iff.mp hpath
    obtain ⟨t, ht, -, hdep, -⟩ := hlast
    revert hdep
    revert ht t
    decide
  obtain ⟨pre, wave, post, hsplit, -, hbefore⟩ := hafter ⟨2, [1]⟩ (by decide) 1 (by decide) (by decide) hback
  cases pre with
  | nil => exact nomatch hbefore
  | cons v pre =>
    have hlen := congrArg List.length hsplit
    simp at hlen

end Datara.Schedule
