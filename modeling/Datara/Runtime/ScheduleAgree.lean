import Datara.Library.Firing
import Datara.Runtime.Schedule
import Mathlib.Algebra.GroupWithZero.Nat

/-!
# The two paths agree

Both paths count down from the number of a task's dependency entries. The deterministic one counts every entry
of a task that completes, the dynamic one counts one for each; so both are firing systems, and they fire the
same tasks when no task that can run lists a dependency twice (`paths_agree_iff`).
-/

namespace Datara.Runtime.Schedule

open Library
open List (append_assoc append_nil flatten_cons foldl_cons getElem?_eq_getElem length_append length_nil mem_filter
  mem_map mem_range)

variable {nodes : List TaskNode} {done ready : List Nat} {i j k : Nat}

/-! ## The tasks that can run -/

theorem DependsOn.lt (h : DependsOn nodes i j) : j < nodes.length := by
  obtain ⟨-, b, -, hb, -⟩ := h
  exact (List.getElem?_eq_some_iff.mp hb).1

theorem dependsOn_of_mem {dep : Nat} (hdep : dep ∈ depsOf nodes i)
    (hj : (nodes[j]?).map (·.id) = some dep) : DependsOn nodes i j := by
  obtain ⟨b, hb, rfl⟩ := Option.map_eq_some_iff.mp hj
  rw [depsOf] at hdep
  cases ha : nodes[i]? with
  | none => rw [ha] at hdep; cases hdep
  | some a =>
    rw [ha] at hdep
    exact ⟨a, b, ha, hb, hdep⟩

theorem DependsOn.dep (h : DependsOn nodes i j) : ∃ dep ∈ depsOf nodes i, (nodes[j]?).map (·.id) = some dep := by
  obtain ⟨a, b, ha, hb, hdep⟩ := h
  refine ⟨b.id, ?_, by rw [hb]; rfl⟩
  rw [depsOf, ha]
  exact hdep

theorem runs_of_deps (hi : i < nodes.length) (hknown : ¬HasUnknown nodes i)
    (hdeps : ∀ j, DependsOn nodes i j → Runs nodes j) : Runs nodes i := by
  refine ⟨hi, fun ⟨k, hik, hk⟩ => ?_⟩
  obtain rfl | ⟨j, hij, hjk⟩ := Relation.ReflTransGen.cases_head hik
  · obtain hcycle | hunknown := hk
    · obtain ⟨j, hij, hji⟩ := Relation.TransGen.head'_iff.mp hcycle
      exact (hdeps j hij).2 ⟨i, hji, .inl hcycle⟩
    · exact hknown hunknown
  · exact (hdeps j hij).2 ⟨k, hjk, hk⟩

theorem Runs.dep (h : Runs nodes i) (hij : DependsOn nodes i j) : Runs nodes j :=
  ⟨hij.lt, fun ⟨k, hjk, hk⟩ => h.2 ⟨k, .head hij hjk, hk⟩⟩

theorem Runs.known {dep : Nat} (h : Runs nodes i) (hdep : dep ∈ depsOf nodes i) :
    ∃ j, DependsOn nodes i j ∧ (nodes[j]?).map (·.id) = some dep := by
  by_contra hnone
  refine h.2 ⟨i, .refl, .inr ?_⟩
  rw [depsOf] at hdep
  cases ha : nodes[i]? with
  | none => rw [ha] at hdep; cases hdep
  | some a =>
    rw [ha] at hdep
    refine ⟨a, ha.symm ▸ rfl, dep, hdep, fun b hb hid => ?_⟩
    obtain ⟨j, hj, hb⟩ := List.getElem_of_mem hb
    refine hnone ⟨j, ⟨a, b, ha, ?_, hid ▸ hdep⟩, ?_⟩
    · rw [getElem?_eq_getElem hj, hb]
    · rw [getElem?_eq_getElem hj, hb, ← hid]
      rfl

theorem Runs.induction {motive : Nat → Prop}
    (hstep : ∀ i, Runs nodes i → (∀ j, DependsOn nodes i j → motive j) → motive i) :
    ∀ i, Runs nodes i → motive i := by
  let below : {i // Runs nodes i} → {i // Runs nodes i} → Prop :=
    fun j i => Relation.TransGen (DependsOn nodes) i.1 j.1
  have : Finite {i // Runs nodes i} :=
    Set.Finite.to_subtype ((Set.finite_lt_nat nodes.length).subset fun i hi => hi.1)
  have : Std.Irrefl below := ⟨fun a ha => a.2.2 ⟨a.1, .refl, .inl ha⟩⟩
  have hwf : WellFounded below := Finite.wellFounded_of_trans_of_irrefl below
  intro i hi
  refine hwf.induction (C := fun i => motive i.1) ⟨i, hi⟩ fun i ih => ?_
  exact hstep i.1 i.2 fun j hij => ih ⟨j, i.2.dep hij⟩ (.single hij)

/-! ## Waves -/

/-- A dependency's task is done. -/
def metBy (nodes : List TaskNode) (done : List Nat) (dep : Nat) : Bool :=
  (depIndex nodes dep).any (· ∈ done)

/-- What the deterministic path waits for. -/
def WaveFires (nodes : List TaskNode) (done : List Nat) (i : Nat) : Prop :=
  i < nodes.length ∧ ∀ dep ∈ depsOf nodes i, metBy nodes done dep = true

/-- The entries a task still waits for. -/
def unmet (nodes : List TaskNode) (done : List Nat) (i : Nat) : Nat :=
  (depsOf nodes i).countP fun dep => !metBy nodes done dep

theorem unmet_eq_zero (hi : i < nodes.length) : unmet nodes done i = 0 ↔ WaveFires nodes done i := by
  rw [unmet, List.countP_eq_zero, WaveFires]
  simp [hi]

/-- The counts are those of the tasks there are. -/
def Counts (nodes : List TaskNode) (done : List Nat) (inDegree : Nat → Nat) : Prop :=
  ∀ i < nodes.length, inDegree i = unmet nodes done i

theorem sum_range_single (f : Nat → Nat) (n : Nat) :
    ((List.range n).map fun k => if k = i then f k else 0).sum = if i < n then f i else 0 := by
  induction n with
  | zero => rfl
  | succ n ih =>
    rw [List.range_succ, List.map_append, List.sum_append, ih]
    by_cases hi : n = i
    · subst hi
      simp
    · by_cases hlt : i < n
      · simp [hlt, hi, Nat.lt_succ_of_lt hlt]
      · simp [hlt, hi]
        omega

/-- The entries of a task's dependencies that name a task. -/
theorem count_successors (hi : i < nodes.length) :
    (successors nodes j).count i = (depsOf nodes i).countP fun dep => depIndex nodes dep = some j := by
  have hinner : ∀ k, ((depsOf nodes k).filterMap fun dep =>
      if depIndex nodes dep = some j then some k else none) =
      List.replicate ((depsOf nodes k).countP fun dep => depIndex nodes dep = some j) k := by
    intro k
    induction depsOf nodes k with
    | nil => rfl
    | cons dep deps ih =>
      rw [List.filterMap_cons, List.countP_cons]
      by_cases hdep : depIndex nodes dep = some j
      · simp only [hdep, if_true, decide_true, ih, List.replicate_succ]
      · simp [hdep, ih]
  simp only [successors, hinner]
  rw [List.count_flatMap]
  simp only [Function.comp_def, List.count_replicate, beq_iff_eq]
  rw [sum_range_single fun k => (depsOf nodes k).countP fun dep => depIndex nodes dep = some j, if_pos hi]

theorem mem_successors_lt (h : i ∈ successors nodes j) : i < nodes.length := by
  obtain ⟨k, hk, hdep⟩ := List.mem_flatMap.mp h
  obtain ⟨dep, -, hdep⟩ := List.mem_filterMap.mp hdep
  split at hdep
  · cases hdep
    exact mem_range.mp hk
  · cases hdep

theorem unmet_done (hj : j ∉ done) : unmet nodes (done ++ [j]) i +
    (depsOf nodes i).countP (fun dep => depIndex nodes dep = some j) = unmet nodes done i := by
  rw [unmet, unmet]
  induction depsOf nodes i with
  | nil => rfl
  | cons dep deps ih =>
    simp only [List.countP_cons, ← ih]
    have hmet : metBy nodes (done ++ [j]) dep = (metBy nodes done dep || decide (depIndex nodes dep = some j)) := by
      cases hd : depIndex nodes dep with
      | none => simp [metBy, hd]
      | some k => simp [metBy, hd, List.mem_append, Bool.decide_or]
    by_cases hd : depIndex nodes dep = some j
    · have hnot : metBy nodes done dep = false := by simp [metBy, hd, hj]
      simp [hmet, hd, hnot]
      omega
    · simp only [hmet, hd, decide_false, Bool.or_false]
      simp
      omega

/-- What passing over the successors of a task leaves: the counts, and the tasks that come to zero. -/
theorem foldl_release (l : List Nat) (st : (Nat → Nat) × List Nat) :
    (∀ i, (l.foldl release st).1 i = st.1 i - l.count i) ∧
      ∃ newly : List Nat, (l.foldl release st).2 = st.2 ++ newly ∧ newly.Nodup ∧
        ∀ i, i ∈ newly ↔ 0 < st.1 i ∧ st.1 i ≤ l.count i := by
  induction l generalizing st with
  | nil =>
    refine ⟨fun i => rfl, [], (append_nil _).symm, .nil, fun i => ?_⟩
    rw [List.count_nil]
    exact ⟨nofun, fun h => by omega⟩
  | cons a l ih =>
    rw [foldl_cons]
    obtain ⟨hcount, newly, hlist, hnodup, hmem⟩ := ih (release st a)
    have hat : ∀ i, (release st a).1 i = st.1 i - [a].count i := by
      intro i
      rw [release, List.count_singleton]
      split
      case isTrue hpos =>
        show Function.update st.1 a (st.1 a - 1) i = _
        rw [Function.update_apply]
        by_cases hia : i = a
        · rw [if_pos hia, hia]
          simp
        · rw [if_neg hia]
          simp [Ne.symm hia]
      case isFalse hzero =>
        by_cases hia : a = i
        · subst hia
          simp
          omega
        · simp [hia]
    have hsplit : ∀ i, (a :: l).count i = [a].count i + l.count i := fun i => by
      rw [← List.count_append]
      rfl
    refine ⟨fun i => ?_, ?_⟩
    · rw [hcount, hat, hsplit]
      omega
    · by_cases hlast : st.1 a = 1
      · refine ⟨a :: newly, ?_, List.nodup_cons.mpr ⟨fun ha => ?_, hnodup⟩, fun i => ?_⟩
        · rw [hlist]
          simp [release, hlast]
        · have := (hmem a).mp ha
          rw [hat] at this
          simp [hlast] at this
        · rw [List.mem_cons, hmem, hat, hsplit]
          by_cases hia : i = a
          · subst hia
            simp [hlast]
          · rw [List.count_singleton]
            simp [hia, Ne.symm hia]
      · refine ⟨newly, ?_, hnodup, fun i => ?_⟩
        · rw [hlist, release]
          split
          · rw [if_neg (by omega)]
          · rfl
        · rw [hmem, hat, hsplit]
          by_cases hia : i = a
          · subst hia
            simp
            omega
          · rw [List.count_singleton]
            simp [Ne.symm hia]

/-- **A task of a wave has completed**: its successors are counted down. -/
theorem release_fired {inDegree : Nat → Nat} {next : List Nat}
    (h : Fired (WaveFires nodes) done (j :: ready ++ next)) (hcounts : Counts nodes done inDegree) :
    ∃ inDegree' newly, (successors nodes j).foldl release (inDegree, next) = (inDegree', next ++ newly) ∧
      Counts nodes (done ++ [j]) inDegree' ∧ Fired (WaveFires nodes) (done ++ [j]) (ready ++ (next ++ newly)) := by
  have hj : j ∉ done := by
    intro hj
    exact (List.nodup_append.mp h.nodup).2.2 j hj j List.mem_cons_self rfl
  obtain ⟨hcount, newly, hlist, hnodup, hmem⟩ := foldl_release (successors nodes j) (inDegree, next)
  have hat : ∀ i < nodes.length, ((successors nodes j).foldl release (inDegree, next)).1 i =
      unmet nodes (done ++ [j]) i := by
    intro i hi
    rw [hcount, count_successors hi]
    show inDegree i - _ = _
    rw [hcounts i hi, ← unmet_done hj (i := i)]
    exact Nat.add_sub_cancel ..
  refine ⟨_, newly, Prod.ext rfl hlist, hat, ?_⟩
  rw [← append_assoc]
  refine Fired.next h (fun i hi => ⟨hi.1, fun dep hdep => ?_⟩) hnodup fun i => ?_
  · have := hi.2 dep hdep
    rw [metBy, Option.any_eq_true] at this ⊢
    obtain ⟨k, hk, hmet⟩ := this
    exact ⟨k, hk, decide_eq_true (List.mem_append_left _ (of_decide_eq_true hmet))⟩
  · rw [hmem]
    by_cases hi : i < nodes.length
    · rw [← unmet_eq_zero hi, ← unmet_eq_zero hi, ← hat i hi, hcount]
      show 0 < inDegree i ∧ inDegree i ≤ _ ↔ inDegree i - _ = 0 ∧ ¬unmet nodes done i = 0
      rw [hcounts i hi]
      omega
    · refine ⟨fun ⟨hpos, hle⟩ => ?_, fun ⟨hf, _⟩ => absurd hf.1 hi⟩
      have hzero : (successors nodes j).count i = 0 :=
        List.count_eq_zero_of_not_mem fun hmem => hi (mem_successors_lt hmem)
      replace hpos : 0 < inDegree i := hpos
      replace hle : inDegree i ≤ _ := hle
      omega

/-- **A wave has completed.** -/
theorem resolve_fired {wave : List Nat} {inDegree : Nat → Nat} (next : List Nat)
    (h : Fired (WaveFires nodes) done (wave ++ next)) (hcounts : Counts nodes done inDegree) :
    ∃ inDegree' next',
      wave.foldl (fun st j => (successors nodes j).foldl release st) (inDegree, next) = (inDegree', next') ∧
        Counts nodes (done ++ wave) inDegree' ∧ Fired (WaveFires nodes) (done ++ wave) next' := by
  induction wave generalizing done inDegree next with
  | nil => exact ⟨inDegree, next, rfl, by rwa [append_nil], by rwa [append_nil]⟩
  | cons j wave ih =>
    obtain ⟨inDegree', newly, hrel, hcounts', hfired⟩ := release_fired h hcounts
    rw [foldl_cons, hrel]
    obtain ⟨inDegree'', next', hres, hrest⟩ := ih _ hfired hcounts'
    refine ⟨inDegree'', next', hres, ?_⟩
    rwa [append_assoc] at hrest

theorem sortWave_perm (wave : List Nat) : wave.Perm (sortWave wave) :=
  (List.perm_insertionSort _ wave).symm

/-- **The waves end**, every wave fires on those before it, and none is left out. -/
theorem wavesFrom_fired (fuel : Nat) {wave : List Nat} {inDegree : Nat → Nat}
    (h : Fired (WaveFires nodes) done wave) (hcounts : Counts nodes done inDegree)
    (hfuel : nodes.length < done.length + fuel) :
    ∃ waves, wavesFrom nodes fuel wave inDegree = some waves ∧
      Fired (WaveFires nodes) (done ++ waves.flatten) [] ∧
      ∀ pre w post, waves = pre ++ w :: post → ∀ i ∈ w, WaveFires nodes (done ++ pre.flatten) i := by
  induction fuel generalizing done wave inDegree with
  | zero =>
    have := h.length_le (n := nodes.length) fun i hi => hi.1
    rw [length_append] at this
    omega
  | succ fuel ih =>
    rw [wavesFrom]
    split
    case isTrue hnil =>
      subst hnil
      refine ⟨[], rfl, by rwa [List.flatten_nil, append_nil], fun pre w post heq => ?_⟩
      cases pre <;> cases heq
    case isFalse hne =>
      obtain ⟨inDegree', next, hres, hcounts', hfired⟩ := resolve_fired [] (by rwa [append_nil]) hcounts
      have hpos : 0 < wave.length := List.length_pos_iff.mpr hne
      obtain ⟨waves, hwaves, hend, hafter⟩ := ih (hfired.perm (sortWave_perm next)) hcounts' (by
        rw [length_append]
        omega)
      refine ⟨wave :: waves, ?_, ?_, fun pre w post heq => ?_⟩
      · simp only [resolve, hres, hwaves]
        rfl
      · rw [flatten_cons, ← append_assoc]
        exact hend
      · cases pre with
        | nil =>
          cases heq
          intro i hi
          rw [List.flatten_nil, append_nil]
          exact (h.fired i).mp (List.mem_append_right _ hi)
        | cons v pre =>
          obtain ⟨rfl, hrest⟩ := List.cons.inj heq
          rw [flatten_cons, ← append_assoc]
          exact hafter pre w post hrest

/-! ## The queue -/

def idOf (nodes : List TaskNode) (j : Nat) : Nat := (nodes[j]?).elim 0 (·.id)

/-- How many of the tasks that are done a task has among its dependencies. -/
def credit (nodes : List TaskNode) (done : List Nat) (i : Nat) : Nat :=
  done.countP fun j => idOf nodes j ∈ depsOf nodes i

/-- What the dynamic path waits for. -/
def QueueFires (nodes : List TaskNode) (done : List Nat) (i : Nat) : Prop :=
  i < nodes.length ∧ inDegrees nodes i ≤ credit nodes done i

/-- A task is woken when it waits for one more, which is the one that has completed. -/
def woken (nodes : List TaskNode) (id : Nat) (inDegree : Nat → Nat) (i : Nat) : Bool :=
  inDegree i = 1 ∧ id ∈ depsOf nodes i

/-- What looking through the tasks leaves: the counts, and the tasks that come to zero. -/
theorem foldl_wakeDependent (id : Nat) (l : List Nat) (st : (Nat → Nat) × List Nat) (hnodup : l.Nodup)
    (hroom : st.2.length + (l.filter (woken nodes id st.1)).length < nodes.length + 16) :
    (l.foldl (wakeDependent nodes id) st).2 = st.2 ++ l.filter (woken nodes id st.1) ∧
      ∀ i, (l.foldl (wakeDependent nodes id) st).1 i =
        if i ∈ l ∧ id ∈ depsOf nodes i then st.1 i - 1 else st.1 i := by
  induction l generalizing st with
  | nil => exact ⟨(append_nil _).symm, fun i => (if_neg fun h => nomatch h.1).symm⟩
  | cons a l ih =>
    obtain ⟨ha, hnodup⟩ := List.nodup_cons.mp hnodup
    rw [foldl_cons]
    have hat : ∀ i, (wakeDependent nodes id st a).1 i =
        if i = a ∧ id ∈ depsOf nodes i then st.1 i - 1 else st.1 i := by
      intro i
      rw [wakeDependent]
      split
      case isTrue hwait =>
        show Function.update st.1 a (st.1 a - 1) i = _
        rw [Function.update_apply]
        by_cases hia : i = a
        · subst hia
          simp [hwait.2]
        · simp [hia]
      case isFalse hno =>
        by_cases hia : i = a ∧ id ∈ depsOf nodes i
        · rw [if_pos hia]
          obtain ⟨rfl, hid⟩ := hia
          have : ¬0 < st.1 i := fun hpos => hno ⟨hpos, hid⟩
          omega
        · rw [if_neg hia]
    have hsame : ∀ i ∈ l, woken nodes id (wakeDependent nodes id st a).1 i = woken nodes id st.1 i := by
      intro i hi
      have hne : i ≠ a := fun heq => ha (heq ▸ hi)
      simp [woken, hat, hne]
    have hfilter := List.filter_congr hsame
    have hqueue : (wakeDependent nodes id st a).2 = st.2 ++ [a].filter (woken nodes id st.1) := by
      rw [List.filter_cons] at hroom
      rw [wakeDependent, List.filter_singleton]
      by_cases hw : woken nodes id st.1 a = true
      · have hw' := of_decide_eq_true hw
        rw [if_pos hw, List.length_cons] at hroom
        rw [hw, if_pos ⟨by omega, hw'.2⟩]
        show (if st.1 a - 1 = 0 then queuePush nodes st.2 a else st.2) = st.2 ++ [a]
        rw [if_pos (by omega), queuePush, if_pos (by omega)]
      · rw [Bool.not_eq_true] at hw
        rw [hw]
        show _ = st.2 ++ []
        rw [append_nil]
        split
        case isTrue hwait =>
          have hne : ¬(st.1 a = 1 ∧ id ∈ depsOf nodes a) := of_decide_eq_false hw
          refine if_neg fun hone => hne ⟨by omega, hwait.2⟩
        case isFalse => rfl
    have hsplit : (a :: l).filter (woken nodes id st.1) =
        [a].filter (woken nodes id st.1) ++ l.filter (woken nodes id st.1) := by
      rw [← List.filter_append]
      rfl
    obtain ⟨hlist, hcount⟩ := ih (wakeDependent nodes id st a) hnodup (by
      rw [hqueue, hfilter, length_append]
      rw [hsplit, length_append] at hroom
      omega)
    refine ⟨?_, fun i => ?_⟩
    · rw [hlist, hqueue, hfilter, hsplit, append_assoc]
    · rw [hcount, hat]
      by_cases hia : i = a
      · subst hia
        simp [ha]
      · simp [hia]

theorem credit_done : credit nodes (done ++ [j]) i =
    credit nodes done i + if idOf nodes j ∈ depsOf nodes i then 1 else 0 := by
  rw [credit, credit, List.countP_append, List.countP_singleton]
  simp

/-- **A task from the queue has completed.** -/
theorem wake_fired {inDegree : Nat → Nat} (h : Fired (QueueFires nodes) done (j :: ready))
    (hcounts : ∀ i < nodes.length, inDegree i = inDegrees nodes i - credit nodes done i) :
    ∃ inDegree' newly,
      (List.range nodes.length).foldl (wakeDependent nodes (idOf nodes j)) (inDegree, ready) =
        (inDegree', ready ++ newly) ∧
      (∀ i < nodes.length, inDegree' i = inDegrees nodes i - credit nodes (done ++ [j]) i) ∧
      Fired (QueueFires nodes) (done ++ [j]) (ready ++ newly) := by
  have hfired : Fired (QueueFires nodes) (done ++ [j])
      (ready ++ (List.range nodes.length).filter (woken nodes (idOf nodes j) inDegree)) := by
    refine Fired.next h (fun i hi => ⟨hi.1, Nat.le_trans hi.2 ?_⟩) (List.nodup_range.filter _) fun i => ?_
    · rw [credit_done]
      exact Nat.le_add_right _ _
    · rw [mem_filter, mem_range, QueueFires, QueueFires, credit_done]
      by_cases hi : i < nodes.length
      · simp only [hi, true_and, woken, hcounts i hi, decide_eq_true_eq]
        split
        case isTrue hdep =>
          simp only [hdep, and_true]
          omega
        case isFalse hdep =>
          simp only [hdep, and_false, Nat.add_zero, false_iff]
          omega
      · simp [hi]
  have hlen := hfired.length_le fun i hi => hi.1
  have hroom : ready.length + ((List.range nodes.length).filter
      (woken nodes (idOf nodes j) inDegree)).length < nodes.length + 16 := by
    simp only [length_append] at hlen
    omega
  obtain ⟨hlist, hcount⟩ := @foldl_wakeDependent nodes (idOf nodes j) (List.range nodes.length)
    (inDegree, ready) List.nodup_range hroom
  refine ⟨_, _, Prod.ext rfl hlist, fun i hi => ?_, hfired⟩
  refine (hcount i).trans ?_
  rw [credit_done]
  simp only [mem_range, hi, true_and]
  rw [hcounts i hi]
  split <;> omega

/-- **The queue runs empty**, and leaves no task out. -/
theorem dynamicLoop_fired (left : Nat) {queue : List Nat} {inDegree : Nat → Nat}
    (h : Fired (QueueFires nodes) done queue)
    (hcounts : ∀ i < nodes.length, inDegree i = inDegrees nodes i - credit nodes done i)
    (hleft : nodes.length ≤ done.length + left) :
    Fired (QueueFires nodes) (done ++ dynamicLoop nodes left queue inDegree) [] := by
  induction left generalizing done queue inDegree with
  | zero =>
    have hlen := h.length_le fun i hi => hi.1
    rw [length_append] at hlen
    obtain rfl : queue = [] := List.eq_nil_of_length_eq_zero (by omega)
    rwa [dynamicLoop, append_nil]
  | succ left ih =>
    cases queue with
    | nil => rwa [dynamicLoop, append_nil]
    | cons j queue =>
      obtain ⟨inDegree', newly, hwake, hcounts', hfired⟩ := wake_fired h hcounts
      have := ih hfired hcounts' (by
        rw [length_append, List.length_singleton]
        omega)
      rw [append_assoc] at this
      have hloop : dynamicLoop nodes (left + 1) (j :: queue) inDegree =
          j :: dynamicLoop nodes left (queue ++ newly) inDegree' := by
        have hwake' : (List.range nodes.length).foldl (wakeDependent nodes ((nodes[j]?).elim 0 (·.id)))
            (inDegree, queue) = (inDegree', queue ++ newly) := hwake
        simp [dynamicLoop, hwake']
      rw [hloop]
      exact this

/-! ## Both paths -/

theorem roots_fired {fires : List Nat → Nat → Prop}
    (hfires : ∀ i, fires [] i ↔ i < nodes.length ∧ inDegrees nodes i = 0) :
    Fired fires [] (roots nodes) := by
  refine .start (List.nodup_range.filter _) fun i => ?_
  rw [roots, mem_filter, mem_range, hfires, decide_eq_true_eq]

theorem foldl_queuePush (l q : List Nat) (hroom : q.length + l.length < nodes.length + 16) :
    l.foldl (queuePush nodes) q = q ++ l := by
  induction l generalizing q with
  | nil => exact (append_nil q).symm
  | cons a l ih =>
    rw [List.length_cons] at hroom
    rw [foldl_cons, queuePush, if_pos (by omega), ih, append_assoc]
    · rfl
    · rw [length_append, List.length_singleton]
      omega

/-- The order of the dynamic path. -/
def dynamicOrder (nodes : List TaskNode) : List Nat :=
  dynamicLoop nodes nodes.length ((roots nodes).foldl (queuePush nodes) []) (inDegrees nodes)

theorem dynamicOrder_fired : Fired (QueueFires nodes) (dynamicOrder nodes) [] := by
  have hroots : Fired (QueueFires nodes) [] (roots nodes) :=
    roots_fired fun i => and_congr_right fun _ => Nat.le_zero
  have hlen := hroots.length_le fun i hi => hi.1
  rw [List.nil_append] at hlen
  rw [dynamicOrder, foldl_queuePush _ _ (by rw [length_nil]; omega), List.nil_append]
  exact dynamicLoop_fired nodes.length hroots (fun i _ => rfl) (by rw [length_nil]; omega)

theorem deterministicWaves :
    ∃ waves, wavesFrom nodes (nodes.length + 1) (sortWave (roots nodes)) (inDegrees nodes) = some waves ∧
      Fired (WaveFires nodes) waves.flatten [] ∧
      ∀ pre w post, waves = pre ++ w :: post → ∀ i ∈ w, WaveFires nodes pre.flatten i := by
  have hmet : ∀ dep, metBy nodes [] dep = false := by
    intro dep
    rw [metBy]
    cases depIndex nodes dep <;> rfl
  have hroots : Fired (WaveFires nodes) [] (roots nodes) := by
    refine roots_fired fun i => and_congr_right fun _ => ?_
    rw [inDegrees, List.length_eq_zero_iff, List.eq_nil_iff_forall_not_mem]
    exact forall₂_congr fun dep _ => by rw [hmet]; exact iff_of_false nofun (fun h => nomatch h)
  have hcounts : Counts nodes [] (inDegrees nodes) := by
    intro i _
    rw [unmet, inDegrees, List.countP_eq_length.mpr]
    intro dep _
    rw [hmet]
    rfl
  obtain ⟨waves, hwaves, hfired, hafter⟩ :=
    wavesFrom_fired (nodes.length + 1) (hroots.perm (sortWave_perm _)) hcounts (by rw [length_nil]; omega)
  exact ⟨waves, hwaves, hfired, hafter⟩

theorem depIndex_id {dep : Nat} (h : depIndex nodes dep = some k) : (nodes[k]?).map (·.id) = some dep := by
  rw [depIndex] at h
  split at h
  case isTrue hid =>
    cases h
    obtain ⟨b, hb, hid⟩ := (Option.any_eq_true _ _).mp hid
    rw [hb]
    exact congrArg some (of_decide_eq_true hid)
  case isFalse =>
    obtain ⟨hlt, hid, -⟩ := List.findIdx?_eq_some_iff_getElem.mp h
    rw [getElem?_eq_getElem hlt]
    exact congrArg some (of_decide_eq_true hid)

theorem depIndex_isSome {dep : Nat} (h : (nodes[k]?).map (·.id) = some dep) : ∃ j, depIndex nodes dep = some j := by
  obtain ⟨b, hb, hid⟩ := Option.map_eq_some_iff.mp h
  rw [depIndex]
  split
  · exact ⟨dep, rfl⟩
  · rw [← Option.isSome_iff_exists, List.findIdx?_isSome, List.any_eq_true]
    exact ⟨b, List.mem_of_getElem? hb, decide_eq_true hid⟩

/-- The task that a dependency of the deterministic path is, where ids are unambiguous. -/
theorem WaveFires.dep (hnamed : Named nodes) (h : WaveFires nodes done i) (hij : DependsOn nodes i j) :
    j ∈ done := by
  obtain ⟨dep, hdep, hid⟩ := hij.dep
  obtain ⟨k, hk, hmem⟩ := (Option.any_eq_true _ _).mp (h.2 dep hdep)
  have hkid := depIndex_id hk
  obtain rfl := hnamed i j k hij (dependsOn_of_mem hdep hkid) (hid.trans hkid.symm)
  exact of_decide_eq_true hmem

theorem WaveFires.known (h : WaveFires nodes done i) : ¬HasUnknown nodes i := by
  rintro ⟨a, ha, dep, hdep, hno⟩
  have hmem : dep ∈ depsOf nodes i := by
    rw [depsOf, ha]
    exact hdep
  obtain ⟨k, hk, -⟩ := (Option.any_eq_true _ _).mp (h.2 dep hmem)
  obtain ⟨b, hb, hid⟩ := Option.map_eq_some_iff.mp (depIndex_id hk)
  exact hno b (List.mem_of_getElem? hb) hid

/-- **The waves run the tasks that can run.** -/
theorem waves_run (hnamed : Named nodes) (h : Fired (WaveFires nodes) done []) : i ∈ done ↔ Runs nodes i := by
  refine ⟨fun hi => ?_, fun hi => ?_⟩
  · refine h.induction (motive := Runs nodes) (fun pre i _ hpre hf => ?_) i hi
    exact runs_of_deps hf.1 hf.known fun j hij => hpre j (hf.dep hnamed hij)
  · refine Runs.induction (motive := (· ∈ done)) (fun i hi hdeps => ?_) i hi
    refine (h.exhausted i).mpr ⟨hi.1, fun dep hdep => ?_⟩
    obtain ⟨j, hij, hid⟩ := hi.known hdep
    obtain ⟨k, hk⟩ := depIndex_isSome hid
    have hkid := depIndex_id hk
    obtain rfl := hnamed i j k hij (dependsOn_of_mem hdep hkid) (hid.trans hkid.symm)
    exact (Option.any_eq_true _ _).mpr ⟨j, hk, decide_eq_true (hdeps j hij)⟩

theorem mem_credited (hlt : ∀ j ∈ done, j < nodes.length) :
    j ∈ done.filter (fun j => idOf nodes j ∈ depsOf nodes i) ↔ j ∈ done ∧ DependsOn nodes i j := by
  rw [mem_filter, decide_eq_true_eq]
  refine and_congr_right fun hj => ?_
  have hget := getElem?_eq_getElem (hlt j hj)
  have hid : (nodes[j]?).map (·.id) = some (idOf nodes j) := by
    rw [idOf, hget]
    rfl
  refine ⟨fun hdep => dependsOn_of_mem hdep hid, fun hij => ?_⟩
  obtain ⟨dep, hdep, hid'⟩ := hij.dep
  cases hid.symm.trans hid'
  exact hdep

theorem credit_eq : credit nodes done i =
    ((done.filter fun j => idOf nodes j ∈ depsOf nodes i).map (idOf nodes)).length := by
  rw [credit, List.length_map, List.countP_eq_length_filter]

section
variable (hnamed : Named nodes)
include hnamed

/-- The ids of those tasks are all different, where ids are unambiguous. -/
theorem credited_nodup (hnodup : done.Nodup) (hlt : ∀ j ∈ done, j < nodes.length) :
    ((done.filter fun j => idOf nodes j ∈ depsOf nodes i).map (idOf nodes)).Nodup := by
  refine List.Nodup.map_on (fun j hj k hk heq => ?_) (hnodup.filter _)
  obtain ⟨hj, hij⟩ := (mem_credited hlt).mp hj
  obtain ⟨hk, hik⟩ := (mem_credited hlt).mp hk
  refine hnamed i j k hij hik ?_
  have hj' := getElem?_eq_getElem (hlt j hj)
  have hk' := getElem?_eq_getElem (hlt k hk)
  rw [idOf, idOf, hj', hk'] at heq
  rw [hj', hk']
  exact congrArg some heq

/-- **What the dynamic path fires has each dependency once, and all of them done.** -/
theorem QueueFires.deps (hnodup : done.Nodup) (hlt : ∀ j ∈ done, j < nodes.length)
    (h : QueueFires nodes done i) :
    (depsOf nodes i).Nodup ∧ ¬HasUnknown nodes i ∧ ∀ j, DependsOn nodes i j → j ∈ done := by
  have hids := @credited_nodup nodes done i hnamed hnodup hlt
  have hsub : (done.filter fun j => idOf nodes j ∈ depsOf nodes i).map (idOf nodes) ⊆ depsOf nodes i := by
    intro id hid
    obtain ⟨j, hj, rfl⟩ := mem_map.mp hid
    exact of_decide_eq_true (mem_filter.mp hj).2
  have hperm := (hids.subperm hsub).perm_of_length_le (by
    have := h.2
    rwa [credit_eq] at this)
  have hall : ∀ dep ∈ depsOf nodes i, ∃ j ∈ done, DependsOn nodes i j ∧ idOf nodes j = dep := by
    intro dep hdep
    obtain ⟨j, hj, rfl⟩ := mem_map.mp (hperm.mem_iff.mpr hdep)
    obtain ⟨hj, hij⟩ := (mem_credited hlt).mp hj
    exact ⟨j, hj, hij, rfl⟩
  refine ⟨hperm.nodup_iff.mp hids, ?_, fun j hij => ?_⟩
  · rintro ⟨a, ha, dep, hdep, hno⟩
    have hmem : dep ∈ depsOf nodes i := by
      rw [depsOf, ha]
      exact hdep
    obtain ⟨j, hj, -, rfl⟩ := hall dep hmem
    have hget := getElem?_eq_getElem (hlt j hj)
    refine hno _ (List.mem_of_getElem? hget) ?_
    rw [idOf, hget]
    rfl
  · obtain ⟨dep, hdep, hid⟩ := hij.dep
    obtain ⟨k, hk, hik, hkid⟩ := hall dep hdep
    obtain rfl := hnamed i j k hij hik (by
      rw [hid, ← hkid, idOf, getElem?_eq_getElem (hlt k hk)]
      rfl)
    exact hk

theorem queue_runs (h : Fired (QueueFires nodes) done []) (hi : i ∈ done) :
    Runs nodes i ∧ (depsOf nodes i).Nodup := by
  have hnodup : done.Nodup := by
    have := h.nodup
    rwa [append_nil] at this
  have hlt : ∀ j ∈ done, j < nodes.length := fun j hj => ((h.exhausted j).mp hj).1
  refine h.induction (motive := fun i => Runs nodes i ∧ (depsOf nodes i).Nodup)
    (fun pre i hpre hall hf => ?_) i hi
  obtain ⟨hdeps, hknown, hmem⟩ :=
    hf.deps hnamed (hnodup.sublist hpre.sublist) fun j hj => hlt j (hpre.subset hj)
  exact ⟨runs_of_deps hf.1 hknown fun j hij => (hall j (hmem j hij)).1, hdeps⟩

/-- **The queue runs the tasks that can run** when none of them lists a dependency twice. -/
theorem queue_run (hdeps : ∀ i, Runs nodes i → (depsOf nodes i).Nodup)
    (h : Fired (QueueFires nodes) done []) : i ∈ done ↔ Runs nodes i := by
  have hlt : ∀ j ∈ done, j < nodes.length := fun j hj => ((h.exhausted j).mp hj).1
  refine ⟨fun hi => (queue_runs hnamed h hi).1, fun hi => ?_⟩
  refine Runs.induction (motive := (· ∈ done)) (fun i hi hall => ?_) i hi
  refine (h.exhausted i).mpr ⟨hi.1, ?_⟩
  rw [credit_eq]
  refine ((hdeps i hi).subperm fun dep hdep => ?_).length_le
  obtain ⟨j, hij, hid⟩ := hi.known hdep
  refine mem_map.mpr ⟨j, (mem_credited hlt).mpr ⟨hall j hij, hij⟩, ?_⟩
  rw [idOf]
  obtain ⟨b, hb, rfl⟩ := Option.map_eq_some_iff.mp hid
  rw [hb]
  rfl

end

theorem getElem?_foldl_complete (l : List Nat) (table : List TaskNode) (i : Nat) :
    (l.foldl complete table)[i]? =
      (table[i]?).map fun node => if i ∈ l then { node with status := 2 } else node := by
  induction l generalizing table with
  | nil => simp
  | cons a l ih =>
    rw [foldl_cons, ih, complete, List.getElem?_modify]
    by_cases hai : a = i
    · subst hai
      cases table[a]? <;> simp
    · cases table[i]? <;> simp [hai, Ne.symm hai]

theorem foldl_complete_congr {l l' : List Nat} (h : ∀ i, i ∈ l ↔ i ∈ l') (table : List TaskNode) :
    l.foldl complete table = l'.foldl complete table := by
  ext1 i
  rw [getElem?_foldl_complete, getElem?_foldl_complete]
  simp [h i]

/-- **The two paths agree exactly on the graphs whose tasks that can run list no dependency twice**, where an
id that a task depends on names one task. -/
theorem paths_agree_iff (nodes : List TaskNode) (hnamed : Named nodes) :
    Agree nodes ↔ ∀ i, Runs nodes i → (depsOf nodes i).Nodup := by
  have hqueue := @dynamicOrder_fired nodes
  have hflat : (dynamicPath nodes).waves.flatten = dynamicOrder nodes := by
    show ((dynamicOrder nodes).map fun i => [i]).flatten = _
    induction dynamicOrder nodes with
    | nil => rfl
    | cons i l ih => rw [List.map_cons, flatten_cons, ih]; rfl
  constructor
  · rintro ⟨-, -, -, hexec, -⟩ i hi
    exact (queue_runs hnamed hqueue (hflat ▸ (hexec.runs i).mpr hi)).2
  · intro hdeps
    obtain ⟨waves, hwaves, hfired, hafter⟩ := @deterministicWaves nodes
    have hdet : ∀ i, i ∈ waves.flatten ↔ Runs nodes i := fun i => waves_run hnamed hfired
    have hdyn : ∀ i, i ∈ dynamicOrder nodes ↔ Runs nodes i := fun i => queue_run hnamed hdeps hqueue
    have hsame : ∀ i, i ∈ waves.flatten ↔ i ∈ dynamicOrder nodes := fun i => (hdet i).trans (hdyn i).symm
    have hnodup : waves.flatten.Nodup := by
      have := hfired.nodup
      rwa [append_nil] at this
    have hnodup' : (dynamicOrder nodes).Nodup := by
      have := hqueue.nodup
      rwa [append_nil] at this
    refine ⟨_, by rw [deterministicPath, hwaves]; rfl, ⟨hdet, hnodup, ?_⟩, ⟨?_, ?_, ?_⟩, ?_, ?_⟩
    · intro pre w post heq i hi j hij
      exact (hafter pre w post heq i hi).dep hnamed hij
    · rwa [hflat]
    · rwa [hflat]
    · intro pre w post heq i hi j hij
      have hmap : (dynamicOrder nodes).map ([·]) = pre ++ w :: post := heq
      obtain ⟨pre', rest, horder, rfl, hrest⟩ := List.map_eq_append_iff.mp hmap
      obtain ⟨k, post', rfl, rfl, -⟩ := List.map_eq_cons_iff.mp hrest
      obtain rfl := List.mem_singleton.mp hi
      have hpre : (pre'.map fun i => [i]).flatten = pre' := by
        clear * -
        induction pre' with
        | nil => rfl
        | cons i l ih => rw [List.map_cons, flatten_cons, ih]; rfl
      rw [hpre]
      have hsub : pre' <+: dynamicOrder nodes := ⟨_, horder.symm⟩
      refine ((hqueue.order pre' i post' horder).deps hnamed (hnodup'.sublist hsub.sublist) ?_).2.2 j hij
      exact fun k hk => ((hqueue.exhausted k).mp (hsub.subset hk)).1
    · exact foldl_complete_congr hsame nodes
    · exact ((List.perm_ext_iff_of_nodup hnodup hnodup').mpr hsame).length_eq

/-- Tasks with different ids. -/
theorem named_of_nodup (h : (nodes.map (·.id)).Nodup) : Named nodes := by
  intro i j k hj hk heq
  rw [← List.getElem?_map, ← List.getElem?_map] at heq
  exact (List.getElem?_inj (by rw [List.length_map]; exact hj.lt) h).mp heq

/-- The second task depends on the first, the third on both. -/
theorem paths_agree_sample :
    Agree [{ id := 7 }, { id := 3, deps := [7] }, { id := 9, deps := [3, 7] }] := by
  refine (paths_agree_iff _ (named_of_nodup (by decide))).mpr fun i hi => ?_
  obtain rfl | rfl | rfl : i = 0 ∨ i = 1 ∨ i = 2 := by
    have := hi.1
    simp only [List.length_cons, length_nil] at this
    omega
  all_goals decide

/-- A task that lists its dependency twice runs on the deterministic path only. -/
theorem paths_not_agree : ¬∀ nodes : List TaskNode, Named nodes → Agree nodes := by
  intro h
  obtain ⟨r, hr, -, -, -, hcount⟩ :=
    h [{ id := 0 }, { id := 1, deps := [0, 0] }] (named_of_nodup (by decide))
  have hrun : deterministicPath [{ id := 0 }, { id := 1, deps := [0, 0] }] =
      some ⟨[[0], [1]], [{ id := 0, status := 2 }, { id := 1, deps := [0, 0], status := 2 }], 2⟩ := rfl
  cases hrun.symm.trans hr
  exact absurd hcount (by decide)

end Datara.Runtime.Schedule
