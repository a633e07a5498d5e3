import Datara.Natvar.FiberCalls

/-!
# The scheduler keeps every fiber in one place

The polls, the mutexes and the scheduler's pass. In a run that keeps clear of the steps that lose a fiber
(`Careful`), every fiber that is neither done nor running is once in the list of its state and in no other
(`fibers_kept`).
-/

namespace Datara.Natvar

open Library
open scoped List

namespace Runtime

section
variable {s s' : Runtime} {p q : Ptr} {f f' : Fiber} {k j : Place}

/-! ## Polls -/

theorem wakeAll_spec {g : Fiber → Fiber} (hg : ∀ f, (g f).handle = f.handle) (ps : List Ptr) (s : Runtime) :
    ∃ heap, wakeAll g ps s = { s with heap := heap, ready := s.ready ++ ps } ∧
      (∀ q, q ∉ ps → heap q = s.heap q) ∧
      ∀ q ∈ ps, ∀ f, s.heap q = some f → ∃ f', heap q = some f' ∧ f'.state = .ready ∧ f'.handle = f.handle := by
  induction ps generalizing s with
  | nil => exact ⟨s.heap, by rw [List.append_nil]; rfl, fun _ _ => rfl, nofun⟩
  | cons p ps ih =>
    obtain ⟨heap, hout, hothers, hwoken⟩ := ih (s.wake g p)
    have hself : (s.wake g p).heap p = (s.heap p).map fun f => { g f with state := .ready } :=
      Function.update_self _ _ _
    have hother : ∀ q, q ≠ p → (s.wake g p).heap q = s.heap q := fun q hq => Function.update_of_ne hq _ _
    refine ⟨heap, ?_, fun q hq => ?_, fun q hq f hf => ?_⟩
    · show wakeAll g ps (s.wake g p) = _
      rw [hout]
      rw [← List.singleton_append, ← List.append_assoc]
      rfl
    · rw [List.mem_cons, not_or] at hq
      rw [hothers q hq.2, hother q hq.1]
    · have hmid : ∃ f', (s.wake g p).heap q = some f' ∧ f'.handle = f.handle ∧ (q = p → f'.state = .ready) := by
        by_cases hqp : q = p
        · subst hqp
          exact ⟨{ g f with state := .ready }, by rw [hself, hf]; rfl, hg f, fun _ => rfl⟩
        · exact ⟨f, (hother q hqp).trans hf, rfl, fun he => absurd he hqp⟩
      obtain ⟨f', hf', hhandle, hstate⟩ := hmid
      by_cases hin : q ∈ ps
      · obtain ⟨f'', hf'', hs, hh⟩ := hwoken q hin f' hf'
        exact ⟨f'', hf'', hs, hh.trans hhandle⟩
      · have hqp : q = p := (List.mem_cons.mp hq).resolve_right hin
        exact ⟨f', (hothers q hin).trans hf', hstate hqp, hhandle⟩

/-- **Some waiting fibers become ready.** -/
theorem inv_wakeAll {g : Fiber → Fiber} {ps : List Ptr} {t : Runtime} (h : Inv s)
    (hg : ∀ f, (g f).handle = f.handle) (hnodup : ps.Nodup)
    (hps : ∀ p ∈ ps, ∃ k, s.whereIs p = some k ∧ k ≠ .ready ∧ k ≠ .chan) (hheap : t.heap = s.heap)
    (hfibers : t.fibers = s.fibers) (hrun : t.running = s.running) (hchan : t.chanCells = s.chanCells)
    (hready : t.ready = s.ready)
    (hlists : ∀ j, j ≠ .ready → j ≠ .chan → t.listOf j = (s.listOf j).filter (fun q => q ∉ ps)) :
    Inv (wakeAll g ps t) := by
  obtain ⟨heap, hout, hothers, hwoken⟩ := wakeAll_spec hg ps t
  rw [hheap] at hothers hwoken
  set s' := wakeAll g ps t with hs'
  have hheap' : s'.heap = heap := by rw [hout]
  have hlive : ∀ p ∈ ps, ∃ f f', s.heap p = some f ∧ heap p = some f' ∧ f'.state = .ready ∧
      f'.handle = f.handle ∧ f.state ≠ .running ∧ f.state ≠ .done := by
    intro p hp
    obtain ⟨k, hk, -, -⟩ := hps p hp
    obtain ⟨f, hf, hplace⟩ := Option.bind_eq_some_iff.mp hk
    obtain ⟨f', hf', hs, hh⟩ := hwoken p hp f hf
    refine ⟨f, f', hf, hf', hs, hh, ?_, ?_⟩ <;>
      · intro he
        rw [placeOf, he] at hplace
        cases hplace
  have hsome : ∀ p, (s'.heap p).isSome = (s.heap p).isSome := by
    intro p
    rw [hheap']
    by_cases hp : p ∈ ps
    · obtain ⟨f, f', hf, hf', -⟩ := hlive p hp
      rw [hf, hf']
      rfl
    · rw [hothers p hp]
  have hdone : ∀ p, s'.isDone p = s.isDone p := by
    intro p
    by_cases hp : p ∈ ps
    · obtain ⟨f, f', hf, hf', hs, -, -, hnot⟩ := hlive p hp
      rw [isDone_eq (hheap' ▸ hf'), isDone_eq hf, hs, decide_eq_false hnot]
      rfl
    · rw [isDone, isDone, hheap', hothers p hp]
  have hcells : s'.chanCells = s.chanCells := by
    rw [hout]
    exact hchan
  have hhandle : ∀ n, s'.fiberByHandle n = s.fiberByHandle n := by
    intro n
    have hfib : s'.fibers = s.fibers := by
      rw [hout]
      exact hfibers
    rw [Runtime.fiberByHandle, Runtime.fiberByHandle, hfib, hheap']
    congr 1
    ext p
    by_cases hp : p ∈ ps
    · obtain ⟨f, f', hf, hf', -, hh, -⟩ := hlive p hp
      rw [hf, hf', Option.any_some, Option.any_some, hh]
    · rw [hothers p hp]
  refine ⟨?_, fun p hp => (hsome p).trans (h.cells p (hcells ▸ hp)), fun p hp => (hsome p).trans
    (h.table p ?_), fun p => ?_, fun p f hf hs q hq => ?_⟩
  · refine h.placed.moveAll (k := .ready) hnodup (fun j hj => ?_) ?_ (fun p hp => ?_) (fun p hp => ?_)
      fun p hp => ?_
    · rw [List.perm_iff_count]
      intro p
      have hcount := h.placed.count j p
      by_cases hc : j = .chan
      · subst hc
        have hnone : ps.filter (fun a => s.whereIs a = some .chan) = [] := by
          rw [List.filter_eq_nil_iff]
          intro a ha
          obtain ⟨k, hk, -, hne⟩ := hps a ha
          rw [hk]
          simpa using hne
        have hsame : s'.entries .chan = s.entries .chan := by
          show s'.chanCells.filter _ = s.chanCells.filter _
          rw [hcells]
          exact List.filter_congr fun a _ => by rw [hdone]
        rw [hnone, List.nil_append, hsame]
      · have hleft : s'.entries j = (s.entries j).filter fun q => q ∉ ps := by
          have hlist := hlists j hj hc
          rw [hout]
          cases j <;> first | exact hlist | exact absurd rfl hj | exact absurd rfl hc
        rw [hleft, List.count_append]
        by_cases hp : p ∈ ps
        · have hzero : ((s.entries j).filter fun q => q ∉ ps).count p = 0 := by
            apply List.count_eq_zero_of_not_mem
            intro hm
            exact absurd hp (of_decide_eq_true (List.mem_filter.mp hm).2)
          rw [hzero, hcount, Nat.add_zero]
          by_cases hw : s.whereIs p = some j
          · rw [if_pos hw, List.count_filter (by simpa using hw), List.count_eq_one_of_mem hnodup hp]
          · rw [if_neg hw]
            symm
            apply List.count_eq_zero_of_not_mem
            intro hm
            exact hw (by simpa using (List.mem_filter.mp hm).2)
        · have hzero : (ps.filter fun a => s.whereIs a = some j).count p = 0 :=
            List.count_eq_zero_of_not_mem fun hm => hp (List.mem_filter.mp hm).1
          rw [hzero, Nat.zero_add, List.count_filter (by simpa using hp)]
    · rw [hout]
      rw [hready]
      exact List.perm_append_comm
    · obtain ⟨k, hk, hne, -⟩ := hps p hp
      rw [hk]
      exact fun he => hne (Option.some.inj he)
    · obtain ⟨f, f', -, hf', hs, -⟩ := hlive p hp
      rw [whereIs_eq (hheap' ▸ hf'), placeOf, hs]
    · rw [whereIs, whereIs, hheap', hothers p hp]
  · have hfib : s'.fibers = s.fibers := by
      rw [hout]
      exact hfibers
    exact hfib ▸ hp
  · have hrunning : s'.running = s.running := by
      rw [hout]
      exact hrun
    rw [hrunning, h.running, hheap']
    by_cases hp : p ∈ ps
    · obtain ⟨f, f', hf, hf', hs, -, hnot, -⟩ := hlive p hp
      rw [hf, hf']
      simp [hs, hnot]
    · rw [hothers p hp]
  · rw [hdone]
    rw [hhandle] at hq
    rw [hheap'] at hf
    by_cases hp : p ∈ ps
    · obtain ⟨f₀, f', hf₀, hf', hready, -⟩ := hlive p hp
      cases hf'.symm.trans hf
      rw [hready] at hs
      cases hs
    · exact h.joins p f ((hothers p hp).symm.trans hf) hs q hq

theorem Inv.listOf_apart {ps : List Ptr} {j : Place} (h : Inv s) (hchan : j ≠ .chan)
    (hps : ∀ p ∈ ps, s.whereIs p ≠ some j) : s.listOf j = (s.listOf j).filter fun q => q ∉ ps := by
  have hentries : s.entries j = s.listOf j := by
    cases j <;> first | rfl | exact absurd rfl hchan
  symm
  rw [List.filter_eq_self]
  intro p hp
  apply decide_eq_true
  intro hin
  exact hps p hin (h.placed.mem_iff.mp (hentries ▸ hp))

theorem inv_ioWaitPollAndWake {now : Ptr → Int} {readable : Option (Int → Bool)} (h : Inv s) :
    Inv (s.ioWaitPollAndWake now readable) := by
  rw [ioWaitPollAndWake.eq_def]
  cases readable with
  | none => exact h
  | some r =>
    set woken : Ptr → Bool := fun p => (s.heap p).any fun f => r f.waitFd || expired (now p) f
    have hmem : ∀ p, p ∈ s.ioWaiters ↔ s.whereIs p = some .io := fun p => h.placed.mem_iff (k := .io)
    have hps : ∀ p ∈ s.ioWaiters.filter woken, s.whereIs p = some .io := fun p hp =>
      (hmem p).mp (List.mem_filter.mp hp).1
    refine inv_wakeAll h (fun _ => rfl) ((h.placed.nodup .io).filter _)
      (fun p hp => ⟨.io, hps p hp, nofun, nofun⟩) rfl rfl rfl rfl rfl fun j hready hchan => ?_
    by_cases hj : j = .io
    · subst hj
      refine List.filter_congr fun p hp => ?_
      have hin : p ∈ s.ioWaiters := hp
      rw [Bool.eq_iff_iff, Bool.not_eq_true', decide_eq_true_eq, List.mem_filter]
      simp [hin]
    · rw [← h.listOf_apart hchan fun p hp => by rw [hps p hp]; exact fun he => hj (Option.some.inj he).symm]
      cases j <;> first | rfl | exact absurd rfl hj

/-! ## Mutexes -/

theorem listOf_mutex (s : Runtime) (i : Nat) :
    s.listOf (.mutex i) = ((s.mutexes[i]?).map (·.waiters)).getD [] := rfl

theorem listOf_setMutex {i j : Nat} {g : FiberMutex → FiberMutex} :
    (s.setMutex i g).listOf (.mutex j) =
      if i = j then ((s.mutexes[j]?).map fun m => (g m).waiters).getD [] else s.listOf (.mutex j) := by
  show (((s.mutexes.modify i g)[j]?).map (·.waiters)).getD [] = _
  rw [List.getElem?_modify]
  split
  · cases s.mutexes[j]? <;> rfl
  · cases hj : s.mutexes[j]? <;> simp [listOf, hj]

theorem listOf_mutexNew (j : Nat) :
    listOf { s with mutexes := s.mutexes ++ [{}] } (.mutex j) = s.listOf (.mutex j) := by
  rw [listOf_mutex, listOf_mutex]
  simp only [List.getElem?_append, List.getElem?_singleton]
  split
  · rfl
  · rename_i hlt
    rw [List.getElem?_eq_none (Nat.le_of_not_lt hlt)]
    split <;> rfl

theorem inv_setMutex {i : Nat} {g : FiberMutex → FiberMutex} (h : Inv s)
    (hg : ∀ m, (g m).waiters = m.waiters) : Inv (s.setMutex i g) := by
  refine h.congr rfl rfl rfl fun j => ?_
  cases j with
  | mutex j =>
    rw [listOf_setMutex]
    split
    · simp only [hg]
      rfl
    · rfl
  | _ => rfl

theorem mutexById_bind {id : Int} {i : Nat} {m : FiberMutex}
    (h : ((s.mutexById id).bind fun i => (s.mutexes[i]?).map fun m => (i, m)) = some (i, m)) :
    i = id.toNat ∧ s.mutexes[i]? = some m := by
  rw [Option.bind_eq_some_iff] at h
  obtain ⟨j, hj, hm⟩ := h
  obtain ⟨m', hm', he⟩ := Option.map_eq_some_iff.mp hm
  cases he
  rw [mutexById] at hj
  split at hj
  · cases hj
  · exact ⟨(Option.some.inj hj).symm, hm'⟩

theorem inv_mutexLock {id now timeout : Int} (h : Inv s) : Inv (s.mutexLock id now timeout).2 := by
  rw [mutexLock]
  split
  case h_1 => exact h
  case h_2 i m hm =>
    obtain ⟨hi, hget⟩ := mutexById_bind hm
    split
    case isTrue => exact inv_setMutex h fun _ => rfl
    case isFalse =>
      cases hp : s.running with
      | none => exact h
      | some p =>
        simp only
        split
        case isTrue => exact h
        case isFalse =>
          obtain ⟨f, hf, -, -⟩ := h.whereIs_running hp
          refine h.parkEnd (k := .mutex i) (updated (fun f =>
              { f with state := .waitingMutex, waitOn := id, wakeResult := -1, call := some .lock
                       waitDeadline := if 0 < timeout then now + timeout else 0 }) hf rfl rfl rfl)
            hp (by rw [hi]; rfl) rfl nofun ?_ (fun j hj => ?_) nofun
          · show (Runtime.setMutex i _ _).listOf (.mutex i) = _
            rw [listOf_setMutex, if_pos rfl, listOf_mutex]
            show ((s.mutexes[i]?).map _).getD [] = _
            rw [hget]
            rfl
          · cases j with
            | mutex j =>
              show (Runtime.setMutex i _ _).listOf (.mutex j) = _
              rw [listOf_setMutex, if_neg fun he : i = j => hj (by rw [he])]
              rfl
            | _ => rfl

theorem inv_mutexUnlock {id : Int} (h : Inv s) : Inv (s.mutexUnlock id).2 := by
  rw [mutexUnlock]
  split
  case h_1 => exact h
  case h_2 i m hm =>
    obtain ⟨-, hget⟩ := mutexById_bind hm
    split
    case h_2 => exact inv_setMutex h fun _ => rfl
    case h_1 next rest hwaiters =>
      have hlist : s.entries (.mutex i) = next :: rest := by
        show s.listOf (.mutex i) = _
        rw [listOf_mutex, hget]
        exact hwaiters
      obtain ⟨f, hf, hplace⟩ := h.heap_of_mem (k := .mutex i) (hlist ▸ List.mem_cons_self (a := next))
      have hdone : FiberState.ready = .done ↔ f.state = .done := by
        refine ⟨by simp, fun he => ?_⟩
        rw [placeOf, he] at hplace
        cases hplace
      set t := (s.setMutex i fun m =>
        { m with waiters := rest, owner := (s.heap next).elim 0 (·.handle) }).wake
          (fun f => { f with wakeResult := 1 }) next
      have u : Updated s t next f _ :=
        updated (fun f => { f with wakeResult := 1, state := .ready }) hf rfl rfl rfl
      have hmutex : ∀ j, t.listOf (.mutex j) = if i = j then rest else s.listOf (.mutex j) := by
        intro j
        show (Runtime.setMutex i _ s).listOf (.mutex j) = _
        rw [listOf_setMutex]
        split
        case isTrue hj =>
          subst hj
          rw [hget]
          rfl
        case isFalse => rfl
      refine h.woken (k := .mutex i) u (by simp) rfl rfl ?_ (List.perm_append_singleton next _)
        (fun j h₁ h₂ => u.entries_eq hdone ?_) h.cells
      · have ht : t.entries (.mutex i) = rest := (hmutex i).trans (if_pos rfl)
        rw [hlist, ht]
      · cases j with
        | mutex j => rw [hmutex, if_neg fun he : i = j => h₂ (by rw [he])]
        | ready => exact absurd rfl h₁
        | _ => rfl

theorem nodup_mutexes (hnodup : ∀ i, (s.listOf (.mutex i)).Nodup)
    (hplace : ∀ i, ∀ p ∈ s.listOf (.mutex i), s.whereIs p = some (.mutex i)) (woken : Ptr → Bool) :
    (s.mutexes.flatMap fun m => m.waiters.filter woken).Nodup := by
  have hlist : ∀ i, (hi : i < s.mutexes.length) → s.listOf (.mutex i) = s.mutexes[i].waiters := by
    intro i hi
    rw [listOf_mutex, List.getElem?_eq_getElem hi]
    rfl
  rw [List.nodup_flatMap]
  constructor
  · intro m hm
    obtain ⟨i, hi, rfl⟩ := List.getElem_of_mem hm
    exact (hlist i hi ▸ hnodup i).filter _
  · rw [List.pairwise_iff_getElem]
    intro i j hi hj hlt p hp hp'
    have hi' := hplace i p (hlist i hi ▸ (List.mem_filter.mp hp).1)
    have hj' := hplace j p (hlist j hj ▸ (List.mem_filter.mp hp').1)
    rw [hi', Option.some.injEq, Place.mutex.injEq] at hj'
    omega

theorem inv_mutexWaitPollAndWake {now : Ptr → Int} (h : Inv s) : Inv (s.mutexWaitPollAndWake now).2 := by
  rw [mutexWaitPollAndWake]
  set woken : Ptr → Bool := fun p => (s.heap p).any (expired (now p)) with hwoken
  set ps := s.mutexes.flatMap fun m => m.waiters.filter woken with hps
  have hmem : ∀ i p, p ∈ s.listOf (.mutex i) ↔ s.whereIs p = some (.mutex i) :=
    fun i p => h.placed.mem_iff (k := .mutex i)
  have hplace : ∀ p ∈ ps, woken p = true ∧ ∃ i, s.whereIs p = some (.mutex i) := by
    intro p hp
    obtain ⟨m, hm, hp⟩ := List.mem_flatMap.mp hp
    obtain ⟨i, hi, rfl⟩ := List.getElem_of_mem hm
    rw [List.mem_filter] at hp
    refine ⟨hp.2, i, (hmem i p).mp ?_⟩
    rw [listOf_mutex, List.getElem?_eq_getElem hi]
    exact hp.1
  refine inv_wakeAll h (fun _ => rfl) (nodup_mutexes (fun i => h.placed.nodup (.mutex i)) (fun i p => (hmem i p).mp) woken) (fun p hp => ?_) rfl rfl rfl rfl rfl
    fun j hready hchan => ?_
  · obtain ⟨-, i, hi⟩ := hplace p hp
    exact ⟨.mutex i, hi, nofun, nofun⟩
  · by_cases hj : ∃ i, j = .mutex i
    · obtain ⟨i, rfl⟩ := hj
      rw [listOf_mutex, listOf_mutex]
      simp only [List.getElem?_map]
      cases hi : s.mutexes[i]? with
      | none => rfl
      | some m =>
        refine List.filter_congr fun p hp => ?_
        have hin : p ∈ ps ↔ woken p = true := by
          refine ⟨fun hp => (hplace p hp).1, fun hw => ?_⟩
          exact List.mem_flatMap.mpr ⟨m, List.mem_of_getElem? hi, List.mem_filter.mpr ⟨hp, hw⟩⟩
        rw [Bool.eq_iff_iff, Bool.not_eq_true', decide_eq_true_eq, hin, Bool.not_eq_true]
    · rw [← h.listOf_apart hchan fun p hp he => ?_]
      · cases j <;> first | rfl | exact absurd ⟨_, rfl⟩ hj
      · obtain ⟨-, i, hi⟩ := hplace p hp
        exact hj ⟨i, Option.some.inj (he.symm.trans hi)⟩

/-! ## Passes and runs -/

theorem inv_pass {lastNow : Int} {now : Ptr → Int} {readable : Option (Int → Bool)} (h : Inv s)
    (hnone : s.running = none) : Inv (s.pass lastNow now readable).2 := by
  have hpromoted : Inv (s.promote lastNow) := inv_promote h
  have hnone' : (s.promote lastNow).running = none := by
    rw [promote]
    cases hdue : s.timerPopDue lastNow with
    | none => exact hnone
    | some d =>
      obtain ⟨l, -, he⟩ := timerPopDue_some hdue
      show d.2.running = none
      rw [he]
      exact hnone
  rw [pass.eq_def]
  split
  case isTrue => exact h
  case isFalse =>
    cases hnext : (s.promote lastNow).nextFiber lastNow with
    | some d =>
      simp only [hnext]
      exact inv_start hpromoted hnone' hnext
    | none =>
      simp only [hnext]
      split
      case isTrue => exact hpromoted
      case isFalse =>
        split
        case isTrue => exact inv_ioWaitPollAndWake hpromoted
        case isFalse =>
          split
          case isTrue => exact inv_mutexWaitPollAndWake hpromoted
          case isFalse => split <;> exact hpromoted

/-- What is asked of a call that may park its fiber. -/
def CallClear (call : Call) (got : Option Reply) (s : Runtime) : Prop :=
  match call with
  | .join target handle => s.isDone target = false → s.waitingJoin.length < timerMax ∧
      ∀ q, s.fiberByHandle handle = some q → s.isDone q = false
  | .recv chan => ∀ i, s.chanById chan = some i → RecvClear chan i s
  | .lock => True
  | .netRecv _ _ => got = none → s.ioWaiters.length < ioMax

/-- **A step that loses no fiber**: the list it adds to has room (and, on a channel, the other array's
cell no fiber), a send meets no parked receiver, the fiber that ends is joined by none, and a reset comes
from the main thread and finds no waiter of a mutex. -/
def Careful (e : Event) (s : Runtime) : Prop :=
  match e with
  | .sleep _ _ => s.running ≠ none → s.sleeping.length < timerMax
  | .join handle => ∀ target, s.running ≠ none → s.fiberByHandle handle = some target →
      s.isDone target = false → s.waitingJoin.length < timerMax
  | .send chan _ => s.running ≠ none → (s.chanById chan).isSome → SendClear chan s
  | .recv chan _ => ∀ i, s.chanById chan = some i → RecvClear chan i s
  | .netRecv _ _ _ got => s.running ≠ none → got = none → s.ioWaiters.length < ioMax
  | .resume _ got => ∀ call, s.currentCall = some call → CallClear call got s
  | .finish => ∀ p, s.running = some p → ∀ q ∈ s.waitingJoin, ∀ g, s.heap q = some g →
      s.fiberByHandle g.waitOn ≠ some p
  | .reset => s.running = none ∧ ∀ m ∈ s.mutexes, m.waiters = []
  | _ => True

theorem inv_resume {call : Call} {now : Int} {got : Option Reply} (h : Inv s) (hp : s.running = some p)
    (hclear : CallClear call got s) : Inv (s.resume p call now got).2 := by
  cases call with
  | join target handle => exact inv_joinLoop h hp hclear
  | recv chan => exact inv_chanRecv h hclear
  | lock =>
    obtain ⟨f, hf, -, -⟩ := h.whereIs_running hp
    exact h.touched (updated (fun f => { f with call := none }) hf rfl rfl rfl) rfl rfl rfl fun j => by
      cases j <;> rfl
  | netRecv sock timeout => exact inv_netRecv h fun _ => hclear

/-- **One step** keeps the invariant. -/
theorem inv_step {e : Event} {r : Reply} (h : Inv s) (hcareful : Careful e s)
    (hstep : s.step e = some (r, s')) : Inv s' := by
  rw [step.eq_def] at hstep
  have hout : ∀ {out : Reply × Runtime}, some out = some (r, s') → Inv out.2 → Inv s' := by
    intro out he hinv
    rwa [Option.some.inj he] at hinv
  split at hstep
  case h_1 now got p call hp hcall => exact hout hstep (inv_resume h hp (hcareful call hcall))
  case h_2 p hp _ => exact hout hstep (inv_finish h hp (hcareful p hp))
  case h_3 hp => exact hout hstep (inv_pass h hp)
  case h_4 addr _ _ =>
    split at hstep
    case isTrue => cases hstep
    case isFalse hfree =>
      refine hout hstep (inv_spawn h fun p hp => ?_)
      rw [hp, Option.any_some, Option.not_isSome_iff_eq_none] at hfree
      exact hfree
  case h_5 => exact hout hstep (inv_yield h)
  case h_6 => exact hout hstep (inv_sleepMs h hcareful)
  case h_7 => exact hout hstep (inv_join h hcareful)
  case h_8 =>
    refine hout hstep ?_
    rw [chanCreate]
    split
    · exact h
    · exact h.congr rfl rfl rfl fun j => by cases j <;> rfl
  case h_9 => exact hout hstep (inv_chanSend h hcareful)
  case h_10 => exact hout hstep (inv_chanRecv h hcareful)
  case h_11 =>
    refine hout hstep ?_
    rw [mutexNew]
    split
    · exact h
    · refine h.congr rfl rfl rfl fun j => ?_
      cases j with
      | mutex j => exact listOf_mutexNew j
      | _ => rfl
  case h_12 => exact hout hstep (inv_mutexLock h)
  case h_13 => exact hout hstep (inv_mutexUnlock h)
  case h_14 => exact hout hstep (inv_netRecv h hcareful)
  case h_15 => exact hout hstep (inv_reset hcareful.2)
  case h_16 => cases hstep

/-- A run whose steps all lose no fiber. -/
def CarefulRun : List Event → Runtime → Prop
  | [], _ => True
  | e :: es, s => Careful e s ∧ ∀ r s', s.step e = some (r, s') → CarefulRun es s'

/-- **A careful run** keeps the invariant. -/
theorem inv_run (es : List Event) (h : Inv s) (hcareful : CarefulRun es s) (hrun : s.run es = some s') :
    Inv s' := by
  induction es generalizing s with
  | nil =>
    cases hrun
    exact h
  | cons e es ih =>
    rw [run, Option.bind_eq_some_iff] at hrun
    obtain ⟨⟨r, t⟩, hstep, hrun⟩ := hrun
    exact ih (inv_step h hcareful.1 hstep) (hcareful.2 r t hstep) hrun

theorem inv_init : Inv {} := by
  have hcells : chanCells {} = [] := rfl
  refine ⟨⟨fun k p => ?_⟩, fun p hp => ?_, fun p hp => ?_, fun p => ?_, fun p f hf => ?_⟩
  · have hlist : entries {} k = [] := by
      cases k <;> rfl
    rw [hlist]
    rfl
  · rw [hcells] at hp
    cases hp
  · cases hp
  · simp
  · cases hf

end

/-- The main thread and a clock that stands. -/
def Event.tick : Event := .pass 0 (fun _ => 0) none

/-- Two fibers, the first of which sleeps while the second parks a value on a channel. -/
def sampleRun : List Event :=
  [.chanCreate, .spawn (some 0), .spawn (some 1), .tick, .sleep 0 5, .tick, .send 1 7, .tick]

theorem CarefulRun.cons {e : Event} {es : List Event} {s s' : Runtime} {r : Reply} (hcareful : Careful e s)
    (hstep : s.step e = some (r, s')) (h : CarefulRun es s') : CarefulRun (e :: es) s := by
  refine ⟨hcareful, fun r₁ s₁ h₁ => ?_⟩
  cases hstep.symm.trans h₁
  exact h

end Runtime

end Datara.Natvar
