import Datara.Natvar.FibersPlaced

/-!
# The calls keep fibers in place

One lemma for each call of a program, under the condition that its fiber is not lost: that there is room
in the list it goes to and, on a channel, no fiber in the other array's cell.
-/

namespace Datara.Natvar

open Library
open scoped List

namespace Runtime

section
variable {s s' : Runtime} {p q : Ptr} {f f' : Fiber} {k j : Place}

/-! ## The calls -/

theorem inv_yield (h : Inv s) : Inv s.yield.2 := by
  rw [yield]
  cases hp : s.running with
  | none => exact h
  | some p =>
    obtain ⟨f, hf, -, -⟩ := h.whereIs_running hp
    have u : Updated s (switchOut (s.wake id p)) p f _ :=
      updated (fun f => { f with state := .ready }) hf rfl rfl rfl
    refine h.parkEnd (k := .ready) u hp rfl rfl nofun rfl (fun j hj => ?_) nofun
    cases j <;> first | rfl | exact absurd rfl hj

theorem inv_sleepMs {now ms : Int} (h : Inv s)
    (hroom : s.running ≠ none → s.sleeping.length < timerMax) : Inv (s.sleepMs now ms).2 := by
  rw [sleepMs]
  cases hp : s.running with
  | none => exact h
  | some p =>
    obtain ⟨f, hf, -, -⟩ := h.whereIs_running hp
    have hadd : ∀ g, timerAdd p (s.setFiber p g) = { s.setFiber p g with sleeping := s.sleeping ++ [p] } :=
      fun g => if_pos (hroom (by rw [hp]; nofun))
    simp only [hadd]
    refine h.parkEnd (k := .sleeping)
      (updated (fun f => { f with state := .sleeping, wakeMs := now + ms }) hf rfl rfl rfl)
      hp rfl rfl nofun rfl (fun j hj => ?_) nofun
    cases j <;> first | rfl | exact absurd rfl hj

theorem inv_joinLoop {target : Ptr} {handle : Int} (h : Inv s) (hp : s.running = some p)
    (htarget : s.isDone target = false → s.waitingJoin.length < timerMax ∧
      ∀ q, s.fiberByHandle handle = some q → s.isDone q = false) :
    Inv (s.joinLoop p target handle).2 := by
  obtain ⟨f, hf, -, -⟩ := h.whereIs_running hp
  rw [joinLoop]
  split
  case isTrue =>
    exact h.touched (updated (fun f => { f with call := none }) hf rfl rfl rfl) rfl rfl rfl fun j => by
      cases j <;> rfl
  case isFalse hdone =>
    obtain ⟨hroom, hopen⟩ := htarget (Bool.eq_false_iff.mpr hdone)
    have hadd : ∀ g, waitingJoinAdd p (s.setFiber p g) =
        { s.setFiber p g with waitingJoin := s.waitingJoin ++ [p] } := fun g => if_pos hroom
    simp only [hadd]
    refine h.parkEnd (k := .join) (updated (fun f =>
        { f with state := .waitingJoin, waitOn := handle, call := some (.join target handle) }) hf rfl rfl rfl)
      hp rfl rfl nofun rfl (fun j hj => ?_) fun _ => hopen
    cases j <;> first | rfl | exact absurd rfl hj

theorem inv_join {handle : Int} (h : Inv s) (hroom : ∀ target, s.running ≠ none →
      s.fiberByHandle handle = some target → s.isDone target = false → s.waitingJoin.length < timerMax) :
    Inv (s.join handle).2 := by
  rw [join]
  cases hp : s.running with
  | none =>
    simp only
    split <;> exact h
  | some p =>
    cases ht : s.fiberByHandle handle with
    | none => exact h
    | some target =>
      refine inv_joinLoop h hp fun hdone => ⟨hroom target (by rw [hp]; nofun) ht hdone, fun q hq => ?_⟩
      cases ht.symm.trans hq
      exact hdone

theorem inv_netRecv {sock now timeout : Int} {got : Option Reply} (h : Inv s)
    (hroom : s.running ≠ none → got = none → s.ioWaiters.length < ioMax) :
    Inv (s.netRecv sock now timeout got).2 := by
  rw [netRecv.eq_def]
  split
  case isTrue => exact h
  case isFalse =>
    cases hp : s.running with
    | none => cases got <;> exact h
    | some p =>
      obtain ⟨f, hf, -, -⟩ := h.whereIs_running hp
      cases got with
      | some r =>
        exact h.touched (updated (fun f => { f with call := none }) hf rfl rfl rfl) rfl rfl rfl fun j => by
          cases j <;> rfl
      | none =>
        have hadd : ∀ g, ioWaitAdd p (s.setFiber p g) =
            { s.setFiber p g with ioWaiters := s.ioWaiters ++ [p] } :=
          fun g => if_pos (hroom (by rw [hp]; nofun) rfl)
        simp only [hadd]
        refine h.parkEnd (k := .io) (updated (fun f =>
            { f with state := .waitingIo, waitFd := sock, call := some (.netRecv sock timeout)
                     waitDeadline := if 0 < timeout then now + timeout else 0 }) hf rfl rfl rfl)
          hp rfl rfl nofun rfl (fun j hj => ?_) nofun
        cases j <;> first | rfl | exact absurd rfl hj

/-! ## Channels -/

/-- A cell that holds no fiber that is not done. -/
def Vacant (cell : Option Ptr) (s : Runtime) : Prop := ∀ q, cell = some q → s.isDone q = true

theorem Vacant.filter {cell : Option Ptr} (h : Vacant cell s) :
    (cell.toList).filter (fun q => !s.isDone q) = [] := by
  cases cell with
  | none => rfl
  | some q => simp [h q rfl]

theorem isSome_of_isDone (h : s.isDone q = true) : (s.heap q).isSome := by
  rw [isDone] at h
  cases hq : s.heap q with
  | none =>
    rw [hq] at h
    cases h
  | some f => rfl

variable {g : Fiber → Fiber}

/-- What a fiber parks with on a channel. -/
theorem inv_chanPark (h : Inv s) (hp : s.running = some p) (hf : s.heap p = some f)
    (hstate : (g f).state = .waitingChan) (hhandle : (g f).handle = f.handle)
    (hheap : s'.heap = (s.setFiber p g).heap) (hfibers : s'.fibers = s.fibers) (hrun : s'.running = none)
    (hj : ∀ j, j ≠ .chan → s'.listOf j = s.listOf j) {cell : Option Ptr}
    (hcells : s'.chanCells ~ p :: s.chanCells ++ cell.toList) (hvacant : Vacant cell s) : Inv s' := by
  obtain ⟨g', hg', hs, -⟩ := h.whereIs_running hp
  cases hf.symm.trans hg'
  have u : Updated s s' p f (g f) := updated g hf hheap hfibers hhandle
  have hdone : (g f).state = .done ↔ f.state = .done := by
    rw [hs, hstate]
    simp
  refine h.park (k := .chan) u hp (by rw [placeOf, hstate]) hrun ?_ (fun j hne => u.entries_eq hdone (hj j hne))
    (fun q hq => ?_) fun he => ?_
  · have hsame : s'.entries .chan = s'.chanCells.filter fun q => !s.isDone q := u.filter_done hdone _
    have hnot : s.isDone p = false := by
      rw [isDone_eq hf, hs]
      rfl
    rw [hsame]
    calc s'.chanCells.filter (fun q => !s.isDone q)
        ~ (p :: s.chanCells ++ cell.toList).filter (fun q => !s.isDone q) := hcells.filter _
      _ = p :: s.entries .chan := by
        rw [List.filter_append, hvacant.filter, List.append_nil, List.filter_cons_of_pos (by rw [hnot]; rfl)]
        rfl
  · have hq := hcells.mem_iff.mp hq
    rcases List.mem_append.mp hq with hq | hq
    · rcases List.mem_cons.mp hq with rfl | hq
      · rw [hf]
        rfl
      · exact h.cells q hq
    · exact isSome_of_isDone (hvacant q (Option.mem_toList.mp hq))
  · rw [hstate] at he
    cases he

/-- A fiber parks as a receiver. -/
theorem inv_chanRecvAdd (h : Inv s) (hp : s.running = some p) (hf : s.heap p = some f)
    (hstate : (g f).state = .waitingChan) (hhandle : (g f).handle = f.handle)
    (hroom : s.waitingChanCount < timerMax) (hvacant : Vacant (s.waitingChanSend s.waitingChanCount) s) :
    Inv (switchOut (chanRecvAdd p (s.setFiber p g))) := by
  have hadd : chanRecvAdd p (s.setFiber p g) = { s.setFiber p g with
      waitingChanRecv := Function.update s.waitingChanRecv s.waitingChanCount (some p)
      waitingChanCount := s.waitingChanCount + 1 } := if_pos hroom
  rw [hadd]
  refine inv_chanPark h hp hf hstate hhandle rfl rfl rfl (fun j hj => ?_) ?_ hvacant
  · cases j <;> first | rfl | exact absurd rfl hj
  · show Library.cells (Function.update s.waitingChanRecv s.waitingChanCount (some p))
      (s.waitingChanCount + 1) ++ Library.cells s.waitingChanSend (s.waitingChanCount + 1) ~ _
    rw [cells_push, cells_succ, ← List.append_assoc]
    exact (List.perm_append_comm |>.append_right _).append_right _

/-- A fiber parks as a sender. -/
theorem inv_chanSendAdd (h : Inv s) (hp : s.running = some p) (hf : s.heap p = some f)
    (hstate : (g f).state = .waitingChan) (hhandle : (g f).handle = f.handle)
    (hroom : s.waitingChanCount < timerMax) (hvacant : Vacant (s.waitingChanRecv s.waitingChanCount) s) :
    Inv (switchOut (chanSendAdd p (s.setFiber p g))) := by
  have hadd : chanSendAdd p (s.setFiber p g) = { s.setFiber p g with
      waitingChanSend := Function.update s.waitingChanSend s.waitingChanCount (some p)
      waitingChanCount := s.waitingChanCount + 1 } := if_pos hroom
  rw [hadd]
  refine inv_chanPark h hp hf hstate hhandle rfl rfl rfl (fun j hj => ?_) ?_ hvacant
  · cases j <;> first | rfl | exact absurd rfl hj
  · show Library.cells s.waitingChanRecv (s.waitingChanCount + 1) ++ Library.cells
      (Function.update s.waitingChanSend s.waitingChanCount (some p)) (s.waitingChanCount + 1) ~ _
    rw [cells_push, cells_succ]
    calc Library.cells s.waitingChanRecv s.waitingChanCount ++ (s.waitingChanRecv s.waitingChanCount).toList ++
          (Library.cells s.waitingChanSend s.waitingChanCount ++ [p])
        ~ [p] ++ (Library.cells s.waitingChanRecv s.waitingChanCount ++
            (s.waitingChanRecv s.waitingChanCount).toList ++
            Library.cells s.waitingChanSend s.waitingChanCount) := by
          rw [← List.append_assoc]
          exact List.perm_append_comm
      _ ~ [p] ++ (Library.cells s.waitingChanRecv s.waitingChanCount ++
            Library.cells s.waitingChanSend s.waitingChanCount ++
            (s.waitingChanRecv s.waitingChanCount).toList) := by
          rw [List.append_assoc, List.append_assoc]
          exact (List.perm_append_comm.append_left _).append_left _

variable {i : Nat}

theorem findWaiter_some {chan : Int} {c : Nat → Option Ptr} (h : s.findWaiter chan c = some i) :
    i < s.waitingChanCount ∧
      ∃ q f, c i = some q ∧ s.heap q = some f ∧ f.state = .waitingChan ∧ f.waitOn = chan := by
  have hmem := List.mem_range.mp (List.mem_of_find?_eq_some h)
  have hwaits := List.find?_some h
  refine ⟨hmem, ?_⟩
  cases hc : c i with
  | none =>
    rw [hc] at hwaits
    cases hwaits
  | some q =>
    rw [hc, waitsOnChan, Option.bind_some] at hwaits
    cases hq : s.heap q with
    | none =>
      rw [hq] at hwaits
      cases hwaits
    | some f =>
      rw [hq, Option.any_some, Bool.and_eq_true, decide_eq_true_eq, decide_eq_true_eq] at hwaits
      exact ⟨q, f, rfl, hq, hwaits⟩

/-- A sender is woken, and the last sender's cell goes into its. -/
theorem inv_wakeSendOf {chan : Int} (h : Inv s) (hvacant : (s.findWaiter chan s.waitingChanSend).isSome →
      Vacant (s.waitingChanRecv (s.waitingChanCount - 1)) s) : Inv (s.wakeSendOf chan) := by
  rw [wakeSendOf]
  cases hfind : s.findWaiter chan s.waitingChanSend with
  | none => exact h
  | some i =>
    obtain ⟨hi, q, f, hc, hf, hs, -⟩ := findWaiter_some hfind
    have hvacant := hvacant (by rw [hfind]; rfl)
    obtain ⟨n, hn⟩ : ∃ n, s.waitingChanCount = n + 1 := ⟨s.waitingChanCount - 1, by omega⟩
    rw [hn, Nat.add_sub_cancel] at hvacant
    simp only [hc, Option.elim_some]
    set s' : Runtime := { s.wake id q with
      waitingChanSend := Function.update (s.wake id q).waitingChanSend i
        ((s.wake id q).waitingChanSend ((s.wake id q).waitingChanCount - 1))
      waitingChanCount := (s.wake id q).waitingChanCount - 1 }
    have u : Updated s s' q f _ := updated (fun f => { f with state := .ready }) hf rfl rfl rfl
    have hleft : s'.chanCells = Library.cells s.waitingChanRecv n ++
        Library.cells (Function.update s.waitingChanSend i (s.waitingChanSend n)) n := by
      show Library.cells s.waitingChanRecv (s.waitingChanCount - 1) ++
        Library.cells (Function.update s.waitingChanSend i (s.waitingChanSend (s.waitingChanCount - 1)))
          (s.waitingChanCount - 1) = _
      rw [hn, Nat.add_sub_cancel]
    have hdone : FiberState.ready = .done ↔ f.state = .done := by
      rw [hs]
      simp
    have hcells : s.chanCells ~ q :: s'.chanCells ++ (s.waitingChanRecv n).toList := by
      rw [hleft, chanCells, hn, cells_succ (c := s.waitingChanRecv)]
      calc _ ~ Library.cells s.waitingChanRecv n ++ (s.waitingChanRecv n).toList ++
            (q :: Library.cells (Function.update s.waitingChanSend i (s.waitingChanSend n)) n) :=
          (cells_swap (by omega) hc).append_left _
        _ ~ q :: (Library.cells s.waitingChanRecv n ++ (s.waitingChanRecv n).toList ++
            Library.cells (Function.update s.waitingChanSend i (s.waitingChanSend n)) n) :=
          List.perm_middle
        _ ~ _ := by
          rw [List.append_assoc, List.cons_append, List.append_assoc]
          exact (List.perm_append_comm.append_left _).cons _
    have hnot : s.isDone q = false := by
      rw [isDone_eq hf, hs]
      rfl
    refine h.woken (k := .chan) u nofun rfl rfl ?_ (List.perm_append_singleton q _) (fun j h₁ h₂ => ?_)
      (fun r hr => h.cells r (hcells.mem_iff.mpr ?_))
    · calc s.chanCells.filter (fun r => !s.isDone r)
          ~ (q :: s'.chanCells ++ (s.waitingChanRecv n).toList).filter (fun r => !s.isDone r) :=
            hcells.filter _
        _ = q :: s'.chanCells.filter (fun r => !s.isDone r) := by
          rw [List.filter_append, hvacant.filter, List.append_nil,
            List.filter_cons_of_pos (by rw [hnot]; rfl)]
        _ = q :: s'.entries .chan := congrArg _ (u.filter_done hdone _).symm
    · exact u.entries_eq hdone (by cases j <;> first | rfl | exact absurd rfl h₁ | exact absurd rfl h₂)
    · exact List.mem_append_left _ (List.mem_cons_of_mem _ hr)

/-- A send finds no parked receiver, and parks beside a vacant cell. -/
structure SendClear (chan : Int) (s : Runtime) : Prop where
  unmet : s.findWaiter chan s.waitingChanRecv = none
  room : s.waitingChanCount < timerMax
  vacant : Vacant (s.waitingChanRecv s.waitingChanCount) s

theorem inv_setChan {g : FiberChan → FiberChan} (h : Inv s) : Inv (s.setChan i g) :=
  h.congr rfl rfl rfl fun j => by cases j <;> rfl

theorem inv_chanSend {chan value : Int} (h : Inv s)
    (hclear : s.running ≠ none → (s.chanById chan).isSome → SendClear chan s) :
    Inv (s.chanSend chan value).2 := by
  rw [chanSend]
  cases hi : s.chanById chan with
  | none => exact h
  | some i =>
    cases hp : s.running with
    | none => exact h
    | some p =>
      obtain ⟨f, hf, -, -⟩ := h.whereIs_running hp
      obtain ⟨hunmet, hroom, hvacant⟩ := hclear (by rw [hp]; nofun) (by rw [hi]; rfl)
      have hset : Inv (s.setChan i fun _ => { buf := value, hasValue := true }) := inv_setChan h
      have hwake : wakeRecvOf chan (s.setChan i fun _ => { buf := value, hasValue := true }) =
          s.setChan i fun _ => { buf := value, hasValue := true } := by
        have hnone : (s.setChan i fun _ => { buf := value, hasValue := true }).findWaiter chan
            (s.setChan i fun _ => { buf := value, hasValue := true }).waitingChanRecv = none := hunmet
        rw [wakeRecvOf, hnone]
      simp only [hwake]
      split
      · exact inv_chanSendAdd hset hp hf rfl rfl hroom hvacant
      · exact hset

/-- A receive that finds a value wakes a sender whose cell is the last, or moves a sender there; one that
finds none parks beside a vacant cell. -/
def RecvClear (chan : Int) (i : Nat) (s : Runtime) : Prop :=
  ∀ c, s.chans[i]? = some c →
    if c.hasValue then (s.findWaiter chan s.waitingChanSend).isSome →
      Vacant (s.waitingChanRecv (s.waitingChanCount - 1)) s
    else s.running ≠ none →
      s.waitingChanCount < timerMax ∧ Vacant (s.waitingChanSend s.waitingChanCount) s

/-! ## The scheduler's choice -/

variable {now : Int}

theorem scanDue_some (l : List Ptr) {due : Option (Nat × Ptr × Int)}
    {d : Nat × Ptr × Int} (h : scanDue now s l i due = some d) :
    due = some d ∨ ∃ j, d.1 = i + j ∧ l[j]? = some d.2.1 := by
  induction l generalizing i due with
  | nil => exact .inl h
  | cons p l ih =>
    have tail : ∀ {due'}, scanDue now s l (i + 1) due' = some d →
        due' = some d ∨ ∃ j, d.1 = i + j ∧ (p :: l)[j]? = some d.2.1 := by
      intro due' h
      rcases ih h with h | ⟨j, hj, hl⟩
      · exact .inl h
      · exact .inr ⟨j + 1, by omega, hl⟩
    rw [scanDue] at h
    split at h
    case h_2 => exact tail h
    case h_1 w _ =>
      split at h
      case isFalse => exact tail h
      case isTrue =>
        rcases tail h with hd | hd
        · cases hd
          exact .inr ⟨0, rfl, rfl⟩
        · exact .inr hd

theorem timerPopDue_some (h : s.timerPopDue now = some (p, s')) :
    ∃ l, s.sleeping ~ p :: l ∧ s' = { s with sleeping := l } := by
  rw [timerPopDue, Option.map_eq_some_iff] at h
  obtain ⟨d, hd, he⟩ := h
  rw [Prod.mk.injEq] at he
  obtain ⟨rfl, rfl⟩ := he
  rcases scanDue_some _ hd with hnone | ⟨j, hj, hl⟩
  · cases hnone
  · rw [hj, Nat.zero_add]
    exact ⟨_, swapRemove_perm hl, rfl⟩

theorem nextFiber_some (h : s.nextFiber now = some (p, s')) :
    (∃ l, s.ready = p :: l ∧ s' = { s with ready := l }) ∨
      ∃ l, s.sleeping ~ p :: l ∧ s' = { s with sleeping := l } := by
  rw [nextFiber] at h
  cases hpop : s.readyPop with
  | none =>
    rw [hpop] at h
    exact .inr (timerPopDue_some h)
  | some next =>
    rw [hpop] at h
    cases h
    rw [readyPop] at hpop
    split at hpop
    case h_1 => cases hpop
    case h_2 q rest hr =>
      cases hpop
      exact .inl ⟨rest, hr, rfl⟩

theorem Inv.heap_of_mem (h : Inv s) (hp : p ∈ s.entries k) : ∃ f, s.heap p = some f ∧ placeOf f = some k :=
  Option.bind_eq_some_iff.mp (h.placed.mem_iff.mp hp)

theorem inv_start (h : Inv s) (hnone : s.running = none)
    (hnext : s.nextFiber now = some (p, s')) : Inv (fiberSwitchTo p s') := by
  have start : ∀ {k : Place} {t : Runtime}, k ≠ .chan → (s.listOf k ~ p :: t.listOf k) →
      (∀ j, j ≠ k → t.listOf j = s.listOf j) → t.heap = s.heap → t.fibers = s.fibers →
      Inv (fiberSwitchTo p t) := by
    intro k t hchan hfrom hj hheap hfibers
    have hentries : s.entries k = s.listOf k := by
      cases k <;> first | rfl | exact absurd rfl hchan
    obtain ⟨f, hf, hplace⟩ := h.heap_of_mem (k := k) (p := p)
      (hentries ▸ hfrom.mem_iff.mpr List.mem_cons_self)
    have hset : (fiberSwitchTo p t).heap = (s.setFiber p fun f => { f with state := .running }).heap := by
      show Function.update t.heap p ((t.heap p).map _) = _
      rw [hheap]
      rfl
    have u : Updated s (fiberSwitchTo p t) p f _ :=
      updated (fun f => { f with state := .running }) hf hset hfibers rfl
    have hdone : FiberState.running = .done ↔ f.state = .done := by
      refine ⟨by simp, fun he => ?_⟩
      rw [placeOf, he] at hplace
      cases hplace
    have hlist : ∀ j, (fiberSwitchTo p t).listOf j = t.listOf j := fun j => by cases j <;> rfl
    refine h.started (k := k) u hnone rfl rfl ?_ (fun j hne => u.entries_eq hdone ((hlist j).trans (hj j hne)))
      fun q hq => h.cells q ?_
    · have hentries' : (fiberSwitchTo p t).entries k = t.listOf k := by
        cases k <;> first | rfl | exact absurd rfl hchan
      rw [hentries, hentries']
      exact hfrom
    · have hcells : (fiberSwitchTo p t).chanCells = s.chanCells :=
        (hlist .chan).trans (hj .chan (Ne.symm hchan))
      exact hcells ▸ hq
  rcases nextFiber_some hnext with ⟨l, hl, rfl⟩ | ⟨l, hl, rfl⟩
  · exact start (k := .ready) (by simp) (hl ▸ .refl _)
      (fun j hj => by cases j <;> first | rfl | exact absurd rfl hj) rfl rfl
  · exact start (k := .sleeping) (by simp) hl
      (fun j hj => by cases j <;> first | rfl | exact absurd rfl hj) rfl rfl

theorem inv_promote (h : Inv s) : Inv (s.promote now) := by
  rw [promote]
  cases hdue : s.timerPopDue now with
  | none => exact h
  | some d =>
    obtain ⟨p, t⟩ := d
    obtain ⟨l, hl, rfl⟩ := timerPopDue_some hdue
    obtain ⟨f, hf, hplace⟩ := h.heap_of_mem (k := .sleeping) (p := p) (hl.mem_iff.mpr List.mem_cons_self)
    have u : Updated s (wake id p { s with sleeping := l }) p f _ :=
      updated (fun f => { f with state := .ready }) hf rfl rfl rfl
    have hdone : FiberState.ready = .done ↔ f.state = .done := by
      refine ⟨by simp, fun he => ?_⟩
      rw [placeOf, he] at hplace
      cases hplace
    refine h.woken (k := .sleeping) u (by simp) rfl rfl hl (List.perm_append_singleton p _) (fun j h₁ h₂ => ?_)
      h.cells
    exact u.entries_eq hdone (by cases j <;> first | rfl | exact absurd rfl h₁ | exact absurd rfl h₂)

theorem inv_recvLoop {chan now : Int} (h : Inv s) (hclear : RecvClear chan i s) :
    Inv (s.recvLoop chan i now).2 := by
  rw [recvLoop]
  cases hc : s.chans[i]? with
  | none => exact h
  | some c =>
    have hclear := hclear c hc
    simp only
    split
    case isTrue hv =>
      rw [if_pos hv] at hclear
      have hwake : Inv (wakeSendOf chan (s.setChan i fun c => { c with hasValue := false })) :=
        inv_wakeSendOf (inv_setChan h) hclear
      cases hp : (wakeSendOf chan (s.setChan i fun c => { c with hasValue := false })).running with
      | none =>
        simp only
        exact hwake
      | some p =>
        simp only
        obtain ⟨f, hf, -, -⟩ := hwake.whereIs_running hp
        exact hwake.touched (updated (fun f => { f with call := none }) hf rfl rfl rfl) rfl rfl rfl
          fun j => by cases j <;> rfl
    case isFalse hv =>
      rw [if_neg hv] at hclear
      cases hp : s.running with
      | some p =>
        obtain ⟨f, hf, -, -⟩ := h.whereIs_running hp
        obtain ⟨hroom, hvacant⟩ := hclear (by rw [hp]; nofun)
        exact inv_chanRecvAdd h hp hf rfl rfl hroom hvacant
      | none =>
        cases hnext : s.nextFiber now with
        | none =>
          simp only
          split <;> exact h
        | some d => exact inv_start h hp hnext

theorem inv_chanRecv {chan now : Int} (h : Inv s)
    (hclear : ∀ i, s.chanById chan = some i → RecvClear chan i s) : Inv (s.chanRecv chan now).2 := by
  rw [chanRecv]
  cases hi : s.chanById chan with
  | none => exact h
  | some i => exact inv_recvLoop h (hclear i hi)

/-! ## Spawns and ends -/

theorem inv_spawn {addr : Option Ptr} (h : Inv s) (hfree : ∀ p, addr = some p → s.heap p = none) :
    Inv (s.spawn addr).2 := by
  rw [spawn.eq_def]
  split
  case isTrue => exact h
  case isFalse =>
    cases addr with
    | none => exact h
    | some p =>
      have hnone := hfree p rfl
      set t : Runtime := readyPush p
        { s with heap := Function.update s.heap p (some { handle := s.nextHandle, state := .ready })
                 fibers := s.fibers ++ [p]
                 nextHandle := s.nextHandle + 1 }
      have hother : ∀ q, q ≠ p → t.heap q = s.heap q := fun q hq => Function.update_of_ne hq _ _
      have hself : t.heap p = some { handle := s.nextHandle, state := .ready } := Function.update_self _ _ _
      have hold : ∀ q, (s.heap q).isSome → q ≠ p := by
        rintro q hq rfl
        rw [hnone] at hq
        cases hq
      have hdone : ∀ q, q ≠ p → t.isDone q = s.isDone q := fun q hq => by rw [isDone, isDone, hother q hq]
      refine ⟨?_, ?_, ?_, ?_, ?_⟩
      · refine h.placed.insert (k := .ready) (a := p) (by rw [whereIs, hnone]; rfl)
          (List.perm_append_singleton p s.ready) (fun j hj => ?_) (whereIs_eq hself)
          fun q hq => by rw [whereIs, whereIs, hother q hq]
        cases j with
        | chan =>
          refine .of_eq (List.filter_congr fun q hq => ?_)
          rw [hdone q (hold q (h.cells q hq))]
        | ready => exact absurd rfl hj
        | _ => exact .refl _
      · intro q hq
        rw [hother q (hold q (h.cells q hq))]
        exact h.cells q hq
      · intro q hq
        rcases List.mem_append.mp hq with hq | hq
        · rw [hother q (hold q (h.table q hq))]
          exact h.table q hq
        · obtain rfl := List.mem_singleton.mp hq
          rw [hself]
          rfl
      · intro q
        show s.running = some q ↔ _
        rw [h.running]
        by_cases hq : q = p
        · subst hq
          rw [hnone, hself]
          simp
        · rw [hother q hq]
      · intro q g hg hs r hr
        have hqp : q ≠ p := by
          rintro rfl
          cases hself.symm.trans hg
          cases hs
        by_cases hrp : r = p
        · subst hrp
          rw [isDone_eq hself]
          rfl
        · rw [hdone r hrp]
          refine h.joins q g ((hother q hqp).symm.trans hg) hs r ?_
          -- the new fiber comes last in the table
          have happend : t.fiberByHandle g.waitOn = (s.fibers ++ [p]).find? fun x =>
              (t.heap x).any (·.handle = g.waitOn) := rfl
          rw [happend, List.find?_append, Option.or_eq_some_iff] at hr
          have hfind : s.fibers.find? (fun x => (t.heap x).any (·.handle = g.waitOn)) =
              s.fiberByHandle g.waitOn := by
            rw [Runtime.fiberByHandle, ← List.head?_filter, ← List.head?_filter]
            congr 1
            refine List.filter_congr fun x hx => ?_
            rw [hother x (hold x (h.table x hx))]
          rcases hr with hr | ⟨-, hr⟩
          · rw [← hfind]
            exact hr
          · exact absurd (List.mem_singleton.mp (List.mem_of_find?_eq_some hr)) hrp

theorem inv_finish (h : Inv s) (hp : s.running = some p)
    (hjoined : ∀ q ∈ s.waitingJoin, ∀ g, s.heap q = some g → s.fiberByHandle g.waitOn ≠ some p) :
    Inv (s.finish p) := by
  obtain ⟨f, hf, hs, hnone⟩ := h.whereIs_running hp
  have u : Updated s (s.finish p) p f _ :=
    updated (fun f => { f with state := .done, exitCode := 0 }) hf rfl rfl rfl
  have hwhere : ∀ q, (s.finish p).whereIs q = s.whereIs q := by
    intro q
    by_cases hq : q = p
    · subst hq
      rw [u.whereIs_self, hnone]
      rfl
    · exact u.whereIs_other hq
  have hnot : p ∉ s.chanCells := h.not_mem_cells hf (by rw [hs]; simp) (by rw [placeOf, hs]; simp)
  refine h.update u (h.placed.congr (fun j => ?_) hwhere) h.cells (fun q => ?_) (by simp) fun _ => .inr ?_
  · cases j with
    | chan =>
      refine .of_eq (List.filter_congr fun q hq => ?_)
      rw [u.isDone_other]
      rintro rfl
      exact hnot hq
    | _ => exact .refl _
  · show none = some q ↔ _
    rw [hp]
    simp only [reduceCtorEq, and_false, Option.some.injEq, false_or, false_iff, not_and]
    exact fun hne he => hne he.symm
  · intro q g hg hjoin
    have hmem : q ∈ s.entries .join := by
      rw [h.placed.mem_iff, whereIs_eq hg, placeOf, hjoin]
    exact hjoined q hmem g hg

theorem inv_reset (hmutexes : ∀ m ∈ s.mutexes, m.waiters = []) : Inv s.reset.2 := by
  have hheap : ∀ p, s.reset.2.heap p = none := fun _ => rfl
  have hcells : s.reset.2.chanCells = [] := rfl
  refine ⟨⟨fun k p => ?_⟩, fun p hp => ?_, fun p hp => ?_, fun p => ?_, fun p f hf => ?_⟩
  · have hlist : s.reset.2.entries k = [] := by
      cases k with
      | chan =>
        show s.reset.2.chanCells.filter (fun q => !s.reset.2.isDone q) = []
        rw [hcells, List.filter_nil]
      | mutex i =>
        show ((s.mutexes[i]?).map (·.waiters)).getD [] = []
        cases hi : s.mutexes[i]? with
        | none => rfl
        | some m => exact hmutexes m (List.mem_of_getElem? hi)
      | _ => rfl
    rw [hlist, whereIs, hheap]
    rfl
  · rw [hcells] at hp
    cases hp
  · cases hp
  · rw [hheap]
    show none = some p ↔ _
    simp
  · rw [hheap] at hf
    cases hf

end

end Runtime

end Datara.Natvar
