import Datara.Natvar.Fibers
import Mathlib.Logic.Function.Iterate

/-!
# The deadlock detector

`datara_deadlock_detect` of `runtime/datara_natvar.c` goes from fiber to fiber along what each waits for, and compares
handles. In every state that a run reaches it finds the cycles of up to 255 fibers, and no others
(`deadlockDetect_exact`): what it stands on is that the fibers of the table have handles of their own.
-/

namespace Datara.Natvar.Runtime

/-- A fiber's handle. -/
def handleAt (s : Runtime) (p : Ptr) : Int := ((s.heap p).map (·.handle)).getD 0

/-- `dd_resolve_wait_target`: the fiber to join, the owner of the mutex, or the first other fiber at the channel. -/
def resolveWaitTarget (s : Runtime) (p : Ptr) : Option Ptr :=
  (s.heap p).bind fun f =>
    match f.state with
    | .waitingJoin => s.fiberByHandle f.waitOn
    | .waitingMutex =>
      (s.mutexById f.waitOn).bind fun i => (s.mutexes[i]?).bind fun m =>
        if 0 < m.owner then (s.fiberByHandle m.owner).filter fun q => q ≠ p && !s.isDone q else none
    | .waitingChan => s.fibers.find? fun q => q ≠ p && s.waitsOnChan f.waitOn (some q)
    | _ => none

/-- The states in which the detector starts from a fiber. -/
def inWaitState (s : Runtime) (p : Ptr) : Bool :=
  (s.heap p).any fun f => f.state = .waitingJoin || f.state = .waitingChan || f.state = .waitingMutex

/-- The walk from a fiber, with the handles it has visited and room for so many more. -/
def walkChain (s : Runtime) : Nat → List Int → Option Ptr → Bool
  | 0, _, _ => false
  | _ + 1, _, none => false
  | room + 1, visited, some p =>
    s.handleAt p ∈ visited || walkChain s room (visited ++ [s.handleAt p]) (s.resolveWaitTarget p)

/-- `datara_deadlock_detect`. -/
def deadlockDetect (s : Runtime) : Bool := s.fibers.any fun p => s.inWaitState p && walkChain s 256 [] (some p)

/-- One fiber on along what is waited for. -/
def nextWaited (s : Runtime) (p : Option Ptr) : Option Ptr := p.bind s.resolveWaitTarget

section
variable {s s' : Runtime} {p q : Ptr} {h : Int}

theorem mem_of_fiberByHandle (hq : s.fiberByHandle h = some q) : q ∈ s.fibers := List.mem_of_find?_eq_some hq

theorem resolveWaitTarget_spec (hq : s.resolveWaitTarget p = some q) : q ∈ s.fibers ∧ s.inWaitState p := by
  obtain ⟨f, hf, hq⟩ := Option.bind_eq_some_iff.mp hq
  rw [inWaitState, hf]
  cases hstate : f.state with
  | waitingJoin => exact ⟨mem_of_fiberByHandle (by simpa only [hstate] using hq), by simp [hstate]⟩
  | waitingChan => exact ⟨List.mem_of_find?_eq_some (by simpa only [hstate] using hq), by simp [hstate]⟩
  | waitingMutex =>
    simp only [hstate] at hq
    obtain ⟨i, -, hq⟩ := Option.bind_eq_some_iff.mp hq
    obtain ⟨m, -, hq⟩ := Option.bind_eq_some_iff.mp hq
    split_ifs at hq
    exact ⟨mem_of_fiberByHandle (Option.filter_eq_some_iff.mp hq).1, by simp [hstate]⟩
  | _ => simp [hstate] at hq

/-- Where the walk leads stays in the table. -/
theorem mem_of_iterate (hp : p ∈ s.fibers) (k : Nat) (hq : s.nextWaited^[k] (some p) = some q) : q ∈ s.fibers := by
  cases k with
  | zero =>
    cases hq
    exact hp
  | succ k =>
    rw [Function.iterate_succ_apply'] at hq
    obtain ⟨r, -, hr⟩ := Option.bind_eq_some_iff.mp hq
    exact (resolveWaitTarget_spec hr).1

theorem iterate_none (k : Nat) : s.nextWaited^[k] none = none := Function.iterate_fixed rfl k

/-- **The walk** finds a fiber with the handle of one that it visited. -/
theorem walkChain_iff {room : Nat} {visited : List Int} {node : Option Ptr} : walkChain s room visited node ↔
    ∃ j < room, ∃ q, s.nextWaited^[j] node = some q ∧ (s.handleAt q ∈ visited ∨
      ∃ i < j, ∃ r, s.nextWaited^[i] node = some r ∧ s.handleAt r = s.handleAt q) := by
  induction room generalizing visited node with
  | zero => simp [walkChain]
  | succ room ih =>
    cases node with
    | none => simp [walkChain, iterate_none]
    | some p =>
      have hnext : s.nextWaited (some p) = s.resolveWaitTarget p := rfl
      rw [walkChain, Bool.or_eq_true, decide_eq_true_iff, ih]
      constructor
      · rintro (hp | ⟨j, hj, q, hq, hseen⟩)
        · exact ⟨0, Nat.succ_pos _, p, rfl, .inl hp⟩
        · refine ⟨j + 1, Nat.succ_lt_succ hj, q, hq, ?_⟩
          rcases hseen with hseen | ⟨i, hi, r, hr, hsame⟩
          · rcases List.mem_append.mp hseen with hseen | hseen
            · exact .inl hseen
            · exact .inr ⟨0, Nat.succ_pos _, p, rfl, (List.mem_singleton.mp hseen).symm⟩
          · exact .inr ⟨i + 1, Nat.succ_lt_succ hi, r, hr, hsame⟩
      · rintro ⟨j, hj, q, hq, hseen⟩
        cases j with
        | zero =>
          cases hq
          exact .inl (hseen.resolve_right fun ⟨i, hi, _⟩ => absurd hi (Nat.not_lt_zero _))
        | succ j =>
          refine .inr ⟨j, Nat.lt_of_succ_lt_succ hj, q, hq, ?_⟩
          rcases hseen with hseen | ⟨i, hi, r, hr, hsame⟩
          · exact .inl (List.mem_append_left _ hseen)
          · cases i with
            | zero =>
              cases hr
              exact .inl (List.mem_append_right _ (List.mem_singleton.mpr hsame.symm))
            | succ i => exact .inr ⟨i, Nat.lt_of_succ_lt_succ hi, r, hr, hsame⟩

/-! ## Handles -/

/-- The table, the next handle and who has which. -/
structure Roll where
  fibers : List Ptr
  nextHandle : Int
  handle : Ptr → Option Int

def roll (s : Runtime) : Roll := ⟨s.fibers, s.nextHandle, fun p => (s.heap p).map (·.handle)⟩

/-- The fibers of the table were given their handles one after the other. -/
structure Roll.Numbered (r : Roll) : Prop where
  live : ∀ p ∈ r.fibers, (r.handle p).isSome
  order : r.fibers.Pairwise fun p q => (r.handle p).getD 0 < (r.handle q).getD 0
  below : ∀ p ∈ r.fibers, (r.handle p).getD 0 < r.nextHandle

theorem Roll.Numbered.inj (h : s.roll.Numbered) (hp : p ∈ s.fibers) (hq : q ∈ s.fibers)
    (he : s.handleAt p = s.handleAt q) : p = q := by
  obtain ⟨i, hi, rfl⟩ := List.getElem_of_mem hp
  obtain ⟨j, hj, rfl⟩ := List.getElem_of_mem hq
  have horder := List.pairwise_iff_getElem.mp h.order
  rcases Nat.lt_trichotomy i j with hlt | rfl | hlt
  · exact absurd he (Int.ne_of_lt (horder i j hi hj hlt))
  · rfl
  · exact absurd he.symm (Int.ne_of_lt (horder j i hj hi hlt))

variable {g : Fiber → Fiber} {now : Int}

@[simp] theorem roll_setFiber (hg : ∀ f, (g f).handle = f.handle) : (s.setFiber p g).roll = s.roll := by
  refine congrArg (Roll.mk _ _) (funext fun q => ?_)
  by_cases hq : q = p
  · subst hq
    cases hf : s.heap q with
    | none => simp [setFiber, hf]
    | some f => simp [setFiber, hf, hg]
  · simp [setFiber, Function.update_of_ne hq]

@[simp] theorem roll_readyPush : (readyPush p s).roll = s.roll := rfl

@[simp] theorem roll_switchOut : (switchOut s).roll = s.roll := rfl

@[simp] theorem roll_setChan {i : Nat} {g : FiberChan → FiberChan} : (s.setChan i g).roll = s.roll := rfl

@[simp] theorem roll_setMutex {i : Nat} {g : FiberMutex → FiberMutex} : (s.setMutex i g).roll = s.roll := rfl

@[simp] theorem roll_wake (hg : ∀ f, (g f).handle = f.handle) : (s.wake g p).roll = s.roll := by
  simp [wake, hg]

@[simp] theorem roll_wakeAll {ps : List Ptr} (hg : ∀ f, (g f).handle = f.handle) : (wakeAll g ps s).roll = s.roll := by
  induction ps generalizing s with
  | nil => rfl
  | cons p ps ih => exact ih.trans (roll_wake hg)

@[simp] theorem roll_timerAdd : (timerAdd p s).roll = s.roll := by
  unfold timerAdd
  split_ifs <;> rfl

@[simp] theorem roll_waitingJoinAdd : (waitingJoinAdd p s).roll = s.roll := by
  unfold waitingJoinAdd
  split_ifs <;> rfl

@[simp] theorem roll_ioWaitAdd : (ioWaitAdd p s).roll = s.roll := by
  unfold ioWaitAdd
  split_ifs <;> rfl

@[simp] theorem roll_chanRecvAdd : (chanRecvAdd p s).roll = s.roll := by
  unfold chanRecvAdd
  split_ifs <;> rfl

@[simp] theorem roll_chanSendAdd : (chanSendAdd p s).roll = s.roll := by
  unfold chanSendAdd
  split_ifs <;> rfl

@[simp] theorem roll_elim {o : Option Ptr} {k : Ptr → Runtime} (h : ∀ p, (k p).roll = s.roll) :
    (o.elim s k).roll = s.roll := by
  cases o with
  | none => rfl
  | some p => exact h p

@[simp] theorem roll_wakeRecvOf {chan : Int} : (s.wakeRecvOf chan).roll = s.roll := by
  unfold wakeRecvOf
  split
  · rfl
  · exact roll_elim fun _ => roll_wake fun _ => rfl

@[simp] theorem roll_wakeSendOf {chan : Int} : (s.wakeSendOf chan).roll = s.roll := by
  unfold wakeSendOf
  split
  · rfl
  · exact roll_elim fun _ => roll_wake fun _ => rfl

theorem roll_nextFiber (h : s.nextFiber now = some (p, s')) : s'.roll = s.roll := by
  simp only [nextFiber, readyPop, timerPopDue] at h
  cases hready : s.ready <;> simp only [hready] at h
  · obtain ⟨d, -, he⟩ := Option.map_eq_some_iff.mp h
    cases he
    rfl
  · cases h
    rfl

@[simp] theorem roll_fiberSwitchTo : (fiberSwitchTo p s).roll = s.roll :=
  @roll_setFiber s p (fun f => { f with state := .running }) fun _ => rfl

@[simp] theorem roll_promote : (s.promote now).roll = s.roll := by
  unfold promote
  split
  · rename_i q t h
    obtain ⟨d, -, he⟩ := Option.map_eq_some_iff.mp h
    cases he
    simp
    rfl
  · rfl

/-! ## Calls -/

theorem roll_joinLoop {target : Ptr} {h : Int} : (s.joinLoop p target h).2.roll = s.roll := by
  unfold joinLoop
  split_ifs <;> simp

theorem roll_chanRecv {id : Int} : (s.chanRecv id now).2.roll = s.roll := by
  unfold chanRecv recvLoop
  repeat' split
  all_goals first
    | (simp; done)
    | exact roll_fiberSwitchTo.trans (roll_nextFiber ‹_›)

theorem roll_chanSend {id value : Int} : (s.chanSend id value).2.roll = s.roll := by
  unfold chanSend
  dsimp only
  repeat' split
  all_goals simp

theorem roll_mutexLock {id timeout : Int} : (s.mutexLock id now timeout).2.roll = s.roll := by
  unfold mutexLock
  repeat' split
  all_goals simp

theorem roll_mutexUnlock {id : Int} : (s.mutexUnlock id).2.roll = s.roll := by
  unfold mutexUnlock
  repeat' split
  all_goals simp

theorem roll_netRecv {sock timeout : Int} {got : Option Reply} : (s.netRecv sock now timeout got).2.roll = s.roll := by
  unfold netRecv
  repeat' split
  all_goals simp

theorem roll_ioWaitPollAndWake {clock : Ptr → Int} {readable : Option (Int → Bool)} :
    (s.ioWaitPollAndWake clock readable).roll = s.roll := by
  unfold ioWaitPollAndWake
  split
  · rfl
  · exact roll_wakeAll fun _ => rfl

theorem roll_mutexWaitPollAndWake {clock : Ptr → Int} : (s.mutexWaitPollAndWake clock).2.roll = s.roll :=
  roll_wakeAll fun _ => rfl

theorem roll_pass {clock : Ptr → Int} {readable : Option (Int → Bool)} :
    (s.pass now clock readable).2.roll = s.roll := by
  unfold pass
  dsimp only
  repeat' split
  all_goals first
    | (simp [roll_ioWaitPollAndWake, roll_mutexWaitPollAndWake]; done)
    | exact roll_fiberSwitchTo.trans ((roll_nextFiber ‹_›).trans roll_promote)

theorem roll_resume {call : Call} {got : Option Reply} : (s.resume p call now got).2.roll = s.roll := by
  cases call with
  | join target h => exact roll_joinLoop
  | recv id => exact roll_chanRecv
  | lock => exact roll_setFiber fun _ => rfl
  | netRecv sock timeout => exact roll_netRecv

theorem roll_join {h : Int} : (s.join h).2.roll = s.roll := by
  unfold join
  repeat' split
  all_goals simp [roll_joinLoop]

theorem roll_sleepMs {ms : Int} : (s.sleepMs now ms).2.roll = s.roll := by
  unfold sleepMs
  split <;> simp

/-- **A step** leaves the roll, empties it, or enters a new fiber under the next handle. -/
theorem step_roll {e : Event} {r : Reply} (hstep : s.step e = some (r, s')) :
    s'.roll = s.roll ∨ s'.roll = ({} : Runtime).roll ∨ ∃ p, s.heap p = none ∧ s'.roll =
      ⟨s.fibers ++ [p], s.nextHandle + 1, Function.update s.roll.handle p (some s.nextHandle)⟩ := by
  have hout : ∀ {out : Reply × Runtime}, some out = some (r, s') → out.2.roll = s.roll → s'.roll = s.roll := by
    intro out he hroll
    rwa [Option.some.inj he] at hroll
  rw [step.eq_def] at hstep
  split at hstep
  case h_1 => exact .inl (hout hstep roll_resume)
  case h_2 p _ _ =>
    exact .inl (hout hstep (@roll_setFiber s p (fun f => { f with state := .done, exitCode := 0 }) fun _ => rfl))
  case h_3 => exact .inl (hout hstep roll_pass)
  case h_4 _ addr _ =>
    split at hstep
    case isTrue => cases hstep
    case isFalse hfree =>
      unfold spawn at hstep
      cases addr with
      | none =>
        split_ifs at hstep
        all_goals exact .inl (hout hstep rfl)
      | some p =>
        split_ifs at hstep
        · exact .inl (hout hstep rfl)
        · cases hstep
          refine .inr (.inr ⟨p, Option.not_isSome_iff_eq_none.mp hfree, congrArg (Roll.mk _ _) (funext fun q => ?_)⟩)
          show (Function.update s.heap p (some _) q).map _ = Function.update s.roll.handle p _ q
          by_cases hq : q = p
          · rw [hq, Function.update_self, Function.update_self]
            rfl
          · rw [Function.update_of_ne hq, Function.update_of_ne hq]
            rfl
  case h_5 =>
    refine .inl (hout hstep ?_)
    unfold yield
    split <;> simp
  case h_6 => exact .inl (hout hstep roll_sleepMs)
  case h_7 => exact .inl (hout hstep roll_join)
  case h_8 =>
    refine .inl (hout hstep ?_)
    unfold chanCreate
    split <;> rfl
  case h_9 => exact .inl (hout hstep roll_chanSend)
  case h_10 => exact .inl (hout hstep roll_chanRecv)
  case h_11 =>
    refine .inl (hout hstep ?_)
    unfold mutexNew
    split <;> rfl
  case h_12 => exact .inl (hout hstep roll_mutexLock)
  case h_13 => exact .inl (hout hstep roll_mutexUnlock)
  case h_14 => exact .inl (hout hstep roll_netRecv)
  case h_15 =>
    cases hstep
    exact .inr (.inl rfl)
  case h_16 => cases hstep

theorem Roll.Numbered.step {e : Event} {r : Reply} (h : s.roll.Numbered) (hstep : s.step e = some (r, s')) :
    s'.roll.Numbered := by
  rcases step_roll hstep with hroll | hroll | ⟨p, hp, hroll⟩
  · rwa [hroll]
  · rw [hroll]
    exact ⟨fun p hp => absurd hp List.not_mem_nil, .nil, fun p hp => absurd hp List.not_mem_nil⟩
  · have hkept : ∀ q ∈ s.fibers, Function.update s.roll.handle p (some s.nextHandle) q = s.roll.handle q := by
      intro q hq
      refine Function.update_of_ne (fun he => ?_) _ _
      have hlive : ((s.heap q).map (·.handle)).isSome := h.live q hq
      rw [he, hp] at hlive
      cases hlive
    rw [hroll]
    constructor <;> dsimp only
    · intro q hq
      rcases List.mem_append.mp hq with hq | hq
      · rw [hkept q hq]
        exact h.live q hq
      · rw [List.mem_singleton.mp hq, Function.update_self]
        rfl
    · refine List.pairwise_append.mpr ⟨?_, List.pairwise_singleton _ _, fun q hq x hx => ?_⟩
      · refine h.order.imp_of_mem fun hq hx hlt => ?_
        rwa [hkept _ hq, hkept _ hx]
      · rw [List.mem_singleton.mp hx, hkept q hq, Function.update_self]
        exact h.below q hq
    · intro q hq
      rcases List.mem_append.mp hq with hq | hq
      · rw [hkept q hq]
        exact Int.lt_trans (h.below q hq) (Int.lt_succ _)
      · rw [List.mem_singleton.mp hq, Function.update_self]
        exact Int.lt_succ _

theorem Roll.Numbered.run {es : List Event} (h : s.roll.Numbered) (hrun : run es s = some s') : s'.roll.Numbered := by
  induction es generalizing s with
  | nil =>
    cases hrun
    exact h
  | cons e es ih =>
    obtain ⟨r, hstep, hrun⟩ := Option.bind_eq_some_iff.mp hrun
    exact ih (h.step hstep) hrun

/-- **The deadlock detector is exact up to 255 fibers.** In every state that a run reaches, it reports a cycle exactly
when from some fiber of the table at most 255 steps along what is waited for lead back to it. -/
theorem deadlockDetect_exact (es : List Event) (s : Runtime) (hrun : run es {} = some s) :
    s.deadlockDetect = true ↔ ∃ q ∈ s.fibers, ∃ k, 0 < k ∧ k ≤ 255 ∧ s.nextWaited^[k] (some q) = some q := by
  have hnumbered : s.roll.Numbered := Roll.Numbered.run
    ⟨fun p hp => absurd hp List.not_mem_nil, .nil, fun p hp => absurd hp List.not_mem_nil⟩ hrun
  rw [deadlockDetect, List.any_eq_true]
  constructor
  · rintro ⟨p, hp, hwalk⟩
    obtain ⟨j, hj, q, hq, hseen⟩ := walkChain_iff.mp (Bool.and_eq_true_iff.mp hwalk).2
    obtain ⟨i, hi, r, hr, hsame⟩ := hseen.resolve_left List.not_mem_nil
    obtain rfl := hnumbered.inj (mem_of_iterate hp i hr) (mem_of_iterate hp j hq) hsame
    refine ⟨r, mem_of_iterate hp i hr, j - i, by omega, by omega, ?_⟩
    have hsplit := Function.iterate_add_apply s.nextWaited (j - i) i (some p)
    rwa [Nat.sub_add_cancel (Nat.le_of_lt hi), hq, hr, eq_comm] at hsplit
  · rintro ⟨q, hq, k, hpos, hk, hcycle⟩
    refine ⟨q, hq, Bool.and_eq_true_iff.mpr ⟨?_, walkChain_iff.mpr ⟨k, by omega, q, hcycle, .inr ⟨0, hpos, q, rfl, rfl⟩⟩⟩⟩
    cases hnext : s.resolveWaitTarget q with
    | some r => exact (resolveWaitTarget_spec hnext).2
    | none =>
      obtain ⟨k, rfl⟩ : ∃ n, k = n + 1 := ⟨k - 1, by omega⟩
      rw [Function.iterate_succ_apply, nextWaited, Option.bind_some, hnext, iterate_none] at hcycle
      cases hcycle

/-- Two fibers that join each other. -/
def joinedPair : List Event :=
  [.spawn (some 0), .spawn (some 1), .pass 0 (fun _ => 0) none, .join 2, .pass 0 (fun _ => 0) none, .join 1]

theorem deadlockDetect_exact_pair : ((run joinedPair {}).getD {}).deadlockDetect = true ↔
    ∃ q ∈ ((run joinedPair {}).getD {}).fibers, ∃ k, 0 < k ∧ k ≤ 255 ∧
      ((run joinedPair {}).getD {}).nextWaited^[k] (some q) = some q :=
  deadlockDetect_exact joinedPair _ rfl

end

end Datara.Natvar.Runtime
