import Datara.Library.HandoffLock
import Datara.Natvar.SoundCalls

/-!
# What is seen of the mutexes

A run is observed from the outside: who called `lock` or `unlock` and what was returned, and which waiters
a step made ready (`MutexLog`). A mutex is exclusive and fair (`Exclusive`) in terms of that log alone.
The state agrees with a lock that is handed over and admits the log (`Agrees`), and what does not concern
the mutex keeps that (`Agrees.quiet`).
-/

namespace Datara.Natvar

open Library
open scoped List

/-- Who calls: the main thread or a fiber. A reset frees the fibers, and what is spawned after it may have
their addresses and handles. -/
inductive Party
  | main
  | fiber (era : Nat) (addr : Ptr) (handle : Int)
  deriving DecidableEq, Repr

/-- What `owner` says of it. -/
def Party.handle : Party → Int
  | .main => 0
  | .fiber _ _ h => h

/-- What was seen of every mutex, and how often the runtime was reset. -/
structure MutexLog where
  era : Nat := 0
  acts : Nat → List (LockAct Party) := fun _ => []

namespace Runtime

/-- The mutex with an index, or one never used. -/
def mutexAt (s : Runtime) (i : Nat) : FiberMutex := (s.mutexes[i]?).getD {}

def party (era : Nat) (s : Runtime) (p : Ptr) : Party := .fiber era p ((s.heap p).elim 0 (·.handle))

/-- Who makes the call. -/
def caller (era : Nat) (s : Runtime) : Party := s.running.elim .main (s.party era)

/-- The mutex whose `lock` the running fiber is in. -/
def lockOf (s : Runtime) : Option Int :=
  if s.currentCall = some .lock then (s.running.bind s.heap).map (·.waitOn) else none

/-- What the caller is told. -/
def callActs (i : Nat) (era : Nat) (e : Event) (s : Runtime) (r : Reply) : List (LockAct Party) :=
  match e, r with
  | .lock id _ _, .outcome true _ _ => if id = i then [.acquired (s.caller era)] else []
  | .lock id _ _, .parked => if id = i then [.arrived (s.caller era)] else []
  | .unlock id, _ => if id = i ∧ i < s.mutexes.length then [.released (s.caller era)] else []
  | .resume _ _, .outcome success _ _ =>
    if s.lockOf = some (i : Int) then [.returned (s.caller era) success] else []
  | _, _ => []

/-- The waiters of a mutex that a step makes ready, in that order. -/
def wokenWaiters (i : Nat) (s s' : Runtime) : List Ptr :=
  (s'.ready.drop s.ready.length).filter fun p => p ∈ (s.mutexAt i).waiters

/-- Whether the deadline of a fiber has passed when a pass looks at it. -/
def timedOut (e : Event) (s : Runtime) (p : Ptr) : Bool :=
  match e with
  | .pass _ now _ => (s.heap p).any (expired (now p))
  | _ => false

/-- With what a waiter is made ready. -/
def wakeAct (era : Nat) (e : Event) (s s' : Runtime) (p : Ptr) : LockAct Party :=
  if (s'.heap p).any (·.wakeResult = 1) then .granted (s.party era p)
  else if timedOut e s p then .expired (s.party era p)
  else .stray (s.party era p)

/-- What is seen of a step. -/
def observe (e : Event) (s : Runtime) (r : Reply) (s' : Runtime) (log : MutexLog) : MutexLog where
  era := match e with
    | .reset => log.era + 1
    | _ => log.era
  acts i := log.acts i ++ (callActs i log.era e s r ++ (wokenWaiters i s s').map (wakeAct log.era e s s'))

/-- A step that is observed. -/
def logged (e : Event) (c : MutexLog × Runtime) : Option (MutexLog × Runtime) :=
  (c.2.step e).map fun out => (observe e c.2 out.1 out.2 c.1, out.2)

/-- A mutex is unlocked by one that has it. -/
def UnlocksOwn (e : Event) (c : MutexLog × Runtime) : Prop :=
  match e with
  | .unlock id => ∀ i, c.2.mutexById id = some i → inside (c.2.caller c.1.era) (c.1.acts i) = true
  | _ => True

/-- **A mutex is exclusive and fair**: at most one is between a lock that succeeded and its unlock, and it
is the owner; waiters are granted it in the order they arrived; each is made ready once, granted or timed
out, unless it still waits, and is told which; and a mutex with waiters is locked. -/
structure Exclusive (i : Nat) (log : MutexLog) (s : Runtime) : Prop where
  alone : ∀ a b, inside a (log.acts i) = true → inside b (log.acts i) = true → a = b
  owner : ∀ a, inside a (log.acts i) = true → (s.mutexAt i).locked = true ∧ (s.mutexAt i).owner = a.handle
  order : (grants (log.acts i) ++ (s.mutexAt i).waiters.map (s.party log.era)).Sublist (arrivals (log.acts i))
  once : ∀ a, (arrivals (log.acts i)).count a = (grants (log.acts i)).count a +
    (expiries (log.acts i)).count a + ((s.mutexAt i).waiters.map (s.party log.era)).count a
  told : ∀ a, (returns (log.acts i) true).count a ≤ (grants (log.acts i)).count a ∧
    (returns (log.acts i) false).count a ≤ (expiries (log.acts i)).count a
  reason : ∀ a, .stray a ∉ log.acts i
  ready : s.ready.Nodup ∧ ∀ p ∈ (s.mutexAt i).waiters, p ∉ s.ready
  locked : (s.mutexAt i).waiters ≠ [] → (s.mutexAt i).locked = true

/-! ## The lock behind it -/

/-- Whether someone has the lock, and whom `owner` names. -/
def taken : Grip Party → Bool
  | .free => false
  | _ => true

def ownerOf : Grip Party → Int
  | .free => 0
  | .granted a => a.handle
  | .held a => a.handle

/-- A fiber in a `lock` of the mutex: whether it waits, and its wake result. -/
def lockView (i : Nat) (f : Fiber) : Option (Bool × Int) :=
  if f.call = some .lock ∧ f.waitOn = i then some (decide (f.state = .waitingMutex), f.wakeResult) else none

/-- What is to be seen of a fiber at the mutex. -/
def viewOf (i : Nat) (s : Runtime) (p : Ptr) : Option (Bool × Int) := (s.heap p).bind (lockView i)

/-- **The mutex is a lock that is handed over**, and its fibers are where it says. -/
structure Agrees (i era : Nat) (s : Runtime) (l : HandoffLock Party) : Prop where
  locked : (s.mutexAt i).locked = taken l.grip
  owner : (s.mutexAt i).owner = ownerOf l.grip
  queue : l.queue = (s.mutexAt i).waiters.map (s.party era)
  waits : l.queue ≠ [] → l.grip ≠ .free
  parked : ∀ p ∈ (s.mutexAt i).waiters, ∃ r, s.viewOf i p = some (true, r)
  woken : ∀ p r, s.viewOf i p = some (false, r) →
    if r = 1 then l.grip = .granted (s.party era p) else s.party era p ∈ l.late
  granted : ∀ p h, l.grip = .granted (.fiber era p h) → s.viewOf i p = some (false, 1)
  late : ∀ p h, .fiber era p h ∈ l.late →
    .fiber era p h = s.party era p ∧ ∃ r, r ≠ 1 ∧ s.viewOf i p = some (false, r)
  past : ∀ n p h, l.grip = .granted (.fiber n p h) ∨ .fiber n p h ∈ l.late → n ≤ era

section
variable {s s' t : Runtime} {p q : Ptr} {f f' : Fiber} {i era : Nat} {l : HandoffLock Party}

theorem viewOf_eq (hf : s.heap p = some f) : s.viewOf i p = lockView i f := by
  rw [viewOf, hf]
  rfl

theorem party_eq (hf : s.heap p = some f) : s.party era p = .fiber era p f.handle := by
  rw [party, hf]
  rfl

theorem viewOf_some {b : Bool} {r : Int} (h : s.viewOf i p = some (b, r)) :
    ∃ f, s.heap p = some f ∧ f.call = some .lock ∧ f.waitOn = i ∧ b = decide (f.state = .waitingMutex) ∧
      r = f.wakeResult := by
  obtain ⟨f, hf, hview⟩ := Option.bind_eq_some_iff.mp h
  rw [lockView] at hview
  split at hview
  case isFalse => cases hview
  case isTrue hlock =>
    cases hview
    exact ⟨f, hf, hlock.1, hlock.2, rfl, rfl⟩

theorem party_injective : Function.Injective (s.party era) := by
  intro p q h
  exact (Party.fiber.inj h).2.1

/-- What does not concern a mutex. -/
structure Quiet (i : Nat) (s s' : Runtime) : Prop where
  mutex : s'.mutexAt i = s.mutexAt i
  handle : ∀ p f, s.heap p = some f → ∃ f', s'.heap p = some f' ∧ f'.handle = f.handle
  view : ∀ p, s'.viewOf i p = s.viewOf i p

theorem Quiet.refl (i : Nat) (s : Runtime) : Quiet i s s := ⟨rfl, fun _ f hf => ⟨f, hf, rfl⟩, fun _ => rfl⟩

theorem Quiet.trans (h : Quiet i s t) (h' : Quiet i t s') : Quiet i s s' where
  mutex := h'.mutex.trans h.mutex
  handle p f hf := by
    obtain ⟨f₁, hf₁, h₁⟩ := h.handle p f hf
    obtain ⟨f₂, hf₂, h₂⟩ := h'.handle p f₁ hf₁
    exact ⟨f₂, hf₂, h₂.trans h₁⟩
  view p := (h'.view p).trans (h.view p)

theorem Quiet.record (hf : s.heap p = some f) (hself : s'.heap p = some f')
    (hheap : ∀ q, q ≠ p → s'.heap q = s.heap q) (hhandle : f'.handle = f.handle)
    (hview : lockView i f' = lockView i f) (hmutex : s'.mutexAt i = s.mutexAt i) : Quiet i s s' := by
  refine ⟨hmutex, fun q g hg => ?_, fun q => ?_⟩
  · by_cases hq : q = p
    · subst hq
      cases hf.symm.trans hg
      exact ⟨f', hself, hhandle⟩
    · exact ⟨g, (hheap q hq).trans hg, rfl⟩
  · by_cases hq : q = p
    · subst hq
      rw [viewOf_eq hself, viewOf_eq hf, hview]
    · rw [viewOf, viewOf, hheap q hq]

theorem lockView_plain (h : PlainFiber f f') : lockView i f' = lockView i f := by
  have hplain : ∀ {st : FiberState}, plainState st → st ≠ .waitingMutex := by
    intro st hst he
    rw [he] at hst
    cases hst
  have hstates : (f'.state = .waitingMutex) = (f.state = .waitingMutex) :=
    propext ⟨fun he => absurd he (hplain h.states.2), fun he => absurd he (hplain h.states.1)⟩
  rcases h.call with ⟨hc, hw, hr⟩ | ⟨hc, hc'⟩
  · simp [lockView, hc, hw, hr, hstates]
  · have hnot : ∀ {c : Option Call}, plainCall c → c ≠ some .lock := by
      intro c hc he
      rw [he] at hc
      cases hc
    rw [lockView, lockView, if_neg fun he => hnot hc' he.1, if_neg fun he => hnot hc he.1]

theorem Plain.quiet (h : Plain s s') (i : Nat) : Quiet i s s' where
  mutex := by rw [mutexAt, h.mutexes, mutexAt]
  handle p f hf := by
    rcases h.heap p with he | ⟨f₁, f', hf₁, hf', hp⟩
    · exact ⟨f, he.trans hf, rfl⟩
    · cases hf.symm.trans hf₁
      exact ⟨f', hf', hp.handle⟩
  view p := by
    rcases h.heap p with he | ⟨f₁, f', hf₁, hf', hp⟩
    · rw [viewOf, he, viewOf]
    · rw [viewOf_eq hf', viewOf_eq hf₁, lockView_plain hp]

theorem Quiet.party_eq (h : Quiet i s s') (hf : s.heap p = some f) : s'.party era p = s.party era p := by
  obtain ⟨f', hf', hhandle⟩ := h.handle p f hf
  rw [Runtime.party_eq hf', Runtime.party_eq hf, hhandle]

/-- **The lock agrees** after what does not concern it. -/
theorem Agrees.quiet (h : Agrees i era s l) (hquiet : Quiet i s s') : Agrees i era s' l := by
  have hparty : ∀ {p b r}, s.viewOf i p = some (b, r) → s'.party era p = s.party era p := by
    intro p b r hview
    obtain ⟨f, hf, -⟩ := viewOf_some hview
    exact hquiet.party_eq hf
  refine ⟨?_, ?_, ?_, h.waits, fun p hp => ?_, fun p r hp => ?_, fun p n hp => ?_, fun p n hp => ?_, h.past⟩
  · rw [hquiet.mutex]
    exact h.locked
  · rw [hquiet.mutex]
    exact h.owner
  · rw [hquiet.mutex, h.queue]
    apply List.map_congr_left
    intro p hp
    obtain ⟨r, hr⟩ := h.parked p hp
    exact (hparty hr).symm
  · rw [hquiet.view]
    exact h.parked p (hquiet.mutex ▸ hp)
  · rw [hquiet.view] at hp
    rw [hparty hp]
    exact h.woken p r hp
  · rw [hquiet.view]
    exact h.granted p n hp
  · obtain ⟨he, r, hne, hr⟩ := h.late p n hp
    rw [hquiet.view, hparty hr]
    exact ⟨he, r, hne, hr⟩

theorem not_ready_of_view (hsound : Sound s) {r : Int} (hview : s.viewOf i p = some (true, r)) : p ∉ s.ready := by
  intro hp
  obtain ⟨f, hf, hs⟩ := hsound.mem_ready hp
  obtain ⟨f', hf', -, -, hwaits, -⟩ := viewOf_some hview
  cases hf.symm.trans hf'
  rw [hs] at hwaits
  cases hwaits

theorem wokenWaiters_quiet (h : Agrees i era s l) (hquiet : Quiet i s s') (hsound : Sound s') :
    wokenWaiters i s s' = [] := by
  rw [wokenWaiters, List.filter_eq_nil_iff]
  intro p hp hin
  obtain ⟨r, hr⟩ := h.parked p (of_decide_eq_true hin)
  rw [← hquiet.view] at hr
  exact not_ready_of_view hsound hr (List.mem_of_mem_drop hp)

/-- **What is read off the lock**. -/
theorem Agrees.exclusive {log : MutexLog} (h : Agrees i log.era s l) (hlaw : Lawful (log.acts i) l)
    (hsound : Sound s) : Exclusive i log s := by
  have hheld : ∀ a, inside a (log.acts i) = true → l.grip = .held a := by
    intro a ha
    rw [hlaw.inside_eq] at ha
    exact of_decide_eq_true ha
  refine ⟨fun a b ha hb => ?_, fun a ha => ?_, ?_, fun a => ?_, fun a => ⟨?_, ?_⟩, hlaw.reason,
    ⟨hsound.nodup .ready, fun p hp => ?_⟩, fun hw => ?_⟩
  · exact Grip.held.inj ((hheld a ha).symm.trans (hheld b hb))
  · rw [h.locked, h.owner, hheld a ha]
    exact ⟨rfl, rfl⟩
  · rw [← h.queue]
    exact hlaw.order
  · rw [← h.queue]
    exact hlaw.once a
  · have := hlaw.granted a
    omega
  · have := hlaw.late a
    omega
  · obtain ⟨r, hr⟩ := h.parked p hp
    exact not_ready_of_view hsound hr
  · have hgrip : l.grip ≠ .free := h.waits (by rw [h.queue]; simpa using hw)
    rw [h.locked]
    cases hg : l.grip with
    | free => exact absurd hg hgrip
    | _ => rfl

end

end Runtime

end Datara.Natvar
