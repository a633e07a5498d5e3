import Datara.Library.Ring
import Datara.Library.Runs
import Datara.Library.Words

/-!
# The bounded thread channel

`runtime/datara_thread.c`, section 2: a ring under a mutex and two condition variables. A step of a thread is
what it does between entering the mutex and leaving it or waiting; a thread that waits may wake at any time,
signalled or not. An access outside the ring is recorded. Sizes are in 64 bits and wrap.
-/

namespace Datara.Runtime

open Library

/-- `DataraChannel`. -/
structure ThreadChannel where
  ring : List Int
  capacity : Int
  head : Int := 0
  tail : Int := 0
  count : Int := 0
  closed : Bool := false
  deriving DecidableEq, Repr

/-- Where a thread is. -/
inductive ThreadPc
  | idle
  /-- To enter the mutex in `datara_channel_send`, for the first time or after a wait. -/
  | send (val : Int)
  /-- Waits for `cond_not_full`. -/
  | sendWait (val : Int)
  /-- To enter the mutex in `datara_channel_recv`. -/
  | recv (timeout : Int)
  /-- Waits for `cond_not_empty`. -/
  | recvWait (timeout : Int)
  /-- To enter the mutex after the time is over, and to leave the loop. -/
  | recvLast
  deriving DecidableEq, Repr

/-- What a call returned, or that the channel was closed. -/
inductive ThreadAct (Tid : Type)
  /-- `send` returns 0. -/
  | accepted (th : Tid) (val : Int)
  /-- `send` returns 1. -/
  | refused (th : Tid)
  /-- `recv` returns 0. -/
  | received (th : Tid) (val : Int)
  /-- `recv` returns 1. -/
  | nothing (th : Tid)
  /-- `recv` returns 2. -/
  | drained (th : Tid)
  | closing (th : Tid)
  deriving DecidableEq, Repr

/-- What happens next: a thread calls, enters the mutex, wakes, or its time is over. -/
inductive ThreadEvent (Tid : Type)
  | send (th : Tid) (val : Int)
  | recv (th : Tid) (timeout : Int)
  | close (th : Tid)
  | enter (th : Tid)
  | wake (th : Tid)
  | expire (th : Tid)

/-- A channel with its threads. -/
structure ThreadSystem (Tid : Type) where
  ch : ThreadChannel
  threads : Tid → ThreadPc := fun _ => .idle
  history : List (ThreadAct Tid) := []
  /-- An access outside the ring was made. -/
  fault : Bool := false

namespace ThreadChannel

/-- `datara_channel_create`, with what `malloc` gives for a size. -/
def create (malloc : Nat → Option (List Int)) (capacity : Int) : Option ThreadChannel :=
  let capacity := if capacity ≤ 0 then 256 else capacity
  (malloc (8 * capacity % 2 ^ 64).toNat).map fun ring => { ring := ring, capacity := capacity }

/-- The end of `datara_channel_send`, on a channel that has room and is open. -/
def push (val : Int) (ch : ThreadChannel) : Option ThreadChannel :=
  (storeWord ch.ring ch.tail val).map fun ring =>
    { ch with ring := ring, tail := (ch.tail + 1).tmod ch.capacity, count := ch.count + 1 }

/-- The first value, taken. -/
def pop (ch : ThreadChannel) : Option (Int × ThreadChannel) :=
  (loadWord ch.ring ch.head).map fun val =>
    (val, { ch with head := (ch.head + 1).tmod ch.capacity, count := ch.count - 1 })

/-- What the ring holds from `head` on. -/
def pending (ch : ThreadChannel) : List Int :=
  (List.range ch.count.toNat).filterMap fun n : Nat => loadWord ch.ring ((ch.head + n).tmod ch.capacity)

end ThreadChannel

/-- A value that `send` accepted. -/
def ThreadAct.sent {Tid : Type} : ThreadAct Tid → Option Int
  | .accepted _ val => some val
  | _ => none

/-- A value that `recv` returned. -/
def ThreadAct.got {Tid : Type} : ThreadAct Tid → Option Int
  | .received _ val => some val
  | _ => none

namespace ThreadSystem

variable {Tid : Type} [DecidableEq Tid]

def setThread (th : Tid) (pc : ThreadPc) (s : ThreadSystem Tid) : ThreadSystem Tid :=
  { s with threads := Function.update s.threads th pc }

/-- A call returns. -/
def done (th : Tid) (a : ThreadAct Tid) (s : ThreadSystem Tid) : ThreadSystem Tid :=
  { s with threads := Function.update s.threads th .idle, history := s.history ++ [a] }

/-- `datara_channel_send`, from entering the mutex. -/
def sendEnter (th : Tid) (val : Int) (s : ThreadSystem Tid) : ThreadSystem Tid :=
  if s.ch.capacity ≤ s.ch.count ∧ s.ch.closed = false then s.setThread th (.sendWait val)
  else if s.ch.closed then s.done th (.refused th)
  else
    match s.ch.push val with
    | none => { s with fault := true }
    | some ch => { s with ch := ch }.done th (.accepted th val)

/-- The end of `datara_channel_recv`. -/
def recvEnd (th : Tid) (s : ThreadSystem Tid) : ThreadSystem Tid :=
  if 0 < s.ch.count then
    match s.ch.pop with
    | none => { s with fault := true }
    | some (val, ch) => { s with ch := ch }.done th (.received th val)
  else s.done th (if s.ch.closed then .drained th else .nothing th)

/-- `datara_channel_recv`, from entering the mutex. -/
def recvEnter (th : Tid) (timeout : Int) (s : ThreadSystem Tid) : ThreadSystem Tid :=
  if timeout ≠ 0 ∧ s.ch.count = 0 ∧ s.ch.closed = false then s.setThread th (.recvWait timeout)
  else s.recvEnd th

/-- A step, where it is possible. -/
def step (e : ThreadEvent Tid) (s : ThreadSystem Tid) : Option (ThreadSystem Tid) :=
  match e with
  | .send th val => if s.threads th = .idle then some (s.setThread th (.send val)) else none
  | .recv th timeout => if s.threads th = .idle then some (s.setThread th (.recv timeout)) else none
  | .close th =>
    if s.threads th = .idle then some ({ s with ch := { s.ch with closed := true } }.done th (.closing th))
    else none
  | .enter th =>
    match s.threads th with
    | .send val => some (s.sendEnter th val)
    | .recv timeout => some (s.recvEnter th timeout)
    | .recvLast => some (s.recvEnd th)
    | _ => none
  | .wake th =>
    match s.threads th with
    | .sendWait val => some (s.setThread th (.send val))
    | .recvWait timeout => some (s.setThread th (.recv timeout))
    | _ => none
  | .expire th =>
    match s.threads th with
    | .recvWait timeout => if 0 < timeout then some (s.setThread th .recvLast) else none
    | _ => none

/-- A call that fails says so only after the channel was closed, and `recv` only when all that was accepted
has been received. -/
def Warranted (pre : List (ThreadAct Tid)) : ThreadAct Tid → Prop
  | .refused _ => ∃ th, .closing th ∈ pre
  | .drained _ => (∃ th, .closing th ∈ pre) ∧ pre.filterMap ThreadAct.sent = pre.filterMap ThreadAct.got
  | _ => True

/-- **The channel is a queue**: what was accepted has been received in that order or is pending in the ring. -/
structure IsQueue (s : ThreadSystem Tid) : Prop where
  inside : s.fault = false
  fifo : s.history.filterMap ThreadAct.sent = s.history.filterMap ThreadAct.got ++ s.ch.pending
  count : 0 ≤ s.ch.count ∧ s.ch.count ≤ s.ch.capacity
  span : 0 ≤ s.ch.head ∧ s.ch.head < s.ch.capacity ∧ s.ch.tail = (s.ch.head + s.ch.count).tmod s.ch.capacity ∧
    (s.ch.pending.length : Int) = s.ch.count
  warranted : Justified Warranted s.history

/-! ## The queue behind it -/

/-- The invariant of a run: the two indices count what was received and accepted, and the ring holds what is
between. -/
structure Inv (s : ThreadSystem Tid) (cap : Nat) (items : List Int) : Prop where
  inside : s.fault = false
  size : s.ch.capacity = cap ∧ 0 < cap ∧ s.ch.ring.length = cap
  head : s.ch.head = ((s.history.filterMap ThreadAct.got).length : Int) % cap
  tail : s.ch.tail = ((s.history.filterMap ThreadAct.sent).length : Int) % cap
  count : s.ch.count = items.length
  fifo : s.history.filterMap ThreadAct.sent = s.history.filterMap ThreadAct.got ++ items
  ring : InRing cap (fun i => s.ch.ring[i]?) (s.history.filterMap ThreadAct.got).length items
  closed : s.ch.closed = true → ∃ th, .closing th ∈ s.history
  warranted : Justified Warranted s.history

section
variable {s s' : ThreadSystem Tid} {cap : Nat} {items : List Int} {th : Tid}

omit [DecidableEq Tid] in
theorem mod_succ (hcap : 0 < cap) (n : Nat) : ((n : Int) % cap + 1).tmod cap = ((n + 1 : Nat) : Int) % cap := by
  rw [Int.tmod_eq_emod_of_nonneg (by omega), Int.emod_add_emod]
  rfl

omit [DecidableEq Tid] in
theorem loadWord_mod (ring : List Int) (hcap : 0 < cap) (n : Int) :
    loadWord ring (n % cap) = ring[ringCell cap n]? := by
  rw [loadWord, if_pos (Int.emod_nonneg _ (by omega))]
  rfl

section
variable (h : Inv s cap items)
include h

theorem Inv.done {a : ThreadAct Tid} (hsent : a.sent = none) (hgot : a.got = none)
    (ha : Warranted s.history a) : Inv (s.done th a) cap items := by
  have hsent' : (s.history ++ [a]).filterMap ThreadAct.sent = s.history.filterMap ThreadAct.sent := by
    rw [List.filterMap_append, List.filterMap_cons_none hsent, List.filterMap_nil, List.append_nil]
  have hgot' : (s.history ++ [a]).filterMap ThreadAct.got = s.history.filterMap ThreadAct.got := by
    rw [List.filterMap_append, List.filterMap_cons_none hgot, List.filterMap_nil, List.append_nil]
  refine ⟨h.inside, h.size, ?_, ?_, h.count, ?_, ?_, fun hc => ?_, h.warranted.snoc ha⟩
  · show s.ch.head = ((List.filterMap _ (s.history ++ [a])).length : Int) % cap
    rw [hgot']
    exact h.head
  · show s.ch.tail = ((List.filterMap _ (s.history ++ [a])).length : Int) % cap
    rw [hsent']
    exact h.tail
  · show List.filterMap _ (s.history ++ [a]) = List.filterMap _ (s.history ++ [a]) ++ items
    rw [hsent', hgot']
    exact h.fifo
  · show InRing cap _ ((List.filterMap _ (s.history ++ [a])).length : Nat) items
    rw [hgot']
    exact h.ring
  · obtain ⟨u, hu⟩ := h.closed hc
    exact ⟨u, List.mem_append_left _ hu⟩

theorem Inv.setThread {pc : ThreadPc} : Inv (s.setThread th pc) cap items :=
  ⟨h.inside, h.size, h.head, h.tail, h.count, h.fifo, h.ring, h.closed, h.warranted⟩

theorem inv_sendEnter {val : Int} : ∃ items', Inv (s.sendEnter th val) cap items' := by
  obtain ⟨hcapacity, hpos, hlen⟩ := h.size
  rw [sendEnter]
  split
  case isTrue => exact ⟨items, h.setThread⟩
  case isFalse hroom =>
    split
    case isTrue hclosed => exact ⟨items, h.done rfl rfl (h.closed hclosed)⟩
    case isFalse hopen =>
      have hlt : items.length < cap := by
        have hclosed : s.ch.closed = false := Bool.eq_false_iff.mpr hopen
        have := h.count
        by_contra hge
        exact hroom ⟨by omega, hclosed⟩
      set n := (s.history.filterMap ThreadAct.sent).length with hn
      have hcell : s.ch.tail = (ringCell cap n : Nat) := by
        rw [h.tail, ringCell, Int.toNat_of_nonneg (Int.emod_nonneg _ (by omega))]
      have hpush : s.ch.push val = some { s.ch with
          ring := s.ch.ring.set (ringCell cap n) val, tail := (s.ch.tail + 1).tmod s.ch.capacity
          count := s.ch.count + 1 } := by
        rw [ThreadChannel.push, hcell, storeWord_nat (by rw [hlen]; exact ringCell_lt hpos)]
        rfl
      rw [hpush]
      have hfirst : (n : Int) = (s.history.filterMap ThreadAct.got).length + items.length := by
        rw [hn, h.fifo, List.length_append]
        rfl
      have hgot : (s.history ++ [ThreadAct.accepted th val]).filterMap ThreadAct.got =
          s.history.filterMap ThreadAct.got := by
        rw [List.filterMap_append]
        exact List.append_nil _
      have hsent : (s.history ++ [ThreadAct.accepted th val]).filterMap ThreadAct.sent =
          s.history.filterMap ThreadAct.sent ++ [val] := List.filterMap_append
      refine ⟨items ++ [val], h.inside, ⟨hcapacity, hpos, (List.length_set ..).trans hlen⟩, ?_, ?_, ?_, ?_, ?_,
        fun hc => ?_, h.warranted.snoc trivial⟩
      · show s.ch.head = ((List.filterMap _ (s.history ++ [_])).length : Int) % cap
        rw [hgot]
        exact h.head
      · show (s.ch.tail + 1).tmod s.ch.capacity = ((List.filterMap _ (s.history ++ [_])).length : Int) % cap
        rw [hsent, List.length_append, hcapacity, h.tail]
        exact mod_succ hpos n
      · rw [h.count, List.length_append]
        rfl
      · show List.filterMap _ (s.history ++ [_]) = List.filterMap _ (s.history ++ [_]) ++ _
        rw [hsent, hgot, h.fifo, List.append_assoc]
      · show InRing cap (fun i => (s.ch.ring.set (ringCell cap n) val)[i]?)
          ((List.filterMap _ (s.history ++ [_])).length : Nat) _
        rw [hgot]
        have hcells : (fun i => (s.ch.ring.set (ringCell cap n) val)[i]?) =
            Function.update (fun i => s.ch.ring[i]?) (ringCell cap n) (some val) := by
          ext1 i
          by_cases hi : i = ringCell cap n
          · subst hi
            rw [Function.update_self, List.getElem?_set_self (by rw [hlen]; exact ringCell_lt hpos)]
          · rw [Function.update_of_ne hi, List.getElem?_set_ne (Ne.symm hi)]
        rw [hcells, hfirst]
        exact h.ring.push hlt
      · obtain ⟨u, hu⟩ := h.closed hc
        exact ⟨u, List.mem_append_left _ hu⟩

theorem inv_recvEnd : ∃ items', Inv (s.recvEnd th) cap items' := by
  obtain ⟨hcapacity, hpos, hlen⟩ := h.size
  rw [recvEnd]
  split
  case isTrue hcount =>
    obtain ⟨val, rest, rfl⟩ : ∃ val rest, items = val :: rest := by
      cases items with
      | nil =>
        rw [h.count] at hcount
        exact absurd hcount (by decide)
      | cons val rest => exact ⟨val, rest, rfl⟩
    set n := (s.history.filterMap ThreadAct.got).length with hn
    have hpop : s.ch.pop = some (val, { s.ch with
        head := (s.ch.head + 1).tmod s.ch.capacity, count := s.ch.count - 1 }) := by
      rw [ThreadChannel.pop, h.head, loadWord_mod _ hpos, h.ring.head]
      rfl
    rw [hpop]
    have hgot : (s.history ++ [ThreadAct.received th val]).filterMap ThreadAct.got =
        s.history.filterMap ThreadAct.got ++ [val] := List.filterMap_append
    have hsent : (s.history ++ [ThreadAct.received th val]).filterMap ThreadAct.sent =
        s.history.filterMap ThreadAct.sent := by
      rw [List.filterMap_append]
      exact List.append_nil _
    refine ⟨rest, h.inside, h.size, ?_, ?_, ?_, ?_, ?_, fun hc => ?_, h.warranted.snoc trivial⟩
    · show (s.ch.head + 1).tmod s.ch.capacity = ((List.filterMap _ (s.history ++ [_])).length : Int) % cap
      rw [hgot, List.length_append, hcapacity, h.head]
      exact mod_succ hpos n
    · show s.ch.tail = ((List.filterMap _ (s.history ++ [_])).length : Int) % cap
      rw [hsent]
      exact h.tail
    · show s.ch.count - 1 = _
      rw [h.count, List.length_cons]
      omega
    · show List.filterMap _ (s.history ++ [_]) = List.filterMap _ (s.history ++ [_]) ++ _
      rw [hsent, hgot, h.fifo, List.append_assoc]
      rfl
    · show InRing cap _ ((List.filterMap _ (s.history ++ [_])).length : Nat) _
      rw [hgot, List.length_append]
      exact h.ring.tail
    · obtain ⟨u, hu⟩ := h.closed hc
      exact ⟨u, List.mem_append_left _ hu⟩
  case isFalse hcount =>
    obtain rfl : items = [] := by
      rw [h.count] at hcount
      exact List.eq_nil_of_length_eq_zero (by omega)
    refine ⟨[], ?_⟩
    split
    case isTrue hclosed =>
      refine h.done rfl rfl ⟨h.closed hclosed, ?_⟩
      rw [h.fifo, List.append_nil]
    case isFalse => exact h.done rfl rfl trivial

theorem inv_recvEnter {timeout : Int} :
    ∃ items', Inv (s.recvEnter th timeout) cap items' := by
  rw [recvEnter]
  split
  · exact ⟨items, h.setThread⟩
  · exact inv_recvEnd h

/-- **One step** keeps the queue. -/
theorem inv_step {e : ThreadEvent Tid} (hstep : step e s = some s') :
    ∃ items', Inv s' cap items' := by
  have goes : ∀ {th pc}, some (s.setThread th pc) = some s' → ∃ items', Inv s' cap items' := by
    intro th pc he
    cases he
    exact ⟨items, h.setThread⟩
  cases e with
  | send th val => exact goes (Option.ite_none_right_eq_some.mp hstep).2
  | recv th timeout => exact goes (Option.ite_none_right_eq_some.mp hstep).2
  | close th =>
    cases (Option.ite_none_right_eq_some.mp hstep).2
    have hdone : Inv (s.done th (.closing th)) cap items := h.done rfl rfl trivial
    exact ⟨items, hdone.inside, hdone.size, hdone.head, hdone.tail, hdone.count, hdone.fifo, hdone.ring,
      fun _ => ⟨th, List.mem_append_right _ List.mem_cons_self⟩, hdone.warranted⟩
  | enter th =>
    simp only [step] at hstep
    split at hstep
    case h_1 =>
      cases hstep
      exact inv_sendEnter h
    case h_2 =>
      cases hstep
      exact inv_recvEnter h
    case h_3 =>
      cases hstep
      exact inv_recvEnd h
    case h_4 => cases hstep
  | wake th =>
    simp only [step] at hstep
    split at hstep
    case h_1 => exact goes hstep
    case h_2 => exact goes hstep
    case h_3 => cases hstep
  | expire th =>
    simp only [step] at hstep
    split at hstep
    case h_1 => exact goes (Option.ite_none_right_eq_some.mp hstep).2
    case h_2 => cases hstep

end

omit [DecidableEq Tid] in
/-- **What the invariant says of the ring.** -/
theorem Inv.isQueue (h : Inv s cap items) : IsQueue s := by
  obtain ⟨hcapacity, hpos, -⟩ := h.size
  have hhead : 0 ≤ s.ch.head ∧ s.ch.head < cap := by
    rw [h.head]
    exact ⟨Int.emod_nonneg _ (by omega), Int.emod_lt_of_pos _ (by omega)⟩
  have hpending : s.ch.pending = items := by
    rw [ThreadChannel.pending, h.count, Int.toNat_natCast]
    refine Eq.trans (List.filterMap_congr fun n _ => ?_) h.ring.filterMap_range
    rw [hcapacity, Int.tmod_eq_emod_of_nonneg (by omega), h.head, Int.emod_add_emod, loadWord_mod _ hpos]
  refine ⟨h.inside, ?_, ?_, ⟨hhead.1, hcapacity ▸ hhead.2, ?_, ?_⟩, h.warranted⟩
  · rw [hpending]
    exact h.fifo
  · have := h.ring.length
    rw [h.count, hcapacity]
    omega
  · rw [h.count, hcapacity, Int.tmod_eq_emod_of_nonneg (by omega), h.head, Int.emod_add_emod, h.tail, h.fifo,
      List.length_append]
    rfl
  · rw [hpending, h.count]

end

/-- **The channel is a queue**, whose ring has the size asked for: the size does not wrap. -/
theorem channel_is_queue (malloc : Nat → Option (List Int))
    (hmalloc : ∀ size words, malloc size = some words → words.length = size / 8) (capacity : Int)
    (hsize : capacity < 2 ^ 61) (ch : ThreadChannel) (hnew : ThreadChannel.create malloc capacity = some ch)
    (es : List (ThreadEvent Tid)) (s : ThreadSystem Tid) (hrun : runEvents step es { ch := ch } = some s) :
    IsQueue s := by
  obtain ⟨cap, hpos, hinv⟩ : ∃ cap : Nat, 0 < cap ∧ Inv ({ ch := ch } : ThreadSystem Tid) cap [] := by
    rw [ThreadChannel.create, Option.map_eq_some_iff] at hnew
    obtain ⟨ring, hring, rfl⟩ := hnew
    have hlen := hmalloc _ _ hring
    set c : Int := if capacity ≤ 0 then 256 else capacity with hc
    have hcpos : 0 < c ∧ c < 2 ^ 61 := by
      rw [hc]
      split <;> omega
    refine ⟨c.toNat, by omega, rfl, ⟨?_, by omega, ?_⟩, ?_, ?_, rfl, rfl, .nil, nofun, .nil⟩
    · exact (Int.toNat_of_nonneg hcpos.1.le).symm
    · rw [hlen]
      omega
    · exact (Int.zero_emod _).symm
    · exact (Int.zero_emod _).symm
  obtain ⟨items, h⟩ := runEvents_invariant (I := fun s => ∃ items, Inv s cap items)
    (fun e s s' ⟨_, h⟩ hstep => inv_step h hstep) ⟨[], hinv⟩ hrun
  exact h.isQueue

/-- A `malloc` that has half of the address space. -/
def halfMalloc (size : Nat) : Option (List Int) :=
  if size < 2 ^ 63 then some (List.replicate (size / 8) 0) else none

theorem halfMalloc_length {size : Nat} {words : List Int} (h : halfMalloc size = some words) :
    words.length = size / 8 := by
  obtain ⟨-, h⟩ := Option.ite_none_right_eq_some.mp h
  cases h
  exact List.length_replicate

/-- Two values go around a ring of two, one waits for room, and the channel is closed with one pending. -/
def twoRounds : List (ThreadEvent Bool) :=
  [.send true 1, .enter true, .send true 2, .enter true, .send true 3, .enter true, .recv false 5, .enter false,
    .wake true, .enter true, .close false, .recv false (-1), .enter false]

theorem channel_is_queue_sample :
    IsQueue ((runEvents step twoRounds { ch := { ring := [0, 0], capacity := 2 } }).getD
      { ch := { ring := [], capacity := 0 } }) :=
  channel_is_queue halfMalloc (fun _ _ => halfMalloc_length) 2 (by omega) _ rfl twoRounds _ rfl

/-- The size of a ring of `2 ^ 61` values is 0 in 64 bits, and the first send is outside it. -/
theorem channel_not_queue :
    ¬∀ (malloc : Nat → Option (List Int)), (∀ size words, malloc size = some words → words.length = size / 8) →
      ∀ (capacity : Int) (ch : ThreadChannel), ThreadChannel.create malloc capacity = some ch →
      ∀ (es : List (ThreadEvent Bool)) (s : ThreadSystem Bool), runEvents step es { ch := ch } = some s →
        IsQueue s := by
  intro h
  have hnew : ThreadChannel.create halfMalloc (2 ^ 61) = some { ring := [], capacity := 2 ^ 61 } := rfl
  have hqueue := h halfMalloc (fun _ _ => halfMalloc_length) _ _ hnew [.send true 7, .enter true] _ rfl
  cases hqueue.inside

end ThreadSystem

end Datara.Runtime
