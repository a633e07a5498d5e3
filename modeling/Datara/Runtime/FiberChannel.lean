import Datara.Library.Ring
import Datara.Library.Runs
import Mathlib.Data.Nat.Log

/-!
# The lock-free channel

`runtime/fiber/channel.rs`: any threads send and receive through a ring of slots and two free-running
indices. A step is one load, one store or one access to a slot; what an operation only computes from what
it has loaded is in the step of the load.
-/

namespace Datara.Runtime

open Library

/-- Where a thread is. `block` tells `send` and `recv` from `try_send` and `try_recv`. -/
inductive ChannelPc (α : Type)
  | idle
  /-- To load `closed`. -/
  | sendClosed (block : Bool) (item : α)
  /-- To load `tail`. -/
  | sendTail (block : Bool) (item : α)
  /-- To load `head`. -/
  | sendHead (block : Bool) (item : α) (tail : Nat)
  /-- To look whether the slot is empty. -/
  | sendLook (block : Bool) (item : α) (tail : Nat)
  /-- To write the slot. -/
  | sendWrite (block : Bool) (item : α) (tail : Nat)
  /-- To store `tail`. -/
  | sendStore (block : Bool) (item : α) (tail : Nat)
  /-- `try_send` has returned the item to `send`; to load `closed`. -/
  | sendRetry (item : α)
  /-- To load `head`. -/
  | recvHead (block : Bool)
  /-- To load `tail`. -/
  | recvTail (block : Bool) (head : Nat)
  /-- To take what the slot holds. -/
  | recvTake (block : Bool) (head : Nat)
  /-- To store `head`. -/
  | recvStore (head : Nat) (item : α)
  /-- `try_recv` has returned nothing to `recv`; to load `closed`. -/
  | recvClosed
  /-- It is closed; to load `tail`. -/
  | recvLen
  /-- To load `head`. -/
  | recvEmpty (tail : Nat)
  deriving DecidableEq, Repr

/-- What a call returns. -/
inductive ChannelAct (α Tid : Type)
  /-- `Ok(())`. -/
  | accepted (th : Tid) (item : α)
  /-- `Some(item)`. -/
  | received (th : Tid) (item : α)
  /-- `recv` returns `None`. -/
  | drained (th : Tid)
  deriving DecidableEq, Repr

/-- `Channel`, with its threads. -/
structure Channel (α Tid : Type) where
  capacity : Nat
  buffer : Nat → Option α := fun _ => none
  head : Nat := 0
  tail : Nat := 0
  closed : Bool := false
  threads : Tid → ChannelPc α := fun _ => .idle
  history : List (ChannelAct α Tid) := []

/-- What happens next: a thread calls `try_send` or `send`, `try_recv` or `recv`, goes on, or calls
`close`. -/
inductive ChannelEvent (α Tid : Type)
  | send (th : Tid) (block : Bool) (item : α)
  | recv (th : Tid) (block : Bool)
  | next (th : Tid)
  | close

def ChannelAct.item? {α Tid : Type} : ChannelAct α Tid → Option α
  | .accepted _ item => some item
  | _ => none

def ChannelAct.got? {α Tid : Type} : ChannelAct α Tid → Option α
  | .received _ item => some item
  | _ => none

/-- `usize::wrapping_add(1)`. -/
def wrappingSucc (i : Nat) : Nat := (i + 1) % 2 ^ 64

/-- `usize::wrapping_sub`. -/
def wrappingSub (i j : Nat) : Nat := (i + (2 ^ 64 - j)) % 2 ^ 64

namespace Channel

variable {α Tid : Type} [DecidableEq Tid]

/-- `Channel::new`. -/
def new (capacity : Nat) : Channel α Tid := { capacity := max capacity.nextPowerOfTwo 8 }

/-- The slot of an index, under the mask. -/
def slot (s : Channel α Tid) (index : Nat) : Nat := index &&& (s.capacity - 1)

/-- `len`. -/
def len (s : Channel α Tid) : Nat := wrappingSub s.tail s.head

def setThread (th : Tid) (pc : ChannelPc α) (s : Channel α Tid) : Channel α Tid :=
  { s with threads := Function.update s.threads th pc }

def setSlot (index : Nat) (v : Option α) (s : Channel α Tid) : Channel α Tid :=
  { s with buffer := Function.update s.buffer (s.slot index) v }

def log (a : ChannelAct α Tid) (s : Channel α Tid) : Channel α Tid :=
  { s with history := s.history ++ [a] }

/-- `Err(item)` from `try_send`. -/
def refused (block : Bool) (item : α) : ChannelPc α := if block then .sendRetry item else .idle

/-- `None` from `try_recv`. -/
def nothing (block : Bool) : ChannelPc α := if block then .recvClosed else .idle

/-- A thread goes on. -/
def next (th : Tid) (s : Channel α Tid) : Channel α Tid :=
  match s.threads th with
  | .idle => s
  | .sendClosed block item =>
    s.setThread th (if s.closed then refused block item else .sendTail block item)
  | .sendTail block item => s.setThread th (.sendHead block item s.tail)
  | .sendHead block item tail =>
    s.setThread th (if s.capacity ≤ wrappingSub tail s.head then refused block item
      else .sendLook block item tail)
  | .sendLook block item tail =>
    s.setThread th (if (s.buffer (s.slot tail)).isSome then refused block item
      else .sendWrite block item tail)
  | .sendWrite block item tail => (s.setSlot tail (some item)).setThread th (.sendStore block item tail)
  | .sendStore _ item tail =>
    { s.log (.accepted th item) with tail := wrappingSucc tail }.setThread th .idle
  | .sendRetry item => s.setThread th (if s.closed then .idle else .sendClosed true item)
  | .recvHead block => s.setThread th (.recvTail block s.head)
  | .recvTail block head => s.setThread th (if head = s.tail then nothing block else .recvTake block head)
  | .recvTake block head =>
    (s.setSlot head none).setThread th (match s.buffer (s.slot head) with
      | some item => .recvStore head item
      | none => nothing block)
  | .recvStore head item =>
    { s.log (.received th item) with head := wrappingSucc head }.setThread th .idle
  | .recvClosed => s.setThread th (if s.closed then .recvLen else .recvHead true)
  | .recvLen => s.setThread th (.recvEmpty s.tail)
  | .recvEmpty tail =>
    if wrappingSub tail s.head = 0 then (s.log (.drained th)).setThread th .idle
    else s.setThread th (.recvHead true)

def step (e : ChannelEvent α Tid) (s : Channel α Tid) : Option (Channel α Tid) :=
  match e with
  | .send th block item =>
    match s.threads th with
    | .idle => some (s.setThread th (.sendClosed block item))
    | _ => none
  | .recv th block =>
    match s.threads th with
    | .idle => some (s.setThread th (.recvHead block))
    | _ => none
  | .next th => some (s.next th)
  | .close => some { s with closed := true }

/-- Where a run leads. -/
def run (es : List (ChannelEvent α Tid)) (s : Channel α Tid) : Option (Channel α Tid) :=
  runEvents step es s

/-- The items in the buffer, the oldest first. -/
def buffered (s : Channel α Tid) : List α :=
  (List.range s.len).filterMap fun n => s.buffer (s.slot ((s.head + n) % 2 ^ 64))

/-- **Every item is delivered once**, in the order in which items are accepted. -/
structure Delivers (s : Channel α Tid) : Prop where
  /-- An item accepted was received, is in the buffer, or a thread has taken it and is to return it. -/
  fifo : ∃ taken : List α, taken.length ≤ 1 ∧
    (∀ item ∈ taken, ∃ th head, s.threads th = .recvStore head item) ∧
    s.history.filterMap ChannelAct.item? = s.history.filterMap ChannelAct.got? ++ taken ++ s.buffered
  room : s.buffered.length ≤ s.capacity
  /-- When `recv` returned `None`, all that was accepted had been received. -/
  drained : ∀ pre th post, s.history = pre ++ .drained th :: post →
    pre.filterMap ChannelAct.item? = pre.filterMap ChannelAct.got?

/-- What a thread has checked still holds when it acts on it: a sender writes its slot while `tail` is the
index it loaded, the buffer has room and the slot is empty; a receiver takes an item while `head` is the
index it loaded and is not `tail`; and a sender stores `tail` while the channel is open. -/
def Fresh (e : ChannelEvent α Tid) (s : Channel α Tid) : Prop :=
  match e with
  | .next th =>
    match s.threads th with
    | .sendWrite _ _ tail => s.tail = tail ∧ s.len < s.capacity ∧ s.buffer (s.slot tail) = none
    | .sendStore _ _ _ => s.closed = false
    | .recvTake _ head => s.buffer (s.slot head) = none ∨ s.head = head ∧ s.head ≠ s.tail
    | _ => True
  | _ => True

end Channel

end Datara.Runtime
