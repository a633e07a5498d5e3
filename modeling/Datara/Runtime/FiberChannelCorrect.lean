import Datara.Runtime.FiberChannel

/-!
# The channel delivers every item once

The two indices count what has been received and accepted, modulo 2^64. In a run whose threads act on
checks that still hold (`Fresh`), one thread at most has written a slot it has yet to account for, one at most
has taken an item it has yet to account for, and the slots between hold the items in order
(`channel_delivers`).
-/

namespace Datara.Runtime.Channel

open Library
open List (append_assoc append_nil filterMap_append length_append length_nil length_singleton map_nil)
open Function (update_apply)

variable {α Tid : Type}

/-- What the indices stand for: the counts of items received and accepted, the item written but not
accepted yet, the item taken but not returned yet, and the items in the slots. -/
structure Ghost (α Tid : Type) where
  received : Nat := 0
  accepted : Nat := 0
  writer : Option (Tid × α) := none
  taker : Option (Tid × α) := none
  items : List α := []

namespace Ghost

/-- The index of the first item in a slot. -/
def first (g : Ghost α Tid) : Nat := g.received + g.taker.toList.length

/-- The index after the last. -/
def last (g : Ghost α Tid) : Nat := g.accepted + g.writer.toList.length

end Ghost

/-- `recv` returned `None` when all that was accepted had been received. -/
def Drained (history : List (ChannelAct α Tid)) : Prop :=
  ∀ pre th post, history = pre ++ .drained th :: post →
    pre.filterMap ChannelAct.item? = pre.filterMap ChannelAct.got?

/-- What a thread that is in no slot has loaded. -/
def PcOk (s : Channel α Tid) : ChannelPc α → Prop
  | .recvLen => s.closed = true
  | .recvEmpty tail => s.closed = true ∧ tail = s.tail
  | _ => True

/-- It has accessed a slot that it has yet to account for. -/
def storing : ChannelPc α → Bool
  | .sendStore _ _ _ | .recvStore _ _ => true
  | _ => false

/-- A place in which a thread has no slot. -/
def Aside (s : Channel α Tid) (pc : ChannelPc α) : Prop := storing pc = false ∧ s.PcOk pc

/-- The invariant of a run. -/
structure Inv (k : Nat) (s : Channel α Tid) (g : Ghost α Tid) : Prop where
  capacity : s.capacity = 2 ^ k
  head : s.head = g.received % 2 ^ 64
  tail : s.tail = g.accepted % 2 ^ 64
  isWriter : ∀ th block item t, s.threads th = .sendStore block item t →
    t = s.tail ∧ g.writer = some (th, item)
  writer : ∀ th item, g.writer = some (th, item) → (∃ block, s.threads th = .sendStore block item s.tail) ∧
    ∃ rest, g.items = rest ++ [item]
  isTaker : ∀ th h item, s.threads th = .recvStore h item → h = s.head ∧ g.taker = some (th, item)
  taker : ∀ th item, g.taker = some (th, item) → s.threads th = .recvStore s.head item
  pcs : ∀ th, s.PcOk (s.threads th)
  ring : InRing s.capacity s.buffer g.first g.items
  only : ∀ c v, s.buffer c = some v → ∃ n < g.items.length, c = ringCell s.capacity (g.first + n : Nat)
  count : g.first + g.items.length = g.last
  behind : g.first ≤ g.accepted
  room : g.last ≤ g.received + s.capacity
  fifo : s.history.filterMap ChannelAct.item? ++ g.writer.toList.map Prod.snd =
    s.history.filterMap ChannelAct.got? ++ g.taker.toList.map Prod.snd ++ g.items
  drained : Drained s.history

section
variable {k : Nat} {s s' : Channel α Tid} {g : Ghost α Tid} {th u : Tid}

theorem slot_eq (hk : k ≤ 64) (hcap : s.capacity = 2 ^ k) (n : Nat) :
    s.slot (n % 2 ^ 64) = ringCell s.capacity n := by
  have hmask := ringCell_mask hk n
  have hmod : ((n : Int) % 2 ^ 64).toNat = n % 2 ^ 64 := by omega
  rw [hmod] at hmask
  rw [slot, hcap]
  exact hmask

theorem Inv.pos (h : Inv k s g) : 0 < s.capacity := by
  rw [h.capacity]
  exact Nat.pow_pos (by decide)

theorem capacity_lt (hk : k < 63) (h : Inv k s g) : s.capacity < 2 ^ 63 := by
  rw [h.capacity]
  exact Nat.pow_lt_pow_right (by decide) hk

theorem wrappingSub_eq {i j : Nat} (hle : j ≤ i) (hlt : i - j < 2 ^ 64) :
    wrappingSub (i % 2 ^ 64) (j % 2 ^ 64) = i - j := by
  rw [wrappingSub]
  omega

theorem Inv.len_eq (hk : k < 63) (h : Inv k s g) : s.len = g.accepted - g.received := by
  have h₁ := h.behind
  have h₂ := h.room
  have h₃ := capacity_lt hk h
  rw [Ghost.first] at h₁
  rw [Ghost.last] at h₂
  rw [len, h.head, h.tail, wrappingSub_eq (by omega) (by omega)]

/-- The slot of the next item to receive is empty while a thread is to return that item. -/
theorem Inv.taken_empty (hk : k < 63) (h : Inv k s g) (ht : g.taker.toList.length = 1) :
    s.buffer (s.slot s.head) = none := by
  rw [Option.eq_none_iff_forall_not_mem]
  intro v hv
  obtain ⟨n, hn, hc⟩ := h.only _ v hv
  have hcount := h.count
  have hroom := h.room
  rw [h.head, slot_eq (by omega) h.capacity] at hc
  rw [Ghost.first, ht] at hc hcount
  exact ringCell_ne h.pos (by omega) (by omega) hc

/-- The slot of the next item to accept is not empty while a thread has written it. -/
theorem Inv.written_full (hk : k < 63) (h : Inv k s g) (hw : g.writer ≠ none) :
    s.buffer (s.slot s.tail) ≠ none := by
  obtain ⟨⟨th, item⟩, hw⟩ := Option.ne_none_iff_exists'.mp hw
  obtain ⟨-, rest, hitems⟩ := h.writer th item hw
  have hlast := (hitems ▸ h.ring).last
  have hcount := h.count
  rw [hitems, Ghost.last, hw, length_append] at hcount
  simp only [Option.toList_some, length_singleton] at hcount
  rw [h.tail, slot_eq (by omega) h.capacity]
  have hat : ((g.accepted : Nat) : Int) = g.first + rest.length := by omega
  rw [hat, hlast]
  exact nofun

theorem Aside.ite {c : Prop} [Decidable c] {pc pc' : ChannelPc α} (h : c → s.Aside pc) (h' : s.Aside pc') :
    s.Aside (if c then pc else pc') := by
  split
  case isTrue hc => exact h hc
  case isFalse => exact h'

theorem aside_refused (block : Bool) (item : α) : s.Aside (refused block item) :=
  .ite (fun _ => ⟨rfl, trivial⟩) ⟨rfl, trivial⟩

theorem aside_nothing (block : Bool) : s.Aside (nothing block) :=
  .ite (fun _ => ⟨rfl, trivial⟩) ⟨rfl, trivial⟩

/-! ## History -/

theorem Drained.snoc {history : List (ChannelAct α Tid)} {a : ChannelAct α Tid} (h : Drained history)
    (ha : ∀ th, a = .drained th →
      history.filterMap ChannelAct.item? = history.filterMap ChannelAct.got?) : Drained (history ++ [a]) := by
  intro pre th post heq
  obtain rfl | ⟨post', b, rfl⟩ := List.eq_nil_or_concat' post
  · obtain ⟨hpre, hlast⟩ := List.append_inj' heq rfl
    rw [← hpre]
    exact ha th (List.singleton_inj.mp hlast)
  · rw [← List.cons_append, ← append_assoc] at heq
    exact h pre th post' (List.append_inj' heq rfl).1

/-! ## Threads -/

variable [DecidableEq Tid]

theorem Inv.quiet {pc : ChannelPc α} (h : Inv k s g) (hold : storing (s.threads th) = false)
    (hpc : s.Aside pc) : Inv k (s.setThread th pc) g where
  capacity := h.capacity
  head := h.head
  tail := h.tail
  isWriter u b x t hu := by
    simp only [setThread, update_apply] at hu
    split at hu
    · cases (congrArg storing hu).symm.trans hpc.1
    · exact h.isWriter u b x t hu
  writer u x hw := by
    obtain ⟨⟨b, hu⟩, hrest⟩ := h.writer u x hw
    refine ⟨⟨b, ?_⟩, hrest⟩
    simp only [setThread, update_apply]
    split
    case isTrue heq => cases (congrArg storing (heq ▸ hu)).symm.trans hold
    case isFalse => exact hu
  isTaker u hd x hu := by
    simp only [setThread, update_apply] at hu
    split at hu
    · cases (congrArg storing hu).symm.trans hpc.1
    · exact h.isTaker u hd x hu
  taker u x hw := by
    have hu := h.taker u x hw
    simp only [setThread, update_apply]
    split
    case isTrue heq => cases (congrArg storing (heq ▸ hu)).symm.trans hold
    case isFalse => exact hu
  pcs u := by
    show s.PcOk (Function.update s.threads th pc u)
    rw [update_apply]
    split
    · exact hpc.2
    · exact h.pcs u
  ring := h.ring
  only := h.only
  count := h.count
  behind := h.behind
  room := h.room
  fifo := h.fifo
  drained := h.drained

variable {item : α} {block : Bool} {t : Nat}

theorem inv_write (hk : k < 63) (h : Inv k s g)
    (hpc : s.threads th = .sendWrite block item t) (htail : s.tail = t) (hroom : s.len < s.capacity)
    (hempty : s.buffer (s.slot t) = none) :
    Inv k ((s.setSlot t (some item)).setThread th (.sendStore block item t))
      { g with writer := some (th, item), items := g.items ++ [item] } := by
  subst htail
  have hnone : g.writer = none := by
    by_contra hw
    exact h.written_full hk hw hempty
  have hcount := h.count
  have hbehind := h.behind
  have hlen := h.len_eq hk
  have hlast : g.last = g.accepted := by rw [Ghost.last, hnone]; rfl
  have hfirst : g.received ≤ g.first := Nat.le_add_right _ _
  have hslot : s.slot s.tail = ringCell s.capacity (g.first + g.items.length) := by
    rw [h.tail, slot_eq (by omega) h.capacity]
    congr 1
    omega
  have hthreads : ∀ u, (((s.setSlot s.tail (some item)).setThread th (.sendStore block item s.tail)).threads u) =
      if u = th then .sendStore block item s.tail else s.threads u := fun u => update_apply ..
  refine
    { capacity := h.capacity, head := h.head, tail := h.tail, isWriter := fun u b x t hu => ?_,
      writer := fun u x hw => ?_, isTaker := fun u hd x hu => ?_, taker := fun u x hw => ?_,
      pcs := fun u => ?_, ring := ?_, only := fun c v hc => ?_, count := ?_, behind := hbehind, room := ?_,
      fifo := ?_, drained := h.drained }
  · rw [hthreads] at hu
    split at hu
    case isTrue heq =>
      cases hu
      exact ⟨rfl, by rw [heq]⟩
    case isFalse =>
      have := (h.isWriter u b x t hu).2
      rw [hnone] at this
      cases this
  · cases hw
    refine ⟨⟨block, ?_⟩, g.items, rfl⟩
    rw [hthreads, if_pos rfl]
    rfl
  · rw [hthreads] at hu
    split at hu
    · cases hu
    · exact h.isTaker u hd x hu
  · rw [hthreads, if_neg]
    · exact h.taker u x hw
    · intro heq
      have := h.taker u x hw
      rw [heq, hpc] at this
      cases this
  · rw [hthreads]
    split
    · trivial
    · exact h.pcs u
  · show InRing s.capacity (Function.update s.buffer (s.slot s.tail) (some item)) g.first (g.items ++ [item])
    rw [hslot]
    exact h.ring.push (by omega)
  · rw [length_append, length_singleton]
    replace hc : Function.update s.buffer (s.slot s.tail) (some item) c = some v := hc
    rw [update_apply] at hc
    split at hc
    case isTrue heq => exact ⟨g.items.length, Nat.lt_succ_self _, heq.trans hslot⟩
    case isFalse =>
      obtain ⟨n, hn, hc⟩ := h.only c v hc
      exact ⟨n, Nat.lt_succ_of_lt hn, hc⟩
  · show g.first + (g.items ++ [item]).length = g.accepted + 1
    rw [length_append, length_singleton]
    omega
  · show g.accepted + 1 ≤ g.received + s.capacity
    omega
  · have hfifo := h.fifo
    rw [hnone] at hfifo
    simp only [Option.toList_none, map_nil, append_nil] at hfifo
    show s.history.filterMap ChannelAct.item? ++ [item] =
      s.history.filterMap ChannelAct.got? ++ g.taker.toList.map Prod.snd ++ (g.items ++ [item])
    rw [hfifo, append_assoc _ g.items, append_assoc _ _ (g.items ++ [item])]

/-- A sender stores `tail`. -/
theorem inv_accept (h : Inv k s g)
    (hpc : s.threads th = .sendStore block item t) (hopen : s.closed = false) :
    Inv k ({ s.log (.accepted th item) with tail := wrappingSucc t }.setThread th .idle)
      { g with writer := none, accepted := g.accepted + 1 } := by
  obtain ⟨rfl, hw⟩ := h.isWriter th block item t hpc
  have hlast : g.last = g.accepted + 1 := by rw [Ghost.last, hw]; rfl
  have hcount := h.count
  have hbehind := h.behind
  have hroom := h.room
  have hthreads : ∀ u, (({ s.log (.accepted th item) with tail := wrappingSucc s.tail }.setThread th
      .idle).threads u) = if u = th then .idle else s.threads u := fun u => update_apply ..
  refine
    { capacity := h.capacity, head := h.head, tail := ?_, isWriter := fun u b x t hu => ?_,
      writer := fun u x hw => ?_, isTaker := fun u hd x hu => ?_, taker := fun u x hw => ?_,
      pcs := fun u => ?_, ring := h.ring, only := h.only, count := ?_, behind := Nat.le_succ_of_le hbehind,
      room := ?_, fifo := ?_, drained := h.drained.snoc nofun }
  · show wrappingSucc s.tail = (g.accepted + 1) % 2 ^ 64
    rw [wrappingSucc, h.tail, Nat.mod_add_mod]
  · rw [hthreads] at hu
    split at hu
    · cases hu
    case isFalse hne =>
      have := (h.isWriter u b x t hu).2
      rw [hw] at this
      exact absurd (Prod.mk.inj (Option.some.inj this)).1.symm hne
  · cases hw
  · rw [hthreads] at hu
    split at hu
    · cases hu
    · exact h.isTaker u hd x hu
  · rw [hthreads, if_neg]
    · exact h.taker u x hw
    · intro heq
      have := h.taker u x hw
      rw [heq, hpc] at this
      cases this
  · have hpcs := h.pcs u
    rw [hthreads]
    split
    · trivial
    · revert hpcs
      cases s.threads u with
      | recvLen => exact id
      | recvEmpty t =>
        intro hpcs
        rw [hpcs.1] at hopen
        cases hopen
      | _ => exact fun _ => trivial
  · show g.first + g.items.length = g.accepted + 1
    omega
  · show g.accepted + 1 ≤ g.received + s.capacity
    omega
  · have hfifo := h.fifo
    rw [hw] at hfifo
    show (s.history ++ [ChannelAct.accepted th item]).filterMap ChannelAct.item? ++ [] =
      (s.history ++ [ChannelAct.accepted th item]).filterMap ChannelAct.got? ++ g.taker.toList.map Prod.snd ++ g.items
    rw [filterMap_append, filterMap_append, append_nil]
    show _ ++ [item] = _ ++ [] ++ _ ++ _
    rw [append_nil]
    exact hfifo

theorem inv_take {hd : Nat} (hk : k < 63) (h : Inv k s g)
    (hpc : s.threads th = .recvTake block hd) (hhead : s.head = hd) (hne : s.head ≠ s.tail)
    (hitem : s.buffer (s.slot hd) = some item) :
    ∃ items, Inv k ((s.setSlot hd none).setThread th (.recvStore hd item))
      { g with taker := some (th, item), items := items } := by
  subst hhead
  have hnone : g.taker = none := by
    rw [Option.eq_none_iff_forall_not_mem]
    intro p hp
    have hempty := h.taken_empty hk (by rw [Option.mem_def.mp hp]; rfl)
    rw [hempty] at hitem
    cases hitem
  have hfirst : g.first = g.received := by rw [Ghost.first, hnone]; rfl
  have hcount := h.count
  have hbehind := h.behind
  have hroom := h.room
  have haccepted : g.accepted ≤ g.last := Nat.le_add_right _ _
  have hlt : g.received < g.accepted := by
    refine Nat.lt_of_le_of_ne (by omega) fun heq => hne ?_
    rw [h.head, h.tail, heq]
  have hslot : s.slot s.head = ringCell s.capacity g.first := by
    rw [h.head, slot_eq (by omega) h.capacity, hfirst]
  have hring := h.ring
  have honly := h.only
  have hfifo := h.fifo
  cases hitems : g.items with
  | nil =>
    rw [hitems, length_nil] at hcount
    omega
  | cons x items =>
    rw [hitems] at hring honly hfifo
    rw [hitems, List.length_cons] at hcount
    have hx : x = item := by
      have := hring.head
      rw [← hslot, hitem] at this
      exact (Option.some.inj this).symm
    subst hx
    have hthreads : ∀ u, (((s.setSlot s.head none).setThread th (.recvStore s.head x)).threads u) =
        if u = th then .recvStore s.head x else s.threads u := fun u => update_apply ..
    refine ⟨items,
      { capacity := h.capacity, head := h.head, tail := h.tail, isWriter := fun u b y t hu => ?_,
        writer := fun u y hw => ?_, isTaker := fun u hd y hu => ?_, taker := fun u y hw => ?_,
        pcs := fun u => ?_, ring := ?_, only := fun c v hc => ?_, count := ?_, behind := ?_, room := hroom,
        fifo := ?_, drained := h.drained }⟩
    · rw [hthreads] at hu
      split at hu
      · cases hu
      · exact h.isWriter u b y t hu
    · obtain ⟨⟨b, hu⟩, rest, hrest⟩ := h.writer u y hw
      have hne : u ≠ th := by
        intro heq
        rw [heq, hpc] at hu
        cases hu
      refine ⟨⟨b, ?_⟩, ?_⟩
      · rw [hthreads, if_neg hne]
        exact hu
      · rw [hitems] at hrest
        cases rest with
        | nil =>
          -- the item written is behind the one taken, which is accepted already
          have hlen := congrArg List.length hrest
          have hlast' : g.last = g.accepted + 1 := by rw [Ghost.last, hw]; rfl
          simp at hlen
          rw [hlen, length_nil] at hcount
          omega
        | cons z rest => exact ⟨rest, (List.cons.inj hrest).2⟩
    · rw [hthreads] at hu
      split at hu
      case isTrue heq =>
        cases hu
        exact ⟨rfl, by rw [heq]⟩
      case isFalse =>
        have := (h.isTaker u hd y hu).2
        rw [hnone] at this
        cases this
    · cases hw
      rw [hthreads, if_pos rfl]
      rfl
    · rw [hthreads]
      split
      · trivial
      · exact h.pcs u
    · have htail := hring.tail
      rw [hfirst] at htail
      refine htail.update fun n hn => ?_
      rw [hslot, hfirst]
      exact (ringCell_ne h.pos (by omega) (by omega)).symm
    · replace hc : Function.update s.buffer (s.slot s.head) none c = some v := hc
      rw [update_apply] at hc
      split at hc
      · cases hc
      case isFalse hcne =>
        obtain ⟨n, hn, hc'⟩ := honly c v hc
        cases n with
        | zero => exact absurd (hc'.trans hslot.symm) hcne
        | succ n =>
          refine ⟨n, Nat.lt_of_succ_lt_succ hn, hc'.trans ?_⟩
          show ringCell s.capacity (g.first + (n + 1) : Nat) = ringCell s.capacity (g.received + 1 + n : Nat)
          congr 2
          omega
    · show g.received + 1 + items.length = g.last
      omega
    · show g.received + 1 ≤ g.accepted
      omega
    · rw [hnone] at hfifo
      simp only [Option.toList_none, map_nil, append_nil] at hfifo
      show s.history.filterMap ChannelAct.item? ++ g.writer.toList.map Prod.snd =
        s.history.filterMap ChannelAct.got? ++ [x] ++ items
      rw [hfifo, append_assoc]
      rfl

/-- A receiver stores `head`. -/
theorem inv_return {hd : Nat} (h : Inv k s g) (hpc : s.threads th = .recvStore hd item) :
    Inv k ({ s.log (.received th item) with head := wrappingSucc hd }.setThread th .idle)
      { g with taker := none, received := g.received + 1 } := by
  obtain ⟨rfl, hw⟩ := h.isTaker th hd item hpc
  have hfirst : g.first = g.received + 1 := by rw [Ghost.first, hw]; rfl
  have hfirst' : ({ g with taker := none, received := g.received + 1 } : Ghost α Tid).first = g.first :=
    hfirst.symm
  have hroom := h.room
  have hthreads : ∀ u, (({ s.log (.received th item) with head := wrappingSucc s.head }.setThread th
      .idle).threads u) = if u = th then .idle else s.threads u := fun u => update_apply ..
  refine
    { capacity := h.capacity, head := ?_, tail := h.tail, isWriter := fun u b x t hu => ?_,
      writer := fun u x hw => ?_, isTaker := fun u hd x hu => ?_, taker := fun u x hw => ?_,
      pcs := fun u => ?_, ring := hfirst'.symm ▸ h.ring, only := hfirst'.symm ▸ h.only,
      count := hfirst'.symm ▸ h.count, behind := hfirst'.symm ▸ h.behind, room := ?_, fifo := ?_,
      drained := h.drained.snoc nofun }
  · show wrappingSucc s.head = (g.received + 1) % 2 ^ 64
    rw [wrappingSucc, h.head, Nat.mod_add_mod]
  · rw [hthreads] at hu
    split at hu
    · cases hu
    · exact h.isWriter u b x t hu
  · obtain ⟨⟨b, hu⟩, hrest⟩ := h.writer u x hw
    refine ⟨⟨b, ?_⟩, hrest⟩
    rw [hthreads, if_neg]
    · exact hu
    · intro heq
      rw [heq, hpc] at hu
      cases hu
  · rw [hthreads] at hu
    split at hu
    · cases hu
    case isFalse hne =>
      have := (h.isTaker u hd x hu).2
      rw [hw] at this
      exact absurd (Prod.mk.inj (Option.some.inj this)).1.symm hne
  · cases hw
  · rw [hthreads]
    split
    · trivial
    · exact h.pcs u
  · show g.last ≤ g.received + 1 + s.capacity
    omega
  · have hfifo := h.fifo
    rw [hw] at hfifo
    show (s.history ++ [ChannelAct.received th item]).filterMap ChannelAct.item? ++ _ =
      (s.history ++ [ChannelAct.received th item]).filterMap ChannelAct.got? ++ [] ++ g.items
    rw [filterMap_append, filterMap_append]
    show _ ++ [] ++ _ = _ ++ [item] ++ [] ++ _
    rw [append_nil, append_nil]
    exact hfifo

omit [DecidableEq Tid] in
/-- When a thread that has seen the channel closed finds the indices equal, nothing accepted is left. -/
theorem Inv.received_all (hk : k < 63) (h : Inv k s g) (hpc : s.threads th = .recvEmpty t)
    (hzero : wrappingSub t s.head = 0) :
    s.history.filterMap ChannelAct.item? = s.history.filterMap ChannelAct.got? := by
  have hpcs := h.pcs th
  rw [hpc] at hpcs
  obtain ⟨-, rfl⟩ := hpcs
  have hlen := h.len_eq hk
  rw [len, hzero] at hlen
  have hbehind := h.behind
  have hcount := h.count
  rw [Ghost.first] at hbehind hcount
  rw [Ghost.last] at hcount
  have hnone : g.taker = none := by
    cases ht : g.taker with
    | none => rfl
    | some p =>
      rw [ht] at hbehind
      simp only [Option.toList_some, length_singleton] at hbehind
      omega
  have hfifo := h.fifo
  rw [hnone] at hcount hfifo
  simp only [Option.toList_none, length_nil, map_nil, append_nil] at hcount hfifo
  cases hw : g.writer with
  | none =>
    rw [hw] at hcount hfifo
    have hnil : g.items = [] := List.eq_nil_of_length_eq_zero (by
      simp only [Option.toList_none, length_nil] at hcount
      omega)
    rw [hnil] at hfifo
    simpa using hfifo
  | some p =>
    rw [hw] at hcount hfifo
    simp only [Option.toList_some, length_singleton, List.map_cons, map_nil] at hcount hfifo
    have hone : g.items.length = 1 := by omega
    obtain ⟨x, hx⟩ := List.length_eq_one_iff.mp hone
    rw [hx] at hfifo
    exact (List.append_inj' hfifo rfl).1

theorem Inv.drain (hk : k < 63) (h : Inv k s g) (hpc : s.threads th = .recvEmpty t)
    (hzero : wrappingSub t s.head = 0) : Inv k ((s.log (.drained th)).setThread th .idle) g := by
  have hlog : Inv k (s.log (.drained th)) g :=
    { capacity := h.capacity, head := h.head, tail := h.tail, isWriter := h.isWriter, writer := h.writer,
      isTaker := h.isTaker, taker := h.taker, pcs := h.pcs, ring := h.ring, only := h.only,
      count := h.count, behind := h.behind, room := h.room
      fifo := by
        show (s.history ++ [ChannelAct.drained th]).filterMap ChannelAct.item? ++ _ =
          (s.history ++ [ChannelAct.drained th]).filterMap ChannelAct.got? ++ _ ++ _
        rw [filterMap_append, filterMap_append]
        show _ ++ [] ++ _ = _ ++ [] ++ _ ++ _
        rw [append_nil, append_nil]
        exact h.fifo
      drained := h.drained.snoc fun _ _ => h.received_all hk hpc hzero }
  refine hlog.quiet ?_ ⟨rfl, trivial⟩
  show storing (s.threads th) = false
  rw [hpc]
  rfl

/-- **A thread goes on.** -/
theorem inv_next (hk : k < 63) (h : Inv k s g) (hfresh : Fresh (.next th) s) : ∃ g', Inv k (s.next th) g' := by
  have hpcs := h.pcs th
  have hquiet : ∀ {pc}, storing (s.threads th) = false → s.Aside pc → ∃ g', Inv k (s.setThread th pc) g' :=
    fun hold hpc => ⟨g, h.quiet hold hpc⟩
  rw [Fresh] at hfresh
  rw [next]
  cases hpc : s.threads th <;> rw [hpc] at hfresh hpcs hquiet
  case idle => exact ⟨g, h⟩
  case sendClosed block item => exact hquiet rfl (.ite (fun _ => aside_refused ..) ⟨rfl, trivial⟩)
  case sendTail => exact hquiet rfl ⟨rfl, trivial⟩
  case sendHead block item t => exact hquiet rfl (.ite (fun _ => aside_refused ..) ⟨rfl, trivial⟩)
  case sendLook block item t => exact hquiet rfl (.ite (fun _ => aside_refused ..) ⟨rfl, trivial⟩)
  case sendWrite block item t => exact ⟨_, inv_write hk h hpc hfresh.1 hfresh.2.1 hfresh.2.2⟩
  case sendStore block item t => exact ⟨_, inv_accept h hpc hfresh⟩
  case sendRetry item => exact hquiet rfl (.ite (fun _ => ⟨rfl, trivial⟩) ⟨rfl, trivial⟩)
  case recvHead block => exact hquiet rfl ⟨rfl, trivial⟩
  case recvTail block hd => exact hquiet rfl (.ite (fun _ => aside_nothing _) ⟨rfl, trivial⟩)
  case recvTake block hd =>
    simp only
    cases hitem : s.buffer (s.slot hd) with
    | some item =>
      obtain hnone | ⟨hhead, hne⟩ := hfresh
      · rw [hitem] at hnone
        cases hnone
      · obtain ⟨items, h'⟩ := inv_take hk h hpc hhead hne hitem
        exact ⟨_, h'⟩
    | none =>
      have hsame : s.setSlot hd none = s := by
        rw [setSlot, ← hitem, Function.update_eq_self]
      rw [hsame]
      exact hquiet rfl (aside_nothing block)
  case recvStore hd item => exact ⟨_, inv_return h hpc⟩
  case recvClosed => exact hquiet rfl (.ite (fun hclosed => ⟨rfl, hclosed⟩) ⟨rfl, trivial⟩)
  case recvLen => exact hquiet rfl ⟨rfl, hpcs, rfl⟩
  case recvEmpty t =>
    simp only
    split
    case isTrue hzero => exact ⟨g, h.drain hk hpc hzero⟩
    case isFalse => exact hquiet rfl ⟨rfl, trivial⟩

/-- **One step** keeps the invariant. -/
theorem inv_step {e : ChannelEvent α Tid} (hk : k < 63) (h : Inv k s g) (hfresh : Fresh e s)
    (hstep : step e s = some s') : ∃ g', Inv k s' g' := by
  cases e with
  | send th block item =>
    simp only [step] at hstep
    split at hstep
    case h_1 hpc =>
      cases hstep
      exact ⟨g, h.quiet (by rw [hpc]; rfl) ⟨rfl, trivial⟩⟩
    case h_2 => cases hstep
  | recv th block =>
    simp only [step] at hstep
    split at hstep
    case h_1 hpc =>
      cases hstep
      exact ⟨g, h.quiet (by rw [hpc]; rfl) ⟨rfl, trivial⟩⟩
    case h_2 => cases hstep
  | next th =>
    cases hstep
    exact inv_next hk h hfresh
  | close =>
    cases hstep
    refine ⟨g, { h with pcs := fun u => ?_ }⟩
    have hpcs := h.pcs u
    revert hpcs
    cases s.threads u with
    | recvLen => exact fun _ => rfl
    | recvEmpty t => exact fun hpcs => ⟨rfl, hpcs.2⟩
    | _ => exact fun _ => trivial

omit [DecidableEq Tid] in
/-- The items in the buffer are those in the slots, but for one that is not accepted yet. -/
theorem Inv.items_eq (hk : k < 63) (h : Inv k s g) : g.items = s.buffered ++ g.writer.toList.map Prod.snd := by
  obtain ⟨items, hitems⟩ : ∃ items, g.items = items ++ g.writer.toList.map Prod.snd := by
    cases hw : g.writer with
    | none => exact ⟨g.items, (append_nil _).symm⟩
    | some p =>
      obtain ⟨rest, hrest⟩ := (h.writer p.1 p.2 hw).2
      exact ⟨rest, hrest⟩
  have hcount := h.count
  have hlen := h.len_eq hk
  have hread : ∀ n : Nat, s.buffer (s.slot ((s.head + n) % 2 ^ 64)) =
      s.buffer (ringCell s.capacity (g.received + n : Nat)) := by
    intro n
    rw [h.head, Nat.mod_add_mod, slot_eq (by omega) h.capacity]
  have hring : InRing s.capacity s.buffer g.first items := by
    have hring := h.ring
    rw [hitems] at hring
    cases hw : g.writer with
    | none =>
      rw [hw] at hring
      simpa using hring
    | some p =>
      rw [hw] at hring
      exact InRing.dropLast (x := p.2) hring
  have hall := hring.filterMap_range
  rw [hitems, length_append, List.length_map, Ghost.last, Ghost.first] at hcount
  rw [hitems]
  congr 1
  rw [buffered, hlen]
  simp only [hread]
  cases ht : g.taker with
  | none =>
    have hfirst : g.first = g.received := by rw [Ghost.first, ht]; rfl
    rw [ht] at hcount
    have hn : g.accepted - g.received = items.length := by
      simp only [Option.toList_none, length_nil] at hcount
      omega
    rw [hn, ← hall, hfirst]
    simp [hfirst ▸ hall]
  | some p =>
    have hfirst : g.first = g.received + 1 := by rw [Ghost.first, ht]; rfl
    have hempty := h.taken_empty hk (by rw [ht]; rfl)
    rw [ht] at hcount
    have hn : g.accepted - g.received = items.length + 1 := by
      simp only [Option.toList_some, length_singleton] at hcount
      omega
    rw [hn, List.range_succ_eq_map, List.filterMap_cons_none, List.filterMap_map]
    · refine hall.symm.trans (List.filterMap_congr fun n _ => ?_)
      rw [hfirst]
      congr 2
      omega
    · rw [h.head, slot_eq (by omega) h.capacity] at hempty
      exact hempty

omit [DecidableEq Tid] in
/-- What the invariant says of the items. -/
theorem Inv.delivers (hk : k < 63) (h : Inv k s g) : s.Delivers where
  fifo := by
    refine ⟨g.taker.toList.map Prod.snd, ?_, fun item hitem => ?_, ?_⟩
    · cases g.taker <;> simp
    · obtain ⟨⟨th, x⟩, hp, rfl⟩ := List.mem_map.mp hitem
      exact ⟨th, s.head, h.taker th x (Option.mem_toList.mp hp)⟩
    · have hfifo := h.fifo
      rw [h.items_eq hk, ← append_assoc] at hfifo
      exact List.append_cancel_right hfifo
  room := by
    have := h.ring.length
    rw [h.items_eq hk, length_append] at this
    omega
  drained := h.drained

end

theorem inv_new [DecidableEq Tid] {k n : Nat} (hcap : max n.nextPowerOfTwo 8 = 2 ^ k) :
    Inv k (new n : Channel α Tid) {} where
  capacity := hcap
  head := rfl
  tail := rfl
  isWriter := nofun
  writer := nofun
  isTaker := nofun
  taker := nofun
  pcs _ := trivial
  ring := .nil
  only := nofun
  count := rfl
  behind := Nat.le_refl _
  room := Nat.zero_le _
  fifo := rfl
  drained pre th post h := by
    have := congrArg List.length h
    simp [new] at this

/-- **The channel delivers every accepted item exactly once and in order**, in every run in which what a
thread has checked still holds when it acts on it. -/
theorem channel_delivers [DecidableEq Tid] (n : Nat) (es : List (ChannelEvent α Tid)) (s : Channel α Tid)
    (hn : (new n : Channel α Tid).capacity < 2 ^ 63) (hfresh : Meets step Fresh es (new n))
    (hrun : run es (new n) = some s) : s.Delivers := by
  obtain ⟨k, hk⟩ : ∃ k, max n.nextPowerOfTwo 8 = 2 ^ k := by
    obtain ⟨k, hk⟩ := Nat.isPowerOfTwo_nextPowerOfTwo n
    obtain hle | hle := Nat.le_total n.nextPowerOfTwo 8
    · exact ⟨3, Nat.max_eq_right hle⟩
    · exact ⟨k, (Nat.max_eq_left hle).trans hk⟩
  have hlt : k < 63 := by
    have : 2 ^ k < 2 ^ 63 := hk ▸ hn
    exact (Nat.pow_lt_pow_iff_right (by decide)).mp this
  obtain ⟨g, hg⟩ := hfresh.invariant (I := fun s => ∃ g, Inv k s g)
    (fun _ _ _ ⟨_, h⟩ hc hs => inv_step hlt h hc hs) ⟨{}, inv_new hk⟩ hrun
  exact hg.delivers hlt

theorem new_eight : (new 8 : Channel α Tid) = { capacity := 8 } := by
  have h : Nat.nextPowerOfTwo 8 = 8 := by decide +kernel
  rw [new, h]
  rfl

/-- One thread sends an item, the other receives it. -/
def sampleRun : List (ChannelEvent Nat Bool) :=
  [.send true false 7, .next true, .next true, .next true, .next true, .next true, .next true,
    .recv false false, .next false, .next false, .next false, .next false]

theorem channel_delivers_sample : ((run sampleRun (new 8)).getD (new 8)).Delivers := by
  refine channel_delivers 8 sampleRun _ ?_ ?_ ?_
  · rw [new_eight]
    decide
  · rw [new_eight]
    refine .cons trivial rfl (.cons trivial rfl (.cons trivial rfl (.cons trivial rfl (.cons trivial rfl
      (.cons ⟨rfl, by decide, rfl⟩ rfl (.cons rfl rfl (.cons trivial rfl (.cons trivial rfl
        (.cons trivial rfl (.cons (.inr ⟨rfl, by decide⟩) rfl (.cons trivial rfl trivial)))))))))))
  · rw [new_eight]
    rfl

/-- Two threads send: both find the first slot empty before either writes it. -/
def lostItem : List (ChannelEvent Nat Bool) :=
  [.send true false 1, .send false false 2, .next true, .next false, .next true, .next false, .next true,
    .next false, .next true, .next false, .next true, .next false, .next true, .next false]

/-- Both items are accepted, and the first is lost. -/
theorem channel_not_delivers :
    ¬∀ (n : Nat) (es : List (ChannelEvent Nat Bool)) (s : Channel Nat Bool),
      (new n : Channel Nat Bool).capacity < 2 ^ 63 → run es (new n) = some s → s.Delivers := by
  intro h
  have hrun : run lostItem (new 8) = some ((run lostItem { capacity := 8 }).getD {capacity := 8}) := by
    rw [new_eight]
    rfl
  obtain ⟨taken, -, htaken, hfifo⟩ := (h 8 lostItem _ (by rw [new_eight]; decide) hrun).fifo
  have hnil : taken = [] := by
    rw [List.eq_nil_iff_forall_not_mem]
    intro item hitem
    obtain ⟨th, hd, hpc⟩ := htaken item hitem
    cases th <;> cases hpc
  rw [hnil] at hfifo
  exact absurd hfifo (by decide)

end Datara.Runtime.Channel
