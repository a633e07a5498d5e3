import Datara.Library.Runs
import Datara.Natvar.ChanLog

/-!
# Fiber channels deliver every value once

In a run in which a send is made by a fiber on a channel that holds no value, and finds the cell of a
receiver where one is parked, every value is delivered once (`values_delivered`). A send on a channel that
holds a value overwrites it (`values_not_delivered`).
-/

namespace Datara.Natvar

open Library
open scoped List

namespace Runtime

section
variable {s s' t : Runtime} {p q : Ptr} {f f' : Fiber} {acts : ChanLog}
  {slot : Int → Option (Option Ptr × Int)}

/-! ## What a mutex does is aside -/

theorem aside_mutexLock {id now timeout : Int} (h : Sound s) (hcall : s.currentCall = none) :
    Aside s (s.mutexLock id now timeout).2 := by
  rcases mutexLock_cases s id now timeout with ⟨msg, he⟩ | ⟨n, m, -, -, -, he⟩ | ⟨n, m, p, -, -, -, hp, he⟩
  · rw [he]
    exact .refl s
  · rw [he]
    exact .congr rfl rfl
  · rw [he]
    obtain ⟨f, hf, hs, hc⟩ := h.caller hp
    refine .record hf (setFiber_self hf) (fun q hq => setFiber_other hq) rfl (by rw [hs]; nofun) nofun
      fun id hrecv => ?_
    rw [← hc, hcall] at hrecv
    cases hrecv

theorem aside_mutexUnlock {id : Int} (h : Sound s) : Aside s (s.mutexUnlock id).2 := by
  rcases mutexUnlock_cases s id with ⟨-, he⟩ | ⟨n, m, -, -, -, he⟩ | ⟨n, m, next, rest, -, hm, hw, he⟩
  · rw [he]
    exact .refl s
  · rw [he]
    exact .congr rfl rfl
  · rw [he]
    have hmem : next ∈ s.listOf (.mutex n) := by
      rw [listOf_mutex, hm]
      show next ∈ m.waiters
      rw [hw]
      exact List.mem_cons_self
    obtain ⟨f, hf, hs, -⟩ := h.mem_mutex hmem
    refine .record hf (setFiber_self hf) (fun q hq => setFiber_other hq) rfl (by rw [hs]; nofun) nofun
      fun id _ hstate => ?_
    rw [hs] at hstate
    exact hstate.elim nofun nofun

theorem aside_lockResumed (h : Sound s) (hp : s.running = some p) (hcall : s.currentCall = some .lock) :
    Aside s (s.lockResumed p).2 := by
  obtain ⟨f, hf, hs, hc⟩ := h.caller hp
  refine .record hf (setFiber_self hf) (fun q hq => setFiber_other hq) rfl (by rw [hs]; nofun)
    (show f.state ≠ _ by rw [hs]; nofun) fun id hrecv => ?_
  rw [← hc, hcall] at hrecv
  cases hrecv

/-- Fibers that are parked on no channel, and do not receive, are made ready. -/
theorem aside_mutexWaitPollAndWake {now : Ptr → Int} (h : Sound s) : Aside s (s.mutexWaitPollAndWake now).2 := by
  set woken : Ptr → Bool := fun p => (s.heap p).any (expired (now p))
  set ps := s.mutexes.flatMap fun m => m.waiters.filter woken with hps
  have hnodup : ps.Nodup :=
    nodup_mutexes (fun i => h.nodup (.mutex i)) (fun i => h.place (.mutex i)) woken
  have hout : (s.mutexWaitPollAndWake now).2 = _ := wakeAll_heap ps hnodup _
  rw [hout]
  have hstate : ∀ p ∈ ps, ∃ f, s.heap p = some f ∧ f.state = .waitingMutex := by
    intro p hp
    rw [hps, List.mem_flatMap] at hp
    obtain ⟨m, hm, hp⟩ := hp
    obtain ⟨i, hi, rfl⟩ := List.getElem_of_mem hm
    have hmem : p ∈ s.listOf (.mutex i) := by
      rw [listOf_mutex, List.getElem?_eq_getElem hi]
      exact (List.mem_filter.mp hp).1
    obtain ⟨f, hf, hs, -⟩ := h.mem_mutex hmem
    exact ⟨f, hf, hs⟩
  have hout : ∀ p f, s.heap p = some f → f.state ≠ .waitingMutex → p ∉ ps := by
    intro p f hf hne hp
    obtain ⟨g, hg, hs⟩ := hstate p hp
    cases hf.symm.trans hg
    exact hne hs
  refine ⟨fun id => .inl (chanOf_congr (s := s) rfl id), fun p f hf hs => ⟨f, ?_, hs, rfl, rfl⟩,
    fun p f' hf' hs => ?_, fun p f id hf hc hs => ⟨f, ?_, hc, hs⟩⟩
  · exact (if_neg (hout p f hf (by rw [hs]; nofun))).trans hf
  · have hin : p ∉ ps := by
      intro hin
      obtain ⟨f, hf, -⟩ := hstate p hin
      obtain rfl := Option.some.inj ((((if_pos hin).trans (by rw [hf]; rfl)).symm.trans hf' :
        some { f with wakeResult := 0, state := .ready } = some f'))
      cases hs
    exact ⟨f', (if_neg hin).symm.trans hf', hs, rfl⟩
  · refine (if_neg (hout p f hf ?_)).trans hf
    intro he
    rw [he] at hs
    exact hs.elim nofun nofun

theorem aside_spawn {addr : Option Ptr} (hfree : ∀ p, addr = some p → s.heap p = none) :
    Aside s (s.spawn addr).2 := by
  rcases @spawn_spec addr s with he | ⟨p, n, rfl, he⟩
  · rw [he]
    exact .refl s
  · rw [he]
    have hnone := hfree p rfl
    have hother : ∀ q f, s.heap q = some f →
        Function.update s.heap p (some { handle := s.nextHandle, state := .ready }) q = some f := by
      intro q f hf
      rw [Function.update_of_ne, hf]
      rintro rfl
      rw [hnone] at hf
      cases hf
    refine ⟨fun id => .inl (chanOf_congr (s := s) rfl id), fun q f hf hs => ⟨f, hother q f hf, hs, rfl, rfl⟩,
      fun q f' hf' hs => ?_, fun q f id hf hc hs => ⟨f, hother q f hf, hc, hs⟩⟩
    by_cases hq : q = p
    · subst hq
      have hnew : Function.update s.heap q (some { handle := s.nextHandle, state := .ready }) q = some f' := hf'
      rw [Function.update_self] at hnew
      cases hnew
      cases hs
    · exact ⟨f', (Function.update_of_ne hq _ _).symm.trans hf', hs, rfl⟩

theorem aside_chanCreate : Aside s s.chanCreate.2 := by
  rw [chanCreate]
  split
  case isTrue => exact .refl s
  case isFalse =>
    refine ⟨fun id => ?_, fun _ f hf hs => ⟨f, hf, hs, rfl, rfl⟩, fun _ f hf hs => ⟨f, hf, hs, rfl⟩,
      fun _ f _ hf hc hs => ⟨f, hf, hc, hs⟩⟩
    rw [chanOf, chanOf, chanById, chanById]
    simp only [List.length_append, List.length_singleton, Int.natCast_add, Int.cast_ofNat_Int]
    by_cases hold : id < 1 ∨ (s.chans.length : Int) < id
    · refine .inr ⟨by rw [if_pos hold]; rfl, ?_⟩
      split
      · rfl
      · rename_i hnew
        have hlast : id.toNat - 1 = s.chans.length := by omega
        rw [Option.bind_some, hlast, List.getElem?_concat_length]
        rfl
    · refine .inl ?_
      rw [if_neg hold, if_neg (by omega), Option.bind_some, Option.bind_some]
      exact List.getElem?_append_left (by omega)

/-! ## Channels -/

theorem chanById_some {id : Int} {i : Nat} (h : s.chanById id = some i) : i < s.chans.length ∧ id = i + 1 := by
  rw [chanById] at h
  split at h
  case isTrue => cases h
  case isFalse hid =>
    cases h
    omega

theorem chanOf_setChan {id id' : Int} {i : Nat} {g : FiberChan → FiberChan} (hi : s.chanById id = some i) :
    (s.setChan i g).chanOf id' = if id' = id then (s.chanOf id).map g else s.chanOf id' := by
  have hby : ∀ id, (s.setChan i g).chanById id = s.chanById id := by
    intro id
    rw [chanById, chanById, setChan]
    simp
  obtain ⟨-, hid⟩ := chanById_some hi
  rw [chanOf, hby]
  cases hj : s.chanById id' with
  | none =>
    have hne : id' ≠ id := by
      rintro rfl
      cases hi.symm.trans hj
    rw [if_neg hne, chanOf, hj]
    rfl
  | some j =>
    obtain ⟨-, hid'⟩ := chanById_some hj
    show (s.chans.modify i g)[j]? = _
    rw [List.getElem?_modify]
    by_cases hij : i = j
    · subst hij
      rw [if_pos (by omega), chanOf, hi, Option.bind_some]
      cases s.chans[i]? <;> simp
    · rw [if_neg (by omega), chanOf, hj, Option.bind_some]
      cases s.chans[j]? <;> simp [hij]

/-- At most one waiter of a channel is made ready. -/
structure Woken (id : Int) (s t : Runtime) (w : Option Ptr) : Prop where
  rest : ∀ q, w ≠ some q → t.heap q = s.heap q
  one : ∀ q, w = some q → ∃ g, s.heap q = some g ∧ g.state = .waitingChan ∧ g.waitOn = id ∧
    t.heap q = some { g with state := .ready }
  chans : t.chans = s.chans

theorem wakeRecvOf_woken (s : Runtime) (id : Int) :
    Woken id s (s.wakeRecvOf id) ((s.findWaiter id s.waitingChanRecv).bind s.waitingChanRecv) := by
  rcases wakeRecvOf_cases s id with ⟨hfind, he⟩ | ⟨i, p, f, hfind, hc, hf, hs, hw, he⟩
  · rw [he, hfind]
    exact ⟨fun _ _ => rfl, nofun, rfl⟩
  · rw [he, hfind, Option.bind_some, hc]
    refine ⟨fun q hq => setFiber_other fun heq => hq (heq ▸ rfl), fun q hq => ?_, rfl⟩
    cases hq
    exact ⟨f, hf, hs, hw, setFiber_self hf⟩

theorem wakeSendOf_woken (s : Runtime) (id : Int) : ∃ w, Woken id s (s.wakeSendOf id) w := by
  rcases wakeSendOf_cases s id with ⟨-, he⟩ | ⟨i, p, f, -, -, hf, hs, hw, he⟩
  · rw [he]
    exact ⟨none, fun _ _ => rfl, nofun, rfl⟩
  · rw [he]
    refine ⟨some p, fun q hq => setFiber_other fun heq => hq (heq ▸ rfl), fun q hq => ?_, rfl⟩
    cases hq
    exact ⟨f, hf, hs, hw, setFiber_self hf⟩

section
variable {id id' : Int} {w : Option Ptr} {v : Int}

theorem Woken.ne_of_state (h : Woken id s t w) (hf : s.heap p = some f) (hs : f.state ≠ .waitingChan) :
    w ≠ some p := by
  intro hw
  obtain ⟨g, hg, hstate, -⟩ := h.one p hw
  cases hf.symm.trans hg
  exact hs hstate

theorem Woken.ne_of_chan (h : Woken id s t w) (hf : s.heap p = some f) (hne : f.waitOn ≠ id) : w ≠ some p := by
  intro hw
  obtain ⟨g, hg, -, hon, -⟩ := h.one p hw
  cases hf.symm.trans hg
  exact hne hon

theorem Woken.parked (h : Woken id s t w) (hf : t.heap p = some f) (hs : f.state = .waitingChan) :
    s.heap p = some f ∧ w ≠ some p := by
  have hw : w ≠ some p := by
    intro hw
    obtain ⟨g, -, -, -, hg⟩ := h.one p hw
    cases hg.symm.trans hf
    cases hs
  exact ⟨(h.rest p hw).symm.trans hf, hw⟩

end

/-- What is asked of a send: that it is a fiber's, that the channel holds no value, and that the cell of a
receiver is found where one is parked. -/
structure SendsAlone (id : Int) (s : Runtime) : Prop where
  fiber : s.running ≠ none
  empty : (s.chanOf id).bind held = none
  found : ParkedReceiver id s → ∃ q g, (s.findWaiter id s.waitingChanRecv).bind s.waitingChanRecv = some q ∧
    s.heap q = some g ∧ g.call = some (.recv id)

theorem rendezvous_send {id v : Int} (h : Rendezvous acts s slot) (hsound : Sound s)
    (hcall : s.currentCall = none) (hcond : (s.chanOf id).isSome → SendsAlone id s) :
    ∃ slot', Rendezvous (acts ++ chanActs (.send id v) s (s.chanSend id v).1) (s.chanSend id v).2 slot' := by
  cases hi : s.chanById id with
  | none =>
    have hnone : s.chanOf id = none := by rw [chanOf, hi]; rfl
    have hacts : ∀ r, chanActs (.send id v) s r = [] := fun r => if_neg (by rw [hnone]; simp)
    rw [hacts, List.append_nil, chanSend, hi]
    exact ⟨slot, h⟩
  | some i =>
    have hget : s.chanOf id = s.chans[i]? := by rw [chanOf, hi]; rfl
    have hlt := (chanById_some hi).1
    have hsome : (s.chanOf id).isSome := by rw [hget, List.getElem?_eq_getElem hlt]; rfl
    obtain ⟨hfiber, hempty, hfound⟩ := hcond hsome
    cases hp : s.running with
    | none => exact absurd hp hfiber
    | some p =>
      obtain ⟨f, hf, hs, hc⟩ := hsound.caller hp
      rw [hcall] at hc
      have hacts : ∀ r, chanActs (.send id v) s r = [.sent id (some p) v] := by
        intro r
        rw [← hp]
        exact if_pos hsome
      set u := s.setChan i fun _ => { buf := v, hasValue := true }
      set t := wakeRecvOf id u with ht
      have hwoken : Woken id u t ((s.findWaiter id s.waitingChanRecv).bind s.waitingChanRecv) :=
        wakeRecvOf_woken u id
      set w := (s.findWaiter id s.waitingChanRecv).bind s.waitingChanRecv
      obtain ⟨c, n, hadd⟩ := chanSendAdd_spec t p
      have hout : (s.chanSend id v).2 = switchOut { t.setFiber p (fun f =>
          { f with state := .waitingChan, waitOn := id }) with
            waitingChanSend := c, waitingChanCount := n } := by
        have hfull : (t.chans[i]?).any (·.hasValue) = true := by
          rw [hwoken.chans]
          show ((s.chans.modify i _)[i]?).any _ = _
          rw [List.getElem?_modify, List.getElem?_eq_getElem hlt]
          simp
        rw [chanSend, hi, hp]
        show (if _ then _ else _ : Reply × Runtime).2 = _
        rw [if_pos hfull, hadd]
      rw [hacts, hout]
      set s' := switchOut { t.setFiber p (fun f => { f with state := .waitingChan, waitOn := id }) with
        waitingChanSend := c, waitingChanCount := n }
      have hwp : w ≠ some p := hwoken.ne_of_state (s := u) hf (by rw [hs]; simp)
      have hself : s'.heap p = some { f with state := .waitingChan, waitOn := id } :=
        setFiber_self (s := t) ((hwoken.rest p hwp).trans hf)
      have hother : ∀ q, q ≠ p → s'.heap q = t.heap q := fun q hq => setFiber_other (s := t) hq
      have hchan : ∀ id', (s'.chanOf id').bind held = if id' = id then some v else (s.chanOf id').bind held := by
        intro id'
        have hcongr : s'.chanOf id' = u.chanOf id' := chanOf_congr (s := u) hwoken.chans id'
        rw [hcongr, chanOf_setChan hi]
        split
        · obtain ⟨x, hx⟩ := Option.isSome_iff_exists.mp hsome
          rw [hx]
          rfl
        · rfl
      have hslot : slot id = none := by
        have := h.held id
        rw [hempty] at this
        exact Option.map_eq_none_iff.mp this
      -- a receiver that is parked afterwards was parked before
      have hreceiver : ∀ {id'}, ParkedReceiver id' s' → ParkedReceiver id' s := by
        rintro id' ⟨q, g, hg, hgs, hgc⟩
        have hqp : q ≠ p := by
          rintro rfl
          cases hself.symm.trans hg
          cases hc.trans hgc
        exact ⟨q, g, (hwoken.parked ((hother q hqp).symm.trans hg) hgs).1, hgs, hgc⟩
      refine ⟨Function.update slot id (some (some p, v)),
        h.slots.sent hslot fun id' v' => h.idle hf (by rw [hs]; simp) id' v', fun id' => ?_,
        fun id' a v' hslot' => ?_, fun id' hv hparked => ?_⟩
      · rw [hchan]
        by_cases hid : id' = id
        · subst hid
          rw [Function.update_self, if_pos rfl]
          rfl
        · rw [Function.update_of_ne hid, if_neg hid]
          exact h.held id'
      · by_cases hid : id' = id
        · subst hid
          rw [Function.update_self] at hslot'
          exact ⟨p, ((Prod.mk.inj (Option.some.inj hslot')).1).symm, _, hself, rfl, hc.symm, rfl⟩
        · rw [Function.update_of_ne hid] at hslot'
          obtain ⟨q, ha, g, hg, hgs, hgc, hgw⟩ := h.parked id' a v' hslot'
          have hqp : q ≠ p := by
            rintro rfl
            cases hf.symm.trans hg
            rw [hs] at hgs
            cases hgs
          refine ⟨q, ha, g, (hother q hqp).trans ((hwoken.rest q ?_).trans hg), hgs, hgc, hgw⟩
          exact hwoken.ne_of_chan (s := u) hg (by rw [hgw]; exact hid)
      · by_cases hid : id' = id
        · subst hid
          obtain ⟨q, g, hw, hg, hgc⟩ := hfound (hreceiver hparked)
          have hqp : q ≠ p := by
            rintro rfl
            exact hwp hw
          obtain ⟨g', hg', -, -, hq⟩ := hwoken.one q hw
          cases hg.symm.trans hg'
          exact ⟨q, { g with state := .ready }, (hother q hqp).trans hq, hgc, .inl rfl⟩
        · rw [hchan, if_neg hid] at hv
          obtain ⟨q, g, hg, hgc, hgs⟩ := h.answered id' hv (hreceiver hparked)
          have hqp : q ≠ p := by
            rintro rfl
            cases hf.symm.trans hg
            cases hc.trans hgc
          refine ⟨q, g, (hother q hqp).trans ((hwoken.rest q ?_).trans hg), hgc, hgs⟩
          refine hwoken.ne_of_state (s := u) hg fun he => ?_
          rw [he] at hgs
          exact hgs.elim (by simp) (by simp)

section
variable {id : Int} {i : Nat} {x : FiberChan}

theorem rendezvous_take {w : Option Ptr} (h : Rendezvous acts s slot) (hsound : Sound s)
    (hi : s.chanById id = some i) (hget : s.chanOf id = some x) (hv : x.hasValue = true)
    (hrecv : ∀ p f, s.running = some p → s.heap p = some f → ∀ id', id' ≠ id → f.call ≠ some (.recv id'))
    (hwoken : Woken id (s.setChan i fun c => { c with hasValue := false }) t w) (hchans : s'.chans = t.chans)
    (hcaller : ∀ p f, s.running = some p → s.heap p = some f → s'.heap p = some { f with call := none })
    (hother : ∀ q, s.running ≠ some q → s'.heap q = t.heap q) :
    ∃ slot', Rendezvous (acts ++ [.took id x.buf]) s' slot' := by
  have hheld : (s.chanOf id).bind held = some x.buf := by
    rw [hget]
    exact if_pos hv
  obtain ⟨a, ha⟩ : ∃ a, slot id = some (a, x.buf) := by
    have hslot := h.held id
    rw [hheld] at hslot
    obtain ⟨⟨a, v⟩, ha, rfl⟩ := Option.map_eq_some_iff.mp hslot
    exact ⟨a, ha⟩
  have hrunning : ∀ q g, s.heap q = some g → g.state ≠ .running → s.running ≠ some q := by
    intro q g hg hne hq
    obtain ⟨g', hg', hs, -⟩ := hsound.caller hq
    cases hg.symm.trans hg'
    exact hne hs
  have hkeep : ∀ q g, s.heap q = some g → w ≠ some q → s.running ≠ some q → s'.heap q = some g := by
    intro q g hg hw hq
    rw [hother q hq, hwoken.rest q hw]
    exact hg
  have hchan : ∀ id', (s'.chanOf id').bind held = if id' = id then none else (s.chanOf id').bind held := by
    intro id'
    rw [chanOf_congr (hchans.trans hwoken.chans), chanOf_setChan hi]
    split
    · rw [hget]
      rfl
    · rfl
  refine ⟨Function.update slot id none, h.slots.took ha fun id' v' => h.one ha, fun id' => ?_,
    fun id' b v' hslot => ?_, fun id' hv' hparked => ?_⟩
  · rw [hchan]
    by_cases hid : id' = id
    · subst hid
      rw [Function.update_self, if_pos rfl]
      rfl
    · rw [Function.update_of_ne hid, if_neg hid]
      exact h.held id'
  · have hid : id' ≠ id := by
      rintro rfl
      rw [Function.update_self] at hslot
      cases hslot
    rw [Function.update_of_ne hid] at hslot
    obtain ⟨q, hb, g, hg, hgs, hgc, hgw⟩ := h.parked id' b v' hslot
    exact ⟨q, hb, g, hkeep q g hg (hwoken.ne_of_chan hg (by rw [hgw]; exact hid))
      (hrunning q g hg (by rw [hgs]; nofun)), hgs, hgc, hgw⟩
  · have hid : id' ≠ id := by
      rintro rfl
      rw [hchan, if_pos rfl] at hv'
      cases hv'
    rw [hchan, if_neg hid] at hv'
    have hbefore : ParkedReceiver id' s := by
      obtain ⟨q, g, hg, hgs, hgc⟩ := hparked
      have hq : s.running ≠ some q := by
        intro hq
        obtain ⟨f, hf, -, -⟩ := hsound.caller hq
        cases (hcaller q f hq hf).symm.trans hg
        cases hgc
      exact ⟨q, g, (hwoken.parked ((hother q hq).symm.trans hg) hgs).1, hgs, hgc⟩
    obtain ⟨q, g, hg, hgc, hgs⟩ := h.answered id' hv' hbefore
    have hnot : g.state ≠ .waitingChan := by
      intro he
      rw [he] at hgs
      exact hgs.elim nofun nofun
    exact ⟨q, g, hkeep q g hg (hwoken.ne_of_state hg hnot) fun hq => hrecv q g hq hg id' hid hgc, hgc, hgs⟩

theorem rendezvous_wait (h : Rendezvous acts s slot) (hsound : Sound s) (hp : s.running = some p)
    (hheld : (s.chanOf id).bind held = none) (hf : s.heap p = some f)
    (hrecv : ∀ id', id' ≠ id → f.call ≠ some (.recv id')) (hchans : s'.chans = s.chans)
    (hself : s'.heap p = some { f with state := .waitingChan, waitOn := id, call := some (.recv id) })
    (hother : ∀ q, q ≠ p → s'.heap q = s.heap q) : Rendezvous acts s' slot := by
  have hchan : ∀ id', s'.chanOf id' = s.chanOf id' := chanOf_congr hchans
  refine ⟨h.slots, fun id' => (h.held id').trans (by rw [hchan]), fun id' b v hslot => ?_,
    fun id' hv' hparked => ?_⟩
  · obtain ⟨q, hb, g, hg, hgs, hgc, hgw⟩ := h.parked id' b v hslot
    refine ⟨q, hb, g, (hother q ?_).trans hg, hgs, hgc, hgw⟩
    rintro rfl
    obtain ⟨g', hg', hs, -⟩ := hsound.caller hp
    cases hg'.symm.trans hg
    rw [hs] at hgs
    cases hgs
  · have hid : id' ≠ id := by
      rintro rfl
      rw [hchan, hheld] at hv'
      cases hv'
    rw [hchan] at hv'
    have hbefore : ParkedReceiver id' s := by
      obtain ⟨q, g, hg, hgs, hgc⟩ := hparked
      have hq : q ≠ p := by
        rintro rfl
        cases hself.symm.trans hg
        exact hid (Call.recv.inj (Option.some.inj hgc)).symm
      exact ⟨q, g, (hother q hq).symm.trans hg, hgs, hgc⟩
    obtain ⟨q, g, hg, hgc, hgs⟩ := h.answered id' hv' hbefore
    refine ⟨q, g, (hother q ?_).trans hg, hgc, hgs⟩
    rintro rfl
    cases hf.symm.trans hg
    exact hrecv id' hid hgc

/-- What is left of a `recv`, or its first look at the channel. -/
theorem rendezvous_recv {now : Int} (h : Rendezvous acts s slot) (hsound : Sound s)
    (hcall : s.currentCall = none ∨ s.currentCall = some (.recv id)) :
    ∃ slot', Rendezvous (acts ++ takeActs id s (s.chanRecv id now).1) (s.chanRecv id now).2 slot' := by
  rw [chanRecv]
  cases hi : s.chanById id with
  | none =>
    have hnone : s.chanOf id = none := by rw [chanOf, hi]; rfl
    have hacts : takeActs id s (.value (-1)) = [] := if_pos (.inl hnone)
    simp only
    rw [hacts, List.append_nil]
    exact ⟨slot, h⟩
  | some i =>
    obtain ⟨x, hx⟩ : ∃ x, s.chans[i]? = some x := ⟨_, List.getElem?_eq_getElem (chanById_some hi).1⟩
    have hget : s.chanOf id = some x := by rw [chanOf, hi]; exact hx
    have hrecv : ∀ p f, s.running = some p → s.heap p = some f → ∀ id', id' ≠ id → f.call ≠ some (.recv id') := by
      intro p f hp hf id' hne hc
      have hcur : s.currentCall = f.call := by rw [currentCall, hp, Option.bind_some, hf]; rfl
      rcases hcall with hcall | hcall
      · cases (hcur.symm.trans hcall).symm.trans hc
      · cases (hcur.symm.trans hcall).symm.trans hc
        exact hne rfl
    simp only [recvLoop, hx]
    by_cases hv : x.hasValue = true
    · rw [if_pos hv]
      obtain ⟨w, hwoken⟩ := wakeSendOf_woken (s.setChan i fun c => { c with hasValue := false }) id
      have hrun : (wakeSendOf id (s.setChan i fun c => { c with hasValue := false })).running = s.running :=
        (sound_wakeSendOf (sound_setChan hsound)).2
      generalize wakeSendOf id (s.setChan i fun c => { c with hasValue := false }) = t at hwoken hrun ⊢
      have hacts : takeActs id s (.value x.buf) = [.took id x.buf] := by
        refine if_neg ?_
        rw [hget]
        intro he
        rcases he with he | ⟨-, -, he⟩
        · cases he
        · rw [Option.bind_some, held, if_pos hv] at he
          cases he
      rw [hacts, hrun]
      cases hp : s.running with
      | none =>
        refine rendezvous_take h hsound hi hget hv hrecv hwoken rfl (fun p f hq => ?_) fun _ _ => rfl
        rw [hp] at hq
        cases hq
      | some p =>
        obtain ⟨f, hf, hs, -⟩ := hsound.caller hp
        have hft : t.heap p = some f := by
          rw [hwoken.rest p (hwoken.ne_of_state hf (by rw [hs]; simp))]
          exact hf
        refine rendezvous_take h hsound hi hget hv hrecv hwoken rfl (fun q g hq hg => ?_) fun q hq => ?_
        · cases hp.symm.trans hq
          cases hf.symm.trans hg
          exact setFiber_self hft
        · refine setFiber_other fun he => hq ?_
          rw [he, hp]
    · rw [if_neg hv]
      have hheld : (s.chanOf id).bind held = none := by
        rw [hget]
        exact if_neg hv
      cases hp : s.running with
      | some p =>
        obtain ⟨f, hf, -, -⟩ := hsound.caller hp
        obtain ⟨c, n, hadd⟩ := chanRecvAdd_spec s p
        simp only [hadd]
        show ∃ slot', Rendezvous (acts ++ []) _ slot'
        rw [List.append_nil]
        exact ⟨slot, rendezvous_wait h hsound hp hheld hf (hrecv p f hp hf) rfl (setFiber_self hf)
          fun q hq => setFiber_other hq⟩
      | none =>
        cases hnext : s.nextFiber now with
        | some d =>
          show ∃ slot', Rendezvous (acts ++ []) _ slot'
          rw [List.append_nil]
          exact ⟨slot, h.aside (sound_start hsound hp hnext).2.aside⟩
        | none =>
          simp only
          split
          · have hacts : takeActs id s (.value (-1)) = [] := if_pos (.inr ⟨hp, rfl, hheld⟩)
            rw [hacts, List.append_nil]
            exact ⟨slot, h⟩
          · show ∃ slot', Rendezvous (acts ++ []) s slot'
            rw [List.append_nil]
            exact ⟨slot, h⟩

end

/-! ## Runs -/

theorem aside_pass {lastNow : Int} {now : Ptr → Int} {readable : Option (Int → Bool)}
    (h : Rendezvous acts s slot) (hsound : Sound s) (hnone : s.running = none) :
    Rendezvous acts (s.pass lastNow now readable).2 slot := by
  obtain ⟨hpromoted, hplain⟩ := @sound_promote s lastNow hsound
  have hnone' : (s.promote lastNow).running = none := promote_running.trans hnone
  have h' : Rendezvous acts (s.promote lastNow) slot := h.aside hplain.aside
  rcases @pass_cases lastNow now readable s with
    he | he | ⟨p, t, hnext, he⟩ | ⟨-, he | he⟩ <;> rw [he]
  · exact h
  · exact h'
  · exact h'.aside (sound_start hpromoted hnone' hnext).2.aside
  · exact h'.aside (sound_ioWaitPollAndWake hpromoted).2.aside
  · exact h'.aside (aside_mutexWaitPollAndWake hpromoted)

/-- **A step that delivers**: a send is alone on its channel, and a reset comes from the main thread and
finds nobody at a mutex. -/
def Orderly (e : Event) (c : ChanLog × Runtime) : Prop :=
  match e with
  | .send id _ => (c.2.chanOf id).isSome → SendsAlone id c.2
  | .reset => c.2.running = none ∧ ∀ m ∈ c.2.mutexes, m.waiters = []
  | _ => True

theorem rendezvous_reset : Rendezvous [] s.reset.2 fun _ => none := by
  have hchan : ∀ id, (s.reset.2.chanOf id).bind held = none := by
    intro id
    rw [chanOf, chanById]
    split
    · rfl
    · rfl
  exact ⟨.start, fun id => (hchan id).symm, by simp, fun id hv => by rw [hchan] at hv; cases hv⟩

/-- What a run keeps. -/
structure Delivering (c : ChanLog × Runtime) : Prop where
  sound : Sound c.2
  slots : ∃ slot, Rendezvous c.1 c.2 slot

theorem delivering_init : Delivering ([], {}) := ⟨sound_init, _, rendezvous_reset (s := {})⟩

/-- What the rest of a call takes. -/
def restActs (s : Runtime) (r : Reply) : Call → ChanLog
  | .recv id => takeActs id s r
  | _ => []

theorem chanActs_resume {now : Int} {got : Option Reply} {call : Call} {r : Reply}
    (hcall : s.currentCall = some call) : chanActs (.resume now got) s r = restActs s r call := by
  show (recvOf (.resume now got) s).elim [] _ = _
  rw [recvOf.eq_def, hcall]
  cases call <;> rfl

/-- **One step** keeps the slots. -/
theorem rendezvous_step {e : Event} {r : Reply} (h : Rendezvous acts s slot) (hsound : Sound s)
    (hstep : s.step e = some (r, s')) (horderly : Orderly e (acts, s)) (hreset : e ≠ .reset) :
    ∃ slot', Rendezvous (acts ++ chanActs e s r) s' slot' := by
  have hout : ∀ {out : Reply × Runtime}, some out = some (r, s') →
      (∃ slot', Rendezvous (acts ++ chanActs e s out.1) out.2 slot') →
      ∃ slot', Rendezvous (acts ++ chanActs e s r) s' slot' := by
    intro out he hslot
    rwa [Option.some.inj he] at hslot
  have haside : ∀ {out : Reply × Runtime}, some out = some (r, s') → Aside s out.2 →
      (∀ reply, chanActs e s reply = []) → ∃ slot', Rendezvous (acts ++ chanActs e s r) s' slot' := by
    intro out he ha hacts
    rw [Option.some.inj he] at ha
    rw [hacts, List.append_nil]
    exact ⟨slot, h.aside ha⟩
  rw [step.eq_def] at hstep
  split at hstep
  case h_1 now got p call hp hcall =>
    cases call with
    | join target handle =>
      refine haside hstep (sound_joinLoop hsound hp (by rw [hcall]; rfl)).2.aside fun _ => ?_
      rw [chanActs_resume hcall]
      rfl
    | recv chan =>
      refine hout hstep ?_
      rw [chanActs_resume hcall]
      exact rendezvous_recv h hsound (.inr hcall)
    | lock =>
      refine haside hstep (aside_lockResumed hsound hp hcall) fun _ => ?_
      rw [chanActs_resume hcall]
      rfl
    | netRecv sock timeout =>
      refine haside hstep (sound_netRecv hsound (by rw [hcall]; rfl)).2.aside fun _ => ?_
      rw [chanActs_resume hcall]
      rfl
  case h_2 p hp hcall => exact haside hstep (sound_finish hsound hp (by rw [hcall]; rfl)).2.aside fun _ => rfl
  case h_3 hp =>
    refine hout hstep ⟨slot, ?_⟩
    show Rendezvous (acts ++ []) _ _
    rw [List.append_nil]
    exact aside_pass h hsound hp
  case h_4 addr _ _ =>
    split at hstep
    case isTrue => cases hstep
    case isFalse hfree =>
      refine haside hstep (aside_spawn fun p hp => ?_) fun _ => rfl
      rw [hp, Option.any_some, Option.not_isSome_iff_eq_none] at hfree
      exact hfree
  case h_5 => exact haside hstep (sound_yield hsound).2.aside fun _ => rfl
  case h_6 hcall => exact haside hstep (sound_sleepMs hsound (by rw [hcall]; rfl)).2.aside fun _ => rfl
  case h_7 hcall => exact haside hstep (sound_join hsound (by rw [hcall]; rfl)).2.aside fun _ => rfl
  case h_8 => exact haside hstep aside_chanCreate fun _ => rfl
  case h_9 hcall => exact hout hstep (rendezvous_send h hsound hcall horderly)
  case h_10 hcall => exact hout hstep (rendezvous_recv h hsound (.inl hcall))
  case h_11 =>
    refine haside hstep ?_ fun _ => rfl
    rw [mutexNew]
    split
    · exact .refl s
    · exact .congr rfl rfl
  case h_12 hcall => exact haside hstep (aside_mutexLock hsound hcall) fun _ => rfl
  case h_13 => exact haside hstep (aside_mutexUnlock hsound) fun _ => rfl
  case h_14 hcall => exact haside hstep (sound_netRecv hsound (by rw [hcall]; rfl)).2.aside fun _ => rfl
  case h_15 => exact absurd rfl hreset
  case h_16 => cases hstep

theorem step_reset {r : Reply} (h : s.step .reset = some (r, s')) : s' = s.reset.2 := by
  cases hcall : s.currentCall with
  | none =>
    rw [step.eq_def, hcall] at h
    exact (Prod.mk.inj (Option.some.inj h)).2.symm
  | some call =>
    rw [step.eq_def, hcall] at h
    cases h

theorem delivering_step {e : Event} {c c' : ChanLog × Runtime} (h : Delivering c) (horderly : Orderly e c)
    (hstep : chanLogged e c = some c') : Delivering c' := by
  obtain ⟨acts, s⟩ := c
  obtain ⟨⟨r, s'⟩, hrun, rfl⟩ := Option.map_eq_some_iff.mp hstep
  obtain ⟨slot, hslot⟩ := h.slots
  refine ⟨sound_step h.sound hrun fun he => ?_, ?_⟩
  · subst he
    exact horderly.2
  · by_cases he : e = .reset
    · subst he
      have hreset : s' = s.reset.2 := step_reset hrun
      rw [hreset]
      exact ⟨_, rendezvous_reset⟩
    · obtain ⟨slot', hslot'⟩ := rendezvous_step hslot h.sound hrun horderly he
      refine ⟨slot', ?_⟩
      cases e <;> first | exact hslot' | exact absurd rfl he

end

/-- A fiber sends a value on a channel from which another receives. -/
def handshakeRun : List Event :=
  [.chanCreate, .spawn (some 0), .spawn (some 1), .tick, .recv 1 0, .tick, .send 1 7, .tick, .resume 0 none]

end Runtime

end Datara.Natvar
