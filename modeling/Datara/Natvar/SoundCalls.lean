import Datara.Natvar.FibersSound

/-!
# What the calls do to the lists

One lemma for each call: it keeps what every run keeps (`Sound`), and where it is no call on a channel or
a mutex, it leaves those alone (`Plain`).
-/

namespace Datara.Natvar

open Library
open scoped List

namespace Runtime

section
variable {s s' t : Runtime} {p q : Ptr} {f f' : Fiber} {k j : Place}

/-! ## Calls -/

/-- A fiber is added to an array, or finds it full. -/
theorem timerAdd_spec (s : Runtime) (p : Ptr) : ∃ l, (l = s.sleeping ∨ l = s.sleeping ++ [p]) ∧
    ∀ g, timerAdd p (s.setFiber p g) = { s.setFiber p g with sleeping := l } := by
  by_cases hroom : s.sleeping.length < timerMax
  · exact ⟨_, .inr rfl, fun _ => if_pos hroom⟩
  · exact ⟨_, .inl rfl, fun _ => if_neg hroom⟩

theorem ioWaitAdd_spec (s : Runtime) (p : Ptr) : ∃ l, (l = s.ioWaiters ∨ l = s.ioWaiters ++ [p]) ∧
    ∀ g, ioWaitAdd p (s.setFiber p g) = { s.setFiber p g with ioWaiters := l } := by
  by_cases hroom : s.ioWaiters.length < ioMax
  · exact ⟨_, .inr rfl, fun _ => if_pos hroom⟩
  · exact ⟨_, .inl rfl, fun _ => if_neg hroom⟩

theorem waitingJoinAdd_spec (s : Runtime) (p : Ptr) :
    ∃ l, ∀ g, waitingJoinAdd p (s.setFiber p g) = { s.setFiber p g with waitingJoin := l } := by
  by_cases hroom : s.waitingJoin.length < timerMax
  · exact ⟨s.waitingJoin ++ [p], fun _ => if_pos hroom⟩
  · exact ⟨s.waitingJoin, fun _ => if_neg hroom⟩

section
variable (h : Sound s)
include h

theorem sound_yield : Sound s.yield.2 ∧ Plain s s.yield.2 := by
  rw [yield]
  cases hp : s.running with
  | none => exact ⟨h, .refl s⟩
  | some p =>
    obtain ⟨f, hf, hs⟩ := (h.running p).mp hp
    constructor
    · refine h.park hp (setFiber_self hf) (fun q hq => setFiber_other hq) rfl (by simp) (fun k => ?_)
        fun _ => List.mem_append_right _ List.mem_cons_self
      cases k <;> first | exact .inl rfl | exact .inr ⟨rfl, rfl⟩
    · exact .record hf (setFiber_self hf) (fun q hq => setFiber_other hq)
        ⟨rfl, ⟨by rw [hs]; rfl, rfl⟩, .inl ⟨rfl, rfl, rfl⟩, .inr (.inl rfl)⟩ rfl rfl rfl rfl rfl

theorem sound_sleepMs {now ms : Int} (hcall : plainCall s.currentCall) :
    Sound (s.sleepMs now ms).2 ∧ Plain s (s.sleepMs now ms).2 := by
  rw [sleepMs]
  cases hp : s.running with
  | none => exact ⟨h, .refl s⟩
  | some p =>
    obtain ⟨f, hf, hs⟩ := (h.running p).mp hp
    obtain ⟨l, hl, hadd⟩ := timerAdd_spec s p
    simp only [hadd]
    constructor
    · refine h.park hp (setFiber_self hf) (fun q hq => setFiber_other hq) rfl (by simp) (fun k => ?_) (by simp)
      cases k with
      | sleeping => exact hl.imp id fun he => ⟨he, rfl⟩
      | _ => exact .inl rfl
    · refine .record hf (setFiber_self hf) (fun q hq => setFiber_other hq)
        ⟨rfl, ⟨by rw [hs]; rfl, rfl⟩, .inl ⟨rfl, rfl, rfl⟩, .inl ?_⟩ rfl rfl rfl rfl rfl
      rwa [currentCall, hp, Option.bind_some, hf] at hcall

theorem sound_joinLoop {target : Ptr} {handle : Int} (hp : s.running = some p)
    (hcall : plainCall s.currentCall) :
    Sound (s.joinLoop p target handle).2 ∧ Plain s (s.joinLoop p target handle).2 := by
  obtain ⟨f, hf, hs⟩ := (h.running p).mp hp
  have hplain : plainCall f.call := by
    rwa [currentCall, hp, Option.bind_some, hf] at hcall
  rw [joinLoop]
  split
  · constructor
    · refine h.touch hp (setFiber_self hf) (fun q hq => setFiber_other hq) hp hs fun k => ?_
      cases k <;> rfl
    · exact .record hf (setFiber_self hf) (fun q hq => setFiber_other hq)
        ⟨rfl, ⟨by rw [hs]; rfl, by show plainState f.state; rw [hs]; rfl⟩, .inr ⟨hplain, rfl⟩, .inl rfl⟩ rfl rfl rfl rfl rfl
  · obtain ⟨l, hadd⟩ := waitingJoinAdd_spec s p
    simp only [hadd]
    constructor
    · refine h.park hp (setFiber_self hf) (fun q hq => setFiber_other hq) rfl (by simp) (fun k => ?_) (by simp)
      cases k <;> exact .inl rfl
    · exact .record hf (setFiber_self hf) (fun q hq => setFiber_other hq)
        ⟨rfl, ⟨by rw [hs]; rfl, rfl⟩, .inr ⟨hplain, rfl⟩, .inl rfl⟩ rfl rfl rfl rfl rfl

theorem sound_join {handle : Int} (hcall : plainCall s.currentCall) :
    Sound (s.join handle).2 ∧ Plain s (s.join handle).2 := by
  rw [join]
  cases hp : s.running with
  | none =>
    simp only
    split <;> exact ⟨h, .refl s⟩
  | some p =>
    cases s.fiberByHandle handle with
    | none => exact ⟨h, .refl s⟩
    | some target => exact sound_joinLoop h hp hcall

theorem sound_netRecv {sock now timeout : Int} {got : Option Reply}
    (hcall : plainCall s.currentCall) :
    Sound (s.netRecv sock now timeout got).2 ∧ Plain s (s.netRecv sock now timeout got).2 := by
  rw [netRecv.eq_def]
  split
  case isTrue => exact ⟨h, .refl s⟩
  case isFalse =>
    cases hp : s.running with
    | none => cases got <;> exact ⟨h, .refl s⟩
    | some p =>
      obtain ⟨f, hf, hs⟩ := (h.running p).mp hp
      have hplain : plainCall f.call := by
        rwa [currentCall, hp, Option.bind_some, hf] at hcall
      cases got with
      | some r =>
        constructor
        · refine h.touch hp (setFiber_self hf) (fun q hq => setFiber_other hq) hp hs fun k => ?_
          cases k <;> rfl
        · exact .record hf (setFiber_self hf) (fun q hq => setFiber_other hq)
            ⟨rfl, ⟨by rw [hs]; rfl, by show plainState f.state; rw [hs]; rfl⟩, .inr ⟨hplain, rfl⟩, .inl rfl⟩
            rfl rfl rfl rfl rfl
      | none =>
        obtain ⟨l, hl, hadd⟩ := ioWaitAdd_spec s p
        simp only [hadd]
        constructor
        · refine h.park hp (setFiber_self hf) (fun q hq => setFiber_other hq) rfl (by simp) (fun k => ?_) (by simp)
          cases k with
          | io => exact hl.imp id fun he => ⟨he, rfl⟩
          | _ => exact .inl rfl
        · exact .record hf (setFiber_self hf) (fun q hq => setFiber_other hq)
            ⟨rfl, ⟨by rw [hs]; rfl, rfl⟩, .inr ⟨hplain, rfl⟩, .inl rfl⟩ rfl rfl rfl rfl rfl

/-- The record of the fiber that makes a call. -/
theorem Sound.caller (hp : s.running = some p) :
    ∃ f, s.heap p = some f ∧ f.state = .running ∧ s.currentCall = f.call := by
  obtain ⟨f, hf, hs⟩ := (h.running p).mp hp
  refine ⟨f, hf, hs, ?_⟩
  rw [currentCall, hp, Option.bind_some, hf]
  rfl

end

/-! ## The scheduler's choice -/

theorem sound_start {now : Int} (h : Sound s) (hnone : s.running = none)
    (hnext : s.nextFiber now = some (p, t)) : Sound (fiberSwitchTo p t) ∧ Plain s (fiberSwitchTo p t) := by
  have plain : ∀ {k : Place}, p ∈ s.kept k → k = .ready ∨ k = .sleeping → t.heap = s.heap →
      t.mutexes = s.mutexes → t.chans = s.chans → t.waitingChanRecv = s.waitingChanRecv →
      t.waitingChanSend = s.waitingChanSend → t.waitingChanCount = s.waitingChanCount →
      Plain s (fiberSwitchTo p t) := by
    intro k hk hplace hheap hmutexes hchans hrecvs hsends hcount
    obtain ⟨f, hf, hp⟩ := h.mem_kept hk
    have hstate : plainState f.state := by
      rw [placeOf] at hp
      cases hs : f.state <;> rw [hs] at hp <;> first | rfl | (rcases hplace with rfl | rfl <;> cases hp)
    have hself : (fiberSwitchTo p t).heap p = some { f with state := .running } :=
      setFiber_self (s := t) (hheap ▸ hf)
    refine .record hf hself (fun q hq => ?_) ⟨rfl, ⟨hstate, rfl⟩, .inl ⟨rfl, rfl, rfl⟩, .inr (.inr rfl)⟩ hmutexes
      hchans hrecvs hsends hcount
    rw [← hheap]
    exact setFiber_other hq
  rcases nextFiber_some hnext with ⟨l, hl, rfl⟩ | ⟨l, hl, rfl⟩
  · refine ⟨h.start (k := .ready) hnone (hl ▸ .refl _) (fun j hj => ?_) rfl,
      plain (k := .ready) (List.mem_of_mem_head? (by rw [show s.kept .ready = s.ready from rfl, hl]; rfl)) (.inl rfl) rfl rfl rfl rfl rfl rfl⟩
    cases j <;> first | rfl | exact absurd rfl hj
  · refine ⟨h.start (k := .sleeping) hnone hl (fun j hj => ?_) rfl,
      plain (k := .sleeping) (hl.mem_iff.mpr List.mem_cons_self) (.inr rfl) rfl rfl rfl rfl rfl rfl⟩
    cases j <;> first | rfl | exact absurd rfl hj

theorem sound_promote {now : Int} (h : Sound s) : Sound (s.promote now) ∧ Plain s (s.promote now) := by
  rw [promote]
  cases hdue : s.timerPopDue now with
  | none => exact ⟨h, .refl s⟩
  | some d =>
    obtain ⟨p, t⟩ := d
    obtain ⟨l, hl, rfl⟩ := timerPopDue_some hdue
    obtain ⟨f, hf, hplace⟩ := h.mem_kept (k := .sleeping) (hl.mem_iff.mpr List.mem_cons_self)
    have hs : f.state = .sleeping := by
      rw [placeOf] at hplace
      cases hs : f.state <;> rw [hs] at hplace <;> first | rfl | cases hplace
    have hless : Sound { s with sleeping := l } := by
      refine h.lose rfl rfl rfl fun k => ?_
      cases k <;> first | exact .refl _ | exact ((List.sublist_cons_self p l).subperm).trans hl.symm.subperm
    constructor
    · refine hless.wake hf (by rw [hs]; simp) fun k hin => ?_
      have hwhere := hless.place k p hin
      rw [whereIs_eq (s := { s with sleeping := l }) hf, hplace] at hwhere
      cases hwhere
      exact (List.nodup_cons.mp (hl.nodup_iff.mp (h.nodup .sleeping))).1 hin
    · refine .record hf (setFiber_self hf) (fun q hq => setFiber_other hq)
        ⟨rfl, ⟨?_, rfl⟩, .inl ⟨rfl, rfl, rfl⟩, .inr (.inl rfl)⟩ rfl rfl rfl rfl rfl
      rw [hs]
      rfl

/-! ## Polls -/

/-- What waking some fibers does to each. -/
theorem wakeAll_heap {g : Fiber → Fiber} (ps : List Ptr) (hnodup : ps.Nodup) (s : Runtime) :
    wakeAll g ps s = { s with
      heap := fun p => if p ∈ ps then (s.heap p).map fun f => { g f with state := .ready } else s.heap p
      ready := s.ready ++ ps } := by
  induction ps generalizing s with
  | nil => simp [wakeAll]
  | cons p ps ih =>
    obtain ⟨hp, hnodup⟩ := List.nodup_cons.mp hnodup
    show wakeAll g ps (s.wake g p) = _
    rw [ih hnodup]
    congr 1
    · ext1 q
      by_cases hq : q = p
      · subst hq
        rw [if_neg hp, if_pos List.mem_cons_self]
        exact Function.update_self _ _ _
      · have hmem : q ∈ p :: ps ↔ q ∈ ps := by simp [hq]
        have hheap : (s.wake g p).heap q = s.heap q := Function.update_of_ne hq _ _
        simp [hmem, hheap]
    · show s.ready ++ [p] ++ ps = _
      rw [List.append_assoc]
      rfl

variable {now : Ptr → Int}

theorem sound_ioWaitPollAndWake {readable : Option (Int → Bool)} (h : Sound s) :
    Sound (s.ioWaitPollAndWake now readable) ∧ Plain s (s.ioWaitPollAndWake now readable) := by
  rw [ioWaitPollAndWake.eq_def]
  cases readable with
  | none => exact ⟨h, .refl s⟩
  | some r =>
    set woken : Ptr → Bool := fun p => (s.heap p).any fun f => r f.waitFd || expired (now p) f
    have hstate : ∀ p ∈ s.ioWaiters, ∃ f, s.heap p = some f ∧ f.state = .waitingIo := by
      intro p hp
      obtain ⟨f, hf, hplace⟩ := h.mem_kept (k := .io) hp
      refine ⟨f, hf, ?_⟩
      rw [placeOf] at hplace
      cases hs : f.state <;> rw [hs] at hplace <;> first | rfl | cases hplace
    have hnodup : (s.ioWaiters.filter woken).Nodup := (h.nodup .io).filter _
    simp only
    constructor
    · have hless : Sound { s with ioWaiters := s.ioWaiters.filter fun p => !woken p } := by
        refine h.lose rfl rfl rfl fun k => ?_
        cases k <;> first | exact .refl _ | exact List.filter_sublist.subperm
      refine hless.wakeAll _ hnodup fun p hp => ⟨?_, fun k hin => ?_⟩
      · obtain ⟨f, hf, hs⟩ := hstate p (List.mem_filter.mp hp).1
        exact ⟨f, hf, by rw [hs]; simp⟩
      · obtain ⟨f, hf, hs⟩ := hstate p (List.mem_filter.mp hp).1
        have hwhere := hless.place k p hin
        rw [whereIs, show Runtime.heap _ p = some f from hf, Option.bind_some, placeOf, hs] at hwhere
        cases hwhere
        have hnot := (List.mem_filter.mp hin).2
        have hwoken : woken p = true := (List.mem_filter.mp hp).2
        rw [hwoken] at hnot
        cases hnot
    · rw [wakeAll_heap _ hnodup]
      refine ⟨rfl, rfl, rfl, rfl, rfl, fun p => ?_⟩
      by_cases hp : p ∈ s.ioWaiters.filter woken
      · obtain ⟨f, hf, hs⟩ := hstate p (List.mem_filter.mp hp).1
        refine .inr ⟨f, { f with state := .ready }, hf, ?_, rfl, ⟨by rw [hs]; rfl, rfl⟩, .inl ⟨rfl, rfl, rfl⟩,
          .inr (.inl rfl)⟩
        show (if p ∈ s.ioWaiters.filter woken then _ else _) = _
        rw [if_pos hp, hf]
        rfl
      · exact .inl (if_neg hp)

/-! ## Ends and spawns -/

theorem sound_finish (h : Sound s) (hp : s.running = some p) (hcall : plainCall s.currentCall) :
    Sound (s.finish p) ∧ Plain s (s.finish p) := by
  obtain ⟨f, hf, hs⟩ := (h.running p).mp hp
  constructor
  · refine h.park hp (setFiber_self hf) (fun q hq => setFiber_other hq) rfl nofun (fun k => ?_) nofun
    cases k <;> exact .inl rfl
  · refine .record hf (setFiber_self hf) (fun q hq => setFiber_other hq)
      ⟨rfl, ⟨by rw [hs]; rfl, rfl⟩, .inl ⟨rfl, rfl, rfl⟩, .inl ?_⟩ rfl rfl rfl rfl rfl
    rwa [currentCall, hp, Option.bind_some, hf] at hcall

/-- A spawn leaves the other fibers, and its own is ready. -/
theorem spawn_spec {addr : Option Ptr} (s : Runtime) : (s.spawn addr).2 = s ∨
    ∃ p n, addr = some p ∧ (s.spawn addr).2 = { s with
      heap := Function.update s.heap p (some { handle := s.nextHandle, state := .ready })
      fibers := s.fibers ++ [p], nextHandle := n, ready := s.ready ++ [p] } := by
  rw [spawn.eq_def]
  split
  · exact .inl rfl
  · cases addr with
    | none => exact .inl rfl
    | some p => exact .inr ⟨p, _, rfl, rfl⟩

theorem sound_spawn {addr : Option Ptr} (h : Sound s) (hfree : ∀ p, addr = some p → s.heap p = none) :
    Sound (s.spawn addr).2 := by
  rcases @spawn_spec addr s with he | ⟨p, n, rfl, he⟩
  · rwa [he]
  · rw [he]
    have hnone := hfree p rfl
    have hout : ∀ k, p ∉ s.kept k := by
      intro k hin
      obtain ⟨f, hf, -⟩ := h.mem_kept hin
      rw [hnone] at hf
      cases hf
    refine h.readied (Function.update_self _ _ _) rfl (fun q hq => Function.update_of_ne hq _ _) rfl
      (fun k hk => ?_) rfl (fun hp => ?_) hout
    · cases k <;> first | rfl | exact absurd rfl hk
    · obtain ⟨f, hf, -⟩ := (h.running p).mp hp
      rw [hnone] at hf
      cases hf

/-- Nobody is left after a reset that finds nobody at a mutex. -/
theorem sound_reset (hmutexes : ∀ m ∈ s.mutexes, m.waiters = []) : Sound s.reset.2 := by
  have hnil : ∀ k, s.reset.2.kept k = [] := by
    intro k
    cases k with
    | mutex i =>
      show ((s.mutexes[i]?).map (·.waiters)).getD [] = []
      cases hi : s.mutexes[i]? with
      | none => rfl
      | some m => exact hmutexes m (List.mem_of_getElem? hi)
    | _ => rfl
  refine ⟨fun k => hnil k ▸ .nil, fun k p hp => ?_, fun p f hf => ?_, fun p => ?_⟩
  · rw [hnil] at hp
    cases hp
  · cases hf
  · show none = some p ↔ ∃ f, none = some f ∧ _
    simp

/-! ## Channels -/

theorem Sound.not_kept_chan (h : Sound s) (hf : s.heap p = some f) (hs : f.state = .waitingChan)
    (k : Place) : p ∉ s.kept k := by
  intro hin
  have hplace := h.place k p hin
  rw [whereIs_eq hf, placeOf, hs] at hplace
  cases hplace
  cases hin

/-- What waking a receiver does. -/
theorem wakeRecvOf_cases (s : Runtime) (chan : Int) :
    s.findWaiter chan s.waitingChanRecv = none ∧ s.wakeRecvOf chan = s ∨
      ∃ i p f, s.findWaiter chan s.waitingChanRecv = some i ∧ s.waitingChanRecv i = some p ∧
        s.heap p = some f ∧ f.state = .waitingChan ∧ f.waitOn = chan ∧
        s.wakeRecvOf chan = { s.wake id p with
          waitingChanRecv := Function.update s.waitingChanRecv i (s.waitingChanRecv (s.waitingChanCount - 1))
          waitingChanCount := s.waitingChanCount - 1 } := by
  rw [wakeRecvOf]
  cases hfind : s.findWaiter chan s.waitingChanRecv with
  | none => exact .inl ⟨rfl, rfl⟩
  | some i =>
    obtain ⟨-, p, f, hc, hf, hs, hw⟩ := findWaiter_some hfind
    refine .inr ⟨i, p, f, rfl, hc, hf, hs, hw, ?_⟩
    simp only [hc, Option.elim_some]
    rfl

theorem sound_wakeRecvOf {chan : Int} (h : Sound s) :
    Sound (s.wakeRecvOf chan) ∧ (s.wakeRecvOf chan).running = s.running := by
  rcases wakeRecvOf_cases s chan with ⟨-, he⟩ | ⟨i, p, f, -, -, hf, hs, -, he⟩
  · rw [he]
    exact ⟨h, rfl⟩
  · rw [he]
    refine ⟨(h.wake (g := id) hf (by rw [hs]; nofun) (h.not_kept_chan hf hs)).congr rfl rfl fun k => ?_, rfl⟩
    cases k <;> rfl

/-- What waking a sender does. -/
theorem wakeSendOf_cases (s : Runtime) (chan : Int) :
    s.findWaiter chan s.waitingChanSend = none ∧ s.wakeSendOf chan = s ∨
      ∃ i p f, s.findWaiter chan s.waitingChanSend = some i ∧ s.waitingChanSend i = some p ∧
        s.heap p = some f ∧ f.state = .waitingChan ∧ f.waitOn = chan ∧
        s.wakeSendOf chan = { s.wake id p with
          waitingChanSend := Function.update s.waitingChanSend i (s.waitingChanSend (s.waitingChanCount - 1))
          waitingChanCount := s.waitingChanCount - 1 } := by
  rw [wakeSendOf]
  cases hfind : s.findWaiter chan s.waitingChanSend with
  | none => exact .inl ⟨rfl, rfl⟩
  | some i =>
    obtain ⟨-, p, f, hc, hf, hs, hw⟩ := findWaiter_some hfind
    refine .inr ⟨i, p, f, rfl, hc, hf, hs, hw, ?_⟩
    simp only [hc, Option.elim_some]
    rfl

theorem sound_wakeSendOf {chan : Int} (h : Sound s) :
    Sound (s.wakeSendOf chan) ∧ (s.wakeSendOf chan).running = s.running := by
  rcases wakeSendOf_cases s chan with ⟨-, he⟩ | ⟨i, p, f, -, -, hf, hs, -, he⟩
  · rw [he]
    exact ⟨h, rfl⟩
  · rw [he]
    refine ⟨(h.wake (g := id) hf (by rw [hs]; nofun) (h.not_kept_chan hf hs)).congr rfl rfl fun k => ?_, rfl⟩
    cases k <;> rfl

variable {i : Nat}

theorem sound_setChan {g : FiberChan → FiberChan} (h : Sound s) : Sound (s.setChan i g) :=
  h.congr rfl rfl fun k => by cases k <;> rfl

theorem chanSendAdd_spec (s : Runtime) (p : Ptr) : ∃ c n, ∀ g, chanSendAdd p (s.setFiber p g) =
    { s.setFiber p g with waitingChanSend := c, waitingChanCount := n } := by
  by_cases hroom : s.waitingChanCount < timerMax
  · exact ⟨Function.update s.waitingChanSend s.waitingChanCount (some p), s.waitingChanCount + 1,
      fun _ => if_pos hroom⟩
  · exact ⟨s.waitingChanSend, s.waitingChanCount, fun _ => if_neg hroom⟩

theorem chanRecvAdd_spec (s : Runtime) (p : Ptr) : ∃ c n, ∀ g, chanRecvAdd p (s.setFiber p g) =
    { s.setFiber p g with waitingChanRecv := c, waitingChanCount := n } := by
  by_cases hroom : s.waitingChanCount < timerMax
  · exact ⟨Function.update s.waitingChanRecv s.waitingChanCount (some p), s.waitingChanCount + 1,
      fun _ => if_pos hroom⟩
  · exact ⟨s.waitingChanRecv, s.waitingChanCount, fun _ => if_neg hroom⟩

theorem sound_chanSend {chan value : Int} (h : Sound s) : Sound (s.chanSend chan value).2 := by
  rw [chanSend]
  cases s.chanById chan with
  | none => exact h
  | some i =>
    cases hp : s.running with
    | none => exact h
    | some p =>
      set t := wakeRecvOf chan (s.setChan i fun _ => { buf := value, hasValue := true })
      obtain ⟨ht, hrun⟩ : Sound t ∧ t.running = s.running := sound_wakeRecvOf (sound_setChan h)
      have hp' : t.running = some p := hrun.trans hp
      show Sound (if _ then _ else _ : Reply × Runtime).2
      split
      · obtain ⟨f, hf, -⟩ := (ht.running p).mp hp'
        obtain ⟨c, n, hadd⟩ := chanSendAdd_spec t p
        rw [hadd]
        refine ht.park hp' (setFiber_self hf) (fun q hq => setFiber_other hq) rfl (by simp) (fun k => ?_) (by simp)
        cases k <;> exact .inl rfl
      · exact ht

theorem sound_recvLoop {chan now : Int} (h : Sound s) : Sound (s.recvLoop chan i now).2 := by
  rw [recvLoop]
  cases s.chans[i]? with
  | none => exact h
  | some c =>
    simp only
    split
    · set t := wakeSendOf chan (s.setChan i fun c => { c with hasValue := false })
      have ht : Sound t := (sound_wakeSendOf (sound_setChan h)).1
      cases hp : t.running with
      | none => exact ht
      | some p =>
        obtain ⟨f, hf, hs⟩ := (ht.running p).mp hp
        refine ht.touch hp (setFiber_self hf) (fun q hq => setFiber_other hq) hp hs fun k => ?_
        cases k <;> rfl
    · cases hp : s.running with
      | some p =>
        obtain ⟨f, hf, -⟩ := (h.running p).mp hp
        obtain ⟨c, n, hadd⟩ := chanRecvAdd_spec s p
        simp only [hadd]
        refine h.park hp (setFiber_self hf) (fun q hq => setFiber_other hq) rfl (by simp) (fun k => ?_) (by simp)
        cases k <;> exact .inl rfl
      | none =>
        cases hnext : s.nextFiber now with
        | none =>
          simp only
          split <;> exact h
        | some d => exact (sound_start h hp hnext).1

theorem sound_chanRecv {chan now : Int} (h : Sound s) : Sound (s.chanRecv chan now).2 := by
  rw [chanRecv]
  cases s.chanById chan with
  | none => exact h
  | some i => exact sound_recvLoop h

/-! ## Mutexes -/

theorem kept_setMutex {g : FiberMutex → FiberMutex} (hg : ∀ m, (g m).waiters = m.waiters)
    (k : Place) : (s.setMutex i g).kept k = s.kept k := by
  cases k with
  | mutex j =>
    show (s.setMutex i g).listOf (.mutex j) = _
    rw [listOf_setMutex]
    split
    · simp only [hg]
      rfl
    · rfl
  | _ => rfl

theorem mutexById_eq {id : Int} (h : s.mutexById id = some i) : id = i ∧ i < s.mutexes.length := by
  rw [mutexById] at h
  split at h
  case isTrue => cases h
  case isFalse hid =>
    cases h
    omega

/-- What `lock` does: it fails, succeeds, or parks its fiber. -/
theorem mutexLock_cases (s : Runtime) (id now timeout : Int) :
    (∃ msg, s.mutexLock id now timeout = (.outcome false "" msg, s)) ∨
    (∃ n : Nat, ∃ m, id = n ∧ s.mutexes[n]? = some m ∧ m.locked = false ∧ s.mutexLock id now timeout =
      (.outcome true "locked" "", s.setMutex n fun m =>
        { m with locked := true, owner := (s.running.bind s.heap).elim 0 (·.handle) })) ∨
    ∃ n : Nat, ∃ m p, id = n ∧ s.mutexes[n]? = some m ∧ m.locked = true ∧ s.running = some p ∧
      s.mutexLock id now timeout = (.parked, switchOut ((s.setFiber p fun f =>
        { f with state := .waitingMutex, waitOn := id, wakeResult := -1, call := some .lock
                 waitDeadline := if 0 < timeout then now + timeout else 0 }).setMutex n fun m =>
          { m with waiters := m.waiters ++ [p] })) := by
  rw [mutexLock]
  cases hn : s.mutexById id with
  | none => exact .inl ⟨_, rfl⟩
  | some n =>
    obtain ⟨rfl, hlt⟩ := mutexById_eq hn
    have hm : s.mutexes[n]? = some s.mutexes[n] := List.getElem?_eq_getElem hlt
    simp only [Option.bind_some, hm, Option.map_some]
    cases hlocked : s.mutexes[n].locked with
    | false => exact .inr (.inl ⟨n, _, rfl, hm, hlocked, rfl⟩)
    | true =>
      cases hp : s.running with
      | none => exact .inl ⟨_, rfl⟩
      | some p =>
        simp only [Bool.not_true, Bool.false_eq_true, if_false]
        split
        · exact .inl ⟨_, rfl⟩
        · exact .inr (.inr ⟨n, _, p, rfl, hm, hlocked, rfl, rfl⟩)

/-- What `unlock` does: nothing, it frees the mutex, or hands it over. -/
theorem mutexUnlock_cases (s : Runtime) (id : Int) :
    s.mutexById id = none ∧ s.mutexUnlock id = (.unit, s) ∨
    (∃ n : Nat, ∃ m, id = n ∧ s.mutexes[n]? = some m ∧ m.waiters = [] ∧
      s.mutexUnlock id = (.unit, s.setMutex n fun m => { m with locked := false, owner := 0 })) ∨
    ∃ n : Nat, ∃ m next rest, id = n ∧ s.mutexes[n]? = some m ∧ m.waiters = next :: rest ∧
      s.mutexUnlock id = (.unit, (s.setMutex n fun m =>
        { m with waiters := rest, owner := (s.heap next).elim 0 (·.handle) }).wake
          (fun f => { f with wakeResult := 1 }) next) := by
  rw [mutexUnlock]
  cases hn : s.mutexById id with
  | none => exact .inl ⟨rfl, rfl⟩
  | some n =>
    obtain ⟨rfl, hlt⟩ := mutexById_eq hn
    have hm : s.mutexes[n]? = some s.mutexes[n] := List.getElem?_eq_getElem hlt
    simp only [Option.bind_some, hm, Option.map_some]
    cases hw : s.mutexes[n].waiters with
    | nil => exact .inr (.inl ⟨n, _, rfl, hm, hw, rfl⟩)
    | cons next rest => exact .inr (.inr ⟨n, _, next, rest, rfl, hm, hw, rfl⟩)

theorem sound_mutexLock {id now timeout : Int} (h : Sound s) : Sound (s.mutexLock id now timeout).2 := by
  rw [mutexLock]
  split
  case h_1 => exact h
  case h_2 i m hm =>
    obtain ⟨hi, hget⟩ := mutexById_bind hm
    split
    case isTrue => exact h.congr rfl rfl (kept_setMutex fun _ => rfl)
    case isFalse =>
      cases hp : s.running with
      | none => exact h
      | some p =>
        simp only
        split
        case isTrue => exact h
        case isFalse =>
          obtain ⟨f, hf, -⟩ := (h.running p).mp hp
          refine h.park hp (setFiber_self hf) (fun q hq => setFiber_other hq) rfl (by simp) (fun k => ?_) (by simp)
          cases k with
          | mutex j =>
            by_cases hj : i = j
            · subst hj
              refine .inr ⟨?_, by rw [hi]; rfl⟩
              show (Runtime.setMutex i _ _).listOf (.mutex i) = s.listOf (.mutex i) ++ [p]
              rw [listOf_setMutex, if_pos rfl, listOf_mutex]
              show ((s.mutexes[i]?).map _).getD [] = _
              rw [hget]
              rfl
            · refine .inl ?_
              show (Runtime.setMutex i _ _).listOf (.mutex j) = s.listOf (.mutex j)
              rw [listOf_setMutex, if_neg hj]
              rfl
          | _ => exact .inl rfl

theorem sound_lockResumed (h : Sound s) (hp : s.running = some p) : Sound (s.lockResumed p).2 := by
  obtain ⟨f, hf, hs⟩ := (h.running p).mp hp
  refine h.touch hp (setFiber_self hf) (fun q hq => setFiber_other hq) hp hs fun k => ?_
  cases k <;> rfl

/-- The record of a waiter of a mutex. -/
theorem Sound.mem_mutex (h : Sound s) (hp : p ∈ s.listOf (.mutex i)) :
    ∃ f, s.heap p = some f ∧ f.state = .waitingMutex ∧ f.waitOn.toNat = i := by
  obtain ⟨f, hf, hplace⟩ := h.mem_kept (k := .mutex i) hp
  refine ⟨f, hf, ?_⟩
  rw [placeOf] at hplace
  cases hs : f.state with
  | waitingMutex =>
    rw [hs, Option.some.injEq, Place.mutex.injEq] at hplace
    exact ⟨rfl, hplace⟩
  | _ =>
    rw [hs] at hplace
    cases hplace

theorem sound_mutexUnlock {id : Int} (h : Sound s) : Sound (s.mutexUnlock id).2 := by
  rw [mutexUnlock]
  split
  case h_1 => exact h
  case h_2 i m hm =>
    obtain ⟨-, hget⟩ := mutexById_bind hm
    split
    case h_2 => exact h.congr rfl rfl (kept_setMutex fun _ => rfl)
    case h_1 next rest hwaiters =>
      have hlist : s.listOf (.mutex i) = next :: rest := by
        rw [listOf_mutex, hget]
        exact hwaiters
      obtain ⟨f, hf, hs, -⟩ := h.mem_mutex (i := i) (hlist ▸ List.mem_cons_self (a := next))
      set t := s.setMutex i fun m => { m with waiters := rest, owner := (s.heap next).elim 0 (·.handle) }
      have hrest : t.listOf (.mutex i) = rest := by
        rw [listOf_setMutex, if_pos rfl, hget]
        rfl
      have hless : Sound t := by
        refine h.lose rfl rfl rfl fun k => ?_
        cases k with
        | mutex j =>
          show t.listOf (.mutex j) <+~ s.listOf (.mutex j)
          by_cases hj : i = j
          · subst hj
            rw [hrest, hlist]
            exact (List.sublist_cons_self next rest).subperm
          · rw [listOf_setMutex, if_neg hj]
        | _ => exact .refl _
      refine hless.wake hf (by rw [hs]; simp) fun k hin => ?_
      have hplace := h.place (.mutex i) next (show next ∈ s.listOf (.mutex i) from hlist ▸ List.mem_cons_self)
      have hplace' : s.whereIs next = some k := hless.place k next hin
      cases hplace.symm.trans hplace'
      have hnodup : (next :: rest).Nodup := hlist ▸ h.nodup (.mutex i)
      exact (List.nodup_cons.mp hnodup).1 (hrest ▸ hin)

theorem sound_mutexWaitPollAndWake (h : Sound s) : Sound (s.mutexWaitPollAndWake now).2 := by
  rw [mutexWaitPollAndWake]
  set woken : Ptr → Bool := fun p => (s.heap p).any (expired (now p)) with hwoken
  set t : Runtime := { s with
    mutexes := s.mutexes.map fun m => { m with waiters := m.waiters.filter fun p => !woken p } }
  have hlist : ∀ i, t.listOf (.mutex i) = (s.listOf (.mutex i)).filter fun p => !woken p := by
    intro i
    rw [listOf_mutex, listOf_mutex]
    simp only [t, List.getElem?_map]
    cases s.mutexes[i]? <;> rfl
  have hless : Sound t := by
    refine h.lose rfl rfl rfl fun k => ?_
    cases k with
    | mutex i =>
      show t.listOf (.mutex i) <+~ s.listOf (.mutex i)
      rw [hlist]
      exact List.filter_sublist.subperm
    | _ => exact .refl _
  refine hless.wakeAll _ (nodup_mutexes (fun i => h.nodup (.mutex i)) (fun i => h.place (.mutex i)) woken)
    fun p hp => ?_
  obtain ⟨m, hm, hp⟩ := List.mem_flatMap.mp hp
  obtain ⟨i, hi, rfl⟩ := List.getElem_of_mem hm
  obtain ⟨hin, hw⟩ := List.mem_filter.mp hp
  have hmem : p ∈ s.listOf (.mutex i) := by
    rw [listOf_mutex, List.getElem?_eq_getElem hi]
    exact hin
  obtain ⟨f, hf, hs, -⟩ := h.mem_mutex hmem
  refine ⟨⟨f, hf, by rw [hs]; simp⟩, fun k hk => ?_⟩
  have hplace := h.place (.mutex i) p hmem
  have hplace' : s.whereIs p = some k := hless.place k p hk
  cases hplace.symm.trans hplace'
  have hnot : p ∈ t.listOf (.mutex i) := hk
  rw [hlist, List.mem_filter, hw] at hnot
  cases hnot.2

/-! ## Passes and steps -/

/-- What a pass does: nothing, a fiber is started, or a poll, after a sleeper that is due was made ready. -/
theorem pass_cases {lastNow : Int} {now : Ptr → Int} {readable : Option (Int → Bool)} (s : Runtime) :
    (s.pass lastNow now readable).2 = s ∨ (s.pass lastNow now readable).2 = s.promote lastNow ∨
      (∃ p t, (s.promote lastNow).nextFiber lastNow = some (p, t) ∧
        (s.pass lastNow now readable).2 = fiberSwitchTo p t) ∨
      (s.promote lastNow).nextFiber lastNow = none ∧
        ((s.pass lastNow now readable).2 = (s.promote lastNow).ioWaitPollAndWake now readable ∨
          (s.pass lastNow now readable).2 = ((s.promote lastNow).mutexWaitPollAndWake now).2) := by
  rw [pass.eq_def]
  split
  case isTrue => exact .inl rfl
  case isFalse =>
    cases hnext : (s.promote lastNow).nextFiber lastNow with
    | some d => exact .inr (.inr (.inl ⟨d.1, d.2, rfl, by simp only [hnext]⟩))
    | none =>
      simp only [hnext]
      split
      case isTrue => exact .inr (.inl rfl)
      case isFalse =>
        split
        case isTrue => exact .inr (.inr (.inr ⟨trivial, .inl rfl⟩))
        case isFalse =>
          split
          case isTrue => exact .inr (.inr (.inr ⟨trivial, .inr rfl⟩))
          case isFalse => split <;> exact .inr (.inl rfl)

theorem promote_running {now : Int} : (s.promote now).running = s.running := by
  rw [promote]
  cases hdue : s.timerPopDue now with
  | none => rfl
  | some d =>
    obtain ⟨l, -, he⟩ := timerPopDue_some hdue
    show d.2.running = _
    rw [he]

theorem sound_pass {lastNow : Int} {readable : Option (Int → Bool)} (h : Sound s)
    (hnone : s.running = none) : Sound (s.pass lastNow now readable).2 := by
  have hpromoted : Sound (s.promote lastNow) := (sound_promote h).1
  rcases @pass_cases lastNow now readable s with
    he | he | ⟨p, t, hnext, he⟩ | ⟨-, he | he⟩
  · rw [he]
    exact h
  · rw [he]
    exact hpromoted
  · rw [he]
    exact (sound_start hpromoted (promote_running.trans hnone) hnext).1
  · rw [he]
    exact (sound_ioWaitPollAndWake hpromoted).1
  · rw [he]
    exact sound_mutexWaitPollAndWake hpromoted

theorem sound_init : Sound {} := by
  refine ⟨fun k => ?_, fun k p hp => ?_, fun p f hf => ?_, fun p => ?_⟩
  · cases k <;> exact .nil
  · cases k <;> cases hp
  · cases hf
  · simp

/-- **One step** keeps it, if a reset finds nobody at a mutex. -/
theorem sound_step {e : Event} {r : Reply} (h : Sound s) (hstep : s.step e = some (r, s'))
    (hreset : e = .reset → ∀ m ∈ s.mutexes, m.waiters = []) : Sound s' := by
  have hout : ∀ {out : Reply × Runtime}, some out = some (r, s') → Sound out.2 → Sound s' := by
    intro out he hsound
    rwa [Option.some.inj he] at hsound
  rw [step.eq_def] at hstep
  split at hstep
  case h_1 now got p call hp hcall =>
    refine hout hstep ?_
    cases call with
    | join target handle => exact (sound_joinLoop h hp (by rw [hcall]; rfl)).1
    | recv chan => exact sound_chanRecv h
    | lock => exact sound_lockResumed h hp
    | netRecv sock timeout => exact (sound_netRecv h (by rw [hcall]; rfl)).1
  case h_2 p hp hcall => exact hout hstep (sound_finish h hp (by rw [hcall]; rfl)).1
  case h_3 hp => exact hout hstep (sound_pass h hp)
  case h_4 addr _ _ =>
    split at hstep
    case isTrue => cases hstep
    case isFalse hfree =>
      refine hout hstep (sound_spawn h fun p hp => ?_)
      rw [hp, Option.any_some, Option.not_isSome_iff_eq_none] at hfree
      exact hfree
  case h_5 => exact hout hstep (sound_yield h).1
  case h_6 hcall => exact hout hstep (sound_sleepMs h (by rw [hcall]; rfl)).1
  case h_7 hcall => exact hout hstep (sound_join h (by rw [hcall]; rfl)).1
  case h_8 =>
    refine hout hstep ?_
    rw [chanCreate]
    split
    · exact h
    · exact h.congr rfl rfl fun k => by cases k <;> rfl
  case h_9 => exact hout hstep (sound_chanSend h)
  case h_10 => exact hout hstep (sound_chanRecv h)
  case h_11 =>
    refine hout hstep ?_
    rw [mutexNew]
    split
    · exact h
    · refine h.congr rfl rfl fun k => ?_
      cases k with
      | mutex j =>
        exact listOf_mutexNew j
      | _ => rfl
  case h_12 => exact hout hstep (sound_mutexLock h)
  case h_13 => exact hout hstep (sound_mutexUnlock h)
  case h_14 hcall => exact hout hstep (sound_netRecv h (by rw [hcall]; rfl)).1
  case h_15 => exact hout hstep (sound_reset (hreset rfl))
  case h_16 => cases hstep

end

end Runtime

end Datara.Natvar
