import Datara.Library.Runs
import Datara.Natvar.MutexLog

/-!
# Fiber mutexes are exclusive and fair

In a run in which a reset comes from the main thread and finds nobody at a mutex, and mutexes are unlocked
by those that have them, every mutex is exclusive and fair (`mutexes_exclusive`). A reset that finds a
waiter leaves it in the mutex, and whoever is spawned at its address is made ready in its place
(`mutexes_not_exclusive`).
-/

namespace Datara.Natvar

open Library
open scoped List

namespace Runtime

section
variable {s s' t : Runtime} {p q : Ptr} {f f' : Fiber} {i era : Nat} {l : HandoffLock Party}

/-! ## What a channel does is not seen -/

theorem lockView_off (h : f.call ≠ some .lock) : lockView i f = none := if_neg fun he => h he.1

/-- The states of a fiber that waits at no mutex are all alike. -/
theorem lockView_state {st : FiberState} (h : f.state ≠ .waitingMutex) (h' : st ≠ .waitingMutex) :
    lockView i { f with state := st } = lockView i f := by
  rw [lockView, lockView]
  simp [decide_eq_false h, decide_eq_false h']

theorem quiet_wakeRecvOf (s : Runtime) (chan : Int) (i : Nat) : Quiet i s (s.wakeRecvOf chan) ∧
    ∀ p f, s.heap p = some f → f.state ≠ .waitingChan → (s.wakeRecvOf chan).heap p = some f := by
  rcases wakeRecvOf_cases s chan with ⟨-, he⟩ | ⟨n, p, f, -, -, hf, hs, -, he⟩
  · rw [he]
    exact ⟨.refl i s, fun _ _ hf _ => hf⟩
  · rw [he]
    refine ⟨.record hf (setFiber_self hf) (fun q hq => setFiber_other hq) rfl
      (lockView_state (f := f) (by rw [hs]; nofun) nofun) rfl, fun q g hg hne => ?_⟩
    refine (setFiber_other ?_).trans hg
    rintro rfl
    cases hf.symm.trans hg
    exact hne hs

theorem quiet_wakeSendOf (s : Runtime) (chan : Int) (i : Nat) : Quiet i s (s.wakeSendOf chan) ∧
    ∀ p f, s.heap p = some f → f.state ≠ .waitingChan → (s.wakeSendOf chan).heap p = some f := by
  rcases wakeSendOf_cases s chan with ⟨-, he⟩ | ⟨n, p, f, -, -, hf, hs, -, he⟩
  · rw [he]
    exact ⟨.refl i s, fun _ _ hf _ => hf⟩
  · rw [he]
    refine ⟨.record hf (setFiber_self hf) (fun q hq => setFiber_other hq) rfl
      (lockView_state (f := f) (by rw [hs]; nofun) nofun) rfl, fun q g hg hne => ?_⟩
    refine (setFiber_other ?_).trans hg
    rintro rfl
    cases hf.symm.trans hg
    exact hne hs

theorem quiet_chanSend {chan value : Int} (h : Sound s) (hcall : s.currentCall ≠ some .lock) (i : Nat) :
    Quiet i s (s.chanSend chan value).2 := by
  rw [chanSend]
  cases s.chanById chan with
  | none => exact .refl i s
  | some n =>
    cases hp : s.running with
    | none => exact .refl i s
    | some p =>
      obtain ⟨f, hf, hs, hc⟩ := h.caller hp
      obtain ⟨hwake, hother⟩ := quiet_wakeRecvOf (s.setChan n fun _ => { buf := value, hasValue := true }) chan i
      have hwake : Quiet i s _ := ⟨hwake.mutex, hwake.handle, hwake.view⟩
      have hf' := hother p f hf (by rw [hs]; simp)
      show Quiet i s (if _ then _ else _ : Reply × Runtime).2
      split
      · obtain ⟨c, k, hadd⟩ := chanSendAdd_spec (wakeRecvOf chan (s.setChan n fun _ =>
          { buf := value, hasValue := true })) p
        rw [hadd]
        refine hwake.trans (.record hf' (setFiber_self hf') (fun q hq => setFiber_other hq) rfl ?_ rfl)
        exact (lockView_off (f := { f with state := .waitingChan, waitOn := chan }) (by rwa [← hc])).trans
          (lockView_off (by rwa [← hc])).symm
      · exact hwake

theorem quiet_recvLoop {chan now : Int} {n : Nat} (h : Sound s) (hcall : s.currentCall ≠ some .lock)
    (i : Nat) : Quiet i s (s.recvLoop chan n now).2 := by
  rw [recvLoop]
  cases s.chans[n]? with
  | none => exact .refl i s
  | some c =>
    simp only
    split
    · obtain ⟨hwake, hother⟩ := quiet_wakeSendOf (s.setChan n fun c => { c with hasValue := false }) chan i
      have hwake : Quiet i s _ := ⟨hwake.mutex, hwake.handle, hwake.view⟩
      have hrun : (wakeSendOf chan (s.setChan n fun c => { c with hasValue := false })).running = s.running :=
        (sound_wakeSendOf (sound_setChan h)).2
      cases hp : s.running with
      | none =>
        rw [hrun.trans hp]
        exact hwake
      | some p =>
        obtain ⟨f, hf, hs, hc⟩ := h.caller hp
        have hf' := hother p f hf (by rw [hs]; simp)
        rw [hrun.trans hp]
        refine hwake.trans (.record hf' (setFiber_self hf') (fun q hq => setFiber_other hq) rfl ?_ rfl)
        exact (lockView_off fun he => by cases he).trans (lockView_off (by rwa [← hc])).symm
    · cases hp : s.running with
      | some p =>
        obtain ⟨f, hf, hs, hc⟩ := h.caller hp
        obtain ⟨c, k, hadd⟩ := chanRecvAdd_spec s p
        simp only [hadd]
        refine .record hf (setFiber_self hf) (fun q hq => setFiber_other hq) rfl ?_ rfl
        exact (lockView_off fun he => by cases he).trans (lockView_off (by rwa [← hc])).symm
      | none =>
        cases hnext : s.nextFiber now with
        | none =>
          simp only
          split <;> exact .refl i s
        | some d => exact (sound_start h hp hnext).2.quiet i

theorem quiet_chanRecv {chan now : Int} (h : Sound s) (hcall : s.currentCall ≠ some .lock) (i : Nat) :
    Quiet i s (s.chanRecv chan now).2 := by
  rw [chanRecv]
  cases s.chanById chan with
  | none => exact .refl i s
  | some n => exact quiet_recvLoop h hcall i

theorem quiet_spawn {addr : Option Ptr} (hfree : ∀ p, addr = some p → s.heap p = none) (i : Nat) :
    Quiet i s (s.spawn addr).2 := by
  rcases @spawn_spec addr s with he | ⟨p, n, rfl, he⟩
  · rw [he]
    exact .refl i s
  · rw [he]
    have hnone := hfree p rfl
    have hother : ∀ q, q ≠ p → Function.update s.heap p (some { handle := s.nextHandle, state := .ready }) q =
        s.heap q := fun q hq => Function.update_of_ne hq _ _
    refine ⟨rfl, fun q f hf => ⟨f, ?_, rfl⟩, fun q => ?_⟩
    · refine (hother q ?_).trans hf
      rintro rfl
      rw [hnone] at hf
      cases hf
    · by_cases hq : q = p
      · subst hq
        rw [viewOf, viewOf, hnone]
        show (Function.update s.heap q _ q).bind _ = _
        rw [Function.update_self]
        exact lockView_off (by simp)
      · rw [viewOf, viewOf]
        show (Function.update s.heap p _ q).bind _ = _
        rw [hother q hq]

/-! ## The calls on a mutex -/

theorem mutexAt_eq {m : FiberMutex} (h : s.mutexes[i]? = some m) : s.mutexAt i = m := by
  rw [mutexAt, h]
  rfl

theorem mutexAt_setMutex {n : Nat} {g : FiberMutex → FiberMutex} :
    (s.setMutex n g).mutexAt i = if n = i then ((s.mutexes[i]?).map g).getD {} else s.mutexAt i := by
  rw [mutexAt, setMutex, List.getElem?_modify]
  split
  · cases s.mutexes[i]? <;> rfl
  · cases hi : s.mutexes[i]? <;> simp [mutexAt, hi]

/-! ## What a step does to the lock -/

/-- A step of the runtime, as a log of the lock sees it. -/
def Moves (i era : Nat) (e : Event) (s : Runtime) (r : Reply) (s' : Runtime) (l : HandoffLock Party) : Prop :=
  ∃ l', l.admits (callActs i era e s r ++ (wokenWaiters i s s').map (wakeAct era e s s')) = some l' ∧
    Agrees i (match e with | .reset => era + 1 | _ => era) s' l'

/-- What does not concern the mutex is not in its log. -/
theorem Moves.quiet {e : Event} {r : Reply} (h : Agrees i era s l) (hquiet : Quiet i s s') (hsound : Sound s')
    (hcall : callActs i era e s r = []) (hreset : e ≠ .reset) : Moves i era e s r s' l := by
  refine ⟨l, ?_, ?_⟩
  · rw [hcall, wokenWaiters_quiet h hquiet hsound]
    rfl
  · have hagrees := h.quiet hquiet
    cases e <;> first | exact hagrees | exact absurd rfl hreset

/-- A call wakes nobody, and its act is one of the lock. -/
theorem Moves.call {e : Event} {r : Reply} {act : LockAct Party} (l' : HandoffLock Party)
    (hcall : callActs i era e s r = [act]) (hready : s'.ready = s.ready) (hstep : l.step act = some l')
    (h : Agrees i era s' l') (hreset : e ≠ .reset) : Moves i era e s r s' l := by
  refine ⟨l', ?_, ?_⟩
  · rw [hcall, wokenWaiters, hready, List.drop_length]
    exact HandoffLock.admits_singleton.trans hstep
  · cases e <;> first | exact h | exact absurd rfl hreset

theorem caller_handle (era : Nat) (s : Runtime) :
    (s.caller era).handle = (s.running.bind s.heap).elim 0 (·.handle) := by
  rw [Runtime.caller]
  cases s.running <;> rfl

theorem Agrees.free (h : Agrees i era s l) (hfree : (s.mutexAt i).locked = false) :
    l.grip = .free ∧ l.queue = [] := by
  have hgrip : l.grip = .free := by
    rw [h.locked] at hfree
    cases hg : l.grip with
    | free => rfl
    | _ =>
      rw [hg] at hfree
      cases hfree
  refine ⟨hgrip, ?_⟩
  by_contra hne
  exact h.waits hne hgrip

/-- The lock is had by another than before, and nothing else changes. -/
theorem Agrees.regrip {g : FiberMutex → FiberMutex} {grip : Grip Party} (h : Agrees i era s l)
    (hlt : i < s.mutexes.length) (hg : ∀ m, (g m).waiters = m.waiters)
    (hlocked : (g (s.mutexAt i)).locked = taken grip) (howner : (g (s.mutexAt i)).owner = ownerOf grip)
    (hwaits : l.queue ≠ [] → grip ≠ .free) (hold : ∀ a, l.grip ≠ .granted a)
    (hnew : ∀ a, grip ≠ .granted a) : Agrees i era (s.setMutex i g) { l with grip := grip } := by
  have hm : s.mutexes[i]? = some (s.mutexAt i) := by
    rw [mutexAt, List.getElem?_eq_getElem hlt]
    rfl
  have hmutex : (s.setMutex i g).mutexAt i = g (s.mutexAt i) := by
    rw [mutexAt_setMutex, if_pos rfl, hm]
    rfl
  refine ⟨?_, ?_, ?_, hwaits, fun p hp => ?_, fun p r hp => ?_, fun p n hp => absurd hp (hnew _), h.late,
    fun n p k hp => ?_⟩
  · rw [hmutex]
    exact hlocked
  · rw [hmutex]
    exact howner
  · rw [hmutex, hg]
    exact h.queue
  · rw [hmutex, hg] at hp
    exact h.parked p hp
  · have := h.woken p r hp
    by_cases hr : r = 1
    · rw [if_pos hr] at this
      exact absurd this (hold _)
    · rw [if_neg hr] at this ⊢
      exact this
  · exact hp.elim (fun he => absurd he (hnew _)) fun he => h.past n p k (.inr he)

theorem party_setFiber {g : Fiber → Fiber} (hg : ∀ f, (g f).handle = f.handle) :
    (s.setFiber p g).party era q = s.party era q := by
  by_cases hq : q = p
  · subst hq
    cases hf : s.heap q with
    | none =>
      rw [party, party, setFiber, hf]
      show Party.fiber era q ((Function.update s.heap q none q).elim 0 _) = _
      rw [Function.update_self]
    | some f => rw [party_eq hf, party_eq (setFiber_self hf), hg]
  · rw [party, party, setFiber_other hq]

theorem viewOf_other {g : Fiber → Fiber} (hq : q ≠ p) : (s.setFiber p g).viewOf i q = s.viewOf i q := by
  rw [viewOf, viewOf, setFiber_other hq]

/-- The fiber that calls is at no mutex. -/
theorem viewOf_caller (h : Sound s) (hp : s.running = some p) (hcall : s.currentCall = none) :
    s.viewOf i p = none := by
  obtain ⟨f, hf, -, hc⟩ := h.caller hp
  rw [viewOf_eq hf, lockView_off]
  rw [← hc, hcall]
  nofun

section
variable (h : Agrees i era s l)
include h

theorem moves_lock {id now timeout : Int} (hsound : Sound s)
    (hcall : s.currentCall = none) :
    Moves i era (.lock id now timeout) s (s.mutexLock id now timeout).1 (s.mutexLock id now timeout).2 l := by
  have hsound' : Sound (s.mutexLock id now timeout).2 := sound_mutexLock hsound
  rcases mutexLock_cases s id now timeout with ⟨msg, he⟩ | ⟨n, m, rfl, hm, hlocked, he⟩ |
    ⟨n, m, p, rfl, hm, hlocked, hp, he⟩
  · rw [he] at hsound' ⊢
    exact .quiet h (.refl i s) hsound' rfl nofun
  · rw [he] at hsound' ⊢
    by_cases hn : n = i
    · subst hn
      have hmutex := mutexAt_eq hm
      obtain ⟨hfree, hempty⟩ := h.free (hmutex ▸ hlocked)
      refine .call { l with grip := .held (s.caller era) } (if_pos rfl) rfl
        (if_pos ⟨hfree, hempty⟩) (h.regrip (List.getElem?_eq_some_iff.mp hm).1 (fun _ => rfl) rfl ?_
          (fun hne => absurd hempty hne) (fun a => by rw [hfree]; nofun) nofun) nofun
      exact (caller_handle era s).symm
    · refine .quiet h ⟨?_, fun p f hf => ⟨f, hf, rfl⟩, fun _ => rfl⟩ hsound' (if_neg ?_) nofun
      · rw [mutexAt_setMutex, if_neg hn]
      · exact fun he => hn (Int.ofNat.inj he)
  · rw [he] at hsound' ⊢
    obtain ⟨f, hf, hs, hc⟩ := hsound.caller hp
    have hview : ∀ j, s.viewOf j p = none := fun j => viewOf_caller hsound hp hcall
    set g : Fiber → Fiber := fun f =>
      { f with state := .waitingMutex, waitOn := n, wakeResult := -1, call := some .lock
               waitDeadline := if 0 < timeout then now + timeout else 0 }
    by_cases hn : n = i
    · subst hn
      have hmutex := mutexAt_eq hm
      have hcaller : s.caller era = s.party era p := by
        rw [Runtime.caller, hp]
        rfl
      have habsent : ∀ {b r}, s.viewOf n p ≠ some (b, r) := by
        intro b r hsome
        rw [hview] at hsome
        cases hsome
      have hgrip : l.grip ≠ .free := by
        intro hfree
        rw [← hmutex, h.locked, hfree] at hlocked
        cases hlocked
      have hnotGranted : l.grip ≠ .granted (s.party era p) := by
        intro hgranted
        exact habsent (h.granted p _ hgranted)
      have hnotQueued : s.party era p ∉ l.queue := by
        rw [h.queue, List.mem_map]
        rintro ⟨q, hq, heq⟩
        obtain rfl := party_injective heq
        obtain ⟨r, hr⟩ := h.parked q hq
        exact habsent hr
      have hnotLate : s.party era p ∉ l.late := by
        intro hlate
        obtain ⟨-, r, -, hr⟩ := h.late p _ hlate
        exact habsent hr
      have hmutex' : (switchOut ((s.setFiber p g).setMutex n fun m =>
          { m with waiters := m.waiters ++ [p] })).mutexAt n = { m with waiters := m.waiters ++ [p] } := by
        show ((s.setFiber p g).setMutex n _).mutexAt n = _
        rw [mutexAt_setMutex, if_pos rfl]
        show ((s.mutexes[n]?).map _).getD ({} : FiberMutex) = _
        rw [hm]
        rfl
      have hact : callActs n era (.lock n now timeout) s .parked = [.arrived (s.party era p)] := by
        rw [← hcaller]
        exact if_pos rfl
      have hother : ∀ q b r, s.viewOf n q = some (b, r) → q ≠ p := by
        intro q b r hq he
        exact habsent (he ▸ hq)
      refine .call { l with queue := l.queue ++ [s.party era p] } hact rfl (if_pos ⟨hgrip, hnotGranted, hnotQueued, hnotLate⟩) ?_ nofun
      have hparty : ∀ q, (s.setFiber p g).party era q = s.party era q := fun q => party_setFiber fun _ => rfl
      have hself : (s.setFiber p g).viewOf n p = some (true, -1) := by
        rw [viewOf_eq (setFiber_self hf)]
        exact if_pos ⟨rfl, rfl⟩
      refine ⟨?_, ?_, ?_, fun _ => hgrip, fun q hq => ?_, fun q r hq => ?_, fun q k hq => ?_, fun q k hq => ?_,
        h.past⟩
      · rw [hmutex', ← h.locked, hmutex]
      · rw [hmutex', ← h.owner, hmutex]
      · rw [hmutex', h.queue, hmutex]
        show _ = List.map ((s.setFiber p g).party era) (m.waiters ++ [p])
        rw [funext hparty, List.map_append]
        rfl
      · rw [hmutex'] at hq
        rcases List.mem_append.mp hq with hq | hq
        · obtain ⟨r, hr⟩ := h.parked q (hmutex ▸ hq)
          exact ⟨r, (viewOf_other (hother q _ _ hr)).trans hr⟩
        · obtain rfl := List.mem_singleton.mp hq
          exact ⟨-1, hself⟩
      · have hqp : q ≠ p := by
          rintro rfl
          cases hself.symm.trans hq
        have hwoken := h.woken q r ((viewOf_other hqp).symm.trans hq)
        rw [← hparty q] at hwoken
        exact hwoken
      · have hr := h.granted q k hq
        exact (viewOf_other (hother q _ _ hr)).trans hr
      · obtain ⟨heq, r, hne, hr⟩ := h.late q k hq
        exact ⟨heq.trans (hparty q).symm, r, hne, (viewOf_other (hother q _ _ hr)).trans hr⟩
    · refine .quiet h (.record hf (setFiber_self hf) (fun q hq => setFiber_other hq) rfl ?_ ?_) hsound'
        (if_neg fun he => hn (Int.ofNat.inj he)) nofun
      · rw [← viewOf_eq hf, hview]
        exact if_neg fun he => hn (Int.ofNat.inj he.2)
      · show ((s.setFiber p g).setMutex n _).mutexAt i = _
        rw [mutexAt_setMutex, if_neg hn]
        rfl

theorem moves_unlock {id : Int} (hsound : Sound s)
    (howns : s.mutexById id = some i → l.grip = .held (s.caller era)) :
    Moves i era (.unlock id) s (s.mutexUnlock id).1 (s.mutexUnlock id).2 l := by
  have hsound' : Sound (s.mutexUnlock id).2 := sound_mutexUnlock hsound
  have hact : ∀ n : Nat, id = n → n < s.mutexes.length → n ≠ i → callActs i era (.unlock id) s .unit = [] := by
    intro n hid _ hn
    exact if_neg fun he => hn (Int.ofNat.inj (hid.symm.trans he.1))
  have hown : ∀ n : Nat, id = n → n < s.mutexes.length → n = i → s.mutexById id = some i := by
    rintro n rfl hlt rfl
    rw [mutexById, if_neg (by omega)]
    rfl
  rcases mutexUnlock_cases s id with ⟨hnone, he⟩ | ⟨n, m, hid, hm, hw, he⟩ | ⟨n, m, next, rest, hid, hm, hw, he⟩
  · rw [he] at hsound' ⊢
    refine .quiet h (.refl i s) hsound' (if_neg ?_) (by simp)
    rintro ⟨rfl, hlt⟩
    rw [mutexById, if_neg (by omega)] at hnone
    cases hnone
  · rw [he] at hsound' ⊢
    have hlt : n < s.mutexes.length := (List.getElem?_eq_some_iff.mp hm).1
    by_cases hn : n = i
    · subst hn
      have hheld := howns (hown n hid hlt rfl)
      have hempty : l.queue = [] := by
        rw [h.queue, mutexAt_eq hm, hw]
        rfl
      exact .call _ (if_pos ⟨hid, hlt⟩) rfl (if_pos hheld) (h.regrip hlt (fun _ => rfl) rfl rfl
        (fun hne => absurd hempty hne) (fun a => by rw [hheld]; simp) (by simp)) (by simp)
    · refine .quiet h ⟨?_, fun p f hf => ⟨f, hf, rfl⟩, fun _ => rfl⟩ hsound' (hact n hid hlt hn) (by simp)
      rw [mutexAt_setMutex, if_neg hn]
  · rw [he] at hsound' ⊢
    have hlt : n < s.mutexes.length := (List.getElem?_eq_some_iff.mp hm).1
    have hlist : s.listOf (.mutex n) = next :: rest := by
      rw [listOf_mutex, hm]
      exact hw
    obtain ⟨f, hf, hs, hwait⟩ := hsound.mem_mutex (i := n) (hlist ▸ List.mem_cons_self (a := next))
    set g : Fiber → Fiber := fun f => { f with wakeResult := 1, state := .ready }
    set t := (s.setMutex n fun m =>
      { m with waiters := rest, owner := (s.heap next).elim 0 (·.handle) }).wake
        (fun f => { f with wakeResult := 1 }) next
    have hself : t.heap next = some (g f) := setFiber_self (s := s) hf
    have hother : ∀ q, q ≠ next → t.heap q = s.heap q := fun q hq => setFiber_other (s := s) hq
    by_cases hn : n = i
    · subst hn
      have hmutex := mutexAt_eq hm
      have hheld := howns (hown n hid hlt rfl)
      have hnot : next ∉ rest := by
        have hnodup : (next :: rest).Nodup := hlist ▸ hsound.nodup (.mutex n)
        exact (List.nodup_cons.mp hnodup).1
      have hqueue : l.queue = s.party era next :: rest.map (s.party era) := by
        rw [h.queue, hmutex, hw]
        rfl
      have hview : ∀ q, q ≠ next → t.viewOf n q = s.viewOf n q := fun q hq => by
        rw [viewOf, viewOf, hother q hq]
      have hparty : ∀ q, t.party era q = s.party era q :=
        fun q => party_setFiber (s := s) (g := g) fun _ => rfl
      obtain ⟨r₀, hr₀⟩ := h.parked next (by rw [hmutex, hw]; exact List.mem_cons_self)
      obtain ⟨f₁, hf₁, hlock, hon, -⟩ := viewOf_some hr₀
      cases hf.symm.trans hf₁
      have hselfView : t.viewOf n next = some (false, 1) := by
        rw [viewOf_eq hself]
        exact if_pos ⟨hlock, hon⟩
      have hmutex' : t.mutexAt n =
          { m with waiters := rest, owner := (s.heap next).elim 0 (·.handle) } := by
        show (s.setMutex n _).mutexAt n = _
        rw [mutexAt_setMutex, if_pos rfl, hm]
        rfl
      have hwoken : wokenWaiters n s t = [next] := by
        show ((s.ready ++ [next]).drop s.ready.length).filter _ = _
        rw [List.drop_left, List.filter_cons_of_pos, List.filter_nil]
        rw [hmutex, hw]
        exact decide_eq_true List.mem_cons_self
      have hwake : wakeAct era (.unlock id) s t next = .granted (s.party era next) := by
        rw [wakeAct, hself]
        rfl
      refine ⟨{ l with grip := .granted (s.party era next), queue := rest.map (s.party era) }, ?_, ?_⟩
      · have hacts : callActs n era (.unlock id) s .unit = [.released (s.caller era)] := if_pos ⟨hid, hlt⟩
        rw [hacts, hwoken, List.map_singleton, hwake]
        have hfirst : l.admits [.released (s.caller era)] = some { l with grip := .free } :=
          HandoffLock.admits_singleton.trans (if_pos hheld)
        rw [HandoffLock.admits_append hfirst, HandoffLock.admits_singleton]
        refine (if_pos ⟨rfl, ?_⟩).trans ?_
        · rw [hqueue]
          rfl
        · rw [hqueue]
          rfl
      · refine ⟨?_, ?_, ?_, fun _ => by simp, fun q hq => ?_, fun q r hq => ?_, fun q k hq => ?_, fun q k hq => ?_,
          fun k q a hq => ?_⟩
        · rw [hmutex']
          rw [← hmutex, h.locked, hheld]
          rfl
        · rw [hmutex', hf, party_eq hf]
          rfl
        · rw [hmutex', funext hparty]
        · rw [hmutex'] at hq
          obtain ⟨r, hr⟩ := h.parked q (by rw [hmutex, hw]; exact List.mem_cons_of_mem next hq)
          exact ⟨r, (hview q fun he => hnot (he ▸ hq)).trans hr⟩
        · by_cases hqn : q = next
          · subst hqn
            cases hselfView.symm.trans hq
            rw [if_pos rfl, hparty]
          · have hold := h.woken q r ((hview q hqn).symm.trans hq)
            by_cases hr : r = 1
            · rw [if_pos hr, hheld] at hold
              cases hold
            · rw [if_neg hr] at hold ⊢
              rw [hparty]
              exact hold
        · obtain rfl : next = q := (Party.fiber.inj (Grip.granted.inj hq)).2.1
          exact hselfView
        · obtain ⟨heq, r, hne, hr⟩ := h.late q k hq
          refine ⟨heq.trans (hparty q).symm, r, hne, (hview q ?_).trans hr⟩
          rintro rfl
          cases hr₀.symm.trans hr
        · rcases hq with hq | hq
          · exact Nat.le_of_eq (Party.fiber.inj (Grip.granted.inj hq)).1.symm
          · exact h.past k q a (.inr hq)
    · refine .quiet h (.record hf hself hother rfl ?_ ?_) hsound' (hact n hid hlt hn) (by simp)
      · have hon : f.waitOn ≠ i := fun he => hn (by rw [← hwait, he]; rfl)
        exact (if_neg fun he => hon he.2).trans (if_neg fun he => hon he.2).symm
      · show (s.setMutex n _).mutexAt i = _
        rw [mutexAt_setMutex, if_neg hn]

/-- The waiters whose deadlines have passed are made ready without the mutex. -/
theorem moves_poll {lastNow : Int} {now : Ptr → Int} {readable : Option (Int → Bool)} {r : Reply} (hlaw : l.queue.Nodup) (hsound : Sound s) :
    Moves i era (.pass lastNow now readable) s r (s.mutexWaitPollAndWake now).2 l := by
  set woken : Ptr → Bool := fun p => (s.heap p).any (expired (now p)) with hwoken
  set ps := s.mutexes.flatMap fun m => m.waiters.filter woken
  have hnodup : ps.Nodup :=
    nodup_mutexes (fun i => hsound.nodup (.mutex i)) (fun i => hsound.place (.mutex i)) woken
  have hout : (s.mutexWaitPollAndWake now).2 = { s with
      mutexes := s.mutexes.map fun m => { m with waiters := m.waiters.filter fun p => !woken p }
      heap := fun p => if p ∈ ps then (s.heap p).map fun f => { f with wakeResult := 0, state := .ready }
        else s.heap p
      ready := s.ready ++ ps } := wakeAll_heap ps hnodup _
  rw [hout]
  set t : Runtime := { s with
      mutexes := s.mutexes.map fun m => { m with waiters := m.waiters.filter fun p => !woken p }
      heap := fun p => if p ∈ ps then (s.heap p).map fun f => { f with wakeResult := 0, state := .ready }
        else s.heap p
      ready := s.ready ++ ps } with ht
  have hlist : s.listOf (.mutex i) = (s.mutexAt i).waiters := by
    rw [listOf_mutex, mutexAt]
    cases s.mutexes[i]? <;> rfl
  have hmutex : t.mutexAt i =
      { s.mutexAt i with waiters := (s.mutexAt i).waiters.filter fun p => !woken p } := by
    rw [mutexAt, mutexAt]
    rw [List.getElem?_map]
    cases s.mutexes[i]? <;> rfl
  -- those made ready are the waiters whose deadlines have passed, whatever the order
  have hps : ∀ p, p ∈ ps ↔ ∃ j, p ∈ s.listOf (.mutex j) ∧ woken p = true := by
    intro p
    rw [List.mem_flatMap]
    constructor
    · rintro ⟨m, hm, hp⟩
      obtain ⟨j, hj, rfl⟩ := List.getElem_of_mem hm
      obtain ⟨hin, hw⟩ := List.mem_filter.mp hp
      refine ⟨j, ?_, hw⟩
      rw [listOf_mutex, List.getElem?_eq_getElem hj]
      exact hin
    · rintro ⟨j, hin, hw⟩
      rw [listOf_mutex] at hin
      cases hj : s.mutexes[j]? with
      | none =>
        rw [hj] at hin
        cases hin
      | some m =>
        rw [hj] at hin
        exact ⟨m, List.mem_of_getElem? hj, List.mem_filter.mpr ⟨hin, hw⟩⟩
  have hwaiters : wokenWaiters i s t = ps.filter (· ∈ (s.mutexAt i).waiters) := by
    show ((s.ready ++ ps).drop s.ready.length).filter _ = _
    rw [List.drop_left]
  set bs := wokenWaiters i s t
  have hbs : ∀ p, p ∈ bs ↔ p ∈ (s.mutexAt i).waiters ∧ woken p = true := by
    intro p
    rw [hwaiters, List.mem_filter, hps, decide_eq_true_eq, and_comm]
    constructor
    · rintro ⟨hin, j, -, hw⟩
      exact ⟨hin, hw⟩
    · rintro ⟨hin, hw⟩
      exact ⟨hin, i, hlist ▸ hin, hw⟩
  have hself : ∀ p ∈ bs, ∃ f, s.heap p = some f ∧ lockView i f ≠ none ∧
      t.heap p = some { f with wakeResult := 0, state := .ready } := by
    intro p hp
    obtain ⟨hin, hw⟩ := (hbs p).mp hp
    obtain ⟨r, hr⟩ := h.parked p hin
    obtain ⟨f, hf, -⟩ := viewOf_some hr
    refine ⟨f, hf, ?_, ?_⟩
    · rw [← viewOf_eq hf, hr]
      simp
    · show (if p ∈ ps then _ else _) = _
      rw [if_pos ((hps p).mpr ⟨i, hlist ▸ hin, hw⟩), hf]
      rfl
  have hview : ∀ p, t.viewOf i p = if p ∈ bs then some (false, 0) else s.viewOf i p := by
    intro p
    split
    case isTrue hp =>
      obtain ⟨f, hf, hne, hf'⟩ := hself p hp
      rw [viewOf_eq hf']
      rw [lockView] at hne ⊢
      exact if_pos (by_contra fun hnot => hne (if_neg hnot))
    case isFalse hp =>
      by_cases hin : p ∈ ps
      · -- it waits at another mutex
        obtain ⟨j, hj, hw⟩ := (hps p).mp hin
        obtain ⟨f, hf, -, hon⟩ := hsound.mem_mutex hj
        have hf' : t.heap p = some { f with wakeResult := 0, state := .ready } := by
          show (if p ∈ ps then _ else _) = _
          rw [if_pos hin, hf]
          rfl
        have hne : f.waitOn ≠ i := by
          intro he
          have hji : j = i := by
            rw [← hon, he]
            rfl
          subst hji
          exact hp ((hbs p).mpr ⟨hlist ▸ hj, hw⟩)
        rw [viewOf_eq hf', viewOf_eq hf]
        exact (if_neg fun he => hne he.2).trans (if_neg fun he => hne he.2).symm
      · rw [viewOf, viewOf]
        show (if p ∈ ps then _ else _ : Option Fiber).bind _ = _
        rw [if_neg hin]
  have hparty : ∀ p, t.party era p = s.party era p := by
    intro p
    rw [party, party]
    show Party.fiber era p ((if p ∈ ps then _ else _ : Option Fiber).elim 0 _) = _
    split
    · cases s.heap p <;> rfl
    · rfl
  have hacts : bs.map (wakeAct era (.pass lastNow now readable) s t) =
      (bs.map (s.party era)).map .expired := by
    rw [List.map_map]
    apply List.map_congr_left
    intro p hp
    obtain ⟨f, -, -, hf'⟩ := hself p hp
    have hw : timedOut (.pass lastNow now readable) s p = true := ((hbs p).mp hp).2
    rw [wakeAct, hf', hw]
    rfl
  refine ⟨{ l with queue := l.queue.filter (· ∉ bs.map (s.party era))
                   late := (bs.map (s.party era)).reverse ++ l.late }, ?_, ?_⟩
  · show l.admits ([] ++ _) = _
    rw [List.nil_append, hacts]
    refine HandoffLock.admits_expired hlaw _ (List.Nodup.map party_injective ?_) fun a ha => ?_
    · rw [hwaiters]
      exact hnodup.filter _
    · obtain ⟨p, hp, rfl⟩ := List.mem_map.mp ha
      rw [h.queue]
      exact List.mem_map_of_mem ((hbs p).mp hp).1
  · refine ⟨?_, ?_, ?_, fun hne => ?_, fun p hp => ?_, fun p r hp => ?_, fun p k hp => ?_, fun p k hp => ?_,
      fun n p k hp => ?_⟩
    · rw [hmutex]
      exact h.locked
    · rw [hmutex]
      exact h.owner
    · rw [hmutex, funext hparty, h.queue, List.filter_map]
      refine congrArg (List.map (s.party era)) (List.filter_congr fun p hp => ?_)
      have hin : s.party era p ∈ bs.map (s.party era) ↔ woken p = true := by
        rw [List.mem_map_of_injective party_injective, hbs]
        exact and_iff_right hp
      simp only [Function.comp_apply, hin]
      cases woken p <;> rfl
    · refine h.waits fun he => hne ?_
      rw [he]
      rfl
    · rw [hmutex] at hp
      obtain ⟨hin, hw⟩ := List.mem_filter.mp hp
      rw [hview, if_neg]
      · exact h.parked p hin
      · rw [hbs]
        rintro ⟨-, hw'⟩
        rw [hw'] at hw
        cases hw
    · rw [hview] at hp
      rw [hparty]
      by_cases hin : p ∈ bs
      · rw [if_pos hin] at hp
        cases hp
        exact List.mem_append_left _ (List.mem_reverse.mpr (List.mem_map_of_mem hin))
      · rw [if_neg hin] at hp
        have hold := h.woken p r hp
        split at hold
        case isTrue hr => rwa [if_pos hr]
        case isFalse hr =>
          rw [if_neg hr]
          exact List.mem_append_right _ hold
    · rw [hview, if_neg]
      · exact h.granted p k hp
      · intro hin
        obtain ⟨r, hr⟩ := h.parked p ((hbs p).mp hin).1
        cases hr.symm.trans (h.granted p k hp)
    · rw [hview, hparty]
      rcases List.mem_append.mp hp with hp | hp
      · obtain ⟨q, hq, heq⟩ := List.mem_map.mp (List.mem_reverse.mp hp)
        obtain rfl : q = p := (Party.fiber.inj heq).2.1
        exact ⟨heq.symm, 0, by simp, if_pos hq⟩
      · obtain ⟨heq, r, hne, hr⟩ := h.late p k hp
        refine ⟨heq, ?_⟩
        split
        · exact ⟨0, by simp, rfl⟩
        · exact ⟨r, hne, hr⟩
    · rcases hp with hp | hp
      · exact h.past n p k (.inl hp)
      · rcases List.mem_append.mp hp with hp | hp
        · obtain ⟨q, -, heq⟩ := List.mem_map.mp (List.mem_reverse.mp hp)
          exact Nat.le_of_eq (Party.fiber.inj heq).1.symm
        · exact h.past n p k (.inr hp)

/-- What is left of a `lock` tells whether the mutex was granted. -/
theorem moves_resumed {now : Int} {got : Option Reply} (hlaw : l.late.Nodup)
    (hsound : Sound s) (hp : s.running = some p) (hcall : s.currentCall = some .lock) :
    Moves i era (.resume now got) s (s.lockResumed p).1 (s.lockResumed p).2 l := by
  have hsound' : Sound (s.lockResumed p).2 := sound_lockResumed hsound hp
  obtain ⟨f, hf, hs, hc⟩ := hsound.caller hp
  set t := (s.lockResumed p).2
  have hself : t.heap p = some { f with call := none } := setFiber_self hf
  have hlock : s.lockOf = some f.waitOn := by
    rw [lockOf, if_pos hcall, hp, Option.bind_some, hf]
    rfl
  have hgone : ∀ j, t.viewOf j p = none := by
    intro j
    rw [viewOf_eq hself]
    exact if_neg fun he => by cases he.1
  by_cases hon : f.waitOn = i
  · have hview : s.viewOf i p = some (false, f.wakeResult) := by
      rw [viewOf_eq hf, lockView, if_pos ⟨hc.symm.trans hcall, hon⟩, hs]
      rfl
    have hother : ∀ q, q ≠ p → t.viewOf i q = s.viewOf i q := fun q => viewOf_other
    have hne : ∀ q x, t.viewOf i q = some x → q ≠ p := by
      rintro q x hq rfl
      cases (hgone i).symm.trans hq
    have hparty : ∀ q, t.party era q = s.party era q := fun q => party_setFiber fun _ => rfl
    have hwait : ∀ q ∈ (s.mutexAt i).waiters, ∃ r, t.viewOf i q = some (true, r) := by
      intro q hq
      obtain ⟨r, hr⟩ := h.parked q hq
      refine ⟨r, (hother q ?_).trans hr⟩
      rintro rfl
      cases hview.symm.trans hr
    have hcaller : s.caller era = s.party era p := by
      rw [Runtime.caller, hp]
      rfl
    have hwoken := h.woken p _ hview
    have hacts : ∀ b, (s.lockResumed p).1 = (if b then .outcome true "locked" "" else .outcome false "" "timeout") →
        callActs i era (.resume now got) s (s.lockResumed p).1 = [.returned (s.party era p) b] := by
      intro b hb
      rw [hb, ← hcaller]
      cases b <;> exact if_pos (hlock.trans (congrArg some hon))
    by_cases hr : f.wakeResult = 1
    · rw [if_pos hr] at hwoken
      have hreply : (s.lockResumed p).1 = .outcome true "locked" "" := by
        rw [lockResumed, hf]
        exact if_pos (decide_eq_true hr)
      refine .call { l with grip := .held (s.party era p) } (hacts true hreply) rfl (if_pos hwoken) ?_ (by simp)
      refine ⟨?_, ?_, ?_, fun _ => by simp, hwait, fun q r hq => ?_, by simp, fun q k hq => ?_, fun n q k hq => ?_⟩
      · exact h.locked.trans (by rw [hwoken]; rfl)
      · exact h.owner.trans (by rw [hwoken]; rfl)
      · rw [funext hparty]
        exact h.queue
      · have hqp := hne q _ hq
        have hold := h.woken q r ((hother q hqp).symm.trans hq)
        by_cases hr' : r = 1
        · rw [if_pos hr', hwoken] at hold
          exact absurd (party_injective (Grip.granted.inj hold)).symm hqp
        · rw [if_neg hr'] at hold ⊢
          rw [hparty]
          exact hold
      · obtain ⟨heq, r, hnot, hr'⟩ := h.late q k hq
        refine ⟨heq.trans (hparty q).symm, r, hnot, (hother q ?_).trans hr'⟩
        rintro rfl
        exact hnot ((Prod.mk.inj (Option.some.inj (hr'.symm.trans hview))).2.trans hr)
      · exact h.past n q k (.inr (hq.resolve_left (by simp)))
    · rw [if_neg hr] at hwoken
      have hreply : (s.lockResumed p).1 = .outcome false "" "timeout" := by
        rw [lockResumed, hf]
        exact if_neg fun he => hr (of_decide_eq_true he)
      refine .call { l with late := l.late.erase (s.party era p) } (hacts false hreply) rfl
        (if_pos hwoken) ?_ (by simp)
      refine ⟨h.locked, h.owner, ?_, h.waits, hwait, fun q r hq => ?_, fun q k hq => ?_, fun q k hq => ?_,
        fun n q k hq => ?_⟩
      · rw [funext hparty]
        exact h.queue
      · have hqp := hne q _ hq
        have hold := h.woken q r ((hother q hqp).symm.trans hq)
        rw [hparty]
        split at hold
        case isTrue hr' => rwa [if_pos hr']
        case isFalse hr' =>
          rw [if_neg hr']
          exact (List.mem_erase_of_ne fun he => hqp (party_injective he)).mpr hold
      · have hr' := h.granted q k hq
        refine (hother q ?_).trans hr'
        rintro rfl
        exact hr (Prod.mk.inj (Option.some.inj (hview.symm.trans hr'))).2
      · obtain ⟨hne', hq⟩ := hlaw.mem_erase_iff.mp hq
        obtain ⟨heq, r, hne, hr'⟩ := h.late q k hq
        refine ⟨heq.trans (hparty q).symm, r, hne, (hother q ?_).trans hr'⟩
        rintro rfl
        exact hne' heq
      · exact h.past n q k (hq.imp_right List.mem_of_mem_erase)
  · refine .quiet h (.record hf hself (fun q hq => setFiber_other hq) rfl ?_ rfl) hsound' ?_ (by simp)
    · rw [← viewOf_eq hself, hgone]
      exact (if_neg fun he => hon he.2).symm
    · have hnot : s.lockOf ≠ some (i : Int) := by
        rw [hlock]
        exact fun he => hon (Option.some.inj he)
      rw [lockResumed]
      split <;> exact if_neg hnot

theorem moves_pass {lastNow : Int} {now : Ptr → Int} {readable : Option (Int → Bool)}
    (hlaw : l.queue.Nodup) (hsound : Sound s) (hnone : s.running = none) :
    Moves i era (.pass lastNow now readable) s (s.pass lastNow now readable).1
      (s.pass lastNow now readable).2 l := by
  have hsound' : Sound (s.pass lastNow now readable).2 := sound_pass hsound hnone
  obtain ⟨hpromoted, hplain⟩ := @sound_promote s lastNow hsound
  have hnone' : (s.promote lastNow).running = none := promote_running.trans hnone
  rcases @pass_cases lastNow now readable s with
    he | he | ⟨p, t, hnext, he⟩ | ⟨hnext, he | he⟩
  · exact .quiet h (by rw [he]; exact .refl i s) hsound' rfl (by simp)
  · exact .quiet h (by rw [he]; exact hplain.quiet i) hsound' rfl (by simp)
  · exact .quiet h (by rw [he]; exact (hplain.trans (sound_start hpromoted hnone' hnext).2).quiet i) hsound'
      rfl (by simp)
  · exact .quiet h (by rw [he]; exact (hplain.trans (sound_ioWaitPollAndWake hpromoted).2).quiet i) hsound'
      rfl (by simp)
  · -- nobody is ready, so no sleeper was due
    have hsame : s.promote lastNow = s := by
      rw [promote] at hnext ⊢
      cases hdue : s.timerPopDue lastNow with
      | none => rfl
      | some d =>
        obtain ⟨l, -, hd⟩ := timerPopDue_some hdue
        rw [hdue, nextFiber] at hnext
        have hready : (wake id d.1 d.2).readyPop ≠ none := by
          have hwoken : (wake id d.1 d.2).ready = d.2.ready ++ [d.1] := rfl
          rw [readyPop, hwoken]
          cases d.2.ready <;> simp
        cases hpop : (wake id d.1 d.2).readyPop with
        | none => exact absurd hpop hready
        | some next =>
          simp only [hpop] at hnext
          cases hnext
    rw [he, hsame]
    exact moves_poll h hlaw hsound

/-- A reset that finds nobody at a mutex leaves the mutexes to those that have them. -/
theorem moves_reset (hmutexes : ∀ m ∈ s.mutexes, m.waiters = []) :
    Moves i era .reset s .unit s.reset.2 l := by
  have hwaiters : (s.mutexAt i).waiters = [] := by
    rw [mutexAt]
    cases hm : s.mutexes[i]? with
    | none => rfl
    | some m => exact hmutexes m (List.mem_of_getElem? hm)
  have hgone : ∀ n p k, n = era + 1 → l.grip = .granted (.fiber n p k) ∨ .fiber n p k ∈ l.late → False := by
    intro n p k hn hp
    have := h.past n p k hp
    omega
  refine ⟨l, ?_, h.locked, h.owner, ?_, h.waits, fun p hp => ?_, fun p r hp => ?_, fun p k hp => ?_,
    fun p k hp => ?_, fun n p k hp => Nat.le_succ_of_le (h.past n p k hp)⟩
  · show l.admits ([] ++ List.map _ ((List.drop _ []).filter _)) = _
    rw [List.drop_nil]
    rfl
  · rw [h.queue]
    show _ = List.map _ (s.mutexAt i).waiters
    rw [hwaiters]
    rfl
  · have hin : p ∈ (s.mutexAt i).waiters := hp
    rw [hwaiters] at hin
    cases hin
  · cases hp
  · exact (hgone _ p k rfl (.inl hp)).elim
  · exact (hgone _ p k rfl (.inr hp)).elim

end

/-! ## Runs -/

/-- A reset comes from the main thread and finds nobody at a mutex. -/
def Undisturbed (e : Event) (c : MutexLog × Runtime) : Prop :=
  match e with
  | .reset => c.2.running = none ∧ ∀ m ∈ c.2.mutexes, m.waiters = []
  | _ => True

/-- **One step** is one of the lock. -/
theorem moves_step {e : Event} {r : Reply} {log : MutexLog} (h : Agrees i log.era s l)
    (hlaw : Lawful (log.acts i) l) (hsound : Sound s) (hstep : s.step e = some (r, s'))
    (howns : UnlocksOwn e (log, s)) (hreset : Undisturbed e (log, s)) : Moves i log.era e s r s' l := by
  have hsound' : Sound s' := sound_step hsound hstep fun he => by
    subst he
    exact hreset.2
  have hout : ∀ {out : Reply × Runtime}, some out = some (r, s') → Moves i log.era e s out.1 out.2 l →
      Moves i log.era e s r s' l := by
    intro out he hmoves
    rwa [Option.some.inj he] at hmoves
  have hquiet : ∀ {out : Reply × Runtime}, some out = some (r, s') → Quiet i s out.2 →
      callActs i log.era e s out.1 = [] → e ≠ .reset → Moves i log.era e s r s' l := by
    intro out he hq hacts hne
    rw [Option.some.inj he] at hq hacts
    exact .quiet h hq hsound' hacts hne
  have hidle : s.currentCall = none → s.currentCall ≠ some .lock := by
    intro hc he
    rw [hc] at he
    cases he
  rw [step.eq_def] at hstep
  split at hstep
  case h_1 now got p call hp hcall =>
    have hnot : call ≠ .lock → ∀ reply, callActs i log.era (.resume now got) s reply = [] := by
      intro hne reply
      have hlock : s.lockOf ≠ some (i : Int) := by
        rw [lockOf, if_neg]
        · simp
        · rw [hcall]
          exact fun he => hne (Option.some.inj he)
      cases reply <;> first | rfl | exact if_neg hlock
    cases call with
    | join target handle =>
      exact hquiet hstep ((sound_joinLoop hsound hp (by rw [hcall]; rfl)).2.quiet i) (hnot (by simp) _) (by simp)
    | recv chan =>
      exact hquiet hstep (quiet_chanRecv hsound (by rw [hcall]; simp) i) (hnot (by simp) _) (by simp)
    | lock => exact hout hstep (moves_resumed h hlaw.lateNodup hsound hp hcall)
    | netRecv sock timeout =>
      exact hquiet hstep ((sound_netRecv hsound (by rw [hcall]; rfl)).2.quiet i) (hnot (by simp) _) (by simp)
  case h_2 p hp hcall =>
    exact hquiet hstep ((sound_finish hsound hp (by rw [hcall]; rfl)).2.quiet i) rfl (by simp)
  case h_3 hp => exact hout hstep (moves_pass h hlaw.nodup hsound hp)
  case h_4 addr _ _ =>
    split at hstep
    case isTrue => cases hstep
    case isFalse hfree =>
      refine hquiet hstep (quiet_spawn (fun p hp => ?_) i) rfl (by simp)
      rw [hp, Option.any_some, Option.not_isSome_iff_eq_none] at hfree
      exact hfree
  case h_5 => exact hquiet hstep ((sound_yield hsound).2.quiet i) rfl (by simp)
  case h_6 hcall =>
    exact hquiet hstep ((sound_sleepMs hsound (by rw [hcall]; rfl)).2.quiet i) rfl (by simp)
  case h_7 hcall => exact hquiet hstep ((sound_join hsound (by rw [hcall]; rfl)).2.quiet i) rfl (by simp)
  case h_8 =>
    refine hquiet hstep ?_ rfl (by simp)
    rw [chanCreate]
    split
    · exact .refl i s
    · exact ⟨rfl, fun _ f hf => ⟨f, hf, rfl⟩, fun _ => rfl⟩
  case h_9 hcall => exact hquiet hstep (quiet_chanSend hsound (hidle hcall) i) rfl (by simp)
  case h_10 hcall => exact hquiet hstep (quiet_chanRecv hsound (hidle hcall) i) rfl (by simp)
  case h_11 =>
    refine hquiet hstep ?_ rfl (by simp)
    rw [mutexNew]
    split
    · exact .refl i s
    · refine ⟨?_, fun _ f hf => ⟨f, hf, rfl⟩, fun _ => rfl⟩
      rw [mutexAt, mutexAt, List.getElem?_append]
      split
      · rfl
      · rename_i hge
        rw [List.getElem?_eq_none (Nat.le_of_not_lt hge), List.getElem?_singleton]
        split <;> rfl
  case h_12 id now timeout hcall => exact hout hstep (moves_lock h hsound hcall)
  case h_13 id hcall =>
    refine hout hstep (moves_unlock h hsound fun hid => ?_)
    have hinside := howns i hid
    rw [hlaw.inside_eq] at hinside
    exact of_decide_eq_true hinside
  case h_14 hcall => exact hquiet hstep ((sound_netRecv hsound (by rw [hcall]; rfl)).2.quiet i) rfl (by simp)
  case h_15 =>
    rw [← (Prod.mk.inj (Option.some.inj hstep)).1, ← (Prod.mk.inj (Option.some.inj hstep)).2]
    exact moves_reset h hreset.2
  case h_16 => cases hstep

/-- What a run keeps: the log of every mutex is one that its lock admits. -/
structure Tracked (c : MutexLog × Runtime) : Prop where
  sound : Sound c.2
  locks : ∀ i, ∃ l, HandoffLock.admits (c.1.acts i) {} = some l ∧ Agrees i c.1.era c.2 l

theorem tracked_init : Tracked ({}, {}) where
  sound := sound_init
  locks _ := ⟨{}, rfl, rfl, rfl, rfl, fun hne => absurd rfl hne, nofun, nofun, nofun, nofun, fun _ _ _ hp =>
    hp.elim nofun nofun⟩

theorem lawful_of_admits {acts : List (LockAct Party)} (h : HandoffLock.admits acts {} = some l) :
    Lawful acts l := Lawful.start.run h

theorem tracked_step {e : Event} {c c' : MutexLog × Runtime} (h : Tracked c)
    (hcond : UnlocksOwn e c ∧ Undisturbed e c) (hstep : logged e c = some c') : Tracked c' := by
  obtain ⟨log, s⟩ := c
  obtain ⟨⟨r, s'⟩, hrun, rfl⟩ := Option.map_eq_some_iff.mp hstep
  refine ⟨sound_step h.sound hrun fun he => ?_, fun i => ?_⟩
  · subst he
    exact hcond.2.2
  · obtain ⟨l, hl, hagrees⟩ := h.locks i
    obtain ⟨l', hl', hagrees'⟩ := moves_step hagrees (lawful_of_admits hl) h.sound hrun hcond.1 hcond.2
    exact ⟨l', (HandoffLock.admits_append hl).trans hl', by cases e <;> exact hagrees'⟩

end

/-- The main thread has a mutex, for which a fiber waits; it is handed over, and unlocked. -/
def handoverRun : List Event :=
  [.mutexNew, .spawn (some 0), .lock 0 0 0, .tick, .lock 0 0 5, .unlock 0, .tick, .resume 0 none, .unlock 0]

end Runtime

end Datara.Natvar
