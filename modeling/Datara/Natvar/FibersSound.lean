import Datara.Natvar.FibersKept

/-!
# What every run of the scheduler keeps

A fiber may be lost where an array is full or a cell is shared, but the lists from which the scheduler
takes fibers without looking at them hold each of theirs once, and only fibers in the state that is theirs
(`Sound`). That needs no condition on a run but that a reset finds nobody at a mutex.
-/

namespace Datara.Natvar

open Library
open scoped List

namespace Runtime

/-- The lists whose fibers are taken as they come. -/
def kept (s : Runtime) : Place → List Ptr
  | .join => []
  | .chan => []
  | k => s.listOf k

/-- **The lists hold what is theirs**, the ready list all that is ready, and one fiber runs. -/
structure Sound (s : Runtime) : Prop where
  nodup : ∀ k, (s.kept k).Nodup
  place : ∀ k, ∀ p ∈ s.kept k, s.whereIs p = some k
  ready : ∀ p f, s.heap p = some f → f.state = .ready → p ∈ s.ready
  running : ∀ p, s.running = some p ↔ ∃ f, s.heap p = some f ∧ f.state = .running

variable {g : Fiber → Fiber}

section
variable {s s' t : Runtime} {p q : Ptr} {f f' : Fiber} {k j : Place}

section
variable (h : Sound s)
include h

theorem Sound.not_kept (hp : s.running = some p) (k : Place) : p ∉ s.kept k := by
  intro hk
  obtain ⟨f, hf, hs⟩ := (h.running p).mp hp
  have hplace := h.place k p hk
  rw [whereIs_eq hf, placeOf, hs] at hplace
  cases hplace

theorem Sound.mem_kept (hp : p ∈ s.kept k) : ∃ f, s.heap p = some f ∧ placeOf f = some k :=
  Option.bind_eq_some_iff.mp (h.place k p hp)

theorem Sound.mem_ready (hp : p ∈ s.ready) : ∃ f, s.heap p = some f ∧ f.state = .ready := by
  obtain ⟨f, hf, hplace⟩ := h.mem_kept (k := .ready) hp
  refine ⟨f, hf, ?_⟩
  rw [placeOf] at hplace
  cases hs : f.state <;> rw [hs] at hplace <;> first | rfl | cases hplace

theorem Sound.update (hself : s'.heap p = some f') (hheap : ∀ q, q ≠ p → s'.heap q = s.heap q)
    (hnodup : ∀ k, (s'.kept k).Nodup) (hsub : ∀ k, ∀ q ∈ s'.kept k, q ≠ p → q ∈ s.kept k)
    (hready : ∀ q, q ≠ p → q ∈ s.ready → q ∈ s'.ready) (hplace : ∀ k, p ∈ s'.kept k → placeOf f' = some k)
    (hin : f'.state = .ready → p ∈ s'.ready)
    (hrun : ∀ q, s'.running = some q ↔ q = p ∧ f'.state = .running ∨ q ≠ p ∧ s.running = some q) :
    Sound s' where
  nodup := hnodup
  place k q hq := by
    by_cases hqp : q = p
    · subst hqp
      rw [whereIs_eq hself]
      exact hplace k hq
    · rw [whereIs, hheap q hqp]
      exact h.place k q (hsub k q hq hqp)
  ready q g hg hs := by
    by_cases hqp : q = p
    · subst hqp
      cases hself.symm.trans hg
      exact hin hs
    · exact hready q hqp (h.ready q g ((hheap q hqp).symm.trans hg) hs)
  running q := by
    rw [hrun]
    by_cases hqp : q = p
    · subst hqp
      rw [hself]
      simp
    · rw [hheap q hqp, ← h.running]
      simp [hqp]

/-- What no list or record depends on. -/
theorem Sound.congr (hheap : s'.heap = s.heap) (hrun : s'.running = s.running)
    (hkept : ∀ k, s'.kept k = s.kept k) : Sound s' := by
  refine ⟨fun k => hkept k ▸ h.nodup k, fun k q hq => ?_, fun q g hg hs => ?_, fun q => ?_⟩
  · rw [whereIs, hheap]
    exact h.place k q (hkept k ▸ hq)
  · have := h.ready q g (hheap ▸ hg) hs
    rwa [show s'.ready = s.ready from hkept .ready]
  · rw [hrun, hheap]
    exact h.running q

theorem Sound.lose (hheap : s'.heap = s.heap) (hrun : s'.running = s.running)
    (hready : s'.ready = s.ready) (hkept : ∀ k, s'.kept k <+~ s.kept k) : Sound s' := by
  refine ⟨fun k => ?_, fun k q hq => ?_, fun q g hg hs => ?_, fun q => ?_⟩
  · obtain ⟨l, hl, hsub⟩ := hkept k
    exact hl.nodup_iff.mp (hsub.nodup (h.nodup k))
  · rw [whereIs, hheap]
    exact h.place k q ((hkept k).subset hq)
  · rw [hready]
    exact h.ready q g (hheap ▸ hg) hs
  · rw [hrun, hheap]
    exact h.running q

theorem Sound.park (hp : s.running = some p) (hself : s'.heap p = some f')
    (hheap : ∀ q, q ≠ p → s'.heap q = s.heap q) (hrun : s'.running = none) (hstate : f'.state ≠ .running)
    (hkept : ∀ k, s'.kept k = s.kept k ∨ s'.kept k = s.kept k ++ [p] ∧ placeOf f' = some k)
    (hin : f'.state = .ready → p ∈ s'.ready) : Sound s' := by
  refine h.update hself hheap (fun k => ?_) (fun k q hq hqp => ?_) (fun q _ hq => ?_) (fun k hk => ?_) hin
    fun q => ?_
  · rcases hkept k with he | ⟨he, -⟩
    · exact he ▸ h.nodup k
    · rw [he, List.nodup_append]
      refine ⟨h.nodup k, List.nodup_singleton p, fun q hq r hr he => h.not_kept hp k ?_⟩
      rwa [← List.mem_singleton.mp hr, ← he]
  · rcases hkept k with he | ⟨he, -⟩
    · exact he ▸ hq
    · rw [he] at hq
      exact (List.mem_append.mp hq).resolve_right fun hr => hqp (List.mem_singleton.mp hr)
  · rcases hkept .ready with he | ⟨he, -⟩
    · exact (show s'.ready = s.ready from he) ▸ hq
    · rw [show s'.ready = s.ready ++ [p] from he]
      exact List.mem_append_left _ hq
  · rcases hkept k with he | ⟨-, hplace⟩
    · exact absurd (he ▸ hk) (h.not_kept hp k)
    · exact hplace
  · rw [hrun, hp]
    simp only [reduceCtorEq, hstate, and_false, Option.some.injEq, false_or, false_iff, not_and]
    exact fun hne he => hne he.symm

theorem Sound.touch (hp : s.running = some p) (hself : s'.heap p = some f')
    (hheap : ∀ q, q ≠ p → s'.heap q = s.heap q) (hrun : s'.running = some p) (hstate : f'.state = .running)
    (hkept : ∀ k, s'.kept k = s.kept k) : Sound s' := by
  refine h.update hself hheap (fun k => hkept k ▸ h.nodup k) (fun k q hq _ => hkept k ▸ hq)
    (fun q _ hq => (show s'.ready = s.ready from hkept .ready) ▸ hq)
    (fun k hk => absurd (hkept k ▸ hk) (h.not_kept hp k)) (fun he => ?_) fun q => ?_
  · rw [hstate] at he
    cases he
  · rw [hrun, hp, hstate]
    by_cases hq : q = p
    · simp [hq]
    · simp [hq, Ne.symm hq]

end

theorem kept_wake (hk : k ≠ .ready) : (s.wake g p).kept k = s.kept k := by
  cases k <;> first | rfl | exact absurd rfl hk

/-- A fiber in none of these lists goes to the end of the ready list. -/
theorem Sound.readied (h : Sound s) (hself : s'.heap p = some f') (hstate : f'.state = .ready)
    (hheap : ∀ q, q ≠ p → s'.heap q = s.heap q) (hready : s'.ready = s.ready ++ [p])
    (hkept : ∀ k, k ≠ .ready → s'.kept k = s.kept k) (hrun : s'.running = s.running)
    (hp : s.running ≠ some p) (hnot : ∀ k, p ∉ s.kept k) : Sound s' := by
  have hlast : s'.kept .ready = s.kept .ready ++ [p] := hready
  refine h.update hself hheap (fun k => ?_) (fun k q hq hqp => ?_)
    (fun q _ hq => hready ▸ List.mem_append_left _ hq) (fun k hin => ?_)
    (fun _ => hready ▸ List.mem_append_right _ List.mem_cons_self) fun q => ?_
  · by_cases hk : k = .ready
    · subst hk
      rw [hlast, List.nodup_append]
      refine ⟨h.nodup .ready, List.nodup_singleton p, fun q hq r hr he => hnot .ready ?_⟩
      rwa [← List.mem_singleton.mp hr, ← he]
    · rw [hkept k hk]
      exact h.nodup k
  · by_cases hk : k = .ready
    · subst hk
      rw [hlast] at hq
      exact (List.mem_append.mp hq).resolve_right fun hr => hqp (List.mem_singleton.mp hr)
    · exact hkept k hk ▸ hq
  · by_cases hk : k = .ready
    · rw [hk, placeOf, hstate]
    · exact absurd (hkept k hk ▸ hin) (hnot k)
  · rw [hrun, hstate]
    simp only [reduceCtorEq, and_false, false_or, iff_and_self]
    intro hq he
    exact hp (he ▸ hq)

theorem Sound.wake (h : Sound s) (hf : s.heap p = some f) (hstate : f.state ≠ .running)
    (hnot : ∀ k, p ∉ s.kept k) : Sound (s.wake g p) := by
  have hself : (s.wake g p).heap p = some { g f with state := .ready } := by
    show Function.update s.heap p ((s.heap p).map _) p = _
    rw [Function.update_self, hf]
    rfl
  refine h.readied hself rfl (fun q hq => Function.update_of_ne hq _ _) rfl (fun k => kept_wake) rfl ?_ hnot
  intro hp
  obtain ⟨f₁, hf₁, hs⟩ := (h.running p).mp hp
  cases hf.symm.trans hf₁
  exact hstate hs

theorem Sound.start (h : Sound s) (hnone : s.running = none) (hfrom : s.kept k ~ p :: t.kept k)
    (hj : ∀ j, j ≠ k → t.kept j = s.kept j) (hheap : t.heap = s.heap) : Sound (fiberSwitchTo p t) := by
  obtain ⟨f, hf, hplace⟩ := h.mem_kept (hfrom.mem_iff.mpr List.mem_cons_self)
  have hself : (fiberSwitchTo p t).heap p = some { f with state := .running } := by
    show Function.update t.heap p ((t.heap p).map _) p = _
    rw [Function.update_self, hheap, hf]
    rfl
  have hkept : ∀ j, (fiberSwitchTo p t).kept j = t.kept j := fun j => by cases j <;> rfl
  obtain ⟨hnot, hnodup⟩ := List.nodup_cons.mp (hfrom.nodup_iff.mp (h.nodup k))
  have hout : ∀ j, p ∉ t.kept j := by
    intro j hin
    by_cases hjk : j = k
    · exact hnot (hjk ▸ hin)
    · rw [hj j hjk] at hin
      have hplace' := h.place j p hin
      rw [whereIs_eq hf, hplace] at hplace'
      exact hjk (Option.some.inj hplace').symm
  refine h.update hself (fun q hq => ?_) (fun j => ?_) (fun j q hq _ => ?_) (fun q hqp hq => ?_)
    (fun j hin => absurd (hkept j ▸ hin) (hout j)) nofun fun q => ?_
  · show Function.update t.heap p _ q = _
    rw [Function.update_of_ne hq, hheap]
  · rw [hkept]
    by_cases hjk : j = k
    · exact hjk ▸ hnodup
    · exact hj j hjk ▸ h.nodup j
  · rw [hkept] at hq
    by_cases hjk : j = k
    · subst hjk
      exact hfrom.mem_iff.mpr (List.mem_cons_of_mem p hq)
    · exact hj j hjk ▸ hq
  · show q ∈ t.kept .ready
    by_cases hk : Place.ready = k
    · subst hk
      exact (List.mem_cons.mp (hfrom.mem_iff.mp hq)).resolve_left hqp
    · rw [hj _ hk]
      exact hq
  · show some p = some q ↔ _
    rw [hnone]
    simp [eq_comm]

theorem Sound.wakeAll (ps : List Ptr) (h : Sound s) (hnodup : ps.Nodup)
    (hps : ∀ p ∈ ps, (∃ f, s.heap p = some f ∧ f.state ≠ .running) ∧ ∀ k, p ∉ s.kept k) :
    Sound (wakeAll g ps s) := by
  induction ps generalizing s with
  | nil => exact h
  | cons p ps ih =>
    obtain ⟨hp, hnodup⟩ := List.nodup_cons.mp hnodup
    obtain ⟨⟨f, hf, hstate⟩, hnot⟩ := hps p List.mem_cons_self
    refine ih (h.wake hf hstate hnot) hnodup fun q hq => ?_
    have hqp : q ≠ p := fun he => hp (he ▸ hq)
    obtain ⟨hlive, hout⟩ := hps q (List.mem_cons_of_mem p hq)
    have hheap : (s.wake g p).heap q = s.heap q := Function.update_of_ne hqp _ _
    refine ⟨hheap ▸ hlive, fun k hin => ?_⟩
    by_cases hk : k = .ready
    · subst hk
      rcases List.mem_append.mp hin with hin | hin
      · exact hout .ready hin
      · exact hqp (List.mem_singleton.mp hin)
    · exact hout k (kept_wake hk ▸ hin)

end

/-! ## What concerns neither channels nor mutexes -/

section

/-- A state that is not that of a waiter of a channel or of a mutex. -/
def plainState : FiberState → Bool
  | .waitingChan => false
  | .waitingMutex => false
  | _ => true

/-- A call that is not one on a channel or a mutex. -/
def plainCall : Option Call → Bool
  | some (.recv _) => false
  | some .lock => false
  | _ => true

/-- A fiber's record before and after. -/
structure PlainFiber (f f' : Fiber) : Prop where
  handle : f'.handle = f.handle
  states : plainState f.state ∧ plainState f'.state
  call : f'.call = f.call ∧ f'.waitOn = f.waitOn ∧ f'.wakeResult = f.wakeResult ∨
    plainCall f.call ∧ plainCall f'.call
  goes : plainCall f'.call ∨ f'.state = .ready ∨ f'.state = .running

/-- **What concerns neither channels nor mutexes.** -/
structure Plain (s s' : Runtime) : Prop where
  mutexes : s'.mutexes = s.mutexes
  chans : s'.chans = s.chans
  recvs : s'.waitingChanRecv = s.waitingChanRecv
  sends : s'.waitingChanSend = s.waitingChanSend
  count : s'.waitingChanCount = s.waitingChanCount
  heap : ∀ p, s'.heap p = s.heap p ∨ ∃ f f', s.heap p = some f ∧ s'.heap p = some f' ∧ PlainFiber f f'

variable {s s' t : Runtime} {p q : Ptr} {f f' : Fiber} {k j : Place}

theorem PlainFiber.trans {f₁ f₂ f₃ : Fiber} (h : PlainFiber f₁ f₂) (h' : PlainFiber f₂ f₃) :
    PlainFiber f₁ f₃ where
  handle := h'.handle.trans h.handle
  states := ⟨h.states.1, h'.states.2⟩
  call := by
    rcases h.call with ⟨hc, hw, hr⟩ | ⟨hc, hc'⟩
    · rcases h'.call with ⟨hc₁, hw₁, hr₁⟩ | ⟨hc₁, hc₂⟩
      · exact .inl ⟨hc₁.trans hc, hw₁.trans hw, hr₁.trans hr⟩
      · exact .inr ⟨hc ▸ hc₁, hc₂⟩
    · rcases h'.call with ⟨hc₁, -⟩ | ⟨-, hc₂⟩
      · exact .inr ⟨hc, hc₁ ▸ hc'⟩
      · exact .inr ⟨hc, hc₂⟩
  goes := h'.goes

theorem Plain.refl (s : Runtime) : Plain s s := ⟨rfl, rfl, rfl, rfl, rfl, fun _ => .inl rfl⟩

theorem Plain.trans (h : Plain s t) (h' : Plain t s') : Plain s s' where
  mutexes := h'.mutexes.trans h.mutexes
  chans := h'.chans.trans h.chans
  recvs := h'.recvs.trans h.recvs
  sends := h'.sends.trans h.sends
  count := h'.count.trans h.count
  heap p := by
    rcases h'.heap p with he | ⟨f₁, f₂, hf₁, hf₂, hp'⟩
    · rw [he]
      exact h.heap p
    · rcases h.heap p with he | ⟨f, f₁', hf, hf₁', hp⟩
      · exact .inr ⟨f₁, f₂, he ▸ hf₁, hf₂, hp'⟩
      · cases hf₁.symm.trans hf₁'
        exact .inr ⟨f, f₂, hf, hf₂, hp.trans hp'⟩

theorem Plain.record (hf : s.heap p = some f) (hself : s'.heap p = some f')
    (hheap : ∀ q, q ≠ p → s'.heap q = s.heap q) (hfiber : PlainFiber f f') (hmutexes : s'.mutexes = s.mutexes)
    (hchans : s'.chans = s.chans) (hrecvs : s'.waitingChanRecv = s.waitingChanRecv)
    (hsends : s'.waitingChanSend = s.waitingChanSend) (hcount : s'.waitingChanCount = s.waitingChanCount) :
    Plain s s' := by
  refine ⟨hmutexes, hchans, hrecvs, hsends, hcount, fun q => ?_⟩
  by_cases hq : q = p
  · subst hq
    exact .inr ⟨f, f', hf, hself, hfiber⟩
  · exact .inl (hheap q hq)

theorem setFiber_self (hf : s.heap p = some f) : (s.setFiber p g).heap p = some (g f) := by
  rw [setFiber, hf]
  exact Function.update_self _ _ _

theorem setFiber_other (hq : q ≠ p) : (s.setFiber p g).heap q = s.heap q :=
  Function.update_of_ne hq _ _

end

end Runtime

end Datara.Natvar
