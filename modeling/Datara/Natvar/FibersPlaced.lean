import Datara.Natvar.Fibers

/-!
# Every fiber in one place

The list a fiber's state names (`placeOf`), what the lists hold, and the invariant of a run
(`Inv`): a fiber that is neither done nor running is once in the list of its state and in no other. What
happens to one fiber at a time keeps it (`Inv.park`, `Inv.woken`, `Inv.started`, `Inv.touched`).
-/

namespace Datara.Natvar

open Library
open scoped List

/-- A list of the scheduler. -/
inductive Place
  | ready
  | sleeping
  | join
  | chan
  | io
  | mutex (i : Nat)
  deriving DecidableEq

/-- The list a fiber's state names. -/
def placeOf (f : Fiber) : Option Place :=
  match f.state with
  | .ready => some .ready
  | .running => none
  | .done => none
  | .sleeping => some .sleeping
  | .waitingJoin => some .join
  | .waitingChan => some .chan
  | .waitingIo => some .io
  | .waitingMutex => some (.mutex f.waitOn.toNat)

namespace Runtime

/-- The cells of the two arrays of channel waiters, below their count. -/
def chanCells (s : Runtime) : List Ptr :=
  Library.cells s.waitingChanRecv s.waitingChanCount ++ Library.cells s.waitingChanSend s.waitingChanCount

/-- What a list holds. -/
def listOf (s : Runtime) : Place → List Ptr
  | .ready => s.ready
  | .sleeping => s.sleeping
  | .join => s.waitingJoin
  | .chan => s.chanCells
  | .io => s.ioWaiters
  | .mutex i => ((s.mutexes[i]?).map (·.waiters)).getD []

/-- The list a fiber is in. -/
def whereIs (s : Runtime) (p : Ptr) : Option Place := (s.heap p).bind placeOf

/-- What the lists hold of fibers that are not done: a cell of a channel's waiters may still point to one
that is. -/
def entries (s : Runtime) : Place → List Ptr
  | .chan => s.chanCells.filter fun p => !s.isDone p
  | k => s.listOf k

/-- No fiber waits to join one that is done. -/
def JoinsOpen (s : Runtime) : Prop :=
  ∀ p f, s.heap p = some f → f.state = .waitingJoin →
    ∀ q, s.fiberByHandle f.waitOn = some q → s.isDone q = false

/-- **Every fiber is where its state says**, and no list holds a freed one. -/
structure Kept (s : Runtime) : Prop where
  once : ∀ p f, s.heap p = some f → f.state ≠ .done → s.running ≠ some p →
    ∃ k, placeOf f = some k ∧ ∀ j, (s.listOf j).count p = if j = k then 1 else 0
  live : ∀ j, ∀ p ∈ s.listOf j, (s.heap p).isSome

/-- The invariant of a run. -/
structure Inv (s : Runtime) : Prop where
  placed : Placed s.entries s.whereIs
  cells : ∀ p ∈ s.chanCells, (s.heap p).isSome
  table : ∀ p ∈ s.fibers, (s.heap p).isSome
  running : ∀ p, s.running = some p ↔ ∃ f, s.heap p = some f ∧ f.state = .running
  joins : s.JoinsOpen

section
variable {s s' : Runtime} {p q : Ptr} {f f' : Fiber} {k : Place}

theorem whereIs_eq (h : s.heap p = some f) : s.whereIs p = placeOf f := by
  rw [whereIs, h]
  rfl

theorem isDone_eq (h : s.heap p = some f) : s.isDone p = decide (f.state = .done) := by
  rw [isDone, h]
  rfl

theorem mem_entries_chan : p ∈ s.entries .chan ↔ p ∈ s.chanCells ∧ s.isDone p = false := by
  show p ∈ List.filter _ _ ↔ _
  rw [List.mem_filter, Bool.not_eq_true']

theorem Inv.kept (h : Inv s) : Kept s where
  once p f hf hdone hrun := by
    have hplace : ∃ k, placeOf f = some k := by
      rw [placeOf]
      cases hs : f.state with
      | running => exact absurd ((h.running p).mpr ⟨f, hf, hs⟩) hrun
      | done => exact absurd hs hdone
      | _ => exact ⟨_, rfl⟩
    obtain ⟨k, hk⟩ := hplace
    refine ⟨k, hk, fun j => ?_⟩
    have hcount := h.placed.count j p
    rw [whereIs_eq hf, hk] at hcount
    have hlist : (s.listOf j).count p = (s.entries j).count p := by
      cases j with
      | chan =>
        have hnot : s.isDone p = false := by
          rw [isDone_eq hf]
          exact decide_eq_false hdone
        exact (List.count_filter (by rw [hnot]; rfl)).symm
      | _ => rfl
    rw [hlist, hcount]
    simp only [Option.some.injEq, eq_comm]
  live j p hp := by
    have hwhere : p ∈ s.entries j → (s.heap p).isSome := by
      intro hp
      have := h.placed.mem_iff.mp hp
      rw [whereIs] at this
      obtain ⟨f, hf, -⟩ := Option.bind_eq_some_iff.mp this
      rw [hf]
      rfl
    cases j with
    | chan => exact h.cells p hp
    | _ => exact hwhere hp

/-- A fiber that runs is in no list. -/
theorem Inv.whereIs_running (h : Inv s) (hp : s.running = some p) :
    ∃ f, s.heap p = some f ∧ f.state = .running ∧ s.whereIs p = none := by
  obtain ⟨f, hf, hs⟩ := (h.running p).mp hp
  refine ⟨f, hf, hs, ?_⟩
  rw [whereIs_eq hf, placeOf, hs]

theorem Inv.not_mem_cells (h : Inv s) (hf : s.heap p = some f) (hdone : f.state ≠ .done)
    (hplace : placeOf f ≠ some .chan) : p ∉ s.chanCells := by
  intro hp
  have hnot : s.isDone p = false := by
    rw [isDone_eq hf]
    exact decide_eq_false hdone
  have := h.placed.mem_iff.mp (mem_entries_chan.mpr ⟨hp, hnot⟩)
  exact hplace ((whereIs_eq hf).symm.trans this)

end

/-! ## One fiber's record -/

/-- One fiber's record is changed. -/
structure Updated (s s' : Runtime) (p : Ptr) (f f' : Fiber) : Prop where
  old : s.heap p = some f
  heap : s'.heap = Function.update s.heap p (some f')
  fibers : s'.fibers = s.fibers
  handle : f'.handle = f.handle

section
variable {s s' : Runtime} {p q : Ptr} {f f' : Fiber} {k j : Place}

/-- A state with the records of `setFiber`. -/
theorem updated (g : Fiber → Fiber) (hf : s.heap p = some f) (hheap : s'.heap = (s.setFiber p g).heap)
    (hfibers : s'.fibers = s.fibers) (hg : (g f).handle = f.handle) : Updated s s' p f (g f) where
  old := hf
  heap := by
    rw [hheap, setFiber, hf]
    rfl
  fibers := hfibers
  handle := hg

section
variable (u : Updated s s' p f f')
include u

theorem Updated.self : s'.heap p = some f' := by
  rw [u.heap, Function.update_self]

theorem Updated.other (hq : q ≠ p) : s'.heap q = s.heap q := by
  rw [u.heap, Function.update_of_ne hq]

theorem Updated.isSome : (s'.heap q).isSome = (s.heap q).isSome := by
  by_cases hq : q = p
  · subst hq
    rw [u.self, u.old]
    rfl
  · rw [u.other hq]

theorem Updated.fiberByHandle (h : Int) : s'.fiberByHandle h = s.fiberByHandle h := by
  rw [Runtime.fiberByHandle, Runtime.fiberByHandle, u.fibers]
  congr 1
  ext q
  by_cases hq : q = p
  · subst hq
    rw [u.self, u.old, Option.any_some, Option.any_some, u.handle]
  · rw [u.other hq]

theorem Updated.whereIs_self : s'.whereIs p = placeOf f' := whereIs_eq u.self

theorem Updated.whereIs_other (hq : q ≠ p) : s'.whereIs q = s.whereIs q := by
  rw [whereIs, whereIs, u.other hq]

theorem Updated.isDone_other (hq : q ≠ p) : s'.isDone q = s.isDone q := by
  rw [isDone, isDone, u.other hq]

theorem Updated.filter_done (hdone : f'.state = .done ↔ f.state = .done)
    (l : List Ptr) : l.filter (fun q => !s'.isDone q) = l.filter (fun q => !s.isDone q) := by
  apply List.filter_congr
  intro q _
  by_cases hq : q = p
  · subst hq
    rw [isDone_eq u.self, isDone_eq u.old]
    simp [hdone]
  · rw [u.isDone_other hq]

theorem Updated.entries_eq (hdone : f'.state = .done ↔ f.state = .done)
    (hj : s'.listOf j = s.listOf j) : s'.entries j = s.entries j := by
  cases j with
  | chan =>
    show (s'.listOf .chan).filter _ = (s.listOf .chan).filter _
    rw [hj]
    exact u.filter_done hdone _
  | _ => exact hj

end

section
variable (h : Inv s)
include h

/-- **The invariant after one record is changed.** -/
theorem Inv.update (u : Updated s s' p f f') (hplaced : Placed s'.entries s'.whereIs)
    (hcells : ∀ q ∈ s'.chanCells, (s.heap q).isSome)
    (hrun : ∀ q, s'.running = some q ↔ q = p ∧ f'.state = .running ∨ q ≠ p ∧ s.running = some q)
    (hjoin : f'.state = .waitingJoin → f.state = .waitingJoin ∧ f.waitOn = f'.waitOn ∨
      ∀ q, s.fiberByHandle f'.waitOn = some q → s.isDone q = false)
    (hdone : f'.state = .done → f.state = .done ∨ ∀ q g, s.heap q = some g → g.state = .waitingJoin →
      s.fiberByHandle g.waitOn ≠ some p) : Inv s' where
  placed := hplaced
  cells q hq := u.isSome.trans (hcells q hq)
  table q hq := u.isSome.trans (h.table q (u.fibers ▸ hq))
  running q := by
    rw [hrun]
    by_cases hq : q = p
    · subst hq
      rw [u.self]
      simp
    · rw [u.other hq, ← h.running]
      simp [hq]
  joins q g hg hs t ht := by
    rw [u.fiberByHandle] at ht
    have hclosed : s.isDone t = false := by
      by_cases hq : q = p
      · subst hq
        cases u.self.symm.trans hg
        rcases hjoin hs with ⟨hold, hwait⟩ | hopen
        · exact h.joins q f u.old hold t (hwait.symm ▸ ht)
        · exact hopen t ht
      · exact h.joins q g ((u.other hq).symm.trans hg) hs t ht
    by_cases htp : t = p
    · subst htp
      rw [isDone_eq u.self]
      apply decide_eq_false
      intro hd
      rcases hdone hd with hold | hnone
      · rw [isDone_eq u.old, hold] at hclosed
        cases hclosed
      · by_cases hq : q = t
        · subst hq
          cases u.self.symm.trans hg
          rw [hd] at hs
          cases hs
        · exact hnone q g ((u.other hq).symm.trans hg) hs ht
    · rw [u.isDone_other htp]
      exact hclosed

theorem Inv.park (u : Updated s s' p f f') (hp : s.running = some p)
    (hplace : placeOf f' = some k) (hrun : s'.running = none) (hk : (s'.entries k).Perm (p :: s.entries k))
    (hj : ∀ j, j ≠ k → s'.entries j = s.entries j) (hcells : ∀ q ∈ s'.chanCells, (s.heap q).isSome)
    (hjoin : f'.state = .waitingJoin → ∀ q, s.fiberByHandle f'.waitOn = some q → s.isDone q = false) :
    Inv s' := by
  obtain ⟨g, hg, hs, hwhere⟩ := h.whereIs_running hp
  have hstate : f'.state ≠ .running ∧ f'.state ≠ .done := by
    constructor <;>
      · intro he
        rw [placeOf, he] at hplace
        cases hplace
  refine h.update u ?_ hcells (fun q => ?_) (fun he => .inr (hjoin he)) (fun he => absurd he hstate.2)
  · exact h.placed.insert hwhere hk (fun j hne => hj j hne ▸ .refl _) (u.whereIs_self.trans hplace)
      fun b hb => u.whereIs_other hb
  · rw [hrun, hp]
    simp only [reduceCtorEq, hstate.1, and_false, Option.some.injEq, false_or, false_iff, not_and]
    exact fun hne he => hne he.symm

theorem Inv.woken (u : Updated s s' p f f') (hk : k ≠ .ready) (hready : f'.state = .ready)
    (hrun : s'.running = s.running) (hfrom : (s.entries k).Perm (p :: s'.entries k))
    (hto : (s'.entries .ready).Perm (p :: s.entries .ready))
    (hj : ∀ j, j ≠ .ready → j ≠ k → s'.entries j = s.entries j)
    (hcells : ∀ q ∈ s'.chanCells, (s.heap q).isSome) : Inv s' := by
  have hwhere : s.whereIs p = some k := h.placed.mem_iff.mp (hfrom.mem_iff.mpr List.mem_cons_self)
  have hold : s.running ≠ some p := by
    intro hp
    obtain ⟨g, -, -, hnone⟩ := h.whereIs_running hp
    rw [hwhere] at hnone
    cases hnone
  have hplace : placeOf f' = some .ready := by rw [placeOf, hready]
  refine h.update u ?_ hcells (fun q => ?_) (fun he => ?_) fun he => ?_
  · exact h.placed.move hk hfrom hto (fun j h₁ h₂ => hj j h₁ h₂ ▸ .refl _) (u.whereIs_self.trans hplace)
      fun b hb => u.whereIs_other hb
  · rw [hrun, hready]
    simp only [reduceCtorEq, and_false, false_or, iff_and_self]
    rintro hq rfl
    exact hold hq
  · rw [hready] at he
    cases he
  · rw [hready] at he
    cases he

theorem Inv.started (u : Updated s s' p f f') (hnone : s.running = none)
    (hrunning : f'.state = .running) (hrun : s'.running = some p)
    (hfrom : (s.entries k).Perm (p :: s'.entries k))
    (hj : ∀ j, j ≠ k → s'.entries j = s.entries j) (hcells : ∀ q ∈ s'.chanCells, (s.heap q).isSome) :
    Inv s' := by
  have hplace : placeOf f' = none := by rw [placeOf, hrunning]
  refine h.update u ?_ hcells (fun q => ?_) (fun he => ?_) fun he => ?_
  · exact h.placed.remove hfrom (fun j hne => hj j hne ▸ .refl _) (u.whereIs_self.trans hplace)
      fun b hb => u.whereIs_other hb
  · rw [hrun, hnone, hrunning]
    simp [eq_comm]
  · rw [hrunning] at he
    cases he
  · rw [hrunning] at he
    cases he

theorem Inv.touched (u : Updated s s' p f f') (hstate : f'.state = f.state)
    (hwait : f'.waitOn = f.waitOn) (hrun : s'.running = s.running)
    (hj : ∀ j, s'.listOf j = s.listOf j) : Inv s' := by
  have hplace : placeOf f' = placeOf f := by rw [placeOf, placeOf, hstate, hwait]
  have hcells : s'.chanCells = s.chanCells := hj .chan
  refine h.update u ?_ (fun q hq => h.cells q (hcells ▸ hq)) (fun q => ?_) (fun he => .inl ?_)
    fun he => .inl (hstate ▸ he)
  · refine h.placed.congr (fun k => ?_) fun q => ?_
    · rw [u.entries_eq (by rw [hstate]) (hj k)]
    · by_cases hq : q = p
      · subst hq
        rw [u.whereIs_self, hplace, whereIs_eq u.old]
      · exact u.whereIs_other hq
  · rw [hrun, hstate]
    by_cases hq : q = p
    · subst hq
      rw [h.running, u.old]
      simp
    · simp [hq]
  · exact ⟨hstate ▸ he, hwait.symm⟩

theorem Inv.congr (hheap : s'.heap = s.heap) (hfibers : s'.fibers = s.fibers)
    (hrun : s'.running = s.running) (hj : ∀ j, s'.listOf j = s.listOf j) : Inv s' := by
  have hcells : s'.chanCells = s.chanCells := hj .chan
  have hdone : ∀ q, s'.isDone q = s.isDone q := fun q => by rw [isDone, isDone, hheap]
  have hwhere : ∀ q, s'.whereIs q = s.whereIs q := fun q => by rw [whereIs, whereIs, hheap]
  have hentries : ∀ j, s'.entries j = s.entries j := by
    intro j
    have hlist := hj j
    cases j with
    | chan =>
      show (s'.listOf .chan).filter _ = (s.listOf .chan).filter _
      rw [hlist]
      exact List.filter_congr fun q _ => by rw [hdone]
    | _ => exact hlist
  refine ⟨h.placed.congr (fun k => hentries k ▸ .refl _) hwhere, ?_, ?_, ?_, ?_⟩
  · rw [hcells, hheap]
    exact h.cells
  · rw [hfibers, hheap]
    exact h.table
  · rw [hrun, hheap]
    exact h.running
  · intro q g hg hs t ht
    rw [hdone]
    rw [Runtime.fiberByHandle, hfibers, hheap] at ht
    exact h.joins q g (hheap ▸ hg) hs t ht

theorem Inv.parkEnd (u : Updated s s' p f f') (hp : s.running = some p)
    (hplace : placeOf f' = some k) (hrun : s'.running = none) (hchan : k ≠ .chan)
    (hk : s'.listOf k = s.listOf k ++ [p]) (hj : ∀ j, j ≠ k → s'.listOf j = s.listOf j)
    (hjoin : f'.state = .waitingJoin → ∀ q, s.fiberByHandle f'.waitOn = some q → s.isDone q = false) :
    Inv s' := by
  obtain ⟨g, hg, hs, -⟩ := h.whereIs_running hp
  cases u.old.symm.trans hg
  have hdone : f'.state = .done ↔ f.state = .done := by
    rw [hs]
    simp only [reduceCtorEq, iff_false]
    intro he
    rw [placeOf, he] at hplace
    cases hplace
  have hcells : s'.chanCells = s.chanCells := hj .chan (Ne.symm hchan)
  refine h.park u hp hplace hrun ?_ (fun j hne => u.entries_eq hdone (hj j hne))
    (fun q hq => h.cells q (hcells ▸ hq)) hjoin
  have hlist : s'.entries k = s'.listOf k ∧ s.entries k = s.listOf k := by
    cases k with
    | chan => exact absurd rfl hchan
    | _ => exact ⟨rfl, rfl⟩
  rw [hlist.1, hlist.2, hk]
  exact List.perm_append_singleton p _

end

end

end Runtime

end Datara.Natvar
