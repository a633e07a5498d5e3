import Datara.Natvar.MtFibers
import Mathlib.Data.List.Perm.Subperm
import Mathlib.Data.List.Nodup

/-!
# Joins tell the truth

A fiber is at one place at a time: with the thread that spawns it, in the global queue, with a worker, or
recorded (`MtState.holds`). In a run whose increments of `g_mt_spawned` do not overlap, in which no fiber is
recorded between a join's scan for it and the join's look at the counter, and in which the global queue is empty
when it is initialised, joins tell the truth (`joins_truthful`). A fiber that finishes in that window is
reported as never spawned (`joins_not_truthful`).
-/

namespace Datara.Natvar

open Library
open List (append_nil filterMap_append mem_append mem_append_left mem_singleton nodup_nil)
open Function (update_of_ne update_self)

/-- Where a fiber is. -/
inductive MtPlace (Tid : Type)
  | spawner (th : Tid)
  | queue
  | got (w : Tid)
  | running (w : Tid)
  | recording (w : Tid)
  | recorded

/-- The body has been called. -/
def MtPlace.Started {Tid : Type} : MtPlace Tid → Prop
  | .running _ => True
  | .recording _ => True
  | .recorded => True
  | _ => False

/-- The body has returned. -/
def MtPlace.Ended {Tid : Type} : MtPlace Tid → Prop
  | .recording _ => True
  | .recorded => True
  | _ => False

namespace MtState

variable {Tid : Type} {s s' t : MtState Tid} {th : Tid} {f : MtFiber}

/-- The fiber is at the place. -/
def holds (s : MtState Tid) : MtPlace Tid → MtFiber → Prop
  | .spawner th, f => s.calls th = .spawnPush f
  | .queue, f => f ∈ s.globalQ
  | .got w, f => ∃ wid, s.roles w = .got wid f
  | .running w, f => ∃ wid, s.roles w = .running wid f
  | .recording w, f => ∃ wid, s.roles w = .recording wid f
  | .recorded, f => .recorded f ∈ s.history

/-- The fibers that got a handle, in that order. -/
def given (s : MtState Tid) : List MtFiber := s.history.filterMap MtAct.spawnedFiber

def registry (s : MtState Tid) : List Int := s.doneHandles.getD []

/-- What the queues, the registry and the history have to do with each other. -/
structure Books (s : MtState Tid) : Prop where
  spawned : s.spawned = s.given.length
  handles : ∀ (k : Nat) f, s.given[k]? = some f → f.handle = k + 1
  exclusive : Exclusive s.holds
  given : ∀ f, f ∈ s.given ↔ ∃ p, s.holds p f
  ran : ∀ f, .ran f ∈ s.history ↔ ∃ p, p.Started ∧ s.holds p f
  finished : ∀ f, .finished f ∈ s.history ↔ ∃ p, p.Ended ∧ s.holds p f
  queue : s.globalQ.Nodup
  workerQ : ∀ i, s.workerQ i = []
  once : (s.history.filterMap MtAct.ranFiber).Nodup
  distinct : s.registry.Nodup
  registry : ∀ h ∈ s.registry, ∃ f, .recorded f ∈ s.history ∧ f.handle = h

/-- What a thread in a call may rely on. -/
def CallOk (s : MtState Tid) : MtCall → Prop
  | .joinCount handle => handle ∉ s.registry
  | .joinCompare handle doneCount =>
    doneCount ≤ s.spawned ∧ (s.spawned ≤ doneCount → ∀ f ∈ s.given, f.handle ≠ handle)
  | .joinAny handle => ∀ f ∈ s.given, f.handle ≠ handle
  | .idleAny done => done ≤ s.spawned ∧ (s.spawned ≤ done → ∀ f ∈ s.given, .finished f ∈ s.history)
  | .idleCompare done => done ≤ s.spawned ∧ (s.spawned ≤ done → ∀ f ∈ s.given, .finished f ∈ s.history)
  | _ => True

structure Inv (s : MtState Tid) : Prop where
  books : Books s
  calls : ∀ th, s.CallOk (s.calls th)
  truthful : Justified MtAct.Truthful s.history

/-! ## What the books say -/

attribute [local simp] CallOk

theorem mem_given : f ∈ s.given ↔ .spawned f ∈ s.history := by
  rw [given, List.mem_filterMap]
  constructor
  · rintro ⟨a, ha, he⟩
    cases a <;> cases he
    exact ha
  · exact fun h => ⟨_, h, rfl⟩

variable {g : MtFiber}

section
variable (h : Books s)
include h

theorem Books.handle_inj (hf : f ∈ s.given) (hg : g ∈ s.given)
    (he : f.handle = g.handle) : f = g := by
  obtain ⟨j, hj⟩ := List.mem_iff_getElem?.mp hf
  obtain ⟨k, hk⟩ := List.mem_iff_getElem?.mp hg
  have hjk : j = k := by
    have := h.handles j f hj
    have := h.handles k g hk
    omega
  subst hjk
  exact Option.some.inj (hj.symm.trans hk)

theorem Books.nodup_handles : (s.given.map MtFiber.handle).Nodup := by
  refine List.pairwise_iff_getElem.mpr fun j k hj hk hjk he => ?_
  rw [List.length_map] at hj hk
  rw [List.getElem_map, List.getElem_map] at he
  have := h.handles j _ (List.getElem?_eq_getElem hj)
  have := h.handles k _ (List.getElem?_eq_getElem hk)
  omega

theorem Books.subperm : s.registry.Subperm (s.given.map MtFiber.handle) := by
  refine List.subperm_of_subset h.distinct fun x hx => ?_
  obtain ⟨f, hf, rfl⟩ := h.registry x hx
  exact List.mem_map_of_mem ((h.given f).mpr ⟨.recorded, hf⟩)

theorem Books.doneCount_le : s.doneCount ≤ s.spawned := by
  have := h.subperm.length_le
  rw [List.length_map] at this
  rw [h.spawned]
  exact Int.ofNat_le.mpr this

theorem Books.full (hle : s.spawned ≤ s.doneCount) (hf : f ∈ s.given) : f.handle ∈ s.registry := by
  have hlen : (s.given.map MtFiber.handle).length ≤ s.registry.length := by
    rw [List.length_map]
    rw [h.spawned] at hle
    exact Int.ofNat_le.mp hle
  exact (h.subperm.perm_of_length_le hlen).mem_iff.mpr (List.mem_map_of_mem hf)

theorem Books.recorded (hf : f ∈ s.given) (hmem : f.handle ∈ s.registry) :
    .recorded f ∈ s.history := by
  obtain ⟨g, hg, he⟩ := h.registry _ hmem
  obtain rfl := h.handle_inj ((h.given g).mpr ⟨.recorded, hg⟩) hf he
  exact hg

theorem Books.ended (hf : .recorded f ∈ s.history) : .finished f ∈ s.history :=
  (h.finished f).mpr ⟨.recorded, trivial, hf⟩

end

/-! ## Steps that move no fiber -/

/-- The books are the same. -/
structure SameBooks (s s' : MtState Tid) : Prop where
  spawned : s'.spawned = s.spawned
  globalQ : s'.globalQ = s.globalQ
  workerQ : s'.workerQ = s.workerQ
  registry : s'.registry = s.registry ∨ s'.registry = []
  holds : s'.holds = s.holds
  history : s'.history = s.history ∨
    ∃ a, s'.history = s.history ++ [a] ∧ a.spawnedFiber = none ∧ a.ranFiber = none ∧ ∀ f, a ≠ .finished f

theorem SameBooks.given (h : SameBooks s s') : s'.given = s.given := by
  obtain he | ⟨a, he, ha, -, -⟩ := h.history
  · rw [MtState.given, he]
    rfl
  · rw [MtState.given, he, filterMap_append, List.filterMap_cons_none ha, List.filterMap_nil, append_nil]
    rfl

theorem SameBooks.ran (h : SameBooks s s') :
    s'.history.filterMap MtAct.ranFiber = s.history.filterMap MtAct.ranFiber := by
  obtain he | ⟨a, he, -, ha, -⟩ := h.history
  · rw [he]
  · rw [he, filterMap_append, List.filterMap_cons_none ha, List.filterMap_nil, append_nil]

theorem SameBooks.mem (h : SameBooks s s') {a : MtAct} (ha : a ∈ s.history) : a ∈ s'.history := by
  obtain he | ⟨b, he, -⟩ := h.history
  · rwa [he]
  · rw [he]
    exact mem_append_left _ ha

theorem SameBooks.finished (h : SameBooks s s') : .finished f ∈ s'.history ↔ .finished f ∈ s.history := by
  refine ⟨fun hf => ?_, h.mem⟩
  obtain he | ⟨a, he, -, -, ha⟩ := h.history
  · rwa [he] at hf
  · rw [he] at hf
    obtain hf | hf := mem_append.mp hf
    · exact hf
    · exact absurd (mem_singleton.mp hf).symm (ha f)

theorem mem_ran {history : List MtAct} : .ran f ∈ history ↔ f ∈ history.filterMap MtAct.ranFiber := by
  rw [List.mem_filterMap]
  constructor
  · exact fun h => ⟨_, h, rfl⟩
  · rintro ⟨a, ha, he⟩
    cases a <;> cases he
    exact ha

theorem Books.same (h : Books s) (hsame : SameBooks s s') : Books s' where
  spawned := by rw [hsame.spawned, hsame.given, h.spawned]
  handles := by
    rw [hsame.given]
    exact h.handles
  exclusive := by
    rw [hsame.holds]
    exact h.exclusive
  given := by
    rw [hsame.given, hsame.holds]
    exact h.given
  ran f := by
    rw [mem_ran, hsame.ran, ← mem_ran, hsame.holds]
    exact h.ran f
  finished f := by
    rw [hsame.finished, hsame.holds]
    exact h.finished f
  queue := by
    rw [hsame.globalQ]
    exact h.queue
  workerQ := by
    rw [hsame.workerQ]
    exact h.workerQ
  once := by
    rw [hsame.ran]
    exact h.once
  distinct := by
    obtain he | he := hsame.registry
    · rw [he]
      exact h.distinct
    · rw [he]
      exact nodup_nil
  registry x hx := by
    obtain he | he := hsame.registry
    · rw [he] at hx
      obtain ⟨f, hf, hx⟩ := h.registry x hx
      exact ⟨f, hsame.mem hf, hx⟩
    · rw [he] at hx
      cases hx

variable {c : MtCall}

/-- What a thread relies on, when fibers only finish and are recorded. -/
theorem CallOk.mono (h : s.CallOk c) (hspawned : s'.spawned = s.spawned) (hgiven : s'.given = s.given)
    (hregistry : ∀ x ∈ s'.registry, x ∈ s.registry ∨ c ≠ .joinCount x)
    (hfinished : ∀ f, .finished f ∈ s.history → .finished f ∈ s'.history) : s'.CallOk c := by
  cases c with
  | joinCount x => exact fun hx => (hregistry x hx).elim h fun hne => hne rfl
  | joinCompare x n =>
    rw [CallOk, hspawned, hgiven]
    exact h
  | joinAny x =>
    rw [CallOk, hgiven]
    exact h
  | idleAny n =>
    rw [CallOk, hspawned, hgiven]
    exact ⟨h.1, fun hle f hf => hfinished f (h.2 hle f hf)⟩
  | idleCompare n =>
    rw [CallOk, hspawned, hgiven]
    exact ⟨h.1, fun hle f hf => hfinished f (h.2 hle f hf)⟩
  | _ => trivial

theorem CallOk.same (h : s.CallOk c) (hsame : SameBooks s s') : s'.CallOk c := by
  refine h.mono hsame.spawned hsame.given (fun x hx => ?_) fun f => hsame.mem
  obtain he | he := hsame.registry
  · rw [he] at hx
    exact .inl hx
  · rw [he] at hx
    cases hx

variable [DecidableEq Tid]

theorem Inv.goto (h : Inv s) (hold : ∀ f, s.calls th ≠ .spawnPush f) (hnew : ∀ f, c ≠ .spawnPush f)
    (hok : s.CallOk c) : Inv (s.goto th c) := by
  have hsame : SameBooks s (s.goto th c) := by
    refine ⟨rfl, rfl, rfl, .inl rfl, ?_, .inl rfl⟩
    funext p f
    cases p with
    | spawner u =>
      show (Function.update s.calls th c u = .spawnPush f) = (s.calls u = .spawnPush f)
      by_cases hu : u = th
      · subst hu
        rw [update_self]
        exact propext ⟨fun he => absurd he (hnew f), fun he => absurd he (hold f)⟩
      · rw [update_of_ne hu]
    | _ => rfl
  refine ⟨h.books.same hsame, fun u => ?_, h.truthful⟩
  show CallOk _ (Function.update s.calls th c u)
  by_cases hu : u = th
  · subst hu
    rw [update_self]
    exact hok.same hsame
  · rw [update_of_ne hu]
    exact (h.calls u).same hsame

theorem Inv.done {a : MtAct} (h : Inv s) (hold : ∀ f, s.calls th ≠ .spawnPush f) (ha : a.Truthful s.history)
    (hquiet : a.spawnedFiber = none ∧ a.ranFiber = none ∧ ∀ f, a ≠ .finished f ∧ a ≠ .recorded f) :
    Inv (s.done th a) := by
  have hgo := h.goto (c := .none) hold nofun trivial
  have hsame : SameBooks (s.goto th .none) (s.done th a) := by
    refine ⟨rfl, rfl, rfl, .inl rfl, ?_, .inr ⟨a, rfl, hquiet.1, hquiet.2.1, fun f => (hquiet.2.2 f).1⟩⟩
    funext p f
    cases p with
    | recorded =>
      show (MtAct.recorded f ∈ s.history ++ [a]) = (.recorded f ∈ s.history)
      rw [mem_append, mem_singleton]
      exact propext (or_iff_left fun he => (hquiet.2.2 f).2 he.symm)
    | _ => rfl
  exact ⟨hgo.books.same hsame, fun u => (hgo.calls u).same hsame, h.truthful.snoc ha⟩

variable {w : MtWorker}

theorem Inv.role (h : Inv s)
    (hold : ∀ wid f, s.roles th ≠ .got wid f ∧ s.roles th ≠ .running wid f ∧ s.roles th ≠ .recording wid f)
    (hnew : ∀ wid f, w ≠ .got wid f ∧ w ≠ .running wid f ∧ w ≠ .recording wid f) : Inv (s.role th w) := by
  have hrole : ∀ (g : Nat → MtFiber → MtWorker) f u, (∀ wid, s.roles th ≠ g wid f) → (∀ wid, w ≠ g wid f) →
      (∃ wid, Function.update s.roles th w u = g wid f) = ∃ wid, s.roles u = g wid f := by
    intro g f u hold hnew
    by_cases hu : u = th
    · subst hu
      rw [update_self]
      exact propext ⟨fun ⟨wid, he⟩ => absurd he (hnew wid), fun ⟨wid, he⟩ => absurd he (hold wid)⟩
    · rw [update_of_ne hu]
  have hsame : SameBooks s (s.role th w) := by
    refine ⟨rfl, rfl, rfl, .inl rfl, ?_, .inl rfl⟩
    funext p f
    cases p with
    | got u => exact hrole .got f u (fun wid => (hold wid f).1) fun wid => (hnew wid f).1
    | running u => exact hrole .running f u (fun wid => (hold wid f).2.1) fun wid => (hnew wid f).2.1
    | recording u => exact hrole .recording f u (fun wid => (hold wid f).2.2) fun wid => (hnew wid f).2.2
    | _ => rfl
  exact ⟨h.books.same hsame, fun u => (h.calls u).same hsame, h.truthful⟩

omit [DecidableEq Tid] in
/-- The flags may be set, and the registry may be made anew. -/
theorem Inv.flags {b : Bool} {n : Nat} {l : Option (List Int)} (h : Inv s) (hl : l = s.doneHandles ∨ l.getD [] = []) :
    Inv { s with shutdown := b, workers := n, doneHandles := l } := by
  have hsame : SameBooks s { s with shutdown := b, workers := n, doneHandles := l } :=
    ⟨rfl, rfl, rfl, hl.imp (congrArg (Option.getD · [])) id, rfl, .inl rfl⟩
  exact ⟨h.books.same hsame, fun u => (h.calls u).same hsame, h.truthful⟩

/-! ## Steps that move a fiber -/

omit [DecidableEq Tid] in
theorem Books.moves {p q : MtPlace Tid} (h : Books s) (hm : Moves s.holds s'.holds f p q)
    (hspawned : s'.spawned = s.spawned) (hgiven : s'.given = s.given) (hqueue : s'.globalQ.Nodup)
    (hworkerQ : s'.workerQ = s.workerQ)
    (hran : (p.Started ↔ q.Started) ∧
        s'.history.filterMap MtAct.ranFiber = s.history.filterMap MtAct.ranFiber ∨
      ¬p.Started ∧ q.Started ∧
        s'.history.filterMap MtAct.ranFiber = s.history.filterMap MtAct.ranFiber ++ [f])
    (hended : (p.Ended ↔ q.Ended) ∧ (∀ g, .finished g ∈ s'.history ↔ .finished g ∈ s.history) ∨
      q.Ended ∧ ∀ g, .finished g ∈ s'.history ↔ g = f ∨ .finished g ∈ s.history)
    (hdistinct : s'.registry.Nodup)
    (hregistry : ∀ x ∈ s'.registry, ∃ g, .recorded g ∈ s'.history ∧ g.handle = x) : Books s' where
  spawned := by rw [hspawned, hgiven, h.spawned]
  handles := by
    rw [hgiven]
    exact h.handles
  exclusive := h.exclusive.moves hm
  given g := by
    rw [hgiven, hm.exists_iff]
    exact h.given g
  ran g := by
    obtain ⟨hiff, heq⟩ | ⟨-, hq, heq⟩ := hran
    · rw [mem_ran, heq, ← mem_ran, hm.exists_among h.exclusive hiff]
      exact h.ran g
    · rw [mem_ran, heq, mem_append, mem_singleton, ← mem_ran, hm.exists_enters hq, h.ran g, or_comm]
  finished g := by
    obtain ⟨hiff, heq⟩ | ⟨hq, heq⟩ := hended
    · rw [heq, hm.exists_among h.exclusive hiff]
      exact h.finished g
    · rw [heq, hm.exists_enters hq, h.finished g]
  queue := hqueue
  workerQ := by
    rw [hworkerQ]
    exact h.workerQ
  once := by
    obtain ⟨-, heq⟩ | ⟨hp, -, heq⟩ := hran
    · rw [heq]
      exact h.once
    · rw [heq]
      refine h.once.append (List.nodup_singleton f) fun g hg hf => ?_
      obtain rfl := mem_singleton.mp hf
      obtain ⟨r, hr, hat⟩ := (h.ran g).mp (mem_ran.mpr hg)
      obtain rfl := h.exclusive r p g hat hm.1
      exact hp hr
  distinct := hdistinct
  registry := hregistry

/-- What a worker's thread holds. -/
def workerHolds (th : Tid) (w : MtWorker) : MtPlace Tid → MtFiber → Prop
  | .got u, f => u = th ∧ ∃ wid, w = .got wid f
  | .running u, f => u = th ∧ ∃ wid, w = .running wid f
  | .recording u, f => u = th ∧ ∃ wid, w = .recording wid f
  | _, _ => False

variable {r : MtPlace Tid} {wid : Nat}

omit [DecidableEq Tid] in
theorem workerHolds_got : workerHolds th (.got wid f) r g ↔ g = f ∧ r = .got th := by
  cases r with
  | got u =>
    constructor
    · rintro ⟨rfl, _, he⟩
      cases he
      exact ⟨rfl, rfl⟩
    · rintro ⟨rfl, he⟩
      cases he
      exact ⟨rfl, wid, rfl⟩
  | running u => exact ⟨fun he => (nomatch he.2), fun he => (nomatch he.2)⟩
  | recording u => exact ⟨fun he => (nomatch he.2), fun he => (nomatch he.2)⟩
  | _ => exact ⟨False.elim, fun he => (nomatch he.2)⟩

omit [DecidableEq Tid] in
theorem workerHolds_running : workerHolds th (.running wid f) r g ↔ g = f ∧ r = .running th := by
  cases r with
  | running u =>
    constructor
    · rintro ⟨rfl, _, he⟩
      cases he
      exact ⟨rfl, rfl⟩
    · rintro ⟨rfl, he⟩
      cases he
      exact ⟨rfl, wid, rfl⟩
  | got u => exact ⟨fun he => (nomatch he.2), fun he => (nomatch he.2)⟩
  | recording u => exact ⟨fun he => (nomatch he.2), fun he => (nomatch he.2)⟩
  | _ => exact ⟨False.elim, fun he => (nomatch he.2)⟩

omit [DecidableEq Tid] in
theorem workerHolds_recording : workerHolds th (.recording wid f) r g ↔ g = f ∧ r = .recording th := by
  cases r with
  | recording u =>
    constructor
    · rintro ⟨rfl, _, he⟩
      cases he
      exact ⟨rfl, rfl⟩
    · rintro ⟨rfl, he⟩
      cases he
      exact ⟨rfl, wid, rfl⟩
  | got u => exact ⟨fun he => (nomatch he.2), fun he => (nomatch he.2)⟩
  | running u => exact ⟨fun he => (nomatch he.2), fun he => (nomatch he.2)⟩
  | _ => exact ⟨False.elim, fun he => (nomatch he.2)⟩

/-- A place that is none of a worker's thread. -/
def Away (th : Tid) : MtPlace Tid → Prop
  | .got u => u ≠ th
  | .running u => u ≠ th
  | .recording u => u ≠ th
  | _ => True

theorem role_iff {u : Tid} {Q : MtWorker → Prop} :
    Q (Function.update s.roles th w u) ↔ u = th ∧ Q w ∨ u ≠ th ∧ Q (s.roles u) := by
  by_cases hu : u = th
  · subst hu
    rw [update_self, and_iff_right rfl, or_iff_left fun h => h.1 rfl]
  · rw [update_of_ne hu, and_iff_right hu, or_iff_right fun h => hu h.1]

theorem holds_role : (s.role th w).holds r f ↔ workerHolds th w r f ∨ Away th r ∧ s.holds r f := by
  cases r with
  | got u => exact role_iff (Q := fun w => ∃ wid, w = .got wid f)
  | running u => exact role_iff (Q := fun w => ∃ wid, w = .running wid f)
  | recording u => exact role_iff (Q := fun w => ∃ wid, w = .recording wid f)
  | _ => exact ⟨fun h => .inr ⟨trivial, h⟩, fun h => h.elim False.elim And.right⟩

theorem holds_iff_worker (th : Tid) : s.holds r f ↔ workerHolds th (s.roles th) r f ∨ Away th r ∧ s.holds r f := by
  rw [← holds_role, role, Function.update_eq_self]

theorem Books.moves_worker {p q : MtPlace Tid} (h : Books s) (th : Tid)
    (hold : ∀ r g, workerHolds th (s.roles th) r g ↔ g = f ∧ r = p) (hp : ¬Away th p)
    (hnew : ∀ r g, s'.holds r g ↔ (g = f ∧ r = q) ∨ Away th r ∧ s.holds r g) :
    Moves s.holds s'.holds f p q := by
  have hat : s.holds p f := (holds_iff_worker th).mpr (.inl ((hold p f).mpr ⟨rfl, rfl⟩))
  refine ⟨hat, fun r g => (hnew r g).trans (or_congr_right ?_)⟩
  constructor
  · rintro ⟨haway, hr⟩
    refine ⟨?_, hr⟩
    rintro rfl
    exact hp (h.exclusive r p g hr hat ▸ haway)
  · rintro ⟨hne, hr⟩
    obtain hw | haway := (holds_iff_worker th).mp hr
    · exact absurd ((hold r g).mp hw).1 hne
    · exact haway

omit [DecidableEq Tid] in
theorem Books.fresh (h : Books s) (hf : f.handle = s.spawned + 1) (p : MtPlace Tid) : ¬s.holds p f := by
  intro hp
  obtain ⟨k, hk⟩ := List.mem_iff_getElem?.mp ((h.given f).mpr ⟨p, hp⟩)
  have hlt := (List.getElem?_eq_some_iff.mp hk).1
  have := h.handles k f hk
  have := h.spawned
  omega

/-- **A handle is given out**, when the counter is as it was read. -/
theorem inv_spawnStore {fn arg n : Int} (h : Inv s) (hcall : s.calls th = .spawnStore fn arg n)
    (hn : s.spawned = n) (hmax : n < 2 ^ 63 - 1) (hjoin : ∀ u, s.calls u ≠ .joinAny (n + 1))
    (hstep : s.nextCall th (.spawnStore fn arg n) = some s') : Inv s' := by
  have hsucc : succSpawned n = n + 1 := if_neg (by omega)
  obtain ⟨f, hf⟩ : ∃ f : MtFiber, f = { block := s.blocks, handle := n + 1, fn := fn, arg := arg } := ⟨_, rfl⟩
  have hhandle : f.handle = s.spawned + 1 := by rw [hf, hn]
  rw [nextCall, hsucc, ← hf] at hstep
  generalize hs' : ({ s with
    spawned := n + 1, blocks := s.blocks + 1, calls := Function.update s.calls th (.spawnPush f)
    history := s.history ++ [.spawned f] } : MtState Tid) = t at hstep
  obtain rfl := Option.some.inj hstep
  have hgiven : t.given = s.given ++ [f] := by
    rw [← hs']
    exact filterMap_append
  have hspawned : t.spawned = s.spawned + 1 := by rw [← hs', hn]
  have hhist : t.history = s.history ++ [.spawned f] := by rw [← hs']
  have hmem : ∀ a : MtAct, a ≠ .spawned f → (a ∈ t.history ↔ a ∈ s.history) := by
    intro a ha
    rw [hhist, mem_append, mem_singleton, or_iff_left ha]
  have hregistry : t.registry = s.registry := by
    rw [← hs']
    rfl
  have harrives : Arrives s.holds t.holds f (.spawner th) := by
    refine ⟨h.books.fresh hhandle, fun r g => ?_⟩
    cases r with
    | spawner u =>
      show t.calls u = .spawnPush g ↔ (g = f ∧ MtPlace.spawner u = .spawner th) ∨ s.calls u = .spawnPush g
      rw [← hs', MtPlace.spawner.injEq]
      show Function.update s.calls th (.spawnPush f) u = .spawnPush g ↔ _
      by_cases hu : u = th
      · subst hu
        rw [update_self, hcall, MtCall.spawnPush.injEq, and_iff_left rfl, or_iff_left nofun]
        exact eq_comm
      · rw [update_of_ne hu, or_iff_right fun he => hu he.2]
    | recorded => exact (hmem (.recorded g) nofun).trans (or_iff_right nofun).symm
    | _ =>
      rw [← hs']
      exact (or_iff_right nofun).symm
  have hran : t.history.filterMap MtAct.ranFiber = s.history.filterMap MtAct.ranFiber := by
    rw [hhist, filterMap_append]
    exact append_nil _
  refine ⟨⟨?_, fun k g hk => ?_, h.books.exclusive.arrives harrives, fun g => ?_, fun g => ?_, fun g => ?_, ?_, ?_, ?_,
    ?_, ?_⟩, fun u => ?_, ?_⟩
  · rw [hgiven, hspawned, h.books.spawned, List.length_append]
    rfl
  · rw [hgiven, List.getElem?_append] at hk
    split at hk
    case isTrue => exact h.books.handles k g hk
    case isFalse hlt =>
      obtain ⟨hk', rfl⟩ := List.getElem?_eq_some_iff.mp hk
      rw [List.length_singleton] at hk'
      rw [List.getElem_singleton, hhandle, h.books.spawned]
      omega
  · rw [hgiven, mem_append, mem_singleton, harrives.exists_iff, h.books.given g, or_comm]
  · rw [hmem (.ran g) nofun, harrives.exists_among (by exact id), h.books.ran g]
  · rw [hmem (.finished g) nofun, harrives.exists_among (by exact id), h.books.finished g]
  · rw [← hs']
    exact h.books.queue
  · rw [← hs']
    exact h.books.workerQ
  · rw [hran]
    exact h.books.once
  · rw [hregistry]
    exact h.books.distinct
  · intro x hx
    rw [hregistry] at hx
    obtain ⟨g, hg, hx⟩ := h.books.registry x hx
    exact ⟨g, (hmem (.recorded g) nofun).mpr hg, hx⟩
  · have hcalls : t.calls = Function.update s.calls th (.spawnPush f) := by rw [← hs']
    rw [hcalls]
    by_cases hu : u = th
    · subst hu
      rw [update_self]
      trivial
    · rw [update_of_ne hu]
      have hok := h.calls u
      generalize hc : s.calls u = c at hok ⊢
      cases c with
      | joinCount x =>
        rw [CallOk, hregistry]
        exact hok
      | joinCompare x d =>
        have := hok.1
        exact ⟨by omega, fun hle => by omega⟩
      | joinAny x =>
        intro g hg
        rw [hgiven, mem_append, mem_singleton] at hg
        obtain hg | rfl := hg
        · exact hok g hg
        · rintro rfl
          rw [hhandle, hn] at hc
          exact hjoin u hc
      | idleAny d =>
        have := hok.1
        exact ⟨by omega, fun hle => by omega⟩
      | idleCompare d =>
        have := hok.1
        exact ⟨by omega, fun hle => by omega⟩
      | _ => trivial
  · rw [hhist]
    exact h.truthful.snoc trivial

omit [DecidableEq Tid] in
theorem Inv.moved (h : Inv s) (hbooks : Books s') (hspawned : s'.spawned = s.spawned)
    (hgiven : s'.given = s.given) (hregistry : s'.registry = s.registry)
    (hcalls : ∀ u, s'.calls u = s.calls u ∨ s'.calls u = .none)
    (hhist : s'.history = s.history ∨ ∃ a, s'.history = s.history ++ [a] ∧ a.Truthful s.history) : Inv s' := by
  refine ⟨hbooks, fun u => ?_, ?_⟩
  · obtain he | he := hcalls u
    · rw [he]
      refine (h.calls u).mono hspawned hgiven (fun x hx => .inl (hregistry ▸ hx)) fun f hf => ?_
      obtain he | ⟨a, he, -⟩ := hhist
      · rwa [he]
      · rw [he]
        exact mem_append_left _ hf
    · rw [he]
      trivial
  · obtain he | ⟨a, he, ha⟩ := hhist
    · rw [he]
      exact h.truthful
    · rw [he]
      exact h.truthful.snoc ha

theorem inv_spawnPush (h : Inv s) (hcall : s.calls th = .spawnPush f) :
    Inv ({ s with globalQ := s.globalQ ++ [f] }.goto th .none) := by
  generalize hs' : ({ s with globalQ := s.globalQ ++ [f] }.goto th .none : MtState Tid) = s'
  have hcalls : s'.calls = Function.update s.calls th .none := by
    rw [← hs']
    rfl
  have haway : ∀ r g, s.holds r g → r ≠ .spawner th → g ≠ f := by
    rintro r _ hr hne rfl
    exact hne (h.books.exclusive r (.spawner th) _ hr hcall)
  have hsame : ∀ r g, (s'.holds r g ↔ s.holds r g) → r ≠ .spawner th → r ≠ .queue →
      (s'.holds r g ↔ (g = f ∧ r = .queue) ∨ g ≠ f ∧ s.holds r g) := by
    intro r g hiff hne hq
    rw [hiff, or_iff_right fun he => hq he.2]
    exact ⟨fun hr => ⟨haway r g hr hne, hr⟩, And.right⟩
  have hmoves : Moves s.holds s'.holds f (.spawner th) .queue := by
    refine ⟨hcall, fun r g => ?_⟩
    cases r with
    | spawner u =>
      show s'.calls u = .spawnPush g ↔ (g = f ∧ MtPlace.spawner u = .queue) ∨ g ≠ f ∧ s.calls u = .spawnPush g
      rw [hcalls, or_iff_right fun he => nomatch he.2]
      by_cases hu : u = th
      · subst hu
        rw [update_self, hcall, MtCall.spawnPush.injEq]
        exact ⟨nofun, fun he => absurd he.2.symm he.1⟩
      · rw [update_of_ne hu]
        exact ⟨fun he => ⟨haway (.spawner u) g he fun heq => hu (MtPlace.spawner.inj heq), he⟩, And.right⟩
    | queue =>
      show g ∈ s'.globalQ ↔ (g = f ∧ MtPlace.queue = .queue) ∨ g ≠ f ∧ g ∈ s.globalQ
      rw [← hs']
      show g ∈ s.globalQ ++ [f] ↔ _
      rw [mem_append, mem_singleton, and_iff_left rfl]
      by_cases hg : g = f
      · exact ⟨fun _ => .inl hg, fun _ => .inr hg⟩
      · rw [or_iff_left hg, or_iff_right hg, and_iff_right hg]
    | got u => exact hsame (.got u) g (by rw [← hs']; rfl) nofun nofun
    | running u => exact hsame (.running u) g (by rw [← hs']; rfl) nofun nofun
    | recording u => exact hsame (.recording u) g (by rw [← hs']; rfl) nofun nofun
    | recorded => exact hsame .recorded g (by rw [← hs']; rfl) nofun nofun
  have hnew : f ∉ s.globalQ := fun hf => haway .queue f hf nofun rfl
  subst hs'
  refine h.moved ?_ rfl rfl rfl (fun u => ?_) (.inl rfl)
  · refine h.books.moves hmoves rfl rfl ?_ rfl (.inl ⟨.rfl, rfl⟩) (.inl ⟨.rfl, fun _ => .rfl⟩) h.books.distinct
      h.books.registry
    exact h.books.queue.append (List.nodup_singleton f) fun g hg hf => hnew (mem_singleton.mp hf ▸ hg)
  · rw [hcalls]
    by_cases hu : u = th
    · subst hu
      exact .inr (update_self ..)
    · exact .inl (update_of_ne hu ..)

theorem inv_pop {q : List MtFiber} (h : Inv s) (hq : s.globalQ = f :: q)
    (hrole : s.roles th = .globalQ wid) : Inv ({ s with globalQ := q }.role th (.got wid f)) := by
  have hnodup : f ∉ q ∧ q.Nodup := List.nodup_cons.mp (hq ▸ h.books.queue)
  have hmem : ∀ g, g ∈ s.globalQ ↔ g = f ∨ g ∈ q := by
    rw [hq]
    exact fun g => List.mem_cons
  have hat : s.holds .queue f := (hmem f).mpr (.inl rfl)
  have hmoves : Moves s.holds ({ s with globalQ := q }.role th (.got wid f)).holds f .queue (.got th) := by
    refine ⟨hat, fun r g => ?_⟩
    rw [holds_role]
    refine or_congr workerHolds_got ?_
    have haway : Away th r ∧ s.holds r g ↔ s.holds r g := by
      have hfree : ¬workerHolds th (s.roles th) r g := by
        rw [hrole]
        intro hw
        cases r <;> first | exact hw | exact nomatch hw.2
      exact (or_iff_right hfree).symm.trans (holds_iff_worker th).symm
    by_cases hr : r = .queue
    · subst hr
      show True ∧ g ∈ q ↔ g ≠ f ∧ g ∈ s.globalQ
      rw [hmem, true_and]
      exact ⟨fun hg => ⟨fun he => hnodup.1 (he ▸ hg), .inr hg⟩, fun hg => hg.2.resolve_left hg.1⟩
    · have hsame : MtState.holds { s with globalQ := q } r g ↔ s.holds r g := by
        cases r with
        | queue => exact absurd rfl hr
        | _ => exact .rfl
      rw [hsame, haway]
      refine ⟨fun hg => ⟨?_, hg⟩, And.right⟩
      rintro rfl
      exact hr (h.books.exclusive r .queue g hg hat)
  exact h.moved (h.books.moves hmoves rfl rfl hnodup.2 rfl (.inl ⟨.rfl, rfl⟩) (.inl ⟨.rfl, fun _ => .rfl⟩)
    h.books.distinct h.books.registry) rfl rfl rfl (fun _ => .inl rfl) (.inl rfl)

/-- Where a fiber is, when nothing else changes than the role of its worker and the history. -/
theorem holds_act {a : MtAct} (ha : ∀ g, a ≠ .recorded g) :
    (s.act th w a).holds r f ↔ workerHolds th w r f ∨ Away th r ∧ s.holds r f := by
  rw [← holds_role]
  cases r with
  | recorded =>
    show MtAct.recorded f ∈ s.history ++ [a] ↔ .recorded f ∈ s.history
    rw [mem_append, mem_singleton]
    exact or_iff_left fun he => ha f he.symm
  | _ => exact .rfl

/-- A fiber's body is called. -/
theorem inv_run (h : Inv s) (hrole : s.roles th = .got wid f) : Inv (s.act th (.running wid f) (.ran f)) := by
  have hmoves : Moves s.holds (s.act th (.running wid f) (.ran f)).holds f (.got th) (.running th) := by
    refine h.books.moves_worker th (fun r g => ?_) (fun hne => hne rfl) fun r g => ?_
    · rw [hrole]
      exact workerHolds_got
    · exact (holds_act (a := .ran f) nofun).trans (or_congr_left workerHolds_running)
  have hgiven : (s.act th (.running wid f) (.ran f)).given = s.given :=
    filterMap_append.trans (append_nil _)
  refine h.moved (h.books.moves hmoves rfl hgiven h.books.queue rfl (.inr ⟨id, trivial, filterMap_append⟩)
    (.inl ⟨.rfl, fun g => ?_⟩) h.books.distinct fun x hx => ?_) rfl hgiven rfl (fun _ => .inl rfl)
    (.inr ⟨_, rfl, trivial⟩)
  · show MtAct.finished g ∈ s.history ++ [.ran f] ↔ _
    rw [mem_append, mem_singleton]
    exact or_iff_left nofun
  · obtain ⟨g, hg, hx⟩ := h.books.registry x hx
    exact ⟨g, mem_append_left _ hg, hx⟩

/-- The body returns. -/
theorem inv_finish (h : Inv s) (hrole : s.roles th = .running wid f) :
    Inv (s.act th (.recording wid f) (.finished f)) := by
  have hmoves : Moves s.holds (s.act th (.recording wid f) (.finished f)).holds f (.running th)
      (.recording th) := by
    refine h.books.moves_worker th (fun r g => ?_) (fun hne => hne rfl) fun r g => ?_
    · rw [hrole]
      exact workerHolds_running
    · exact (holds_act (a := .finished f) nofun).trans (or_congr_left workerHolds_recording)
  have hgiven : (s.act th (.recording wid f) (.finished f)).given = s.given :=
    filterMap_append.trans (append_nil _)
  refine h.moved (h.books.moves hmoves rfl hgiven h.books.queue rfl
    (.inl ⟨.rfl, filterMap_append.trans (append_nil _)⟩) (.inr ⟨trivial, fun g => ?_⟩) h.books.distinct
    fun x hx => ?_) rfl hgiven rfl (fun _ => .inl rfl) (.inr ⟨_, rfl, trivial⟩)
  · show MtAct.finished g ∈ s.history ++ [.finished f] ↔ _
    rw [mem_append, mem_singleton, MtAct.finished.injEq, or_comm]
  · obtain ⟨g, hg, hx⟩ := h.books.registry x hx
    exact ⟨g, mem_append_left _ hg, hx⟩

omit [DecidableEq Tid] in
theorem record_registry : (s.record f).getD [] = s.registry ∨ (s.record f).getD [] = s.registry ++ [f.handle] := by
  rw [record, registry]
  cases s.doneHandles with
  | none => exact .inl rfl
  | some l =>
    show (if l.length < mtDoneCap then l ++ [f.handle] else l) = l ∨
      (if l.length < mtDoneCap then l ++ [f.handle] else l) = l ++ [f.handle]
    split
    · exact .inr rfl
    · exact .inl rfl

/-- **A fiber is recorded**, when no join is between its scan and its look at the counter. -/
theorem inv_record (h : Inv s) (hrole : s.roles th = .recording wid f)
    (hjoin : ∀ u, s.calls u ≠ .joinCount f.handle) :
    Inv ({ s with doneHandles := s.record f }.act th (.top wid) (.recorded f)) := by
  generalize hs' : ({ s with doneHandles := s.record f }.act th (.top wid) (.recorded f) : MtState Tid) = s'
  have hhist : s'.history = s.history ++ [.recorded f] := by
    rw [← hs']
    rfl
  have hat : s.holds (.recording th) f := ⟨wid, hrole⟩
  have hmoves : Moves s.holds s'.holds f (.recording th) .recorded := by
    refine h.books.moves_worker th (fun r g => ?_) (fun hne => hne rfl) fun r g => ?_
    · rw [hrole]
      exact workerHolds_recording
    · have hother : ∀ r, r ≠ .recorded → (s'.holds r g ↔ (s.role th (.top wid)).holds r g) →
          (s'.holds r g ↔ (g = f ∧ r = .recorded) ∨ Away th r ∧ s.holds r g) := by
        intro r hne hiff
        have hfree : ¬workerHolds th (.top wid) r g := by
          intro hw
          cases r <;> first | exact hw | exact nomatch hw.2
        rw [hiff, holds_role, or_iff_right hfree, or_iff_right fun he => hne he.2]
      cases r with
      | recorded =>
        show MtAct.recorded g ∈ s'.history ↔ (g = f ∧ MtPlace.recorded = .recorded) ∨ True ∧ _
        rw [hhist, mem_append, mem_singleton, MtAct.recorded.injEq, and_iff_left rfl, true_and, or_comm]
        rfl
      | spawner u => exact hother (.spawner u) nofun (by rw [← hs']; rfl)
      | queue => exact hother .queue nofun (by rw [← hs']; rfl)
      | got u => exact hother (.got u) nofun (by rw [← hs']; rfl)
      | running u => exact hother (.running u) nofun (by rw [← hs']; rfl)
      | recording u => exact hother (.recording u) nofun (by rw [← hs']; rfl)
  have hgiven : s'.given = s.given := by
    rw [← hs']
    exact filterMap_append.trans (append_nil _)
  have hregistry : s'.registry = s.registry ∨ s'.registry = s.registry ++ [f.handle] := by
    rw [← hs']
    exact record_registry
  have hfin : ∀ g, MtAct.finished g ∈ s'.history ↔ .finished g ∈ s.history := by
    intro g
    rw [hhist, mem_append, mem_singleton]
    exact or_iff_left nofun
  have hnew : f.handle ∉ s.registry := by
    intro hmem
    have hrec := h.books.recorded ((h.books.given f).mpr ⟨_, hat⟩) hmem
    cases h.books.exclusive .recorded (.recording th) f hrec hat
  have hspawned : s'.spawned = s.spawned := by
    rw [← hs']
    rfl
  have hbooks : Books s' := by
    refine h.books.moves hmoves hspawned hgiven (by rw [← hs']; exact h.books.queue) (by rw [← hs']; rfl)
      (.inl ⟨.rfl, ?_⟩) (.inl ⟨.rfl, hfin⟩) ?_ fun x hx => ?_
    · rw [hhist, filterMap_append]
      exact append_nil _
    · obtain he | he := hregistry
      · rw [he]
        exact h.books.distinct
      · rw [he]
        refine h.books.distinct.append (List.nodup_singleton _) fun x hx hf => ?_
        exact hnew (mem_singleton.mp hf ▸ hx)
    · have hold : ∀ x ∈ s.registry, ∃ g, .recorded g ∈ s'.history ∧ g.handle = x := by
        intro x hx
        obtain ⟨g, hg, hx⟩ := h.books.registry x hx
        refine ⟨g, ?_, hx⟩
        rw [hhist]
        exact mem_append_left _ hg
      obtain he | he := hregistry
      · exact hold x (he ▸ hx)
      · rw [he, mem_append, mem_singleton] at hx
        obtain hx | rfl := hx
        · exact hold x hx
        · exact ⟨f, hmoves.self, rfl⟩
  refine ⟨hbooks, fun u => ?_, ?_⟩
  · have hcalls : s'.calls u = s.calls u := by
      rw [← hs']
      rfl
    rw [hcalls]
    refine (h.calls u).mono hspawned hgiven (fun x hx => ?_) fun g => (hfin g).mpr
    obtain he | he := hregistry
    · exact .inl (he ▸ hx)
    · rw [he, mem_append, mem_singleton] at hx
      refine hx.imp_right ?_
      rintro rfl
      exact hjoin u
  · rw [hhist]
    exact h.truthful.snoc trivial

/-! ## Runs -/

/-- The condition on a step: `g_mt_spawned` is still as it was read when it is written, has room for one more, and
no join is about to call the new handle unknown; no join is between its scan for a fiber and its look at the counter
when that fiber is recorded; the global queue is empty when it is initialised. -/
def Calm (e : MtEvent Tid) (s : MtState Tid) : Prop :=
  match e with
  | .next th =>
    match s.calls th with
    | .spawnStore _ _ n => s.spawned = n ∧ n < 2 ^ 63 - 1 ∧ ∀ u, s.calls u ≠ .joinAny (n + 1)
    | .startQueue _ 0 => s.globalQ = []
    | _ => True
  | .work th =>
    match s.roles th with
    | .recording _ f => ∀ u, s.calls u ≠ .joinCount f.handle
    | _ => True
  | _ => True

attribute [local simp] nextCall Calm

theorem inv_next (h : Inv s) (hcalm : Calm (.next th) s) (hstep : s.nextCall th (s.calls th) = some s') :
    Inv s' := by
  have hok := h.calls th
  have goes : ∀ {c}, some (s.goto th c) = some s' → (∀ f, s.calls th ≠ .spawnPush f) →
      (∀ f, c ≠ .spawnPush f) → s.CallOk c → Inv s' := by
    intro c he hold hnew hc
    cases he
    exact h.goto hold hnew hc
  rw [Calm] at hcalm
  generalize hcall : s.calls th = c at hstep hok hcalm goes
  cases c with
  | none => cases hstep
  | spawn fn arg =>
    rw [nextCall] at hstep
    split at hstep
    · exact goes hstep nofun nofun trivial
    · exact goes hstep nofun nofun trivial
  | spawnLoad fn arg => exact goes hstep nofun nofun trivial
  | spawnStore fn arg n => exact inv_spawnStore h hcall hcalm.1 hcalm.2.1 hcalm.2.2 hstep
  | spawnPush f =>
    cases hstep
    exact inv_spawnPush h hcall
  | join x =>
    rw [nextCall] at hstep
    cases hstep
    split
    case isTrue hmem =>
      refine h.done (by rw [hcall]; nofun) ?_ ⟨rfl, rfl, fun f => ⟨nofun, nofun⟩⟩
      obtain ⟨f, hf, hx⟩ := h.books.registry x hmem
      exact ⟨f, h.books.ended hf, hx⟩
    case isFalse hmem => exact h.goto (by rw [hcall]; nofun) nofun hmem
  | joinCount x =>
    refine goes hstep nofun nofun ⟨h.books.doneCount_le, fun hle f hf => ?_⟩
    rintro rfl
    exact hok (h.books.full hle hf)
  | joinCompare x d =>
    rw [nextCall] at hstep
    by_cases hle : s.spawned ≤ d
    · rw [if_pos hle] at hstep
      exact goes hstep nofun nofun (hok.2 hle)
    · rw [if_neg hle] at hstep
      exact goes hstep nofun nofun trivial
  | joinAny x =>
    rw [nextCall] at hstep
    cases hstep
    split
    · exact h.done (by rw [hcall]; nofun) (fun f hf => hok f (mem_given.mpr hf)) ⟨rfl, rfl, fun f => ⟨nofun, nofun⟩⟩
    · exact h.goto (by rw [hcall]; nofun) nofun trivial
  | waitIdle =>
    refine goes hstep nofun nofun ⟨h.books.doneCount_le, fun hle f hf => ?_⟩
    exact h.books.ended (h.books.recorded hf (h.books.full hle hf))
  | idleAny d =>
    rw [nextCall] at hstep
    split at hstep
    · exact goes hstep nofun nofun hok
    · exact goes hstep nofun nofun trivial
  | idleCompare d =>
    rw [nextCall] at hstep
    cases hstep
    split
    case isTrue hle =>
      exact h.done (by rw [hcall]; nofun) (fun f hf => hok.2 hle f (mem_given.mpr hf))
        ⟨rfl, rfl, fun f => ⟨nofun, nofun⟩⟩
    case isFalse => exact h.goto (by rw [hcall]; nofun) nofun trivial
  | idleNone =>
    rw [nextCall] at hstep
    cases hstep
    split
    case isTrue hzero =>
      refine h.done (by rw [hcall]; nofun) (fun f hf => ?_) ⟨rfl, rfl, fun f => ⟨nofun, nofun⟩⟩
      have hlen := h.books.spawned
      have hpos := List.length_pos_of_mem (mem_given.mpr hf)
      omega
    case isFalse => exact h.goto (by rw [hcall]; nofun) nofun trivial
  | start n =>
    rw [nextCall] at hstep
    split at hstep
    · exact goes hstep nofun nofun trivial
    · exact goes hstep nofun nofun trivial
  | startQueue n i =>
    cases i with
    | zero =>
      have hs : ({ s with globalQ := [] } : MtState Tid) = s := by
        rw [← show s.globalQ = [] from hcalm]
      rw [nextCall, hs] at hstep
      exact goes hstep nofun nofun trivial
    | succ i =>
      have hs : ({ s with workerQ := Function.update s.workerQ i [] } : MtState Tid) = s := by
        rw [← h.books.workerQ i, Function.update_eq_self]
      rw [nextCall, hs] at hstep
      split at hstep
      · exact goes hstep nofun nofun trivial
      · exact goes hstep nofun nofun trivial
  | startRegistry n =>
    rw [nextCall] at hstep
    split at hstep
    · exact goes hstep nofun nofun trivial
    · exact goes hstep nofun nofun trivial
  | startAlloc n =>
    cases hstep
    exact (h.flags (.inr rfl)).goto (by rw [hcall]; nofun) nofun trivial
  | startFlag n =>
    cases hstep
    exact (h.flags (.inl rfl)).goto (by rw [hcall]; nofun) nofun trivial
  | startWorkers n =>
    cases hstep
    exact (h.flags (.inl rfl)).goto (by rw [hcall]; nofun) nofun trivial
  | startThreads n i =>
    exact goes (Option.ite_none_left_eq_some.mp hstep).2 nofun nofun trivial
  | shutdown =>
    cases hstep
    exact (h.flags (.inl rfl)).goto (by rw [hcall]; nofun) nofun trivial
  | shutdownWorkers =>
    cases hstep
    exact (h.flags (.inl rfl)).goto (by rw [hcall]; nofun) nofun trivial

theorem inv_fail (h : Inv s) (hstep : s.failCall th (s.calls th) = some s') : Inv s' := by
  generalize hcall : s.calls th = c at hstep
  cases c with
  | spawnLoad fn arg =>
    cases hstep
    exact h.goto (by rw [hcall]; nofun) nofun trivial
  | startAlloc n =>
    cases hstep
    exact (h.flags (.inr rfl)).goto (by rw [hcall]; nofun) nofun trivial
  | startThreads n i =>
    cases (Option.ite_none_right_eq_some.mp hstep).2
    exact h.goto (by rw [hcall]; nofun) nofun trivial
  | _ => cases hstep

theorem inv_work (h : Inv s) (hcalm : Calm (.work th) s) (hstep : s.nextWork th (s.roles th) = some s') :
    Inv s' := by
  have goes : ∀ {w}, some (s.role th w) = some s' →
      (∀ wid f, s.roles th ≠ .got wid f ∧ s.roles th ≠ .running wid f ∧ s.roles th ≠ .recording wid f) →
      (∀ wid f, w ≠ .got wid f ∧ w ≠ .running wid f ∧ w ≠ .recording wid f) → Inv s' := by
    intro w he hold hnew
    cases he
    exact h.role hold hnew
  rw [Calm] at hcalm
  generalize hrole : s.roles th = w at hstep hcalm goes
  cases w with
  | none => cases hstep
  | top wid =>
    rw [nextWork] at hstep
    split at hstep
    · exact goes hstep (fun _ _ => ⟨nofun, nofun, nofun⟩) fun _ _ => ⟨nofun, nofun, nofun⟩
    · exact goes hstep (fun _ _ => ⟨nofun, nofun, nofun⟩) fun _ _ => ⟨nofun, nofun, nofun⟩
  | localQ wid =>
    rw [nextWork, h.books.workerQ wid] at hstep
    exact goes hstep (fun _ _ => ⟨nofun, nofun, nofun⟩) fun _ _ => ⟨nofun, nofun, nofun⟩
  | globalQ wid =>
    rw [nextWork] at hstep
    split at hstep
    case h_1 => exact goes hstep (fun _ _ => ⟨nofun, nofun, nofun⟩) fun _ _ => ⟨nofun, nofun, nofun⟩
    case h_2 f q hq =>
      cases hstep
      exact inv_pop h hq hrole
  | steal wid v =>
    rw [nextWork] at hstep
    split at hstep
    · exact goes hstep (fun _ _ => ⟨nofun, nofun, nofun⟩) fun _ _ => ⟨nofun, nofun, nofun⟩
    · exact goes hstep (fun _ _ => ⟨nofun, nofun, nofun⟩) fun _ _ => ⟨nofun, nofun, nofun⟩
  | stealFrom wid v =>
    rw [nextWork, h.books.workerQ] at hstep
    split at hstep
    · exact goes hstep (fun _ _ => ⟨nofun, nofun, nofun⟩) fun _ _ => ⟨nofun, nofun, nofun⟩
    · exact goes hstep (fun _ _ => ⟨nofun, nofun, nofun⟩) fun _ _ => ⟨nofun, nofun, nofun⟩
  | got wid f =>
    cases hstep
    exact inv_run h hrole
  | running wid f =>
    cases (Option.ite_none_right_eq_some.mp hstep).2
    exact inv_finish h hrole
  | recording wid f =>
    cases hstep
    exact inv_record h hrole hcalm
  | gone => cases hstep
  | crashed => cases hstep

/-- **One step** keeps the invariant. -/
theorem inv_step {e : MtEvent Tid} (h : Inv s) (hcalm : Calm e s) (hstep : step e s = some s') : Inv s' := by
  have begins : ∀ {th c}, (if s.Calls th then some (s.goto th c) else none) = some s' →
      (∀ f, c ≠ .spawnPush f) → s.CallOk c → Inv s' := by
    intro th c he hnew hc
    obtain ⟨hcalls, he⟩ := Option.ite_none_right_eq_some.mp he
    cases he
    exact h.goto (by rw [hcalls.1]; nofun) hnew hc
  cases e with
  | spawn th fn arg => exact begins hstep nofun trivial
  | join th x => exact begins hstep nofun trivial
  | waitIdle th => exact begins hstep nofun trivial
  | start th n => exact begins hstep nofun trivial
  | shutdown th => exact begins hstep nofun trivial
  | next th => exact inv_next h hcalm hstep
  | fail th => exact inv_fail h hstep
  | create th new =>
    rw [step] at hstep
    split at hstep
    case h_1 n i hcall =>
      obtain ⟨⟨-, -, hnone⟩, he⟩ := Option.ite_none_right_eq_some.mp hstep
      cases he
      refine (h.role (w := .top i) ?_ (fun _ _ => ⟨nofun, nofun, nofun⟩)).goto ?_ nofun trivial
      · rw [hnone]
        exact fun _ _ => ⟨nofun, nofun, nofun⟩
      · show ∀ f, s.calls th ≠ .spawnPush f
        rw [hcall]
        nofun
    case h_2 => cases hstep
  | work th => exact inv_work h hcalm hstep

omit [DecidableEq Tid] in
theorem inv_init : Inv ({} : MtState Tid) := by
  have hholds : ∀ (p : MtPlace Tid) f, ¬MtState.holds {} p f := by
    intro p f hp
    cases p with
    | spawner u => exact MtCall.noConfusion hp
    | queue => cases hp
    | recorded => cases hp
    | _ =>
      obtain ⟨_, he⟩ := hp
      cases he
  refine ⟨⟨rfl, nofun, fun p _ f hp => absurd hp (hholds p f), fun f => ⟨nofun, ?_⟩, fun f => ⟨nofun, ?_⟩,
    fun f => ⟨nofun, ?_⟩, nodup_nil, fun _ => rfl, nodup_nil, nodup_nil, nofun⟩, fun _ => trivial, .nil⟩
  · rintro ⟨p, hp⟩
    exact absurd hp (hholds p f)
  · rintro ⟨p, -, hp⟩
    exact absurd hp (hholds p f)
  · rintro ⟨p, -, hp⟩
    exact absurd hp (hholds p f)

omit [DecidableEq Tid] in
theorem Inv.tellsTruth (h : Inv s) : TellsTruth s where
  once := h.books.once
  handles := h.books.nodup_handles
  truthful := h.truthful
  kept f hf := by
    obtain ⟨p, hp⟩ := (h.books.given f).mp (mem_given.mpr hf)
    cases p with
    | spawner u => exact .inr (.inr (.inl ⟨u, hp⟩))
    | queue => exact .inr (.inl hp)
    | got u => exact .inr (.inr (.inr ⟨u, hp⟩))
    | running u => exact .inl ((h.books.ran f).mpr ⟨.running u, trivial, hp⟩)
    | recording u => exact .inl ((h.books.ran f).mpr ⟨.recording u, trivial, hp⟩)
    | recorded => exact .inl ((h.books.ran f).mpr ⟨.recorded, trivial, hp⟩)

/-- **Joins tell the truth** in a run whose steps are all calm. -/
theorem joins_truthful (es : List (MtEvent Tid)) (s : MtState Tid) (hcalm : Meets step Calm es {})
    (hrun : runEvents step es {} = some s) : s.TellsTruth :=
  (hcalm.invariant (I := Inv) (fun _ _ _ h hc hs => inv_step h hc hs) inv_init hrun).tellsTruth

/-- One worker is started, and a fiber is spawned and run to its end. -/
def oneFiber : List (MtEvent Bool) :=
  [.start true 1, .next true, .next true, .next true, .next true, .next true, .next true, .next true, .next true,
    .create true false, .next true, .spawn true 5 6, .next true, .next true, .next true, .next true,
    .work false, .work false, .work false, .work false, .work false]

/-- The fiber is recorded, and then joined. -/
def joinAfter : List (MtEvent Bool) := oneFiber ++ [.work false, .join true 1, .next true]

theorem joins_truthful_sample : TellsTruth ((runEvents step joinAfter {}).getD {}) := by
  refine joins_truthful joinAfter _ ?_ rfl
  refine .cons trivial rfl (.cons trivial rfl (.cons rfl rfl (.cons trivial rfl (.cons trivial rfl (.cons trivial rfl
    (.cons trivial rfl (.cons trivial rfl (.cons trivial rfl (.cons trivial rfl (.cons trivial rfl (.cons trivial rfl
    (.cons trivial rfl (.cons trivial rfl (.cons ⟨rfl, ?_, fun u => ?_⟩ rfl (.cons trivial rfl (.cons trivial rfl
    (.cons trivial rfl (.cons trivial rfl (.cons trivial rfl (.cons trivial rfl (.cons (fun u => ?_) rfl
    (.cons trivial rfl (.cons trivial rfl trivial)))))))))))))))))))))))
  · decide
  · cases u <;> nofun
  · cases u <;> nofun

/-- A join scans for the fiber before it is recorded, and looks at the counter after. -/
def joinAcross : List (MtEvent Bool) :=
  oneFiber ++ [.join true 1, .next true, .work false, .next true, .next true, .next true]

/-- The fiber has finished, and the join says that it was never spawned. -/
theorem joins_not_truthful :
    ¬∀ (es : List (MtEvent Bool)) (s : MtState Bool), runEvents step es {} = some s → s.TellsTruth := by
  intro h
  have htruth := (h joinAcross _ rfl).truthful
  let f : MtFiber := { block := 0, handle := 1, fn := 5, arg := 6 }
  exact htruth [.spawned f, .ran f, .finished f, .recorded f] (.unknown 1) [] rfl f List.mem_cons_self rfl

end MtState

end Datara.Natvar
