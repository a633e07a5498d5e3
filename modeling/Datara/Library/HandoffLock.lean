import Mathlib.Data.List.Sublists

/-!
# A lock that is handed over

A lock whose release hands it to the first of those that wait, and whose waiters may time out. What a log
of it says (`inside`, `arrivals`, `grants`, `expiries`) is read off the log alone; a log that the lock
admits (`HandoffLock.admits`) is exclusive, in order, and wakes every waiter once (`Lawful`).
-/

namespace Datara.Library

universe u

open scoped List

/-- What happens at a lock. A waiter is made ready with or without the lock, and its call returns later;
`stray` is a wake for no reason. -/
inductive LockAct (α : Type u)
  | acquired (a : α)
  | arrived (a : α)
  | released (a : α)
  | granted (a : α)
  | expired (a : α)
  | returned (a : α) (success : Bool)
  | stray (a : α)
  deriving DecidableEq, Repr

/-- Who has the lock: `granted` until the call that waited has returned. -/
inductive Grip (α : Type u)
  | free
  | granted (a : α)
  | held (a : α)
  deriving DecidableEq, Repr

/-- A lock, with those whose wait has timed out and whose call has not returned. -/
structure HandoffLock (α : Type u) where
  grip : Grip α := .free
  queue : List α := []
  late : List α := []

variable {α : Type u}

/-! ## Logs -/

section
variable (acts acts' : List (LockAct α))

/-- Those that began to wait, in that order. -/
def arrivals : List α := acts.filterMap fun | .arrived a => some a | _ => none

/-- Those that were made ready with the lock, in that order. -/
def grants : List α := acts.filterMap fun | .granted a => some a | _ => none

def expiries : List α := acts.filterMap fun | .expired a => some a | _ => none

/-- Those whose wait has returned, with the lock or without it. -/
def returns (success : Bool) : List α :=
  acts.filterMap fun | .returned a b => if b = success then some a else none | _ => none

variable {acts acts'}

variable [DecidableEq α] {a x : α}

/-- Whether one has the lock after something happened: its call returned with it and it has not released
it. -/
def LockAct.enters (a : α) (before : Bool) : LockAct α → Bool
  | .acquired x => if x = a then true else before
  | .returned x true => if x = a then true else before
  | .released x => if x = a then false else before
  | _ => before

/-- Whether one is between a lock that succeeded and its release. -/
def inside (a : α) (acts : List (LockAct α)) : Bool := acts.foldl (LockAct.enters a) false

@[simp] theorem inside_snoc {act : LockAct α} : inside a (acts ++ [act]) = act.enters a (inside a acts) :=
  List.foldl_concat _ _ _ _

end

/-! ## What the lock admits -/

variable [DecidableEq α]

namespace HandoffLock

/-- One act, where it is lawful. -/
def step (l : HandoffLock α) : LockAct α → Option (HandoffLock α)
  | .acquired a => if l.grip = .free ∧ l.queue = [] then some { l with grip := .held a } else none
  | .arrived a =>
    if l.grip ≠ .free ∧ l.grip ≠ .granted a ∧ a ∉ l.queue ∧ a ∉ l.late then
      some { l with queue := l.queue ++ [a] }
    else none
  | .released a => if l.grip = .held a then some { l with grip := .free } else none
  | .granted a =>
    if l.grip = .free ∧ l.queue.head? = some a then some { l with grip := .granted a, queue := l.queue.tail }
    else none
  | .expired a =>
    if a ∈ l.queue then some { l with queue := l.queue.erase a, late := a :: l.late } else none
  | .returned a true => if l.grip = .granted a then some { l with grip := .held a } else none
  | .returned a false => if a ∈ l.late then some { l with late := l.late.erase a } else none
  | .stray _ => none

omit [DecidableEq α] in
theorem of_guard {p : Prop} [Decidable p] {l l' : HandoffLock α}
    (h : (if p then some l else none) = some l') : p ∧ l = l' := by
  rwa [Option.ite_none_right_eq_some, Option.some_inj] at h

/-- Where a log leads. -/
def admits (acts : List (LockAct α)) (l : HandoffLock α) : Option (HandoffLock α) := acts.foldlM step l

theorem admits_append {acts acts' : List (LockAct α)} {l l' : HandoffLock α}
    (h : l.admits acts = some l') : l.admits (acts ++ acts') = l'.admits acts' := by
  rw [admits, List.foldlM_append]
  show (l.admits acts).bind _ = _
  rw [h]
  rfl

theorem admits_singleton {act : LockAct α} {l : HandoffLock α} : l.admits [act] = l.step act := by
  show (l.step act).bind _ = _
  cases l.step act <;> rfl

/-- Some waiters time out, one after the other. -/
theorem admits_expired {l : HandoffLock α} (hnodup : l.queue.Nodup) (as : List α) (has : as.Nodup)
    (hsub : ∀ a ∈ as, a ∈ l.queue) :
    l.admits (as.map .expired) =
      some { l with queue := l.queue.filter (· ∉ as), late := as.reverse ++ l.late } := by
  induction as generalizing l with
  | nil =>
    have hall : l.queue.filter (· ∉ ([] : List α)) = l.queue := List.filter_eq_self.mpr (by simp)
    rw [hall]
    rfl
  | cons a as ih =>
    obtain ⟨hnot, has⟩ := List.nodup_cons.mp has
    have hstep : l.step (.expired a) = some { l with queue := l.queue.erase a, late := a :: l.late } :=
      if_pos (hsub a List.mem_cons_self)
    show (l.step (.expired a)).bind _ = _
    rw [hstep]
    show HandoffLock.admits (as.map .expired) _ = _
    rw [ih (hnodup.erase a) has fun b hb => ?_]
    · have hfilter : (l.queue.erase a).filter (· ∉ as) = l.queue.filter (· ∉ a :: as) := by
        rw [hnodup.erase_eq_filter, List.filter_filter]
        apply List.filter_congr
        intro b _
        by_cases hb : b = a <;> simp [hb]
      rw [hfilter, List.reverse_cons, List.append_assoc]
      rfl
    · rw [hnodup.mem_erase_iff]
      refine ⟨?_, hsub b (List.mem_cons_of_mem a hb)⟩
      intro he
      exact hnot (he ▸ hb)

end HandoffLock

/-- **What a lawful log says**: one at a time is inside; those that got the lock, and those that wait for
it after them, came in that order; a waiter was made ready once, with the lock or without it, unless it
still waits, and its call returned accordingly. -/
structure Lawful (acts : List (LockAct α)) (l : HandoffLock α) : Prop where
  inside_eq : ∀ a, inside a acts = decide (l.grip = .held a)
  order : (grants acts ++ l.queue).Sublist (arrivals acts)
  once : ∀ a, (arrivals acts).count a = (grants acts).count a + (expiries acts).count a + l.queue.count a
  granted : ∀ a, (grants acts).count a = (returns acts true).count a + if l.grip = .granted a then 1 else 0
  late : ∀ a, (expiries acts).count a = (returns acts false).count a + l.late.count a
  nodup : l.queue.Nodup
  lateNodup : l.late.Nodup
  apart : ∀ a ∈ l.queue, a ∉ l.late
  reason : ∀ a, .stray a ∉ acts

namespace Lawful

open HandoffLock (of_guard)

variable {acts acts' : List (LockAct α)} {act : LockAct α} {l l' : HandoffLock α}

theorem start : Lawful [] ({} : HandoffLock α) where
  inside_eq _ := rfl
  order := .slnil
  once _ := rfl
  granted _ := rfl
  late _ := rfl
  nodup := .nil
  lateNodup := .nil
  apart _ h := absurd h List.not_mem_nil
  reason _ := List.not_mem_nil

/-- A waiter that leaves a queue, and comes after those that got the lock. -/
theorem order_erase (h : Lawful acts l) (a : α) : (grants acts ++ l.queue.erase a).Sublist (arrivals acts) :=
  (List.erase_sublist.append_left _).trans h.order

/-- **One act** keeps a log lawful. -/
theorem step (h : Lawful acts l) (hstep : l.step act = some l') : Lawful (acts ++ [act]) l' := by
  have hreason : (∀ a, act ≠ .stray a) → ∀ a, .stray a ∉ acts ++ [act] := by
    intro hact a hmem
    rcases List.mem_append.mp hmem with hmem | hmem
    · exact h.reason a hmem
    · exact hact a (List.mem_singleton.mp hmem).symm
  cases act with
  | acquired a =>
    obtain ⟨⟨hfree, hempty⟩, rfl⟩ := of_guard hstep
    refine ⟨fun x => ?_, ?_, fun x => ?_, fun x => ?_, fun x => ?_, h.nodup, h.lateNodup, h.apart,
      hreason nofun⟩
    · rw [inside_snoc, h.inside_eq, hfree]
      by_cases hx : a = x <;> simp [LockAct.enters, hx]
    · simpa [grants, arrivals] using h.order
    · simpa [grants, arrivals, expiries] using h.once x
    · simpa [grants, returns, hfree] using h.granted x
    · simpa [expiries, returns] using h.late x
  | arrived a =>
    obtain ⟨⟨_, _, hnot, hlate⟩, rfl⟩ := of_guard hstep
    refine ⟨fun x => ?_, ?_, fun x => ?_, fun x => ?_, fun x => ?_, ?_, h.lateNodup, fun x hx => ?_,
      hreason nofun⟩
    · rw [inside_snoc, h.inside_eq]
      rfl
    · have := h.order.append (List.Sublist.refl [a])
      simpa [grants, arrivals] using this
    · have := h.once x
      simp [grants, arrivals, expiries, List.count_append] at this ⊢
      omega
    · simpa [grants, returns] using h.granted x
    · simpa [expiries, returns] using h.late x
    · exact List.nodup_append.mpr ⟨h.nodup, List.nodup_singleton a, fun b hb c hc he =>
        hnot (List.mem_singleton.mp hc ▸ he ▸ hb)⟩
    · rcases List.mem_append.mp hx with hx | hx
      · exact h.apart x hx
      · exact List.mem_singleton.mp hx ▸ hlate
  | released a =>
    obtain ⟨hheld, rfl⟩ := of_guard hstep
    refine ⟨fun x => ?_, ?_, fun x => ?_, fun x => ?_, fun x => ?_, h.nodup, h.lateNodup, h.apart,
      hreason nofun⟩
    · rw [inside_snoc, h.inside_eq, hheld]
      by_cases hx : a = x <;> simp [LockAct.enters, hx]
    · simpa [grants, arrivals] using h.order
    · simpa [grants, arrivals, expiries] using h.once x
    · simpa [grants, returns, hheld] using h.granted x
    · simpa [expiries, returns] using h.late x
  | granted a =>
    obtain ⟨⟨hfree, hhead⟩, rfl⟩ := of_guard hstep
    have hqueue : l.queue = a :: l.queue.tail := (List.cons_head?_tail hhead).symm
    refine ⟨fun x => ?_, ?_, fun x => ?_, fun x => ?_, fun x => ?_, h.nodup.tail, h.lateNodup,
      fun x hx => h.apart x (List.mem_of_mem_tail hx), hreason nofun⟩
    · rw [inside_snoc, h.inside_eq, hfree]
      rfl
    · have := h.order
      rw [hqueue] at this
      simpa [grants, arrivals] using this
    · have := h.once x
      rw [hqueue] at this
      simp [grants, arrivals, expiries, List.count_append, List.count_cons] at this ⊢
      omega
    · have := h.granted x
      by_cases hx : a = x <;> simp [grants, returns, hfree, hx, List.count_append] at this ⊢ <;> omega
    · simpa [expiries, returns] using h.late x
  | expired a =>
    obtain ⟨hmem, rfl⟩ := of_guard hstep
    refine ⟨fun x => ?_, ?_, fun x => ?_, fun x => ?_, fun x => ?_, h.nodup.erase a,
      List.nodup_cons.mpr ⟨h.apart a hmem, h.lateNodup⟩, fun x hx => ?_, hreason nofun⟩
    · rw [inside_snoc, h.inside_eq]
      rfl
    · simpa [grants, arrivals] using h.order_erase a
    · have := h.once x
      rw [(List.perm_cons_erase hmem).count_eq x] at this
      simp [grants, arrivals, expiries, List.count_append, List.count_cons] at this ⊢
      omega
    · simpa [grants, returns] using h.granted x
    · have := h.late x
      simp [expiries, returns, List.count_append, List.count_cons] at this ⊢
      omega
    · obtain ⟨hne, hx⟩ := h.nodup.mem_erase_iff.mp hx
      exact List.not_mem_cons_of_ne_of_not_mem hne (h.apart x hx)
  | returned a success =>
    cases success with
    | true =>
      obtain ⟨hgranted, rfl⟩ := of_guard hstep
      refine ⟨fun x => ?_, ?_, fun x => ?_, fun x => ?_, fun x => ?_, h.nodup, h.lateNodup, h.apart,
      hreason nofun⟩
      · rw [inside_snoc, h.inside_eq, hgranted]
        by_cases hx : a = x <;> simp [LockAct.enters, hx]
      · simpa [grants, arrivals] using h.order
      · simpa [grants, arrivals, expiries] using h.once x
      · have := h.granted x
        by_cases hx : a = x <;> simp [grants, returns, hgranted, hx, List.count_append] at this ⊢ <;> omega
      · simpa [expiries, returns] using h.late x
    | false =>
      obtain ⟨hmem, rfl⟩ := of_guard hstep
      refine ⟨fun x => ?_, ?_, fun x => ?_, fun x => ?_, fun x => ?_, h.nodup,
        h.lateNodup.erase a, fun x hx he => h.apart x hx (List.mem_of_mem_erase he), hreason nofun⟩
      · rw [inside_snoc, h.inside_eq]
        rfl
      · simpa [grants, arrivals] using h.order
      · simpa [grants, arrivals, expiries] using h.once x
      · simpa [grants, returns] using h.granted x
      · have := h.late x
        rw [(List.perm_cons_erase hmem).count_eq x] at this
        simp [expiries, returns, List.count_append, List.count_cons] at this ⊢
        omega
  | stray a => cases hstep

/-- **A log that the lock admits** is lawful. -/
theorem run (h : Lawful acts l) (hrun : l.admits acts' = some l') : Lawful (acts ++ acts') l' := by
  induction acts' generalizing acts l with
  | nil =>
    cases hrun
    rwa [List.append_nil]
  | cons act acts' ih =>
    obtain ⟨m, hm, hrun⟩ := Option.bind_eq_some_iff.mp hrun
    rw [← List.singleton_append, ← List.append_assoc]
    exact ih (h.step hm) hrun

end Lawful

end Datara.Library
