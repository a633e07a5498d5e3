import Datara.Runtime.ChaseLev

/-!
# The deque is a deque

Between its decrement of `bottom` and its answer the owner still counts the last task (`limit`): a thread
that stole it before the decrement was seen, and the owner, meet on `top`. A thread that may still advance
`top` from where it loaded it finds a task there that the owner will not take without racing for it
(`Claimable`). With that, every operation acts on the tasks between `top` and `limit` as on a bounded deque
(`deque_exact`).
-/

namespace Datara.Runtime.Deque

open Library

variable {α Tid : Type}

/-- The owner has decremented `bottom` for a task that is still there, or that it has answered for. -/
def owed : OwnerPc α → Int
  | .popTop _ | .popEmpty _ | .popRead _ | .popLast _ _ | .popRace _ _ | .popSet _ _ => 1
  | _ => 0

/-- The end of the tasks in the deque. -/
def limit (s : Deque α Tid) : Int := s.bottom + owed s.owner

/-- What the slots between `top` and the end hold. -/
def stored (s : Deque α Tid) : List (Option α) :=
  (List.range (s.limit - s.top).toNat).map fun n : Nat => s.read (s.top + n)

/-- What the owner has loaded or written. -/
def OwnerOk (s : Deque α Tid) : Prop :=
  match s.owner with
  | .idle => True
  | .push _ b => b = s.bottom
  | .pushWrite _ b => b = s.bottom ∧ b - s.top < s.capacity
  | .pushStore task b => b = s.bottom ∧ b - s.top < s.capacity ∧ s.read b = some task
  | .pop b => b = s.bottom - 1
  | .popTop b => b = s.bottom
  | .popEmpty t => t = s.bottom + 1 ∧ s.top = t
  | .popRead b => b = s.bottom ∧ s.top ≤ b
  | .popLast b t => b = t ∧ t = s.bottom ∧ t ≤ s.top
  | .popRace t task => t = s.bottom ∧ t ≤ s.top ∧ (s.top = t → task = s.read t)
  | .popSet t _ => t = s.bottom ∧ s.top = t + 1

/-- A thread that advances `top` from here takes a task that the owner does not take unseen. -/
def Claimable (s : Deque α Tid) (t : Int) : Prop :=
  t ≤ s.top ∧ (s.top = t → t < s.limit ∧ ∀ b, s.owner = .popRead b → t < b)

/-- What a stealing thread has loaded or read. -/
def StealOk (s : Deque α Tid) : StealPc α → Prop
  | .idle => True
  | .top t => t ≤ s.top
  | .read t => s.Claimable t
  | .race t item => s.Claimable t ∧ (s.top = t → s.read t = some item)

/-- The invariant of a run, with the tasks in the deque. -/
structure Inv (k : Nat) (s : Deque α Tid) (tasks : List α) : Prop where
  capacity : s.capacity = 2 ^ k
  plays : Plays s.capacity s.history tasks
  ring : InRing s.capacity s.buffer s.top tasks
  length : (tasks.length : Int) = s.limit - s.top
  owner : s.OwnerOk
  stealers : ∀ th, s.StealOk (s.stealers th)

section
variable {k : Nat} {s s' : Deque α Tid} {tasks tasks' : List α} {th : Tid} {a : DequeAct α}

theorem slot_eq (hk : k ≤ 64) (hcap : s.capacity = 2 ^ k) (index : Int) :
    s.slot index = ringCell s.capacity index := by
  rw [slot, hcap]
  exact ringCell_mask hk index

theorem Inv.pos (h : Inv k s tasks) : 0 < s.capacity := by
  rw [h.capacity]
  exact Nat.pow_pos (by decide)

/-! ## A thread steals -/

variable {pc : StealPc α}

/-- After an advance of `top` nobody claims what is there from an earlier load. -/
theorem StealOk.advance (h : s.StealOk pc) (htop : s'.top = s.top + 1) : s'.StealOk pc := by
  have hclaim : ∀ t, t ≤ s.top → s'.Claimable t := fun t ht => ⟨by omega, fun heq => by omega⟩
  cases pc with
  | idle => trivial
  | top t =>
    have h : t ≤ s.top := h
    show t ≤ s'.top
    omega
  | read t => exact hclaim t h.1
  | race t item =>
    refine ⟨hclaim t h.1.1, fun heq => ?_⟩
    have := h.1.1
    omega

/-- The owner stands on nothing that an advance of `top` by a thread takes away. -/
theorem OwnerOk.advance (h : s.OwnerOk) (hclaim : s.Claimable s.top) (howner : s'.owner = s.owner)
    (hbottom : s'.bottom = s.bottom) (hcap : s'.capacity = s.capacity) (hbuffer : s'.buffer = s.buffer)
    (htop : s'.top = s.top + 1) : s'.OwnerOk := by
  have hlimit := (hclaim.2 rfl).1
  have hread := (hclaim.2 rfl).2
  have hslot : ∀ i, s'.read i = s.read i := by
    intro i
    rw [read, read, slot, slot, hcap, hbuffer]
  unfold OwnerOk at h ⊢
  rw [limit] at hlimit
  rw [howner, hbottom, hcap, htop]
  simp only [hslot]
  revert h hlimit
  cases ho : s.owner with
  | idle => exact fun _ _ => trivial
  | push task b => exact fun h _ => h
  | pushWrite task b =>
    intro h _
    exact ⟨h.1, by have := h.2; omega⟩
  | pushStore task b =>
    intro h _
    exact ⟨h.1, by have := h.2.1; omega, h.2.2⟩
  | pop b => exact fun h _ => h
  | popTop b => exact fun h _ => h
  | popEmpty t =>
    intro h hl
    simp only [owed] at h hl
    omega
  | popRead b =>
    intro h _
    exact ⟨h.1, hread b ho⟩
  | popLast b t =>
    intro h _
    exact ⟨h.1, h.2.1, by have := h.2.2; omega⟩
  | popRace t task =>
    intro h hl
    refine ⟨h.1, by omega, fun heq => ?_⟩
    omega
  | popSet t result =>
    intro h hl
    simp only [owed] at h hl
    omega

variable [DecidableEq Tid]

/-- A step of a stealing thread that leaves the deque as it is. -/
theorem Inv.stealer (h : Inv k s tasks) (hact : Acts s.capacity tasks a tasks)
    (hpc : s.StealOk pc) : Inv k ((s.log a).setStealer th pc) tasks where
  capacity := h.capacity
  plays := h.plays.snoc hact
  ring := h.ring
  length := h.length
  owner := h.owner
  stealers u := by
    show s.StealOk (Function.update s.stealers th pc u)
    rw [Function.update_apply]
    split
    · exact hpc
    · exact h.stealers u

theorem Inv.stealer_quiet (h : Inv k s tasks) (hpc : s.StealOk pc) :
    Inv k (s.setStealer th pc) tasks where
  capacity := h.capacity
  plays := h.plays
  ring := h.ring
  length := h.length
  owner := h.owner
  stealers u := by
    show s.StealOk (Function.update s.stealers th pc u)
    rw [Function.update_apply]
    split
    · exact hpc
    · exact h.stealers u

theorem inv_stolen {t : Int} {item : α} (hk : k ≤ 64) (h : Inv k s tasks)
    (hpc : s.stealers th = .race t item) (htop : s.top = t) :
    ∃ tasks', Inv k ({ s.log (.stolen item) with top := t + 1 }.setStealer th .idle) tasks' := by
  obtain ⟨hclaim, hitem⟩ : s.StealOk (.race t item) := hpc ▸ h.stealers th
  subst htop
  have hlimit := (hclaim.2 rfl).1
  have hlen := h.length
  cases tasks with
  | nil => simp at hlen; omega
  | cons x rest =>
    have hx : x = item := by
      have := hitem rfl
      rw [read, slot_eq hk h.capacity, h.ring.head] at this
      exact Option.some.inj this
    subst hx
    refine ⟨rest, h.capacity, h.plays.snoc (.stolen x), h.ring.tail, ?_,
      OwnerOk.advance h.owner hclaim rfl rfl rfl rfl rfl, fun u => ?_⟩
    · show (rest.length : Int) = s.limit - (s.top + 1)
      rw [List.length_cons] at hlen
      omega
    · show StealOk _ (Function.update s.stealers th .idle u)
      rw [Function.update_apply]
      split
      · trivial
      · exact StealOk.advance (h.stealers u) rfl

theorem inv_steal (hk : k ≤ 64) (h : Inv k s tasks) : ∃ tasks', Inv k (s.stealStep th) tasks' := by
  have hok := h.stealers th
  rw [stealStep]
  cases hpc : s.stealers th with
  | idle =>
    refine ⟨tasks, h.stealer_quiet ?_⟩
    exact Int.le_refl s.top
  | top t =>
    simp only
    split
    case isTrue => exact ⟨tasks, h.stealer .stealEmpty trivial⟩
    case isFalse hlt =>
      rw [hpc] at hok
      refine ⟨tasks, h.stealer_quiet ⟨hok, fun _ => ⟨?_, fun b hb => ?_⟩⟩⟩
      · rw [limit, owed.eq_def]
        split <;> omega
      · have howner := h.owner
        rw [OwnerOk, hb] at howner
        omega
  | read t =>
    rw [hpc] at hok
    simp only
    cases hread : s.read t with
    | some item => exact ⟨tasks, h.stealer_quiet ⟨hok, fun _ => hread⟩⟩
    | none => exact ⟨tasks, h.stealer .stealEmpty trivial⟩
  | race t item =>
    simp only
    split
    case isTrue htop => exact inv_stolen hk h hpc htop
    case isFalse => exact ⟨tasks, h.stealer .stealAbort trivial⟩

/-! ## The owner -/

omit [DecidableEq Tid] in
/-- Stealing threads keep what they claim when `top` stays, the end does not come down to it, and its slot
is not written. -/
theorem StealOk.owned (h : s.StealOk pc) (htop : s'.top = s.top)
    (hclaim : s.Claimable s.top → s'.Claimable s'.top)
    (hread : s.Claimable s.top → s'.read s.top = s.read s.top) : s'.StealOk pc := by
  have hkeep : ∀ t, s.Claimable t → s'.Claimable t := by
    intro t ht
    refine ⟨htop ▸ ht.1, fun heq => ?_⟩
    have heq' : s.top = t := htop ▸ heq
    subst heq'
    exact (htop ▸ hclaim ht).2 heq
  cases pc with
  | idle => trivial
  | top t =>
    show t ≤ s'.top
    rw [htop]
    exact h
  | read t => exact hkeep t h
  | race t item =>
    refine ⟨hkeep t h.1, fun heq => ?_⟩
    have heq' : s.top = t := htop ▸ heq
    subst heq'
    rw [hread h.1]
    exact h.2 rfl

omit [DecidableEq Tid] in
/-- A step of the owner that keeps the tasks, `top` and the slots. -/
theorem Inv.own (h : Inv k s tasks) {pc : OwnerPc α} {b : Int} {acts : List (DequeAct α)}
    (hplays : Plays s.capacity acts tasks)
    (hlimit : b + owed pc = s.bottom + owed s.owner)
    (hok : OwnerOk { s with owner := pc, bottom := b, history := acts })
    (hread : ∀ b, pc = .popRead b → s.owner = .popRead b ∨ s.top < b) :
    Inv k { s with owner := pc, bottom := b, history := acts } tasks where
  capacity := h.capacity
  plays := hplays
  ring := h.ring
  length := by
    rw [limit, hlimit]
    exact h.length
  owner := hok
  stealers th := by
    refine StealOk.owned (h.stealers th) rfl (fun hc => ⟨hc.1, fun heq => ?_⟩) fun _ => rfl
    refine ⟨?_, fun b hb => ?_⟩
    · show s.top < b + owed pc
      rw [hlimit]
      exact (hc.2 rfl).1
    obtain hb | hb := hread b hb
    · exact (hc.2 rfl).2 b hb
    · exact hb

omit [DecidableEq Tid] in
/-- **The owner's step.** -/
theorem inv_owner (hk : k ≤ 64) (h : Inv k s tasks) (hstep : s.ownerStep = some s') :
    ∃ tasks', Inv k s' tasks' := by
  have hok := h.owner
  have hlen := h.length
  have hpos := h.pos
  unfold OwnerOk at hok
  unfold ownerStep at hstep
  cases ho : s.owner <;> simp only [ho] at hok hstep <;> rw [limit, ho] at hlen <;>
    simp only [owed] at hlen
  case idle => cases hstep
  case push task b =>
    split at hstep
    case isTrue hfull =>
      cases hstep
      have hle := h.ring.length
      refine ⟨tasks, h.own (h.plays.snoc (.saturated task ?_)) ?_ trivial nofun⟩
      · omega
      · rw [ho]
        rfl
    case isFalse hroom =>
      cases hstep
      refine ⟨tasks, h.own h.plays ?_ ⟨hok, ?_⟩ nofun⟩
      · rw [ho]
        rfl
      · show b - s.top < s.capacity
        omega
  case pushWrite task b =>
    cases hstep
    have hslot := slot_eq hk h.capacity
    have hb : b = s.top + tasks.length := by omega
    refine ⟨tasks, h.capacity, h.plays, ?_, ?_, ⟨hok.1, hok.2, ?_⟩, fun th => ?_⟩
    · refine h.ring.update fun n hn => ?_
      rw [hslot, hb]
      exact ringCell_ne hpos (by omega) (by omega)
    · exact hlen
    · exact Function.update_self ..
    · refine StealOk.owned (h.stealers th) rfl (fun hc => ⟨hc.1, fun heq => ⟨?_, nofun⟩⟩) fun hc => ?_
      · have := (hc.2 rfl).1
        rw [limit, ho] at this
        exact this
      · have hlt := (hc.2 rfl).1
        simp only [limit, ho, owed] at hlt
        show Function.update s.buffer (s.slot b) (some task) (s.slot s.top) = s.buffer (s.slot s.top)
        refine Function.update_of_ne ?_ ..
        rw [hslot, hslot]
        exact ringCell_ne hpos (by omega) (by omega)
  case pushStore task b =>
    cases hstep
    have hslot := slot_eq hk h.capacity
    have hb : b = s.top + tasks.length := by omega
    have hring : InRing s.capacity s.buffer s.top (tasks ++ [task]) := by
      have := h.ring.push (x := task) (by omega)
      rwa [← hb, ← hslot, ← hok.2.2, read, Function.update_eq_self] at this
    refine ⟨tasks ++ [task], h.capacity, h.plays.snoc (.pushed task (by omega)), hring, ?_, trivial,
      fun th => ?_⟩
    · show ((tasks ++ [task]).length : Int) = b + 1 + 0 - s.top
      rw [List.length_append, List.length_singleton]
      omega
    · refine StealOk.owned (h.stealers th) rfl (fun hc => ⟨hc.1, fun heq => ⟨?_, nofun⟩⟩) fun _ => rfl
      have := (hc.2 rfl).1
      show s.top < b + 1 + 0
      omega
  case pop b =>
    cases hstep
    refine ⟨tasks, h.own h.plays ?_ rfl nofun⟩
    simp only [ho, owed]
    omega
  case popTop b =>
    split at hstep
    case isTrue hlt =>
      cases hstep
      have hnil : tasks = [] := List.eq_nil_of_length_eq_zero (by omega)
      subst hnil
      refine ⟨[], h.own (h.plays.snoc .popNone) ?_ ⟨?_, rfl⟩ nofun⟩
      · rw [ho]
        rfl
      · show s.top = s.bottom + 1
        omega
    case isFalse hge =>
      split at hstep
      case isTrue hlt =>
        cases hstep
        refine ⟨tasks, h.own h.plays ?_ ⟨hok, ?_⟩ fun b' hb' => .inr ?_⟩
        · rw [ho]
          rfl
        · exact Int.le_of_lt hlt
        · cases hb'
          exact hlt
      case isFalse hle =>
        cases hstep
        refine ⟨tasks, h.own h.plays ?_ ⟨?_, ?_, Int.le_refl _⟩ nofun⟩
        · rw [ho]
          rfl
        · omega
        · show s.top = s.bottom
          omega
  case popEmpty t =>
    cases hstep
    refine ⟨tasks, h.own h.plays ?_ trivial nofun⟩
    simp only [ho, owed]
    omega
  case popRead b =>
    cases hstep
    obtain hnil | ⟨rest, task, rfl⟩ := List.eq_nil_or_concat' tasks
    · rw [hnil] at hlen
      simp at hlen
      omega
    · rw [List.length_append, List.length_singleton] at hlen
      have hlast : s.read b = some task := by
        have := h.ring.last
        rw [read, slot_eq hk h.capacity, ← this]
        congr 2
        omega
      refine ⟨rest, h.capacity, ?_, h.ring.dropLast, ?_, trivial, fun th => ?_⟩
      · rw [hlast]
        exact h.plays.snoc (.popped task)
      · show (rest.length : Int) = s.bottom + 0 - s.top
        omega
      · refine StealOk.owned (h.stealers th) rfl (fun hc => ⟨hc.1, fun heq => ⟨?_, nofun⟩⟩) fun _ => rfl
        have := (hc.2 rfl).2 b ho
        show s.top < s.bottom + 0
        omega
  case popLast b t =>
    cases hstep
    refine ⟨tasks, h.own h.plays ?_ ⟨hok.2.1, hok.2.2, fun _ => ?_⟩ nofun⟩
    · rw [ho]
      rfl
    · rw [hok.1]
      rfl
  case popRace t task =>
    split at hstep
    case isTrue heq =>
      cases hstep
      cases tasks with
      | nil => simp at hlen; omega
      | cons x rest =>
        rw [List.length_cons] at hlen
        have hnil : rest = [] := List.eq_nil_of_length_eq_zero (by omega)
        subst hnil
        have htask : task = some x := by
          rw [hok.2.2 heq, ← heq, read, slot_eq hk h.capacity]
          exact h.ring.head
        subst htask
        have hact : Acts s.capacity ([] ++ [x]) (.popped x) [] := Acts.popped x
        refine ⟨[], h.capacity, h.plays.snoc hact, .nil, ?_, ⟨hok.1, rfl⟩, fun th => ?_⟩
        · show (0 : Int) = s.bottom + 1 - (t + 1)
          omega
        · refine StealOk.advance (h.stealers th) ?_
          show t + 1 = s.top + 1
          omega
    case isFalse hne =>
      cases hstep
      have hnil : tasks = [] := List.eq_nil_of_length_eq_zero (by omega)
      subst hnil
      refine ⟨[], h.own (h.plays.snoc .popNone) ?_ ⟨hok.1, ?_⟩ nofun⟩
      · rw [ho]
        rfl
      · show s.top = t + 1
        omega
  case popSet t result =>
    cases hstep
    refine ⟨tasks, h.own h.plays ?_ trivial nofun⟩
    simp only [ho, owed]
    omega

/-- **One step** keeps the invariant. -/
theorem inv_step {e : DequeEvent α Tid} (hk : k ≤ 64) (h : Inv k s tasks) (hstep : step e s = some s') :
    ∃ tasks', Inv k s' tasks' := by
  unfold step at hstep
  split at hstep
  case h_1 task ho =>
    cases hstep
    refine ⟨tasks, h.own h.plays ?_ rfl nofun⟩
    rw [ho]
    rfl
  case h_2 ho =>
    cases hstep
    refine ⟨tasks, h.own h.plays ?_ rfl nofun⟩
    rw [ho]
    rfl
  case h_3 => exact inv_owner hk h hstep
  case h_4 t _ =>
    cases hstep
    exact inv_steal hk h
  case h_5 => cases hstep

omit [DecidableEq Tid] in
theorem inv_new : Inv k ({ capacity := 2 ^ k } : Deque α Tid) [] :=
  ⟨rfl, .nil, .nil, rfl, trivial, fun _ => trivial⟩

omit [DecidableEq Tid] in
/-- The slots between `top` and the end hold the tasks. -/
theorem Inv.stored_eq (hk : k ≤ 64) (h : Inv k s tasks) : s.stored = tasks.map some := by
  have hlen : (s.limit - s.top).toNat = tasks.length := by
    have := h.length
    omega
  apply List.ext_getElem
  · rw [stored, List.length_map, List.length_range, List.length_map, hlen]
  · intro n h₁ h₂
    simp only [stored, List.getElem_map, List.getElem_range, read, slot_eq hk h.capacity]
    exact h.ring.item n _ (List.getElem?_eq_getElem _)

end

end Datara.Runtime.Deque
