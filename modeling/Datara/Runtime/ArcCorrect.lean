import Datara.Runtime.Arc

/-!
# The allocation is freed once

`release` and `weak_drop` bring one count to zero and then read the other. When no count comes to zero while
a thread that brought the other one there has yet to read it (`Apart`), one thread at most is left to free
the allocation, and it finds both counts zero (`arc_managed`).
-/

namespace Datara.Runtime

open Library

namespace ArcThread

/-- The handles a thread has in the weak count. -/
def counted (th : ArcThread) : Int :=
  th.weak + match th.pc with
    | .create | .createUndo | .drop => 1
    | _ => 0

/-- What an operation in progress rests on. -/
def Owns (th : ArcThread) : Prop :=
  match th.pc with
  | .acquire prev | .release prev => 0 < prev ∧ 0 < th.strong
  | .create | .createUndo => 0 < th.strong
  | .upgrade _ => 0 < th.weak
  | .aborted => False
  | _ => True

/-- It has brought a count to zero, and may free the allocation. -/
def Closing (th : ArcThread) : Prop :=
  th.pc = .releaseCheck ∨ th.pc = .dropCheck ∨ th.pc = .free

end ArcThread

namespace Arc

variable {Tid : Type} [DecidableEq Tid]

/-- No count comes to zero while a thread that has brought the other one there is still to read it. -/
def Apart (e : ArcEvent Tid) (s : Arc Tid) : Prop :=
  match e with
  | .next t _ =>
    match (s.threads t).pc with
    | .release prev => s.strong = prev → prev = 1 → ∀ u, (s.threads u).pc ≠ .dropCheck
    | .drop => s.weak = 1 → ∀ u, (s.threads u).pc ≠ .releaseCheck
    | _ => True
  | _ => True

section
variable [Fintype Tid] {s s' : Arc Tid} {t u : Tid} {th : ArcThread}

/-- The invariant of a run. -/
structure Inv (s : Arc Tid) : Prop where
  strong : s.strong = ∑ t, ((s.threads t).strong : Int)
  weak : s.weak = ∑ t, (s.threads t).counted
  owns : ∀ t, (s.threads t).Owns
  late : s.late = false
  /-- While a reference is left, nobody is about to free. -/
  alive : 0 < s.strong → s.frees = [] ∧
    ∀ t, (s.threads t).pc ≠ .releaseCheck ∧ (s.threads t).pc ≠ .free
  /-- After the last one, one thread at most is. -/
  one : s.strong = 0 → ∀ t u, (s.threads t).Closing → (s.threads u).Closing → t = u
  closing : s.strong = 0 → ∀ t, (s.threads t).Closing →
    s.frees = [] ∧ ((s.threads t).pc ≠ .releaseCheck → s.weak = 0)
  left : s.strong = 0 → s.weak = 0 → s.frees = [] → ∃ t, (s.threads t).Closing
  freed : s.frees = [] ∨ s.frees = [(0, 0)] ∧ s.strong = 0 ∧ s.weak = 0

theorem sum_update (f : ArcThread → Int) (g : Tid → ArcThread) (t : Tid) (th : ArcThread) :
    ∑ u, f (Function.update g t th u) = ∑ u, f (g u) - f (g t) + f th := by
  rw [← Finset.add_sum_erase _ _ (Finset.mem_univ t),
    ← Finset.add_sum_erase Finset.univ (fun u => f (g u)) (Finset.mem_univ t), Function.update_self]
  have hrest : ∑ u ∈ Finset.univ.erase t, f (Function.update g t th u) =
      ∑ u ∈ Finset.univ.erase t, f (g u) := by
    refine Finset.sum_congr rfl fun u hu => ?_
    rw [Function.update_of_ne (Finset.ne_of_mem_erase hu)]
  rw [hrest]
  omega

theorem counted_nonneg (th : ArcThread) : 0 ≤ th.counted := by
  unfold ArcThread.counted
  split <;> omega

omit [DecidableEq Tid] in
theorem Inv.strong_le (h : Inv s) (t : Tid) : ((s.threads t).strong : Int) ≤ s.strong := by
  rw [h.strong]
  exact Finset.single_le_sum (f := fun u => ((s.threads u).strong : Int))
    (fun u _ => Int.natCast_nonneg _) (Finset.mem_univ t)

omit [DecidableEq Tid] in
theorem Inv.counted_le (h : Inv s) (t : Tid) : (s.threads t).counted ≤ s.weak := by
  rw [h.weak]
  exact Finset.single_le_sum (f := fun u => (s.threads u).counted)
    (fun u _ => counted_nonneg _) (Finset.mem_univ t)

omit [DecidableEq Tid] in
theorem Inv.strong_nonneg (h : Inv s) : 0 ≤ s.strong := by
  rw [h.strong]
  exact Finset.sum_nonneg fun u _ => Int.natCast_nonneg _

omit [DecidableEq Tid] in
/-- A thread with a reference or a counted handle has the header to itself to read. -/
theorem Inv.unfreed (h : Inv s) (t : Tid) (ht : 0 < (s.threads t).strong ∨ 0 < (s.threads t).counted) :
    s.frees = [] := by
  obtain h' | ⟨-, hs, hw⟩ := h.freed
  · exact h'
  · have h₁ := h.strong_le t
    have h₂ := h.counted_le t
    omega

/-! ## One thread changes -/

/-- What is the same whatever the thread does: the two sums, and what operations rest on. -/
structure Changed (s s' : Arc Tid) (t : Tid) (th : ArcThread) : Prop where
  threads : s'.threads = Function.update s.threads t th
  strong : s'.strong = s.strong - (s.threads t).strong + th.strong
  weak : s'.weak = s.weak - (s.threads t).counted + th.counted
  owns : th.Owns
  late : s'.late = false

omit [Fintype Tid] in
theorem Changed.self (c : Changed s s' t th) : s'.threads t = th := by
  rw [c.threads, Function.update_self]

section
variable (c : Changed s s' t th)
include c

omit [Fintype Tid] in
theorem Changed.other (hu : u ≠ t) : s'.threads u = s.threads u := by
  rw [c.threads, Function.update_of_ne hu]

theorem Changed.sum_strong (h : Inv s) :
    s'.strong = ∑ u, ((s'.threads u).strong : Int) := by
  rw [c.threads, sum_update (fun th => (th.strong : Int)), c.strong, h.strong]

theorem Changed.sum_weak (h : Inv s) : s'.weak = ∑ u, (s'.threads u).counted := by
  rw [c.threads, sum_update ArcThread.counted, c.weak, h.weak]

theorem Changed.all_owns (h : Inv s) (u : Tid) : (s'.threads u).Owns := by
  by_cases hu : u = t
  · rw [hu, c.self]
    exact c.owns
  · rw [c.other hu]
    exact h.owns u

end

omit [Fintype Tid] in
/-- Another thread that is about to free was so before. -/
theorem Changed.closing_of (c : Changed s s' t th) (hth : ¬th.Closing)
    (hu : (s'.threads u).Closing) : u ≠ t ∧ (s.threads u).Closing := by
  by_cases hut : u = t
  · rw [hut, c.self] at hu
    exact absurd hu hth
  · rw [c.other hut] at hu
    exact ⟨hut, hu⟩

/-- **A thread that is not about to free**, before and after. -/
theorem Inv.quiet (h : Inv s) (c : Changed s s' t th) (hold : ¬(s.threads t).Closing)
    (hth : ¬th.Closing) (hfrees : s'.frees = s.frees) (hzero : s'.strong = 0 ↔ s.strong = 0)
    (hweak : s.strong = 0 → (s'.weak = 0 ↔ s.weak = 0)) : Inv s' where
  strong := c.sum_strong h
  weak := c.sum_weak h
  owns := c.all_owns h
  late := c.late
  alive hpos := by
    have := h.strong_nonneg
    have halive := h.alive (by omega)
    refine ⟨hfrees.trans halive.1, fun u => ?_⟩
    by_cases hu : u = t
    · rw [hu, c.self]
      exact ⟨fun hp => hth (.inl hp), fun hp => hth (.inr (.inr hp))⟩
    · rw [c.other hu]
      exact halive.2 u
  one hs u v hu hv :=
    h.one (hzero.mp hs) u v (c.closing_of hth hu).2 (c.closing_of hth hv).2
  closing hs u hu := by
    obtain ⟨hut, hcu⟩ := c.closing_of hth hu
    have hclosing := h.closing (hzero.mp hs) u hcu
    rw [c.other hut, hfrees, hweak (hzero.mp hs)]
    exact hclosing
  left hs hw hf := by
    obtain ⟨u, hu⟩ := h.left (hzero.mp hs) ((hweak (hzero.mp hs)).mp hw) (hfrees ▸ hf)
    have hut : u ≠ t := fun hut => hold (hut ▸ hu)
    exact ⟨u, by rwa [c.other hut]⟩
  freed := by
    rw [hfrees]
    refine h.freed.imp_right fun ⟨hf, hs, hw⟩ => ⟨hf, hzero.mpr hs, (hweak hs).mpr hw⟩

/-- **A thread becomes the one that is about to free**, or already was. -/
theorem Inv.closes (h : Inv s) (c : Changed s s' t th) (hfrees : s'.frees = s.frees)
    (hnone : s.frees = []) (hs' : s'.strong = 0) (hth : th.Closing)
    (hweak : th.pc ≠ .releaseCheck → s'.weak = 0)
    (hothers : ∀ u, u ≠ t → ¬(s.threads u).Closing) : Inv s' where
  strong := c.sum_strong h
  weak := c.sum_weak h
  owns := c.all_owns h
  late := c.late
  alive hpos := by omega
  one _ u v hu hv := by
    have honly : ∀ w, (s'.threads w).Closing → w = t := by
      intro w hw
      by_contra hwt
      rw [c.other hwt] at hw
      exact hothers w hwt hw
    rw [honly u hu, honly v hv]
  closing _ u hu := by
    have hut : u = t := by
      by_contra hut
      rw [c.other hut] at hu
      exact hothers u hut hu
    rw [hut, c.self, hfrees]
    exact ⟨hnone, hweak⟩
  left _ _ _ := ⟨t, by rwa [c.self]⟩
  freed := .inl (hfrees.trans hnone)

omit [DecidableEq Tid] in
/-- After the last reference, a thread that is about to free is alone. -/
theorem Inv.alone (h : Inv s) (hs : s.strong = 0) (ht : (s.threads t).Closing) :
    ∀ u, u ≠ t → ¬(s.threads u).Closing :=
  fun u hut hu => hut (h.one hs u t hu ht)

/-- **A reference is left**, before and after. -/
theorem Inv.living (h : Inv s) (c : Changed s s' t th) (hpos : 0 < s.strong) (hpos' : 0 < s'.strong)
    (hfrees : s'.frees = s.frees) (hth : th.pc ≠ .releaseCheck ∧ th.pc ≠ .free) : Inv s' where
  strong := c.sum_strong h
  weak := c.sum_weak h
  owns := c.all_owns h
  late := c.late
  alive _ := by
    refine ⟨hfrees.trans (h.alive hpos).1, fun u => ?_⟩
    by_cases hu : u = t
    · rwa [hu, c.self]
    · rw [c.other hu]
      exact (h.alive hpos).2 u
  one hs := by omega
  closing hs := by omega
  left hs := by omega
  freed := .inl (hfrees.trans (h.alive hpos).1)

/-- **The thread that was about to free is not any more**: it frees, or a handle is left. -/
theorem Inv.settles (h : Inv s) (c : Changed s s' t th) (hs : s.strong = 0) (ht : (s.threads t).Closing)
    (hth : ¬th.Closing) (hs' : s'.strong = 0)
    (hfreed : s'.frees = [] ∧ s'.weak ≠ 0 ∨ s'.frees = [(0, 0)] ∧ s'.weak = 0) : Inv s' := by
  have hnone : ∀ u, ¬(s'.threads u).Closing := by
    intro u hu
    obtain ⟨hut, hu⟩ := c.closing_of hth hu
    exact h.alone hs ht u hut hu
  exact {
    strong := c.sum_strong h
    weak := c.sum_weak h
    owns := c.all_owns h
    late := c.late
    alive := fun hpos => by omega
    one := fun _ u _ hu => absurd hu (hnone u)
    closing := fun _ u hu => absurd hu (hnone u)
    left := fun _ hw hf => by
      obtain ⟨-, hw'⟩ | ⟨hf', -⟩ := hfreed
      · exact absurd hw hw'
      · rw [hf'] at hf
        cases hf
    freed := hfreed.imp (·.1) fun ⟨hf, hw⟩ => ⟨hf, hs', hw⟩ }

omit [DecidableEq Tid] in
/-- **A reference or a handle changes hands.** -/
theorem Inv.moved (h : Inv s) (hpc : ∀ u, (s'.threads u).pc = (s.threads u).pc)
    (hcounts : s'.strong = s.strong ∧ s'.weak = s.weak) (hfrees : s'.frees = s.frees)
    (hlate : s'.late = s.late) (howns : ∀ u, (s'.threads u).Owns)
    (hstrong : ∑ u, ((s'.threads u).strong : Int) = ∑ u, ((s.threads u).strong : Int))
    (hweak : ∑ u, (s'.threads u).counted = ∑ u, (s.threads u).counted) : Inv s' := by
  have hclosing : ∀ u, (s'.threads u).Closing ↔ (s.threads u).Closing := by
    intro u
    rw [ArcThread.Closing, ArcThread.Closing, hpc]
  exact {
    strong := by rw [hcounts.1, h.strong, hstrong]
    weak := by rw [hcounts.2, h.weak, hweak]
    owns := howns
    late := hlate.trans h.late
    alive := by
      rw [hcounts.1, hfrees]
      simp only [hpc]
      exact h.alive
    one := by
      rw [hcounts.1]
      simp only [hclosing]
      exact h.one
    closing := by
      rw [hcounts.1, hcounts.2, hfrees]
      simp only [hpc, hclosing]
      exact h.closing
    left := by
      rw [hcounts.1, hcounts.2, hfrees]
      simp only [hclosing]
      exact h.left
    freed := by
      rw [hcounts.1, hcounts.2, hfrees]
      exact h.freed }

/-! ## Steps -/

omit [DecidableEq Tid] in
theorem Inv.touch_late (h : Inv s) (hfrees : s.frees = []) : s.touch.late = false := by
  show (s.late || !s.frees.isEmpty) = false
  rw [h.late, hfrees]
  rfl

omit [DecidableEq Tid] in
theorem Inv.pos_of_owned (h : Inv s) (ht : 0 < (s.threads t).strong) : 0 < s.strong := by
  have := h.strong_le t
  omega

theorem inv_start {op : ArcOp} (h : Inv s) (hstep : s.start t op = some s') : Inv s' := by
  have howned := h.strong_le t
  by_cases hidle : (s.threads t).pc = .idle
  case neg =>
    simp only [start, ne_eq, hidle, not_false_eq_true, if_true, reduceCtorEq] at hstep
  case pos =>
    simp only [start, ne_eq, hidle, not_true_eq_false, if_false] at hstep
    have hold : ¬(s.threads t).Closing := by simp [ArcThread.Closing, hidle]
    have hcount : (s.threads t).counted = (s.threads t).weak := by
      simp [ArcThread.counted, hidle]
    cases op with
    | acquire | release =>
      simp only at hstep
      split at hstep
      · cases hstep
      · cases hstep
        have hpos : 0 < s.strong := by omega
        refine h.living (t := t) ⟨rfl, ?_, ?_, ?_, h.touch_late (h.alive hpos).1⟩ hpos hpos rfl ?_
        · simp [setThread, touch]
        · simp [setThread, touch, ArcThread.counted, hidle]
        · exact ⟨hpos, Nat.pos_of_ne_zero ‹_›⟩
        · exact ⟨nofun, nofun⟩
    | weakCreate =>
      simp only at hstep
      split at hstep
      · cases hstep
      · cases hstep
        have hpos : 0 < s.strong := by omega
        refine h.living (t := t) ⟨rfl, ?_, ?_, ?_, h.touch_late (h.alive hpos).1⟩ hpos hpos rfl ?_
        · simp [setThread, touch]
        · simp [setThread, touch, ArcThread.counted, hidle]
          omega
        · exact Nat.pos_of_ne_zero ‹_›
        · exact ⟨nofun, nofun⟩
    | weakUpgrade =>
      simp only at hstep
      split at hstep
      · cases hstep
      · cases hstep
        have hunfreed := h.unfreed t (.inr (by omega))
        refine h.quiet (t := t) ⟨rfl, ?_, ?_, ?_, h.touch_late hunfreed⟩ hold ?_ rfl .rfl fun _ => .rfl
        · simp [setThread, touch]
        · simp [setThread, touch, ArcThread.counted, hidle]
        · exact Nat.pos_of_ne_zero ‹_›
        · simp [ArcThread.Closing]
    | weakDrop =>
      simp only at hstep
      split at hstep
      · cases hstep
      · cases hstep
        refine h.quiet (t := t) ⟨rfl, ?_, ?_, trivial, h.late⟩ hold ?_ rfl .rfl fun _ => .rfl
        · simp [setThread]
        · simp [setThread, ArcThread.counted, hidle]
          omega
        · simp [ArcThread.Closing]

theorem inv_next {malloc : Bool} (h : Inv s) (hapart : Apart (.next t malloc) s)
    (hstep : s.next t malloc = some s') : Inv s' := by
  have howns := h.owns t
  have howned := h.strong_le t
  have hcounted := h.counted_le t
  rw [Apart] at hapart
  cases hpc : (s.threads t).pc <;>
    simp only [next, hpc, reduceCtorEq] at hstep <;>
    simp only [ArcThread.Owns, hpc] at howns <;>
    simp only [hpc] at hapart <;>
    simp only [ArcThread.counted, hpc] at hcounted
  case acquire prev =>
    have hpos : 0 < s.strong := by omega
    have hlate := h.touch_late (h.alive hpos).1
    rw [if_neg (by omega)] at hstep
    split at hstep
    case isTrue heq =>
      cases hstep
      refine h.living (t := t) ⟨rfl, ?_, ?_, trivial, hlate⟩ hpos ?_ rfl ⟨nofun, nofun⟩
      · simp [setThread, touch]
        omega
      · simp [setThread, touch, ArcThread.counted, hpc]
      · show 0 < prev + 1
        omega
    case isFalse =>
      cases hstep
      refine h.living (t := t) ⟨rfl, ?_, ?_, ⟨hpos, howns.2⟩, hlate⟩ hpos hpos rfl ⟨nofun, nofun⟩
      · simp [setThread, touch]
      · simp [setThread, touch, ArcThread.counted, hpc]
  case release prev =>
    have hpos : 0 < s.strong := by omega
    have halive := h.alive hpos
    have hlate := h.touch_late halive.1
    rw [if_neg (by omega)] at hstep
    split at hstep
    case isTrue heq =>
      cases hstep
      by_cases hlast : prev = 1
      · subst hlast
        refine h.closes (t := t) ⟨rfl, ?_, ?_, trivial, hlate⟩ rfl halive.1 rfl (.inl rfl)
          (fun hne => absurd rfl hne) fun u _ hu => ?_
        · simp [setThread, touch]
          omega
        · simp [setThread, touch, ArcThread.counted, hpc]
        · obtain hu | hu | hu := hu
          · exact (halive.2 u).1 hu
          · exact hapart heq rfl u hu
          · exact (halive.2 u).2 hu
      · rw [if_neg (by omega)]
        refine h.living (t := t) ⟨rfl, ?_, ?_, trivial, hlate⟩ hpos ?_ rfl ⟨nofun, nofun⟩
        · simp [setThread, touch]
          omega
        · simp [setThread, touch, ArcThread.counted, hpc]
        · show 0 < prev - 1
          omega
    case isFalse =>
      cases hstep
      refine h.living (t := t) ⟨rfl, ?_, ?_, ⟨hpos, howns.2⟩, hlate⟩ hpos hpos rfl ⟨nofun, nofun⟩
      · simp [setThread, touch]
      · simp [setThread, touch, ArcThread.counted, hpc]
  case releaseCheck =>
    cases hstep
    have hzero : s.strong = 0 := by
      by_contra hne
      exact ((h.alive (by omega)).2 t).1 hpc
    have hclosing := h.closing hzero t (.inl hpc)
    have hlate := h.touch_late hclosing.1
    by_cases hw : s.weak = 0
    · rw [if_pos hw]
      refine h.closes (t := t) ⟨rfl, ?_, ?_, trivial, hlate⟩ rfl hclosing.1 hzero (.inr (.inr rfl))
        (fun _ => hw) (h.alone hzero (.inl hpc))
      · simp [setThread, touch]
      · simp [setThread, touch, ArcThread.counted, hpc]
    · rw [if_neg hw]
      refine h.settles (t := t) ⟨rfl, ?_, ?_, trivial, hlate⟩ hzero (.inl hpc)
        (by simp [ArcThread.Closing]) hzero (.inl ⟨hclosing.1, hw⟩)
      · simp [setThread, touch]
      · simp [setThread, touch, ArcThread.counted, hpc]
  case create =>
    have hpos := h.pos_of_owned howns
    cases malloc with
    | true =>
      cases hstep
      refine h.living (t := t) ⟨rfl, ?_, ?_, trivial, h.late⟩ hpos hpos rfl ⟨nofun, nofun⟩
      · simp [setThread]
      · simp [setThread, ArcThread.counted, hpc]
    | false =>
      cases hstep
      refine h.living (t := t) ⟨rfl, ?_, ?_, howns, h.late⟩ hpos hpos rfl ⟨nofun, nofun⟩
      · simp [setThread]
      · simp [setThread, ArcThread.counted, hpc]
  case createUndo =>
    have hpos := h.pos_of_owned howns
    cases hstep
    refine h.living (t := t) ⟨rfl, ?_, ?_, trivial, h.touch_late (h.alive hpos).1⟩ hpos hpos rfl
      ⟨nofun, nofun⟩
    · simp [setThread, touch]
    · simp [setThread, touch, ArcThread.counted, hpc]
      omega
  case upgrade prev =>
    have hold : ¬(s.threads t).Closing := by simp [ArcThread.Closing, hpc]
    have hth : ∀ {pc : ArcPc} {n : Nat}, pc = .idle ∨ (∃ prev, pc = .upgrade prev) →
        ¬({ s.threads t with pc := pc, strong := n } : ArcThread).Closing := by
      intro pc n hpc'
      obtain rfl | ⟨_, rfl⟩ := hpc' <;> simp [ArcThread.Closing]
    have hlate := h.touch_late (h.unfreed t (.inr (by simp [ArcThread.counted, hpc, howns])))
    split at hstep
    case isTrue =>
      cases hstep
      refine h.quiet (t := t) ⟨rfl, ?_, ?_, trivial, h.late⟩ hold (hth (.inl rfl)) rfl .rfl fun _ => .rfl
      · simp [setThread]
      · simp [setThread, ArcThread.counted, hpc]
    case isFalse hprev =>
      split at hstep
      case isTrue heq =>
        cases hstep
        have hpos : 0 < s.strong := by omega
        refine h.living (t := t) ⟨rfl, ?_, ?_, trivial, hlate⟩ hpos ?_ rfl ⟨nofun, nofun⟩
        · simp [setThread, touch]
          omega
        · simp [setThread, touch, ArcThread.counted, hpc]
        · show 0 < prev + 1
          omega
      case isFalse =>
        cases hstep
        refine h.quiet (t := t) ⟨rfl, ?_, ?_, howns, hlate⟩ hold (hth (.inr ⟨_, rfl⟩)) rfl .rfl
          fun _ => .rfl
        · simp [setThread, touch]
        · simp [setThread, touch, ArcThread.counted, hpc]
  case drop =>
    cases hstep
    have hunfreed := h.unfreed t (.inr (by simp only [ArcThread.counted, hpc]; omega))
    have hlate := h.touch_late hunfreed
    have hchanged : ∀ pc, pc = .idle ∨ pc = .dropCheck → Changed s
        ({ s.touch with weak := s.weak - 1 }.setThread t { s.threads t with pc := pc }) t
        { s.threads t with pc := pc } := by
      intro pc hpc'
      refine ⟨rfl, ?_, ?_, ?_, hlate⟩
      · simp [setThread, touch]
      · obtain rfl | rfl := hpc' <;> simp [setThread, touch, ArcThread.counted, hpc] <;> omega
      · obtain rfl | rfl := hpc' <;> trivial
    by_cases hpos : 0 < s.strong
    · split
      · exact h.living (hchanged _ (.inr rfl)) hpos hpos rfl ⟨nofun, nofun⟩
      · exact h.living (hchanged _ (.inl rfl)) hpos hpos rfl ⟨nofun, nofun⟩
    · have hzero : s.strong = 0 := by omega
      split
      case isTrue hlast =>
        refine h.closes (hchanged _ (.inr rfl)) rfl hunfreed hzero (.inr (.inl rfl)) (fun _ => hlast)
          fun u _ hu => ?_
        have hclosing := h.closing hzero u hu
        have := hclosing.2 (hapart (by omega) u)
        omega
      case isFalse hlast =>
        refine h.quiet (hchanged _ (.inl rfl)) ?_ ?_ rfl .rfl fun _ => ?_
        · simp [ArcThread.Closing, hpc]
        · simp [ArcThread.Closing]
        · show s.weak - 1 = 0 ↔ s.weak = 0
          omega
  case dropCheck =>
    cases hstep
    by_cases hpos : 0 < s.strong
    · rw [if_neg (by omega)]
      refine h.living (t := t) ⟨rfl, ?_, ?_, trivial, h.touch_late (h.alive hpos).1⟩ hpos hpos rfl
        ⟨nofun, nofun⟩
      · simp [setThread, touch]
      · simp [setThread, touch, ArcThread.counted, hpc]
    · have hzero : s.strong = 0 := by omega
      have hclosing := h.closing hzero t (.inr (.inl hpc))
      rw [if_pos hzero]
      refine h.closes (t := t) ⟨rfl, ?_, ?_, trivial, h.touch_late hclosing.1⟩ rfl hclosing.1 hzero
        (.inr (.inr rfl)) (fun _ => hclosing.2 (by rw [hpc]; nofun)) (h.alone hzero (.inr (.inl hpc)))
      · simp [setThread, touch]
      · simp [setThread, touch, ArcThread.counted, hpc]
  case free =>
    cases hstep
    have hzero : s.strong = 0 := by
      by_contra hne
      exact ((h.alive (by omega)).2 t).2 hpc
    have hclosing := h.closing hzero t (.inr (.inr hpc))
    have hweak := hclosing.2 (by rw [hpc]; nofun)
    refine h.settles (t := t) ⟨rfl, ?_, ?_, trivial, h.late⟩ hzero (.inr (.inr hpc))
      (by simp [ArcThread.Closing]) hzero (.inr ⟨?_, hweak⟩)
    · simp [setThread]
    · simp [setThread, ArcThread.counted, hpc]
    · rw [hclosing.1, hzero, hweak]
      rfl

theorem Owns.more {th th' : ArcThread} (h : th.Owns) (hpc : th'.pc = th.pc) (hs : th.strong ≤ th'.strong)
    (hw : th.weak ≤ th'.weak) : th'.Owns := by
  revert h
  unfold ArcThread.Owns
  rw [hpc]
  split <;> intro h <;> first | exact h | omega

/-- **One idle thread gives, another gets.** -/
theorem Inv.handed (h : Inv s) {th₁ th₂ : ArcThread} (hidle : (s.threads t).pc = .idle)
    (hpc₁ : th₁.pc = .idle) (hpc₂ : th₂.pc = (Function.update s.threads t th₁ u).pc)
    (hmore : (Function.update s.threads t th₁ u).strong ≤ th₂.strong ∧
      (Function.update s.threads t th₁ u).weak ≤ th₂.weak)
    (hstrong : (th₁.strong : Int) + th₂.strong =
      (s.threads t).strong + (Function.update s.threads t th₁ u).strong)
    (hweak : th₁.counted + th₂.counted =
      (s.threads t).counted + (Function.update s.threads t th₁ u).counted) :
    Inv ((s.setThread t th₁).setThread u th₂) := by
  have hpc : ∀ v, (Function.update s.threads t th₁ v).pc = (s.threads v).pc := by
    intro v
    by_cases hv : v = t
    · rw [hv, Function.update_self, hpc₁, hidle]
    · rw [Function.update_of_ne hv]
  have howns : ∀ v, (Function.update s.threads t th₁ v).Owns := by
    intro v
    by_cases hv : v = t
    · rw [hv, Function.update_self, ArcThread.Owns, hpc₁]
      trivial
    · rw [Function.update_of_ne hv]
      exact h.owns v
  refine h.moved (fun v => ?_) ⟨rfl, rfl⟩ rfl rfl (fun v => ?_) ?_ ?_
  · show (Function.update (Function.update s.threads t th₁) u th₂ v).pc = _
    by_cases hv : v = u
    · rw [hv, Function.update_self, hpc₂, hpc]
    · rw [Function.update_of_ne hv, hpc]
  · show (Function.update (Function.update s.threads t th₁) u th₂ v).Owns
    by_cases hv : v = u
    · rw [hv, Function.update_self]
      exact Owns.more (howns u) hpc₂ hmore.1 hmore.2
    · rw [Function.update_of_ne hv]
      exact howns v
  · show ∑ v, ((Function.update (Function.update s.threads t th₁) u th₂ v).strong : Int) = _
    rw [sum_update (fun th => (th.strong : Int)), sum_update (fun th => (th.strong : Int))]
    omega
  · show ∑ v, (Function.update (Function.update s.threads t th₁) u th₂ v).counted = _
    rw [sum_update ArcThread.counted, sum_update ArcThread.counted]
    omega

theorem inv_giveStrong (h : Inv s) (hstep : s.giveStrong t u = some s') : Inv s' := by
  simp only [giveStrong] at hstep
  split at hstep
  · cases hstep
  · cases hstep
    have hne : ¬((s.threads t).pc ≠ .idle ∨ (s.threads t).strong = 0) := ‹_›
    rw [not_or, not_not] at hne
    refine h.handed hne.1 hne.1 rfl ⟨Nat.le_succ _, Nat.le_refl _⟩ ?_ ?_
    · simp only [setThread]
      omega
    · simp [ArcThread.counted, setThread]

theorem inv_giveWeak (h : Inv s) (hstep : s.giveWeak t u = some s') : Inv s' := by
  simp only [giveWeak] at hstep
  split at hstep
  · cases hstep
  · cases hstep
    have hne : ¬((s.threads t).pc ≠ .idle ∨ (s.threads t).weak = 0) := ‹_›
    rw [not_or, not_not] at hne
    refine h.handed hne.1 hne.1 rfl ⟨Nat.le_refl _, Nat.le_succ _⟩ rfl ?_
    simp only [ArcThread.counted, setThread, hne.1]
    omega

/-- **One step** keeps the invariant. -/
theorem inv_step {e : ArcEvent Tid} (h : Inv s) (hapart : Apart e s) (hstep : step e s = some s') : Inv s' := by
  cases e with
  | start t op => exact inv_start h hstep
  | next t malloc => exact inv_next h hapart hstep
  | giveStrong t u => exact inv_giveStrong h hstep
  | giveWeak t u => exact inv_giveWeak h hstep

theorem inv_init (t : Tid) : Inv (init t) := by
  have hpc : ∀ u, ((init t).threads u).pc = .idle := by
    intro u
    show (Function.update (fun _ => ({} : ArcThread)) t { strong := 1 } u).pc = _
    by_cases hu : u = t
    · rw [hu, Function.update_self]
    · rw [Function.update_of_ne hu]
  have hzero : (init t).strong ≠ 0 := by
    show (1 : Int) ≠ 0
    omega
  refine ⟨?_, ?_, fun u => ?_, rfl, fun _ => ⟨rfl, fun u => ?_⟩, fun hs => absurd hs hzero,
    fun hs => absurd hs hzero, fun hs => absurd hs hzero, .inl rfl⟩
  · show (1 : Int) = ∑ u, ((Function.update (fun _ => ({} : ArcThread)) t { strong := 1 } u).strong : Int)
    rw [sum_update (fun th => (th.strong : Int))]
    simp
  · show (0 : Int) = ∑ u, (Function.update (fun _ => ({} : ArcThread)) t { strong := 1 } u).counted
    rw [sum_update ArcThread.counted]
    simp [ArcThread.counted]
  · rw [ArcThread.Owns, hpc]
    trivial
  · rw [hpc]
    exact ⟨nofun, nofun⟩

omit [DecidableEq Tid] in
/-- What the invariant says of the allocation. -/
theorem Inv.managed (h : Inv s) : s.Managed where
  once := by
    obtain hf | ⟨hf, -⟩ := h.freed <;> rw [hf] <;> simp
  dead counts hcounts := by
    obtain hf | ⟨hf, -⟩ := h.freed <;> rw [hf] at hcounts
    · cases hcounts
    · exact List.mem_singleton.mp hcounts
  late := h.late
  last hdropped := by
    have hstrong : s.strong = 0 := by
      rw [h.strong]
      exact Finset.sum_eq_zero fun t _ => by rw [(hdropped t).2.1]; rfl
    have hweak : s.weak = 0 := by
      rw [h.weak]
      refine Finset.sum_eq_zero fun t _ => ?_
      simp [ArcThread.counted, (hdropped t).1, (hdropped t).2.2]
    obtain hf | ⟨hf, -⟩ := h.freed
    · obtain ⟨t, ht⟩ := h.left hstrong hweak hf
      simp [ArcThread.Closing, (hdropped t).1] at ht
    · rw [hf]
      rfl

end

/-- One thread makes a weak handle, and drops it after its reference. -/
def sampleRun : List (ArcEvent Bool) :=
  [.start false .weakCreate, .next false true, .start false .release, .next false true,
    .next false true, .start false .weakDrop, .next false true, .next false true, .next false true]

/-- The last release and the last drop meet: each finds the other's count at zero. -/
def doubleFree : List (ArcEvent Bool) :=
  [.start false .weakCreate, .next false true, .giveWeak false true, .start false .release,
    .next false true, .start true .weakDrop, .next true true, .next false true, .next true true,
    .next false true, .next true true]

end Arc

end Datara.Runtime
