import Datara.Library.Places
import Datara.Runtime.ParallelFor
import Mathlib.Data.Finset.Card
import Mathlib.Tactic.Linarith

/-!
# Every index exactly once

The beginning and the end of each index of each call is a token. A call brings its tokens in; the fetch-and-adds,
the chunks and the loops carry them from place to place, and what happens takes them away (`Ledger`). While one
call is parallel the process-wide variables are its own (`Busy`), so a run in which no two calls are parallel at
once, no creation fails and no position overflows loses none of them.
-/

namespace Datara.Runtime

open Library
open Option (bind_eq_some_iff ite_none_right_eq_some map_eq_some_iff some_inj)
open Function (update_of_ne update_self)

/-- That an index of a call begins, or that it ends. -/
structure ParToken where
  call : Nat
  index : Int
  ends : Bool
  deriving DecidableEq

/-- What happens to a token. -/
def ParToken.act (t : ParToken) : ParAct :=
  if t.ends then .ended (some t.call) (some t.call) t.index else .began (some t.call) (some t.call) t.index

theorem ParToken.act_inj {t u : ParToken} (h : t.act = u.act) : t = u := by
  obtain ⟨c, i, e⟩ := t
  obtain ⟨d, j, e'⟩ := u
  cases e <;> cases e' <;> cases h <;> rfl

theorem ParToken.act_began {t : ParToken} {fn ctx : Option Nat} {i : Int} (h : t.act = .began fn ctx i) :
    t = ⟨t.call, i, false⟩ ∧ fn = some t.call ∧ ctx = some t.call := by
  obtain ⟨c, j, e⟩ := t
  cases e <;> cases h
  exact ⟨rfl, rfl, rfl⟩

/-- Where a token is. -/
inductive ParPlace
  /-- Not claimed, in the process-wide variables. -/
  | pool
  | frame (c : Nat)
  | helper (w : Nat)
  | piece (k : Nat)
  /-- In what happened. -/
  | past
  deriving DecidableEq

/-! ## What a thread's part holds -/

namespace ParRange

variable {r r' : ParRange} {fn ctx : Option Nat} {a : ParAct} {i : Int} {ends : Bool}

def holds (r : ParRange) (i : Int) (ends : Bool) : Prop :=
  (r.next ≤ i ∧ i < r.stop) ∨ (ends = true ∧ r.running = some i)

/-- What runs is before the next. -/
def Fine (r : ParRange) : Prop := ∀ i, r.running = some i → i < r.next

theorem not_holds_spent (h : r.spent = true) : ¬r.holds i ends := by
  obtain ⟨hnone, hle⟩ := Bool.and_eq_true_iff.mp h
  have hle := of_decide_eq_true hle
  rintro (hi | ⟨-, hi⟩)
  · omega
  · rw [hi] at hnone
    cases hnone

theorem not_holds_empty {x y : Int} (h : y ≤ x) : ¬holds { next := x, stop := y } i ends := by
  rintro (hi | ⟨-, hi⟩)
  · have : x ≤ i ∧ i < y := hi
    omega
  · cases hi

theorem holds_new {x y : Int} : holds { next := x, stop := y } i ends ↔ x ≤ i ∧ i < y :=
  or_iff_left fun h => nomatch h.2

theorem begin_spec (h : r.begin fn ctx = some (a, r')) : a = .began fn ctx r.next ∧ r'.Fine ∧
    r.holds r.next false ∧ ∀ i ends, r'.holds i ends ↔ r.holds i ends ∧ ¬(i = r.next ∧ ends = false) := by
  obtain ⟨⟨hnone, hlt⟩, he⟩ := ite_none_right_eq_some.mp h
  cases he
  refine ⟨rfl, fun i hi => ?_, .inl ⟨Int.le_refl _, hlt⟩, fun i ends => ?_⟩
  · cases hi
    exact Int.lt_succ _
  · have hrun : (some r.next = some i) ↔ i = r.next := by rw [some_inj, eq_comm]
    show (r.next + 1 ≤ i ∧ i < r.stop) ∨ (ends = true ∧ some r.next = some i) ↔
      ((r.next ≤ i ∧ i < r.stop) ∨ (ends = true ∧ r.running = some i)) ∧ ¬(i = r.next ∧ ends = false)
    rw [hnone, hrun]
    cases ends <;> simp <;> omega

theorem finish_spec (hfine : r.Fine) (h : r.finish fn ctx = some (a, r')) : ∃ i, a = .ended fn ctx i ∧ r'.Fine ∧
    r.holds i true ∧ ∀ j ends, r'.holds j ends ↔ r.holds j ends ∧ ¬(j = i ∧ ends = true) := by
  obtain ⟨i, hi, he⟩ := map_eq_some_iff.mp h
  cases he
  refine ⟨i, rfl, nofun, .inr ⟨rfl, hi⟩, fun j ends => ?_⟩
  have hlt := hfine i hi
  have hrun : (some i = some j) ↔ j = i := by rw [some_inj, eq_comm]
  show (r.next ≤ j ∧ j < r.stop) ∨ (ends = true ∧ none = some j) ↔
    ((r.next ≤ j ∧ j < r.stop) ∨ (ends = true ∧ r.running = some j)) ∧ ¬(j = i ∧ ends = true)
  rw [hi, hrun]
  cases ends <;> simp <;> omega

end ParRange

def ParLoop.holds : ParLoop → ParToken → Prop
  | .each work r, t => work.fn = some t.call ∧ r.holds t.index t.ends
  | _, _ => False

def ParFrame.holds (c : Nat) : ParFrame → ParToken → Prop
  | .each r, t => t.call = c ∧ r.holds t.index t.ends
  | .store start work _ _, t => t.call = c ∧ start ≤ t.index ∧ t.index < work.stop
  | .share _ l, t => l.holds t
  | .split stop _ _ _ cur own _, t => t.call = c ∧ (own.holds t.index t.ends ∨ (cur ≤ t.index ∧ t.index < stop))
  | .first r _, t => t.call = c ∧ r.holds t.index t.ends
  | _, _ => False

/-- Between being marked parallel and being no more. -/
def ParFrame.parallel : ParFrame → Bool
  | .store .. | .wake .. | .share .. | .await .. => true
  | _ => false

/-- The threads that a call created and has not joined. -/
def ParFrame.threads : ParFrame → List Nat
  | .split _ _ _ _ _ _ threads | .first _ threads | .join threads => threads
  | _ => []

variable {start stop : Int}

namespace ParState

def holds (pool : ParToken → Prop) (s : ParState) : ParPlace → ParToken → Prop
  | .pool, t => pool t
  | .frame c, t => ∃ f, s.frames c = some f ∧ f.holds c t
  | .helper w, t => ∃ l, s.helpers w = some l ∧ l.holds t
  | .piece k, t => ∃ q, s.pieces k = some q ∧ t.call = q.1 ∧ q.2.holds t.index t.ends
  | .past, t => t.act ∈ s.acts

section
variable {pool : ParToken → Prop} {s : ParState} {t : ParToken} {c w k : Nat} {r : ParPlace}

theorem holds_frame {f : ParFrame} (hf : s.frames c = some f) : s.holds pool (.frame c) t ↔ f.holds c t := by
  constructor
  · rintro ⟨g, hg, h⟩
    cases hf.symm.trans hg
    exact h
  · exact fun h => ⟨f, hf, h⟩

theorem holds_helper {l : ParLoop} (hl : s.helpers w = some l) : s.holds pool (.helper w) t ↔ l.holds t := by
  constructor
  · rintro ⟨g, hg, h⟩
    cases hl.symm.trans hg
    exact h
  · exact fun h => ⟨l, hl, h⟩

theorem holds_piece {q : Nat × ParRange} (hq : s.pieces k = some q) :
    s.holds pool (.piece k) t ↔ t.call = q.1 ∧ q.2.holds t.index t.ends := by
  constructor
  · rintro ⟨g, hg, h⟩
    cases hq.symm.trans hg
    exact h
  · exact fun h => ⟨q, hq, h⟩

theorem not_holds_frame (hf : s.frames c = none) : ¬s.holds pool (.frame c) t := by
  rintro ⟨f, he, -⟩
  rw [hf] at he
  cases he

theorem not_holds_piece (hq : s.pieces k = none) : ¬s.holds pool (.piece k) t := by
  rintro ⟨q, he, -⟩
  rw [hq] at he
  cases he

end

/-! ## The ledger -/

/-- Every token of every call is at one place, and what happened took it away. -/
structure Ledger (pool : ParToken → Prop) (s : ParState) : Prop where
  exclusive : Exclusive (s.holds pool)
  known : ∀ t, (∃ p, s.holds pool p t) ↔
    ∃ start stop, .called t.call start stop ∈ s.acts ∧ start ≤ t.index ∧ t.index < stop
  once : ∀ fn ctx i, s.acts.count (.began fn ctx i) ≤ 1
  own : ∀ fn ctx i, .began fn ctx i ∈ s.acts → ∃ c, fn = some c ∧ ctx = some c
  finished : ∀ t, .returned t.call ∈ s.acts → ∀ p, s.holds pool p t → p = .past

namespace Ledger

variable {pool pool' : ParToken → Prop} {s s' : ParState} {t : ParToken} {p q : ParPlace} {c : Nat}

theorem count_snoc {acts : List ParAct} {a b : ParAct} (h : a ≠ b) : (acts ++ [b]).count a = acts.count a := by
  have hzero : [b].count a = 0 := List.count_eq_zero_of_not_mem fun ha => h (List.mem_singleton.mp ha)
  rw [List.count_append, hzero, Nat.add_zero]

section
variable (h : Ledger pool s)
include h

/-- **What the ledger says of the indices.** -/
theorem exactlyOnce : ExactlyOnce s.acts where
  once := h.once
  own fn ctx i hi := by
    obtain ⟨c, rfl, rfl⟩ := h.own fn ctx i hi
    obtain ⟨start, stop, hcalled, hin⟩ := (h.known ⟨c, i, false⟩).mp ⟨.past, hi⟩
    exact ⟨c, start, stop, rfl, rfl, hcalled, hin⟩
  all c start stop hcalled hreturned i hlo hhi := by
    have happened : ∀ ends, (ParToken.act ⟨c, i, ends⟩) ∈ s.acts := by
      intro ends
      obtain ⟨p, hp⟩ := (h.known ⟨c, i, ends⟩).mpr ⟨start, stop, hcalled, hlo, hhi⟩
      obtain rfl := h.finished _ hreturned p hp
      exact hp
    exact ⟨happened false, happened true⟩

theorem congr (hacts : s'.acts = s.acts)
    (hholds : ∀ r u, s'.holds pool' r u ↔ s.holds pool r u) : Ledger pool' s' := by
  have he : s'.holds pool' = s.holds pool := by
    ext r u
    exact hholds r u
  constructor
  · rw [he]
    exact h.exclusive
  · rw [he, hacts]
    exact h.known
  · rw [hacts]
    exact h.once
  · rw [hacts]
    exact h.own
  · rw [he, hacts]
    exact h.finished

theorem carry {S : ParToken → Prop} (hne : p ≠ q) (hpo : p ≠ .past)
    (hacts : s'.acts = s.acts) (hS : ∀ u, S u → s.holds pool p u)
    (hp : ∀ u, s'.holds pool' p u ↔ s.holds pool p u ∧ ¬S u) (hq : ∀ u, s'.holds pool' q u ↔ S u ∨ s.holds pool q u)
    (hrest : ∀ r u, r ≠ p → r ≠ q → (s'.holds pool' r u ↔ s.holds pool r u)) : Ledger pool' s' := by
  have hcarries := h.exclusive.carried hne hS hp hq hrest
  refine ⟨h.exclusive.carries hcarries, fun u => ?_, ?_, ?_, fun u hu r hr => ?_⟩
  · rw [hcarries.somewhere, h.known, hacts]
  · rw [hacts]
    exact h.once
  · rw [hacts]
    exact h.own
  · rw [hacts] at hu
    obtain ⟨hSu, -⟩ | ⟨-, hr⟩ := (hcarries.2 r u).mp hr
    · exact absurd (h.finished u hu p (hS u hSu)) hpo
    · exact h.finished u hu r hr

/-- A token is taken away, by what happens. -/
theorem give (hpo : p ≠ .past) (hacts : s'.acts = s.acts ++ [t.act]) (ht : s.holds pool p t)
    (hp : ∀ u, s'.holds pool p u ↔ s.holds pool p u ∧ u ≠ t)
    (hrest : ∀ r u, r ≠ p → r ≠ .past → (s'.holds pool r u ↔ s.holds pool r u)) : Ledger pool s' := by
  have hmem : ∀ {a : ParAct}, a ∈ s'.acts ↔ a ∈ s.acts ∨ a = t.act := by
    intro a
    rw [hacts, List.mem_append, List.mem_singleton]
  have hnew : t.act ∉ s.acts := fun ha => hpo (h.exclusive p .past t ht ha)
  have hover : ∀ u, s'.holds pool .past u ↔ u = t ∨ s.holds pool .past u := by
    intro u
    refine hmem.trans (or_comm.trans (or_congr_left ?_))
    exact ⟨ParToken.act_inj, congrArg _⟩
  have hcarries := h.exclusive.carried hpo (by rintro u rfl; exact ht) hp hover hrest
  have called : ∀ {d start stop}, .called d start stop ∈ s'.acts ↔ .called d start stop ∈ s.acts := by
    intro d start stop
    refine hmem.trans (or_iff_left fun he => ?_)
    rw [ParToken.act] at he
    split at he <;> cases he
  have returned : ∀ {d}, .returned d ∈ s'.acts ↔ .returned d ∈ s.acts := by
    intro d
    refine hmem.trans (or_iff_left fun he => ?_)
    rw [ParToken.act] at he
    split at he <;> cases he
  refine ⟨h.exclusive.carries hcarries, fun u => ?_, fun fn ctx i => ?_, fun fn ctx i hi => ?_, fun u hu r hr => ?_⟩
  · rw [hcarries.somewhere, h.known]
    simp [called]
  · rw [hacts, List.count_append]
    by_cases he : ParAct.began fn ctx i = t.act
    · rw [he, List.count_eq_zero_of_not_mem hnew, List.count_singleton_self]
    · rw [← List.count_append, count_snoc he]
      exact h.once fn ctx i
  · obtain hi | hi := hmem.mp hi
    · exact h.own fn ctx i hi
    · exact ⟨t.call, (ParToken.act_began hi.symm).2⟩
  · rw [returned] at hu
    obtain ⟨-, rfl⟩ | ⟨-, hr⟩ := (hcarries.2 r u).mp hr
    · rfl
    · exact h.finished u hu r hr

theorem returns (hacts : s'.acts = s.acts ++ [.returned c])
    (hholds : ∀ r u, r ≠ .past → (s'.holds pool' r u ↔ s.holds pool r u))
    (hover : ∀ r u, u.call = c → s.holds pool r u → r = .past) : Ledger pool' s' := by
  have hmem : ∀ {a : ParAct}, a ∈ s'.acts ↔ a ∈ s.acts ∨ a = .returned c := by
    intro a
    rw [hacts, List.mem_append, List.mem_singleton]
  have hholds : s'.holds pool' = s.holds pool := by
    ext r u
    by_cases hr : r = .past
    · subst hr
      refine hmem.trans (or_iff_left fun he => ?_)
      rw [ParToken.act] at he
      split at he <;> cases he
    · exact hholds r u hr
  refine ⟨?_, fun u => ?_, fun fn ctx i => ?_, fun fn ctx i hi => ?_, fun u hu r hr => ?_⟩
  · rw [hholds]
    exact h.exclusive
  · rw [hholds, h.known]
    simp [hmem, reduceCtorEq]
  · rw [hacts, count_snoc (by nofun)]
    exact h.once fn ctx i
  · exact h.own fn ctx i ((hmem.mp hi).resolve_right nofun)
  · rw [hholds] at hr
    obtain hu | hu := hmem.mp hu
    · exact h.finished u hu r hr
    · exact hover r u (ParAct.returned.inj hu) hr

theorem calls (hpo : p ≠ .past)
    (hacts : s'.acts = s.acts ++ [.called c start stop]) (hfresh : ∀ a b, .called c a b ∉ s.acts)
    (hunreturned : .returned c ∉ s.acts)
    (hp : ∀ u, s'.holds pool p u ↔ (u.call = c ∧ start ≤ u.index ∧ u.index < stop) ∨ s.holds pool p u)
    (hrest : ∀ r u, r ≠ p → r ≠ .past → (s'.holds pool r u ↔ s.holds pool r u)) : Ledger pool s' := by
  have hmem : ∀ {a : ParAct}, a ∈ s'.acts ↔ a ∈ s.acts ∨ a = .called c start stop := by
    intro a
    rw [hacts, List.mem_append, List.mem_singleton]
  have hover : ∀ u, s'.holds pool .past u ↔ s.holds pool .past u := by
    intro u
    refine hmem.trans (or_iff_left fun he => ?_)
    rw [ParToken.act] at he
    split at he <;> cases he
  have hbrings : Brings (s.holds pool) (s'.holds pool) (fun u => u.call = c ∧ start ≤ u.index ∧ u.index < stop) p := by
    refine ⟨?_, fun r u => ?_⟩
    · rintro u ⟨rfl, -⟩ r hr
      obtain ⟨a, b, hcalled, -⟩ := (h.known u).mp ⟨r, hr⟩
      exact hfresh a b hcalled
    · by_cases hrp : r = p
      · rw [hrp, hp, and_iff_left rfl]
      · rw [or_iff_right fun he => hrp he.2]
        by_cases hro : r = .past
        · rw [hro, hover]
        · exact hrest r u hrp hro
  refine ⟨h.exclusive.brings hbrings, fun u => ?_, fun fn ctx i => ?_, fun fn ctx i hi => ?_, fun u hu r hr => ?_⟩
  · rw [hbrings.somewhere, h.known]
    constructor
    · rintro (⟨rfl, hin⟩ | ⟨a, b, hcalled, hin⟩)
      · exact ⟨start, stop, hmem.mpr (.inr rfl), hin⟩
      · exact ⟨a, b, hmem.mpr (.inl hcalled), hin⟩
    · rintro ⟨a, b, hcalled, hin⟩
      obtain hcalled | he := hmem.mp hcalled
      · exact .inr ⟨a, b, hcalled, hin⟩
      · injection he with hcall hstart hstop
        exact .inl ⟨hcall, hstart ▸ hin.1, hstop ▸ hin.2⟩
  · rw [hacts, count_snoc (by nofun)]
    exact h.once fn ctx i
  · exact h.own fn ctx i ((hmem.mp hi).resolve_right nofun)
  · have hu := (hmem.mp hu).resolve_right nofun
    obtain ⟨⟨he, -⟩, -⟩ | hr := (hbrings.2 r u).mp hr
    · exact absurd (he ▸ hu) hunreturned
    · exact h.finished u hu r hr

end

end Ledger

end ParState

/-! ## The loop that is shared -/

theorem int64_of_range {x : Int} (hlo : -2 ^ 63 ≤ x) (hhi : x < 2 ^ 63) : int64 x = x := by
  rw [int64]
  omega

/-- The chunks that begin before the end are the first ones. -/
theorem position_lt {start stop chunk n : Int} (hchunk : 0 < chunk) :
    start + n * chunk < stop ↔ n < (stop - start + chunk - 1) / chunk := by
  rw [Int.lt_iff_add_one_le (b := _ / _), Int.le_ediv_iff_mul_le hchunk, Int.add_mul]
  omega

/-- The call that is parallel: what was fetched, and the participants that saw the end (0 is the caller). -/
structure ParShare where
  call : Nat
  start : Int
  stop : Int
  chunk : Int
  numW : Nat
  fetched : Nat := 0
  out : Finset Nat := ∅

namespace ParShare

/-- How the call describes its work. -/
def work (h : ParShare) : ParWork := { stop := h.stop, chunk := h.chunk, fn := some h.call, ctx := some h.call }

/-- What the next fetch is to see. -/
def pos (h : ParShare) : Int := h.start + h.fetched * h.chunk

def pool (h : ParShare) (t : ParToken) : Prop := t.call = h.call ∧ h.pos ≤ t.index ∧ t.index < h.stop

/-- The numbers of a call that goes parallel, where no position overflows. -/
structure Fits (h : ParShare) : Prop where
  start : -2 ^ 63 ≤ h.start ∧ h.start < 2 ^ 63
  stop : h.start ≤ h.stop
  chunk : 0 < h.chunk
  workers : 0 < h.numW
  last : ParState.lastFetch h.start h.stop h.chunk (h.numW - 1) < 2 ^ 63

/-- The process-wide variables are the call's. -/
structure Core (h : ParShare) (g : ParGlobals) : Prop where
  fits : h.Fits
  work : g.work = h.work
  cur : g.cur = int64 h.pos
  fetched : (h.fetched : Int) ≤ (h.stop - h.start + h.chunk - 1) / h.chunk + h.out.card
  out : ∀ p ∈ h.out, p < h.numW
  emptied : h.out.Nonempty → h.stop ≤ h.pos

/-- A participant in the loop. -/
def LoopOk (h : ParShare) (p : Nat) : ParLoop → Prop
  | .load work todo => todo.foldl h.work.copy work = h.work ∧ p ∉ h.out
  | .claim work => work = h.work ∧ p ∉ h.out
  | .each work r => work = h.work ∧ r.Fine ∧ p ∉ h.out
  | .left => p ∈ h.out

variable {h : ParShare} {g g' : ParGlobals} {l l' : ParLoop} {acts : List ParAct} {p : Nat}

theorem loopOk_enter (hp : p ∉ h.out) : h.LoopOk p .enter := ⟨rfl, hp⟩

theorem fetched_lt (hchunk : 0 < h.chunk) :
    h.pos < h.stop ↔ (h.fetched : Int) < (h.stop - h.start + h.chunk - 1) / h.chunk :=
  position_lt hchunk

/-- A participant that has not seen the end sees a position that did not overflow. -/
theorem Core.cur_eq (hcore : h.Core g) (hp : p < h.numW) (hout : p ∉ h.out) : g.cur = h.pos := by
  have hcard : h.out.card + 1 ≤ h.numW := by
    have hsub : insert p h.out ⊆ Finset.range h.numW := by
      intro q hq
      obtain rfl | hq := Finset.mem_insert.mp hq
      · exact Finset.mem_range.mpr hp
      · exact Finset.mem_range.mpr (hcore.out q hq)
    have := Finset.card_le_card hsub
    rwa [Finset.card_insert_of_notMem hout, Finset.card_range] at this
  have hchunk := hcore.fits.chunk
  have hstart := hcore.fits.start.1
  have hlast := hcore.fits.last
  have hle : (h.fetched : Int) * h.chunk ≤
      ((h.stop - h.start + h.chunk - 1) / h.chunk + (h.numW - 1 : Nat)) * h.chunk := by
    refine Int.mul_le_mul_of_nonneg_right ?_ hchunk.le
    have := hcore.fetched
    omega
  have hnonneg : 0 ≤ (h.fetched : Int) * h.chunk := Int.mul_nonneg (Int.natCast_nonneg _) hchunk.le
  rw [ParState.lastFetch] at hlast
  rw [hcore.cur]
  refine int64_of_range ?_ ?_ <;> rw [pos] <;> omega

theorem Core.next_lt (hcore : h.Core g) (hlt : h.pos < h.stop) : h.pos + h.chunk < 2 ^ 63 := by
  have hchunk := hcore.fits.chunk
  have hlast := hcore.fits.last
  have hle : ((h.fetched : Int) + 1) * h.chunk ≤
      ((h.stop - h.start + h.chunk - 1) / h.chunk + (h.numW - 1 : Nat)) * h.chunk := by
    refine Int.mul_le_mul_of_nonneg_right ?_ hchunk.le
    have := (fetched_lt hchunk).mp hlt
    omega
  rw [ParState.lastFetch] at hlast
  rw [Int.add_mul, Int.one_mul] at hle
  rw [pos]
  omega

/-- One participant goes on: it may fetch and see the end. -/
def Follows (h h' : ParShare) (p : Nat) : Prop :=
  ∃ n o, h' = { h with fetched := n, out := o } ∧ ∀ q, q ≠ p → (q ∈ o ↔ q ∈ h.out)

theorem Follows.refl : h.Follows h p := ⟨_, _, rfl, fun _ _ => .rfl⟩

theorem Follows.loopOk {h' : ParShare} {q : Nat} (hf : h.Follows h' p) (hq : q ≠ p) (hl : h.LoopOk q l) :
    h'.LoopOk q l := by
  obtain ⟨n, o, rfl, ho⟩ := hf
  cases l with
  | load => exact ⟨hl.1, fun hout => hl.2 ((ho q hq).mp hout)⟩
  | claim => exact ⟨hl.1, fun hout => hl.2 ((ho q hq).mp hout)⟩
  | each => exact ⟨hl.1, hl.2.1, fun hout => hl.2.2 ((ho q hq).mp hout)⟩
  | left => exact (ho q hq).mpr hl

/-- **The fetch-and-add** of a participant: the chunk it gets is taken from the pool, or there is none. -/
theorem claim_step (hcore : h.Core g) (hp : p < h.numW) (hout : p ∉ h.out)
    (hstep : (ParLoop.claim h.work).next g = some (g', acts, l')) :
    acts = [] ∧ ∃ h', h.Follows h' p ∧ h'.Core g' ∧ h'.LoopOk p l' ∧ (∀ u, h'.pool u ↔ h.pool u ∧ ¬l'.holds u) ∧
      ∀ u, l'.holds u → h.pool u := by
  have hchunk := hcore.fits.chunk
  have hcur := hcore.cur_eq hp hout
  rw [ParLoop.next.eq_def] at hstep
  simp only [hcur, Option.some.injEq, Prod.mk.injEq] at hstep
  obtain ⟨rfl, rfl, rfl⟩ := hstep
  refine ⟨rfl, ?_⟩
  have hpos : ∀ o, ParShare.pos { h with fetched := h.fetched + 1, out := o } = h.pos + h.chunk := by
    intro o
    show h.start + ((h.fetched + 1 : Nat) : Int) * h.chunk = h.start + h.fetched * h.chunk + h.chunk
    rw [Int.natCast_add, Int.add_mul, Int.natCast_one, Int.one_mul, Int.add_assoc]
  have hcur' : ∀ o, int64 (h.pos + h.work.chunk) = int64 (ParShare.pos { h with fetched := h.fetched + 1, out := o }) :=
    fun o => congrArg int64 (hpos o).symm
  by_cases hend : h.work.stop ≤ h.pos
  · rw [if_pos hend]
    have hend : h.stop ≤ h.pos := hend
    have hnone : ∀ o u, ¬ParShare.pool { h with fetched := h.fetched + 1, out := o } u := by
      rintro o u ⟨-, hlo, hhi⟩
      rw [hpos] at hlo
      have hhi : u.index < h.stop := hhi
      omega
    refine ⟨{ h with fetched := h.fetched + 1, out := insert p h.out }, ⟨_, _, rfl, fun q hq => ?_⟩,
      ⟨⟨hcore.fits.start, hcore.fits.stop, hchunk, hcore.fits.workers, hcore.fits.last⟩, hcore.work, hcur' _, ?_, ?_, fun _ => ?_⟩,
      Finset.mem_insert_self p h.out, fun u => ?_, fun u hu => hu.elim⟩
    · rw [Finset.mem_insert, or_iff_right hq]
    · show ((h.fetched + 1 : Nat) : Int) ≤ (h.stop - h.start + h.chunk - 1) / h.chunk + ((insert p h.out).card : Nat)
      rw [Finset.card_insert_of_notMem hout]
      have := hcore.fetched
      omega
    · intro q hq
      obtain rfl | hq := Finset.mem_insert.mp hq
      · exact hp
      · exact hcore.out q hq
    · rw [hpos]
      show h.stop ≤ _
      omega
    · refine iff_of_false (hnone _ u) fun hu => ?_
      obtain ⟨⟨-, hlo, hhi⟩, -⟩ := hu
      omega
  · rw [if_neg hend]
    have hlt : h.pos < h.stop := Int.not_le.mp hend
    have hfew := (fetched_lt hchunk).mp hlt
    have hnext := hcore.next_lt hlt
    have hstart := hcore.fits.start.1
    have hnonneg : 0 ≤ (h.fetched : Int) * h.chunk := Int.mul_nonneg (Int.natCast_nonneg _) hchunk.le
    have hpos' : h.pos = h.start + h.fetched * h.chunk := rfl
    have hmyEnd : int64 (h.pos + h.work.chunk) = h.pos + h.chunk := int64_of_range (by
      show _ ≤ h.pos + h.chunk
      omega) hnext
    rw [hmyEnd]
    have hholds : ∀ u, (ParLoop.each h.work ⟨h.pos, if h.work.stop < h.pos + h.chunk then h.work.stop
        else h.pos + h.chunk, none⟩).holds u ↔
        u.call = h.call ∧ h.pos ≤ u.index ∧ u.index < h.pos + h.chunk ∧ u.index < h.stop := by
      intro u
      refine and_congr ((some_inj (a := h.call)).trans eq_comm)
        (ParRange.holds_new.trans (and_congr_right fun _ => ?_))
      show u.index < (if h.stop < h.pos + h.chunk then h.stop else h.pos + h.chunk) ↔ _
      split <;> omega
    refine ⟨{ h with fetched := h.fetched + 1 }, ⟨_, _, rfl, fun _ _ => .rfl⟩,
      ⟨⟨hcore.fits.start, hcore.fits.stop, hchunk, hcore.fits.workers, hcore.fits.last⟩, hcore.work, hmyEnd.symm.trans (hcur' _), ?_,
        hcore.out, fun hne => ?_⟩, ⟨rfl, nofun, hout⟩, fun u => ?_, fun u hu => ?_⟩
    · show ((h.fetched + 1 : Nat) : Int) ≤ (h.stop - h.start + h.chunk - 1) / h.chunk + (h.out.card : Nat)
      omega
    · exact absurd (hcore.emptied hne) (Int.not_le.mpr hlt)
    · rw [hholds, pool, pool, hpos]
      show u.call = h.call ∧ _ ∧ u.index < h.stop ↔ _
      omega
    · rw [hholds] at hu
      exact ⟨hu.1, hu.2.1, hu.2.2.2⟩

/-- **A step in the shared loop**: it begins an index that the participant holds, or takes a chunk from the pool. -/
theorem loop_step (hcore : h.Core g) (hp : p < h.numW) (hl : h.LoopOk p l)
    (hstep : l.next g = some (g', acts, l')) :
    (∃ t, acts = [ParToken.act t] ∧ g' = g ∧ h.LoopOk p l' ∧ l.holds t ∧ ∀ u, l'.holds u ↔ l.holds u ∧ u ≠ t) ∨
    acts = [] ∧ ∃ h', h.Follows h' p ∧ h'.Core g' ∧ h'.LoopOk p l' ∧ (∀ u, ¬l.holds u) ∧
      (∀ u, h'.pool u ↔ h.pool u ∧ ¬l'.holds u) ∧ ∀ u, l'.holds u → h.pool u := by
  cases l with
  | load work todo =>
    cases todo with
    | nil =>
      obtain ⟨rfl, hout⟩ : work = h.work ∧ p ∉ h.out := hl
      cases hstep
      exact .inr ⟨rfl, h, .refl, hcore, ⟨rfl, hout⟩, fun _ => id, fun u => (and_iff_left id).symm, nofun⟩
    | cons x todo =>
      cases hstep
      refine .inr ⟨rfl, h, .refl, hcore, ⟨?_, hl.2⟩, fun _ => id, fun u => (and_iff_left id).symm, nofun⟩
      rw [hcore.work]
      exact hl.1
  | claim work =>
    obtain ⟨rfl, hout⟩ := hl
    obtain ⟨hacts, h', hf, hcore', hl', hpool, htaken⟩ := claim_step hcore hp hout hstep
    exact .inr ⟨hacts, h', hf, hcore', hl', fun _ => id, hpool, htaken⟩
  | each work r =>
    obtain ⟨rfl, hfine, hout⟩ := hl
    rw [ParLoop.next] at hstep
    split at hstep
    case isTrue hover =>
      cases hstep
      exact .inr ⟨rfl, h, .refl, hcore, ⟨rfl, hout⟩, fun u hu => ParRange.not_holds_spent hover hu.2,
        fun u => (and_iff_left id).symm, nofun⟩
    case isFalse =>
      obtain ⟨⟨a, r'⟩, hbegin, he⟩ := map_eq_some_iff.mp hstep
      obtain ⟨rfl, hfine', hheld, hholds⟩ := ParRange.begin_spec hbegin
      cases he
      refine .inl ⟨⟨h.call, r.next, false⟩, rfl, rfl, ⟨rfl, hfine', hout⟩, ⟨rfl, hheld⟩, fun u => ?_⟩
      show h.work.fn = some u.call ∧ r'.holds u.index u.ends ↔ (h.work.fn = some u.call ∧ r.holds u.index u.ends) ∧ _
      rw [hholds, and_assoc]
      refine and_congr_right fun hcall => and_congr_right fun _ => not_congr ?_
      obtain ⟨c, i, e⟩ := u
      obtain rfl : h.call = c := Option.some.inj hcall
      simp
  | left => cases hstep

theorem loop_finish {a : ParAct} (hl : h.LoopOk p l) (hstep : l.finish = some (a, l')) :
    ∃ t, a = ParToken.act t ∧ h.LoopOk p l' ∧ l.holds t ∧ ∀ u, l'.holds u ↔ l.holds u ∧ u ≠ t := by
  cases l with
  | each work r =>
    obtain ⟨rfl, hfine, hout⟩ := hl
    obtain ⟨⟨a, r'⟩, hfinish, he⟩ := map_eq_some_iff.mp hstep
    obtain ⟨i, rfl, hfine', hheld, hholds⟩ := ParRange.finish_spec hfine hfinish
    cases he
    refine ⟨⟨h.call, i, true⟩, rfl, ⟨rfl, hfine', hout⟩, ⟨rfl, hheld⟩, fun u => ?_⟩
    show h.work.fn = some u.call ∧ r'.holds u.index u.ends ↔ (h.work.fn = some u.call ∧ r.holds u.index u.ends) ∧ _
    rw [hholds, and_assoc]
    refine and_congr_right fun hcall => and_congr_right fun _ => not_congr ?_
    obtain ⟨c, j, e⟩ := u
    obtain rfl : h.call = c := Option.some.inj hcall
    simp
  | load => cases hstep
  | claim => cases hstep
  | left => cases hstep

end ParShare

namespace ParState

/-! ## The invariant of a run -/

/-- The process-wide variables are nobody's, are being set by a call, or are its own. -/
inductive ParPhase
  | quiet
  | preparing (h : ParShare)
  | busy (h : ParShare)

def ParPhase.pool : ParPhase → ParToken → Prop
  | .busy h => h.pool
  | _ => fun _ => False

/-- In the creation of the threads: the chunks so far are next to one another. -/
def SplitOk (stop chunkSize : Int) (cores i : Nat) (cur : Int) (own : ParRange) : Prop :=
  own.running = none ∧ own.stop ≤ cur ∧ (i = 0 → own.stop ≤ own.next) ∧
    ∃ start, -2 ^ 63 ≤ start ∧ 0 < chunkSize ∧ lastFetch start stop chunkSize 0 < 2 ^ 63 ∧
      stop ≤ start + cores * chunkSize ∧ i ≤ cores ∧ cur = min stop (start + i * chunkSize)

def FrameOk : ParFrame → Prop
  | .each r => r.Fine
  | .split stop chunkSize cores i cur own _ => SplitOk stop chunkSize cores i cur own
  | .first r _ => r.Fine
  | _ => True

/-- The calls and the created threads are in order. -/
structure Tidy (s : ParState) : Prop where
  fresh : ∀ c, s.calls ≤ c → s.frames c = none ∧ .returned c ∉ s.acts ∧ ∀ start stop, .called c start stop ∉ s.acts
  frames : ∀ c f, s.frames c = some f → FrameOk f
  pieces : ∀ k q, s.pieces k = some q → q.2.Fine ∧ k < s.created ∧ ∃ f, s.frames q.1 = some f ∧ k ∈ f.threads

/-- No other call than `c` is parallel. -/
def Only (s : ParState) (c : Nat) : Prop := ∀ d f, s.frames d = some f → f.parallel = true → d = c

/-- The pool's workers wait. -/
def Idle (s : ParState) : Prop := ∀ w, s.helpers w = none ∧ s.ready w = false

/-- The workers before it have been woken. -/
def awake : ParFrame → Nat
  | .wake w _ => w
  | .share numW _ => numW
  | .await _ numW => numW
  | _ => 0

/-- Where the parallel call is. -/
def OwnerOk (h : ParShare) (s : ParState) : ParFrame → Prop
  | .wake w numW => numW = h.numW ∧ 0 < w ∧ w ≤ numW ∧ 0 ∉ h.out
  | .share numW l => numW = h.numW ∧ h.LoopOk 0 l
  | .await w numW => numW = h.numW ∧ 0 ∈ h.out ∧ ∀ v, 0 < v → v < w → s.done v = true
  | _ => False

/-- A worker of the pool, of which those before `n` have been woken. -/
structure WorkerOk (h : ParShare) (n : Nat) (s : ParState) (w : Nat) : Prop where
  helps : ∀ l, s.helpers w = some l → s.ready w = false ∧ s.done w = false ∧ 0 < w ∧ w < n ∧ h.LoopOk w l
  woken : s.ready w = true → s.done w = false ∧ 0 < w ∧ w < n ∧ w ∉ h.out

structure Busy (h : ParShare) (s : ParState) : Prop where
  core : h.Core s.globals
  owner : ∃ f, s.frames h.call = some f ∧ OwnerOk h s f ∧ (∀ w, WorkerOk h (awake f) s w) ∧ ∀ p ∈ h.out, p < awake f

structure Preparing (h : ParShare) (s : ParState) : Prop where
  fits : h.Fits
  new : h.fetched = 0 ∧ h.out = ∅
  owner : ∃ todo, s.frames h.call = some (.store h.start h.work h.numW todo) ∧
    todo.foldl (ParGlobals.store h.start h.work) s.globals = ⟨h.start, h.work⟩
  idle : Idle s

def PhaseOk (s : ParState) : ParPhase → Prop
  | .quiet => (∀ d f, s.frames d = some f → f.parallel = false) ∧ Idle s
  | .preparing h => Preparing h s ∧ Only s h.call ∧ ∃ u, s.region u = true
  | .busy h => Busy h s ∧ Only s h.call ∧ ∃ u, s.region u = true

structure Inv (s : ParState) (ph : ParPhase) : Prop where
  ledger : Ledger ph.pool s
  tidy : Tidy s
  phase : PhaseOk s ph

variable {s s' : ParState} {ph ph' : ParPhase} {h b : ParShare} {c d w k : Nat} {f f' g : ParFrame} {t : ParToken}
  {p : ParPlace}

theorem frames_update (hf : s.frames c = some f) (hframes : s'.frames = Function.update s.frames c (some f')) :
    s'.frames c = some f' ∧ ∀ d, d ≠ c → s'.frames d = s.frames d := by
  rw [hframes]
  exact ⟨update_self .., fun d hd => update_of_ne hd ..⟩

theorem fresh_of_acts (hacts : s'.acts = s.acts ∨ ∃ t : ParToken, s'.acts = s.acts ++ [t.act])
    (hret : .returned d ∉ s.acts) (hcalled : ∀ start stop, .called d start stop ∉ s.acts) :
    .returned d ∉ s'.acts ∧ ∀ start stop, .called d start stop ∉ s'.acts := by
  obtain he | ⟨t, he⟩ := hacts
  · rw [he]
    exact ⟨hret, hcalled⟩
  · rw [he]
    have hnot : ∀ a : ParAct, a ∉ s.acts → a ≠ t.act → a ∉ s.acts ++ [t.act] := by
      intro a ha hne hmem
      exact (List.mem_append.mp hmem).elim ha fun hlast => hne (List.mem_singleton.mp hlast)
    refine ⟨hnot _ hret ?_, fun start stop => hnot _ (hcalled start stop) ?_⟩ <;>
      rw [ParToken.act] <;> split <;> nofun

theorem Tidy.step (h : Tidy s) (hf : s.frames c = some f)
    (hframes : s'.frames = Function.update s.frames c (some f')) (hok : FrameOk f') (hcalls : s'.calls = s.calls)
    (hacts : s'.acts = s.acts ∨ ∃ t : ParToken, s'.acts = s.acts ++ [t.act])
    (hpieces : ∀ k q, s'.pieces k = some q → q.2.Fine ∧ k < s'.created ∧
      ((q.1 = c ∧ k ∈ f'.threads) ∨ q.1 ≠ c ∧ ∃ r, s.pieces k = some r ∧ r.1 = q.1)) : Tidy s' := by
  obtain ⟨hself, hother⟩ := frames_update hf hframes
  refine ⟨fun d hd => ?_, fun d g hg => ?_, fun k q hq => ?_⟩
  · rw [hcalls] at hd
    obtain ⟨hnone, hret, hcalled⟩ := h.fresh d hd
    have hne : d ≠ c := by
      rintro rfl
      rw [hf] at hnone
      cases hnone
    exact ⟨(hother d hne).trans hnone, fresh_of_acts hacts hret hcalled⟩
  · by_cases hd : d = c
    · subst hd
      rw [hself] at hg
      cases hg
      exact hok
    · exact h.frames d g ((hother d hd).symm.trans hg)
  · obtain ⟨hfine, hlt, hmine | ⟨hne, r, hr, hcall⟩⟩ := hpieces k q hq
    · exact ⟨hfine, hlt, f', hmine.1 ▸ hself, hmine.2⟩
    · obtain ⟨-, -, g, hg, hk⟩ := h.pieces k r hr
      rw [hcall] at hg
      exact ⟨hfine, hlt, g, (hother _ hne).trans hg, hk⟩

theorem Tidy.go (h : Tidy s) (hf : s.frames c = some f)
    (hframes : s'.frames = Function.update s.frames c (some f')) (hok : FrameOk f') (hcalls : s'.calls = s.calls)
    (hacts : s'.acts = s.acts ∨ ∃ t : ParToken, s'.acts = s.acts ++ [t.act])
    (hsame : s'.pieces = s.pieces ∧ s'.created = s.created)
    (hthreads : ∀ k q, s.pieces k = some q → k ∈ f.threads → k ∈ f'.threads) : Tidy s' := by
  refine h.step hf hframes hok hcalls hacts fun k q hq => ?_
  rw [hsame.1] at hq
  rw [hsame.2]
  obtain ⟨hfine, hlt, g, hg, hk⟩ := h.pieces k q hq
  refine ⟨hfine, hlt, ?_⟩
  by_cases hc : q.1 = c
  · rw [hc, hf] at hg
    cases hg
    exact .inl ⟨hc, hthreads k q hq hk⟩
  · exact .inr ⟨hc, q, hq, rfl⟩

theorem Tidy.rest (h : Tidy s) (hframes : s'.frames = s.frames) (hcalls : s'.calls = s.calls)
    (hacts : s'.acts = s.acts ∨ ∃ t : ParToken, s'.acts = s.acts ++ [t.act]) (hcreated : s'.created = s.created)
    (hpieces : ∀ k q, s'.pieces k = some q → q.2.Fine ∧ ∃ r, s.pieces k = some r ∧ r.1 = q.1) : Tidy s' := by
  refine ⟨fun d hd => ?_, fun d g hg => ?_, fun k q hq => ?_⟩
  · rw [hcalls] at hd
    obtain ⟨hnone, hret, hcalled⟩ := h.fresh d hd
    exact ⟨hframes ▸ hnone, fresh_of_acts hacts hret hcalled⟩
  · exact h.frames d g (hframes ▸ hg)
  · obtain ⟨hfine, r, hr, hcall⟩ := hpieces k q hq
    obtain ⟨-, hlt, g, hg, hk⟩ := h.pieces k r hr
    exact ⟨hfine, hcreated ▸ hlt, g, hframes ▸ hcall ▸ hg, hk⟩

/-! ### What a step leaves as it is -/

theorem PhaseOk.congr (hph : PhaseOk s ph) (hglobals : s'.globals = s.globals) (hready : s'.ready = s.ready)
    (hdone : s'.done = s.done) (hregion : s'.region = s.region) (hhelpers : s'.helpers = s.helpers)
    (hframes : ∀ d f, f.parallel = true → (s'.frames d = some f ↔ s.frames d = some f)) : PhaseOk s' ph := by
  have only : ∀ {c}, Only s c → Only s' c := fun h d f hf hpar => h d f ((hframes d f hpar).mp hf) hpar
  cases ph with
  | quiet =>
    obtain ⟨hnone, hidle⟩ := hph
    refine ⟨fun d f hf => Bool.eq_false_iff.mpr fun hpar => ?_, fun w => ?_⟩
    · have := hnone d f ((hframes d f hpar).mp hf)
      rw [hpar] at this
      cases this
    · rw [hhelpers, hready]
      exact hidle w
  | preparing h =>
    obtain ⟨⟨hfits, hnew, ⟨todo, hf, htodo⟩, hidle⟩, honly, hu⟩ := hph
    refine ⟨⟨hfits, hnew, ⟨todo, (hframes _ _ rfl).mpr hf, hglobals ▸ htodo⟩, fun w => ?_⟩, only honly, hregion ▸ hu⟩
    rw [hhelpers, hready]
    exact hidle w
  | busy h =>
    obtain ⟨⟨hcore, f, hf, howner, hworkers, hout⟩, honly, hu⟩ := hph
    refine ⟨⟨hglobals ▸ hcore, f, (hframes _ _ ?_).mpr hf, ?_, fun w => ⟨?_, ?_⟩, hout⟩, only honly, hregion ▸ hu⟩
    · cases f <;> first | rfl | exact howner.elim
    · cases f <;> first | exact howner | exact ⟨howner.1, howner.2.1, fun v => by rw [hdone]; exact howner.2.2 v⟩
    · rw [hhelpers, hready, hdone]
      exact (hworkers w).helps
    · rw [hready, hdone]
      exact (hworkers w).woken

theorem PhaseOk.setFrame (hph : PhaseOk s ph) (hf : s.frames c = some f) (hpar : f.parallel = false)
    (hpar' : f'.parallel = false) (hframes : s'.frames = Function.update s.frames c (some f'))
    (hrest : s'.globals = s.globals ∧ s'.ready = s.ready ∧ s'.done = s.done ∧ s'.region = s.region ∧
      s'.helpers = s.helpers) : PhaseOk s' ph := by
  obtain ⟨hself, hother⟩ := frames_update hf hframes
  refine hph.congr hrest.1 hrest.2.1 hrest.2.2.1 hrest.2.2.2.1 hrest.2.2.2.2 fun d g hg => ?_
  by_cases hd : d = c
  · subst hd
    rw [hself, hf]
    refine iff_of_false ?_ ?_ <;> rintro ⟨⟩
    · rw [hpar'] at hg
      cases hg
    · rw [hpar] at hg
      cases hg
  · rw [hother d hd]

/-- The places that one call does not change. -/
theorem holds_other {pool : ParToken → Prop} (hf : s.frames c = some f)
    (hframes : s'.frames = Function.update s.frames c (some f')) (hhelpers : s'.helpers = s.helpers)
    (hpieces : s'.pieces = s.pieces) (hp : p ≠ .frame c) (hover : p ≠ .past) :
    s'.holds pool p t ↔ s.holds pool p t := by
  obtain ⟨-, hother⟩ := frames_update hf hframes
  cases p with
  | pool => exact .rfl
  | frame d =>
    have hd : d ≠ c := fun he => hp (he ▸ rfl)
    simp [holds, hother d hd]
  | helper w => simp only [holds, hhelpers]
  | piece k => simp only [holds, hpieces]
  | past => exact absurd rfl hover

/-! ### Calls that are not parallel -/

/-- An index begins or ends in a call. -/
theorem Inv.gives (h : Inv s ph) (hf : s.frames c = some f) (hpar : f.parallel = false) (hpar' : f'.parallel = false)
    (hok : FrameOk f') (hthreads : f'.threads = f.threads) (ht : f.holds c t)
    (hholds : ∀ u, f'.holds c u ↔ f.holds c u ∧ u ≠ t) : Inv ((s.setFrame c f').record [t.act]) ph := by
  refine ⟨h.ledger.give (p := .frame c) nofun rfl ((holds_frame hf).mpr ht) (fun u => ?_) fun r u hr hro => ?_,
    h.tidy.go hf rfl hok rfl (.inr ⟨t, rfl⟩) ⟨rfl, rfl⟩ fun k q _ hk => hthreads ▸ hk,
    h.phase.setFrame hf hpar hpar' rfl ⟨rfl, rfl, rfl, rfl, rfl⟩⟩
  · rw [holds_frame hf, holds_frame (update_self ..), hholds]
  · exact holds_other hf rfl rfl rfl hr hro

theorem Inv.goes (h : Inv s ph) (hf : s.frames c = some f) (hpar : f.parallel = false) (hpar' : f'.parallel = false)
    (hok : FrameOk f') (hthreads : ∀ k q, s.pieces k = some q → k ∈ f.threads → k ∈ f'.threads)
    (hholds : ∀ u, f'.holds c u ↔ f.holds c u) : Inv (s.setFrame c f') ph := by
  refine ⟨h.ledger.congr rfl fun r u => ?_, h.tidy.go hf rfl hok rfl (.inl rfl) ⟨rfl, rfl⟩ hthreads,
    h.phase.setFrame hf hpar hpar' rfl ⟨rfl, rfl, rfl, rfl, rfl⟩⟩
  by_cases hr : r = .frame c
  · rw [hr, holds_frame hf, holds_frame (update_self ..), hholds]
  · by_cases hro : r = .past
    · rw [hro]
      exact .rfl
    · exact holds_other hf rfl rfl rfl hr hro

theorem Inv.elsewhere (h : Inv s ph) (hp : s.holds ph.pool p t) : p = .past ∨ p = .frame t.call ∨
    (∃ k f, p = .piece k ∧ s.frames t.call = some f ∧ k ∈ f.threads) ∨
    ∃ b, ph = .busy b ∧ t.call = b.call ∧ (p = .pool ∨ ∃ w l, p = .helper w ∧ s.helpers w = some l) := by
  cases p with
  | past => exact .inl rfl
  | pool =>
    cases ph with
    | busy b => exact .inr (.inr (.inr ⟨b, rfl, hp.1, .inl rfl⟩))
    | quiet => exact hp.elim
    | preparing => exact hp.elim
  | frame d =>
    obtain ⟨f, hf, hp⟩ := hp
    suffices hcall : t.call = d from .inr (.inl (hcall ▸ rfl))
    cases f with
    | each | store | split | first => exact hp.1
    | wake | await | join => exact hp.elim
    | share numW l =>
      cases ph with
      | quiet => exact nomatch h.phase.1 d _ hf
      | preparing b =>
        obtain rfl := h.phase.2.1 d _ hf rfl
        obtain ⟨todo, ho, -⟩ := h.phase.1.owner
        exact nomatch Option.some.inj (hf.symm.trans ho)
      | busy b =>
        obtain rfl := h.phase.2.1 d _ hf rfl
        obtain ⟨g, ho, hown, -⟩ := h.phase.1.owner
        cases hf.symm.trans ho
        cases l with
        | each work r =>
          obtain rfl := hown.2.1
          exact (Option.some.inj hp.1).symm
        | load | claim | left => exact hp.elim
  | helper w =>
    obtain ⟨l, hl, hp⟩ := hp
    cases ph with
    | quiet => exact nomatch hl.symm.trans (h.phase.2 w).1
    | preparing b => exact nomatch hl.symm.trans (h.phase.1.idle w).1
    | busy b =>
      obtain ⟨g, -, -, hworkers, -⟩ := h.phase.1.owner
      obtain ⟨-, -, -, -, hok⟩ := (hworkers w).helps l hl
      cases l with
      | each work r =>
        obtain rfl := hok.1
        exact .inr (.inr (.inr ⟨b, rfl, (Option.some.inj hp.1).symm, .inr ⟨w, _, rfl, hl⟩⟩))
      | load | claim | left => exact hp.elim
  | piece k =>
    obtain ⟨q, hq, hcall, -⟩ := hp
    obtain ⟨-, -, f, hf, hk⟩ := h.tidy.pieces k q hq
    exact .inr (.inr (.inl ⟨k, f, rfl, hcall ▸ hf, hk⟩))

variable {th : ParThread}

theorem Inv.pops (h : Inv s ph) (hf : s.frames c = some f) (hthreads : f.threads = [])
    (hnone : ∀ u, ¬f.holds c u)
    (hshared : ∀ b, ph = .busy b → b.call = c → (∀ u, ¬b.pool u) ∧ ∀ w, s.helpers w = none)
    (hpool : ∀ u, ph'.pool u ↔ ph.pool u) (hphase : PhaseOk (s.pop th c) ph') : Inv (s.pop th c) ph' := by
  have hself : (s.pop th c).frames c = none := update_self ..
  have hother : ∀ d, d ≠ c → (s.pop th c).frames d = s.frames d := fun d hd => update_of_ne hd ..
  have hlt : c < s.calls := by
    by_contra hle
    have := (h.tidy.fresh c (Nat.not_lt.mp hle)).1
    rw [hf] at this
    cases this
  refine ⟨h.ledger.returns rfl (fun r u hro => ?_) fun r u hu hr => ?_, ⟨fun d hd => ?_, fun d g hg => ?_,
    fun k q hq => ?_⟩, hphase⟩
  · cases r with
    | pool => exact hpool u
    | frame d =>
      by_cases hd : d = c
      · subst hd
        exact iff_of_false (not_holds_frame hself) fun hu => hnone u ((holds_frame hf).mp hu)
      · simp [holds, hother d hd]
    | helper => exact .rfl
    | piece => exact .rfl
    | past => exact absurd rfl hro
  · obtain rfl | rfl | ⟨k, g, rfl, hg, hk⟩ | ⟨b, rfl, hcall, rfl | ⟨w, l, rfl, hl⟩⟩ := h.elsewhere hr
    · rfl
    · rw [hu] at hr
      exact absurd ((holds_frame hf).mp hr) (hnone u)
    · rw [hu, hf] at hg
      cases hg
      rw [hthreads] at hk
      cases hk
    · exact absurd hr ((hshared b rfl (hcall.symm.trans hu)).1 u)
    · rw [(hshared b rfl (hcall.symm.trans hu)).2 w] at hl
      cases hl
  · obtain ⟨hnone, hret, hcalled⟩ := h.tidy.fresh d hd
    have hd : s.calls ≤ d := hd
    have hne : d ≠ c := by omega
    refine ⟨(hother d hne).trans hnone, fun hr => ?_, fun start stop hc => ?_⟩
    · obtain hr | hr := List.mem_append.mp hr
      · exact hret hr
      · exact hne (ParAct.returned.inj (List.mem_singleton.mp hr))
    · obtain hc | hc := List.mem_append.mp hc
      · exact hcalled start stop hc
      · exact nomatch List.mem_singleton.mp hc
  · have hd : d ≠ c := by
      rintro rfl
      rw [hself] at hg
      cases hg
    exact h.tidy.frames d g ((hother d hd).symm.trans hg)
  · obtain ⟨hfine, hk, g, hg, hmem⟩ := h.tidy.pieces k q hq
    have hne : q.1 ≠ c := by
      rintro hc
      rw [hc, hf] at hg
      cases hg
      rw [hthreads] at hmem
      cases hmem
    exact ⟨hfine, hk, g, (hother _ hne).trans hg, hmem⟩

theorem Inv.returns (h : Inv s ph) (hf : s.frames c = some f) (hpar : f.parallel = false)
    (hthreads : f.threads = []) (hnone : ∀ u, ¬f.holds c u) : Inv (s.pop th c) ph := by
  refine h.pops hf hthreads hnone ?_ (fun _ => .rfl) (h.phase.congr rfl rfl rfl rfl rfl fun d g hg => ?_)
  · rintro b rfl rfl
    obtain ⟨g, hg, howner, -⟩ := h.phase.1.owner
    cases hf.symm.trans hg
    cases f <;> first | exact howner.elim | cases hpar
  · by_cases hd : d = c
    · subst hd
      refine iff_of_false ?_ ?_
      · rintro he
        exact nomatch (update_self ..).symm.trans he
      · rintro he
        cases hf.symm.trans he
        rw [hpar] at hg
        cases hg
    · show Function.update s.frames c none d = some g ↔ _
      rw [update_of_ne hd]

/-! ### Created threads -/

theorem PhaseOk.piece (hph : PhaseOk s ph) (hframes : s'.frames = s.frames) (hglobals : s'.globals = s.globals)
    (hready : s'.ready = s.ready) (hdone : s'.done = s.done) (hregion : s'.region = s.region)
    (hhelpers : s'.helpers = s.helpers) : PhaseOk s' ph :=
  hph.congr hglobals hready hdone hregion hhelpers fun d f _ => by rw [hframes]

theorem holds_otherPiece {pool : ParToken → Prop} {o : Option (Nat × ParRange)} (hframes : s'.frames = s.frames)
    (hhelpers : s'.helpers = s.helpers) (hpieces : s'.pieces = Function.update s.pieces k o) (hp : p ≠ .piece k)
    (hover : p ≠ .past) : s'.holds pool p t ↔ s.holds pool p t := by
  cases p with
  | pool => exact .rfl
  | frame d => simp only [holds, hframes]
  | helper w => simp only [holds, hhelpers]
  | piece j =>
    have hj : j ≠ k := fun he => hp (he ▸ rfl)
    simp [holds, hpieces, update_of_ne hj]
  | past => exact absurd rfl hover

theorem Inv.pieceGives {q : Nat × ParRange} {r : ParRange} (h : Inv s ph) (hq : s.pieces k = some q) (hfine : r.Fine)
    (hcall : t.call = q.1) (ht : q.2.holds t.index t.ends)
    (hholds : ∀ i ends, r.holds i ends ↔ q.2.holds i ends ∧ ¬(i = t.index ∧ ends = t.ends)) :
    Inv ({ s with pieces := Function.update s.pieces k (some (q.1, r)) }.record [t.act]) ph := by
  refine ⟨h.ledger.give (p := .piece k) nofun rfl ((holds_piece hq).mpr ⟨hcall, ht⟩) (fun u => ?_)
    fun r u hr hro => holds_otherPiece rfl rfl rfl hr hro,
    h.tidy.rest rfl rfl (.inr ⟨t, rfl⟩) rfl fun j q' hj => ?_, h.phase.piece rfl rfl rfl rfl rfl rfl⟩
  · rw [holds_piece hq, holds_piece (update_self ..), hholds, and_assoc]
    refine and_congr_right fun hu => and_congr_right fun _ => not_congr ?_
    obtain ⟨d, i, e⟩ := u
    obtain ⟨d', i', e'⟩ := t
    obtain rfl : d = d' := hu.trans hcall.symm
    simp
  · have hj : Function.update s.pieces k (some (q.1, r)) j = some q' := hj
    by_cases hjk : j = k
    · rw [hjk, update_self] at hj
      cases hj
      exact ⟨hfine, q, hjk ▸ hq, rfl⟩
    · rw [update_of_ne hjk] at hj
      exact ⟨(h.tidy.pieces j q' hj).1, q', hj, rfl⟩

theorem Inv.pieceEnds {q : Nat × ParRange} (h : Inv s ph) (hq : s.pieces k = some q) (hover : q.2.spent = true) :
    Inv { s with pieces := Function.update s.pieces k none } ph := by
  refine ⟨h.ledger.congr rfl fun r u => ?_, h.tidy.rest rfl rfl (.inl rfl) rfl fun j q' hj => ?_,
    h.phase.piece rfl rfl rfl rfl rfl rfl⟩
  · by_cases hr : r = .piece k
    · rw [hr, holds_piece hq]
      exact iff_of_false (not_holds_piece (update_self ..)) fun hu => ParRange.not_holds_spent hover hu.2
    · by_cases hro : r = .past
      · rw [hro]
        exact .rfl
      · exact holds_otherPiece rfl rfl rfl hr hro
  · have hj : Function.update s.pieces k none j = some q' := hj
    by_cases hjk : j = k
    · rw [hjk, update_self] at hj
      cases hj
    · rw [update_of_ne hjk] at hj
      exact ⟨(h.tidy.pieces j q' hj).1, q', hj, rfl⟩

theorem inv_nextPiece (h : Inv s ph) (hstep : s.nextPiece k = some s') : Inv s' ph := by
  obtain ⟨q, hq, hstep⟩ := bind_eq_some_iff.mp hstep
  split at hstep
  case isTrue hover =>
    cases hstep
    exact h.pieceEnds hq hover
  case isFalse =>
    obtain ⟨⟨a, r⟩, hbegin, rfl⟩ := map_eq_some_iff.mp hstep
    obtain ⟨rfl, hfine, hheld, hholds⟩ := ParRange.begin_spec hbegin
    exact h.pieceGives (t := ⟨q.1, q.2.next, false⟩) hq hfine rfl hheld hholds

/-! ### The creation of threads -/

theorem SplitOk.next {stop chunkSize cur : Int} {cores i : Nat} {own : ParRange}
    (h : SplitOk stop chunkSize cores i cur own) (hi : i < cores) (hcur : cur < stop) :
    ∃ next, (if stop < int64 (cur + chunkSize) then stop else int64 (cur + chunkSize)) = next ∧ cur < next ∧
      next ≤ stop ∧ ∀ r : ParRange, r.running = none → r.stop ≤ next → SplitOk stop chunkSize cores (i + 1) next r := by
  obtain ⟨-, -, -, start, hstart, hchunk, hlast, hcover, -, hmin⟩ := h
  have hpos : cur = start + i * chunkSize := by omega
  have hlt : (i : Int) < (stop - start + chunkSize - 1) / chunkSize := (position_lt hchunk).mp (hpos ▸ hcur)
  have hle : ((i : Int) + 1) * chunkSize ≤ ((stop - start + chunkSize - 1) / chunkSize + (0 : Nat)) * chunkSize := by
    refine Int.mul_le_mul_of_nonneg_right ?_ hchunk.le
    omega
  have hsucc : ((i : Int) + 1) * chunkSize = i * chunkSize + chunkSize := by rw [Int.add_mul, Int.one_mul]
  have hnonneg : 0 ≤ (i : Int) * chunkSize := Int.mul_nonneg (Int.natCast_nonneg _) hchunk.le
  rw [lastFetch] at hlast
  have hexact : int64 (cur + chunkSize) = start + ((i + 1 : Nat) : Int) * chunkSize := by
    rw [Int.natCast_add, Int.natCast_one, int64_of_range] <;> omega
  refine ⟨min stop (start + ((i + 1 : Nat) : Int) * chunkSize), ?_, ?_, ?_, fun r hr hstop => ?_⟩
  · rw [hexact]
    split <;> omega
  · rw [Int.natCast_add, Int.natCast_one]
    omega
  · exact Int.min_le_left ..
  · exact ⟨hr, hstop, nofun, start, hstart, hchunk, hlast, hcover, hi, rfl⟩

/-- The end of the creation. -/
theorem SplitOk.complete {stop chunkSize cur : Int} {cores i : Nat} {own : ParRange}
    (h : SplitOk stop chunkSize cores i cur own) (hend : ¬(i < cores ∧ cur < stop)) : stop ≤ cur := by
  obtain ⟨-, -, -, start, -, -, -, hcover, hi, hmin⟩ := h
  by_cases hlt : i < cores
  · exact Int.not_lt.mp fun hcur => hend ⟨hlt, hcur⟩
  · obtain rfl : i = cores := by omega
    omega

/-- **A thread is created** for a chunk. -/
theorem inv_create {ok : Bool} (h : Inv s ph) (hf : s.frames c = some f) (hok : ok = true)
    (hstep : s.createFrame c ok f = some s') : Inv s' ph := by
  subst hok
  cases f with
  | split stop chunkSize cores i cur own threads =>
    obtain ⟨⟨hi, hcur, hne⟩, hstep⟩ := ite_none_right_eq_some.mp hstep
    have hsplit : SplitOk stop chunkSize cores i cur own := h.tidy.frames c _ hf
    obtain ⟨next, hnext, hlt, hle, hsplit'⟩ := hsplit.next hi hcur
    simp only [hnext, if_true] at hstep
    cases hstep
    have hpiece : s.pieces s.created = none := by
      by_contra hsome
      obtain ⟨q, hq⟩ := Option.ne_none_iff_exists'.mp hsome
      exact absurd (h.tidy.pieces _ q hq).2.1 (Nat.lt_irrefl _)
    have hown : ∀ u : ParToken, own.holds u.index u.ends → u.index < cur := by
      rintro u (hu | ⟨-, hu⟩)
      · have := hsplit.2.1
        omega
      · rw [hsplit.1] at hu
        cases hu
    refine ⟨?_, ?_, h.phase.setFrame hf rfl rfl rfl ⟨rfl, rfl, rfl, rfl, rfl⟩⟩
    · refine h.ledger.carry (p := .frame c) (q := .piece s.created)
        (S := fun u => u.call = c ∧ cur ≤ u.index ∧ u.index < next) nofun nofun rfl ?_ (fun u => ?_) (fun u => ?_)
        fun r u hr hrp => ?_
      · rintro u ⟨rfl, hlo, hhi⟩
        exact (holds_frame hf).mpr ⟨rfl, .inr ⟨hlo, by omega⟩⟩
      · rw [holds_frame hf, holds_frame (update_self ..)]
        constructor
        · rintro ⟨hu, hheld | hin⟩
          · exact ⟨⟨hu, .inl hheld⟩, fun hin => by have := hown u hheld; omega⟩
          · exact ⟨⟨hu, .inr (by omega)⟩, fun hin => by omega⟩
        · rintro ⟨⟨hu, hheld | hin⟩, hnot⟩
          · exact ⟨hu, .inl hheld⟩
          · refine ⟨hu, .inr ⟨Int.not_lt.mp fun hin' => hnot ⟨hu, hin.1, hin'⟩, hin.2⟩⟩
      · rw [holds_piece (q := (c, ⟨cur, next, none⟩)) (update_self ..), or_iff_left (not_holds_piece hpiece)]
        exact and_congr_right fun _ => ParRange.holds_new
      · cases r with
        | pool => exact .rfl
        | frame d =>
          have hd : d ≠ c := fun he => hr (he ▸ rfl)
          show (∃ g, Function.update s.frames c _ d = some g ∧ _) ↔ _
          rw [update_of_ne hd]
          exact .rfl
        | helper => exact .rfl
        | piece j =>
          have hj : j ≠ s.created := fun he => hrp (he ▸ rfl)
          show (∃ g, Function.update s.pieces s.created _ j = some g ∧ _) ↔ _
          rw [update_of_ne hj]
          exact .rfl
        | past => exact .rfl
    · have hok : FrameOk (.split stop chunkSize cores (i + 1) next own (threads ++ [s.created])) :=
        hsplit' own hsplit.1 (by have := hsplit.2.1; omega)
      refine h.tidy.step hf rfl hok rfl (.inl rfl) fun j q hj => ?_
      have hj : Function.update s.pieces s.created (some (c, ⟨cur, next, none⟩)) j = some q := hj
      by_cases hjk : j = s.created
      · rw [hjk, update_self] at hj
        cases hj
        refine ⟨nofun, hjk ▸ Nat.lt_succ_self _, .inl ⟨rfl, ?_⟩⟩
        exact List.mem_append_right _ (hjk ▸ List.mem_singleton_self _)
      · rw [update_of_ne hjk] at hj
        obtain ⟨hfine, hlt, g, hg, hk⟩ := h.tidy.pieces j q hj
        refine ⟨hfine, Nat.lt_succ_of_lt hlt, ?_⟩
        by_cases hc : q.1 = c
        · rw [hc, hf] at hg
          cases hg
          exact .inl ⟨hc, List.mem_append_left _ hk⟩
        · exact .inr ⟨hc, q, hj, rfl⟩
  | _ => cases hstep

/-! ### A call that is not parallel goes on -/

theorem inv_nextFrame (h : Inv s ph) (hf : s.frames c = some f) (hpar : f.parallel = false)
    (hstep : s.nextFrame th c f = some s') : Inv s' ph := by
  have hok := h.tidy.frames c f hf
  have begins : ∀ {r r' : ParRange} {a : ParAct} {g : ParFrame}, r.begin (some c) (some c) = some (a, r') →
      g.parallel = false → FrameOk g → g.threads = f.threads →
      (∀ u : ParToken, f.holds c u ↔ u.call = c ∧ r.holds u.index u.ends) →
      (∀ u : ParToken, g.holds c u ↔ u.call = c ∧ r'.holds u.index u.ends) →
      Inv ((s.setFrame c g).record [a]) ph := by
    intro r r' a g hbegin hpar' hok' hthreads hheld hheld'
    obtain ⟨rfl, hfine, hnext, hholds⟩ := ParRange.begin_spec hbegin
    refine h.gives (t := ⟨c, r.next, false⟩) hf hpar hpar' hok' hthreads ((hheld _).mpr ⟨rfl, hnext⟩) fun u => ?_
    rw [hheld, hheld', hholds, and_assoc]
    refine and_congr_right fun hu => and_congr_right fun _ => not_congr ?_
    obtain ⟨d, i, e⟩ := u
    obtain rfl : d = c := hu
    simp
  cases f with
  | each r =>
    rw [nextFrame] at hstep
    split at hstep
    case isTrue hover =>
      cases hstep
      exact h.returns hf rfl rfl fun u hu => ParRange.not_holds_spent hover hu.2
    case isFalse =>
      obtain ⟨⟨a, r'⟩, hbegin, rfl⟩ := map_eq_some_iff.mp hstep
      exact begins hbegin rfl (ParRange.begin_spec hbegin).2.1 rfl (fun _ => .rfl) fun _ => .rfl
  | first r threads =>
    rw [nextFrame] at hstep
    split at hstep
    case isTrue hover =>
      cases hstep
      exact h.goes hf rfl rfl trivial (fun _ _ _ hk => hk) fun u => iff_of_false id
        fun hu => ParRange.not_holds_spent hover hu.2
    case isFalse =>
      obtain ⟨⟨a, r'⟩, hbegin, rfl⟩ := map_eq_some_iff.mp hstep
      exact begins hbegin rfl (ParRange.begin_spec hbegin).2.1 rfl (fun _ => .rfl) fun _ => .rfl
  | join threads =>
    cases threads with
    | nil =>
      cases hstep
      exact h.returns hf rfl rfl fun _ => id
    | cons k threads =>
      obtain ⟨hk, he⟩ := ite_none_right_eq_some.mp hstep
      cases he
      refine h.goes hf rfl rfl trivial (fun j q hq hj => ?_) fun _ => .rfl
      refine (List.mem_cons.mp hj).resolve_left ?_
      rintro rfl
      exact nomatch hq.symm.trans hk
  | split stop chunkSize cores i cur own threads =>
    have hsplit : SplitOk stop chunkSize cores i cur own := hok
    rw [nextFrame] at hstep
    split at hstep
    case isTrue hmore =>
      obtain ⟨hi, he⟩ := ite_none_right_eq_some.mp hstep
      obtain ⟨next, hnext, hlt, hle, hsplit'⟩ := hsplit.next hmore.1 hmore.2
      simp only [hnext] at he
      cases he
      refine h.goes hf rfl rfl (hsplit' _ rfl (Int.le_refl _)) (fun _ _ _ hk => hk) fun u => ?_
      show u.call = c ∧ (ParRange.holds ⟨cur, next, none⟩ _ _ ∨ _) ↔ u.call = c ∧ (own.holds _ _ ∨ _)
      rw [ParRange.holds_new, or_iff_right (a := own.holds _ _)]
      · omega
      · rintro (hu | ⟨-, hu⟩)
        · have := hsplit.2.2.1 hi
          omega
        · rw [hsplit.1] at hu
          cases hu
    case isFalse hend =>
      cases hstep
      have hle := hsplit.complete hend
      refine h.goes hf rfl rfl (fun i hi => nomatch hsplit.1.symm.trans hi) (fun _ _ _ hk => hk) fun u => ?_
      show u.call = c ∧ own.holds _ _ ↔ u.call = c ∧ (own.holds _ _ ∨ _)
      rw [or_iff_left (by omega)]
  | _ => cases hpar

theorem inv_finishFrame {a : ParAct} (h : Inv s ph) (hf : s.frames c = some f) (hpar : f.parallel = false)
    (hstep : f.finish c = some (a, f')) : Inv ((s.setFrame c f').record [a]) ph := by
  have hok := h.tidy.frames c f hf
  have ends : ∀ {r r' : ParRange} {a : ParAct} {g : ParFrame}, r.Fine → r.finish (some c) (some c) = some (a, r') →
      g.parallel = false → (r'.Fine → FrameOk g) → g.threads = f.threads →
      (∀ u : ParToken, f.holds c u ↔ u.call = c ∧ r.holds u.index u.ends) →
      (∀ u : ParToken, g.holds c u ↔ u.call = c ∧ r'.holds u.index u.ends) →
      Inv ((s.setFrame c g).record [a]) ph := by
    intro r r' a g hfine hfinish hpar' hok' hthreads hheld hheld'
    obtain ⟨i, rfl, hfine', hheldi, hholds⟩ := ParRange.finish_spec hfine hfinish
    refine h.gives (t := ⟨c, i, true⟩) hf hpar hpar' (hok' hfine') hthreads ((hheld _).mpr ⟨rfl, hheldi⟩) fun u => ?_
    rw [hheld, hheld', hholds, and_assoc]
    refine and_congr_right fun hu => and_congr_right fun _ => not_congr ?_
    obtain ⟨d, i, e⟩ := u
    obtain rfl : d = c := hu
    simp
  cases f with
  | each r =>
    obtain ⟨⟨b, r'⟩, hfinish, he⟩ := map_eq_some_iff.mp hstep
    cases he
    exact ends hok hfinish rfl id rfl (fun _ => .rfl) fun _ => .rfl
  | first r threads =>
    obtain ⟨⟨b, r'⟩, hfinish, he⟩ := map_eq_some_iff.mp hstep
    cases he
    exact ends hok hfinish rfl id rfl (fun _ => .rfl) fun _ => .rfl
  | share => cases hpar
  | _ => cases hstep

/-! ### The parallel call -/

theorem Only.setFrame (h : Only s c) (hf : s.frames c = some f)
    (hframes : s'.frames = Function.update s.frames c (some f')) : Only s' c := by
  obtain ⟨-, hother⟩ := frames_update hf hframes
  intro d g hg hpar
  by_contra hd
  exact hd (h d g ((hother d hd).symm.trans hg) hpar)

/-- Where no chunk is to be claimed, the pool does not matter. -/
theorem holds_pool {pool pool' : ParToken → Prop} (hp : p ≠ .pool) : s.holds pool p t ↔ s.holds pool' p t := by
  cases p <;> first | exact .rfl | exact absurd rfl hp

/-- The call, or the thread, that a loop of the shared work is in. -/
theorem Ledger.loop_step (s' : ParState) {l l' : ParLoop} {acts : List ParAct} {g : ParGlobals} {n : Nat}
    (h : Ledger b.pool s) (hcore : b.Core s.globals) (hn : n < b.numW) (hl : b.LoopOk n l)
    (hstep : l.next s.globals = some (g, acts, l')) (hpp : p ≠ .pool) (hpo : p ≠ .past)
    (hglobals : s'.globals = g) (hacts : s'.acts = s.acts ++ acts) (hp : ∀ pool u, s.holds pool p u ↔ l.holds u)
    (hp' : ∀ pool u, s'.holds pool p u ↔ l'.holds u)
    (hrest : ∀ pool r u, r ≠ p → r ≠ .past → (s'.holds pool r u ↔ s.holds pool r u)) :
    ∃ b', b.Follows b' n ∧ b'.Core s'.globals ∧ b'.LoopOk n l' ∧ Ledger b'.pool s' ∧
      (s'.acts = s.acts ∨ ∃ t : ParToken, s'.acts = s.acts ++ [t.act]) := by
  obtain ⟨t, rfl, rfl, hl', ht, hholds⟩ | ⟨rfl, b', hf, hcore', hl', hnone, hpool, htaken⟩ :=
    ParShare.loop_step hcore hn hl hstep
  · refine ⟨b, .refl, hglobals ▸ hcore, hl', h.give hpo hacts ((hp _ t).mpr ht) (fun u => ?_) (hrest _), .inr ⟨t, hacts⟩⟩
    rw [hp', hp, hholds]
  · have hacts : s'.acts = s.acts := hacts.trans (List.append_nil _)
    refine ⟨b', hf, hglobals ▸ hcore', hl', ?_, .inl hacts⟩
    refine h.carry (p := .pool) (q := p) (S := l'.holds) hpp.symm nofun hacts htaken hpool (fun u => ?_) fun r u hr hrp => ?_
    · rw [hp', hp, or_iff_left (hnone u)]
    · by_cases hro : r = .past
      · subst hro
        show u.act ∈ s'.acts ↔ u.act ∈ s.acts
        rw [hacts]
      · exact (hrest _ r u hrp hro).trans (holds_pool hr)

theorem WorkerOk.follow {b b' : ParShare} {n v : Nat} (hw : WorkerOk b n s v) (hf : b.Follows b' d) (hv : v ≠ d)
    (hready : s'.ready v = s.ready v) (hdone : s'.done v = s.done v) (hhelpers : s'.helpers v = s.helpers v) :
    WorkerOk b' n s' v := by
  constructor
  · rw [hhelpers, hready, hdone]
    intro l hl
    obtain ⟨hr, hd, hpos, hlt, hok⟩ := hw.helps l hl
    exact ⟨hr, hd, hpos, hlt, hf.loopOk hv hok⟩
  · rw [hready, hdone]
    intro hr
    obtain ⟨hd, hpos, hlt, hout⟩ := hw.woken hr
    exact ⟨hd, hpos, hlt, hf.loopOk (l := .load b.work []) hv ⟨rfl, hout⟩ |>.2⟩

theorem inv_store {start : Int} {work : ParWork} {numW : Nat} {todo : List (Option ParVar)}
    (h : Inv s ph) (hf : s.frames c = some (.store start work numW todo))
    (hstep : s.nextFrame th c (.store start work numW todo) = some s') : ∃ ph', Inv s' ph' := by
  cases ph with
  | quiet => exact nomatch h.phase.1 c _ hf
  | busy b =>
    obtain rfl := h.phase.2.1 c _ hf rfl
    obtain ⟨f, hf', howner, -⟩ := h.phase.1.owner
    cases hf.symm.trans hf'
    exact howner.elim
  | preparing b =>
    obtain ⟨⟨hfits, ⟨hzero, hempty⟩, ⟨todo', hf', htodo⟩, hidle⟩, honly, hregion⟩ := h.phase
    obtain rfl := honly c _ hf rfl
    cases hf.symm.trans hf'
    have hself : ∀ (t : ParState) (f : ParFrame), (t.setFrame b.call f).frames b.call = some f :=
      fun _ _ => update_self ..
    cases todo with
    | cons x todo =>
      cases hstep
      refine ⟨.preparing b, h.ledger.congr rfl fun r u => ?_,
        h.tidy.go hf rfl trivial rfl (.inl rfl) ⟨rfl, rfl⟩ fun _ _ _ hk => hk,
        ⟨hfits, ⟨hzero, hempty⟩, ⟨todo, hself .., htodo⟩, hidle⟩, honly.setFrame hf rfl, hregion⟩
      by_cases hr : r = .frame b.call
      · rw [hr, holds_frame hf, holds_frame (hself ..)]
        exact .rfl
      · by_cases hro : r = .past
        · rw [hro]
          exact .rfl
        · exact holds_other hf rfl rfl rfl hr hro
    | nil =>
      cases hstep
      have hglobals : s.globals = ⟨b.start, b.work⟩ := htodo
      have hpos : b.pos = b.start := by
        rw [ParShare.pos, hzero, Int.natCast_zero, Int.zero_mul, Int.add_zero]
      refine ⟨.busy b, ?_, h.tidy.go hf rfl trivial rfl (.inl rfl) ⟨rfl, rfl⟩ fun _ _ _ hk => hk,
        ⟨⟨hfits, ?_, ?_, ?_, ?_, ?_⟩, _, hself .., ⟨rfl, Nat.one_pos, hfits.workers, ?_⟩, fun w => ⟨?_, ?_⟩, ?_⟩,
        honly.setFrame hf rfl, hregion⟩
      · refine h.ledger.carry (p := .frame b.call) (q := .pool) (S := b.pool) nofun nofun rfl (fun u hu => ?_)
          (fun u => ?_) (fun u => (or_iff_left id).symm) fun r u hr hrp => ?_
        · exact (holds_frame hf).mpr ⟨hu.1, hpos ▸ hu.2.1, hu.2.2⟩
        · rw [holds_frame hf, holds_frame (hself ..)]
          exact iff_of_false id fun hu => hu.2 ⟨hu.1.1, hpos.symm ▸ hu.1.2.1, hu.1.2.2⟩
        · by_cases hro : r = .past
          · rw [hro]
            exact .rfl
          · exact (holds_pool hrp).trans (holds_other hf rfl rfl rfl hr hro)
      · show s.globals.work = _
        rw [hglobals]
      · show s.globals.cur = _
        rw [hglobals, hpos, int64_of_range hfits.start.1 hfits.start.2]
      · rw [hzero, hempty, Finset.card_empty]
        have hchunk := hfits.chunk
        have hstop := hfits.stop
        exact Int.add_nonneg (Int.ediv_nonneg (by omega) hchunk.le) (Int.le_refl _)
      · rw [hempty]
        nofun
      · rw [hempty]
        nofun
      · rw [hempty]
        nofun
      · intro l hl
        exact nomatch (hidle w).1.symm.trans hl
      · intro hr
        exact nomatch (hidle w).2.symm.trans hr
      · rw [hempty]
        nofun

theorem nextFrame_share {numW : Nat} {l : ParLoop} (hl : l ≠ .left) :
    s.nextFrame th c (.share numW l) = (l.next s.globals).map fun p =>
      ({ s with globals := p.1 }.setFrame c (.share numW p.2.2)).record p.2.1 := by
  cases l <;> first | rfl | exact absurd rfl hl

theorem inv_owner (h : Inv s (.busy b)) (hf : s.frames b.call = some f) (hpar : f.parallel = true)
    (hstep : s.nextFrame th b.call f = some s') : ∃ ph', Inv s' ph' := by
  obtain ⟨⟨hcore, f', hf', howner, hworkers, hout⟩, honly, u, hu⟩ := h.phase
  cases hf.symm.trans hf'
  have hself : ∀ (t : ParState) (f : ParFrame), (t.setFrame b.call f).frames b.call = some f :=
    fun _ _ => update_self ..
  have same : ∀ {t : ParState} {g : ParFrame}, t.frames = Function.update s.frames b.call (some g) →
      t.helpers = s.helpers → t.pieces = s.pieces → t.acts = s.acts → (∀ u, f.holds b.call u ↔ g.holds b.call u) →
      Ledger b.pool t := by
    intro t g hframes hhelpers hpieces hacts hholds
    refine h.ledger.congr hacts fun r u => ?_
    by_cases hr : r = .frame b.call
    · rw [hr, holds_frame hf, holds_frame (frames_update hf hframes).1, hholds]
    · by_cases hro : r = .past
      · subst hro
        show u.act ∈ t.acts ↔ u.act ∈ s.acts
        rw [hacts]
      · exact holds_other hf hframes hhelpers hpieces hr hro
  cases f with
  | store => exact howner.elim
  | wake w numW =>
    obtain ⟨rfl, hpos, hle, hzero⟩ := howner
    rw [nextFrame] at hstep
    split at hstep
    case isTrue hlt =>
      cases hstep
      refine ⟨.busy b, same rfl rfl rfl rfl fun _ => .rfl,
        h.tidy.go hf rfl trivial rfl (.inl rfl) ⟨rfl, rfl⟩ fun _ _ _ hk => hk,
        ⟨hcore, _, hself .., ⟨rfl, Nat.succ_pos w, hlt, hzero⟩, fun v => ⟨fun l hl => ?_, fun hr => ?_⟩, fun p hp => ?_⟩,
        honly.setFrame hf rfl, u, hu⟩
      · obtain ⟨hr, hd, hvpos, hvlt, hok⟩ := (hworkers v).helps l hl
        have hvlt : v < w := hvlt
        have hv : v ≠ w := by omega
        exact ⟨(update_of_ne hv ..).trans hr, (update_of_ne hv ..).trans hd, hvpos, by
          show v < w + 1
          omega, hok⟩
      · show Function.update s.done w false v = false ∧ _ ∧ v < w + 1 ∧ _
        by_cases hv : v = w
        · subst hv
          exact ⟨update_self .., hpos, Nat.lt_succ_self v, fun ho => Nat.lt_irrefl v (hout v ho)⟩
        · obtain ⟨hd, hvpos, hvlt, ho⟩ := (hworkers v).woken ((update_of_ne hv ..).symm.trans hr)
          have hvlt : v < w := hvlt
          exact ⟨(update_of_ne hv ..).trans hd, hvpos, by omega, ho⟩
      · have : p < w := hout p hp
        show p < w + 1
        omega
    case isFalse hge =>
      cases hstep
      obtain rfl : w = b.numW := by omega
      exact ⟨.busy b, same rfl rfl rfl rfl fun _ => .rfl,
        h.tidy.go hf rfl trivial rfl (.inl rfl) ⟨rfl, rfl⟩ fun _ _ _ hk => hk,
        ⟨hcore, _, hself .., ⟨rfl, ParShare.loopOk_enter hzero⟩, fun v => ⟨(hworkers v).helps, (hworkers v).woken⟩, hout⟩,
        honly.setFrame hf rfl, u, hu⟩
  | share numW l =>
    obtain ⟨rfl, hl⟩ := howner
    by_cases hleft : l = .left
    · subst hleft
      cases hstep
      exact ⟨.busy b, same rfl rfl rfl rfl fun _ => .rfl,
        h.tidy.go hf rfl trivial rfl (.inl rfl) ⟨rfl, rfl⟩ fun _ _ _ hk => hk,
        ⟨hcore, _, hself .., ⟨rfl, hl, fun v hpos hlt => by omega⟩, fun v => ⟨(hworkers v).helps, (hworkers v).woken⟩,
          hout⟩, honly.setFrame hf rfl, u, hu⟩
    · rw [nextFrame_share hleft] at hstep
      obtain ⟨⟨g, acts, l'⟩, hnext, rfl⟩ := map_eq_some_iff.mp hstep
      obtain ⟨b', hfollows, hcore', hl', hledger, hacts⟩ := h.ledger.loop_step
        (({ s with globals := g }.setFrame b.call (.share b.numW l')).record acts) (p := .frame b.call)
        hcore hcore.fits.workers hl hnext nofun nofun rfl rfl (fun _ _ => holds_frame hf)
        (fun _ _ => holds_frame (f := .share b.numW l') (update_self ..))
        fun _ r u hr hro => holds_other hf rfl rfl rfl hr hro
      have htidy : Tidy (({ s with globals := g }.setFrame b.call (.share b.numW l')).record acts) :=
        h.tidy.go hf rfl trivial rfl hacts ⟨rfl, rfl⟩ fun _ _ _ hk => hk
      obtain ⟨n, o, rfl, ho⟩ := hfollows
      refine ⟨.busy _, hledger, htidy, ⟨hcore', _, hself .., ⟨rfl, hl'⟩, fun v => ?_, fun p hp => ?_⟩,
        honly.setFrame hf rfl, u, hu⟩
      · by_cases hv : v = 0
        · subst hv
          exact ⟨fun l hl => absurd ((hworkers 0).helps l hl).2.2.1 (Nat.lt_irrefl 0),
            fun hr => absurd ((hworkers 0).woken hr).2.1 (Nat.lt_irrefl 0)⟩
        · exact (hworkers v).follow ⟨n, o, rfl, ho⟩ hv rfl rfl rfl
      · exact hcore'.out p hp
  | await w numW =>
    obtain ⟨rfl, hzero, hdone⟩ := howner
    rw [nextFrame] at hstep
    split at hstep
    case isTrue hlt =>
      obtain ⟨hw, he⟩ := ite_none_right_eq_some.mp hstep
      cases he
      refine ⟨.busy b, same rfl rfl rfl rfl fun _ => .rfl,
        h.tidy.go hf rfl trivial rfl (.inl rfl) ⟨rfl, rfl⟩ fun _ _ _ hk => hk,
        ⟨hcore, _, hself .., ⟨rfl, hzero, fun v hpos hv => ?_⟩, fun v => ⟨(hworkers v).helps, (hworkers v).woken⟩, hout⟩,
        honly.setFrame hf rfl, u, hu⟩
      obtain hv | rfl := Nat.lt_succ_iff_lt_or_eq.mp hv
      · exact hdone v hpos hv
      · exact hw
    case isFalse hge =>
      cases hstep
      have hnotDone : ∀ v, 0 < v → v < b.numW → s.done v ≠ false := by
        intro v hpos hlt he
        rw [hdone v hpos (by omega)] at he
        cases he
      have hidle : Idle s := by
        refine fun v => ⟨?_, Bool.eq_false_iff.mpr fun hr => ?_⟩
        · by_contra hsome
          obtain ⟨l, hl⟩ := Option.ne_none_iff_exists'.mp hsome
          obtain ⟨-, hd, hpos, hlt, -⟩ := (hworkers v).helps l hl
          exact hnotDone v hpos hlt hd
        · obtain ⟨hd, hpos, hlt, -⟩ := (hworkers v).woken hr
          exact hnotDone v hpos hlt hd
      have hempty : ∀ u, ¬b.pool u := by
        rintro u ⟨-, hlo, hhi⟩
        have := hcore.emptied ⟨0, hzero⟩
        omega
      have hpop : Inv (s.pop th b.call) .quiet := by
        refine h.pops hf rfl (fun _ => id) ?_ (fun u => (iff_of_false (hempty u) id).symm) ⟨fun d g hg => ?_, hidle⟩
        · rintro b' he -
          cases he
          exact ⟨hempty, fun w => (hidle w).1⟩
        · have hg : Function.update s.frames b.call none d = some g := hg
          by_cases hd : d = b.call
          · rw [hd, update_self] at hg
            cases hg
          · rw [update_of_ne hd] at hg
            exact Bool.eq_false_iff.mpr fun hpar => hd (honly d g hg hpar)
      exact ⟨.quiet, ⟨hpop.ledger.congr rfl fun _ _ => .rfl, ⟨hpop.tidy.fresh, hpop.tidy.frames, hpop.tidy.pieces⟩,
        hpop.phase⟩⟩
  | each | split | first | join => cases hpar

/-- The body of an index ends in the call that shares its work. -/
theorem inv_finishOwner {a : ParAct} (h : Inv s ph) (hf : s.frames c = some f) (hpar : f.parallel = true)
    (hstep : f.finish c = some (a, f')) : Inv ((s.setFrame c f').record [a]) ph := by
  cases f with
  | share numW l =>
    obtain ⟨⟨a, l'⟩, hfinish, he⟩ := map_eq_some_iff.mp hstep
    cases he
    cases ph with
    | quiet => exact nomatch h.phase.1 c _ hf
    | preparing b =>
      obtain rfl := h.phase.2.1 c _ hf rfl
      obtain ⟨todo, hf', -⟩ := h.phase.1.owner
      exact nomatch Option.some.inj (hf.symm.trans hf')
    | busy b =>
      obtain ⟨⟨hcore, f', hf', howner, hworkers, hout⟩, honly, hregion⟩ := h.phase
      obtain rfl := honly c _ hf rfl
      cases hf.symm.trans hf'
      obtain ⟨t, rfl, hl', ht, hholds⟩ := ParShare.loop_finish howner.2 hfinish
      refine ⟨h.ledger.give (p := .frame b.call) nofun rfl ((holds_frame hf).mpr ht) (fun u => ?_)
        fun r u hr hro => holds_other hf rfl rfl rfl hr hro,
        h.tidy.go hf rfl trivial rfl (.inr ⟨t, rfl⟩) ⟨rfl, rfl⟩ fun _ _ _ hk => hk,
        ⟨hcore, _, update_self .., ⟨howner.1, hl'⟩, fun v => ⟨(hworkers v).helps, (hworkers v).woken⟩, hout⟩,
        honly.setFrame hf rfl, hregion⟩
      rw [holds_frame hf, holds_frame (f := .share numW l') (update_self ..)]
      exact hholds u
  | each | split | first | join => cases hpar
  | _ => cases hstep

/-! ### The pool's workers -/

/-- The places that one worker does not change. -/
theorem holds_otherHelper {pool : ParToken → Prop} {o : Option ParLoop} (hframes : s'.frames = s.frames)
    (hhelpers : s'.helpers = Function.update s.helpers w o) (hpieces : s'.pieces = s.pieces) (hp : p ≠ .helper w)
    (hover : p ≠ .past) : s'.holds pool p t ↔ s.holds pool p t := by
  cases p with
  | pool => exact .rfl
  | frame d => simp only [holds, hframes]
  | helper v =>
    have hv : v ≠ w := fun he => hp (he ▸ rfl)
    simp [holds, hhelpers, update_of_ne hv]
  | piece j => simp only [holds, hpieces]
  | past => exact absurd rfl hover

theorem Inv.helping {l : ParLoop} (h : Inv s ph) (hl : s.helpers w = some l) : ∃ b, ph = .busy b := by
  cases ph with
  | quiet => exact nomatch hl.symm.trans (h.phase.2 w).1
  | preparing b => exact nomatch hl.symm.trans (h.phase.1.idle w).1
  | busy b => exact ⟨b, rfl⟩

theorem Busy.worker {b' : ParShare} {o : Option ParLoop} (hb : Busy b s) (hfollows : b.Follows b' w) (hw : 0 < w)
    (hcore : b'.Core s'.globals) (hframes : s'.frames = s.frames) (hdone : ∀ v, s.done v = true → s'.done v = true)
    (hhelpers : s'.helpers = Function.update s.helpers w o)
    (hother : ∀ v, v ≠ w → s'.ready v = s.ready v ∧ s'.done v = s.done v)
    (hself : ∀ n, WorkerOk b n s w → WorkerOk b' n s' w) (hmem : ∀ n, WorkerOk b n s w → w ∈ b'.out → w < n) :
    Busy b' s' := by
  obtain ⟨-, f, hf, howner, hworkers, hout⟩ := hb
  obtain ⟨n, o, rfl, ho⟩ := hfollows
  have hzero : ∀ {l}, b.LoopOk 0 l → ParShare.LoopOk { b with fetched := n, out := o } 0 l :=
    ParShare.Follows.loopOk ⟨n, o, rfl, ho⟩ hw.ne
  refine ⟨hcore, f, hframes ▸ hf, ?_, fun v => ?_, fun v hv => ?_⟩
  · cases f with
    | wake v numW => exact ⟨howner.1, howner.2.1, howner.2.2.1, fun hin => howner.2.2.2 ((ho 0 hw.ne).mp hin)⟩
    | share numW l => exact ⟨howner.1, hzero howner.2⟩
    | await v numW => exact ⟨howner.1, (ho 0 hw.ne).mpr howner.2.1, fun u hu hv => hdone u (howner.2.2 u hu hv)⟩
    | _ => exact howner.elim
  · by_cases hv : v = w
    · exact hv ▸ hself _ (hworkers w)
    · exact (hworkers v).follow ⟨n, o, rfl, ho⟩ hv (hother v hv).1 (hother v hv).2
        (by rw [hhelpers, update_of_ne hv])
  · by_cases he : v = w
    · subst he
      exact hmem _ (hworkers v) hv
    · exact hout v ((ho v he).mp hv)

theorem Only.congr (h : Only s c) (hframes : s'.frames = s.frames) : Only s' c := by
  rw [Only, hframes]
  exact h

theorem nextWorker_loop {l : ParLoop} (hl : s.helpers w = some l) (hleft : l ≠ .left) :
    s.nextWorker w = (l.next s.globals).map fun p =>
      { s with globals := p.1, helpers := Function.update s.helpers w (some p.2.2) }.record p.2.1 := by
  rw [nextWorker, hl]
  cases l <;> first | rfl | exact absurd rfl hleft

/-- **A worker's step.** -/
theorem inv_nextWorker (h : Inv s ph) (hstep : s.nextWorker w = some s') : ∃ ph', Inv s' ph' := by
  have tidy : ∀ {t : ParState}, t.frames = s.frames → t.calls = s.calls →
      (t.acts = s.acts ∨ ∃ u : ParToken, t.acts = s.acts ++ [u.act]) → t.created = s.created → t.pieces = s.pieces →
      Tidy t := by
    intro t hframes hcalls hacts hcreated hpieces
    refine h.tidy.rest hframes hcalls hacts hcreated fun k q hq => ?_
    rw [hpieces] at hq
    exact ⟨(h.tidy.pieces k q hq).1, q, hq, rfl⟩
  have same : ∀ {pool} {t : ParState} {o : Option ParLoop}, Ledger pool s → t.frames = s.frames →
      t.helpers = Function.update s.helpers w o → t.pieces = s.pieces → t.acts = s.acts →
      (∀ l, s.helpers w = some l ∨ o = some l → ∀ u, ¬l.holds u) → Ledger pool t := by
    intro pool t o hledger hframes hhelpers hpieces hacts hnone
    refine hledger.congr hacts fun r u => ?_
    by_cases hr : r = .helper w
    · subst hr
      refine iff_of_false ?_ ?_
      · rintro ⟨l, hl, hu⟩
        rw [hhelpers, update_self] at hl
        exact hnone l (.inr hl) u hu
      · rintro ⟨l, hl, hu⟩
        exact hnone l (.inl hl) u hu
    · by_cases hro : r = .past
      · subst hro
        show u.act ∈ t.acts ↔ u.act ∈ s.acts
        rw [hacts]
      · exact holds_otherHelper hframes hhelpers hpieces hr hro
  cases hl : s.helpers w with
  | none =>
    rw [nextWorker, hl] at hstep
    obtain ⟨hr, he⟩ := ite_none_right_eq_some.mp hstep
    cases he
    cases ph with
    | quiet => exact nomatch hr.symm.trans (h.phase.2 w).2
    | preparing b => exact nomatch hr.symm.trans (h.phase.1.idle w).2
    | busy b =>
      obtain ⟨hb, honly, hregion⟩ := h.phase
      obtain ⟨f, -, -, hworkers, -⟩ := hb.owner
      obtain ⟨hd, hpos, -, hout⟩ := (hworkers w).woken hr
      refine ⟨.busy b, same h.ledger rfl rfl rfl rfl ?_, tidy rfl rfl (.inl rfl) rfl rfl,
        hb.worker .refl hpos hb.core rfl (fun _ => id) rfl (fun v hv => ⟨update_of_ne hv .., rfl⟩)
          (fun n hw => ⟨fun l hl' => ?_, fun hr' => ?_⟩) fun n hw hin => absurd hin hout,
        honly.congr rfl, hregion⟩
      · rintro l (hl' | hl') u
        · exact nomatch hl.symm.trans hl'
        · cases hl'
          exact id
      · have hl' : Function.update s.helpers w (some .enter) w = some l := hl'
        rw [update_self] at hl'
        cases hl'
        exact ⟨update_self .., hd, hpos, (hw.woken hr).2.2.1, ParShare.loopOk_enter hout⟩
      · exact nomatch (update_self ..).symm.trans hr'
  | some l =>
    obtain ⟨b, rfl⟩ := h.helping hl
    obtain ⟨hb, honly, hregion⟩ := h.phase
    obtain ⟨f, hf, howner, hworkers, -⟩ := hb.owner
    obtain ⟨hr, hd, hpos, hlt, hok⟩ := (hworkers w).helps l hl
    have hn : w < b.numW := by
      cases f with
      | wake v numW =>
        have : w < v := hlt
        have := howner.2.2.1
        have := howner.1
        omega
      | share numW l' => exact howner.1 ▸ hlt
      | await v numW => exact howner.1 ▸ hlt
      | _ => exact howner.elim
    by_cases hleft : l = .left
    · subst hleft
      rw [nextWorker, hl] at hstep
      cases hstep
      refine ⟨.busy b, same h.ledger rfl rfl rfl rfl ?_, tidy rfl rfl (.inl rfl) rfl rfl,
        hb.worker .refl hpos hb.core rfl (fun v hv => ?_) rfl (fun v hv => ⟨rfl, update_of_ne hv ..⟩)
          (fun n hw => ⟨fun l hl' => ?_, fun hr' => ?_⟩) fun n hw _ => (hw.helps _ hl).2.2.2.1,
        honly.congr rfl, hregion⟩
      · rintro l (hl' | hl') u
        · cases hl.symm.trans hl'
          exact id
        · cases hl'
      · by_cases he : v = w
        · subst he
          exact update_self ..
        · exact (update_of_ne he ..).trans hv
      · exact nomatch (update_self ..).symm.trans hl'
      · exact nomatch hr.symm.trans hr'
    · rw [nextWorker_loop hl hleft] at hstep
      obtain ⟨⟨g, acts, l'⟩, hnext, rfl⟩ := map_eq_some_iff.mp hstep
      obtain ⟨b', hfollows, hcore', hl', hledger, hacts⟩ := h.ledger.loop_step
        ({ s with globals := g, helpers := Function.update s.helpers w (some l') }.record acts) (p := .helper w)
        hb.core hn hok hnext nofun nofun rfl rfl (fun _ _ => holds_helper hl)
        (fun _ _ => holds_helper (l := l') (update_self ..))
        fun _ r u hr hro => holds_otherHelper rfl rfl rfl hr hro
      have hcall : b'.call = b.call := by
        obtain ⟨n, o, rfl, -⟩ := hfollows
        rfl
      refine ⟨.busy b', hledger, tidy rfl rfl hacts rfl rfl,
        hb.worker hfollows hpos hcore' rfl (fun _ => id) rfl (fun _ _ => ⟨rfl, rfl⟩)
          (fun n hw => ⟨fun l₁ hl₁ => ?_, fun hr' => nomatch hr.symm.trans hr'⟩) fun n hw _ => (hw.helps _ hl).2.2.2.1,
        hcall ▸ honly.congr rfl, hregion⟩
      have hl₁ : Function.update s.helpers w (some l') w = some l₁ := hl₁
      rw [update_self] at hl₁
      cases hl₁
      exact ⟨hr, hd, hpos, (hw.helps _ hl).2.2.2.1, hl'⟩

theorem inv_finishWorker {a : ParAct} {l l' : ParLoop} (h : Inv s ph) (hl : s.helpers w = some l)
    (hstep : l.finish = some (a, l')) :
    Inv ({ s with helpers := Function.update s.helpers w (some l') }.record [a]) ph := by
  obtain ⟨b, rfl⟩ := h.helping hl
  obtain ⟨hb, honly, hregion⟩ := h.phase
  obtain ⟨f, hf, -, hworkers, -⟩ := hb.owner
  obtain ⟨hr, hd, hpos, hlt, hok⟩ := (hworkers w).helps l hl
  obtain ⟨t, rfl, hl', ht, hholds⟩ := ParShare.loop_finish hok hstep
  refine ⟨h.ledger.give (p := .helper w) nofun rfl ((holds_helper hl).mpr ht) (fun u => ?_)
    fun r u hr hro => holds_otherHelper rfl rfl rfl hr hro,
    h.tidy.rest rfl rfl (.inr ⟨t, rfl⟩) rfl fun k q hq => ⟨(h.tidy.pieces k q hq).1, q, hq, rfl⟩,
    hb.worker .refl hpos hb.core rfl (fun _ => id) rfl (fun _ _ => ⟨rfl, rfl⟩)
      (fun n hw => ⟨fun l₁ hl₁ => ?_, fun hr' => nomatch hr.symm.trans hr'⟩) fun n hw _ => (hw.helps _ hl).2.2.2.1,
    honly.congr rfl, hregion⟩
  · rw [holds_helper hl, holds_helper (l := l') (update_self ..)]
    exact hholds u
  · have hl₁ : Function.update s.helpers w (some l') w = some l₁ := hl₁
    rw [update_self] at hl₁
    cases hl₁
    exact ⟨hr, hd, hpos, (hw.helps _ hl).2.2.2.1, hl'⟩

/-! ### Calls -/

/-- The length of a range that is not negative after it wrapped. -/
theorem int64_sub (hlt : start < stop) (hlo : -2 ^ 63 ≤ start) (hhi : stop < 2 ^ 63)
    (hpos : 0 < int64 (stop - start)) : int64 (stop - start) = stop - start := by
  rw [int64] at hpos ⊢
  omega

theorem chunkOf_pos (numW : Nat) (total : Int) : 0 < chunkOf numW total := by
  simp only [chunkOf]
  split <;> split at * <;> omega

variable {workers : Nat}

theorem numWorkers_pos {total : Int} (hworkers : 1 < workers) (htotal : 1 < total) :
    0 < numWorkers workers total := by
  rw [numWorkers]
  split <;> omega

theorem numCores_pos (processors : Int) : 0 < numCores processors := by
  rw [numCores]
  split
  · decide
  · split <;> omega

theorem chunkSize_spec {cores : Nat} {total : Int} (hcores : 0 < cores) (htotal : 0 < total)
    (hfits : total + cores - 1 < 2 ^ 63) : 0 < chunkSize cores total ∧ total ≤ cores * chunkSize cores total := by
  have he : chunkSize cores total = (total + cores - 1) / cores := by
    rw [chunkSize, int64_of_range (by omega) hfits, Int.tdiv_eq_ediv_of_nonneg (by omega)]
  have hshift : total - 0 + cores - 1 = total + cores - 1 := by omega
  have hlt := fun n => @position_lt 0 total cores n (by omega)
  rw [he]
  refine ⟨(hshift ▸ hlt 0).mp (by omega), Int.not_lt.mp fun hmore => ?_⟩
  have := (hlt ((total + cores - 1) / cores)).mp (by rw [Int.mul_comm]; omega)
  rw [hshift] at this
  omega

theorem Inv.pushes (h : Inv s ph) (hpool : ph'.pool = ph.pool) (hok : FrameOk f)
    (hholds : ∀ u : ParToken, f.holds s.calls u ↔ u.call = s.calls ∧ start ≤ u.index ∧ u.index < stop)
    (hframes : s'.frames = Function.update s.frames s.calls (some f)) (hcalls : s'.calls = s.calls + 1)
    (hacts : s'.acts = s.acts ++ [.called s.calls start stop]) (hhelpers : s'.helpers = s.helpers)
    (hpieces : s'.pieces = s.pieces) (hcreated : s'.created = s.created) (hphase : PhaseOk s' ph') : Inv s' ph' := by
  obtain ⟨hnone, hret, hcalled⟩ := h.tidy.fresh s.calls (Nat.le_refl _)
  have hself : s'.frames s.calls = some f := by rw [hframes, update_self]
  have hother : ∀ d, d ≠ s.calls → s'.frames d = s.frames d := by
    intro d hd
    rw [hframes, update_of_ne hd]
  refine ⟨?_, ⟨fun d hd => ?_, fun d g hg => ?_, fun k q hq => ?_⟩, hphase⟩
  · rw [hpool]
    refine h.ledger.calls (p := .frame s.calls) nofun hacts hcalled hret (fun u => ?_) fun r u hr hro => ?_
    · rw [holds_frame hself, hholds, or_iff_left (not_holds_frame hnone)]
    · cases r with
      | pool => exact .rfl
      | frame d =>
        have hd : d ≠ s.calls := fun he => hr (he ▸ rfl)
        simp [holds, hother d hd]
      | helper w => simp only [holds, hhelpers]
      | piece k => simp only [holds, hpieces]
      | past => exact absurd rfl hro
  · rw [hcalls] at hd
    obtain ⟨hnone, hret, hcalled⟩ := h.tidy.fresh d (by omega)
    refine ⟨(hother d (by omega)).trans hnone, ?_, fun a b hab => ?_⟩
    · rw [hacts]
      exact fun hr => (List.mem_append.mp hr).elim hret fun hr => nomatch List.mem_singleton.mp hr
    · rw [hacts] at hab
      obtain hab | hab := List.mem_append.mp hab
      · exact hcalled a b hab
      · injection List.mem_singleton.mp hab with hd'
        omega
  · by_cases hd : d = s.calls
    · rw [hd, hself] at hg
      cases hg
      exact hok
    · exact h.tidy.frames d g ((hother d hd).symm.trans hg)
  · rw [hpieces] at hq
    obtain ⟨hfine, hlt, g, hg, hk⟩ := h.tidy.pieces k q hq
    have hne : q.1 ≠ s.calls := by
      intro he
      rw [he, hnone] at hg
      cases hg
    exact ⟨hfine, hcreated ▸ hlt, g, (hother _ hne).trans hg, hk⟩

theorem Inv.pushes_plain (h : Inv s ph) (hpar : f.parallel = false)
    (hok : FrameOk f)
    (hholds : ∀ u : ParToken, f.holds s.calls u ↔ u.call = s.calls ∧ start ≤ u.index ∧ u.index < stop) :
    Inv ((s.record [.called s.calls start stop]).push th f) ph := by
  refine h.pushes rfl hok hholds rfl rfl rfl rfl rfl rfl (h.phase.congr rfl rfl rfl rfl rfl fun d g hg => ?_)
  show Function.update s.frames s.calls (some f) d = some g ↔ _
  by_cases hd : d = s.calls
  · subst hd
    rw [update_self, (h.tidy.fresh _ (Nat.le_refl _)).1]
    refine iff_of_false ?_ nofun
    rintro he
    cases he
    rw [hpar] at hg
    cases hg
  · rw [update_of_ne hd]

theorem Inv.empty (h : Inv s ph) (hle : stop ≤ start) :
    Inv ({ s.record [.called s.calls start stop] with calls := s.calls + 1 }.record [.returned s.calls]) ph := by
  obtain ⟨hnone, hret, hcalled⟩ := h.tidy.fresh s.calls (Nat.le_refl _)
  have hledger : Ledger ph.pool (s.record [.called s.calls start stop]) := by
    refine h.ledger.calls (p := .pool) nofun rfl hcalled hret (fun u => (or_iff_right ?_).symm)
      fun r u _ hro => ?_
    · rintro ⟨-, hlo, hhi⟩
      omega
    · cases r <;> first | exact .rfl | exact absurd rfl hro
  refine ⟨hledger.returns rfl (fun r u hro => ?_) fun r u hu hr => ?_, ⟨fun d hd => ?_, h.tidy.frames,
    h.tidy.pieces⟩, h.phase.congr rfl rfl rfl rfl rfl fun _ _ _ => .rfl⟩
  · cases r <;> first | exact .rfl | exact absurd rfl hro
  · obtain ⟨a, b, hab, hlo, hhi⟩ := (hledger.known u).mp ⟨r, hr⟩
    obtain hab | hab := List.mem_append.mp hab
    · exact absurd (hu ▸ hab) (hcalled a b)
    · injection List.mem_singleton.mp hab with _ ha hb
      omega
  · have hd : s.calls + 1 ≤ d := hd
    obtain ⟨hnone, hret, hcalled⟩ := h.tidy.fresh d (by omega)
    have hmem : ∀ {a : ParAct}, a ∈ s.acts ++ [.called s.calls start stop] ++ [.returned s.calls] → a ∈ s.acts ∨
        a = .called s.calls start stop ∨ a = .returned s.calls := by
      simp
    refine ⟨hnone, fun hr => ?_, fun a b hab => ?_⟩
    · obtain hr | hr | hr := hmem hr
      · exact hret hr
      · cases hr
      · injection hr with he
        omega
    · obtain hab | hab | hab := hmem hab
      · exact hcalled a b hab
      · injection hab with he
        omega
      · cases hab

/-- **`datara_rt_parallel_for` is called.** -/
theorem inv_callRt {start stop : Int64} (h : Inv s ph)
    (hapart : Apart workers (.callRt th start stop) s) :
    ∃ ph', Inv (s.callRt workers th start.toInt stop.toInt) ph' := by
  have hlo := start.le_toInt
  have hhi := stop.toInt_lt
  simp only [Apart] at hapart
  generalize start.toInt = lo at hlo hapart ⊢
  generalize stop.toInt = hi at hhi hapart ⊢
  simp only [callRt]
  split
  case isTrue hle => exact ⟨ph, h.empty hle⟩
  case isFalse hlt =>
    split
    case isTrue hpar =>
      obtain ⟨hquiet, hlast⟩ := hapart hpar
      obtain ⟨-, hworkers, htotal⟩ := hpar
      have he := int64_sub (Int.not_le.mp hlt) hlo hhi (by omega)
      rw [he] at htotal ⊢
      obtain ⟨hnone, hidle⟩ : PhaseOk s .quiet := by
        cases ph with
        | quiet => exact h.phase
        | preparing b => exact absurd h.phase.2.2 fun ⟨u, hu⟩ => nomatch hu.symm.trans (hquiet u)
        | busy b => exact absurd h.phase.2.2 fun ⟨u, hu⟩ => nomatch hu.symm.trans (hquiet u)
      let b : ParShare :=
        { call := s.calls, start := lo, stop := hi, chunk := chunkOf (numWorkers workers (hi - lo)) (hi - lo)
          numW := numWorkers workers (hi - lo) }
      have hpool : ParPhase.pool (.preparing b) = ph.pool := by
        cases ph with
        | quiet => rfl
        | preparing => rfl
        | busy b => exact absurd h.phase.2.2 fun ⟨u, hu⟩ => nomatch hu.symm.trans (hquiet u)
      let f : ParFrame := .store lo b.work b.numW [none, some .stop, some .chunk, some .fn, some .ctx]
      have hholds : ∀ u : ParToken, f.holds s.calls u ↔ u.call = s.calls ∧ lo ≤ u.index ∧ u.index < hi :=
        fun _ => .rfl
      refine ⟨.preparing b, h.pushes hpool (f := f) trivial hholds rfl rfl rfl rfl rfl rfl
        ⟨⟨⟨⟨hlo, ?_⟩, ?_, chunkOf_pos _ _, numWorkers_pos hworkers htotal, hlast⟩,
          ⟨rfl, rfl⟩, ⟨_, update_self .., rfl⟩, hidle⟩, fun d g hg hp => ?_, th, update_self ..⟩⟩
      · show lo < 2 ^ 63
        omega
      · show lo ≤ hi
        omega
      · have hg : Function.update s.frames s.calls _ d = some g := hg
        by_contra hd
        rw [update_of_ne hd] at hg
        have := hnone d g hg
        rw [hp] at this
        cases this
    case isFalse =>
      exact ⟨ph, h.pushes_plain rfl nofun fun u => and_congr_right fun _ => ParRange.holds_new⟩

/-- **`datara_parallel_for` is called.** -/
theorem inv_callSpawning {start stop : Int64} {processors : Int} (h : Inv s ph)
    (hapart : Apart workers (.callSpawning th start stop processors) s) :
    Inv (s.callSpawning th start.toInt stop.toInt processors) ph := by
  have hlo := start.le_toInt
  have hhi := stop.toInt_lt
  simp only [Apart] at hapart
  generalize start.toInt = lo at hlo hapart ⊢
  generalize stop.toInt = hi at hhi hapart ⊢
  simp only [callSpawning]
  split
  case isTrue hle => exact h.empty hle
  case isFalse hlt =>
    split
    case isTrue hsplits =>
      obtain ⟨hfits, hlast⟩ := hapart hsplits
      rw [Splits] at hsplits
      rw [int64_sub (Int.not_le.mp hlt) hlo hhi (by omega)]
      obtain ⟨hchunk, hcover⟩ := chunkSize_spec (numCores_pos processors) (by omega) hfits
      refine h.pushes_plain rfl ⟨rfl, Int.le_refl _, fun _ => Int.le_refl _, lo, hlo, hchunk, hlast, by omega,
        Nat.zero_le _, ?_⟩ fun u => and_congr_right fun _ => or_iff_right (ParRange.not_holds_empty (Int.le_refl _))
      rw [Int.natCast_zero, Int.zero_mul]
      omega
    case isFalse =>
      exact h.pushes_plain rfl nofun fun u => and_congr_right fun _ => ParRange.holds_new

/-! ### Runs -/

/-- **One step** that meets the condition keeps the invariant. -/
theorem inv_step {e : ParEvent} (h : Inv s ph) (hapart : Apart workers e s)
    (hstep : step workers e s = some s') : ∃ ph', Inv s' ph' := by
  cases e with
  | callRt th start stop =>
    obtain ⟨-, he⟩ := ite_none_right_eq_some.mp hstep
    cases he
    exact inv_callRt h hapart
  | callSpawning th start stop processors =>
    obtain ⟨-, he⟩ := ite_none_right_eq_some.mp hstep
    cases he
    exact ⟨ph, inv_callSpawning h hapart⟩
  | finish th =>
    rw [step, finish.eq_def] at hstep
    split at hstep
    case h_1 c rest hstack =>
      obtain ⟨⟨a, f'⟩, hfinish, rfl⟩ := map_eq_some_iff.mp hstep
      obtain ⟨f, hf, hfinish⟩ := bind_eq_some_iff.mp hfinish
      cases hpar : f.parallel with
      | true => exact ⟨ph, inv_finishOwner h hf hpar hfinish⟩
      | false => exact ⟨ph, inv_finishFrame h hf hpar hfinish⟩
    case h_2 hstack =>
      cases th with
      | user n => cases hstep
      | worker w =>
        obtain ⟨⟨a, l'⟩, hfinish, rfl⟩ := map_eq_some_iff.mp hstep
        obtain ⟨l, hl, hfinish⟩ := bind_eq_some_iff.mp hfinish
        exact ⟨ph, inv_finishWorker h hl hfinish⟩
      | spawned k =>
        obtain ⟨q, hq, hstep⟩ := bind_eq_some_iff.mp hstep
        obtain ⟨⟨a, r⟩, hfinish, rfl⟩ := map_eq_some_iff.mp hstep
        obtain ⟨i, rfl, hfine, hheld, hholds⟩ := ParRange.finish_spec (h.tidy.pieces k q hq).1 hfinish
        exact ⟨ph, h.pieceGives (t := ⟨q.1, i, true⟩) hq hfine rfl hheld hholds⟩
  | next th =>
    rw [step, next.eq_def] at hstep
    split at hstep
    case h_1 c rest hstack =>
      obtain ⟨f, hf, hstep⟩ := bind_eq_some_iff.mp hstep
      cases hpar : f.parallel with
      | false => exact ⟨ph, inv_nextFrame h hf hpar hstep⟩
      | true =>
        cases ph with
        | quiet => exact nomatch hpar.symm.trans (h.phase.1 c f hf)
        | busy b =>
          obtain rfl := h.phase.2.1 c f hf hpar
          exact inv_owner h hf hpar hstep
        | preparing b =>
          obtain rfl := h.phase.2.1 c f hf hpar
          obtain ⟨todo, hf', -⟩ := h.phase.1.owner
          cases hf.symm.trans hf'
          exact inv_store h hf hstep
    case h_2 hstack =>
      cases th with
      | user n => cases hstep
      | worker w => exact inv_nextWorker h hstep
      | spawned k => exact ⟨ph, inv_nextPiece h hstep⟩
  | create th ok =>
    rw [step, create.eq_def] at hstep
    split at hstep
    case h_1 c rest hstack =>
      obtain ⟨f, hf, hstep⟩ := bind_eq_some_iff.mp hstep
      exact ⟨ph, inv_create h hf hapart hstep⟩
    case h_2 => cases hstep

theorem inv_init : Inv {} .quiet where
  ledger := by
    have hnone : ∀ r t, ¬holds ParPhase.quiet.pool {} r t := by
      intro r t
      cases r with
      | pool => exact id
      | frame => exact fun ⟨_, h, _⟩ => nomatch h
      | helper => exact fun ⟨_, h, _⟩ => nomatch h
      | piece => exact fun ⟨_, h, _⟩ => nomatch h
      | past => exact List.not_mem_nil
    exact ⟨fun p _ t h => absurd h (hnone p t), fun t => ⟨fun ⟨p, h⟩ => absurd h (hnone p t), nofun⟩,
      fun _ _ _ => Nat.zero_le 1, nofun, nofun⟩
  tidy := ⟨fun _ _ => ⟨rfl, List.not_mem_nil, fun _ _ => List.not_mem_nil⟩, nofun, nofun⟩
  phase := ⟨nofun, fun _ => ⟨rfl, rfl⟩⟩

/-- **Parallel loops run every index exactly once**, in every run in which a call goes parallel only while no other
is, no creation of a thread fails and no position overflows. -/
theorem parallelFor_exactlyOnce {workers : Nat} {es : List ParEvent} {s : ParState}
    (hapart : Meets (step workers) (Apart workers) es {}) (hrun : runEvents (step workers) es {} = some s) :
    ExactlyOnce s.acts := by
  obtain ⟨ph, h⟩ := hapart.invariant (I := fun s => ∃ ph, Inv s ph)
    (fun e s s' ⟨ph, h⟩ hcond hstep => inv_step h hcond hstep) ⟨.quiet, inv_init⟩ hrun
  exact h.ledger.exactlyOnce

/-- No call, and no thread that is created. -/
def plain : ParEvent → Bool
  | .finish _ | .next _ => true
  | _ => false

theorem apart_plain {e : ParEvent} (h : plain e = true) : Apart workers e s := by
  cases e <;> first | trivial | cases h

/-- A loop of two indices, one of which a worker runs. -/
def sharedLoop : List ParEvent :=
  .callRt (.user 0) 0 2 :: (List.replicate 8 (.next (.user 0)) ++ List.replicate 8 (.next (.worker 1)) ++
    .finish (.worker 1) :: List.replicate 7 (.next (.user 0)) ++ .finish (.user 0) ::
    List.replicate 3 (.next (.user 0)) ++ List.replicate 3 (.next (.worker 1)) ++ List.replicate 2 (.next (.user 0)))

theorem parallelFor_exactlyOnce_sample : ExactlyOnce ((runEvents (step 2) sharedLoop {}).getD {}).acts := by
  have hplain : sharedLoop.tail.all plain = true := rfl
  have hapart : Meets (step 2) (Apart 2) sharedLoop {} :=
    ⟨fun _ => ⟨fun _ => rfl, by decide⟩, fun _ _ => Meets.of_forall fun e he _ =>
      apart_plain (List.all_eq_true.mp hplain e he)⟩
  exact parallelFor_exactlyOnce hapart rfl

/-- A second thread calls before the first has woken its worker, and describes its own work over the first's. -/
def overlappingLoops : List ParEvent :=
  .callRt (.user 0) 0 2 :: (List.replicate 6 (.next (.user 0)) ++ .callRt (.user 1) 0 2 ::
    List.replicate 5 (.next (.user 1)) ++ List.replicate 9 (.next (.user 0)) ++ .finish (.user 0) ::
    List.replicate 3 (.next (.user 0)) ++ .finish (.user 0) :: List.replicate 3 (.next (.user 0)) ++
    List.replicate 8 (.next (.worker 1)) ++ List.replicate 2 (.next (.user 0)))

/-- The first call returns and has run none of its own indices. -/
theorem parallelFor_not_exactlyOnce :
    ¬∀ (workers : Nat) (es : List ParEvent) (s : ParState), runEvents (step workers) es {} = some s →
      ExactlyOnce s.acts := by
  intro h
  have hcall := (h 2 overlappingLoops _ rfl).all 0 0 2 (by decide) (by decide) 0 (by decide) (by decide)
  exact absurd hcall.1 (by decide)

end ParState

end Datara.Runtime
