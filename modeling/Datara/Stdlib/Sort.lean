import Datara.Runtime.RtListSort
import Mathlib.Data.List.Forall2

/-!
# Sorting and searching

`stdlib/collections/sort.dtr`. A list is the number of its elements in a memory; a list that is made gets the next
number. An element is the slot it is held in, and the operators on elements are those of an order of slots. The built-in
`sort` is that of the run-time library. `sort_stable` returns a list of up to one element itself, and all else holds of
every list (`sorting_correct_iff`).
-/

namespace Datara.Stdlib.Sort

open Library Runtime.RtListSort
open Option (bind_eq_bind bind_some)

/-- An order of elements, total up to equality. -/
structure ElemOrder where
  le : Int → Int → Bool
  trans : ∀ a b c, le a b = true → le b c = true → le a c = true
  total : ∀ a b, (le a b || le b a) = true

namespace ElemOrder

variable (o : ElemOrder)

def lt (a b : Int) : Bool := !o.le b a

def eq (a b : Int) : Bool := o.le a b && o.le b a

end ElemOrder

/-- The elements of each list. -/
abbrev Memory := List (List Int)

/-! ## Lists -/

/-- `[]`. -/
def newList (mem : Memory) : Nat × Memory := (mem.length, mem ++ [[]])

def push (list : Nat) (x : Int) (mem : Memory) : Option Memory :=
  (mem[list]?).map fun xs => mem.set list (xs ++ [x])

def slice (list start stop : Nat) (mem : Memory) : Option (Nat × Memory) :=
  (mem[list]?).map fun xs => (mem.length, mem ++ [(xs.take stop).drop start])

section
variable (o : ElemOrder)

/-- `list.sort()`, which returns its receiver. `junk` is what is in the block of `malloc`. -/
def sortInPlace (junk : Nat → Int) (list : Nat) (mem : Memory) : Option (Nat × Memory) := do
  let xs ← mem[list]?
  if 1 < xs.length then
    let tmp := (List.range xs.length).map junk
    let (words, _) ← sortRange (fun a b => some (o.lt a b)) 0 xs.length ((xs.length : Int) :: xs) tmp
    return (list, mem.set list words.tail)
  else return (list, mem)

/-! ## The module; a loop and a recursion are given a number of rounds -/

/-- `while i < left.len() && j < right.len()`. -/
def mergeLoop (left right merged : Nat) : Nat → Nat → Nat → Memory → Option (Nat × Nat × Memory)
  | 0, _, _, _ => none
  | rounds + 1, i, j, mem => do
    let xs ← mem[left]?
    let ys ← mem[right]?
    if i < xs.length ∧ j < ys.length then
      let x ← xs[i]?
      let y ← ys[j]?
      if o.le x y then
        let mem ← push merged x mem
        mergeLoop left right merged rounds (i + 1) j mem
      else
        let mem ← push merged y mem
        mergeLoop left right merged rounds i (j + 1) mem
    else return (i, j, mem)

/-- `while i < left.len()`, and the same of `right`. -/
def drain (list merged : Nat) : Nat → Nat → Memory → Option Memory
  | 0, _, _ => none
  | rounds + 1, i, mem => do
    let xs ← mem[list]?
    if i < xs.length then
      let x ← xs[i]?
      let mem ← push merged x mem
      drain list merged rounds (i + 1) mem
    else return mem

def mergeSorted (rounds left right : Nat) (mem : Memory) : Option (Nat × Memory) := do
  let (merged, mem) := newList mem
  let (i, j, mem) ← mergeLoop o left right merged rounds 0 0 mem
  let mem ← drain left merged rounds i mem
  let mem ← drain right merged rounds j mem
  return (merged, mem)

def sortStable : Nat → Nat → Memory → Option (Nat × Memory)
  | 0, _, _ => none
  | rounds + 1, items, mem => do
    let n := (← mem[items]?).length
    if n ≤ 1 then return (items, mem)
    else
      let mid := n / 2
      let (front, mem) ← slice items 0 mid mem
      let (leftHalf, mem) ← sortStable rounds front mem
      let (back, mem) ← slice items mid n mem
      let (rightHalf, mem) ← sortStable rounds back mem
      mergeSorted o rounds leftHalf rightHalf mem

def sortUnstable (junk : Nat → Int) (items : Nat) (mem : Memory) : Option (Nat × Memory) := do
  let (copy, mem) ← slice items 0 (← mem[items]?).length mem
  sortInPlace o junk copy mem

/-- `while i + 1 < n`. -/
def isSortedFrom (xs : List Int) (n i : Nat) : Option Bool :=
  if i + 1 < n then do
    let next ← xs[i + 1]?
    let x ← xs[i]?
    if o.lt next x then return false
    else isSortedFrom xs n (i + 1)
  else return true
termination_by n - i

def isSorted (items : Nat) (mem : Memory) : Option Bool := do
  let xs ← mem[items]?
  isSortedFrom o xs xs.length 0

/-- `while lo < hi`. -/
def searchBetween (xs : List Int) (target : Int) (lo hi : Nat) : Option Int :=
  if lo < hi then do
    let mid := lo + (hi - lo) / 2
    let probe ← xs[mid]?
    if o.eq probe target then return (mid : Int)
    else if o.lt probe target then searchBetween xs target (mid + 1) hi
    else searchBetween xs target lo mid
  else return -1
termination_by hi - lo
decreasing_by all_goals omega

def binarySearch (items : Nat) (target : Int) (mem : Memory) : Option Int := do
  let xs ← mem[items]?
  searchBetween o xs target 0 xs.length

end

/-! ## What they promise -/

/-- What enough rounds come to. -/
def Returns {β : Type} (f : Nat → Option β) (b : β) : Prop := ∃ n, ∀ rounds, n ≤ rounds → f rounds = some b

/-- A list that was not there, with the lists that were as they were. -/
structure FreshList (mem : Memory) (list : Nat) (out : List Int) (mem' : Memory) : Prop where
  new : mem.length ≤ list
  here : mem'[list]? = some out
  kept : mem <+: mem'

/-- A sort of a list, stable or not, ends with a sorted list that is new; a list is sorted exactly if the stable sort
makes an equal one of it; and in a sorted list the search finds an element that is equal to the target, if there is
one. -/
structure SortingCorrect (o : ElemOrder) (junk : Nat → Int) (mem : Memory) (items : Nat) (xs : List Int) : Prop where
  stable : ∃ list out mem', Returns (fun rounds => sortStable o rounds items mem) (list, mem') ∧
    FreshList mem list out mem' ∧ SortsStably o.le xs out
  unstable : ∃ list out mem', sortUnstable o junk items mem = some (list, mem') ∧ FreshList mem list out mem' ∧
    out.Perm xs ∧ out.Pairwise fun a b => o.le a b = true
  sorted : ∃ b, isSorted o items mem = some b ∧ ∀ list out mem',
    Returns (fun rounds => sortStable o rounds items mem) (list, mem') → mem'[list]? = some out →
    (b = true ↔ List.Forall₂ (fun a b => o.eq a b = true) out xs) ∧ (b = true ↔ out = xs)
  search : isSorted o items mem = some true → ∀ target, ∃ index, binarySearch o items target mem = some index ∧
    ((∃ (k : Nat) (x : Int), index = k ∧ xs[k]? = some x ∧ o.eq x target = true) ∨
      index = -1 ∧ ∀ x ∈ xs, o.eq x target = false)

/-! ## The merge -/

variable {o : ElemOrder} {xs ys done : List Int} {mem : Memory} {left right i j rounds : Nat} {x : Int}

theorem push_last : push mem.length x (mem ++ [done]) = some (mem ++ [done ++ [x]]) := by
  simp [push]

theorem getElem?_below (h : mem[left]? = some xs) : (mem ++ [done])[left]? = some xs := by
  rw [List.getElem?_append_left (List.getElem?_eq_some_iff.mp h).1]
  exact h

theorem drain_spec (h : mem[left]? = some xs) (hrounds : xs.length - i < rounds) :
    drain left mem.length rounds i (mem ++ [done]) = some (mem ++ [done ++ xs.drop i]) := by
  induction rounds generalizing i done with
  | zero => omega
  | succ rounds ih =>
    rw [drain]
    simp only [getElem?_below h, bind_eq_bind, bind_some]
    by_cases hi : i < xs.length
    · rw [if_pos hi, List.getElem?_eq_getElem hi, bind_some, push_last, bind_some, ih (by omega),
        List.append_assoc, List.singleton_append, ← List.drop_eq_getElem_cons hi]
    · rw [if_neg hi, List.drop_of_length_le (by omega), List.append_nil]
      rfl

theorem mergeLoop_spec (hl : mem[left]? = some xs) (hr : mem[right]? = some ys)
    (hrounds : (xs.length - i) + (ys.length - j) < rounds) :
    ∃ i' j' done', mergeLoop o left right mem.length rounds i j (mem ++ [done]) = some (i', j', mem ++ [done']) ∧
      done' ++ xs.drop i' ++ ys.drop j' = done ++ List.merge (xs.drop i) (ys.drop j) o.le := by
  induction rounds generalizing i j done with
  | zero => omega
  | succ rounds ih =>
    rw [mergeLoop]
    simp only [getElem?_below hl, getElem?_below hr, bind_eq_bind, bind_some]
    by_cases hboth : i < xs.length ∧ j < ys.length
    · obtain ⟨hi, hj⟩ := hboth
      rw [if_pos ⟨hi, hj⟩, List.getElem?_eq_getElem hi, List.getElem?_eq_getElem hj, bind_some, bind_some,
        List.drop_eq_getElem_cons hi, List.drop_eq_getElem_cons hj]
      by_cases hle : o.le xs[i] ys[j] = true
      · obtain ⟨i', j', done', hrun, hout⟩ := @ih (done ++ [xs[i]]) (i + 1) j (by omega)
        rw [if_pos hle, push_last, bind_some, hrun]
        refine ⟨i', j', done', rfl, ?_⟩
        rw [hout, List.cons_merge_cons_pos _ _ _ hle, List.append_assoc, List.singleton_append,
          ← List.drop_eq_getElem_cons hj]
      · obtain ⟨i', j', done', hrun, hout⟩ := @ih (done ++ [ys[j]]) i (j + 1) (by omega)
        rw [if_neg hle, push_last, bind_some, hrun]
        refine ⟨i', j', done', rfl, ?_⟩
        rw [hout, List.cons_merge_cons_neg _ _ _ hle, List.append_assoc, List.singleton_append,
          ← List.drop_eq_getElem_cons hi]
    · rw [if_neg hboth]
      refine ⟨i, j, done, rfl, ?_⟩
      rcases Nat.lt_or_ge i xs.length with hi | hi
      · rw [List.drop_of_length_le (show ys.length ≤ j by omega), List.merge_right, List.append_nil]
      · rw [List.drop_of_length_le hi, List.nil_merge, List.append_nil]

/-- **The merge** of two lists is a new list. -/
theorem mergeSorted_spec (hl : mem[left]? = some xs) (hr : mem[right]? = some ys)
    (hrounds : xs.length + ys.length < rounds) :
    mergeSorted o rounds left right mem = some (mem.length, mem ++ [List.merge xs ys o.le]) := by
  obtain ⟨i, j, done, hloop, hout⟩ := @mergeLoop_spec o xs ys [] mem left right 0 0 rounds hl hr (by simpa using hrounds)
  rw [List.drop_zero, List.drop_zero, List.nil_append, List.append_assoc] at hout
  simp only [mergeSorted, newList, bind_eq_bind, hloop, bind_some]
  rw [drain_spec hl (by omega), bind_some, drain_spec hr (by omega), bind_some, List.append_assoc, hout]
  rfl

/-! ## The sorts -/

variable {items : Nat} {junk : Nat → Int}

theorem slice_eq {start stop : Nat} (h : mem[items]? = some xs) :
    slice items start stop mem = some (mem.length, mem ++ [(xs.take stop).drop start]) := by rw [slice, h]; rfl

theorem getElem?_kept {mem' : Memory} (hkept : mem <+: mem') (h : mem[items]? = some xs) : mem'[items]? = some xs := by
  obtain ⟨more, rfl⟩ := hkept
  rw [List.getElem?_append_left (List.getElem?_eq_some_iff.mp h).1]
  exact h

/-- What each call of `sort_stable` does; one of up to one element gives the list back. -/
theorem sortStable_spec (h : mem[items]? = some xs) :
    ∃ list out mem', (∀ rounds, xs.length + 2 ≤ rounds → sortStable o rounds items mem = some (list, mem')) ∧
      mem <+: mem' ∧ mem'[list]? = some out ∧ SortsStably o.le xs out ∧ (2 ≤ xs.length → mem.length ≤ list) ∧
      (xs.length ≤ 1 → list = items) := by
  induction hn : xs.length using Nat.strongRecOn generalizing items xs mem with
  | ind n ih =>
    subst hn
    by_cases hshort : xs.length ≤ 1
    · refine ⟨items, xs, mem, fun rounds hrounds => ?_, List.prefix_refl _, h, SortsStably.of_length hshort, by omega,
        fun _ => rfl⟩
      obtain ⟨rounds, rfl⟩ : ∃ k, rounds = k + 1 := ⟨rounds - 1, by omega⟩
      simp only [sortStable, h, bind_eq_bind, bind_some, hshort, if_true]
      rfl
    · -- each half is sliced off, sorted, and left alone from then on
      have hfront : (mem ++ [(xs.take (xs.length / 2)).drop 0])[mem.length]? = some (xs.take (xs.length / 2)) := by simp
      have hfrontLen : (xs.take (xs.length / 2)).length = xs.length / 2 := by
        rw [List.length_take]
        omega
      obtain ⟨leftHalf, out₁, mem₁, hrun₁, hkept₁, hout₁, hsorted₁, -, -⟩ :=
        ih _ (by omega) hfront hfrontLen
      have hmem₁ : mem <+: mem₁ := (List.prefix_append _ _).trans hkept₁
      have hback : (mem₁ ++ [(xs.take xs.length).drop (xs.length / 2)])[mem₁.length]? =
          some (xs.drop (xs.length / 2)) := by simp
      have hbackLen : (xs.drop (xs.length / 2)).length = xs.length - xs.length / 2 := List.length_drop
      obtain ⟨rightHalf, out₂, mem₂, hrun₂, hkept₂, hout₂, hsorted₂, -, -⟩ :=
        ih _ (by omega) hback hbackLen
      have hmem₂ : mem₁ <+: mem₂ := (List.prefix_append _ _).trans hkept₂
      have hlen₁ := hsorted₁.perm.length_eq
      have hlen₂ := hsorted₂.perm.length_eq
      have hsorted := hsorted₁.merge o.trans o.total hsorted₂
      rw [List.take_append_drop] at hsorted
      refine ⟨mem₂.length, _, mem₂ ++ [List.merge out₁ out₂ o.le], fun rounds hrounds => ?_,
        (hmem₁.trans hmem₂).trans (List.prefix_append _ _), by simp, hsorted,
        fun _ => (hmem₁.trans hmem₂).length_le, fun hlen => absurd hlen hshort⟩
      obtain ⟨rounds, rfl⟩ : ∃ k, rounds = k + 1 := ⟨rounds - 1, by omega⟩
      rw [sortStable]
      simp only [h, bind_eq_bind, bind_some]
      rw [if_neg hshort, slice_eq h, bind_some, hrun₁ rounds (by omega), bind_some,
        slice_eq (getElem?_kept hmem₁ h), bind_some, hrun₂ rounds (by omega), bind_some]
      exact mergeSorted_spec (getElem?_kept hmem₂ hout₁) hout₂ (by omega)

theorem sortUnstable_spec (h : mem[items]? = some xs) :
    ∃ list out mem', sortUnstable o junk items mem = some (list, mem') ∧ FreshList mem list out mem' ∧
      out.Perm xs ∧ out.Pairwise fun a b => o.le a b = true := by
  simp only [sortUnstable, h, bind_eq_bind, bind_some, slice_eq h, List.take_length, List.drop_zero,
    sortInPlace, List.getElem?_concat_length]
  by_cases hlong : 1 < xs.length
  · obtain ⟨out, tmp, hrun, -, hsorted⟩ := @sortRange_spec (fun a b => some (o.lt a b)) o.le 0 xs.length
      [(xs.length : Int)] xs [] ((List.range xs.length).map junk) (fun _ _ => rfl) o.trans o.total rfl (by simp)
      (by simp)
    rw [List.append_nil, List.append_nil] at hrun
    rw [if_pos hlong]
    simp only [List.singleton_append] at hrun
    rw [hrun]
    refine ⟨mem.length, out, mem ++ [out], by simp, ⟨Nat.le_refl _, by simp, List.prefix_append _ _⟩, hsorted.perm,
      hsorted.ordered⟩
  · have hsorted : SortsStably o.le xs xs := .of_length (by omega)
    rw [if_neg hlong]
    exact ⟨mem.length, xs, mem ++ [xs], rfl, ⟨Nat.le_refl _, by simp, List.prefix_append _ _⟩, hsorted.perm,
      hsorted.ordered⟩

/-! ## The check and the search -/

theorem isSortedFrom_spec (xs : List Int) (i : Nat) : ∃ b, isSortedFrom o xs xs.length i = some b ∧
    (b = true ↔ ∀ k (hk : k + 1 < xs.length), i ≤ k → o.le xs[k] xs[k + 1] = true) := by
  induction hleft : xs.length - i generalizing i with
  | zero =>
    rw [isSortedFrom, if_neg (by omega)]
    exact ⟨true, rfl, fun _ k hk hik => by omega, fun _ => rfl⟩
  | succ left ih =>
    rw [isSortedFrom]
    by_cases hi : i + 1 < xs.length
    · rw [if_pos hi]
      simp only [List.getElem?_eq_getElem hi, List.getElem?_eq_getElem (Nat.lt_of_succ_lt hi), bind_eq_bind,
        bind_some, ElemOrder.lt]
      by_cases hle : o.le xs[i] xs[i + 1] = true
      · obtain ⟨b, hrun, hb⟩ := ih (i + 1) (by omega)
        refine ⟨b, by simpa [hle] using hrun, hb.trans ⟨fun hall k hk hik => ?_, fun hall k hk hik => hall k hk (by omega)⟩⟩
        rcases Nat.eq_or_lt_of_le hik with rfl | hlt
        · exact hle
        · exact hall k hk hlt
      · refine ⟨false, by simp [hle], ?_⟩
        simp only [Bool.false_eq_true, false_iff]
        exact fun hall => hle (hall i hi (Nat.le_refl i))
    · rw [if_neg hi]
      exact ⟨true, rfl, fun _ k hk hik => by omega, fun _ => rfl⟩

theorem isSorted_spec (h : mem[items]? = some xs) :
    ∃ b, isSorted o items mem = some b ∧ (b = true ↔ xs.Pairwise fun a b => o.le a b = true) := by
  obtain ⟨b, hrun, hb⟩ := isSortedFrom_spec (o := o) xs 0
  have : Trans (fun a b => o.le a b = true) (fun a b => o.le a b = true) (fun a b => o.le a b = true) :=
    ⟨fun h₁ h₂ => o.trans _ _ _ h₁ h₂⟩
  refine ⟨b, by rw [isSorted, h]; exact hrun, hb.trans ?_⟩
  rw [← List.isChain_iff_pairwise, List.isChain_iff_getElem]
  exact ⟨fun hall k hk => hall k hk (Nat.zero_le k), fun hall k hk _ => hall k hk⟩

/-- The elements before `lo` are below the target and those from `hi` on above it. -/
theorem searchBetween_spec {target : Int} {lo hi : Nat} (hsorted : xs.Pairwise fun a b => o.le a b = true)
    (hhi : hi ≤ xs.length) (hbelow : ∀ (k : Nat) (x : Int), k < lo → xs[k]? = some x → o.le target x = false)
    (habove : ∀ (k : Nat) (x : Int), hi ≤ k → xs[k]? = some x → o.le x target = false) :
    ∃ index, searchBetween o xs target lo hi = some index ∧
      ((∃ (k : Nat) (x : Int), index = k ∧ xs[k]? = some x ∧ o.eq x target = true) ∨
        index = -1 ∧ ∀ x ∈ xs, o.eq x target = false) := by
  induction hsize : hi - lo using Nat.strongRecOn generalizing lo hi with
  | ind size ih =>
    rw [searchBetween]
    by_cases hlt : lo < hi
    · have hmid : lo + (hi - lo) / 2 < xs.length := by omega
      generalize hm : lo + (hi - lo) / 2 = mid at hmid
      have hx := List.getElem?_eq_getElem hmid
      rw [if_pos hlt]
      simp only [hx, bind_eq_bind, bind_some]
      by_cases heq : o.eq xs[mid] target = true
      · rw [if_pos heq]
        exact ⟨mid, rfl, .inl ⟨mid, _, rfl, hx, heq⟩⟩
      · rw [if_neg heq]
        rw [List.pairwise_iff_getElem] at hsorted
        by_cases hbig : o.le target xs[mid] = true
        · -- the probe is above the target, and so is all after it
          have hnot : o.le xs[mid] target = false := by simpa [ElemOrder.eq, hbig] using heq
          rw [if_neg (by simp [ElemOrder.lt, hbig])]
          refine ih _ (by omega) (by omega) hbelow (fun k x hk hxk => ?_) rfl
          obtain ⟨hklt, rfl⟩ := List.getElem?_eq_some_iff.mp hxk
          rcases Nat.eq_or_lt_of_le hk with rfl | hlt'
          · exact hnot
          · by_contra hle
            rw [Bool.not_eq_false] at hle
            exact Bool.false_ne_true (hnot.symm.trans (o.trans _ _ _ (hsorted mid k hmid hklt hlt') hle))
        · rw [Bool.not_eq_true] at hbig
          rw [if_pos (by simp [ElemOrder.lt, hbig])]
          refine ih _ (by omega) hhi (fun k x hk hxk => ?_) habove rfl
          obtain ⟨hklt, rfl⟩ := List.getElem?_eq_some_iff.mp hxk
          rcases Nat.eq_or_lt_of_le (Nat.lt_succ_iff.mp hk) with rfl | hlt'
          · exact hbig
          · by_contra hle
            rw [Bool.not_eq_false] at hle
            exact Bool.false_ne_true (hbig.symm.trans (o.trans _ _ _ hle (hsorted k mid hklt hmid hlt')))
    · rw [if_neg hlt]
      refine ⟨-1, rfl, .inr ⟨rfl, fun x hx => ?_⟩⟩
      obtain ⟨k, hk⟩ := List.mem_iff_getElem?.mp hx
      rcases Nat.lt_or_ge k lo with hklo | hklo
      · rw [ElemOrder.eq, hbelow k x hklo hk, Bool.and_false]
      · rw [ElemOrder.eq, habove k x (by omega) hk, Bool.false_and]

/-! ## The claim -/

theorem Returns.unique {β : Type} {f : Nat → Option β} {a b : β} (ha : Returns f a) (hb : Returns f b) : a = b := by
  obtain ⟨n, hn⟩ := ha
  obtain ⟨m, hm⟩ := hb
  exact Option.some.inj ((hn _ (Nat.le_max_left n m)).symm.trans (hm _ (Nat.le_max_right n m)))

theorem pairwise_of_forall₂ {out : List Int} (h : List.Forall₂ (fun a b => o.eq a b = true) out xs)
    (hout : out.Pairwise fun a b => o.le a b = true) : xs.Pairwise fun a b => o.le a b = true := by
  rw [List.pairwise_iff_getElem] at hout ⊢
  intro k l hk hl hkl
  have hlen := h.length_eq
  have heq : ∀ (n : Nat) (hn : n < xs.length), o.le out[n] xs[n] = true ∧ o.le xs[n] out[n] = true := by
    intro n hn
    simpa [ElemOrder.eq] using h.get (i := n) (by omega) hn
  exact o.trans _ _ _ (heq k hk).2 (o.trans _ _ _ (hout k l (by omega) (by omega) hkl) (heq l hl).1)

theorem sortingCorrect_of_long (h : mem[items]? = some xs) (hlong : 2 ≤ xs.length) :
    SortingCorrect o junk mem items xs := by
  obtain ⟨list, out, mem', hrun, hkept, hout, hsorted, hnew, -⟩ := sortStable_spec (o := o) h
  obtain ⟨b, hcheck, hb⟩ := isSorted_spec (o := o) h
  refine ⟨⟨list, out, mem', ⟨_, hrun⟩, ⟨hnew hlong, hout, hkept⟩, hsorted⟩, sortUnstable_spec h,
    ⟨b, hcheck, fun list' out' mem'' hrun' hout' => ?_⟩, fun htrue target => ?_⟩
  · obtain ⟨rfl, rfl⟩ := Prod.mk.inj (Returns.unique ⟨_, hrun⟩ hrun')
    cases hout.symm.trans hout'
    have hself : b = true ↔ out = xs := hb.trans (hsorted.eq_iff_ordered o.total).symm
    refine ⟨hself.trans ⟨?_, fun heq => ?_⟩, hself⟩
    · rintro rfl
      exact List.forall₂_same.mpr fun x _ => by simpa [ElemOrder.eq] using o.total x x
    · exact (hsorted.eq_iff_ordered o.total).mpr (pairwise_of_forall₂ heq hsorted.ordered)
  · rw [hcheck] at htrue
    rw [binarySearch, h]
    exact searchBetween_spec (hb.mp (Option.some.inj htrue)) (Nat.le_refl _) (fun k x hk => by omega)
      (fun k x hk hxk => by simp [List.getElem?_eq_none hk] at hxk)

/-- **When the module does what it says**: for the lists of two elements and more. The stable sort of a shorter one is
the list itself. -/
theorem sorting_correct_iff (o : ElemOrder) (junk : Nat → Int) (mem : Memory) (items : Fin mem.length) :
    SortingCorrect o junk mem items mem[items] ↔ 2 ≤ mem[items].length := by
  have h : mem[items.val]? = some mem[items] := List.getElem?_eq_getElem items.isLt
  refine ⟨fun hcorrect => ?_, sortingCorrect_of_long h⟩
  by_contra hshort
  obtain ⟨list, out, mem', hrun, hfresh, -⟩ := hcorrect.stable
  obtain ⟨list', out', mem'', hrun', -, -, -, -, hsame⟩ := sortStable_spec (o := o) h
  obtain ⟨rfl, -⟩ := Prod.mk.inj (Returns.unique hrun ⟨_, hrun'⟩)
  have hnew := hfresh.new
  rw [hsame (by omega)] at hnew
  exact absurd items.isLt (Nat.not_lt.mpr hnew)

/-- The order of the numbers. -/
def ElemOrder.ofInt : ElemOrder where
  le a b := a ≤ b
  trans a b c hab hbc := by
    simp only [decide_eq_true_eq] at *
    exact Int.le_trans hab hbc
  total a b := by
    simp only [Bool.or_eq_true, decide_eq_true_eq]
    exact Int.le_total a b

/-- The stable sort of the list of 7 is the list that was given. -/
theorem one_element_given_back : ¬ SortingCorrect .ofInt (fun _ => 0) [[7]] 0 [7] := by
  intro h
  obtain ⟨list, out, mem', ⟨n, hrun⟩, hfresh, -⟩ := h.stable
  have hone : sortStable .ofInt (n + 1) 0 [[7]] = some (0, [[7]]) := rfl
  cases hone.symm.trans (hrun (n + 1) (Nat.le_succ n))
  exact absurd hfresh.new (by decide)

end Datara.Stdlib.Sort
