import Datara.Library.BinaryHeap
import Mathlib.Data.List.Induction

/-!
# The priority queue

`PriorityQueue` of `stdlib/collections/priority_queue.dtr`, over elements that `>` orders totally. An element read or
written at an index outside the list is a failure here, so that no run which ends well has one. Every operation ends
with a heap of what was pushed and not popped (`queue_is_heap`).
-/

namespace Datara.Stdlib.PriorityQueue

open Library

/-- How an operation fails; `endless` is a loop that makes more rounds than there are elements. -/
inductive Panic
  | message (text : String)
  | index
  | endless
  deriving DecidableEq, Repr

section
variable {α : Type}

/-! ## The operations -/

/-- `items.get(i)`. -/
def get (items : List α) (i : Nat) : Except Panic α :=
  match items[i]? with
  | some x => .ok x
  | none => .error .index

/-- `items.set(i, x)`. -/
def set (items : List α) (i : Nat) (x : α) : Except Panic (List α) :=
  if i < items.length then .ok (items.set i x) else .error .index

/-- `while idx < n - 1`. -/
def copyFront (items : List α) (n idx : Nat) (newItems : List α) : Except Panic (List α) :=
  if idx < n - 1 then do
    let x ← get items idx
    copyFront items n (idx + 1) (newItems ++ [x])
  else return newItems
termination_by n - 1 - idx

variable [LinearOrder α]

/-- `while i > 0 && keep_going`. -/
def siftUp (items : List α) (i : Nat) : Except Panic (List α) :=
  if 0 < i then do
    let parent := (i - 1) / 2
    let curVal ← get items i
    let parentVal ← get items parent
    if curVal > parentVal then
      let items ← set items i parentVal
      let items ← set items parent curVal
      siftUp items parent
    else return items
  else return items
termination_by i
decreasing_by omega

def push (item : α) (items : List α) : Except Panic (List α) :=
  let items := items ++ [item]
  siftUp items (items.length - 1)

/-- The place of the largest of an element and its children. -/
def largestOf (items : List α) (i count : Nat) : Except Panic Nat := do
  let left := i * 2 + 1
  let right := i * 2 + 2
  let largest := if (← get items left) > (← get items i) then left else i
  if right < count then
    if (← get items right) > (← get items largest) then return right
  return largest

/-- `while (i * 2 + 1) < count && keep_sifting`, for a number of rounds. -/
def siftDown (count : Nat) : Nat → List α → Nat → Except Panic (List α)
  | 0, _, _ => .error .endless
  | rounds + 1, items, i =>
    if i * 2 + 1 < count then do
      let largest ← largestOf items i count
      if largest ≠ i then
        let vI ← get items i
        let vL ← get items largest
        let items ← set items i vL
        let items ← set items largest vI
        siftDown count rounds items largest
      else return items
    else return items

/-- The element that is returned, and the items that are left. -/
def pop (items : List α) : Except Panic (α × List α) :=
  let n := items.length
  if n = 0 then .error (.message "pop from empty priority_queue")
  else do
    let top ← get items 0
    if n ≤ 1 then return (top, [])
    else
      let last ← get items (n - 1)
      let newItems ← copyFront items n 0 []
      let items ← set newItems 0 last
      let items ← siftDown items.length (items.length + 1) items 0
      return (top, items)

/-! ## Runs -/

inductive Op (α : Type)
  | push (item : α)
  | pop

/-- A queue, what has been pushed, and each pop with the items it found and what it returned. -/
structure World (α : Type) where
  items : List α := []
  pushed : List α := []
  pops : List (List α × α) := []

def step (w : World α) : Op α → Except Panic (World α)
  | .push item => do
    let items ← push item w.items
    return { w with items := items, pushed := w.pushed ++ [item] }
  | .pop => do
    let (top, items) ← pop w.items
    return { w with items := items, pops := w.pops ++ [(w.items, top)] }

def run (ops : List (Op α)) (w : World α) : Except Panic (World α) := ops.foldlM step w

/-- No element is above its parent; the items are those that were pushed less those that were popped; and each pop
returned a maximum of the items it found. -/
structure HeapQueue (w : World α) : Prop where
  ordered : ∀ i x y, 0 < i → w.items[i]? = some x → w.items[(i - 1) / 2]? = some y → x ≤ y
  books : (w.items ++ w.pops.map (·.2)).Perm w.pushed
  maxima : ∀ p ∈ w.pops, p.2 ∈ p.1 ∧ ∀ x ∈ p.1, x ≤ p.2

end

/-! ## What the loops do -/

section
variable {α : Type} {items : List α} {i k n idx : Nat} {x y : α}

theorem ok_bind {β γ : Type} (b : β) (f : β → Except Panic γ) : (Except.ok b >>= f) = f b := rfl

theorem get_of_getElem? (h : items[i]? = some x) : get items i = .ok x := by rw [get, h]

theorem set_of_lt (h : i < items.length) : set items i x = .ok (items.set i x) := by rw [set, if_pos h]

theorem copyFront_spec (hn : n ≤ items.length) (hidx : idx ≤ n - 1) :
    copyFront items n idx (items.take idx) = .ok (items.take (n - 1)) := by
  induction hleft : n - 1 - idx generalizing idx with
  | zero =>
    obtain rfl : idx = n - 1 := by omega
    rw [copyFront, if_neg (Nat.lt_irrefl _)]
    rfl
  | succ left ih =>
    have hlt : idx < items.length := by omega
    rw [copyFront, if_pos (by omega), get_of_getElem? (List.getElem?_eq_getElem hlt), ok_bind,
      List.take_append_getElem hlt]
    exact ih (by omega) (by omega)

variable [LinearOrder α]

theorem siftUp_spec (h : Heap.AboveAt items i) (hi : i < items.length) :
    ∃ items', siftUp items i = .ok items' ∧ Heap.IsHeap items' ∧ items'.Perm items := by
  induction i using Nat.strongRecOn generalizing items with
  | ind i ih =>
    rw [siftUp]
    split
    case isFalse h0 => exact ⟨items, rfl, h.isHeap fun hpos => absurd hpos h0, .refl _⟩
    case isTrue hpos =>
      have hlt := Heap.parent_lt hpos
      have hpi := Nat.lt_trans hlt hi
      have hx := List.getElem?_eq_getElem hi
      have hy := List.getElem?_eq_getElem hpi
      simp only [← Heap.parent.eq_1, get_of_getElem? hx, get_of_getElem? hy, ok_bind, set_of_lt hi]
      rw [set_of_lt (by rwa [List.length_set]), ok_bind]
      split
      case isTrue hgt =>
        obtain ⟨items', hrun, hheap, hperm⟩ := ih _ hlt (h.swap hpos hx hy hgt) (by rwa [Heap.swap_length])
        exact ⟨items', hrun, hheap, hperm.trans (Heap.swap_perm hx hy)⟩
      case isFalse hle =>
        refine ⟨items, rfl, h.isHeap fun _ x y hx' hy' => ?_, .refl _⟩
        cases hx.symm.trans hx'
        cases hy.symm.trans hy'
        exact le_of_not_gt hle

theorem push_spec (h : Heap.IsHeap items) (x : α) :
    ∃ items', push x items = .ok items' ∧ Heap.IsHeap items' ∧ items'.Perm (items ++ [x]) := by
  have hlen : (items ++ [x]).length - 1 = items.length := by simp
  have habove := h.append x
  rw [← hlen] at habove
  exact siftUp_spec habove (by simp)

/-- What the round of a sift looks for. -/
theorem largestOf_spec (hx : items[i]? = some x) (hleft : i * 2 + 1 < items.length) :
    ∃ k y, largestOf items i items.length = .ok k ∧ items[k]? = some y ∧ (k = i ∨ 0 < k ∧ Heap.parent k = i) ∧
      x ≤ y ∧ ∀ j z, 0 < j → Heap.parent j = i → items[j]? = some z → z ≤ y := by
  have hchild : ∀ j, 0 < j → Heap.parent j = i → j = i * 2 + 1 ∨ j = i * 2 + 2 := by
    intro j hj hp
    unfold Heap.parent at hp
    omega
  have hl := List.getElem?_eq_getElem hleft
  -- the larger of the element and its left child
  obtain ⟨m, y, hm, hmy, hkind, hxy, hly⟩ : ∃ m y, (if items[i * 2 + 1] > x then i * 2 + 1 else i) = m ∧
      items[m]? = some y ∧ (m = i ∨ m = i * 2 + 1) ∧ x ≤ y ∧ items[i * 2 + 1] ≤ y := by
    by_cases hgt : items[i * 2 + 1] > x
    · exact ⟨_, _, if_pos hgt, hl, .inr rfl, le_of_lt hgt, le_refl _⟩
    · exact ⟨_, _, if_neg hgt, hx, .inl rfl, le_refl _, le_of_not_gt hgt⟩
  have hmkind : m = i ∨ 0 < m ∧ Heap.parent m = i := by
    unfold Heap.parent
    omega
  simp only [largestOf, get_of_getElem? hl, get_of_getElem? hx, ok_bind, hm]
  by_cases hright : i * 2 + 2 < items.length
  · have hr := List.getElem?_eq_getElem hright
    simp only [hright, if_true, get_of_getElem? hr, get_of_getElem? hmy, ok_bind]
    by_cases hgt : items[i * 2 + 2] > y
    · refine ⟨i * 2 + 2, _, by rw [if_pos hgt]; rfl, hr, .inr ⟨by omega, by unfold Heap.parent; omega⟩,
        le_trans hxy (le_of_lt hgt), fun j z hj hp hz => ?_⟩
      rcases hchild j hj hp with rfl | rfl
      · exact Option.some.inj (hl.symm.trans hz) ▸ le_trans hly (le_of_lt hgt)
      · exact le_of_eq (Option.some.inj (hz.symm.trans hr))
    · refine ⟨m, y, by rw [if_neg hgt]; rfl, hmy, hmkind, hxy, fun j z hj hp hz => ?_⟩
      rcases hchild j hj hp with rfl | rfl
      · exact Option.some.inj (hl.symm.trans hz) ▸ hly
      · exact Option.some.inj (hr.symm.trans hz) ▸ le_of_not_gt hgt
  · refine ⟨m, y, by rw [if_neg hright]; rfl, hmy, hmkind, hxy, fun j z hj hp hz => ?_⟩
    have hjlt := (List.getElem?_eq_some_iff.mp hz).1
    obtain rfl : j = i * 2 + 1 := by
      rcases hchild j hj hp with h | h
      · exact h
      · omega
    exact Option.some.inj (hl.symm.trans hz) ▸ hly

theorem siftDown_spec {rounds : Nat} (h : Heap.BelowAt items i) (hi : i < items.length)
    (hrounds : items.length - i < rounds) :
    ∃ items', siftDown items.length rounds items i = .ok items' ∧ Heap.IsHeap items' ∧ items'.Perm items := by
  induction rounds generalizing items i with
  | zero => omega
  | succ rounds ih =>
    rw [siftDown]
    split
    case isFalse hleaf =>
      refine ⟨items, rfl, h.isHeap fun j hj hp x y hx _ => ?_, .refl _⟩
      have := (List.getElem?_eq_some_iff.mp hx).1
      unfold Heap.parent at hp
      omega
    case isTrue hleft =>
      have hx := List.getElem?_eq_getElem hi
      obtain ⟨k, y, hrun, hy, hkind, hle, hmax⟩ := largestOf_spec hx hleft
      rw [hrun, ok_bind]
      split
      case isTrue hne =>
        obtain ⟨hk, hp⟩ := hkind.resolve_left hne
        have hklt := (List.getElem?_eq_some_iff.mp hy).1
        have hik := Heap.parent_lt hk
        rw [get_of_getElem? hx, ok_bind, get_of_getElem? hy, ok_bind, set_of_lt hi, ok_bind,
          set_of_lt (by rwa [List.length_set]), ok_bind]
        have hlen : (Heap.swap items i k items[i] y).length = items.length := Heap.swap_length
        obtain ⟨items', hrun', hheap, hperm⟩ := ih (h.swap hk hp hx hy hle hmax) (by omega) (by omega)
        rw [hlen] at hrun'
        exact ⟨items', hrun', hheap, hperm.trans (Heap.swap_perm hx hy)⟩
      case isFalse heq =>
        obtain rfl : k = i := Decidable.not_not.mp heq
        cases hx.symm.trans hy
        refine ⟨items, rfl, h.isHeap fun j hj hp u v hu hv => ?_, .refl _⟩
        rw [hp] at hv
        exact Option.some.inj (hx.symm.trans hv) ▸ hmax j u hj hp hu

/-- **A pop** returns the root and leaves a heap of the rest. -/
theorem pop_spec (h : Heap.IsHeap items) (hne : items ≠ []) :
    ∃ top items', pop items = .ok (top, items') ∧ Heap.IsHeap items' ∧ items[0]? = some top ∧
      (top :: items').Perm items := by
  obtain ⟨top, rest, rfl⟩ := List.exists_cons_of_ne_nil hne
  rw [pop, if_neg (by simp), get_of_getElem? List.getElem?_cons_zero, ok_bind]
  rcases List.eq_nil_or_concat' rest with rfl | ⟨mid, last, rfl⟩
  · exact ⟨top, [], rfl, fun j _ x y hx => by simp at hx, rfl, .refl _⟩
  · have hlen : (top :: (mid ++ [last])).length = mid.length + 2 := by simp
    have hlast : (top :: (mid ++ [last]))[mid.length + 2 - 1]? = some last := by simp
    have hfront : (top :: (mid ++ [last])).take (mid.length + 2 - 1) = top :: mid := by simp
    have hcopy := copyFront_spec (n := mid.length + 2) (Nat.le_of_eq hlen.symm) (Nat.zero_le _)
    rw [List.take_zero, hfront] at hcopy
    have hbelow : Heap.BelowAt (last :: mid) 0 := by
      have hheap := h.take (mid.length + 2 - 1)
      rw [hfront] at hheap
      exact hheap.setRoot last
    obtain ⟨items', hrun, hheap, hperm⟩ := siftDown_spec hbelow (by simp) (Nat.lt_succ_of_le (Nat.sub_le _ _))
    refine ⟨top, items', ?_, hheap, rfl, ?_⟩
    · rw [hlen, if_neg (by omega), get_of_getElem? hlast, ok_bind, hcopy, ok_bind, set_of_lt (by simp), ok_bind,
        List.set_cons_zero, hrun]
      rfl
    · exact (hperm.cons top).trans ((List.perm_append_singleton last mid).symm.cons top)

/-! ## Runs -/

variable {w : World α}

theorem init_heapQueue : HeapQueue ({} : World α) where
  ordered i x y _ hx := by simp at hx
  books := .refl _
  maxima p hp := by simp at hp

/-- **A step** keeps the queue a heap of what is in it, and fails only as a pop of the empty queue. -/
theorem step_heapQueue (h : HeapQueue w) (op : Op α) :
    (∃ w', step w op = .ok w' ∧ HeapQueue w') ∨
      op = .pop ∧ w.items = [] ∧ step w op = .error (.message "pop from empty priority_queue") := by
  have hheap : Heap.IsHeap w.items := fun j hj x y => h.ordered j x y hj
  cases op with
  | push item =>
    obtain ⟨items', hpush, hheap', hperm⟩ := push_spec hheap item
    refine .inl ⟨{ w with items := items', pushed := w.pushed ++ [item] }, by rw [step, hpush]; rfl,
      fun i x y hi => hheap' i hi x y, ?_, h.maxima⟩
    calc (items' ++ w.pops.map (·.2)).Perm (w.items ++ [item] ++ w.pops.map (·.2)) := hperm.append_right _
      _ |>.Perm (w.items ++ w.pops.map (·.2) ++ [item]) := by
        simp only [List.append_assoc]
        exact List.perm_append_comm.append_left _
      _ |>.Perm (w.pushed ++ [item]) := h.books.append_right _
  | pop =>
    by_cases hempty : w.items = []
    · exact .inr ⟨rfl, hempty, by rw [step, hempty]; rfl⟩
    obtain ⟨top, items', hpop, hheap', hroot, hperm⟩ := pop_spec hheap hempty
    refine .inl ⟨{ w with items := items', pops := w.pops ++ [(w.items, top)] }, by rw [step, hpop]; rfl,
      fun i x y hi => hheap' i hi x y, ?_, ?_⟩
    · have hmove : (items' ++ (w.pops.map (·.2) ++ [top])).Perm (top :: items' ++ w.pops.map (·.2)) := by
        rw [← List.append_assoc]
        exact List.perm_append_singleton _ _
      rw [List.map_append]
      exact hmove.trans ((hperm.append_right _).trans h.books)
    · intro p hp
      rcases List.mem_append.mp hp with hp | hp
      · exact h.maxima p hp
      · obtain rfl := List.mem_singleton.mp hp
        exact ⟨List.mem_of_getElem? hroot, fun x hx => hheap.le_root hroot hx⟩

/-- Pops of all items return them from the greatest on: each is the root of a heap of those that are left. -/
theorem run_pops (h : Heap.IsHeap w.items) : ∃ w', run (List.replicate w.items.length .pop) w = .ok w' ∧
    w'.items = [] ∧ ∃ out, w'.pops.map (·.2) = w.pops.map (·.2) ++ out ∧ out.Pairwise (· ≥ ·) ∧ out.Perm w.items := by
  induction hn : w.items.length generalizing w with
  | zero =>
    have hnil := List.eq_nil_of_length_eq_zero hn
    exact ⟨w, rfl, hnil, [], (List.append_nil _).symm, .nil, hnil ▸ .refl _⟩
  | succ n ih =>
    obtain ⟨top, items', hpop, hheap, hroot, hperm⟩ := pop_spec h (List.ne_nil_of_length_eq_add_one hn)
    have hlen := hperm.length_eq
    obtain ⟨w', hrun, hempty, out, hpops, hsorted, hout⟩ :=
      @ih { w with items := items', pops := w.pops ++ [(w.items, top)] } hheap (Nat.succ.inj (hlen.trans hn))
    refine ⟨w', ?_, hempty, top :: out, by rw [hpops]; simp, ?_, (hout.cons top).trans hperm⟩
    · rw [List.replicate_succ, run, List.foldlM_cons, step, hpop]
      exact hrun
    · refine List.pairwise_cons.mpr ⟨fun x hx => h.le_root hroot (hperm.subset ?_), hsorted⟩
      exact List.mem_cons_of_mem _ (hout.subset hx)

theorem run_heapQueue {ops : List (Op α)} {v : World α} (h : HeapQueue v) (hrun : run ops v = .ok w) : HeapQueue w := by
  induction ops generalizing v with
  | nil =>
    cases hrun
    exact h
  | cons op ops ih =>
    rw [run, List.foldlM_cons] at hrun
    rcases step_heapQueue h op with ⟨v', hstep, hv'⟩ | ⟨-, -, hstep⟩
    · rw [hstep] at hrun
      exact ih hv' hrun
    · rw [hstep] at hrun
      cases hrun

/-- **A queue that is drained gives back its items in order.** After any operations that end well, as many pops as there
are items end well and leave none, and what they return is what has been pushed and not popped, from the greatest on. -/
theorem drain_sorts (ops : List (Op α)) (w : World α) (hw : run ops {} = .ok w) :
    ∃ w', run (ops ++ List.replicate w.items.length .pop) {} = .ok w' ∧ w'.items = [] ∧
      ∃ out, w'.pops.map (·.2) = w.pops.map (·.2) ++ out ∧ out.Pairwise (· ≥ ·) ∧
        (out ++ w.pops.map (·.2)).Perm w.pushed := by
  have h := run_heapQueue init_heapQueue hw
  obtain ⟨w', hrun, hempty, out, hpops, hsorted, hout⟩ := run_pops (fun j hj x y => h.ordered j x y hj)
  refine ⟨w', ?_, hempty, out, hpops, hsorted, (hout.append_right _).trans h.books⟩
  rw [run, List.foldlM_append, ← run, hw]
  exact hrun

theorem drain_sorts_one : ∃ w', run ([.push 2] ++ List.replicate 1 .pop) ({} : World Nat) = .ok w' ∧
    w'.items = [] ∧ ∃ out, w'.pops.map (·.2) = [] ++ out ∧ out.Pairwise (· ≥ ·) ∧ (out ++ []).Perm [2] :=
  drain_sorts [.push 2] ⟨[2], [2], []⟩ (by rw [run, List.foldlM_cons, step, push, siftUp]; rfl)

end
end Datara.Stdlib.PriorityQueue
