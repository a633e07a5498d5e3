import Mathlib.Data.List.Basic

/-!
# A block of words

Loads and stores in a block of memory are partial: one outside the block has no result. A copy or a fill
inside the block does what it is meant to (`copyWords_spec`, `fillWords_spec`); the source of a copy is as it
was when the copy began, which is what a move between overlapping parts does.
-/

namespace Datara.Library

universe u

variable {α : Type u} {w : List α} {v : α} {i : Int}

def loadWord (w : List α) (i : Int) : Option α := if 0 ≤ i then w[i.toNat]? else none

def storeWord (w : List α) (i : Int) (v : α) : Option (List α) :=
  if 0 ≤ i ∧ i < w.length then some (w.set i.toNat v) else none

/-- `dst[d + k] = src[s + k]`, for each `k` below a bound in turn. -/
def copyWords (src : List α) (s d : Int) : Nat → List α → Option (List α)
  | 0, dst => some dst
  | n + 1, dst => do
    let dst ← copyWords src s d n dst
    let v ← loadWord src (s + n)
    storeWord dst (d + n) v

/-- `w[d + k] = v`, for each `k` below a bound in turn. -/
def fillWords (v : α) (d : Int) : Nat → List α → Option (List α)
  | 0, w => some w
  | n + 1, w => do
    let w ← fillWords v d n w
    storeWord w (d + n) v

/-- A part of the block replaced at once. -/
def patchWords (w : List α) (d : Nat) (v : List α) : Option (List α) :=
  if d + v.length ≤ w.length then some (w.take d ++ v ++ w.drop (d + v.length)) else none

theorem exists_part {n : Nat} (h : n ≤ w.length) : ∃ a b, w = a ++ b ∧ a.length = n :=
  ⟨w.take n, w.drop n, (List.take_append_drop n w).symm, List.length_take_of_le h⟩

theorem exists_word (h : 0 < w.length) : ∃ x b, w = x :: b := by
  cases w with
  | nil => cases h
  | cons x b => exact ⟨x, b, rfl⟩

theorem loadWord_nat (n : Nat) : loadWord w n = w[n]? := by
  rw [loadWord, if_pos (Int.natCast_nonneg n), Int.toNat_natCast]

theorem storeWord_nat {n : Nat} (h : n < w.length) : storeWord w n v = some (w.set n v) := by
  rw [storeWord, if_pos ⟨Int.natCast_nonneg n, by omega⟩, Int.toNat_natCast]

theorem storeWord_append {a b : List α} {x : α} (hi : i = a.length) :
    storeWord (a ++ x :: b) i v = some (a ++ v :: b) := by
  subst hi
  rw [storeWord_nat (by rw [List.length_append, List.length_cons]; omega),
    List.set_append_right _ _ (Nat.le_refl _), Nat.sub_self, List.set_cons_zero]

theorem storeWord_zero {x : α} : storeWord (x :: w) 0 v = some (v :: w) :=
  storeWord_append (a := []) rfl

/-- **A fill replaces a part of the block.** -/
theorem fillWords_spec {a b c : List α} {d : Int} {n : Nat} (hd : d = a.length) (hn : b.length = n) :
    fillWords v d n (a ++ b ++ c) = some (a ++ List.replicate n v ++ c) := by
  induction n generalizing b c with
  | zero =>
    obtain rfl := List.eq_nil_of_length_eq_zero hn
    rfl
  | succ n ih =>
    obtain ⟨b, x, rfl⟩ : ∃ b' x, b = b' ++ [x] := by
      obtain rfl | h := List.eq_nil_or_concat' b
      · cases hn
      · exact h
    have hlen : b.length = n := by
      rw [List.length_append, List.length_singleton] at hn
      omega
    have hb := ih (c := x :: c) hlen
    rw [fillWords]
    have hassoc : a ++ (b ++ [x]) ++ c = a ++ b ++ x :: c := by simp
    rw [hassoc, hb]
    show storeWord _ _ _ = _
    rw [storeWord_append (by rw [List.length_append, List.length_replicate, hd]; omega)]
    rw [List.replicate_succ']
    simp

/-- **A copy replaces a part of the block** by a part of the source. -/
theorem copyWords_spec {w a b c : List α} {s d : Int} {n k : Nat} (hs : s = k) (hk : k + n ≤ w.length)
    (hd : d = a.length) (hn : b.length = n) :
    copyWords w s d n (a ++ b ++ c) = some (a ++ (w.drop k).take n ++ c) := by
  subst hs
  induction n generalizing b c with
  | zero =>
    obtain rfl := List.eq_nil_of_length_eq_zero hn
    rfl
  | succ n ih =>
    obtain ⟨b, x, rfl⟩ : ∃ b' x, b = b' ++ [x] := by
      obtain rfl | h := List.eq_nil_or_concat' b
      · cases hn
      · exact h
    have hlen : b.length = n := by
      rw [List.length_append, List.length_singleton] at hn
      omega
    have hb := ih (c := x :: c) (by omega) hlen
    have hlt : k + n < w.length := by omega
    have hload : loadWord w ((k : Int) + n) = some w[k + n] := by
      have := loadWord_nat (w := w) (k + n)
      rw [Int.natCast_add] at this
      rw [this, List.getElem?_eq_getElem hlt]
    rw [copyWords]
    have hassoc : a ++ (b ++ [x]) ++ c = a ++ b ++ x :: c := by simp
    rw [hassoc, hb]
    rw [hload]
    show storeWord _ _ _ = _
    have htake : ((w.drop k).take n).length = n := by
      rw [List.length_take, List.length_drop]
      omega
    rw [storeWord_append (by rw [List.length_append, htake, hd]; omega)]
    have hnext : (w.drop k).take (n + 1) = (w.drop k).take n ++ [w[k + n]] := by
      rw [List.take_add_one, List.getElem?_drop, List.getElem?_eq_getElem hlt]
      rfl
    rw [hnext]
    simp

theorem patchWords_spec {a b c v : List α} {d : Nat} (hd : d = a.length) (hb : b.length = v.length) :
    patchWords (a ++ b ++ c) d v = some (a ++ v ++ c) := by
  have hlen : d + v.length = (a ++ b).length := by
    rw [List.length_append, hd, hb]
  rw [patchWords, if_pos (by rw [List.length_append, hlen]; exact Nat.le_add_right _ _), hlen, List.drop_left, hd,
    List.append_assoc a b c, List.take_left]

/-! ## Parts of a block -/

/-- The words from an index on, up to a number of them. -/
def part (w : List α) (d n : Nat) : List α := (w.drop d).take n

/-- Patches, one after the other. -/
def patchAll (w : List α) (ps : List (Nat × List α)) : Option (List α) :=
  ps.foldlM (fun w p => patchWords w p.1 p.2) w

section
variable {w' : List α} {d k n : Nat} {p : Nat × List α} {ps : List (Nat × List α)}

theorem getElem?_part : (part w d n)[k]? = if k < n then w[d + k]? else none := by
  rw [part, List.getElem?_take, List.getElem?_drop]

theorem part_append (m : Nat) : part w d (n + m) = part w d n ++ part w (d + n) m := by
  rw [part, List.take_add, List.drop_drop]
  rfl

theorem length_part (h : d + n ≤ w.length) : (part w d n).length = n := by
  rw [part, List.length_take, List.length_drop]
  omega

theorem part_eq_cons {x : α} {xs : List α} (h : part w d n = x :: xs) :
    w[d]? = some x ∧ part w (d + 1) (n - 1) = xs := by
  cases n with
  | zero => cases h
  | succ n =>
    rcases Nat.lt_or_ge d w.length with hlt | hge
    · rw [part, List.drop_eq_getElem_cons hlt, List.take_succ_cons] at h
      cases h
      exact ⟨List.getElem?_eq_getElem hlt, rfl⟩
    · rw [part, List.drop_eq_nil_of_le hge] at h
      cases h

theorem part_replicate {v : α} (h : d + n ≤ k) : part (List.replicate k v) d n = List.replicate n v := by
  rw [part, List.drop_replicate, List.take_replicate, Nat.min_eq_left (by omega)]

theorem exists_patchWords {v : List α} (h : d + v.length ≤ w.length) :
    ∃ w', patchWords w d v = some w' ∧ w'.length = w.length := by
  refine ⟨_, if_pos h, ?_⟩
  rw [List.length_append, List.length_append, List.length_take, List.length_drop]
  omega

theorem getElem?_patchWords {v : List α} (h : patchWords w d v = some w') :
    w'[k]? = if d ≤ k ∧ k < d + v.length then v[k - d]? else w[k]? := by
  obtain ⟨hfit, h⟩ := Option.ite_none_right_eq_some.mp h
  cases h
  have hd : (w.take d).length = d := List.length_take_of_le (by omega)
  by_cases hk : d ≤ k ∧ k < d + v.length
  · rw [if_pos hk, List.append_assoc, List.getElem?_append_right (by omega), hd,
      List.getElem?_append_left (by omega)]
  · rw [if_neg hk]
    by_cases hlt : k < d
    · rw [List.append_assoc, List.getElem?_append_left (by omega), List.getElem?_take, if_pos hlt]
    · have hlen : (w.take d ++ v).length = d + v.length := by rw [List.length_append, hd]
      rw [List.getElem?_append_right (by omega), hlen, List.getElem?_drop]
      congr 1
      omega

theorem part_patchWords {v : List α} (h : patchWords w d v = some w') : part w' d v.length = v := by
  apply List.ext_getElem?
  intro k
  rw [getElem?_part, getElem?_patchWords h]
  by_cases hk : k < v.length
  · rw [if_pos hk, if_pos (by omega), Nat.add_sub_cancel_left]
  · rw [if_neg hk, List.getElem?_eq_none (by omega)]

theorem part_patchWords_apart {v : List α} (h : patchWords w d v = some w')
    (hapart : k + n ≤ d ∨ d + v.length ≤ k) : part w' k n = part w k n := by
  apply List.ext_getElem?
  intro i
  rw [getElem?_part, getElem?_part]
  by_cases hi : i < n
  · rw [if_pos hi, if_pos hi, getElem?_patchWords h, if_neg (by omega)]
  · rw [if_neg hi, if_neg hi]

theorem exists_patchAll (h : ∀ p ∈ ps, p.1 + p.2.length ≤ w.length) :
    ∃ w', patchAll w ps = some w' ∧ w'.length = w.length := by
  induction ps generalizing w with
  | nil => exact ⟨w, rfl, rfl⟩
  | cons p ps ih =>
    obtain ⟨w₁, hw₁, hlen₁⟩ := exists_patchWords (h p List.mem_cons_self)
    obtain ⟨w₂, hw₂, hlen₂⟩ := ih fun q hq => hlen₁ ▸ h q (List.mem_cons_of_mem _ hq)
    refine ⟨w₂, ?_, hlen₂.trans hlen₁⟩
    rw [patchAll, List.foldlM_cons, hw₁]
    exact hw₂

theorem patchAll_cons (h : patchAll w (p :: ps) = some w') :
    ∃ w₁, patchWords w p.1 p.2 = some w₁ ∧ patchAll w₁ ps = some w' := by
  rw [patchAll, List.foldlM_cons] at h
  exact Option.bind_eq_some_iff.mp h

theorem part_patchAll_apart (h : patchAll w ps = some w')
    (hapart : ∀ p ∈ ps, k + n ≤ p.1 ∨ p.1 + p.2.length ≤ k) : part w' k n = part w k n := by
  induction ps generalizing w with
  | nil =>
    cases h
    rfl
  | cons p ps ih =>
    obtain ⟨w₁, hw₁, h⟩ := patchAll_cons h
    rw [ih h fun q hq => hapart q (List.mem_cons_of_mem _ hq),
      part_patchWords_apart hw₁ (hapart p List.mem_cons_self)]

theorem part_patchAll (h : patchAll w ps = some w')
    (hdisjoint : ps.Pairwise fun p q => p.1 + p.2.length ≤ q.1 ∨ q.1 + q.2.length ≤ p.1) (hp : p ∈ ps) :
    part w' p.1 p.2.length = p.2 := by
  induction ps generalizing w with
  | nil => cases hp
  | cons q ps ih =>
    obtain ⟨w₁, hw₁, hrest⟩ := patchAll_cons h
    obtain ⟨hq, hps⟩ := List.pairwise_cons.mp hdisjoint
    obtain rfl | hp := List.mem_cons.mp hp
    · rw [part_patchAll_apart hrest hq, part_patchWords hw₁]
    · exact ih hrest hps hp

end

end Datara.Library
