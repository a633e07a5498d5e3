import Datara.Runtime.RtList

/-!
# The growable list refines a sequence

Each operation, on a block that represents a sequence, gives a block that represents what the operation makes
of the sequence, with no load or store outside the block (`append_represents`, `insertAt_represents`, and so
on); a run of calls does what it would do on sequences (`lists_refine`).
-/

namespace Datara.Runtime

open Library
open List (append_nil cons_append drop_succ_cons length_append length_cons length_nil length_singleton nil_append)
open Option (bind_eq_bind bind_some)

namespace RtList

variable {malloc : Malloc} {b : ListBlock} {l : List Int} {v idx cap : Int}

/-! ## Sizes -/

theorem allocSize_eq (hcap : 0 ≤ cap) (hbytes : bytes cap < 2 ^ 64) : (allocSize cap : Int) = bytes cap := by
  unfold bytes at *
  unfold allocSize
  omega

/-- The block that `malloc` gives for a capacity. -/
theorem malloc_words (hm : Mallocs malloc) (hcap : 0 ≤ cap) (hbytes : bytes cap < 2 ^ 63) :
    ∃ words, malloc (allocSize cap) = some words ∧ (words.length : Int) = cap + 1 := by
  have hsize := allocSize_eq hcap (by omega)
  obtain ⟨words, hwords, hlen⟩ := (hm (allocSize cap)).1 (by omega)
  refine ⟨words, hwords, ?_⟩
  unfold bytes at hsize hbytes
  omega

namespace Represents

theorem count (h : Represents b l) : loadWord b.words 0 = some (l.length : Int) := by
  obtain ⟨rest, hw, -⟩ := h.words
  rw [hw]
  rfl

theorem length_le (h : Represents b l) : (l.length : Int) ≤ b.capacity := by
  obtain ⟨rest, -, hlen⟩ := h.words
  omega

end Represents

/-! ## Creation -/

theorem createCapacity_represents (hm : Mallocs malloc) (cap : Int) (hbytes : bytes cap < 2 ^ 63) :
    ∃ b, createCapacity malloc cap = some (some b) ∧ Represents b [] ∧ cap ≤ b.capacity := by
  obtain ⟨c, hc, h8, hle, hb⟩ : ∃ c, (if cap < 8 then 8 else cap) = c ∧ 8 ≤ c ∧ cap ≤ c ∧ bytes c < 2 ^ 63 := by
    unfold bytes at *
    split
    · exact ⟨8, rfl, by omega, by omega, by omega⟩
    · exact ⟨cap, rfl, by omega, by omega, hbytes⟩
  obtain ⟨words, hwords, hlen⟩ := malloc_words hm (by omega) hb
  obtain ⟨x, q, rfl⟩ := exists_word (w := words) (by omega)
  have hguard : ¬(sizeMax - 16) / 8 - 1 < c := by
    unfold sizeMax
    unfold bytes at hb
    omega
  unfold createCapacity
  rw [hc]
  simp only [hguard, if_false, hwords, storeWord_zero, bind_eq_bind, bind_some]
  refine ⟨_, rfl, ⟨rfl, ⟨q, rfl, ?_⟩, hb⟩, hle⟩
  rw [length_cons] at hlen
  show ((0 : Nat) + q.length : Int) = c
  omega

theorem createRepeat_represents {count : Int} (hm : Mallocs malloc) (elem : Int) (hbytes : bytes count < 2 ^ 63) :
    ∃ b, createRepeat malloc elem count = some (some b) ∧ Represents b (List.replicate count.toNat elem) := by
  have hcount : (if count < 0 then 0 else count) = (count.toNat : Int) := by
    split <;> omega
  have hfits : bytes (count.toNat : Int) < 2 ^ 63 := by
    unfold bytes at *
    omega
  obtain ⟨b, hb, hrep, hcap⟩ := createCapacity_represents hm _ hfits
  obtain ⟨rest, hw, hlen⟩ := hrep.words
  rw [length_nil] at hlen
  obtain ⟨p, q, rfl, hp⟩ := exists_part (w := rest) (n := count.toNat) (by omega)
  have hfill := fillWords_spec (v := elem) (a := [(count.toNat : Int)]) (b := p) (c := q) (d := 1) rfl hp
  simp only [cons_append, nil_append] at hfill
  unfold createRepeat
  simp only [hcount, hb, hw, nil_append, storeWord_zero, Int.toNat_natCast, hfill,
    bind_eq_bind, bind_some]
  refine ⟨_, rfl, hrep.magic, ⟨q, ?_, ?_⟩, hrep.bytes⟩
  · rw [List.length_replicate]
  · rw [length_append, hp] at hlen
    rw [List.length_replicate]
    show (count.toNat + q.length : Int) = b.capacity
    omega

/-! ## Growth -/

theorem push_represents {n : Int} {x : Int} {rest : List Int} (hmagic : b.magic = true)
    (hw : b.words = n :: (l ++ x :: rest)) (hlen : (l.length + (rest.length + 1) : Int) = b.capacity)
    (hbytes : bytes b.capacity < 2 ^ 63) :
    ∃ w, storeWord b.words 0 (l.length + 1) = some w ∧ ∃ w', storeWord w (l.length + 1) v = some w' ∧
      Represents { b with words := w' } (l ++ [v]) := by
  have hput := storeWord_append (a := ((l.length : Int) + 1) :: l) (x := x) (b := rest) (v := v)
    (i := (l.length : Int) + 1) (by rw [length_cons]; omega)
  refine ⟨((l.length : Int) + 1) :: (l ++ x :: rest), by rw [hw, storeWord_zero], _, hput,
    hmagic, ⟨rest, ?_, ?_⟩, hbytes⟩
  · rw [length_append, length_singleton, Int.natCast_add, List.append_assoc]
    rfl
  · rw [length_append, length_singleton]
    show _ = b.capacity
    omega

/-- **Growth keeps the elements**: a full block is copied to one that has room. -/
theorem grow_keeps (hm : Mallocs malloc) (h : Represents b l) (hfull : (l.length : Int) = b.capacity)
    (hbytes : bytes (b.capacity * 2) < 2 ^ 63) :
    ∃ b' x rest, grow malloc b l.length = some (some b') ∧ b'.magic = true ∧
      b'.words = (l.length : Int) :: (l ++ x :: rest) ∧
      (l.length + (rest.length + 1) : Int) = b'.capacity ∧ bytes b'.capacity < 2 ^ 63 := by
  obtain ⟨c, hc, hle, hb⟩ : ∃ c, (if b.capacity * 2 < 8 then 8 else b.capacity * 2) = c ∧
      b.capacity + 1 ≤ c ∧ bytes c < 2 ^ 63 := by
    unfold bytes at *
    split
    · exact ⟨8, rfl, by omega, by omega⟩
    · exact ⟨b.capacity * 2, rfl, by omega, hbytes⟩
  have hw : b.words = (l.length : Int) :: l := by
    obtain ⟨rest, hw, hlen⟩ := h.words
    obtain rfl := List.eq_nil_of_length_eq_zero (l := rest) (by omega)
    rwa [append_nil] at hw
  obtain ⟨words, hwords, hlen⟩ := malloc_words hm (by omega) hb
  obtain ⟨p, q, rfl, hp⟩ := exists_part (w := words) (n := b.words.length) (by rw [hw, length_cons]; omega)
  rw [length_append, hp, hw, length_cons] at hlen
  obtain ⟨x, rest, rfl⟩ := exists_word (w := q) (by omega)
  rw [length_cons] at hlen
  have hcopy := copyWords_spec (w := b.words) (a := []) (b := p) (c := x :: rest) (s := 0) (d := 0) (k := 0)
    (n := b.words.length) rfl (Nat.le_of_eq (Nat.zero_add _)) rfl hp
  rw [nil_append, nil_append, List.drop_zero, List.take_length] at hcopy
  have hkept : (if (b.flags.stack || b.flags.pool) = true then ((l.length : Int) + 1).toNat else b.words.length) =
      b.words.length := by
    rw [hw, length_cons]
    split <;> omega
  unfold grow
  simp only [hc, hwords, hkept, hcopy, bind_eq_bind, bind_some]
  refine ⟨_, x, rest, rfl, h.magic, ?_, ?_, hb⟩
  · rw [hw]
    rfl
  · show _ = c
    omega

theorem append_represents (hm : Mallocs malloc) (h : Represents b l)
    (hbytes : (l.length : Int) = b.capacity → bytes (b.capacity * 2) < 2 ^ 63) :
    ∃ b', append malloc (some b) v = some (some b') ∧ Represents b' (l ++ [v]) := by
  have hle := h.length_le
  have hnonneg : ¬(l.length : Int) < 0 := by omega
  unfold append
  simp only [h.count, hnonneg, h.magic, hle, and_self, if_false, if_true, bind_eq_bind,
    bind_some]
  by_cases hfull : (l.length : Int) = b.capacity
  · have hgrow : b.capacity < (l.length : Int) + 1 := by omega
    have hguard : ¬(sizeMax - 16) / 16 - 1 < b.capacity := by
      have := h.bytes
      unfold sizeMax
      unfold bytes at this
      omega
    obtain ⟨b', x, rest, hb', hmagic, hw, hlen, hb⟩ := grow_keeps hm h hfull (hbytes hfull)
    obtain ⟨w, hw₁, w', hw₂, hrep⟩ := push_represents (v := v) hmagic hw hlen hb
    simp only [hgrow, hguard, if_true, if_false, hb', hw₁, hw₂, bind_some]
    exact ⟨_, rfl, hrep⟩
  · have hroom : ¬b.capacity < (l.length : Int) + 1 := by omega
    obtain ⟨rest, hw, hlen⟩ := h.words
    obtain ⟨x, rest, rfl⟩ := exists_word (w := rest) (by omega)
    rw [length_cons] at hlen
    obtain ⟨w, hw₁, w', hw₂, hrep⟩ := push_represents (v := v) h.magic hw hlen h.bytes
    rw [h.magic] at hrep
    simp only [hroom, if_false, hw₁, hw₂, bind_some]
    exact ⟨_, rfl, hrep⟩

theorem append_none (hm : Mallocs malloc) : ∃ b', append malloc none v = some (some b') ∧ Represents b' [v] := by
  obtain ⟨b, hb, hrep, hcap⟩ := createCapacity_represents hm 8 (by decide)
  obtain ⟨rest, hw, hlen⟩ := hrep.words
  rw [length_nil] at hlen
  obtain ⟨x, rest, rfl⟩ := exists_word (w := rest) (by omega)
  rw [length_cons] at hlen
  obtain ⟨w, hw₁, w', hw₂, hrep'⟩ := push_represents (l := []) (v := v) hrep.magic hw
    (by rw [length_nil]; omega) hrep.bytes
  simp only [length_nil, Int.natCast_zero, Int.zero_add] at hw₁ hw₂
  unfold append
  simp only [hb, hw₁, hw₂, bind_eq_bind, bind_some]
  exact ⟨_, rfl, hrep'⟩

/-! ## Insertion and removal -/

theorem exists_around (hlow : 0 ≤ idx) (hhigh : idx ≤ l.length) :
    ∃ a c, l = a ++ c ∧ (a.length : Int) = idx ∧ l.take idx.toNat = a ∧ l.drop idx.toNat = c := by
  refine ⟨l.take idx.toNat, l.drop idx.toNat, (List.take_append_drop _ l).symm, ?_, rfl, rfl⟩
  rw [List.length_take]
  omega

section
variable {a c : List Int}

/-- An insertion into a block that has room moves the elements after it. -/
theorem insertAt_room (h : Represents b (a ++ c)) (hroom : ((a ++ c).length : Int) < b.capacity) :
    ∃ b', insertAt malloc (some b) a.length v = some (some b') ∧ Represents b' (a ++ v :: c) := by
  obtain ⟨rest, hw, hlen⟩ := h.words
  obtain ⟨r, rest, rfl⟩ := exists_word (w := rest) (by omega)
  have hcount := h.count
  rw [length_append, Int.natCast_add] at hw hlen hroom hcount
  rw [length_cons] at hlen
  -- the elements to move, and the free word after them, are one word longer than what is moved
  obtain ⟨y, p, hy⟩ := exists_word (w := c ++ [r]) (by rw [length_append, length_singleton]; omega)
  have hp : p.length = c.length := by
    have := congrArg List.length hy
    rw [length_append, length_singleton, length_cons] at this
    omega
  have hwords : b.words = (((a.length : Int) + c.length) :: (a ++ [y])) ++ p ++ rest := by
    have hsplit : a ++ c ++ r :: rest = a ++ (c ++ [r]) ++ rest := by simp
    rw [hw, hsplit, hy]
    simp
  have hsrc : (b.words.drop (a.length + 1)).take c.length = c := by
    have hassoc : a ++ c ++ r :: rest = a ++ (c ++ r :: rest) := List.append_assoc ..
    rw [hw, drop_succ_cons, hassoc, List.drop_left, List.take_left]
  have hmove : ∀ f : List Int → Option ListHandle, (if (a.length : Int) < a.length + c.length then
      (copyWords b.words (a.length + 1) (a.length + 2)
        ((a.length : Int) + c.length - a.length).toNat b.words).bind f
      else f b.words) = f ((((a.length : Int) + c.length) :: (a ++ [y])) ++ c ++ rest) := by
    intro f
    have hcopy := copyWords_spec (w := b.words) (s := (a.length : Int) + 1) (d := (a.length : Int) + 2)
      (k := a.length + 1) (c := rest) (by omega) (by rw [hw]; simp; omega)
      (a := ((a.length : Int) + c.length) :: (a ++ [y])) (b := p)
      (by rw [length_cons, length_append, length_singleton]; omega) hp
    rw [← hwords, hsrc] at hcopy
    split
    · have hn : ((a.length : Int) + c.length - a.length).toNat = c.length := by omega
      rw [hn, hcopy]
      rfl
    · obtain rfl := List.eq_nil_of_length_eq_zero (l := c) (by omega)
      exact congrArg f (Option.some.inj hcopy)
  have hput := storeWord_append (a := ((a.length : Int) + c.length) :: a) (x := y) (b := c ++ rest) (v := v)
    (i := (a.length : Int) + 1) (by rw [length_cons]; omega)
  have hform : (((a.length : Int) + c.length) :: (a ++ [y])) ++ c ++ rest =
      (((a.length : Int) + c.length) :: a) ++ y :: (c ++ rest) := by simp
  have hrange : ¬((a.length : Int) < 0 ∨ (a.length : Int) + c.length < a.length) := by omega
  unfold insertAt
  simp only [hcount, hrange, hroom, if_false, if_true, bind_eq_bind, bind_some]
  rw [hmove, hform]
  simp only [bind_some, hput]
  rw [cons_append, storeWord_zero]
  refine ⟨_, rfl, h.magic, ⟨rest, ?_, ?_⟩, h.bytes⟩
  · rw [length_append, length_cons]
    simp
    omega
  · rw [length_append, length_cons]
    show _ = b.capacity
    omega

/-- An insertion into a full block copies the elements around it to one that has room. -/
theorem insertAt_full (hm : Mallocs malloc) (h : Represents b (a ++ c))
    (hfull : ((a ++ c).length : Int) = b.capacity) (hbytes : bytes ((b.capacity + 1) * 2) < 2 ^ 63) :
    ∃ b', insertAt malloc (some b) a.length v = some (some b') ∧ Represents b' (a ++ v :: c) := by
  obtain ⟨rest, hw, hlen⟩ := h.words
  obtain rfl := List.eq_nil_of_length_eq_zero (l := rest) (by omega)
  have hcount := h.count
  rw [length_append, Int.natCast_add] at hw hfull hcount
  rw [← hfull] at hbytes
  obtain ⟨d, hd, hle, hb⟩ : ∃ d, (if ((a.length : Int) + c.length + 1) * 2 < 8 then 8
      else ((a.length : Int) + c.length + 1) * 2) = d ∧
      (a.length : Int) + c.length + 1 ≤ d ∧ bytes d < 2 ^ 63 := by
    unfold bytes at *
    split
    · exact ⟨8, rfl, by omega, by omega⟩
    · exact ⟨_, rfl, by omega, hbytes⟩
  -- the words of the new block, by what is stored to them
  obtain ⟨words, hwords, hlen'⟩ := malloc_words hm (by omega) hb
  obtain ⟨x, words, rfl⟩ := exists_word (w := words) (by omega)
  rw [length_cons] at hlen'
  obtain ⟨p, q, rfl, hp⟩ := exists_part (w := words) (n := a.length) (by omega)
  rw [length_append] at hlen'
  obtain ⟨y, q, rfl⟩ := exists_word (w := q) (by omega)
  rw [length_cons] at hlen'
  obtain ⟨q, r, rfl, hq⟩ := exists_part (w := q) (n := c.length) (by omega)
  rw [length_append] at hlen'
  have hfirst := copyWords_spec (w := b.words) (s := 1) (d := 1) (k := 1) (n := a.length)
    (a := [(a.length : Int) + c.length + 1]) (b := p) (c := y :: (q ++ r)) rfl
    (by rw [hw]; simp; omega) rfl hp
  have hlast := copyWords_spec (w := b.words) (s := (a.length : Int) + 1) (d := (a.length : Int) + 2)
    (k := a.length + 1) (n := c.length) (a := ((a.length : Int) + c.length + 1) :: (a ++ [v])) (b := q)
    (c := r) (by omega) (by rw [hw]; simp; omega)
    (by rw [length_cons, length_append, length_singleton]; omega) hq
  have hsrc₁ : (b.words.drop 1).take a.length = a := by
    rw [hw, drop_succ_cons, List.drop_zero, append_nil, List.take_left]
  have hsrc₂ : (b.words.drop (a.length + 1)).take c.length = c := by
    rw [hw, drop_succ_cons, append_nil, List.drop_left, List.take_length]
  rw [hsrc₁] at hfirst
  rw [hsrc₂] at hlast
  have hput := storeWord_append (a := ((a.length : Int) + c.length + 1) :: a) (x := y) (b := q ++ r) (v := v)
    (i := (a.length : Int) + 1) (by rw [length_cons]; omega)
  have hn : ((a.length : Int) + c.length - a.length).toNat = c.length := by omega
  have hrange : ¬((a.length : Int) < 0 ∨ (a.length : Int) + c.length < a.length) := by omega
  have hroom : ¬(a.length : Int) + c.length < b.capacity := by omega
  simp only [cons_append, nil_append, List.append_assoc] at hfirst hlast hput
  unfold insertAt
  simp only [hcount, hrange, hroom, if_false, hd, hwords, storeWord_zero, Int.toNat_natCast, hn, hfirst, hput,
    hlast, bind_eq_bind, bind_some]
  refine ⟨_, rfl, rfl, ⟨r, ?_, ?_⟩, hb⟩
  · rw [length_append, length_cons]
    simp
    omega
  · rw [length_append, length_cons]
    show _ = d
    omega

end

theorem insertAt_represents (hm : Mallocs malloc) (h : Represents b l) (idx v : Int)
    (hbytes : (l.length : Int) = b.capacity → 0 ≤ idx → idx ≤ b.capacity →
      bytes ((b.capacity + 1) * 2) < 2 ^ 63) :
    ∃ b', insertAt malloc (some b) idx v = some (some b') ∧ Represents b'
      (if 0 ≤ idx ∧ idx ≤ l.length then l.take idx.toNat ++ v :: l.drop idx.toNat else l) := by
  have hle := h.length_le
  by_cases hin : 0 ≤ idx ∧ idx ≤ l.length
  · rw [if_pos hin]
    obtain ⟨a, c, rfl, rfl, htake, hdrop⟩ := exists_around hin.1 hin.2
    rw [htake, hdrop]
    by_cases hroom : ((a ++ c).length : Int) < b.capacity
    · exact insertAt_room h hroom
    · have hfull : ((a ++ c).length : Int) = b.capacity := by omega
      exact insertAt_full hm h hfull (hbytes hfull hin.1 (by omega))
  · unfold insertAt
    simp only [h.count, bind_eq_bind, bind_some]
    rw [if_neg hin, if_pos (by omega)]
    exact ⟨b, rfl, h⟩

theorem removeAt_represents (h : Represents b l) (idx : Int) :
    ∃ b', removeAt (some b) idx = some (if At idx l then 1 else 0, some b') ∧ Represents b'
      (if At idx l then l.eraseIdx idx.toNat else l) := by
  unfold removeAt
  simp only [h.count, bind_eq_bind, bind_some]
  by_cases hin : At idx l
  case neg =>
    rw [if_neg hin, if_neg hin, if_pos (by unfold At at hin; omega)]
    exact ⟨b, rfl, h⟩
  have hrange : ¬(idx < 0 ∨ (l.length : Int) ≤ idx) := by
    unfold At at hin
    omega
  rw [if_pos hin, if_pos hin, if_neg hrange]
  obtain ⟨a, c, rfl, ha, -, -⟩ := exists_around hin.1 (Int.le_of_lt hin.2)
  obtain ⟨x, c, rfl⟩ := exists_word (w := c) (by
    have := hin.2
    rw [length_append] at this
    omega)
  have herase : (a ++ x :: c).eraseIdx idx.toNat = a ++ c := by
    have hn : idx.toNat = a.length := by omega
    rw [hn, List.eraseIdx_append_of_length_le (Nat.le_refl _), Nat.sub_self, List.eraseIdx_cons_zero]
  rw [herase]
  obtain ⟨rest, hw, hlen⟩ := h.words
  rw [length_append, length_cons] at hw hlen
  rw [length_append, length_cons]
  -- what is moved lies one word before the last element
  obtain ⟨p, y, hy⟩ : ∃ p y, x :: c = p ++ [y] := by
    obtain h | h := List.eq_nil_or_concat' (x :: c)
    · cases h
    · exact h
  have hp : p.length = c.length := by
    have := congrArg List.length hy
    rw [length_append, length_singleton, length_cons] at this
    omega
  have hwords : b.words = ((((a.length + (c.length + 1) : Nat)) : Int) :: a) ++ p ++ y :: rest := by
    rw [hw, hy]
    simp
  have hsrc : (b.words.drop (a.length + 2)).take c.length = c := by
    have hassoc : a ++ x :: c ++ rest = (a ++ [x]) ++ (c ++ rest) := by simp
    have hn : a.length + 1 = (a ++ [x]).length := by rw [length_append, length_singleton]
    rw [hw, drop_succ_cons, hassoc, hn, List.drop_left, List.take_left]
  have hcopy := copyWords_spec (w := b.words) (s := idx + 2) (d := idx + 1) (k := a.length + 2) (n := c.length)
    (a := (((a.length + (c.length + 1) : Nat)) : Int) :: a) (b := p) (c := y :: rest) (by omega)
    (by rw [hw]; simp; omega) (by rw [length_cons]; omega) hp
  rw [← hwords, hsrc] at hcopy
  have hmove : ∀ f : List Int → Option (Int × ListHandle), (if idx + 1 < ((a.length + (c.length + 1) : Nat) : Int) then
      (copyWords b.words (idx + 2) (idx + 1)
        (((a.length + (c.length + 1) : Nat) : Int) - idx - 1).toNat b.words).bind f
      else f b.words) = f (((((a.length + (c.length + 1) : Nat)) : Int) :: a) ++ c ++ y :: rest) := by
    intro f
    split
    · have hn : (((a.length + (c.length + 1) : Nat) : Int) - idx - 1).toNat = c.length := by omega
      rw [hn, hcopy]
      rfl
    · obtain rfl := List.eq_nil_of_length_eq_zero (l := c) (by omega)
      exact congrArg f (Option.some.inj hcopy)
  rw [hmove]
  simp only [bind_some, cons_append, storeWord_zero]
  refine ⟨_, rfl, h.magic, ⟨y :: rest, ?_, ?_⟩, h.bytes⟩
  · rw [length_append]
    simp
    omega
  · rw [length_append, length_cons]
    show _ = b.capacity
    omega

/-! ## Parts and elements -/

theorem slice_represents (hm : Mallocs malloc) (h : Represents b l) (start stop : Int) :
    ∃ b', slice malloc (some b) start stop = some (some b') ∧
      Represents b' ((l.take stop.toNat).drop start.toNat) := by
  obtain ⟨i, hi, hi'⟩ : ∃ i : Nat, (if start < 0 then 0 else start) = (i : Int) ∧ start.toNat = i :=
    ⟨start.toNat, by split <;> omega, rfl⟩
  obtain ⟨j, hj, hle, htake⟩ : ∃ j : Int, (if (l.length : Int) < stop then (l.length : Int) else stop) = j ∧
      j ≤ l.length ∧ l.take stop.toNat = l.take j.toNat := by
    split
    · refine ⟨l.length, rfl, Int.le_refl _, ?_⟩
      rw [Int.toNat_natCast, List.take_length, List.take_of_length_le (by omega)]
    · exact ⟨stop, rfl, by omega, rfl⟩
  rw [htake, hi', List.drop_take]
  unfold slice
  have hnonneg : ¬(l.length : Int) < 0 := by omega
  simp only [h.count, hnonneg, hi, hj, if_false, bind_eq_bind, bind_some]
  have hcap := h.length_le
  have hbytes := h.bytes
  by_cases hempty : j ≤ i
  · rw [if_pos hempty]
    have hn : j.toNat - i = 0 := by omega
    rw [hn, List.take_zero]
    obtain ⟨b', hb', hrep, -⟩ := createCapacity_represents hm 0 (by decide)
    exact ⟨b', hb', hrep⟩
  · obtain ⟨n, hn⟩ : ∃ n : Nat, j - i = n := ⟨(j - i).toNat, by omega⟩
    have hfits : bytes (n : Int) < 2 ^ 63 := by
      unfold bytes at *
      omega
    have hguard : ¬(sizeMax - 16) / 8 - 1 < (n : Int) := by
      unfold bytes at hfits
      unfold sizeMax
      omega
    obtain ⟨words, hwords, hlen⟩ := malloc_words hm (Int.natCast_nonneg n) hfits
    obtain ⟨x, p, rfl⟩ := exists_word (w := words) (by omega)
    rw [length_cons] at hlen
    obtain ⟨rest, hw, hlen'⟩ := h.words
    have hcopy := copyWords_spec (w := b.words) (s := (i : Int) + 1) (d := 1) (k := i + 1) (n := n)
      (a := [(n : Int)]) (b := p) (c := []) rfl (by rw [hw]; simp; omega) rfl (by omega)
    have hsrc : (b.words.drop (i + 1)).take n = (l.drop i).take n := by
      rw [hw, drop_succ_cons, List.drop_append_of_le_length (by omega),
        List.take_append_of_le_length (by rw [List.length_drop]; omega)]
    have hpart : ((l.drop i).take n).length = n := by
      rw [List.length_take, List.length_drop]
      omega
    simp only [append_nil, hsrc, cons_append, nil_append] at hcopy
    have hn' : j.toNat - i = n := by omega
    simp only [hempty, hn, hguard, if_false, hwords, storeWord_zero, Int.toNat_natCast, hcopy, hn',
      bind_some]
    refine ⟨_, rfl, rfl, ⟨[], ?_, ?_⟩, hfits⟩
    · rw [hpart, append_nil]
    · rw [hpart]
      show ((n : Int) + (0 : Nat)) = n
      omega

theorem Represents.load (h : Represents b l) (hin : At idx l) :
    loadWord b.words (idx + 1) = some (l[idx.toNat]?.getD 0) := by
  obtain ⟨rest, hw, -⟩ := h.words
  have hlt : idx.toNat < l.length := by
    unfold At at hin
    omega
  have hcast : idx + 1 = ((idx.toNat + 1 : Nat) : Int) := by
    have := hin.1
    omega
  rw [hcast, loadWord_nat, hw, List.getElem?_cons_succ, List.getElem?_append_left hlt,
    List.getElem?_eq_getElem hlt]
  rfl

theorem get_represents (h : Represents b l) :
    get (some b) idx = some (if At idx l then l[idx.toNat]?.getD 0 else 0) := by
  unfold get
  simp only [h.count, bind_eq_bind, bind_some]
  by_cases hin : At idx l
  · rw [if_pos hin, if_neg (by unfold At at hin; omega), h.load hin]
  · rw [if_neg hin, if_pos (by unfold At at hin; omega)]

theorem set_represents (h : Represents b l) (idx v : Int) :
    ∃ b', set (some b) idx v = some (some b') ∧
      Represents b' (if At idx l then l.set idx.toNat v else l) := by
  unfold set
  simp only [h.count, bind_eq_bind, bind_some]
  by_cases hin : At idx l
  case neg =>
    rw [if_neg hin, if_pos (by unfold At at hin; omega)]
    exact ⟨b, rfl, h⟩
  obtain ⟨rest, hw, hlen⟩ := h.words
  have hlt : idx.toNat < l.length := by
    unfold At at hin
    omega
  have hcast : idx + 1 = ((idx.toNat + 1 : Nat) : Int) := by
    have := hin.1
    omega
  rw [if_pos hin, if_neg (by unfold At at hin; omega), hcast,
    storeWord_nat (by rw [hw, length_cons, length_append]; omega), hw, List.set_cons_succ,
    List.set_append_left _ _ hlt]
  refine ⟨_, rfl, h.magic, ⟨rest, ?_, ?_⟩, h.bytes⟩
  · rw [List.length_set]
  · rw [List.length_set]
    exact hlen

/-! ## Programs -/

variable {s s' : Program ListBlock} {a : Program (List Int)} {op : Op} {ops : List Op} {x : Nat}

/-- A list of a program and its sequence. -/
def Lists (h : ListHandle) (l : Option (List Int)) : Prop :=
  h = none ∧ l = none ∨ ∃ b l', h = some b ∧ l = some l' ∧ Represents b l'

theorem Refines.lists (h : Refines s a) (x : Nat) : Lists (s.lists x) (a.lists x) := by
  have hx := h.2 x
  cases hs : s.lists x with
  | none =>
    cases ha : a.lists x with
    | none => exact .inl ⟨rfl, rfl⟩
    | some l =>
      rw [hs, ha] at hx
      exact hx.elim
  | some b =>
    cases ha : a.lists x with
    | none =>
      rw [hs, ha] at hx
      exact hx.elim
    | some l =>
      rw [hs, ha] at hx
      exact .inr ⟨b, l, rfl, rfl, hx⟩

theorem Refines.put {h : ListHandle} {l : Option (List Int)} (href : Refines s a) (hl : Lists h l) :
    Refines (s.put x h) (a.put x l) := by
  refine ⟨href.1, fun y => ?_⟩
  unfold Program.put
  by_cases hy : y = x
  · simp only [hy, if_true]
    obtain ⟨rfl, rfl⟩ | ⟨b, l', rfl, rfl, hrep⟩ := hl
    · trivial
    · exact hrep
  · simp only [hy, if_false]
    exact href.2 y

theorem Refines.return (href : Refines s a) (v : Int) : Refines (s.return v) (a.return v) :=
  ⟨congrArg (· ++ [v]) href.1, href.2⟩

/-- **One call** does on the blocks what it is on sequences. -/
theorem step_refines (hm : Mallocs malloc) (h : Refines s a) (hfits : Fits op s) :
    ∃ s', step malloc op s = some s' ∧ Refines s' (specStep op a) := by
  cases op with
  | create x cap =>
    obtain ⟨b, hb, hrep, -⟩ := createCapacity_represents hm _ hfits
    simp only [step, hb, bind_eq_bind, bind_some]
    exact ⟨_, rfl, h.put (.inr ⟨b, [], rfl, rfl, hrep⟩)⟩
  | createRepeat x elem count =>
    obtain ⟨b, hb, hrep⟩ := createRepeat_represents hm elem hfits
    simp only [step, hb, bind_eq_bind, bind_some]
    exact ⟨_, rfl, h.put (.inr ⟨b, _, rfl, rfl, hrep⟩)⟩
  | append x v =>
    obtain ⟨hs, ha⟩ | ⟨b, l, hs, ha, hrep⟩ := h.lists x
    · obtain ⟨b', hb', hrep'⟩ := append_none (v := v) hm
      simp only [step, specStep, hs, ha, hb', bind_eq_bind, bind_some]
      exact ⟨_, rfl, h.put (.inr ⟨b', _, rfl, rfl, hrep'⟩)⟩
    · obtain ⟨b', hb', hrep'⟩ := append_represents (v := v) hm hrep
        (fun hfull => hfits b hs (hfull ▸ hrep.count))
      simp only [step, specStep, hs, ha, hb', bind_eq_bind, bind_some]
      exact ⟨_, rfl, h.put (.inr ⟨b', _, rfl, rfl, hrep'⟩)⟩
  | insertAt x idx v =>
    obtain ⟨hs, ha⟩ | ⟨b, l, hs, ha, hrep⟩ := h.lists x
    · simp only [step, specStep, hs, ha, insertAt, bind_eq_bind, bind_some]
      exact ⟨_, rfl, h.put (.inl ⟨rfl, rfl⟩)⟩
    · obtain ⟨b', hb', hrep'⟩ := insertAt_represents hm hrep idx v
        (fun hfull => hfits b hs (hfull ▸ hrep.count))
      simp only [step, specStep, hs, ha, hb', bind_eq_bind, bind_some]
      exact ⟨_, rfl, h.put (.inr ⟨b', _, rfl, rfl, hrep'⟩)⟩
  | removeAt x idx =>
    obtain ⟨hs, ha⟩ | ⟨b, l, hs, ha, hrep⟩ := h.lists x
    · simp only [step, specStep, hs, ha, removeAt, bind_eq_bind, bind_some]
      exact ⟨_, rfl, (h.put (.inl ⟨rfl, rfl⟩)).return 0⟩
    · obtain ⟨b', hb', hrep'⟩ := removeAt_represents hrep idx
      simp only [step, specStep, hs, ha, hb', bind_eq_bind, bind_some, Option.any_some,
        decide_eq_true_eq]
      exact ⟨_, rfl, (h.put (.inr ⟨b', _, rfl, rfl, hrep'⟩)).return _⟩
  | slice x y start stop =>
    obtain ⟨hs, ha⟩ | ⟨b, l, hs, ha, hrep⟩ := h.lists y
    · simp only [step, specStep, hs, ha, slice, bind_eq_bind, bind_some]
      exact ⟨_, rfl, h.put (.inl ⟨rfl, rfl⟩)⟩
    · obtain ⟨b', hb', hrep'⟩ := slice_represents hm hrep start stop
      simp only [step, specStep, hs, ha, hb', bind_eq_bind, bind_some]
      exact ⟨_, rfl, h.put (.inr ⟨b', _, rfl, rfl, hrep'⟩)⟩
  | get x idx =>
    obtain ⟨hs, ha⟩ | ⟨b, l, hs, ha, hrep⟩ := h.lists x
    · simp only [step, specStep, hs, ha, get, bind_eq_bind, bind_some]
      exact ⟨_, rfl, h.return 0⟩
    · simp only [step, specStep, hs, ha, get_represents hrep, bind_eq_bind, bind_some]
      exact ⟨_, rfl, h.return _⟩
  | set x idx v =>
    obtain ⟨hs, ha⟩ | ⟨b, l, hs, ha, hrep⟩ := h.lists x
    · simp only [step, specStep, hs, ha, set, bind_eq_bind, bind_some]
      exact ⟨_, rfl, h.put (.inl ⟨rfl, rfl⟩)⟩
    · obtain ⟨b', hb', hrep'⟩ := set_represents hrep idx v
      simp only [step, specStep, hs, ha, hb', bind_eq_bind, bind_some]
      exact ⟨_, rfl, h.put (.inr ⟨b', _, rfl, rfl, hrep'⟩)⟩

/-- **A run of calls** from programs that agree. -/
theorem run_refines (hm : Mallocs malloc) (h : Refines s a) (hfits : Meets (step malloc) Fits ops s) :
    ∃ s', runEvents (step malloc) ops s = some s' ∧
      Refines s' (ops.foldl (fun a op => specStep op a) a) := by
  induction ops generalizing s a with
  | nil => exact ⟨s, rfl, h⟩
  | cons op ops ih =>
    obtain ⟨s', hs', href⟩ := step_refines hm h hfits.1
    obtain ⟨t, ht, hrun⟩ := ih href (hfits.2 s' hs')
    exact ⟨t, runEvents_cons hs' ht, hrun⟩

/-- The sizes that the operations on a block compute, none of which wraps. -/
def Sized (b : ListBlock) : Prop :=
  (∃ count, loadWord b.words 0 = some count ∧ 0 ≤ count ∧ count ≤ b.capacity) ∧
    ∀ cap, 0 ≤ cap → (cap ≤ 8 ∨ cap ≤ (b.capacity + 1) * 2) →
      cap < 2 ^ 63 ∧ (allocSize cap : Int) = bytes cap

theorem Represents.sized (h : Represents b l) : Sized b := by
  refine ⟨⟨l.length, h.count, Int.natCast_nonneg _, h.length_le⟩, fun cap hcap hle => ?_⟩
  have hbytes := h.bytes
  refine ⟨?_, allocSize_eq hcap ?_⟩
  · unfold RtList.bytes at hbytes
    omega
  · unfold RtList.bytes at *
    omega

/-- **The growable lists refine sequences.** Whatever the calls and their indices, where each call fits in
memory no load or store is outside a block, every call returns what it returns on sequences and leaves every
block representing its sequence, with a count from zero to the capacity; no size that an operation on a block
computes wraps. -/
theorem lists_refine (hm : Mallocs malloc) (hfits : Meets (step malloc) Fits ops {}) :
    ∃ s', runEvents (step malloc) ops {} = some s' ∧
      Refines s' (ops.foldl (fun a op => specStep op a) {}) ∧
      ∀ x b, s'.lists x = some b → Sized b := by
  obtain ⟨s', hs', href⟩ := run_refines (a := {}) hm ⟨rfl, fun _ => trivial⟩ hfits
  refine ⟨s', hs', href, fun x b hb => ?_⟩
  obtain ⟨hnone, -⟩ | ⟨b', l, hb', -, hrep⟩ := href.lists x
  · rw [hnone] at hb
    cases hb
  · rw [hb'] at hb
    cases hb
    exact hrep.sized

/-- A memory of zeros. -/
def zeroed : Malloc := fun size => if size < 2 ^ 63 then some (List.replicate ((size - 16) / 8) 0) else none

theorem mallocs_zeroed : Mallocs zeroed := by
  refine fun size => ⟨fun h => ⟨List.replicate ((size - 16) / 8) 0, if_pos h, List.length_replicate⟩, fun h => ?_⟩
  exact if_neg (by omega)

theorem lists_refine_sample : ∃ s', runEvents (step zeroed)
      [.append 0 5, .insertAt 0 0 7, .slice 1 0 (-3) 1, .get 1 4] {} = some s' ∧
    Refines s' (specStep (.get 1 4) (specStep (.slice 1 0 (-3) 1)
      (specStep (.insertAt 0 0 7) (specStep (.append 0 5) {})))) ∧
    ∀ x b, s'.lists x = some b → Sized b := by
  have hfits : Meets (step zeroed) Fits [.append 0 5, .insertAt 0 0 7, .slice 1 0 (-3) 1, .get 1 4] {} := by
    refine ⟨fun b hb => (nomatch hb), fun s hs => ⟨fun b hb hfull => ?_,
      fun s' _ => ⟨trivial, fun s'' _ => ⟨trivial, fun _ _ => trivial⟩⟩⟩⟩
    cases hs
    cases hb
    cases hfull
  exact lists_refine mallocs_zeroed hfits

end RtList

end Datara.Runtime
