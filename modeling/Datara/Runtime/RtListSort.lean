import Datara.Library.StableSort
import Datara.Runtime.RtList

/-!
# Sorting a list

`datara_rt_list_sort` of `runtime/datara_list.c`: a merge sort of the elements in their block with a scratch buffer.
A load or store outside the block or the buffer has no result. A `Str` is the address of its text, which is given by
its bytes before the terminator.
-/

namespace Datara.Runtime.RtListSort

open Library

/-! ## The order of the elements -/

/-- `strcmp`: the terminator is below every byte of a text. -/
def strcmp : List UInt8 → List UInt8 → Int
  | [], [] => 0
  | [], _ :: _ => -1
  | _ :: _, [] => 1
  | a :: as, b :: bs => if a = b then strcmp as bs else (a.toNat : Int) - b.toNat

/-- A slot as a `double`: no number, or its place in the order of the numbers, in which both zeros are at 0. -/
def doubleRank (v : Int) : Option Int :=
  let bits : Nat := (v % 2 ^ 64).toNat
  let magnitude : Nat := bits % 2 ^ 63
  if 0x7FF0000000000000 < magnitude then none
  else some (if 2 ^ 63 ≤ bits then -(magnitude : Int) else magnitude)

def doubleLt (a b : Int) : Bool :=
  match doubleRank a, doubleRank b with
  | some x, some y => x < y
  | _, _ => false

section
variable (text : Int → List UInt8)

/-- `datara_list_lt`. Another kind of element panics. -/
def listLt (elemKind a b : Int) : Option Bool :=
  if elemKind = 0 then some (a < b)
  else if elemKind = 1 then some (doubleLt a b)
  else if elemKind = 2 then some (strcmp (text a) (text b) < 0)
  else none

end

/-! ## The sort -/

section
variable (lt : Int → Int → Option Bool)

/-- `while (i < mid && j < hi)`. -/
def mergeLoop (list : List Int) (mid hi i j k : Nat) (tmp : List Int) : Option (Nat × Nat × Nat × List Int) :=
  if i < mid ∧ j < hi then do
    let right ← loadWord list (j + 1)
    let left ← loadWord list (i + 1)
    if ← lt right left then
      let tmp ← storeWord tmp k right
      mergeLoop list mid hi i (j + 1) (k + 1) tmp
    else
      let tmp ← storeWord tmp k left
      mergeLoop list mid hi (i + 1) j (k + 1) tmp
  else some (i, j, k, tmp)
termination_by (mid - i) + (hi - j)
decreasing_by all_goals omega

/-- The loops after the halves are sorted: the merge, what is left of each half, and the copy back. -/
def mergeHalves (list tmp : List Int) (lo mid hi : Nat) : Option (List Int × List Int) := do
  let (i, j, k, tmp) ← mergeLoop lt list mid hi lo mid lo tmp
  let tmp ← copyWords list (i + 1) k (mid - i) tmp
  let k := k + (mid - i)
  let tmp ← copyWords list (j + 1) k (hi - j) tmp
  let list ← copyWords tmp lo (lo + 1) (hi - lo) list
  return (list, tmp)

/-- `datara_list_sort_range`. -/
def sortRange (lo hi : Nat) (list tmp : List Int) : Option (List Int × List Int) :=
  if hi - lo ≤ 1 then some (list, tmp)
  else do
    let mid := lo + (hi - lo) / 2
    let (list, tmp) ← sortRange lo mid list tmp
    let (list, tmp) ← sortRange mid hi list tmp
    mergeHalves lt list tmp lo mid hi
termination_by hi - lo
decreasing_by all_goals omega

end

/-- What a call comes to. -/
inductive Outcome
  | returned (list : ListHandle)
  | panic (message : String)

/-- `datara_rt_list_sort`. `malloc` gives the words of a block of a number of bytes. -/
def listSort (malloc : Nat → Option (List Int)) (text : Int → List UInt8) (list : ListHandle) (mode elemKind : Int) :
    Option Outcome :=
  match list with
  | none => some (.returned none)
  | some b =>
    if mode ≠ 0 then some (.panic "list sort: unsupported sort mode")
    else if elemKind ≠ 0 ∧ elemKind ≠ 1 ∧ elemKind ≠ 2 then
      some (.panic "list sort: unsupported element representation")
    else do
      let count ← loadWord b.words 0
      if 1 < count then
        match malloc (count.toNat * 8) with
        | none => some (.panic "list sort: out of memory")
        | some tmp => do
          let (words, _) ← sortRange (listLt text elemKind) 0 count.toNat b.words tmp
          return .returned (some { b with words := words })
      else return .returned (some b)

/-! ## What the loops do -/

section
variable {lt : Int → Int → Option Bool} {le : Int → Int → Bool} {list tmp xs ys done rest : List Int}
variable {mid hi lo i j : Nat}

theorem mergeLoop_spec (done rest : List Int) (hlt : ∀ a b, lt a b = some !le b a) (hlist : hi + 1 ≤ list.length)
    (hmid : mid ≤ hi) (hi_le : i ≤ mid) (hj_le : j ≤ hi) (hxs : part list (i + 1) (mid - i) = xs)
    (hys : part list (j + 1) (hi - j) = ys) (hroom : (mid - i) + (hi - j) ≤ rest.length) :
    ∃ i' j' done' rest', mergeLoop lt list mid hi i j done.length (done ++ rest) =
        some (i', j', done'.length, done' ++ rest') ∧ i' ≤ mid ∧ j' ≤ hi ∧ (i' = mid ∨ j' = hi) ∧
      done' ++ part list (i' + 1) (mid - i') ++ part list (j' + 1) (hi - j') = done ++ List.merge xs ys le ∧
      done'.length + rest'.length = done.length + rest.length ∧
      done'.length + (mid - i') + (hi - j') = done.length + (mid - i) + (hi - j) := by
  induction hn : (mid - i) + (hi - j) using Nat.strongRecOn generalizing xs ys done rest i j with
  | _ n ih =>
    have hxsLen : xs.length = mid - i := by
      rw [← hxs]
      exact length_part (by omega)
    have hysLen : ys.length = hi - j := by
      rw [← hys]
      exact length_part (by omega)
    rw [mergeLoop]
    by_cases hboth : i < mid ∧ j < hi
    · obtain ⟨x, xs, rfl⟩ := exists_word (w := xs) (by omega)
      obtain ⟨y, ys, rfl⟩ := exists_word (w := ys) (by omega)
      obtain ⟨hx, hxs'⟩ := part_eq_cons hxs
      obtain ⟨hy, hys'⟩ := part_eq_cons hys
      obtain ⟨r, rest, rfl⟩ := exists_word (w := rest) (by omega)
      have hleft : loadWord list ((i : Int) + 1) = some x := (loadWord_nat (i + 1)).trans hx
      have hright : loadWord list ((j : Int) + 1) = some y := (loadWord_nat (j + 1)).trans hy
      have hstore (v : Int) : storeWord (done ++ r :: rest) done.length v = some ((done ++ [v]) ++ rest) := by
        rw [storeWord_append rfl, List.append_assoc, List.singleton_append]
      rw [if_pos hboth, hright, hleft]
      simp only [Option.bind_eq_bind, Option.bind_some, hlt, hstore]
      simp only [List.length_cons] at hroom
      have hlen (v : Int) : (done ++ [v]).length = done.length + 1 := by simp
      by_cases hle : le x y = true
      · simp only [hle, Bool.not_true, Bool.false_eq_true, if_false, ← hlen x]
        have hstep := ih ((mid - (i + 1)) + (hi - j)) (by omega) (done ++ [x]) rest (by omega) hj_le hxs' hys (by omega) rfl
        rw [hlen] at hstep
        obtain ⟨i', j', done', rest', hrun, hi', hj', hend, hmerged, hsize, htotal⟩ := hstep
        refine ⟨i', j', done', rest', ?_, hi', hj', hend, ?_, ?_, ?_⟩
        · rw [hlen]
          exact hrun
        · rw [hmerged, List.cons_merge_cons_pos le xs ys hle, List.append_assoc]
          rfl
        · rw [hsize, List.length_cons]
          omega
        · omega
      · have hge : le x y = false := Bool.eq_false_iff.mpr hle
        simp only [hge, Bool.not_false, if_true, ← hlen y]
        have hstep := ih ((mid - i) + (hi - (j + 1))) (by omega) (done ++ [y]) rest hi_le (by omega) hxs hys' (by omega) rfl
        rw [hlen] at hstep
        obtain ⟨i', j', done', rest', hrun, hi', hj', hend, hmerged, hsize, htotal⟩ := hstep
        refine ⟨i', j', done', rest', ?_, hi', hj', hend, ?_, ?_, ?_⟩
        · rw [hlen]
          exact hrun
        · rw [hmerged, List.cons_merge_cons_neg le xs ys hle, List.append_assoc]
          rfl
        · rw [hsize, List.length_cons]
          omega
        · omega
    · rw [if_neg hboth]
      refine ⟨i, j, done, rest, rfl, hi_le, hj_le, by omega, ?_, rfl, rfl⟩
      rw [hxs, hys, List.append_assoc]
      congr 1
      rcases Nat.lt_or_ge i mid with hlt | hge
      · obtain rfl : ys = [] := List.eq_nil_of_length_eq_zero (by omega)
        simp
      · obtain rfl : xs = [] := List.eq_nil_of_length_eq_zero (by omega)
        simp

theorem mergeHalves_spec (lo mid hi : Nat) (pre xs ys post tmp : List Int) (hlt : ∀ a b, lt a b = some !le b a) (hpre : pre.length = lo + 1)
    (hmid : mid = lo + xs.length) (hhi : hi = mid + ys.length) (htmp : hi ≤ tmp.length) :
    ∃ tmp', mergeHalves lt (pre ++ (xs ++ ys) ++ post) tmp lo mid hi =
        some (pre ++ List.merge xs ys le ++ post, tmp') ∧ tmp'.length = tmp.length := by
  obtain ⟨done, rest, rfl, hdone⟩ := exists_part (w := tmp) (n := lo) (by omega)
  rw [List.length_append] at htmp
  have hxs : part (pre ++ (xs ++ ys) ++ post) (lo + 1) (mid - lo) = xs := by
    rw [part, List.append_assoc, ← hpre, List.drop_left, List.append_assoc,
      show mid - lo = xs.length by omega, List.take_left]
  have hys : part (pre ++ (xs ++ ys) ++ post) (mid + 1) (hi - mid) = ys := by
    rw [part, show mid + 1 = (pre ++ xs).length by rw [List.length_append]; omega, ← List.append_assoc pre,
      List.append_assoc (pre ++ xs), List.drop_left, show hi - mid = ys.length by omega, List.take_left]
  obtain ⟨i, j, front, left, hloop, hi_le, hj_le, -, hmerged, hsize, htotal⟩ := mergeLoop_spec done rest hlt
    (show hi + 1 ≤ (pre ++ (xs ++ ys) ++ post).length by simp; omega) (by omega)
    (show lo ≤ mid by omega) (show mid ≤ hi by omega) hxs hys (by omega)
  obtain ⟨b, left, rfl, hb⟩ := exists_part (w := left) (n := mid - i) (by omega)
  rw [List.length_append] at hsize
  obtain ⟨c, left, rfl, hc⟩ := exists_part (w := left) (n := hi - j) (by omega)
  rw [List.length_append] at hsize
  have hlen : (pre ++ (xs ++ ys) ++ post).length = lo + 1 + (xs.length + ys.length) + post.length := by
    simp only [List.length_append, hpre]
  generalize hlist : pre ++ (xs ++ ys) ++ post = list at *
  have hfirst := copyWords_spec (w := list) (a := front) (b := b) (c := c ++ left) (s := (i : Int) + 1)
    (d := front.length) (n := mid - i) (k := i + 1) (by simp) (by omega) rfl hb
  have hlast := copyWords_spec (w := list) (a := front ++ part list (i + 1) (mid - i)) (b := c) (c := left)
    (s := (j : Int) + 1) (d := (front.length + (mid - i) : Nat)) (n := hi - j) (k := j + 1) (by simp) (by omega)
    (by rw [List.length_append, length_part (by omega)]) hc
  have hback := copyWords_spec (w := done ++ List.merge xs ys le ++ left) (a := pre) (b := xs ++ ys) (c := post)
    (s := (lo : Int)) (d := (lo : Int) + 1) (n := hi - lo) (k := lo) rfl
    (by simp [List.length_merge]; omega) (by rw [hpre]; rfl) (by rw [List.length_append]; omega)
  refine ⟨done ++ List.merge xs ys le ++ left, ?_, ?_⟩
  · subst hdone
    rw [mergeHalves, hloop]
    simp only [Option.bind_eq_bind, Option.bind_some]
    rw [← List.append_assoc front b, hfirst]
    simp only [Option.bind_some]
    rw [← part, ← List.append_assoc _ c, hlast]
    simp only [Option.bind_some]
    rw [← part, hmerged, ← hlist, hback]
    simp only [Option.bind_some]
    rw [List.append_assoc done, List.drop_left, show hi - done.length = (List.merge xs ys le).length by
      rw [List.length_merge]; omega, List.take_left]
    rfl
  · simp [List.length_merge]
    omega

/-- **A range is replaced by its elements sorted stably**, and nothing else of the block changes. -/
theorem sortRange_spec (lo hi : Nat) (pre xs post tmp : List Int) (hlt : ∀ a b, lt a b = some !le b a)
    (trans : ∀ a b c, le a b = true → le b c = true → le a c = true) (total : ∀ a b, (le a b || le b a) = true)
    (hpre : pre.length = lo + 1) (hhi : hi = lo + xs.length) (htmp : hi ≤ tmp.length) :
    ∃ out tmp', sortRange lt lo hi (pre ++ xs ++ post) tmp = some (pre ++ out ++ post, tmp') ∧
      tmp'.length = tmp.length ∧ SortsStably le xs out := by
  induction hn : hi - lo using Nat.strongRecOn generalizing lo hi pre xs post tmp with
  | _ n ih =>
    rw [sortRange]
    by_cases hshort : hi - lo ≤ 1
    · rw [if_pos hshort]
      exact ⟨xs, tmp, rfl, rfl, SortsStably.of_length (by omega)⟩
    · rw [if_neg hshort]
      obtain ⟨xs, ys, rfl, hhalf⟩ := exists_part (w := xs) (n := (hi - lo) / 2) (by omega)
      rw [List.length_append] at hhi
      obtain ⟨left, tmp₁, hleft, hsize₁, hsorted₁⟩ := ih ((hi - lo) / 2) (by omega) lo (lo + (hi - lo) / 2) pre xs
        (ys ++ post) tmp hpre (by omega) (by omega) (by omega)
      have hleftLen := hsorted₁.perm.length_eq
      obtain ⟨right, tmp₂, hright, hsize₂, hsorted₂⟩ := ih (hi - (lo + (hi - lo) / 2)) (by omega)
        (lo + (hi - lo) / 2) hi (pre ++ left) ys post tmp₁ (by rw [List.length_append]; omega) (by omega) (by omega) rfl
      have hrightLen := hsorted₂.perm.length_eq
      obtain ⟨tmp₃, hmerge, hsize₃⟩ := mergeHalves_spec lo (lo + (hi - lo) / 2) hi pre left right post tmp₂
        hlt hpre (by omega) (by omega) (by omega)
      refine ⟨List.merge left right le, tmp₃, ?_, by omega, hsorted₁.merge trans total hsorted₂⟩
      rw [show pre ++ (xs ++ ys) ++ post = pre ++ xs ++ (ys ++ post) by simp]
      simp only [hleft, Option.bind_eq_bind, Option.bind_some]
      rw [← List.append_assoc (pre ++ left), hright]
      simp only [Option.bind_some]
      rw [List.append_assoc pre left, hmerge]

end

/-! ## The order is total -/

section
variable {a b c : List UInt8}

theorem strcmp_total (a b : List UInt8) : strcmp a b ≤ 0 ∨ strcmp b a ≤ 0 := by
  induction a generalizing b with
  | nil => cases b <;> simp [strcmp]
  | cons x a ih =>
    cases b with
    | nil => simp [strcmp]
    | cons y b =>
      by_cases hxy : x = y
      · simpa [strcmp, hxy] using ih b
      · simp only [strcmp, if_neg hxy, if_neg (Ne.symm hxy)]
        omega

theorem strcmp_trans (hab : strcmp a b ≤ 0) (hbc : strcmp b c ≤ 0) : strcmp a c ≤ 0 := by
  induction a generalizing b c with
  | nil => cases c <;> simp [strcmp]
  | cons x a ih =>
    cases b with
    | nil => simp [strcmp] at hab
    | cons y b =>
      cases c with
      | nil => simp [strcmp] at hbc
      | cons z c =>
        simp only [strcmp] at hab hbc ⊢
        have hne {p q : UInt8} (h : p ≠ q) : p.toNat ≠ q.toNat := fun heq => h (UInt8.toNat_inj.mp heq)
        by_cases hxy : x = y
        · subst hxy
          by_cases hxz : x = z
          · rw [if_pos hxz] at hbc ⊢
            rw [if_pos rfl] at hab
            exact ih hab hbc
          · rw [if_neg hxz] at hbc ⊢
            exact hbc
        · rw [if_neg hxy] at hab
          by_cases hyz : y = z
          · rwa [← hyz, if_neg hxy]
          · rw [if_neg hyz] at hbc
            have hyzNat := hne hyz
            rw [if_neg fun hxz : x = z => by rw [hxz] at hab; omega]
            omega

/-- `strcmp` is negative one way exactly when it is not negative or zero the other way. -/
theorem strcmp_neg_iff : strcmp a b < 0 ↔ ¬strcmp b a ≤ 0 := by
  induction a generalizing b with
  | nil => cases b <;> simp [strcmp]
  | cons x a ih =>
    cases b with
    | nil => simp [strcmp]
    | cons y b =>
      by_cases hxy : x = y
      · simpa [strcmp, hxy] using ih
      · simp only [strcmp, if_neg hxy, if_neg (Ne.symm hxy)]
        omega

end

/-! ## Sorting a list of `Int` or `Str` -/

/-- The order of the elements: of numbers, or of the bytes of texts. -/
def elementLe (text : Int → List UInt8) (elemKind a b : Int) : Bool :=
  if elemKind = 2 then strcmp (text a) (text b) ≤ 0 else a ≤ b

section
variable {text : Int → List UInt8} {elemKind : Int}

theorem listLt_eq (hkind : elemKind = 0 ∨ elemKind = 2) (a b : Int) :
    listLt text elemKind a b = some !elementLe text elemKind b a := by
  rcases hkind with rfl | rfl
  · show some (decide (a < b)) = some !decide (b ≤ a)
    rw [← decide_not, decide_eq_decide.mpr Int.not_le]
  · show some (decide (strcmp (text a) (text b) < 0)) = some !decide (strcmp (text b) (text a) ≤ 0)
    rw [← decide_not, decide_eq_decide.mpr strcmp_neg_iff]

theorem elementLe_trans (a b c : Int) (hab : elementLe text elemKind a b = true)
    (hbc : elementLe text elemKind b c = true) : elementLe text elemKind a c = true := by
  unfold elementLe at *
  split_ifs at *
  · exact decide_eq_true (strcmp_trans (of_decide_eq_true hab) (of_decide_eq_true hbc))
  · exact decide_eq_true (Int.le_trans (of_decide_eq_true hab) (of_decide_eq_true hbc))

theorem elementLe_total (a b : Int) : (elementLe text elemKind a b || elementLe text elemKind b a) = true := by
  unfold elementLe
  split_ifs
  · simpa using strcmp_total (text a) (text b)
  · simpa using Int.le_total a b

theorem listSort_eq {malloc : Nat → Option (List Int)} {b : ListBlock} {n : Nat} (hkind : elemKind = 0 ∨ elemKind = 2)
    (hcount : loadWord b.words 0 = some (n : Int)) : listSort malloc text (some b) 0 elemKind =
      if 1 < n then
        match malloc (n * 8) with
        | none => some (.panic "list sort: out of memory")
        | some tmp => (sortRange (listLt text elemKind) 0 n b.words tmp).map fun r =>
          .returned (some { b with words := r.1 })
      else some (.returned (some b)) := by
  rw [listSort, if_neg (by simp), if_neg (by omega), hcount]
  have hcast : 1 < (n : Int) ↔ 1 < n := by omega
  simp only [Option.bind_eq_bind, Option.bind_some, hcast, Int.toNat_natCast]
  split_ifs
  · cases malloc (n * 8) with
    | none => rfl
    | some tmp =>
      show (sortRange (listLt text elemKind) 0 n b.words tmp).bind _ = Option.map _ _
      cases sortRange (listLt text elemKind) 0 n b.words tmp <;> rfl
  · rfl

/-- **A list of `Int` or of `Str` is sorted stably in its block**, whatever its length; the words after the elements are
left as they were. When there is no memory for the buffer the call panics. -/
theorem listSort_sorts_stably {malloc : Nat → Option (List Int)} {b : ListBlock} {xs rest : List Int}
    (hmalloc : ∀ size words, malloc size = some words → words.length = size / 8)
    (hkind : elemKind = 0 ∨ elemKind = 2) (hwords : b.words = (xs.length : Int) :: xs ++ rest) :
    (1 < xs.length → malloc (xs.length * 8) = none →
      listSort malloc text (some b) 0 elemKind = some (.panic "list sort: out of memory")) ∧
    (xs.length ≤ 1 ∨ malloc (xs.length * 8) ≠ none →
      ∃ out, listSort malloc text (some b) 0 elemKind =
        some (.returned (some { b with words := (xs.length : Int) :: out ++ rest })) ∧
        SortsStably (elementLe text elemKind) xs out) := by
  have hcount : loadWord b.words 0 = some (xs.length : Int) := by
    rw [hwords]
    rfl
  rw [listSort_eq hkind hcount]
  constructor
  · intro hlong hnone
    rw [if_pos hlong, hnone]
  · intro hmem
    by_cases hlong : 1 < xs.length
    · obtain ⟨tmp, htmp⟩ := Option.ne_none_iff_exists'.mp (hmem.resolve_left (by omega))
      have hsize : tmp.length = xs.length := by
        rw [hmalloc _ _ htmp]
        omega
      obtain ⟨out, tmp', hrun, -, hsorted⟩ := sortRange_spec 0 xs.length [(xs.length : Int)] xs rest tmp
        (listLt_eq hkind) elementLe_trans elementLe_total rfl (by omega) (by omega)
      refine ⟨out, ?_, hsorted⟩
      have hblock : b.words = [(xs.length : Int)] ++ xs ++ rest := hwords
      rw [if_pos hlong, htmp, hblock]
      simp only [hrun]
      rfl
    · refine ⟨xs, ?_, SortsStably.of_length (by omega)⟩
      rw [if_neg hlong, ← hwords]

/-- Three numbers in a block with a word to spare. -/
theorem listSort_sorts_stably_three :
    ∃ out, listSort (fun size => some (List.replicate (size / 8) 7)) (fun _ => [])
        (some { capacity := 4, words := [3, 30, 10, 20, 0] }) 0 0 =
      some (.returned (some { capacity := 4, words := 3 :: out ++ [0] })) ∧
      SortsStably (elementLe (fun _ => []) 0) [30, 10, 20] out := by
  have hwords : ({ capacity := 4, words := [3, 30, 10, 20, 0] } : ListBlock).words =
      (([30, 10, 20] : List Int).length : Int) :: [30, 10, 20] ++ [0] := rfl
  exact (listSort_sorts_stably (fun size words h => by rw [← Option.some.inj h, List.length_replicate]) (.inl rfl)
    hwords).2 (.inr (by simp))

end

end Datara.Runtime.RtListSort
