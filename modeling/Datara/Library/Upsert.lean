import Mathlib.Data.List.Nodup

/-!
# A map in order of insertion

A map as the list of its keys and values. `upsert` gives a key a value: in its place where the map has the key
(`keys_upsert`), else at the end; a lookup then finds what was last given (`lookup_upsert`).
-/

namespace Datara.Library

universe u v

variable {κ : Type u} {ν : Type v} [DecidableEq κ] {k k' : κ} {x : ν} {l : List (κ × ν)} {i : Nat}

/-- The map with a value given to a key. -/
def upsert (k : κ) (x : ν) : List (κ × ν) → List (κ × ν)
  | [] => [(k, x)]
  | e :: l => if e.1 = k then (e.1, x) :: l else e :: upsert k x l

/-- Where a scan finds a key. -/
def scan (k : κ) (l : List (κ × ν)) : Option Nat := l.findIdx? fun e => e.1 = k

theorem findIdx_eq_scan {q : κ × ν → Bool} (h : ∀ e ∈ l, q e = decide (e.1 = k)) : l.findIdx? q = scan k l := by
  induction l with
  | nil => rfl
  | cons e l ih =>
    rw [scan, List.findIdx?_cons, List.findIdx?_cons, h e List.mem_cons_self,
      ih fun f hf => h f (List.mem_cons_of_mem _ hf)]
    rfl

theorem lookup_cons [BEq κ] [LawfulBEq κ] (e : κ × ν) : (e :: l).lookup k = if k = e.1 then some e.2 else l.lookup k := by
  rw [List.lookup_cons]
  by_cases hk : k = e.1
  · rw [if_pos hk, beq_iff_eq.mpr hk]
  · rw [if_neg hk, beq_eq_false_iff_ne.mpr hk]

theorem mem_iff_lookup (h : (l.map Prod.fst).Nodup) : (k, x) ∈ l ↔ l.lookup k = some x := by
  induction l with
  | nil => simp
  | cons e l ih =>
    obtain ⟨hnot, hrest⟩ := List.nodup_cons.mp h
    rw [lookup_cons, List.mem_cons]
    by_cases he : k = e.1
    · rw [if_pos he, Option.some.injEq]
      refine ⟨fun hx => ?_, fun hx => .inl (Prod.ext he hx.symm)⟩
      rcases hx with hx | hx
      · rw [← hx]
      · exact absurd (List.mem_map_of_mem hx) (he ▸ hnot)
    · rw [if_neg he, ← ih hrest]
      exact or_iff_right fun hx => he (congrArg Prod.fst hx)

theorem lookup_upsert [BEq κ] [LawfulBEq κ] : (upsert k x l).lookup k' = if k' = k then some x else l.lookup k' := by
  induction l with
  | nil =>
    rw [upsert, lookup_cons]
  | cons e l ih =>
    rw [upsert]
    by_cases he : e.1 = k
    · rw [if_pos he, lookup_cons, lookup_cons, he]
      by_cases hk : k' = k
      · rw [if_pos hk, if_pos hk]
      · rw [if_neg hk, if_neg hk, if_neg hk]
    · rw [if_neg he, lookup_cons, lookup_cons, ih]
      by_cases hk : k' = k
      · rw [if_pos hk, if_pos hk, if_neg fun h => he (h.symm.trans hk)]
      · rw [if_neg hk, if_neg hk]

theorem keys_upsert : (upsert k x l).map Prod.fst =
    if k ∈ l.map Prod.fst then l.map Prod.fst else l.map Prod.fst ++ [k] := by
  induction l with
  | nil => rfl
  | cons e l ih =>
    rw [upsert, List.map_cons]
    by_cases he : e.1 = k
    · rw [if_pos he, List.map_cons, if_pos (he ▸ List.mem_cons_self)]
    · rw [if_neg he, List.map_cons, ih]
      by_cases hk : k ∈ l.map Prod.fst
      · rw [if_pos hk, if_pos (List.mem_cons_of_mem _ hk)]
      · rw [if_neg hk, if_neg fun h => hk (List.mem_of_ne_of_mem (fun h => he h.symm) h), List.cons_append]

/-- Its keys are distinct. -/
theorem nodup_upsert (h : (l.map Prod.fst).Nodup) : ((upsert k x l).map Prod.fst).Nodup := by
  rw [keys_upsert]
  split
  case isTrue => exact h
  case isFalse hk => exact List.nodup_append.mpr ⟨h, List.pairwise_singleton _ k, fun a ha b hb hab =>
    hk (List.mem_singleton.mp hb ▸ hab ▸ ha)⟩

/-- A key that a scan does not find goes to the end. -/
theorem upsert_of_scan_none (h : scan k l = none) : upsert k x l = l ++ [(k, x)] := by
  induction l with
  | nil => rfl
  | cons e l ih =>
    have hall := List.findIdx?_eq_none_iff.mp h
    have he : e.1 ≠ k := of_decide_eq_false (hall e List.mem_cons_self)
    rw [upsert, if_neg he, ih (List.findIdx?_eq_none_iff.mpr fun f hf => hall f (List.mem_cons_of_mem _ hf)),
      List.cons_append]

/-- A key that a scan finds has its value changed there. -/
theorem upsert_of_scan_some (h : scan k l = some i) : upsert k x l = l.modify i fun e => (e.1, x) := by
  induction l generalizing i with
  | nil => cases h
  | cons e l ih =>
    rw [scan, List.findIdx?_cons] at h
    rw [upsert]
    by_cases he : e.1 = k
    · rw [if_pos (decide_eq_true he)] at h
      cases h
      rw [if_pos he, List.modify_zero_cons]
    · rw [if_neg (by rwa [decide_eq_true_eq])] at h
      obtain ⟨j, hj, rfl⟩ := Option.map_eq_some_iff.mp h
      rw [if_neg he, List.modify_succ_cons, ih hj]

theorem lookup_eq_scan : l.lookup k = (scan k l).bind fun i => l[i]?.map Prod.snd := by
  induction l with
  | nil => rfl
  | cons e l ih =>
    rw [lookup_cons, scan, List.findIdx?_cons]
    by_cases he : e.1 = k
    · rw [if_pos he.symm, if_pos (decide_eq_true he)]
      rfl
    · rw [if_neg fun h => he h.symm, if_neg (by rwa [decide_eq_true_eq]), ih]
      rw [Option.bind_map]
      rfl

theorem scan_eq_some (h : scan k l = some i) : l[i]?.map Prod.fst = some k := by
  obtain ⟨hi, hk, -⟩ := List.findIdx?_eq_some_iff_getElem.mp h
  rw [List.getElem?_eq_getElem hi, Option.map_some, of_decide_eq_true hk]

/-- Among distinct keys a scan finds the key at its index. -/
theorem scan_of_getElem (hl : (l.map Prod.fst).Nodup) (hi : l[i]?.map Prod.fst = some k) : scan k l = some i := by
  cases hs : scan k l with
  | none =>
    obtain ⟨e, he, rfl⟩ := Option.map_eq_some_iff.mp hi
    have := List.findIdx?_eq_none_iff.mp hs e (List.mem_of_getElem? he)
    exact absurd rfl (of_decide_eq_false this)
  | some j =>
    have hj := scan_eq_some hs
    rw [← List.getElem?_map] at hi hj
    have hlt : i < (l.map Prod.fst).length := (List.getElem?_eq_some_iff.mp hi).1
    rw [(List.getElem?_inj hlt hl).mp (hi.trans hj.symm)]

theorem scan_none (h : scan k l = none) : l[i]?.map Prod.fst ≠ some k := by
  intro hi
  obtain ⟨e, he, rfl⟩ := Option.map_eq_some_iff.mp hi
  have := List.findIdx?_eq_none_iff.mp h e (List.mem_of_getElem? he)
  exact absurd rfl (of_decide_eq_false this)

/-- A lookup finds an entry, when no two share a key. -/
theorem lookup_eq_some_iff {κ : Type u} {ν : Type v} [BEq κ] [LawfulBEq κ] {k : κ} {x : ν} {l : List (κ × ν)}
    (h : (l.map Prod.fst).Nodup) : l.lookup k = some x ↔ (k, x) ∈ l := by
  induction l with
  | nil => simp
  | cons e l ih =>
    obtain ⟨hnot, hl⟩ := List.nodup_cons.mp h
    rw [List.lookup_cons, List.mem_cons]
    by_cases he : k = e.1
    · subst he
      have hnotin : (e.1, x) ∉ l := fun hm => hnot (List.mem_map.mpr ⟨(e.1, x), hm, rfl⟩)
      simp only [beq_self_eq_true, Option.some.injEq, hnotin, or_false, Prod.ext_iff, true_and, eq_comm]
    · have hne : (k == e.1) = false := by simpa using he
      simp only [hne, ih hl, Prod.ext_iff, he, false_and, false_or]

theorem upsert_of_notMem (h : k ∉ l.map Prod.fst) : upsert k x l = l ++ [(k, x)] := by
  refine upsert_of_scan_none (List.findIdx?_eq_none_iff.mpr fun e he => decide_eq_false ?_)
  rintro rfl
  exact h (List.mem_map_of_mem he)

end Datara.Library
