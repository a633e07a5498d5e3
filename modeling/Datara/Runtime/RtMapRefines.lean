import Datara.Runtime.RtMap

/-!
# The hash map refines a finite map

The index of a map holds each of its entries where the probe from its home comes to it, and is never full
(`Indexed`), so that a search ends and finds what a scan of the entries finds (`indexFind_eq`). A run of calls
whose literals have distinct keys does what it would do on finite maps in order of insertion
(`maps_refine`); a literal that repeats a key keeps both entries (`maps_not_refine`).
-/

namespace Datara.Runtime

open Library
open Option (bind_eq_bind bind_some map_eq_some_iff map_some)

namespace RtMap

variable {l : Entries} {index : MapIndex} {key : MapKey} {val : Int} {m : RtMap} {n slots : Nat}

/-! ## The index -/

/-- The entry at a slot of the index. -/
def entryAt (idx : Nat → Nat) (slot : Nat) : Option Nat := if idx slot = 0 then none else some (idx slot - 1)

/-- The home of an entry. -/
def homeOf (l : Entries) (slots e : Nat) : Nat := home slots ((l[e]?.map Prod.fst).getD (.int 0))

/-- **An index** of the first entries. -/
structure Indexed (l : Entries) (n : Nat) (index : MapIndex) : Prop where
  pow : ∃ k, index.slots = 2 ^ k
  bound : n ≤ l.length
  probed : Probed (homeOf l index.slots) index.slots (entryAt index.cells) {e | e < n} n

theorem entryAt_update {idx : Nat → Nat} {slot e : Nat} :
    entryAt (Function.update idx slot (e + 1)) = Function.update (entryAt idx) slot (some e) := by
  funext s
  unfold entryAt
  by_cases hs : s = slot
  · rw [hs, Function.update_self, Function.update_self, if_neg (Nat.succ_ne_zero e), Nat.add_sub_cancel]
  · rw [Function.update_of_ne hs, Function.update_of_ne hs]

theorem home_lt (h : 0 < slots) : home slots key < slots := by
  have : home slots key ≤ slots - 1 := Nat.and_le_right
  omega

theorem homeOf_eq {e : Nat} {x : MapKey × Int} (h : l[e]? = some x) : homeOf l slots e = home slots x.1 := by
  rw [homeOf, h]
  rfl

theorem next_eq {k : Nat} (h : slots = 2 ^ k) (slot : Nat) : (slot + 1) &&& (slots - 1) = (slot + 1) % slots := by
  rw [h, Nat.and_two_pow_sub_one_eq_mod]

theorem after_next (slot j : Nat) : (slot + (j + 1)) % slots = ((slot + 1) % slots + j) % slots := by
  rw [Nat.mod_add_mod, Nat.add_assoc, Nat.add_comm 1 j]

theorem indexPutLoop_placed {k fuel slot pendE : Nat} {idx : Nat → Nat} {stored : Set Nat} (pendDist : Int)
    (hpow : slots = 2 ^ k) (hslot : slot < slots)
    (h : Pending (homeOf l slots) slots (entryAt idx) stored n pendE slot)
    (hbound : ∀ e ∈ stored, e < l.length)
    (hfuel : ∃ j < fuel, entryAt idx ((slot + j) % slots) = none) :
    ∃ idx', indexPutLoop l slots fuel idx slot pendE pendDist = some idx' ∧
      Probed (homeOf l slots) slots (entryAt idx') stored (n + 1) := by
  induction fuel generalizing idx slot pendE pendDist with
  | zero =>
    obtain ⟨j, hj, -⟩ := hfuel
    exact absurd hj (Nat.not_lt_zero j)
  | succ fuel ih =>
    rw [indexPutLoop]
    by_cases hcur : idx slot = 0
    · have hempty : entryAt idx slot = none := if_pos hcur
      refine ⟨_, if_pos hcur, ?_⟩
      rw [entryAt_update]
      exact h.place hslot hempty
    have htaken : entryAt idx slot = some (idx slot - 1) := if_neg hcur
    have hlt : idx slot - 1 < l.length := hbound _ (h.mem slot _ hslot htaken)
    have hnext : (slot + 1) % slots < slots := Nat.mod_lt _ (by omega)
    obtain ⟨j, hj, hempty⟩ := hfuel
    obtain ⟨j, rfl⟩ : ∃ j', j = j' + 1 := by
      cases j with
      | zero =>
        rw [Nat.add_zero, Nat.mod_eq_of_lt hslot, htaken] at hempty
        cases hempty
      | succ j => exact ⟨j, rfl⟩
    rw [after_next] at hempty
    simp only [hcur, if_false, List.getElem?_eq_getElem hlt, next_eq hpow, bind_eq_bind, bind_some]
    have hswap : ∀ dist : Int, ∃ idx', indexPutLoop l slots fuel (Function.update idx slot (pendE + 1))
        ((slot + 1) % slots) (idx slot - 1) dist = some idx' ∧
        Probed (homeOf l slots) slots (entryAt idx') stored (n + 1) := by
      refine fun dist => ih dist hnext ?_ ⟨j, by omega, ?_⟩
      · rw [entryAt_update]
        exact h.swap hslot htaken
      · -- the slot that changes is one that was taken
        rw [entryAt_update, Function.update_of_ne, hempty]
        intro heq
        rw [heq, htaken] at hempty
        cases hempty
    have hskip : ∀ dist : Int, ∃ idx', indexPutLoop l slots fuel idx ((slot + 1) % slots) pendE dist = some idx' ∧
        Probed (homeOf l slots) slots (entryAt idx') stored (n + 1) :=
      fun dist => ih dist hnext (h.skip (by rw [htaken]; exact Option.some_ne_none _)) ⟨j, by omega, hempty⟩
    split
    all_goals split
    · exact hswap _
    · exact hskip _
    · exact hswap _
    · exact hskip _

theorem indexPut_indexed (h : Indexed l n index) (hn : n < l.length) (hroom : n < index.slots) :
    ∃ index', indexPut l index n = some index' ∧ index'.slots = index.slots ∧ Indexed l (n + 1) index' := by
  obtain ⟨k, hpow⟩ := h.pow
  have hhome : homeOf l index.slots n < index.slots := home_lt (by omega)
  have hget := List.getElem?_eq_getElem hn
  obtain ⟨s, hs, hempty⟩ := exists_empty h.probed.few hroom
  obtain ⟨j, hj, rfl⟩ := exists_offset hhome hs
  have hstored : (insert n {e | e < n} : Set Nat) = {e | e < n + 1} := by
    ext e
    show e = n ∨ e < n ↔ e < n + 1
    omega
  have hstart := Pending.start h.probed hhome
  rw [hstored] at hstart
  obtain ⟨idx', hput, hprobed⟩ := indexPutLoop_placed 0 hpow hhome hstart
    (fun e (he : e < n + 1) => by omega) ⟨j, hj, hempty⟩
  rw [homeOf_eq hget] at hput
  unfold indexPut
  simp only [hget, hput, bind_eq_bind, bind_some]
  exact ⟨_, rfl, rfl, ⟨k, hpow⟩, hn, hprobed⟩

/-- The number of slots is a power of two, and twice that of the entries at least. -/
theorem doubleSlots_spec (count fuel slots : Nat) (hslots : 2 ≤ slots) (hfuel : count * 2 ≤ slots + 2 * fuel)
    (hpow : ∃ k, slots = 2 ^ k) :
    ∃ slots', doubleSlots count (fuel + 1) slots = some slots' ∧ count * 2 ≤ slots' ∧ 2 ≤ slots' ∧
      ∃ k, slots' = 2 ^ k := by
  induction fuel generalizing slots with
  | zero =>
    rw [doubleSlots, if_neg (by omega)]
    exact ⟨slots, rfl, by omega, hslots, hpow⟩
  | succ fuel ih =>
    rw [doubleSlots]
    by_cases hlt : slots < count * 2
    · rw [if_pos hlt]
      obtain ⟨k, rfl⟩ := hpow
      exact ih _ (by omega) (by omega) ⟨k + 1, (pow_succ 2 k).symm⟩
    · rw [if_neg hlt]
      exact ⟨slots, rfl, by omega, hslots, hpow⟩

/-- The entries are placed one after the other. -/
theorem foldlM_indexPut (hroom : l.length < slots) {i : Nat} (hi : n + i ≤ l.length) (hslots : index.slots = slots)
    (h : Indexed l n index) : ∃ index', (List.range' n i).foldlM (indexPut l) index = some index' ∧
      index'.slots = slots ∧ Indexed l (n + i) index' := by
  induction i generalizing n index with
  | zero => exact ⟨index, rfl, hslots, h⟩
  | succ i ih =>
    obtain ⟨index', hput, hs, hnext⟩ := indexPut_indexed h (by omega) (by omega)
    obtain ⟨index'', hrest, hs', hend⟩ := ih (by omega) (hs.trans hslots) hnext
    refine ⟨index'', ?_, hs', ?_⟩
    · rw [List.range'_succ, List.foldlM_cons, hput]
      exact hrest
    · rwa [Nat.add_assoc, Nat.add_comm 1 i] at hend

/-- **Every index built holds every entry**, in less than three quarters of its slots. -/
theorem indexBuild_indexed (l : Entries) : ∃ index, indexBuild l = some index ∧ Indexed l l.length index ∧
    l.length * 4 < index.slots * 3 := by
  obtain ⟨slots, hslots, hle, htwo, hpow⟩ := doubleSlots_spec l.length l.length indexMin
    (by decide) (by omega) ⟨4, rfl⟩
  have hnone : Indexed l 0 { slots := slots, cells := fun _ => 0 } := by
    refine ⟨hpow, Nat.zero_le _, ?_⟩
    have hset : {e : Nat | e < 0} = ∅ := Set.eq_empty_iff_forall_notMem.mpr fun e he => Nat.not_lt_zero e he
    rw [hset]
    exact Probed.nil
  obtain ⟨index, hbuild, hs, hindexed⟩ := foldlM_indexPut (l := l) (show l.length < slots by omega)
    (show 0 + l.length ≤ l.length by omega) rfl hnone
  rw [Nat.zero_add] at hindexed
  refine ⟨index, ?_, hindexed, by omega⟩
  unfold indexBuild
  simp only [hslots, List.range_eq_range', bind_eq_bind, bind_some]
  exact hbuild

/-! ## Searches -/

theorem keyEq_eq {intKey : Bool} {stored : MapKey} (hs : stored.isInt = intKey) (hk : key.isInt = intKey) :
    keyEq intKey stored key = decide (stored = key) := by
  subst hs
  cases stored with
  | str a =>
    cases key with
    | str b => simp only [keyEq, MapKey.isInt, MapKey.str.injEq]
    | int b => cases hk
  | int a =>
    cases key with
    | str b => cases hk
    | int b => simp only [keyEq, MapKey.isInt, MapKey.int.injEq]

section
variable {intKey : Bool} (hkind : ∀ e ∈ l, e.1.isInt = intKey) (hkey : key.isInt = intKey)
include hkind hkey

theorem indexFindLoop_found {k fuel slot e : Nat} (hpow : index.slots = 2 ^ k) (hslot : slot < index.slots)
    (hdistinct : (l.map Prod.fst).Nodup) (hbound : ∀ s e, s < index.slots → entryAt index.cells s = some e → e < l.length)
    (he : l[e]?.map Prod.fst = some key)
    (hfuel : ∃ d < fuel, entryAt index.cells ((slot + d) % index.slots) = some e ∧
      ∀ j < d, entryAt index.cells ((slot + j) % index.slots) ≠ none) :
    indexFindLoop intKey l index key fuel slot = some (some e) := by
  induction fuel generalizing slot with
  | zero =>
    obtain ⟨d, hd, -⟩ := hfuel
    exact absurd hd (Nat.not_lt_zero d)
  | succ fuel ih =>
    obtain ⟨d, hd, hat, hbefore⟩ := hfuel
    have hcur : index.cells slot ≠ 0 := by
      intro hcur
      have hnone : entryAt index.cells slot = none := if_pos hcur
      cases d with
      | zero =>
        rw [Nat.add_zero, Nat.mod_eq_of_lt hslot, hnone] at hat
        cases hat
      | succ d =>
        have := hbefore 0 (Nat.succ_pos d)
        rw [Nat.add_zero, Nat.mod_eq_of_lt hslot] at this
        exact this hnone
    have htaken : entryAt index.cells slot = some (index.cells slot - 1) := if_neg hcur
    have hlt := hbound slot _ hslot htaken
    rw [indexFindLoop]
    simp only [hcur, if_false, List.getElem?_eq_getElem hlt, bind_eq_bind, bind_some,
      keyEq_eq (hkind _ (List.getElem_mem hlt)) hkey, decide_eq_true_eq]
    by_cases hfst : l[index.cells slot - 1].1 = key
    · rw [if_pos hfst]
      have hscan : scan key l = some (index.cells slot - 1) := scan_of_getElem hdistinct (by
        rw [List.getElem?_eq_getElem hlt, map_some, hfst])
      rw [scan_of_getElem hdistinct he] at hscan
      rw [Option.some.inj hscan]
    · rw [if_neg hfst, next_eq hpow]
      cases d with
      | zero =>
        rw [Nat.add_zero, Nat.mod_eq_of_lt hslot, htaken] at hat
        cases hat
        rw [List.getElem?_eq_getElem hlt] at he
        exact absurd (Option.some.inj he) hfst
      | succ d =>
        refine ih (Nat.mod_lt _ (by omega)) ⟨d, by omega, ?_, fun j hj => ?_⟩
        · rwa [← after_next]
        · rw [← after_next]
          exact hbefore (j + 1) (by omega)

theorem indexFindLoop_missed {k fuel slot : Nat} (hpow : index.slots = 2 ^ k) (hslot : slot < index.slots)
    (hbound : ∀ s e, s < index.slots → entryAt index.cells s = some e → e < l.length) (hscan : scan key l = none)
    (hfuel : ∃ d < fuel, entryAt index.cells ((slot + d) % index.slots) = none) :
    indexFindLoop intKey l index key fuel slot = some none := by
  induction fuel generalizing slot with
  | zero =>
    obtain ⟨d, hd, -⟩ := hfuel
    exact absurd hd (Nat.not_lt_zero d)
  | succ fuel ih =>
    obtain ⟨d, hd, hempty⟩ := hfuel
    rw [indexFindLoop]
    by_cases hcur : index.cells slot = 0
    · exact if_pos hcur
    have htaken : entryAt index.cells slot = some (index.cells slot - 1) := if_neg hcur
    have hlt := hbound slot _ hslot htaken
    have hfst : l[index.cells slot - 1].1 ≠ key := by
      intro hfst
      refine scan_none hscan (i := index.cells slot - 1) ?_
      rw [List.getElem?_eq_getElem hlt, map_some, hfst]
    simp only [hcur, if_false, List.getElem?_eq_getElem hlt, bind_eq_bind, bind_some,
      keyEq_eq (hkind _ (List.getElem_mem hlt)) hkey, decide_eq_true_eq, hfst, next_eq hpow]
    cases d with
    | zero =>
      rw [Nat.add_zero, Nat.mod_eq_of_lt hslot, htaken] at hempty
      cases hempty
    | succ d =>
      refine ih (Nat.mod_lt _ (by omega)) ⟨d, by omega, ?_⟩
      rwa [← after_next]

/-- **A search through the index finds what a scan finds**, and ends. -/
theorem indexFind_eq (h : Indexed l l.length index) (hroom : l.length < index.slots)
    (hdistinct : (l.map Prod.fst).Nodup) : indexFind intKey l index key = some (scan key l) := by
  obtain ⟨k, hpow⟩ := h.pow
  have hhome : home index.slots key < index.slots := home_lt (by omega)
  have hbound : ∀ s e, s < index.slots → entryAt index.cells s = some e → e < l.length := h.probed.mem
  unfold indexFind
  cases hscan : scan key l with
  | none =>
    obtain ⟨s, hs, hempty⟩ := exists_empty h.probed.few hroom
    obtain ⟨d, hd, rfl⟩ := exists_offset hhome hs
    exact indexFindLoop_missed hkind hkey hpow hhome hbound hscan ⟨d, hd, hempty⟩
  | some e =>
    have he := scan_eq_some hscan
    obtain ⟨x, hx, hxkey⟩ := map_eq_some_iff.mp he
    have hhomeOf : homeOf l index.slots e = home index.slots key := by rw [homeOf_eq hx, hxkey]
    have hfound := h.probed.found (e := e) hroom (by rwa [hhomeOf]) (List.getElem?_eq_some_iff.mp hx).1
    rw [hhomeOf] at hfound
    exact indexFindLoop_found hkind hkey hpow hhome hdistinct hbound he hfound

end

/-! ## Maps -/

/-- **A map is sound**: its keys are distinct, of the kind its header says, and no more than it has room for; an
index holds all of them and is less than three quarters full. -/
structure Sound (m : RtMap) : Prop where
  distinct : (m.entries.map Prod.fst).Nodup
  kind : ∀ e ∈ m.entries, e.1.isInt = m.hdr.intKey
  room : 0 < m.hdr.capacity ∧ m.entries.length ≤ m.hdr.capacity
  index : ∀ index, m.hdr.index = some index → Indexed m.entries m.entries.length index ∧
    m.entries.length * 4 < index.slots * 3

theorem Sound.linearScan_eq (h : Sound m) (hkey : key.isInt = m.hdr.intKey) :
    m.linearScan key = scan key m.entries :=
  findIdx_eq_scan fun e he => keyEq_eq (h.kind e he) hkey

theorem Sound.scan_other (h : Sound m) (hkey : m.hdr.intKey ≠ key.isInt) : scan key m.entries = none := by
  refine List.findIdx?_eq_none_iff.mpr fun e he => decide_eq_false fun heq => hkey ?_
  rw [← h.kind e he, heq]

/-- **Whatever way an entry is looked for**, a scan for the key finds it. -/
theorem Sound.findEntry_eq (h : Sound m) (key : MapKey) : findEntry (some m) key = some (scan key m.entries) := by
  unfold findEntry
  by_cases hnone : m.entries.length = 0
  · obtain hnil := List.eq_nil_of_length_eq_zero hnone
    simp only [hnone, if_true]
    rw [hnil]
    rfl
  by_cases hkey : m.hdr.intKey ≠ key.isInt
  · simp [hnone, hkey, h.scan_other hkey]
  have hkey : key.isInt = m.hdr.intKey := (Decidable.of_not_not hkey).symm
  simp only [hnone, hkey, if_false, ne_eq, not_true_eq_false, h.linearScan_eq hkey]
  cases hindex : m.hdr.index with
  | none => rfl
  | some index =>
    obtain ⟨hindexed, hload⟩ := h.index index hindex
    show (if _ then _ else _) = _
    split
    · exact indexFind_eq h.kind hkey hindexed (by omega) h.distinct
    · rfl

theorem Sound.get_eq (h : Sound m) (key : MapKey) : get (some m) key = some ((m.entries.lookup key).getD 0) := by
  simp only [get, h.findEntry_eq, lookup_eq_scan, bind_eq_bind, bind_some]
  cases hscan : scan key m.entries with
  | none => rfl
  | some e =>
    obtain ⟨x, hx, -⟩ := map_eq_some_iff.mp (scan_eq_some hscan)
    show m.entries[e]?.map Prod.snd = some ((m.entries[e]?.map Prod.snd).getD 0)
    rw [hx]
    rfl

theorem Sound.contains_eq (h : Sound m) (key : MapKey) :
    contains (some m) key = some (m.entries.lookup key).isSome := by
  simp only [contains, h.findEntry_eq, lookup_eq_scan, bind_eq_bind, bind_some]
  cases hscan : scan key m.entries with
  | none => rfl
  | some e =>
    obtain ⟨x, hx, -⟩ := map_eq_some_iff.mp (scan_eq_some hscan)
    show some true = some (m.entries[e]?.map Prod.snd).isSome
    rw [hx]
    rfl

/-! ## Insertion -/

theorem Sound.create : Sound RtMap.create where
  distinct := List.nodup_nil
  kind _ he := nomatch he
  room := by decide
  index _ h := nomatch h

/-- An index of the entries is one of them and a new one, but for that. -/
theorem Indexed.append (h : Indexed l l.length index) (x : MapKey × Int) : Indexed (l ++ [x]) l.length index where
  pow := h.pow
  bound := by
    rw [List.length_append]
    omega
  probed := h.probed.congr_home fun e (he : e < l.length) => by
    rw [homeOf, homeOf, List.getElem?_append_left he]

theorem Indexed.modify (h : Indexed l l.length index) (i : Nat) :
    Indexed (l.modify i fun e => (e.1, val)) (l.modify i fun e => (e.1, val)).length index where
  pow := h.pow
  bound := Nat.le_refl _
  probed := by
    rw [List.length_modify]
    refine h.probed.congr_home fun e _ => ?_
    rw [homeOf, homeOf, List.getElem?_modify]
    cases l[e]? with
    | none => rfl
    | some x =>
      by_cases hie : i = e
      · simp [hie]
      · simp [hie]

theorem indexPut_append (h : Indexed l l.length index) (x : MapKey × Int)
    (hload : (l.length + 1) * 4 < index.slots * 3) :
    ∃ index', indexPut (l ++ [x]) index l.length = some index' ∧
      Indexed (l ++ [x]) (l ++ [x]).length index' ∧ (l ++ [x]).length * 4 < index'.slots * 3 := by
  obtain ⟨index', hput, hslots, hindexed⟩ := indexPut_indexed (h.append x)
    (by rw [List.length_append, List.length_singleton]; omega) (by omega)
  rw [List.length_append, List.length_singleton]
  exact ⟨index', hput, hindexed, by omega⟩

/-- What is the same of a map and its header however a new entry is stored. -/
theorem Sound.snoc (h : Sound m) (hkey : key.isInt = m.hdr.intKey) (hscan : scan key m.entries = none)
    {hdr : MapHeader} (hint : hdr.intKey = m.hdr.intKey) (hroom : m.entries.length < hdr.capacity)
    (hindex : ∀ index, hdr.index = some index →
      Indexed (m.entries ++ [(key, val)]) (m.entries ++ [(key, val)]).length index ∧
        (m.entries ++ [(key, val)]).length * 4 < index.slots * 3) :
    Sound { hdr := hdr, entries := m.entries ++ [(key, val)] } where
  distinct := by
    rw [← upsert_of_scan_none hscan]
    exact nodup_upsert h.distinct
  kind e he := by
    rw [hint]
    obtain he | he := List.mem_append.mp he
    · exact h.kind e he
    · rw [List.mem_singleton.mp he]
      exact hkey
  room := by
    show 0 < hdr.capacity ∧ (m.entries ++ [(key, val)]).length ≤ hdr.capacity
    rw [List.length_append, List.length_singleton]
    omega
  index := hindex

theorem Sound.insertEntry (h : Sound m) (hkey : key.isInt = m.hdr.intKey) (hscan : scan key m.entries = none)
    (hroom : m.entries.length < m.hdr.capacity) :
    ∃ m', m.insertEntry key val = some m' ∧ m'.entries = m.entries ++ [(key, val)] ∧ Sound m' := by
  have hsnoc : ∀ index : Option MapIndex, (∀ ix, index = some ix →
      Indexed (m.entries ++ [(key, val)]) (m.entries ++ [(key, val)]).length ix ∧
        (m.entries ++ [(key, val)]).length * 4 < ix.slots * 3) →
      Sound { hdr := { m.hdr with index := index }, entries := m.entries ++ [(key, val)] } :=
    fun index hindex => h.snoc hkey hscan rfl hroom hindex
  have hdrop := hsnoc none fun _ hn => nomatch hn
  obtain ⟨built, hbuild, hbuilt⟩ := indexBuild_indexed (m.entries ++ [(key, val)])
  have hbuilt := hsnoc (some built) fun ix hix => Option.some.inj hix ▸ hbuilt
  unfold RtMap.insertEntry
  cases hindex : m.hdr.index with
  | none =>
    by_cases hmin : indexMin ≤ m.entries.length + 1
    · simp only [hmin, if_true, hbuild, map_some, bind_eq_bind, bind_some]
      exact ⟨_, rfl, rfl, hbuilt⟩
    · simp only [hmin, if_false, bind_eq_bind, bind_some]
      exact ⟨_, rfl, rfl, hdrop⟩
  | some index =>
    obtain ⟨hindexed, hload⟩ := h.index index hindex
    have hslots : index.slots ≠ 0 := by omega
    by_cases hnext : (m.entries.length + 1) * 4 < index.slots * 3
    · obtain ⟨index', hput, hindexed'⟩ := indexPut_append hindexed (key, val) hnext
      simp only [hslots, ne_eq, not_false_eq_true, if_true, hnext, hput, map_some, bind_eq_bind,
        bind_some]
      exact ⟨_, rfl, rfl, hsnoc (some index') fun ix hix => Option.some.inj hix ▸ hindexed'⟩
    · simp only [hslots, ne_eq, not_false_eq_true, if_true, hnext, if_false, bind_eq_bind,
        bind_some]
      exact ⟨_, rfl, rfl, hdrop⟩

theorem Sound.growEntry (h : Sound m) (hkey : key.isInt = m.hdr.intKey) (hscan : scan key m.entries = none) :
    Sound (m.growEntry key val) := by
  have hroom := h.room
  exact h.snoc hkey hscan rfl (by show m.entries.length < m.hdr.capacity * 2; omega) fun _ hn => nomatch hn

theorem Sound.modify (h : Sound m) {i : Nat} (hscan : scan key m.entries = some i) :
    Sound { m with entries := m.entries.modify i fun e => (e.1, val) } where
  distinct := by
    rw [← upsert_of_scan_some hscan]
    exact nodup_upsert h.distinct
  kind e he := by
    obtain ⟨j, hj⟩ := List.getElem?_of_mem he
    rw [List.getElem?_modify] at hj
    obtain ⟨x, hx, hxe⟩ := map_eq_some_iff.mp hj
    have hfst : e.1 = x.1 := by
      rw [← hxe]
      split <;> rfl
    rw [hfst]
    exact h.kind x (List.mem_of_getElem? hx)
  room := by
    rw [List.length_modify]
    exact h.room
  index index hindex := by
    obtain ⟨hindexed, hload⟩ := h.index index hindex
    refine ⟨hindexed.modify i, ?_⟩
    rw [List.length_modify]
    exact hload

/-- **An insertion** is one into the finite map. -/
theorem Sound.insert (h : Sound m) (key : MapKey) (val : Int) :
    ∃ m', insertImpl (some m) key val = some m' ∧ m'.entries = specInsert key val m.entries ∧ Sound m' := by
  unfold insertImpl specInsert
  by_cases hother : 0 < m.entries.length ∧ m.hdr.intKey ≠ key.isInt
  · have hany : (m.entries.any fun e => e.1.isInt != key.isInt) = true := by
      obtain ⟨e, he⟩ := List.exists_mem_of_length_pos hother.1
      refine List.any_eq_true.mpr ⟨e, he, bne_iff_ne.mpr ?_⟩
      rw [h.kind e he]
      exact hother.2
    simp only [hother, and_self, if_true, hany, ne_eq, not_false_eq_true]
    exact ⟨m, rfl, rfl, h⟩
  simp only [hother, if_false]
  -- the kind that the header says from here on
  obtain ⟨m₁, hm₁, hentries, h₁, hkey⟩ : ∃ m₁, (if m.entries.length = 0 then
      { m with hdr := { m.hdr with intKey := key.isInt } } else m) = m₁ ∧ m₁.entries = m.entries ∧ Sound m₁ ∧
      key.isInt = m₁.hdr.intKey := by
    by_cases hnone : m.entries.length = 0
    · refine ⟨_, if_pos hnone, rfl, ⟨h.distinct, fun e he => ?_, h.room, h.index⟩, rfl⟩
      have hnil := List.eq_nil_of_length_eq_zero hnone
      have he' : e ∈ m.entries := he
      rw [hnil] at he'
      cases he'
    · refine ⟨m, if_neg hnone, rfl, h, ?_⟩
      by_contra hne
      exact hother ⟨by omega, fun heq => hne heq.symm⟩
  rw [hm₁, ← hentries, h₁.linearScan_eq hkey]
  have hany : ¬(m₁.entries.any fun e => e.1.isInt != key.isInt) = true := by
    intro hany
    obtain ⟨e, he, hne⟩ := List.any_eq_true.mp hany
    exact bne_iff_ne.mp hne ((h₁.kind e he).trans hkey.symm)
  rw [if_neg hany]
  cases hscan : scan key m₁.entries with
  | some i => exact ⟨_, rfl, (upsert_of_scan_some hscan).symm, h₁.modify hscan⟩
  | none =>
    rw [upsert_of_scan_none hscan]
    by_cases hroom : m₁.entries.length < m₁.hdr.capacity
    · simp only [hroom, if_true]
      exact h₁.insertEntry hkey hscan hroom
    · simp only [hroom, if_false]
      exact ⟨_, rfl, rfl, h₁.growEntry hkey hscan⟩

theorem insert_none (key : MapKey) (val : Int) :
    ∃ m', insertImpl none key val = some m' ∧ m'.entries = specInsert key val [] ∧ Sound m' := by
  refine ⟨_, rfl, rfl, ⟨List.pairwise_singleton _ key, fun e he => ?_,
    ⟨Nat.succ_pos 7, Nat.succ_le_succ (Nat.zero_le 7)⟩, fun _ hn => nomatch hn⟩⟩
  rw [List.mem_singleton.mp he]

theorem createI64_sound (pairs : List (BitVec 64 × Int)) : ∃ m', createI64 pairs = some m' ∧
    m'.entries = pairs.foldl (fun l p => specInsert (.int p.1) p.2 l) [] ∧ Sound m' := by
  have hrun : ∀ (pairs : List (BitVec 64 × Int)) (m : RtMap), Sound m → ∃ m',
      pairs.foldlM (fun m p => insertImpl (some m) (.int p.1) p.2) m = some m' ∧
        m'.entries = pairs.foldl (fun l p => specInsert (.int p.1) p.2 l) m.entries ∧ Sound m' := by
    intro pairs
    induction pairs with
    | nil => exact fun m h => ⟨m, rfl, rfl, h⟩
    | cons p pairs ih =>
      intro m h
      obtain ⟨m₁, hinsert, hentries, h₁⟩ := h.insert (.int p.1) p.2
      obtain ⟨m₂, hrest, hentries', h₂⟩ := ih m₁ h₁
      refine ⟨m₂, ?_, ?_, h₂⟩
      · rw [List.foldlM_cons, hinsert]
        exact hrest
      · rw [hentries', hentries, List.foldl_cons]
  exact hrun pairs RtMap.create Sound.create

theorem foldl_specInsert {pairs : List (CStr × Int)} (h : (pairs.map Prod.fst).Nodup)
    (hkind : ∀ e ∈ l, e.1.isInt = false) (hnew : ∀ p ∈ pairs, MapKey.str p.1 ∉ l.map Prod.fst) :
    pairs.foldl (fun l p => specInsert (.str p.1) p.2 l) l = l ++ pairs.map fun p => (.str p.1, p.2) := by
  induction pairs generalizing l with
  | nil => exact (List.append_nil l).symm
  | cons p pairs ih =>
    have hany : ¬(l.any fun e => e.1.isInt != (MapKey.str p.1).isInt) = true := by
      intro hany
      obtain ⟨e, he, hne⟩ := List.any_eq_true.mp hany
      exact bne_iff_ne.mp hne (hkind e he)
    have hscan : scan (.str p.1) l = none := by
      refine List.findIdx?_eq_none_iff.mpr fun e he => decide_eq_false fun heq => ?_
      exact hnew p List.mem_cons_self (List.mem_map.mpr ⟨e, he, heq⟩)
    rw [List.map_cons, List.nodup_cons] at h
    rw [List.foldl_cons, specInsert, if_neg hany, upsert_of_scan_none hscan, ih h.2, List.append_assoc]
    · rfl
    · intro e he
      obtain he | he := List.mem_append.mp he
      · exact hkind e he
      · rw [List.mem_singleton.mp he]
        rfl
    · intro q hq hmem
      rw [List.map_append] at hmem
      obtain hmem | hmem := List.mem_append.mp hmem
      · exact hnew q (List.mem_cons_of_mem _ hq) hmem
      · have heq : q.1 = p.1 := MapKey.str.inj (List.mem_singleton.mp hmem)
        exact h.1 (heq ▸ List.mem_map_of_mem hq)

/-- A literal of strings with distinct keys. -/
theorem createFrom_sound {pairs : List (CStr × Int)} (h : (pairs.map Prod.fst).Nodup) :
    (createFrom pairs).entries = pairs.foldl (fun l p => specInsert (.str p.1) p.2 l) [] ∧
      Sound (createFrom pairs) := by
  refine ⟨?_, ⟨?_, fun e he => ?_, ?_, fun _ hn => nomatch hn⟩⟩
  · rw [foldl_specInsert h (fun _ he => absurd he List.not_mem_nil)
      (fun _ _ hmem => List.not_mem_nil hmem)]
    rfl
  · show ((pairs.map fun p => (MapKey.str p.1, p.2)).map Prod.fst).Nodup
    have hmap : (pairs.map fun p => (MapKey.str p.1, p.2)).map Prod.fst = (pairs.map Prod.fst).map MapKey.str := by
      rw [List.map_map, List.map_map]
      rfl
    rw [hmap]
    exact h.map fun _ _ hab => MapKey.str.inj hab
  · obtain ⟨p, -, rfl⟩ := List.mem_map.mp he
    rfl
  · show 0 < max 8 pairs.length ∧ (pairs.map _).length ≤ max 8 pairs.length
    rw [List.length_map]
    omega

/-! ## Programs -/

variable {s s' : Program RtMap} {a : Program Entries} {op : Op} {ops : List Op} {x : Nat}

/-- A map of a program is sound and has the entries of the finite map. -/
def Holds (m : MapHandle) (l : Option Entries) : Prop :=
  m = none ∧ l = none ∨ ∃ m', m = some m' ∧ l = some m'.entries ∧ Sound m'

/-- Each map of a program is its finite map, and the calls have returned the same. -/
structure Refines (s : Program RtMap) (a : Program Entries) : Prop where
  returned : s.returned = a.returned
  maps : ∀ x, Holds (s.maps x) (a.maps x)

theorem Refines.put {m : RtMap} {l : Entries} (h : Refines s a) (hl : m.entries = l) (hm : Sound m) :
    Refines (s.put x (some m)) (a.put x (some l)) := by
  refine ⟨h.returned, fun y => ?_⟩
  unfold Program.put
  by_cases hy : y = x
  · simp only [hy, if_true]
    exact .inr ⟨m, rfl, congrArg some hl.symm, hm⟩
  · simp only [hy, if_false]
    exact h.maps y

theorem Refines.return (h : Refines s a) (v : Answer) : Refines (s.return v) (a.return v) :=
  ⟨congrArg (· ++ [v]) h.returned, h.maps⟩

/-- **One call** does on the maps what it is on finite maps. -/
theorem step_refines (h : Refines s a) (hop : Distinct op s) :
    ∃ s', step op s = some s' ∧ Refines s' (specStep op a) := by
  cases op with
  | create x => exact ⟨_, rfl, h.put rfl Sound.create⟩
  | createFrom x pairs =>
    obtain ⟨hentries, hsound⟩ := createFrom_sound hop
    exact ⟨_, rfl, h.put hentries hsound⟩
  | createI64 x pairs =>
    obtain ⟨m, hm, hentries, hsound⟩ := createI64_sound pairs
    simp only [step, hm, bind_eq_bind, bind_some]
    exact ⟨_, rfl, h.put hentries hsound⟩
  | insert x key val =>
    obtain ⟨hs, ha⟩ | ⟨m, hs, ha, hm⟩ := h.maps x
    · obtain ⟨m', hm', hentries, hsound⟩ := insert_none key val
      simp only [step, specStep, hs, ha, hm', bind_eq_bind, bind_some]
      exact ⟨_, rfl, h.put hentries hsound⟩
    · obtain ⟨m', hm', hentries, hsound⟩ := hm.insert key val
      simp only [step, specStep, hs, ha, hm', bind_eq_bind, bind_some]
      exact ⟨_, rfl, h.put hentries hsound⟩
  | get x key =>
    obtain ⟨hs, ha⟩ | ⟨m, hs, ha, hm⟩ := h.maps x
    · simp only [step, specStep, hs, ha, get, bind_eq_bind, bind_some]
      exact ⟨_, rfl, h.return (.value 0)⟩
    · simp only [step, specStep, hs, ha, hm.get_eq, bind_eq_bind, bind_some]
      exact ⟨_, rfl, h.return _⟩
  | contains x key =>
    obtain ⟨hs, ha⟩ | ⟨m, hs, ha, hm⟩ := h.maps x
    · simp only [step, specStep, hs, ha, contains, findEntry, bind_eq_bind, bind_some]
      exact ⟨_, rfl, h.return (.found false)⟩
    · simp only [step, specStep, hs, ha, hm.contains_eq, bind_eq_bind, bind_some]
      exact ⟨_, rfl, h.return _⟩
  | keys x =>
    refine ⟨_, rfl, ?_⟩
    obtain ⟨hs, ha⟩ | ⟨m, hs, ha, hm⟩ := h.maps x
    · simp only [specStep, hs, ha]
      exact h.return (.keys [])
    · simp only [specStep, hs, ha]
      exact h.return _
  | len x =>
    refine ⟨_, rfl, ?_⟩
    obtain ⟨hs, ha⟩ | ⟨m, hs, ha, hm⟩ := h.maps x
    · simp only [specStep, hs, ha]
      exact h.return (.len 0)
    · simp only [specStep, hs, ha]
      exact h.return _

/-- **A run of calls** from programs that agree. -/
theorem run_refines (h : Refines s a) (hops : Meets step Distinct ops s) :
    ∃ s', runEvents step ops s = some s' ∧ Refines s' (ops.foldl (fun a op => specStep op a) a) := by
  induction ops generalizing s a with
  | nil => exact ⟨s, rfl, h⟩
  | cons op ops ih =>
    obtain ⟨s', hs', href⟩ := step_refines h hops.1
    obtain ⟨t, ht, hrun⟩ := ih href (hops.2 s' hs')
    exact ⟨t, runEvents_cons hs' ht, hrun⟩

/-- What is expected of a run: every call ends, each map has the entries of the finite map and answers as it does,
its keys are distinct, and a search through an index of it finds what a scan does, in a table of a power of two
that is less than three quarters full. -/
def Exact (ops : List Op) : Prop :=
  ∃ s', runEvents step ops {} = some s' ∧
    (let a := ops.foldl (fun a op => specStep op a) {}
     s'.returned = a.returned ∧ ∀ x, (s'.maps x).map entries = a.maps x) ∧
    ∀ x m, s'.maps x = some m → (m.entries.map Prod.fst).Nodup ∧
      ∀ index, m.hdr.index = some index →
        ((∃ k, index.slots = 2 ^ k) ∧ m.entries.length * 4 < index.slots * 3) ∧
        ∀ key, key.isInt = m.hdr.intKey →
          indexFind m.hdr.intKey m.entries index key = some (m.linearScan key)

/-- **The hash map refines a finite map**, in every run whose literals have distinct keys. -/
theorem maps_refine (hops : Meets step Distinct ops {}) : Exact ops := by
  obtain ⟨s', hs', href⟩ := run_refines (a := {}) ⟨rfl, fun _ => .inl ⟨rfl, rfl⟩⟩ hops
  refine ⟨s', hs', ⟨href.returned, fun x => ?_⟩, fun x m hm => ?_⟩
  · obtain ⟨hs, ha⟩ | ⟨m, hs, ha, -⟩ := href.maps x
    · rw [hs, ha]
      rfl
    · rw [hs, ha]
      rfl
  · obtain ⟨hs, -⟩ | ⟨m', hs, -, hsound⟩ := href.maps x
    · rw [hs] at hm
      cases hm
    · rw [hs] at hm
      cases hm
      refine ⟨hsound.distinct, fun index hindex => ?_⟩
      obtain ⟨hindexed, hload⟩ := hsound.index index hindex
      refine ⟨⟨hindexed.pow, hload⟩, fun key hkey => ?_⟩
      rw [hsound.linearScan_eq hkey]
      exact indexFind_eq hsound.kind hkey hindexed (by omega) hsound.distinct

/-- `"a"`. -/
def keyA : CStr := ⟨[97], by decide⟩

theorem maps_refine_sample : Exact [.createFrom 0 [(keyA, 1)], .insert 0 (.str keyA) 2, .get 0 (.str keyA)] :=
  maps_refine ⟨List.pairwise_singleton _ keyA, fun _ _ => ⟨trivial, fun _ _ => ⟨trivial, fun _ _ => trivial⟩⟩⟩

/-- A literal that repeats a key keeps both entries, and the first value is found. -/
theorem maps_not_refine : ¬∀ ops, Exact ops := by
  intro h
  obtain ⟨s', hs', ⟨hreturned, -⟩, -⟩ := h [.createFrom 0 [(keyA, 1), (keyA, 2)], .get 0 (.str keyA)]
  cases hs'
  have hfirst : [Answer.value 1] = [Answer.value 2] := hreturned
  cases hfirst

end RtMap

end Datara.Runtime
