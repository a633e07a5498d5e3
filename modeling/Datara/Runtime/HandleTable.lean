import Datara.Library.Runs
import Mathlib.Algebra.Group.Nat.Defs
import Mathlib.Data.List.Nodup
import Mathlib.Data.List.Perm.Basic

/-!
# The table of foreign handles

`datara_rt_handle_alloc`, `_get`, `_free` and `_shutdown` of `runtime/datara_value.c`. A handle is the number of a slot
of a table that grows; slots are taken first-fit. A slot counts its uses in a generation, but neither the handle nor
the lookups carry it. A pointer is a number, `NULL` is 0, and an operation runs as a whole under the lock.
-/

namespace Datara.Runtime.HandleTable

open Library

/-- `DataraHandleEntry`. A destructor is known by what `δ` calls it. -/
structure Entry (δ : Type) where
  ptr : Nat := 0
  typeTag : Option String := none
  destructor : Option δ := none
  generation : Nat := 0
  inUse : Bool := false
  deriving DecidableEq

/-- `g_handles`, empty for `NULL`, and `g_handles_count`; the capacity is the length of the table. -/
structure Handles (δ : Type) where
  table : List (Entry δ) := []
  count : Nat := 0

section
variable {δ : Type}

/-- An entry as `calloc` and `memset` leave it. -/
def Entry.zero : Entry δ := {}

/-- The slot an allocation takes, in the table it leaves for it. `mem` is whether `calloc` or `realloc` has the memory. -/
def takeSlot (mem : Bool) (h : Handles δ) : Option (Nat × List (Entry δ)) :=
  if h.table = [] ∧ mem = false then none
  else
    let table := if h.table = [] then List.replicate 64 .zero else h.table
    match (table.drop 1).findIdx? fun e => !e.inUse with
    | some i => some (i + 1, table)
    | none => if mem then some (table.length, table ++ List.replicate table.length .zero) else none

/-- What an allocation stores in its slot. -/
def Entry.fill (e : Entry δ) (ptr : Nat) (tag : Option String) (destructor : Option δ) : Entry δ where
  ptr := ptr
  typeTag := some (tag.getD "foreign")
  destructor := destructor
  generation := (e.generation + 1) % 2 ^ 32
  inUse := true

/-- `datara_rt_handle_alloc`: the handle, which is 0 when there is no memory. -/
def handleAlloc (mem : Bool) (ptr : Nat) (tag : Option String) (destructor : Option δ) (h : Handles δ) :
    Nat × Handles δ :=
  match takeSlot mem h with
  | none => (0, h)
  | some (i, table) =>
    (i % 2 ^ 32, { table := table.modify i (·.fill ptr tag destructor), count := h.count + 1 })

/-- The entry of a handle, if its slot is in use. -/
def lookup (id : Nat) (h : Handles δ) : Option (Entry δ) :=
  if id = 0 then none else h.table[id]?.filter (·.inUse)

/-- `datara_rt_handle_get`. -/
def handleGet (id : Nat) (h : Handles δ) : Nat := ((lookup id h).map (·.ptr)).getD 0

/-- `datara_rt_handle_tag`. -/
def handleTag (id : Nat) (h : Handles δ) : Option String := (lookup id h).bind (·.typeTag)

/-- `if (dtor && ptr) dtor(ptr)`. -/
def destroys (destructor : Option δ) (ptr : Nat) : List (δ × Nat) :=
  match destructor with
  | some d => if ptr = 0 then [] else [(d, ptr)]
  | none => []

/-- The destructor calls a live entry is still owed. -/
def Entry.calls (e : Entry δ) : List (δ × Nat) := if e.inUse then destroys e.destructor e.ptr else []

/-- `datara_rt_handle_free`: what it returns, and the destructor calls. -/
def handleFree (id : Nat) (h : Handles δ) : Nat × List (δ × Nat) × Handles δ :=
  match lookup id h with
  | none => (0, [], h)
  | some e => (1, destroys e.destructor e.ptr,
      { table := h.table.set id { generation := e.generation }, count := h.count - 1 })

/-- `datara_rt_handle_shutdown`. -/
def handleShutdown (h : Handles δ) : List (δ × Nat) × Handles δ :=
  ((h.table.drop 1).flatMap Entry.calls, {})

/-! ## Runs -/

inductive Op (δ : Type)
  | alloc (mem : Bool) (ptr : Nat) (tag : Option String) (destructor : Option δ)
  | get (id : Nat)
  | free (id : Nat)

/-- An object that was given a handle, and whether that handle has been freed since. -/
structure Record (δ : Type) where
  id : Nat
  ptr : Nat
  destructor : Option δ
  freed : Bool := false

/-- The table, the destructor calls and the objects so far. -/
structure World (δ : Type) where
  handles : Handles δ := {}
  calls : List (δ × Nat) := []
  records : List (Record δ) := []

/-- Freeing a handle is the end of the objects that have it. -/
def Record.markFreed (id : Nat) (r : Record δ) : Record δ := { r with freed := r.freed || r.id == id }

def step : Op δ → World δ → Option (World δ)
  | .alloc mem ptr tag destructor, w =>
    let (id, handles) := handleAlloc mem ptr tag destructor w.handles
    let given := if (takeSlot mem w.handles).isSome then [{ id := id, ptr := ptr, destructor := destructor }] else []
    some { w with handles := handles, records := w.records ++ given }
  | .get _, w => some w
  | .free id, w =>
    let (_, calls, handles) := handleFree id w.handles
    some { handles := handles, calls := w.calls ++ calls, records := w.records.map (·.markFreed id) }

/-- The slot an allocation takes has a number that a handle can hold, and it has not held an object before, unless the
pointer that goes there is `NULL`. -/
def TakesFresh : Op δ → World δ → Prop
  | .alloc mem ptr _ _, w => ∀ i table, takeSlot mem w.handles = some (i, table) →
      i < 2 ^ 32 ∧ (ptr = 0 ∨ ∀ r ∈ w.records, r.id ≠ i)
  | _, _ => True

/-- The objects whose handle has not been freed. -/
def World.live (w : World δ) : List (Record δ) := w.records.filter fun r => !r.freed

def Record.destroys (r : Record δ) : List (δ × Nat) := HandleTable.destroys r.destructor r.ptr

/-- Handles do not alias: one resolves to its own object until it is freed and to `NULL` ever after, those of objects
that live are different and none is the null handle; each object whose handle was freed was destroyed once, and a
shutdown destroys each of the others once; the count is that of the objects that live. -/
structure Faithful (w : World δ) : Prop where
  resolves : ∀ r ∈ w.records, handleGet r.id w.handles = if r.freed then 0 else r.ptr
  distinct : (w.live.map (·.id)).Nodup
  notNull : ∀ r ∈ w.live, r.id ≠ 0
  destroyed : w.calls.Perm ((w.records.filter (·.freed)).flatMap Record.destroys)
  shutdown : (w.calls ++ (handleShutdown w.handles).1).Perm (w.records.flatMap Record.destroys)
  count : w.handles.count = w.live.length

/-! ## The slot that is taken -/

/-- The destructor calls of a shutdown. -/
def outstanding (table : List (Entry δ)) : List (δ × Nat) :=
  (table.drop 1).flatMap Entry.calls

variable {mem : Bool} {h : Handles δ} {i k id : Nat} {table : List (Entry δ)} {e e' : Entry δ} {w w' : World δ}

theorem outstanding_append {n : Nat} (hne : table ≠ []) :
    outstanding (table ++ List.replicate n .zero) = outstanding table := by
  obtain ⟨e, es, rfl⟩ := List.exists_cons_of_ne_nil hne
  simp only [outstanding, List.cons_append, List.drop_one, List.tail_cons, List.flatMap_append]
  rw [List.append_right_eq_self, List.flatMap_eq_nil_iff]
  intro x hx
  obtain rfl := List.eq_of_mem_replicate hx
  rfl

/-- What an allocation finds: a slot that is not in use, past slots that all are, in the old table or an extension of
it by slots that are not in use. -/
structure Taken (h : Handles δ) (i : Nat) (table : List (Entry δ)) : Prop where
  pos : 0 < i
  free : ∃ e, table[i]? = some e ∧ e.inUse = false
  before : ∀ k : Nat, 0 < k → k < i → ∃ e, h.table[k]? = some e ∧ e.inUse = true
  kept : ∀ (k : Nat) (e : Entry δ), h.table[k]? = some e → table[k]? = some e
  added : ∀ (k : Nat) (e : Entry δ), table[k]? = some e → e.inUse = true → h.table[k]? = some e
  same : outstanding table = outstanding h.table

theorem taken_of_findIdx (hfind : (h.table.drop 1).findIdx? (fun e => !e.inUse) = some i) :
    Taken h (i + 1) h.table := by
  obtain ⟨hlt, hfree, hbefore⟩ := List.findIdx?_eq_some_iff_getElem.mp hfind
  rw [List.length_drop] at hlt
  simp only [List.getElem_drop, Bool.not_eq_true', Nat.add_comm 1] at hfree hbefore
  refine ⟨Nat.succ_pos i, ⟨_, List.getElem?_eq_getElem (by omega), hfree⟩, ?_, fun _ _ hk => hk,
    fun _ _ hk _ => hk, rfl⟩
  intro k hpos hki
  obtain ⟨k, rfl⟩ := Nat.exists_eq_succ_of_ne_zero (Nat.ne_of_gt hpos)
  refine ⟨_, List.getElem?_eq_getElem (by omega), ?_⟩
  simpa using hbefore k (by omega)

theorem taken_of_takeSlot (htake : takeSlot mem h = some (i, table)) : Taken h i table := by
  unfold takeSlot at htake
  by_cases hempty : h.table = []
  · obtain ⟨hmem, htake⟩ := Option.ite_none_left_eq_some.mp htake
    have hfind : ((List.replicate 64 (Entry.zero : Entry δ)).drop 1).findIdx? (fun e => !e.inUse) = some 0 := rfl
    simp only [hempty, if_true, hfind] at htake
    cases htake
    refine ⟨Nat.one_pos, ⟨.zero, rfl, rfl⟩, by omega, ?_, ?_, ?_⟩
    · simp [hempty]
    · intro k e hk huse
      obtain rfl := List.eq_of_mem_replicate (List.mem_of_getElem? hk)
      cases huse
    · rw [hempty]
      rfl
  · simp only [hempty, false_and, if_false] at htake
    cases hfind : (h.table.drop 1).findIdx? fun e => !e.inUse with
    | some k =>
      rw [hfind] at htake
      cases htake
      exact taken_of_findIdx hfind
    | none =>
      rw [hfind] at htake
      obtain ⟨-, htake⟩ := Option.ite_none_right_eq_some.mp htake
      cases htake
      have hall := List.findIdx?_eq_none_iff.mp hfind
      have hlen : 0 < h.table.length := List.length_pos_iff.mpr hempty
      refine ⟨hlen, ⟨.zero, ?_, rfl⟩, ?_, ?_, ?_, outstanding_append hempty⟩
      · rw [List.getElem?_append_right (Nat.le_refl _), Nat.sub_self, List.getElem?_replicate, if_pos hlen]
      · intro k hpos hlt
        refine ⟨_, List.getElem?_eq_getElem hlt, ?_⟩
        have hmem : h.table[k] ∈ h.table.drop 1 := by
          apply List.mem_of_getElem? (i := k - 1)
          rw [List.getElem?_drop, Nat.add_sub_cancel' hpos, List.getElem?_eq_getElem hlt]
        simpa using hall _ hmem
      · intro k e hk
        rw [List.getElem?_append_left (List.getElem?_eq_some_iff.mp hk).1, hk]
      · intro k e hk huse
        rcases Nat.lt_or_ge k h.table.length with hlt | hge
        · rwa [List.getElem?_append_left hlt] at hk
        · rw [List.getElem?_append_right hge] at hk
          obtain rfl := List.eq_of_mem_replicate (List.mem_of_getElem? hk)
          cases huse

theorem outstanding_split {a c : List (Entry δ)} (ha : a ≠ []) :
    outstanding (a ++ e :: c) = outstanding a ++ (e.calls ++ c.flatMap Entry.calls) := by
  obtain ⟨x, a, rfl⟩ := List.exists_cons_of_ne_nil ha
  simp [outstanding]

theorem modify_append_cons {f : Entry δ → Entry δ} {a c : List (Entry δ)} :
    (a ++ e :: c).modify a.length f = a ++ f e :: c := by
  induction a with
  | nil => rfl
  | cons x a ih => exact congrArg (x :: ·) ih

theorem exists_split (hk : table[k]? = some e) : ∃ a c, table = a ++ e :: c ∧ a.length = k := by
  obtain ⟨hlt, rfl⟩ := List.getElem?_eq_some_iff.mp hk
  exact ⟨table.take k, table.drop (k + 1), by simp, List.length_take_of_le (Nat.le_of_lt hlt)⟩

theorem Taken.filter_eq (hT : Taken h i table) : table[k]?.filter (·.inUse) = h.table[k]?.filter (·.inUse) := by
  cases hold : h.table[k]? with
  | some e => rw [hT.kept k e hold]
  | none =>
    cases hnew : table[k]? with
    | none => rfl
    | some e =>
      have huse : e.inUse = false := by
        by_contra huse
        rw [hT.added k e hnew (by simpa using huse)] at hold
        cases hold
      simp [huse]

section
variable {ptr n : Nat} {tag : Option String} {destructor : Option δ}

theorem lookup_fill_self (ptr : Nat) (tag : Option String) (destructor : Option δ) (hT : Taken h i table) :
    ∃ e : Entry δ, lookup i { table := table.modify i (·.fill ptr tag destructor), count := n } =
      some (e.fill ptr tag destructor) := by
  obtain ⟨e, hi, -⟩ := hT.free
  refine ⟨e, ?_⟩
  rw [lookup, if_neg (Nat.ne_of_gt hT.pos), List.getElem?_modify_eq, hi]
  rfl

theorem lookup_fill_ne (hT : Taken h i table) (hne : id ≠ i) :
    lookup id { table := table.modify i (·.fill ptr tag destructor), count := n } = lookup id h := by
  rw [lookup, lookup, List.getElem?_modify_ne _ _ (Ne.symm hne), hT.filter_eq]

theorem outstanding_fill (hT : Taken h i table) :
    (outstanding (table.modify i (·.fill ptr tag destructor))).Perm
      (outstanding h.table ++ destroys destructor ptr) := by
  obtain ⟨e, hi, hfree⟩ := hT.free
  obtain ⟨a, c, rfl, rfl⟩ := exists_split hi
  have ha : a ≠ [] := List.length_pos_iff.mp hT.pos
  have hfill : (a ++ e :: c).modify a.length (·.fill ptr tag destructor) = a ++ e.fill ptr tag destructor :: c :=
    modify_append_cons
  have hcalls : (e.fill ptr tag destructor).calls = destroys destructor ptr := rfl
  have hnone : e.calls = [] := by simp [Entry.calls, hfree]
  rw [hfill, outstanding_split ha, ← hT.same, outstanding_split ha, hcalls, hnone, List.nil_append, List.append_assoc]
  exact (List.perm_append_comm).append_left _

end

/-! ## What every run keeps -/

/-- What holds as long as each allocation takes a fresh slot. -/
structure Inv (w : World δ) : Prop where
  held : ∀ r ∈ w.live, ∃ e, lookup r.id w.handles = some e ∧ e.ptr = r.ptr ∧ e.destructor = r.destructor
  gone : ∀ r ∈ w.records, r.freed = true → handleGet r.id w.handles = 0
  used : ∀ k e, lookup k w.handles = some e → ∃ r ∈ w.live, r.id = k
  distinct : (w.live.map (·.id)).Nodup
  owed : (outstanding w.handles.table).Perm (w.live.flatMap Record.destroys)
  settled : (w.calls ++ w.live.flatMap Record.destroys).Perm (w.records.flatMap Record.destroys)
  count : w.handles.count = w.live.length

theorem Inv.empty : Inv ({} : World δ) := by
  refine ⟨by simp [World.live], by simp, ?_, List.nodup_nil, List.Perm.refl _, List.Perm.refl _, rfl⟩
  intro k e hk
  unfold lookup at hk
  split_ifs at hk
  cases hk

theorem Inv.faithful (hw : Inv w) : Faithful w where
  resolves r hr := by
    cases hfreed : r.freed with
    | true => exact hw.gone r hr hfreed
    | false =>
      obtain ⟨e, hlookup, hptr, -⟩ := hw.held r (List.mem_filter.mpr ⟨hr, by simp [hfreed]⟩)
      simp [handleGet, hlookup, hptr]
  distinct := hw.distinct
  notNull r hr := by
    obtain ⟨e, hlookup, -⟩ := hw.held r hr
    intro hzero
    simp [lookup, hzero] at hlookup
  destroyed := by
    have hsplit := (List.filter_append_perm (fun r : Record δ => r.freed) w.records).flatMap_right Record.destroys
    rw [List.flatMap_append] at hsplit
    exact (List.perm_append_right_iff _).mp (hw.settled.trans hsplit.symm)
  shutdown := (hw.owed.append_left _).trans hw.settled
  count := hw.count

theorem Taken.lookup_none (hT : Taken h i table) : lookup i h = none := by
  obtain ⟨e, hi, hfree⟩ := hT.free
  rw [lookup, if_neg (Nat.ne_of_gt hT.pos), ← hT.filter_eq, hi]
  simp [hfree]

/-- The world after an allocation in a slot. -/
def World.allocated (w : World δ) (i : Nat) (table : List (Entry δ)) (ptr : Nat) (tag : Option String)
    (destructor : Option δ) : World δ where
  handles := { table := table.modify i (·.fill ptr tag destructor), count := w.handles.count + 1 }
  calls := w.calls
  records := w.records ++ [{ id := i, ptr := ptr, destructor := destructor }]

theorem Inv.alloc {ptr : Nat} {tag : Option String} {destructor : Option δ} (hw : Inv w)
    (hT : Taken w.handles i table) (hfresh : ptr = 0 ∨ ∀ r ∈ w.records, r.id ≠ i) :
    Inv (w.allocated i table ptr tag destructor) := by
  have hother (r : Record δ) (hr : r ∈ w.live) : r.id ≠ i := by
    intro hsame
    obtain ⟨e, hlookup, -⟩ := hw.held r hr
    rw [hsame, hT.lookup_none] at hlookup
    cases hlookup
  have hlive : (w.allocated i table ptr tag destructor).live =
      w.live ++ [{ id := i, ptr := ptr, destructor := destructor }] := by
    simp [World.live, World.allocated]
  obtain ⟨e, hself⟩ : ∃ e : Entry δ, lookup i (w.allocated i table ptr tag destructor).handles =
      some (e.fill ptr tag destructor) :=
    lookup_fill_self _ _ _ hT
  have hrest (k : Nat) (hne : k ≠ i) :
      lookup k (w.allocated i table ptr tag destructor).handles = lookup k w.handles :=
    lookup_fill_ne hT hne
  constructor
  · rw [hlive]
    intro r hr
    rcases List.mem_append.mp hr with hold | hnew
    · rw [hrest r.id (hother r hold)]
      exact hw.held r hold
    · obtain rfl := List.mem_singleton.mp hnew
      exact ⟨_, hself, rfl, rfl⟩
  · intro r hr hfreed
    rcases List.mem_append.mp hr with hold | hnew
    · by_cases hsame : r.id = i
      · have hnull := hfresh.resolve_right fun hall => hall r hold hsame
        rw [hsame, handleGet, hself, hnull]
        rfl
      · rw [handleGet, hrest r.id hsame]
        exact hw.gone r hold hfreed
    · obtain rfl := List.mem_singleton.mp hnew
      cases hfreed
  · rw [hlive]
    intro k e hk
    by_cases hsame : k = i
    · exact ⟨_, List.mem_append_right _ (List.mem_singleton_self _), hsame.symm⟩
    · rw [hrest k hsame] at hk
      obtain ⟨r, hr, hid⟩ := hw.used k e hk
      exact ⟨r, List.mem_append_left _ hr, hid⟩
  · rw [hlive, List.map_append, List.nodup_append]
    refine ⟨hw.distinct, List.nodup_singleton _, ?_⟩
    intro k hk k' hk'
    obtain ⟨r, hr, rfl⟩ := List.mem_map.mp hk
    obtain rfl := List.mem_singleton.mp hk'
    exact hother r hr
  · rw [hlive, List.flatMap_append, List.flatMap_singleton]
    exact (outstanding_fill hT).trans (hw.owed.append_right _)
  · rw [hlive]
    show (w.calls ++ _).Perm ((w.records ++ _).flatMap Record.destroys)
    rw [List.flatMap_append, List.flatMap_append, List.flatMap_singleton, ← List.append_assoc]
    exact hw.settled.append_right _
  · rw [hlive, List.length_append, ← hw.count]
    rfl

/-! ## Freeing -/

theorem live_markFreed (records : List (Record δ)) :
    (records.map (·.markFreed id)).filter (fun r => !r.freed) =
      (records.filter fun r => !r.freed).filter fun r => r.id != id := by
  induction records with
  | nil => rfl
  | cons r records ih =>
    obtain ⟨rid, ptr, destructor, freed⟩ := r
    rw [List.map_cons, List.filter_cons, List.filter_cons]
    cases freed with
    | true => simpa [Record.markFreed] using ih
    | false =>
      by_cases hsame : rid = id
      · simpa [Record.markFreed, hsame] using ih
      · simpa [Record.markFreed, hsame] using ih

theorem destroys_markFreed (records : List (Record δ)) :
    (records.map (·.markFreed id)).flatMap Record.destroys = records.flatMap Record.destroys := by
  rw [List.flatMap_map]
  rfl

theorem perm_cons_filter {records : List (Record δ)} {r : Record δ} (hdistinct : (records.map (·.id)).Nodup)
    (hr : r ∈ records) : records.Perm (r :: records.filter fun other => other.id != r.id) := by
  obtain ⟨a, c, rfl⟩ := List.append_of_mem hr
  rw [List.map_append, List.map_cons, List.nodup_middle, List.nodup_cons, ← List.map_append] at hdistinct
  have hothers : (a ++ c).filter (fun other => other.id != r.id) = a ++ c := by
    apply List.filter_eq_self.mpr
    intro other hother
    rw [bne_iff_ne]
    intro hsame
    exact hdistinct.1 (List.mem_map.mpr ⟨other, hother, hsame⟩)
  rw [List.filter_append] at hothers
  rw [List.filter_append, List.filter_cons_of_neg (by simp), hothers]
  exact List.perm_middle

theorem lookup_clear {n generation : Nat} :
    lookup k { table := h.table.set id { generation := generation }, count := n } =
      if k = id then none else lookup k h := by
  unfold lookup
  by_cases hk : k = 0
  · simp [hk]
  · rw [if_neg hk, if_neg hk]
    split_ifs with hsame
    · rw [hsame, List.getElem?_set, if_pos rfl]
      split_ifs <;> rfl
    · rw [List.getElem?_set_ne (Ne.symm hsame)]

theorem outstanding_clear (generation : Nat) (hlookup : lookup id h = some e) :
    (outstanding h.table).Perm
      (destroys e.destructor e.ptr ++ outstanding (h.table.set id { generation := generation })) := by
  unfold lookup at hlookup
  obtain ⟨hpos, hlookup⟩ := Option.ite_none_left_eq_some.mp hlookup
  obtain ⟨hk, huse⟩ := Option.filter_eq_some_iff.mp hlookup
  obtain ⟨a, c, htable, hlen⟩ := exists_split hk
  have ha : a ≠ [] := by
    rintro rfl
    exact hpos hlen.symm
  have hcalls : e.calls = destroys e.destructor e.ptr := if_pos huse
  have hclear : h.table.set id { generation := generation } = a ++ { generation := generation } :: c := by
    rw [htable, ← hlen]
    simp
  rw [hclear, htable, outstanding_split ha, outstanding_split ha, hcalls]
  exact List.perm_append_comm_assoc _ _ _

/-- The world after the entry of a handle is freed. -/
def World.freed (w : World δ) (id : Nat) (e : Entry δ) : World δ where
  handles := { table := w.handles.table.set id { generation := e.generation }, count := w.handles.count - 1 }
  calls := w.calls ++ destroys e.destructor e.ptr
  records := w.records.map (·.markFreed id)

theorem Inv.free (hw : Inv w) (hlookup : lookup id w.handles = some e) : Inv (w.freed id e) := by
  obtain ⟨r, hr, rfl⟩ := hw.used id e hlookup
  obtain ⟨e', hlookup', hptr, hdestructor⟩ := hw.held r hr
  obtain rfl := Option.some.inj (hlookup'.symm.trans hlookup)
  have hsplit := perm_cons_filter hw.distinct hr
  have howes : (w.live.flatMap Record.destroys).Perm (destroys e'.destructor e'.ptr ++
      (w.live.filter fun other => other.id != r.id).flatMap Record.destroys) := by
    have hflat := hsplit.flatMap_right Record.destroys
    rw [List.flatMap_cons, Record.destroys, ← hptr, ← hdestructor] at hflat
    exact hflat
  have hlive : (w.freed r.id e').live = w.live.filter fun other => other.id != r.id :=
    live_markFreed w.records
  have hlookups (k : Nat) :
      lookup k (w.freed r.id e').handles = if k = r.id then none else lookup k w.handles :=
    lookup_clear
  constructor
  · rw [hlive]
    intro other hother
    obtain ⟨hin, hne⟩ := List.mem_filter.mp hother
    rw [hlookups, if_neg (by simpa using hne)]
    exact hw.held other hin
  · intro other hother hfreed
    obtain ⟨old, hold, rfl⟩ := List.mem_map.mp hother
    show ((lookup old.id (w.freed r.id e').handles).map _).getD 0 = 0
    rw [hlookups]
    split_ifs with hsame
    · rfl
    · apply hw.gone old hold
      simpa [Record.markFreed, hsame] using hfreed
  · rw [hlive]
    intro k entry hk
    rw [hlookups] at hk
    obtain ⟨hne, hk⟩ := Option.ite_none_left_eq_some.mp hk
    obtain ⟨other, hother, rfl⟩ := hw.used k entry hk
    exact ⟨other, List.mem_filter.mpr ⟨hother, by simpa using hne⟩, rfl⟩
  · rw [hlive]
    exact hw.distinct.sublist (List.filter_sublist.map _)
  · rw [hlive]
    have hboth := (outstanding_clear e'.generation hlookup).symm.trans (hw.owed.trans howes)
    exact (List.perm_append_left_iff _).mp hboth
  · rw [hlive]
    show (w.calls ++ _ ++ _).Perm ((w.records.map _).flatMap Record.destroys)
    rw [destroys_markFreed, List.append_assoc]
    exact (howes.symm.append_left _).trans hw.settled
  · rw [hlive]
    have hlength := hsplit.length_eq
    rw [List.length_cons, ← hw.count] at hlength
    show w.handles.count - 1 = _
    omega

theorem Inv.step {op : Op δ} (hw : Inv w) (hfresh : TakesFresh op w) (hstep : step op w = some w') : Inv w' := by
  cases op with
  | alloc mem ptr tag destructor =>
    cases htake : takeSlot mem w.handles with
    | none =>
      simp only [HandleTable.step, handleAlloc, htake, Option.isSome_none, Bool.false_eq_true, if_false,
        List.append_nil] at hstep
      cases hstep
      exact hw
    | some taken =>
      obtain ⟨i, table⟩ := taken
      obtain ⟨hbound, hfresh⟩ := hfresh i table htake
      simp only [HandleTable.step, handleAlloc, htake, Option.isSome_some, if_true, Nat.mod_eq_of_lt hbound] at hstep
      cases hstep
      exact hw.alloc (taken_of_takeSlot htake) hfresh
  | get id =>
    cases hstep
    exact hw
  | free id =>
    cases hlookup : lookup id w.handles with
    | none =>
      have hsame : w.records.map (·.markFreed id) = w.records := by
        refine (List.map_congr_left fun r hr => ?_).trans (List.map_id w.records)
        obtain ⟨rid, ptr, destructor, freed⟩ := r
        cases freed with
        | true => rfl
        | false =>
          obtain ⟨e, hsome, -⟩ := hw.held _ (List.mem_filter.mpr ⟨hr, rfl⟩)
          have hne : rid ≠ id := by
            rintro rfl
            cases hlookup.symm.trans hsome
          simp [Record.markFreed, hne]
      simp only [HandleTable.step, handleFree, hlookup, hsame, List.append_nil] at hstep
      cases hstep
      exact hw
    | some e =>
      simp only [HandleTable.step, handleFree, hlookup] at hstep
      cases hstep
      exact hw.free hlookup

theorem Inv.lookup_live {r : Record δ} (hw : Inv w) (hr : r ∈ w.records) (hfreed : r.freed = false) :
    ∃ e, lookup r.id w.handles = some e := by
  obtain ⟨e, hlookup, -⟩ := hw.held r (List.mem_filter.mpr ⟨hr, by simp [hfreed]⟩)
  exact ⟨e, hlookup⟩

theorem Inv.takesFresh {op : Op δ} (hw : Inv w) (hgood : ∀ w', HandleTable.step op w = some w' → Faithful w') :
    TakesFresh op w := by
  cases op with
  | get id => trivial
  | free id => trivial
  | alloc mem ptr tag destructor =>
    intro i table htake
    have hT := taken_of_takeSlot htake
    have hnext : HandleTable.step (.alloc mem ptr tag destructor) w = some { w with
        handles := { table := table.modify i (·.fill ptr tag destructor), count := w.handles.count + 1 }
        records := w.records ++ [{ id := i % 2 ^ 32, ptr := ptr, destructor := destructor }] } := by
      simp [HandleTable.step, handleAlloc, htake]
    have hw' := hgood _ hnext
    have hbound : i < 2 ^ 32 := by
      by_contra hge
      -- the handle is the null handle or that of a slot before, which is in use
      have hbefore : i % 2 ^ 32 < i := Nat.lt_of_lt_of_le (Nat.mod_lt _ (by decide)) (Nat.not_lt.mp hge)
      have hdistinct := hw'.distinct
      have hnull := hw'.notNull { id := i % 2 ^ 32, ptr := ptr, destructor := destructor } (by simp [World.live])
      obtain ⟨e, hslot, huse⟩ := hT.before _ (Nat.pos_of_ne_zero hnull) hbefore
      have hlookup : lookup (i % 2 ^ 32) w.handles = some e := by
        rw [lookup, if_neg hnull, hslot]
        simp [huse]
      obtain ⟨r, hr, hid⟩ := hw.used _ _ hlookup
      simp only [World.live, List.filter_append, List.map_append, List.nodup_append] at hdistinct
      exact hdistinct.2.2 r.id (List.mem_map.mpr ⟨r, hr, rfl⟩) (i % 2 ^ 32) (by simp) hid
    refine ⟨hbound, ?_⟩
    by_contra hused
    rw [not_or] at hused
    obtain ⟨hptr, hrecords⟩ := hused
    obtain ⟨r, hr, hid⟩ : ∃ r ∈ w.records, r.id = i := by simpa using hrecords
    cases hfreed : r.freed with
    | false =>
      obtain ⟨e, hlookup⟩ := hw.lookup_live hr hfreed
      rw [hid, hT.lookup_none] at hlookup
      cases hlookup
    | true =>
      have hnull := hw'.resolves r (List.mem_append_left _ hr)
      obtain ⟨e, hself⟩ := lookup_fill_self ptr tag destructor (n := w.handles.count + 1) hT
      rw [hfreed, hid, handleGet, hself] at hnull
      exact hptr hnull

/-- **Handles are faithful along a run exactly if each of its allocations takes a fresh slot.** -/
theorem handles_faithful_iff (ops : List (Op δ)) : Meets HandleTable.step TakesFresh ops {} ↔
    ∀ pre w, pre <+: ops → runEvents HandleTable.step pre {} = some w → Faithful w :=
  meets_iff (fun _ hw => hw.faithful) (fun _ _ _ hw hfresh hstep => hw.step hfresh hstep)
    (fun _ _ hw hgood => hw.takesFresh hgood) Inv.empty

end

/-- A handle that was freed resolves to the object that took its slot. -/
theorem freed_handle_resolves :
    ∃ w, runEvents HandleTable.step [.alloc true 5 none (some "close"), .free 1, .alloc true 6 none (some "close")] {} =
        some w ∧
      w.records = [{ id := 1, ptr := 5, destructor := some "close", freed := true },
        { id := 1, ptr := 6, destructor := some "close" }] ∧
      handleGet 1 w.handles = 6 ∧ ¬Faithful w := by
  refine ⟨_, rfl, rfl, rfl, ?_⟩
  intro hfaithful
  have hnull := hfaithful.resolves _ (List.mem_cons_self ..)
  cases hnull

end Datara.Runtime.HandleTable
