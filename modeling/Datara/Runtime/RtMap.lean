import Datara.Library.Probe
import Datara.Library.Runs
import Datara.Library.Upsert

/-!
# The hash map

`runtime/datara_map.c`: the entries in order of insertion, and from sixteen entries on a robin-hood index of
their numbers. The maps made here all have a header. A key is its bytes or its 64 bits: what the callers' strings
hold does not change between the calls, and allocation succeeds. A loop that does not end has no result.
-/

namespace Datara.Runtime

open Library

/-- A string of C. -/
structure CStr where
  bytes : List UInt8
  nulFree : 0 ∉ bytes
  deriving DecidableEq

/-- A key, as the callers pass it with `is_int`. -/
inductive MapKey
  | str (s : CStr)
  | int (v : BitVec 64)
  deriving DecidableEq

def MapKey.isInt : MapKey → Bool
  | .str _ => false
  | .int _ => true

/-- The robin-hood index: a slot holds the number of an entry and one, or zero. -/
structure MapIndex where
  slots : Nat
  cells : Nat → Nat

/-- `DataraMapHeader`, with the flags of its `magic`. -/
structure MapHeader where
  capacity : Nat
  pool : Bool := false
  intKey : Bool := false
  index : Option MapIndex := none

/-- The block of a map; `map[0]` is the number of its entries. -/
structure RtMap where
  hdr : MapHeader
  entries : List (MapKey × Int)

/-- A map, or `NULL`. -/
abbrev MapHandle := Option RtMap

namespace RtMap

def indexMin : Nat := 16

/-- `sizeof(DataraMapHeader) + (1 + cap * 2) * sizeof(int64_t)`. -/
def totalBytes (cap : Nat) : Nat := 32 + (1 + cap * 2) * 8

/-! ## Keys -/

/-- `rt_map_hash`: FNV-1a. -/
def hash (key : CStr) : BitVec 64 :=
  key.bytes.foldl (fun h p => (h ^^^ p.toBitVec.setWidth 64) * 1099511628211#64) 1469598103934665603#64

/-- `rt_map_hash_i64`. -/
def hashI64 (key : BitVec 64) : BitVec 64 :=
  let x := key ^^^ (key >>> 33)
  let x := x * 0xff51afd7ed558ccd#64
  let x := x ^^^ (x >>> 33)
  let x := x * 0xc4ceb9fe1a85ec53#64
  x ^^^ (x >>> 33)

/-- `rt_map_hash_key`: the keys of a map, and the one looked up, are of the kind its header says. -/
def hashKey : MapKey → BitVec 64
  | .str s => hash s
  | .int v => hashI64 v

/-- `rt_map_key_eq`. -/
def keyEq (intKey : Bool) (stored key : MapKey) : Bool :=
  match intKey, stored, key with
  | true, .int a, .int b => a = b
  | false, .str a, .str b => a = b
  | _, _, _ => false

/-! ## The index -/

/-- `rt_map_hash_key(hdr, key) & mask`. -/
def home (slots : Nat) (key : MapKey) : Nat := (hashKey key).toNat &&& (slots - 1)

/-- The loop of `rt_map_index_put`. -/
def indexPutLoop (entries : List (MapKey × Int)) (slots : Nat) :
    Nat → (Nat → Nat) → (slot pendE : Nat) → (pendDist : Int) → Option (Nat → Nat)
  | 0, _, _, _, _ => none
  | fuel + 1, idx, slot, pendE, pendDist =>
    let cur := idx slot
    if cur = 0 then some (Function.update idx slot (pendE + 1))
    else do
      let curE := cur - 1
      let entry ← entries[curE]?
      let curDist := (slot : Int) - home slots entry.1
      let curDist := if curDist < 0 then curDist + slots else curDist
      let next := (slot + 1) &&& (slots - 1)
      -- a richer element gives up its slot
      if curDist < pendDist then
        indexPutLoop entries slots fuel (Function.update idx slot (pendE + 1)) next curE (curDist + 1)
      else indexPutLoop entries slots fuel idx next pendE (pendDist + 1)

/-- `rt_map_index_put`. -/
def indexPut (entries : List (MapKey × Int)) (index : MapIndex) (entryIdx : Nat) : Option MapIndex := do
  let entry ← entries[entryIdx]?
  let cells ← indexPutLoop entries index.slots index.slots index.cells (home index.slots entry.1) entryIdx 0
  some { index with cells := cells }

/-- `while (slots < count * 2) slots <<= 1`. -/
def doubleSlots (count : Nat) : Nat → Nat → Option Nat
  | 0, _ => none
  | fuel + 1, slots => if slots < count * 2 then doubleSlots count fuel (slots * 2) else some slots

/-- `rt_map_index_build`. -/
def indexBuild (entries : List (MapKey × Int)) : Option MapIndex := do
  let slots ← doubleSlots entries.length (entries.length + 1) indexMin
  (List.range entries.length).foldlM (indexPut entries) { slots := slots, cells := fun _ => 0 }

/-- The loop of `rt_map_index_find`. -/
def indexFindLoop (intKey : Bool) (entries : List (MapKey × Int)) (index : MapIndex) (key : MapKey) :
    Nat → (slot : Nat) → Option (Option Nat)
  | 0, _ => none
  | fuel + 1, slot =>
    let cur := index.cells slot
    if cur = 0 then some none
    else do
      let entry ← entries[cur - 1]?
      if keyEq intKey entry.1 key then some (some (cur - 1))
      else indexFindLoop intKey entries index key fuel ((slot + 1) &&& (index.slots - 1))

/-- `rt_map_index_find`. -/
def indexFind (intKey : Bool) (entries : List (MapKey × Int)) (index : MapIndex) (key : MapKey) :
    Option (Option Nat) :=
  indexFindLoop intKey entries index key index.slots (home index.slots key)

/-! ## Lookup -/

/-- The linear scan. -/
def linearScan (m : RtMap) (key : MapKey) : Option Nat :=
  m.entries.findIdx? fun e => keyEq m.hdr.intKey e.1 key

/-- `rt_map_find_entry`. -/
def findEntry (map : MapHandle) (key : MapKey) : Option (Option Nat) :=
  match map with
  | none => some none
  | some m =>
    if m.entries.length = 0 then some none
    else if m.hdr.intKey ≠ key.isInt then some none
    else
      match m.hdr.index with
      | some index =>
        if index.slots ≠ 0 ∧ indexMin ≤ m.entries.length then indexFind m.hdr.intKey m.entries index key
        else some (m.linearScan key)
      | none => some (m.linearScan key)

/-- `rt_map_get_impl`. -/
def get (map : MapHandle) (key : MapKey) : Option Int :=
  match map with
  | none => some 0
  | some m => do
    match ← findEntry map key with
    | some e => m.entries[e]?.map Prod.snd
    | none => some 0

/-- `rt_map_contains_impl`. -/
def contains (map : MapHandle) (key : MapKey) : Option Bool := do
  let found ← findEntry map key
  some found.isSome

/-- The keys of `rt_map_slot_list`. -/
def keys (map : MapHandle) : List MapKey :=
  match map with
  | none => []
  | some m => m.entries.map Prod.fst

/-- `datara_rt_map_len`. -/
def len (map : MapHandle) : Nat :=
  match map with
  | none => 0
  | some m => m.entries.length

/-! ## Construction and insertion -/

/-- `datara_rt_map_create`. -/
def create : RtMap := { hdr := { capacity := 8, pool := totalBytes 8 ≤ 1024 }, entries := [] }

/-- `datara_rt_map_create_from`, and `datara_rt_map_create_2`. -/
def createFrom (pairs : List (CStr × Int)) : RtMap :=
  { hdr := { capacity := max 8 pairs.length }, entries := pairs.map fun p => (.str p.1, p.2) }

/-- A new entry where there is room: the index is kept in step, dropped, or built. -/
def insertEntry (m : RtMap) (key : MapKey) (val : Int) : Option RtMap := do
  let count := m.entries.length
  let entries := m.entries ++ [(key, val)]
  let index ← match m.hdr.index with
    | some index =>
      if index.slots ≠ 0 then
        if (count + 1) * 4 < index.slots * 3 then (indexPut entries index count).map some else some none
      else if indexMin ≤ count + 1 then (indexBuild entries).map some else some none
    | none => if indexMin ≤ count + 1 then (indexBuild entries).map some else some none
  some { hdr := { m.hdr with index := index }, entries := entries }

/-- A new entry in a block of twice the capacity, without an index. -/
def growEntry (m : RtMap) (key : MapKey) (val : Int) : RtMap :=
  let newCap := m.hdr.capacity * 2
  { hdr := { m.hdr with capacity := newCap, pool := m.hdr.pool && totalBytes newCap ≤ 1024, index := none }
    entries := m.entries ++ [(key, val)] }

/-- `datara_rt_map_insert_impl`. -/
def insertImpl (map : MapHandle) (key : MapKey) (val : Int) : Option RtMap :=
  match map with
  | none => some { hdr := { capacity := 8, intKey := key.isInt }, entries := [(key, val)] }
  | some m =>
    if 0 < m.entries.length ∧ m.hdr.intKey ≠ key.isInt then some m
    else
      -- the first entry of a map decides on the kind of its keys
      let m := if m.entries.length = 0 then { m with hdr := { m.hdr with intKey := key.isInt } } else m
      match m.linearScan key with
      | some i => some { m with entries := m.entries.modify i fun e => (e.1, val) }
      | none => if m.entries.length < m.hdr.capacity then m.insertEntry key val else some (m.growEntry key val)

/-- `datara_rt_map_create_i64_1` to `datara_rt_map_create_i64_5`. -/
def createI64 (pairs : List (BitVec 64 × Int)) : Option RtMap :=
  pairs.foldlM (fun m p => insertImpl (some m) (.int p.1) p.2) create

/-! ## Runs -/

/-- A call on the maps a program holds. -/
inductive Op
  | create (x : Nat)
  | createFrom (x : Nat) (pairs : List (CStr × Int))
  | createI64 (x : Nat) (pairs : List (BitVec 64 × Int))
  | insert (x : Nat) (key : MapKey) (val : Int)
  | get (x : Nat) (key : MapKey)
  | contains (x : Nat) (key : MapKey)
  | keys (x : Nat)
  | len (x : Nat)

/-- What a call returns. -/
inductive Answer
  | value (v : Int)
  | found (b : Bool)
  | keys (ks : List MapKey)
  | len (n : Nat)
  deriving DecidableEq

/-- The maps of a program, and what its calls have returned. -/
structure Program (β : Type) where
  maps : Nat → Option β := fun _ => none
  returned : List Answer := []

def Program.put {β : Type} (x : Nat) (m : Option β) (s : Program β) : Program β :=
  { s with maps := fun y => if y = x then m else s.maps y }

def Program.return {β : Type} (a : Answer) (s : Program β) : Program β :=
  { s with returned := s.returned ++ [a] }

/-- A call. -/
def step (op : Op) (s : Program RtMap) : Option (Program RtMap) :=
  match op with
  | .create x => some (s.put x (some create))
  | .createFrom x pairs => some (s.put x (some (createFrom pairs)))
  | .createI64 x pairs => do
    let m ← createI64 pairs
    some (s.put x (some m))
  | .insert x key val => do
    let m ← insertImpl (s.maps x) key val
    some (s.put x (some m))
  | .get x key => do
    let v ← get (s.maps x) key
    some (s.return (.value v))
  | .contains x key => do
    let b ← contains (s.maps x) key
    some (s.return (.found b))
  | .keys x => some (s.return (.keys (keys (s.maps x))))
  | .len x => some (s.return (.len (len (s.maps x))))

/-! ## Finite maps in order of insertion -/

abbrev Entries := List (MapKey × Int)

/-- An insertion: a key of the other kind changes nothing. -/
def specInsert (key : MapKey) (val : Int) (l : Entries) : Entries :=
  if l.any fun e => e.1.isInt != key.isInt then l else upsert key val l

/-- What a call is on finite maps: the last value given to a key counts. -/
def specStep (op : Op) (s : Program Entries) : Program Entries :=
  match op with
  | .create x => s.put x (some [])
  | .createFrom x pairs => s.put x (some (pairs.foldl (fun l p => specInsert (.str p.1) p.2 l) []))
  | .createI64 x pairs => s.put x (some (pairs.foldl (fun l p => specInsert (.int p.1) p.2 l) []))
  | .insert x key val => s.put x (some (specInsert key val ((s.maps x).getD [])))
  | .get x key => s.return (.value ((((s.maps x).getD []).lookup key).getD 0))
  | .contains x key => s.return (.found (((s.maps x).getD []).lookup key).isSome)
  | .keys x => s.return (.keys (((s.maps x).getD []).map Prod.fst))
  | .len x => s.return (.len ((s.maps x).getD []).length)

/-- The keys of a literal are distinct. -/
def Distinct (op : Op) (_ : Program RtMap) : Prop :=
  match op with
  | .createFrom _ pairs => (pairs.map Prod.fst).Nodup
  | _ => True

end RtMap

end Datara.Runtime
