import Datara.Library.Runs
import Datara.Library.Words
import Mathlib.Algebra.Group.Nat.Defs
import Mathlib.Algebra.Group.Int.Defs

/-!
# The growable list

`runtime/datara_list.c`: a list is a handle to a block of words, the count in the first and the elements
after it, with the capacity and the flags in a header before them. A load or store outside the block, or at a
null handle, has no result. Sizes are in 64 bits and wrap.
-/

namespace Datara.Runtime

open Library

/-- The flags in the header's `magic`. -/
structure ListFlags where
  pool : Bool := false
  stack : Bool := false
  small : Bool := false
  deriving DecidableEq, Repr

/-- A block: `DataraListHeader`, and the words after it. `magic` is false where the header has another. -/
structure ListBlock where
  capacity : Int
  magic : Bool := true
  flags : ListFlags := {}
  words : List Int
  deriving DecidableEq, Repr

/-- A list, or `NULL`. -/
abbrev ListHandle := Option ListBlock

/-- What `malloc` gives for a size: the words after a header, or nothing. -/
abbrev Malloc := Nat → Option (List Int)

/-- `malloc` gives a block of the size asked for, of at most `PTRDIFF_MAX` bytes. -/
def Mallocs (malloc : Malloc) : Prop :=
  ∀ size, (size < 2 ^ 63 → ∃ words, malloc size = some words ∧ words.length = (size - 16) / 8) ∧
    (2 ^ 63 ≤ size → malloc size = none)

namespace RtList

def sizeMax : Int := 2 ^ 64 - 1

/-- `sizeof(DataraListHeader) + (size_t)(cap + 1) * sizeof(int64_t)`. -/
def allocSize (cap : Int) : Nat := ((16 + ((cap + 1) % 2 ^ 64) * 8) % 2 ^ 64).toNat

/-- `datara_rt_list_get`. -/
def get (list : ListHandle) (idx : Int) : Option Int :=
  match list with
  | none => some 0
  | some b => do
    let count ← loadWord b.words 0
    if idx < 0 ∨ count ≤ idx then some 0 else loadWord b.words (idx + 1)

/-- `datara_rt_list_set`. -/
def set (list : ListHandle) (idx v : Int) : Option ListHandle :=
  match list with
  | none => some none
  | some b => do
    let count ← loadWord b.words 0
    if idx < 0 ∨ count ≤ idx then some list
    else do
      let words ← storeWord b.words (idx + 1) v
      some (some { b with words := words })

section
variable (malloc : Malloc)

/-- `datara_rt_list_create_capacity`. -/
def createCapacity (cap : Int) : Option ListHandle :=
  let cap := if cap < 8 then 8 else cap
  if (sizeMax - 16) / 8 - 1 < cap then some none
  else
    let size := allocSize cap
    match malloc size with
    | none => some none
    | some words => do
      let words ← storeWord words 0 0
      some (some { capacity := cap, flags := { pool := size ≤ 1024, small := cap ≤ 8 }, words := words })

/-- `datara_rt_list_create_repeat`. -/
def createRepeat (elem count : Int) : Option ListHandle := do
  let count := if count < 0 then 0 else count
  let list ← createCapacity malloc count
  match list with
  | none => some none
  | some b => do
    let words ← storeWord b.words 0 count
    let words ← fillWords elem 1 count.toNat words
    some (some { b with words := words })

/-- The larger block of `datara_rt_list_append`, with what is copied from the old one; nothing when there
is no memory for it. -/
def grow (b : ListBlock) (count : Int) : Option ListHandle :=
  let newCap := if b.capacity * 2 < 8 then 8 else b.capacity * 2
  let size := allocSize newCap
  match malloc size with
  | none => some none
  | some words => do
    -- `realloc` keeps the words of the old block, `memcpy` copies the count and the elements
    let kept := if b.flags.stack || b.flags.pool then (count + 1).toNat else b.words.length
    let words ← copyWords b.words 0 0 kept words
    let flags := if b.flags.stack || b.flags.pool then { pool := size ≤ 1024 } else b.flags
    some (some { b with capacity := newCap, flags := flags, words := words })

/-- The new block of a list without a header of its own. -/
def adopt (b : ListBlock) (count v : Int) : Option ListHandle :=
  if (sizeMax - 16) / 16 - 2 < count then some (some b)
  else
    let newCap := if (count + 1) * 2 < 8 then 8 else (count + 1) * 2
    match malloc (allocSize newCap) with
    | none => some (some b)
    | some words => do
      let words ← storeWord words 0 (count + 1)
      let words ← copyWords b.words 1 1 count.toNat words
      let words ← storeWord words (count + 1) v
      some (some { capacity := newCap, words := words })

/-- `datara_rt_list_append`. -/
def append (list : ListHandle) (v : Int) : Option ListHandle :=
  match list with
  | none => do
    let list ← createCapacity malloc 8
    match list with
    | none => some none
    | some b => do
      let words ← storeWord b.words 0 1
      let words ← storeWord words 1 v
      some (some { b with words := words })
  | some b => do
    let count ← loadWord b.words 0
    if count < 0 then some list
    else if b.magic ∧ count ≤ b.capacity then
      if b.capacity < count + 1 then
        if (sizeMax - 16) / 16 - 1 < b.capacity then some list
        else do
          match ← grow malloc b count with
          | none => some list
          | some b => do
            let words ← storeWord b.words 0 (count + 1)
            let words ← storeWord words (count + 1) v
            some (some { b with words := words })
      else do
        let words ← storeWord b.words 0 (count + 1)
        let words ← storeWord words (count + 1) v
        some (some { b with words := words })
    else adopt malloc b count v

/-- `datara_rt_slice`. -/
def slice (list : ListHandle) (start stop : Int) : Option ListHandle :=
  match list with
  | none => some none
  | some b => do
    let len ← loadWord b.words 0
    if len < 0 then some none
    else
      let start := if start < 0 then 0 else start
      let stop := if len < stop then len else stop
      if stop ≤ start then createCapacity malloc 0
      else
        let count := stop - start
        if (sizeMax - 16) / 8 - 1 < count then some none
        else
          match malloc (allocSize count) with
          | none => some none
          | some words => do
            let words ← storeWord words 0 count
            let words ← copyWords b.words (start + 1) 1 count.toNat words
            some (some { capacity := count, words := words })

/-- `datara_rt_list_remove_at`: what it returns, and the list. -/
def removeAt (list : ListHandle) (idx : Int) : Option (Int × ListHandle) :=
  match list with
  | none => some (0, none)
  | some b => do
    let count ← loadWord b.words 0
    if idx < 0 ∨ count ≤ idx then some (0, list)
    else do
      let words ← if idx + 1 < count then
          copyWords b.words (idx + 2) (idx + 1) (count - idx - 1).toNat b.words
        else some b.words
      let words ← storeWord words 0 (count - 1)
      some (1, some { b with words := words })

/-- `datara_rt_list_insert_at`. -/
def insertAt (list : ListHandle) (idx v : Int) : Option ListHandle :=
  match list with
  | none => some none
  | some b => do
    let count ← loadWord b.words 0
    if idx < 0 ∨ count < idx then some list
    else if count < b.capacity then do
      let words ← if idx < count then
          copyWords b.words (idx + 1) (idx + 2) (count - idx).toNat b.words
        else some b.words
      let words ← storeWord words (idx + 1) v
      let words ← storeWord words 0 (count + 1)
      some (some { b with words := words })
    else
      let newCap := if (count + 1) * 2 < 8 then 8 else (count + 1) * 2
      match malloc (allocSize newCap) with
      | none => some none
      | some words => do
        let words ← storeWord words 0 (count + 1)
        let words ← copyWords b.words 1 1 idx.toNat words
        let words ← storeWord words (idx + 1) v
        let words ← copyWords b.words (idx + 1) (idx + 2) (count - idx).toNat words
        some (some { capacity := newCap, words := words })

end

/-! ## Runs -/

/-- A call on the lists a program holds; a call that returns a list replaces the one it was made on. -/
inductive Op
  | create (x : Nat) (cap : Int)
  | createRepeat (x : Nat) (elem count : Int)
  | append (x : Nat) (v : Int)
  | insertAt (x : Nat) (idx v : Int)
  | removeAt (x : Nat) (idx : Int)
  | slice (x y : Nat) (start stop : Int)
  | get (x : Nat) (idx : Int)
  | set (x : Nat) (idx v : Int)
  deriving DecidableEq, Repr

/-- The lists of a program, and what its calls have returned. -/
structure Program (β : Type) where
  lists : Nat → Option β := fun _ => none
  returned : List Int := []

def Program.put {β : Type} (x : Nat) (l : Option β) (s : Program β) : Program β :=
  { s with lists := fun y => if y = x then l else s.lists y }

def Program.return {β : Type} (v : Int) (s : Program β) : Program β :=
  { s with returned := s.returned ++ [v] }

/-- A call. -/
def step (malloc : Malloc) (op : Op) (s : Program ListBlock) : Option (Program ListBlock) :=
  match op with
  | .create x cap => do
    let l ← createCapacity malloc cap
    some (s.put x l)
  | .createRepeat x elem count => do
    let l ← createRepeat malloc elem count
    some (s.put x l)
  | .append x v => do
    let l ← append malloc (s.lists x) v
    some (s.put x l)
  | .insertAt x idx v => do
    let l ← insertAt malloc (s.lists x) idx v
    some (s.put x l)
  | .removeAt x idx => do
    let r ← removeAt (s.lists x) idx
    some ((s.put x r.2).return r.1)
  | .slice x y start stop => do
    let l ← slice malloc (s.lists y) start stop
    some (s.put x l)
  | .get x idx => do
    let v ← get (s.lists x) idx
    some (s.return v)
  | .set x idx v => do
    let l ← set (s.lists x) idx v
    some (s.put x l)

/-! ## Sequences -/

/-- An index of a sequence. -/
def At (idx : Int) (l : List Int) : Prop := 0 ≤ idx ∧ idx < l.length

instance (idx : Int) (l : List Int) : Decidable (At idx l) := inferInstanceAs (Decidable (_ ∧ _))

/-- What a call is on sequences. -/
def specStep (op : Op) (s : Program (List Int)) : Program (List Int) :=
  match op with
  | .create x _ => s.put x (some [])
  | .createRepeat x elem count => s.put x (some (List.replicate count.toNat elem))
  | .append x v => s.put x (some ((s.lists x).getD [] ++ [v]))
  | .insertAt x idx v => s.put x ((s.lists x).map fun l =>
      if 0 ≤ idx ∧ idx ≤ l.length then l.take idx.toNat ++ v :: l.drop idx.toNat else l)
  | .removeAt x idx =>
    (s.put x ((s.lists x).map fun l => if At idx l then l.eraseIdx idx.toNat else l)).return
      (if (s.lists x).any (fun l => At idx l) then 1 else 0)
  | .slice x y start stop => s.put x ((s.lists y).map fun l => (l.take stop.toNat).drop start.toNat)
  | .get x idx => s.return ((s.lists x).elim 0 fun l => if At idx l then l[idx.toNat]?.getD 0 else 0)
  | .set x idx v => s.put x ((s.lists x).map fun l => if At idx l then l.set idx.toNat v else l)

/-- The bytes of a block of a capacity. -/
def bytes (cap : Int) : Int := 16 + (cap + 1) * 8

/-- The memory that a call asks for is at most `PTRDIFF_MAX` bytes. -/
def Fits (op : Op) (s : Program ListBlock) : Prop :=
  match op with
  | .create _ cap => bytes cap < 2 ^ 63
  | .createRepeat _ _ count => bytes count < 2 ^ 63
  | .append x _ => ∀ b, s.lists x = some b → loadWord b.words 0 = some b.capacity →
      bytes (b.capacity * 2) < 2 ^ 63
  | .insertAt x idx _ => ∀ b, s.lists x = some b → loadWord b.words 0 = some b.capacity →
      0 ≤ idx → idx ≤ b.capacity → bytes ((b.capacity + 1) * 2) < 2 ^ 63
  | _ => True

/-- **A block represents a sequence**: the count does not exceed the capacity, the elements are in order, and
the block has room for as many as the capacity says, and is no larger than memory. -/
structure Represents (b : ListBlock) (l : List Int) : Prop where
  magic : b.magic = true
  words : ∃ rest, b.words = (l.length : Int) :: (l ++ rest) ∧ (l.length + rest.length : Int) = b.capacity
  bytes : bytes b.capacity < 2 ^ 63

/-- Each list of a program represents its sequence. -/
def Refines (s : Program ListBlock) (a : Program (List Int)) : Prop :=
  s.returned = a.returned ∧ ∀ x, match s.lists x, a.lists x with
    | none, none => True
    | some b, some l => Represents b l
    | _, _ => False

end RtList

end Datara.Runtime
