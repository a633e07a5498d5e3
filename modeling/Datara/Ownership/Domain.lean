import Datara.Library.Consing
import Datara.Library.Runs
import Mathlib.Algebra.Group.Nat.Defs
import Mathlib.Data.Finset.Card

/-!
# The domain of the ownership analysis

`ownership/domain.rs` has it twice. `AbstractVarState` carries the set of borrows that are active. `DenseVarState`
carries the number of that set in a `BorrowSetInterner`, which keeps each set once and so can compare and join by
numbers. Both `BTreeSet` and `HashSet` are finite sets here. The numbers are `u32` and the counts `usize`.
-/

namespace Datara.Ownership.Domain

open Library

inductive VarBaseState
  | uninit
  | owned
  | moved (atInst : Option String) (reason : String)
  | unknown
  deriving DecidableEq, Repr

/-- The join of two base states, which both domains write out. -/
def VarBaseState.join : VarBaseState → VarBaseState → VarBaseState
  | .uninit, b => b
  | b, .uninit => b
  | .unknown, _ => .unknown
  | _, .unknown => .unknown
  | .moved atInst reason, .moved _ _ => .moved atInst reason
  | .owned, .owned => .owned
  | .owned, .moved _ _ => .unknown
  | .moved _ _, .owned => .unknown

/-! ## Sets -/

structure AbstractVarState where
  base : VarBaseState
  borrows : Nat
  mutBorrows : Nat
  activeBorrows : Finset String
  deriving DecidableEq

/-- `AbstractVarState::join`. -/
def AbstractVarState.join (s other : AbstractVarState) : AbstractVarState :=
  let activeBorrows := s.activeBorrows ∪ other.activeBorrows
  { base := s.base.join other.base
    borrows := max (max activeBorrows.card s.borrows) other.borrows
    mutBorrows := max s.mutBorrows other.mutBorrows
    activeBorrows := activeBorrows }

/-! ## Numbers of sets -/

/-- `sets` is indexed by number, `map` finds the number of a set. -/
structure BorrowSetInterner where
  sets : List (Finset String)
  map : Finset String → Option Nat

namespace BorrowSetInterner

def new : BorrowSetInterner where
  sets := [∅]
  map := Function.update (fun _ => none) ∅ (some 0)

def len (id : Nat) (interner : BorrowSetInterner) : Nat := ((interner.sets[id]?).map (·.card)).getD 0

/-- `self.sets.len() as u32` is the number of a set that is new. -/
def intern (set : Finset String) (interner : BorrowSetInterner) : Nat × BorrowSetInterner :=
  match interner.map set with
  | some id => (id, interner)
  | none =>
    let id := interner.sets.length % 2 ^ 32
    (id, { sets := interner.sets ++ [set], map := Function.update interner.map set (some id) })

/-- `none` is the panic of an index past the end of `sets`. -/
def union (a b : Nat) (interner : BorrowSetInterner) : Option (Nat × BorrowSetInterner) :=
  if a = b ∨ b = 0 then some (a, interner)
  else if a = 0 then some (b, interner)
  else
    match interner.sets[a]?, interner.sets[b]? with
    | some u, some v => some (interner.intern (u ∪ v))
    | _, _ => none

def insert (base : Nat) (item : String) (interner : BorrowSetInterner) : Nat × BorrowSetInterner :=
  match interner.sets[base]? with
  | some s => if item ∈ s then (base, interner) else interner.intern (Insert.insert item s)
  | none => interner.intern {item}

def toHashSet (id : Nat) (interner : BorrowSetInterner) : Finset String := (interner.sets[id]?).getD ∅

end BorrowSetInterner

structure DenseVarState where
  base : VarBaseState
  borrows : Nat := 0
  mutBorrows : Nat := 0
  borrowSetId : Nat := 0
  deriving DecidableEq, Repr

namespace DenseVarState

/-- `DenseVarState::uninit`, `owned`, `moved` and `unknown`. -/
def ofBase (base : VarBaseState) : DenseVarState := { base := base }

/-- `DenseVarState::join`. -/
def join (s other : DenseVarState) (interner : BorrowSetInterner) : Option (DenseVarState × BorrowSetInterner) :=
  if s = other then some (s, interner)
  else
    match interner.union s.borrowSetId other.borrowSetId with
    | none => none
    | some (id, interner) => some
        ({ base := s.base.join other.base
           borrows := max (max (interner.len id) s.borrows) other.borrows
           mutBorrows := max s.mutBorrows other.mutBorrows
           borrowSetId := id }, interner)

def toAbstract (s : DenseVarState) (interner : BorrowSetInterner) : AbstractVarState where
  base := s.base
  borrows := s.borrows
  mutBorrows := s.mutBorrows
  activeBorrows := interner.toHashSet s.borrowSetId

/-- What `apply_transfer` makes of a state that a call of `view` borrows. -/
def viewed (item : String) (s : DenseVarState) (interner : BorrowSetInterner) : DenseVarState × BorrowSetInterner :=
  let (id, interner) := interner.insert s.borrowSetId item
  ({ s with borrows := (s.borrows + 1) % 2 ^ 64, borrowSetId := id }, interner)

/-- What it makes of one that a call of `mut_view` borrows. -/
def mutViewed (item : String) (s : DenseVarState) (interner : BorrowSetInterner) : DenseVarState × BorrowSetInterner :=
  let (id, interner) := interner.insert s.borrowSetId item
  ({ s with
      borrows := (s.borrows + 1) % 2 ^ 64
      mutBorrows := (s.mutBorrows + 1) % 2 ^ 64
      borrowSetId := id }, interner)

end DenseVarState

/-! ## Runs -/

/-- A call of the interner, or a step that makes a dense state; states are numbered by their age. -/
inductive Op
  | intern (set : Finset String)
  | union (a b : Nat)
  | insert (base : Nat) (item : String)
  | make (base : VarBaseState)
  | view (k : Nat) (item : String)
  | mutView (k : Nat) (item : String)
  | join (k l : Nat)

/-- A join that was made. -/
structure Joined where
  left : DenseVarState
  right : DenseVarState
  result : DenseVarState

/-- The interner, the numbers it has given with the sets they were given for, the dense states made with it, and which
of them are joins. -/
structure World where
  interner : BorrowSetInterner := .new
  given : List (Nat × Finset String) := [(0, ∅)]
  states : List DenseVarState := []
  joins : List Joined := []

namespace World

/-- Notes the number that was given for a set. -/
def give (set : Finset String) (r : Nat × BorrowSetInterner) (w : World) : World :=
  { w with interner := r.2, given := w.given ++ [(r.1, set)] }

/-- Adds a state that was made. -/
def add (r : DenseVarState × BorrowSetInterner) (w : World) : World :=
  { w with interner := r.2, states := w.states ++ [r.1] }

end World

/-- Only numbers that were given are passed to `union`. -/
def step : Op → World → Option World
  | .intern set, w => some (w.give set (w.interner.intern set))
  | .union a b, w =>
    if a ∈ w.given.map (·.1) ∧ b ∈ w.given.map (·.1) then
      (w.interner.union a b).map fun r => w.give (w.interner.toHashSet a ∪ w.interner.toHashSet b) r
    else none
  | .insert base item, w =>
    some (w.give (Insert.insert item (w.interner.toHashSet base)) (w.interner.insert base item))
  | .make base, w => some (w.add (.ofBase base, w.interner))
  | .view k item, w => (w.states[k]?).map fun s => w.add (s.viewed item w.interner)
  | .mutView k item, w => (w.states[k]?).map fun s => w.add (s.mutViewed item w.interner)
  | .join k l, w =>
    match w.states[k]?, w.states[l]? with
    | some s, some t => (s.join t w.interner).map fun r =>
        { w.add r with joins := w.joins ++ [{ left := s, right := t, result := r.1 }] }
    | _, _ => none

end Datara.Ownership.Domain
