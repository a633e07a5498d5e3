import Datara.Library.Blocks
import Datara.Library.Masks
import Datara.Library.Runs

/-!
# The allocator's tiers

`runtime/datara_alloc.c`: size-class pools with free lists threaded through the blocks and a bump slab they share,
slabs of 64 slots with a mask, and huge pages. `malloc` and the mapping of pages are parameters; a call of them may
fail at any time. An address is a number, `NULL` is 0.
-/

namespace Datara.Runtime

open Library

/-- What the system answers at a time, when some of its blocks are in use. -/
structure System where
  malloc : Nat → List Block → Nat → Nat
  /-- `VirtualAlloc` or `mmap`, with the attempts the source makes. -/
  map : Nat → List Block → Nat → Nat

/-- The documented behaviour of the system: what it gives is apart from what is in use, and nothing is mapped at a
length of 0. -/
structure System.Lawful (sys : System) : Prop where
  malloc_apart : ∀ t held size, sys.malloc t held size ≠ 0 → ∀ b ∈ held, b.Apart ⟨sys.malloc t held size, size⟩
  map_apart : ∀ t held size, sys.map t held size ≠ 0 → ∀ b ∈ held, b.Apart ⟨sys.map t held size, size⟩
  map_zero : ∀ t held, sys.map t held 0 = 0

/-- `DataraBitmaskSlab`, without its slots. -/
structure Slab where
  addr : Nat
  freeMask : BitVec 64

/-- The variables of a thread, and memory. -/
structure AllocState where
  freelist : Nat → Nat := fun _ => 0
  poolSlab : Nat := 0
  poolSlabRemaining : Nat := 0
  heapAllocCount : Int := 0
  heapLive : Int := 0
  /-- The slabs of a class along their `next`. -/
  slabHeads : Nat → List Slab := fun _ => []
  /-- The word at an address. -/
  mem : Nat → Nat := fun _ => 0
  /-- What the system has given and was not given back. -/
  held : List Block := []
  /-- How often the system was asked. -/
  time : Nat := 0
  /-- Whether the last `malloc` of a bump slab failed; the source does not keep this. -/
  refillFailed : Bool := false
  /-- The word that the last call wrote a link to. -/
  linked : Option Block := none

namespace AllocState

variable (sys : System)

/-! ## The system -/

def malloc (size : Nat) (s : AllocState) : Nat × AllocState :=
  let p := sys.malloc s.time s.held size
  (p, { s with time := s.time + 1, held := if p = 0 then s.held else ⟨p, size⟩ :: s.held })

def free (ptr : Nat) (s : AllocState) : AllocState := { s with held := s.held.eraseP (·.addr = ptr) }

/-! ## Pools -/

/-- `DATARA_POOL_NUM_CLASSES`. -/
def poolNumClasses : Nat := 10

/-- `DATARA_POOL_SLAB_SIZE`. -/
def poolSlabSize : Nat := 64 * 1024

def poolClassSizes : List Nat := [16, 32, 48, 64, 96, 128, 192, 256, 512, 1024]

def poolClassSize (cls : Nat) : Nat := poolClassSizes.getD cls 0

def poolClassForSize (sz : Nat) : Option Nat :=
  if sz ≤ 16 then some 0
  else if sz ≤ 32 then some 1
  else if sz ≤ 48 then some 2
  else if sz ≤ 64 then some 3
  else if sz ≤ 96 then some 4
  else if sz ≤ 128 then some 5
  else if sz ≤ 192 then some 6
  else if sz ≤ 256 then some 7
  else if sz ≤ 512 then some 8
  else if sz ≤ 1024 then some 9
  else none

/-- A block from the start of the bump slab. -/
def cut (blkSz : Nat) (s : AllocState) : Nat × AllocState :=
  (s.poolSlab,
    { s with poolSlab := s.poolSlab + blkSz, poolSlabRemaining := s.poolSlabRemaining - blkSz })

def poolAlloc (sz : Nat) (s : AllocState) : Nat × AllocState :=
  if sz = 0 then (0, s)
  else
    let s := { s with heapLive := s.heapLive + 1 }
    match poolClassForSize sz with
    | none => malloc sys sz { s with heapAllocCount := s.heapAllocCount + 1 }
    | some cls =>
      let p := s.freelist cls
      if p ≠ 0 then (p, { s with freelist := Function.update s.freelist cls (s.mem p) })
      else if s.poolSlabRemaining < poolClassSize cls then
        let (slab, s) := malloc sys poolSlabSize s
        if slab = 0 then
          malloc sys sz
            { s with poolSlab := 0, heapAllocCount := s.heapAllocCount + 1, refillFailed := true }
        else
          cut (poolClassSize cls)
            { s with
              poolSlab := slab
              poolSlabRemaining := poolSlabSize
              heapAllocCount := s.heapAllocCount + 1
              refillFailed := false }
      else cut (poolClassSize cls) s

def poolFree (ptr sz : Nat) (s : AllocState) : AllocState :=
  if ptr = 0 then s
  else
    let s := { s with heapLive := if s.heapLive > 0 then s.heapLive - 1 else s.heapLive }
    match poolClassForSize sz with
    | some cls =>
      { s with
        mem := Function.update s.mem ptr (s.freelist cls)
        freelist := Function.update s.freelist cls ptr
        linked := some ⟨ptr, 8⟩ }
    | none => free ptr s

/-! ## Slabs -/

/-- `DATARA_SLAB_NUM_CLASSES`. -/
def slabNumClasses : Nat := 6

def slabClassSizes : List Nat := [16, 32, 64, 128, 256, 512]

def slabClassSize (cls : Nat) : Nat := slabClassSizes.getD cls 0

def slabClassForSize (sz : Nat) : Option Nat :=
  if sz ≤ 16 then some 0
  else if sz ≤ 32 then some 1
  else if sz ≤ 64 then some 2
  else if sz ≤ 128 then some 3
  else if sz ≤ 256 then some 4
  else if sz ≤ 512 then some 5
  else none

/-- `datara_ctz64`. -/
def ctz64 (mask : BitVec 64) : Nat := ((List.range 64).find? mask.getLsbD).getD 64

/-- The offset of `slots`. -/
def slabHeader : Nat := 24

/-- `sizeof(DataraBitmaskSlab) + 64 * slot_sz`. -/
def slabTotal (slotSz : Nat) : Nat := slabHeader + 64 * 64 + 64 * slotSz

/-- The slabs before the first with a property, it, and those after it. -/
def splitFirst (p : Slab → Bool) : List Slab → Option (List Slab × Slab × List Slab)
  | [] => none
  | t :: ts => if p t then some ([], t, ts) else (splitFirst p ts).map fun (pre, u, post) => (t :: pre, u, post)

def slabAlloc (bytes : Nat) (s : AllocState) : Nat × AllocState :=
  if bytes = 0 then (0, s)
  else
    match slabClassForSize bytes with
    | none => malloc sys bytes s
    | some cls =>
      let take (pre : List Slab) (t : Slab) (post : List Slab) (s : AllocState) : Nat × AllocState :=
        let bit := ctz64 t.freeMask
        if bit ≥ 64 then malloc sys bytes { s with slabHeads := Function.update s.slabHeads cls (pre ++ t :: post) }
        else
          let u := { t with freeMask := t.freeMask &&& ~~~(1#64 <<< bit) }
          (t.addr + slabHeader + bit * slabClassSize cls,
            { s with slabHeads := Function.update s.slabHeads cls (pre ++ u :: post) })
      match splitFirst (fun t => t.freeMask ≠ 0) (s.slabHeads cls) with
      | some (pre, t, post) => take pre t post s
      | none =>
        let (p, s) := malloc sys (slabTotal (slabClassSize cls)) s
        if p = 0 then malloc sys bytes s
        else take [] ⟨p, BitVec.allOnes 64⟩ (s.slabHeads cls) s

/-- `ptr >= start && ptr < end`. -/
def covers (slotSz ptr : Nat) (t : Slab) : Bool :=
  t.addr + slabHeader ≤ ptr && ptr < t.addr + slabHeader + 64 * slotSz

def slabFree (ptr bytes : Nat) (s : AllocState) : AllocState :=
  if ptr = 0 then s
  else
    match slabClassForSize bytes with
    | none => free ptr s
    | some cls =>
      match splitFirst (covers (slabClassSize cls) ptr) (s.slabHeads cls) with
      | none => free ptr s
      | some (pre, t, post) =>
        let bit := (ptr - (t.addr + slabHeader)) / slabClassSize cls
        if bit < 64 then
          let u := { t with freeMask := t.freeMask ||| 1#64 <<< bit }
          { s with slabHeads := Function.update s.slabHeads cls (pre ++ u :: post) }
        else s

/-! ## Huge pages and the tiers -/

def hugePageSz : Nat := 2 * 1024 * 1024

/-- `(bytes + HUGE_PAGE_SZ - 1) & ~(HUGE_PAGE_SZ - 1)`. -/
def hugeAligned (bytes : Nat) : Nat := (bytes + (2 ^ 21 - 1)) % 2 ^ 64 &&& (2 ^ 64 - 1 - (2 ^ 21 - 1))

def hugePageAlloc (bytes : Nat) (s : AllocState) : Nat × AllocState :=
  let p := sys.map s.time s.held (hugeAligned bytes)
  (p, { s with time := s.time + 1, held := if p = 0 then s.held else ⟨p, hugeAligned bytes⟩ :: s.held })

def hugePageFree (ptr : Nat) (s : AllocState) : AllocState := if ptr = 0 then s else free ptr s

def tierAlloc (bytes : Nat) (s : AllocState) : Nat × AllocState :=
  if bytes = 0 then (0, s)
  else if bytes ≤ 512 then slabAlloc sys bytes s
  else if bytes ≥ hugePageSz then hugePageAlloc sys bytes s
  else poolAlloc sys bytes s

def tierFree (ptr bytes : Nat) (s : AllocState) : AllocState :=
  if ptr = 0 then s
  else if bytes ≤ 512 then slabFree ptr bytes s
  else if bytes ≥ hugePageSz then hugePageFree ptr s
  else poolFree ptr bytes s

end AllocState

/-! ## Runs -/

inductive AllocApi
  | tier
  | pool
  | slab
  deriving DecidableEq

/-- A block that was returned and not freed: through which functions, where, and the size that was asked for. -/
structure LiveBlock where
  api : AllocApi
  ptr : Nat
  size : Nat

structure AllocRun where
  state : AllocState := {}
  live : List LiveBlock := []

inductive AllocOp
  | alloc (api : AllocApi) (size : Fin (2 ^ 64))
  /-- A live block is freed with its size. -/
  | free (i : Nat)
  /-- The program writes to a live block; the words that reach into it may change. -/
  | write (i : Nat) (mem : Nat → Nat)

namespace AllocRun

open AllocState

def allocBy (sys : System) : AllocApi → Nat → AllocState → Nat × AllocState
  | .tier => tierAlloc sys
  | .pool => poolAlloc sys
  | .slab => slabAlloc sys

def freeBy : AllocApi → Nat → Nat → AllocState → AllocState
  | .tier => tierFree
  | .pool => poolFree
  | .slab => slabFree

def step (sys : System) : AllocOp → AllocRun → Option AllocRun
  | .alloc api size, s =>
    let (p, state) := allocBy sys api size { s.state with linked := none }
    some ⟨state, if p = 0 then s.live else ⟨api, p, size⟩ :: s.live⟩
  | .free i, s => do
    let b ← s.live[i]?
    some ⟨freeBy b.api b.ptr b.size { s.state with linked := none }, s.live.eraseIdx i⟩
  | .write i mem, s => do
    let b ← s.live[i]?
    let mem := fun a => if a < b.ptr + b.size ∧ b.ptr < a + 8 then mem a else s.state.mem a
    some ⟨{ s.state with mem, linked := none }, s.live⟩

end AllocRun

end Datara.Runtime
