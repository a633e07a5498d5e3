import Datara.Library.Blocks
import Datara.Library.Masks
import Datara.Library.Runs

/-!
# The bump arena

`runtime/bump_arena.rs`. Regular chunks and the chunks of oversized blocks are in one vector, and a cursor into it is
advanced by an allocation and rewound by a reset or the end of a scope. The global allocator is a parameter. A sum of
words wraps, as in a build without overflow checks.
-/

namespace Datara.Runtime

open Library

/-- What the global allocator answers to a request for a size at an alignment of 64, when it has given out some blocks
already. -/
abbrev GlobalAlloc := List Block → Nat → Option Nat

/-- The documented behaviour of the global allocator. -/
structure GlobalAlloc.Lawful (sys : GlobalAlloc) : Prop where
  aligned : ∀ held size p, sys held size = some p → 64 ∣ p
  apart : ∀ held size p, sys held size = some p → ∀ b ∈ held, b.Apart ⟨p, size⟩

/-- The size and the power of two of a call. -/
structure Request where
  size : Nat
  align : Nat
  size_lt : size < 2 ^ 64
  align_eq : ∃ k < 64, align = 2 ^ k

/-- A request without an alignment. -/
def Request.bytes (size : Nat) (h : size < 2 ^ 64) : Request := ⟨size, 1, h, 0, by decide, rfl⟩

structure BumpArena where
  chunkSize : Nat
  chunks : List Nat
  currentChunkIdx : Nat := 0
  offset : Nat := 0
  totalAllocated : Nat := 0

namespace BumpArena

/-- The largest size of a layout with an alignment of 64: rounded up to it, it is no more than `isize::MAX`. -/
def layoutMax : Nat := 2 ^ 63 - 64

/-- A chunk, and the blocks the global allocator has given out after it; no result where the source panics. -/
def allocChunk (sys : GlobalAlloc) (heap : List Block) (size : Nat) : Option (Nat × List Block) :=
  if size ≤ layoutMax then (sys heap size).map fun base => (base, heap ++ [⟨base, size⟩]) else none

def new (sys : GlobalAlloc) (chunkSize : Nat) : Option (BumpArena × List Block) :=
  (allocChunk sys [] chunkSize).map fun (first, heap) => ({ chunkSize, chunks := [first] }, heap)

/-- `NonNull::<u8>::dangling()`. -/
def dangling : Nat := 1

/-- `(self.offset + align_mask) & !align_mask`. -/
def alignedOffset (a : BumpArena) (r : Request) : Nat :=
  (a.offset + (r.align - 1)) % 2 ^ 64 &&& (2 ^ 64 - 1 - (r.align - 1))

/-- `aligned_offset + size`. -/
def bumped (a : BumpArena) (r : Request) : Nat := (a.alignedOffset r + r.size) % 2 ^ 64

/-- The chunk the cursor advances to. -/
def nextChunk (sys : GlobalAlloc) (heap : List Block) (a : BumpArena) : Option (List Nat × List Block) :=
  if a.currentChunkIdx + 1 ≥ a.chunks.length then
    (allocChunk sys heap a.chunkSize).map fun (chunk, heap) => (a.chunks ++ [chunk], heap)
  else some (a.chunks, heap)

def alloc (sys : GlobalAlloc) (heap : List Block) (a : BumpArena) (r : Request) :
    Option (Nat × BumpArena × List Block) :=
  if r.size = 0 then some (dangling, a, heap)
  else
    let total := (a.totalAllocated + r.size) % 2 ^ 64
    if a.bumped r ≤ a.chunkSize then do
      let chunk ← a.chunks[a.currentChunkIdx]?
      some (chunk + a.alignedOffset r, { a with offset := a.bumped r, totalAllocated := total }, heap)
    else if r.size > a.chunkSize then do
      let (dedicated, heap) ← allocChunk sys heap r.size
      some (dedicated, { a with chunks := a.chunks ++ [dedicated], totalAllocated := total }, heap)
    else do
      let (chunks, heap) ← nextChunk sys heap a
      let chunk ← chunks[a.currentChunkIdx + 1]?
      some (chunk,
        { a with chunks, currentChunkIdx := a.currentChunkIdx + 1, offset := r.size, totalAllocated := total }, heap)

def reset (a : BumpArena) : BumpArena := { a with currentChunkIdx := 0, offset := 0, totalAllocated := 0 }

end BumpArena

structure ScopeArenaGuard where
  initialOffset : Nat
  initialChunk : Nat
  initialAllocated : Nat

namespace ScopeArenaGuard

def new (arena : BumpArena) : ScopeArenaGuard where
  initialOffset := arena.offset
  initialChunk := arena.currentChunkIdx
  initialAllocated := arena.totalAllocated

def drop (guard : ScopeArenaGuard) (arena : BumpArena) : BumpArena :=
  { arena with
    currentChunkIdx := guard.initialChunk
    offset := guard.initialOffset
    totalAllocated := guard.initialAllocated }

end ScopeArenaGuard

/-! ## Runs -/

/-- A block that a call has returned, and the alignment it was asked for. -/
structure Grant where
  block : Block
  align : Nat

/-- An arena in use: the blocks it has from the global allocator, what it has returned and is not released, and the
open scopes with what was not released when each was opened. -/
structure ArenaRun where
  arena : BumpArena
  heap : List Block
  live : List Grant := []
  scopes : List (ScopeArenaGuard × List Grant) := []

inductive ArenaOp
  | alloc (r : Request)
  | openScope
  | closeScope
  | reset

namespace ArenaRun

def start (sys : GlobalAlloc) (chunkSize : Nat) : Option ArenaRun :=
  (BumpArena.new sys chunkSize).map fun (arena, heap) => { arena, heap }

/-- The end of a scope releases what was returned in it, and a reset what was ever returned. -/
def step (sys : GlobalAlloc) : ArenaOp → ArenaRun → Option ArenaRun
  | .alloc r, s => (s.arena.alloc sys s.heap r).map fun (p, arena, heap) =>
      { s with arena, heap, live := ⟨⟨p, r.size⟩, r.align⟩ :: s.live }
  | .openScope, s => some { s with scopes := (.new s.arena, s.live) :: s.scopes }
  | .closeScope, s =>
    match s.scopes with
    | [] => none
    | (guard, kept) :: scopes => some { s with arena := guard.drop s.arena, live := kept, scopes }
  | .reset, s =>
    some { s with arena := s.arena.reset, live := [], scopes := s.scopes.map fun (guard, _) => (guard, []) }

/-- What has been returned and is not released is aligned, in a chunk that is large enough, and apart. -/
structure Sound (heap : List Block) (live : List Grant) : Prop where
  aligned : ∀ g ∈ live, g.align ∣ g.block.addr
  inside : ∀ g ∈ live, ∃ c ∈ heap, g.block.size ≤ c.size ∧ g.block.Within c
  apart : live.Pairwise fun g h => g.block.Apart h.block

/-- The chunk that the block of a call is taken from. -/
def chunkFor (sys : GlobalAlloc) (s : ArenaRun) (r : Request) : Option Nat :=
  if s.arena.bumped r ≤ s.arena.chunkSize then s.arena.chunks[s.arena.currentChunkIdx]?
  else if r.size > s.arena.chunkSize then (BumpArena.allocChunk sys s.heap r.size).map Prod.fst
  else
    match s.arena.chunks[s.arena.currentChunkIdx + 1]? with
    | some chunk => some chunk
    | none => (BumpArena.allocChunk sys s.heap s.arena.chunkSize).map Prod.fst

/-- What a call has to meet: an empty block is asked for at no alignment, the sum does not wrap into the chunk, the
chunk is aligned, and the cursor does not advance into a chunk that begins with a block that is not released. -/
structure Fits (sys : GlobalAlloc) (s : ArenaRun) (r : Request) : Prop where
  empty : r.size = 0 → r.align = 1
  sum : 0 < r.size → s.arena.bumped r ≤ s.arena.chunkSize → s.arena.alignedOffset r + r.size < 2 ^ 64
  chunk : 0 < r.size → ∀ base, chunkFor sys s r = some base → r.align ∣ base
  next : 0 < r.size → s.arena.chunkSize < s.arena.bumped r → r.size ≤ s.arena.chunkSize →
    ∀ base, s.arena.chunks[s.arena.currentChunkIdx + 1]? = some base → ∀ g ∈ s.live, 0 < g.block.size →
      g.block.addr ≠ base

/-- The condition of a step. -/
def Admits (sys : GlobalAlloc) : ArenaOp → ArenaRun → Prop
  | .alloc r, s => Fits sys s r
  | _, _ => True

end ArenaRun

end Datara.Runtime
