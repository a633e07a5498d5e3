import Datara.Library.Words
import Datara.Runtime.IntDigits
import Datara.Runtime.RtMap

/-!
# Strings

`runtime/datara_string.c`: short strings in a ring of slots, longer ones in a scratch ring or, when that is
exhausted, on the heap, with a header before those that may grow in place. A string is in a block of memory, and a
load or store outside a block has no result. A length is less than memory.
-/

namespace Datara.Runtime

open Library

/-- Where a string begins. -/
inductive StrPtr
  | null
  /-- `""`. -/
  | lit
  /-- A caller's string. -/
  | ext (n : Nat)
  /-- A slot of `tls_sso_ring`. -/
  | sso (slot : Nat)
  /-- A buffer of `tls_int_bufs`. -/
  | int (slot : Nat)
  /-- A block of `tls_scratch_ring`, by the offset of its header. -/
  | ring (offset : Nat)
  | heap (n : Nat)
  deriving DecidableEq

/-- The memory from the start of a string to the end of its block, and the header before it; `live` where its
`magic` is `DATARA_STRBUF_MAGIC_LIVE`. -/
structure StrBlock where
  bytes : List UInt8
  live : Bool := false
  cap : Nat := 0
  len : Nat := 0

/-- The memory of a thread. -/
structure StrMem where
  blocks : StrPtr → Option StrBlock
  ssoIdx : Nat := 0
  intIdx : Nat := 0
  /-- `tls_scratch_ring`, as it was allocated. -/
  ring : Option (List UInt8) := none
  offset : Nat := 0
  /-- `tls_heap_recent_payload`. -/
  recent : StrPtr := .null
  exts : Nat := 0
  heaps : Nat := 0

namespace StrMem

def ssoMaxLen : Nat := 22

def ssoRingCount : Nat := 512

def ssoSlotSize : Nat := 24

def hdrBytes : Nat := 16

/-- `DATARA_SCRATCH_RING_SIZE`. -/
def ringSize : Nat := 1024 * 1024

/-- `(n + 15) & ~15`. -/
def roundUp (n : Nat) : Nat := (n + 15) / 16 * 16

/-- The memory as a thread finds it. -/
def initial : StrMem where
  blocks
    | .lit => some { bytes := [0] }
    | .sso slot => if slot < ssoRingCount then some { bytes := List.replicate ssoSlotSize 0 } else none
    | .int slot => if slot < 256 then some { bytes := List.replicate 32 0 } else none
    | _ => none

/-! ## Loads and stores -/

def setBlock (p : StrPtr) (b : StrBlock) (m : StrMem) : StrMem :=
  { m with blocks := Function.update m.blocks p (some b) }

def strlen (p : StrPtr) (m : StrMem) : Option Nat := do
  let b ← m.blocks p
  b.bytes.findIdx? (· = 0)

/-- `!p || p[0] == '\0'`. -/
def isEmpty (p : StrPtr) (m : StrMem) : Option Bool :=
  match p with
  | .null => some true
  | p => do
    let b ← m.blocks p
    let c ← b.bytes[0]?
    some (c = 0)

def read (src : StrPtr) (n : Nat) (m : StrMem) : Option (List UInt8) := do
  let b ← m.blocks src
  if n ≤ b.bytes.length then some (b.bytes.take n) else none

def write (dst : StrPtr) (d : Nat) (bs : List UInt8) (m : StrMem) : Option StrMem := do
  let b ← m.blocks dst
  let bytes ← patchWords b.bytes d bs
  some (m.setBlock dst { b with bytes := bytes })

/-- `datara_fast_copy` of one string after the other. -/
def copyAll (dst : StrPtr) (d : Nat) : List (StrPtr × Nat) → StrMem → Option StrMem
  | [], m => some m
  | (src, n) :: srcs, m =>
    if n = 0 then copyAll dst d srcs m
    else do
      let bs ← m.read src n
      let m ← m.write dst d bs
      copyAll dst (d + n) srcs m

def total (srcs : List (StrPtr × Nat)) : Nat := (srcs.map Prod.snd).sum

/-- The copies, and the terminator after them. -/
def fill (dst : StrPtr) (d : Nat) (srcs : List (StrPtr × Nat)) (m : StrMem) : Option StrMem := do
  let m ← m.copyAll dst d srcs
  m.write dst (d + total srcs) [0]

/-! ## Allocation -/

section
variable (malloc : Nat → Option (List UInt8))

/-- `datara_str_heap_alloc_growable`. -/
def heapAllocGrowable (len : Nat) (m : StrMem) : Option StrPtr × StrMem :=
  match malloc (len + 1 + hdrBytes * 2) with
  | none => (none, m)
  | some w => (some (.heap m.heaps), { m.setBlock (.heap m.heaps) { bytes := w.drop (hdrBytes * 2) } with
      heaps := m.heaps + 1 })

/-- `datara_str_scratch_alloc`. -/
def scratchAlloc (len : Nat) (m : StrMem) : Option StrPtr × StrMem :=
  let m := match m.ring with
    | some _ => m
    | none => { m with ring := malloc ringSize }
  match m.ring with
  | none => heapAllocGrowable malloc len m
  | some ring =>
    let needed := roundUp (len + 1) + hdrBytes
    if ringSize / 2 < needed then heapAllocGrowable malloc len m
    else if ringSize ≤ m.offset + needed then heapAllocGrowable malloc len m
    else (some (.ring m.offset), { m.setBlock (.ring m.offset)
        { bytes := (ring.drop (m.offset + hdrBytes)).take (needed - hdrBytes) } with offset := m.offset + needed })

end

/-- `datara_strbuf_is_growable`. -/
def growable (p : StrPtr) (m : StrMem) : Bool :=
  match p with
  | .null => false
  | .ring offset => (m.blocks (.ring offset)).any StrBlock.live
  | p => p = m.recent && (m.blocks p).any StrBlock.live

/-- `datara_strbuf_mark_live`. -/
def markLive (buf : StrPtr) (cap len : Nat) (m : StrMem) : StrMem :=
  let m := match buf with
    | .ring _ => m
    | buf => { m with recent := buf }
  if cap < hdrBytes then m
  else
    match m.blocks buf with
    | none => m
    | some b => m.setBlock buf { b with live := true, cap := cap % 2 ^ 32, len := len % 2 ^ 32 }

section
variable (malloc : Nat → Option (List UInt8))

/-- A new block that may grow, with strings copied into it. -/
def build (allocLen : Nat) (srcs : List (StrPtr × Nat)) (fallback : StrPtr) (m : StrMem) :
    Option (StrPtr × StrMem) :=
  match scratchAlloc malloc allocLen m with
  | (none, m) => some (fallback, m)
  | (some buf, m) => do
    let m ← m.fill buf 0 srcs
    some (buf, m.markLive buf (roundUp (allocLen + 1)) (total srcs))

/-- The cached length in a header. -/
def cachedLen (p : StrPtr) (m : StrMem) : Nat := ((m.blocks p).map StrBlock.len).getD 0

/-- `datara_strbuf_copy_growable`. -/
def copyGrowable (p : StrPtr) (m : StrMem) : Option (StrPtr × StrMem) := do
  let ls ← if m.growable p then some (m.cachedLen p) else m.strlen p
  build malloc ls [(p, ls)] .lit m

/-! ## Concatenation -/

/-- The next slot of `tls_sso_ring`, with strings copied into it. -/
def shortString (srcs : List (StrPtr × Nat)) (m : StrMem) : Option (StrPtr × StrMem) := do
  let slot := StrPtr.sso (m.ssoIdx % ssoRingCount)
  let m ← { m with ssoIdx := (m.ssoIdx + 1) % 2 ^ 32 }.fill slot 0 srcs
  some (slot, m)

/-- `datara_rt_str_concat`. -/
def concat (a b : StrPtr) (m : StrMem) : Option (StrPtr × StrMem) := do
  if ← m.isEmpty a then
    if m.growable b then copyGrowable malloc b m
    else some (if b = .null then .lit else b, m)
  else if ← m.isEmpty b then
    if m.growable a then copyGrowable malloc a m
    else some (a, m)
  else
    let la ← m.strlen a
    let lb ← m.strlen b
    if la + lb ≤ ssoMaxLen then shortString [(a, la), (b, lb)] m
    else build malloc (la + lb) [(a, la), (b, lb)] .lit m

/-- `b >= dst && b < dst + la`. -/
def within (b dst : StrPtr) (la : Nat) : Bool :=
  match b, dst with
  | .ring x, .ring y => y ≤ x && x < y + la
  | b, dst => b = dst && 0 < la

/-- `newcap` of a buffer that grows. -/
def newCap (cap total : Nat) : Nat := max (max (cap * 2) (total + 1)) 64

/-- Whether a block ends where the next one of the scratch ring begins, and has room there. -/
def atTip (dst : StrPtr) (cap newcap : Nat) (m : StrMem) : Bool :=
  match dst with
  | .ring offset => offset + hdrBytes + roundUp (cap + 1) = m.offset &&
      m.offset + (roundUp (newcap + 1) - roundUp (cap + 1)) < ringSize
  | _ => false

/-- An append in a block that has room: the string and its cached length. -/
def appendTo (dst : StrPtr) (la : Nat) (b : StrPtr) (lb : Nat) (m : StrMem) : Option (StrPtr × StrMem) := do
  let m ← m.fill dst la [(b, lb)]
  let h ← m.blocks dst
  some (dst, m.setBlock dst { h with len := (la + lb) % 2 ^ 32 })

/-- The tip of the scratch ring moves on. -/
def extendTip (dst : StrPtr) (h : StrBlock) (newcap : Nat) (m : StrMem) : StrMem :=
  let grown := roundUp (newcap + 1) - roundUp (h.cap + 1)
  let bytes := h.bytes ++ ((m.ring.getD []).drop m.offset).take grown
  { m.setBlock dst { h with bytes := bytes, cap := roundUp (newcap + 1) % 2 ^ 32 } with offset := m.offset + grown }

/-- `realloc` of the most recent heap block, with a string appended. -/
def reallocAppend (dst : StrPtr) (h : StrBlock) (b : StrPtr) (lb newcap : Nat) (m : StrMem) :
    Option (StrPtr × StrMem) :=
  let sum := h.len + lb
  let need := sum + 1 + hdrBytes * 2
  match malloc need with
  | none => some (.lit, m)
  | some w => do
    let ndst := StrPtr.heap m.heaps
    let bytes := h.bytes.take (sum + 1) ++ (w.drop (hdrBytes * 2)).drop h.bytes.length
    let cap := if newcap < need - 1 - hdrBytes * 2 then newcap else need - 1 - hdrBytes * 2
    let blocks := Function.update m.blocks dst none
    let m := { m with
      blocks := Function.update blocks ndst (some { live := true, bytes := bytes, cap := cap % 2 ^ 32, len := h.len })
      recent := ndst, heaps := m.heaps + 1 }
    m.appendTo ndst h.len b lb

/-- `datara_rt_str_concat_mut`. -/
def concatMut (dst b : StrPtr) (m : StrMem) : Option (StrPtr × StrMem) := do
  if ← m.isEmpty b then some (if dst = .null then .lit else dst, m)
  else if ← m.isEmpty dst then
    if m.growable b then copyGrowable malloc b m
    else
      let lb ← m.strlen b
      let initCap := if lb < 64 then 64 else roundUp (lb * 2)
      build malloc initCap [(b, lb)] b m
  else if m.growable dst = false then concat malloc dst b m
  else
    let lb ← m.strlen b
    let h ← m.blocks dst
    if within b dst h.len then concat malloc dst b m
    else if h.cap < h.len + lb + 1 then
      let newcap := newCap h.cap (h.len + lb)
      if m.atTip dst h.cap newcap then (m.extendTip dst h newcap).appendTo dst h.len b lb
      else if dst = m.recent then reallocAppend malloc dst h b lb newcap m
      else
        let (nb, m) ← build malloc newcap [(dst, h.len), (b, lb)] .lit m
        -- the old block is the new one's no more
        some (nb, if nb = .lit then m else m.setBlock dst { h with live := false })
    else m.appendTo dst h.len b lb

/-- `datara_fast_strlen`: the length of an integer's text is in the last byte of its buffer. -/
def fastStrlen (s : StrPtr) (m : StrMem) : Option Nat :=
  match s with
  | .null => some 0
  | .int slot => do
    let b ← m.blocks (.int slot)
    let c ← b.bytes[31]?
    some c.toNat
  | s => m.strlen s

/-- `datara_rt_str_concat_3`, `datara_rt_str_concat_4` and `datara_rt_str_concat_5`, by their strings. -/
def concatN (srcs : List StrPtr) (m : StrMem) : Option (StrPtr × StrMem) := do
  let lens ← srcs.mapM fun s => m.fastStrlen s
  match scratchAlloc malloc lens.sum m with
  | (none, m) => some (.lit, m)
  | (some buf, m) => do
    let m ← m.fill buf 0 (srcs.zip lens)
    some (buf, m)

end

/-! ## Short strings and integers -/

/-- `datara_rt_int_to_str`. -/
def intToStr (v : Int) (m : StrMem) : Option (StrPtr × StrMem) := do
  let buf := StrPtr.int (m.intIdx % 256)
  let text := fastI64toa v
  let m ← { m with intIdx := (m.intIdx + 1) % 2 ^ 32 }.write buf 0 (text ++ [0])
  let m ← m.write buf 31 [UInt8.ofNat text.length]
  some (buf, m)

/-- `datara_rt_str_sso`. -/
def strSso (malloc : Nat → Option (List UInt8)) (s : StrPtr) (m : StrMem) : Option (StrPtr × StrMem) :=
  match s with
  | .null => some (.lit, m)
  | s => do
    let len ← m.strlen s
    if len ≤ ssoMaxLen then shortString [(s, len)] m
    else
      match malloc (len + 1) with
      | none => some (.lit, m)
      | some w => do
        let buf := StrPtr.heap m.heaps
        let m ← { m.setBlock buf { bytes := w } with heaps := m.heaps + 1 }.fill buf 0 [(s, len)]
        some (buf, m)

end StrMem

/-! ## Runs -/

namespace RtString

/-- A call on the strings a program has, by their numbers. `concatMut` takes its first string from the program. -/
inductive Op
  | ext (s : CStr)
  | null
  | concat (a b : Nat)
  | concatMut (dst b : Nat)
  | concatN (srcs : List Nat)
  | intToStr (v : Int)
  | strSso (s : Nat)

/-- A string of a program: where it is, and what it was when it was returned. -/
abbrev Value := StrPtr × List UInt8

structure Program where
  mem : StrMem := StrMem.initial
  vals : List (Option Value) := []

namespace Program

def val (i : Nat) (s : Program) : Option Value := s.vals[i]?.join

/-- A result. -/
def push (v : Value) (m : StrMem) (s : Program) : Program := { mem := m, vals := s.vals ++ [some v] }

/-- A string is a program's no more. -/
def take (i : Nat) (s : Program) : Program := { s with vals := s.vals.set i none }

end Program

/-- A call, on strings the program has. -/
def step (malloc : Nat → Option (List UInt8)) (op : Op) (s : Program) : Option Program :=
  match op with
  | .ext cs =>
    let m := s.mem.setBlock (.ext s.mem.exts) { bytes := cs.bytes ++ [0] }
    some (s.push (.ext s.mem.exts, cs.bytes) { m with exts := s.mem.exts + 1 })
  | .null => some (s.push (.null, []) s.mem)
  | .concat a b => do
    let va ← s.val a
    let vb ← s.val b
    let (p, m) ← s.mem.concat malloc va.1 vb.1
    some (s.push (p, va.2 ++ vb.2) m)
  | .concatMut dst b => do
    let vd ← s.val dst
    let vb ← s.val b
    let (p, m) ← s.mem.concatMut malloc vd.1 vb.1
    some ((s.take dst).push (p, vd.2 ++ vb.2) m)
  | .concatN srcs => do
    let vs ← srcs.mapM fun i => s.val i
    let (p, m) ← s.mem.concatN malloc (vs.map Prod.fst)
    some (s.push (p, (vs.map Prod.snd).flatten) m)
  | .intToStr v => do
    let (p, m) ← s.mem.intToStr v
    some (s.push (p, decimalInt v) m)
  | .strSso i => do
    let v ← s.val i
    let (p, m) ← s.mem.strSso malloc v.1
    some (s.push (p, v.2) m)

/-- The bytes of a string. -/
def text (p : StrPtr) (m : StrMem) : Option (List UInt8) :=
  match p with
  | .null => some []
  | p => do
    let b ← m.blocks p
    let n ← b.bytes.findIdx? (· = 0)
    some (b.bytes.take n)

/-- Every string of a program is what it was when it was returned, and no header has a capacity of more bytes than
its block has. -/
def Intact (s : Program) : Prop :=
  (∀ i v, s.val i = some v → text v.1 s.mem = some v.2) ∧
    ∀ p b, s.mem.blocks p = some b → b.live = true → b.cap ≤ b.bytes.length

/-- What a caller keeps: the strings are the program's, and an integer has 64 bits. -/
def Uses (op : Op) (s : Program) : Prop :=
  match op with
  | .ext _ | .null => True
  | .concat a b | .concatMut a b => (s.val a).isSome ∧ (s.val b).isSome
  | .concatN srcs => ∀ i ∈ srcs, (s.val i).isSome
  | .intToStr v => -2 ^ 63 ≤ v ∧ v < 2 ^ 63
  | .strSso i => (s.val i).isSome

/-! ## Where the buffers suffice -/

/-- A growable block of a length is in the scratch ring, or on the heap with the capacity that its header says. -/
def Room (len : Nat) (m : StrMem) : Prop :=
  StrMem.roundUp (len + 1) + StrMem.hdrBytes ≤ StrMem.ringSize / 2 ∧
      m.offset + (StrMem.roundUp (len + 1) + StrMem.hdrBytes) < StrMem.ringSize ∨
    (len + 1) % 16 = 0 ∧ len + 1 < 2 ^ 32

/-- A slot for a short string that no string is in. -/
def Short (m : StrMem) : Prop := m.ssoIdx < StrMem.ssoRingCount

def length (p : StrPtr) (m : StrMem) : Nat := (m.strlen p).getD 0

def empty (p : StrPtr) (m : StrMem) : Prop := m.isEmpty p = some true

/-- The buffers suffice for a concatenation. -/
def ConcatRoom (a b : StrPtr) (m : StrMem) : Prop :=
  (empty a m → m.growable b = true → Room (length b m) m) ∧
    (¬empty a m → empty b m → m.growable a = true → Room (length a m) m) ∧
    (¬empty a m → ¬empty b m →
      (length a m + length b m ≤ StrMem.ssoMaxLen → Short m) ∧
      (StrMem.ssoMaxLen < length a m + length b m → Room (length a m + length b m) m))

/-- They suffice for an append: one that finds no room in its block needs a new one. -/
def AppendRoom (dst b : StrPtr) (m : StrMem) : Prop :=
  ¬empty b m →
    (empty dst m → (m.growable b = true → Room (length b m) m) ∧
      (m.growable b = false → Room (if length b m < 64 then 64 else StrMem.roundUp (length b m * 2)) m)) ∧
    (¬empty dst m → (m.growable dst = false ∨ StrMem.within b dst (m.cachedLen dst)) → ConcatRoom dst b m) ∧
    (¬empty dst m → m.growable dst = true → StrMem.within b dst (m.cachedLen dst) = false →
      ∀ h, m.blocks dst = some h → h.cap < h.len + length b m + 1 →
      if dst = m.recent then h.len + length b m < 2 ^ 32
      else Room (StrMem.newCap h.cap (h.len + length b m)) m)

/-- The slots and the blocks that a call takes are new, and large enough. -/
def Suffices (op : Op) (s : Program) : Prop :=
  match op with
  | .ext _ | .null | .concatN _ => True
  | .concat a b => ∀ va vb, s.val a = some va → s.val b = some vb → ConcatRoom va.1 vb.1 s.mem
  | .concatMut dst b => ∀ vd vb, s.val dst = some vd → s.val b = some vb → AppendRoom vd.1 vb.1 s.mem
  | .intToStr _ => s.mem.intIdx < 256
  | .strSso i => ∀ v, s.val i = some v → v.1 ≠ .null → length v.1 s.mem ≤ StrMem.ssoMaxLen → Short s.mem

end RtString

end Datara.Runtime
