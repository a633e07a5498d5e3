import Datara.Library.Words
import Mathlib.Data.Nat.Find
import Mathlib.Data.Nat.NthRoot.Defs
import Mathlib.Algebra.Group.Nat.Defs

/-!
# The secure hash

SHA-256 of FIPS 180-4, over bits. The constants are roots of the first primes, as the standard says, and the padding is
the least that leaves room for the length. For a message of bytes the same function is told over bytes (`sha256_bytes`):
a fold over blocks of 64, which an append to whole blocks continues (`hashBlocks_append`).
-/

namespace Datara.Library.SecureHash

/-! ## Functions and constants -/

def ROTR (n x : UInt32) : UInt32 := (x >>> n) ||| (x <<< (32 - n))

def Ch (x y z : UInt32) : UInt32 := (x &&& y) ^^^ (~~~x &&& z)

def Maj (x y z : UInt32) : UInt32 := (x &&& y) ^^^ (x &&& z) ^^^ (y &&& z)

def bigSigma0 (x : UInt32) : UInt32 := ROTR 2 x ^^^ ROTR 13 x ^^^ ROTR 22 x

def bigSigma1 (x : UInt32) : UInt32 := ROTR 6 x ^^^ ROTR 11 x ^^^ ROTR 25 x

def smallSigma0 (x : UInt32) : UInt32 := ROTR 7 x ^^^ ROTR 18 x ^^^ (x >>> 3)

def smallSigma1 (x : UInt32) : UInt32 := ROTR 17 x ^^^ ROTR 19 x ^^^ (x >>> 10)

/-- The first sixty-four primes. -/
def primes : List Nat :=
  [2, 3, 5, 7, 11, 13, 17, 19, 23, 29, 31, 37, 41, 43, 47, 53, 59, 61, 67, 71, 73, 79, 83, 89, 97, 101, 103, 107, 109, 113,
    127, 131, 137, 139, 149, 151, 157, 163, 167, 173, 179, 181, 191, 193, 197, 199, 211, 223, 227, 229, 233, 239, 241, 251,
    257, 263, 269, 271, 277, 281, 283, 293, 307, 311]

/-- The first 32 bits of the fractional part of the `n`-th root of `p`. -/
def rootFraction (n p : Nat) : UInt32 := (Nat.nthRoot n (p * 2 ^ (32 * n))).toUInt32

/-- `K_t`. -/
def roundConstant (t : Nat) : UInt32 := rootFraction 3 (primes.getD t 0)

/-- Eight words: a hash value, or the working variables. -/
structure Words where
  a : UInt32
  b : UInt32
  c : UInt32
  d : UInt32
  e : UInt32
  f : UInt32
  g : UInt32
  h : UInt32
  deriving DecidableEq

/-- `H^(0)`. -/
def initialHash : Words :=
  ⟨rootFraction 2 2, rootFraction 2 3, rootFraction 2 5, rootFraction 2 7, rootFraction 2 11, rootFraction 2 13,
    rootFraction 2 17, rootFraction 2 19⟩

def Words.add (x y : Words) : Words :=
  ⟨x.a + y.a, x.b + y.b, x.c + y.c, x.d + y.d, x.e + y.e, x.f + y.f, x.g + y.g, x.h + y.h⟩

def Words.toList (x : Words) : List UInt32 := [x.a, x.b, x.c, x.d, x.e, x.f, x.g, x.h]

/-! ## The computation -/

/-- `W_t`, for a block with the words `M`. -/
def schedule (M : Nat → UInt32) (t : Nat) : UInt32 :=
  if t < 16 then M t
  else smallSigma1 (schedule M (t - 2)) + schedule M (t - 7) + smallSigma0 (schedule M (t - 15)) + schedule M (t - 16)

/-- One round, with its word and its constant. -/
def round (W K : UInt32) (v : Words) : Words :=
  let T₁ := v.h + bigSigma1 v.e + Ch v.e v.f v.g + K + W
  let T₂ := bigSigma0 v.a + Maj v.a v.b v.c
  ⟨T₁ + T₂, v.a, v.b, v.c, v.d + T₁, v.e, v.f, v.g⟩

def roundsTo (W : Nat → UInt32) : Nat → Words → Words
  | 0, v => v
  | t + 1, v => round (W t) (roundConstant t) (roundsTo W t v)

def compress (H : Words) (M : Nat → UInt32) : Words := (roundsTo (schedule M) 64 H).add H

/-- The bits of a number, the most significant one first. -/
def bitsOf : Nat → Nat → List Bool
  | 0, _ => []
  | n + 1, v => v.testBit n :: bitsOf n v

def ofBits (bits : List Bool) : Nat := bits.foldl (fun v bit => 2 * v + bit.toNat) 0

attribute [local simp] bitsOf

theorem exists_zeros (l : Nat) : ∃ k, (l + 1 + k) % 512 = 448 := ⟨(959 - l % 512) % 512, by omega⟩

/-- The message, a one, the least number of zeros that leaves room for the length, and the length in 64 bits; the standard
is for messages of fewer than `2 ^ 64` bits. -/
def padded (M : List Bool) : List Bool :=
  M ++ [true] ++ List.replicate (Nat.find (exists_zeros M.length)) false ++ bitsOf 64 M.length

/-- The words of each block of 512 bits. -/
def blocks (bits : List Bool) : List (Nat → UInt32) :=
  (List.range (bits.length / 512)).map fun i t => (ofBits (part bits (512 * i + 32 * t) 32)).toUInt32

def sha256 (M : List Bool) : List Bool :=
  ((blocks (padded M)).foldl compress initialHash).toList.flatMap fun x => bitsOf 32 x.toNat

section
variable {M : Nat → UInt32} {t : Nat}

theorem schedule_block (h : t < 16) : schedule M t = M t := by rw [schedule, if_pos h]

theorem schedule_next (h : 16 ≤ t) : schedule M t = smallSigma1 (schedule M (t - 2)) + schedule M (t - 7) +
    smallSigma0 (schedule M (t - 15)) + schedule M (t - 16) := by
  rw [schedule, if_neg (by omega)]

end

/-! ## Bits -/

section
variable {m n v : Nat} {a b : List Bool}

@[simp] theorem length_bitsOf : (bitsOf n v).length = n := by
  induction n with
  | zero => rfl
  | succ n ih => rw [bitsOf, List.length_cons, ih]

theorem bitsOf_add : bitsOf (m + n) v = bitsOf m (v / 2 ^ n) ++ bitsOf n v := by
  induction m with
  | zero => simp [bitsOf]
  | succ m ih => rw [Nat.add_right_comm, bitsOf, ih, bitsOf, Nat.testBit_div_two_pow, List.cons_append]

theorem bitsOf_mod (h : m ≤ n) : bitsOf m (v % 2 ^ n) = bitsOf m v := by
  induction m with
  | zero => rfl
  | succ m ih =>
    rw [bitsOf, bitsOf, ih (by omega), Nat.testBit_mod_two_pow]
    simp [show m < n by omega]

theorem ofBits_foldl (s : Nat) : b.foldl (fun v bit => 2 * v + bit.toNat) s = s * 2 ^ b.length + ofBits b := by
  induction b generalizing s with
  | nil => simp [ofBits]
  | cons x b ih =>
    rw [ofBits, List.foldl_cons, List.foldl_cons, ih, ih (2 * 0 + _), List.length_cons, Nat.pow_succ]
    simp only [Nat.mul_zero, Nat.zero_add, Nat.add_mul, Nat.add_assoc]
    rw [Nat.mul_comm 2 s, Nat.mul_assoc, Nat.mul_comm 2]

theorem ofBits_append : ofBits (a ++ b) = ofBits a * 2 ^ b.length + ofBits b := by
  rw [ofBits, List.foldl_append, ofBits_foldl]
  rfl

theorem ofBits_bitsOf : ofBits (bitsOf n v) = v % 2 ^ n := by
  induction n with
  | zero => simp [bitsOf, ofBits, Nat.mod_one]
  | succ n ih =>
    rw [bitsOf, ← List.singleton_append, ofBits_append, ih, length_bitsOf, Nat.mod_pow_succ, ← Nat.toNat_testBit]
    simp only [ofBits, List.foldl_cons, List.foldl_nil, Nat.mul_zero, Nat.zero_add]
    rw [Nat.mul_comm, Nat.add_comm]

end

/-! ## Bytes -/

/-- The bits of a text. -/
def bytesBits (l : List UInt8) : List Bool := l.flatMap fun x => bitsOf 8 x.toNat

/-- The bytes of a number, the most significant one first. -/
def beBytes : Nat → Nat → List UInt8
  | 0, _ => []
  | n + 1, v => (v / 256 ^ n).toUInt8 :: beBytes n v

section
variable {d k n v : Nat} {l a b : List UInt8}

theorem bytesBits_append : bytesBits (a ++ b) = bytesBits a ++ bytesBits b := List.flatMap_append

theorem length_bytesBits : (bytesBits l).length = 8 * l.length := by
  induction l with
  | nil => rfl
  | cons x l ih => rw [← List.singleton_append, bytesBits_append, List.length_append, ih]; simp [bytesBits]; omega

theorem beBytes_mod {m : Nat} (h : n ≤ m) : beBytes n (v % 256 ^ m) = beBytes n v := by
  induction n with
  | zero => rfl
  | succ n ih =>
    have hbyte : (v % 256 ^ m / 256 ^ n).toUInt8 = (v / 256 ^ n).toUInt8 := by
      obtain ⟨k, rfl⟩ := Nat.exists_eq_add_of_le h
      rw [Nat.pow_add, Nat.pow_succ, Nat.mul_assoc, Nat.mod_mul_right_div_self]
      apply UInt8.toNat_inj.mp
      rw [Nat.toUInt8_eq, Nat.toUInt8_eq, UInt8.toNat_ofNat', UInt8.toNat_ofNat']
      exact Nat.mod_mod_of_dvd _ (Nat.dvd_mul_right 256 _)
    rw [beBytes, beBytes, hbyte, ih (by omega)]

theorem byte_shift32 (x s : UInt32) (h : s.toNat < 32) : (x >>> s).toUInt8 = (x.toNat / 2 ^ s.toNat).toUInt8 := by
  rw [UInt32.toUInt8, UInt32.toNat_shiftRight, Nat.mod_eq_of_lt h, Nat.shiftRight_eq_div_pow]

theorem byte_shift64 (x s : UInt64) (h : s.toNat < 64) : (x >>> s).toUInt8 = (x.toNat / 2 ^ s.toNat).toUInt8 := by
  rw [UInt64.toUInt8, UInt64.toNat_shiftRight, Nat.mod_eq_of_lt h, Nat.shiftRight_eq_div_pow]

theorem bytesBits_beBytes : bytesBits (beBytes n v) = bitsOf (8 * n) v := by
  induction n with
  | zero => rfl
  | succ n ih =>
    rw [beBytes, ← List.singleton_append, bytesBits_append, ih, Nat.mul_succ, Nat.add_comm, bitsOf_add, Nat.pow_mul]
    congr 1
    simp only [bytesBits, List.flatMap_cons, List.flatMap_nil, List.append_nil, Nat.toUInt8_eq, UInt8.toNat_ofNat']
    exact bitsOf_mod (Nat.le_refl 8)

theorem bytesBits_replicate : bytesBits (List.replicate k 0) = List.replicate (8 * k) false := by
  induction k with
  | zero => rfl
  | succ k ih =>
    rw [List.replicate_succ, ← List.singleton_append, bytesBits_append, ih, Nat.mul_succ, Nat.add_comm,
      List.replicate_add]
    rfl

theorem part_bytesBits (h : d + n ≤ l.length) : part (bytesBits l) (8 * d) (8 * n) = bytesBits (part l d n) := by
  obtain ⟨before, rest, rfl, rfl⟩ := exists_part (w := l) (n := d) (by omega)
  rw [List.length_append] at h
  obtain ⟨inside, after, rfl, rfl⟩ := exists_part (w := rest) (n := n) (by omega)
  rw [part, part, List.drop_left' rfl, List.take_left' rfl, bytesBits_append, bytesBits_append,
    List.drop_left' length_bytesBits, List.take_left' length_bytesBits]

/-- The words of a block of bytes. -/
def byteBlock (block : List UInt8) (t : Nat) : UInt32 := (ofBits (bytesBits (part block (4 * t) 4))).toUInt32

theorem byteBlock_eq {t : Nat} {p q r s : UInt8} {front rest : List UInt8} (hfront : front.length = 4 * t) :
    byteBlock (front ++ p :: q :: r :: s :: rest) t =
      (p.toNat * 2 ^ 24 + q.toNat * 2 ^ 16 + r.toNat * 2 ^ 8 + s.toNat).toUInt32 := by
  have hbyte (x : UInt8) : ofBits (bitsOf 8 x.toNat) = x.toNat := by
    rw [ofBits_bitsOf]
    exact Nat.mod_eq_of_lt x.toNat_lt
  rw [byteBlock, part, List.drop_left' hfront]
  simp only [List.take_succ_cons, List.take_zero, bytesBits, List.flatMap_cons, List.flatMap_nil, List.append_nil,
    ofBits_append, List.length_append, length_bitsOf, hbyte]
  apply congrArg Nat.toUInt32
  omega

/-! ## The hash of a text -/

/-- What whole blocks of bytes make of a hash value. -/
def hashBlocks (l : List UInt8) (H : Words) : Words :=
  (List.range (l.length / 64)).foldl (fun H i => compress H (byteBlock (part l (64 * i) 64))) H

theorem schedule_congr {M M' : Nat → UInt32} (h : ∀ t < 16, M t = M' t) (t : Nat) : schedule M t = schedule M' t := by
  induction t using Nat.strongRecOn with
  | ind t ih =>
    by_cases ht : t < 16
    · rw [schedule_block ht, schedule_block ht, h t ht]
    · rw [schedule_next (Nat.not_lt.mp ht), schedule_next (M := M') (Nat.not_lt.mp ht), ih (t - 2) (by omega),
        ih (t - 7) (by omega), ih (t - 15) (by omega), ih (t - 16) (by omega)]

theorem compress_congr {H : Words} {M M' : Nat → UInt32} (h : ∀ t < 16, M t = M' t) : compress H M = compress H M' := by
  rw [compress, compress, funext (schedule_congr h)]

theorem foldl_blocks (H : Words) : (blocks (bytesBits l)).foldl compress H = hashBlocks l H := by
  have hcount : (bytesBits l).length / 512 = l.length / 64 := by
    rw [length_bytesBits]
    omega
  rw [blocks, List.foldl_map, hashBlocks, hcount]
  apply List.foldl_ext
  intro H i hi
  have hin := List.mem_range.mp hi
  apply compress_congr
  intro t ht
  have hpart : part (part l (64 * i) 64) (4 * t) 4 = part l (64 * i + 4 * t) 4 := by
    rw [part, part, part, List.drop_take, List.drop_drop, List.take_take, Nat.min_eq_left (by omega)]
  rw [byteBlock, hpart, ← part_bytesBits (by omega), Nat.mul_add, ← Nat.mul_assoc, ← Nat.mul_assoc]

theorem hashBlocks_append {H : Words} (ha : a.length % 64 = 0) :
    hashBlocks (a ++ b) H = hashBlocks b (hashBlocks a H) := by
  have hcount : (a ++ b).length / 64 = a.length / 64 + b.length / 64 := by
    rw [List.length_append]
    omega
  rw [hashBlocks, hcount, List.range_add, List.foldl_append, List.foldl_map]
  have hfront : (List.range (a.length / 64)).foldl (fun H i => compress H (byteBlock (part (a ++ b) (64 * i) 64))) H =
      hashBlocks a H := by
    apply List.foldl_ext
    intro H i hi
    have hin := List.mem_range.mp hi
    rw [part, List.drop_append_of_le_length (by omega), List.take_append_of_le_length (by rw [List.length_drop]; omega),
      part]
  rw [hfront]
  apply List.foldl_ext
  intro H i _
  have hskip : 64 * (a.length / 64 + i) = a.length + 64 * i := by omega
  rw [part, hskip, ← List.drop_drop, List.drop_left' rfl, part]

theorem hashBlocks_block {H : Words} (hl : l.length = 64) : hashBlocks l H = compress H (byteBlock l) := by
  have hpart : part l (64 * 0) 64 = l := by
    rw [part, List.drop_zero, List.take_of_length_le (Nat.le_of_eq hl)]
  rw [hashBlocks, hl, show List.range (64 / 64) = [0] from rfl, List.foldl_cons, List.foldl_nil, hpart]

/-- The padding of a text. -/
def paddedBytes (data : List UInt8) : List UInt8 :=
  data ++ [0x80] ++ List.replicate ((119 - data.length % 64) % 64) 0 ++ beBytes 8 (8 * data.length)

theorem padded_bytesBits : padded (bytesBits l) = bytesBits (paddedBytes l) := by
  have hzeros : Nat.find (exists_zeros (bytesBits l).length) = 7 + 8 * ((119 - l.length % 64) % 64) := by
    rw [Nat.find_eq_iff, length_bytesBits]
    exact ⟨by omega, fun k hk => by omega⟩
  rw [padded, hzeros, paddedBytes, bytesBits_append, bytesBits_append, bytesBits_append, bytesBits_replicate,
    bytesBits_beBytes, List.replicate_add, length_bytesBits]
  simp only [List.append_assoc]
  rfl

theorem sha256_bytes :
    sha256 (bytesBits l) = bytesBits ((hashBlocks (paddedBytes l) initialHash).toList.flatMap fun x => beBytes 4 x.toNat) := by
  rw [sha256, padded_bytesBits, foldl_blocks]
  simp only [Words.toList, List.flatMap_cons, List.flatMap_nil, bytesBits_append, bytesBits_beBytes]
  rfl

end

end Datara.Library.SecureHash
