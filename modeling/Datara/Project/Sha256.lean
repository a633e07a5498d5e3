import Datara.Library.SecureHash

/-!
# Package hashes

`sha256::digest` of `project/pm/crypto.rs`: the message is padded as a whole, and the blocks are hashed in turn. An
index past the end of an array has no result; there is none, and the digest is the one of the standard.
-/

namespace Datara.Project.Sha256

open Library Library.SecureHash

def K : List UInt32 :=
  [0x428a2f98, 0x71374491, 0xb5c0fbcf, 0xe9b5dba5, 0x3956c25b, 0x59f111f1, 0x923f82a4, 0xab1c5ed5, 0xd807aa98, 0x12835b01,
    0x243185be, 0x550c7dc3, 0x72be5d74, 0x80deb1fe, 0x9bdc06a7, 0xc19bf174, 0xe49b69c1, 0xefbe4786, 0x0fc19dc6, 0x240ca1cc,
    0x2de92c6f, 0x4a7484aa, 0x5cb0a9dc, 0x76f988da, 0x983e5152, 0xa831c66d, 0xb00327c8, 0xbf597fc7, 0xc6e00bf3, 0xd5a79147,
    0x06ca6351, 0x14292967, 0x27b70a85, 0x2e1b2138, 0x4d2c6dfc, 0x53380d13, 0x650a7354, 0x766a0abb, 0x81c2c92e, 0x92722c85,
    0xa2bfe8a1, 0xa81a664b, 0xc24b8b70, 0xc76c51a3, 0xd192e819, 0xd6990624, 0xf40e3585, 0x106aa070, 0x19a4c116, 0x1e376c08,
    0x2748774c, 0x34b0bcb5, 0x391c0cb3, 0x4ed8aa4a, 0x5b9cca4f, 0x682e6ff3, 0x748f82ee, 0x78a5636f, 0x84c87814, 0x8cc70208,
    0x90befffa, 0xa4506ceb, 0xbef9a3f7, 0xc67178f2]

/-- `u32::rotate_right`. -/
def rotateRight (x : UInt32) (n : Nat) : UInt32 := ⟨x.toBitVec.rotateRight n⟩

/-- `u32::from_be_bytes`. -/
def fromBeBytes (p q r s : UInt8) : UInt32 :=
  (p.toNat * 2 ^ 24 + q.toNat * 2 ^ 16 + r.toNat * 2 ^ 8 + s.toNat).toUInt32

/-- `u32::to_be_bytes`. -/
def toBeBytes32 (x : UInt32) : List UInt8 := [(x >>> 24).toUInt8, (x >>> 16).toUInt8, (x >>> 8).toUInt8, x.toUInt8]

/-- `u64::to_be_bytes`. -/
def toBeBytes64 (x : UInt64) : List UInt8 :=
  [(x >>> 56).toUInt8, (x >>> 48).toUInt8, (x >>> 40).toUInt8, (x >>> 32).toUInt8, (x >>> 24).toUInt8, (x >>> 16).toUInt8,
    (x >>> 8).toUInt8, x.toUInt8]

/-- `slice::chunks_exact`. -/
def chunksExact (n : Nat) (l : List UInt8) : List (List UInt8) := (List.range (l.length / n)).map fun i => part l (n * i) n

/-- `while msg.len() % 64 != 56 { msg.push(0) }`. -/
def pushZeros (msg : List UInt8) : List UInt8 :=
  if msg.length % 64 ≠ 56 then pushZeros (msg ++ [0]) else msg
termination_by (120 - msg.length % 64) % 64
decreasing_by
  rw [List.length_append, List.length_singleton]
  omega

/-- `w[i] = u32::from_be_bytes(..)`, for each word of a chunk. -/
def loadWords : List UInt8 → Nat → List UInt32 → Option (List UInt32)
  | p :: q :: r :: s :: rest, i, w => do
    let w ← storeWord w i (fromBeBytes p q r s)
    loadWords rest (i + 1) w
  | _, _, w => some w

/-- `for i in 16..64`, for a number of words that are left. -/
def extendWords : Nat → Nat → List UInt32 → Option (List UInt32)
  | 0, _, w => some w
  | n + 1, i, w => do
    let w15 ← w[i - 15]?
    let s0 := rotateRight w15 7 ^^^ rotateRight w15 18 ^^^ (w15 >>> 3)
    let w2 ← w[i - 2]?
    let s1 := rotateRight w2 17 ^^^ rotateRight w2 19 ^^^ (w2 >>> 10)
    let w16 ← w[i - 16]?
    let w7 ← w[i - 7]?
    let w ← storeWord w i (w16 + s0 + w7 + s1)
    extendWords n (i + 1) w

/-- `for i in 0..64`, for a number of rounds that are left. -/
def roundLoop (w : List UInt32) : Nat → Nat → Words → Option Words
  | 0, _, v => some v
  | n + 1, i, v => do
    let s1 := rotateRight v.e 6 ^^^ rotateRight v.e 11 ^^^ rotateRight v.e 25
    let ch := (v.e &&& v.f) ^^^ (~~~v.e &&& v.g)
    let k ← K[i]?
    let wi ← w[i]?
    let temp1 := v.h + s1 + ch + k + wi
    let s0 := rotateRight v.a 2 ^^^ rotateRight v.a 13 ^^^ rotateRight v.a 22
    let maj := (v.a &&& v.b) ^^^ (v.a &&& v.c) ^^^ (v.b &&& v.c)
    let temp2 := s0 + maj
    roundLoop w n (i + 1) ⟨temp1 + temp2, v.a, v.b, v.c, v.d + temp1, v.e, v.f, v.g⟩

/-- The body of the loop over the chunks; `h` has a word for each place. -/
def hashChunk (h : Words) (chunk : List UInt8) : Option Words := do
  let w ← loadWords chunk 0 (List.replicate 64 0)
  let w ← extendWords 48 16 w
  let v ← roundLoop w 64 0 h
  return ⟨h.a + v.a, h.b + v.b, h.c + v.c, h.d + v.d, h.e + v.e, h.f + v.f, h.g + v.g, h.h + v.h⟩

def digest (data : List UInt8) : Option (List UInt8) := do
  let bitlen := data.length.toUInt64 * 8
  let msg := pushZeros (data ++ [0x80]) ++ toBeBytes64 bitlen
  let h ← (chunksExact 64 msg).foldlM hashChunk
    ⟨0x6a09e667, 0xbb67ae85, 0x3c6ef372, 0xa54ff53a, 0x510e527f, 0x9b05688c, 0x1f83d9ab, 0x5be0cd19⟩
  return h.toList.flatMap toBeBytes32

/-! ## Words and bytes -/

theorem K_eq : K = (List.range 64).map roundConstant := by decide +kernel

theorem getElem?_K {i : Nat} (h : i < 64) : K[i]? = some (roundConstant i) := by
  rw [K_eq, List.getElem?_map, List.getElem?_range h]
  rfl

theorem initial_eq : initialHash =
    ⟨0x6a09e667, 0xbb67ae85, 0x3c6ef372, 0xa54ff53a, 0x510e527f, 0x9b05688c, 0x1f83d9ab, 0x5be0cd19⟩ := by
  decide +kernel

theorem rotateRight_eq (x n : UInt32) (h : 0 < n.toNat ∧ n.toNat < 32) : rotateRight x n.toNat = ROTR n x := by
  have hright : (n.toBitVec % 32).toNat = n.toNat := by
    rw [BitVec.toNat_umod]
    exact Nat.mod_eq_of_lt h.2
  have hleft : ((32 - n).toBitVec % 32).toNat = 32 - n.toNat := by
    have hsub : (32 - n).toNat = 32 - n.toNat := UInt32.toNat_sub_of_le _ _ (Nat.le_of_lt h.2)
    rw [BitVec.toNat_umod, UInt32.toNat_toBitVec, hsub]
    exact Nat.mod_eq_of_lt (show 32 - n.toNat < 32 by omega)
  apply UInt32.toBitVec_inj.mp
  rw [rotateRight, ROTR, BitVec.rotateRight_def, UInt32.toBitVec_or, UInt32.toBitVec_shiftRight, UInt32.toBitVec_shiftLeft,
    BitVec.shiftLeft_eq', BitVec.ushiftRight_eq', hright, hleft, Nat.mod_eq_of_lt h.2]

theorem smallSigma0_eq (x : UInt32) : rotateRight x 7 ^^^ rotateRight x 18 ^^^ (x >>> 3) = smallSigma0 x := by
  rw [smallSigma0, ← rotateRight_eq x 7 (by decide), ← rotateRight_eq x 18 (by decide)]
  rfl

theorem smallSigma1_eq (x : UInt32) : rotateRight x 17 ^^^ rotateRight x 19 ^^^ (x >>> 10) = smallSigma1 x := by
  rw [smallSigma1, ← rotateRight_eq x 17 (by decide), ← rotateRight_eq x 19 (by decide)]
  rfl

theorem bigSigma0_eq (x : UInt32) : rotateRight x 2 ^^^ rotateRight x 13 ^^^ rotateRight x 22 = bigSigma0 x := by
  rw [bigSigma0, ← rotateRight_eq x 2 (by decide), ← rotateRight_eq x 13 (by decide), ← rotateRight_eq x 22 (by decide)]
  rfl

theorem bigSigma1_eq (x : UInt32) : rotateRight x 6 ^^^ rotateRight x 11 ^^^ rotateRight x 25 = bigSigma1 x := by
  rw [bigSigma1, ← rotateRight_eq x 6 (by decide), ← rotateRight_eq x 11 (by decide), ← rotateRight_eq x 25 (by decide)]
  rfl

theorem toBeBytes32_eq (x : UInt32) : toBeBytes32 x = beBytes 4 x.toNat := by
  simp only [toBeBytes32, beBytes]
  rw [byte_shift32 x 24 (by decide), byte_shift32 x 16 (by decide), byte_shift32 x 8 (by decide), Nat.pow_zero, Nat.div_one]
  rfl

theorem toBeBytes64_eq (x : UInt64) : toBeBytes64 x = beBytes 8 x.toNat := by
  simp only [toBeBytes64, beBytes]
  rw [byte_shift64 x 56 (by decide), byte_shift64 x 48 (by decide), byte_shift64 x 40 (by decide),
    byte_shift64 x 32 (by decide), byte_shift64 x 24 (by decide), byte_shift64 x 16 (by decide), byte_shift64 x 8 (by decide),
    Nat.pow_zero, Nat.div_one]
  rfl

/-! ## One chunk -/

/-- The first places of an array of 64 words hold a sequence. -/
def Filled (W : Nat → UInt32) (i : Nat) (w : List UInt32) : Prop :=
  ∃ left, w = (List.range i).map W ++ left ∧ left.length + i = 64

section
variable {W : Nat → UInt32} {i k n : Nat} {w : List UInt32} {h v : Words} {chunk data : List UInt8}

theorem Filled.get (hw : Filled W i w) (hk : k < i) : w[k]? = some (W k) := by
  obtain ⟨left, rfl, -⟩ := hw
  rw [List.getElem?_append_left (by simpa using hk), List.getElem?_map, List.getElem?_range hk]
  rfl

theorem Filled.store (hw : Filled W i w) (hi : i < 64) : ∃ w', storeWord w i (W i) = some w' ∧ Filled W (i + 1) w' := by
  obtain ⟨left, rfl, hlen⟩ := hw
  obtain ⟨x, left, rfl⟩ := exists_word (w := left) (by omega)
  refine ⟨_, storeWord_append (by simp), left, ?_, ?_⟩
  · simp [List.range_succ]
  · rw [← hlen, List.length_cons]
    omega

theorem loadWords_spec (front rest : List UInt8) (hfront : front.length = 4 * i) (hrest : rest.length = 4 * n)
    (hin : i + n ≤ 64) (hw : Filled (byteBlock (front ++ rest)) i w) :
    ∃ w', loadWords rest i w = some w' ∧ Filled (byteBlock (front ++ rest)) (i + n) w' := by
  induction n generalizing front rest i w with
  | zero =>
    obtain rfl := List.eq_nil_of_length_eq_zero hrest
    exact ⟨w, rfl, hw⟩
  | succ n ih =>
    obtain ⟨p, rest, rfl⟩ := exists_word (w := rest) (by omega)
    obtain ⟨q, rest, rfl⟩ := exists_word (w := rest) (by simp at hrest; omega)
    obtain ⟨r, rest, rfl⟩ := exists_word (w := rest) (by simp at hrest; omega)
    obtain ⟨s, rest, rfl⟩ := exists_word (w := rest) (by simp at hrest; omega)
    obtain ⟨w₁, hstore, hw₁⟩ := hw.store (by omega)
    have hmove : front ++ p :: q :: r :: s :: rest = front ++ [p, q, r, s] ++ rest := by simp
    rw [byteBlock_eq hfront] at hstore
    rw [hmove] at hw₁ ⊢
    obtain ⟨w₂, hload, hw₂⟩ := ih (front ++ [p, q, r, s]) rest (by simp; omega) (by simp at hrest; omega) (by omega) hw₁
    refine ⟨w₂, ?_, ?_⟩
    · rw [loadWords, fromBeBytes, hstore]
      exact hload
    · rwa [← Nat.add_assoc, Nat.add_right_comm]

theorem extendWords_spec {M : Nat → UInt32} (hi : 16 ≤ i) (hin : i + n ≤ 64) (hw : Filled (schedule M) i w) :
    ∃ w', extendWords n i w = some w' ∧ Filled (schedule M) (i + n) w' := by
  induction n generalizing i w with
  | zero => exact ⟨w, rfl, hw⟩
  | succ n ih =>
    obtain ⟨w₁, hstore, hw₁⟩ := hw.store (by omega)
    obtain ⟨w₂, hextend, hw₂⟩ := ih (by omega) (by omega) hw₁
    have hnext : schedule M (i - 16) + smallSigma0 (schedule M (i - 15)) + schedule M (i - 7) +
        smallSigma1 (schedule M (i - 2)) = schedule M i := by
      rw [schedule_next hi]
      ac_rfl
    refine ⟨w₂, ?_, ?_⟩
    · simp only [extendWords, hw.get (show i - 15 < i by omega), hw.get (show i - 2 < i by omega),
        hw.get (show i - 16 < i by omega), hw.get (show i - 7 < i by omega), smallSigma0_eq, smallSigma1_eq, hnext,
        Option.bind_eq_bind, Option.bind_some, hstore]
      exact hextend
    · rwa [← Nat.add_assoc, Nat.add_right_comm]

theorem roundLoop_spec (hw : Filled W 64 w) (hin : i + n ≤ 64) :
    roundLoop w n i (roundsTo W i v) = some (roundsTo W (i + n) v) := by
  induction n generalizing i with
  | zero => rfl
  | succ n ih =>
    have hrest := ih (i := i + 1) (by omega)
    simp only [roundLoop, getElem?_K (show i < 64 by omega), hw.get (show i < 64 by omega), bigSigma0_eq, bigSigma1_eq,
      Option.bind_eq_bind, Option.bind_some]
    rw [← Nat.add_assoc, Nat.add_right_comm, ← hrest]
    rfl

theorem words_add_comm (x y : Words) : x.add y = y.add x := by
  simp only [Words.add, Words.mk.injEq]
  refine ⟨?_, ?_, ?_, ?_, ?_, ?_, ?_, ?_⟩
  all_goals exact UInt32.add_comm _ _

theorem hashChunk_eq (hchunk : chunk.length = 64) : hashChunk h chunk = some (compress h (byteBlock chunk)) := by
  have hzero : Filled (byteBlock chunk) 0 (List.replicate 64 0) := ⟨List.replicate 64 0, rfl, List.length_replicate⟩
  obtain ⟨w₁, hload, left, hw₁, hleft⟩ := loadWords_spec (n := 16) [] chunk rfl hchunk (by omega) hzero
  have hblock : Filled (schedule (byteBlock chunk)) 16 w₁ := by
    refine ⟨left, ?_, hleft⟩
    rw [hw₁]
    congr 1
    apply List.map_congr_left
    intro t ht
    exact (schedule_block (List.mem_range.mp ht)).symm
  obtain ⟨w₂, hextend, hw₂⟩ := extendWords_spec (n := 48) (Nat.le_refl 16) (Nat.le_refl 64) hblock
  have hrounds := roundLoop_spec (v := h) (i := 0) (n := 64) hw₂ (Nat.le_refl 64)
  rw [roundsTo] at hrounds
  simp only [hashChunk, hload, hextend, Option.bind_eq_bind, Option.bind_some]
  rw [hrounds, compress, words_add_comm]
  rfl

/-! ## The digest -/

theorem pushZeros_eq (msg : List UInt8) :
    pushZeros msg = msg ++ List.replicate ((120 - msg.length % 64) % 64) 0 := by
  induction msg using pushZeros.induct with
  | case1 msg h ih =>
    rw [pushZeros, if_pos h, ih, List.append_assoc, List.length_append, List.length_singleton]
    congr 1
    rw [show (120 - msg.length % 64) % 64 = (120 - (msg.length + 1) % 64) % 64 + 1 by omega, List.replicate_succ]
    rfl
  | case2 msg h =>
    rw [pushZeros, if_neg h, show (120 - msg.length % 64) % 64 = 0 by omega, List.replicate_zero, List.append_nil]

theorem foldlM_hashChunk {l : List (List UInt8)} (hl : ∀ chunk ∈ l, chunk.length = 64) :
    l.foldlM hashChunk h = some (l.foldl (fun h chunk => compress h (byteBlock chunk)) h) := by
  induction l generalizing h with
  | nil => rfl
  | cons chunk l ih =>
    rw [List.foldlM_cons, hashChunk_eq (hl chunk List.mem_cons_self), Option.bind_eq_bind, Option.bind_some,
      ih fun c hc => hl c (List.mem_cons_of_mem _ hc), List.foldl_cons]

theorem toBeBytes64_bits (n : Nat) : toBeBytes64 (n.toUInt64 * 8) = beBytes 8 (8 * n) := by
  have hbits : (n.toUInt64 * 8).toNat = 8 * n % 256 ^ 8 := by
    rw [UInt64.toNat_mul, Nat.toUInt64_eq, UInt64.toNat_ofNat', Nat.mod_mul_mod, Nat.mul_comm 8]
    rfl
  rw [toBeBytes64_eq, hbits, beBytes_mod (Nat.le_refl 8)]

/-- The digest of a message of any length, as the fold over its blocks that the standard is. -/
theorem digest_eq (data : List UInt8) :
    digest data = some ((hashBlocks (paddedBytes data) initialHash).toList.flatMap fun x => beBytes 4 x.toNat) := by
  have hmsg : pushZeros (data ++ [0x80]) ++ toBeBytes64 (data.length.toUInt64 * 8) = paddedBytes data := by
    rw [pushZeros_eq, toBeBytes64_bits, paddedBytes, List.length_append, List.length_singleton,
      show (120 - (data.length + 1) % 64) % 64 = (119 - data.length % 64) % 64 by omega]
  have hchunks : ∀ chunk ∈ chunksExact 64 (paddedBytes data), chunk.length = 64 := by
    intro chunk hchunk
    obtain ⟨i, hi, rfl⟩ := List.mem_map.mp hchunk
    have hin := List.mem_range.mp hi
    exact length_part (by omega)
  simp only [digest, hmsg, ← initial_eq, foldlM_hashChunk hchunks, Option.bind_eq_bind, Option.bind_some]
  rw [chunksExact, List.foldl_map, funext toBeBytes32_eq]
  rfl

end

end Datara.Project.Sha256
