import Datara.Library.Masks
import Datara.Project.Sha256

/-!
# Streamed hashing

`datara_sha256_init`, `datara_sha256_update` and `datara_sha256_final` of `runtime/datara_crypto.c`. The context keeps the
bytes of a block that is not whole yet, and the length of the whole blocks in bits (`Streamed`). However a message is
cut into updates, the digest is the one that a package's is (`implementations_standard`).
-/

namespace Datara.Runtime.Sha256

open Library Library.SecureHash Project.Sha256
open List (append_assoc length_append length_cons)
open Option (bind_eq_bind bind_some)

/-- The state has a word for each place. -/
structure DATARA_SHA256_CTX where
  data : Vector UInt8 64
  datalen : UInt32
  bitlen : UInt64
  state : Words

def D_ROTR (a b : UInt32) : UInt32 := (a >>> b) ||| (a <<< (32 - b))

def D_SIG0 (x : UInt32) : UInt32 := D_ROTR x 2 ^^^ D_ROTR x 13 ^^^ D_ROTR x 22

def D_SIG1 (x : UInt32) : UInt32 := D_ROTR x 6 ^^^ D_ROTR x 11 ^^^ D_ROTR x 25

def D_sig0 (x : UInt32) : UInt32 := D_ROTR x 7 ^^^ D_ROTR x 18 ^^^ (x >>> 3)

def D_sig1 (x : UInt32) : UInt32 := D_ROTR x 17 ^^^ D_ROTR x 19 ^^^ (x >>> 10)

def D_CH (x y z : UInt32) : UInt32 := (x &&& y) ^^^ (~~~x &&& z)

def D_MAJ (x y z : UInt32) : UInt32 := (x &&& y) ^^^ (x &&& z) ^^^ (y &&& z)

def K_SHA256 : List UInt32 :=
  [0x428a2f98, 0x71374491, 0xb5c0fbcf, 0xe9b5dba5, 0x3956c25b, 0x59f111f1, 0x923f82a4, 0xab1c5ed5,
    0xd807aa98, 0x12835b01, 0x243185be, 0x550c7dc3, 0x72be5d74, 0x80deb1fe, 0x9bdc06a7, 0xc19bf174,
    0xe49b69c1, 0xefbe4786, 0x0fc19dc6, 0x240ca1cc, 0x2de92c6f, 0x4a7484aa, 0x5cb0a9dc, 0x76f988da,
    0x983e5152, 0xa831c66d, 0xb00327c8, 0xbf597fc7, 0xc6e00bf3, 0xd5a79147, 0x06ca6351, 0x14292967,
    0x27b70a85, 0x2e1b2138, 0x4d2c6dfc, 0x53380d13, 0x650a7354, 0x766a0abb, 0x81c2c92e, 0x92722c85,
    0xa2bfe8a1, 0xa81a664b, 0xc24b8b70, 0xc76c51a3, 0xd192e819, 0xd6990624, 0xf40e3585, 0x106aa070,
    0x19a4c116, 0x1e376c08, 0x2748774c, 0x34b0bcb5, 0x391c0cb3, 0x4ed8aa4a, 0x5b9cca4f, 0x682e6ff3,
    0x748f82ee, 0x78a5636f, 0x84c87814, 0x8cc70208, 0x90befffa, 0xa4506ceb, 0xbef9a3f7, 0xc67178f2]

/-- `for (i = 0, j = 0; i < 16; ++i, j += 4) m[i] = ..`, for a number of words that are left; `m` has the words that are
stored so far, and a read past them has no result. -/
def loadWords (data : List UInt8) : Nat → Nat → List UInt32 → Option (List UInt32)
  | 0, _, m => some m
  | n + 1, j, m => do
    let p ← data[j]?
    let q ← data[j + 1]?
    let r ← data[j + 2]?
    let s ← data[j + 3]?
    loadWords data n (j + 4)
      (m ++ [(p.toUInt32 <<< 24) ||| (q.toUInt32 <<< 16) ||| (r.toUInt32 <<< 8) ||| s.toUInt32])

/-- `for ( ; i < 64; ++i) m[i] = ..`, for a number of words that are left. -/
def extendWords : Nat → Nat → List UInt32 → Option (List UInt32)
  | 0, _, m => some m
  | n + 1, i, m => do
    let m2 ← m[i - 2]?
    let m7 ← m[i - 7]?
    let m15 ← m[i - 15]?
    let m16 ← m[i - 16]?
    extendWords n (i + 1) (m ++ [D_sig1 m2 + m7 + D_sig0 m15 + m16])

/-- `for (i = 0; i < 64; ++i)`, for a number of rounds that are left. -/
def roundLoop (m : List UInt32) : Nat → Nat → Words → Option Words
  | 0, _, v => some v
  | n + 1, i, v => do
    let k ← K_SHA256[i]?
    let mi ← m[i]?
    let t1 := v.h + D_SIG1 v.e + D_CH v.e v.f v.g + k + mi
    let t2 := D_SIG0 v.a + D_MAJ v.a v.b v.c
    roundLoop m n (i + 1) ⟨t1 + t2, v.a, v.b, v.c, v.d + t1, v.e, v.f, v.g⟩

def datara_sha256_transform (ctx : DATARA_SHA256_CTX) (data : Vector UInt8 64) : Option DATARA_SHA256_CTX := do
  let m ← loadWords data.toList 16 0 []
  let m ← extendWords 48 16 m
  let v ← roundLoop m 64 0 ctx.state
  return { ctx with
    state := ⟨ctx.state.a + v.a, ctx.state.b + v.b, ctx.state.c + v.c, ctx.state.d + v.d, ctx.state.e + v.e,
      ctx.state.f + v.f, ctx.state.g + v.g, ctx.state.h + v.h⟩ }

def datara_sha256_init (ctx : DATARA_SHA256_CTX) : DATARA_SHA256_CTX :=
  { ctx with
    datalen := 0
    bitlen := 0
    state := ⟨0x6a09e667, 0xbb67ae85, 0x3c6ef372, 0xa54ff53a, 0x510e527f, 0x9b05688c, 0x1f83d9ab, 0x5be0cd19⟩ }

/-- `data[i] = v`. -/
def setByte {n : Nat} (data : Vector UInt8 n) (i : Nat) (v : UInt8) : Option (Vector UInt8 n) :=
  if h : i < n then some (data.set i v h) else none

def datara_sha256_update : DATARA_SHA256_CTX → List UInt8 → Option DATARA_SHA256_CTX
  | ctx, [] => some ctx
  | ctx, v :: rest => do
    let data ← setByte ctx.data ctx.datalen.toNat v
    let ctx := { ctx with data, datalen := ctx.datalen + 1 }
    if ctx.datalen = 64 then do
      let ctx ← datara_sha256_transform ctx ctx.data
      datara_sha256_update { ctx with bitlen := ctx.bitlen + 512, datalen := 0 } rest
    else datara_sha256_update ctx rest

/-- `while (i < limit) data[i++] = 0x00`. -/
def zeroUntil (limit i : Nat) (data : Vector UInt8 64) : Option (Vector UInt8 64) :=
  if i < limit then do
    let data ← setByte data i 0x00
    zeroUntil limit (i + 1) data
  else some data
termination_by limit - i

/-- The stores of the length. -/
def storeBitlen (bitlen : UInt64) (data : Vector UInt8 64) : Option (Vector UInt8 64) := do
  let data ← setByte data 63 bitlen.toUInt8
  let data ← setByte data 62 (bitlen >>> 8).toUInt8
  let data ← setByte data 61 (bitlen >>> 16).toUInt8
  let data ← setByte data 60 (bitlen >>> 24).toUInt8
  let data ← setByte data 59 (bitlen >>> 32).toUInt8
  let data ← setByte data 58 (bitlen >>> 40).toUInt8
  let data ← setByte data 57 (bitlen >>> 48).toUInt8
  setByte data 56 (bitlen >>> 56).toUInt8

/-- `hash[i + 4 * k] = (uint8_t)((ctx->state[k] >> (24 - i * 8)) & 0x000000ff)`, for the words from a `k` on; the place
of the first one is given. -/
def storeBytes (i : UInt32) : List UInt32 → Nat → Vector UInt8 32 → Option (Vector UInt8 32)
  | [], _, hash => some hash
  | x :: rest, k, hash => do
    let hash ← setByte hash (i.toNat + k) ((x >>> (24 - i * 8)) &&& 0x000000ff).toUInt8
    storeBytes i rest (k + 4) hash

/-- The two branches of `datara_sha256_final`. -/
def padBlock (ctx : DATARA_SHA256_CTX) : Option DATARA_SHA256_CTX := do
  let i := ctx.datalen.toNat
  if ctx.datalen < 56 then do
    let data ← setByte ctx.data i 0x80
    let data ← zeroUntil 56 (i + 1) data
    return { ctx with data }
  else do
    let data ← setByte ctx.data i 0x80
    let data ← zeroUntil 64 (i + 1) data
    let ctx ← datara_sha256_transform { ctx with data } data
    let data ← zeroUntil 56 0 ctx.data
    return { ctx with data }

def datara_sha256_final (ctx : DATARA_SHA256_CTX) (hash : Vector UInt8 32) :
    Option (DATARA_SHA256_CTX × Vector UInt8 32) := do
  let ctx ← padBlock ctx
  let ctx := { ctx with bitlen := ctx.bitlen + ctx.datalen.toUInt64 * 8 }
  let data ← storeBitlen ctx.bitlen ctx.data
  let ctx ← datara_sha256_transform { ctx with data } data
  let hash ← storeBytes 0 ctx.state.toList 0 hash
  let hash ← storeBytes 1 ctx.state.toList 0 hash
  let hash ← storeBytes 2 ctx.state.toList 0 hash
  let hash ← storeBytes 3 ctx.state.toList 0 hash
  return (ctx, hash)

/-- A message in parts, from a context that holds anything. -/
def streamed (ctx : DATARA_SHA256_CTX) (updates : List (List UInt8)) (hash : Vector UInt8 32) :
    Option (DATARA_SHA256_CTX × Vector UInt8 32) := do
  let ctx ← updates.foldlM datara_sha256_update (datara_sha256_init ctx)
  datara_sha256_final ctx hash

theorem bytes_or {p q r s : Nat} (hq : q < 2 ^ 8) (hr : r < 2 ^ 8) (hs : s < 2 ^ 8) :
    p <<< 24 ||| q <<< 16 ||| r <<< 8 ||| s = p * 2 ^ 24 + q * 2 ^ 16 + r * 2 ^ 8 + s := by
  rw [shiftLeft_or (j := 16) (k := 8) hq, shiftLeft_or (j := 8) (k := 8) hr, ← Nat.shiftLeft_add_eq_or_of_lt hs,
    Nat.shiftLeft_eq]
  omega

theorem word_eq (p q r s : UInt8) :
    (p.toUInt32 <<< 24) ||| (q.toUInt32 <<< 16) ||| (r.toUInt32 <<< 8) ||| s.toUInt32 =
      (p.toNat * 2 ^ 24 + q.toNat * 2 ^ 16 + r.toNat * 2 ^ 8 + s.toNat).toUInt32 := by
  have hp := p.toNat_lt
  have hq := q.toNat_lt
  have hr := r.toNat_lt
  have hs := s.toNat_lt
  have hshift (x : UInt8) (n : UInt32) (hn : n.toNat ≤ 24) : (x.toUInt32 <<< n).toNat = x.toNat <<< n.toNat := by
    have hx := x.toNat_lt
    have hpow : 2 ^ n.toNat ≤ 2 ^ 24 := Nat.pow_le_pow_right (by decide) hn
    rw [UInt32.toNat_shiftLeft, Nat.mod_eq_of_lt (show n.toNat < 32 by omega), UInt8.toNat_toUInt32, Nat.shiftLeft_eq]
    apply Nat.mod_eq_of_lt
    calc x.toNat * 2 ^ n.toNat < 2 ^ 8 * 2 ^ n.toNat := Nat.mul_lt_mul_of_pos_right hx (Nat.two_pow_pos _)
      _ ≤ 2 ^ 8 * 2 ^ 24 := Nat.mul_le_mul_left _ hpow
  apply UInt32.toNat_inj.mp
  rw [UInt32.toNat_or, UInt32.toNat_or, UInt32.toNat_or, hshift p 24 (by decide), hshift q 16 (by decide), hshift r 8 (by decide),
    UInt8.toNat_toUInt32, Nat.toUInt32_eq, UInt32.toNat_ofNat', Nat.mod_eq_of_lt (by omega)]
  exact bytes_or hq hr hs

/-! ## The transformation -/

theorem K_SHA256_eq : K_SHA256 = (List.range 64).map roundConstant := by decide +kernel

section
variable {W : Nat → UInt32} {i n : Nat} {v : Words} {m : List UInt32} {ctx : DATARA_SHA256_CTX}

theorem getElem?_words {k : Nat} (hk : k < i) : ((List.range i).map W)[k]? = some (W k) := by
  rw [List.getElem?_map, List.getElem?_range hk]
  rfl

theorem loadWords_spec (front rest : List UInt8) (hfront : front.length = 4 * i) (hrest : rest.length = 4 * n) :
    loadWords (front ++ rest) n (4 * i) ((List.range i).map (byteBlock (front ++ rest))) =
      some ((List.range (i + n)).map (byteBlock (front ++ rest))) := by
  induction n generalizing front rest i with
  | zero => rfl
  | succ n ih =>
    obtain ⟨p, rest, rfl⟩ := exists_word (w := rest) (by omega)
    obtain ⟨q, rest, rfl⟩ := exists_word (w := rest) (by simp at hrest; omega)
    obtain ⟨r, rest, rfl⟩ := exists_word (w := rest) (by simp at hrest; omega)
    obtain ⟨s, rest, rfl⟩ := exists_word (w := rest) (by simp at hrest; omega)
    have hmove : front ++ p :: q :: r :: s :: rest = front ++ [p, q, r, s] ++ rest := by simp
    have hnext := ih (i := i + 1) (front ++ [p, q, r, s]) rest (by simp; omega) (by simp at hrest; omega)
    have hread (k : Nat) : (front ++ p :: q :: r :: s :: rest)[4 * i + k]? = (p :: q :: r :: s :: rest)[k]? := by
      rw [← hfront, List.getElem?_append_right (by omega), Nat.add_sub_cancel_left]
    rw [← hmove, List.range_succ, List.map_append, List.map_singleton, byteBlock_eq hfront] at hnext
    have hfirst : (front ++ p :: q :: r :: s :: rest)[4 * i]? = some p := hread 0
    rw [loadWords, hfirst, hread 1, hread 2, hread 3, show i + (n + 1) = i + 1 + n by omega, ← hnext]
    simp only [List.getElem?_cons_zero, List.getElem?_cons_succ, bind_eq_bind, bind_some, word_eq]
    rfl

theorem extendWords_spec {M : Nat → UInt32} (hi : 16 ≤ i) :
    extendWords n i ((List.range i).map (schedule M)) = some ((List.range (i + n)).map (schedule M)) := by
  induction n generalizing i with
  | zero => rfl
  | succ n ih =>
    have hnext := ih (i := i + 1) (by omega)
    rw [List.range_succ, List.map_append, List.map_singleton, schedule_next hi] at hnext
    simp only [extendWords, getElem?_words (show i - 2 < i by omega), getElem?_words (show i - 7 < i by omega),
      getElem?_words (show i - 15 < i by omega), getElem?_words (show i - 16 < i by omega), bind_eq_bind,
      bind_some]
    rw [← Nat.add_assoc, Nat.add_right_comm, ← hnext]
    rfl

theorem roundLoop_spec (hin : i + n ≤ 64) :
    roundLoop ((List.range 64).map W) n i (roundsTo W i v) = some (roundsTo W (i + n) v) := by
  induction n generalizing i with
  | zero => rfl
  | succ n ih =>
    have hrest := ih (i := i + 1) (by omega)
    simp only [roundLoop, K_SHA256_eq, getElem?_words (show i < 64 by omega), bind_eq_bind, bind_some]
    rw [← Nat.add_assoc, Nat.add_right_comm, ← hrest]
    rfl

theorem transform_eq (data : Vector UInt8 64) : datara_sha256_transform ctx data =
    some { ctx with state := hashBlocks data.toList ctx.state } := by
  have hload := loadWords_spec (i := 0) (n := 16) [] data.toList rfl data.length_toList
  have hwords : (List.range 16).map (byteBlock data.toList) = (List.range 16).map (schedule (byteBlock data.toList)) := by
    apply List.map_congr_left
    intro t ht
    exact (schedule_block (List.mem_range.mp ht)).symm
  have hextend := extendWords_spec (n := 48) (M := byteBlock data.toList) (Nat.le_refl 16)
  have hrounds := roundLoop_spec (W := schedule (byteBlock data.toList)) (v := ctx.state) (i := 0) (n := 64) (Nat.le_refl 64)
  simp only [List.nil_append, Nat.mul_zero, List.range_zero, List.map_nil, Nat.zero_add, hwords] at hload
  simp only [roundsTo] at hrounds
  simp only [datara_sha256_transform, hload, hextend, hrounds, bind_eq_bind, bind_some]
  rw [hashBlocks_block data.length_toList, compress, words_add_comm]
  rfl

end

/-! ## Stores -/

section
variable {i j n : Nat} {v : UInt8} {ctx : DATARA_SHA256_CTX} {data : Vector UInt8 64}

theorem setByte_spec {data : Vector UInt8 n} {x : UInt8} (front rest : List UInt8) (h : data.toList = front ++ x :: rest)
    (hi : i = front.length) : ∃ data', setByte data i v = some data' ∧ data'.toList = front ++ v :: rest := by
  have hin : i < n := by
    rw [← data.length_toList, h, hi, length_append, length_cons]
    omega
  refine ⟨data.set i v hin, dif_pos hin, ?_⟩
  rw [Vector.toList_set, h, hi, List.set_append_right _ _ (Nat.le_refl _), Nat.sub_self, List.set_cons_zero]

theorem zeroUntil_spec (front mid rest : List UInt8) (h : data.toList = front ++ mid ++ rest) (hi : i = front.length)
    (hj : j = front.length + mid.length) :
    ∃ data', zeroUntil j i data = some data' ∧ data'.toList = front ++ List.replicate mid.length 0 ++ rest := by
  induction mid generalizing front i data with
  | nil =>
    rw [zeroUntil, if_neg (by rw [hi, hj]; exact Nat.lt_irrefl _)]
    exact ⟨data, rfl, h⟩
  | cons x mid ih =>
    obtain ⟨data₁, hset, h₁⟩ := setByte_spec (v := 0) (x := x) front (mid ++ rest) (by rw [h]; simp) hi
    obtain ⟨data₂, hrest, h₂⟩ := ih (i := i + 1) (front ++ [0]) (by rw [h₁]; simp) (by simp [hi])
      (by rw [hj]; simp; omega)
    rw [zeroUntil, if_pos (by rw [hi, hj, length_cons]; omega), hset]
    exact ⟨data₂, hrest, by rw [h₂, length_cons, List.replicate_succ]; simp⟩

theorem storeBitlen_spec {front rest : List UInt8} (h : data.toList = front ++ rest) (hfront : front.length = 56)
    (bitlen : UInt64) :
    ∃ data', storeBitlen bitlen data = some data' ∧ data'.toList = front ++ beBytes 8 bitlen.toNat := by
  have hlen := data.length_toList
  rw [h, length_append, hfront] at hlen
  refine ⟨_, rfl, ?_⟩
  rw [← toBeBytes64_eq]
  rcases rest with _ | ⟨x₀, _ | ⟨x₁, _ | ⟨x₂, _ | ⟨x₃, _ | ⟨x₄, _ | ⟨x₅, _ | ⟨x₆, _ | ⟨x₇, _ | ⟨x₈, rest⟩⟩⟩⟩⟩⟩⟩⟩⟩ <;>
    simp only [length_cons, List.length_nil, Nat.reduceAdd, Nat.reduceEqDiff] at hlen
  · simp only [Vector.toList_set, h]
    simp only [List.set_append, hfront, Nat.reduceLT, Nat.reduceSub, if_false, List.set_cons_zero, List.set_cons_succ]
    rfl
  · omega

theorem exists_groups {l : List UInt8} (h : l.length = 4 * n) :
    ∃ groups : List (List UInt8), l = groups.flatten ∧ groups.length = n ∧ ∀ g ∈ groups, g.length = 4 := by
  induction n generalizing l with
  | zero => exact ⟨[], List.eq_nil_of_length_eq_zero h, rfl, by simp⟩
  | succ n ih =>
    obtain ⟨group, rest, rfl, hgroup⟩ := exists_part (w := l) (n := 4) (by omega)
    rw [length_append] at h
    obtain ⟨groups, rfl, hlen, hall⟩ := ih (l := rest) (by omega)
    refine ⟨group :: groups, rfl, by rw [length_cons, hlen], ?_⟩
    intro g hg
    obtain rfl | hg := List.mem_cons.mp hg
    · exact hgroup
    · exact hall g hg

/-- The byte of a word that is at a place. -/
def hashByte (i : UInt32) (x : UInt32) : UInt8 := ((x >>> (24 - i * 8)) &&& 0x000000ff).toUInt8

theorem byte_mask (x : UInt32) : (x &&& 0x000000ff).toUInt8 = x.toUInt8 := by
  apply UInt8.toNat_inj.mp
  rw [UInt32.toNat_toUInt8, UInt32.toNat_and, UInt32.toNat_toUInt8]
  show (x.toNat &&& (2 ^ 8 - 1)) % 2 ^ 8 = x.toNat % 2 ^ 8
  rw [Nat.and_two_pow_sub_one_eq_mod, Nat.mod_mod]

/-- The groups of four bytes, with one byte of each word stored. -/
def storeColumn (i : UInt32) (xs : List UInt32) (groups : List (List UInt8)) : List (List UInt8) :=
  xs.zipWith (fun x g => g.set i.toNat (hashByte i x)) groups

variable {groups : List (List UInt8)} {xs : List UInt32}

theorem storeColumn_groups {i : UInt32} (hlen : groups.length = xs.length)
    (hall : ∀ g ∈ groups, g.length = 4) :
    (storeColumn i xs groups).length = xs.length ∧ ∀ g ∈ storeColumn i xs groups, g.length = 4 := by
  refine ⟨by rw [storeColumn, List.length_zipWith, hlen, Nat.min_self], ?_⟩
  intro g hg
  obtain ⟨k, hk, rfl⟩ := List.mem_iff_getElem.mp hg
  simp only [storeColumn, List.getElem_zipWith, List.length_set]
  exact hall _ (List.getElem_mem _)

theorem storeBytes_spec {i : UInt32} {hash : Vector UInt8 32}
    (front : List UInt8) (hi : i.toNat < 4) (hash_eq : hash.toList = front ++ groups.flatten) (hlen : groups.length = xs.length)
    (hall : ∀ g ∈ groups, g.length = 4) :
    ∃ hash', storeBytes i xs front.length hash = some hash' ∧
      hash'.toList = front ++ (storeColumn i xs groups).flatten := by
  induction xs generalizing groups front hash with
  | nil =>
    obtain rfl := List.eq_nil_of_length_eq_zero hlen
    exact ⟨hash, rfl, hash_eq⟩
  | cons x xs ih =>
    obtain ⟨g, groups, rfl⟩ := exists_word (w := groups) (by rw [hlen]; exact Nat.succ_pos _)
    have hg := hall g List.mem_cons_self
    have hin : i.toNat + front.length < 32 := by
      rw [← hash.length_toList, hash_eq, length_append, List.flatten_cons, length_append]
      omega
    have hset : (hash.set (i.toNat + front.length) (hashByte i x) hin).toList =
        front ++ g.set i.toNat (hashByte i x) ++ groups.flatten := by
      rw [Vector.toList_set, hash_eq, List.flatten_cons, List.set_append_right _ _ (Nat.le_add_left _ _), Nat.add_sub_cancel,
        List.set_append_left _ _ (by omega), append_assoc]
    obtain ⟨hash', hrest, h⟩ := ih _ hset (by simpa using hlen) fun g hg => hall g (List.mem_cons_of_mem _ hg)
    refine ⟨hash', ?_, by rw [h]; simp [storeColumn]⟩
    rw [length_append, List.length_set, hg] at hrest
    rw [storeBytes, setByte, dif_pos hin]
    exact hrest

theorem groups_eq (hlen : groups.length = xs.length)
    (hall : ∀ g ∈ groups, g.length = 4) :
    (storeColumn 3 xs (storeColumn 2 xs (storeColumn 1 xs (storeColumn 0 xs groups)))).flatten =
      xs.flatMap fun x => beBytes 4 x.toNat := by
  induction xs generalizing groups with
  | nil => rfl
  | cons x xs ih =>
    obtain ⟨g, groups, rfl⟩ := exists_word (w := groups) (by rw [hlen]; exact Nat.succ_pos _)
    obtain ⟨b₀, b₁, b₂, b₃, rfl⟩ : ∃ b₀ b₁ b₂ b₃, g = [b₀, b₁, b₂, b₃] := by
      have hg := hall g List.mem_cons_self
      rcases g with _ | ⟨b₀, _ | ⟨b₁, _ | ⟨b₂, _ | ⟨b₃, _ | ⟨b₄, g⟩⟩⟩⟩⟩ <;> simp at hg
      exact ⟨b₀, b₁, b₂, b₃, rfl⟩
    have hrest := ih (by simpa using hlen) fun g hg => hall g (List.mem_cons_of_mem _ hg)
    have hfirst : [hashByte 0 x, hashByte 1 x, hashByte 2 x, hashByte 3 x] = beBytes 4 x.toNat := by
      simp only [hashByte, byte_mask]
      rw [← toBeBytes32_eq]
      exact congrArg (fun y : UInt32 => [_, _, _, y.toUInt8]) UInt32.shiftRight_zero
    rw [List.flatMap_cons, ← hrest, ← hfirst]
    rfl

theorem storeBytes_all (xs : List UInt32) (hash : Vector UInt8 32) (hxs : xs.length = 8) :
    ∃ h₀ h₁ h₂ h₃ : Vector UInt8 32, storeBytes 0 xs 0 hash = some h₀ ∧ storeBytes 1 xs 0 h₀ = some h₁ ∧
      storeBytes 2 xs 0 h₁ = some h₂ ∧ storeBytes 3 xs 0 h₂ = some h₃ ∧
      h₃.toList = xs.flatMap fun x => beBytes 4 x.toNat := by
  obtain ⟨groups, hgroups, hlen, hall⟩ := exists_groups (n := 8) hash.length_toList
  rw [← hxs] at hlen
  have hcolumn₀ := storeColumn_groups (i := 0) hlen hall
  have hcolumn₁ := storeColumn_groups (i := 1) hcolumn₀.1 hcolumn₀.2
  have hcolumn₂ := storeColumn_groups (i := 2) hcolumn₁.1 hcolumn₁.2
  obtain ⟨h₀, hstore₀, heq₀⟩ := storeBytes_spec (i := 0) [] (by decide) hgroups hlen hall
  obtain ⟨h₁, hstore₁, heq₁⟩ := storeBytes_spec (i := 1) [] (by decide) heq₀ hcolumn₀.1 hcolumn₀.2
  obtain ⟨h₂, hstore₂, heq₂⟩ := storeBytes_spec (i := 2) [] (by decide) heq₁ hcolumn₁.1 hcolumn₁.2
  obtain ⟨h₃, hstore₃, heq₃⟩ := storeBytes_spec (i := 3) [] (by decide) heq₂ hcolumn₂.1 hcolumn₂.2
  exact ⟨h₀, h₁, h₂, h₃, hstore₀, hstore₁, hstore₂, hstore₃, heq₃.trans (groups_eq hlen hall)⟩

end

/-! ## Messages in parts -/

/-- The context after a message: the whole blocks are hashed, and the rest is kept. -/
structure Streamed (ctx : DATARA_SHA256_CTX) (blocks kept : List UInt8) : Prop where
  whole : blocks.length % 64 = 0
  short : kept.length < 64
  datalen : ctx.datalen.toNat = kept.length
  data : ∃ rest, ctx.data.toList = kept ++ rest
  bitlen : ctx.bitlen.toNat = 8 * blocks.length % 2 ^ 64
  state : ctx.state = hashBlocks blocks initialHash

section
variable {ctx : DATARA_SHA256_CTX} {blocks kept bytes : List UInt8}

theorem Streamed.init (ctx : DATARA_SHA256_CTX) : Streamed (datara_sha256_init ctx) [] [] where
  whole := rfl
  short := by decide
  datalen := rfl
  data := ⟨ctx.data.toList, rfl⟩
  bitlen := rfl
  state := initial_eq.symm

theorem Streamed.byte (h : Streamed ctx blocks kept) (v : UInt8) (rest : List UInt8) :
    ∃ ctx' blocks' kept', datara_sha256_update ctx (v :: rest) = datara_sha256_update ctx' rest ∧
      blocks' ++ kept' = blocks ++ kept ++ [v] ∧ Streamed ctx' blocks' kept' := by
  obtain ⟨tail, htail⟩ := h.data
  have hroom : 0 < tail.length := by
    have hlen := ctx.data.length_toList
    rw [htail, length_append] at hlen
    have := h.short
    omega
  obtain ⟨x, tail, rfl⟩ := exists_word hroom
  obtain ⟨data, hset, hdata⟩ := setByte_spec (v := v) _ _ htail h.datalen
  have hnext : (ctx.datalen + 1).toNat = kept.length + 1 := by
    have := h.short
    rw [UInt32.toNat_add, h.datalen]
    exact Nat.mod_eq_of_lt (by show kept.length + 1 < 2 ^ 32; omega)
  rw [datara_sha256_update, hset]
  simp only [bind_eq_bind, bind_some]
  by_cases hfull : ctx.datalen + 1 = 64
  · have hkept : kept.length + 1 = 64 := by
      rw [← hnext, hfull]
      rfl
    have hblock : data.toList = kept ++ [v] := by
      have hlen := data.length_toList
      rw [hdata, length_append, length_cons] at hlen
      obtain rfl := List.eq_nil_of_length_eq_zero (show tail.length = 0 by omega)
      exact hdata
    rw [if_pos hfull, transform_eq]
    refine ⟨_, blocks ++ (kept ++ [v]), [], rfl, by simp, ?_⟩
    constructor
    · rw [length_append, length_append, List.length_singleton, hkept]
      have := h.whole
      omega
    · decide
    · rfl
    · exact ⟨data.toList, rfl⟩
    · rw [UInt64.toNat_add, h.bitlen, length_append, length_append, List.length_singleton, hkept]
      show (8 * blocks.length % 2 ^ 64 + 512) % 2 ^ 64 = _
      omega
    · rw [hblock, h.state, hashBlocks_append h.whole]
  · have hkept : kept.length + 1 ≠ 64 := by
      rw [← hnext]
      exact fun h64 => hfull (UInt32.toNat_inj.mp h64)
    rw [if_neg hfull]
    refine ⟨_, blocks, kept ++ [v], rfl, by simp, ?_⟩
    constructor
    · exact h.whole
    · have := h.short
      rw [length_append, List.length_singleton]
      omega
    · rw [length_append, List.length_singleton]
      exact hnext
    · exact ⟨tail, by simpa using hdata⟩
    · exact h.bitlen
    · exact h.state

theorem Streamed.update (bytes : List UInt8) (h : Streamed ctx blocks kept) : ∃ ctx' blocks' kept',
    datara_sha256_update ctx bytes = some ctx' ∧ blocks' ++ kept' = blocks ++ kept ++ bytes ∧
      Streamed ctx' blocks' kept' := by
  induction bytes generalizing ctx blocks kept with
  | nil => exact ⟨ctx, blocks, kept, rfl, by simp, h⟩
  | cons v bytes ih =>
    obtain ⟨ctx₁, blocks₁, kept₁, hstep, heq₁, h₁⟩ := h.byte v bytes
    obtain ⟨ctx₂, blocks₂, kept₂, hrest, heq₂, h₂⟩ := ih h₁
    refine ⟨ctx₂, blocks₂, kept₂, hstep.trans hrest, ?_, h₂⟩
    rw [heq₂, heq₁, append_assoc, List.singleton_append]

/-- However a message is cut, what is hashed and what is kept make it up. -/
theorem Streamed.updates (updates : List (List UInt8)) (h : Streamed ctx blocks kept) : ∃ ctx' blocks' kept',
    updates.foldlM datara_sha256_update ctx = some ctx' ∧ blocks' ++ kept' = blocks ++ kept ++ updates.flatten ∧
      Streamed ctx' blocks' kept' := by
  induction updates generalizing ctx blocks kept with
  | nil => exact ⟨ctx, blocks, kept, rfl, by simp, h⟩
  | cons bytes updates ih =>
    obtain ⟨ctx₁, blocks₁, kept₁, hstep, heq₁, h₁⟩ := h.update bytes
    obtain ⟨ctx₂, blocks₂, kept₂, hrest, heq₂, h₂⟩ := ih h₁
    refine ⟨ctx₂, blocks₂, kept₂, ?_, ?_, h₂⟩
    · rw [List.foldlM_cons, hstep]
      exact hrest
    · rw [heq₂, heq₁, List.flatten_cons, ← append_assoc]

/-- After the branches a block is left that wants only the length. -/
theorem Streamed.padBlock (h : Streamed ctx blocks kept) : ∃ ctx' before front rest, padBlock ctx = some ctx' ∧
    ctx'.data.toList = front ++ rest ∧ front.length = 56 ∧ before.length % 64 = 0 ∧
    ctx'.state = hashBlocks before initialHash ∧ ctx'.bitlen = ctx.bitlen ∧ ctx'.datalen = ctx.datalen ∧
    before ++ front = blocks ++ kept ++ [0x80] ++
      List.replicate ((119 - (blocks ++ kept).length % 64) % 64) 0 := by
  obtain ⟨tail, htail⟩ := h.data
  have hlen := ctx.data.length_toList
  have hshort := h.short
  have hwhole := h.whole
  rw [htail, length_append] at hlen
  obtain ⟨x, tail, rfl⟩ := exists_word (w := tail) (by omega)
  rw [length_cons] at hlen
  obtain ⟨data, hset, hdata⟩ := setByte_spec (v := 0x80) _ _ htail h.datalen
  have hfront : (kept ++ [0x80]).length = kept.length + 1 := length_append
  rw [h.datalen] at hset
  rw [Sha256.padBlock]
  simp only [h.datalen, hset, bind_eq_bind, bind_some]
  by_cases hroom : ctx.datalen < 56
  · have hfew : kept.length < 56 := by
      rw [← h.datalen]
      exact UInt32.lt_iff_toNat_lt.mp hroom
    obtain ⟨zeros, rest, rfl, hzeros⟩ := exists_part (w := tail) (n := 55 - kept.length) (by omega)
    obtain ⟨data', hzero, hdata'⟩ := zeroUntil_spec (kept ++ [0x80]) zeros rest
      (by rw [hdata]; simp) hfront.symm (j := 56) (by rw [hfront, hzeros]; omega)
    rw [if_pos hroom, hzero]
    refine ⟨_, blocks, kept ++ [0x80] ++ List.replicate zeros.length 0, rest, rfl, hdata', ?_, hwhole, h.state, rfl, rfl, ?_⟩
    · rw [length_append, hfront, List.length_replicate, hzeros]
      omega
    · rw [hzeros, length_append, show (119 - (blocks.length + kept.length) % 64) % 64 = 55 - kept.length by omega]
      simp
  · have hmany : 56 ≤ kept.length := by
      rw [← h.datalen]
      exact Nat.not_lt.mp fun hlt => hroom (UInt32.lt_iff_toNat_lt.mpr hlt)
    obtain ⟨data', hzero, hdata'⟩ := zeroUntil_spec (kept ++ [0x80]) tail []
      (by rw [hdata]; simp) hfront.symm (j := 64) (by rw [hfront]; omega)
    rw [List.append_nil] at hdata'
    obtain ⟨zeros, rest, hsplit, hzeros⟩ := exists_part (w := data'.toList) (n := 56) (by rw [data'.length_toList]; decide)
    obtain ⟨data'', hzero', hdata''⟩ := zeroUntil_spec [] zeros rest hsplit
      (i := 0) rfl (j := 56) (by rw [hzeros]; rfl)
    rw [if_neg hroom, hzero]
    simp only [bind_some, transform_eq, hzero']
    refine ⟨_, blocks ++ data'.toList, List.replicate 56 0, rest, rfl, ?_, rfl, ?_, ?_, rfl, rfl, ?_⟩
    · rw [← hzeros]
      exact hdata''
    · rw [length_append, data'.length_toList]
      omega
    · rw [hashBlocks_append hwhole, ← h.state]
    · rw [hdata', length_append,
        show (119 - (blocks.length + kept.length) % 64) % 64 = tail.length + 56 by omega, List.replicate_add]
      simp

theorem Streamed.bits (h : Streamed ctx blocks kept) :
    beBytes 8 (ctx.bitlen + ctx.datalen.toUInt64 * 8).toNat = beBytes 8 (8 * (blocks ++ kept).length) := by
  have hbits : (ctx.bitlen + ctx.datalen.toUInt64 * 8).toNat = 8 * (blocks ++ kept).length % 256 ^ 8 := by
    rw [UInt64.toNat_add, UInt64.toNat_mul, UInt32.toNat_toUInt64, h.bitlen, h.datalen, length_append]
    show (8 * blocks.length % 2 ^ 64 + kept.length * 8 % 2 ^ 64) % 2 ^ 64 = 8 * (blocks.length + kept.length) % 2 ^ 64
    omega
  rw [hbits, beBytes_mod (Nat.le_refl 8)]

theorem Streamed.final (h : Streamed ctx blocks kept) (hash : Vector UInt8 32) :
    ∃ ctx' hash', datara_sha256_final ctx hash = some (ctx', hash') ∧
      hash'.toList = (hashBlocks (paddedBytes (blocks ++ kept)) initialHash).toList.flatMap fun x => beBytes 4 x.toNat := by
  obtain ⟨ctx₁, before, front, rest, hpad, hdata, hfront, hbefore, hstate, hbitlen, hdatalen, heq⟩ := h.padBlock
  obtain ⟨data, hstore, hdata'⟩ := storeBitlen_spec hdata hfront (ctx.bitlen + ctx.datalen.toUInt64 * 8)
  have hpadded : before ++ data.toList = paddedBytes (blocks ++ kept) := by
    rw [hdata', h.bits, ← append_assoc, heq, paddedBytes]
  have hfinal : hashBlocks data.toList ctx₁.state = hashBlocks (paddedBytes (blocks ++ kept)) initialHash := by
    rw [← hpadded, hashBlocks_append hbefore, hstate]
  obtain ⟨h₀, h₁, h₂, h₃, hstore₀, hstore₁, hstore₂, hstore₃, hbytes⟩ :=
    storeBytes_all (hashBlocks data.toList ctx₁.state).toList hash rfl
  refine ⟨{ ctx₁ with
    data, bitlen := ctx.bitlen + ctx.datalen.toUInt64 * 8, state := hashBlocks data.toList ctx₁.state }, h₃, ?_,
    by rw [hbytes, hfinal]⟩
  simp only [datara_sha256_final, hpad, hbitlen, hdatalen, hstore, transform_eq, hstore₀, hstore₁, hstore₂, hstore₃,
    bind_eq_bind, bind_some]
  rfl

end

/-- **Both implementations are the hash of the standard**: for a message of any length, in any parts. -/
theorem implementations_standard (updates : List (List UInt8)) (ctx : DATARA_SHA256_CTX) (hash : Vector UInt8 32) :
    ∃ out, digest updates.flatten = some out ∧ (∃ ctx' hash', streamed ctx updates hash = some (ctx', hash') ∧
      hash'.toList = out) ∧ out.length = 32 ∧ bytesBits out = sha256 (bytesBits updates.flatten) := by
  obtain ⟨ctx₁, blocks, kept, hupdates, heq, hstreamed⟩ := (Streamed.init ctx).updates updates
  obtain ⟨ctx₂, hash', hfinal, hbytes⟩ := hstreamed.final hash
  rw [heq, List.append_nil, List.nil_append] at hbytes
  refine ⟨_, digest_eq updates.flatten, ⟨ctx₂, hash', ?_, hbytes⟩, ?_, sha256_bytes.symm⟩
  · rw [streamed, hupdates]
    exact hfinal
  · rw [← hbytes, hash'.length_toList]

end Datara.Runtime.Sha256
