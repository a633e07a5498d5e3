import Datara.Library.Masks
import Datara.Library.Words

/-!
# Base64

`datara_rt_base64_encode` and `datara_rt_base64_decode` of `runtime/datara_crypto.c`. A text is its bytes before the
terminator. A store outside the buffer has no result. The decoder takes `=` in the last two places of every group of
four, not of the last one alone: what it accepts is an encoding exactly when its padding is at the end.
-/

namespace Datara.Runtime.Base64

open Library

/-- `B64_CHARS`. -/
def B64_CHARS : List UInt8 :=
  (['A', 'B', 'C', 'D', 'E', 'F', 'G', 'H', 'I', 'J', 'K', 'L', 'M', 'N', 'O', 'P', 'Q', 'R', 'S', 'T', 'U', 'V', 'W',
    'X', 'Y', 'Z', 'a', 'b', 'c', 'd', 'e', 'f', 'g', 'h', 'i', 'j', 'k', 'l', 'm', 'n', 'o', 'p', 'q', 'r', 's', 't',
    'u', 'v', 'w', 'x', 'y', 'z', '0', '1', '2', '3', '4', '5', '6', '7', '8', '9', '+', '/'] : List Char).map
      fun c => c.toNat.toUInt8

/-- `'='`. -/
def pad : UInt8 := 61

/-- `B64_CHARS[k]`. -/
def b64Char (k : Nat) : UInt8 := B64_CHARS.getD k 0

/-- `b64_rev[c]`; a character outside the alphabet, which is -1 there, has no value. -/
def b64Rev (c : UInt8) : Option Nat := B64_CHARS.idxOf? c

/-- `malloc`: a block of a number of bytes. -/
abbrev Malloc := Nat → Option (List UInt8)

/-- What a function returns: the constant `""`, or a block with its terminator. -/
inductive Returned
  | empty
  | block (bytes : List UInt8)
  deriving DecidableEq

/-- The text at the returned address. -/
def Returned.text : Returned → List UInt8
  | .empty => []
  | .block bytes => bytes.takeWhile (· ≠ 0)

/-! ## Encoding -/

/-- The characters of `triple`, with the padding for the bytes that are missing. -/
def encodeGroup (a : UInt8) (b c : Option UInt8) : List UInt8 :=
  let triple := (a.toNat <<< 16) + ((b.getD 0).toNat <<< 8) + (c.getD 0).toNat
  [b64Char (triple >>> 18 &&& 0x3F), b64Char (triple >>> 12 &&& 0x3F),
    if b.isSome then b64Char (triple >>> 6 &&& 0x3F) else pad,
    if c.isSome then b64Char (triple &&& 0x3F) else pad]

/-- `encoded[j++] = v`, for each of some bytes. -/
def storeAll : List UInt8 → Nat → List UInt8 → Option (List UInt8)
  | [], _, buf => some buf
  | v :: vs, j, buf => do
    let buf ← storeWord buf j v
    storeAll vs (j + 1) buf

/-- The loop of `base64_encode`, over what is left of the input. -/
def encodeLoop : List UInt8 → Nat → List UInt8 → Option (List UInt8)
  | [], _, buf => some buf
  | [a], j, buf => storeAll (encodeGroup a none none) j buf
  | [a, b], j, buf => storeAll (encodeGroup a (some b) none) j buf
  | a :: b :: c :: rest, j, buf => do
    let buf ← storeAll (encodeGroup a (some b) (some c)) j buf
    encodeLoop rest (j + 4) buf

def base64Encode (malloc : Malloc) (input : List UInt8) : Option Returned :=
  let outLen := 4 * ((input.length + 2) / 3)
  match malloc (outLen + 1) with
  | none => some .empty
  | some encoded => do
    let encoded ← encodeLoop input 0 encoded
    let encoded ← storeWord encoded outLen 0
    return .block encoded

/-! ## Decoding -/

/-- `input[k] == '=' ? 0 : b64_rev[input[k]]`. -/
def padOrRev (c : UInt8) : Option Nat := if c = pad then some 0 else b64Rev c

/-- The bytes of a group, if each of its places holds what it may. -/
def decodeGroup (a b c d : UInt8) : Option (List UInt8) := do
  let a ← b64Rev a
  let b ← b64Rev b
  let c ← padOrRev c
  let d ← padOrRev d
  let triple := a <<< 18 ||| b <<< 12 ||| c <<< 6 ||| d
  return [(triple >>> 16 &&& 0xFF).toUInt8, (triple >>> 8 &&& 0xFF).toUInt8, (triple &&& 0xFF).toUInt8]

/-- `if (j < out_len) decoded[j++] = v`, for each of some bytes. -/
def storeWithin (outLen : Nat) : List UInt8 → Nat → List UInt8 → Option (Nat × List UInt8)
  | [], j, buf => some (j, buf)
  | v :: vs, j, buf =>
    if j < outLen then do
      let buf ← storeWord buf j v
      storeWithin outLen vs (j + 1) buf
    else storeWithin outLen vs j buf

/-- The loop of `base64_decode`, over what is left of the input; the inner `none` is the return with `""`. -/
def decodeLoop (outLen : Nat) : List UInt8 → Nat → List UInt8 → Option (Option (List UInt8))
  | [], _, buf => some (some buf)
  | a :: b :: c :: d :: rest, j, buf =>
    match decodeGroup a b c d with
    | none => some none
    | some bytes => do
      let (j, buf) ← storeWithin outLen bytes j buf
      decodeLoop outLen rest j buf
  | _, _, _ => none

/-- `out_len`. -/
def decodedLength (input : List UInt8) : Nat :=
  let outLen := input.length / 4 * 3
  let outLen := if 0 < input.length ∧ input[input.length - 1]? = some pad then outLen - 1 else outLen
  if 1 < input.length ∧ input[input.length - 2]? = some pad then outLen - 1 else outLen

def base64Decode (malloc : Malloc) (input : List UInt8) : Option Returned :=
  if input.length % 4 ≠ 0 then some .empty
  else
    let outLen := decodedLength input
    match malloc (outLen + 1) with
    | none => some .empty
    | some decoded => do
      let decoded ← decodeLoop outLen input 0 decoded
      match decoded with
      | none => return .empty
      | some decoded => do
        let decoded ← storeWord decoded outLen 0
        return .block decoded

/-! ## The alphabet -/

section
variable {x y z v : Nat} {c : UInt8}

theorem rev_char : ∀ k < 64, b64Rev (b64Char k) = some k := by decide +kernel

theorem char_ne : ∀ k < 64, b64Char k ≠ pad ∧ b64Char k ≠ 0 := by decide +kernel

theorem rev_eq_some (h : b64Rev c = some x) : x < 64 ∧ b64Char x = c := by
  obtain ⟨hlt, heq, -⟩ := List.findIdx?_eq_some_iff_getElem.mp h
  refine ⟨hlt, ?_⟩
  rw [b64Char, List.getD_eq_getElem?_getD, List.getElem?_eq_getElem hlt]
  simpa using heq

theorem padOrRev_char (h : x < 64) : padOrRev (b64Char x) = some x := by
  rw [padOrRev, if_neg (char_ne x h).1, rev_char x h]

/-! ## One group -/

theorem encodeGroup_eq (a : UInt8) (b c : Option UInt8) : encodeGroup a b c =
    [b64Char (a.toNat / 4), b64Char (a.toNat % 4 * 16 + (b.getD 0).toNat / 16),
      if b.isSome then b64Char ((b.getD 0).toNat % 16 * 4 + (c.getD 0).toNat / 64) else pad,
      if c.isSome then b64Char ((c.getD 0).toNat % 64) else pad] := by
  unfold encodeGroup
  have ha := a.toNat_lt
  have hb := (b.getD 0).toNat_lt
  have hc := (c.getD 0).toNat_lt
  have hmask (n : Nat) : n &&& 0x3F = n % 64 := Nat.and_two_pow_sub_one_eq_mod n 6
  generalize a.toNat = p at *
  generalize (b.getD 0).toNat = q at *
  generalize (c.getD 0).toNat = r at *
  have h1 : (p * 2 ^ 16 + q * 2 ^ 8 + r) / 2 ^ 18 % 64 = p / 4 := by omega
  have h2 : (p * 2 ^ 16 + q * 2 ^ 8 + r) / 2 ^ 12 % 64 = p % 4 * 16 + q / 16 := by omega
  have h3 : (p * 2 ^ 16 + q * 2 ^ 8 + r) / 2 ^ 6 % 64 = q % 16 * 4 + r / 64 := by omega
  have h4 : (p * 2 ^ 16 + q * 2 ^ 8 + r) % 64 = r % 64 := by omega
  simp only [hmask, Nat.shiftLeft_eq, Nat.shiftRight_eq_div_pow, h1, h2, h3, h4]

/-- The bits of a group do not overlap. -/
theorem triple_eq (hy : y < 64) (hz : z < 64) (hv : v < 64) :
    x <<< 18 ||| y <<< 12 ||| z <<< 6 ||| v = x * 2 ^ 18 + y * 2 ^ 12 + z * 2 ^ 6 + v := by
  rw [shiftLeft_or (j := 12) (k := 6) hy, shiftLeft_or (j := 6) (k := 6) hz, ← Nat.shiftLeft_add_eq_or_of_lt (by omega),
    Nat.shiftLeft_eq]
  omega

theorem padOrRev_lt (h : padOrRev c = some z) : z < 64 := by
  rw [padOrRev] at h
  split_ifs at h
  · rw [← Option.some.inj h]
    decide
  · exact (rev_eq_some h).1

theorem decodeGroup_eq {a b d : UInt8} (ha : b64Rev a = some x) (hb : b64Rev b = some y) (hc : padOrRev c = some z)
    (hd : padOrRev d = some v) : decodeGroup a b c d = some
      [(x * 4 + y / 16).toUInt8, (y % 16 * 16 + z / 4).toUInt8, (z % 4 * 64 + v).toUInt8] := by
  have hx := (rev_eq_some ha).1
  have hy := (rev_eq_some hb).1
  have hz := padOrRev_lt hc
  have hv := padOrRev_lt hd
  have hmask (n : Nat) : n &&& 0xFF = n % 256 := Nat.and_two_pow_sub_one_eq_mod n 8
  have h1 : (x * 2 ^ 18 + y * 2 ^ 12 + z * 2 ^ 6 + v) / 2 ^ 16 % 256 = x * 4 + y / 16 := by omega
  have h2 : (x * 2 ^ 18 + y * 2 ^ 12 + z * 2 ^ 6 + v) / 2 ^ 8 % 256 = y % 16 * 16 + z / 4 := by omega
  have h3 : (x * 2 ^ 18 + y * 2 ^ 12 + z * 2 ^ 6 + v) % 256 = z % 4 * 64 + v := by omega
  simp only [decodeGroup, ha, hb, hc, hd, Option.bind_eq_bind, Option.bind_some, triple_eq hy hz hv, hmask,
    Nat.shiftRight_eq_div_pow, h1, h2, h3]
  rfl

theorem decodeGroup_inv {a b d : UInt8} {bytes : List UInt8} (h : decodeGroup a b c d = some bytes) :
    ∃ x y z v, b64Rev a = some x ∧ b64Rev b = some y ∧ padOrRev c = some z ∧ padOrRev d = some v ∧
      bytes = [(x * 4 + y / 16).toUInt8, (y % 16 * 16 + z / 4).toUInt8, (z % 4 * 64 + v).toUInt8] := by
  have hgroup := h
  unfold decodeGroup at hgroup
  obtain ⟨x, hx, hgroup⟩ := Option.bind_eq_some_iff.mp hgroup
  obtain ⟨y, hy, hgroup⟩ := Option.bind_eq_some_iff.mp hgroup
  obtain ⟨z, hz, hgroup⟩ := Option.bind_eq_some_iff.mp hgroup
  obtain ⟨v, hv, hgroup⟩ := Option.bind_eq_some_iff.mp hgroup
  exact ⟨x, y, z, v, hx, hy, hz, hv, Option.some.inj (h.symm.trans (decodeGroup_eq hx hy hz hv))⟩

end

/-! ## Standard encodings -/

/-- `t` is the encoding of `s`, where `unused` holds of the bits after the last byte. -/
def EncodingOf (unused : Nat → Prop) : List UInt8 → List UInt8 → Prop
  | [], t => t = []
  | [a], t => ∃ x < 64, t = [b64Char (a.toNat / 4), b64Char x, pad, pad] ∧ x / 16 = a.toNat % 4 ∧ unused (x % 16)
  | [a, b], t => ∃ x < 64, t = [b64Char (a.toNat / 4), b64Char (a.toNat % 4 * 16 + b.toNat / 16), b64Char x, pad] ∧
      x / 4 = b.toNat % 16 ∧ unused (x % 4)
  | a :: b :: c :: s, t => ∃ t', t = b64Char (a.toNat / 4) :: b64Char (a.toNat % 4 * 16 + b.toNat / 16) ::
      b64Char (b.toNat % 16 * 4 + c.toNat / 64) :: b64Char (c.toNat % 64) :: t' ∧ EncodingOf unused s t'

/-- What the encoder writes. -/
def encoding : List UInt8 → List UInt8
  | [] => []
  | [a] => encodeGroup a none none
  | [a, b] => encodeGroup a (some b) none
  | a :: b :: c :: rest => encodeGroup a (some b) (some c) ++ encoding rest

theorem encoding_standard (s : List UInt8) : EncodingOf (· = 0) s (encoding s) := by
  induction s using encoding.induct with
  | case1 => rfl
  | case2 a =>
    refine ⟨a.toNat % 4 * 16, by omega, ?_, by omega, by omega⟩
    rw [encoding, encodeGroup_eq]
    rfl
  | case3 a b =>
    refine ⟨b.toNat % 16 * 4, by omega, ?_, by omega, by omega⟩
    rw [encoding, encodeGroup_eq]
    rfl
  | case4 a b c rest ih =>
    refine ⟨encoding rest, ?_, ih⟩
    rw [encoding, encodeGroup_eq]
    rfl

theorem length_encoding (s : List UInt8) : (encoding s).length = 4 * ((s.length + 2) / 3) := by
  induction s using encoding.induct with
  | case1 => rfl
  | case2 a => simp [encoding, encodeGroup]
  | case3 a b => simp [encoding, encodeGroup]
  | case4 a b c rest ih =>
    rw [encoding, List.length_append, ih]
    simp only [encodeGroup, List.length_cons, List.length_nil]
    omega

/-! ## The loops -/

theorem storeAll_spec {vs : List UInt8} {j : Nat} (pre mid post : List UInt8) (hj : j = pre.length) (hmid : mid.length = vs.length) :
    storeAll vs j (pre ++ mid ++ post) = some (pre ++ vs ++ post) := by
  induction vs generalizing pre mid j with
  | nil =>
    obtain rfl := List.eq_nil_of_length_eq_zero hmid
    rfl
  | cons v vs ih =>
    obtain ⟨x, mid, rfl⟩ := exists_word (w := mid) (by rw [hmid]; exact Nat.succ_pos _)
    have hrest := ih (j := j + 1) (pre ++ [v]) mid (by simp [hj]) (by simpa using hmid)
    rw [storeAll, List.append_assoc, List.cons_append, storeWord_append (by rw [hj])]
    simpa using hrest

theorem encodeLoop_spec {s : List UInt8} {j : Nat} (pre mid post : List UInt8) (hj : j = pre.length)
    (hmid : mid.length = (encoding s).length) : encodeLoop s j (pre ++ mid ++ post) = some (pre ++ encoding s ++ post) := by
  induction s using encoding.induct generalizing pre mid j with
  | case1 =>
    obtain rfl := List.eq_nil_of_length_eq_zero hmid
    rfl
  | case2 a => exact storeAll_spec pre mid post hj hmid
  | case3 a b => exact storeAll_spec pre mid post hj hmid
  | case4 a b c rest ih =>
    rw [encoding, List.length_append] at hmid
    obtain ⟨group, mid, rfl, hgroup⟩ := exists_part (w := mid) (n := (encodeGroup a (some b) (some c)).length) (by omega)
    rw [List.length_append] at hmid
    have hstore := storeAll_spec pre group (mid ++ post) hj hgroup
    have hrest := ih (j := j + 4) (pre ++ encodeGroup a (some b) (some c)) mid
      (by rw [List.length_append, hj]; rfl) (by omega)
    rw [encodeLoop, show pre ++ (group ++ mid) ++ post = pre ++ group ++ (mid ++ post) by simp, hstore, encoding]
    simpa using hrest

theorem base64Encode_eq {malloc : Malloc} {input block : List UInt8}
    (hblock : malloc (4 * ((input.length + 2) / 3) + 1) = some block)
    (hlen : block.length = 4 * ((input.length + 2) / 3) + 1) :
    base64Encode malloc input = some (.block (encoding input ++ [0])) := by
  obtain ⟨front, last, rfl, hfront⟩ := exists_part (w := block) (n := 4 * ((input.length + 2) / 3)) (by omega)
  rw [List.length_append, hfront] at hlen
  obtain ⟨x, rfl⟩ := List.length_eq_one_iff.mp (show last.length = 1 by omega)
  have hloop : encodeLoop input 0 (front ++ [x]) = some (encoding input ++ [x]) :=
    encodeLoop_spec [] front [x] rfl (by rw [hfront, length_encoding])
  rw [base64Encode, hblock]
  simp only [hloop, Option.bind_eq_bind, Option.bind_some]
  rw [storeWord_append (by rw [length_encoding])]
  rfl

/-- The bytes of all groups. -/
def decodeGroups : List UInt8 → Option (List UInt8)
  | [] => some []
  | a :: b :: c :: d :: rest => do
    let bytes ← decodeGroup a b c d
    let more ← decodeGroups rest
    return bytes ++ more
  | _ => none

theorem storeWithin_spec {outLen : Nat} (vs pre left : List UInt8) (hpre : pre.length ≤ outLen)
    (hleft : pre.length + left.length = outLen + 1) :
    ∃ left', storeWithin outLen vs pre.length (pre ++ left) = some ((pre ++ vs.take (outLen - pre.length)).length,
      pre ++ vs.take (outLen - pre.length) ++ left') ∧
      (pre ++ vs.take (outLen - pre.length)).length + left'.length = outLen + 1 := by
  induction vs generalizing pre left with
  | nil => exact ⟨left, by simp [storeWithin], by simpa using hleft⟩
  | cons v vs ih =>
    rw [storeWithin]
    by_cases hroom : pre.length < outLen
    · obtain ⟨x, left, rfl⟩ := exists_word (w := left) (by omega)
      obtain ⟨left', hrest, hlen⟩ := ih (pre ++ [v]) left (by simpa using Nat.succ_le_of_lt hroom)
        (by rw [List.length_append, ← hleft]; simp; omega)
      have htake : (v :: vs).take (outLen - pre.length) = v :: vs.take (outLen - (pre ++ [v]).length) := by
        rw [show outLen - pre.length = outLen - (pre ++ [v]).length + 1 by simp; omega, List.take_succ_cons]
      refine ⟨left', ?_, ?_⟩
      · rw [if_pos hroom, storeWord_append rfl, htake]
        simpa using hrest
      · rw [htake]
        simpa using hlen
    · have hfull : outLen - pre.length = 0 := by omega
      obtain ⟨left', hrest, hlen⟩ := ih pre left hpre hleft
      rw [if_neg hroom]
      simp only [hfull, List.take_zero, List.append_nil] at hrest hlen ⊢
      exact ⟨left', hrest, hlen⟩

theorem decodeLoop_spec {outLen : Nat} (t pre left : List UInt8) (ht : t.length % 4 = 0) (hpre : pre.length ≤ outLen)
    (hleft : pre.length + left.length = outLen + 1) :
    (decodeGroups t = none → decodeLoop outLen t pre.length (pre ++ left) = some none) ∧
      ∀ out, decodeGroups t = some out → ∃ left', decodeLoop outLen t pre.length (pre ++ left) =
        some (some (pre ++ out.take (outLen - pre.length) ++ left')) ∧
        (pre ++ out.take (outLen - pre.length)).length + left'.length = outLen + 1 := by
  induction t using decodeGroups.induct generalizing pre left with
  | case1 =>
    refine ⟨fun h => (by cases h), fun out hout => ⟨left, ?_, ?_⟩⟩
    · rw [← Option.some.inj hout]
      simp [decodeLoop]
    · rw [← Option.some.inj hout]
      simpa using hleft
  | case2 a b c d rest ih =>
    rw [decodeLoop, decodeGroups]
    cases hgroup : decodeGroup a b c d with
    | none => exact ⟨fun _ => rfl, fun out hout => by cases hout⟩
    | some bytes =>
      obtain ⟨left₁, hstore, hlen₁⟩ := storeWithin_spec bytes pre left hpre hleft
      have hnext := ih (pre ++ bytes.take (outLen - pre.length)) left₁ (by simp at ht; omega)
        (by rw [List.length_append, List.length_take]; omega) hlen₁
      simp only [Option.bind_eq_bind, Option.bind_some, hstore]
      refine ⟨fun hnone => ?_, fun out hout => ?_⟩
      · apply hnext.1
        cases hrest : decodeGroups rest with
        | none => rfl
        | some more =>
          rw [hrest] at hnone
          cases hnone
      · obtain ⟨more, hmore, hout⟩ := Option.bind_eq_some_iff.mp hout
        cases hout
        obtain ⟨left₂, hloop, hlen₂⟩ := hnext.2 more hmore
        have htake : pre ++ (bytes ++ more).take (outLen - pre.length) = pre ++ bytes.take (outLen - pre.length) ++
            more.take (outLen - (pre ++ bytes.take (outLen - pre.length)).length) := by
          rw [List.take_append, List.append_assoc]
          congr 3
          rw [List.length_append, List.length_take]
          omega
        exact ⟨left₂, by rw [htake]; exact hloop, by rw [htake]; exact hlen₂⟩
  | case3 t hnil hgroup =>
    rcases t with _ | ⟨a, _ | ⟨b, _ | ⟨c, _ | ⟨d, rest⟩⟩⟩⟩
    · exact absurd rfl hnil
    · simp at ht
    · simp at ht
    · simp at ht
    · exact absurd rfl (hgroup a b c d rest)

/-- `out_len` is at most three for each group. -/
theorem decodedLength_le (t : List UInt8) : decodedLength t ≤ t.length / 4 * 3 := by
  simp only [decodedLength]
  split_ifs <;> omega

theorem length_decodeGroups {t out : List UInt8} (h : decodeGroups t = some out) : out.length = t.length / 4 * 3 := by
  induction t using decodeGroups.induct generalizing out with
  | case1 =>
    rw [← Option.some.inj h]
    rfl
  | case2 a b c d rest ih =>
    rw [decodeGroups] at h
    obtain ⟨bytes, hgroup, h⟩ := Option.bind_eq_some_iff.mp h
    obtain ⟨more, hmore, h⟩ := Option.bind_eq_some_iff.mp h
    rw [← Option.some.inj h, List.length_append, ih hmore]
    have hbytes : bytes.length = 3 := by
      obtain ⟨x, y, z, v, -, -, -, -, rfl⟩ := decodeGroup_inv hgroup
      rfl
    rw [hbytes]
    simp only [List.length_cons]
    omega
  | case3 t hnil hgroup =>
    rw [decodeGroups] at h
    · cases h
    · exact hnil
    · exact hgroup

/-- **What the decoder returns**: the bytes of the groups up to the length, or the constant for a text that it does not
take. -/
theorem base64Decode_eq {malloc : Malloc} {t block : List UInt8} (ht : t.length % 4 = 0)
    (hblock : malloc (decodedLength t + 1) = some block) (hlen : block.length = decodedLength t + 1) :
    base64Decode malloc t = some (match decodeGroups t with
      | none => .empty
      | some out => .block (out.take (decodedLength t) ++ [0])) := by
  have hloop := decodeLoop_spec t [] block ht (Nat.zero_le (decodedLength t))
    (by simpa using hlen)
  simp only [List.nil_append, List.length_nil, Nat.sub_zero] at hloop
  rw [base64Decode, if_neg (by omega)]
  simp only [hblock]
  cases hgroups : decodeGroups t with
  | none =>
    simp only [hloop.1 hgroups]
    rfl
  | some out =>
    obtain ⟨left, hrun, hsize⟩ := hloop.2 out hgroups
    have hout := length_decodeGroups hgroups
    have hle := decodedLength_le t
    have htake : (out.take (decodedLength t)).length = decodedLength t := by
      rw [List.length_take]
      omega
    rw [htake] at hsize
    obtain ⟨x, rfl⟩ := List.length_eq_one_iff.mp (show left.length = 1 by omega)
    simp only [hrun, Option.bind_eq_bind, Option.bind_some]
    rw [storeWord_append (by rw [htake])]
    rfl

/-! ## What is decoded -/

theorem decodedLength_group {a b c d : UInt8} {t : List UInt8} (hc : c ≠ pad) (hd : d ≠ pad) (ht : t.length % 4 = 0) :
    decodedLength (a :: b :: c :: d :: t) = 3 + decodedLength t := by
  rcases t with _ | ⟨e, t⟩
  · simp [decodedLength, hc, hd]
  · obtain ⟨n, hn⟩ : ∃ n, (e :: t).length = n + 2 := ⟨(e :: t).length - 2, by simp at ht ⊢; omega⟩
    generalize e :: t = u at *
    rw [hn] at ht
    have hlast : (a :: b :: c :: d :: u)[n + 2 + 1 + 1 + 1 + 1 - 1]? = u[n + 2 - 1]? := rfl
    have hbefore : (a :: b :: c :: d :: u)[n + 2 + 1 + 1 + 1 + 1 - 2]? = u[n + 2 - 2]? := rfl
    have hpos : 0 < n + 2 + 1 + 1 + 1 + 1 ∧ 1 < n + 2 + 1 + 1 + 1 + 1 ∧ 0 < n + 2 ∧ 1 < n + 2 := by omega
    simp only [decodedLength, List.length_cons, hn, hlast, hbefore, hpos, true_and]
    split_ifs <;> omega

theorem decodeGroups_cons {a b c d : UInt8} {t : List UInt8} : decodeGroups (a :: b :: c :: d :: t) =
    (decodeGroup a b c d).bind fun bytes => (decodeGroups t).map fun more => bytes ++ more := by
  rw [decodeGroups]
  cases decodeGroup a b c d with
  | none => rfl
  | some bytes => cases decodeGroups t <;> rfl

theorem decodeGroups_step {a b c d : UInt8} {t bytes more : List UInt8} (h : decodeGroup a b c d = some bytes)
    (hmore : decodeGroups t = some more) : decodeGroups (a :: b :: c :: d :: t) = some (bytes ++ more) := by
  rw [decodeGroups_cons, h, hmore]
  rfl

theorem decodeGroups_last {a b c d : UInt8} {bytes : List UInt8} (h : decodeGroup a b c d = some bytes) :
    decodeGroups [a, b, c, d] = some bytes := by
  have hstep : decodeGroups [a, b, c, d] = some (bytes ++ []) := decodeGroups_step h rfl
  rw [hstep, List.append_nil]

theorem decodeGroups_encoding {unused : Nat → Prop} {s t : List UInt8} (h : EncodingOf unused s t) :
    t.length % 4 = 0 ∧ decodedLength t = s.length ∧ ∃ out, decodeGroups t = some out ∧ out.take s.length = s := by
  have hbyte (a : UInt8) {n : Nat} (hn : n = a.toNat) : n.toUInt8 = a := by
    rw [hn]
    exact UInt8.ofNat_toNat
  induction s using encoding.induct generalizing t with
  | case1 =>
    obtain rfl : t = [] := h
    exact ⟨rfl, rfl, [], rfl, rfl⟩
  | case2 a =>
    obtain ⟨x, hx, rfl, hbits, -⟩ := h
    have ha := a.toNat_lt
    have hgroup := decodeGroup_eq (rev_char (a.toNat / 4) (by omega)) (rev_char x hx) (show padOrRev pad = some 0 from rfl)
      (show padOrRev pad = some 0 from rfl)
    refine ⟨by simp, by simp [decodedLength], _, decodeGroups_last hgroup, ?_⟩
    simp only [List.length_singleton, List.take_succ_cons, List.take_zero]
    rw [hbyte a (by omega)]
  | case3 a b =>
    obtain ⟨x, hx, rfl, hbits, -⟩ := h
    have ha := a.toNat_lt
    have hb := b.toNat_lt
    have hgroup := decodeGroup_eq (rev_char (a.toNat / 4) (by omega))
      (rev_char (a.toNat % 4 * 16 + b.toNat / 16) (by omega)) (padOrRev_char hx) (show padOrRev pad = some 0 from rfl)
    refine ⟨by simp, by simp [decodedLength, (char_ne x hx).1], _, decodeGroups_last hgroup, ?_⟩
    simp only [List.length_cons, List.length_nil, List.take_succ_cons, List.take_zero]
    rw [hbyte a (by omega), hbyte b (by omega)]
  | case4 a b c s ih =>
    obtain ⟨t, rfl, h⟩ := h
    obtain ⟨hlen, hdecoded, out, hout, htake⟩ := ih h
    have ha := a.toNat_lt
    have hb := b.toNat_lt
    have hc := c.toNat_lt
    have hgroup := decodeGroup_eq (rev_char (a.toNat / 4) (by omega))
      (rev_char (a.toNat % 4 * 16 + b.toNat / 16) (by omega)) (padOrRev_char (x := b.toNat % 16 * 4 + c.toNat / 64) (by omega))
      (padOrRev_char (x := c.toNat % 64) (by omega))
    refine ⟨by simp; omega, ?_, _, decodeGroups_step hgroup hout, ?_⟩
    · rw [decodedLength_group (char_ne _ (by omega)).1 (char_ne _ (by omega)).1 hlen, hdecoded]
      simp only [List.length_cons]
      omega
    · simp only [List.cons_append, List.nil_append, List.length_cons, List.take_succ_cons, htake]
      rw [hbyte a (by omega), hbyte b (by omega), hbyte c (by omega)]

/-! ## What is accepted -/

/-- `=` is at most the last character or the last two. -/
def PaddedAtEnd (t : List UInt8) : Prop :=
  ∃ body, pad ∉ body ∧ (t = body ∨ t = body ++ [pad] ∨ t = body ++ [pad, pad])

/-- The length is not a multiple of four, or a place of a group holds a character it may not. -/
def Malformed : List UInt8 → Prop
  | [] => False
  | a :: b :: c :: d :: rest =>
    b64Rev a = none ∨ b64Rev b = none ∨ padOrRev c = none ∨ padOrRev d = none ∨ Malformed rest
  | _ => True

theorem malformed_iff {t : List UInt8} : Malformed t ↔ decodeGroups t = none := by
  induction t using decodeGroups.induct with
  | case1 => simp [Malformed, decodeGroups]
  | case2 a b c d rest ih =>
    rw [Malformed, decodeGroups_cons, ih]
    cases ha : b64Rev a <;> cases hb : b64Rev b <;> cases hc : padOrRev c <;> cases hd : padOrRev d <;>
      simp [decodeGroup, ha, hb, hc, hd]
  | case3 t hnil hgroup =>
    rw [Malformed, decodeGroups]
    · simp
    all_goals assumption

section
variable {a : UInt8} {t : List UInt8}

theorem paddedAtEnd_cons : PaddedAtEnd (a :: t) ↔ a ≠ pad ∧ PaddedAtEnd t ∨ a = pad ∧ (t = [] ∨ t = [pad]) := by
  constructor
  · rintro ⟨_ | ⟨b, body⟩, hbody, h⟩
    · simp only [List.nil_append, List.cons.injEq, reduceCtorEq, false_or] at h
      obtain ⟨ha, ht⟩ | ⟨ha, ht⟩ := h
      · exact .inr ⟨ha, .inl ht⟩
      · exact .inr ⟨ha, .inr ht⟩
    · rw [List.mem_cons, not_or] at hbody
      simp only [List.cons_append, List.cons.injEq, ← and_or_left] at h
      exact .inl ⟨h.1 ▸ Ne.symm hbody.1, body, hbody.2, h.2⟩
  · rintro (⟨ha, body, hbody, h⟩ | ⟨rfl, h⟩)
    · refine ⟨a :: body, by simp [hbody, Ne.symm ha], ?_⟩
      simpa only [List.cons_append, List.cons.injEq, true_and] using h
    · refine ⟨[], by simp, ?_⟩
      simpa using h

theorem PaddedAtEnd.cons (ha : a ≠ pad) (h : PaddedAtEnd t) : PaddedAtEnd (a :: t) :=
  paddedAtEnd_cons.mpr (.inl ⟨ha, h⟩)

theorem PaddedAtEnd.of_cons (ha : a ≠ pad) (h : PaddedAtEnd (a :: t)) : PaddedAtEnd t := by
  obtain h | h := paddedAtEnd_cons.mp h
  · exact h.2
  · exact absurd h.1 ha

end

theorem encoding_padded {unused : Nat → Prop} {s t : List UInt8} (h : EncodingOf unused s t) : PaddedAtEnd t := by
  induction s using encoding.induct generalizing t with
  | case1 =>
    obtain rfl : t = [] := h
    exact ⟨[], by simp, .inl rfl⟩
  | case2 a =>
    obtain ⟨x, hx, rfl, -, -⟩ := h
    have ha := a.toNat_lt
    apply PaddedAtEnd.cons (char_ne _ (by omega)).1
    apply PaddedAtEnd.cons (char_ne _ hx).1
    exact paddedAtEnd_cons.mpr (.inr ⟨rfl, .inr rfl⟩)
  | case3 a b =>
    obtain ⟨x, hx, rfl, -, -⟩ := h
    have ha := a.toNat_lt
    have hb := b.toNat_lt
    apply PaddedAtEnd.cons (char_ne _ (by omega)).1
    apply PaddedAtEnd.cons (char_ne _ (by omega)).1
    apply PaddedAtEnd.cons (char_ne _ hx).1
    exact paddedAtEnd_cons.mpr (.inr ⟨rfl, .inl rfl⟩)
  | case4 a b c s ih =>
    obtain ⟨t, rfl, h⟩ := h
    have ha := a.toNat_lt
    have hb := b.toNat_lt
    have hc := c.toNat_lt
    apply PaddedAtEnd.cons (char_ne _ (by omega)).1
    apply PaddedAtEnd.cons (char_ne _ (by omega)).1
    apply PaddedAtEnd.cons (char_ne _ (by omega)).1
    apply PaddedAtEnd.cons (char_ne _ (by omega)).1
    exact ih h

theorem padOrRev_eq_some {c : UInt8} {z : Nat} (hc : c ≠ pad) (h : padOrRev c = some z) : b64Rev c = some z := by
  rwa [padOrRev, if_neg hc] at h

theorem toNat_byte {n : Nat} (h : n < 256) : n.toUInt8.toNat = n := by
  rw [Nat.toUInt8_eq, UInt8.toNat_ofNat', Nat.mod_eq_of_lt h]

theorem encoding_of_padded {t out : List UInt8} (h : decodeGroups t = some out) (hpadded : PaddedAtEnd t) :
    ∃ s, EncodingOf (fun _ => True) s t := by
  have hne {c : UInt8} {x : Nat} (hx : b64Rev c = some x) : c ≠ pad := by
    obtain ⟨hlt, rfl⟩ := rev_eq_some hx
    exact (char_ne x hlt).1
  induction t using decodeGroups.induct generalizing out with
  | case1 => exact ⟨[], rfl⟩
  | case2 a b c d rest ih =>
    rw [decodeGroups_cons] at h
    obtain ⟨bytes, hgroup, h⟩ := Option.bind_eq_some_iff.mp h
    obtain ⟨more, hmore, -⟩ := Option.map_eq_some_iff.mp h
    obtain ⟨x, y, z, v, hx, hy, hz, hv, -⟩ := decodeGroup_inv hgroup
    have hcd := (hpadded.of_cons (hne hx)).of_cons (hne hy)
    obtain ⟨hxlt, rfl⟩ := rev_eq_some hx
    obtain ⟨hylt, rfl⟩ := rev_eq_some hy
    have hfirst : (x * 4 + y / 16).toUInt8.toNat = x * 4 + y / 16 := toNat_byte (by omega)
    obtain ⟨hc, hdrest⟩ | ⟨rfl, hdrest⟩ := paddedAtEnd_cons.mp hcd
    · obtain ⟨hzlt, rfl⟩ := rev_eq_some (padOrRev_eq_some hc hz)
      have hsecond : (y % 16 * 16 + z / 4).toUInt8.toNat = y % 16 * 16 + z / 4 := toNat_byte (by omega)
      obtain ⟨hd, hend⟩ | ⟨rfl, hd⟩ := paddedAtEnd_cons.mp hdrest
      · obtain ⟨hvlt, rfl⟩ := rev_eq_some (padOrRev_eq_some hd hv)
        have hthird : (z % 4 * 64 + v).toUInt8.toNat = z % 4 * 64 + v := toNat_byte (by omega)
        obtain ⟨s, hs⟩ := ih hmore hend
        refine ⟨(x * 4 + y / 16).toUInt8 :: (y % 16 * 16 + z / 4).toUInt8 :: (z % 4 * 64 + v).toUInt8 :: s, rest, ?_, hs⟩
        rw [hfirst, hsecond, hthird]
        congr 4 <;> congr 1 <;> omega
      · obtain rfl | rfl := hd
        · refine ⟨[(x * 4 + y / 16).toUInt8, (y % 16 * 16 + z / 4).toUInt8], z, hzlt, ?_, ?_, trivial⟩
          · rw [hfirst, hsecond]
            congr 2 <;> congr 1 <;> omega
          · rw [hsecond]
            omega
        · cases hmore
    · obtain hd | hd := hdrest
      · cases hd
      · cases hd
        refine ⟨[(x * 4 + y / 16).toUInt8], y, hylt, ?_, ?_, trivial⟩
        · rw [hfirst]
          congr 2
          omega
        · rw [hfirst]
          omega
  | case3 t hnil hgroup =>
    rw [decodeGroups] at h
    · cases h
    all_goals assumption

section
variable {malloc : Malloc} {s t : List UInt8}

theorem base64Decode_returns (hlen : ∀ n block, malloc n = some block → block.length = n) (t : List UInt8) :
    ∃ r, base64Decode malloc t = some r := by
  by_cases ht : t.length % 4 = 0
  · cases hblock : malloc (decodedLength t + 1) with
    | none =>
      rw [base64Decode, if_neg (by omega)]
      simp only [hblock]
      exact ⟨_, rfl⟩
    | some block => exact ⟨_, base64Decode_eq ht hblock (hlen _ _ hblock)⟩
  · rw [base64Decode, if_pos ht]
    exact ⟨_, rfl⟩

theorem malformed_of_length (ht : t.length % 4 ≠ 0) : Malformed t := by
  rw [malformed_iff]
  cases h : decodeGroups t with
  | none => rfl
  | some out =>
    exfalso
    induction t using decodeGroups.induct generalizing out with
    | case1 => exact ht rfl
    | case2 a b c d rest ih =>
      rw [decodeGroups_cons] at h
      obtain ⟨bytes, -, h⟩ := Option.bind_eq_some_iff.mp h
      obtain ⟨more, hmore, -⟩ := Option.map_eq_some_iff.mp h
      exact ih (by simp only [List.length_cons] at ht; omega) more hmore
    | case3 t hnil hgroup =>
      rw [decodeGroups] at h
      · cases h
      all_goals assumption

/-- A text is taken when each place of a group holds what it may. -/
theorem accepts_iff (hlen : ∀ n block, malloc n = some block → block.length = n)
    (hmalloc : malloc (decodedLength t + 1) ≠ none) :
    (∃ bytes, base64Decode malloc t = some (.block bytes)) ↔ ¬Malformed t := by
  by_cases ht : t.length % 4 = 0
  · obtain ⟨block, hblock⟩ := Option.ne_none_iff_exists'.mp hmalloc
    rw [base64Decode_eq ht hblock (hlen _ _ hblock), malformed_iff]
    cases decodeGroups t <;> simp
  · rw [base64Decode, if_pos ht]
    simp [malformed_of_length ht]

theorem encoding_nonzero {unused : Nat → Prop} (h : EncodingOf unused s t) : (0 : UInt8) ∉ t := by
  have hchar {k : Nat} (hk : k < 64) : (0 : UInt8) ≠ b64Char k := Ne.symm (char_ne k hk).2
  have hpad : (0 : UInt8) ≠ pad := by decide
  induction s using encoding.induct generalizing t with
  | case1 =>
    obtain rfl : t = [] := h
    exact List.not_mem_nil
  | case2 a =>
    obtain ⟨x, hx, rfl, -, -⟩ := h
    have ha := a.toNat_lt
    simp [hchar hx, hchar (show a.toNat / 4 < 64 by omega), hpad]
  | case3 a b =>
    obtain ⟨x, hx, rfl, -, -⟩ := h
    have ha := a.toNat_lt
    have hb := b.toNat_lt
    simp [hchar hx, hchar (show a.toNat / 4 < 64 by omega), hchar (show a.toNat % 4 * 16 + b.toNat / 16 < 64 by omega),
      hpad]
  | case4 a b c s ih =>
    obtain ⟨t, rfl, h⟩ := h
    have ha := a.toNat_lt
    have hb := b.toNat_lt
    have hc := c.toNat_lt
    simp [hchar (show a.toNat / 4 < 64 by omega), hchar (show a.toNat % 4 * 16 + b.toNat / 16 < 64 by omega),
      hchar (show b.toNat % 16 * 4 + c.toNat / 64 < 64 by omega), hchar (show c.toNat % 64 < 64 by omega), ih h]

theorem text_block (hs : (0 : UInt8) ∉ s) : (Returned.block (s ++ [0])).text = s := by
  rw [Returned.text, List.takeWhile_append_of_pos]
  · simp
  · intro a ha
    simpa using fun (h : a = 0) => hs (h ▸ ha)

theorem encoded_decodes (hlen : ∀ n block, malloc n = some block → block.length = n) (hs : (0 : UInt8) ∉ s)
    (h : EncodingOf (· = 0) s t) (hmalloc : malloc (s.length + 1) ≠ none) :
    ∃ d, base64Decode malloc t = some d ∧ d.text = s := by
  obtain ⟨ht, hdecoded, out, hout, htake⟩ := decodeGroups_encoding h
  obtain ⟨block, hblock⟩ := Option.ne_none_iff_exists'.mp hmalloc
  rw [← hdecoded] at hblock
  refine ⟨_, base64Decode_eq ht hblock (hlen _ _ hblock), ?_⟩
  simp only [hout, hdecoded, htake]
  exact text_block hs

/-- **The round trip, and what is accepted**: a text that is encoded is decoded again, and a text is taken only as an
encoding exactly when its padding is at the end. -/
theorem base64_faithful_iff (hlen : ∀ n block, malloc n = some block → block.length = n) :
    (∀ s, (0 : UInt8) ∉ s → malloc (4 * ((s.length + 2) / 3) + 1) ≠ none → malloc (s.length + 1) ≠ none →
      ∃ e, base64Encode malloc s = some e ∧ e.text.length = 4 * ((s.length + 2) / 3) ∧ EncodingOf (· = 0) s e.text ∧
        ∃ d, base64Decode malloc e.text = some d ∧ d.text = s) ∧
      ∀ t, (∃ r, base64Decode malloc t = some r) ∧ (malloc (decodedLength t + 1) ≠ none →
        ((∀ bytes, base64Decode malloc t = some (.block bytes) → ∃ s, EncodingOf (fun _ => True) s t) ↔
          Malformed t ∨ PaddedAtEnd t)) := by
  refine ⟨fun s hs hencode hdecode => ?_, fun t => ⟨base64Decode_returns hlen t, fun hmalloc => ?_⟩⟩
  · obtain ⟨block, hblock⟩ := Option.ne_none_iff_exists'.mp hencode
    have hstandard := encoding_standard s
    refine ⟨_, base64Encode_eq hblock (hlen _ _ hblock), ?_⟩
    rw [text_block (encoding_nonzero hstandard)]
    exact ⟨length_encoding s, hstandard, encoded_decodes hlen hs hstandard hdecode⟩
  · constructor
    · intro h
      by_cases hbad : Malformed t
      · exact .inl hbad
      · obtain ⟨bytes, hbytes⟩ := (accepts_iff hlen hmalloc).mpr hbad
        obtain ⟨s, hs⟩ := h bytes hbytes
        exact .inr (encoding_padded hs)
    · intro h bytes hbytes
      have hgood := (accepts_iff hlen hmalloc).mp ⟨bytes, hbytes⟩
      obtain ⟨out, hout⟩ := Option.ne_none_iff_exists'.mp (mt malformed_iff.mpr hgood)
      exact encoding_of_padded hout (h.resolve_left hgood)

theorem base64_faithful_zeroed :
    (∃ e, base64Encode (fun n => some (List.replicate n 0)) [77, 97] = some e ∧ e.text.length = 4 ∧
      EncodingOf (· = 0) [77, 97] e.text ∧
      ∃ d, base64Decode (fun n => some (List.replicate n 0)) e.text = some d ∧ d.text = [77, 97]) ∧
      ∃ r, base64Decode (fun n => some (List.replicate n 0)) [] = some r := by
  have hlen : ∀ n block, some (List.replicate n (0 : UInt8)) = some block → block.length = n := by
    intro n block hblock
    rw [← Option.some.inj hblock, List.length_replicate]
  have h := base64_faithful_iff hlen
  exact ⟨h.1 [77, 97] (by decide) (by simp) (by simp), (h.2 []).1⟩

/-- `AA==AAAA` is taken, and is the encoding of nothing. -/
theorem padding_inside_accepted :
    ∃ bytes, base64Decode (fun n => some (List.replicate n 0)) [65, 65, 61, 61, 65, 65, 65, 65] = some (.block bytes) ∧
      ¬∃ s, EncodingOf (fun _ => True) s [65, 65, 61, 61, 65, 65, 65, 65] := by
  refine ⟨[0, 0, 0, 0, 0, 0, 0], by decide +kernel, ?_⟩
  rintro ⟨s, hs⟩
  have hpadded := encoding_padded hs
  have h1 := (hpadded.of_cons (by decide)).of_cons (by decide)
  obtain ⟨h2, -⟩ | ⟨-, h2⟩ := paddedAtEnd_cons.mp h1
  · exact h2 rfl
  · simp at h2

end

end Datara.Runtime.Base64
