import Datara.Library.Leb128

/-!
# The framing of a WASM binary

The LEB128 writers and `emit_section` of `codegen/wasm/types.rs`, and `validate_wasm_binary` of `codegen/wasm/mod.rs`.
A `u32` is a number below `2 ^ 32`, on which `& 0x7F` is `% 128` and `>> 7` is `/ 128`; an `i32` or `i64` is an integer,
on which these round down. What goes wrong is a length of a section: one of `2 ^ 32` bytes is written cut off, and one
that is no `u32` is read without its high bits (`framing_iff`).
-/

namespace Datara.Codegen.Wasm

open Library.Leb128

/-! ## The writers -/

/-- `encode_u32_leb128`: what it pushes. -/
def encodeU32Leb128 (val : Nat) : List UInt8 :=
  let byte := val % 128
  let rest := val / 128
  if _ : rest ≠ 0 then UInt8.ofNat (byte + 128) :: encodeU32Leb128 rest else [UInt8.ofNat byte]
termination_by val
decreasing_by omega

/-- The loop of `encode_i32_leb128` and `encode_i64_leb128`. -/
def encodeSigned (val : Int) : List UInt8 :=
  let byte := (val % 128).toNat
  let rest := val / 128
  let signBit : Bool := 64 ≤ byte
  if _ : rest = 0 ∧ signBit = false ∨ rest = -1 ∧ signBit = true then [UInt8.ofNat byte]
  else UInt8.ofNat (byte + 128) :: encodeSigned rest
termination_by val.natAbs
decreasing_by
  simp only [signBit, byte, rest, decide_eq_false_iff_not, decide_eq_true_eq] at *
  omega

def encodeI32Leb128 (val : Int) : List UInt8 := encodeSigned val

def encodeI64Leb128 (val : Int) : List UInt8 := encodeSigned val

abbrev Section := UInt8 × List UInt8

/-- `emit_section`; `content.len() as u32` is the length that is written. -/
def emitSection (s : Section) (buf : List UInt8) : List UInt8 :=
  buf ++ s.1 :: (encodeU32Leb128 (s.2.length % 2 ^ 32) ++ s.2)

def header : List UInt8 := [0x00, 0x61, 0x73, 0x6D, 0x01, 0x00, 0x00, 0x00]

/-- The header and the sections. -/
def emitBinary (sections : List Section) : List UInt8 := sections.foldl (fun buf s => emitSection s buf) header

/-! ## The validator -/

/-- An error that is returned, or an index outside the slice. -/
inductive Fault
  | message (text : String)
  | outOfRange
  deriving DecidableEq

/-- `bytes[offset]`. -/
def byteAt (bytes : List UInt8) (offset : Nat) : Except Fault UInt8 :=
  match bytes[offset]? with
  | some b => .ok b
  | none => .error .outOfRange

/-- `if shift < 32 { sec_len |= ((byte & 0x7F) as u32) << shift; }`. -/
def addGroup (secLen shift : Nat) (byte : UInt8) : Nat :=
  if shift < 32 then secLen ||| ((byte.toNat % 128) <<< shift) % 2 ^ 32 else secLen

/-- The loop that reads the length of a section: where it ends, and `sec_len`. -/
def readLength (bytes : List UInt8) (offset secLen shift : Nat) : Except Fault (Nat × Nat) :=
  if offset ≥ bytes.length then .error (.message "Unexpected EOF in section length")
  else do
    let byte ← byteAt bytes offset
    let offset := offset + 1
    let secLen := addGroup secLen shift byte
    if byte.toNat < 128 then return (offset, secLen)
    else
      let shift := shift + 7
      if shift > 35 then .error (.message "LEB128 integer too large")
      else readLength bytes offset secLen shift
termination_by bytes.length - offset

theorem ok_bind {β γ : Type} (b : β) (f : β → Except Fault γ) : (Except.ok b >>= f) = f b := rfl

variable {bytes : List UInt8} {offset : Nat}

theorem byteAt_eq (h : offset < bytes.length) : byteAt bytes offset = .ok bytes[offset] := by
  rw [byteAt, List.getElem?_eq_getElem h]

theorem readLength_gt {offset secLen shift stop n : Nat}
    (h : readLength bytes offset secLen shift = .ok (stop, n)) : offset < stop := by
  induction hleft : bytes.length - offset using Nat.strongRecOn generalizing offset secLen shift with
  | ind left ih =>
    rw [readLength] at h
    by_cases hlt : offset < bytes.length
    · rw [if_neg (by omega), byteAt_eq hlt, ok_bind] at h
      split at h
      · cases h
        exact Nat.lt_succ_self _
      · dsimp only at h
        split at h
        · cases h
        · exact Nat.lt_of_succ_lt (ih _ (by omega) h rfl)
    · rw [if_pos (by omega)] at h
      cases h

/-- `while offset < bytes.len()`. `checked_add` of a length below `2 ^ 32` overflows in no slice. -/
def validateFrom (bytes : List UInt8) (offset : Nat) (lastSectionId : UInt8) : Except Fault Unit :=
  if offset < bytes.length then
    match byteAt bytes offset with
    | .error e => .error e
    | .ok sectionId =>
      if sectionId ≠ 0 ∧ sectionId ≤ lastSectionId ∧ lastSectionId ≠ 0 then
        .error (.message s!"Section {sectionId} out of order after section {lastSectionId}")
      else
        let lastSectionId := if sectionId ≠ 0 then sectionId else lastSectionId
        match _h : readLength bytes (offset + 1) 0 0 with
        | .error e => .error e
        | .ok (offset', secLen) =>
          if offset' + secLen ≤ bytes.length then validateFrom bytes (offset' + secLen) lastSectionId
          else .error (.message s!"Section {sectionId} length {secLen} exceeds binary size")
  else .ok ()
termination_by bytes.length - offset
decreasing_by
  have := readLength_gt _h
  omega

def validateWasmBinary (bytes : List UInt8) : Except Fault Unit :=
  if bytes.length < 8 then .error (.message "Wasm binary is less than 8 bytes")
  else if bytes.take 4 ≠ header.take 4 then .error (.message "Invalid Wasm magic number header")
  else if (bytes.drop 4).take 4 ≠ header.drop 4 then .error (.message "Invalid Wasm version (expected 1)")
  else validateFrom bytes 8 0

/-! ## What the format is -/

/-- A `u32`. -/
def LegalLength (bytes : List UInt8) (n : Nat) : Prop := decodeU 32 bytes = some (n, [])

/-- What the validator takes for a length: up to six bytes, of which it counts 32 bits. -/
def ReadLength (bytes : List UInt8) (n : Nat) : Prop :=
  Terminated bytes ∧ bytes.length ≤ 6 ∧ n = value bytes % 2 ^ 32

/-- Sections that tile a slice. The number of each that is not custom is above the one before. -/
inductive Tiles (isLength : List UInt8 → Nat → Prop) : UInt8 → List UInt8 → Prop
  | done (last : UInt8) : Tiles isLength last []
  | next {last id : UInt8} {length content rest : List UInt8} (order : id = 0 ∨ last < id)
      (isLen : isLength length content.length) (tail : Tiles isLength (if id ≠ 0 then id else last) rest) :
      Tiles isLength last (id :: (length ++ content ++ rest))

/-- A header, and sections whose lengths are of a kind. -/
def Binary (isLength : List UInt8 → Nat → Prop) (bytes : List UInt8) : Prop :=
  ∃ rest, bytes = header ++ rest ∧ Tiles isLength 0 rest

/-- A reader of sections. -/
def readSections (bytes : List UInt8) : Option (List Section) :=
  match bytes with
  | [] => some []
  | id :: bytes =>
    match _h : decodeU 32 bytes with
    | none => none
    | some (n, rest) =>
      if n ≤ rest.length then (readSections (rest.drop n)).map fun sections => (id, rest.take n) :: sections else none
termination_by bytes.length
decreasing_by
  have := decodeU_shortens _h
  simp only [List.length_drop, List.length_cons]
  omega

/-! ## The numbers -/

variable {n : Nat}

theorem toNat_ofNat_byte (h : n < 256) : (UInt8.ofNat n).toNat = n := by
  rw [UInt8.toNat_ofNat']
  exact Nat.mod_eq_of_lt h

theorem decodeU_encode {N v : Nat} (hv : v < 2 ^ N) (rest : List UInt8) :
    decodeU N (encodeU32Leb128 v ++ rest) = some (v, rest) := by
  induction v using Nat.strongRecOn generalizing N with
  | ind v ih =>
    rw [encodeU32Leb128]
    split
    case isTrue hmore =>
      have hN : 7 < N := by
        by_contra hle
        have : 2 ^ N ≤ 2 ^ 7 := Nat.pow_le_pow_right (by omega) (by omega)
        omega
      have hsplit := pow_split hN
      have hbyte := toNat_ofNat_byte (n := v % 128 + 128) (by omega)
      rw [List.cons_append, decodeU, hbyte, if_neg (by omega), if_pos hN, ih (v / 128) (by omega) (by omega)]
      simp only [Option.map_some, Option.some.injEq, Prod.mk.injEq, and_true]
      omega
    case isFalse hlast =>
      have hbyte := toNat_ofNat_byte (n := v % 128) (by omega)
      rw [List.singleton_append, decodeU, hbyte, if_pos (by omega), if_pos (by omega)]
      simp only [Option.some.injEq, Prod.mk.injEq, and_true]
      omega

theorem encodeU_length_le {N v : Nat} {bs rest : List UInt8} (h : decodeU N bs = some (v, rest)) :
    (encodeU32Leb128 v).length + rest.length ≤ bs.length := by
  induction bs generalizing N v with
  | nil => cases h
  | cons b bs ih =>
    rw [decodeU] at h
    split at h
    case isTrue hend =>
      obtain ⟨-, h⟩ := Option.ite_none_right_eq_some.mp h
      cases h
      rw [encodeU32Leb128, dif_neg (by omega)]
      simp only [List.length_cons, List.length_nil]
      omega
    case isFalse hgo =>
      obtain ⟨-, h⟩ := Option.ite_none_right_eq_some.mp h
      obtain ⟨⟨m, rest'⟩, hm, h⟩ := Option.map_eq_some_iff.mp h
      obtain ⟨rfl, rfl⟩ := Prod.mk.inj h
      have hb := b.toNat_lt
      have hdiv : (128 * m + (b.toNat - 128)) / 128 = m := by omega
      have := ih hm
      rw [encodeU32Leb128]
      split <;> simp only [hdiv, List.length_cons, List.length_nil] <;> omega

theorem decodeS_encode {N : Nat} {v : Int} (hN : 0 < N) (hlo : -2 ^ (N - 1) ≤ v) (hhi : v < 2 ^ (N - 1))
    (rest : List UInt8) : decodeS N (encodeSigned v ++ rest) = some (v, rest) := by
  induction hsize : v.natAbs using Nat.strongRecOn generalizing v N with
  | ind size ih =>
    have hcast : (2 : Int) ^ (N - 1) = ((2 ^ (N - 1) : Nat) : Int) := by push_cast; rfl
    rw [hcast] at hlo hhi
    rw [encodeSigned]
    split
    case isTrue hlast =>
      simp only [decide_eq_false_iff_not, decide_eq_true_eq] at hlast
      have hbyte := toNat_ofNat_byte (n := (v % 128).toNat) (by omega)
      rw [List.singleton_append, decodeS, hbyte]
      rcases hlast with ⟨hzero, hsign⟩ | ⟨hones, hsign⟩
      · rw [if_pos (by omega), if_pos (by omega)]
        simp only [Option.some.injEq, Prod.mk.injEq, and_true]
        omega
      · rw [if_neg (by omega), if_pos (by omega), if_pos (by omega)]
        simp only [Option.some.injEq, Prod.mk.injEq, and_true]
        omega
    case isFalse hmore =>
      simp only [decide_eq_false_iff_not, decide_eq_true_eq] at hmore
      have h7 : 7 < N := by
        by_contra hle
        have : 2 ^ (N - 1) ≤ 2 ^ 6 := Nat.pow_le_pow_right (by omega) (by omega)
        omega
      have hsplit : 2 ^ (N - 1) = 128 * 2 ^ (N - 7 - 1) := by
        rw [show (128 : Nat) = 2 ^ 7 from rfl, ← Nat.pow_add]
        congr 1
        omega
      have hbyte := toNat_ofNat_byte (n := (v % 128).toNat + 128) (by omega)
      have hcast' : (2 : Int) ^ (N - 7 - 1) = ((2 ^ (N - 7 - 1) : Nat) : Int) := by push_cast; rfl
      have hrest := ih (v / 128).natAbs (by omega) (N := N - 7) (v := v / 128) (by omega) (by rw [hcast']; omega)
        (by rw [hcast']; omega) rfl
      rw [List.cons_append, decodeS, hbyte, if_neg (by omega), if_neg (by omega), if_pos h7, hrest]
      simp only [Option.map_some, Option.some.injEq, Prod.mk.injEq, and_true]
      omega

theorem encodeSigned_length_le {N : Nat} {v : Int} {bs rest : List UInt8} (h : decodeS N bs = some (v, rest)) :
    (encodeSigned v).length + rest.length ≤ bs.length := by
  induction bs generalizing N v with
  | nil => cases h
  | cons b bs ih =>
    rw [decodeS] at h
    split at h
    case isTrue hpos =>
      obtain ⟨-, h⟩ := Option.ite_none_right_eq_some.mp h
      cases h
      rw [encodeSigned, dif_pos (.inl (by simp only [decide_eq_false_iff_not]; omega))]
      simp only [List.length_cons, List.length_nil]
      omega
    case isFalse hnot =>
      split at h
      case isTrue hneg =>
        obtain ⟨-, h⟩ := Option.ite_none_right_eq_some.mp h
        cases h
        rw [encodeSigned, dif_pos (.inr (by simp only [decide_eq_true_eq]; omega))]
        simp only [List.length_cons, List.length_nil]
        omega
      case isFalse hgo =>
        obtain ⟨-, h⟩ := Option.ite_none_right_eq_some.mp h
        obtain ⟨⟨m, rest'⟩, hm, h⟩ := Option.map_eq_some_iff.mp h
        cases h
        have hb := b.toNat_lt
        have hdiv : (128 * m + ((b.toNat : Int) - 128)) / 128 = m := by omega
        have := ih hm
        rw [encodeSigned]
        split <;> simp only [hdiv, List.length_cons, List.length_nil] <;> omega

/-! ## The length of a section -/

variable {acc k : Nat}

theorem addGroup_eq (b : UInt8) (hk : k ≤ 5) (hacc : acc < 2 ^ (7 * k)) (hword : acc < 2 ^ 32) :
    addGroup acc (7 * k) b = (acc + 2 ^ (7 * k) * (b.toNat % 128)) % 2 ^ 32 := by
  unfold addGroup
  split
  case isTrue hlt =>
    have hpow : 2 ^ 32 = 2 ^ (32 - 7 * k) * 2 ^ (7 * k) := by
      rw [← Nat.pow_add]
      congr 1
      omega
    have hkept : (b.toNat % 128) <<< (7 * k) % 2 ^ 32 = 2 ^ (7 * k) * (b.toNat % 128 % 2 ^ (32 - 7 * k)) := by
      rw [Nat.shiftLeft_eq, hpow, Nat.mul_mod_mul_right, Nat.mul_comm]
    have hdrop : 2 ^ (7 * k) * (b.toNat % 128) % 2 ^ 32 = 2 ^ (7 * k) * (b.toNat % 128 % 2 ^ (32 - 7 * k)) := by
      rw [← hkept, Nat.shiftLeft_eq, Nat.mul_comm]
    have hlt' : acc + 2 ^ (7 * k) * (b.toNat % 128 % 2 ^ (32 - 7 * k)) < 2 ^ 32 := by
      have hgroup : b.toNat % 128 % 2 ^ (32 - 7 * k) + 1 ≤ 2 ^ (32 - 7 * k) := Nat.mod_lt _ (Nat.two_pow_pos _)
      have hmul := Nat.mul_le_mul_left (2 ^ (7 * k)) hgroup
      rw [Nat.mul_add, Nat.mul_comm _ (2 ^ (32 - 7 * k)), ← hpow] at hmul
      omega
    rw [hkept, Nat.or_comm, ← Nat.two_pow_add_eq_or_of_lt hacc, Nat.add_comm, Nat.add_mod, hdrop,
      Nat.mod_eq_of_lt hword, Nat.mod_eq_of_lt hlt']
  case isFalse hge =>
    obtain rfl : k = 5 := by omega
    omega

theorem addGroup_lt {b : UInt8} (hk : k ≤ 5) (hacc : acc < 2 ^ (7 * k)) (hword : acc < 2 ^ 32) :
    addGroup acc (7 * k) b < 2 ^ (7 * (k + 1)) ∧ addGroup acc (7 * k) b < 2 ^ 32 := by
  rw [addGroup_eq b hk hacc hword]
  refine ⟨Nat.lt_of_le_of_lt (Nat.mod_le _ _) ?_, Nat.mod_lt _ (Nat.two_pow_pos 32)⟩
  have hgroup : b.toNat % 128 ≤ 127 := by omega
  have hmul := Nat.mul_le_mul_left (2 ^ (7 * k)) hgroup
  rw [Nat.mul_add, Nat.pow_add]
  omega

theorem addGroup_value {b : UInt8} (hk : k ≤ 5) (hacc : acc < 2 ^ (7 * k)) (hword : acc < 2 ^ 32)
    (used : List UInt8) : (addGroup acc (7 * k) b + 2 ^ (7 * (k + 1)) * value used) % 2 ^ 32 =
      (acc + 2 ^ (7 * k) * value (b :: used)) % 2 ^ 32 := by
  have hpow : 2 ^ (7 * (k + 1)) = 2 ^ (7 * k) * 128 := by rw [Nat.mul_add, Nat.pow_add]
  rw [addGroup_eq b hk hacc hword, Nat.mod_add_mod, hpow, value, Nat.mul_add, Nat.mul_assoc, Nat.add_assoc]

/-- **The length** that is read is that of up to six bytes, without what is above 32 bits. -/
theorem readLength_iff {bytes : List UInt8} {offset acc k stop n : Nat} (hk : k ≤ 5) (hacc : acc < 2 ^ (7 * k))
    (hword : acc < 2 ^ 32) : readLength bytes offset acc (7 * k) = .ok (stop, n) ↔
    ∃ used rest, bytes.drop offset = used ++ rest ∧ Terminated used ∧ used.length + k ≤ 6 ∧
      stop = offset + used.length ∧ n = (acc + 2 ^ (7 * k) * value used) % 2 ^ 32 := by
  induction hleft : bytes.length - offset generalizing offset acc k with
  | zero =>
    rw [readLength, if_pos (by omega)]
    constructor
    · intro h
      cases h
    · rintro ⟨used, rest, hdrop, hterm, -⟩
      rw [List.drop_of_length_le (by omega)] at hdrop
      exact absurd (List.append_eq_nil_iff.mp hdrop.symm).1 hterm.ne_nil
  | succ left ih =>
    have hlt : offset < bytes.length := by omega
    rw [readLength, if_neg (by omega), byteAt_eq hlt, ok_bind, List.drop_eq_getElem_cons hlt]
    obtain ⟨hsmall, hword'⟩ := addGroup_lt (b := bytes[offset]) hk hacc hword
    by_cases hend : bytes[offset].toNat < 128
    · rw [if_pos hend]
      have hvalue := addGroup_value (b := bytes[offset]) hk hacc hword []
      rw [value, Nat.mul_zero, Nat.add_zero, Nat.mod_eq_of_lt hword'] at hvalue
      constructor
      · intro h
        cases h
        exact ⟨[bytes[offset]], bytes.drop (offset + 1), rfl, hend, by simp only [List.length_singleton]; omega, rfl,
          hvalue⟩
      · rintro ⟨used, rest, hdrop, hterm, -, rfl, rfl⟩
        obtain ⟨b, used, rfl⟩ := List.exists_cons_of_ne_nil hterm.ne_nil
        obtain ⟨rfl, -⟩ := List.cons.inj hdrop
        cases used with
        | nil => rw [← hvalue]; rfl
        | cons c used => exact absurd hterm.1 (by omega)
    · rw [if_neg hend]
      by_cases hfull : 7 * k + 7 > 35
      · rw [if_pos hfull]
        constructor
        · intro h
          cases h
        · rintro ⟨used, rest, hdrop, hterm, hlen, -⟩
          obtain ⟨b, used, rfl⟩ := List.exists_cons_of_ne_nil hterm.ne_nil
          obtain ⟨rfl, -⟩ := List.cons.inj hdrop
          cases used with
          | nil => exact absurd hterm hend
          | cons c used =>
            simp only [List.length_cons] at hlen
            omega
      · rw [if_neg hfull, show 7 * k + 7 = 7 * (k + 1) from rfl, ih (by omega) hsmall hword' (by omega)]
        constructor
        · rintro ⟨used, rest, hdrop, hterm, hlen, rfl, rfl⟩
          refine ⟨bytes[offset] :: used, rest, by rw [hdrop]; rfl, (terminated_cons hterm.ne_nil).mpr ⟨by omega, hterm⟩,
            by simp only [List.length_cons]; omega, by simp only [List.length_cons]; omega,
            addGroup_value hk hacc hword used⟩
        · rintro ⟨used, rest, hdrop, hterm, hlen, rfl, rfl⟩
          obtain ⟨b, used, rfl⟩ := List.exists_cons_of_ne_nil hterm.ne_nil
          obtain ⟨rfl, htail⟩ := List.cons.inj hdrop
          cases used with
          | nil => exact absurd hterm hend
          | cons c used =>
            simp only [List.length_cons] at hlen ⊢
            exact ⟨c :: used, rest, htail, hterm.2, by simp only [List.length_cons]; omega,
              by simp only [List.length_cons]; omega, (addGroup_value hk hacc hword _).symm⟩

theorem readLength_zero {offset stop n : Nat} : readLength bytes offset 0 0 = .ok (stop, n) ↔
    ∃ used rest, bytes.drop offset = used ++ rest ∧ ReadLength used n ∧ stop = offset + used.length := by
  have h := @readLength_iff bytes offset 0 0 stop n (by omega)
    Nat.one_pos (Nat.two_pow_pos 32)
  simp only [Nat.mul_zero, Nat.pow_zero, Nat.one_mul, Nat.zero_add, Nat.add_zero] at h
  rw [h]
  constructor
  · rintro ⟨used, rest, hdrop, hterm, hlen, hend, hn⟩
    exact ⟨used, rest, hdrop, ⟨hterm, hlen, hn⟩, hend⟩
  · rintro ⟨used, rest, hdrop, ⟨hterm, hlen, hn⟩, hend⟩
    exact ⟨used, rest, hdrop, hterm, hlen, hend, hn⟩

/-! ## The sections -/

/-- How a number that ends is told from what follows it. -/
theorem terminated_unique {used used' rest rest' : List UInt8} (h : Terminated used) (h' : Terminated used')
    (heq : used ++ rest = used' ++ rest') : used = used' := by
  induction used generalizing used' with
  | nil => exact h.elim
  | cons b used ih =>
    obtain ⟨b', used', rfl⟩ := List.exists_cons_of_ne_nil h'.ne_nil
    obtain ⟨rfl, htail⟩ := List.cons.inj heq
    cases used with
    | nil =>
      cases used' with
      | nil => rfl
      | cons c used' => exact absurd h (Nat.not_lt.mpr h'.1)
    | cons c used =>
      cases used' with
      | nil => exact absurd h' (Nat.not_lt.mpr h.1)
      | cons c' used' => rw [ih h.2 h'.2 htail]

theorem tiles_iff {isLength : List UInt8 → Nat → Prop} {last id : UInt8} :
    Tiles isLength last (id :: bytes) ↔ ∃ length content rest, bytes = length ++ (content ++ rest) ∧
      (id = 0 ∨ last < id) ∧ isLength length content.length ∧ Tiles isLength (if id ≠ 0 then id else last) rest := by
  constructor
  · intro h
    generalize hall : id :: bytes = all at h
    cases h with
    | done => cases hall
    | @next _ id' length content rest order isLen tail =>
      cases hall
      exact ⟨length, content, rest, List.append_assoc _ _ _, order, isLen, tail⟩
  · rintro ⟨length, content, rest, rfl, order, isLen, tail⟩
    rw [← List.append_assoc]
    exact .next order isLen tail

theorem tiles_cons {last id : UInt8} {used rest : List UInt8} (hlen : ReadLength used n) :
    Tiles ReadLength last (id :: (used ++ rest)) ↔
      (id = 0 ∨ last < id) ∧ n ≤ rest.length ∧ Tiles ReadLength (if id ≠ 0 then id else last) (rest.drop n) := by
  rw [tiles_iff]
  constructor
  · rintro ⟨length, content, tail, hbytes, order, isLen, htail⟩
    obtain rfl := terminated_unique hlen.1 isLen.1 hbytes
    obtain rfl := List.append_cancel_left hbytes
    have hn : n = content.length := hlen.2.2.trans isLen.2.2.symm
    refine ⟨order, by rw [hn, List.length_append]; omega, ?_⟩
    rw [hn, List.drop_left]
    exact htail
  · rintro ⟨order, hle, htail⟩
    have hn : (rest.take n).length = n := by rw [List.length_take]; omega
    exact ⟨used, rest.take n, rest.drop n, by rw [List.take_append_drop], order, by rw [hn]; exact hlen, htail⟩

variable {last : UInt8}

/-- **What the validator accepts** are sections that tile the rest, with lengths as it reads them. -/
theorem validateFrom_iff : validateFrom bytes offset last = .ok () ↔ Tiles ReadLength last (bytes.drop offset) := by
  induction hleft : bytes.length - offset using Nat.strongRecOn generalizing offset last with
  | ind left ih =>
    rw [validateFrom]
    by_cases hlt : offset < bytes.length
    · rw [if_pos hlt, byteAt_eq hlt, List.drop_eq_getElem_cons hlt]
      dsimp only
      have horder : (bytes[offset] ≠ 0 ∧ bytes[offset] ≤ last ∧ last ≠ 0) ↔
          ¬ (bytes[offset] = 0 ∨ last < bytes[offset]) := by
        rw [not_or, UInt8.not_lt]
        refine ⟨fun h => ⟨h.1, h.2.1⟩, fun h => ⟨h.1, h.2, ?_⟩⟩
        rintro rfl
        exact h.1 (UInt8.le_zero_iff.mp h.2)
      split
      case isTrue hbad =>
        rw [tiles_iff]
        constructor
        · intro h
          cases h
        · rintro ⟨_, _, _, _, order, _⟩
          exact absurd order (horder.mp hbad)
      case isFalse hok =>
        have order := Decidable.not_not.mp (mt horder.mpr hok)
        split
        case h_1 e hread =>
          rw [tiles_iff]
          constructor
          · intro h
            cases h
          · rintro ⟨length, content, rest, hdrop, _, isLen, _⟩
            have hread' := readLength_zero.mpr ⟨length, content ++ rest, hdrop, isLen, rfl⟩
            cases hread.symm.trans hread'
        case h_2 offset' secLen hread =>
          obtain ⟨used, rest, hdrop, isLen, rfl⟩ := readLength_zero.mp hread
          have hrest : bytes.drop (offset + 1 + used.length) = rest := by
            rw [← List.drop_drop, hdrop, List.drop_left]
          have hlen : rest.length = bytes.length - (offset + 1 + used.length) := by rw [← hrest, List.length_drop]
          have hused : used.length ≤ bytes.length - (offset + 1) := by
            rw [← List.length_drop, hdrop, List.length_append]
            omega
          rw [hdrop, tiles_cons isLen]
          by_cases hfits : offset + 1 + used.length + secLen ≤ bytes.length
          · rw [if_pos hfits, ih _ (by omega) rfl, ← hrest, List.drop_drop]
            exact ⟨fun h => ⟨order, by rw [hrest]; omega, h⟩, fun h => h.2.2⟩
          · rw [if_neg hfits]
            constructor
            · intro h
              cases h
            · rintro ⟨-, hle, -⟩
              omega
    · rw [if_neg hlt, List.drop_of_length_le (by omega)]
      exact ⟨fun _ => .done last, fun _ => rfl⟩

theorem validateWasmBinary_iff : validateWasmBinary bytes = .ok () ↔ Binary ReadLength bytes := by
  constructor
  · intro h
    unfold validateWasmBinary at h
    split at h
    case isTrue => cases h
    split at h
    case isTrue => cases h
    split at h
    case isTrue => cases h
    rename_i _ hmagic hversion
    refine ⟨bytes.drop 8, ?_, validateFrom_iff.mp h⟩
    have htake : bytes.take 8 = bytes.take 4 ++ (bytes.drop 4).take 4 := List.take_add (i := 4) (j := 4)
    rw [Decidable.not_not.mp hmagic, Decidable.not_not.mp hversion, List.take_append_drop] at htake
    rw [← htake, List.take_append_drop]
  · rintro ⟨rest, rfl, htiles⟩
    have hlen : (header ++ rest).length = 8 + rest.length := List.length_append
    have hmagic : (header ++ rest).take 4 = header.take 4 := rfl
    have hversion : ((header ++ rest).drop 4).take 4 = header.drop 4 := rfl
    unfold validateWasmBinary
    rw [if_neg (by omega), if_neg (not_not_intro hmagic), if_neg (not_not_intro hversion)]
    exact validateFrom_iff.mpr htiles

theorem readLength_inRange {offset acc shift : Nat} : readLength bytes offset acc shift ≠ .error .outOfRange := by
  induction hleft : bytes.length - offset using Nat.strongRecOn generalizing offset acc shift with
  | ind left ih =>
    rw [readLength]
    by_cases hlt : offset < bytes.length
    · rw [if_neg (by omega), byteAt_eq hlt, ok_bind]
      dsimp only
      split
      · simp [pure, Except.pure]
      · split
        · simp
        · exact ih _ (by omega) rfl
    · rw [if_pos (by omega)]
      simp

theorem validateFrom_inRange : validateFrom bytes offset last ≠ .error .outOfRange := by
  induction hleft : bytes.length - offset using Nat.strongRecOn generalizing offset last with
  | ind left ih =>
    rw [validateFrom]
    by_cases hlt : offset < bytes.length
    · rw [if_pos hlt, byteAt_eq hlt]
      dsimp only
      split
      · simp
      · split
        case h_1 e hread =>
          intro h
          rw [Except.error.inj h] at hread
          exact readLength_inRange hread
        case h_2 offset' secLen hread =>
          have hgt := readLength_gt hread
          split
          · exact ih _ (by omega) rfl
          · simp
    · rw [if_neg hlt]
      simp

/-! ## What is written -/

/-- The bytes of a section. -/
def sectionBytes (s : Section) : List UInt8 := s.1 :: (encodeU32Leb128 (s.2.length % 2 ^ 32) ++ s.2)

theorem emitBinary_eq (sections : List Section) : emitBinary sections = header ++ sections.flatMap sectionBytes := by
  have h : ∀ (buf : List UInt8), sections.foldl (fun buf s => emitSection s buf) buf =
      buf ++ sections.flatMap sectionBytes := by
    induction sections with
    | nil => simp
    | cons s sections ih =>
      intro buf
      rw [List.foldl_cons, ih, List.flatMap_cons, ← List.append_assoc]
      rfl
  exact h header

theorem legal_readLength (h : LegalLength bytes n) : ReadLength bytes n := by
  rw [LegalLength, ← List.append_nil bytes, decodeU_iff (by omega)] at h
  obtain ⟨hterm, hvalue, hlt, hlen⟩ := h
  exact ⟨hterm, by omega, by rw [hvalue, Nat.mod_eq_of_lt hlt]⟩

theorem Tiles.mono (h : Tiles LegalLength last bytes) : Tiles ReadLength last bytes := by
  induction h with
  | done last => exact .done last
  | next order isLen _ ih => exact .next order (legal_readLength isLen) ih

theorem encode_legal (h : n < 2 ^ 32) : LegalLength (encodeU32Leb128 n) n := by
  have hdecode := decodeU_encode h []
  rwa [List.append_nil] at hdecode

/-- Sections with numbers above one another tile what is written of them. -/
theorem tiles_sections {sections : List Section} (hshort : ∀ s ∈ sections, s.2.length < 2 ^ 32)
    (hids : (sections.map (·.1)).Pairwise (· < ·)) (hlast : ∀ s ∈ sections, s.1 = 0 ∨ last < s.1) :
    Tiles LegalLength last (sections.flatMap sectionBytes) := by
  induction sections generalizing last with
  | nil => exact .done last
  | cons s sections ih =>
    have hlen := hshort s List.mem_cons_self
    rw [List.map_cons, List.pairwise_cons] at hids
    rw [List.flatMap_cons, sectionBytes, List.cons_append, List.append_assoc, tiles_iff, Nat.mod_eq_of_lt hlen]
    refine ⟨_, s.2, _, rfl, hlast s List.mem_cons_self, encode_legal hlen,
      ih (fun t ht => hshort t (List.mem_cons_of_mem _ ht)) hids.2 fun t ht => ?_⟩
    by_cases hzero : s.1 = 0
    · rw [if_neg (not_not_intro hzero)]
      exact hlast t (List.mem_cons_of_mem _ ht)
    · rw [if_pos hzero]
      exact .inr (hids.1 _ (List.mem_map_of_mem ht))

/-- **A reader recovers the sections** exactly if each length fits the number that is written. -/
theorem readSections_iff (sections : List Section) :
    readSections (sections.flatMap sectionBytes) = some sections ↔ ∀ s ∈ sections, s.2.length < 2 ^ 32 := by
  induction sections with
  | nil => simp [readSections]
  | cons s sections ih =>
    have hmod : s.2.length % 2 ^ 32 < 2 ^ 32 := Nat.mod_lt _ (Nat.two_pow_pos 32)
    have hdecode := decodeU_encode hmod (s.2 ++ sections.flatMap sectionBytes)
    rw [List.flatMap_cons, sectionBytes, List.cons_append, List.append_assoc, readSections]
    split
    case h_1 hnone => cases hnone.symm.trans hdecode
    case h_2 n rest hsome =>
      cases hsome.symm.trans hdecode
      have hle : s.2.length % 2 ^ 32 ≤ s.2.length := Nat.mod_le _ _
      rw [if_pos (by rw [List.length_append]; omega), List.forall_mem_cons]
      by_cases hlen : s.2.length < 2 ^ 32
      · rw [Nat.mod_eq_of_lt hlen, List.drop_left, List.take_left, Option.map_eq_some_iff, ← ih]
        constructor
        · rintro ⟨tail, htail, heq⟩
          rw [htail, (List.cons.inj heq).2]
          exact ⟨hlen, rfl⟩
        · rintro ⟨-, htail⟩
          exact ⟨sections, htail, rfl⟩
      · refine ⟨fun h => ?_, fun h => absurd h.1 hlen⟩
        obtain ⟨tail, -, heq⟩ := Option.map_eq_some_iff.mp h
        have hcontent := congrArg List.length (Prod.mk.inj (List.cons.inj heq).1).2
        rw [List.length_take, List.length_append] at hcontent
        omega

/-! ## The claim -/

/-- A number reads back from its bytes, whatever follows, and from no fewer; the sections that are written are accepted
and read back; and a slice is checked without an index outside it, and accepted only if it is a header followed by
sections that tile the rest, whose lengths are `u32`s. -/
structure Framing (u : UInt32) (i : Int32) (l : Int64) (sections : List Section) (bytes : List UInt8) : Prop where
  u32 : (∀ rest, decodeU 32 (encodeU32Leb128 u.toNat ++ rest) = some (u.toNat, rest)) ∧
    ∀ bs, decodeU 32 bs = some (u.toNat, []) → (encodeU32Leb128 u.toNat).length ≤ bs.length
  i32 : (∀ rest, decodeS 32 (encodeI32Leb128 i.toInt ++ rest) = some (i.toInt, rest)) ∧
    ∀ bs, decodeS 32 bs = some (i.toInt, []) → (encodeI32Leb128 i.toInt).length ≤ bs.length
  i64 : (∀ rest, decodeS 64 (encodeI64Leb128 l.toInt ++ rest) = some (l.toInt, rest)) ∧
    ∀ bs, decodeS 64 bs = some (l.toInt, []) → (encodeI64Leb128 l.toInt).length ≤ bs.length
  written : validateWasmBinary (emitBinary sections) = .ok () ∧
    readSections ((emitBinary sections).drop 8) = some sections
  checked : validateWasmBinary bytes ≠ .error .outOfRange ∧
    (validateWasmBinary bytes = .ok () → Binary LegalLength bytes)

theorem validateWasmBinary_inRange : validateWasmBinary bytes ≠ .error .outOfRange := by
  unfold validateWasmBinary
  split
  · simp
  · split
    · simp
    · split
      · simp
      · exact validateFrom_inRange

/-- **When the framing round-trips**: the sections are shorter than `2 ^ 32` bytes, and the slice is not one whose
sections tile only if lengths of more than 32 bits are cut off. -/
theorem framing_iff (u : UInt32) (i : Int32) (l : Int64)
    (sections : { sections : List Section // (sections.map (·.1)).Pairwise (· < ·) }) (bytes : List UInt8) :
    Framing u i l sections.val bytes ↔
      (∀ s ∈ sections.val, s.2.length < 2 ^ 32) ∧ (Binary ReadLength bytes → Binary LegalLength bytes) := by
  have hdrop : (emitBinary sections.val).drop 8 = sections.val.flatMap sectionBytes := by
    rw [emitBinary_eq]
    rfl
  constructor
  · intro h
    have hread := h.written.2
    rw [hdrop, readSections_iff] at hread
    exact ⟨hread, fun hbinary => h.checked.2 (validateWasmBinary_iff.mpr hbinary)⟩
  · rintro ⟨hshort, hlegal⟩
    have hbinary : Binary ReadLength (emitBinary sections.val) := by
      refine ⟨_, emitBinary_eq _, (tiles_sections hshort sections.property fun s _ => ?_).mono⟩
      by_cases hzero : s.1 = 0
      · exact .inl hzero
      · exact .inr (UInt8.pos_iff_ne_zero.mpr hzero)
    exact {
      u32 := ⟨decodeU_encode u.toNat_lt, fun bs hbs => encodeU_length_le hbs⟩
      i32 := ⟨decodeS_encode (by omega) (Int32.le_toInt i) (Int32.toInt_lt i), fun bs hbs => encodeSigned_length_le hbs⟩
      i64 := ⟨decodeS_encode (by omega) (Int64.le_toInt l) (Int64.toInt_lt l), fun bs hbs => encodeSigned_length_le hbs⟩
      written := ⟨validateWasmBinary_iff.mpr hbinary, by rw [hdrop, readSections_iff]; exact hshort⟩
      checked := ⟨validateWasmBinary_inRange, fun hok => hlegal (validateWasmBinary_iff.mp hok)⟩ }

/-- A length of six bytes is accepted. -/
theorem long_length_accepted : ¬ Framing 0 0 0 [] (header ++ [1, 0x80, 0x80, 0x80, 0x80, 0x80, 0x00]) := by
  intro h
  have hread : ReadLength [0x80, 0x80, 0x80, 0x80, 0x80, 0x00] 0 :=
    ⟨⟨by decide, by decide, by decide, by decide, by decide, show (0x00 : UInt8).toNat < 128 by decide⟩, by decide, rfl⟩
  obtain ⟨rest, heq, htiles⟩ := h.checked.2 (validateWasmBinary_iff.mpr ⟨_, rfl, by
    exact tiles_iff.mpr ⟨_, [], [], rfl, .inr (by decide), hread, .done _⟩⟩)
  obtain rfl := List.append_cancel_left heq
  obtain ⟨length, content, tail, hbytes, -, isLen, -⟩ := tiles_iff.mp htiles
  obtain rfl := terminated_unique hread.1 (legal_readLength isLen).1 ((List.append_nil _).trans hbytes)
  cases isLen

end Datara.Codegen.Wasm
