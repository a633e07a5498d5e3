import Datara.Library.Radix
import Datara.Library.Utf8
import Datara.Project.Restore

/-!
# Chunked bodies

`decode_chunked_body` of `project/pm/http.rs`: a size line in hexadecimal, the data and a line end, again and
again, until a chunk of size 0. The decoder also stops where nothing is left, so a body that ends between
two chunks, or right after the data of one, passes for a complete one (`decodeChunkedBody_exact_iff`).
-/

namespace Datara.Project

open Library

/-- `usize::MAX`. -/
def usizeMax : Nat := 2 ^ 64 - 1

/-- `from_str_radix` of an unsigned type with a largest value. -/
def fromStrRadix (limit r : Nat) : Text → Option Nat
  | [] => none
  | ['+'] => none
  | '+' :: cs => parseDigits limit r 0 cs
  | cs => parseDigits limit r 0 cs

def crlf : Bytes := [13, 10]

/-- `windows(2).position(|w| w == b"\r\n")`. -/
def lineEnd : Bytes → Option Nat
  | 13 :: 10 :: _ => some 0
  | [] => none
  | _ :: rest => (lineEnd rest).map (· + 1)

/-- The errors of `decode_chunked_body`. -/
inductive ChunkError
  /-- Malformed chunk header in chunked encoding -/
  | header
  /-- Invalid hex in chunk size -/
  | utf8
  /-- Invalid chunk size, and the text -/
  | size (hex : Text)
  /-- Chunk size overflow in chunked encoding -/
  | overflow
  /-- Unexpected EOF while reading chunk data -/
  | eof
  deriving DecidableEq, Repr

/-- The loop, with what was decoded so far. -/
def decodeChunks (data out : Bytes) : Except ChunkError Bytes :=
  if data = [] then .ok out
  else
    match lineEnd data with
    | none => .error .header
    | some lineEnd =>
      match fromUtf8 (data.take lineEnd) with
      | none => .error .utf8
      | some line =>
        match fromStrRadix usizeMax 16 (trim line) with
        | none => .error (.size (trim line))
        | some 0 => .ok out
        | some (size + 1) =>
          let start := lineEnd + 2
          let stop := start + (size + 1)
          if usizeMax < stop then .error .overflow
          else if data.length < stop then .error .eof
          else
            decodeChunks (data.drop (if stop + 2 ≤ data.length then stop + 2 else stop))
              (out ++ (data.take stop).drop start)
termination_by data.length
decreasing_by
  simp only [List.length_drop]
  split
  · omega
  · omega

/-- **`decode_chunked_body`.** -/
def decodeChunkedBody (data : Bytes) : Except ChunkError Bytes := decodeChunks data []

/-! ## The encoding -/

/-- A chunk, with its size as it is written: any hexadecimal digits for the length of the data. -/
structure Chunk where
  size : Text
  data : Bytes
  digits : digitsValue 16 0 size = some data.length
  nonempty : data ≠ []

/-- Size, data, and a line end after each. -/
def Chunk.encode (c : Chunk) : Bytes := toUtf8 c.size ++ crlf ++ c.data ++ crlf

def encodeChunks (cs : List Chunk) : Bytes := cs.flatMap Chunk.encode

/-- The chunk that ends a body. -/
def lastChunk : Bytes := 48 :: crlf ++ crlf

def encodeBody (cs : List Chunk) : Bytes := encodeChunks cs ++ lastChunk

/-- A place between the chunks of a body, or between the data of a chunk and its line end. -/
inductive AtChunkEnd : List Chunk → Nat → Prop
  | start (cs : List Chunk) : AtChunkEnd cs 0
  | data (c : Chunk) (cs : List Chunk) :
      AtChunkEnd (c :: cs) ((toUtf8 c.size ++ crlf ++ c.data).length)
  | next (c : Chunk) {cs : List Chunk} {n : Nat} :
      AtChunkEnd cs n → AtChunkEnd (c :: cs) (c.encode.length + n)

/-! ## A size line -/

section
variable {a b data out rest : Bytes} {c : Chunk} {cs : List Chunk} {n : Nat}

theorem lineEnd_cons {x : UInt8} (hx : x ≠ 13) : lineEnd (x :: rest) = (lineEnd rest).map (· + 1) := by
  rw [lineEnd]
  exact fun _ h => absurd h hx

theorem lineEnd_crlf (h : (13 : UInt8) ∉ a) : lineEnd (a ++ (crlf ++ rest)) = some a.length := by
  induction a with
  | nil => rfl
  | cons x a ih =>
    obtain ⟨hx, ha⟩ := List.ne_and_not_mem_of_not_mem_cons h
    rw [List.cons_append, lineEnd_cons hx.symm, ih ha]
    rfl

theorem lineEnd_none (h : (13 : UInt8) ∉ a) (hb : b = [] ∨ b = [13]) : lineEnd (a ++ b) = none := by
  induction a with
  | nil =>
    rcases hb with rfl | rfl
    · rfl
    · rfl
  | cons x a ih =>
    obtain ⟨hx, ha⟩ := List.ne_and_not_mem_of_not_mem_cons h
    rw [List.cons_append, lineEnd_cons hx.symm, ih ha]
    rfl

theorem isWhitespace_of_range {ch : Char} (h : 48 ≤ ch.toNat ∧ ch.toNat ≤ 122) : isWhitespace ch = false := by
  simp only [isWhitespace, Bool.or_eq_false_iff, Bool.and_eq_false_iff, decide_eq_false_iff_not]
  omega

theorem Chunk.range (c : Chunk) {ch : Char} (h : ch ∈ c.size) : 48 ≤ ch.toNat ∧ ch.toNat ≤ 122 :=
  digitVal_range (digitVal_isSome_of_digitsValue c.digits h)

theorem Chunk.size_ne_nil (c : Chunk) : c.size ≠ [] := by
  intro h
  have hdigits := c.digits
  rw [h] at hdigits
  exact c.nonempty (List.eq_nil_of_length_eq_zero (Option.some.inj hdigits).symm)

theorem trim_plain {t : Text} (h : ∀ ch ∈ t, isWhitespace ch = false) : trim t = t := by
  have hdrop : ∀ {s : Text}, (∀ ch ∈ s, isWhitespace ch = false) → s.dropWhile isWhitespace = s := by
    intro s hs
    cases s with
    | nil => rfl
    | cons ch s => rw [List.dropWhile_cons, hs ch List.mem_cons_self, if_neg Bool.false_ne_true]
  rw [trim, hdrop h, hdrop fun ch hch => h ch (List.mem_reverse.mp hch), List.reverse_reverse]

theorem fromStrRadix_digits {limit r : Nat} {t : Text} (hr : 0 < r) (ht : digitsValue r 0 t = some n)
    (hne : t ≠ []) (hn : n ≤ limit) : fromStrRadix limit r t = some n := by
  have hparse := parseDigits_eq hr ht hn
  cases t with
  | nil => exact absurd rfl hne
  | cons ch cs =>
    have hplus : ch ≠ '+' := by
      rintro rfl
      have hrange := digitVal_range (digitVal_isSome_of_digitsValue ht List.mem_cons_self)
      exact absurd hrange (by decide)
    rw [fromStrRadix, hparse]
    · exact nofun
    · intro hone
      exact hplus (List.cons.inj hone).1
    · intro rest hone
      exact hplus (List.cons.inj hone).1

theorem fromStrRadix_size (c : Chunk) (h : c.data.length ≤ usizeMax) :
    fromStrRadix usizeMax 16 c.size = some c.data.length :=
  fromStrRadix_digits (by decide) c.digits c.size_ne_nil h

theorem Chunk.size_bytes (c : Chunk) : (13 : UInt8) ∉ toUtf8 c.size := by
  intro h
  have hrange := c.range (mem_of_mem_toUtf8 (by decide) h)
  exact absurd hrange (by decide)

/-! ## One chunk -/

theorem Chunk.length_encode (c : Chunk) : c.encode.length = (toUtf8 c.size).length + 2 + c.data.length + 2 := by
  simp only [Chunk.encode, crlf, List.length_append, List.length_cons, List.length_nil]

theorem decodeChunks_nil : decodeChunks [] out = .ok out := by
  rw [decodeChunks, if_pos rfl]

theorem decodeChunks_header (ha : (13 : UInt8) ∉ a) (hb : b = [] ∨ b = [13]) (hne : a ++ b ≠ []) :
    decodeChunks (a ++ b) out = .error .header := by
  rw [decodeChunks, if_neg hne, lineEnd_none ha hb]

theorem decodeChunks_data (c : Chunk) (hfit : c.encode.length ≤ usizeMax) :
    decodeChunks (toUtf8 c.size ++ (crlf ++ rest)) out =
      if rest.length < c.data.length then .error .eof
      else decodeChunks
        (rest.drop (if c.data.length + 2 ≤ rest.length then c.data.length + 2 else c.data.length))
        (out ++ rest.take c.data.length) := by
  have hlen := c.length_encode
  obtain ⟨size, hsize⟩ : ∃ n, c.data.length = n + 1 :=
    ⟨c.data.length - 1, by have := List.length_pos_iff.mpr c.nonempty; omega⟩
  have hne : toUtf8 c.size ++ (crlf ++ rest) ≠ [] := by simp [crlf]
  have hparse : fromStrRadix usizeMax 16 (trim c.size) = some (size + 1) := by
    rw [trim_plain fun ch hch => isWhitespace_of_range (c.range hch), fromStrRadix_size c (by omega), hsize]
  rw [decodeChunks, if_neg hne, lineEnd_crlf c.size_bytes]
  simp only [List.take_left, fromUtf8_toUtf8, hparse]
  have hlength : (toUtf8 c.size ++ (crlf ++ rest)).length = (toUtf8 c.size).length + 2 + rest.length := by
    simp only [crlf, List.length_append, List.length_cons, List.length_nil]
    omega
  have hdrop : ∀ k, (toUtf8 c.size ++ (crlf ++ rest)).drop ((toUtf8 c.size).length + 2 + k) = rest.drop k := by
    intro k
    rw [← List.append_assoc, ← List.drop_drop, List.drop_left' (by simp [crlf])]
  rw [if_neg (by omega), hlength, ← hsize]
  by_cases hshort : rest.length < c.data.length
  · rw [if_pos hshort, if_pos (by omega)]
  · rw [if_neg hshort, if_neg (by omega), List.drop_take, hdrop 0, List.drop_zero, Nat.add_sub_cancel_left]
    congr 1
    by_cases hend : c.data.length + 2 ≤ rest.length
    · rw [if_pos hend, if_pos (by omega), Nat.add_assoc, hdrop]
    · rw [if_neg hend, if_neg (by omega), hdrop]

theorem decodeChunks_chunk (c : Chunk) (hfit : c.encode.length ≤ usizeMax) :
    decodeChunks (c.encode ++ rest) out = decodeChunks rest (out ++ c.data) := by
  have hsplit : c.encode ++ rest = toUtf8 c.size ++ (crlf ++ (c.data ++ (crlf ++ rest))) := by
    simp [Chunk.encode]
  have hlong : (c.data ++ (crlf ++ rest)).length = c.data.length + 2 + rest.length := by
    simp only [crlf, List.length_append, List.length_cons, List.length_nil]
    omega
  rw [hsplit, decodeChunks_data c hfit, hlong, if_neg (by omega), if_pos (by omega), List.take_left,
    ← List.drop_drop, List.drop_left, List.drop_left' (by rfl)]

theorem decodeChunks_cut_size (c : Chunk) (hpos : 0 < n) (hn : n ≤ (toUtf8 c.size).length + 1) :
    decodeChunks (c.encode.take n) out = .error .header := by
  have hsplit : c.encode = toUtf8 c.size ++ (crlf ++ (c.data ++ crlf)) := by
    simp [Chunk.encode]
  have hne : c.encode.take n ≠ [] := fun h => by
    have hlen := congrArg List.length h
    rw [List.length_take, c.length_encode, List.length_nil] at hlen
    omega
  rw [hsplit, List.take_append] at hne ⊢
  refine decodeChunks_header (fun h => c.size_bytes (List.mem_of_mem_take h)) ?_ hne
  obtain hzero | hone : n - (toUtf8 c.size).length = 0 ∨ n - (toUtf8 c.size).length = 1 := by omega
  · rw [hzero]
    exact .inl rfl
  · rw [hone]
    exact .inr rfl

/-- What a chunk that is cut off gives: nothing is decoded, but for one that lacks only its line end. -/
theorem decodeChunks_cut (c : Chunk) (hfit : c.encode.length ≤ usizeMax) (hn : n < c.encode.length) :
    (∃ body, decodeChunks (c.encode.take n) out = .ok body) ↔
      n = 0 ∨ n = (toUtf8 c.size ++ crlf ++ c.data).length := by
  have hlen := c.length_encode
  have hdata : (toUtf8 c.size ++ crlf ++ c.data).length = (toUtf8 c.size).length + 2 + c.data.length := by
    simp only [crlf, List.length_append, List.length_cons, List.length_nil]
  rw [hdata]
  have noBody : ∀ {x : Except ChunkError Bytes} {e : ChunkError}, x = .error e → ¬∃ body, x = .ok body :=
    fun hx h => h.elim fun _ h => by cases hx.symm.trans h
  obtain rfl | ⟨hpos, hsize⟩ | hline : n = 0 ∨ (0 < n ∧ n ≤ (toUtf8 c.size).length + 1) ∨
      (toUtf8 c.size).length + 2 ≤ n := by omega
  · exact ⟨fun _ => .inl rfl, fun _ => ⟨out, decodeChunks_nil⟩⟩
  · exact iff_of_false (noBody (decodeChunks_cut_size c hpos hsize)) (by omega)
  · obtain ⟨k, rfl⟩ := Nat.exists_eq_add_of_le hline
    have htake : c.encode.take ((toUtf8 c.size).length + 2 + k) =
        toUtf8 c.size ++ (crlf ++ (c.data ++ crlf).take k) := by
      have hsplit : c.encode = (toUtf8 c.size ++ crlf) ++ (c.data ++ crlf) := by
        simp [Chunk.encode]
      have hhead : (toUtf8 c.size ++ crlf).length = (toUtf8 c.size).length + 2 := List.length_append
      rw [hsplit, ← hhead, List.take_length_add_append, List.append_assoc]
    have hk : ((c.data ++ crlf).take k).length = k := by
      rw [List.length_take, List.length_append]
      simp only [crlf, List.length_cons, List.length_nil]
      omega
    rw [htake, decodeChunks_data c hfit, hk]
    obtain hlt | rfl | rfl : k < c.data.length ∨ k = c.data.length ∨ k = c.data.length + 1 := by omega
    · rw [if_pos hlt]
      exact iff_of_false (noBody rfl) (by omega)
    · rw [if_neg (by omega), if_neg (by omega), List.take_left, List.drop_length, decodeChunks_nil]
      exact ⟨fun _ => .inr rfl, fun _ => ⟨_, rfl⟩⟩
    · have hcr : (c.data ++ crlf).take (c.data.length + 1) = c.data ++ [13] := List.take_length_add_append 1
      rw [if_neg (by omega), if_neg (by omega), hcr, List.drop_left]
      exact iff_of_false (noBody (decodeChunks_header (a := []) nofun (.inr rfl) nofun)) (by omega)

/-! ## Bodies -/

theorem decodeChunks_last : decodeChunks lastChunk out = .ok out := by
  have hline : lineEnd lastChunk = some 1 := rfl
  have hzero : fromUtf8 (lastChunk.take 1) = some ['0'] := fromUtf8_toUtf8 ['0']
  have hsize : fromStrRadix usizeMax 16 (trim ['0']) = some 0 := by decide
  rw [decodeChunks, if_neg (by decide), hline]
  simp [hzero, hsize]

theorem decodeChunks_body (hfit : (encodeChunks cs).length ≤ usizeMax) :
    decodeChunks (encodeChunks cs ++ rest) out = decodeChunks rest (out ++ cs.flatMap Chunk.data) := by
  induction cs generalizing out with
  | nil => simp [encodeChunks]
  | cons c cs ih =>
    have hcons : encodeChunks (c :: cs) = c.encode ++ encodeChunks cs := List.flatMap_cons
    rw [hcons, List.length_append] at hfit
    rw [hcons, List.append_assoc, decodeChunks_chunk c (by omega), ih (by omega), List.flatMap_cons,
      List.append_assoc]

theorem atChunkEnd_cons (hn : n < c.encode.length) :
    AtChunkEnd (c :: cs) n ↔ n = 0 ∨ n = (toUtf8 c.size ++ crlf ++ c.data).length := by
  constructor
  · intro h
    generalize hcs : c :: cs = ds at h
    cases h with
    | start => exact .inl rfl
    | data d ds =>
      obtain rfl := (List.cons.inj hcs).1
      exact .inr rfl
    | next d h =>
      obtain rfl := (List.cons.inj hcs).1
      omega
  · rintro (rfl | rfl)
    · exact .start _
    · exact .data c cs

theorem atChunkEnd_next : AtChunkEnd (c :: cs) (c.encode.length + n) ↔ AtChunkEnd cs n := by
  refine ⟨fun h => ?_, .next c⟩
  have hlen := c.length_encode
  generalize hk : c.encode.length + n = k at h
  generalize hcs : c :: cs = ds at h
  cases h with
  | start => omega
  | data d ds =>
    obtain rfl := (List.cons.inj hcs).1
    simp only [crlf, List.length_append, List.length_cons, List.length_nil] at hk
    omega
  | next d h =>
    cases hcs
    rwa [Nat.add_left_cancel hk]

theorem decodeChunks_take (hfit : (encodeChunks cs).length ≤ usizeMax) (hn : n ≤ (encodeChunks cs).length) :
    (∃ body, decodeChunks ((encodeChunks cs).take n) out = .ok body) ↔ AtChunkEnd cs n := by
  induction cs generalizing n out with
  | nil =>
    obtain rfl := Nat.le_zero.mp hn
    exact ⟨fun _ => .start _, fun _ => ⟨out, decodeChunks_nil⟩⟩
  | cons c cs ih =>
    have hcons : encodeChunks (c :: cs) = c.encode ++ encodeChunks cs := List.flatMap_cons
    rw [hcons, List.length_append] at hfit hn
    rw [hcons]
    by_cases hlt : n < c.encode.length
    · rw [List.take_append_of_le_length hlt.le, atChunkEnd_cons hlt]
      exact decodeChunks_cut c (by omega) hlt
    · obtain ⟨k, rfl⟩ := Nat.exists_eq_add_of_le (Nat.not_lt.mp hlt)
      rw [List.take_length_add_append, decodeChunks_chunk c (by omega), atChunkEnd_next]
      exact ih (by omega) (by omega)

end

/-- **A chunked body is decoded, and a part of it that stops before the last chunk is refused unless it
stops where the decoder finds nothing left**: at the start, after the data of a chunk, or after its line
end. A slice has at most `isize::MAX` bytes. -/
theorem decodeChunkedBody_exact_iff (cs : List Chunk) (n : Nat) (hfit : (encodeBody cs).length < 2 ^ 63) :
    (decodeChunkedBody (encodeBody cs) = .ok (cs.flatMap Chunk.data) ∧
      (n ≤ (encodeChunks cs).length → ¬∃ body, decodeChunkedBody ((encodeBody cs).take n) = .ok body)) ↔
      (n ≤ (encodeChunks cs).length → ¬AtChunkEnd cs n) := by
  have hsmall : (encodeChunks cs).length ≤ usizeMax := by
    rw [encodeBody, List.length_append] at hfit
    have hmax : 2 ^ 63 ≤ usizeMax := by decide
    omega
  have hwhole : decodeChunkedBody (encodeBody cs) = .ok (cs.flatMap Chunk.data) := by
    rw [decodeChunkedBody, encodeBody, decodeChunks_body hsmall, decodeChunks_last, List.nil_append]
  rw [and_iff_right hwhole]
  refine forall_congr' fun hn => not_congr ?_
  rw [encodeBody, List.take_append_of_le_length hn]
  exact decodeChunks_take hsmall hn

/-- The chunks `abc` and `de`. -/
def sampleChunks : List Chunk :=
  [⟨['3'], [97, 98, 99], by decide, by decide⟩, ⟨['2'], [100, 101], by decide, by decide⟩]

theorem sampleChunks_fit : (encodeBody sampleChunks).length < 2 ^ 63 := by
  have hlen : (encodeBody sampleChunks).length = 20 := by decide
  rw [hlen]
  decide

theorem decodeChunkedBody_exact_sample :
    (decodeChunkedBody (encodeBody sampleChunks) = .ok (sampleChunks.flatMap Chunk.data) ∧
      (1 ≤ (encodeChunks sampleChunks).length →
        ¬∃ body, decodeChunkedBody ((encodeBody sampleChunks).take 1) = .ok body)) ↔
      (1 ≤ (encodeChunks sampleChunks).length → ¬AtChunkEnd sampleChunks 1) :=
  decodeChunkedBody_exact_iff sampleChunks 1 sampleChunks_fit

/-- The response that ends after its first chunk passes for a complete one. -/
theorem decodeChunkedBody_truncated :
    8 ≤ (encodeChunks sampleChunks).length ∧
      decodeChunkedBody ((encodeBody sampleChunks).take 8) = .ok [97, 98, 99] := by
  have hcut : (encodeBody sampleChunks).take 8 = (sampleChunks.head (by decide)).encode ++ [] := by decide
  refine ⟨by decide, ?_⟩
  rw [hcut, decodeChunkedBody, decodeChunks_chunk _ (by decide), decodeChunks_nil]
  rfl

end Datara.Project
