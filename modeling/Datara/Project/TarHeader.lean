import Datara.Project.GlobConfined
import Datara.Project.Tar
import Mathlib.Algebra.Order.BigOperators.Group.List

/-!
# The header of a file in an archive

What `create_tar` writes into a header (`exists_tarHeader`) is what `extract_tar` reads from it
(`Describes.read`): the name without its padding, the size, and a checksum of the header without its own field.
-/

namespace Datara.Project

open Library

section
variable {rel name t : Text} {header header' bytes src : Bytes} {a b n size limit : Nat}

/-! ## Names -/

theorem trimDotSlash_trimDotSlash : trimDotSlash (trimDotSlash t) = trimDotSlash t := by
  induction t using trimDotSlash.induct with
  | case1 cs ih =>
    rw [trimDotSlash]
    exact ih
  | case2 cs hcs =>
    have hsame : trimDotSlash cs = cs := by
      rw [trimDotSlash]
      exact hcs
    rw [hsame, hsame]

theorem slashes_of_notMem (h : '\\' ∉ t) : slashes t = t := by
  refine (List.map_congr_left fun c hc => if_neg ?_).trans (List.map_id t)
  rintro rfl
  exact h hc

theorem notMem_slashes : '\\' ∉ slashes t := by
  intro h
  obtain ⟨c, -, hc⟩ := List.mem_map.mp h
  split at hc
  · exact absurd hc (by decide)
  case isFalse hne => exact hne hc

theorem sanitizeTarPath_safe (h : sanitizeTarPath rel = .ok name) :
    sanitizeTarPath name = .ok name ∧ '\x00' ∉ name := by
  have hname : name = trimDotSlash (slashes rel) ∧ '\x00' ∉ name ∧
      sanitizeTarPath (trimDotSlash (slashes rel)) = .ok (trimDotSlash (slashes rel)) := by
    have hsame : trimDotSlash (slashes (trimDotSlash (slashes rel))) = trimDotSlash (slashes rel) := by
      rw [slashes_of_notMem fun hmem => notMem_slashes (mem_trimDotSlash hmem), trimDotSlash_trimDotSlash]
    simp only [sanitizeTarPath] at h
    split_ifs at h with hempty hroot hnul hcolon hdots
    cases h
    refine ⟨rfl, hnul, ?_⟩
    simp only [sanitizeTarPath, hsame]
    rw [if_neg hempty, if_neg hroot, if_neg hnul, if_neg hcolon, if_neg hdots]
  obtain ⟨heq, hnul, hsafe⟩ := hname
  exact ⟨heq ▸ hsafe, hnul⟩

/-! ## Slices and copies -/

theorem Tar.slice_part (hb : b = a + n) (hlen : b ≤ bytes.length) : Tar.slice bytes a b = .ok (part bytes a n) := by
  subst hb
  rw [Tar.slice, if_pos ⟨Nat.le_add_right a n, hlen⟩, List.drop_take, Nat.add_sub_cancel_left]
  rfl

theorem Tar.index_part {x : UInt8} (h : part bytes n 1 = [x]) : Tar.index bytes n = .ok x := by
  have hx : bytes[n]? = some x := by
    have hget := congrArg (·[0]?) h
    rw [getElem?_part] at hget
    exact hget
  rw [Tar.index, hx]
  rfl

theorem Tar.copyFromSlice_patch (hb : b = a + src.length) (h : patchWords bytes a src = some header) :
    Tar.copyFromSlice bytes a b src = .ok header := by
  rw [Tar.copyFromSlice, if_pos hb, h]
  rfl

/-! ## The checksum -/

theorem computeHeaderChecksum_patch (hlen : src.length = 8) (h : patchWords header 148 src = some header') :
    computeHeaderChecksum header' = computeHeaderChecksum header := by
  rw [computeHeaderChecksum, computeHeaderChecksum]
  congr 1
  apply List.ext_getElem?
  intro k
  rw [List.getElem?_mapIdx, List.getElem?_mapIdx, getElem?_patchWords h, hlen]
  by_cases hk : 148 ≤ k ∧ k < 148 + 8
  · have hfield : 148 ≤ k ∧ k < 156 := by omega
    have hk' : k < header.length := by
      obtain ⟨hfit, -⟩ := Option.ite_none_right_eq_some.mp h
      omega
    rw [if_pos hk, List.getElem?_eq_getElem (by omega), List.getElem?_eq_getElem hk', Option.map_some,
      Option.map_some, if_pos hfield, if_pos hfield]
  · rw [if_neg hk]

theorem computeHeaderChecksum_lt (h : header.length = blockSize) : computeHeaderChecksum header < 8 ^ 6 := by
  have hle : ∀ x ∈ header.mapIdx fun i b => if 148 ≤ i ∧ i < 156 then 32 else b.toNat, x ≤ 255 := by
    intro x hx
    obtain ⟨i, hi, rfl⟩ := List.mem_mapIdx.mp hx
    split
    · decide
    · exact Nat.le_of_lt_succ (UInt8.toNat_lt _)
  have hsum := List.sum_le_card_nsmul _ _ hle
  rw [List.length_mapIdx, h] at hsum
  exact Nat.lt_of_le_of_lt hsum (by decide)

/-! ## Numbers -/

variable {u : Text}

theorem strip_append {p : Char → Bool} (ht : ∀ c ∈ t, p c = false) (hu : ∀ c ∈ u, p c = true)
    (hne : t ≠ []) : (((t ++ u).dropWhile p).reverse.dropWhile p).reverse = t := by
  obtain ⟨c, t, rfl⟩ := List.exists_cons_of_ne_nil hne
  have hfront : (c :: t ++ u).dropWhile p = c :: t ++ u := by
    rw [List.cons_append, List.dropWhile_cons, ht c List.mem_cons_self, if_neg Bool.false_ne_true]
  have hback : ∀ {s : Text}, s ≠ [] → (∀ x ∈ s, p x = false) → s.dropWhile p = s := by
    intro s hs hp
    obtain ⟨x, s, rfl⟩ := List.exists_cons_of_ne_nil hs
    rw [List.dropWhile_cons, hp x List.mem_cons_self, if_neg Bool.false_ne_true]
  rw [hfront, List.reverse_append, List.dropWhile_append_of_pos fun x hx => hu x (List.mem_reverse.mp hx),
    hback (by simp) fun x hx => ht x (List.mem_reverse.mp hx), List.reverse_reverse]

variable {width : Nat}

theorem zeroPadded_range {c : Char} (hc : c ∈ zeroPadded 8 width n) : 48 ≤ c.toNat ∧ c.toNat ≤ 122 :=
  digitVal_range (digitVal_isSome_of_digitsValue (digitsValue_zeroPadded (by decide) (by decide)) hc)

theorem zeroPadded_ne_nil (hwidth : 0 < width) (hn : n < 8 ^ width) : zeroPadded 8 width n ≠ [] :=
  List.ne_nil_of_length_pos ((length_zeroPadded (by decide) hwidth hn).symm ▸ hwidth)

theorem trimNul_digits (hwidth : 0 < width) (hn : n < 8 ^ width)
    (hu : ∀ c ∈ u, c = '\x00') : trimNul (zeroPadded 8 width n ++ u) = zeroPadded 8 width n := by
  apply strip_append
  · intro c hc
    refine decide_eq_false ?_
    rintro rfl
    exact absurd (zeroPadded_range hc).1 (by decide)
  · exact fun c hc => decide_eq_true (hu c hc)
  · exact zeroPadded_ne_nil hwidth hn

/-- A number that was written with its width, and the terminator of its field, is read again. -/
theorem octalField_digits {invalid : TarError} {unparsed : Text → TarError}
    (hwidth : 0 < width) (hn : n < 8 ^ width) (hlimit : n ≤ limit) (hu : ∀ c ∈ u, c = '\x00') :
    octalField limit invalid unparsed (toUtf8 (zeroPadded 8 width n ++ u ++ [' '])) = .ok n := by
  have htrim : trim (zeroPadded 8 width n ++ u ++ [' ']) = zeroPadded 8 width n ++ u := by
    apply strip_append
    · intro c hc
      obtain hc | hc := List.mem_append.mp hc
      · exact isWhitespace_of_range (zeroPadded_range hc)
      · rw [hu c hc]
        decide
    · exact fun c hc => List.mem_singleton.mp hc ▸ by decide
    · exact fun h => zeroPadded_ne_nil hwidth hn (List.append_eq_nil_iff.mp h).1
  rw [octalField, fromUtf8_toUtf8]
  simp only [htrim, trimNul_digits hwidth hn hu]
  rw [fromStrRadix_digits (by decide) (digitsValue_zeroPadded (by decide) (by decide))
    (zeroPadded_ne_nil hwidth hn) hlimit]

/-! ## What a header says -/

/-- The fields of the header of a file that are read again. -/
structure Describes (header : Bytes) (name : Text) (size : Nat) : Prop where
  length : header.length = blockSize
  short : (toUtf8 name).length ≤ 100
  nameField : part header 0 100 = toUtf8 name ++ List.replicate (100 - (toUtf8 name).length) 0
  checksumField : part header 148 8 = toUtf8 (zeroPadded 8 6 (computeHeaderChecksum header) ++ ['\x00'] ++ [' '])
  sizeField : part header 124 12 = toUtf8 (zeroPadded 8 11 size ++ [] ++ [' '])
  typeflag : part header 156 1 = [48]
  prefixField : part header 345 155 = List.replicate 155 0

/-- The patches of `create_tar` before the checksum. -/
def headerPatches (name : Text) (size : Nat) : List (Nat × Bytes) :=
  [(0, toUtf8 name), (100, toUtf8 "0000644\x00".toList), (108, toUtf8 "0000000\x00".toList),
    (116, toUtf8 "0000000\x00".toList), (124, toUtf8 (zeroPadded 8 11 size ++ " ".toList)),
    (136, toUtf8 "00000000000 ".toList), (156, toUtf8 "0".toList), (257, toUtf8 "ustar\x00".toList),
    (263, toUtf8 "00".toList)]

theorem length_toUtf8_digits (hwidth : 0 < width) (hn : n < 8 ^ width)
    (hu : u.all isAscii = true) :
    (toUtf8 (zeroPadded 8 width n ++ u)).length = width + u.length := by
  have hascii : ∀ c ∈ zeroPadded 8 width n ++ u, isAscii c = true := by
    intro c hc
    obtain hc | hc := List.mem_append.mp hc
    · have hrange := zeroPadded_range hc
      exact decide_eq_true (by omega)
    · exact List.all_eq_true.mp hu c hc
  rw [toUtf8_of_ascii hascii, List.length_map, List.length_append, length_zeroPadded (by decide) hwidth hn]

theorem headerPatches_lengths (hsize : size < 8 ^ 11) : (headerPatches name size).map (fun p => (p.1, p.2.length)) =
    [(0, (toUtf8 name).length), (100, 8), (108, 8), (116, 8), (124, 12), (136, 12), (156, 1), (257, 6), (263, 2)] := by
  have hlen : (toUtf8 (zeroPadded 8 11 size ++ " ".toList)).length = 12 :=
    length_toUtf8_digits (by decide) hsize (by decide)
  rw [headerPatches]
  simp only [List.map_cons, List.map_nil, hlen]
  rfl

theorem Tar.bind_ok {α β : Type} {x : Tar α} {f : α → Tar β} {a : α} (h : x = .ok a) : x >>= f = f a := by
  rw [h]
  rfl

/-- The header of `create_tar` is its patches and then its checksum. -/
theorem tarHeader_eq (hsize : size < 8 ^ 11) (h : patchAll zeroBlock (headerPatches name size) = some header) :
    tarHeader name size = Tar.copyFromSlice header 148 156
      (toUtf8 (zeroPadded 8 6 (computeHeaderChecksum header) ++ "\x00 ".toList)) := by
  have hlen : (toUtf8 (zeroPadded 8 11 size ++ " ".toList)).length = 12 :=
    length_toUtf8_digits (by decide) hsize (by decide)
  obtain ⟨h₁, e₁, h⟩ := patchAll_cons h
  obtain ⟨h₂, e₂, h⟩ := patchAll_cons h
  obtain ⟨h₃, e₃, h⟩ := patchAll_cons h
  obtain ⟨h₄, e₄, h⟩ := patchAll_cons h
  obtain ⟨h₅, e₅, h⟩ := patchAll_cons h
  obtain ⟨h₆, e₆, h⟩ := patchAll_cons h
  obtain ⟨h₇, e₇, h⟩ := patchAll_cons h
  obtain ⟨h₈, e₈, h⟩ := patchAll_cons h
  obtain ⟨h₉, e₉, h⟩ := patchAll_cons h
  cases h
  simp only [tarHeader]
  rw [Tar.bind_ok (Tar.copyFromSlice_patch (Nat.zero_add _).symm e₁), Tar.bind_ok (Tar.copyFromSlice_patch (by rfl) e₂),
    Tar.bind_ok (Tar.copyFromSlice_patch (by rfl) e₃), Tar.bind_ok (Tar.copyFromSlice_patch (by rfl) e₄),
    Tar.bind_ok (Tar.copyFromSlice_patch (by rw [hlen]) e₅), Tar.bind_ok (Tar.copyFromSlice_patch (by rfl) e₆),
    Tar.bind_ok (Tar.copyFromSlice_patch (by rfl) e₇), Tar.bind_ok (Tar.copyFromSlice_patch (by rfl) e₈),
    Tar.bind_ok (Tar.copyFromSlice_patch (by rfl) e₉)]

/-- **The header of a file says what the file is.** -/
theorem exists_tarHeader (hname : (toUtf8 name).length ≤ 100) (hsize : size < 8 ^ 11) :
    ∃ header, tarHeader name size = .ok header ∧ Describes header name size := by
  have hlengths : (headerPatches name size).map (fun p => (p.1, p.2.length)) =
      [(0, (toUtf8 name).length), (100, 8), (108, 8), (116, 8), (124, 12), (136, 12), (156, 1), (257, 6), (263, 2)] :=
    headerPatches_lengths hsize
  have hzero : zeroBlock.length = blockSize := List.length_replicate
  have hfit : ∀ p ∈ headerPatches name size, p.1 + p.2.length ≤ zeroBlock.length := by
    have hall : ∀ q ∈ (headerPatches name size).map fun p => (p.1, p.2.length), q.1 + q.2 ≤ 512 := by
      rw [hlengths]
      simp
      omega
    exact fun p hp => hzero ▸ hall _ (List.mem_map_of_mem hp)
  have hdisjoint : (headerPatches name size).Pairwise
      fun p q => p.1 + p.2.length ≤ q.1 ∨ q.1 + q.2.length ≤ p.1 := by
    have hpairs : ((headerPatches name size).map fun p => (p.1, p.2.length)).Pairwise
        fun p q => p.1 + p.2 ≤ q.1 ∨ q.1 + q.2 ≤ p.1 := by
      rw [hlengths]
      simp
      omega
    exact List.pairwise_map.mp hpairs
  obtain ⟨w, hw, hlen⟩ := exists_patchAll hfit
  have hblank : ∀ {k n : Nat}, k + n ≤ blockSize → (∀ q ∈ (headerPatches name size).map fun p => (p.1, p.2.length),
      k + n ≤ q.1 ∨ q.1 + q.2 ≤ k) → part w k n = List.replicate n 0 := by
    intro k n hk hapart
    rw [part_patchAll_apart hw fun p hp => hapart _ (List.mem_map_of_mem hp)]
    exact part_replicate hk
  have hsum : computeHeaderChecksum w < 8 ^ 6 := computeHeaderChecksum_lt (hlen.trans hzero)
  have height : (toUtf8 (zeroPadded 8 6 (computeHeaderChecksum w) ++ "\x00 ".toList)).length = 8 :=
    length_toUtf8_digits (by decide) hsum (by decide)
  obtain ⟨header, hheader, hlen'⟩ := exists_patchWords (w := w) (d := 148)
    (v := toUtf8 (zeroPadded 8 6 (computeHeaderChecksum w) ++ "\x00 ".toList)) (by rw [height, hlen, hzero]; decide)
  have hother : ∀ {k n : Nat}, k + n ≤ 148 ∨ 156 ≤ k → part header k n = part w k n := fun h =>
    part_patchWords_apart hheader (by omega)
  refine ⟨header, (tarHeader_eq hsize hw).trans (Tar.copyFromSlice_patch (by rw [height]) hheader), ?_⟩
  constructor
  case length => exact hlen'.trans (hlen.trans hzero)
  case short => exact hname
  case nameField =>
    obtain ⟨m, hm⟩ := Nat.exists_eq_add_of_le hname
    rw [hother (by omega), hm, part_append, Nat.add_sub_cancel_left, Nat.zero_add]
    congr 1
    · exact part_patchAll hw hdisjoint (p := (0, toUtf8 name)) List.mem_cons_self
    · apply hblank
      · rw [← hm]
        decide
      · rw [hlengths]
        simp
        omega
  case checksumField =>
    rw [computeHeaderChecksum_patch height hheader, List.append_assoc]
    have hpart := part_patchWords hheader
    rwa [height] at hpart
  case sizeField =>
    have htwelve : (toUtf8 (zeroPadded 8 11 size ++ " ".toList)).length = 12 :=
      length_toUtf8_digits (by decide) hsize (by decide)
    have hpart := part_patchAll hw hdisjoint (p := (124, toUtf8 (zeroPadded 8 11 size ++ " ".toList)))
      (by simp [headerPatches])
    rw [htwelve] at hpart
    rw [hother (by omega), List.append_nil]
    exact hpart
  case typeflag =>
    rw [hother (by omega)]
    exact part_patchAll hw hdisjoint (p := (156, toUtf8 "0".toList)) (by simp [headerPatches])
  case prefixField =>
    rw [hother (by omega)]
    apply hblank
    · decide
    · rw [hlengths]
      simp
      omega

/-! ## Reading it again -/

theorem Describes.slice (h : Describes header name size) (hb : b = a + n) (hlen : b ≤ blockSize) :
    Tar.slice header a b = .ok (part header a n) := Tar.slice_part hb (h.length ▸ hlen)

theorem untilNul_padded {k : Nat} (ha : (0 : UInt8) ∉ bytes) (hn : bytes.length + k = n) :
    untilNul (bytes ++ List.replicate k 0) n = .ok bytes := by
  have hfind : ((bytes ++ List.replicate k 0).findIdx? (· = 0)).getD n = bytes.length := by
    have hnone : bytes.findIdx? (· = 0) = none := by
      refine List.findIdx?_eq_none_iff.mpr fun x hx => decide_eq_false ?_
      rintro rfl
      exact ha hx
    rw [List.findIdx?_append, hnone, Option.none_or]
    cases k with
    | zero => exact hn.symm
    | succ k => exact Nat.zero_add _
  rw [untilNul, hfind, Tar.slice_part (Nat.zero_add _).symm (by rw [List.length_append]; omega), part,
    List.drop_zero, List.take_left]

theorem zero_notMem_toUtf8 (h : '\x00' ∉ name) : (0 : UInt8) ∉ toUtf8 name :=
  fun hmem => h (mem_of_mem_toUtf8 (by decide) hmem)

theorem Describes.tarName (h : Describes header name size) (hnul : '\x00' ∉ name) : tarName header = .ok name := by
  have hshort := h.short
  have hname : untilNul (toUtf8 name ++ List.replicate (100 - (toUtf8 name).length) 0) 100 = .ok (toUtf8 name) :=
    untilNul_padded (zero_notMem_toUtf8 hnul) (by omega)
  have hprefix := untilNul_padded (k := 155) List.not_mem_nil (Nat.zero_add _)
  rw [List.nil_append] at hprefix
  rw [Project.tarName, Tar.bind_ok (h.slice (Nat.zero_add _).symm (by decide)), h.nameField, Tar.bind_ok hname,
    fromUtf8_toUtf8]
  simp only
  rw [Tar.bind_ok (h.slice (n := 155) rfl (by decide)), h.prefixField, Tar.bind_ok hprefix]
  rfl

/-- **What a header says is read from it.** -/
theorem Describes.read (h : Describes header name size) (hsafe : sanitizeTarPath name = .ok name)
    (hnul : '\x00' ∉ name) (hsize : size < 8 ^ 11) (offset : Nat) :
    readHeader offset header = .ok ⟨name, size, 48⟩ := by
  have hsum : computeHeaderChecksum header < 8 ^ 6 := computeHeaderChecksum_lt h.length
  have hpath : safeTarPath name = .ok name := by rw [safeTarPath, hsafe]
  have hchecksum : octalField (2 ^ 32 - 1) .checksumUtf8 .checksum (part header 148 8) =
      .ok (computeHeaderChecksum header) := by
    rw [h.checksumField]
    exact octalField_digits (by decide) hsum (by omega) (by simp)
  have hsizeField : octalField usizeMax .sizeUtf8 .size (part header 124 12) = .ok size := by
    rw [h.sizeField]
    exact octalField_digits (by decide) hsize (by rw [usizeMax]; omega) nofun
  rw [readHeader, Tar.bind_ok (h.slice (n := 8) rfl (by decide)), Tar.bind_ok hchecksum, if_neg (not_not_intro rfl),
    Tar.bind_ok (h.tarName hnul), Tar.bind_ok hpath, Tar.bind_ok (h.slice (n := 12) rfl (by decide)),
    Tar.bind_ok hsizeField, Tar.bind_ok (Tar.index_part h.typeflag)]
  rfl

end

end Datara.Project
