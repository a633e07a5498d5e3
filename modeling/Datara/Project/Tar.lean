import Datara.Library.Runs
import Datara.Library.Upsert
import Datara.Library.Words
import Datara.Project.Chunked

/-!
# Tar archives

`create_tar` and `extract_tar` of `project/pm/tar.rs`. A slice outside of its bytes, a copy between slices of
different lengths and an index that does not fit in a `usize` are panics.
-/

namespace Datara.Project

open Library

/-- A `HashMap<String, Vec<u8>>`. -/
structure TarFiles where
  entries : List (Text × Bytes)
  nodup : (entries.map Prod.fst).Nodup

namespace TarFiles

def empty : TarFiles := ⟨[], List.nodup_nil⟩

def get? (files : TarFiles) (k : Text) : Option Bytes := files.entries.lookup k

/-- `get(k).unwrap()`, of a key of the map. -/
def content (files : TarFiles) (k : Text) : Bytes := (files.get? k).getD []

def insert (files : TarFiles) (k : Text) (v : Bytes) : TarFiles :=
  ⟨upsert k v files.entries, nodup_upsert files.nodup⟩

/-- The keys, sorted. -/
def sortedKeys (files : TarFiles) : List Text := (files.entries.map Prod.fst).insertionSort (· ≤ ·)

end TarFiles

/-- The errors of `create_tar` and `extract_tar`. -/
inductive TarError
  | path (e : TarPathError)
  /-- Filename '{}' exceeds 100-byte ustar limit without long-prefix -/
  | nameTooLong (name : Text)
  /-- Invalid UTF-8 in tar checksum -/
  | checksumUtf8
  /-- Failed to parse tar checksum '{}' -/
  | checksum (text : Text)
  /-- Tar header checksum mismatch at offset {}: expected {:o}, got {:o} -/
  | mismatch (offset expected actual : Nat)
  /-- Invalid UTF-8 in tar filename -/
  | nameUtf8
  /-- Invalid UTF-8 in tar size field -/
  | sizeUtf8
  /-- Failed to parse tar file size '{}' -/
  | size (text : Text)
  /-- Tar file '{}' claims size {} exceeding archive length -/
  | exceeds (name : Text) (size : Nat)
  /-- Archive offset overflow -/
  | overflow
  deriving DecidableEq, Repr

/-- How a call ends without a result. -/
inductive TarFault
  | panic
  | error (e : TarError)
  deriving DecidableEq, Repr

abbrev Tar (α : Type) := Except TarFault α

namespace Tar

def panic {α : Type} : Tar α := .error .panic

def fail {α : Type} (e : TarError) : Tar α := .error (.error e)

/-- `a + b` of two `usize`. -/
def add (a b : Nat) : Tar Nat := if usizeMax < a + b then panic else .ok (a + b)

/-- `bytes[a..b]`. -/
def slice (bytes : Bytes) (a b : Nat) : Tar Bytes :=
  if a ≤ b ∧ b ≤ bytes.length then .ok ((bytes.take b).drop a) else panic

/-- `bytes[i]`. -/
def index (bytes : Bytes) (i : Nat) : Tar UInt8 := (bytes[i]?).elim panic .ok

/-- `bytes[a..b].copy_from_slice(src)`. -/
def copyFromSlice (bytes : Bytes) (a b : Nat) (src : Bytes) : Tar Bytes :=
  if b = a + src.length then (patchWords bytes a src).elim panic .ok else panic

/-- `out.extend(bytes)`: no `Vec` holds more than `isize::MAX` bytes. -/
def extend (out bytes : Bytes) : Tar Bytes :=
  if usizeMax / 2 < out.length + bytes.length then panic else .ok (out ++ bytes)

end Tar

def blockSize : Nat := 512

def zeroBlock : Bytes := List.replicate blockSize 0

/-- `sanitize_tar_path(..)?`. -/
def safeTarPath (rel : Text) : Tar Text :=
  match sanitizeTarPath rel with
  | .error e => .fail (.path e)
  | .ok name => .ok name

/-- `compute_header_checksum`. The sum of the bytes of a block stays below `u32::MAX`. -/
def computeHeaderChecksum (header : Bytes) : Nat :=
  (header.mapIdx fun i b => if 148 ≤ i ∧ i < 156 then 32 else b.toNat).sum

/-- The header of `create_tar` for a file. -/
def tarHeader (name : Text) (size : Nat) : Tar Bytes := do
  let nameBytes := toUtf8 name
  let header ← Tar.copyFromSlice zeroBlock 0 nameBytes.length nameBytes
  let header ← Tar.copyFromSlice header 100 108 (toUtf8 "0000644\x00".toList)
  let header ← Tar.copyFromSlice header 108 116 (toUtf8 "0000000\x00".toList)
  let header ← Tar.copyFromSlice header 116 124 (toUtf8 "0000000\x00".toList)
  let header ← Tar.copyFromSlice header 124 136 (toUtf8 (zeroPadded 8 11 size ++ " ".toList))
  let header ← Tar.copyFromSlice header 136 148 (toUtf8 "00000000000 ".toList)
  let header ← Tar.copyFromSlice header 156 157 (toUtf8 "0".toList)
  let header ← Tar.copyFromSlice header 257 263 (toUtf8 "ustar\x00".toList)
  let header ← Tar.copyFromSlice header 263 265 (toUtf8 "00".toList)
  let chksum := computeHeaderChecksum header
  Tar.copyFromSlice header 148 156 (toUtf8 (zeroPadded 8 6 chksum ++ "\x00 ".toList))

/-- The bytes up to the next boundary of a block. -/
def tarPadding (size : Nat) : Nat :=
  let remainder := size % blockSize
  if remainder = 0 then 0 else blockSize - remainder

/-- The body of the loop of `create_tar`. -/
def createEntry (files : TarFiles) (out : Bytes) (relPath : Text) : Tar Bytes := do
  let safeName ← safeTarPath relPath
  let data := files.content relPath
  if 100 < (toUtf8 safeName).length then
    .fail (.nameTooLong safeName)
  else
    let header ← tarHeader safeName data.length
    let out ← Tar.extend out header
    let out ← Tar.extend out data
    Tar.extend out (List.replicate (tarPadding data.length) 0)

/-- **`create_tar`.** -/
def createTar (files : TarFiles) : Tar Bytes := do
  let out ← files.sortedKeys.foldlM (createEntry files) []
  Tar.extend out (List.replicate (blockSize * 2) 0)

/-- `trim_matches('\0')`. -/
def trimNul (t : Text) : Text :=
  ((t.dropWhile (· = '\x00')).reverse.dropWhile (· = '\x00')).reverse

/-- A number field: the text of some bytes of the header, read in octal. -/
def octalField (limit : Nat) (invalid : TarError) (unparsed : Text → TarError) (bytes : Bytes) : Tar Nat :=
  match fromUtf8 bytes with
  | none => .fail invalid
  | some text =>
    match fromStrRadix limit 8 (trimNul (trim text)) with
    | none => .fail (unparsed (trimNul (trim text)))
    | some n => .ok n

/-- The bytes before the first NUL, of a field with room for `n`. -/
def untilNul (bytes : Bytes) (n : Nat) : Tar Bytes :=
  Tar.slice bytes 0 ((bytes.findIdx? (· = 0)).getD n)

/-- The name in a header, after its prefix. -/
def tarName (header : Bytes) : Tar Text := do
  let nameBytes ← Tar.slice header 0 100
  match fromUtf8 (← untilNul nameBytes 100) with
  | none => .fail .nameUtf8
  | some rawName =>
    let prefixBytes ← Tar.slice header 345 500
    let rawPrefix := (fromUtf8 (← untilNul prefixBytes 155)).getD []
    pure (if rawPrefix ≠ [] then rawPrefix ++ '/' :: rawName else rawName)

/-- What `extract_tar` reads in a header. -/
structure TarHeader where
  safeName : Text
  size : Nat
  typeflag : UInt8

/-- The checks of a header, in the order of `extract_tar`. -/
def readHeader (offset : Nat) (header : Bytes) : Tar TarHeader := do
  let chksumBytes ← Tar.slice header 148 156
  let expected ← octalField (2 ^ 32 - 1) .checksumUtf8 .checksum chksumBytes
  if expected ≠ computeHeaderChecksum header then
    .fail (.mismatch offset expected (computeHeaderChecksum header))
  else
    let fullName ← tarName header
    let safeName ← safeTarPath fullName
    let sizeBytes ← Tar.slice header 124 136
    let size ← octalField usizeMax .sizeUtf8 .size sizeBytes
    let typeflag ← Tar.index header 156
    pure ⟨safeName, size, typeflag⟩

/-- The data of a regular file goes into the map. -/
def storeFile (data : Bytes) (start stop : Nat) (files : TarFiles) (h : TarHeader) : Tar TarFiles :=
  if h.typeflag = 48 ∨ h.typeflag = 0 then do
    let fileData ← Tar.slice data start stop
    pure (files.insert h.safeName fileData)
  else
    pure files

/-- What follows a header: the data, and the offset after its padding. -/
def extractFile (data : Bytes) (start : Nat) (files : TarFiles) (h : TarHeader) : Tar (Nat × TarFiles) := do
  if usizeMax < start + h.size ∨ data.length < start + h.size then
    .fail (.exceeds h.safeName h.size)
  else
    let stop := start + h.size
    let files ← storeFile data start stop files h
    if usizeMax < stop + tarPadding h.size then
      .fail .overflow
    else
      pure (stop + tarPadding h.size, files)

/-- A step of the loop of `extract_tar`, or the end of the archive. -/
def extractStep (data : Bytes) (offset : Nat) (files : TarFiles) : Tar (Option (Nat × TarFiles)) := do
  let blockEnd ← Tar.add offset blockSize
  if data.length < blockEnd then
    pure none
  else
    let block ← Tar.slice data offset blockEnd
    if block.all (· = 0) then
      pure none
    else
      let header ← Tar.copyFromSlice zeroBlock 0 blockSize block
      let h ← readHeader offset header
      let start ← Tar.add offset blockSize
      let next ← extractFile data start files h
      pure (some next)

section
variable {α β : Type} {data : Bytes} {offset next : Nat} {files files' : TarFiles}

theorem Tar.bind_eq_ok {x : Tar α} {f : α → Tar β} {b : β} : x >>= f = .ok b ↔ ∃ a, x = .ok a ∧ f a = .ok b := by
  cases x with
  | error e => exact ⟨nofun, nofun⟩
  | ok a => exact ⟨fun h => ⟨a, rfl, h⟩, fun ⟨_, ha, h⟩ => Except.ok.inj ha ▸ h⟩

theorem Tar.add_eq_ok {a b n : Nat} (h : Tar.add a b = .ok n) : n = a + b := by
  rw [Tar.add] at h
  split at h
  · cases h
  · exact (Except.ok.inj h).symm

theorem extractFile_next {h : TarHeader} (hnext : extractFile data offset files h = .ok (next, files')) :
    offset + h.size ≤ data.length ∧ next = offset + h.size + tarPadding h.size := by
  rw [extractFile] at hnext
  split at hnext
  case isTrue => cases hnext
  case isFalse hfits =>
    obtain ⟨files₁, -, hnext⟩ := Tar.bind_eq_ok.mp hnext
    split at hnext
    case isTrue => cases hnext
    case isFalse =>
      cases hnext
      exact ⟨Nat.le_of_not_lt fun hlt => hfits (.inr hlt), rfl⟩

theorem extractStep_next (h : extractStep data offset files = .ok (some (next, files'))) :
    ∃ size, offset + blockSize + size ≤ data.length ∧ next = offset + blockSize + size + tarPadding size := by
  obtain ⟨blockEnd, -, h⟩ := Tar.bind_eq_ok.mp h
  split at h
  case isTrue => cases h
  obtain ⟨block, -, h⟩ := Tar.bind_eq_ok.mp h
  split at h
  case isTrue => cases h
  obtain ⟨header, -, h⟩ := Tar.bind_eq_ok.mp h
  obtain ⟨read, -, h⟩ := Tar.bind_eq_ok.mp h
  obtain ⟨start, hstart, h⟩ := Tar.bind_eq_ok.mp h
  obtain rfl := Tar.add_eq_ok hstart
  obtain ⟨found, hfile, h⟩ := Tar.bind_eq_ok.mp h
  cases h
  exact ⟨read.size, extractFile_next hfile⟩

end

/-- Each turn of the loop of `extract_tar` begins at a later offset. -/
theorem extractStep_shrinks (data : Bytes) :
    Shrinks (fun c : Nat × TarFiles => extractStep data c.1 c.2) (fun c => data.length - c.1) := by
  intro c c' h
  obtain ⟨size, hfits, hnext⟩ := extractStep_next h
  have hpos : 0 < blockSize := by decide
  simp only [hnext]
  omega

/-- The loop of `extract_tar`. -/
def extractFrom (data : Bytes) (offset : Nat) (files : TarFiles) : Tar TarFiles :=
  (runLoop _ _ (extractStep_shrinks data) (offset, files)).map Prod.snd

/-- **`extract_tar`.** -/
def extractTar (data : Bytes) : Tar TarFiles := extractFrom data 0 .empty

end Datara.Project
