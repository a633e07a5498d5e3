import Datara.Project.Install

/-!
# Restoring a lock file

`DataraLock::restore`, `fetch_and_install_tarball` and `package_from_tar`. What is fetched, its
SHA-256, and what `extract_tar` makes of it come from outside (`Net`).
-/

namespace Datara.Project

open Library.LexicalPath

abbrev Bytes := List UInt8

/-- What a registry asks of the network and of archives. -/
structure Net where
  /-- `http::fetch_url`. -/
  fetchUrl : Text → Option Bytes
  /-- `sha256::hexdigest`. -/
  hexdigest : Bytes → Text
  /-- `tar::extract_tar`, its `HashMap` as the list of its entries. -/
  extractTar : Bytes → Option (List (Text × Bytes))
  /-- `String::from_utf8`. -/
  fromUtf8 : Bytes → Option Text

/-- `HyperGridRegistry`. -/
structure Registry where
  packages : List (Text × Package)
  store : Loc
  offline : Bool

/-- `lookup`. -/
def Registry.lookup (reg : Registry) (name : Text) : Option Package := reg.packages.lookup name

/-! ## Digests that are compared -/

/-- `trim`. -/
def trim (t : Text) : Text :=
  ((t.dropWhile isWhitespace).reverse.dropWhile isWhitespace).reverse

/-- `d.trim().strip_prefix("sha256:").unwrap_or(d.trim())`. -/
def cleanDigest (d : Text) : Text := ((trim d).dropPrefix? "sha256:".toList).getD (trim d)

/-- `eq_ignore_ascii_case`. -/
def eqIgnoreAsciiCase (a b : Text) : Bool := a.map Char.toLower = b.map Char.toLower

/-! ## Archives as packages -/

/-- The metadata and the files of an archive. -/
structure Unpacked where
  metadata : Option Package := none
  files : FileMap := ⟨[], List.nodup_nil⟩

/-- `trim_end_matches(".dtr")`, of the reversed text. -/
def trimDtrRev : Text → Text
  | 'r' :: 't' :: 'd' :: '.' :: cs => trimDtrRev cs
  | cs => cs

/-- The entry file of an archive without metadata. -/
def entryOf (files : FileMap) : Text :=
  if (files.get? "lib.dtr".toList).isSome then "lib.dtr".toList
  else if (files.get? "src/lib.dtr".toList).isSome then "src/lib.dtr".toList
  else if (files.get? "main.dtr".toList).isSome then "main.dtr".toList
  else (files.entries.map Prod.fst).headD "main.dtr".toList

/-- Its package name. -/
def nameOf (entry : Text) : Text :=
  (((trimDtrRev entry.reverse).reverse).splitOn '/').getLastD "pkg".toList

section
variable (io : Io) (codec : Codec) (H : Hash) (net : Net) (reg : Registry) (root : Loc)

/-- One file of the archive. -/
def Unpacked.add (u : Unpacked) (file : Text × Text) : Unpacked :=
  if file.1 = "package.json".toList then
    match codec.parseMeta file.2 with
    | some pkg => { u with metadata := some pkg }
    | none => u
  else { u with files := u.files.insert file.1 file.2 }

/-- The package of an archive: of its metadata, if it has any. -/
def Unpacked.package (u : Unpacked) : Package :=
  match u.metadata with
  | some pkg =>
    let files := if pkg.files.entries.isEmpty then u.files else pkg.files
    { pkg with files, digest := if pkg.digest = [] then H.computeDigest files else pkg.digest }
  | none => ⟨nameOf (entryOf u.files), "0.1.0".toList, H.computeDigest u.files, [], u.files⟩

/-- `package_from_tar`. -/
def packageFromTar (data : Bytes) : Option Package := do
  let entries ← net.extractTar data
  let files ← entries.mapM fun e => (net.fromUtf8 e.2).map fun text => (e.1, text)
  return (files.foldl (Unpacked.add codec) {}).package H

/-! ## Fetching -/

/-- Why a fetch ends. -/
inductive FetchError
  | notCached (name version : Text)
  | metadata
  | fetch
  | mismatch
  | archive
  | install (e : InstallError)
  deriving DecidableEq

/-- `install_with_source`, its errors among those of a fetch. -/
def installFetched (pkg : Package) (source : Text) (fs : Fs) : Except FetchError Loc × Fs :=
  ((installWithSource io codec H reg.store root pkg source fs).1.mapError .install,
    (installWithSource io codec H reg.store root pkg source fs).2)

/-- The metadata of a package in the store: `cas_pkg_dir.exists()` and its `package.json`. -/
def cachedText (name version : Text) (fs : Fs) : Option (Option Text) :=
  let dir := casDir reg.store name version
  let file := joinLoc dir "package.json".toList
  if fs.exists? dir && fs.exists? file then some (fs.read file) else none

/-- The package of a cache hit. -/
def cached (name version : Text) (fs : Fs) : Option Package :=
  ((cachedText reg name version fs).bind id).bind codec.parseMeta

/-- The digest of the fetched bytes is the expected one. -/
def tarMatches (expected : Text) (data : Bytes) : Bool :=
  !expected.isEmpty && eqIgnoreAsciiCase (net.hexdigest data) (cleanDigest expected)

/-- What is let through of fetched bytes. -/
def accept (expected : Text) (data : Bytes) : Except FetchError Package :=
  match packageFromTar codec H net data with
  | some pkg =>
    if !expected.isEmpty && !tarMatches net expected data &&
        !eqIgnoreAsciiCase (cleanDigest pkg.digest) (cleanDigest expected) then .error .mismatch
    else .ok pkg
  | none =>
    if !expected.isEmpty && !tarMatches net expected data then .error .mismatch else .error .archive

/-- The part of a fetch that goes to the network. -/
def fetchAndInstall (url expected : Text) (fs : Fs) : Except FetchError Loc × Fs :=
  match net.fetchUrl url with
  | none => (.error .fetch, fs)
  | some data =>
    match accept codec H net expected data with
    | .error e => (.error e, fs)
    | .ok pkg => installFetched io codec H reg root pkg url fs

/-- **`fetch_and_install_tarball`.** -/
def fetchAndInstallTarball (name version url expected : Text) (fs : Fs) :
    Except FetchError Loc × Fs :=
  if reg.offline then
    match cachedText reg name version fs with
    | some text =>
      match text.bind codec.parseMeta with
      | some pkg => installFetched io codec H reg root pkg url fs
      | none => (.error .metadata, fs)
    | none => (.error (.notCached name version), fs)
  else
    match cached codec reg name version fs with
    | some pkg => installFetched io codec H reg root pkg url fs
    | none => fetchAndInstall io codec H net reg root url expected fs

/-! ## Restoring -/

/-- Why a restoration ends. -/
inductive RestoreError
  | install (e : InstallError)
  | fetch (e : FetchError)
  | source (name source : Text)
  deriving DecidableEq

/-- A source that can be fetched. -/
def isUrl (source : Text) : Bool :=
  ["http://".toList, "https://".toList, "file://".toList].any (·.isPrefixOf source)

/-- One locked package; whether it was restored. -/
def restoreOne (name : Text) (locked : LockedPackage) (fs : Fs) : Except RestoreError Bool × Fs :=
  if fs.exists? (projectDir root name) then (.ok false, fs)
  else
    match reg.lookup name with
    | some pkg =>
      let out := installWithSource io codec H reg.store root pkg locked.source fs
      ((out.1.mapError .install).map fun _ => true, out.2)
    | none =>
      if isUrl locked.source then
        let out := fetchAndInstallTarball io codec H net reg root name locked.version locked.source
          locked.digest fs
        ((out.1.mapError .fetch).map fun _ => true, out.2)
      else (.error (.source name locked.source), fs)

/-- The loop of `restore`. -/
def restoreAll : List (Text × LockedPackage) → Nat → Fs → Except RestoreError Nat × Fs
  | [], restored, fs => (.ok restored, fs)
  | (name, locked) :: rest, restored, fs =>
    match restoreOne io codec H net reg root name locked fs with
    | (.error e, fs) => (.error e, fs)
    | (.ok more, fs) => restoreAll rest (if more then restored + 1 else restored) fs

/-- **`DataraLock::restore`.** -/
def DataraLock.restore (lock : DataraLock) (fs : Fs) : Except RestoreError Nat × Fs :=
  restoreAll io codec H net reg root lock.packages 0 fs

end

end Datara.Project
