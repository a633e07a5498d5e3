import Datara.Project.Digest

/-!
# Installing a package

`HyperGridRegistry::install_with_source` and `extract_tar_to_dir`, on a file system that knows files
and directories by where their paths lead. Whether an operation of the file system succeeds is an
oracle's choice (`Io`). JSON and TOML texts are written and read by a parameter (`Codec`).
-/

namespace Datara.Project

open Library.LexicalPath

/-- A rooted place, innermost segment first. -/
abbrev Loc := List Segment

/-- `Path::join`: an absolute path replaces the base. -/
def joinLoc (base : Loc) (p : Text) : Loc :=
  if p.head? = some '/' then resolve true (p.splitOn '/') else walk true base (p.splitOn '/')

/-- Which operations of the file system succeed, by their number. -/
abbrev Io := Nat → Bool

/-- A file system. `written` lists the files that were written, newest first. -/
structure Fs where
  files : List (Loc × Text)
  dirs : List Loc
  written : List Loc
  ops : Nat

namespace Fs

def read (fs : Fs) (loc : Loc) : Option Text := fs.files.lookup loc

def exists? (fs : Fs) (loc : Loc) : Bool := fs.dirs.contains loc || (fs.read loc).isSome

/-- `fs::create_dir_all`. -/
def createDirAll (io : Io) (loc : Loc) (fs : Fs) : Bool × Fs :=
  if io fs.ops then (true, { fs with dirs := loc.tails ++ fs.dirs, ops := fs.ops + 1 })
  else (false, { fs with ops := fs.ops + 1 })

/-- `fs::write`. -/
def write (io : Io) (loc : Loc) (content : Text) (fs : Fs) : Bool × Fs :=
  if io fs.ops then
    (true, { fs with files := (loc, content) :: fs.files.filter (·.1 ≠ loc)
                     written := loc :: fs.written
                     ops := fs.ops + 1 })
  else (false, { fs with ops := fs.ops + 1 })

end Fs

/-- `HyperGridPackage`, without the fields that only its metadata file repeats. -/
structure Package where
  name : Text
  version : Text
  digest : Text
  dependencies : List Text
  files : FileMap

/-- `LockedPackage`. -/
structure LockedPackage where
  version : Text
  digest : Text
  source : Text
  dependencies : List Text
  deriving DecidableEq

/-- `DataraLock`, its `BTreeMap` as the list of its entries. -/
structure DataraLock where
  version : Nat := 1
  packages : List (Text × LockedPackage) := []
  deriving DecidableEq

/-- `insert_or_update`. -/
def DataraLock.insertOrUpdate (lock : DataraLock) (name : Text) (p : LockedPackage) : DataraLock :=
  { lock with packages := (lock.packages.filter (·.1 ≠ name)).orderedInsert (fun e f => e.1 ≤ f.1) (name, p) }

/-- The JSON and TOML texts of the package manager. -/
structure Codec where
  /-- `serde_json::to_string_pretty`. -/
  metaText : Package → Option Text
  /-- `serde_json::from_str`. -/
  parseMeta : Text → Option Package
  /-- `DataraLock::save`, the text. -/
  lockText : DataraLock → Option Text
  /-- `toml::from_str`. -/
  parseLock : Text → Option DataraLock
  /-- `update_manifest_dependency`: what is written for the manifest, if anything. -/
  editManifest : Option Text → Text → Text → Option Text

/-- Why an installation ends. -/
inductive InstallError
  | invalidName (name : Text)
  | createCas
  | unsafePath (name rel : Text)
  | writeCas (rel : Text)
  | createProject
  | writeProject (rel : Text)
  deriving DecidableEq

/-- The loop over `pkg.files`: every path is sanitized before it is joined. -/
def installFiles (io : Io) (dir : Loc) (name : Text) (failed : Text → InstallError) :
    List (Text × Text) → Fs → Except InstallError Unit × Fs
  | [], fs => (.ok (), fs)
  | (rel, content) :: rest, fs =>
    match sanitizePackageRelPath rel with
    | none => (.error (.unsafePath name rel), fs)
    | some safe =>
      let loc := joinLoc dir safe
      let made := fs.createDirAll io loc.tail
      let wrote := made.2.write io loc content
      if wrote.1 then installFiles io dir name failed rest wrote.2
      else (.error (failed safe), wrote.2)

/-- `path.extension() == Some("dtr")`. -/
def isDtr (file : Segment) : Bool :=
  match file.dropSuffix? ".dtr".toList with
  | some stem => !stem.isEmpty
  | none => false

/-- A directory `collect_files_recursive` does not enter. -/
def isSkipped (dir : Segment) : Bool :=
  dir.head? = some '.' || dir = "target".toList || dir = "packages".toList

/-- The path of a file below a directory, innermost segment first. -/
def relText (names : List Segment) : Text := ['/'].intercalate names.reverse

/-- `HashMap::insert`. -/
def FileMap.insert (m : FileMap) (k v : Text) : FileMap where
  entries := (k, v) :: m.entries.filter (·.1 ≠ k)
  nodup := by
    rw [List.map_cons, List.nodup_cons]
    refine ⟨fun h => ?_, ?_⟩
    · obtain ⟨e, he, hk⟩ := List.mem_map.mp h
      exact absurd hk (by simpa using (List.mem_filter.mp he).2)
    · exact m.nodup.sublist (List.Sublist.map _ List.filter_sublist)

/-- The names that lead from a directory to a place below it. -/
def below (dir loc : Loc) : Option (List Segment) := loc.dropSuffix? dir

/-- `collect_files_recursive`: the `.dtr` files below a directory. -/
def Fs.collect (fs : Fs) (dir : Loc) : FileMap :=
  fs.files.foldr (fun f m =>
    match below dir f.1 with
    | some (file :: dirs) =>
      if isDtr file && dirs.all (fun d => !isSkipped d) then m.insert (relText (file :: dirs)) f.2 else m
    | _ => m) ⟨[], List.nodup_nil⟩

section
variable (io : Io) (codec : Codec) (H : Hash)

/-- `let _ = fs::write(..)` of a text that may be missing. -/
def writeIf (loc : Loc) (text : Option Text) (fs : Fs) : Fs :=
  match text with
  | some t => (fs.write io loc t).2
  | none => fs

def manifestLoc (root : Loc) : Loc := joinLoc root "datara.toml".toList

def lockLoc (root : Loc) : Loc := joinLoc root "datara.lock".toList

def projectDir (root : Loc) (name : Text) : Loc := joinLoc (joinLoc root "packages".toList) name

def casDir (store : Loc) (name version : Text) : Loc := joinLoc (joinLoc store name) version

/-- `update_manifest_dependency`. -/
def updateManifest (root : Loc) (name version : Text) (fs : Fs) : Fs :=
  writeIf io (manifestLoc root) (codec.editManifest (fs.read (manifestLoc root)) name version) fs

/-- `DataraLock::load`. -/
def loadLock (root : Loc) (fs : Fs) : Option DataraLock :=
  (fs.read (lockLoc root)).bind codec.parseLock

def startsMerkle (digest : Text) : Bool := "merkle:".toList.isPrefixOf digest

/-- The digest of the linked files in the scheme of a given one. -/
def digestLike (digest : Text) (files : FileMap) : Text :=
  if startsMerkle digest then H.computeMerkleRoot files else H.computeDigest files

/-- The digest that is recorded: the package's own where it describes what is on disk. -/
def recordedDigest (digest : Text) (linked : FileMap) : Text :=
  let matches? :=
    if startsMerkle digest then digest = H.computeMerkleRoot linked
    else digest ≠ [] ∧ digest = H.computeDigest linked
  if matches? then digest else digestLike H digest linked

/-- The part of `install_with_source` after the files are linked. -/
def recordInstall (root : Loc) (pkg : Package) (source : Text) (fs : Fs) : Fs :=
  let fs := updateManifest io codec root pkg.name pkg.version fs
  let linked := fs.collect (projectDir root pkg.name)
  let lock := (loadLock codec root fs).getD {}
  let lock := lock.insertOrUpdate pkg.name
    ⟨pkg.version, recordedDigest H pkg.digest linked, source, pkg.dependencies⟩
  writeIf io (lockLoc root) (codec.lockText lock) fs

/-- The first half of `install_with_source`: the package store. -/
def installCas (store : Loc) (pkg : Package) (fs : Fs) : Except InstallError Unit × Fs :=
  let dir := casDir store pkg.name pkg.version
  let made := fs.createDirAll io dir
  if made.1 then
    let fs := (made.2.write io (joinLoc dir "package.json".toList) ((codec.metaText pkg).getD [])).2
    installFiles io dir pkg.name .writeCas pkg.files.entries fs
  else (.error .createCas, made.2)

/-- The second half: the project's `packages` directory. -/
def installProject (root : Loc) (pkg : Package) (fs : Fs) : Except InstallError Unit × Fs :=
  let dir := projectDir root pkg.name
  let made := fs.createDirAll io dir
  if made.1 then
    let fs := writeIf io (joinLoc dir "package.json".toList) (codec.metaText pkg) made.2
    installFiles io dir pkg.name .writeProject pkg.files.entries fs
  else (.error .createProject, made.2)

/-- **`install_with_source`.** -/
def installWithSource (store root : Loc) (pkg : Package) (source : Text) (fs : Fs) :
    Except InstallError Loc × Fs :=
  if isValidPackageName pkg.name then
    match installCas io codec store pkg fs with
    | (.error e, fs) => (.error e, fs)
    | (.ok (), fs) =>
      match installProject io codec root pkg fs with
      | (.error e, fs) => (.error e, fs)
      | (.ok (), fs) => (.ok (projectDir root pkg.name), recordInstall io codec H root pkg source fs)
  else (.error (.invalidName pkg.name), fs)

end

/-! ## Archives -/

/-- Why an extraction ends. -/
inductive ExtractError
  | createDest
  | archive (e : Text)
  | path (e : TarPathError)
  | createParent (rel : Text)
  | write (loc : Loc)

/-- The loop over the extracted files. -/
def extractFiles (io : Io) (dest : Loc) : List (Text × Text) → Fs → Except ExtractError (List Loc) × Fs
  | [], fs => (.ok [], fs)
  | (rel, content) :: rest, fs =>
    match sanitizeTarPath rel with
    | .error e => (.error (.path e), fs)
    | .ok safe =>
      let loc := joinLoc dest safe
      let made := fs.createDirAll io loc.tail
      if made.1 then
        let wrote := made.2.write io loc content
        if wrote.1 then
          match extractFiles io dest rest wrote.2 with
          | (.ok locs, fs) => (.ok (loc :: locs), fs)
          | (.error e, fs) => (.error e, fs)
        else (.error (.write loc), wrote.2)
      else (.error (.createParent safe), made.2)

/-- `extract_tar_to_dir`, with what `extract_tar` makes of the archive. -/
def extractTarToDir (io : Io) (extractTar : Text → Except Text (List (Text × Text))) (data : Text)
    (dest : Loc) (fs : Fs) : Except ExtractError (List Loc) × Fs :=
  let made := fs.createDirAll io dest
  if made.1 then
    match extractTar data with
    | .error e => (.error (.archive e), made.2)
    | .ok files => extractFiles io dest files made.2
  else (.error .createDest, made.2)

end Datara.Project
