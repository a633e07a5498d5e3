import Datara.Project.InstallConfined
import Datara.Project.Restore

/-!
# What a restoration leaves

The locked packages' directories and store entries are apart (`Layout`), so one restored package does
not change what another finds. A restoration is faithful where every directory it finds holds what is
locked, and every package it picks is the locked one (`restore_faithful`). A fetched package is checked
except where it comes from the store or vouches for itself (`fetch_checked_iff`).
-/

namespace Datara.Project

open Library.LexicalPath

/-! ## The files of an installed package -/

/-- The key of a file so many names below the directory, if it is collected. -/
def linkKey : List Segment → Option Text
  | [] => none
  | file :: dirs =>
    if isDtr file && dirs.all (fun d => !isSkipped d) then some (relText (file :: dirs)) else none

/-- What is collected of a file written so many names below the directory. -/
def FileMap.link (m : FileMap) (names : List Segment) (content : Text) : FileMap :=
  match linkKey names with
  | some k => m.insert k content
  | none => m

/-- No files. -/
def FileMap.none : FileMap := ⟨[], List.nodup_nil⟩

/-- The place of a file below the package's directory. -/
def placeBelow (rel : Text) : Option Loc := (sanitizePackageRelPath rel).map (joinLoc [])

/-- What is collected of the files of a package. -/
def FileMap.linkAll (m : FileMap) (files : List (Text × Text)) : FileMap :=
  files.foldl (fun m f => match placeBelow f.1 with
    | some names => m.link names f.2
    | .none => m) m

/-- The files of an installed package, as `collect_files_recursive` finds them. -/
def Package.linkedFiles (pkg : Package) : FileMap := FileMap.none.linkAll pkg.files.entries

variable {failed : Text → InstallError}

section
variable {dir loc : Loc} {names : List Segment} {content : Text} {fs : Fs} {io : Io}

theorem FileMap.ext {m m' : FileMap} (h : m.entries = m'.entries) : m = m' := by
  cases m
  cases m'
  cases h
  rfl

theorem collectStep_of_below (h : loc = names ++ dir) (m : FileMap) :
    collectStep dir (loc, content) m = m.link names content := by
  rw [collectStep, below_eq_some.mpr h, FileMap.link]
  cases names with
  | nil => rfl
  | cons file dirs =>
    simp only [linkKey]
    split <;> rfl

theorem filter_collectStep {k : Text} {m m' : FileMap} (f : Loc × Text)
    (h : m.entries.filter (·.1 ≠ k) = m'.entries.filter (·.1 ≠ k)) :
    (collectStep dir f m).entries.filter (·.1 ≠ k) = (collectStep dir f m').entries.filter (·.1 ≠ k) := by
  cases hb : below dir f.1 with
  | none => rwa [collectStep, collectStep, hb]
  | some names =>
    obtain ⟨l, c⟩ := f
    rw [collectStep_of_below (below_eq_some.mp hb), collectStep_of_below (below_eq_some.mp hb),
      FileMap.link, FileMap.link]
    cases linkKey names with
    | none => exact h
    | some key =>
      have swap : ∀ m : FileMap, (m.insert key c).entries.filter (·.1 ≠ k) =
          ([(key, c)].filter (·.1 ≠ k)) ++ (m.entries.filter (·.1 ≠ k)).filter (·.1 ≠ key) := by
        intro m
        show (List.cons (key, c) (m.entries.filter (·.1 ≠ key))).filter (·.1 ≠ k) = _
        rw [← List.singleton_append, List.filter_append, List.filter_filter, List.filter_filter]
        simp only [Bool.and_comm]
      rw [swap, swap, h]

theorem link_collect_filter (h : loc = names ++ dir) (files : List (Loc × Text)) :
    ((files.filter (·.1 ≠ loc)).foldr (collectStep dir) .none).link names content =
      (files.foldr (collectStep dir) .none).link names content := by
  have hstep : ∀ f : Loc × Text, f.1 = loc → ∀ m, collectStep dir f m = m.link names f.2 :=
    fun f hf m => collectStep_of_below (hf.trans h) m
  rw [FileMap.link, FileMap.link]
  cases hkey : linkKey names with
  | none =>
    show (files.filter (·.1 ≠ loc)).foldr (collectStep dir) .none = files.foldr (collectStep dir) .none
    induction files with
    | nil => rfl
    | cons f files ih =>
      by_cases hf : f.1 = loc
      · rw [List.filter_cons_of_neg (by simpa using hf), ih, List.foldr_cons, hstep f hf, FileMap.link, hkey]
      · rw [List.filter_cons_of_pos (by simpa using hf), List.foldr_cons, List.foldr_cons, ih]
  | some k =>
    have hfilter : ((files.filter (·.1 ≠ loc)).foldr (collectStep dir) .none).entries.filter (·.1 ≠ k) =
        (files.foldr (collectStep dir) .none).entries.filter (·.1 ≠ k) := by
      induction files with
      | nil => rfl
      | cons f files ih =>
        by_cases hf : f.1 = loc
        · rw [List.filter_cons_of_neg (by simpa using hf), ih, List.foldr_cons, hstep f hf, FileMap.link,
            hkey]
          show _ = (List.cons (k, f.2) _).filter _
          rw [List.filter_cons_of_neg (by simp), List.filter_filter]
          simp
        · rw [List.filter_cons_of_pos (by simpa using hf), List.foldr_cons, List.foldr_cons]
          exact filter_collectStep f ih
    exact FileMap.ext (congrArg (List.cons (k, content)) hfilter)

/-- **A file written below the directory** is collected under its names. -/
theorem collect_write_below (h : loc = names ++ dir) (hok : (fs.write io loc content).1 = true) :
    (fs.write io loc content).2.collect dir = (fs.collect dir).link names content := by
  rw [Fs.write] at hok ⊢
  split at hok
  case isTrue hio =>
    rw [if_pos hio, Fs.collect_eq, Fs.collect_eq, List.foldr_cons, collectStep_of_below h]
    exact link_collect_filter h fs.files
  case isFalse => cases hok

@[simp] theorem read_createDirAll (l : Loc) : (fs.createDirAll io loc).2.read l = fs.read l := by
  rw [Fs.createDirAll]
  split <;> rfl

@[simp] theorem collect_createDirAll : (fs.createDirAll io loc).2.collect dir = fs.collect dir := by
  rw [Fs.createDirAll]
  split <;> rfl

theorem mem_createDirAll (hok : (fs.createDirAll io loc).1 = true) : loc ∈ (fs.createDirAll io loc).2.dirs := by
  rw [Fs.createDirAll] at hok ⊢
  split at hok
  case isTrue hio =>
    rw [if_pos hio]
    exact List.mem_append_left _ ((List.mem_tails _ _).mpr List.suffix_rfl)
  case isFalse => cases hok

theorem files_write_failed (hok : ¬(fs.write io loc content).1 = true) :
    (fs.write io loc content).2.files = fs.files := by
  rw [Fs.write] at hok ⊢
  split
  case isTrue hio => exact absurd (by rw [if_pos hio]) hok
  case isFalse => rfl

theorem read_write (hok : (fs.write io loc content).1 = true) :
    (fs.write io loc content).2.read loc = some content := by
  rw [Fs.write] at hok ⊢
  split at hok
  case isTrue hio =>
    rw [if_pos hio]
    show ((loc, content) :: _).lookup loc = _
    rw [List.lookup_cons, beq_self_eq_true]
  case isFalse => cases hok

theorem walk_of_down {path : List Segment} (h : ∀ s ∈ path, s ≠ dotdot) :
    walk true dir path = walk true [] path ++ dir := by
  induction path using List.reverseRecOn with
  | nil => rfl
  | append_singleton path s ih =>
    have hpath := ih fun t ht => h t (List.mem_append_left _ ht)
    have hs : s ≠ dotdot := h s (List.mem_append_right _ List.mem_cons_self)
    rw [walk_append, walk_append, hpath]
    show step true _ s = step true _ s ++ dir
    rw [step, step, if_neg hs, if_neg hs]
    split <;> rfl

theorem joinLoc_of_placeBelow {rel safe : Text} (h : sanitizePackageRelPath rel = some safe) :
    placeBelow rel = some (joinLoc [] safe) ∧ joinLoc dir safe = joinLoc [] safe ++ dir := by
  obtain ⟨-, hsafe, -, -⟩ := sanitizePackageRelPath_eq_some h
  refine ⟨by rw [placeBelow, h]; rfl, ?_⟩
  rw [joinLoc_safe hsafe, joinLoc_safe hsafe]
  exact walk_of_down hsafe.down

/-- **A package's files, linked**, are collected. -/
theorem collect_installFiles {name : Text} (files : List (Text × Text))
    (fs : Fs) {fs' : Fs} (h : installFiles io dir name failed files fs = (.ok (), fs')) :
    fs'.collect dir = (fs.collect dir).linkAll files := by
  induction files generalizing fs with
  | nil =>
    cases h
    rfl
  | cons f files ih =>
    rw [installFiles] at h
    cases hsafe : sanitizePackageRelPath f.1 with
    | none =>
      rw [hsafe] at h
      cases h
    | some safe =>
      rw [hsafe] at h
      simp only at h
      split at h
      case isTrue hok =>
        obtain ⟨hplace, hjoin⟩ := joinLoc_of_placeBelow hsafe
        have hcons : (fs.collect dir).linkAll (f :: files) =
            ((fs.collect dir).link (joinLoc [] safe) f.2).linkAll files := by
          rw [FileMap.linkAll, List.foldl_cons, hplace]
          rfl
        rw [ih _ h, collect_write_below hjoin hok, collect_createDirAll, hcons]
      case isFalse => cases h

end

/-! ## What is recorded -/

theorem startsMerkle_digestLike (H : Hash) (digest : Text) (files : FileMap) :
    startsMerkle (digestLike H digest files) = startsMerkle digest := by
  rw [digestLike]
  split
  case isTrue h =>
    rw [h, startsMerkle, Hash.computeMerkleRoot]
    split <;> rfl
  case isFalse h =>
    rw [Bool.eq_false_iff.mpr h]
    rfl

theorem recordedDigest_eq (H : Hash) (digest : Text) (files : FileMap) :
    recordedDigest H digest files = digestLike H digest files := by
  rw [recordedDigest, digestLike]
  by_cases hm : startsMerkle digest = true
  · simp only [if_pos hm]
    split
    · assumption
    · rfl
  · simp only [if_neg hm]
    split
    case isTrue h => exact h.2
    case isFalse => rfl

theorem lookup_orderedInsert {β : Type} {r : Text × β → Text × β → Prop} [DecidableRel r] {name key : Text}
    {v : β} {l : List (Text × β)} (h : name ∉ l.map Prod.fst) :
    (l.orderedInsert r (name, v)).lookup key = if key = name then some v else l.lookup key := by
  have hcons : ∀ l : List (Text × β),
      ((name, v) :: l).lookup key = if key = name then some v else l.lookup key := by
    intro l
    rw [List.lookup_cons]
    by_cases hk : key = name
    · rw [if_pos hk, hk, beq_self_eq_true]
    · rw [if_neg hk, beq_false_of_ne hk]
  induction l with
  | nil => exact hcons []
  | cons e l ih =>
    rw [List.map_cons, List.mem_cons, not_or] at h
    rw [List.orderedInsert_cons]
    split
    · exact hcons _
    · rw [List.lookup_cons, List.lookup_cons, ih h.2]
      by_cases hk : key = name
      · rw [if_pos hk, if_pos hk, beq_false_of_ne (hk ▸ h.1)]
      · rw [if_neg hk, if_neg hk]

theorem lookup_insertOrUpdate (lock : DataraLock) (name key : Text) (p : LockedPackage) :
    (lock.insertOrUpdate name p).packages.lookup key =
      if key = name then some p else lock.packages.lookup key := by
  have hnot : name ∉ (lock.packages.filter (·.1 ≠ name)).map Prod.fst := by
    intro h
    obtain ⟨e, he, hname⟩ := List.mem_map.mp h
    exact absurd hname (by simpa using (List.mem_filter.mp he).2)
  rw [DataraLock.insertOrUpdate, lookup_orderedInsert hnot]
  split
  · rfl
  · exact lookup_filter_ne ‹_› _

/-- The texts of the package manager are read as they were written. -/
structure Codec.Lawful (codec : Codec) : Prop where
  lock : ∀ lock t, codec.lockText lock = some t → codec.parseLock t = some lock
  version : ∀ pkg t p, codec.metaText pkg = some t → codec.parseMeta t = some p → p.version = pkg.version

/-- The project's lock file has the entries of a lock. -/
def LockIs (codec : Codec) (root : Loc) (lock : DataraLock) (fs : Fs) : Prop :=
  ∃ saved, loadLock codec root fs = some saved ∧
    ∀ name, saved.packages.lookup name = lock.packages.lookup name

/-- The metadata file of an installed package. -/
def metaLoc (root : Loc) (name : Text) : Loc := joinLoc (projectDir root name) "package.json".toList

/-- **A locked package is restored**: its directory is there, its files have the locked digest (in the
lock's own scheme), and no other version is recorded with them. -/
structure Restored (H : Hash) (codec : Codec) (root : Loc) (name : Text) (locked : LockedPackage)
    (fs : Fs) : Prop where
  dir : fs.exists? (projectDir root name) = true
  digest : digestLike H locked.digest (fs.collect (projectDir root name)) = locked.digest
  version : ∀ t p, fs.read (metaLoc root name) = some t → codec.parseMeta t = some p →
    p.version = locked.version

/-- **A package is the locked one.** -/
structure IsLocked (H : Hash) (pkg : Package) (name : Text) (locked : LockedPackage) : Prop where
  name : pkg.name = name
  version : pkg.version = locked.version
  dependencies : pkg.dependencies = locked.dependencies
  digest : digestLike H pkg.digest pkg.linkedFiles = locked.digest
  metadata : ∀ f ∈ pkg.files.entries, placeBelow f.1 ≠ some ["package.json".toList]

/-! ## Places apart -/

/-- Neither place is above the other. -/
def Apart (a b : Loc) : Prop := ¬a <:+ b ∧ ¬b <:+ a

instance (a b : Loc) : Decidable (Apart a b) := inferInstanceAs (Decidable (¬a <:+ b ∧ ¬b <:+ a))

theorem suffix_of_under {dir l : Loc} (h : Under dir l) : dir <:+ l := by
  obtain ⟨ns, rfl, -⟩ := h
  exact List.suffix_append ns dir

theorem Apart.outside {a b l : Loc} (h : Apart a b) (hl : Under b l) : ¬a <:+ l := by
  intro ha
  exact (List.suffix_or_suffix_of_suffix ha (suffix_of_under hl)).elim h.1 h.2

/-- The places an installation writes. -/
def InstallPlace (store root : Loc) (name version : Text) (l : Loc) : Prop :=
  FilePlace (casDir store name version) l ∨ FilePlace (projectDir root name) l ∨ RecordPlace root l

/-- A directory apart from all that an installation writes. -/
structure ApartFrom (store root : Loc) (name version : Text) (dir : Loc) : Prop where
  cas : Apart dir (casDir store name version)
  project : Apart dir (projectDir root name)
  manifest : Apart dir (manifestLoc root)
  lock : Apart dir (lockLoc root)

theorem ApartFrom.outside {store root dir : Loc} {name version : Text}
    (h : ApartFrom store root name version dir) :
    ∀ l, InstallPlace store root name version l → ¬dir <:+ l := by
  intro l hl
  rcases hl with hl | hl | hl | hl
  · exact h.cas.outside hl.under
  · exact h.project.outside hl.under
  · exact hl ▸ h.manifest.1
  · exact hl ▸ h.lock.1

theorem Touches.outside {S : Loc → Prop} {fs fs' : Fs} {dir l : Loc} (h : Touches S fs fs')
    (hdir : ∀ l, S l → ¬dir <:+ l) (hl : dir <:+ l) :
    fs'.read l = fs.read l ∧ fs'.exists? l = fs.exists? l := by
  have hread : fs'.read l = fs.read l := h.kept l fun hs => hdir l hs hl
  have hdirs : fs'.dirs.contains l = fs.dirs.contains l := by
    rw [Bool.eq_iff_iff, List.contains_iff_mem, List.contains_iff_mem]
    refine ⟨fun hm => (h.made l hm).resolve_right ?_, h.dirs l⟩
    rintro ⟨l', hl', hsuffix⟩
    exact hdir l' hl' (hl.trans hsuffix)
  exact ⟨hread, by rw [Fs.exists?, Fs.exists?, hread, hdirs]⟩

/-! ## One installation -/

section
variable {io : Io} {codec : Codec} {H : Hash} {store root : Loc} {pkg : Package} {source name : Text}
  {locked : LockedPackage} {lock : DataraLock} {fs fs' : Fs} {loc : Loc}

theorem installWithSource_ok {dir : Loc}
    (h : installWithSource io codec H store root pkg source fs = (.ok dir, fs')) :
    ∃ fs₁ fs₂, installCas io codec store pkg fs = (.ok (), fs₁) ∧
      installProject io codec root pkg fs₁ = (.ok (), fs₂) ∧
      fs' = recordInstall io codec H root pkg source fs₂ := by
  rw [installWithSource] at h
  split at h
  case isFalse => cases h
  case isTrue =>
    cases hc : installCas io codec store pkg fs with
    | mk res fs₁ =>
      rw [hc] at h
      cases res with
      | error e => cases h
      | ok u =>
        cases hp : installProject io codec root pkg fs₁ with
        | mk res fs₂ =>
          simp only [hp] at h
          cases res with
          | error e => cases h
          | ok u => exact ⟨fs₁, fs₂, rfl, hp, (Prod.mk.inj h).2.symm⟩

theorem touches_installWithSource {dir : Loc}
    (h : installWithSource io codec H store root pkg source fs = (.ok dir, fs')) :
    Touches (InstallPlace store root pkg.name pkg.version) fs fs' := by
  obtain ⟨fs₁, fs₂, hcas, hproj, rfl⟩ := installWithSource_ok h
  have hcas : Touches _ fs fs₁ := (congrArg Prod.snd hcas) ▸ touches_installCas store pkg fs
  have hproj : Touches _ fs₁ fs₂ := (congrArg Prod.snd hproj) ▸ touches_installProject root pkg fs₁
  exact (hcas.mono fun _ => .inl).trans ((hproj.mono fun _ hl => .inr (.inl hl)).trans
    ((touches_recordInstall root pkg source fs₂).mono fun _ hl => .inr (.inr hl)))

theorem read_installFiles {dir : Loc} (files : List (Text × Text))
    (h : ∀ f ∈ files, ∀ safe, sanitizePackageRelPath f.1 = some safe → joinLoc dir safe ≠ loc) :
    (installFiles io dir name failed files fs).2.read loc = fs.read loc := by
  induction files generalizing fs with
  | nil => rfl
  | cons f files ih =>
    rw [installFiles]
    cases hsafe : sanitizePackageRelPath f.1 with
    | none => rfl
    | some safe =>
      have hwrite : (((fs.createDirAll io (joinLoc dir safe).tail).2.write io (joinLoc dir safe) f.2).2).read
          loc = fs.read loc := by
        rw [touches_write.kept loc (h f List.mem_cons_self safe hsafe).symm, read_createDirAll]
      simp only
      split
      · rw [ih fun f hf => h f (List.mem_cons_of_mem _ hf), hwrite]
      · exact hwrite

theorem collect_metadata {dir : Loc} {text : Option Text} (h : loc = ["package.json".toList] ++ dir) :
    (writeIf io loc text fs).collect dir = fs.collect dir := by
  cases text with
  | none => rfl
  | some t =>
    show (fs.write io loc t).2.collect dir = _
    by_cases hok : (fs.write io loc t).1 = true
    · rw [collect_write_below h hok]
      rfl
    · rw [Fs.collect_eq, files_write_failed hok, Fs.collect_eq]

theorem text_of_read_writeIf {text : Option Text} {t : Text} (hnone : fs.read loc = none)
    (h : (writeIf io loc text fs).read loc = some t) : text = some t := by
  cases text with
  | none => exact absurd (hnone.symm.trans h) nofun
  | some u =>
    by_cases hok : (fs.write io loc u).1 = true
    · exact (read_write hok).symm.trans h
    · have hsame : (fs.write io loc u).2.read loc = fs.read loc := by
        rw [Fs.read, files_write_failed hok, Fs.read]
      exact absurd ((hsame.trans hnone).symm.trans h) nofun

/-- **The project's directory** after its half of an installation. -/
theorem installProject_ok (hfresh : fs.collect (projectDir root pkg.name) = .none)
    (hmeta : fs.read (metaLoc root pkg.name) = none)
    (hfiles : ∀ f ∈ pkg.files.entries, placeBelow f.1 ≠ some ["package.json".toList])
    (h : installProject io codec root pkg fs = (.ok (), fs')) :
    fs'.exists? (projectDir root pkg.name) = true ∧
      fs'.collect (projectDir root pkg.name) = pkg.linkedFiles ∧
      ∀ t, fs'.read (metaLoc root pkg.name) = some t → codec.metaText pkg = some t := by
  set dir := projectDir root pkg.name with hdir
  have hjson : joinLoc dir "package.json".toList = ["package.json".toList] ++ dir := rfl
  rw [installProject, ← hdir] at h
  split at h
  case isFalse => cases h
  case isTrue hmade =>
    set made := (fs.createDirAll io dir).2 with hmadeEq
    set fs₀ := writeIf io (joinLoc dir "package.json".toList) (codec.metaText pkg) made with hfs₀
    have hout : (installFiles io dir pkg.name .writeProject pkg.files.entries fs₀).2 = fs' :=
      congrArg Prod.snd h
    have hlinked : Touches (FilePlace dir) fs₀ fs' :=
      hout ▸ touches_installFiles pkg.name .writeProject pkg.files.entries fs₀
    have hwritten : Touches (· = joinLoc dir "package.json".toList) made fs₀ := touches_writeIf
    refine ⟨?_, ?_, fun t ht => ?_⟩
    · have hin : dir ∈ fs'.dirs := hlinked.dirs dir (hwritten.dirs dir (mem_createDirAll hmade))
      rw [Fs.exists?, List.contains_iff_mem.mpr hin, Bool.true_or]
    · rw [collect_installFiles _ _ h, hfs₀, collect_metadata hjson, hmadeEq, collect_createDirAll, hfresh]
      rfl
    · have hread : fs'.read (metaLoc root pkg.name) = fs₀.read (metaLoc root pkg.name) := by
        rw [← hout]
        apply read_installFiles
        intro f hf safe hsafe he
        obtain ⟨hplace, hjoin⟩ := joinLoc_of_placeBelow hsafe
        refine hfiles f hf (hplace.trans (congrArg some ?_))
        exact List.append_cancel_right (hjoin.symm.trans he)
      exact text_of_read_writeIf ((read_createDirAll _).trans hmeta) (hread.symm.trans ht)

/-- The places of a locked package in the store and in the project. -/
def zones (store root : Loc) (e : Text × LockedPackage) : List Loc :=
  [casDir store e.1 e.2.version, projectDir root e.1]

/-- **The locked packages' places are apart**, also from the project's records. -/
structure Layout (store root : Loc) (packages : List (Text × LockedPackage)) : Prop where
  own : ∀ e ∈ packages, Apart (casDir store e.1 e.2.version) (projectDir root e.1)
  records : ∀ e ∈ packages, ∀ z ∈ zones store root e, Apart z (manifestLoc root) ∧ Apart z (lockLoc root)
  others : ∀ e ∈ packages, ∀ e' ∈ packages, e.1 ≠ e'.1 →
    ∀ z ∈ zones store root e, ∀ z' ∈ zones store root e', Apart z z'

theorem Layout.apartFrom {packages : List (Text × LockedPackage)} (hl : Layout store root packages)
    {e e' : Text × LockedPackage} (he : e ∈ packages) (he' : e' ∈ packages) (hne : e.1 ≠ e'.1) {z : Loc}
    (hz : z ∈ zones store root e) : ApartFrom store root e'.1 e'.2.version z where
  cas := hl.others e he e' he' hne z hz _ List.mem_cons_self
  project := hl.others e he e' he' hne z hz _ (List.mem_cons_of_mem _ List.mem_cons_self)
  manifest := (hl.records e he z hz).1
  lock := (hl.records e he z hz).2

theorem project_mem_zones (store root : Loc) (e : Text × LockedPackage) :
    projectDir root e.1 ∈ zones store root e := List.mem_cons_of_mem _ List.mem_cons_self

theorem Apart.symm {a b : Loc} (h : Apart a b) : Apart b a := ⟨h.2, h.1⟩

theorem metaLoc_below (root : Loc) (name : Text) : projectDir root name <:+ metaLoc root name :=
  List.suffix_cons _ _

/-- **Recording the locked package** leaves the lock's entries. -/
theorem lockIs_recordInstall (hlaw : codec.Lawful) (hlock : LockIs codec root lock fs)
    (hentry : lock.packages.lookup name = some locked) (hp : IsLocked H pkg name locked)
    (hsource : source = locked.source)
    (hmanifest : ¬projectDir root name <:+ manifestLoc root)
    (hlinked : fs.collect (projectDir root name) = pkg.linkedFiles) :
    LockIs codec root lock (recordInstall io codec H root pkg source fs) := by
  obtain ⟨saved, hload, hsaved⟩ := hlock
  obtain ⟨hname, hversion, hdeps, hdigest, -⟩ := hp
  set fs₁ := updateManifest io codec root pkg.name pkg.version fs
  have htouch : Touches (· = manifestLoc root) fs fs₁ := touches_writeIf
  have hne : lockLoc root ≠ manifestLoc root := by
    rw [(recordLoc_eq root).1, (recordLoc_eq root).2]
    exact fun h => absurd (List.cons.inj h).1 (by decide)
  have hload₁ : loadLock codec root fs₁ = some saved := by
    rw [loadLock, htouch.kept _ hne]
    exact hload
  have hcollect : fs₁.collect (projectDir root name) = pkg.linkedFiles := by
    rw [htouch.collected _ fun l hl => hl ▸ hmanifest]
    exact hlinked
  -- the entry that is recorded is the one that is there
  have hrecord : (⟨pkg.version, recordedDigest H pkg.digest (fs₁.collect (projectDir root pkg.name)),
      source, pkg.dependencies⟩ : LockedPackage) = locked := by
    rw [hname, hcollect, recordedDigest_eq, hdigest, hversion, hdeps, hsource]
  have hnew : ∀ key, (saved.insertOrUpdate name locked).packages.lookup key = lock.packages.lookup key := by
    intro key
    rw [lookup_insertOrUpdate]
    split
    case isTrue hk => rw [hk, hentry]
    case isFalse => exact hsaved key
  have hout : recordInstall io codec H root pkg source fs =
      writeIf io (lockLoc root) (codec.lockText (saved.insertOrUpdate name locked)) fs₁ := by
    show writeIf io (lockLoc root) (codec.lockText (((loadLock codec root fs₁).getD {}).insertOrUpdate
      pkg.name ⟨pkg.version, recordedDigest H pkg.digest (fs₁.collect (projectDir root pkg.name)),
        source, pkg.dependencies⟩)) fs₁ = _
    rw [hrecord, hload₁, Option.getD_some, hname]
  rw [hout]
  clear_value fs₁
  cases ht : codec.lockText (saved.insertOrUpdate name locked) with
  | none => exact ⟨saved, hload₁, hsaved⟩
  | some t =>
    show LockIs codec root lock (fs₁.write io (lockLoc root) t).2
    by_cases hok : (fs₁.write io (lockLoc root) t).1 = true
    · refine ⟨_, ?_, hnew⟩
      rw [loadLock, read_write hok]
      exact hlaw.lock _ t ht
    · refine ⟨saved, ?_, hsaved⟩
      rw [loadLock, Fs.read, files_write_failed hok]
      exact hload₁

/-- **The locked package, installed where nothing is,** is restored. -/
theorem restored_of_install {dir : Loc} {packages : List (Text × LockedPackage)} (hlaw : codec.Lawful)
    (hl : Layout store root packages) (hmem : (name, locked) ∈ packages)
    (hentry : lock.packages.lookup name = some locked)
    (hfresh : fs.collect (projectDir root name) = .none) (hmeta : fs.read (metaLoc root name) = none)
    (hlock : LockIs codec root lock fs) (hp : IsLocked H pkg name locked)
    (h : installWithSource io codec H store root pkg locked.source fs = (.ok dir, fs')) :
    Restored H codec root name locked fs' ∧ LockIs codec root lock fs' := by
  obtain ⟨fs₁, fs₂, hcas, hproj, rfl⟩ := installWithSource_ok h
  have hname := hp.name
  have hversion := hp.version
  have hown := hl.own _ hmem
  have hproject := hl.records _ hmem _ (project_mem_zones store root (name, locked))
  have hstore := hl.records _ hmem _ (List.mem_cons_self (l := [projectDir root name]))
  have htouch₁ : Touches (FilePlace (casDir store name locked.version)) fs fs₁ := by
    have hout : (installCas io codec store pkg fs).2 = fs₁ := congrArg Prod.snd hcas
    rw [← hout, ← hname, ← hversion]
    exact touches_installCas store pkg fs
  have htouch₂ : Touches (FilePlace (projectDir root name)) fs₁ fs₂ := by
    have hout : (installProject io codec root pkg fs₁).2 = fs₂ := congrArg Prod.snd hproj
    rw [← hout, ← hname]
    exact touches_installProject root pkg fs₁
  have hnot₁ : ∀ l, FilePlace (casDir store name locked.version) l → ¬projectDir root name <:+ l :=
    fun l hl => hown.symm.outside hl.under
  -- the store's half leaves the project's directory empty
  obtain ⟨hread₁, -⟩ := htouch₁.outside hnot₁ (metaLoc_below root name)
  have hspec := installProject_ok (by rw [hname, htouch₁.collected _ hnot₁, hfresh])
    (by rw [hname, hread₁, hmeta]) hp.metadata hproj
  rw [hname] at hspec
  obtain ⟨hexists, hlinked, htext⟩ := hspec
  have htouch₃ : Touches (RecordPlace root) fs₂ (recordInstall io codec H root pkg locked.source fs₂) :=
    touches_recordInstall root pkg locked.source fs₂
  have hnot₃ : ∀ l, RecordPlace root l → ¬projectDir root name <:+ l := by
    rintro l (rfl | rfl)
    · exact hproject.1.1
    · exact hproject.2.1
  have hload : LockIs codec root lock fs₂ := by
    have hkept : fs₂.read (lockLoc root) = fs.read (lockLoc root) := by
      rw [htouch₂.kept _ fun hl => hproject.2.1 (suffix_of_under hl.under),
        htouch₁.kept _ fun hl => hstore.2.1 (suffix_of_under hl.under)]
    obtain ⟨saved, hsaved, hlookup⟩ := hlock
    refine ⟨saved, ?_, hlookup⟩
    rw [loadLock, hkept]
    exact hsaved
  refine ⟨⟨?_, ?_, fun t p ht hparse => ?_⟩,
    lockIs_recordInstall hlaw hload hentry hp rfl hproject.1.1 hlinked⟩
  · rw [(htouch₃.outside hnot₃ List.suffix_rfl).2]
    exact hexists
  · rw [htouch₃.collected _ hnot₃, hlinked, ← hp.digest, digestLike, startsMerkle_digestLike, ← digestLike]
  · rw [(htouch₃.outside hnot₃ (metaLoc_below root name)).1] at ht
    rw [hlaw.version pkg t p (htext t ht) hparse, hversion]

end

/-! ## Runs -/

/-- A directory and what is below it, in two states. -/
structure SameAt (dir : Loc) (fs fs' : Fs) : Prop where
  below : ∀ l, dir <:+ l → fs'.read l = fs.read l ∧ fs'.exists? l = fs.exists? l
  collected : fs'.collect dir = fs.collect dir

/-- Files are in directories. -/
def Fs.Tree (fs : Fs) : Prop := ∀ f ∈ fs.files, ∀ dir, dir <:+ f.1 → fs.exists? dir = true

section
variable {io : Io} {codec : Codec} {H : Hash} {net : Net} {reg : Registry} {root dir : Loc} {name : Text}
  {locked : LockedPackage} {lock : DataraLock} {fs fs' fs'' : Fs} {S : Loc → Prop}

theorem SameAt.refl : SameAt dir fs fs := ⟨fun _ _ => ⟨rfl, rfl⟩, rfl⟩

theorem SameAt.trans (h : SameAt dir fs fs') (h' : SameAt dir fs' fs'') : SameAt dir fs fs'' where
  below l hl := ⟨(h'.below l hl).1.trans (h.below l hl).1, (h'.below l hl).2.trans (h.below l hl).2⟩
  collected := h'.collected.trans h.collected

theorem Touches.sameAt (h : Touches S fs fs') (hdir : ∀ l, S l → ¬dir <:+ l) : SameAt dir fs fs' :=
  ⟨fun _ hl => h.outside hdir hl, h.collected dir hdir⟩

theorem Restored.of_sameAt (h : Restored H codec root name locked fs)
    (hsame : SameAt (projectDir root name) fs fs') : Restored H codec root name locked fs' where
  dir := (hsame.below _ List.suffix_rfl).2.trans h.dir
  digest := by
    rw [hsame.collected]
    exact h.digest
  version t p ht := h.version t p ((hsame.below _ (metaLoc_below root name)).1.symm.trans ht)

theorem Fs.Tree.fresh (h : fs.Tree) (hnot : fs.exists? dir = false) :
    fs.collect dir = .none ∧ ∀ l, dir <:+ l → fs.read l = none := by
  have hbelow : ∀ f ∈ fs.files, ¬dir <:+ f.1 := fun f hf hs => by
    rw [h f hf dir hs] at hnot
    cases hnot
  constructor
  · rw [Fs.collect_eq]
    generalize fs.files = files at hbelow
    induction files with
    | nil => rfl
    | cons f files ih =>
      rw [List.foldr_cons, collectStep_of_not_below (hbelow f List.mem_cons_self)]
      exact ih fun f hf => hbelow f (List.mem_cons_of_mem _ hf)
  · intro l hl
    rw [Fs.read, List.lookup_eq_none_iff]
    intro f hf
    rw [bne_iff_ne]
    rintro rfl
    exact hbelow f hf hl

variable (codec H net reg) in
/-- The package that is installed for a locked one whose directory is not there. -/
def pick (name : Text) (locked : LockedPackage) (fs : Fs) : Option Package :=
  match reg.lookup name with
  | some pkg => some pkg
  | none =>
    match cached codec reg name locked.version fs with
    | some pkg => some pkg
    | none => (net.fetchUrl locked.source).bind fun data => (accept codec H net locked.digest data).toOption

theorem cached_of_sameAt {version : Text} (h : SameAt (casDir reg.store name version) fs fs') :
    cached codec reg name version fs' = cached codec reg name version fs := by
  have hfile := h.below (joinLoc (casDir reg.store name version) "package.json".toList)
    (List.suffix_cons _ _)
  rw [cached, cached, cachedText, cachedText]
  simp only [hfile.1, hfile.2, (h.below _ List.suffix_rfl).2]

theorem installFetched_ok {pkg : Package} {source : Text} {loc : Loc}
    (h : installFetched io codec H reg root pkg source fs = (.ok loc, fs')) :
    installWithSource io codec H reg.store root pkg source fs = (.ok loc, fs') := by
  rw [installFetched, Prod.mk.injEq] at h
  cases hres : (installWithSource io codec H reg.store root pkg source fs).1 with
  | error e =>
    rw [hres] at h
    cases h.1
  | ok l =>
    rw [hres] at h
    have hl : l = loc := by injection h.1
    exact Prod.ext (by rw [hres, hl]) h.2

variable {version url expected : Text}

/-- **A fetch that succeeds** installs the package in the store, or what it accepts. -/
theorem fetch_ok {loc : Loc}
    (h : fetchAndInstallTarball io codec H net reg root name version url expected fs = (.ok loc, fs')) :
    ∃ pkg, installWithSource io codec H reg.store root pkg url fs = (.ok loc, fs') ∧
      (cached codec reg name version fs = some pkg ∨
        reg.offline = false ∧ cached codec reg name version fs = none ∧
          ∃ data, net.fetchUrl url = some data ∧ accept codec H net expected data = .ok pkg) := by
  rw [fetchAndInstallTarball] at h
  split at h
  case isTrue =>
    split at h
    case h_2 => cases h
    case h_1 text hc =>
      split at h
      case h_2 => cases h
      case h_1 pkg hp =>
        refine ⟨pkg, installFetched_ok h, .inl ?_⟩
        rw [cached, hc]
        exact hp
  case isFalse hoff =>
    split at h
    case h_1 pkg hc => exact ⟨pkg, installFetched_ok h, .inl hc⟩
    case h_2 hc =>
      rw [fetchAndInstall] at h
      split at h
      case h_1 => cases h
      case h_2 data hd =>
        split at h
        case h_1 => cases h
        case h_2 pkg hp =>
          exact ⟨pkg, installFetched_ok h, .inr ⟨Bool.eq_false_iff.mpr hoff, hc, data, hd, hp⟩⟩

variable {more : Bool}

theorem ok_of_renamed {α ε ε' : Type} {res : Except ε α} {f : ε → ε'}
    (h : (res.mapError f).map (fun _ => true) = .ok more) : ∃ a, res = .ok a := by
  cases res with
  | error e => cases h
  | ok a => exact ⟨a, rfl⟩

/-- **One locked package**: its directory is there, or what is picked is installed. -/
theorem restoreOne_ok
    (h : restoreOne io codec H net reg root name locked fs = (.ok more, fs')) :
    fs.exists? (projectDir root name) = true ∧ fs' = fs ∨
      fs.exists? (projectDir root name) = false ∧ ∃ pkg loc, pick codec H net reg name locked fs = some pkg ∧
        installWithSource io codec H reg.store root pkg locked.source fs = (.ok loc, fs') := by
  rw [restoreOne] at h
  split at h
  case isTrue hex => exact .inl ⟨hex, (Prod.mk.inj h).2.symm⟩
  case isFalse hex =>
    refine .inr ⟨Bool.eq_false_iff.mpr hex, ?_⟩
    split at h
    case h_1 pkg hlookup =>
      rw [Prod.mk.injEq] at h
      obtain ⟨loc, hres⟩ := ok_of_renamed h.1
      refine ⟨pkg, loc, ?_, Prod.ext hres h.2⟩
      rw [pick, hlookup]
    case h_2 hlookup =>
      split at h
      case isFalse => cases h
      case isTrue =>
        rw [Prod.mk.injEq] at h
        obtain ⟨loc, hres⟩ := ok_of_renamed h.1
        obtain ⟨pkg, hinstall, hsource⟩ := fetch_ok (Prod.ext hres h.2)
        refine ⟨pkg, loc, ?_, hinstall⟩
        rw [pick, hlookup]
        rcases hsource with hc | ⟨-, hc, data, hd, hp⟩
        · simp [hc]
        · simp only [hc, hd, Option.bind_some, hp]
          rfl

variable (codec H net reg root) in
/-- **A restoration is pinned**: the places are apart, every directory that is there holds what is
locked, and every package that is picked is the locked one. -/
structure Pinned (lock : DataraLock) (fs : Fs) : Prop where
  layout : Layout reg.store root lock.packages
  present : ∀ e ∈ lock.packages, fs.exists? (projectDir root e.1) = true →
    Restored H codec root e.1 e.2 fs
  picked : ∀ e ∈ lock.packages, fs.exists? (projectDir root e.1) = false →
    ∀ pkg, pick codec H net reg e.1 e.2 fs = some pkg → IsLocked H pkg e.1 e.2

/-- **One step** restores its package, and leaves the others' places. -/
theorem restoreOne_restored {fs₀ : Fs} {e : Text × LockedPackage} (hlaw : codec.Lawful)
    (htree : fs₀.Tree) (hnodup : (lock.packages.map Prod.fst).Nodup)
    (hpinned : Pinned codec H net reg root lock fs₀) (he : e ∈ lock.packages)
    (hsame : ∀ z ∈ zones reg.store root e, SameAt z fs₀ fs) (hlock : LockIs codec root lock fs)
    (h : restoreOne io codec H net reg root e.1 e.2 fs = (.ok more, fs')) :
    Restored H codec root e.1 e.2 fs' ∧ LockIs codec root lock fs' ∧
      ∀ e' ∈ lock.packages, e'.1 ≠ e.1 → ∀ z ∈ zones reg.store root e', SameAt z fs fs' := by
  have hproject := hsame _ (project_mem_zones reg.store root e)
  have hexists := (hproject.below _ List.suffix_rfl).2
  rcases restoreOne_ok h with ⟨hex, rfl⟩ | ⟨hnot, pkg, loc, hpick, hinstall⟩
  · exact ⟨(hpinned.present e he (hexists.symm.trans hex)).of_sameAt hproject, hlock,
      fun _ _ _ _ _ => .refl⟩
  · have hnot₀ : fs₀.exists? (projectDir root e.1) = false := hexists.symm.trans hnot
    have hpick₀ : pick codec H net reg e.1 e.2 fs₀ = some pkg := by
      rw [← hpick, pick, pick, cached_of_sameAt (hsame _ List.mem_cons_self)]
    have hlocked := hpinned.picked e he hnot₀ pkg hpick₀
    obtain ⟨hcollect, hread⟩ := htree.fresh hnot₀
    have hrestored := restored_of_install hlaw hpinned.layout he
      ((Library.lookup_eq_some_iff hnodup).mpr he) (hproject.collected.trans hcollect)
      ((hproject.below _ (metaLoc_below root e.1)).1.trans (hread _ (metaLoc_below root e.1)))
      hlock hlocked hinstall
    refine ⟨hrestored.1, hrestored.2, fun e' he' hne z hz => ?_⟩
    have htouch := touches_installWithSource hinstall
    rw [hlocked.name, hlocked.version] at htouch
    exact htouch.sameAt (hpinned.layout.apartFrom he' he hne hz).outside

/-- **The loop**, from a state in which the places of what is left are as they were. -/
theorem restoreAll_restored {fs₀ : Fs} (hlaw : codec.Lawful) (htree : fs₀.Tree)
    (hnodup : (lock.packages.map Prod.fst).Nodup) (hpinned : Pinned codec H net reg root lock fs₀)
    (rest : List (Text × LockedPackage)) (hrest : ∀ e ∈ rest, e ∈ lock.packages)
    (hkeys : (rest.map Prod.fst).Nodup)
    (hsame : ∀ e ∈ rest, ∀ z ∈ zones reg.store root e, SameAt z fs₀ fs)
    (hlock : LockIs codec root lock fs) {restored n : Nat}
    (h : restoreAll io codec H net reg root rest restored fs = (.ok n, fs')) :
    (∀ e ∈ rest, Restored H codec root e.1 e.2 fs') ∧ LockIs codec root lock fs' ∧
      ∀ e ∈ lock.packages, e.1 ∉ rest.map Prod.fst → ∀ z ∈ zones reg.store root e, SameAt z fs fs' := by
  induction rest generalizing restored fs with
  | nil =>
    cases h
    exact ⟨nofun, hlock, fun _ _ _ _ _ => .refl⟩
  | cons e rest ih =>
    rw [restoreAll] at h
    rw [List.map_cons, List.nodup_cons] at hkeys
    have he := hrest e List.mem_cons_self
    split at h
    case h_1 => cases h
    case h_2 more fs₁ hone =>
      obtain ⟨hdone, hlock₁, hframe⟩ := restoreOne_restored hlaw htree hnodup hpinned he
        (hsame e List.mem_cons_self) hlock hone
      have hne : ∀ e' ∈ rest, e'.1 ≠ e.1 := fun e' he' h' => hkeys.1 (h' ▸ List.mem_map_of_mem he')
      obtain ⟨hall, hlock', hframe'⟩ := ih (fun e' he' => hrest e' (List.mem_cons_of_mem _ he')) hkeys.2
        (fun e' he' z hz => (hsame e' (List.mem_cons_of_mem _ he') z hz).trans
          (hframe e' (hrest e' (List.mem_cons_of_mem _ he')) (hne e' he') z hz)) hlock₁ h
      refine ⟨fun e' he' => ?_, hlock', fun e' he' hnot z hz => ?_⟩
      · rcases List.mem_cons.mp he' with rfl | he'
        · exact hdone.of_sameAt (hframe' _ he hkeys.1 _ (project_mem_zones reg.store root _))
        · exact hall e' he'
      · rw [List.map_cons, List.mem_cons, not_or] at hnot
        exact (hframe e' he' hnot.1 z hz).trans (hframe' e' he' hnot.2 z hz)

/-! ## Fetches -/

/-- A package that can be installed. -/
def Installable (pkg : Package) : Prop :=
  isValidPackageName pkg.name = true ∧ ∀ f ∈ pkg.files.entries, (sanitizePackageRelPath f.1).isSome

/-- The files have the expected digest, in one scheme or the other. -/
def FilesMatch (H : Hash) (expected : Text) (files : FileMap) : Prop :=
  eqIgnoreAsciiCase (cleanDigest (H.computeDigest files)) (cleanDigest expected) = true ∨
    eqIgnoreAsciiCase (cleanDigest (H.computeMerkleRoot files)) (cleanDigest expected) = true

/-- What was fetched has the expected digest: the bytes, or the files of the package they hold. -/
def Verified (codec : Codec) (H : Hash) (net : Net) (url expected : Text) : Prop :=
  ∃ data, net.fetchUrl url = some data ∧ (tarMatches net expected data = true ∨
    ∃ pkg, packageFromTar codec H net data = some pkg ∧ FilesMatch H expected pkg.files)

/-- **What can be installed unchecked has the digest all the same**: a package in the store, and one
whose archive declares the expected digest. -/
structure Vouched (codec : Codec) (H : Hash) (net : Net) (reg : Registry) (name version url expected : Text)
    (fs : Fs) : Prop where
  cached : ∀ pkg, cached codec reg name version fs = some pkg → Installable pkg →
    Verified codec H net url expected
  declared : reg.offline = false → Project.cached codec reg name version fs = none →
    ∀ data pkg, net.fetchUrl url = some data → packageFromTar codec H net data = some pkg →
      Installable pkg → tarMatches net expected data = false →
        eqIgnoreAsciiCase (cleanDigest pkg.digest) (cleanDigest expected) = true →
          FilesMatch H expected pkg.files

theorem installFiles_fine (files : List (Text × Text)) (fs : Fs)
    (h : ∀ f ∈ files, (sanitizePackageRelPath f.1).isSome) :
    (installFiles .fine dir name failed files fs).1 = .ok () := by
  induction files generalizing fs with
  | nil => rfl
  | cons f files ih =>
    obtain ⟨safe, hsafe⟩ := Option.isSome_iff_exists.mp (h f List.mem_cons_self)
    rw [installFiles]
    simp only [hsafe, Fs.write_fine, if_true]
    exact ih _ fun f hf => h f (List.mem_cons_of_mem _ hf)

theorem installWithSource_fine {pkg : Package} {source : Text} (h : Installable pkg) :
    ∃ loc fs', installWithSource .fine codec H reg.store root pkg source fs = (.ok loc, fs') := by
  rw [installWithSource, if_pos h.1]
  have hcas : (installCas .fine codec reg.store pkg fs).1 = .ok () := by
    simp only [installCas, Fs.createDirAll_fine, if_true]
    exact installFiles_fine _ _ h.2
  cases hc : installCas .fine codec reg.store pkg fs with
  | mk res fs₁ =>
    rw [hc] at hcas
    obtain rfl := hcas
    have hproj : (installProject .fine codec root pkg fs₁).1 = .ok () := by
      simp only [installProject, Fs.createDirAll_fine, if_true]
      exact installFiles_fine _ _ h.2
    cases hp : installProject .fine codec root pkg fs₁ with
    | mk res fs₂ =>
      rw [hp] at hproj
      obtain rfl := hproj
      simp only [hp]
      exact ⟨_, _, rfl⟩

theorem safe_of_installFiles_ok (files : List (Text × Text)) (fs : Fs)
    {fs' : Fs} (h : installFiles io dir name failed files fs = (.ok (), fs')) :
    ∀ f ∈ files, (sanitizePackageRelPath f.1).isSome := by
  induction files generalizing fs with
  | nil => exact nofun
  | cons f files ih =>
    rw [installFiles] at h
    split at h
    case h_1 => cases h
    case h_2 safe hsafe =>
      simp only at h
      split at h
      case isFalse => cases h
      case isTrue =>
        intro g hg
        rcases List.mem_cons.mp hg with rfl | hg
        · rw [hsafe]
          rfl
        · exact ih _ h g hg

theorem installable_of_ok {pkg : Package} {source : Text} {loc : Loc}
    (h : installWithSource io codec H reg.store root pkg source fs = (.ok loc, fs')) : Installable pkg := by
  have hname : isValidPackageName pkg.name = true := by
    rw [installWithSource] at h
    split at h
    · assumption
    · cases h
  obtain ⟨fs₁, fs₂, -, hproj, -⟩ := installWithSource_ok h
  rw [installProject] at hproj
  split at hproj
  case isTrue => exact ⟨hname, safe_of_installFiles_ok _ _ hproj⟩
  case isFalse => cases hproj

theorem accept_ok {expected : Text} {data : Bytes} {pkg : Package} (hne : expected ≠ []) :
    accept codec H net expected data = .ok pkg ↔ packageFromTar codec H net data = some pkg ∧
      (tarMatches net expected data = true ∨
        eqIgnoreAsciiCase (cleanDigest pkg.digest) (cleanDigest expected) = true) := by
  have hempty : expected.isEmpty = false := List.isEmpty_eq_false_iff.mpr hne
  rw [accept]
  cases packageFromTar codec H net data with
  | none =>
    refine ⟨fun h => ?_, fun h => absurd h.1 nofun⟩
    simp only at h
    split at h <;> cases h
  | some p =>
    simp only [hempty, Bool.not_false, Bool.true_and, Bool.and_eq_true, Bool.not_eq_true', Option.some.injEq]
    split
    case isTrue h =>
      refine ⟨nofun, ?_⟩
      rintro ⟨rfl, ht | ht⟩
      · rw [h.1] at ht
        cases ht
      · rw [h.2] at ht
        cases ht
    case isFalse h =>
      rw [Except.ok.injEq]
      refine ⟨?_, fun h => h.1⟩
      rintro rfl
      refine ⟨rfl, ?_⟩
      by_contra hnot
      rw [not_or, Bool.not_eq_true, Bool.not_eq_true] at hnot
      exact h hnot

theorem fetch_of_source {pkg : Package}
    (h : cached codec reg name version fs = some pkg ∨
      reg.offline = false ∧ cached codec reg name version fs = none ∧
        ∃ data, net.fetchUrl url = some data ∧ accept codec H net expected data = .ok pkg) :
    fetchAndInstallTarball io codec H net reg root name version url expected fs =
      installFetched io codec H reg root pkg url fs := by
  rw [fetchAndInstallTarball]
  rcases h with hc | ⟨hoff, hc, data, hd, hp⟩
  · split
    case isFalse => simp only [hc]
    case isTrue =>
      rw [cached] at hc
      cases ht : cachedText reg name version fs with
      | none =>
        rw [ht] at hc
        cases hc
      | some text =>
        rw [ht] at hc
        have hc : text.bind codec.parseMeta = some pkg := hc
        simp [hc]
  · rw [if_neg (by rw [hoff]; exact Bool.false_ne_true), hc]
    simp [fetchAndInstall, hd, hp]

/-- **A fetch is checked** exactly where what it can install unchecked has the digest. -/
theorem checked_iff_vouched (hne : expected ≠ []) :
    (∀ io loc fs', fetchAndInstallTarball io codec H net reg root name version url expected fs =
        (.ok loc, fs') → Verified codec H net url expected) ↔
      Vouched codec H net reg name version url expected fs := by
  constructor
  · intro h
    have verified : ∀ pkg, Installable pkg → (cached codec reg name version fs = some pkg ∨
        reg.offline = false ∧ cached codec reg name version fs = none ∧
          ∃ data, net.fetchUrl url = some data ∧ accept codec H net expected data = .ok pkg) →
        Verified codec H net url expected := by
      intro pkg hpkg hsource
      obtain ⟨loc, fs', hinstall⟩ := @installWithSource_fine codec H reg root fs _ url hpkg
      refine h .fine loc fs' ?_
      rw [fetch_of_source hsource, installFetched, hinstall]
      rfl
    refine ⟨fun pkg hc hpkg => verified pkg hpkg (.inl hc),
      fun hoff hc data pkg hd hp hpkg htar hclaim => ?_⟩
    obtain ⟨data', hd', hmatch⟩ := verified pkg hpkg
      (.inr ⟨hoff, hc, data, hd, (accept_ok hne).mpr ⟨hp, .inr hclaim⟩⟩)
    cases hd.symm.trans hd'
    rcases hmatch with hmatch | ⟨pkg', hp', hmatch⟩
    · rw [htar] at hmatch
      cases hmatch
    · cases hp.symm.trans hp'
      exact hmatch
  · intro hv io loc fs' h
    obtain ⟨pkg, hinstall, hsource⟩ := fetch_ok h
    have hpkg := installable_of_ok hinstall
    rcases hsource with hc | ⟨hoff, hc, data, hd, haccept⟩
    · exact hv.cached pkg hc hpkg
    · obtain ⟨hp, hcheck⟩ := (accept_ok hne).mp haccept
      refine ⟨data, hd, ?_⟩
      cases htar : tarMatches net expected data with
      | true => exact .inl rfl
      | false =>
        rw [htar] at hcheck
        exact .inr ⟨pkg, hp, hv.declared hoff hc data pkg hd hp hpkg htar (hcheck.resolve_left nofun)⟩

end

/-- SHA-256 on the file of the package and on the empty message. -/
def Hash.libSample : Hash where
  hexdigest m :=
    if m = "lib.dtr:x;".toList then "ff50a73cd39bd4ac378e365889512bb21fb83dc0b666c8618bdc8de746bf4806".toList
    else Hash.unary.hexdigest m
  hex m := by
    split
    · decide
    · exact Hash.unary.hex m
  empty := rfl

/-- One file, in one version. -/
def libPackage (version : Text) : Package :=
  ⟨"lib".toList, version, [], [], ⟨[("lib.dtr".toList, ['x'])], by decide⟩⟩

def libLocked (version : Text) : LockedPackage :=
  ⟨version, "sha256:ff50a73cd39bd4ac378e365889512bb21fb83dc0b666c8618bdc8de746bf4806".toList,
    "registry".toList, []⟩

def libLock (version : Text) : DataraLock := ⟨1, [("lib".toList, libLocked version)]⟩

/-- Two locks and the versions of packages as texts. -/
def Codec.sample : Codec where
  metaText pkg := some pkg.version
  parseMeta t := some ⟨[], t, [], [], .none⟩
  lockText lock :=
    if lock.version = 1 ∧ lock.packages = (libLock "1.0".toList).packages then some "1.0".toList
    else if lock.version = 1 ∧ lock.packages = (libLock "2.0".toList).packages then some "2.0".toList
    else none
  parseLock t := if t = "1.0".toList ∨ t = "2.0".toList then some (libLock t) else none
  editManifest _ _ _ := none

theorem Codec.sample_lawful : Codec.sample.Lawful where
  lock lock t h := by
    obtain ⟨version, packages⟩ := lock
    simp only [Codec.sample] at h ⊢
    split at h
    case isTrue hl =>
      obtain ⟨rfl, rfl⟩ := hl
      cases h
      rfl
    case isFalse =>
      split at h
      case isTrue hl =>
        obtain ⟨rfl, rfl⟩ := hl
        cases h
        rfl
      case isFalse => cases h
  version pkg t p h hp := by
    cases h
    cases hp
    rfl

/-- A lock file and no packages. -/
def libFs (version : Text) : Fs := ⟨[(lockLoc ["proj".toList], version)], [[], ["proj".toList]], [], 0⟩

theorem libFs_tree (version : Text) : (libFs version).Tree := by
  intro f hf dir hdir
  obtain rfl := List.mem_singleton.mp hf
  have hdir := (List.mem_tails _ _).mpr hdir
  have htails : (lockLoc ["proj".toList]).tails =
      [lockLoc ["proj".toList], ["proj".toList], []] := by decide
  rw [htails] at hdir
  rcases List.mem_cons.mp hdir with rfl | hdir
  · rfl
  rcases List.mem_cons.mp hdir with rfl | hdir
  · rfl
  · obtain rfl := List.mem_singleton.mp hdir
    rfl

def libNet : Net := ⟨fun _ => none, fun _ => [], fun _ => none, fun _ => none⟩

/-- A registry that has the package in one version. -/
def libRegistry (version : Text) : Registry :=
  ⟨[("lib".toList, libPackage version)], ["store".toList], false⟩

/-- The state after the package is restored. -/
def libRestored (locked registered : Text) : Except RestoreError Nat × Fs :=
  (libLock locked).restore .fine .sample .libSample libNet (libRegistry registered) ["proj".toList]
    (libFs locked)

theorem libLock_pinned : Pinned .sample .libSample libNet (libRegistry "1.0".toList) ["proj".toList]
    (libLock "1.0".toList) (libFs "1.0".toList) where
  layout := by
    constructor
    · decide
    · decide
    · decide
  present e he hex := by
    obtain rfl := List.mem_singleton.mp he
    exact absurd hex (by decide)
  picked e he _ pkg hpick := by
    obtain rfl := List.mem_singleton.mp he
    cases hpick
    exact ⟨rfl, rfl, rfl, by decide, by decide⟩

end Datara.Project
