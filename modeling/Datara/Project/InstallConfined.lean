import Datara.Project.DigestIdentifies
import Datara.Project.Install
import Mathlib.Algebra.Order.BigOperators.Group.List
import Mathlib.Data.List.Infix

/-!
# Where an installation writes

What each step of an installation touches (`Touches`), composed along `install_with_source`. Names and
file paths are sanitized and lead below the directory they are joined to; the version is not. The
installation stays below the package's directories exactly for the versions of `VersionConfined`
(`install_confined_iff`). An extraction stays below its destination.
-/

namespace Datara.Project

open Library.LexicalPath

/-! ## What a step touches -/

/-- Between two states of the file system only places of a set are written, and directories above
them made. -/
structure Touches (S : Loc → Prop) (fs fs' : Fs) : Prop where
  written : ∃ new, fs'.written = new ++ fs.written ∧ ∀ l ∈ new, S l
  kept : ∀ l, ¬S l → fs'.read l = fs.read l
  dirs : ∀ d ∈ fs.dirs, d ∈ fs'.dirs
  made : ∀ d ∈ fs'.dirs, d ∈ fs.dirs ∨ ∃ l, S l ∧ d <:+ l
  collected : ∀ dir, (∀ l, S l → ¬dir <:+ l) → fs'.collect dir = fs.collect dir

/-- A file that `collect_files_recursive` adds. -/
def collectStep (dir : Loc) (f : Loc × Text) (m : FileMap) : FileMap :=
  match below dir f.1 with
  | some (file :: dirs) =>
    if isDtr file && dirs.all (fun d => !isSkipped d) then m.insert (relText (file :: dirs)) f.2 else m
  | _ => m

theorem below_eq_some {dir loc : Loc} {names : List Segment} : below dir loc = some names ↔ loc = names ++ dir := by
  rw [below, List.dropSuffix?_eq_some_iff]
  constructor
  · rintro ⟨s, rfl, hs⟩
    rw [eq_of_beq hs]
  · rintro rfl
    exact ⟨dir, rfl, beq_self_eq_true dir⟩

theorem Fs.collect_eq (fs : Fs) (dir : Loc) :
    fs.collect dir = fs.files.foldr (collectStep dir) ⟨[], List.nodup_nil⟩ := rfl

/-- What is filed under other keys is found as before. -/
theorem lookup_filter_ne {α β : Type} [BEq α] [LawfulBEq α] [DecidableEq α] {k key : α} (h : k ≠ key) (l : List (α × β)) :
    (l.filter (·.1 ≠ key)).lookup k = l.lookup k := by
  induction l with
  | nil => rfl
  | cons e l ih =>
    by_cases he : e.1 = key
    · have hne : (k == e.1) = false := by
        rw [he]
        exact beq_false_of_ne h
      rw [List.filter_cons_of_neg (by simpa using he), ih, List.lookup_cons, hne]
    · rw [List.filter_cons_of_pos (by simpa using he), List.lookup_cons, List.lookup_cons, ih]

section
variable {S T : Loc → Prop} {fs fs' fs'' : Fs} {io : Io} {loc : Loc} {content : Text}

theorem Touches.refl (fs : Fs) : Touches S fs fs :=
  ⟨⟨[], rfl, nofun⟩, fun _ _ => rfl, fun _ h => h, fun _ h => .inl h, fun _ _ => rfl⟩

theorem Touches.trans (h : Touches S fs fs') (h' : Touches S fs' fs'') : Touches S fs fs'' where
  written := by
    obtain ⟨new, he, hnew⟩ := h.written
    obtain ⟨new', he', hnew'⟩ := h'.written
    refine ⟨new' ++ new, by rw [he', he, List.append_assoc], fun l hl => ?_⟩
    exact (List.mem_append.mp hl).elim (hnew' l) (hnew l)
  kept l hl := by rw [h'.kept l hl, h.kept l hl]
  dirs d hd := h'.dirs d (h.dirs d hd)
  made d hd := (h'.made d hd).elim (h.made d) .inr
  collected dir hdir := by rw [h'.collected dir hdir, h.collected dir hdir]

theorem Touches.mono (h : Touches S fs fs') (hST : ∀ l, S l → T l) : Touches T fs fs' where
  written := by
    obtain ⟨new, he, hnew⟩ := h.written
    exact ⟨new, he, fun l hl => hST l (hnew l hl)⟩
  kept l hl := h.kept l fun hs => hl (hST l hs)
  dirs := h.dirs
  made d hd := (h.made d hd).imp_right fun ⟨l, hl, hsuffix⟩ => ⟨l, hST l hl, hsuffix⟩
  collected dir hdir := h.collected dir fun l hl => hdir l (hST l hl)

theorem touches_createDirAll (h : ∃ l, S l ∧ loc <:+ l) : Touches S fs (fs.createDirAll io loc).2 := by
  rw [Fs.createDirAll]
  split
  · refine ⟨⟨[], rfl, nofun⟩, fun _ _ => rfl, fun d hd => List.mem_append_right _ hd, fun d hd => ?_,
      fun _ _ => rfl⟩
    rcases List.mem_append.mp hd with hd | hd
    · obtain ⟨l, hl, hsuffix⟩ := h
      exact .inr ⟨l, hl, ((List.mem_tails _ _).mp hd).trans hsuffix⟩
    · exact .inl hd
  · exact ⟨⟨[], rfl, nofun⟩, fun _ _ => rfl, fun _ h => h, fun _ h => .inl h, fun _ _ => rfl⟩

theorem collectStep_of_not_below {dir : Loc} {f : Loc × Text} (h : ¬dir <:+ f.1) (m : FileMap) :
    collectStep dir f m = m := by
  have hnone : below dir f.1 = none := by
    cases hb : below dir f.1 with
    | none => rfl
    | some names => exact absurd (below_eq_some.mp hb ▸ List.suffix_append _ _) h
  rw [collectStep, hnone]

theorem collect_filter {dir : Loc} (h : ¬dir <:+ loc) (files : List (Loc × Text)) :
    (files.filter (·.1 ≠ loc)).foldr (collectStep dir) ⟨[], List.nodup_nil⟩ =
      files.foldr (collectStep dir) ⟨[], List.nodup_nil⟩ := by
  induction files with
  | nil => rfl
  | cons f files ih =>
    rw [List.foldr_cons]
    by_cases hf : f.1 = loc
    · rw [List.filter_cons_of_neg (by simpa using hf), ih, collectStep_of_not_below (hf ▸ h)]
    · rw [List.filter_cons_of_pos (by simpa using hf), List.foldr_cons, ih]

theorem touches_write : Touches (· = loc) fs (fs.write io loc content).2 := by
  rw [Fs.write]
  split
  · refine ⟨⟨[loc], rfl, fun l hl => List.mem_singleton.mp hl⟩, fun l hl => ?_, fun _ h => h,
      fun _ h => .inl h, fun dir hdir => ?_⟩
    · have hne : (l == loc) = false := beq_false_of_ne hl
      show ((loc, content) :: fs.files.filter (·.1 ≠ loc)).lookup l = fs.read l
      rw [List.lookup_cons, hne]
      exact lookup_filter_ne hl fs.files
    · have hnot := hdir loc rfl
      rw [Fs.collect_eq, Fs.collect_eq, List.foldr_cons, collectStep_of_not_below hnot]
      exact collect_filter hnot fs.files
  · exact ⟨⟨[], rfl, nofun⟩, fun _ _ => rfl, fun _ h => h, fun _ h => .inl h, fun _ _ => rfl⟩

theorem touches_writeIf {text : Option Text} : Touches (· = loc) fs (writeIf io loc text fs) := by
  cases text with
  | none => exact .refl fs
  | some t => exact touches_write

/-- The file systems before and after the write of a place in the set. -/
theorem touches_write_of (h : S loc) : Touches S fs (fs.write io loc content).2 :=
  touches_write.mono fun _ he => he ▸ h

end

/-! ## The steps -/

/-- The places a package's files can have in a directory. -/
def FilePlace (dir l : Loc) : Prop :=
  ∃ rel safe, sanitizePackageRelPath rel = some safe ∧ l = joinLoc dir safe

section
variable {io : Io} {codec : Codec} {H : Hash} {dir : Loc} {fs : Fs}

theorem joinLoc_safe {p : Text} (h : SafePath p) : joinLoc dir p = walk true dir (p.splitOn '/') :=
  if_neg h.relative

theorem FilePlace.under {l : Loc} (h : FilePlace dir l) : Under dir l := by
  obtain ⟨rel, safe, hsafe, rfl⟩ := h
  obtain ⟨-, hsafe, -, -⟩ := sanitizePackageRelPath_eq_some hsafe
  rw [joinLoc_safe hsafe]
  exact hsafe.under

theorem filePlace_packageJson : FilePlace dir (joinLoc dir "package.json".toList) :=
  ⟨"package.json".toList, "package.json".toList, by decide, rfl⟩

theorem filePlace_above : ∃ l, FilePlace dir l ∧ dir <:+ l :=
  ⟨_, filePlace_packageJson, List.suffix_cons _ _⟩

/-- **The loop over the files** writes at their places in the directory. -/
theorem touches_installFiles (name : Text) (failed : Text → InstallError)
    (files : List (Text × Text)) (fs : Fs) :
    Touches (FilePlace dir) fs (installFiles io dir name failed files fs).2 := by
  induction files generalizing fs with
  | nil => exact .refl fs
  | cons f files ih =>
    rw [installFiles]
    cases hsafe : sanitizePackageRelPath f.1 with
    | none => exact .refl fs
    | some safe =>
      have hplace : FilePlace dir (joinLoc dir safe) := ⟨f.1, safe, hsafe, rfl⟩
      have hwrite : Touches (FilePlace dir) fs
          (((fs.createDirAll io (joinLoc dir safe).tail).2.write io (joinLoc dir safe) f.2).2) :=
        (touches_createDirAll ⟨_, hplace, List.tail_suffix _⟩).trans (touches_write_of hplace)
      simp only
      split
      · exact hwrite.trans (ih _)
      · exact hwrite

theorem touches_installCas (store : Loc) (pkg : Package) (fs : Fs) :
    Touches (FilePlace (casDir store pkg.name pkg.version)) fs (installCas io codec store pkg fs).2 := by
  simp only [installCas]
  split
  · exact (touches_createDirAll filePlace_above).trans
      ((touches_write_of filePlace_packageJson).trans (touches_installFiles _ _ _ _))
  · exact touches_createDirAll filePlace_above

theorem touches_installProject (root : Loc) (pkg : Package) (fs : Fs) :
    Touches (FilePlace (projectDir root pkg.name)) fs (installProject io codec root pkg fs).2 := by
  simp only [installProject]
  split
  · have hmeta : ∀ fs : Fs, Touches (FilePlace (projectDir root pkg.name)) fs
        (writeIf io (joinLoc (projectDir root pkg.name) "package.json".toList) (codec.metaText pkg) fs) :=
      fun fs => touches_writeIf.mono fun _ he => he ▸ filePlace_packageJson
    exact (touches_createDirAll filePlace_above).trans ((hmeta _).trans (touches_installFiles _ _ _ _))
  · exact touches_createDirAll filePlace_above

/-- The project's two records. -/
def RecordPlace (root l : Loc) : Prop := l = manifestLoc root ∨ l = lockLoc root

theorem touches_recordInstall (root : Loc) (pkg : Package) (source : Text) (fs : Fs) :
    Touches (RecordPlace root) fs (recordInstall io codec H root pkg source fs) := by
  have hmanifest : Touches (RecordPlace root) fs (updateManifest io codec root pkg.name pkg.version fs) :=
    touches_writeIf.mono fun _ he => .inl he
  exact hmanifest.trans (touches_writeIf.mono fun _ he => .inr he)

/-- **The loop over an archive's files** writes below the destination. -/
theorem touches_extractFiles (dest : Loc) (files : List (Text × Text)) (fs : Fs) :
    Touches (Under dest) fs (extractFiles io dest files fs).2 := by
  induction files generalizing fs with
  | nil => exact .refl fs
  | cons f files ih =>
    rw [extractFiles]
    cases hsafe : sanitizeTarPath f.1 with
    | error e => exact .refl fs
    | ok safe =>
      have hunder : Under dest (joinLoc dest safe) := by
        rw [joinLoc_safe (sanitizeTarPath_eq_ok hsafe).1]
        exact (sanitizeTarPath_eq_ok hsafe).1.under
      have habove : ∃ l, Under dest l ∧ (joinLoc dest safe).tail <:+ l := ⟨_, hunder, List.tail_suffix _⟩
      simp only
      split
      · split
        · have hrest := ih ((fs.createDirAll io (joinLoc dest safe).tail).2.write io (joinLoc dest safe) f.2).2
          have hwrite := (@touches_createDirAll _ fs io _ habove).trans
            (@touches_write_of _ _ io _ f.2 hunder)
          split
          case h_1 heq =>
            rw [heq] at hrest
            exact hwrite.trans hrest
          case h_2 heq =>
            rw [heq] at hrest
            exact hwrite.trans hrest
        · exact (touches_createDirAll habove).trans (touches_write_of hunder)
      · exact touches_createDirAll habove

theorem touches_extractTarToDir (extractTar : Text → Except Text (List (Text × Text))) (data : Text)
    (dest : Loc) (fs : Fs) :
    Touches (Under dest) fs (extractTarToDir io extractTar data dest fs).2 := by
  have habove : ∃ l, Under dest l ∧ dest <:+ l := ⟨dest, ⟨[], rfl, nofun⟩, List.suffix_rfl⟩
  simp only [extractTarToDir]
  split
  · split
    · exact touches_createDirAll habove
    · exact (touches_createDirAll habove).trans (touches_extractFiles dest _ _)
  · exact touches_createDirAll habove

end

/-! ## Names -/

theorem under_trans {a b c : Loc} (h : Under a b) (h' : Under b c) : Under a c := by
  obtain ⟨ns, rfl, hns⟩ := h
  obtain ⟨ms, rfl, hms⟩ := h'
  refine ⟨ms ++ ns, (List.append_assoc _ _ _).symm, fun s hs => ?_⟩
  exact (List.mem_append.mp hs).elim (hms s) (hns s)

/-- **A valid package name** is a name, or one below `sparks`. -/
theorem packageId_isName {name : Text} (h : isValidPackageName name = true) :
    IsName (packageId name) ∧ '/' ∉ packageId name := by
  rw [isValidPackageName] at h
  split at h
  case h_1 => cases h
  case h_2 first rest he =>
    simp only at h
    split_ifs at h with hlen hfirst
    rw [Bool.and_eq_true, List.all_eq_true] at h
    have hdot : first ≠ '.' := by
      intro hd
      subst hd
      exact hfirst (by decide)
    rw [he]
    refine ⟨⟨List.cons_ne_nil _ _, fun hd => hdot ?_, fun hd => hdot ?_⟩, fun hm => ?_⟩
    · exact (List.cons.inj hd).1
    · exact (List.cons.inj hd).1
    · exact absurd (h.1 '/' hm) (by decide)

theorem joinLoc_name {name : Text} (h : isValidPackageName name = true) (base : Loc) :
    joinLoc base name = packageId name :: base ∨
      joinLoc base name = packageId name :: "sparks".toList :: base := by
  obtain ⟨hid, hslash⟩ := packageId_isName h
  have hsplit : (packageId name).splitOn '/' = [packageId name] := List.splitOn_eq_singleton hslash
  cases hd : name.dropPrefix? "sparks/".toList with
  | none =>
    have hname : packageId name = name := by rw [packageId, hd, Option.getD_none]
    rw [hname] at hid hslash hsplit ⊢
    left
    rw [joinLoc, if_neg, hsplit]
    · exact walk_names fun s hs => List.mem_singleton.mp hs ▸ hid
    · intro hhead
      cases name with
      | nil => cases hhead
      | cons c name =>
        cases hhead
        exact hslash List.mem_cons_self
  | some rest =>
    have hname : packageId name = rest := by rw [packageId, hd, Option.getD_some]
    rw [hname] at hid hslash hsplit ⊢
    right
    rw [List.dropPrefix?_eq_some_iff] at hd
    obtain ⟨p, rfl, hp⟩ := hd
    obtain rfl := eq_of_beq hp
    have hparts : ("sparks/".toList ++ rest).splitOn '/' = ["sparks".toList, rest] := by
      have hcons : "sparks/".toList ++ rest = "sparks".toList ++ '/' :: rest := rfl
      rw [hcons, List.splitOn_append_cons_self_of_not_mem (by decide), hsplit]
    have hhead : ("sparks/".toList ++ rest).head? ≠ some '/' := by
      intro h
      have : some 's' = some '/' := h
      exact absurd this (by decide)
    rw [joinLoc, if_neg hhead, hparts]
    refine walk_names fun s hs => ?_
    rcases List.mem_cons.mp hs with rfl | hs
    · decide
    · exact List.mem_singleton.mp hs ▸ hid

theorem recordLoc_eq (root : Loc) : manifestLoc root = "datara.toml".toList :: root ∧
    lockLoc root = "datara.lock".toList :: root := ⟨rfl, rfl⟩

theorem record_not_under {name : Text} (h : isValidPackageName name = true) {root l : Loc}
    (hl : RecordPlace root l) : ¬Under (projectDir root name) l := by
  rintro ⟨ns, he, -⟩
  have hlen : l.length = root.length + 1 := by
    rcases hl with rfl | rfl <;> rfl
  have hpackages : joinLoc root "packages".toList = "packages".toList :: root := rfl
  rw [he, projectDir, hpackages] at hlen
  rcases joinLoc_name h ("packages".toList :: root) with hj | hj <;>
    · rw [hj] at hlen
      simp only [List.length_append, List.length_cons] at hlen
      omega

/-! ## Confinement -/

/-- The places an installation may write. -/
def Allowed (store root : Loc) (name : Text) (l : Loc) : Prop :=
  Under (joinLoc store name) l ∨ Under (projectDir root name) l ∨ RecordPlace root l

/-- **The versions that stay inside**: from the package's directory of the store they lead to a
directory below it, or below the package's directory in the project, where no file of a package can
be one of the project's records. -/
def VersionConfined (store root : Loc) (name version : Text) : Prop :=
  (Under (joinLoc store name) (casDir store name version) ∨
      Under (projectDir root name) (casDir store name version)) ∧
    ∀ l, FilePlace (casDir store name version) l → ¬RecordPlace root l

/-- What an installation may leave: files in the allowed places only, and after a refused path the
project's records as they were. -/
def Confined (store root : Loc) (name : Text) (fs : Fs) (out : Except InstallError Loc × Fs) : Prop :=
  (∃ new, out.2.written = new ++ fs.written ∧ ∀ l ∈ new, Allowed store root name l) ∧
    ∀ n rel, out.1 = .error (.unsafePath n rel) → ∀ l, RecordPlace root l → out.2.read l = fs.read l

section
variable {io : Io} {codec : Codec} {H : Hash} {store root : Loc} {pkg : Package} {source : Text}
  {fs : Fs}

theorem allowed_of_filePlace {version : Text} (hv : VersionConfined store root pkg.name version)
    {l : Loc} (h : FilePlace (casDir store pkg.name version) l) : Allowed store root pkg.name l :=
  hv.1.elim (fun hu => .inl (under_trans hu h.under)) fun hu => .inr (.inl (under_trans hu h.under))

theorem confined_of_version (hv : VersionConfined store root pkg.name pkg.version) :
    Confined store root pkg.name fs (installWithSource io codec H store root pkg source fs) := by
  rw [installWithSource]
  split
  case isFalse => exact ⟨⟨[], rfl, nofun⟩, fun _ _ _ _ _ => rfl⟩
  case isTrue hname =>
    -- before the records are written, they are not among what is touched
    let Before : Loc → Prop := fun l =>
      FilePlace (casDir store pkg.name pkg.version) l ∨ FilePlace (projectDir root pkg.name) l
    have hallowed : ∀ l, Before l → Allowed store root pkg.name l := by
      rintro l (h | h)
      · exact allowed_of_filePlace hv h
      · exact .inr (.inl h.under)
    have hrecord : ∀ l, RecordPlace root l → ¬Before l := by
      rintro l hl (h | h)
      · exact hv.2 l h hl
      · exact record_not_under hname hl h.under
    have finish : ∀ {res : Except InstallError Loc} {fs' : Fs}, Touches Before fs fs' →
        Confined store root pkg.name fs (res, fs') := by
      intro res fs' h
      exact ⟨(h.mono hallowed).written, fun _ _ _ l hl => h.kept l (hrecord l hl)⟩
    have hcas : Touches Before fs (installCas io codec store pkg fs).2 :=
      (touches_installCas store pkg fs).mono fun _ => .inl
    cases hc : installCas io codec store pkg fs with
    | mk res fs₁ =>
      rw [hc] at hcas
      cases res with
      | error e => exact finish hcas
      | ok u =>
        have hproj : Touches Before fs (installProject io codec root pkg fs₁).2 :=
          hcas.trans ((touches_installProject root pkg fs₁).mono fun _ => .inr)
        cases hp : installProject io codec root pkg fs₁ with
        | mk res fs₂ =>
          rw [hp] at hproj
          cases res with
          | error e =>
            simp only [hp]
            exact finish hproj
          | ok u =>
            simp only [hp]
            refine ⟨((hproj.mono hallowed).trans ?_).written, fun _ _ h => by cases h⟩
            exact (touches_recordInstall root pkg source fs₂).mono fun _ h => .inr (.inr h)

/-! ## Versions that lead out -/

/-- Every operation of the file system succeeds. -/
def Io.fine : Io := fun _ => true

/-- Nothing is there yet. -/
def Fs.empty : Fs := ⟨[], [], [], 0⟩

theorem Fs.createDirAll_fine : (fs.createDirAll .fine loc).1 = true := rfl

theorem Fs.write_fine {content : Text} : (fs.write .fine loc content).1 = true := rfl

theorem Fs.read_write_fine {content : Text} : (fs.write .fine loc content).2.read loc = some content := by
  show ((loc, content) :: _).lookup loc = _
  rw [List.lookup_cons, beq_self_eq_true]

theorem Touches.written_mono {S : Loc → Prop} {fs fs' : Fs} (h : Touches S fs fs') {l : Loc}
    (hl : l ∈ fs.written) : l ∈ fs'.written := by
  obtain ⟨new, he, -⟩ := h.written
  rw [he]
  exact List.mem_append_right _ hl

theorem written_installWithSource (hname : isValidPackageName pkg.name = true) {l : Loc}
    (hl : l ∈ (installCas io codec store pkg fs).2.written) :
    l ∈ (installWithSource io codec H store root pkg source fs).2.written := by
  rw [installWithSource, if_pos hname]
  cases hc : installCas io codec store pkg fs with
  | mk res fs₁ =>
    rw [hc] at hl
    cases res with
    | error e => exact hl
    | ok u =>
      have hproj := (@touches_installProject io codec root pkg fs₁).written_mono hl
      cases hp : installProject io codec root pkg fs₁ with
      | mk res fs₂ =>
        rw [hp] at hproj
        cases res with
        | error e =>
          simp only [hp]
          exact hproj
        | ok u =>
          simp only [hp]
          exact (touches_recordInstall root pkg source fs₂).written_mono hproj

theorem written_installCas_one (hversion : pkg.files.entries = [(rel, content)]) {safe : Text}
    (hsafe : sanitizePackageRelPath rel = some safe) :
    joinLoc (casDir store pkg.name pkg.version) safe ∈
      (installCas .fine codec store pkg fs).2.written := by
  simp only [installCas, hversion, installFiles, hsafe, Fs.createDirAll_fine, Fs.write_fine, if_true]
  exact List.mem_cons_self

theorem exists_fresh_file (locs : List Loc) : ∃ file : Text, sanitizePackageRelPath file = some file ∧
    (∀ dir, joinLoc dir file = file :: dir) ∧ ∀ dir, file :: dir ∉ locs := by
  let n := (locs.map fun l => (l.headD []).length).sum
  let file : Text := List.replicate (n + 1) 'a'
  have hmem : ∀ c ∈ file, c = 'a' := fun c hc => List.eq_of_mem_replicate hc
  have hlen : file.length = n + 1 := List.length_replicate
  have hslash : '/' ∉ file := fun hm => absurd (hmem _ hm) (by decide)
  have hsplit : file.splitOn '/' = [file] := List.splitOn_eq_singleton hslash
  have hname : IsName file := by
    refine ⟨List.cons_ne_nil _ _, fun hd => ?_, fun hd => ?_⟩
    · exact absurd (hmem '.' (hd ▸ List.mem_cons_self)) (by decide)
    · exact absurd (hmem '.' (hd ▸ List.mem_cons_self)) (by decide)
  have hhead : file.head? ≠ some '/' := by
    intro h
    have : some 'a' = some '/' := h
    exact absurd this (by decide)
  have hslashes : slashes file = file := by
    rw [slashes]
    exact (List.map_congr_left fun c hc => by rw [hmem c hc]; rfl).trans (List.map_id _)
  have hdots : hasDotdot file = false := by
    rw [hasDotdot, hsplit, ← Bool.not_eq_true, List.contains_iff_mem, List.mem_singleton]
    exact fun h => hname.2.2 h.symm
  refine ⟨file, ?_, fun dir => ?_, fun dir hd => ?_⟩
  · have hgood : ¬(file = [] ∨ file.head? = some '/' ∨ '\x00' ∈ file ∨ ':' ∈ file) := by
      simp only [not_or]
      exact ⟨hname.1, hhead, fun hm => absurd (hmem _ hm) (by decide),
        fun hm => absurd (hmem _ hm) (by decide)⟩
    simp [sanitizePackageRelPath, hslashes, if_neg hgood, hdots]
  · rw [joinLoc, if_neg hhead, hsplit]
    exact walk_names fun s hs => List.mem_singleton.mp hs ▸ hname
  · have hle : file.length ≤ n :=
      List.single_le_sum (fun _ _ => Nat.zero_le _) _ (List.mem_map_of_mem (f := fun l => (l.headD []).length) hd)
    omega

/-- A package of one name and version. -/
def Package.ofFiles (name version : Text) (files : FileMap) : Package := ⟨name, version, [], [], files⟩

/-- A file, and a path that is refused. -/
def FileMap.thenRefused (rel : Text) (h : rel ≠ dotdot) : FileMap :=
  ⟨[(rel, ['x']), (dotdot, [])], by simpa using h⟩

theorem installCas_thenRefused {rel safe : Text} {h : rel ≠ dotdot}
    (hfiles : pkg.files = .thenRefused rel h) (hsafe : sanitizePackageRelPath rel = some safe) :
    ∃ fs', installCas .fine codec store pkg fs = (.error (.unsafePath pkg.name dotdot), fs') ∧
      fs'.read (joinLoc (casDir store pkg.name pkg.version) safe) = some ['x'] := by
  have hdots : sanitizePackageRelPath dotdot = none := by decide
  have hread : ∀ fs : Fs, (installFiles .fine (casDir store pkg.name pkg.version) pkg.name .writeCas
      pkg.files.entries fs).2.read (joinLoc (casDir store pkg.name pkg.version) safe) = some ['x'] := by
    intro fs
    simp only [hfiles, FileMap.thenRefused, installFiles, hsafe, hdots, Fs.write_fine, if_true]
    exact Fs.read_write_fine
  have hrefused : ∀ fs : Fs, (installFiles .fine (casDir store pkg.name pkg.version) pkg.name .writeCas
      pkg.files.entries fs).1 = .error (.unsafePath pkg.name dotdot) := by
    intro fs
    simp [hfiles, FileMap.thenRefused, installFiles, hsafe, hdots, Fs.write_fine]
  refine ⟨(installCas .fine codec store pkg fs).2, Prod.ext ?_ rfl, ?_⟩
  · simp only [installCas, Fs.createDirAll_fine, if_true]
    exact hrefused _
  · simp only [installCas, Fs.createDirAll_fine, if_true]
    exact hread _

/-- **An installation that is confined for every package of a version** has a confined version. -/
theorem version_of_confined {name version : Text} (hname : isValidPackageName name = true)
    (h : ∀ io pkg source fs, pkg.name = name → pkg.version = version →
      Confined store root name fs (installWithSource io codec H store root pkg source fs)) :
    VersionConfined store root name version := by
  constructor
  · -- a file of a name of its own
    obtain ⟨file, hsafe, hjoin, hfresh⟩ := exists_fresh_file
      [joinLoc store name, projectDir root name, manifestLoc root, lockLoc root]
    have hne := hfresh (casDir store name version)
    simp only [List.mem_cons, List.not_mem_nil, or_false, not_or] at hne
    let pkg := Package.ofFiles name version ⟨[(file, ['x'])], by simp⟩
    have hin := @written_installWithSource _ codec H _ root pkg [] .empty hname _
      (@written_installCas_one codec store _ _ _ _ rfl _ hsafe)
    obtain ⟨⟨new, he, hnew⟩, -⟩ := h .fine pkg [] .empty rfl rfl
    rw [he, hjoin] at hin
    have hin : file :: casDir store name version ∈ new := (List.mem_append.mp hin).resolve_right List.not_mem_nil
    have hbelow : ∀ dir, file :: casDir store name version ≠ dir →
        Under dir (file :: casDir store name version) → Under dir (casDir store name version) := by
      rintro dir hne ⟨ns, he, hns⟩
      cases ns with
      | nil => exact absurd he hne
      | cons n ns => exact ⟨ns, (List.cons.inj he).2, fun s hs => hns s (List.mem_cons_of_mem _ hs)⟩
    rcases hnew _ hin with hu | hu | hu
    · exact .inl (hbelow _ hne.1 hu)
    · exact .inr (hbelow _ hne.2.1 hu)
    · exact absurd hu (not_or.mpr hne.2.2)
  · rintro l ⟨rel, safe, hsafe, rfl⟩ hrecord
    have hne : rel ≠ dotdot := by
      rintro rfl
      rw [show sanitizePackageRelPath dotdot = none by decide] at hsafe
      cases hsafe
    let pkg := Package.ofFiles name version (.thenRefused rel hne)
    obtain ⟨fs', hcas, hread⟩ := @installCas_thenRefused codec store pkg .empty _ _ hne rfl hsafe
    have hout : installWithSource .fine codec H store root pkg [] .empty =
        (.error (.unsafePath name dotdot), fs') := by
      have hname : isValidPackageName pkg.name = true := hname
      rw [installWithSource, if_pos hname, hcas]
      rfl
    have hkept := (h .fine pkg [] .empty rfl rfl).2 name dotdot (congrArg Prod.fst hout) _ hrecord
    rw [hout] at hkept
    cases hread.symm.trans hkept

end

/-- **Installations are confined exactly for the confined versions** (of valid names; under any other
nothing is written), and extractions always. -/
theorem install_confined_iff (H : Hash) (codec : Codec) (store root : Loc) (name version : Text) :
    ((∀ io pkg source fs, pkg.name = name → pkg.version = version →
        Confined store root name fs (installWithSource io codec H store root pkg source fs)) ↔
      (isValidPackageName name = true → VersionConfined store root name version)) ∧
      ∀ io extractTar data dest fs,
        ∃ new, (extractTarToDir io extractTar data dest fs).2.written = new ++ fs.written ∧
          ∀ l ∈ new, Under dest l := by
  refine ⟨⟨fun h hname => version_of_confined hname h, fun h io pkg source fs hn hv => ?_⟩,
    fun io extractTar data dest fs => (touches_extractTarToDir extractTar data dest fs).written⟩
  subst hn hv
  by_cases hname : isValidPackageName pkg.name = true
  · exact confined_of_version (h hname)
  · rw [installWithSource, if_neg hname]
    exact ⟨⟨[], rfl, nofun⟩, fun _ _ _ _ _ => rfl⟩

/-- No metadata text is written or read. -/
def Codec.silent : Codec := ⟨fun _ => none, fun _ => none, fun _ => none, fun _ => none, fun _ _ _ => none⟩

/-- A package of one file and an ordinary version. -/
def Package.sample : Package :=
  .ofFiles "lib".toList "1.0".toList ⟨[("src/lib.dtr".toList, ['x'])], by decide⟩

theorem install_confined_sample : Confined ["store".toList] ["proj".toList] "lib".toList .empty
    (installWithSource .fine .silent .unary ["store".toList] ["proj".toList] .sample [] .empty) := by
  refine (install_confined_iff .unary .silent ["store".toList] ["proj".toList] "lib".toList
    "1.0".toList).1.mpr (fun _ => ⟨.inl ⟨["1.0".toList], by decide, by decide⟩, fun l hl hrecord => ?_⟩)
    .fine .sample [] .empty rfl rfl
  obtain ⟨ns, he, -⟩ := hl.under
  have hlen : l.length = 2 := by
    rcases hrecord with rfl | rfl <;> decide
  have hdir : (casDir ["store".toList] "lib".toList "1.0".toList).length = 3 := by decide
  rw [he, List.length_append, hdir] at hlen
  omega

/-- Not confined: a version that leads out of the store, or begins at the root. -/
theorem install_not_confined :
    ¬∀ (io : Io) (codec : Codec) (H : Hash) (store root : Loc) (pkg : Package) (source : Text) (fs : Fs),
      Confined store root pkg.name fs (installWithSource io codec H store root pkg source fs) := by
  intro h
  have hv := @version_of_confined .silent .unary ["store".toList] ["proj".toList] "lib".toList "/etc".toList
    (by decide)
    fun io pkg source fs hn _ => hn ▸ h io _ _ _ _ pkg source fs
  have hdir : casDir ["store".toList] "lib".toList "/etc".toList = ["etc".toList] := by decide
  rw [VersionConfined, hdir] at hv
  rcases hv.1 with ⟨ns, he, -⟩ | ⟨ns, he, -⟩ <;>
    · have := congrArg List.length he
      rw [List.length_append] at this
      have hlen : 2 ≤ (joinLoc ["store".toList] "lib".toList).length := by decide
      have hlen' : 2 ≤ (projectDir ["proj".toList] "lib".toList).length := by decide
      simp only [List.length_cons, List.length_nil] at this
      omega

end Datara.Project
