import Datara.Project.TarHeader

/-!
# Archives and their files

`extract_tar` of what `create_tar` made of a map of files is that map, each name sanitized
(`tar_roundtrips`): a file of the archive is read at the offset at which it was written
(`extractStep_file`), and the archive is read to its end file by file (`extract_created`). On any bytes at
all `extract_tar` stays within them.
-/

namespace Datara.Project

open Library

section
variable {files acc : TarFiles} {name key : Text} {header body front rest data out out' bytes : Bytes}
  {offset next size a b n : Nat} {keys : List Text} {es : List (Text × Bytes)}

/-! ## Writing a file -/

theorem Tar.extend_eq_ok (h : Tar.extend out bytes = .ok out') :
    out' = out ++ bytes ∧ out'.length ≤ usizeMax / 2 := by
  rw [Tar.extend] at h
  split at h
  case isTrue => cases h
  case isFalse hlen =>
    cases h
    exact ⟨rfl, by rw [List.length_append]; omega⟩

theorem safeTarPath_eq_ok (h : safeTarPath key = .ok name) : sanitizeTarPath key = .ok name := by
  rw [safeTarPath] at h
  split at h
  case h_1 => cases h
  case h_2 safe hsafe => rw [hsafe, Except.ok.inj h]

/-- What a file adds to an archive. -/
def fileBlocks (header body : Bytes) : Bytes :=
  header ++ (body ++ List.replicate (tarPadding body.length) 0)

theorem createEntry_eq_ok (h : createEntry files out key = .ok out') (hsize : (files.content key).length < 8 ^ 11) :
    ∃ name header, sanitizeTarPath key = .ok name ∧ Describes header name (files.content key).length ∧
      out' = out ++ fileBlocks header (files.content key) := by
  obtain ⟨name, hname, h⟩ := Tar.bind_eq_ok.mp h
  split at h
  case isTrue => cases h
  case isFalse hshort =>
    obtain ⟨header, hheader, h⟩ := Tar.bind_eq_ok.mp h
    obtain ⟨out₁, h₁, h⟩ := Tar.bind_eq_ok.mp h
    obtain ⟨out₂, h₂, h⟩ := Tar.bind_eq_ok.mp h
    obtain ⟨rfl, -⟩ := Tar.extend_eq_ok h₁
    obtain ⟨rfl, -⟩ := Tar.extend_eq_ok h₂
    obtain ⟨rfl, -⟩ := Tar.extend_eq_ok h
    obtain ⟨header', hheader', hdescribes⟩ := exists_tarHeader (Nat.le_of_not_lt hshort) hsize
    cases hheader.symm.trans hheader'
    refine ⟨name, header, safeTarPath_eq_ok hname, hdescribes, ?_⟩
    rw [List.append_assoc, List.append_assoc]
    rfl

/-! ## Reading a file -/

theorem tarPadding_lt : tarPadding n < blockSize := by
  have hlt : n % blockSize < blockSize := Nat.mod_lt n (by decide)
  rw [tarPadding]
  split
  · omega
  · omega

theorem Tar.add_ok (h : a + b ≤ usizeMax) : Tar.add a b = .ok (a + b) := by
  rw [Tar.add, if_neg (Nat.not_lt.mpr h)]

theorem Tar.slice_middle : Tar.slice (front ++ (bytes ++ rest)) front.length (front.length + bytes.length) = .ok bytes := by
  rw [Tar.slice_part rfl (by simp only [List.length_append]; omega), part, List.drop_left, List.take_left]

theorem copyFromSlice_block (h : header.length = blockSize) :
    Tar.copyFromSlice zeroBlock 0 blockSize header = .ok header := by
  have hzero : zeroBlock.length = blockSize := List.length_replicate
  have hpatch := patchWords_spec (a := []) (b := zeroBlock) (c := []) (d := 0) rfl (hzero.trans h.symm)
  rw [List.nil_append, List.append_nil, List.nil_append, List.append_nil] at hpatch
  exact Tar.copyFromSlice_patch (by rw [h, Nat.zero_add]) hpatch

theorem Describes.not_zero (h : Describes header name size) : ¬header.all (· = 0) = true := by
  intro hall
  have hget := congrArg (·[0]?) h.typeflag
  rw [getElem?_part] at hget
  have hzero := List.all_eq_true.mp hall 48 (List.mem_of_getElem? hget)
  exact absurd hzero (by decide)

/-- **A file is read where it was written.** -/
theorem extractStep_file (hheader : Describes header name body.length) (hsafe : sanitizeTarPath name = .ok name)
    (hnul : '\x00' ∉ name) (hsize : body.length < 8 ^ 11)
    (hfit : (front ++ (header ++ (body ++ rest))).length ≤ usizeMax / 2) :
    extractStep (front ++ (header ++ (body ++ rest))) front.length files =
      .ok (some (front.length + blockSize + body.length + tarPadding body.length,
        files.insert name body)) := by
  have hblock := hheader.length
  have hpad := tarPadding_lt (n := body.length)
  have hlen : (front ++ (header ++ (body ++ rest))).length =
      front.length + blockSize + body.length + rest.length := by
    simp only [List.length_append, hblock]
    omega
  have hslice : Tar.slice (front ++ (header ++ (body ++ rest))) front.length (front.length + blockSize) =
      .ok header := hblock ▸ Tar.slice_middle
  have hdata : Tar.slice (front ++ (header ++ (body ++ rest))) (front.length + blockSize)
      (front.length + blockSize + body.length) = .ok body := by
    have hmid : Tar.slice (front ++ header ++ (body ++ rest)) (front ++ header).length
        ((front ++ header).length + body.length) = .ok body := Tar.slice_middle
    rwa [List.append_assoc, List.length_append, hblock] at hmid
  have hstore : storeFile (front ++ (header ++ (body ++ rest))) (front.length + blockSize)
      (front.length + blockSize + body.length) files ⟨name, body.length, 48⟩ = .ok (files.insert name body) := by
    rw [storeFile, if_pos (.inl rfl), Tar.bind_ok hdata]
    rfl
  have hfile : extractFile (front ++ (header ++ (body ++ rest))) (front.length + blockSize) files
      ⟨name, body.length, 48⟩ = .ok (front.length + blockSize + body.length + tarPadding body.length,
        files.insert name body) := by
    rw [extractFile, if_neg (by rw [hlen]; simp only; omega)]
    simp only
    rw [Tar.bind_ok hstore, if_neg (by omega)]
    rfl
  rw [extractStep, Tar.bind_ok (Tar.add_ok (by omega)), if_neg (by omega), Tar.bind_ok hslice,
    if_neg hheader.not_zero, Tar.bind_ok (copyFromSlice_block hblock),
    Tar.bind_ok (hheader.read hsafe hnul hsize front.length), Tar.bind_ok (Tar.add_ok (by omega)), Tar.bind_ok hfile]
  rfl

/-! ## The loop -/

theorem extractFrom_step {next : Nat} {acc' : TarFiles} (h : extractStep data offset acc = .ok (some (next, acc'))) :
    extractFrom data offset acc = extractFrom data next acc' := by
  have hloop : runLoop _ _ (extractStep_shrinks data) (offset, acc) =
      runLoop _ _ (extractStep_shrinks data) (next, acc') := runLoop_step h
  rw [extractFrom, hloop]
  rfl

theorem extractFrom_end (h : extractStep data offset acc = .ok none) : extractFrom data offset acc = .ok acc := by
  have hloop : runLoop _ _ (extractStep_shrinks data) (offset, acc) = .ok (offset, acc) := runLoop_end h
  rw [extractFrom, hloop]
  rfl

theorem extractStep_end (hfit : (front ++ (zeroBlock ++ rest)).length ≤ usizeMax / 2) :
    extractStep (front ++ (zeroBlock ++ rest)) front.length acc = .ok none := by
  have hzero : zeroBlock.length = blockSize := List.length_replicate
  have hlen : (front ++ (zeroBlock ++ rest)).length = front.length + blockSize + rest.length := by
    simp only [List.length_append, hzero]
    omega
  have hslice : Tar.slice (front ++ (zeroBlock ++ rest)) front.length (front.length + blockSize) =
      .ok zeroBlock := hzero ▸ Tar.slice_middle
  have hall : zeroBlock.all (· = 0) = true := List.all_eq_true.mpr fun b hb => by
    rw [List.eq_of_mem_replicate hb]
    rfl
  rw [extractStep, Tar.bind_ok (Tar.add_ok (by omega)), if_neg (by omega), Tar.bind_ok hslice, if_pos hall]
  rfl

/-- The entries of an archive for some keys. -/
def Archived (files : TarFiles) (keys : List Text) (es : List (Text × Bytes)) : Prop :=
  List.Forall₂ (fun key e => sanitizeTarPath key = .ok e.1 ∧ e.2 = files.content key) keys es

def TarFiles.insertAll (acc : TarFiles) (es : List (Text × Bytes)) : TarFiles :=
  es.foldl (fun acc e => acc.insert e.1 e.2) acc

/-- **What was written for some keys is read as their entries**, whatever follows. -/
theorem extract_created (hsize : ∀ key ∈ keys, (files.content key).length < 8 ^ 11)
    (h : keys.foldlM (createEntry files) out = .ok out') :
    ∃ tail es, out' = out ++ tail ∧ Archived files keys es ∧ ∀ rest acc,
      (out' ++ rest).length ≤ usizeMax / 2 → extractFrom (out' ++ rest) out.length acc =
        extractFrom (out' ++ rest) out'.length (acc.insertAll es) := by
  induction keys generalizing out with
  | nil =>
    obtain rfl := Except.ok.inj h
    exact ⟨[], [], (List.append_nil out).symm, .nil, fun _ _ _ => rfl⟩
  | cons key keys ih =>
    rw [List.foldlM_cons] at h
    obtain ⟨out₁, h₁, h⟩ := Tar.bind_eq_ok.mp h
    obtain ⟨name, header, hname, hheader, rfl⟩ := createEntry_eq_ok h₁ (hsize key List.mem_cons_self)
    obtain ⟨tail, es, rfl, hes, hrest⟩ := ih (fun k hk => hsize k (List.mem_cons_of_mem _ hk)) h
    refine ⟨fileBlocks header (files.content key) ++ tail, (name, files.content key) :: es,
      List.append_assoc _ _ _, .cons ⟨hname, rfl⟩ hes, fun rest acc hfit => ?_⟩
    obtain ⟨hsafe, hnul⟩ := sanitizeTarPath_safe hname
    refine Eq.trans ?_ (hrest rest (acc.insert name (files.content key)) hfit)
    have hsplit : out ++ fileBlocks header (files.content key) ++ tail ++ rest = out ++ (header ++ (files.content key ++
        (List.replicate (tarPadding (files.content key).length) 0 ++ (tail ++ rest)))) := by
      simp [fileBlocks]
    have hlen : (out ++ fileBlocks header (files.content key)).length =
        out.length + blockSize + (files.content key).length + tarPadding (files.content key).length := by
      simp only [fileBlocks, List.length_append, List.length_replicate, hheader.length]
      omega
    rw [hsplit] at hfit ⊢
    rw [hlen]
    exact extractFrom_step (extractStep_file hheader hsafe hnul (hsize key List.mem_cons_self) hfit)

/-! ## Whole archives -/

theorem entries_insertAll (h : ((acc.entries ++ es).map Prod.fst).Nodup) :
    (acc.insertAll es).entries = acc.entries ++ es := by
  induction es generalizing acc with
  | nil => exact (List.append_nil _).symm
  | cons e es ih =>
    have hnot : e.1 ∉ acc.entries.map Prod.fst := by
      intro hmem
      rw [List.map_append, List.map_cons] at h
      exact (List.nodup_append.mp h).2.2 e.1 hmem e.1 List.mem_cons_self rfl
    have hinsert : (acc.insert e.1 e.2).entries = acc.entries ++ [e] := upsert_of_notMem hnot
    have hsplit : acc.entries ++ e :: es = (acc.insert e.1 e.2).entries ++ es := by
      rw [hinsert, List.append_assoc]
      rfl
    rw [hsplit] at h ⊢
    exact ih h

theorem Archived.map_eq (h : Archived files keys es) :
    es.map (fun e => (Except.ok e.1, e.2)) = keys.map fun key => (sanitizeTarPath key, files.content key) := by
  induction h with
  | nil => rfl
  | cons he hes ih => rw [List.map_cons, List.map_cons, ih, he.1, ← he.2]

theorem content_eq {f : Text × Bytes} (hf : f ∈ files.entries) : files.content f.1 = f.2 := by
  have hlookup : files.entries.lookup f.1 = some f.2 := (lookup_eq_some_iff files.nodup).mpr hf
  rw [TarFiles.content, TarFiles.get?, hlookup]
  rfl

/-- The files of a map with their names sanitized. -/
def TarFiles.sanitized (files : TarFiles) : List (Except TarPathError Text × Bytes) :=
  files.entries.map fun f => (sanitizeTarPath f.1, f.2)

/-- The files of a map under the names they have. -/
def TarFiles.named (files : TarFiles) : List (Except TarPathError Text × Bytes) :=
  files.entries.map fun f => (.ok f.1, f.2)

theorem sanitized_perm : (files.sortedKeys.map fun key => (sanitizeTarPath key, files.content key)).Perm
    files.sanitized := by
  refine ((List.perm_insertionSort _ _).map _).trans (List.Perm.of_eq ?_)
  rw [TarFiles.sanitized, List.map_map]
  refine List.map_congr_left fun f hf => ?_
  rw [Function.comp_apply, content_eq hf]

/-- **What `create_tar` makes of some files, `extract_tar` makes into these files again.** -/
theorem extractTar_createTar (hnames : (files.sanitized.map Prod.fst).Nodup)
    (hsize : ∀ f ∈ files.entries, f.2.length < 8 ^ 11) (h : createTar files = .ok out) :
    ∃ found, extractTar out = .ok found ∧ found.named.Perm files.sanitized := by
  obtain ⟨out₁, h₁, h⟩ := Tar.bind_eq_ok.mp h
  obtain ⟨rfl, hfit⟩ := Tar.extend_eq_ok h
  have hkeys : ∀ key ∈ files.sortedKeys, (files.content key).length < 8 ^ 11 := by
    intro key hkey
    obtain ⟨f, hf, rfl⟩ := List.mem_map.mp ((List.mem_insertionSort _).mp hkey)
    rw [content_eq hf]
    exact hsize f hf
  obtain ⟨tail, es, htail, hes, hread⟩ := extract_created hkeys h₁
  have hperm : (es.map fun e => (Except.ok e.1, e.2)).Perm files.sanitized := by
    rw [hes.map_eq]
    exact sanitized_perm
  have hnodup : (es.map Prod.fst).Nodup := by
    have hfst := (hperm.map Prod.fst).nodup_iff.mpr hnames
    rw [List.map_map] at hfst
    have hcomp : es.map (Prod.fst ∘ fun e => ((.ok e.1 : Except TarPathError _), e.2)) =
        (es.map Prod.fst).map Except.ok := by
      rw [List.map_map]
      rfl
    exact List.Nodup.of_map _ (hcomp ▸ hfst)
  have hzeros : List.replicate (blockSize * 2) 0 = zeroBlock ++ zeroBlock := by
    rw [zeroBlock, ← List.replicate_add, Nat.mul_two]
  refine ⟨TarFiles.empty.insertAll es, ?_, ?_⟩
  · rw [hzeros] at hfit ⊢
    rw [extractTar]
    exact (hread (zeroBlock ++ zeroBlock) .empty hfit).trans (extractFrom_end (extractStep_end hfit))
  · have hentries : (TarFiles.empty.insertAll es).entries = es := entries_insertAll hnodup
    rw [TarFiles.named, hentries]
    exact hperm

/-! ## Any bytes -/

/-- A call that does not panic. -/
def NoPanic {α : Type} (x : Tar α) : Prop := x ≠ .error .panic

theorem noPanic_ok {α : Type} {x : Tar α} {v : α} (h : x = .ok v) : NoPanic x := by
  rw [h]
  exact nofun

theorem noPanic_fail {α : Type} (e : TarError) : NoPanic (Tar.fail e : Tar α) :=
  fun h => nomatch Except.error.inj h

theorem NoPanic.bind {α β : Type} {x : Tar α} {f : α → Tar β} (hx : NoPanic x)
    (hf : ∀ v, x = .ok v → NoPanic (f v)) : NoPanic (x >>= f) := by
  cases x with
  | error e => exact fun h => hx (congrArg Except.error (Except.error.inj h))
  | ok v => exact hf v rfl

theorem noPanic_octalField {limit : Nat} {invalid : TarError} {unparsed : Text → TarError} :
    NoPanic (octalField limit invalid unparsed bytes) := by
  rw [octalField]
  split
  · exact noPanic_fail _
  · split
    · exact noPanic_fail _
    · exact noPanic_ok rfl

theorem noPanic_safeTarPath : NoPanic (safeTarPath name) := by
  rw [safeTarPath]
  split
  · exact noPanic_fail _
  · exact noPanic_ok rfl

theorem noPanic_untilNul (h : bytes.length = n) : NoPanic (untilNul bytes n) := by
  have hle : (bytes.findIdx? (· = 0)).getD n ≤ bytes.length := by
    cases hfind : bytes.findIdx? (· = 0) with
    | none => exact h.ge
    | some i =>
      obtain ⟨hi, -⟩ := List.findIdx?_eq_some_iff_getElem.mp hfind
      exact hi.le
  exact noPanic_ok (Tar.slice_part (Nat.zero_add _).symm hle)

theorem length_part (h : a + n ≤ bytes.length) : (part bytes a n).length = n := by
  rw [part, List.length_take, List.length_drop]
  omega

theorem noPanic_tarName (h : header.length = blockSize) : NoPanic (tarName header) := by
  have hname : Tar.slice header 0 100 = .ok (part header 0 100) := Tar.slice_part rfl (h ▸ by decide)
  have hprefix : Tar.slice header 345 500 = .ok (part header 345 155) := Tar.slice_part rfl (h ▸ by decide)
  rw [tarName, Tar.bind_ok hname]
  refine (noPanic_untilNul (length_part (h ▸ by decide))).bind fun raw _ => ?_
  split
  · exact noPanic_fail _
  · rw [Tar.bind_ok hprefix]
    exact (noPanic_untilNul (length_part (h ▸ by decide))).bind fun _ _ => noPanic_ok rfl

theorem noPanic_readHeader (h : header.length = blockSize) : NoPanic (readHeader offset header) := by
  have hchecksum : Tar.slice header 148 156 = .ok (part header 148 8) := Tar.slice_part rfl (h ▸ by decide)
  have hsize : Tar.slice header 124 136 = .ok (part header 124 12) := Tar.slice_part rfl (h ▸ by decide)
  have hflag : Tar.index header 156 = .ok (header.get ⟨156, h ▸ by decide⟩) := by
    rw [Tar.index, List.getElem?_eq_getElem (h ▸ by decide)]
    rfl
  rw [readHeader, Tar.bind_ok hchecksum]
  refine noPanic_octalField.bind fun expected _ => ?_
  split
  · exact noPanic_fail _
  · refine (noPanic_tarName h).bind fun fullName _ => noPanic_safeTarPath.bind fun safeName _ => ?_
    rw [Tar.bind_ok hsize]
    refine noPanic_octalField.bind fun size _ => ?_
    rw [Tar.bind_ok hflag]
    exact noPanic_ok rfl

theorem noPanic_extractFile {h : TarHeader} : NoPanic (extractFile data offset files h) := by
  rw [extractFile]
  split
  case isTrue => exact noPanic_fail _
  case isFalse hfits =>
    have hstore : NoPanic (storeFile data offset (offset + h.size) files h) := by
      rw [storeFile]
      split
      · rw [Tar.bind_ok (Tar.slice_part rfl (Nat.le_of_not_lt fun hlt => hfits (.inr hlt)))]
        exact noPanic_ok rfl
      · exact noPanic_ok rfl
    refine hstore.bind fun files' _ => ?_
    split
    · exact noPanic_fail _
    · exact noPanic_ok rfl

theorem noPanic_extractStep (hlen : data.length ≤ usizeMax / 2) (hoffset : offset ≤ data.length + blockSize) :
    NoPanic (extractStep data offset files) := by
  have hadd : Tar.add offset blockSize = .ok (offset + blockSize) := by
    apply Tar.add_ok
    simp only [usizeMax, blockSize] at *
    omega
  rw [extractStep, Tar.bind_ok hadd]
  split
  case isTrue => exact noPanic_ok rfl
  case isFalse hfits =>
    rw [Tar.bind_ok (Tar.slice_part rfl (Nat.le_of_not_lt hfits))]
    split
    case isTrue => exact noPanic_ok rfl
    case isFalse =>
      have hblock : (part data offset blockSize).length = blockSize := length_part (Nat.le_of_not_lt hfits)
      rw [Tar.bind_ok (copyFromSlice_block hblock)]
      refine (noPanic_readHeader hblock).bind fun h _ => ?_
      rw [Tar.bind_ok hadd]
      exact noPanic_extractFile.bind fun _ _ => noPanic_ok rfl

/-- **`extract_tar` does not leave the bytes it is given.** -/
theorem noPanic_extractTar (hlen : data.length ≤ usizeMax / 2) : NoPanic (extractTar data) := by
  intro h
  have hloop : runLoop _ _ (extractStep_shrinks data) (0, TarFiles.empty) = .error .panic := by
    cases hrun : runLoop _ _ (extractStep_shrinks data) (0, TarFiles.empty) with
    | error e =>
      rw [extractTar, extractFrom, hrun] at h
      exact congrArg Except.error (Except.error.inj h)
    | ok c =>
      rw [extractTar, extractFrom, hrun] at h
      cases h
  obtain ⟨c, hoffset, hstep⟩ := runLoop_invariant (I := fun c => c.1 ≤ data.length + blockSize)
    (fun c c' _ hstep => by
      obtain ⟨size, hfits, hnext⟩ := extractStep_next hstep
      have hpad := tarPadding_lt (n := size)
      omega) (Nat.zero_le _) hloop
  exact noPanic_extractStep hlen hoffset hstep

/-- **The codec round-trips**: of files that `create_tar` accepts, with names that stay distinct and sizes
that fit their field, `extract_tar` gives back the same contents under the sanitized names; and on any bytes
it ends without a panic. -/
theorem tar_roundtrips (files : TarFiles) (data : Bytes) :
    ((files.sanitized.map Prod.fst).Nodup → (∀ f ∈ files.entries, f.2.length < 2 ^ 33) →
      ∀ archive, createTar files = .ok archive →
        ∃ found, extractTar archive = .ok found ∧ found.named.Perm files.sanitized) ∧
    (data.length ≤ usizeMax / 2 → extractTar data ≠ .error .panic) :=
  ⟨fun hnames hsize _ h => extractTar_createTar hnames hsize h, noPanic_extractTar⟩

/-! ## What is written -/

/-- The bytes that a file takes in an archive. -/
def entrySize (n : Nat) : Nat := blockSize + n + tarPadding n

theorem Tar.extend_ok (h : out.length + bytes.length ≤ usizeMax / 2) : Tar.extend out bytes = .ok (out ++ bytes) :=
  if_neg (Nat.not_lt.mpr h)

theorem createEntry_ok (hname : sanitizeTarPath key = .ok name) (hshort : (toUtf8 name).length ≤ 100)
    (hsize : (files.content key).length < 8 ^ 11)
    (hfit : out.length + entrySize (files.content key).length ≤ usizeMax / 2) :
    ∃ out', createEntry files out key = .ok out' ∧
      out'.length = out.length + entrySize (files.content key).length := by
  obtain ⟨header, hheader, hdescribes⟩ := exists_tarHeader hshort hsize
  have hsafe : safeTarPath key = .ok name := by rw [safeTarPath, hname]
  have hlen := hdescribes.length
  rw [entrySize] at hfit ⊢
  refine ⟨out ++ header ++ files.content key ++ List.replicate (tarPadding (files.content key).length) 0, ?_, ?_⟩
  · rw [createEntry, Tar.bind_ok hsafe]
    simp only
    rw [if_neg (Nat.not_lt.mpr hshort), Tar.bind_ok hheader, Tar.bind_ok (Tar.extend_ok (by omega)),
      Tar.bind_ok (Tar.extend_ok (by simp only [List.length_append]; omega)),
      Tar.extend_ok (by simp only [List.length_append, List.length_replicate]; omega)]
  · simp only [List.length_append, List.length_replicate, hlen]
    omega

theorem createEntries_ok (hkeys : ∀ key ∈ keys, (∃ name, sanitizeTarPath key = .ok name ∧
      (toUtf8 name).length ≤ 100) ∧ (files.content key).length < 8 ^ 11)
    (hfit : out.length + (keys.map fun key => entrySize (files.content key).length).sum ≤ usizeMax / 2) :
    ∃ out', keys.foldlM (createEntry files) out = .ok out' ∧
      out'.length = out.length + (keys.map fun key => entrySize (files.content key).length).sum := by
  induction keys generalizing out with
  | nil => exact ⟨out, rfl, rfl⟩
  | cons key keys ih =>
    rw [List.forall_mem_cons] at hkeys
    rw [List.map_cons, List.sum_cons] at hfit ⊢
    obtain ⟨⟨name, hname, hshort⟩, hsize⟩ := hkeys.1
    have hfit₁ : out.length + entrySize (files.content key).length ≤ usizeMax / 2 := by omega
    obtain ⟨out₁, h₁, hlen₁⟩ := createEntry_ok hname hshort hsize hfit₁
    have hfit₂ : out₁.length + (keys.map fun key => entrySize (files.content key).length).sum ≤ usizeMax / 2 := by omega
    obtain ⟨out₂, h₂, hlen₂⟩ := ih hkeys.2 hfit₂
    refine ⟨out₂, ?_, by omega⟩
    rw [List.foldlM_cons, Tar.bind_ok h₁]
    exact h₂

/-- **`create_tar` succeeds** when the names are safe and short and the archive fits. -/
theorem createTar_ok (hkeys : ∀ key ∈ files.sortedKeys, (∃ name, sanitizeTarPath key = .ok name ∧
      (toUtf8 name).length ≤ 100) ∧ (files.content key).length < 8 ^ 11)
    (hfit : (files.sortedKeys.map fun key => entrySize (files.content key).length).sum + blockSize * 2 ≤ usizeMax / 2) :
    ∃ archive, createTar files = .ok archive := by
  have hfit' : List.length ([] : Bytes) + (files.sortedKeys.map fun key => entrySize (files.content key).length).sum ≤
      usizeMax / 2 := by
    rw [List.length_nil]
    omega
  obtain ⟨out, h, hlen⟩ := createEntries_ok hkeys hfit'
  refine ⟨out ++ List.replicate (blockSize * 2) 0, ?_⟩
  rw [createTar, Tar.bind_ok h]
  refine Tar.extend_ok ?_
  rw [hlen, List.length_nil, List.length_replicate]
  omega

end

/-- A file of three bytes under a name with a dot, and an empty one. -/
def twoFiles : TarFiles := ⟨[("./a/b".toList, [1, 2, 3]), ("c".toList, [])], by decide⟩

theorem tar_roundtrips_twoFiles :
    ∃ archive, createTar twoFiles = .ok archive ∧ (∃ found, extractTar archive = .ok found ∧
      found.named.Perm [(.ok "a/b".toList, [1, 2, 3]), (.ok "c".toList, [])]) ∧
      extractTar [1, 2, 3] ≠ .error .panic := by
  have hkeys : twoFiles.sortedKeys = ["./a/b".toList, "c".toList] := by decide
  have hsanitized : twoFiles.sanitized = [(.ok "a/b".toList, [1, 2, 3]), (.ok "c".toList, [])] := by decide
  obtain ⟨archive, h⟩ : ∃ archive, createTar twoFiles = .ok archive := by
    refine createTar_ok ?_ ?_
    · rw [hkeys, List.forall_mem_cons, List.forall_mem_singleton]
      exact ⟨⟨⟨"a/b".toList, by decide, by decide⟩, by decide⟩, ⟨⟨"c".toList, by decide, by decide⟩, by decide⟩⟩
    · rw [hkeys]
      decide
  have hround := tar_roundtrips twoFiles [1, 2, 3]
  refine ⟨archive, h, ?_, hround.2 (by decide)⟩
  rw [← hsanitized]
  exact hround.1 (by decide) (by decide) archive h

end Datara.Project
