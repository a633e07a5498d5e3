import Datara.Library.CheckedWalk
import Datara.Library.Upsert
import Mathlib.Data.Char
import Mathlib.Data.List.Lex

/-!
# The incremental cache

A module's fingerprint holds the hash of its content and the names of its dependencies as they were written. A name is resolved
to a file anew each time freshness is asked for, so the answer is about the files the names lead to now. What a name led to when
the module was recorded is kept here beside the cache (`Tracked`), which does not have it: the answer is sound exactly when, on a
walk that finds nothing changed, every name still leads where it led (`freshness_sound_iff`).
-/

namespace Datara.Project.Incremental

open Datara.Library

abbrev Name := List Char

abbrev Content := List UInt8

/-- The operations of a platform's paths. -/
structure PathOps (P : Type) where
  ofText : Name → P
  text : P → Name
  parent : P → Option P
  join : P → P → P
  isAbsolute : P → Bool
  fileStem : P → Option Name
  fileName : P → Option Name

/-- What is on the disk: a path may be there without being a text file. -/
structure Disk (P : Type) where
  present : P → Bool
  read : P → Option Content

structure ModuleFingerprint where
  path : Name
  hash : Name
  lastModified : Nat
  directDependencies : List Name

structure IncrementalCache where
  fingerprints : List (Name × ModuleFingerprint)

/-- FNV-1a over the bytes of a content. -/
def fnv (content : Content) : BitVec 64 :=
  content.foldl (fun hash byte => (hash ^^^ byte.toBitVec.setWidth 64) * 0x100000001b3#64) 0xcbf29ce484222325#64

/-- `format!("{:016x}")` of the hash. -/
def calculateHash (content : Content) : Name := (Nat.toDigits 16 (fnv content).toNat).leftpad 16 '0'

variable {P : Type}

section
variable (ops : PathOps P)

def normalizePath (path : P) : Name := (ops.text path).map fun c => if c = '\\' then '/' else c

def IncrementalCache.new : IncrementalCache := ⟨[]⟩

def IncrementalCache.updateModule (cache : IncrementalCache) (now : Nat) (path : P) (content : Content)
    (dependencies : List Name) : IncrementalCache :=
  let pathStr := normalizePath ops path
  ⟨upsert pathStr ⟨pathStr, calculateHash content, now, dependencies⟩ cache.fingerprints⟩

def IncrementalCache.invalidateModule (cache : IncrementalCache) (path : P) : IncrementalCache :=
  ⟨cache.fingerprints.filter fun e => e.1 ≠ normalizePath ops path⟩

def IncrementalCache.isModuleFresh (cache : IncrementalCache) (path : P) (content : Content) : Bool :=
  match cache.fingerprints.lookup (normalizePath ops path) with
  | some fp => fp.hash == calculateHash content
  | none => false

def extension : Name := ['.', 'd', 't', 'r']

def srcDir : Name := ['s', 'r', 'c']

variable (disk : Disk P)

/-- The keys with the name of a dependency, smallest first. -/
def IncrementalCache.matching (cache : IncrementalCache) (dep : Name) : List Name :=
  ((cache.fingerprints.map Prod.fst).filter fun key =>
    ops.fileStem (ops.ofText key) == some dep || ops.fileName (ops.ofText key) == some dep).mergeSort (· ≤ ·)

def IncrementalCache.resolveDependency (cache : IncrementalCache) (source : P) (dep : Name) : Option P :=
  if dep = [] then none
  else if ops.isAbsolute (ops.ofText dep) && disk.present (ops.ofText dep) then some (ops.ofText dep)
  else
    let base := (ops.parent source).getD (ops.ofText ['.'])
    let candidates := [ops.join base (ops.ofText (dep ++ extension)), ops.join base (ops.ofText dep),
      ops.join (ops.join base (ops.ofText srcDir)) (ops.ofText (dep ++ extension))]
    match candidates.find? disk.present with
    | some cand => some cand
    | none => ((cache.matching ops dep).head?).map ops.ofText

/-- The loop of `check_transitive` over the dependencies. -/
def IncrementalCache.checkDependencies (cache : IncrementalCache)
    (check : P → Content → List Name → Option (Bool × List Name)) (path : P) :
    List Name → List Name → Option (Bool × List Name)
  | [], visited => some (true, visited)
  | dep :: deps, visited =>
    match cache.resolveDependency ops disk path dep with
    | none => checkDependencies cache check path deps visited
    | some depPath =>
      match disk.read depPath with
      | none => some (false, visited)
      | some depContent =>
        match check depPath depContent visited with
        | some (true, visited') => checkDependencies cache check path deps visited'
        | r => r

def IncrementalCache.checkTransitive (cache : IncrementalCache) : Nat → P → Content → List Name → Option (Bool × List Name)
  | 0, _, _, _ => none
  | fuel + 1, path, content, visited =>
    let pathStr := normalizePath ops path
    if pathStr ∈ visited then some (true, visited)
    else
      match cache.fingerprints.lookup pathStr with
      | none => some (false, pathStr :: visited)
      | some fp =>
        if fp.hash ≠ calculateHash content then some (false, pathStr :: visited)
        else
          checkDependencies ops disk cache (checkTransitive cache fuel) path fp.directDependencies (pathStr :: visited)

def IncrementalCache.isModuleFreshTransitive (cache : IncrementalCache) (fuel : Nat) (path : P) (content : Content) :
    Option Bool :=
  (cache.checkTransitive ops disk fuel path content []).map Prod.fst

end

/-! ## The history of a cache -/

/-- A call that changes the cache; an update sees the disk as it is then. -/
inductive Call (P : Type)
  | updateModule (disk : Disk P) (now : Nat) (path : P) (content : Content) (dependencies : List Name)
  | invalidateModule (path : P)

/-- What was so when a module was recorded: its content, and the file each name led to. -/
structure Recorded (P : Type) where
  content : Content
  target : Name → Option P

structure Tracked (P : Type) where
  cache : IncrementalCache
  records : Name → Option (Recorded P)

section
variable (ops : PathOps P)

/-- The file a name leads to, if there is one that can be read. -/
def fileOf (disk : Disk P) (cache : IncrementalCache) (path : P) (dep : Name) : Option P :=
  (cache.resolveDependency ops disk path dep).filter fun q => (disk.read q).isSome

def Tracked.step (t : Tracked P) : Call P → Tracked P
  | .updateModule disk now path content deps =>
    let cache := t.cache.updateModule ops now path content deps
    ⟨cache, fun key => if key = normalizePath ops path then some ⟨content, fileOf ops disk cache path⟩ else t.records key⟩
  | .invalidateModule path =>
    ⟨t.cache.invalidateModule ops path, fun key => if key = normalizePath ops path then none else t.records key⟩

def Tracked.run (calls : List (Call P)) : Tracked P := calls.foldl (Tracked.step ops) ⟨.new, fun _ => none⟩

end

end Datara.Project.Incremental

/-!
## When transitive freshness is sound

`check_transitive` is a walk that checks what it meets, over the names as they resolve now. What it says `true` to has its
recorded content; that this is the closure that was recorded depends on the names leading where they led.
-/

namespace Datara.Project.Incremental

open Datara.Library Datara.Library.CheckedWalk

variable {P : Type} [DecidableEq P]

/-! ## What the cache and the history have in common -/

section
variable {ops : PathOps P}

/-- Each fingerprint has the hash of the content that was recorded. -/
def Faithful (t : Tracked P) : Prop :=
  ∀ key, (t.cache.fingerprints.lookup key).map ModuleFingerprint.hash = (t.records key).map fun r => calculateHash r.content

omit [DecidableEq P] in
theorem lookup_invalidate (l : List (Name × ModuleFingerprint)) (gone key : Name) :
    (l.filter fun e => e.1 ≠ gone).lookup key = if key = gone then none else l.lookup key := by
  induction l with
  | nil => simp
  | cons e l ih =>
    rw [List.filter_cons, lookup_cons]
    by_cases he : e.1 = gone
    · rw [if_neg (by simp [he]), ih]
      by_cases hk : key = gone
      · rw [if_pos hk, if_pos hk]
      · rw [if_neg hk, if_neg hk, if_neg (by rw [he]; exact hk)]
    · rw [if_pos (by simp [he]), lookup_cons, ih]
      by_cases hk : key = gone
      · rw [if_pos hk, if_pos hk, if_neg (by rw [hk]; exact Ne.symm he)]
      · rw [if_neg hk, if_neg hk]

omit [DecidableEq P] in
theorem Faithful.step {t : Tracked P} (h : Faithful t) (call : Call P) : Faithful (t.step ops call) := by
  intro key
  cases call with
  | updateModule disk now path content deps =>
    rw [Tracked.step]
    dsimp only [IncrementalCache.updateModule]
    rw [lookup_upsert]
    split
    · rfl
    · exact h key
  | invalidateModule path =>
    rw [Tracked.step]
    dsimp only [IncrementalCache.invalidateModule]
    rw [lookup_invalidate]
    split
    · rfl
    · exact h key

omit [DecidableEq P] in
theorem Faithful.run (calls : List (Call P)) : Faithful (Tracked.run ops calls) := by
  have hall : ∀ t, Faithful t → Faithful (calls.foldl (Tracked.step ops) t) := by
    induction calls with
    | nil => exact fun _ h => h
    | cons call calls ih => exact fun t h => ih _ (h.step call)
  exact hall _ fun _ => rfl

end

/-! ## What is asked of the answer -/

section
variable (ops : PathOps P) (disk : Disk P) (t : Tracked P) (path : P) (content : Content)

/-- What a module holds; of the one that is asked about it is given. -/
def contentAt (q : P) : Option Content := if q = path then some content else disk.read q

/-- A name among the recorded dependencies of a module. -/
def Expects (q : P) (dep : Name) : Prop :=
  ∃ fp, t.cache.fingerprints.lookup (normalizePath ops q) = some fp ∧ dep ∈ fp.directDependencies

/-- A name that led to a file when the module was recorded. -/
def Target (q : P) (dep : Name) (file : P) : Prop :=
  Expects ops t q dep ∧ ∃ r, t.records (normalizePath ops q) = some r ∧ r.target dep = some file

/-- The modules that were recorded with each other, from the one that is asked about. -/
def RecordedReach : P → Prop := Relation.ReflTransGen (fun q file => ∃ dep, Target ops t q dep file) path

/-- The modules that the names lead to now. -/
def CurrentReach : P → Prop :=
  Relation.ReflTransGen (fun q file => ∃ dep, Expects ops t q dep ∧ t.cache.resolveDependency ops disk q dep = some file) path

/-- A module has its recorded content. -/
def Unchanged (q : P) : Prop :=
  ∃ r, t.records (normalizePath ops q) = some r ∧ contentAt disk path content q = some r.content

/-- The module is as recorded, and so is all that was recorded with it, where it was. -/
structure Sound : Prop where
  own : ∃ r, t.records (normalizePath ops path) = some r ∧ r.content = content
  targets : ∀ q, RecordedReach ops t path q → ∀ dep file, Target ops t q dep file →
    t.cache.resolveDependency ops disk q dep = some file ∧ Unchanged ops disk t path content file

/-- The question is answered, and a yes is sound. -/
def FreshIsSound : Prop :=
  ∃ answer least, (∀ fuel ≥ least, t.cache.isModuleFreshTransitive ops disk fuel path content = some answer) ∧
    (answer = true → Sound ops disk t path content)

/-- Nothing that the names lead to now is changed, unrecorded or unreadable. -/
def NothingChanged : Prop :=
  ∀ q, CurrentReach ops disk t path q → Unchanged ops disk t path content q ∧
    ∀ dep file, Expects ops t q dep → t.cache.resolveDependency ops disk q dep = some file → (disk.read file).isSome

/-- Every name that led to a file leads to it now. -/
def Unmoved : Prop :=
  ∀ q, RecordedReach ops t path q → ∀ dep file, Target ops t q dep file → t.cache.resolveDependency ops disk q dep = some file

/-- Two of the paths met have one key only when they are one. -/
def KeysTell : Prop :=
  ∀ q q', CurrentReach ops disk t path q → CurrentReach ops disk t path q' → normalizePath ops q = normalizePath ops q' → q = q'

/-- No recorded content has the hash of another content at hand. -/
def CollisionFree : Prop :=
  ∀ key r c, t.records key = some r → (c = content ∨ ∃ q, disk.read q = some c) →
    calculateHash r.content = calculateHash c → r.content = c

end

/-! ## The walk -/

section
variable (ops : PathOps P) (disk : Disk P) (t : Tracked P) (path : P) (content : Content)

/-- What a name leads the walk to: nowhere, to a file, or to what cannot be read. -/
def stepTo (q : P) (dep : Name) : Option (Option P) :=
  (t.cache.resolveDependency ops disk q dep).map fun file => if (disk.read file).isSome then some file else none

def succ (q : P) : Option (List (Option P)) :=
  match t.cache.fingerprints.lookup (normalizePath ops q), contentAt disk path content q with
  | some fp, some c => if fp.hash ≠ calculateHash c then none else some (fp.directDependencies.filterMap (stepTo ops disk t q))
  | _, _ => none

end

section
variable {ops : PathOps P} {disk : Disk P} {t : Tracked P} {path : P} {content : Content}

theorem checkDependencies_eq {check : P → Content → List Name → Option (Bool × List Name)}
    {visit : P → List Name → Option (Bool × List Name)} {q : P} {I : List Name → Prop}
    (hvisit : ∀ file c visited, disk.read file = some c → I visited → check file c visited = visit file visited)
    (hkeep : ∀ file visited r visited', I visited → visit file visited = some (r, visited') → I visited') :
    ∀ (deps visited : List Name), I visited →
      t.cache.checkDependencies ops disk check q deps visited = walkAll visit (deps.filterMap (stepTo ops disk t q)) visited := by
  intro deps
  induction deps with
  | nil => exact fun _ _ => rfl
  | cons dep deps ih =>
    intro visited hI
    rw [IncrementalCache.checkDependencies, List.filterMap_cons, stepTo]
    cases hres : t.cache.resolveDependency ops disk q dep with
    | none => exact ih visited hI
    | some file =>
      cases hread : disk.read file with
      | none => simp [walkAll, hread]
      | some c =>
        simp only [Option.map_some, hread, Option.isSome_some, if_true, walkAll]
        rw [hvisit file c visited hread hI]
        cases hv : visit file visited with
        | none => rfl
        | some r =>
          obtain ⟨ok, mid⟩ := r
          cases ok with
          | false => rfl
          | true => exact ih mid (hkeep file visited true mid hI hv)

theorem checkTransitive_eq (fuel : Nat) (q : P) (c : Content) (visited : List Name)
    (hmet : normalizePath ops path ∈ visited ∨ q = path ∧ c = content) (hread : q ≠ path → disk.read q = some c) :
    t.cache.checkTransitive ops disk fuel q c visited =
      visit (normalizePath ops) (succ ops disk t path content) fuel q visited := by
  induction fuel generalizing q c visited with
  | zero => rfl
  | succ fuel ih =>
    rw [IncrementalCache.checkTransitive, visit]
    by_cases hin : normalizePath ops q ∈ visited
    · rw [if_pos hin, if_pos hin]
    · have hcontent : contentAt disk path content q = some c := by
        rw [contentAt]
        by_cases hq : q = path
        · rw [if_pos hq, (hmet.resolve_left (hq ▸ hin)).2]
        · rw [if_neg hq, hread hq]
      have hstart : normalizePath ops path ∈ normalizePath ops q :: visited := by
        rcases hmet with hmet | ⟨rfl, -⟩
        · exact List.mem_cons_of_mem _ hmet
        · exact List.mem_cons_self
      rw [if_neg hin, if_neg hin, succ, hcontent]
      cases t.cache.fingerprints.lookup (normalizePath ops q) with
      | none => rfl
      | some fp =>
        dsimp only
        by_cases hhash : fp.hash ≠ calculateHash c
        · rw [if_pos hhash, if_pos hhash]
        · rw [if_neg hhash, if_neg hhash]
          exact checkDependencies_eq (I := fun v => normalizePath ops path ∈ v)
            (fun file c' v hfile hv => ih file c' v (.inl hv) fun _ => hfile)
            (fun file v r v' hv h => visit_grows h _ hv) _ _ hstart

theorem isModuleFreshTransitive_eq (fuel : Nat) : t.cache.isModuleFreshTransitive ops disk fuel path content =
    (visit (normalizePath ops) (succ ops disk t path content) fuel path []).map Prod.fst := by
  rw [IncrementalCache.isModuleFreshTransitive, checkTransitive_eq fuel path content [] (.inr ⟨rfl, rfl⟩) fun h => absurd rfl h]

theorem isModuleFresh_of_transitive {fuel : Nat} (h : t.cache.isModuleFreshTransitive ops disk fuel path content = some true) :
    t.cache.isModuleFresh ops path content = true := by
  rw [isModuleFreshTransitive_eq] at h
  rw [IncrementalCache.isModuleFresh]
  cases fuel with
  | zero => simp [visit] at h
  | succ fuel =>
    rw [visit, if_neg List.not_mem_nil, succ, contentAt, if_pos rfl] at h
    cases hfp : t.cache.fingerprints.lookup (normalizePath ops path) with
    | none => simp [hfp] at h
    | some fp =>
      rw [hfp] at h
      dsimp only at h
      by_cases hhash : fp.hash = calculateHash content
      · exact beq_iff_eq.mpr hhash
      · rw [if_pos hhash] at h
        simp at h

variable (ops disk t path content) in
theorem answered : ∃ answer least visited,
    (∀ fuel ≥ least, t.cache.isModuleFreshTransitive ops disk fuel path content = some answer) ∧
    visit (normalizePath ops) (succ ops disk t path content) least path [] = some (answer, visited) := by
  have hkeys (q : P) (hq : (succ ops disk t path content q).isSome) :
      normalizePath ops q ∈ t.cache.fingerprints.map Prod.fst := by
    rw [succ] at hq
    split at hq
    case h_1 fp c hfp hc =>
      obtain ⟨l₁, l₂, heq, -⟩ := List.lookup_eq_some_iff.mp hfp
      simp [heq]
    case h_2 => simp at hq
  have hsome := visit_isSome hkeys (Nat.lt_succ_self (ahead (t.cache.fingerprints.map Prod.fst) [])) (a := path)
  obtain ⟨⟨answer, visited⟩, h⟩ := Option.isSome_iff_exists.mp hsome
  refine ⟨answer, _, visited, fun fuel hfuel => ?_, h⟩
  rw [isModuleFreshTransitive_eq, visit_of_le h hfuel]
  rfl

/-! ## What a walk says of the modules -/

theorem hash_eq_iff (hfaithful : Faithful t) (hcoll : CollisionFree disk t content) {q : P} {fp : ModuleFingerprint}
    {c : Content} (hfp : t.cache.fingerprints.lookup (normalizePath ops q) = some fp)
    (hc : c = content ∨ ∃ q, disk.read q = some c) :
    fp.hash = calculateHash c ↔ ∃ r, t.records (normalizePath ops q) = some r ∧ c = r.content := by
  have h := hfaithful (normalizePath ops q)
  rw [hfp] at h
  obtain ⟨r, hr, hhash⟩ := Option.map_eq_some_iff.mp h.symm
  rw [← hhash]
  constructor
  · exact fun heq => ⟨r, hr, (hcoll _ r c hr hc heq).symm⟩
  · rintro ⟨r', hr', rfl⟩
    rw [Option.some.inj (hr.symm.trans hr')]

theorem contentAt_atHand {q : P} {c : Content} (h : contentAt disk path content q = some c) :
    c = content ∨ ∃ q, disk.read q = some c := by
  rw [contentAt] at h
  split at h
  · exact .inl (Option.some.inj h).symm
  · exact .inr ⟨q, h⟩

theorem lookup_isSome_iff (hfaithful : Faithful t) (key : Name) :
    (t.cache.fingerprints.lookup key).isSome ↔ (t.records key).isSome := by
  have h := congrArg Option.isSome (hfaithful key)
  rw [Option.isSome_map, Option.isSome_map] at h
  rw [h]

theorem unchanged_iff (hfaithful : Faithful t) (hcoll : CollisionFree disk t content) (q : P) :
    Unchanged ops disk t path content q ↔ (succ ops disk t path content q).isSome := by
  rw [succ]
  constructor
  · rintro ⟨r, hr, hc⟩
    obtain ⟨fp, hfp⟩ := Option.isSome_iff_exists.mp ((lookup_isSome_iff hfaithful _).mpr (by rw [hr]; rfl))
    have hhash := (hash_eq_iff hfaithful hcoll hfp (contentAt_atHand hc)).mpr ⟨r, hr, rfl⟩
    rw [hfp, hc]
    simp [hhash]
  · intro h
    split at h
    case h_1 fp c hfp hc =>
      split at h
      · simp at h
      case isFalse hhash =>
        obtain ⟨r, hr, rfl⟩ := (hash_eq_iff hfaithful hcoll hfp (contentAt_atHand hc)).mp (not_not.mp hhash)
        exact ⟨r, hr, hc⟩
    case h_2 => simp at h

theorem succ_eq {q : P} {next : List (Option P)} (h : succ ops disk t path content q = some next) :
    ∃ fp, t.cache.fingerprints.lookup (normalizePath ops q) = some fp ∧
      next = fp.directDependencies.filterMap (stepTo ops disk t q) := by
  rw [succ] at h
  split at h
  case h_1 fp c hfp hc =>
    split at h
    · simp at h
    · exact ⟨fp, hfp, (Option.some.inj h).symm⟩
  case h_2 => simp at h

theorem leadsTo_iff {q file : P} (hq : (succ ops disk t path content q).isSome) :
    LeadsTo (succ ops disk t path content) q file ↔
      ∃ dep, Expects ops t q dep ∧ t.cache.resolveDependency ops disk q dep = some file ∧ (disk.read file).isSome := by
  obtain ⟨next, hnext⟩ := Option.isSome_iff_exists.mp hq
  obtain ⟨fp, hfp, rfl⟩ := succ_eq hnext
  rw [LeadsTo, hnext]
  simp only [Option.some.injEq, exists_eq_left', List.mem_filterMap, stepTo, Option.map_eq_some_iff, Expects, hfp]
  constructor
  · rintro ⟨dep, hdep, f, hf, hread⟩
    split at hread
    case isTrue hsome =>
      cases hread
      exact ⟨dep, hdep, hf, hsome⟩
    case isFalse => simp at hread
  · rintro ⟨dep, hdep, hf, hsome⟩
    exact ⟨dep, hdep, file, hf, if_pos hsome⟩

theorem refused_iff {q : P} {next : List (Option P)} (hnext : succ ops disk t path content q = some next) :
    none ∉ next ↔
      ∀ dep file, Expects ops t q dep → t.cache.resolveDependency ops disk q dep = some file → (disk.read file).isSome := by
  obtain ⟨fp, hfp, rfl⟩ := succ_eq hnext
  simp only [List.mem_filterMap, stepTo, Option.map_eq_some_iff, Expects, hfp, Option.some.injEq, exists_eq_left', not_exists,
    not_and]
  constructor
  · intro h dep file hdep hfile
    by_contra hnone
    exact h dep hdep file hfile (if_neg hnone)
  · intro h dep hdep file hfile hnone
    rw [if_pos (h dep file hdep hfile)] at hnone
    simp at hnone

theorem current_of_reach {q : P} (h : Reach (succ ops disk t path content) path q) : CurrentReach ops disk t path q := by
  induction h with
  | refl => exact .refl
  | @tail b c _ hbc ih =>
    have hb : (succ ops disk t path content b).isSome := by
      obtain ⟨next, hnext, -⟩ := hbc
      rw [hnext]
      rfl
    obtain ⟨dep, hdep, hres, -⟩ := (leadsTo_iff hb).mp hbc
    exact ih.tail ⟨dep, hdep, hres⟩

theorem passes_iff (hfaithful : Faithful t) (hcoll : CollisionFree disk t content) :
    (∀ q, Reach (succ ops disk t path content) path q → Passes (succ ops disk t path content) q) ↔
      NothingChanged ops disk t path content := by
  constructor
  · intro h q hq
    have hreach : Reach (succ ops disk t path content) path q := by
      induction hq with
      | refl => exact .refl
      | @tail b c _ hbc ih =>
        obtain ⟨next, hnext, hnone⟩ := h b ih
        obtain ⟨dep, hdep, hres⟩ := hbc
        exact ih.tail ((leadsTo_iff (by rw [hnext]; rfl)).mpr ⟨dep, hdep, hres, (refused_iff hnext).mp hnone dep c hdep hres⟩)
    obtain ⟨next, hnext, hnone⟩ := h q hreach
    exact ⟨(unchanged_iff hfaithful hcoll q).mpr (by rw [hnext]; rfl), (refused_iff hnext).mp hnone⟩
  · intro h q hq
    obtain ⟨hunchanged, hreads⟩ := h q (current_of_reach hq)
    obtain ⟨next, hnext⟩ := Option.isSome_iff_exists.mp ((unchanged_iff hfaithful hcoll q).mp hunchanged)
    exact ⟨next, hnext, (refused_iff hnext).mpr hreads⟩

/-- Where nothing has moved, what was recorded together is what the names lead to now. -/
theorem sound_of_unmoved (hchanged : NothingChanged ops disk t path content) (hmoved : Unmoved ops disk t path) :
    Sound ops disk t path content := by
  have hcurrent (q : P) (hq : RecordedReach ops t path q) : CurrentReach ops disk t path q := by
    induction hq with
    | refl => exact .refl
    | @tail b c hb hbc ih =>
      obtain ⟨dep, htarget⟩ := hbc
      exact ih.tail ⟨dep, htarget.1, hmoved b hb dep c htarget⟩
  refine ⟨?_, fun q hq dep file htarget => ?_⟩
  · obtain ⟨r, hr, hc⟩ := (hchanged path .refl).1
    rw [contentAt, if_pos rfl] at hc
    exact ⟨r, hr, (Option.some.inj hc).symm⟩
  · have hres := hmoved q hq dep file htarget
    exact ⟨hres, (hchanged file ((hcurrent q hq).tail ⟨dep, htarget.1, hres⟩)).1⟩

end

/-- **A yes is sound exactly when names still lead where they led, as far as nothing that they lead to now has changed.** -/
theorem freshness_sound_iff (ops : PathOps P) (calls : List (Call P)) (disk : Disk P) (path : P) (content : Content)
    (hcoll : CollisionFree disk (Tracked.run ops calls) content) (hkeys : KeysTell ops disk (Tracked.run ops calls) path) :
    FreshIsSound ops disk (Tracked.run ops calls) path content ↔
      (NothingChanged ops disk (Tracked.run ops calls) path content → Unmoved ops disk (Tracked.run ops calls) path) := by
  have hfaithful : Faithful (Tracked.run ops calls) := .run calls
  obtain ⟨answer, least, visited, hanswer, hvisit⟩ := answered ops disk (Tracked.run ops calls) path content
  have hiff : answer = true ↔ NothingChanged ops disk (Tracked.run ops calls) path content := by
    rw [← passes_iff hfaithful hcoll]
    exact visit_eq_true_iff (fun b c hb hc => hkeys b c (current_of_reach hb) (current_of_reach hc)) hvisit
  constructor
  · rintro ⟨answer', least', hanswer', hsound⟩ hchanged q hq dep file htarget
    have hsame : answer' = answer := Option.some.inj
      ((hanswer' (max least least') (Nat.le_max_right _ _)).symm.trans (hanswer (max least least') (Nat.le_max_left _ _)))
    exact ((hsound (hsame ▸ hiff.mpr hchanged)).targets q hq dep file htarget).1
  · intro hmoved
    exact ⟨answer, least, hanswer, fun htrue => sound_of_unmoved (hiff.mp htrue) (hmoved (hiff.mp htrue))⟩

/-! ## A dependency that is gone -/

/-- Paths with `/`, without empty parts, `.` parts and a trailing separator. -/
def unix : PathOps Name where
  ofText := id
  text := id
  parent path := if path = [] ∨ path = ['/'] then none else some ((path.reverse.dropWhile (· ≠ '/')).drop 1).reverse
  join base path :=
    if base = [] ∨ path.head? = some '/' then path else if base.getLast? = some '/' then base ++ path else base ++ '/' :: path
  isAbsolute path := path.head? = some '/'
  fileStem path :=
    let name := path.reverse.takeWhile (· ≠ '/')
    if name = [] then none else if '.' ∈ name.dropLast then some ((name.dropWhile (· ≠ '.')).drop 1).reverse else some name.reverse
  fileName path := if path = [] ∨ path = ['/'] then none else some (path.reverse.takeWhile (· ≠ '/')).reverse

private def moduleA : Name := ['a', '.', 'd', 't', 'r']

private def moduleB : Name := ['b', '.', 'd', 't', 'r']

private def diskOf (files : List Name) : Disk Name where
  present path := files.contains path
  read path := if files.contains path then some [] else none

private def recordedA : List (Call Name) := [.updateModule (diskOf [moduleA, moduleB]) 0 moduleA [] [['b']]]

private def diskNow : Disk Name := diskOf [moduleA]

private def trackedA : Tracked Name := Tracked.run unix recordedA

theorem gone_unmatched : trackedA.cache.matching unix ['b'] = [] := by
  have hnone : ((trackedA.cache.fingerprints.map Prod.fst).filter fun key =>
      unix.fileStem (unix.ofText key) == some ['b'] || unix.fileName (unix.ofText key) == some ['b']) = [] := rfl
  rw [IncrementalCache.matching, hnone, List.mergeSort_nil]

theorem gone_skipped : trackedA.cache.resolveDependency unix diskNow moduleA ['b'] = none := by
  rw [IncrementalCache.resolveDependency, gone_unmatched]
  rfl

theorem gone_fresh (fuel : Nat) : trackedA.cache.isModuleFreshTransitive unix diskNow (fuel + 1) moduleA [] = some true := by
  have hlookup : trackedA.cache.fingerprints.lookup (normalizePath unix moduleA) =
      some ⟨moduleA, calculateHash [], 0, [['b']]⟩ := rfl
  rw [IncrementalCache.isModuleFreshTransitive, IncrementalCache.checkTransitive, if_neg List.not_mem_nil, hlookup]
  dsimp only
  rw [if_neg (not_not.mpr rfl), IncrementalCache.checkDependencies, gone_skipped]
  rfl

/-- The file a module was recorded with is deleted, and the module is said to be fresh. -/
theorem deleted_dependency_fresh : ¬FreshIsSound unix diskNow trackedA moduleA [] := by
  rintro ⟨answer, least, hanswer, hsound⟩
  have htrue : true = answer := Option.some.inj ((gone_fresh least).symm.trans (hanswer (least + 1) (Nat.le_succ least)))
  have htarget : Target unix trackedA moduleA ['b'] moduleB :=
    ⟨⟨_, rfl, List.mem_singleton.mpr rfl⟩, _, rfl, rfl⟩
  have hres := ((hsound htrue.symm).targets moduleA .refl ['b'] moduleB htarget).1
  rw [gone_skipped] at hres
  simp at hres

theorem freshness_sound_deleted : FreshIsSound unix diskNow trackedA moduleA [] ↔
    (NothingChanged unix diskNow trackedA moduleA [] → Unmoved unix diskNow trackedA moduleA) := by
  have hrecord (key : Name) (r : Recorded Name) (hr : trackedA.records key = some r) : r.content = [] := by
    rw [trackedA, Tracked.run, recordedA, List.foldl_cons, List.foldl_nil, Tracked.step] at hr
    dsimp only at hr
    split at hr
    · exact (congrArg Recorded.content (Option.some.inj hr)).symm
    · simp at hr
  have hread (q : Name) (c : Content) (hc : diskNow.read q = some c) : c = [] := by
    rw [diskNow, diskOf] at hc
    dsimp only at hc
    split at hc
    · exact (Option.some.inj hc).symm
    · simp at hc
  have honly (q : Name) (hq : CurrentReach unix diskNow trackedA moduleA q) : q = moduleA := by
    induction hq with
    | refl => rfl
    | @tail b c _ hbc ih =>
      subst ih
      obtain ⟨dep, ⟨fp, hfp, hdep⟩, hres⟩ := hbc
      have hdeps : [['b']] = fp.directDependencies := congrArg ModuleFingerprint.directDependencies (Option.some.inj hfp)
      rw [← hdeps, List.mem_singleton] at hdep
      rw [hdep, gone_skipped] at hres
      simp at hres
  refine freshness_sound_iff unix recordedA diskNow moduleA [] (fun key r c hr hc _ => ?_) fun q q' hq hq' _ => ?_
  · rw [hrecord key r hr]
    rcases hc with rfl | ⟨q, hq⟩
    · rfl
    · exact (hread q c hq).symm
  · rw [honly q hq, honly q' hq']

end Datara.Project.Incremental
