import Datara.Project.Glob

/-!
# Package versions

`validate_semver` of `project/manifest.rs`: build metadata is cut off at the first `+`, a pre-release at the
first `-` of what is left, and the core at its dots. The accepted texts are those of the grammar of
SemVer 2.0.0 (`validateSemver_ok_iff`).

A length is counted in characters; where the source takes one, all of them are ASCII.
-/

namespace Datara.Project

/-- `split_once`. -/
def splitOnce (c : Char) (s : Text) : Option (Text × Text) :=
  match s.dropWhile (· ≠ c) with
  | [] => none
  | _ :: rest => some (s.takeWhile (· ≠ c), rest)

namespace Semver

/-- `!id.is_empty() && id.chars().all(|ch| ch.is_ascii_alphanumeric() || ch == '-')`. -/
def isIdentifier (id : Text) : Bool := !id.isEmpty && id.all fun ch => ch.isAlphanum || ch = '-'

/-- `s.len() > 1 && s.starts_with('0')`. -/
def leadingZero (s : Text) : Bool := 1 < s.length && s.head? = some '0'

/-- Build metadata is checked and cut off. -/
def cutBuild (version : Text) : Except Text Text :=
  match splitOnce '+' version with
  | some (c, b) =>
    if b.isEmpty || !(b.splitOn '.').all isIdentifier then
      .error ("Invalid semver build metadata '+".toList ++ b ++ "' in '".toList ++ version ++ "'".toList)
    else .ok c
  | none => .ok version

/-- The identifiers of a pre-release, one after the other. -/
def checkPrerelease (version : Text) : List Text → Except Text Unit
  | [] => .ok ()
  | id :: ids =>
    if !isIdentifier id then
      .error ("Invalid semver prerelease identifier '".toList ++ id ++ "' in '".toList ++ version ++ "'".toList)
    else if id.all Char.isDigit && leadingZero id then
      .error ("Leading zero in numeric semver prerelease '".toList ++ id ++ "' in '".toList ++ version ++
        "'".toList)
    else checkPrerelease version ids

/-- The pre-release is checked and cut off. -/
def cutPrerelease (version coreAndPre : Text) : Except Text Text :=
  match splitOnce '-' coreAndPre with
  | some (c, p) =>
    if p.isEmpty then
      .error ("Invalid empty semver prerelease in '".toList ++ version ++ "'".toList)
    else do
      checkPrerelease version (p.splitOn '.')
      return c
  | none => .ok coreAndPre

/-- One of the three numbers. -/
def checkPart (version name part : Text) : Except Text Unit :=
  if part.isEmpty || !part.all Char.isDigit then
    .error ("Invalid semver ".toList ++ name ++ " component '".toList ++ part ++ "' in '".toList ++ version ++
      "' (must be a non-negative integer)".toList)
  else if leadingZero part then
    .error ("Invalid semver ".toList ++ name ++ " component '".toList ++ part ++ "' in '".toList ++ version ++
      "': leading zeroes are forbidden".toList)
  else .ok ()

def checkCore (version core : Text) : Except Text Unit :=
  match core.splitOn '.' with
  | [major, minor, patch] => do
    checkPart version "major".toList major
    checkPart version "minor".toList minor
    checkPart version "patch".toList patch
  | _ =>
    .error ("Package version '".toList ++ version ++
      "' is not valid semver: expected MAJOR.MINOR.PATCH (e.g. '0.1.0')".toList)

end Semver

open Semver in
/-- **`validate_semver`.** -/
def validateSemver (version : Text) : Except Text Unit :=
  if version.isEmpty then .error "Package version cannot be empty".toList
  else do
    let coreAndPre ← cutBuild version
    let core ← cutPrerelease version coreAndPre
    checkCore version core

/-! ## The grammar -/

namespace Semver

/-- `[0-9A-Za-z-]`, at least one. -/
structure Identifier (id : Text) : Prop where
  nonempty : id ≠ []
  chars : ∀ ch ∈ id, ch.isAlphanum ∨ ch = '-'

/-- A number does not begin with a zero that is not all of it. -/
def NoLeadingZero (s : Text) : Prop := s.head? = some '0' → s = ['0']

structure Number (s : Text) : Prop where
  nonempty : s ≠ []
  digits : ∀ ch ∈ s, ch.isDigit
  noLeadingZero : NoLeadingZero s

structure PrereleaseIdentifier (id : Text) : Prop extends Identifier id where
  noLeadingZero : (∀ ch ∈ id, ch.isDigit) → NoLeadingZero id

/-- A mark and dot-separated identifiers after it, or nothing. -/
def Suffix (mark : Char) (Id : Text → Prop) (t : Text) : Prop :=
  t = [] ∨ ∃ ids ≠ [], (∀ id ∈ ids, Id id) ∧ t = mark :: ['.'].intercalate ids

/-- A version of SemVer 2.0.0. -/
def IsSemver (v : Text) : Prop :=
  ∃ major minor patch pre build, Number major ∧ Number minor ∧ Number patch ∧
    Suffix '-' PrereleaseIdentifier pre ∧ Suffix '+' Identifier build ∧
    v = major ++ '.' :: minor ++ '.' :: patch ++ pre ++ build

/-! ## Cutting -/

section
variable {c : Char} {s a b version t : Text}

theorem splitOnce_cons (d : Char) : splitOnce c (d :: s) =
    if d = c then some ([], s) else (splitOnce c s).map fun x => (d :: x.1, x.2) := by
  by_cases hd : d = c
  · simp [splitOnce, hd]
  · simp only [splitOnce, List.dropWhile_cons, List.takeWhile_cons, hd, ne_eq, not_false_eq_true,
      decide_true, if_true]
    split
    · rfl
    · rfl

theorem splitOnce_eq_none : splitOnce c s = none ↔ c ∉ s := by
  induction s with
  | nil => exact ⟨fun _ => nofun, fun _ => rfl⟩
  | cons d s ih =>
    rw [splitOnce_cons]
    by_cases hd : d = c
    · simp [hd]
    · simp [hd, ih, Ne.symm hd]

theorem splitOnce_eq_some : splitOnce c s = some (a, b) ↔ c ∉ a ∧ s = a ++ c :: b := by
  induction s generalizing a with
  | nil => exact ⟨nofun, fun h => absurd h.2 (by simp)⟩
  | cons d s ih =>
    rw [splitOnce_cons]
    by_cases hd : d = c
    · subst hd
      rw [if_pos rfl]
      constructor
      · intro h
        obtain ⟨rfl, rfl⟩ := Prod.ext_iff.mp (Option.some.inj h)
        exact ⟨nofun, rfl⟩
      · intro ⟨hmem, hs⟩
        cases a with
        | nil => rw [(List.cons.inj hs).2]
        | cons e a => exact absurd ((List.cons.inj hs).1 ▸ List.mem_cons_self) hmem
    · rw [if_neg hd, Option.map_eq_some_iff]
      constructor
      · intro ⟨x, hx, h⟩
        obtain ⟨rfl, rfl⟩ := Prod.ext_iff.mp h
        obtain ⟨hmem, rfl⟩ := ih.mp hx
        exact ⟨fun hin => (List.mem_cons.mp hin).elim (fun h => hd h.symm) hmem, rfl⟩
      · intro ⟨hmem, hs⟩
        cases a with
        | nil => exact absurd (List.cons.inj hs).1 hd
        | cons e a =>
          cases hs
          exact ⟨(a, b), ih.mpr ⟨fun hin => hmem (List.mem_cons_of_mem _ hin), rfl⟩, rfl⟩

theorem isIdentifier_iff : isIdentifier t = true ↔ Identifier t := by
  simp only [isIdentifier, Bool.and_eq_true, Bool.not_eq_true', List.isEmpty_eq_false_iff, List.all_eq_true,
    Bool.or_eq_true, decide_eq_true_eq]
  exact ⟨fun h => ⟨h.1, h.2⟩, fun h => ⟨h.nonempty, h.chars⟩⟩

theorem leadingZero_iff : leadingZero t = false ↔ NoLeadingZero t := by
  cases t with
  | nil => exact ⟨fun _ => nofun, fun _ => rfl⟩
  | cons ch t =>
    cases t with
    | nil =>
      refine ⟨fun _ h => ?_, fun _ => rfl⟩
      rw [Option.some.inj h]
    | cons d t => simp [leadingZero, NoLeadingZero]

variable {Id : Text → Prop}

theorem all_splitOn_iff (hdot : ∀ id, Id id → '.' ∉ id) :
    (∀ id ∈ t.splitOn '.', Id id) ↔ ∃ ids ≠ [], (∀ id ∈ ids, Id id) ∧ t = ['.'].intercalate ids := by
  constructor
  · intro h
    exact ⟨_, List.splitOn_ne_nil '.' t, h, (List.intercalate_splitOn '.').symm⟩
  · rintro ⟨ids, hne, h, rfl⟩
    rwa [List.splitOn_intercalate '.' (fun id hid => hdot id (h id hid)) hne]

theorem Identifier.not_mem (h : Identifier t) (hc : c.isAlphanum = false) (hdash : c ≠ '-') : c ∉ t :=
  fun hin => by
    obtain hx | hx := h.chars c hin
    · rw [hc] at hx
      cases hx
    · exact hdash hx

theorem Number.not_mem (h : Number t) (hc : c.isDigit = false) : c ∉ t := fun hin => by
  have hx := h.digits c hin
  rw [hc] at hx
  cases hx

theorem suffix_iff {mark : Char} (hdot : ∀ id, Id id → '.' ∉ id) :
    (mark ∉ t ∧ ∃ suffix, Suffix mark Id suffix ∧ s = t ++ suffix) ↔
      splitOnce mark s = none ∧ t = s ∨
        ∃ b, splitOnce mark s = some (t, b) ∧ ∀ id ∈ b.splitOn '.', Id id := by
  constructor
  · rintro ⟨hmark, suffix, rfl | ⟨ids, hne, hids, rfl⟩, rfl⟩
    · rw [List.append_nil]
      exact .inl ⟨splitOnce_eq_none.mpr hmark, rfl⟩
    · exact .inr ⟨_, splitOnce_eq_some.mpr ⟨hmark, rfl⟩, (all_splitOn_iff hdot).mpr ⟨ids, hne, hids, rfl⟩⟩
  · rintro (⟨hnone, rfl⟩ | ⟨b, hsome, hids⟩)
    · exact ⟨splitOnce_eq_none.mp hnone, [], .inl rfl, (List.append_nil t).symm⟩
    · obtain ⟨hmark, hs⟩ := splitOnce_eq_some.mp hsome
      obtain ⟨ids, hne, hids, hb⟩ := (all_splitOn_iff hdot).mp hids
      exact ⟨hmark, _, .inr ⟨ids, hne, hids, rfl⟩, hb ▸ hs⟩

theorem mem_intercalate {ids : List Text} (h : c ∈ ['.'].intercalate ids) : c = '.' ∨ ∃ id ∈ ids, c ∈ id := by
  induction ids with
  | nil => cases h
  | cons id ids ih =>
    cases ids with
    | nil => exact .inr ⟨id, by simp, by rwa [List.intercalate_singleton] at h⟩
    | cons id' ids =>
      rw [List.intercalate_cons_cons, List.mem_append, List.mem_append, List.mem_singleton] at h
      rcases h with (hin | hdot) | hrest
      · exact .inr ⟨id, by simp, hin⟩
      · exact .inl hdot
      · exact (ih hrest).imp_right fun ⟨x, hx, hin⟩ => ⟨x, List.mem_cons_of_mem _ hx, hin⟩

theorem Suffix.not_mem {mark : Char} (h : Suffix mark Id t) (hmark : c ≠ mark)
    (hdot : c ≠ '.') (hid : ∀ id, Id id → c ∉ id) : c ∉ t := by
  obtain rfl | ⟨ids, -, hids, rfl⟩ := h
  · nofun
  · intro hin
    obtain rfl | hin := List.mem_cons.mp hin
    · exact hmark rfl
    · obtain rfl | ⟨id, hmem, hin⟩ := mem_intercalate hin
      · exact hdot rfl
      · exact hid id (hids id hmem) hin

/-! ## The checks -/

theorem unless_error_ok_iff {ε α : Type} {p : Prop} [Decidable p] {e : ε} {x : Except ε α} {a : α} :
    (if p then .error e else x) = .ok a ↔ ¬p ∧ x = .ok a := by
  by_cases hp : p
  · simp [hp]
  · simp [hp]

theorem seq_ok_iff {ε α β : Type} {x : Except ε α} {g : α → Except ε β} {b : β} :
    (x >>= g) = .ok b ↔ ∃ a, x = .ok a ∧ g a = .ok b := by
  cases x with
  | error e => exact ⟨nofun, fun ⟨_, hx, _⟩ => nomatch hx⟩
  | ok a =>
    constructor
    · exact fun h => ⟨a, rfl, h⟩
    · intro ⟨a', ha, h⟩
      cases ha
      exact h

theorem check_ok_iff {ε β : Type} {x : Except ε Unit} {g : Unit → Except ε β} {b : β} :
    (x >>= g) = .ok b ↔ x = .ok () ∧ g () = .ok b := by
  rw [seq_ok_iff]
  exact ⟨fun ⟨_, h⟩ => h, fun h => ⟨(), h⟩⟩

theorem isEmpty_or_iff (hne : ∀ id, Id id → id ≠ []) :
    (¬t.isEmpty = true ∧ ∀ id ∈ t.splitOn '.', Id id) ↔ ∀ id ∈ t.splitOn '.', Id id := by
  refine and_iff_right_of_imp fun h hempty => ?_
  rw [List.isEmpty_iff.mp hempty] at h
  exact hne [] (h [] (by simp)) rfl

/-- Build metadata is what follows the first `+`. -/
theorem cutBuild_ok : cutBuild version = .ok t ↔
    '+' ∉ t ∧ ∃ build, Suffix '+' Identifier build ∧ version = t ++ build := by
  rw [suffix_iff fun _ h => h.not_mem rfl (by decide)]
  cases h : splitOnce '+' version with
  | none => simp [cutBuild, h, eq_comm]
  | some x =>
    obtain ⟨a, b⟩ := x
    have hids : ¬(b.isEmpty || !(b.splitOn '.').all isIdentifier) = true ↔
        ∀ id ∈ b.splitOn '.', Identifier id := by
      rw [← isEmpty_or_iff fun _ h => h.nonempty]
      simp [isIdentifier_iff]
    simp only [cutBuild, h, unless_error_ok_iff, hids, Except.ok.injEq, reduceCtorEq, false_and, false_or,
      Option.some.injEq, Prod.mk.injEq]
    constructor
    · exact fun ⟨hall, heq⟩ => ⟨b, ⟨heq, rfl⟩, hall⟩
    · exact fun ⟨_, ⟨heq, hb⟩, hall⟩ => ⟨hb ▸ hall, heq⟩

theorem checkPrerelease_ok {ids : List Text} :
    checkPrerelease version ids = .ok () ↔ ∀ id ∈ ids, PrereleaseIdentifier id := by
  induction ids with
  | nil => exact ⟨fun _ _ h => absurd h List.not_mem_nil, fun _ => rfl⟩
  | cons id ids ih =>
    rw [checkPrerelease, List.forall_mem_cons, ← ih, unless_error_ok_iff, unless_error_ok_iff, ← and_assoc]
    refine and_congr_left fun _ => ?_
    rw [Bool.not_eq_true', Bool.not_eq_false, isIdentifier_iff, Bool.and_eq_true, not_and, Bool.not_eq_true,
      leadingZero_iff, List.all_eq_true]
    exact ⟨fun h => ⟨h.1, h.2⟩, fun h => ⟨h.toIdentifier, h.noLeadingZero⟩⟩

/-- A pre-release is what follows the first `-`. -/
theorem cutPrerelease_ok : cutPrerelease version s = .ok t ↔
    '-' ∉ t ∧ ∃ pre, Suffix '-' PrereleaseIdentifier pre ∧ s = t ++ pre := by
  rw [suffix_iff fun _ h => h.toIdentifier.not_mem rfl (by decide)]
  cases h : splitOnce '-' s with
  | none => simp [cutPrerelease, h, eq_comm]
  | some x =>
    obtain ⟨a, b⟩ := x
    have hne : ∀ id, PrereleaseIdentifier id → id ≠ [] := fun _ h => h.nonempty
    simp only [cutPrerelease, h, unless_error_ok_iff, check_ok_iff, checkPrerelease_ok, reduceCtorEq,
      false_and, false_or, Option.some.injEq, Prod.mk.injEq]
    constructor
    · intro ⟨_, hall, heq⟩
      exact ⟨b, ⟨Except.ok.inj heq, rfl⟩, hall⟩
    · rintro ⟨_, ⟨rfl, rfl⟩, hall⟩
      exact ⟨((isEmpty_or_iff hne).mpr hall).1, hall, rfl⟩

theorem checkPart_ok {name : Text} : checkPart version name t = .ok () ↔ Number t := by
  rw [checkPart, unless_error_ok_iff, unless_error_ok_iff, Bool.not_eq_true (leadingZero t), leadingZero_iff]
  simp only [Bool.or_eq_true, not_or, Bool.not_eq_true', Bool.not_eq_false, List.all_eq_true,
    List.isEmpty_iff]
  exact ⟨fun h => ⟨h.1.1, h.1.2, h.2.1⟩, fun h => ⟨⟨h.nonempty, h.digits⟩, h.noLeadingZero, trivial⟩⟩

theorem checkCore_ok : checkCore version t = .ok () ↔ ∃ major minor patch, Number major ∧ Number minor ∧
    Number patch ∧ t = major ++ '.' :: minor ++ '.' :: patch := by
  have parts : ∀ {major minor patch : Text}, Number major → Number minor → Number patch →
      (major ++ '.' :: minor ++ '.' :: patch).splitOn '.' = [major, minor, patch] := by
    intro major minor patch h₁ h₂ h₃
    have hdot : ∀ l ∈ [major, minor, patch], '.' ∉ l := by
      simp [h₁.not_mem (c := '.') rfl, h₂.not_mem (c := '.') rfl, h₃.not_mem (c := '.') rfl]
    simpa [List.intercalate_cons_cons] using List.splitOn_intercalate '.' hdot (by simp)
  unfold checkCore
  split
  case h_1 major minor patch h =>
    have ht : t = major ++ '.' :: minor ++ '.' :: patch := by
      have hjoin : ['.'].intercalate (t.splitOn '.') = t := List.intercalate_splitOn '.'
      rw [← hjoin, h]
      simp [List.intercalate_cons_cons]
    simp only [check_ok_iff, checkPart_ok]
    constructor
    · exact fun ⟨h₁, h₂, h₃⟩ => ⟨major, minor, patch, h₁, h₂, h₃, ht⟩
    · intro ⟨a, b, c, h₁, h₂, h₃, heq⟩
      rw [heq, parts h₁ h₂ h₃] at h
      cases h
      exact ⟨h₁, h₂, h₃⟩
  case h_2 h =>
    refine ⟨nofun, fun ⟨a, b, c, h₁, h₂, h₃, heq⟩ => ?_⟩
    exact absurd (heq ▸ parts h₁ h₂ h₃) (h a b c)

end

end Semver

open Semver in
/-- **`validate_semver` accepts the grammar of SemVer 2.0.0.** -/
theorem validateSemver_ok_iff (v : Text) : validateSemver v = .ok () ↔ IsSemver v := by
  rw [validateSemver, unless_error_ok_iff]
  simp only [seq_ok_iff, cutBuild_ok, cutPrerelease_ok, checkCore_ok]
  constructor
  · rintro ⟨-, _, ⟨-, build, hbuild, rfl⟩, _, ⟨-, pre, hpre, rfl⟩, major, minor, patch, h₁, h₂, h₃, rfl⟩
    exact ⟨major, minor, patch, pre, build, h₁, h₂, h₃, hpre, hbuild, rfl⟩
  · rintro ⟨major, minor, patch, pre, build, h₁, h₂, h₃, hpre, hbuild, rfl⟩
    have core : ∀ ch, ch.isDigit = false → ch ≠ '.' → ch ∉ major ++ '.' :: minor ++ '.' :: patch := by
      intro ch hdigit hdot
      simp [h₁.not_mem hdigit, h₂.not_mem hdigit, h₃.not_mem hdigit, hdot]
    have plus : '+' ∉ pre := hpre.not_mem (by decide) (by decide)
      fun _ h => h.toIdentifier.not_mem rfl (by decide)
    refine ⟨?_, _, ⟨?_, build, hbuild, rfl⟩, _, ⟨core '-' rfl (by decide), pre, hpre, rfl⟩,
      major, minor, patch, h₁, h₂, h₃, rfl⟩
    · simp
    · exact fun h => (List.mem_append.mp h).elim (core '+' rfl (by decide)) plus

end Datara.Project
