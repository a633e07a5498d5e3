import Datara.Project.Glob
import Mathlib.Algebra.GroupWithZero.Nat

/-!
# Names and paths of packages

The three checks of untrusted names in `project/pm`: `is_valid_package_name`,
`sanitize_package_rel_path` and `sanitize_tar_path`. A path they let through has no `..` segment and
does not begin at the root, so it leads below the directory it is joined to (`walk_safe`).
-/

namespace Datara.Project

open Library.LexicalPath

/-- `split('/').any(|part| part == "..")`. -/
def hasDotdot (p : Text) : Bool := (p.splitOn '/').contains dotdot

/-- `sanitize_package_rel_path`. -/
def sanitizePackageRelPath (rel : Text) : Option Text :=
  let normalized := slashes rel
  if normalized = [] ∨ normalized.head? = some '/' ∨ '\x00' ∈ normalized ∨ ':' ∈ normalized then none
  else if hasDotdot normalized then none
  else some normalized

/-- The refusals of `sanitize_tar_path`. -/
inductive TarPathError
  | empty
  | absolute (rel : Text)
  | nulByte (rel : Text)
  | drive (rel : Text)
  | traversal (rel : Text)
  deriving DecidableEq, Repr

/-- `sanitize_tar_path`. -/
def sanitizeTarPath (rel : Text) : Except TarPathError Text :=
  let trimmed := trimDotSlash (slashes rel)
  if trimmed = [] then .error .empty
  else if trimmed.head? = some '/' then .error (.absolute rel)
  else if '\x00' ∈ trimmed then .error (.nulByte rel)
  else if ':' ∈ trimmed then .error (.drive rel)
  else if hasDotdot trimmed then .error (.traversal rel)
  else .ok trimmed

/-- `strip_prefix("sparks/")`, or the name itself. -/
def packageId (name : Text) : Text := (name.dropPrefix? "sparks/".toList).getD name

/-- `s.contains("..")`. -/
def containsDots : Text → Bool
  | '.' :: '.' :: _ => true
  | _ :: cs => containsDots cs
  | [] => false

/-- The bytes of a text in UTF-8. -/
def utf8Length (t : Text) : Nat := (t.map Char.utf8Size).sum

/-- `is_valid_package_name`. -/
def isValidPackageName (name : Text) : Bool :=
  match packageId name with
  | [] => false
  | first :: rest =>
    let pkgId := first :: rest
    if 64 < utf8Length pkgId then false
    else if !(first.isAlphanum || first = '_') then false
    else pkgId.all (fun c => c.isAlphanum || c = '_' || c = '-' || c = '.') && !containsDots pkgId

/-! ## Safe paths -/

/-- A path that does not begin at the root and has no `..`. -/
structure SafePath (p : Text) : Prop where
  relative : p.head? ≠ some '/'
  down : ∀ s ∈ p.splitOn '/', s ≠ dotdot

section
variable {rooted : Bool} {dir : List Segment} {p : Text}

/-- **A path without `..` leads below the directory it is walked from.** -/
theorem under_walk_of_down {path : List Segment} (h : ∀ s ∈ path, s ≠ dotdot) :
    Under dir (walk rooted dir path) := by
  induction path generalizing dir with
  | nil => exact ⟨[], rfl, nofun⟩
  | cons s path ih =>
    have hrest : Under (step rooted dir s) (walk rooted dir (s :: path)) :=
      ih fun s hs => h s (List.mem_cons_of_mem _ hs)
    by_cases hskip : s = [] ∨ s = dot
    · rwa [step, if_pos hskip] at hrest
    · have hname : IsName s :=
        ⟨fun he => hskip (.inl he), fun he => hskip (.inr he), h s List.mem_cons_self⟩
      rw [step_name hname] at hrest
      obtain ⟨names, he, hnames⟩ := hrest
      refine ⟨names ++ [s], by rw [he, List.append_assoc]; rfl, fun t ht => ?_⟩
      rcases List.mem_append.mp ht with ht | ht
      · exact hnames t ht
      · exact List.mem_singleton.mp ht ▸ hname

theorem SafePath.under (h : SafePath p) : Under dir (walk rooted dir (p.splitOn '/')) :=
  under_walk_of_down h.down

theorem down_of_hasDotdot (h : hasDotdot p = false) : ∀ s ∈ p.splitOn '/', s ≠ dotdot := by
  intro s hs he
  rw [hasDotdot, ← Bool.not_eq_true, List.contains_iff_mem] at h
  exact h (he ▸ hs)

theorem sanitizePackageRelPath_eq_some {rel safe : Text} (h : sanitizePackageRelPath rel = some safe) :
    safe = slashes rel ∧ SafePath safe ∧ safe ≠ [] ∧ ':' ∉ safe := by
  simp only [sanitizePackageRelPath] at h
  split_ifs at h with hbad hdots
  cases h
  simp only [not_or] at hbad
  exact ⟨rfl, ⟨hbad.2.1, down_of_hasDotdot (Bool.eq_false_iff.mpr hdots)⟩, hbad.1, hbad.2.2.2⟩

theorem sanitizeTarPath_eq_ok {rel safe : Text} (h : sanitizeTarPath rel = .ok safe) :
    SafePath safe ∧ safe ≠ [] := by
  simp only [sanitizeTarPath] at h
  split_ifs at h with h₁ h₂ h₃ h₄ h₅ <;> cases h
  exact ⟨⟨h₂, down_of_hasDotdot (Bool.eq_false_iff.mpr h₅)⟩, h₁⟩

end

end Datara.Project
