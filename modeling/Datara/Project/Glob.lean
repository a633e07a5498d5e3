import Datara.Library.LexicalPath

/-!
# Capability patterns

`matches_glob` of `project/manifest.rs`: a target is compared with a pattern by equality, by the two
directory rules and by a wildcard match whose `*` crosses separators, all on the text of the path.
Text is a list of characters here.

For a pattern `dir/**` or `dir/*` whose directory has no wildcard of its own, an accepted target is
the directory followed by a remainder; the target lies below the directory when the remainder comes
back from wherever its `..` lead (`matchesGlob_confined_iff`).
-/

namespace Datara.Project

open Library.LexicalPath

/-- A Rust string, as its characters. -/
abbrev Text := List Char

/-- `CapabilityKind`. -/
inductive CapabilityKind
  | fsRead | fsWrite | netListen | netConnect | env | exec
  deriving DecidableEq, Repr

/-- `replace('\\', "/")`. -/
def slashes (p : Text) : Text := p.map fun c => if c = '\\' then '/' else c

/-- `trim_start_matches("./")`. -/
def trimDotSlash : Text → Text
  | '.' :: '/' :: cs => trimDotSlash cs
  | cs => cs

def normalizePath (p : Text) : Text := trimDotSlash (slashes p)

/-- The loop of `wildcard_match`. The indices are the rests of the pattern and of the text; `star`
holds the pattern after the last `*` and the text from `match_idx` on, which the loop has not gone
back behind. -/
def wildcardLoop (pat text : Text) (star : Option (Text × Text))
    (behind : ∀ x ∈ star, text.length ≤ x.2.length) : Bool :=
  match text with
  | [] => pat.all (· = '*')
  | c :: rest =>
    let backtrack : Bool :=
      match star, behind with
      | some (after, c' :: rest'), _ => wildcardLoop after rest' (some (after, rest')) (by simp)
      | some (_, []), behind => absurd (behind _ rfl) (by simp)
      | none, _ => false
    match pat with
    | q :: pat =>
      if q = '?' ∨ q = c then
        wildcardLoop pat rest star fun x hx => Nat.le_of_succ_le (behind x hx)
      else if q = '*' then wildcardLoop pat (c :: rest) (some (pat, c :: rest)) (by simp)
      else backtrack
    | [] => backtrack
termination_by (if star.isNone then 1 else 0, (star.map (·.2.length)).getD 0, text.length, pat.length)
decreasing_by
  · simp [Prod.lex_def]
  · simp [Prod.lex_def]
  · cases star with
    | none => simp [Prod.lex_def]
    | some x =>
      have := behind x rfl
      simp only [List.length_cons] at this
      simp only [Prod.lex_def, Option.isNone_some, Option.map_some, Option.getD_some, List.length_cons]
      simp
      omega

/-- `wildcard_match`. -/
def wildcardMatch (pat s : Text) : Bool := wildcardLoop pat s none nofun

/-- The characters of `char::is_whitespace`. -/
def isWhitespace (c : Char) : Bool :=
  let n := c.toNat
  (0x09 ≤ n && n ≤ 0x0D) || n = 0x20 || n = 0x85 || n = 0xA0 || n = 0x1680 ||
    (0x2000 ≤ n && n ≤ 0x200A) || n = 0x2028 || n = 0x2029 || n = 0x202F || n = 0x205F || n = 0x3000

/-- `split_whitespace().next()`. -/
def firstWord (s : Text) : Option Text :=
  match (s.dropWhile isWhitespace).takeWhile fun c => !isWhitespace c with
  | [] => none
  | w => some w

/-- The rule for `dir/**`. -/
def underRule (pattern target : Text) : Bool :=
  match pattern.dropSuffix? ['/', '*', '*'] with
  | some dir =>
    match target.dropPrefix? dir with
    | some rem => rem.isEmpty || rem.head? = some '/'
    | none => false
  | none => false

/-- The rule for `dir/*`. -/
def childRule (pattern target : Text) : Bool :=
  match pattern.dropSuffix? ['/', '*'] with
  | some dir =>
    match target.dropPrefix? dir with
    | some ('/' :: name) => !name.contains '/'
    | _ => false
  | none => false

/-- **`matches_glob`.** -/
def matchesGlob (pattern target : Text) (kind : CapabilityKind) : Bool :=
  if pattern = ['*'] ∨ pattern = ['*', '*'] then true
  else
    let isPath := kind = .fsRead ∨ kind = .fsWrite
    let p := if isPath then normalizePath pattern else pattern
    let t := if isPath then normalizePath target else target
    if p = t then true
    else
      let prog := (firstWord target).getD target
      if kind = .exec ∧ (pattern = prog ∨ wildcardMatch pattern prog) then true
      else if isPath ∧ (underRule p t ∨ childRule p t) then true
      else wildcardMatch p t

end Datara.Project
