import Datara.Ast.Nodes

/-!
# The check of a match

`check_match_exhaustiveness` of `types/match_check.rs` keeps the names the arms have covered. What a name stands
for is decided by the name of the scrutinee's type, and an arm covers the name its pattern shows.
-/

namespace Datara.Ast

def MatchArm.pattern : MatchArm → Pattern
  | .mk pattern _ _ => pattern

def MatchArm.guard : MatchArm → Option Expr
  | .mk _ guard _ => guard

end Datara.Ast

namespace Datara.Types

open Ast

/-- A type, as far as the check looks into it. -/
inductive DataraType where
  | option
  | result
  | bool
  | classType (name : String)
  | genericInstance (name : String)
  | other

/-- What the check is asked about: the type, how it prints, and the variants of the enums of the program. -/
structure Scrutinee where
  ty : DataraType
  text : String
  enums : String → Option (List String)

inductive Domain where
  | option
  | result
  | bool
  | enum (variants : List String)
  | infinite

def namedDomain (enums : String → Option (List String)) (name : String) : Domain :=
  if name = "Maybe" ∨ name = "Option" then .option
  else if name = "Outcome" ∨ name = "Result" then .result
  else match enums name with
    | some variants => .enum variants
    | none => .infinite

def Scrutinee.domain (s : Scrutinee) : Domain :=
  match s.ty with
  | .option => .option
  | .result => .result
  | .bool => .bool
  | .classType name => namedDomain s.enums name
  | .genericInstance name => namedDomain s.enums name
  | .other => .infinite

inductive ErrorCode where
  | nonExhaustiveMatch
  | unreachablePattern
  | typeMismatch
  deriving DecidableEq

/-- Where an error is reported: at the match, or at the pattern of an arm. -/
inductive Place where
  | matchSpan
  | arm (index : Nat)
  deriving DecidableEq

structure Diagnostic where
  code : ErrorCode
  message : String
  place : Place
  help : Option String := none

structure CheckState where
  coveredVariants : List String := []
  catchAllHit : Bool := false
  diags : List Diagnostic := []

def CheckState.error (st : CheckState) (code : ErrorCode) (message : String) (place : Place) : CheckState :=
  { st with diags := st.diags ++ [⟨code, message, place, none⟩] }

def isEnumVariant (domain : Domain) (name : String) : Bool :=
  match domain with
  | .option => name == "None" || name == "Some"
  | .result => name == "Ok" || name == "Err"
  | .enum vars => vars.contains name
  | _ => false

def isKnownVariant (domain : Domain) (name : String) : Bool :=
  match domain with
  | .option => name == "Some" || name == "None"
  | .result => name == "Ok" || name == "Err"
  | .enum vars => vars.contains name
  | _ => true

def boolKey (b : Bool) : String := if b then "true" else "false"

/-- A pattern that shows a name: reported when the name is covered, and covering it without a guard. -/
def CheckState.cover (st : CheckState) (name message : String) (index : Nat) (unguarded : Bool) : CheckState :=
  let st := if st.coveredVariants.contains name then st.error .unreachablePattern message (.arm index) else st
  if unguarded then { st with coveredVariants := name :: st.coveredVariants } else st

/-- A pattern that is a catch-all, without a guard. -/
def CheckState.catchAll (st : CheckState) (unguarded : Bool) : CheckState :=
  if unguarded then { st with catchAllHit := true } else st

def checkArm (s : Scrutinee) (st : CheckState) (index : Nat) (arm : MatchArm) : CheckState :=
  if st.catchAllHit then
    st.error .unreachablePattern "Unreachable pattern: arm is preceded by an unconditional catch-all" (.arm index)
  else match arm.pattern with
    | .wildcard => st.catchAll arm.guard.isNone
    | .identifier name =>
      if name = "_" then st.catchAll arm.guard.isNone
      else if isEnumVariant s.domain name then
        st.cover name s!"Unreachable pattern: variant '{name}' is already covered" index arm.guard.isNone
      else st.catchAll arm.guard.isNone
    | .literal .none =>
      let st := match s.domain with
        | .option => st
        | _ => st.error .typeMismatch s!"Cannot match 'None' against type '{s.text}'" (.arm index)
      st.cover "None" "Unreachable pattern: 'None' is already covered" index arm.guard.isNone
    | .literal (.bool b) =>
      let st := match s.domain with
        | .bool => st
        | _ => st.error .typeMismatch s!"Cannot match boolean literal against type '{s.text}'" (.arm index)
      let key := boolKey b
      st.cover key s!"Unreachable pattern: '{key}' is already covered" index arm.guard.isNone
    | .literal _ => st
    | .variant _ name _ =>
      let st := if isKnownVariant s.domain name then st
        else st.error .typeMismatch s!"Variant '{name}' does not belong to type '{s.text}'" (.arm index)
      st.cover name s!"Unreachable pattern: variant '{name}' is already covered" index arm.guard.isNone

def checkArms (s : Scrutinee) : CheckState → Nat → List MatchArm → CheckState
  | st, _, [] => st
  | st, index, arm :: arms => checkArms s (checkArm s st index arm) (index + 1) arms

/-- The names a domain asks for, each with how it is shown when it is missing. -/
def Domain.required : Domain → List (String × String)
  | .option => [("Some", "Some(_)"), ("None", "None")]
  | .result => [("Ok", "Ok(_)"), ("Err", "Err(_)")]
  | .bool => [("true", "true"), ("false", "false")]
  | .enum vars => vars.map fun v => (v, v)
  | .infinite => []

def missingPatterns (domain : Domain) (covered : List String) : List String :=
  (domain.required.filter fun v => !covered.contains v.1).map Prod.snd

/-- The report after the arms, when no catch-all was among them. -/
def reportMissing (s : Scrutinee) (st : CheckState) : CheckState :=
  let missing := missingPatterns s.domain st.coveredVariants
  let listed := ", ".intercalate missing
  let report (kind : String) : CheckState :=
    match missing with
    | [] => st
    | first :: _ => { st with diags := st.diags ++ [⟨.nonExhaustiveMatch,
        s!"Non-exhaustive patterns in match{kind}: missing {listed}. Missing pattern: {first}", .matchSpan,
        some s!"Add missing arm(s): {listed}"⟩] }
  match s.domain with
  | .infinite => { st with diags := st.diags ++ [⟨.nonExhaustiveMatch,
      s!"Non-exhaustive patterns in match for type '{s.text}'. Missing pattern: _", .matchSpan,
      some "Add a wildcard '_' arm to cover all remaining cases"⟩] }
  | .enum _ => report " for enum"
  | _ => report ""

def checkMatchExhaustiveness (s : Scrutinee) (arms : List MatchArm) : List Diagnostic :=
  if arms.isEmpty then
    [⟨.nonExhaustiveMatch, "Match expression has no arms and is non-exhaustive", .matchSpan, none⟩]
  else
    let st := checkArms s {} 0 arms
    (if st.catchAllHit then st else reportMissing s st).diags

/-! ## What the patterns match -/

/-- What the type is: an enum of the program before a built-in type of its name. -/
def namedKind (enums : String → Option (List String)) (name : String) : Domain :=
  match enums name with
  | some variants => .enum variants
  | none => namedDomain enums name

def Scrutinee.kind (s : Scrutinee) : Domain :=
  match s.ty with
  | .classType name => namedKind s.enums name
  | .genericInstance name => namedKind s.enums name
  | _ => s.domain

/-- The values of the type, by the names of their variants. -/
def Scrutinee.variants (s : Scrutinee) : List String := s.kind.required.map Prod.fst

/-- The names the type goes by before a variant. -/
def Scrutinee.typeNames (s : Scrutinee) : List String :=
  match s.kind, s.ty with
  | .option, _ => ["Option", "Maybe"]
  | .result, _ => ["Result", "Outcome"]
  | .enum _, .classType name => [name]
  | .enum _, .genericInstance name => [name]
  | _, _ => []

/-- A pattern matches a value. A name binds whatever it is given, and only payloads are below a variant. -/
def Scrutinee.Matches (s : Scrutinee) (v : String) : Pattern → Prop
  | .wildcard => True
  | .identifier _ => True
  | .literal .none => s.kind = .option ∧ v = "None"
  | .literal (.bool b) => s.kind = .bool ∧ v = boolKey b
  | .literal _ => False
  | .variant enumName name _ => s.kind ≠ .bool ∧ v = name ∧ ∀ e, enumName = some e → e ∈ s.typeNames

def Unguarded (arm : MatchArm) : Prop := arm.guard = none

/-- Some unguarded arm matches the value. -/
def Scrutinee.Covered (s : Scrutinee) (arms : List MatchArm) (v : String) : Prop :=
  ∃ arm ∈ arms, Unguarded arm ∧ s.Matches v arm.pattern

def Reported (ds : List Diagnostic) : Prop := ∃ d ∈ ds, d.code = .nonExhaustiveMatch

def ReportedUnreachable (ds : List Diagnostic) (index : Nat) : Prop :=
  ∃ d ∈ ds, d.code = .unreachablePattern ∧ d.place = .arm index

/-- The check is exact on a list of arms. -/
structure Scrutinee.Exact (s : Scrutinee) (arms : List MatchArm) : Prop where
  exhaustive : ¬ Reported (checkMatchExhaustiveness s arms) → ∀ v ∈ s.variants, s.Covered arms v
  missing : Reported (checkMatchExhaustiveness s arms) → ∃ v ∈ s.variants, ¬ s.Covered arms v
  unreachable : ∀ before arm after, arms = before ++ arm :: after →
    ReportedUnreachable (checkMatchExhaustiveness s arms) before.length →
    ∀ v ∈ s.variants, s.Matches v arm.pattern → s.Covered before v

end Datara.Types
