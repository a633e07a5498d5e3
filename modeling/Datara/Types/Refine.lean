import Datara.Ast.Nodes
import Datara.Library.Rounding

/-!
# Refinements

`check_refinement` of `types/refine.rs`, with `get_refinement` of `types/resolve.rs`. A predicate is evaluated over
doubles, and an operator evaluates both its operands as numbers before it is looked at: a connective has no result,
so that it is never violated. A negated literal is not looked at. What is decided exactly is the rest
(`check_refinement_exact_iff`).
-/

namespace Datara.Types.Refine

open Ast Library

inductive ErrorCode
  | typeMismatch

structure Diagnostic where
  code : ErrorCode
  message : String
  span : SourceSpan

/-! ## The refinement of a type -/

variable {visiting : List String}

theorem left_lt {aliases : List (String × TypeNode)} {name : String} {base : TypeNode}
    (h : aliases.lookup name = some base) (hnew : name ∉ visiting) :
    (aliases.filter fun a => a.1 ∉ name :: visiting).length < (aliases.filter fun a => a.1 ∉ visiting).length := by
  obtain ⟨before, after, rfl, -⟩ := List.lookup_eq_some_iff.mp h
  have hsplit : (before ++ (name, base) :: after).filter (fun a => a.1 ∉ name :: visiting) =
      ((before ++ (name, base) :: after).filter fun a => a.1 ∉ visiting).filter fun a => a.1 ≠ name := by
    rw [List.filter_filter]
    apply List.filter_congr
    intro a _
    simp
  rw [hsplit, List.length_filter_lt_length_iff_exists]
  exact ⟨(name, base), by simp [hnew], by simp⟩

/-- `get_refinement_in`, over the base types of the aliases. -/
def getRefinementIn (aliases : List (String × TypeNode)) (tn : TypeNode) (visiting : List String) : Option Refinement :=
  match tn with
  | .mk _ (some r) => some r
  | .mk name none =>
    match _ : aliases.lookup name with
    | none => none
    | some base =>
      if _ : name ∈ visiting then none
      else getRefinementIn aliases base (name :: visiting)
termination_by (aliases.filter fun a => a.1 ∉ visiting).length
decreasing_by exact left_lt ‹_› ‹_›

def getRefinement (aliases : List (String × TypeNode)) (tn : TypeNode) : Option Refinement :=
  getRefinementIn aliases tn []

theorem getRefinementIn_own {aliases : List (String × TypeNode)} {name : String} {r : Refinement} :
    getRefinementIn aliases (.mk name (some r)) visiting = some r := by
  rw [getRefinementIn]

theorem getRefinementIn_alias {aliases : List (String × TypeNode)} {name : String} {base : TypeNode}
    (h : aliases.lookup name = some base) (hnew : name ∉ visiting) :
    getRefinementIn aliases (.mk name none) visiting = getRefinementIn aliases base (name :: visiting) := by
  rw [getRefinementIn]
  split
  · next hnone =>
    rw [h] at hnone
    cases hnone
  · next found hfound =>
    obtain rfl : base = found := Option.some.inj (h.symm.trans hfound)
    rw [dif_neg hnew]

/-! ## The check -/

/-- `v as f64`; a finite double is the rational it stands for. -/
def asF64 (v : Int) : Rat := (roundInt 53 v : Int)

/-- `i64::checked_neg`. -/
def checkedNeg (v : Int) : Option Int := if v = -2 ^ 63 then none else some (-v)

def extractIntLit : Expr → Option Int
  | .literal (.int v) => some v
  | .unary op expr => if op = "-" then (extractIntLit expr).bind checkedNeg else none
  | _ => none

def extractFloatLit : Expr → Option Rat
  | .literal (.float v) => some v
  | .literal (.int v) => some (asF64 v)
  | .unary op expr => if op = "-" then (extractFloatLit expr).map fun v => -v else none
  | _ => none

def evalExprForPred (varName : String) (lit : LiteralValue) : Expr → Option Rat
  | .identifier name _ =>
    if name = varName ∨ name = "val" ∨ name = "it" then
      match lit with
      | .int i => some (asF64 i)
      | .float f => some f
      | _ => none
    else none
  | .literal (.int i) => some (asF64 i)
  | .literal (.float f) => some f
  | .unary op expr => if op = "-" then (evalExprForPred varName lit expr).map fun v => -v else none
  | _ => none

def evalPredicate (varName : String) (lit : LiteralValue) : Expr → Option Bool
  | .binary op left right => do
    let leftVal ← evalExprForPred varName lit left
    let rightVal ← evalExprForPred varName lit right
    match op with
    | "!=" => some (leftVal ≠ rightVal)
    | "==" => some (leftVal = rightVal)
    | "<" => some (leftVal < rightVal)
    | "<=" => some (leftVal ≤ rightVal)
    | ">" => some (rightVal < leftVal)
    | ">=" => some (rightVal ≤ leftVal)
    | "&&" => do
      let l ← evalPredicate varName lit left
      let r ← evalPredicate varName lit right
      some (l && r)
    | "||" => do
      let l ← evalPredicate varName lit left
      let r ← evalPredicate varName lit right
      some (l || r)
    | _ => none
  | _ => none

/-- How a double is written, `f64::to_string`, is a parameter. -/
def litStr (showF64 : Rat → String) : LiteralValue → String
  | .int i => toString i
  | .float f => showF64 f
  | .dec64 m => toString m ++ "e-4"
  | .string s => "\"" ++ s ++ "\""
  | .bool b => toString b
  | .char c => "'" ++ c.toString ++ "'"
  | .none => "none"

def outsideRange (val s e : String) (inclusive : Bool) : String :=
  "Refinement type violation: value " ++ val ++ " is outside allowed range " ++ s ++
    (if inclusive then "..=" else "..<") ++ e

/-- What a type's refinement reports of an initialiser, after what is reported already. -/
def checkRefinement (showF64 : Rat → String) (aliases : List (String × TypeNode)) (tn : TypeNode) (init : Expr)
    (span : SourceSpan) (diag : List Diagnostic) : List Diagnostic :=
  match getRefinement aliases tn with
  | none => diag
  | some (.range start stop inclusive) =>
    match init with
    | .literal (.int val) =>
      match extractIntLit start, extractIntLit stop with
      | some s, some e =>
        if if inclusive then s ≤ val ∧ val ≤ e else s ≤ val ∧ val < e then diag
        else diag ++ [⟨.typeMismatch, outsideRange (toString val) (toString s) (toString e) inclusive, span⟩]
      | _, _ => diag
    | .literal (.float val) =>
      match extractFloatLit start, extractFloatLit stop with
      | some s, some e =>
        if if inclusive then s ≤ val ∧ val ≤ e else s ≤ val ∧ val < e then diag
        else diag ++ [⟨.typeMismatch, outsideRange (showF64 val) (showF64 s) (showF64 e) inclusive, span⟩]
      | _, _ => diag
    | _ => diag
  | some (.predicate varName predicate) =>
    match init with
    | .literal lit =>
      if evalPredicate varName lit predicate = some false then
        diag ++ [⟨.typeMismatch, "Refinement type violation: value " ++ litStr showF64 lit ++ " violates predicate", span⟩]
      else diag
    | _ => diag

/-! ## What a refinement says of an integer -/

/-- A literal of 64 bits, plain or negated. -/
structure IntLiteral where
  negated : Bool
  digits : Int
  fits : -2 ^ 63 ≤ digits ∧ digits < 2 ^ 63

def IntLiteral.value (l : IntLiteral) : Int := if l.negated then -l.digits else l.digits

def IntLiteral.expr (l : IntLiteral) : Expr :=
  if l.negated then .unary "-" (.literal (.int l.digits)) else .literal (.int l.digits)

inductive Comparison
  | ne
  | eq
  | lt
  | le
  | gt
  | ge

def Comparison.op : Comparison → String
  | .ne => "!="
  | .eq => "=="
  | .lt => "<"
  | .le => "<="
  | .gt => ">"
  | .ge => ">="

def Comparison.Holds {α : Type} [LT α] [LE α] (x y : α) : Comparison → Prop
  | .ne => x ≠ y
  | .eq => x = y
  | .lt => x < y
  | .le => x ≤ y
  | .gt => y < x
  | .ge => y ≤ x

/-- A predicate of comparisons of the refined variable with literals; the variable is the first operand or the second. -/
inductive Condition
  | atom (c : Comparison) (span : SourceSpan) (literal : IntLiteral) (variableFirst : Bool)
  | both (l r : Condition)
  | either (l r : Condition)

def Condition.expr (name : String) : Condition → Expr
  | .atom c span literal true => .binary c.op (.identifier name span) literal.expr
  | .atom c span literal false => .binary c.op literal.expr (.identifier name span)
  | .both l r => .binary "&&" (l.expr name) (r.expr name)
  | .either l r => .binary "||" (l.expr name) (r.expr name)

def Condition.Satisfied (v : Int) : Condition → Prop
  | .atom c _ literal true => c.Holds v literal.value
  | .atom c _ literal false => c.Holds literal.value v
  | .both l r => l.Satisfied v ∧ r.Satisfied v
  | .either l r => l.Satisfied v ∨ r.Satisfied v

inductive IntRefinement
  | range (start stop : IntLiteral) (inclusive : Bool)
  | predicate (name : String) (c : Condition)

def IntRefinement.refinement : IntRefinement → Refinement
  | .range start stop inclusive => .range start.expr stop.expr inclusive
  | .predicate name c => .predicate name (c.expr name)

def IntRefinement.Satisfied (v : Int) : IntRefinement → Prop
  | .range start stop inclusive => if inclusive then start.value ≤ v ∧ v ≤ stop.value else start.value ≤ v ∧ v < stop.value
  | .predicate _ c => c.Satisfied v

/-! ## Comparisons of doubles -/

/-- A comparison that the rounding does not change: the operands are equal or stay apart, or it is one that says of equal
operands what it says of these. -/
def Comparison.Sharp (x y : Int) (c : Comparison) : Prop :=
  x = y ∨ roundInt 53 x ≠ roundInt 53 y ∨
    match c with
    | .lt | .ge => y < x
    | .gt | .le => x < y
    | .ne | .eq => False

section
variable {x y v : Int} {l : IntLiteral} {c : Comparison} {name : String}

theorem holds_asF64 : c.Holds (asF64 x) (asF64 y) ↔ c.Holds (roundInt 53 x) (roundInt 53 y) := by
  cases c <;> simp [Comparison.Holds, asF64, Rat.intCast_inj, Rat.intCast_lt_intCast, Rat.intCast_le_intCast]

theorem sharp_iff : (c.Holds (asF64 x) (asF64 y) ↔ c.Holds x y) ↔ c.Sharp x y := by
  have hxy : x ≤ y → roundInt 53 x ≤ roundInt 53 y := roundInt_mono (by decide)
  have hyx : y ≤ x → roundInt 53 y ≤ roundInt 53 x := roundInt_mono (by decide)
  rw [holds_asF64]
  cases c <;> simp only [Comparison.Holds, Comparison.Sharp, or_false] <;> omega

/-! ## What is evaluated -/

theorem extractIntLit_expr : extractIntLit l.expr = if l.value = 2 ^ 63 then none else some l.value := by
  have hfits := l.fits
  rw [IntLiteral.expr, IntLiteral.value]
  cases l.negated with
  | false => simp only [Bool.false_eq_true, if_false, extractIntLit, if_neg (show l.digits ≠ 2 ^ 63 by omega)]
  | true =>
    simp only [if_true, extractIntLit, Option.bind_some, checkedNeg]
    by_cases h : l.digits = -2 ^ 63
    · rw [if_pos h, if_pos (by omega)]
    · rw [if_neg h, if_neg (by omega)]

variable {lit : LiteralValue}

theorem evalExprForPred_literal : evalExprForPred name lit l.expr = some (asF64 l.value) := by
  rw [IntLiteral.expr, IntLiteral.value]
  cases l.negated with
  | false => rfl
  | true => simp [evalExprForPred, asF64, roundInt_neg]

theorem evalExprForPred_variable {span : SourceSpan} :
    evalExprForPred name (.int v) (.identifier name span) = some (asF64 v) := by
  rw [evalExprForPred, if_pos (.inl rfl)]

theorem evalPredicate_comparison {left right : Expr} {p q : Rat}
    (hleft : evalExprForPred name lit left = some p) (hright : evalExprForPred name lit right = some q) :
    evalPredicate name lit (.binary c.op left right) = some false ↔ ¬c.Holds p q := by
  cases c <;> simp [evalPredicate, Comparison.op, Comparison.Holds, hleft, hright]

theorem evalExprForPred_condition {d : Condition} : evalExprForPred name lit (d.expr name) = none := by
  cases d with
  | atom c span literal variableFirst => cases variableFirst <;> rfl
  | both l r => rfl
  | either l r => rfl

theorem evalPredicate_connective {op : String} {d : Condition} {right : Expr} :
    evalPredicate name lit (.binary op (d.expr name) right) = none := by
  rw [evalPredicate, evalExprForPred_condition]
  rfl

end

/-! ## What is reported -/

/-- The literals whose violations are reported: a plain one, against bounds that are no more than 64 bits hold, or in one
comparison of doubles that is sharp. -/
def IntRefinement.Decided (init : IntLiteral) : IntRefinement → Prop
  | .range start stop inclusive =>
    init.negated = false ∧ start.value ≠ 2 ^ 63 ∧ stop.value ≠ 2 ^ 63 ∨
      IntRefinement.Satisfied init.value (.range start stop inclusive)
  | .predicate _ (.atom c span literal variableFirst) =>
    if init.negated then Condition.Satisfied init.value (.atom c span literal variableFirst)
    else if variableFirst then c.Sharp init.value literal.value else c.Sharp literal.value init.value
  | .predicate _ d => d.Satisfied init.value

section
variable {showF64 : Rat → String} {aliases : List (String × TypeNode)} {tn : TypeNode} {span : SourceSpan}
  {diag : List Diagnostic} {init start stop : IntLiteral} {inclusive : Bool} {name : String} {d : Condition}

theorem plain_expr (hplain : init.negated = false) : init.expr = .literal (.int init.value) := by
  simp [IntLiteral.expr, IntLiteral.value, hplain]

theorem reports_range (h : getRefinement aliases tn = some (.range start.expr stop.expr inclusive))
    (hplain : init.negated = false) :
    (∃ e, checkRefinement showF64 aliases tn init.expr span diag = diag ++ [e]) ↔
      start.value ≠ 2 ^ 63 ∧ stop.value ≠ 2 ^ 63 ∧
        ¬IntRefinement.Satisfied init.value (.range start stop inclusive) := by
  rw [checkRefinement, h, plain_expr hplain]
  simp only [extractIntLit_expr]
  by_cases hstart : start.value = 2 ^ 63
  · simp [hstart]
  by_cases hstop : stop.value = 2 ^ 63
  · simp [hstop]
  simp only [if_neg hstart, if_neg hstop, IntRefinement.Satisfied]
  split_ifs <;> simp_all

theorem reports_predicate (h : getRefinement aliases tn = some (.predicate name (d.expr name)))
    (hplain : init.negated = false) :
    (∃ e, checkRefinement showF64 aliases tn init.expr span diag = diag ++ [e]) ↔
      evalPredicate name (.int init.value) (d.expr name) = some false := by
  rw [checkRefinement, h, plain_expr hplain]
  simp only
  split_ifs with hfalse <;> simp [hfalse]

theorem negated_quiet (hnegated : init.negated = true) :
    checkRefinement showF64 aliases tn init.expr span diag = diag := by
  rw [checkRefinement, IntLiteral.expr, if_pos hnegated]
  split <;> rfl

theorem quiet_of_negated (hnegated : init.negated = true) :
    ¬∃ e, checkRefinement showF64 aliases tn init.expr span diag = diag ++ [e] := by
  rw [negated_quiet hnegated]
  simp

/-- **What is reported is what is violated, exactly where it is decided.** -/
theorem check_refinement_exact_iff {r : IntRefinement} (h : getRefinement aliases tn = some r.refinement) :
    ((∃ e, checkRefinement showF64 aliases tn init.expr span diag = diag ++ [e]) ↔ ¬r.Satisfied init.value) ↔
      r.Decided init := by
  by_cases hnegated : init.negated = true
  · have hquiet : ¬∃ e, checkRefinement showF64 aliases tn init.expr span diag = diag ++ [e] := quiet_of_negated hnegated
    rw [iff_false_left hquiet, not_not]
    cases r with
    | range start stop inclusive => simp [IntRefinement.Decided, hnegated]
    | predicate name d => cases d <;> simp [IntRefinement.Decided, hnegated, IntRefinement.Satisfied]
  · have hplain : init.negated = false := Bool.eq_false_iff.mpr hnegated
    cases r with
    | range start stop inclusive =>
      rw [reports_range h hplain, IntRefinement.Decided]
      simp only [hplain, true_and]
      tauto
    | predicate name d =>
      rw [reports_predicate h hplain]
      cases d with
      | atom c span literal variableFirst =>
        cases variableFirst with
        | false =>
          rw [Condition.expr, evalPredicate_comparison evalExprForPred_literal evalExprForPred_variable, not_iff_not,
            IntRefinement.Decided]
          simp only [hplain, Bool.false_eq_true, if_false]
          exact sharp_iff
        | true =>
          rw [Condition.expr, evalPredicate_comparison evalExprForPred_variable evalExprForPred_literal, not_iff_not,
            IntRefinement.Decided]
          simp only [hplain, Bool.false_eq_true, if_false, if_true]
          exact sharp_iff
      | both l r =>
        rw [Condition.expr, evalPredicate_connective]
        simp [IntRefinement.Decided, IntRefinement.Satisfied]
      | either l r =>
        rw [Condition.expr, evalPredicate_connective]
        simp [IntRefinement.Decided, IntRefinement.Satisfied]

end

def portNumber : IntRefinement := .range ⟨false, 1, by decide⟩ ⟨false, 65535, by decide⟩ true

def seventyThousand : IntLiteral := ⟨false, 70000, by decide⟩

theorem check_refinement_exact_port :
    ((∃ e, checkRefinement (fun _ => "") [("PortNumber", .mk "Int" (some portNumber.refinement))] (.mk "PortNumber" none)
      seventyThousand.expr default [] = [] ++ [e]) ↔ ¬portNumber.Satisfied seventyThousand.value) ↔
      portNumber.Decided seventyThousand := by
  apply check_refinement_exact_iff
  rw [getRefinement, getRefinementIn_alias rfl List.not_mem_nil, getRefinementIn_own]

/-- `val > 0 && val < 10`. -/
def smallPositive : IntRefinement :=
  .predicate "val"
    (.both (.atom .gt default ⟨false, 0, by decide⟩ true) (.atom .lt default ⟨false, 10, by decide⟩ true))

/-- Nothing is reported of seventy thousand, which is not less than ten. -/
theorem connective_not_reported :
    ¬((∃ e, checkRefinement (fun _ => "") [] (.mk "Int" (some smallPositive.refinement)) seventyThousand.expr default [] =
      [] ++ [e]) ↔ ¬smallPositive.Satisfied seventyThousand.value) := by
  have hquiet : checkRefinement (fun _ => "") [] (.mk "Int" (some smallPositive.refinement)) seventyThousand.expr default
      [] = [] := by
    rw [checkRefinement, getRefinement, getRefinementIn_own]
    rfl
  rw [hquiet]
  simp [smallPositive, seventyThousand, IntRefinement.Satisfied, Condition.Satisfied, Comparison.Holds, IntLiteral.value]

end Datara.Types.Refine
