import Datara.Ast.Nodes
import Datara.Library.OperatorTree

/-!
# Binary expressions

`Parser::parse_binary_climbing` of `parser/expr.rs`: a loop over an operator stack and a value stack, with
`parse_unary` for the operands. The spans of the nodes are left out. The loop ends after the operand of a range
operator, so what follows that operand is read only by a caller: the parser builds the tree of the whole sequence
exactly when no operator follows a range operator.
-/

namespace Datara.Parse

open Datara.Ast Datara.Library

/-- The tokens the loop tells apart, and the two that stand for operands. -/
inductive TokenType
  | or | and | equalEqual | notEqual | less | lessEqual | greater | greaterEqual | ampersand | caret | bitOr | shl
  | shr | dotDot | dotDotEq | dotDotLt | plus | minus | star | slash | percent
  | identifier (name : String)
  | intLiteral (value : Int)
  | other (lexeme : String)
  | eof
  deriving DecidableEq

def PREC_LOGICAL_OR : Nat := 1
def PREC_LOGICAL_AND : Nat := 2
def PREC_EQUALITY : Nat := 3
def PREC_COMPARISON : Nat := 4
def PREC_BIT_OR : Nat := 5
def PREC_BIT_XOR : Nat := 6
def PREC_BIT_AND : Nat := 7
def PREC_SHIFT : Nat := 8
def PREC_RANGE : Nat := 9
def PREC_ADDITIVE : Nat := 10
def PREC_MULTIPLICATIVE : Nat := 11

/-- The precedence of a binary operator, whether it is a range, and its text. -/
def binaryOp : TokenType → Option (Nat × Bool × String)
  | .or => some (PREC_LOGICAL_OR, false, "||")
  | .and => some (PREC_LOGICAL_AND, false, "&&")
  | .equalEqual => some (PREC_EQUALITY, false, "==")
  | .notEqual => some (PREC_EQUALITY, false, "!=")
  | .less => some (PREC_COMPARISON, false, "<")
  | .lessEqual => some (PREC_COMPARISON, false, "<=")
  | .greater => some (PREC_COMPARISON, false, ">")
  | .greaterEqual => some (PREC_COMPARISON, false, ">=")
  | .ampersand => some (PREC_BIT_AND, false, "&")
  | .caret => some (PREC_BIT_XOR, false, "^")
  | .bitOr => some (PREC_BIT_OR, false, "|")
  | .shl => some (PREC_SHIFT, false, "<<")
  | .shr => some (PREC_SHIFT, false, ">>")
  | .dotDot => some (PREC_RANGE, true, "..")
  | .dotDotEq => some (PREC_RANGE, true, "..=")
  | .dotDotLt => some (PREC_RANGE, true, "..<")
  | .plus => some (PREC_ADDITIVE, false, "+")
  | .minus => some (PREC_ADDITIVE, false, "-")
  | .star => some (PREC_MULTIPLICATIVE, false, "*")
  | .slash => some (PREC_MULTIPLICATIVE, false, "/")
  | .percent => some (PREC_MULTIPLICATIVE, false, "%")
  | _ => none

/-- The tokens and the position in them, with what else `parse_unary` keeps. -/
structure Parser (σ : Type) where
  tokens : List TokenType
  current : Nat
  state : σ

namespace Parser

variable {σ : Type} (p : Parser σ)

/-- At the end the last token is seen again. -/
def peek : TokenType := (p.tokens[p.current]?).getD (p.tokens.getLast?.getD .eof)

def isAtEnd : Bool := p.peek == .eof

def previous : TokenType := (p.tokens[min (p.current - 1) (p.tokens.length - 1)]?).getD .eof

def advance : TokenType × Parser σ :=
  let p := if p.isAtEnd then p else { p with current := p.current + 1 }
  (p.previous, p)

def peekBinaryOp : Option (Nat × Bool × String) := binaryOp p.peek

end Parser

/-- An entry of the operator stack. -/
structure Pending where
  prec : Nat
  isRange : Bool
  inclusive : Bool
  op : String
  deriving DecidableEq

/-- The node of an operator taken off the stack. -/
def Pending.combine (top : Pending) (left right : Expr) : Expr :=
  if top.isRange then .range left right top.inclusive else .binary top.op left right

/-- Why there is no expression: a `None` on the way, or a loop that has not ended within the fuel. -/
inductive Halt
  | none
  | fuel

/-- The inner loop: operators of at least a precedence are taken off the stack and combined with the values. -/
def reduceWhile (prec : Nat) : List Expr → List Pending → Except Halt (List Expr × List Pending)
  | vals, [] => .ok (vals, [])
  | vals, top :: ops =>
    if prec ≤ top.prec then
      match vals with
      | right :: left :: vals => reduceWhile prec (top.combine left right :: vals) ops
      | _ => .error .none
    else .ok (vals, top :: ops)

section
variable {σ : Type} (parseUnary : Parser σ → Option (Expr × Parser σ))

/-- `self.parse_unary()?` -/
def unary (p : Parser σ) : Except Halt (Expr × Parser σ) :=
  match parseUnary p with
  | some r => .ok r
  | none => .error .none

/-- The loop over the operators. The stacks have their top first. -/
def climb (minPrec : Nat) : Nat → Parser σ → List Expr → List Pending →
    Except Halt (Parser σ × List Expr × List Pending)
  | 0, _, _, _ => .error .fuel
  | fuel + 1, p, vals, ops =>
    match p.peekBinaryOp with
    | none => .ok (p, vals, ops)
    | some (prec, isRange, op) =>
      if prec < minPrec then .ok (p, vals, ops)
      else do
        let (tok, p) := p.advance
        let inclusive := tok == .dotDotEq
        let (vals, ops) ← reduceWhile prec vals ops
        let (next, p) ← unary parseUnary p
        let vals := next :: vals
        let ops := ⟨prec, isRange, inclusive, op⟩ :: ops
        -- a range ends the loop, whatever operator comes next
        if isRange then .ok (p, vals, ops) else climb minPrec fuel p vals ops

def parseBinaryClimbing (minPrec fuel : Nat) (p : Parser σ) : Except Halt (Expr × Parser σ) := do
  let (first, p) ← unary parseUnary p
  match p.peekBinaryOp with
  | none => .ok (first, p)
  | some (prec, _, _) =>
    if prec < minPrec then .ok (first, p)
    else do
      let (p, vals, ops) ← climb parseUnary minPrec fuel p [first] []
      let (vals, _) ← reduceWhile minPrec vals ops
      match vals with
      | value :: _ => .ok (value, p)
      | [] => .error .none

end

/-! ## The tree on the stacks -/

theorem one_le_prec {tok : TokenType} {r : Nat × Bool × String} (h : binaryOp tok = some r) :
    PREC_LOGICAL_OR ≤ r.1 := by
  cases tok <;> cases h <;> decide

/-- The token `advance` returns is the operator that was seen. -/
theorem Parser.advance_fst {σ : Type} {p : Parser σ} {r : Nat × Bool × String} (h : p.peekBinaryOp = some r) :
    p.advance.1 = p.peek := by
  have hend : p.isAtEnd = false := by
    rw [Parser.isAtEnd, beq_eq_false_iff_ne]
    intro heof
    rw [Parser.peekBinaryOp, heof] at h
    cases h
  have hseen : p.peek ≠ .eof := by simpa [Parser.isAtEnd] using hend
  simp only [Parser.advance, hend, Bool.false_eq_true, if_false, Parser.previous, Parser.peek] at hseen ⊢
  rcases Nat.lt_or_ge p.current p.tokens.length with hlt | hge
  · rw [Nat.min_eq_left (by omega), Nat.add_sub_cancel, List.getElem?_eq_getElem hlt]
    rfl
  · rw [Nat.min_eq_right (by omega), List.getElem?_eq_none hge, List.getLast?_eq_getElem?]
    rfl

/-- The expression a tree of operands stands for. -/
def toExpr : OpTree Expr Pending → Expr
  | .leaf e => e
  | .node op left right => op.combine (toExpr left) (toExpr right)

/-- The value stack below the trees of `s`, with `t` on top. -/
def values (s : List (OpTree Expr Pending × Pending)) (t : OpTree Expr Pending) : List Expr :=
  toExpr t :: s.map fun entry => toExpr entry.1

def waiting (s : List (OpTree Expr Pending × Pending)) : List Pending := s.map Prod.snd

variable {s : List (OpTree Expr Pending × Pending)} {t : OpTree Expr Pending} {n : Nat}

theorem reduceWhile_eq : reduceWhile n (values s t) (waiting s) =
    .ok (values (OpTree.closeWhile Pending.prec n s t).1 (OpTree.closeWhile Pending.prec n s t).2,
      waiting (OpTree.closeWhile Pending.prec n s t).1) := by
  induction s generalizing t with
  | nil => rfl
  | cons entry below ih =>
    obtain ⟨left, op⟩ := entry
    by_cases hle : n ≤ op.prec
    · have hstep := ih (t := .node op left t)
      simpa [reduceWhile, OpTree.closeWhile, values, waiting, hle, toExpr] using hstep
    · simp [reduceWhile, OpTree.closeWhile, values, waiting, hle]

section
variable {σ : Type} {parseUnary : Parser σ → Option (Expr × Parser σ)} {p q r : Parser σ} {first next : Expr}
variable {items : List (Pending × Expr)} {fuel : Nat}

/-- From `p` to `q` there are operators, each followed by what `parse_unary` reads as one operand. -/
inductive Reads (parseUnary : Parser σ → Option (Expr × Parser σ)) :
    Parser σ → List (Pending × Expr) → Parser σ → Prop
  | done (p : Parser σ) : Reads parseUnary p [] p
  | operator {p q r : Parser σ} {prec : Nat} {isRange : Bool} {op : String} {next : Expr}
      {items : List (Pending × Expr)} (hop : p.peekBinaryOp = some (prec, isRange, op))
      (hoperand : parseUnary p.advance.2 = some (next, q)) (hrest : Reads parseUnary q items r) :
      Reads parseUnary p ((⟨prec, isRange, p.peek == .dotDotEq, op⟩, next) :: items) r

theorem climb_operator {prec : Nat} {isRange : Bool} {op : String} {vals : List Expr} {ops : List Pending}
    (hop : p.peekBinaryOp = some (prec, isRange, op)) (hoperand : parseUnary p.advance.2 = some (next, q)) :
    climb parseUnary PREC_LOGICAL_OR (fuel + 1) p vals ops = (do
      let (vals, ops) ← reduceWhile prec vals ops
      let ops := ⟨prec, isRange, p.peek == .dotDotEq, op⟩ :: ops
      if isRange then .ok (q, next :: vals, ops)
      else climb parseUnary PREC_LOGICAL_OR fuel q (next :: vals) ops) := by
  have hprec : ¬prec < PREC_LOGICAL_OR := Nat.not_lt.mpr (one_le_prec hop)
  rw [climb]
  simp only [hop, if_neg hprec, unary, hoperand, Parser.advance_fst hop]
  rfl

/-- What the stacks hold in the loop: the climbing tree of the sequence read so far, from `first` and `before`. -/
structure Stacked (first : Expr) (before : List (Pending × Expr)) (s : List (OpTree Expr Pending × Pending))
    (t : OpTree Expr Pending) : Prop where
  climbs : (OpTree.closeAll s t).Climbs Pending.prec
  first_eq : (OpTree.closeAll s t).first = first
  rest_eq : (OpTree.closeAll s t).rest = before
  levels : ∀ entry ∈ s, PREC_LOGICAL_OR ≤ entry.2.prec

/-- An operator closes what binds at least as tight and waits for the operand that comes next. -/
theorem Stacked.push {before : List (Pending × Expr)} {e : Expr} (op : Pending) (next : Expr)
    (h : Stacked first before s (.leaf e)) (hop : PREC_LOGICAL_OR ≤ op.prec) :
    Stacked first (before ++ [(op, next)])
      (((OpTree.closeWhile Pending.prec op.prec s (.leaf e)).2, op)
        :: (OpTree.closeWhile Pending.prec op.prec s (.leaf e)).1) (.leaf next) := by
  have hsame : OpTree.closeAll (OpTree.closeWhile Pending.prec op.prec s (.leaf e)).1
      (OpTree.closeWhile Pending.prec op.prec s (.leaf e)).2 = OpTree.closeAll s (.leaf e) := OpTree.closeAll_closeWhile
  constructor
  · apply OpTree.Climbs.push
    · rw [hsame]
      exact h.climbs
    · exact OpTree.closeWhile_atLeast trivial
    · exact OpTree.closeWhile_topBelow
  · rw [OpTree.first_push, hsame, h.first_eq]
  · rw [OpTree.rest_push, hsame, h.rest_eq]
  · intro entry hentry
    rcases List.mem_cons.mp hentry with rfl | hin
    · exact hop
    · exact h.levels entry (OpTree.closeWhile_suffix.subset hin)

/-- The loop reads the sequence to its end when no operator follows a range operator. -/
theorem climb_reads {before : List (Pending × Expr)} {e : Expr} (hreads : Reads parseUnary p items q)
    (hend : q.peekBinaryOp = none) (hlast : ∀ item ∈ items.dropLast, item.1.isRange = false)
    (hfuel : items.length < fuel) (hs : Stacked first before s (.leaf e)) :
    ∃ s' t', climb parseUnary PREC_LOGICAL_OR fuel p (values s (.leaf e)) (waiting s) =
      .ok (q, values s' t', waiting s') ∧ Stacked first (before ++ items) s' t' := by
  induction hreads generalizing fuel before s e with
  | done p =>
    obtain ⟨fuel, rfl⟩ := Nat.exists_eq_succ_of_ne_zero (Nat.ne_zero_of_lt hfuel)
    refine ⟨s, .leaf e, ?_, by simpa using hs⟩
    rw [climb, hend]
  | @operator p q r prec isRange op next items hop hoperand hrest ih =>
    obtain ⟨fuel, rfl⟩ := Nat.exists_eq_succ_of_ne_zero (Nat.ne_zero_of_lt hfuel)
    have hpush := Stacked.push ⟨prec, isRange, p.peek == .dotDotEq, op⟩ next hs (one_le_prec hop)
    rw [climb_operator hop hoperand, reduceWhile_eq]
    cases isRange with
    | false =>
      have htail : ∀ item ∈ items.dropLast, item.1.isRange = false := by
        intro item hitem
        have hne : items ≠ [] := List.ne_nil_of_mem (List.dropLast_subset _ hitem)
        exact hlast item (by rw [List.dropLast_cons_of_ne_nil hne]; exact List.mem_cons_of_mem _ hitem)
      obtain ⟨s', t', hrun, hstacked⟩ := ih hend htail (Nat.lt_of_succ_lt_succ hfuel) hpush
      exact ⟨s', t', hrun, by simpa using hstacked⟩
    | true =>
      cases hrest with
      | done => exact ⟨_, _, rfl, hpush⟩
      | operator => simpa using hlast _ (List.mem_cons_self ..)

theorem climb_stops (hreads : Reads parseUnary p items q) (hlast : ∃ item ∈ items.dropLast, item.1.isRange = true)
    {vals vals' : List Expr} {ops ops' : List Pending} {p' : Parser σ}
    (hrun : climb parseUnary PREC_LOGICAL_OR fuel p vals ops = .ok (p', vals', ops')) :
    p'.peekBinaryOp ≠ none := by
  induction hreads generalizing fuel vals ops with
  | done p => simp at hlast
  | @operator p q r prec isRange op next items hop hoperand hrest ih =>
    cases fuel with
    | zero => cases hrun
    | succ fuel =>
      rw [climb_operator hop hoperand] at hrun
      cases hreduce : reduceWhile prec vals ops with
      | error halt =>
        rw [hreduce] at hrun
        cases hrun
      | ok held =>
        rw [hreduce] at hrun
        obtain ⟨item, hitem, hrange⟩ := hlast
        cases hrest with
        | done => simp at hitem
        | operator hop' hoperand' hrest' =>
          cases isRange with
          | true =>
            cases hrun
            simp [hop']
          | false =>
            refine ih ⟨item, ?_, hrange⟩ hrun
            rcases List.mem_cons.mp hitem with rfl | hin
            · cases hrange
            · exact hin

/-- `parse_binary_climbing` before an operator is the loop and what closes the stacks after it. -/
theorem parseBinaryClimbing_operator {op : Nat × Bool × String} (hfirst : parseUnary p = some (first, q))
    (hop : q.peekBinaryOp = some op) :
    parseBinaryClimbing parseUnary PREC_LOGICAL_OR fuel p = (do
      let (p, vals, ops) ← climb parseUnary PREC_LOGICAL_OR fuel q [first] []
      let (vals, _) ← reduceWhile PREC_LOGICAL_OR vals ops
      match vals with
      | value :: _ => .ok (value, p)
      | [] => .error .none) := by
  have hprec : ¬op.1 < PREC_LOGICAL_OR := Nat.not_lt.mpr (one_le_prec hop)
  simp only [parseBinaryClimbing, unary, hfirst, bind, Except.bind, hop, if_neg hprec]

theorem climbing_of_reads (hfirst : parseUnary p = some (first, q)) (hreads : Reads parseUnary q items r)
    (hend : r.peekBinaryOp = none) (hlast : ∀ item ∈ items.dropLast, item.1.isRange = false)
    (hfuel : items.length < fuel) :
    ∃ t : OpTree Expr Pending, t.Climbs Pending.prec ∧ t.first = first ∧ t.rest = items ∧
      parseBinaryClimbing parseUnary PREC_LOGICAL_OR fuel p = .ok (toExpr t, r) := by
  have hstart : Stacked first [] [] (.leaf first) := ⟨trivial, rfl, rfl, by simp⟩
  obtain ⟨s, t, hrun, hs⟩ := climb_reads hreads hend hlast hfuel hstart
  cases hreads with
  | done =>
    refine ⟨.leaf first, trivial, rfl, rfl, ?_⟩
    simp only [parseBinaryClimbing, unary, hfirst, bind, Except.bind, hend]
    rfl
  | operator hop hoperand hrest =>
    refine ⟨OpTree.closeAll s t, hs.climbs, hs.first_eq, hs.rest_eq, ?_⟩
    have hclose := reduceWhile_eq (s := s) (t := t) (n := PREC_LOGICAL_OR)
    rw [OpTree.closeWhile_eq_closeAll hs.levels] at hclose
    have hloop : climb parseUnary PREC_LOGICAL_OR fuel q [first] [] = .ok (r, values s t, waiting s) := hrun
    rw [parseBinaryClimbing_operator hfirst hop, hloop]
    simp only [bind, Except.bind, hclose]
    rfl

/-! ## What the parser builds -/

/-- The parser returns the one climbing tree of the sequence and stands behind it. -/
def BuildsTree (parseUnary : Parser σ → Option (Expr × Parser σ)) (p : Parser σ) (first : Expr)
    (items : List (Pending × Expr)) (r : Parser σ) : Prop :=
  ∃ t : OpTree Expr Pending, t.Climbs Pending.prec ∧ t.first = first ∧ t.rest = items ∧
    (∀ t' : OpTree Expr Pending, t'.Climbs Pending.prec → t'.first = first → t'.rest = items → t' = t) ∧
    ∃ enough, ∀ fuel ≥ enough, parseBinaryClimbing parseUnary PREC_LOGICAL_OR fuel p = .ok (toExpr t, r)

theorem buildsTree_of_last (hfirst : parseUnary p = some (first, q)) (hreads : Reads parseUnary q items r)
    (hend : r.peekBinaryOp = none) (hlast : ∀ item ∈ items.dropLast, item.1.isRange = false) :
    BuildsTree parseUnary p first items r := by
  obtain ⟨t, hclimbs, hleft, hrest, -⟩ :=
    climbing_of_reads hfirst hreads hend hlast (Nat.lt_succ_self items.length)
  refine ⟨t, hclimbs, hleft, hrest, ?_, items.length + 1, ?_⟩
  · intro t' hclimbs' hleft' hrest'
    exact hclimbs'.unique hclimbs (hleft'.trans hleft.symm) (hrest'.trans hrest.symm)
  · intro fuel hfuel
    obtain ⟨t', hclimbs', hleft', hrest', hrun⟩ := climbing_of_reads hfirst hreads hend hlast hfuel
    rw [hrun, hclimbs'.unique hclimbs (hleft'.trans hleft.symm) (hrest'.trans hrest.symm)]

/-- With an operator after a range operator the parser stands before an operator when it returns. -/
theorem not_buildsTree_of_range (hfirst : parseUnary p = some (first, q)) (hreads : Reads parseUnary q items r)
    (hend : r.peekBinaryOp = none) (hlast : ∃ item ∈ items.dropLast, item.1.isRange = true) :
    ¬BuildsTree parseUnary p first items r := by
  intro hbuilds
  obtain ⟨t, -, -, -, -, enough, hrun⟩ := hbuilds
  have hparse := hrun enough (Nat.le_refl _)
  cases hreads with
  | done => simp at hlast
  | operator hop hoperand hrest =>
    rw [parseBinaryClimbing_operator hfirst hop] at hparse
    cases hloop : climb parseUnary PREC_LOGICAL_OR enough q [first] [] with
    | error halt =>
      rw [hloop] at hparse
      cases hparse
    | ok stopped =>
      obtain ⟨p', vals, ops⟩ := stopped
      rw [hloop] at hparse
      have hbefore := climb_stops (.operator hop hoperand hrest) hlast hloop
      apply hbefore
      suffices hsame : p' = r by rw [hsame, hend]
      simp only [bind, Except.bind] at hparse
      split at hparse
      · cases hparse
      · split at hparse
        · exact (Prod.mk.inj (Except.ok.inj hparse)).2
        · cases hparse

/-- The parser reads a sequence of operands and operators whole and builds its precedence tree exactly when no operator
follows a range operator. -/
theorem parse_builds_tree_iff (hfirst : parseUnary p = some (first, q)) (hreads : Reads parseUnary q items r)
    (hend : r.peekBinaryOp = none) :
    BuildsTree parseUnary p first items r ↔ ∀ item ∈ items.dropLast, item.1.isRange = false := by
  constructor
  · intro hbuilds item hitem
    by_contra hrange
    exact not_buildsTree_of_range hfirst hreads hend ⟨item, hitem, by simpa using hrange⟩ hbuilds
  · exact buildsTree_of_last hfirst hreads hend

end

/-- `parse_unary` on operands of one token. -/
def parseOperand (p : Parser Unit) : Option (Expr × Parser Unit) :=
  match p.peek with
  | .identifier name => some (.identifier name default, p.advance.2)
  | .intLiteral value => some (.literal (.int value), p.advance.2)
  | _ => none

/-- `a * b..c` is `(a * b)..c`. -/
theorem parse_builds_tree_range_last :
    let tokens : List TokenType := [.identifier "a", .star, .identifier "b", .dotDot, .identifier "c", .eof]
    BuildsTree parseOperand ⟨tokens, 0, ()⟩ (.identifier "a" default)
      [(⟨11, false, false, "*"⟩, .identifier "b" default), (⟨9, true, false, ".."⟩, .identifier "c" default)]
      ⟨tokens, 5, ()⟩ := by
  intro tokens
  have hreads : Reads parseOperand ⟨tokens, 1, ()⟩
      [(⟨11, false, false, "*"⟩, .identifier "b" default), (⟨9, true, false, ".."⟩, .identifier "c" default)]
      ⟨tokens, 5, ()⟩ :=
    .operator rfl rfl (.operator rfl rfl (.done _))
  exact (parse_builds_tree_iff rfl hreads rfl).mpr (by simp)

/-- On `a..b + 1` the parser returns `a..b` and stands before the `+`. -/
theorem parse_leaves_operator :
    let tokens : List TokenType := [.identifier "a", .dotDot, .identifier "b", .plus, .intLiteral 1, .eof]
    let items : List (Pending × Expr) := [(⟨9, true, false, ".."⟩, .identifier "b" default),
      (⟨10, false, false, "+"⟩, .literal (.int 1))]
    Reads parseOperand ⟨tokens, 1, ()⟩ items ⟨tokens, 5, ()⟩ ∧
      Parser.peekBinaryOp ⟨tokens, 5, ()⟩ = none ∧
      parseBinaryClimbing parseOperand PREC_LOGICAL_OR 6 ⟨tokens, 0, ()⟩ =
        .ok (.range (.identifier "a" default) (.identifier "b" default) false, ⟨tokens, 3, ()⟩) ∧
      ¬BuildsTree parseOperand ⟨tokens, 0, ()⟩ (.identifier "a" default) items ⟨tokens, 5, ()⟩ := by
  intro tokens items
  have hreads : Reads parseOperand ⟨tokens, 1, ()⟩ items ⟨tokens, 5, ()⟩ :=
    .operator rfl rfl (.operator rfl rfl (.done _))
  refine ⟨hreads, rfl, rfl, ?_⟩
  exact not_buildsTree_of_range rfl hreads rfl ⟨_, List.mem_cons_self .., rfl⟩

end Datara.Parse
