import Datara.Library.ScopedWalk
import Mathlib.Logic.Relation

/-!
# The syntax tree

The expressions, statements and declarations the source-level passes walk over.
A pass is a recursion over these types; what it has to be measured against is
stated over `Node.parts`, the list of the direct operands of a node in the order
they are evaluated, each with the names that come into scope on the way to it.
-/

namespace Datara.Ast

open Datara.Library

structure SourceSpan where
  startLine : Nat
  startCol : Nat
  endLine : Nat
  endCol : Nat
  deriving DecidableEq, Repr, Inhabited

/-- A literal; the value of a float literal is the rational its bits stand for. -/
inductive LiteralValue
  | int (value : Int)
  | float (value : Rat)
  | dec64 (mantissa : Int)
  | string (value : String)
  | bool (value : Bool)
  | char (value : Char)
  | none
  deriving DecidableEq

inductive CastKind
  | plain
  | checked
  | strict
  deriving DecidableEq

inductive Pattern
  | wildcard
  | identifier (name : String)
  | literal (value : LiteralValue)
  | variant (enumName : Option String) (variantName : String) (bindings : List String)
  deriving DecidableEq

/-- The names a pattern brings into scope in its arm. -/
def Pattern.names : Pattern → List String
  | .identifier name => [name]
  | .variant _ _ bindings => bindings
  | _ => []

mutual

inductive Expr
  | literal (value : LiteralValue)
  | identifier (name : String) (span : SourceSpan)
  | interpolatedString (parts : List String) (expressions : List Expr)
  | binary (op : String) (left right : Expr)
  | unary (op : String) (expr : Expr)
  | call (callee : Expr) (args : List Expr)
  | memberAccess (object : Expr) (member : String)
  | indexAccess (object index : Expr)
  | range (start stop : Expr) (inclusive : Bool)
  | tuple (exprs : List Expr)
  | objectInit (className : String) (fields : List (String × Expr))
  | pipeline (stages : List Expr)
  | decideOn (arms : List (Expr × Expr)) (elseArm : Option Expr)
  | matchOn (value : Expr) (arms : List MatchArm)
  | selectOn (arms : List (Expr × Expr)) (elseArm : Option Expr)
  | lambda (params : List String) (body : Expr)
  | listLiteral (items : List Expr)
  | mapLiteral (entries : List (Expr × Expr))
  | errorPropagate (expr : Expr)
  | orRecovery (expr : Expr) (arms : List MatchArm)
  | arrayRepeatLiteral (elem : Expr) (count : Nat)
  | comptime (expr : Expr)
  | wrapping (expr : Expr)
  | saturating (expr : Expr)
  | cast (expr : Expr) (targetTy : String) (kind : CastKind)
  | block (stmts : List Stmt) (trailing : Option Expr)
  | isCheck (operand : Expr) (tyName : String)

inductive MatchArm
  | mk (pattern : Pattern) (guard : Option Expr) (body : Expr)

inductive Stmt
  | block (stmts : List Stmt)
  | bindLet (name : String) (typeNode : Option TypeNode) (init : Expr)
  | bindMut (name : String) (typeNode : Option TypeNode) (init : Expr)
  | bindConst (name : String) (typeNode : Option TypeNode) (init : Expr)
  | bindVal (name : String) (typeNode : Option TypeNode) (init : Expr) (isMut : Bool)
  | compactBind (name : String) (init : Expr)
  | assign (target value : Expr)
  | expr (expr : Expr)
  | out (expr : Expr)
  | err (expr : Expr)
  | ifElse (condition : Expr) (thenBranch : Stmt) (elseBranch : Option Stmt)
  | forIn (varName : String) (iterable : Expr) (body : Stmt)
  | whileDo (condition : Expr) (body : Stmt)
  | loop (body : Stmt)
  | breakLoop
  | continueLoop
  | parallel (body : Stmt)
  | parallelFor (varName : String) (iterable : Expr) (body : Stmt)
  | simd (body : Stmt)
  | withResource (resourceName : String) (init : Expr) (body : Stmt)
  | unsafeBlock (justification : Option String) (body : Stmt)
  | asm (instructions options : List String) (structured : List String)
  | ret (value : Option Expr)

inductive TypeNode
  | mk (name : String) (refinement : Option Refinement)

inductive Refinement
  | range (start stop : Expr) (inclusive : Bool)
  | predicate (varName : String) (predicate : Expr)

end

structure Param where
  name : String
  typeNode : Option TypeNode
  ownershipMode : String

structure FunctionDecl where
  name : String
  attributes : List String
  params : List Param
  requires : List Expr
  body : Stmt

structure MethodDecl where
  name : String
  attributes : List String
  params : List Param
  requires : List Expr
  body : Option Stmt

structure TraitMethodSignature where
  name : String
  params : List Param
  defaultBody : Option Stmt

inductive ClassItem
  | field (name : String) (defaultValue : Option Expr)
  | method (decl : MethodDecl)
  | useOf (name : String)
  | invariant (expr : Expr)

/-- A declaration. The kinds that hold no code (imports, packets, registers, bridges, enums and
type aliases) are one constructor. -/
inductive Decl
  | function (decl : FunctionDecl)
  | flow (decl : FunctionDecl)
  | task (decl : FunctionDecl)
  | externFn (name : String)
  | classDecl (name : String) (bodyItems : List ClassItem)
  | behavior (targetType : String) (bodyItems : List ClassItem)
  | component (name : String) (bodyItems : List ClassItem)
  | role (name : String) (methods : List MethodDecl)
  | traitDef (name : String) (methods : List TraitMethodSignature)
  | impl (targetType : String) (methods : List FunctionDecl)
  | global (name : String) (init : Expr)
  | codeless (name : String)

structure Program where
  declarations : List Decl

/-! ## Nodes and their operands -/

inductive Node
  | expr (e : Expr)
  | stmt (s : Stmt)

/-- A direct operand of a node, with the names that come into scope on the way to it. -/
abbrev Part := Operand String Node

def Part.ofExpr (e : Expr) : Part := ⟨[], .expr e⟩

def Part.ofStmt (s : Stmt) : Part := ⟨[], .stmt s⟩

/-- The name a statement leaves declared for the statements after it. -/
def Stmt.declares : Stmt → List String
  | .bindLet name _ _ | .bindMut name _ _ | .bindConst name _ _ | .bindVal name _ _ _
  | .compactBind name _ => [name]
  | _ => []

/-- The statements of a block, each under the names the ones before it declare, and after them the
value of the block. -/
def sequence : List String → List Stmt → Option Expr → List Part
  | binds, [], trailing => trailing.toList.map fun e => ⟨binds, .expr e⟩
  | binds, s :: rest, trailing => ⟨binds, .stmt s⟩ :: sequence (s.declares ++ binds) rest trailing

def MatchArm.parts : MatchArm → List Part
  | .mk pattern guard body =>
    guard.toList.map (fun g => ⟨pattern.names, .expr g⟩) ++ [⟨pattern.names, .expr body⟩]

def pairParts (arms : List (Expr × Expr)) : List Part :=
  arms.flatMap fun arm => [.ofExpr arm.1, .ofExpr arm.2]

def Expr.parts : Expr → List Part
  | .literal _ | .identifier _ _ => []
  | .interpolatedString _ es | .tuple es | .pipeline es | .listLiteral es => es.map .ofExpr
  | .binary _ l r | .indexAccess l r | .range l r _ => [.ofExpr l, .ofExpr r]
  | .unary _ e | .memberAccess e _ | .errorPropagate e | .arrayRepeatLiteral e _ | .comptime e
  | .wrapping e | .saturating e | .cast e _ _ | .isCheck e _ => [.ofExpr e]
  | .call callee args => .ofExpr callee :: args.map .ofExpr
  | .objectInit _ fields => fields.map fun field => .ofExpr field.2
  | .decideOn arms elseArm | .selectOn arms elseArm =>
    pairParts arms ++ elseArm.toList.map .ofExpr
  | .matchOn value arms | .orRecovery value arms => .ofExpr value :: arms.flatMap MatchArm.parts
  | .lambda params body => [⟨params, .expr body⟩]
  | .mapLiteral entries => pairParts entries
  | .block stmts trailing => sequence [] stmts trailing

def Stmt.parts : Stmt → List Part
  | .block stmts => sequence [] stmts none
  | .bindLet _ _ e | .bindMut _ _ e | .bindConst _ _ e | .bindVal _ _ e _ | .compactBind _ e
  | .expr e | .out e | .err e => [.ofExpr e]
  | .assign target value => [.ofExpr target, .ofExpr value]
  | .ifElse c t e => .ofExpr c :: .ofStmt t :: e.toList.map .ofStmt
  | .forIn x e body | .parallelFor x e body | .withResource x e body =>
    [.ofExpr e, ⟨[x], .stmt body⟩]
  | .whileDo c body => [.ofExpr c, .ofStmt body]
  | .loop body | .parallel body | .simd body | .unsafeBlock _ body => [.ofStmt body]
  | .ret value => value.toList.map .ofExpr
  | .breakLoop | .continueLoop | .asm _ _ _ => []

def Node.parts : Node → List Part
  | .expr e => e.parts
  | .stmt s => s.parts

def Node.children (n : Node) : List Node := n.parts.map Operand.node

theorem sequence_nodes (trailing : Option Expr) : ∀ (ss : List Stmt) (binds : List String),
    (sequence binds ss trailing).map Operand.node = ss.map .stmt ++ trailing.toList.map .expr
  | [], _ => by simp [sequence]
  | s :: ss, binds => by simp [sequence, sequence_nodes trailing ss]

/-! ## Induction over nodes -/

variable {p : Part}

theorem sequence_smaller : ∀ {stmts : List Stmt} {binds : List String}
    {trailing : Option Expr}, p ∈ sequence binds stmts trailing →
    sizeOf p.node < 1 + sizeOf stmts + sizeOf trailing
  | [], _, none, h => by simp [sequence] at h
  | [], _, some e, h => by
    simp only [sequence, Option.toList_some, List.map_cons, List.map_nil, List.mem_singleton] at h
    subst h
    simp
  | s :: rest, _, _, h => by
    simp only [sequence, List.mem_cons] at h
    obtain rfl | h := h
    · simp; omega
    · have := sequence_smaller h
      simp only [List.cons.sizeOf_spec]
      omega

theorem pairParts_smaller {arms : List (Expr × Expr)} (h : p ∈ pairParts arms) :
    sizeOf p.node < 1 + sizeOf arms := by
  simp only [pairParts, Part.ofExpr, List.mem_flatMap, List.mem_cons, List.not_mem_nil,
    or_false] at h
  obtain ⟨⟨c, b⟩, harm, rfl | rfl⟩ := h <;>
    · have := List.sizeOf_lt_of_mem harm
      simp only [Prod.mk.sizeOf_spec, Node.expr.sizeOf_spec] at this ⊢
      omega

theorem MatchArm.parts_smaller {arm : MatchArm} (h : p ∈ arm.parts) : sizeOf p.node < 1 + sizeOf arm := by
  obtain ⟨pattern, guard, body⟩ := arm
  cases guard <;>
    simp only [MatchArm.parts, Option.toList_none, Option.toList_some, List.map_nil, List.map_cons,
      List.nil_append, List.cons_append, List.mem_cons, List.not_mem_nil, or_false] at h
  · subst h
    simp
  · obtain rfl | rfl := h <;> simp <;> omega

theorem exprs_smaller {es : List Expr} (h : p ∈ es.map Part.ofExpr) : sizeOf p.node < 1 + sizeOf es := by
  obtain ⟨e, he, rfl⟩ := List.mem_map.mp h
  have := List.sizeOf_lt_of_mem he
  simp only [Part.ofExpr, Node.expr.sizeOf_spec]
  omega

theorem arms_smaller {arms : List MatchArm} (h : p ∈ arms.flatMap MatchArm.parts) :
    sizeOf p.node < 1 + sizeOf arms := by
  obtain ⟨arm, harm, hp⟩ := List.mem_flatMap.mp h
  have := List.sizeOf_lt_of_mem harm
  have := MatchArm.parts_smaller hp
  omega

theorem option_smaller {e : Option Expr} (h : p ∈ e.toList.map Part.ofExpr) : sizeOf p.node < 1 + sizeOf e := by
  cases e with
  | none => simp at h
  | some e =>
    simp only [Option.toList_some, List.map_cons, List.map_nil, List.mem_singleton] at h
    subst h
    simp [Part.ofExpr]

theorem Expr.parts_smaller : ∀ {e : Expr}, p ∈ e.parts → sizeOf p.node < 1 + sizeOf e
  | .literal _, h | .identifier _ _, h => by simp [Expr.parts] at h
  | .interpolatedString _ _, h | .tuple _, h | .pipeline _, h | .listLiteral _, h => by
    have := exprs_smaller (by simpa only [Expr.parts] using h)
    simp; omega
  | .binary _ _ _, h | .indexAccess _ _, h | .range _ _ _, h => by
    simp only [Expr.parts, List.mem_cons, List.not_mem_nil, or_false] at h
    obtain rfl | rfl := h <;> simp [Part.ofExpr] <;> omega
  | .unary _ _, h | .memberAccess _ _, h | .errorPropagate _, h | .arrayRepeatLiteral _ _, h
  | .comptime _, h | .wrapping _, h | .saturating _, h | .cast _ _ _, h | .isCheck _ _, h => by
    simp only [Expr.parts, List.mem_cons, List.not_mem_nil, or_false] at h
    subst h
    simp [Part.ofExpr] <;> omega
  | .call _ _, h => by
    obtain rfl | h := List.mem_cons.mp (by simpa only [Expr.parts] using h)
    · simp [Part.ofExpr]; omega
    · have := exprs_smaller h
      simp; omega
  | .objectInit _ _, h => by
    obtain ⟨⟨name, e⟩, hfield, rfl⟩ := List.mem_map.mp (by simpa only [Expr.parts] using h)
    have := List.sizeOf_lt_of_mem hfield
    simp only [Prod.mk.sizeOf_spec] at this
    simp [Part.ofExpr]; omega
  | .decideOn _ _, h | .selectOn _ _, h => by
    obtain h | h := List.mem_append.mp (by simpa only [Expr.parts] using h)
    · have := pairParts_smaller h
      simp; omega
    · have := option_smaller h
      simp; omega
  | .matchOn _ _, h | .orRecovery _ _, h => by
    obtain rfl | h := List.mem_cons.mp (by simpa only [Expr.parts] using h)
    · simp [Part.ofExpr]; omega
    · have := arms_smaller h
      simp; omega
  | .lambda _ _, h => by
    simp only [Expr.parts, List.mem_singleton] at h
    subst h
    simp only [Expr.lambda.sizeOf_spec, Node.expr.sizeOf_spec]
    omega
  | .mapLiteral _, h => by
    have := pairParts_smaller (by simpa only [Expr.parts] using h)
    simp; omega
  | .block _ _, h => by
    have := sequence_smaller (by simpa only [Expr.parts] using h)
    simp; omega

theorem Stmt.parts_smaller : ∀ {s : Stmt}, p ∈ s.parts → sizeOf p.node < 1 + sizeOf s
  | .block _, h => by
    have := sequence_smaller (by simpa only [Stmt.parts] using h)
    simp at this ⊢; omega
  | .bindLet _ _ _, h | .bindMut _ _ _, h | .bindConst _ _ _, h | .bindVal _ _ _ _, h
  | .compactBind _ _, h | .expr _, h | .out _, h | .err _, h => by
    simp only [Stmt.parts, List.mem_cons, List.not_mem_nil, or_false] at h
    subst h
    simp [Part.ofExpr] <;> omega
  | .assign _ _, h => by
    simp only [Stmt.parts, List.mem_cons, List.not_mem_nil, or_false] at h
    obtain rfl | rfl := h <;> simp [Part.ofExpr] <;> omega
  | .ifElse _ _ e, h => by
    cases e <;>
      simp only [Stmt.parts, Option.toList_none, Option.toList_some, List.map_nil, List.map_cons,
        List.mem_cons, List.not_mem_nil, or_false] at h
    · obtain rfl | rfl := h <;> simp [Part.ofExpr, Part.ofStmt] <;> omega
    · obtain rfl | rfl | rfl := h <;> simp [Part.ofExpr, Part.ofStmt] <;> omega
  | .forIn _ _ _, h | .parallelFor _ _ _, h | .withResource _ _ _, h => by
    simp only [Stmt.parts, List.mem_cons, List.not_mem_nil, or_false] at h
    obtain rfl | rfl := h <;> simp [Part.ofExpr] <;> omega
  | .whileDo _ _, h => by
    simp only [Stmt.parts, List.mem_cons, List.not_mem_nil, or_false] at h
    obtain rfl | rfl := h <;> simp [Part.ofExpr, Part.ofStmt] <;> omega
  | .loop _, h | .parallel _, h | .simd _, h | .unsafeBlock _ _, h => by
    simp only [Stmt.parts, List.mem_cons, List.not_mem_nil, or_false] at h
    subst h
    simp [Part.ofStmt] <;> omega
  | .ret _, h => by
    have := option_smaller (by simpa only [Stmt.parts] using h)
    simp; omega
  | .breakLoop, h | .continueLoop, h | .asm _ _ _, h => by simp [Stmt.parts] at h

theorem Node.parts_smaller {n : Node} (h : p ∈ n.parts) : sizeOf p.node < sizeOf n := by
  cases n with
  | expr e => simpa using Expr.parts_smaller h
  | stmt s => simpa using Stmt.parts_smaller h

/-- What holds of a node when it holds of its operands holds of every node. -/
theorem Node.induction {motive : Node → Prop}
    (step : ∀ n, (∀ p ∈ n.parts, motive p.node) → motive n) (n : Node) : motive n :=
  step n fun p _ => Node.induction step p.node
termination_by sizeOf n
decreasing_by
  apply Node.parts_smaller
  assumption

end Datara.Ast
