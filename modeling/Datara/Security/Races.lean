import Datara.Ast.Nodes

/-!
# The data race gate

What `SecurityVerifier` does for `parallel` blocks and parallel loops: the walk over a body that keeps
the variables declared so far (`outer_vars`) and the innermost justification of an `unsafe`, the reads
and writes collected for each statement of a `parallel` block, and the writes looked for in the body of a
parallel loop. Of `verify_stmt` only these parts are here, and of the diagnostics the variables they name.
-/

namespace Datara.Security

open Datara.Ast

/-- Rust's `char::is_whitespace`. -/
def isWhitespace (c : Char) : Bool :=
  let n := c.toNat
  (9 ≤ n ∧ n ≤ 13) ∨ (8192 ≤ n ∧ n ≤ 8202) ∨ n ∈ [32, 133, 160, 5760, 8232, 8233, 8239, 8287, 12288]

/-- `Some(j) => !j.trim().is_empty()` -/
def justified : Option String → Bool
  | some j => !j.toList.all isWhitespace
  | none => false

/-! ## Reads of an expression -/

section Reads

variable (outerVars declared : List String)

mutual

/-- The names `collect_expr_reads` inserts. -/
def collectExprReads : Expr → List String
  | .identifier name _ => if name ∈ outerVars ∧ name ∉ declared then [name] else []
  | .binary _ left right => collectExprReads left ++ collectExprReads right
  | .unary _ expr => collectExprReads expr
  | .call callee args => collectExprReads callee ++ collectAllReads args
  | .memberAccess object _ => collectExprReads object
  | .indexAccess object index => collectExprReads object ++ collectExprReads index
  | .tuple exprs => collectAllReads exprs
  | .listLiteral exprs => collectAllReads exprs
  | .mapLiteral entries => collectPairReads entries
  | .interpolatedString _ expressions => collectAllReads expressions
  | .matchOn value arms => collectExprReads value ++ collectArmReads arms
  | .decideOn arms elseArm => collectPairReads arms ++ collectOptionReads elseArm
  | .selectOn arms elseArm => collectPairReads arms ++ collectOptionReads elseArm
  | .pipeline stages => collectAllReads stages
  | .range start stop _ => collectExprReads start ++ collectExprReads stop
  | .objectInit _ fields => collectFieldReads fields
  | .errorPropagate inner => collectExprReads inner
  | .lambda _ body => collectExprReads body
  | .block stmts value => collectBlockReads stmts ++ collectOptionReads value
  -- `_ => {}`
  | .literal _ | .orRecovery _ _ | .arrayRepeatLiteral _ _ | .comptime _ | .wrapping _
  | .saturating _ | .cast _ _ _ | .isCheck _ _ => []

def collectAllReads : List Expr → List String
  | [] => []
  | e :: rest => collectExprReads e ++ collectAllReads rest

def collectPairReads : List (Expr × Expr) → List String
  | [] => []
  | (k, v) :: rest => collectExprReads k ++ collectExprReads v ++ collectPairReads rest

def collectFieldReads : List (String × Expr) → List String
  | [] => []
  | (_, e) :: rest => collectExprReads e ++ collectFieldReads rest

def collectArmReads : List MatchArm → List String
  | [] => []
  | .mk _ guard body :: rest =>
    collectOptionReads guard ++ collectExprReads body ++ collectArmReads rest

def collectOptionReads : Option Expr → List String
  | none => []
  | some e => collectExprReads e

/-- Of the statements of an expression block only those that hold an expression directly count. -/
def collectBlockReads : List Stmt → List String
  | [] => []
  | .expr e :: rest | .out e :: rest | .err e :: rest | .bindLet _ _ e :: rest
  | .bindMut _ _ e :: rest | .bindVal _ _ e _ :: rest | .bindConst _ _ e :: rest
  | .compactBind _ e :: rest | .ret (some e) :: rest => collectExprReads e ++ collectBlockReads rest
  | .assign target value :: rest =>
    collectExprReads target ++ collectExprReads value ++ collectBlockReads rest
  | _ :: rest => collectBlockReads rest

end

end Reads

/-! ## A `parallel` block -/

/-- What `collect_branch_reads_writes` threads: `local_declared`, `reads` and `writes`. -/
structure Branch where
  declared : List String
  reads : List String
  writes : List String

namespace Branch

def declare (b : Branch) (name : String) : Branch := { b with declared := name :: b.declared }

def read (outerVars : List String) (e : Expr) (b : Branch) : Branch :=
  { b with reads := collectExprReads outerVars b.declared e ++ b.reads }

/-- A write of the name, when it is an outer one that nothing declared so far hides. -/
def write (outerVars : List String) (name : String) (b : Branch) : Branch :=
  if name ∈ outerVars ∧ name ∉ b.declared then { b with writes := name :: b.writes } else b

def writeTarget (outerVars : List String) (target : Expr) (b : Branch) : Branch :=
  match target with
  | .identifier name _ => b.write outerVars name
  | _ => b

/-- Back to the names declared before: what was cloned for the walk is dropped. -/
def backTo (declared : List String) (b : Branch) : Branch := { b with declared := declared }

end Branch

section Collect

variable (outerVars : List String)

mutual

/-- `collect_branch_reads_writes` -/
def collectBranch : Stmt → Branch → Branch
  | .block stmts, b => collectBranches stmts b
  | .bindLet name _ init, b => (b.declare name).read outerVars init
  | .bindConst name _ init, b => (b.declare name).read outerVars init
  | .bindVal name _ init _, b => (b.declare name).read outerVars init
  | .bindMut name _ init, b => ((b.write outerVars name).declare name).read outerVars init
  | .assign target value, b => (b.writeTarget outerVars target).read outerVars value
  | .expr e, b => b.read outerVars e
  | .out e, b => b.read outerVars e
  | .err e, b => b.read outerVars e
  | .ifElse condition thenBranch elseBranch, b =>
    let afterThen := (collectBranch thenBranch (b.read outerVars condition)).backTo b.declared
    collectElse elseBranch afterThen
  | .whileDo condition body, b => collectBranch body (b.read outerVars condition)
  | .forIn varName iterable body, b =>
    (collectBranch body ((b.read outerVars iterable).declare varName)).backTo b.declared
  | .loop body, b => collectBranch body b
  | .unsafeBlock justification body, b => if justified justification then b else collectBranch body b
  | .parallel body, b => collectBranch body b
  | .parallelFor varName iterable body, b =>
    (collectBranch body ((b.read outerVars iterable).declare varName)).backTo b.declared
  | .withResource resourceName init body, b =>
    (collectBranch body ((b.read outerVars init).declare resourceName)).backTo b.declared
  | .ret (some e), b => b.read outerVars e
  -- `_ => {}`
  | .ret none, b => b
  | .compactBind _ _, b => b
  | .breakLoop, b => b
  | .continueLoop, b => b
  | .simd _, b => b
  | .asm _ _ _, b => b

def collectBranches : List Stmt → Branch → Branch
  | [], b => b
  | s :: rest, b => collectBranches rest (collectBranch s b)

def collectElse : Option Stmt → Branch → Branch
  | none, b => b
  | some s, b => (collectBranch s b).backTo b.declared

end

/-- The variables two branches are reported for: written by both, or written by one and read by the
other. -/
def conflicts (i j : Branch) : List String :=
  i.writes.filter (· ∈ j.writes) ++ i.writes.filter (· ∈ j.reads) ++ j.writes.filter (· ∈ i.reads)

def pairConflicts : List Branch → List String
  | [] => []
  | i :: rest => rest.flatMap (conflicts i) ++ pairConflicts rest

/-- `check_parallel_block_data_race`, as the list of the variables it reports. -/
def checkParallelBlock : Stmt → List String
  | .block stmts =>
    if stmts.length ≤ 1 then []
    else pairConflicts (stmts.map fun s => collectBranch outerVars s ⟨[], [], []⟩)
  | _ => []

/-! ## A parallel loop -/

/-- What `collect_and_check_data_race` threads: `inner_declared`, and the variables reported. -/
structure LoopState where
  declared : List String
  reported : List String

namespace LoopState

def declare (name : String) (l : LoopState) : LoopState := { l with declared := name :: l.declared }

def write (outerVars : List String) (name : String) (l : LoopState) : LoopState :=
  if name ∈ outerVars ∧ name ∉ l.declared then { l with reported := name :: l.reported } else l

def writeTarget (outerVars : List String) (target : Expr) (l : LoopState) : LoopState :=
  match target with
  | .identifier name _ => l.write outerVars name
  | _ => l

def backTo (declared : List String) (l : LoopState) : LoopState := { l with declared := declared }

end LoopState

mutual

/-- `collect_and_check_data_race` -/
def collectAndCheck : Stmt → LoopState → LoopState
  | .block stmts, l => collectAndCheckAll stmts l
  | .bindLet name _ _, l => l.declare name
  | .bindConst name _ _, l => l.declare name
  | .bindVal name _ _ _, l => l.declare name
  | .bindMut name _ _, l => (l.write outerVars name).declare name
  | .assign target _, l => l.writeTarget outerVars target
  | .ifElse _ thenBranch elseBranch, l =>
    collectAndCheckElse elseBranch ((collectAndCheck thenBranch l).backTo l.declared)
  | .whileDo _ body, l => collectAndCheck body l
  | .loop body, l => collectAndCheck body l
  | .unsafeBlock justification body, l =>
    if justified justification then l else collectAndCheck body l
  | .forIn varName _ body, l => (collectAndCheck body (l.declare varName)).backTo l.declared
  | .parallel body, l => collectAndCheck body l
  | .simd body, l => collectAndCheck body l
  | .parallelFor varName _ body, l => (collectAndCheck body (l.declare varName)).backTo l.declared
  | .withResource resourceName _ body, l =>
    (collectAndCheck body (l.declare resourceName)).backTo l.declared
  | .compactBind name _, l => l.declare name
  | .expr _, l => l
  | .ret _, l => l
  | .out _, l => l
  | .err _, l => l
  | .breakLoop, l => l
  | .continueLoop, l => l
  | .asm _ _ _, l => l

def collectAndCheckAll : List Stmt → LoopState → LoopState
  | [], l => l
  | s :: rest, l => collectAndCheckAll rest (collectAndCheck s l)

def collectAndCheckElse : Option Stmt → LoopState → LoopState
  | none, l => l
  | some s, l => (collectAndCheck s l).backTo l.declared

end

/-- `check_parallel_data_race`, as the list of the variables it reports. -/
def checkParallelFor (loopVar : String) (body : Stmt) : List String :=
  (collectAndCheck outerVars body ⟨[loopVar], []⟩).reported

end Collect

/-! ## The walk over a body -/

/-- The part of `FnContext` the gate reads, and the variables reported so far. -/
structure FnContext where
  outerVars : List String
  justification : Option String
  reported : List String

namespace FnContext

def declare (name : String) (ctx : FnContext) : FnContext :=
  { ctx with outerVars := name :: ctx.outerVars }

/-- The gate runs only where no `unsafe` is around, justified or not. -/
def report (found : List String) (ctx : FnContext) : FnContext :=
  if ctx.justification.isNone then { ctx with reported := found ++ ctx.reported } else ctx

def backTo (outerVars : List String) (ctx : FnContext) : FnContext :=
  { ctx with outerVars := outerVars }

def under (justification : Option String) (ctx : FnContext) : FnContext :=
  { ctx with justification := justification }

end FnContext

mutual

/-- `verify_stmt`, the race gate's part. -/
def verifyStmt : Stmt → FnContext → FnContext
  | .block stmts, ctx => (verifyStmts stmts ctx).backTo ctx.outerVars
  | .bindLet name _ _, ctx => ctx.declare name
  | .bindConst name _ _, ctx => ctx.declare name
  | .bindVal name _ _ _, ctx => ctx.declare name
  | .bindMut name _ _, ctx => ctx.declare name
  | .compactBind name _, ctx => ctx.declare name
  | .ifElse _ thenBranch elseBranch, ctx =>
    verifyElse elseBranch ((verifyStmt thenBranch ctx).backTo ctx.outerVars)
  | .whileDo _ body, ctx => (verifyStmt body ctx).backTo ctx.outerVars
  | .forIn varName _ body, ctx => (verifyStmt body (ctx.declare varName)).backTo ctx.outerVars
  | .loop body, ctx => (verifyStmt body ctx).backTo ctx.outerVars
  | .parallel body, ctx => verifyStmt body (ctx.report (checkParallelBlock ctx.outerVars body))
  | .simd body, ctx => verifyStmt body ctx
  | .parallelFor varName _ body, ctx =>
    (verifyStmt body ((ctx.report (checkParallelFor ctx.outerVars varName body)).declare
      varName)).backTo ctx.outerVars
  | .withResource resourceName _ body, ctx =>
    (verifyStmt body (ctx.declare resourceName)).backTo ctx.outerVars
  | .unsafeBlock justification body, ctx =>
    (verifyStmt body (ctx.under justification)).under ctx.justification
  | .assign _ _, ctx => ctx
  | .expr _, ctx => ctx
  | .out _, ctx => ctx
  | .err _, ctx => ctx
  | .ret _, ctx => ctx
  | .breakLoop, ctx => ctx
  | .continueLoop, ctx => ctx
  | .asm _ _ _, ctx => ctx

def verifyStmts : List Stmt → FnContext → FnContext
  | [], ctx => ctx
  | s :: rest, ctx => verifyStmts rest (verifyStmt s ctx)

def verifyElse : Option Stmt → FnContext → FnContext
  | none, ctx => ctx
  | some s, ctx => (verifyStmt s ctx).backTo ctx.outerVars

end

/-- `verify_fn_decl`; the body of a function declared `unsafe` counts as justified. -/
def verifyFnDecl (f : FunctionDecl) : List String :=
  let justification := if "unsafe" ∈ f.attributes then some "unsafe function body" else none
  (verifyStmt f.body ⟨f.params.map Param.name, justification, []⟩).reported

/-- `verify_method_decl`; the fields the resolver has for the class are among the outer variables. -/
def verifyMethodDecl (classFields : String → List String) (target : String) (m : MethodDecl) :
    List String :=
  match m.body with
  | none => []
  | some body =>
    let justification := if "unsafe" ∈ m.attributes then some "unsafe method body" else none
    let outerVars := m.params.map Param.name ++ (classFields target ++ ["this"])
    (verifyStmt body ⟨outerVars, justification, []⟩).reported

def verifyItem (classFields : String → List String) (target : String) : ClassItem → List String
  | .method m => verifyMethodDecl classFields target m
  | _ => []

def verifyDecl (classFields : String → List String) : Decl → List String
  | .function f | .flow f | .task f => verifyFnDecl f
  | .classDecl name items => items.flatMap (verifyItem classFields name)
  | .behavior target items => items.flatMap (verifyItem classFields target)
  | .impl _ methods => methods.flatMap verifyFnDecl
  | _ => []

/-- `verify_program`: the variables a `DataRaceViolation` is reported for. -/
def verifyProgram (classFields : String → List String) (program : Program) : List String :=
  program.declarations.flatMap (verifyDecl classFields)

end Datara.Security
