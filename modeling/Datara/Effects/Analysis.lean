import Datara.Ast.Nodes
import Datara.Library.Rounds
import Mathlib.Data.Finset.Basic

/-!
# Effect inference

`EffectAnalyzer` gives every function a set of effects. A round analyses the bodies in the order of
their declarations under the table as it stands, and the rounds go on until one changes nothing, up to
32 of them. The walk over a body threads the set it has so far and the names bound in the body.
-/

namespace Datara.Effects

open Datara.Ast Datara.Library

inductive Effect
  | pure
  | read
  | write
  | io
  | network
  | database
  | unsafeCode
  | parallel
  | nondeterministic
  | foreign
  deriving DecidableEq

structure EffectSet where
  effects : Finset Effect
  deriving DecidableEq

namespace EffectSet

def new : EffectSet := ⟨∅⟩

/-- `EffectSet::pure` -/
def pureSet : EffectSet := ⟨{.pure}⟩

def add (s : EffectSet) (effect : Effect) : EffectSet :=
  if effect ≠ .pure then ⟨insert effect (s.effects.erase .pure)⟩ else s

/-- An effect other than `Pure` drops `Pure` from the set it is added to. -/
def union (s other : EffectSet) : EffectSet :=
  let added := other.effects.erase .pure
  if added = ∅ then s else ⟨s.effects.erase .pure ∪ added⟩

def addAll (s : EffectSet) (effects : List Effect) : EffectSet := effects.foldl add s

end EffectSet

/-- `function_effects` -/
abbrev Table := String → Option EffectSet

def foreignNames : List String :=
  ["py_call", "py_call_1_str", "py_call_1_float", "py_eval", "py_eval_safe", "py_eval_int",
    "py_eval_float", "py_import", "py_exec", "py_last_error", "py_clear_error", "datara_py_eval",
    "datara_py_eval_safe", "datara_py_eval_int", "datara_py_eval_float", "datara_py_call",
    "datara_py_call_1_str", "datara_py_call_1_float", "datara_py_import", "datara_py_exec",
    "datara_py_last_error", "datara_py_clear_error", "datara_py_export_list_f64",
    "datara_py_assert_same_ptr", "zig_eval_int", "datara_zig_eval_int", "zig_call",
    "datara_zig_call", "csharp_invoke_i64", "datara_csharp_invoke_i64", "csharp_invoke_f64",
    "datara_csharp_invoke_f64", "lua_eval_int", "datara_lua_eval_int", "lua_eval_float",
    "datara_lua_eval_float", "lua_exec", "datara_lua_exec", "polyglot_parallel_exec",
    "datara_polyglot_parallel_exec", "arena_alloc", "datara_rt_arena_alloc", "arena_reset",
    "datara_rt_arena_reset", "arena_used", "datara_rt_arena_used", "mem_alloc",
    "datara_rt_mem_alloc", "mem_free", "datara_rt_mem_free", "mem_copy", "datara_rt_mem_copy",
    "ptr_read_i64", "datara_rt_ptr_read_i64", "ptr_write_i64", "datara_rt_ptr_write_i64",
    "ptr_read_f64", "datara_rt_ptr_read_f64", "ptr_write_f64", "datara_rt_ptr_write_f64",
    "ptr_read_u8", "datara_rt_ptr_read_u8", "ptr_write_u8", "datara_rt_ptr_write_u8", "cpu_fence",
    "datara_rt_cpu_fence", "cpu_prefetch", "datara_rt_cpu_prefetch"]

/-- The table `EffectAnalyzer::new` starts from. -/
def builtins : Table := fun name =>
  if name ∈ ["out", "err", "print"] then some (EffectSet.new.addAll [.io])
  else if name ∈ ["fetch", "http_get"] then some (EffectSet.new.addAll [.network, .io])
  else if name ∈ ["db_query", "db_write"] then some (EffectSet.new.addAll [.database, .io])
  else if name ∈ ["rand", "now"] then some (EffectSet.new.addAll [.nondeterministic])
  else if name ∈ foreignNames then some (EffectSet.new.addAll [.foreign, .nondeterministic])
  else none

def startsWith (name lead : String) : Bool := lead.toList.isPrefixOf name.toList

/-- What a call of a name that the table does not have is taken to do. -/
def nameEffects (name : String) : List Effect :=
  if name = "println" ∨ name = "print" then [.io]
  else if startsWith name "http_" ∨ startsWith name "net_" then [.network, .io]
  else if startsWith name "db_" ∨ startsWith name "sql_" then [.database, .io]
  else if startsWith name "py_" ∨ startsWith name "datara_py_" then [.foreign, .nondeterministic]
  else if name = "rand" ∨ name = "random" ∨ name = "timestamp" then [.nondeterministic]
  else []

/-- What a call of a member is taken to do, whatever it is a member of. -/
def memberEffects (member : String) : List Effect :=
  if startsWith member "py_" ∨
      member ∈ ["eval", "eval_int", "eval_float", "call", "exec", "bind_buffer"] then
    [.foreign, .nondeterministic]
  else if startsWith member "http_" ∨ startsWith member "net_" ∨ member = "fetch" then
    [.network, .io]
  else if startsWith member "db_" ∨ startsWith member "sql_" ∨ member = "query" then
    [.database, .io]
  else if member = "rand" ∨ member = "random" then [.nondeterministic]
  else []

/-- `format!("{}.{}", object, member)` -/
def methodKey (object member : String) : String := object ++ "." ++ member

/-- What `analyze_expr` adds for a call after it has walked the callee and the arguments. -/
def callEffects (table : Table) (callee : Expr) (effects : EffectSet) : EffectSet :=
  match callee with
  | .identifier name _ =>
    match table name with
    | some known => effects.union known
    | none => effects.addAll (nameEffects name)
  | .memberAccess object member =>
    let effects :=
      match object with
      | .identifier objName _ =>
        match table (methodKey objName member) with
        | some known => effects.union known
        | none => effects
      | _ => effects
    effects.addAll (memberEffects member)
  | _ => effects

mutual

def analyzeExpr (table : Table) : Expr → EffectSet → EffectSet
  | .call callee args, effects =>
    callEffects table callee (analyzeExprs table args (analyzeExpr table callee effects))
  | .binary _ left right, effects => analyzeExpr table right (analyzeExpr table left effects)
  | .unary _ expr, effects => analyzeExpr table expr effects
  | .errorPropagate expr, effects => analyzeExpr table expr effects
  | .memberAccess object _, effects => analyzeExpr table object (effects.add .read)
  | .pipeline stages, effects => analyzeExprs table stages effects
  | .decideOn arms elseArm, effects =>
    analyzeOption table elseArm (analyzePairs table arms effects)
  | .matchOn value arms, effects => analyzeArms table arms (analyzeExpr table value effects)
  | .selectOn arms elseArm, effects =>
    analyzeOption table elseArm (analyzePairs table arms effects)
  | .lambda _ body, effects => analyzeExpr table body effects
  | .listLiteral items, effects => analyzeExprs table items effects
  | .mapLiteral entries, effects => analyzePairs table entries effects
  | .indexAccess object index, effects =>
    analyzeExpr table index (analyzeExpr table object (effects.add .read))
  | .range start stop _, effects => analyzeExpr table stop (analyzeExpr table start effects)
  | .tuple exprs, effects => analyzeExprs table exprs effects
  | .interpolatedString _ expressions, effects => analyzeExprs table expressions effects
  -- `_ => {}`
  | .literal _, effects | .identifier _ _, effects | .objectInit _ _, effects
  | .orRecovery _ _, effects | .arrayRepeatLiteral _ _, effects | .comptime _, effects
  | .wrapping _, effects | .saturating _, effects | .cast _ _ _, effects | .block _ _, effects
  | .isCheck _ _, effects => effects

def analyzeExprs (table : Table) : List Expr → EffectSet → EffectSet
  | [], effects => effects
  | e :: rest, effects => analyzeExprs table rest (analyzeExpr table e effects)

def analyzePairs (table : Table) : List (Expr × Expr) → EffectSet → EffectSet
  | [], effects => effects
  | (k, v) :: rest, effects =>
    analyzePairs table rest (analyzeExpr table v (analyzeExpr table k effects))

def analyzeArms (table : Table) : List MatchArm → EffectSet → EffectSet
  | [], effects => effects
  | .mk _ guard body :: rest, effects =>
    analyzeArms table rest (analyzeExpr table body (analyzeOption table guard effects))

def analyzeOption (table : Table) : Option Expr → EffectSet → EffectSet
  | none, effects => effects
  | some e, effects => analyzeExpr table e effects

end

def addUnlessLocal (target : Expr) (locals : List String) (effects : EffectSet) : EffectSet :=
  match target with
  | .identifier name _ => if name ∈ locals then effects else effects.add .write
  | _ => effects.add .write

mutual

/-- The effects and the local names after a statement. -/
def analyzeStmt (table : Table) : Stmt → EffectSet → List String → EffectSet × List String
  | .block stmts, effects, locals => (analyzeStmts table stmts effects locals, locals)
  | .out e, effects, locals => (analyzeExpr table e (effects.add .io), locals)
  | .err e, effects, locals => (analyzeExpr table e (effects.add .io), locals)
  | .assign target value, effects, locals =>
    (analyzeExpr table value
      (analyzeExpr table target (addUnlessLocal target locals effects)), locals)
  | .bindLet name _ init, effects, locals => (analyzeExpr table init effects, name :: locals)
  | .bindMut name _ init, effects, locals => (analyzeExpr table init effects, name :: locals)
  | .bindConst name _ init, effects, locals => (analyzeExpr table init effects, name :: locals)
  | .bindVal name _ init _, effects, locals => (analyzeExpr table init effects, name :: locals)
  | .compactBind name init, effects, locals => (analyzeExpr table init effects, name :: locals)
  | .expr e, effects, locals => (analyzeExpr table e effects, locals)
  | .ifElse condition thenBranch elseBranch, effects, locals =>
    let effects := (analyzeStmt table thenBranch (analyzeExpr table condition effects) locals).1
    (analyzeElse table elseBranch effects locals, locals)
  | .forIn varName iterable body, effects, locals =>
    ((analyzeStmt table body (analyzeExpr table iterable effects) (varName :: locals)).1, locals)
  | .whileDo condition body, effects, locals =>
    ((analyzeStmt table body (analyzeExpr table condition effects) locals).1, locals)
  | .loop body, effects, locals => ((analyzeStmt table body effects locals).1, locals)
  | .parallel body, effects, locals =>
    ((analyzeStmt table body (effects.add .parallel) locals).1, locals)
  | .parallelFor varName iterable body, effects, locals =>
    ((analyzeStmt table body (analyzeExpr table iterable (effects.add .parallel))
      (varName :: locals)).1, locals)
  | .withResource resourceName init body, effects, locals =>
    ((analyzeStmt table body (analyzeExpr table init effects) (resourceName :: locals)).1, locals)
  | .ret value, effects, locals => (analyzeOption table value effects, locals)
  | .breakLoop, effects, locals => (effects, locals)
  | .continueLoop, effects, locals => (effects, locals)
  | .unsafeBlock _ body, effects, locals =>
    ((analyzeStmt table body (effects.add .unsafeCode) locals).1, locals)
  | .asm _ options _, effects, locals =>
    let effects := effects.add .unsafeCode
    (if "pure" ∈ options then effects else effects.add .io, locals)
  | .simd body, effects, locals => analyzeStmt table body effects locals

def analyzeStmts (table : Table) : List Stmt → EffectSet → List String → EffectSet
  | [], effects, _ => effects
  | s :: rest, effects, locals =>
    let after := analyzeStmt table s effects locals
    analyzeStmts table rest after.1 after.2

def analyzeElse (table : Table) : Option Stmt → EffectSet → List String → EffectSet
  | none, effects, _ => effects
  | some s, effects, locals => (analyzeStmt table s effects locals).1

end

/-! ## The rounds -/

/-- What `analyze_program` does for one declared name: analyse a body, or enter a foreign
function. -/
inductive Entry
  | body (key : String) (params : List String) (stmt : Stmt)
  | foreign (name : String)

def Entry.key : Entry → String
  | .body key _ _ => key
  | .foreign name => name

def ClassItem.entry (owner : String) : ClassItem → Option Entry
  | .method m => m.body.map (.body (methodKey owner m.name) (m.params.map Param.name))
  | _ => none

def functionEntry (f : FunctionDecl) : Entry := .body f.name (f.params.map Param.name) f.body

/-- A method of an `impl` also has its receiver among its locals. -/
def implEntry (target : String) (m : FunctionDecl) : Entry :=
  .body (methodKey target m.name) ("self" :: "this" :: m.params.map Param.name) m.body

def Decl.entries : Decl → List Entry
  | .function f | .flow f | .task f => [functionEntry f]
  | .externFn name => [.foreign name]
  | .classDecl name items => items.filterMap (ClassItem.entry name)
  | .behavior target items => items.filterMap (ClassItem.entry target)
  | .impl target methods => methods.map (implEntry target)
  | _ => []

def entries (program : Program) : List Entry := program.declarations.flatMap Decl.entries

/-- The table with a body's effects, when they are not the ones it has. -/
def record (key : String) (effects : EffectSet) (table : Table) : Option Table :=
  match table key with
  | some old =>
    if old.effects ≠ effects.effects then some (Function.update table key (some effects)) else none
  | none => some (Function.update table key (some effects))

def foreignEffects : EffectSet := EffectSet.new.addAll [.foreign, .nondeterministic]

def bodyEffects (table : Table) (params : List String) (stmt : Stmt) : EffectSet :=
  (analyzeStmt table stmt .pureSet params).1

def analyzeEntry (table : Table) : Entry → Option Table
  | .body key params stmt => record key (bodyEffects table params stmt) table
  | .foreign name =>
    if (table name).isSome then none else some (Function.update table name (some foreignEffects))

/-- `analyze_program` -/
def analyzeProgram (program : Program) : Table :=
  cappedRounds analyzeEntry (entries program) 32 builtins

end Datara.Effects
