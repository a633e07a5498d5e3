import Datara.Security.Races

/-!
# What the race gate has in view

What a statement reads and writes is read off the tree with the scopes of the language: a name is an
outer one unless a declaration, a loop variable, a pattern or a parameter between hides it. The gate goes
its own ways through the tree, with its own account of what is hidden. The relations here are these ways,
and the condition says that no race lies beside them.
-/

namespace Datara.Security

open Datara.Ast Datara.Library

/-! ## Races -/

/-- The variable an assignment changes: its target, or what the target is a field or an element of. -/
def rootOf : Expr → Option String
  | .identifier name _ => some name
  | .memberAccess object _ => rootOf object
  | .indexAccess object _ => rootOf object
  | _ => none

def readsAt (x : String) (n : Node) : Prop := ∃ span, n = .expr (.identifier x span)

def writesAt (x : String) (n : Node) : Prop :=
  ∃ target value, n = .stmt (.assign target value) ∧ rootOf target = some x

/-- The part writes the variable `x` of the scope around it. -/
def Writes (p : Part) (x : String) : Prop :=
  ∃ binds m, Reach Node.parts p.node binds m ∧ x ∉ binds ∧ x ∉ p.binds ∧ writesAt x m

def Accesses (p : Part) (x : String) : Prop :=
  ∃ binds m, Reach Node.parts p.node binds m ∧ x ∉ binds ∧ x ∉ p.binds ∧
    (readsAt x m ∨ writesAt x m)

def Conflict (p q : Part) (x : String) : Prop :=
  Writes p x ∧ Accesses q x ∨ Writes q x ∧ Accesses p x

/-- No two statements of a `parallel` block conflict on a variable in scope, and no iteration of a
parallel loop writes one. -/
def NodeRaceFree (scope : List String) : Node → Prop
  | .stmt (.parallel (.block stmts)) =>
    (sequence [] stmts none).Pairwise fun p q => ∀ x ∈ scope, ¬ Conflict p q x
  | .stmt (.parallelFor varName _ body) => ∀ x ∈ scope, ¬ Writes ⟨[varName], .stmt body⟩ x
  | _ => True

/-- The operands of a node, unless it is an `unsafe` with a justification. -/
def openParts : Node → List Part
  | .stmt (.unsafeBlock justification body) =>
    if justified justification then [] else [.ofStmt body]
  | n => n.parts

section Scopes

variable (globals : List String) (classFields : String → List String)

def methodScope (target : String) (params : List Param) : List String :=
  params.map Param.name ++ ("this" :: "self" :: classFields target ++ globals)

def itemScopes (target : String) : ClassItem → Option (List String × Stmt)
  | .method m => m.body.map fun body => (methodScope globals classFields target m.params, body)
  | _ => none

/-- The bodies of a declaration, each with the variables in scope around it. -/
def declScopes : Decl → List (List String × Stmt)
  | .function f | .flow f | .task f => [(f.params.map Param.name ++ globals, f.body)]
  | .classDecl name items | .behavior name items | .component name items =>
    items.filterMap (itemScopes globals classFields name)
  | .role name methods =>
    methods.filterMap fun m =>
      m.body.map fun body => (methodScope globals classFields name m.params, body)
  | .traitDef name methods =>
    methods.filterMap fun m =>
      m.defaultBody.map fun body => (methodScope globals classFields name m.params, body)
  | .impl target methods =>
    methods.map fun m => (methodScope globals classFields target m.params, m.body)
  | _ => []

end Scopes

def globalNames (program : Program) : List String :=
  program.declarations.filterMap fun
    | .global name _ => some name
    | _ => none

def scopes (classFields : String → List String) (program : Program) : List (List String × Stmt) :=
  program.declarations.flatMap (declScopes (globalNames program) classFields)

/-- **The property**: no `parallel` block and no parallel loop outside a justified `unsafe` has a race
on a variable of the scope it is in. -/
def RaceFree (classFields : String → List String) (program : Program) : Prop :=
  ∀ scope body, (scope, body) ∈ scopes classFields program →
    ∀ binds m, Reach openParts (.stmt body) binds m → NodeRaceFree (binds ++ scope) m

/-! ## The gate's ways through the tree -/

/-- The expressions `collect_expr_reads` goes on to. -/
def blockExprs : Stmt → List Expr
  | .expr e | .out e | .err e | .bindLet _ _ e | .bindMut _ _ e | .bindVal _ _ e _
  | .bindConst _ _ e | .compactBind _ e | .ret (some e) => [e]
  | .assign target value => [target, value]
  | _ => []

def armExprs : MatchArm → List Expr
  | .mk _ guard body => guard.toList ++ [body]

def scanned : Expr → List Expr
  | .binary _ l r | .indexAccess l r | .range l r _ => [l, r]
  | .unary _ e | .memberAccess e _ | .errorPropagate e | .lambda _ e => [e]
  | .call callee args => callee :: args
  | .tuple es | .listLiteral es | .interpolatedString _ es | .pipeline es => es
  | .mapLiteral entries => entries.flatMap fun p => [p.1, p.2]
  | .matchOn value arms => value :: arms.flatMap armExprs
  | .decideOn arms elseArm | .selectOn arms elseArm =>
    (arms.flatMap fun p => [p.1, p.2]) ++ elseArm.toList
  | .objectInit _ fields => fields.map Prod.snd
  | .block stmts value => stmts.flatMap blockExprs ++ value.toList
  | _ => []

section Leaks

variable (inLoop : Bool)

mutual

/-- The names a statement leaves among the declared ones. What is declared in a nested block, in the body
of a `while` or a `loop` or in an `unsafe` stays among them after it. -/
def leaks : Stmt → List String
  | .block stmts => leaksAll stmts
  | .bindLet name _ _ | .bindConst name _ _ | .bindVal name _ _ _ | .bindMut name _ _ => [name]
  | .compactBind name _ => if inLoop then [name] else []
  | .whileDo _ body | .loop body | .parallel body => leaks body
  | .simd body => if inLoop then leaks body else []
  | .unsafeBlock justification body => if justified justification then [] else leaks body
  | _ => []

def leaksAll : List Stmt → List String
  | [] => []
  | s :: rest => leaksAll rest ++ leaks s

end

/-- The statements of a block, each under what the ones before it leak. -/
def leakSequence : List Stmt → List Part
  | [] => []
  | s :: rest => .ofStmt s :: (leakSequence rest).map (Operand.under (leaks inLoop s))

end Leaks

/-- Where `collect_branch_reads_writes` and `collect_expr_reads` go on to, with the names declared on the
way. A declaration counts before its initializer is read. -/
def branchParts : Node → List Part
  | .expr e => (scanned e).map .ofExpr
  | .stmt (.block stmts) => leakSequence false stmts
  | .stmt (.bindLet name _ e) | .stmt (.bindConst name _ e) | .stmt (.bindVal name _ e _)
  | .stmt (.bindMut name _ e) => [⟨[name], .expr e⟩]
  | .stmt (.assign _ e) | .stmt (.expr e) | .stmt (.out e) | .stmt (.err e)
  | .stmt (.ret (some e)) => [.ofExpr e]
  | .stmt (.ifElse c t e) => .ofExpr c :: .ofStmt t :: e.toList.map .ofStmt
  | .stmt (.whileDo c body) => [.ofExpr c, .ofStmt body]
  | .stmt (.forIn x e body) | .stmt (.parallelFor x e body) | .stmt (.withResource x e body) =>
    [.ofExpr e, ⟨[x], .stmt body⟩]
  | .stmt (.loop body) | .stmt (.parallel body) => [.ofStmt body]
  | .stmt (.unsafeBlock justification body) =>
    if justified justification then [] else [.ofStmt body]
  | _ => []

/-- Where `collect_and_check_data_race` goes on to. -/
def loopParts : Node → List Part
  | .stmt (.block stmts) => leakSequence true stmts
  | .stmt (.ifElse _ t e) => .ofStmt t :: e.toList.map .ofStmt
  | .stmt (.whileDo _ body) | .stmt (.loop body) | .stmt (.parallel body) | .stmt (.simd body) =>
    [.ofStmt body]
  | .stmt (.forIn x _ body) | .stmt (.parallelFor x _ body) | .stmt (.withResource x _ body) =>
    [⟨[x], .stmt body⟩]
  | .stmt (.unsafeBlock justification body) =>
    if justified justification then [] else [.ofStmt body]
  | _ => []

/-- The names a statement leaves among the outer variables of the statements after it. -/
def outerAfter : Stmt → List String
  | .bindLet name _ _ | .bindConst name _ _ | .bindVal name _ _ _ | .bindMut name _ _
  | .compactBind name _ => [name]
  | .parallel body | .simd body | .unsafeBlock _ body => outerAfter body
  | _ => []

/-- A node of the walk over a body, with the justification around it. -/
abbrev Guarded := Option String × Node

def watchSequence (justification : Option String) : List Stmt → List (Operand String Guarded)
  | [] => []
  | s :: rest => ⟨[], justification, .stmt s⟩ ::
      (watchSequence justification rest).map (Operand.under (outerAfter s))

/-- Where `verify_stmt` goes on to: statements only, whatever blocks their expressions hold. -/
def watchParts : Guarded → List (Operand String Guarded)
  | (j, .stmt (.block stmts)) => watchSequence j stmts
  | (j, .stmt (.ifElse _ t e)) => ⟨[], j, .stmt t⟩ :: e.toList.map fun s => ⟨[], j, .stmt s⟩
  | (j, .stmt (.whileDo _ body)) | (j, .stmt (.loop body)) | (j, .stmt (.parallel body))
  | (j, .stmt (.simd body)) => [⟨[], j, .stmt body⟩]
  | (j, .stmt (.forIn x _ body)) | (j, .stmt (.parallelFor x _ body))
  | (j, .stmt (.withResource x _ body)) => [⟨[x], j, .stmt body⟩]
  | (_, .stmt (.unsafeBlock j body)) => [⟨[], j, .stmt body⟩]
  | _ => []

/-! ## In view -/

def SeenWrite (parts : Node → List Part) (n : Node) (x : String) : Prop :=
  ∃ binds span value, Reach parts n binds (.stmt (.assign (.identifier x span) value)) ∧ x ∉ binds

def SeenAccess (n : Node) (x : String) : Prop :=
  SeenWrite branchParts n x ∨ ∃ binds span, Reach branchParts n binds (.expr (.identifier x span)) ∧
    x ∉ binds

def SeenConflict (p q : Node) (x : String) : Prop :=
  SeenWrite branchParts p x ∧ SeenAccess q x ∨ SeenWrite branchParts q x ∧ SeenAccess p x

/-- The bodies the gate walks over, each with what its context starts with. -/
def functionContext (f : FunctionDecl) : FnContext × Stmt :=
  (⟨f.params.map Param.name,
    if "unsafe" ∈ f.attributes then some "unsafe function body" else none, []⟩, f.body)

def methodContext (classFields : String → List String) (target : String) (m : MethodDecl)
    (body : Stmt) : FnContext × Stmt :=
  (⟨m.params.map Param.name ++ (classFields target ++ ["this"]),
    if "unsafe" ∈ m.attributes then some "unsafe method body" else none, []⟩, body)

def itemContext (classFields : String → List String) (target : String) :
    ClassItem → Option (FnContext × Stmt)
  | .method m => m.body.map (methodContext classFields target m)
  | _ => none

def declContexts (classFields : String → List String) : Decl → List (FnContext × Stmt)
  | .function f | .flow f | .task f => [functionContext f]
  | .classDecl name items | .behavior name items => items.filterMap (itemContext classFields name)
  | .impl _ methods => methods.map functionContext
  | _ => []

def contexts (classFields : String → List String) (program : Program) : List (FnContext × Stmt) :=
  program.declarations.flatMap (declContexts classFields)

/-- The gate comes by the node, with no `unsafe` around it and with `x` among the outer variables. -/
def Watched (classFields : String → List String) (program : Program) (n : Node) (x : String) : Prop :=
  ∃ ctx body, (ctx, body) ∈ contexts classFields program ∧
    ∃ binds, Reach watchParts (ctx.justification, .stmt body) binds (none, n) ∧
      (x ∈ binds ∨ x ∈ ctx.outerVars)

section View

variable (classFields : String → List String) (program : Program) (scope : List String)

def NodeInView : Node → Prop
  | .stmt (.parallel (.block stmts)) =>
    (sequence [] stmts none).Pairwise fun p q => ∀ x ∈ scope, Conflict p q x →
      Watched classFields program (.stmt (.parallel (.block stmts))) x ∧ SeenConflict p.node q.node x
  | .stmt (.parallelFor varName iterable body) =>
    ∀ x ∈ scope, Writes ⟨[varName], .stmt body⟩ x →
      Watched classFields program (.stmt (.parallelFor varName iterable body)) x ∧
        x ≠ varName ∧ SeenWrite loopParts (.stmt body) x
  | _ => True

end View

/-- **The condition**: the gate comes by every `parallel` block and loop that has a race, and sees the
two accesses. -/
def RacesInView (classFields : String → List String) (program : Program) : Prop :=
  ∀ scope body, (scope, body) ∈ scopes classFields program →
    ∀ binds m, Reach openParts (.stmt body) binds m →
      NodeInView classFields program (binds ++ scope) m

end Datara.Security
