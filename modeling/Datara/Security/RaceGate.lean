import Datara.Security.RaceView

/-!
# The race gate finds what it has in view

Each of the gate's walks gathers what its own way through the tree yields (`Gathers`), one case for each
kind of statement. A race in view is therefore reported, and a program without a report is free of races
exactly when all its races are in view.
-/

namespace Datara.Security

open Datara.Ast Datara.Library

/-! ## Reads -/

section Reads

variable {outerVars declared : List String} {x : String}

theorem mem_allReads {es : List Expr} : x ∈ collectAllReads outerVars declared es ↔
    ∃ e ∈ es, x ∈ collectExprReads outerVars declared e := by
  induction es with
  | nil => simp [collectAllReads]
  | cons e es ih => simp [collectAllReads, ih]

theorem mem_pairReads {es : List (Expr × Expr)} : x ∈ collectPairReads outerVars declared es ↔
    ∃ e ∈ es.flatMap fun p => [p.1, p.2], x ∈ collectExprReads outerVars declared e := by
  induction es with
  | nil => simp [collectPairReads]
  | cons p es ih =>
    obtain ⟨k, v⟩ := p
    simp [collectPairReads, ih]

theorem mem_fieldReads {fields : List (String × Expr)} :
    x ∈ collectFieldReads outerVars declared fields ↔
      ∃ e ∈ fields.map Prod.snd, x ∈ collectExprReads outerVars declared e := by
  induction fields with
  | nil => simp [collectFieldReads]
  | cons p es ih =>
    obtain ⟨name, v⟩ := p
    simp [collectFieldReads, ih]

theorem mem_optionReads {e : Option Expr} : x ∈ collectOptionReads outerVars declared e ↔
    ∃ a ∈ e.toList, x ∈ collectExprReads outerVars declared a := by
  cases e <;> simp [collectOptionReads]

theorem mem_armReads {arms : List MatchArm} : x ∈ collectArmReads outerVars declared arms ↔
    ∃ e ∈ arms.flatMap armExprs, x ∈ collectExprReads outerVars declared e := by
  induction arms with
  | nil => simp [collectArmReads]
  | cons arm arms ih =>
    obtain ⟨pattern, guard, body⟩ := arm
    cases guard <;> simp [collectArmReads, ih, armExprs, collectOptionReads]

theorem mem_blockReads {stmts : List Stmt} : x ∈ collectBlockReads outerVars declared stmts ↔
    ∃ e ∈ stmts.flatMap blockExprs, x ∈ collectExprReads outerVars declared e := by
  induction stmts with
  | nil => simp [collectBlockReads]
  | cons s stmts ih =>
    cases s with
    | ret value => cases value <;> simp [collectBlockReads, ih, blockExprs]
    | _ => simp [collectBlockReads, ih, blockExprs]

/-- What is read in an expression that the collection goes on to is read in the whole. -/
theorem reads_scanned {e a : Expr} (ha : a ∈ scanned e)
    (h : x ∈ collectExprReads outerVars declared a) :
    x ∈ collectExprReads outerVars declared e := by
  have hsome : ∃ a ∈ scanned e, x ∈ collectExprReads outerVars declared a := ⟨a, ha, h⟩
  cases e <;>
    simp only [scanned, List.not_mem_nil, false_and, exists_false] at hsome <;>
    simpa [collectExprReads, mem_allReads, mem_pairReads, mem_fieldReads, mem_optionReads,
      mem_armReads, mem_blockReads, or_and_right, exists_or] using hsome

theorem reach_of_expr {n m : Node} {binds : List String} (h : Reach branchParts n binds m) :
    ∀ e, n = .expr e → ∃ a, m = .expr a := by
  induction h with
  | refl n => exact fun e he => ⟨e, he⟩
  | head hp _ ih =>
    rintro e rfl
    obtain ⟨a, -, rfl⟩ := List.mem_map.mp hp
    exact ih a rfl

theorem reads_of_reach {n m : Node} {binds : List String} (h : Reach branchParts n binds m) :
    ∀ e span, n = .expr e → m = .expr (.identifier x span) → x ∈ outerVars → x ∉ declared →
      x ∈ collectExprReads outerVars declared e := by
  induction h with
  | refl n =>
    rintro e span rfl he hx hd
    cases he
    simp [collectExprReads, hx, hd]
  | head hp _ ih =>
    rintro e span rfl hm hx hd
    obtain ⟨a, ha, rfl⟩ := List.mem_map.mp hp
    exact reads_scanned ha (ih a span rfl hm hx hd)

end Reads

/-! ## The branches of a `parallel` block -/

inductive Hit
  | read (name : String)
  | write (name : String)

def Branch.hits (b : Branch) : Hit → Prop
  | .read name => name ∈ b.reads
  | .write name => name ∈ b.writes

/-- What a node yields under the names declared on the way to it. -/
def branchYields (outerVars : List String) (hidden : String → Prop) (n : Node) : Hit → Prop
  | .read x => (∃ span, n = .expr (.identifier x span)) ∧ x ∈ outerVars ∧ ¬ hidden x
  | .write x => (∃ span value, n = .stmt (.assign (.identifier x span) value)) ∧ x ∈ outerVars ∧
      ¬ hidden x

abbrev GathersBranch (outerVars : List String) :=
  Gathers branchParts Branch.declared Branch.hits (branchYields outerVars)

variable {body : Stmt} {s : Stmt} {leak : List String}

section Branches

variable {outerVars : List String}

theorem gathers_read (e : Expr) :
    GathersBranch outerVars [Part.ofExpr e] [] (Branch.read outerVars e) where
  keeps b o h := by
    cases o with
    | read name => exact List.mem_append_right _ h
    | write name => exact h
  leaves b a := by simp [Branch.read]
  finds b p hp binds m hreach o hy := by
    obtain rfl := List.mem_singleton.mp hp
    obtain ⟨a, rfl⟩ := reach_of_expr hreach e rfl
    cases o with
    | read x =>
      obtain ⟨⟨span, hm⟩, hx, hhidden⟩ := hy
      apply List.mem_append_left
      exact reads_of_reach hreach e span rfl hm hx fun hd => hhidden (.inr (.inr hd))
    | write x =>
      obtain ⟨⟨span, value, hm⟩, -⟩ := hy
      cases hm

theorem gathers_declare (name : String) : GathersBranch outerVars [] [name] fun b => b.declare name := by
  apply Gathers.of_frame
  · intro b o h
    cases o <;> exact h
  · intro b a
    simp [Branch.declare]

theorem write_keeps (name : String) (b : Branch) (o : Hit) (h : b.hits o) : (b.write outerVars name).hits o := by
  unfold Branch.write
  split_ifs
  · cases o with
    | read x => exact h
    | write x => exact List.mem_cons_of_mem _ h
  · exact h

theorem write_declared (name : String) (b : Branch) : (b.write outerVars name).declared = b.declared := by
  unfold Branch.write
  split_ifs <;> rfl

theorem gathers_write (name : String) : GathersBranch outerVars [] [] fun b => b.write outerVars name := by
  apply Gathers.of_frame
  · exact write_keeps name
  · intro b a
    simp [write_declared]

theorem gathers_writeTarget (target : Expr) :
    GathersBranch outerVars [] [] fun b => b.writeTarget outerVars target := by
  cases target with
  | identifier name span => exact gathers_write name
  | _ => exact Gathers.nothing

theorem hits_backTo (names : List String) (b : Branch) (o : Hit) : (b.backTo names).hits o ↔ b.hits o := by
  cases o <;> exact Iff.rfl

/-- A statement that yields nothing itself. -/
theorem gathers_node {f : Branch → Branch}
    {ps : List Part} (hf : GathersBranch outerVars ps leak f) (hps : branchParts (.stmt s) = ps)
    (hs : ∀ target value, s ≠ .assign target value) :
    GathersBranch outerVars [⟨[], .stmt s⟩] leak f := by
  apply Gathers.node (hps ▸ hf)
  intro b o hy
  cases o with
  | read x =>
    obtain ⟨⟨span, hm⟩, -⟩ := hy
    cases hm
  | write x =>
    obtain ⟨⟨span, value, hm⟩, -⟩ := hy
    cases hm
    exact absurd rfl (hs _ value)

theorem gathers_init (name : String) (init : Expr) :
    GathersBranch outerVars [⟨[name], .expr init⟩] [name]
      fun b => (b.declare name).read outerVars init :=
  (gathers_read init).comp (gathers_declare name)

/-- A loop, or a block with a resource: the names declared in the body are dropped after it. -/
theorem gathers_scoped {name : String} {e : Expr}
    (hbody : GathersBranch outerVars [⟨[], .stmt body⟩] (leaks false body) (collectBranch outerVars body)) :
    GathersBranch outerVars [Part.ofExpr e, ⟨[name], .stmt body⟩] [] fun b =>
      (collectBranch outerVars body ((b.read outerVars e).declare name)).backTo b.declared :=
  ((hbody.comp (gathers_declare name)).after (gathers_read e)).restore
    (fun _ o => hits_backTo _ _ o) fun _ => rfl

mutual

theorem gathers_stmt : ∀ s : Stmt,
    GathersBranch outerVars [⟨[], .stmt s⟩] (leaks false s) (collectBranch outerVars s)
  | .block stmts => gathers_node (gathers_stmts stmts) rfl nofun
  | .bindLet name _ init => gathers_node (gathers_init name init) rfl nofun
  | .bindConst name _ init => gathers_node (gathers_init name init) rfl nofun
  | .bindVal name _ init _ => gathers_node (gathers_init name init) rfl nofun
  | .bindMut name _ init => gathers_node ((gathers_init name init).after (gathers_write name)) rfl nofun
  | .assign target value => by
    have hboth : GathersBranch outerVars (branchParts (.stmt (.assign target value))) []
        fun b => (b.writeTarget outerVars target).read outerVars value :=
      (gathers_read value).after (gathers_writeTarget target)
    apply Gathers.node hboth
    intro b o hy
    cases o with
    | read x =>
      obtain ⟨⟨span, hm⟩, -⟩ := hy
      cases hm
    | write x =>
      obtain ⟨⟨span, v, hm⟩, hx, hhidden⟩ := hy
      cases hm
      apply (gathers_read value).keeps
      show x ∈ (b.write outerVars x).writes
      rw [Branch.write, if_pos ⟨hx, hhidden⟩]
      exact List.mem_cons_self
  | .expr e => gathers_node (gathers_read e) rfl nofun
  | .out e => gathers_node (gathers_read e) rfl nofun
  | .err e => gathers_node (gathers_read e) rfl nofun
  | .ifElse condition thenBranch elseBranch => by
    have hthen := ((gathers_stmt thenBranch).after (gathers_read condition)).restore
      (g := fun b => (collectBranch outerVars thenBranch (b.read outerVars condition)).backTo
        b.declared) (fun _ o => hits_backTo _ _ o) fun _ => rfl
    exact gathers_node ((gathers_else elseBranch).after hthen) rfl nofun
  | .whileDo condition body => gathers_node ((gathers_stmt body).after (gathers_read condition)) rfl nofun
  | .forIn varName iterable body => gathers_node (gathers_scoped (gathers_stmt body)) rfl nofun
  | .loop body => gathers_node (gathers_stmt body) rfl nofun
  | .unsafeBlock justification body => by
    by_cases hj : justified justification = true
    · have hskip : collectBranch outerVars (.unsafeBlock justification body) = fun b => b := by
        funext b
        rw [collectBranch, if_pos hj]
      rw [hskip, leaks, if_pos hj]
      exact gathers_node .nothing (by simp [branchParts, hj]) nofun
    · have hgo : collectBranch outerVars (.unsafeBlock justification body) =
          collectBranch outerVars body := by
        funext b
        rw [collectBranch, if_neg hj]
      rw [hgo, leaks, if_neg hj]
      exact gathers_node (gathers_stmt body) (by simp [branchParts, hj, Part.ofStmt]) nofun
  | .parallel body => gathers_node (gathers_stmt body) rfl nofun
  | .parallelFor varName iterable body => gathers_node (gathers_scoped (gathers_stmt body)) rfl nofun
  | .withResource resourceName init body => gathers_node (gathers_scoped (gathers_stmt body)) rfl nofun
  | .ret (some e) => gathers_node (gathers_read e) rfl nofun
  | .ret none => gathers_node .nothing rfl nofun
  | .compactBind _ _ => gathers_node .nothing rfl nofun
  | .breakLoop => gathers_node .nothing rfl nofun
  | .continueLoop => gathers_node .nothing rfl nofun
  | .simd _ => gathers_node .nothing rfl nofun
  | .asm _ _ _ => gathers_node .nothing rfl nofun

theorem gathers_stmts : ∀ stmts : List Stmt,
    GathersBranch outerVars (leakSequence false stmts) (leaksAll false stmts)
      (collectBranches outerVars stmts)
  | [] => Gathers.nothing
  | s :: rest => (gathers_stmts rest).comp (gathers_stmt s)

theorem gathers_else : ∀ e : Option Stmt,
    GathersBranch outerVars (e.toList.map Part.ofStmt) [] (collectElse outerVars e)
  | none => Gathers.nothing
  | some s => (gathers_stmt s).restore (fun _ o => hits_backTo _ _ o) fun _ => rfl

end

end Branches

/-! ## The body of a parallel loop -/

def loopYields (outerVars : List String) (hidden : String → Prop) (n : Node) (x : String) : Prop :=
  (∃ span value, n = .stmt (.assign (.identifier x span) value)) ∧ x ∈ outerVars ∧ ¬ hidden x

abbrev GathersLoop (outerVars : List String) :=
  Gathers loopParts LoopState.declared (fun l x => x ∈ l.reported) (loopYields outerVars)

section Loops

variable {outerVars : List String}

theorem loop_declare (name : String) : GathersLoop outerVars [] [name] fun l => l.declare name := by
  apply Gathers.of_frame
  · exact fun _ _ h => h
  · intro l a
    simp [LoopState.declare]

theorem loop_write (name : String) : GathersLoop outerVars [] [] fun l => l.write outerVars name := by
  apply Gathers.of_frame
  · intro l o h
    unfold LoopState.write
    split_ifs
    · exact List.mem_cons_of_mem _ h
    · exact h
  · intro l a
    unfold LoopState.write
    split_ifs <;> simp

/-- A statement that yields nothing itself. -/
theorem loop_node {f : LoopState → LoopState} {ps : List Part}
    (hf : GathersLoop outerVars ps leak f) (hps : loopParts (.stmt s) = ps)
    (hs : ∀ target value, s ≠ .assign target value) :
    GathersLoop outerVars [⟨[], .stmt s⟩] leak f := by
  apply Gathers.node (hps ▸ hf)
  rintro l x ⟨⟨span, value, hm⟩, -⟩
  cases hm
  exact absurd rfl (hs _ value)

theorem loop_scoped {name : String}
    (hbody : GathersLoop outerVars [⟨[], .stmt body⟩] (leaks true body)
      (collectAndCheck outerVars body)) :
    GathersLoop outerVars [⟨[name], .stmt body⟩] [] fun l =>
      (collectAndCheck outerVars body (l.declare name)).backTo l.declared :=
  (hbody.comp (loop_declare name)).restore (fun _ _ => Iff.rfl) fun _ => rfl

mutual

theorem loop_stmt : ∀ s : Stmt,
    GathersLoop outerVars [⟨[], .stmt s⟩] (leaks true s) (collectAndCheck outerVars s)
  | .block stmts => loop_node (loop_stmts stmts) rfl nofun
  | .bindLet name _ _ => loop_node (loop_declare name) rfl nofun
  | .bindConst name _ _ => loop_node (loop_declare name) rfl nofun
  | .bindVal name _ _ _ => loop_node (loop_declare name) rfl nofun
  | .bindMut name _ _ => loop_node ((loop_declare name).after (loop_write name)) rfl nofun
  | .compactBind name _ => loop_node (loop_declare name) rfl nofun
  | .assign target value => by
    apply Gathers.node (f := collectAndCheck outerVars (.assign target value))
    · cases target with
      | identifier name span => exact loop_write name
      | _ => exact Gathers.nothing
    · rintro l x ⟨⟨span, v, hm⟩, hx, hhidden⟩
      cases hm
      show x ∈ (l.write outerVars x).reported
      rw [LoopState.write, if_pos ⟨hx, hhidden⟩]
      exact List.mem_cons_self
  | .ifElse condition thenBranch elseBranch => by
    have hthen := (loop_stmt thenBranch).restore
      (g := fun l => (collectAndCheck outerVars thenBranch l).backTo l.declared)
      (fun _ _ => Iff.rfl) fun _ => rfl
    exact loop_node ((loop_else elseBranch).after hthen) rfl nofun
  | .whileDo _ body => loop_node (loop_stmt body) rfl nofun
  | .loop body => loop_node (loop_stmt body) rfl nofun
  | .forIn varName _ body => loop_node (loop_scoped (loop_stmt body)) rfl nofun
  | .unsafeBlock justification body => by
    by_cases hj : justified justification = true
    · have hskip : collectAndCheck outerVars (.unsafeBlock justification body) = fun l => l := by
        funext l
        rw [collectAndCheck, if_pos hj]
      rw [hskip, leaks, if_pos hj]
      exact loop_node .nothing (by simp [loopParts, hj]) nofun
    · have hgo : collectAndCheck outerVars (.unsafeBlock justification body) =
          collectAndCheck outerVars body := by
        funext l
        rw [collectAndCheck, if_neg hj]
      rw [hgo, leaks, if_neg hj]
      exact loop_node (loop_stmt body) (by simp [loopParts, hj, Part.ofStmt]) nofun
  | .parallel body => loop_node (loop_stmt body) rfl nofun
  | .simd body => loop_node (loop_stmt body) rfl nofun
  | .parallelFor varName _ body => loop_node (loop_scoped (loop_stmt body)) rfl nofun
  | .withResource resourceName _ body => loop_node (loop_scoped (loop_stmt body)) rfl nofun
  | .expr _ => loop_node .nothing rfl nofun
  | .ret _ => loop_node .nothing rfl nofun
  | .out _ => loop_node .nothing rfl nofun
  | .err _ => loop_node .nothing rfl nofun
  | .breakLoop => loop_node .nothing rfl nofun
  | .continueLoop => loop_node .nothing rfl nofun
  | .asm _ _ _ => loop_node .nothing rfl nofun

theorem loop_stmts : ∀ stmts : List Stmt,
    GathersLoop outerVars (leakSequence true stmts) (leaksAll true stmts)
      (collectAndCheckAll outerVars stmts)
  | [] => Gathers.nothing
  | s :: rest => (loop_stmts rest).comp (loop_stmt s)

theorem loop_else : ∀ e : Option Stmt,
    GathersLoop outerVars (e.toList.map Part.ofStmt) [] (collectAndCheckElse outerVars e)
  | none => Gathers.nothing
  | some s => (loop_stmt s).restore (fun _ _ => Iff.rfl) fun _ => rfl

end

end Loops

/-! ## The walk over a body -/

/-- The gate's check at a node reports the variable. -/
def ReportedAt (outerVars : List String) (x : String) : Node → Prop
  | .stmt (.parallel body) => x ∈ checkParallelBlock outerVars body
  | .stmt (.parallelFor varName _ body) => x ∈ checkParallelFor outerVars varName body
  | _ => False

/-- What the gate reports at a node, under the outer variables on the way to it. -/
def watchYields (outer : String → Prop) (n : Guarded) (x : String) : Prop :=
  n.1 = none ∧ ∀ outerVars : List String, (∀ a, a ∈ outerVars ↔ outer a) →
    ReportedAt outerVars x n.2

mutual

theorem justification_kept : ∀ (s : Stmt) (ctx : FnContext),
    (verifyStmt s ctx).justification = ctx.justification
  | .block stmts, ctx => justifications_kept stmts ctx
  | .ifElse _ t e, ctx => (justification_else e _).trans (justification_kept t ctx)
  | .whileDo _ body, ctx | .loop body, ctx | .simd body, ctx => justification_kept body ctx
  | .forIn x _ body, ctx | .withResource x _ body, ctx => justification_kept body (ctx.declare x)
  | .parallel body, ctx => by
    rw [verifyStmt, justification_kept body]
    unfold FnContext.report
    split_ifs <;> rfl
  | .parallelFor x _ body, ctx => by
    show (verifyStmt body _).justification = _
    rw [justification_kept body]
    unfold FnContext.report
    split_ifs <;> rfl
  | .unsafeBlock _ _, _ | .bindLet _ _ _, _ | .bindConst _ _ _, _ | .bindVal _ _ _ _, _
  | .bindMut _ _ _, _ | .compactBind _ _, _ | .assign _ _, _ | .expr _, _ | .out _, _ | .err _, _
  | .ret _, _ | .breakLoop, _ | .continueLoop, _ | .asm _ _ _, _ => rfl

theorem justifications_kept : ∀ (stmts : List Stmt) (ctx : FnContext),
    (verifyStmts stmts ctx).justification = ctx.justification
  | [], _ => rfl
  | s :: rest, ctx => (justifications_kept rest _).trans (justification_kept s ctx)

theorem justification_else : ∀ (e : Option Stmt) (ctx : FnContext),
    (verifyElse e ctx).justification = ctx.justification
  | none, _ => rfl
  | some s, ctx => justification_kept s ctx

end

abbrev GathersWatch :=
  Gathers watchParts FnContext.outerVars (fun ctx x => x ∈ ctx.reported) watchYields

variable {ctx : FnContext}

section Watch

variable {j : Option String}

theorem under_self (h : ctx.justification = j) : ctx.under j = ctx := by
  subst h
  rfl

theorem watch_declare (name : String) : GathersWatch [] [name] fun ctx => ctx.declare name := by
  apply Gathers.of_frame
  · exact fun _ _ h => h
  · intro ctx a
    simp [FnContext.declare]

theorem watch_under (j : Option String) : GathersWatch [] [] fun ctx => ctx.under j :=
  .of_frame (fun _ _ h => h) fun ctx a => by simp [FnContext.under]

theorem report_outerVars (found : List String) (ctx : FnContext) :
    (ctx.report found).outerVars = ctx.outerVars := by
  unfold FnContext.report
  split_ifs <;> rfl

theorem report_justification (found : List String) (ctx : FnContext) :
    (ctx.report found).justification = ctx.justification := by
  unfold FnContext.report
  split_ifs <;> rfl

theorem report_keeps (found : List String) (ctx : FnContext) {x : String} (h : x ∈ ctx.reported) :
    x ∈ (ctx.report found).reported := by
  unfold FnContext.report
  split_ifs
  · exact List.mem_append_right _ h
  · exact h

theorem mem_report {found : List String} {x : String}
    (hj : ctx.justification = none) (h : x ∈ found) : x ∈ (ctx.report found).reported := by
  rw [FnContext.report, hj, if_pos (by rfl)]
  exact List.mem_append_left _ h

/-- The gate's report on a construct, before its body is walked over. -/
theorem watch_report (check : List String → List String) :
    GathersWatch [] [] fun ctx => (ctx.under j).report (check ctx.outerVars) :=
  .of_frame (fun ctx _ h => report_keeps _ (ctx.under j) h) fun ctx a => by
    simp [report_outerVars, FnContext.under]

/-- A statement at which the gate has nothing to report. -/
theorem watch_node {f : FnContext → FnContext}
    {ps : List (Operand String Guarded)} (hf : GathersWatch ps leak f)
    (hps : watchParts (j, .stmt s) = ps) (hpar : ∀ body, s ≠ .parallel body)
    (hfor : ∀ x e body, s ≠ .parallelFor x e body) :
    GathersWatch [⟨[], j, .stmt s⟩] leak f := by
  apply Gathers.node (hps ▸ hf)
  rintro ctx x ⟨-, hy⟩
  have h := hy ctx.outerVars fun a => Iff.rfl
  cases s with
  | parallel body => exact absurd rfl (hpar body)
  | parallelFor y e body => exact absurd rfl (hfor y e body)
  | _ => exact h.elim

theorem watch_scoped {name : String} {body : Stmt}
    (hbody : GathersWatch [⟨[], j, .stmt body⟩] (outerAfter body)
      fun ctx => verifyStmt body (ctx.under j)) :
    GathersWatch [⟨[name], j, .stmt body⟩] [] fun ctx =>
      (verifyStmt body ((ctx.under j).declare name)).backTo ctx.outerVars :=
  (hbody.comp (watch_declare name)).restore (fun _ _ => Iff.rfl) fun _ => rfl

theorem watch_plain
    (hbody : GathersWatch [⟨[], j, .stmt body⟩] (outerAfter body)
      fun ctx => verifyStmt body (ctx.under j)) :
    GathersWatch [⟨[], j, .stmt body⟩] [] fun ctx =>
      (verifyStmt body (ctx.under j)).backTo ctx.outerVars :=
  hbody.restore (fun _ _ => Iff.rfl) fun _ => rfl

mutual

theorem watch_stmt : ∀ (j : Option String) (s : Stmt),
    GathersWatch [⟨[], j, .stmt s⟩] (outerAfter s) fun ctx => verifyStmt s (ctx.under j)
  | j, .block stmts => by
    obtain ⟨leak, hall⟩ := watch_stmts j stmts
    exact watch_node (hall.restore (fun _ _ => Iff.rfl) fun _ => rfl) rfl nofun nofun
  | _, .bindLet name _ _ =>
    watch_node ((watch_declare name).after (watch_under _)) rfl nofun nofun
  | _, .bindConst name _ _ =>
    watch_node ((watch_declare name).after (watch_under _)) rfl nofun nofun
  | _, .bindVal name _ _ _ =>
    watch_node ((watch_declare name).after (watch_under _)) rfl nofun nofun
  | _, .bindMut name _ _ =>
    watch_node ((watch_declare name).after (watch_under _)) rfl nofun nofun
  | _, .compactBind name _ =>
    watch_node ((watch_declare name).after (watch_under _)) rfl nofun nofun
  | j, .ifElse condition thenBranch elseBranch => by
    have hall := (watch_else j elseBranch).after (watch_plain (watch_stmt j thenBranch))
    have hsame : (fun ctx : FnContext => verifyStmt (.ifElse condition thenBranch elseBranch)
        (ctx.under j)) = fun ctx => verifyElse elseBranch
          (((verifyStmt thenBranch (ctx.under j)).backTo ctx.outerVars).under j) := by
      funext ctx
      have hj : ((verifyStmt thenBranch (ctx.under j)).backTo ctx.outerVars).under j =
          (verifyStmt thenBranch (ctx.under j)).backTo ctx.outerVars :=
        under_self (justification_kept thenBranch (ctx.under j))
      rw [hj]
      rfl
    rw [hsame]
    exact watch_node hall rfl nofun nofun
  | j, .whileDo _ body => watch_node (watch_plain (watch_stmt j body)) rfl nofun nofun
  | j, .loop body => watch_node (watch_plain (watch_stmt j body)) rfl nofun nofun
  | j, .simd body => watch_node (watch_stmt j body) rfl nofun nofun
  | j, .forIn varName _ body => watch_node (watch_scoped (watch_stmt j body)) rfl nofun nofun
  | j, .withResource resourceName _ body =>
    watch_node (watch_scoped (watch_stmt j body)) rfl nofun nofun
  | j, .unsafeBlock justification body =>
    watch_node ((watch_under j).comp (watch_stmt justification body)) rfl nofun nofun
  | j, .parallel body => by
    have hsame : (fun ctx : FnContext => verifyStmt (.parallel body) (ctx.under j)) = fun ctx =>
        verifyStmt body (((ctx.under j).report (checkParallelBlock ctx.outerVars body)).under j) := by
      funext ctx
      have hj : ((ctx.under j).report (checkParallelBlock ctx.outerVars body)).under j =
          (ctx.under j).report (checkParallelBlock ctx.outerVars body) :=
        under_self (report_justification _ (ctx.under j))
      rw [hj]
      rfl
    rw [hsame]
    have hbody := watch_stmt j body
    apply Gathers.node (hbody.after (watch_report fun outerVars => checkParallelBlock outerVars body))
    rintro ctx x ⟨hj, hy⟩
    obtain rfl : j = none := hj
    exact hbody.keeps _ x (mem_report rfl (hy ctx.outerVars fun a => Iff.rfl))
  | j, .parallelFor varName iterable body => by
    have hsame : (fun ctx : FnContext => verifyStmt (.parallelFor varName iterable body)
        (ctx.under j)) = fun ctx => (verifyStmt body
          ((((ctx.under j).report (checkParallelFor ctx.outerVars varName body)).under j).declare
            varName)).backTo
          ((ctx.under j).report (checkParallelFor ctx.outerVars varName body)).outerVars := by
      funext ctx
      have hj : ((ctx.under j).report (checkParallelFor ctx.outerVars varName body)).under j =
          (ctx.under j).report (checkParallelFor ctx.outerVars varName body) :=
        under_self (report_justification _ (ctx.under j))
      rw [hj, report_outerVars]
      rfl
    rw [hsame]
    have hbody := @watch_scoped _ varName _ (watch_stmt j body)
    apply Gathers.node (hbody.after
      (watch_report fun outerVars => checkParallelFor outerVars varName body))
    rintro ctx x ⟨hj, hy⟩
    obtain rfl : j = none := hj
    exact hbody.keeps _ x (mem_report rfl (hy ctx.outerVars fun a => Iff.rfl))
  | _, .assign _ _ => watch_node (watch_under _) rfl nofun nofun
  | _, .expr _ => watch_node (watch_under _) rfl nofun nofun
  | _, .out _ => watch_node (watch_under _) rfl nofun nofun
  | _, .err _ => watch_node (watch_under _) rfl nofun nofun
  | _, .ret _ => watch_node (watch_under _) rfl nofun nofun
  | _, .breakLoop => watch_node (watch_under _) rfl nofun nofun
  | _, .continueLoop => watch_node (watch_under _) rfl nofun nofun
  | _, .asm _ _ _ => watch_node (watch_under _) rfl nofun nofun

theorem watch_stmts : ∀ (j : Option String) (stmts : List Stmt), ∃ leak,
    GathersWatch (watchSequence j stmts) leak fun ctx => verifyStmts stmts (ctx.under j)
  | _, [] => ⟨[], watch_under _⟩
  | j, s :: rest => by
    obtain ⟨leak, hrest⟩ := watch_stmts j rest
    refine ⟨leak ++ outerAfter s, ?_⟩
    have hsame : (fun ctx : FnContext => verifyStmts (s :: rest) (ctx.under j)) = fun ctx =>
        verifyStmts rest ((verifyStmt s (ctx.under j)).under j) := by
      funext ctx
      have hj : (verifyStmt s (ctx.under j)).under j = verifyStmt s (ctx.under j) :=
        under_self (justification_kept s (ctx.under j))
      rw [hj]
      rfl
    rw [hsame]
    exact hrest.comp (watch_stmt j s)

theorem watch_else : ∀ (j : Option String) (e : Option Stmt),
    GathersWatch (e.toList.map fun s => ⟨[], j, .stmt s⟩) []
      fun ctx => verifyElse e (ctx.under j)
  | _, none => watch_under _
  | j, some s => watch_plain (watch_stmt j s)

end

end Watch

/-! ## Races in view are reported -/

section Reported

variable {outerVars : List String} {x : String}

theorem writes_of_seen (h : SeenWrite branchParts (.stmt s) x) (hx : x ∈ outerVars) :
    x ∈ (collectBranch outerVars s ⟨[], [], []⟩).writes := by
  obtain ⟨binds, span, value, hreach, hbinds⟩ := h
  apply (gathers_stmt s).finds ⟨[], [], []⟩ ⟨[], .stmt s⟩ List.mem_cons_self binds _ hreach (.write x)
  exact ⟨⟨span, value, rfl⟩, hx, by simpa using hbinds⟩

theorem accesses_of_seen (h : SeenAccess (.stmt s) x) (hx : x ∈ outerVars) :
    x ∈ (collectBranch outerVars s ⟨[], [], []⟩).writes ∨
      x ∈ (collectBranch outerVars s ⟨[], [], []⟩).reads := by
  obtain h | ⟨binds, span, hreach, hbinds⟩ := h
  · exact .inl (writes_of_seen h hx)
  · right
    apply (gathers_stmt s).finds ⟨[], [], []⟩ ⟨[], .stmt s⟩ List.mem_cons_self binds _ hreach (.read x)
    exact ⟨⟨span, rfl⟩, hx, by simpa using hbinds⟩

theorem conflicts_of_seen {s t : Stmt} (h : SeenConflict (.stmt s) (.stmt t) x)
    (hx : x ∈ outerVars) :
    x ∈ conflicts (collectBranch outerVars s ⟨[], [], []⟩)
      (collectBranch outerVars t ⟨[], [], []⟩) := by
  simp only [conflicts, List.mem_append, List.mem_filter, decide_eq_true_eq]
  obtain ⟨hw, ha⟩ | ⟨hw, ha⟩ := h
  · have hwrite := writes_of_seen hw hx
    obtain h | h := accesses_of_seen ha hx
    · exact .inl (.inl ⟨hwrite, h⟩)
    · exact .inl (.inr ⟨hwrite, h⟩)
  · have hwrite := writes_of_seen hw hx
    obtain h | h := accesses_of_seen ha hx
    · exact .inl (.inl ⟨h, hwrite⟩)
    · exact .inr ⟨hwrite, h⟩

theorem pairwise_of_pairConflicts {l : List Branch} (h : x ∉ pairConflicts l) :
    l.Pairwise fun i j => x ∉ conflicts i j := by
  induction l with
  | nil => exact .nil
  | cons i l ih =>
    simp only [pairConflicts, List.mem_append, not_or, List.mem_flatMap, not_exists, not_and] at h
    exact .cons h.1 (ih h.2)

theorem checkParallelBlock_eq (stmts : List Stmt) : checkParallelBlock outerVars (.block stmts) =
    pairConflicts (stmts.map fun s => collectBranch outerVars s ⟨[], [], []⟩) := by
  simp only [checkParallelBlock]
  split_ifs with hlen
  · match stmts, hlen with
    | [], _ => rfl
    | [s], _ => rfl
  · rfl

/-- Of a block the gate does not report, no two statements have a conflict in sight. -/
theorem unseen_of_unreported {stmts : List Stmt} (hx : x ∈ outerVars)
    (h : x ∉ checkParallelBlock outerVars (.block stmts)) :
    (sequence [] stmts none).Pairwise fun p q => ¬ SeenConflict p.node q.node x := by
  rw [checkParallelBlock_eq] at h
  have hpairs := List.pairwise_map.mp (pairwise_of_pairConflicts h)
  have hnodes : ((sequence [] stmts none).map Operand.node).Pairwise fun n m =>
      ¬ SeenConflict n m x := by
    rw [sequence_nodes]
    simp only [Option.toList_none, List.map_nil, List.append_nil]
    exact List.pairwise_map.mpr (hpairs.imp fun hst hseen => hst (conflicts_of_seen hseen hx))
  exact List.pairwise_map.mp hnodes

theorem reported_of_seen {varName : String} (hvar : x ≠ varName)
    (h : SeenWrite loopParts (.stmt body) x) (hx : x ∈ outerVars) :
    x ∈ checkParallelFor outerVars varName body := by
  obtain ⟨binds, span, value, hreach, hbinds⟩ := h
  apply (loop_stmt body).finds ⟨[varName], []⟩ ⟨[], .stmt body⟩ List.mem_cons_self binds _ hreach x
  exact ⟨⟨span, value, rfl⟩, hx, by simpa [hvar] using hbinds⟩

end Reported

section Program

variable {classFields : String → List String} {program : Program}

theorem mem_verifyItems {target x : String} {items : List ClassItem}
    (h : (ctx, body) ∈ items.filterMap (itemContext classFields target))
    (hx : x ∈ (verifyStmt body ctx).reported) :
    x ∈ items.flatMap (verifyItem classFields target) := by
  obtain ⟨item, hitem, hctx⟩ := List.mem_filterMap.mp h
  refine List.mem_flatMap.mpr ⟨item, hitem, ?_⟩
  cases item with
  | method m =>
    obtain ⟨mbody, hbody, heq⟩ := Option.map_eq_some_iff.mp hctx
    cases heq
    simpa only [verifyItem, verifyMethodDecl, hbody] using hx
  | _ => cases hctx

/-- What is reported for a body is reported for the program. -/
theorem mem_verifyProgram {x : String}
    (h : (ctx, body) ∈ contexts classFields program) (hx : x ∈ (verifyStmt body ctx).reported) :
    x ∈ verifyProgram classFields program := by
  obtain ⟨decl, hdecl, hctx⟩ := List.mem_flatMap.mp h
  refine List.mem_flatMap.mpr ⟨decl, hdecl, ?_⟩
  cases decl with
  | function f | flow f | task f =>
    cases List.mem_singleton.mp hctx
    exact hx
  | classDecl name items | behavior name items => exact mem_verifyItems hctx hx
  | impl target methods =>
    obtain ⟨m, hm, heq⟩ := List.mem_map.mp hctx
    cases heq
    exact List.mem_flatMap.mpr ⟨m, hm, hx⟩
  | _ => cases hctx

variable {n : Node}

/-- **What the gate comes by it has not let pass**: in a program without a report, the check at a
watched node does not report a variable for which the node is watched. -/
theorem unreported_of_watched (h : verifyProgram classFields program = []) {x : String}
    (hwatched : Watched classFields program n x) :
    ∃ outerVars : List String, x ∈ outerVars ∧ ¬ ReportedAt outerVars x n := by
  obtain ⟨ctx, body, hctx, binds, hreach, hx⟩ := hwatched
  by_contra hnone
  have hyield : watchYields (fun a => a ∈ binds ∨ a ∈ ([] : List String) ∨ a ∈ ctx.outerVars)
      (none, n) x := by
    refine ⟨rfl, fun outerVars houter => ?_⟩
    have hmem : x ∈ outerVars := (houter x).mpr (hx.imp_right .inr)
    by_contra hnot
    exact hnone ⟨outerVars, hmem, hnot⟩
  have hfound := (watch_stmt ctx.justification body).finds ctx _ List.mem_cons_self binds _ hreach x
    hyield
  have hprogram := mem_verifyProgram hctx hfound
  rw [h] at hprogram
  cases hprogram

theorem nodeRaceFree_of_inView (h : verifyProgram classFields program = []) {scope : List String}
    (hview : NodeInView classFields program scope n) : NodeRaceFree scope n := by
  unfold NodeRaceFree
  split
  · rename_i stmts
    rw [List.pairwise_iff_getElem]
    intro i j hi hj hij x hx hconflict
    obtain ⟨hwatched, hseen⟩ := List.pairwise_iff_getElem.mp hview i j hi hj hij x hx hconflict
    obtain ⟨outerVars, houter, hunreported⟩ := unreported_of_watched h hwatched
    exact List.pairwise_iff_getElem.mp (unseen_of_unreported houter hunreported) i j hi hj hij hseen
  · intro x hx hwrites
    obtain ⟨hwatched, hvar, hseen⟩ := hview x hx hwrites
    obtain ⟨outerVars, houter, hunreported⟩ := unreported_of_watched h hwatched
    exact hunreported (reported_of_seen hvar hseen houter)
  · trivial

theorem nodeInView_of_raceFree {scope : List String} (hfree : NodeRaceFree scope n) :
    NodeInView classFields program scope n := by
  unfold NodeInView
  split
  · exact List.Pairwise.imp (fun h x hx hconflict => absurd hconflict (h x hx)) hfree
  · exact fun x hx hwrites => absurd hwrites (hfree x hx)
  · trivial

end Program

/-- A function `main` whose body declares `x` and `y` and runs the statements in parallel. -/
def parallelMain (stmts : List Stmt) : Program :=
  ⟨[.function ⟨"main", [], [], [], .block [.bindMut "x" none (.literal (.int 0)),
    .bindMut "y" none (.literal (.int 0)), .parallel (.block stmts)]⟩]⟩

def setVar (name : String) (value : Int) : Stmt :=
  .assign (.identifier name default) (.literal (.int value))

/-- `parallel { x = 1  simd { x = 2 } }`: the collection for a block leaves `simd` out, which the one for
a parallel loop goes into. -/
def simdRace : Program := parallelMain [setVar "x" 1, .simd (.block [setVar "x" 2])]

end Datara.Security
