import Datara.Effects.Walk

/-!
# The inference is sound where it looks

A round leaves a body's effects as the analysis of the body under the table in the middle of the round
has them: what is declared before it is as this round leaves it, and the rest is as the round before
left it (`table_of_body`). Along a chain of calls with `r` calls of bodies that are not declared before
their caller, what the end of the chain performs is therefore known from round `r + 1` on.
-/

namespace Datara.Effects

open Datara.Ast Datara.Library

/-!
## What a run can perform

A run with its data left out: control is at a node of some body, moves to any of the node's operands,
and at a call to the body that is called. Every branch may be taken and every loop entered. Which class
a receiver has, and which lambda a variable holds, the syntax does not say: a `Flow` says it, and the
results hold for every `Flow`.
-/

/-- What the values of a run decide about its calls. -/
structure Flow where
  /-- `receives key object cls`: in the body of `key` the receiver `object` may be an object of
  `cls`, or, for `none`, a value of the runtime's own. -/
  receives : String → Expr → Option String → Prop
  /-- `closures key name (home, body)`: in the body of `key` the variable `name` may hold a lambda
  with that body, written in the body of `home`. -/
  closures : String → String → String × Expr → Prop

/-! ## The bodies of a program -/

def ClassItem.bodyOf (owner : String) : ClassItem → Option (String × Stmt)
  | .method m => m.body.map fun s => (methodKey owner m.name, s)
  | _ => none

def Decl.bodies : Decl → List (String × Stmt)
  | .function f | .flow f | .task f => [(f.name, f.body)]
  | .classDecl owner items | .behavior owner items | .component owner items =>
    items.filterMap (ClassItem.bodyOf owner)
  | .role name methods =>
    methods.filterMap fun m => m.body.map fun s => (methodKey name m.name, s)
  | .traitDef name methods =>
    methods.filterMap fun m => m.defaultBody.map fun s => (methodKey name m.name, s)
  | .impl target methods => methods.map fun m => (methodKey target m.name, m.body)
  | _ => []

/-- Every body of the program that a run can be in, with the name it is called by. -/
def bodies (program : Program) : List (String × Stmt) :=
  program.declarations.flatMap Decl.bodies

def Entry.body? : Entry → Option (String × Stmt)
  | .body key _ stmt => some (key, stmt)
  | .foreign _ => none

/-- The bodies that the analysis goes through. -/
def analysed (program : Program) : List (String × Stmt) := (entries program).filterMap Entry.body?

def keys (program : Program) : List String := (entries program).map Entry.key

/-- The name is one of the runtime's: no body has it and no `extern` declares it. -/
def Undeclared (program : Program) (name : String) : Prop :=
  (∀ body, (name, body) ∉ bodies program) ∧ .foreign name ∉ entries program

/-! ## Control -/

/-- The body control is in, and the node it is at. -/
abbrev Control := String × Node

def callNode (callee : Expr) (args : List Expr) : Node := .expr (.call callee args)

inductive Step (program : Program) (flow : Flow) : Control → Control → Prop
  | operand {k n m} : m ∈ Node.children n → Step program flow (k, n) (k, m)
  | call {k name span args body} : (name, body) ∈ bodies program →
    Step program flow (k, callNode (.identifier name span) args) (name, .stmt body)
  | method {k object member args cls body} : flow.receives k object (some cls) →
    (methodKey cls member, body) ∈ bodies program →
    Step program flow (k, callNode (.memberAccess object member) args)
      (methodKey cls member, .stmt body)
  | closure {k name span args home body} : flow.closures k name (home, body) →
    Step program flow (k, callNode (.identifier name span) args) (home, .expr body)
  -- a pipeline calls a stage that is a name with the value piped so far
  | stage {k stages name span} : .identifier name span ∈ stages.tail →
    Step program flow (k, .expr (.pipeline stages)) (k, callNode (.identifier name span) [])

/-- What control performs at a node: an output, or a call of a builtin. -/
inductive Performs (program : Program) (flow : Flow) : Control → Effect → Prop
  | out {k a} : Performs program flow (k, .stmt (.out a)) .io
  | err {k a} : Performs program flow (k, .stmt (.err a)) .io
  | primitive {k name span args e} : Undeclared program name → NameEffect builtins name e →
    Performs program flow (k, callNode (.identifier name span) args) e
  | member {k object member args e} : flow.receives k object none → e ∈ memberEffects member →
    Performs program flow (k, callNode (.memberAccess object member) args) e

/-- A run from the control point can perform the effect. -/
def Can (program : Program) (flow : Flow) (c : Control) (e : Effect) : Prop :=
  ∃ c', Relation.ReflTransGen (Step program flow) c c' ∧ Performs program flow c' e

/-- **The property**: what a run of a function can perform is among the function's effects. -/
def EffectsSound (program : Program) (flow : Flow) : Prop :=
  ∀ key body e, (key, body) ∈ bodies program → Can program flow (key, .stmt body) e →
    ∃ known, analyzeProgram program key = some known ∧ e ∈ known.effects

/-! ## Where the analysis does not look -/

/-- The callee is declared before the caller, so that a round has its effects of that round. -/
def Before (program : Program) (callee caller : String) : Prop :=
  ∃ pre post, keys program = pre ++ caller :: post ∧ callee ∈ pre

/-- The effect can be performed along a chain on which at most so many calls are of bodies that are
not declared before their caller. -/
inductive CanWithin (program : Program) (flow : Flow) : Nat → Control → Effect → Prop
  | here {r c e} : Performs program flow c e → CanWithin program flow r c e
  | early {r c c' e} : Step program flow c c' → c'.1 = c.1 ∨ Before program c'.1 c.1 →
    CanWithin program flow r c' e → CanWithin program flow r c e
  | late {r c c' e} : Step program flow c c' → CanWithin program flow r c' e →
    CanWithin program flow (r + 1) c e

/-- **The condition**: nothing can be performed only in the places the analysis does not look at. -/
structure Covered (program : Program) (flow : Flow) : Prop where
  /-- No two declarations have their effects under one name. -/
  unique : (keys program).Nodup
  /-- Nothing is performed by the methods of a component or a role or by the default body of a trait's
  method. -/
  bodiesAnalysed : ∀ key body e, (key, body) ∈ bodies program →
    Can program flow (key, .stmt body) e → (key, body) ∈ analysed program
  /-- Nothing is performed inside an object initialiser, a recovery, a repeated element, a `comptime`,
  a wrapping or saturating expression, a cast, an expression block or a type test. -/
  operands : ∀ key body n m e, (key, body) ∈ analysed program → Walk (.stmt body) n →
    skipped n = true → m ∈ Node.children n → ¬ Can program flow (key, m) e
  /-- Nothing is performed by a pipeline stage that is the name of a function. -/
  stages : ∀ key body stages name span e, (key, body) ∈ analysed program →
    Walk (.stmt body) (.expr (.pipeline stages)) → .identifier name span ∈ stages.tail →
    ¬ Can program flow (key, callNode (.identifier name span) []) e
  /-- A method that performs something is called on a variable that has the name of its class. -/
  methods : ∀ key body object member args cls mbody e, (key, body) ∈ analysed program →
    Walk (.stmt body) (callNode (.memberAccess object member) args) →
    flow.receives key object (some cls) → (methodKey cls member, mbody) ∈ bodies program →
    Can program flow (methodKey cls member, .stmt mbody) e → ∃ span, object = .identifier cls span
  /-- A lambda that performs something is called in the body it is written in, and not in a place that
  the analysis does not look at. -/
  closures : ∀ key body name span args home lambda e, (key, body) ∈ analysed program →
    Walk (.stmt body) (callNode (.identifier name span) args) →
    flow.closures key name (home, lambda) → Can program flow (home, .expr lambda) e →
    home = key ∧ Walk (.stmt body) (.expr lambda)
  /-- What can be performed at all can be performed along a chain with fewer than 32 calls of bodies
  that are not declared before their caller. -/
  short : ∀ key body e, (key, body) ∈ analysed program → Can program flow (key, .stmt body) e →
    CanWithin program flow 31 (key, .stmt body) e

/-! ## A round -/

variable {key : String}

section Rounds

variable {table : Table} {es pre post : List Entry} {entry : Entry} {name : String}

theorem record_other {effects : EffectSet} (h : name ≠ key) :
    ((record key effects table).getD table) name = table name := by
  unfold record
  split
  · split_ifs
    · exact Function.update_of_ne h _ _
    · rfl
  · exact Function.update_of_ne h _ _

theorem record_self {effects : EffectSet} :
    ∃ known, ((record key effects table).getD table) key = some known ∧
      known.effects = effects.effects := by
  unfold record
  split
  next old hold =>
    split_ifs with hne
    · exact ⟨effects, Function.update_self _ _ _, rfl⟩
    · exact ⟨old, hold, by simpa using hne⟩
  next => exact ⟨effects, Function.update_self _ _ _, rfl⟩

theorem analyzeEntry_other (h : name ≠ entry.key) : ((analyzeEntry table entry).getD table) name = table name := by
  cases entry with
  | body key params stmt => exact record_other h
  | foreign f =>
    simp only [analyzeEntry]
    split_ifs
    · rfl
    · exact Function.update_of_ne h _ _

theorem sweep_other (h : name ∉ es.map Entry.key) : sweep analyzeEntry es table name = table name := by
  induction es generalizing table with
  | nil => rfl
  | cons entry es ih =>
    rw [List.map_cons, List.mem_cons, not_or] at h
    rw [sweep_cons, ih h.2, analyzeEntry_other h.1]

end Rounds

/-- The table after so many rounds. -/
def tableAfter (program : Program) (t : Nat) : Table :=
  (sweep analyzeEntry (entries program))^[t] builtins

theorem analyzeProgram_eq (program : Program) : analyzeProgram program = tableAfter program 32 :=
  cappedRounds_eq_iterate 32 builtins

variable {e : Effect} {body : Stmt}

section Tables

variable {program : Program}

theorem tableAfter_succ (t : Nat) : tableAfter program (t + 1) =
    sweep analyzeEntry (entries program) (tableAfter program t) :=
  Function.iterate_succ_apply' _ _ _

theorem tableAfter_undeclared {name : String} (h : name ∉ keys program) (t : Nat) :
    tableAfter program t name = builtins name := by
  induction t with
  | zero => rfl
  | succ t ih => rw [tableAfter_succ, sweep_other h, ih]

theorem entry_of_analysed (h : (key, body) ∈ analysed program) :
    ∃ params, .body key params body ∈ entries program := by
  obtain ⟨entry, hentry, hbody⟩ := List.mem_filterMap.mp h
  cases entry with
  | body key params stmt =>
    cases hbody
    exact ⟨params, hentry⟩
  | foreign name => cases hbody

/-- **What a round knows of a body**: its analysis under a table that is the one this round leaves, for
what is declared before the body, and the one the round before left for the rest. -/
theorem table_of_body (hkeys : (keys program).Nodup)
    (h : (key, body) ∈ analysed program) (t : Nat) :
    ∃ params table known, tableAfter program (t + 1) key = some known ∧
      known.effects = (bodyEffects table params body).effects ∧
      (∀ name, Before program name key → table name = tableAfter program (t + 1) name) ∧
      ∀ name, ¬ Before program name key → table name = tableAfter program t name := by
  obtain ⟨params, hentry⟩ := entry_of_analysed h
  obtain ⟨pre, post, hsplit⟩ := List.append_of_mem hentry
  have hnames : keys program = pre.map Entry.key ++ key :: post.map Entry.key := by
    rw [keys, hsplit, List.map_append, List.map_cons]
    rfl
  obtain ⟨-, hrest, hdisjoint⟩ := List.nodup_append.mp (hnames ▸ hkeys)
  have hpost : key ∉ post.map Entry.key := (List.nodup_cons.mp hrest).1
  have hpre : key ∉ pre.map Entry.key := fun hmem =>
    hdisjoint key hmem key List.mem_cons_self rfl
  have hbefore : ∀ name, Before program name key ↔ name ∈ pre.map Entry.key := by
    intro name
    constructor
    · rintro ⟨pre', post', hother, hname⟩
      obtain ⟨-, hrest', hdisjoint'⟩ := List.nodup_append.mp (hother ▸ hkeys)
      have hpost' : key ∉ post' := (List.nodup_cons.mp hrest').1
      have hpre' : key ∉ pre' := fun hmem => hdisjoint' key hmem key List.mem_cons_self rfl
      have hsame := (List.append_cons_inj_of_notMem hpre' hpost').mp (hother.symm.trans hnames)
      exact hsame.1 ▸ hname
    · exact fun hname => ⟨_, _, hnames, hname⟩
  set before := tableAfter program t
  set table := sweep analyzeEntry pre before with htable
  have hround : tableAfter program (t + 1) =
      sweep analyzeEntry post ((record key (bodyEffects table params body) table).getD table) := by
    rw [tableAfter_succ, hsplit, sweep_append, sweep_cons]
    rfl
  obtain ⟨known, hknown, heffects⟩ :=
    record_self
  refine ⟨params, table, known, ?_, heffects, ?_, ?_⟩
  · rw [hround, sweep_other hpost, hknown]
  · intro name hname
    have hmem := (hbefore name).mp hname
    have hne : name ≠ key := fun heq => hpre (heq ▸ hmem)
    have hafter : name ∉ post.map Entry.key := fun hmem' =>
      hdisjoint name hmem name (List.mem_cons_of_mem key hmem') rfl
    rw [hround, sweep_other hafter, record_other hne]
  · intro name hname
    exact sweep_other fun hmem => hname ((hbefore name).mpr hmem)

/-- What is found on the walk of a body under the table in the middle of a round is among the body's
effects after the round. -/
theorem known_of_contributes {n : Node} {t : Nat}
    (hkeys : (keys program).Nodup) (h : (key, body) ∈ analysed program)
    (hwalk : Walk (.stmt body) n) (he : e ≠ .pure)
    (hn : ∀ table : Table,
      (∀ name, Before program name key → table name = tableAfter program (t + 1) name) →
      (∀ name, ¬ Before program name key → table name = tableAfter program t name) →
      contributes table e n) :
    ∃ known, tableAfter program (t + 1) key = some known ∧ e ∈ known.effects := by
  obtain ⟨params, table, known, hknown, heffects, hbefore, hrest⟩ := table_of_body hkeys h t
  refine ⟨known, hknown, ?_⟩
  rw [heffects]
  exact covers_node (.stmt body) params .pureSet e he
    (.inr ⟨_, List.mem_singleton_self _, n, hwalk, hn table hbefore hrest⟩)

end Tables

/-! ## Chains of calls -/

variable {c : Control}

section Chains

variable {program : Program} {flow : Flow}

theorem not_pure_of_nameEffects {name : String} (h : e ∈ nameEffects name) : e ≠ .pure := by
  rintro rfl
  unfold nameEffects at h
  split_ifs at h <;> revert h <;> decide

theorem not_pure_of_memberEffects {name : String} (h : e ∈ memberEffects name) : e ≠ .pure := by
  rintro rfl
  unfold memberEffects at h
  split_ifs at h <;> revert h <;> decide

theorem not_pure_of_builtins {name : String} {known : EffectSet}
    (h : builtins name = some known) (he : e ∈ known.effects) : e ≠ .pure := by
  rintro rfl
  unfold builtins at h
  split_ifs at h <;> cases h <;> revert he <;> decide

theorem Performs.ne_pure (h : Performs program flow c e) : e ≠ .pure := by
  cases h with
  | out => decide
  | err => decide
  | primitive _ he =>
    unfold NameEffect at he
    split at he
    next hknown => exact not_pure_of_builtins hknown he
    next => exact not_pure_of_nameEffects he
  | member _ he => exact not_pure_of_memberEffects he

theorem Can.ne_pure (h : Can program flow c e) : e ≠ .pure := by
  obtain ⟨_, _, hperforms⟩ := h
  exact hperforms.ne_pure

theorem Can.step {c c' : Control} {e : Effect} (h : Step program flow c c')
    (h' : Can program flow c' e) : Can program flow c e := by
  obtain ⟨d, hrun, hperforms⟩ := h'
  exact ⟨d, .head h hrun, hperforms⟩

theorem CanWithin.can {r : Nat} (h : CanWithin program flow r c e) : Can program flow c e := by
  induction h with
  | here hperforms => exact ⟨_, .refl, hperforms⟩
  | early hstep _ _ ih => exact ih.step hstep
  | late hstep _ ih => exact ih.step hstep

theorem mem_bodies_of_analysed (h : (key, body) ∈ analysed program) : (key, body) ∈ bodies program := by
  obtain ⟨params, hentry⟩ := entry_of_analysed h
  obtain ⟨decl, hdecl, hentry⟩ := List.mem_flatMap.mp hentry
  refine List.mem_flatMap.mpr ⟨decl, hdecl, ?_⟩
  have hitems : ∀ (owner : String) (items : List ClassItem),
      .body key params body ∈ items.filterMap (ClassItem.entry owner) →
      (key, body) ∈ items.filterMap (ClassItem.bodyOf owner) := by
    intro owner items hmem
    obtain ⟨item, hitem, hbody⟩ := List.mem_filterMap.mp hmem
    refine List.mem_filterMap.mpr ⟨item, hitem, ?_⟩
    cases item with
    | method m =>
      obtain ⟨s, hs, heq⟩ := Option.map_eq_some_iff.mp hbody
      cases heq
      exact Option.map_eq_some_iff.mpr ⟨body, hs, rfl⟩
    | _ => cases hbody
  cases decl with
  | function f | flow f | task f =>
    cases List.mem_singleton.mp hentry
    exact List.mem_singleton_self _
  | classDecl owner items | behavior owner items => exact hitems owner items hentry
  | impl target methods =>
    obtain ⟨m, hm, heq⟩ := List.mem_map.mp hentry
    cases heq
    exact List.mem_map.mpr ⟨m, hm, rfl⟩
  | externFn name => cases List.mem_singleton.mp hentry
  | _ => cases hentry

theorem not_mem_keys_of_undeclared {name : String} (h : Undeclared program name) : name ∉ keys program := by
  intro hmem
  obtain ⟨entry, hentry, hkey⟩ := List.mem_map.mp hmem
  cases entry with
  | body key params stmt =>
    obtain rfl : key = name := hkey
    exact h.1 stmt (mem_bodies_of_analysed (List.mem_filterMap.mpr ⟨_, hentry, rfl⟩))
  | foreign f =>
    obtain rfl : f = name := hkey
    exact h.2 hentry

/-- What the callee is known to do once enough rounds are over, the caller's walk finds. -/
theorem callee_known {name key : String} {r t : Nat} {table : Table}
    (hcallee : ∀ t, r ≤ t → ∃ known, tableAfter program (t + 1) name = some known ∧
      e ∈ known.effects)
    (hbefore : Before program name key → table name = tableAfter program (t + 1) name)
    (hrest : ¬ Before program name key → table name = tableAfter program t name)
    (ht : (Before program name key ∧ r ≤ t) ∨ r < t) :
    ∃ known, table name = some known ∧ e ∈ known.effects := by
  by_cases h : Before program name key
  · rw [hbefore h]
    exact hcallee t (by omega)
  · obtain ⟨hb, -⟩ | hlt := ht
    · exact absurd hb h
    · obtain ⟨t, rfl⟩ := Nat.exists_eq_succ_of_ne_zero (Nat.ne_of_gt (Nat.zero_lt_of_lt hlt))
      rw [hrest h]
      exact hcallee t (Nat.le_of_lt_succ hlt)

/-- The effect is known of every analysed body control can be in, from a round on. -/
def KnownFrom (program : Program) (r : Nat) (c : Control) (e : Effect) : Prop :=
  ∀ body, (c.1, body) ∈ analysed program → Walk (.stmt body) c.2 → ∀ t, r ≤ t →
    ∃ known, tableAfter program (t + 1) c.1 = some known ∧ e ∈ known.effects

theorem known_of_performs (hkeys : (keys program).Nodup) (r : Nat)
    (h : Performs program flow c e) : KnownFrom program r c e := by
  intro body hbody hwalk t _
  apply known_of_contributes hkeys hbody hwalk h.ne_pure
  intro table hbefore hrest
  cases h with
  | out => exact rfl
  | err => exact rfl
  | @primitive k name span args e hname he =>
    have htable : table name = builtins name := by
      by_cases hb : Before program name k
      · rw [hbefore name hb, tableAfter_undeclared (not_mem_keys_of_undeclared hname)]
      · rw [hrest name hb, tableAfter_undeclared (not_mem_keys_of_undeclared hname)]
    simpa only [contributes, callNode, NameEffect, htable] using he
  | member _ he => exact .inl he

theorem known_of_step (hc : Covered program flow) {c c' : Control} {r s : Nat}
    (hstep : Step program flow c c') (hcan : Can program flow c' e)
    (hknown : KnownFrom program r c' e)
    (hr : ((c'.1 = c.1 ∨ Before program c'.1 c.1) ∧ r ≤ s) ∨ r < s) : KnownFrom program s c e := by
  have hrs : r ≤ s := by omega
  intro body hbody hwalk t ht
  -- a call of a body: either the caller itself, or one whose effects the walk looks up
  have hcall : ∀ name cbody, (name, cbody) ∈ bodies program → c' = (name, .stmt cbody) →
      (∀ table : Table, (∃ known, table name = some known ∧ e ∈ known.effects) →
        contributes table e c.2) →
      ∃ known, tableAfter program (t + 1) c.1 = some known ∧ e ∈ known.effects := by
    rintro name cbody hmem rfl hlookup
    have hcallee := hknown cbody (hc.bodiesAnalysed name cbody e hmem hcan) (.refl _)
    by_cases hself : name = c.1
    · exact hself ▸ hcallee t (hrs.trans ht)
    · apply known_of_contributes hc.unique hbody hwalk hcan.ne_pure
      intro table hbefore hrest
      have hcount : (Before program name c.1 ∧ r ≤ t) ∨ r < t := by
        obtain ⟨hb | hb, -⟩ | hlt := hr
        · exact absurd hb hself
        · exact .inl ⟨hb, hrs.trans ht⟩
        · exact .inr (hlt.trans_le ht)
      exact hlookup table (callee_known hcallee (hbefore name) (hrest name) hcount)
  cases hstep with
  | @operand k n m hm =>
    by_cases hskip : skipped n = true
    · exact absurd hcan (hc.operands k body n m e hbody hwalk hskip hm)
    · have hin : m ∈ walked n := by rwa [walked, if_neg hskip]
      exact hknown body hbody (hwalk.tail hin) t (hrs.trans ht)
  | @call k name span args cbody hmem =>
    apply hcall name cbody hmem rfl
    rintro table ⟨known, hk, he⟩
    simpa only [contributes, callNode, NameEffect, hk] using he
  | @method k object member args cls mbody hreceives hmem =>
    obtain ⟨span, rfl⟩ := hc.methods k body object member args cls mbody e hbody hwalk hreceives
      hmem hcan
    apply hcall (methodKey cls member) mbody hmem rfl
    rintro table ⟨known, hk, he⟩
    exact .inr ⟨cls, span, known, rfl, hk, he⟩
  | @closure k name span args home lambda hclosure =>
    obtain ⟨rfl, hlambda⟩ := hc.closures k body name span args home lambda e hbody hwalk hclosure
      hcan
    exact hknown body hbody hlambda t (hrs.trans ht)
  | @stage k stages name span hstage =>
    exact absurd hcan (hc.stages k body stages name span e hbody hwalk hstage)

/-- **What the end of a chain of calls performs is known after as many rounds as there are calls on
the chain of bodies that are not declared before their caller, and one.** -/
theorem known_of_canWithin (hc : Covered program flow) {r : Nat}
    (h : CanWithin program flow r c e) : KnownFrom program r c e := by
  induction h with
  | here hperforms => exact known_of_performs hc.unique _ hperforms
  | early hstep hearly hrest ih =>
    exact known_of_step hc hstep hrest.can ih (.inl ⟨hearly, Nat.le_refl _⟩)
  | late hstep hrest ih => exact known_of_step hc hstep hrest.can ih (.inr (Nat.lt_succ_self _))

end Chains

/-- No receiver is an object of the program's, and no variable holds a lambda. -/
def noFlow : Flow := ⟨fun _ _ _ => False, fun _ _ _ => False⟩

def plainFunction (name : String) (body : Stmt) : Decl := .function ⟨name, [], [], [], body⟩

def logCall : Node := callNode (.identifier "log" default) []

/-- `fn main() => log()  fn log() => out ""` -/
def logging : Program :=
  ⟨[plainFunction "main" (.expr (.call (.identifier "log" default) [])),
    plainFunction "log" (.out (.literal (.string "")))]⟩

/-- Where control can be in a run of `logging`. -/
def LoggingReach (c : Control) : Prop :=
  c = ("main", .stmt (.expr (.call (.identifier "log" default) []))) ∨ c = ("main", logCall) ∨
  c = ("main", .expr (.identifier "log" default)) ∨
  c = ("log", .stmt (.out (.literal (.string "")))) ∨ c = ("log", .expr (.literal (.string "")))

theorem loggingReach_step {c c' : Control} (h : LoggingReach c)
    (hstep : Step logging noFlow c c') : LoggingReach c' := by
  have hbody : ∀ body, ("log", body) ∈ bodies logging → body = .out (.literal (.string "")) := by
    intro body hmem
    simpa [bodies, logging, plainFunction, Decl.bodies] using hmem
  obtain rfl | rfl | rfl | rfl | rfl := h <;> cases hstep
  case inr.inl.call body hmem => exact .inr (.inr (.inr (.inl (by rw [hbody body hmem]))))
  case inr.inl.closure hclosure => exact hclosure.elim
  all_goals
    rename_i m hm
    simp [Node.children, Node.parts, Expr.parts, Stmt.parts, Part.ofExpr, logCall, callNode] at hm
  · exact .inr (.inl (by rw [hm]; rfl))
  · exact .inr (.inr (.inl (by rw [hm])))
  · exact .inr (.inr (.inr (.inr (by rw [hm]))))

theorem loggingReach_run {c c' : Control} (h : LoggingReach c)
    (hrun : Relation.ReflTransGen (Step logging noFlow) c c') : LoggingReach c' := by
  induction hrun with
  | refl => exact h
  | tail _ hstep ih => exact loggingReach_step ih hstep

theorem logging_performs (h : LoggingReach c) (hperforms : Performs logging noFlow c e) : e = .io := by
  obtain rfl | rfl | rfl | rfl | rfl := h <;> cases hperforms
  case inr.inl.primitive hname _ =>
    apply absurd _ (hname.1 (.out (.literal (.string ""))))
    exact List.mem_cons_of_mem _ List.mem_cons_self
  case inr.inr.inr.inl.out => rfl

theorem logging_walk {n : Node} (h : (key, body) ∈ analysed logging)
    (hwalk : Walk (.stmt body) n) : LoggingReach (key, n) := by
  have hstart : LoggingReach (key, .stmt body) := by
    have hmem : (key, body) = ("main", .expr (.call (.identifier "log" default) [])) ∨
        (key, body) = ("log", .out (.literal (.string ""))) := by
      simpa [analysed, entries, logging, plainFunction, Decl.entries, functionEntry,
        Entry.body?] using h
    obtain heq | heq := hmem <;> cases heq
    · exact .inl rfl
    · exact .inr (.inr (.inr (.inl rfl)))
  generalize Node.stmt body = start at hwalk hstart
  induction hwalk with
  | refl => exact hstart
  | head hp _ ih =>
    apply ih
    apply loggingReach_step hstart
    apply Step.operand
    unfold walked at hp
    split_ifs at hp
    · cases hp
    · exact hp

/-- `log` is declared after its caller, so that the first round does not have its effect yet. -/
theorem logging_covered : Covered logging noFlow where
  unique := by decide
  bodiesAnalysed _ _ _ h _ := h
  operands key body n m e h hwalk hskip := by
    obtain heq | heq | heq | heq | heq := logging_walk h hwalk <;> cases heq <;> cases hskip
  stages key body stages name span e h hwalk := by
    obtain heq | heq | heq | heq | heq := logging_walk h hwalk <;> cases heq
  methods _ _ _ _ _ _ _ _ _ _ h := h.elim
  closures _ _ _ _ _ _ _ _ _ _ h := h.elim
  short key body e h hcan := by
    obtain ⟨c, hrun, hperforms⟩ := hcan
    obtain rfl := logging_performs (loggingReach_run (logging_walk h (.refl _)) hrun) hperforms
    have hlog : CanWithin logging noFlow 30 ("log", .stmt (.out (.literal (.string "")))) .io :=
      .here .out
    have hcall : CanWithin logging noFlow 31 ("main", logCall) .io := by
      apply CanWithin.late _ hlog
      exact .call (List.mem_cons_of_mem _ List.mem_cons_self)
    have hmem : (key, body) = ("main", .expr (.call (.identifier "log" default) [])) ∨
        (key, body) = ("log", .out (.literal (.string ""))) := by
      simpa [analysed, entries, logging, plainFunction, Decl.entries, functionEntry,
        Entry.body?] using h
    obtain heq | heq := hmem <;> cases heq
    · exact .early (.operand List.mem_cons_self) (.inl rfl) hcall
    · exact .here .out

/-- `fn seed() { return rand() as Float }` -/
def seeding : Program :=
  ⟨[plainFunction "seed" (.ret (some (.cast (.call (.identifier "rand" default) []) "Float" .plain)))]⟩

end Datara.Effects
