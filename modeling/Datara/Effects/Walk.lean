import Datara.Effects.Analysis

/-!
# What the walk over a body collects

`Walk` is the part of a tree the analysis goes through: the operands of every node but the ones
`analyze_expr` leaves to its last arm. The analysis of a node keeps what it has and has, in the end,
what each node of its walk contributes (`collects_node`).
-/

namespace Datara.Effects

open Datara.Ast Datara.Library

/-- The nodes whose operands `analyze_expr` does not look at. -/
def skipped : Node → Bool
  | .expr (.objectInit _ _) | .expr (.orRecovery _ _) | .expr (.arrayRepeatLiteral _ _)
  | .expr (.comptime _) | .expr (.wrapping _) | .expr (.saturating _) | .expr (.cast _ _ _)
  | .expr (.block _ _) | .expr (.isCheck _ _) => true
  | _ => false

def walked (n : Node) : List Node := if skipped n then [] else n.children

inductive Walk : Node → Node → Prop
  | refl (n) : Walk n n
  | head {n p m} : p ∈ walked n → Walk p m → Walk n m

theorem Walk.trans {a b c : Node} (h : Walk a b) (h' : Walk b c) : Walk a c := by
  induction h with
  | refl => exact h'
  | head hp _ ih => exact .head hp (ih h')

theorem Walk.tail {a b c : Node} (h : Walk a b) (hc : c ∈ walked b) : Walk a c :=
  h.trans (.head hc (.refl c))

/-- A call of the name has the effect, as the table knows it or else by its spelling. -/
def NameEffect (table : Table) (name : String) (e : Effect) : Prop :=
  match table name with
  | some known => e ∈ known.effects
  | none => e ∈ nameEffects name

/-- What a node adds to the set by itself, the effects that are no input or output of its own and no
call left out. -/
def contributes (table : Table) (e : Effect) : Node → Prop
  | .stmt (.out _) | .stmt (.err _) => e = .io
  | .expr (.call (.identifier name _) _) => NameEffect table name e
  | .expr (.call (.memberAccess object member) _) =>
    e ∈ memberEffects member ∨ ∃ objName span known, object = .identifier objName span ∧
      table (methodKey objName member) = some known ∧ e ∈ known.effects
  | _ => False

/-- An effect some node of the walk contributes. -/
def Found (table : Table) (n : Node) (e : Effect) : Prop :=
  ∃ m, Walk n m ∧ contributes table e m

/-! ## The sets only grow -/

namespace EffectSet

variable {s other : EffectSet} {e a : Effect}

theorem mem_add (he : e ≠ .pure) : e ∈ (s.add a).effects ↔ e ∈ s.effects ∨ e = a := by
  unfold add
  split_ifs with ha
  · simp [he, or_comm]
  · have : a = .pure := by simpa using ha
    simp [this, he]

theorem mem_union (he : e ≠ .pure) : e ∈ (s.union other).effects ↔ e ∈ s.effects ∨ e ∈ other.effects := by
  simp only [union]
  split_ifs with hadded
  · have hnot : e ∉ other.effects.erase .pure := by simp [hadded]
    simp only [Finset.mem_erase, ne_eq, he, not_false_eq_true, true_and] at hnot
    simp [hnot]
  · simp [he]

theorem mem_addAll (he : e ≠ .pure) (l : List Effect) : e ∈ (s.addAll l).effects ↔ e ∈ s.effects ∨ e ∈ l := by
  induction l generalizing s with
  | nil => simp [addAll]
  | cons b l ih =>
    show e ∈ ((s.add b).addAll l).effects ↔ _
    rw [ih, mem_add he, List.mem_cons, or_assoc]

end EffectSet

theorem Found.cases {table : Table} {n : Node} {e : Effect} (h : Found table n e) :
    contributes table e n ∨ ∃ p ∈ walked n, Found table p e := by
  obtain ⟨m, hwalk, hm⟩ := h
  cases hwalk with
  | refl => exact .inl hm
  | head hp hrest => exact .inr ⟨_, hp, m, hrest, hm⟩

/-! ## What a pass over several nodes collects -/

/-- A pass keeps the set it is given and adds what is found at the nodes it is about. -/
def Covers (table : Table) (ns : List Node) (f : EffectSet → EffectSet) : Prop :=
  ∀ s e, e ≠ .pure → (e ∈ s.effects ∨ ∃ p ∈ ns, Found table p e) → e ∈ (f s).effects

namespace Covers

variable {table : Table} {ns ms : List Node} {f g : EffectSet → EffectSet}

theorem nothing : Covers table [] fun s => s := fun _ _ _ h => by simpa using h

theorem comp (hg : Covers table ms g) (hf : Covers table ns f) : Covers table (ns ++ ms) fun s => g (f s) := by
  intro s e he h
  apply hg _ e he
  obtain h | ⟨p, hp, hfound⟩ := h
  · exact .inl (hf s e he (.inl h))
  · obtain hp | hp := List.mem_append.mp hp
    · exact .inl (hf s e he (.inr ⟨p, hp, hfound⟩))
    · exact .inr ⟨p, hp, hfound⟩

theorem add (a : Effect) : Covers table [] (·.add a) := by
  intro s e he h
  exact (EffectSet.mem_add he).mpr (.inl (by simpa using h))

theorem keeps (hf : Covers table ns f) {s : EffectSet} {e : Effect} (he : e ≠ .pure)
    (h : e ∈ s.effects) : e ∈ (f s).effects :=
  hf s e he (.inl h)

theorem node {n : Node} (hf : Covers table (walked n) f)
    (hown : ∀ s e, e ≠ .pure → contributes table e n → e ∈ (f s).effects) :
    Covers table [n] f := by
  intro s e he h
  obtain h | ⟨p, hp, hfound⟩ := h
  · exact hf.keeps he h
  · obtain rfl := List.mem_singleton.mp hp
    obtain hc | hop := hfound.cases
    · exact hown s e he hc
    · exact hf s e he (.inr hop)

end Covers

/-- The analysis of a node, as a pass. -/
def CoversNode (table : Table) : Node → Prop
  | .expr e => Covers table [.expr e] (analyzeExpr table e)
  | .stmt s => ∀ locals, Covers table [.stmt s] fun effects => (analyzeStmt table s effects locals).1

section Lists

variable {table : Table}

theorem covers_exprs : ∀ {es : List Expr}, (∀ e ∈ es, CoversNode table (.expr e)) →
    Covers table (es.map .expr) (analyzeExprs table es)
  | [], _ => .nothing
  | e :: es, h =>
    (covers_exprs fun a ha => h a (List.mem_cons_of_mem e ha)).comp (h e List.mem_cons_self)

theorem covers_option : ∀ {e : Option Expr}, (∀ a ∈ e, CoversNode table (.expr a)) →
    Covers table (e.toList.map .expr) (analyzeOption table e)
  | none, _ => .nothing
  | some a, h => h a rfl

theorem covers_pairs : ∀ {es : List (Expr × Expr)},
    (∀ p ∈ es, CoversNode table (.expr p.1) ∧ CoversNode table (.expr p.2)) →
    Covers table (es.flatMap fun p => [.expr p.1, .expr p.2]) (analyzePairs table es)
  | [], _ => .nothing
  | (k, v) :: es, h => by
    have hhead := h (k, v) List.mem_cons_self
    have hrest := covers_pairs fun p hp => h p (List.mem_cons_of_mem (k, v) hp)
    exact (hrest.comp hhead.2).comp hhead.1

theorem covers_arms : ∀ {arms : List MatchArm},
    (∀ arm ∈ arms, ∀ p ∈ arm.parts, CoversNode table p.node) →
    Covers table ((arms.flatMap MatchArm.parts).map Operand.node) (analyzeArms table arms)
  | [], _ => .nothing
  | .mk pattern guard body :: arms, h => by
    have hhead := h _ List.mem_cons_self
    have hrest := covers_arms fun arm harm => h arm (List.mem_cons_of_mem _ harm)
    have hbody : CoversNode table (.expr body) := hhead ⟨pattern.names, .expr body⟩ (by
      simp [MatchArm.parts])
    have hguard : Covers table (guard.toList.map .expr) (analyzeOption table guard) := by
      apply covers_option
      intro g hg
      exact hhead ⟨pattern.names, .expr g⟩ (by
        obtain rfl : guard = some g := hg
        simp [MatchArm.parts])
    have hall := (hrest.comp hbody).comp hguard
    intro s e he hs
    apply hall s e he
    simpa [MatchArm.parts, Function.comp_def, or_assoc] using hs

theorem covers_stmts : ∀ {ss : List Stmt} {locals : List String},
    (∀ s ∈ ss, CoversNode table (.stmt s)) →
    Covers table (ss.map .stmt) fun effects => analyzeStmts table ss effects locals
  | [], _, _ => .nothing
  | s :: ss, locals, h => by
    have hrest := fun locals =>
      @covers_stmts ss locals fun a ha => h a (List.mem_cons_of_mem s ha)
    intro acc e he hs
    apply (hrest (analyzeStmt table s acc locals).2).comp (h s List.mem_cons_self locals) acc e he
    simpa using hs

theorem covers_else {e : Option Stmt} {locals : List String}
    (h : ∀ a ∈ e, CoversNode table (.stmt a)) :
    Covers table (e.toList.map .stmt) fun effects => analyzeElse table e effects locals := by
  cases e with
  | none => exact .nothing
  | some a => exact h a rfl locals

end Lists

/-! ## Every node -/

section Nodes

variable {table : Table}

theorem Covers.quiet {n : Node} {f : EffectSet → EffectSet} {ns : List Node}
    (hf : Covers table ns f) (hns : walked n = ns) (hown : ∀ e, ¬ contributes table e n) :
    Covers table [n] f :=
  .node (hns ▸ hf) fun _ e _ h => absurd h (hown e)

theorem callEffects_covers (callee : Expr) : Covers table [] (callEffects table callee) := by
  intro s e he h
  have hs : e ∈ s.effects := by simpa using h
  cases callee with
  | identifier name span =>
    simp only [callEffects]
    split
    · exact (EffectSet.mem_union he).mpr (.inl hs)
    · exact (EffectSet.mem_addAll he _).mpr (.inl hs)
  | memberAccess object member =>
    apply (EffectSet.mem_addAll he _).mpr
    left
    cases object with
    | identifier objName span =>
      simp only
      split
      · exact (EffectSet.mem_union he).mpr (.inl hs)
      · exact hs
    | _ => exact hs
  | _ => exact hs

theorem contributes_call {callee : Expr} {args : List Expr} {s : EffectSet} {e : Effect}
    (he : e ≠ .pure) (h : contributes table e (.expr (.call callee args))) :
    e ∈ (callEffects table callee s).effects := by
  cases callee with
  | identifier name span =>
    simp only [contributes, NameEffect, callEffects] at h ⊢
    split <;> rename_i hname <;> simp only [hname] at h
    · exact (EffectSet.mem_union he).mpr (.inr h)
    · exact (EffectSet.mem_addAll he _).mpr (.inr h)
  | memberAccess object member =>
    obtain h | ⟨objName, span, known, rfl, hknown, h⟩ := h
    · exact (EffectSet.mem_addAll he _).mpr (.inr h)
    · simp only [callEffects, hknown]
      exact (EffectSet.mem_addAll he _).mpr (.inl ((EffectSet.mem_union he).mpr (.inr h)))
  | _ => cases h

theorem covers_expr : ∀ {e : Expr}, (∀ p ∈ e.parts, CoversNode table p.node) →
    CoversNode table (.expr e)
  | .call callee args, ih => by
    have hcallee := ih (.ofExpr callee) List.mem_cons_self
    have hargs := covers_exprs fun a ha =>
      ih (.ofExpr a) (List.mem_cons_of_mem _ (List.mem_map_of_mem ha))
    apply Covers.node
    · have hall := (callEffects_covers callee).comp (hargs.comp hcallee)
      have hnodes : walked (.expr (.call callee args)) = .expr callee :: args.map .expr := by
        simp [walked, skipped, Node.children, Node.parts, Expr.parts, Part.ofExpr,
          Function.comp_def]
      rw [hnodes]
      exact List.append_nil (Node.expr callee :: args.map Node.expr) ▸ hall
    · exact fun s e he h => contributes_call he h
  | .binary _ l r, ih | .range l r _, ih => by
    have hl := ih (.ofExpr l) (by simp [Expr.parts])
    have hr := ih (.ofExpr r) (by simp [Expr.parts])
    exact (hr.comp hl).quiet rfl fun _ => id
  | .indexAccess l r, ih => by
    have hl := ih (.ofExpr l) (by simp [Expr.parts])
    have hr := ih (.ofExpr r) (by simp [Expr.parts])
    exact ((hr.comp hl).comp (.add .read)).quiet rfl fun _ => id
  | .unary _ a, ih | .errorPropagate a, ih => by
    have ha := ih (.ofExpr a) (by simp [Expr.parts])
    exact ha.quiet rfl fun _ => id
  | .lambda params a, ih => by
    have ha := ih ⟨params, .expr a⟩ (by simp [Expr.parts])
    exact ha.quiet rfl fun _ => id
  | .memberAccess a _, ih => by
    have ha := ih (.ofExpr a) (by simp [Expr.parts])
    exact (ha.comp (.add .read)).quiet rfl fun _ => id
  | .pipeline es, ih | .listLiteral es, ih | .tuple es, ih | .interpolatedString _ es, ih => by
    have hes := covers_exprs fun a ha => ih (.ofExpr a) (List.mem_map_of_mem ha)
    apply hes.quiet
    · simp [walked, skipped, Node.children, Node.parts, Expr.parts, Part.ofExpr, Function.comp_def]
    · exact fun _ => id
  | .mapLiteral es, ih => by
    have hes := covers_pairs fun a ha =>
      ⟨ih (.ofExpr a.1) (List.mem_flatMap.mpr ⟨a, ha, by simp⟩),
        ih (.ofExpr a.2) (List.mem_flatMap.mpr ⟨a, ha, by simp⟩)⟩
    apply hes.quiet
    · simp [walked, skipped, Node.children, Node.parts, Expr.parts, pairParts, Part.ofExpr,
        List.map_flatMap]
    · exact fun _ => id
  | .decideOn arms elseArm, ih | .selectOn arms elseArm, ih => by
    have harms := covers_pairs fun a ha =>
      ⟨ih (.ofExpr a.1) (List.mem_append_left _ (List.mem_flatMap.mpr ⟨a, ha, by simp⟩)),
        ih (.ofExpr a.2) (List.mem_append_left _ (List.mem_flatMap.mpr ⟨a, ha, by simp⟩))⟩
    have helse := covers_option (e := elseArm) fun a ha =>
      ih (.ofExpr a) (List.mem_append_right _ (List.mem_map_of_mem (Option.mem_toList.mpr ha)))
    apply (helse.comp harms).quiet
    · simp [walked, skipped, Node.children, Node.parts, Expr.parts, pairParts, Part.ofExpr,
        List.map_flatMap, Function.comp_def]
    · exact fun _ => id
  | .matchOn value arms, ih => by
    have hvalue := ih (.ofExpr value) List.mem_cons_self
    have harms := covers_arms fun arm harm p hp =>
      ih p (List.mem_cons_of_mem _ (List.mem_flatMap.mpr ⟨arm, harm, hp⟩))
    exact (harms.comp hvalue).quiet rfl fun _ => id
  | .literal _, _ | .identifier _ _, _ | .objectInit _ _, _ | .orRecovery _ _, _
  | .arrayRepeatLiteral _ _, _ | .comptime _, _ | .wrapping _, _ | .saturating _, _
  | .cast _ _ _, _ | .block _ _, _ | .isCheck _ _, _ => Covers.nothing.quiet rfl fun _ => id

theorem sequence_covered {ss : List Stmt} {trailing : Option Expr}
    (ih : ∀ p ∈ sequence [] ss trailing, CoversNode table p.node) :
    ∀ s ∈ ss, CoversNode table (.stmt s) := by
  intro s hs
  have hmem : Node.stmt s ∈ (sequence [] ss trailing).map Operand.node := by
    rw [sequence_nodes]
    exact List.mem_append_left _ (List.mem_map_of_mem hs)
  obtain ⟨p, hp, hnode⟩ := List.mem_map.mp hmem
  exact hnode ▸ ih p hp

theorem addUnlessLocal_covers (target : Expr) (locals : List String) :
    Covers table [] (addUnlessLocal target locals) := by
  unfold addUnlessLocal
  split
  · split
    · exact .nothing
    · exact .add .write
  · exact .add .write

theorem covers_stmt : ∀ {s : Stmt}, (∀ p ∈ s.parts, CoversNode table p.node) →
    CoversNode table (.stmt s)
  | .block ss, ih, locals => by
    apply (covers_stmts (sequence_covered ih)).quiet
    · simp [walked, skipped, Node.children, Node.parts, Stmt.parts, sequence_nodes]
    · exact fun _ => id
  | .out a, ih, _ | .err a, ih, _ => by
    have ha := ih (.ofExpr a) (by simp [Stmt.parts])
    apply Covers.node
    · exact ha.comp (.add .io)
    · rintro s e he rfl
      exact ha.keeps he ((EffectSet.mem_add he).mpr (.inr rfl))
  | .bindLet _ _ a, ih, _ | .bindMut _ _ a, ih, _ | .bindConst _ _ a, ih, _
  | .bindVal _ _ a _, ih, _ | .compactBind _ a, ih, _ | .expr a, ih, _ => by
    have ha := ih (.ofExpr a) (by simp [Stmt.parts])
    exact ha.quiet rfl fun _ => id
  | .assign target value, ih, locals => by
    have ht := ih (.ofExpr target) (by simp [Stmt.parts])
    have hv := ih (.ofExpr value) (by simp [Stmt.parts])
    exact ((hv.comp ht).comp (addUnlessLocal_covers target locals)).quiet rfl fun _ => id
  | .ifElse c t e, ih, locals => by
    have hc := ih (.ofExpr c) (by simp [Stmt.parts])
    have ht := ih (.ofStmt t) (by simp [Stmt.parts]) locals
    have he := @covers_else _ e locals fun a ha =>
      ih (.ofStmt a) (by simp [Stmt.parts, Option.mem_def.mp ha])
    apply (he.comp (ht.comp hc)).quiet
    · simp [walked, skipped, Node.children, Node.parts, Stmt.parts, Part.ofExpr, Part.ofStmt,
        Function.comp_def]
    · exact fun _ => id
  | .forIn x a body, ih, locals | .withResource x a body, ih, locals => by
    have ha := ih (.ofExpr a) (by simp [Stmt.parts])
    have hbody := ih ⟨[x], .stmt body⟩ (by simp [Stmt.parts]) (x :: locals)
    exact (hbody.comp ha).quiet rfl fun _ => id
  | .parallelFor x a body, ih, locals => by
    have ha := ih (.ofExpr a) (by simp [Stmt.parts])
    have hbody := ih ⟨[x], .stmt body⟩ (by simp [Stmt.parts]) (x :: locals)
    exact ((hbody.comp ha).comp (.add .parallel)).quiet rfl fun _ => id
  | .whileDo c body, ih, locals => by
    have hc := ih (.ofExpr c) (by simp [Stmt.parts])
    have hbody := ih (.ofStmt body) (by simp [Stmt.parts]) locals
    exact (hbody.comp hc).quiet rfl fun _ => id
  | .loop body, ih, locals | .simd body, ih, locals => by
    have hbody := ih (.ofStmt body) (by simp [Stmt.parts]) locals
    exact hbody.quiet rfl fun _ => id
  | .parallel body, ih, locals => by
    have hbody := ih (.ofStmt body) (by simp [Stmt.parts]) locals
    exact (hbody.comp (.add .parallel)).quiet rfl fun _ => id
  | .unsafeBlock _ body, ih, locals => by
    have hbody := ih (.ofStmt body) (by simp [Stmt.parts]) locals
    exact (hbody.comp (.add .unsafeCode)).quiet rfl fun _ => id
  | .ret value, ih, _ => by
    have hvalue := covers_option (e := value) fun a ha =>
      ih (.ofExpr a) (List.mem_map_of_mem (Option.mem_toList.mpr ha))
    apply hvalue.quiet
    · simp [walked, skipped, Node.children, Node.parts, Stmt.parts, Part.ofExpr, Function.comp_def]
    · exact fun _ => id
  | .breakLoop, _, _ | .continueLoop, _, _ => Covers.nothing.quiet rfl fun _ => id
  | .asm _ options _, _, _ => by
    apply Covers.quiet _ rfl fun _ => id
    simp only [analyzeStmt]
    split
    · exact .add .unsafeCode
    · exact (Covers.add .io).comp (.add .unsafeCode)

/-- **The analysis of a node has what is found on its walk.** -/
theorem covers_node (n : Node) : CoversNode table n := by
  induction n using Node.induction with
  | step n ih =>
    cases n with
    | expr e => exact covers_expr ih
    | stmt s => exact covers_stmt ih

end Nodes

end Datara.Effects
