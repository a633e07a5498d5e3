import Datara.Dmir.Ir
import Datara.Library.DominatorTree
import Mathlib.Algebra.Group.Nat.Defs

/-!
# The control-flow graph of a function

Successors, predecessors and immediate dominators, as `dmir/cfg.rs` computes them: a depth-first
walk with an explicit stack gives a reverse post-order, and passes over it meet the predecessors'
dominators until a pass changes nothing. The `while` loops of the source run under one fuel; `none`
means that they were still running.

**The result is a dominator tree** (`Cfg.dominatorTree_of_computeDominance`): whenever the
computation returns, the map it returns dominates in the sense of `Library.DominatorTree`, and it
holds exactly the blocks the entry reaches.
-/

namespace Datara.Dmir

open Library

/-- The successors of a block with this terminator, each once. -/
def Terminator.successors : Terminator → List BasicBlockId
  | .branch t _ => [t]
  | .condBranch _ t _ e _ => if e ≠ t then [t, e] else [t]
  | .ret _ | .unreachable => []

theorem Terminator.mem_successors {t : Terminator} {b : BasicBlockId} : b ∈ t.successors ↔ b ∈ t.targets := by
  cases t with
  | condBranch c th ta e ea =>
    by_cases h : e = th <;> simp [successors, targets, h]
  | _ => simp [successors, targets]

namespace Cfg

/-- A map of immediate dominators: `HashMap<BasicBlockId, BasicBlockId>`. -/
abbrev Idom := BasicBlockId → Option BasicBlockId

def successors (f : Function) (b : BasicBlockId) : List BasicBlockId :=
  (f.blocks.filter (·.id = b)).flatMap (·.terminator.successors)

def predecessors (f : Function) (b : BasicBlockId) : List BasicBlockId :=
  f.blocks.flatMap fun bl => (bl.terminator.successors.filter (· = b)).map fun _ => bl.id

theorem mem_predecessors {f : Function} {p b : BasicBlockId} : p ∈ predecessors f b ↔ b ∈ successors f p := by
  simp only [predecessors, successors, List.mem_flatMap, List.mem_map, List.mem_filter,
    decide_eq_true_eq]
  constructor
  · rintro ⟨bl, hbl, s, ⟨hs, rfl⟩, rfl⟩
    exact ⟨bl, ⟨hbl, rfl⟩, hs⟩
  · rintro ⟨bl, ⟨hbl, rfl⟩, hs⟩
    exact ⟨bl, hbl, b, ⟨hs, rfl⟩, rfl⟩

/-! ## The reverse post-order -/

/-- The depth-first walk. A node is pushed again, marked, below its successors; when the mark is
popped the node is finished. Finished nodes are consed, so the list is the reversed post-order. -/
def walk (succ : BasicBlockId → List BasicBlockId) :
    Nat → List (BasicBlockId × Bool) → List BasicBlockId → List BasicBlockId →
      Option (List BasicBlockId)
  | 0, _, _, _ => none
  | _ + 1, [], _, rpo => some rpo
  | n + 1, (node, true) :: stack, visited, rpo => walk succ n stack visited (node :: rpo)
  | n + 1, (node, false) :: stack, visited, rpo =>
    if node ∈ visited then walk succ n stack visited rpo
    else
      let visited := node :: visited
      let pushed := ((succ node).filter (· ∉ visited)).map fun s => (s, false)
      walk succ n (pushed.reverse ++ (node, true) :: stack) visited rpo

/-- Each entry of the stack, the first one apart, was pushed by a node whose mark is below it. -/
def StackOk (succ : BasicBlockId → List BasicBlockId) (entry : BasicBlockId) :
    List (BasicBlockId × Bool) → Prop
  | [] => True
  | (s, _) :: rest => (s = entry ∨ ∃ u, (u, true) ∈ rest ∧ s ∈ succ u) ∧ StackOk succ entry rest

/-- What the walk keeps. -/
structure WalkInv (succ : BasicBlockId → List BasicBlockId) (entry : BasicBlockId)
    (stack : List (BasicBlockId × Bool)) (visited rpo : List BasicBlockId) : Prop where
  visited_iff : ∀ b, b ∈ visited ↔ b ∈ rpo ∨ (b, true) ∈ stack
  closed : ∀ b ∈ visited, ∀ s ∈ succ b, s ∈ visited ∨ (s, false) ∈ stack
  once : (rpo ++ (stack.filter (·.2)).map (·.1)).Nodup
  entry_seen : entry ∈ visited ∨ (entry, false) ∈ stack
  stack_ok : StackOk succ entry stack
  parent : ∀ b ∈ rpo, b = entry ∨
    ∃ u, b ∈ succ u ∧ ((u, true) ∈ stack ∨ u ∈ rpo ∧ rpo.idxOf u < rpo.idxOf b)

/-- What a finished walk leaves. -/
structure WalkDone (succ : BasicBlockId → List BasicBlockId) (entry : BasicBlockId)
    (rpo : List BasicBlockId) : Prop where
  entry_mem : entry ∈ rpo
  closed : ∀ b ∈ rpo, ∀ s ∈ succ b, s ∈ rpo
  once : rpo.Nodup
  parent : ∀ b ∈ rpo, b ≠ entry → ∃ u ∈ rpo, b ∈ succ u ∧ rpo.idxOf u < rpo.idxOf b

section
variable {succ : BasicBlockId → List BasicBlockId} {entry node : BasicBlockId}
  {stack : List (BasicBlockId × Bool)} {visited rpo : List BasicBlockId}

theorem StackOk.push {l : List BasicBlockId} (h : StackOk succ entry stack)
    (hu : (node, true) ∈ stack) (hl : ∀ s ∈ l, s ∈ succ node) :
    StackOk succ entry (l.map (fun s => (s, false)) ++ stack) := by
  induction l with
  | nil => exact h
  | cons s l ih =>
    refine ⟨.inr ⟨node, ?_, hl s List.mem_cons_self⟩, ih fun t ht => hl t (List.mem_cons_of_mem _ ht)⟩
    exact List.mem_append_right _ hu

theorem WalkInv.start : WalkInv succ entry [(entry, false)] [] [] where
  visited_iff := by simp
  closed := by simp
  once := by simp
  entry_seen := by simp
  stack_ok := ⟨.inl rfl, trivial⟩
  parent := by simp

theorem WalkInv.finish (h : WalkInv succ entry ((node, true) :: stack) visited rpo) :
    WalkInv succ entry stack visited (node :: rpo) := by
  have hnew : node ∉ rpo := fun hm =>
    (List.nodup_append.mp h.once).2.2 node hm node (by simp) rfl
  have shift : ∀ b ∈ rpo, (node :: rpo).idxOf b = rpo.idxOf b + 1 := fun b hb =>
    List.idxOf_cons_ne _ fun he => hnew (he ▸ hb)
  refine ⟨fun b => ?_, fun b hb s hs => ?_, ?_, ?_, h.stack_ok.2, fun b hb => ?_⟩
  · rw [h.visited_iff]; simp [or_left_comm, or_assoc]
  · simpa using h.closed b hb s hs
  · have := h.once
    exact (List.perm_middle.nodup_iff.mp this)
  · simpa using h.entry_seen
  · rcases List.mem_cons.mp hb with rfl | hbr
    · -- the node's own parent is still marked on the stack
      rcases h.stack_ok.1 with he | ⟨u, hu, hs⟩
      · exact .inl he
      · exact .inr ⟨u, hs, .inl hu⟩
    · rcases h.parent b hbr with he | ⟨u, hs, hu⟩
      · exact .inl he
      · refine .inr ⟨u, hs, ?_⟩
        rcases hu with hu | ⟨hu, hlt⟩
        · rcases List.mem_cons.mp hu with he | hu
          · obtain rfl := (Prod.mk.inj he).1
            exact .inr ⟨List.mem_cons_self, by rw [shift b hbr, List.idxOf_cons_self]; omega⟩
          · exact .inl hu
        · exact .inr ⟨List.mem_cons_of_mem _ hu, by rw [shift b hbr, shift u hu]; omega⟩

theorem WalkInv.drop (h : WalkInv succ entry ((node, false) :: stack) visited rpo)
    (hv : node ∈ visited) : WalkInv succ entry stack visited rpo where
  visited_iff b := by simpa using h.visited_iff b
  closed b hb s hs := by
    rcases h.closed b hb s hs with hv' | hm
    · exact .inl hv'
    · rcases List.mem_cons.mp hm with he | hm
      · exact .inl ((Prod.mk.inj he).1 ▸ hv)
      · exact .inr hm
  once := by simpa using h.once
  entry_seen := by
    rcases h.entry_seen with he | he
    · exact .inl he
    · rcases List.mem_cons.mp he with he | he
      · exact .inl ((Prod.mk.inj he).1 ▸ hv)
      · exact .inr he
  stack_ok := h.stack_ok.2
  parent b hb := by simpa using h.parent b hb

theorem WalkInv.visit (h : WalkInv succ entry ((node, false) :: stack) visited rpo)
    (hv : node ∉ visited) :
    WalkInv succ entry
      ((((succ node).filter (· ∉ node :: visited)).map fun s => (s, false)).reverse ++
        (node, true) :: stack) (node :: visited) rpo := by
  have hmem : ∀ b, (b, true) ∈ stack ↔ (b, true) ∈ (node, false) :: stack := by simp
  have hnot : node ∉ rpo ∧ (node, true) ∉ stack := by
    rw [h.visited_iff, not_or, ← hmem] at hv
    exact hv
  refine ⟨fun b => ?_, fun b hb s hs => ?_, ?_, ?_, ?_, fun b hb => ?_⟩
  · simp only [List.mem_cons, h.visited_iff, ← hmem]
    simp
    tauto
  · by_cases hsv : s ∈ node :: visited
    · exact .inl hsv
    · right
      rcases List.mem_cons.mp hb with rfl | hb
      · refine List.mem_append_left _ (List.mem_reverse.mpr (List.mem_map.mpr ⟨s, ?_, rfl⟩))
        exact List.mem_filter.mpr ⟨hs, by simpa using hsv⟩
      · rcases h.closed b hb s hs with hv' | hm
        · exact absurd (List.mem_cons_of_mem _ hv') hsv
        · rcases List.mem_cons.mp hm with he | hm
          · exact absurd (List.mem_cons.mpr (.inl (Prod.mk.inj he).1)) hsv
          · exact List.mem_append_right _ (List.mem_cons_of_mem _ hm)
  · have := h.once
    have hempty : ((((succ node).filter (· ∉ node :: visited)).map
        fun s => (s, false)).reverse).filter (·.2) = [] := by
      rw [List.filter_eq_nil_iff]
      intro x hx
      obtain ⟨s, _, rfl⟩ := List.mem_map.mp (List.mem_reverse.mp hx)
      simp
    rw [List.filter_append, hempty, List.nil_append, List.filter_cons_of_pos rfl, List.map_cons]
    refine List.perm_middle.nodup_iff.mpr (List.nodup_cons.mpr ⟨fun hm => ?_, by simpa using this⟩)
    rcases List.mem_append.mp hm with hm | hm
    · exact hnot.1 hm
    · obtain ⟨⟨x, fl⟩, hx, rfl⟩ := List.mem_map.mp hm
      obtain ⟨hx, hfl⟩ := List.mem_filter.mp hx
      obtain rfl : fl = true := hfl
      exact hnot.2 hx
  · rcases h.entry_seen with he | he
    · exact .inl (List.mem_cons_of_mem _ he)
    · rcases List.mem_cons.mp he with he | he
      · exact .inl (List.mem_cons.mpr (.inl (Prod.mk.inj he).1))
      · exact .inr (List.mem_append_right _ (List.mem_cons_of_mem _ he))
  · rw [← List.map_reverse]
    refine StackOk.push ⟨h.stack_ok.1, h.stack_ok.2⟩ List.mem_cons_self fun s hs => ?_
    exact (List.mem_filter.mp (List.mem_reverse.mp hs)).1
  · rcases h.parent b hb with he | ⟨u, hs, hu⟩
    · exact .inl he
    · refine .inr ⟨u, hs, ?_⟩
      rcases hu with hu | hu
      · exact .inl (List.mem_append_right _ (List.mem_cons_of_mem _ ((hmem u).mpr hu)))
      · exact .inr hu

theorem WalkInv.done (h : WalkInv succ entry [] visited rpo) : WalkDone succ entry rpo := by
  have hvis : ∀ b, b ∈ visited ↔ b ∈ rpo := fun b => by simpa using h.visited_iff b
  refine ⟨?_, fun b hb s hs => ?_, by simpa using h.once, fun b hb hne => ?_⟩
  · exact (hvis _).mp (by simpa using h.entry_seen)
  · exact (hvis _).mp (by simpa using h.closed b ((hvis b).mpr hb) s hs)
  · obtain ⟨u, hs, hu⟩ := (h.parent b hb).resolve_left hne
    obtain ⟨hu, hlt⟩ := hu.resolve_left List.not_mem_nil
    exact ⟨u, hu, hs, hlt⟩

theorem WalkInv.walk {n : Nat} {out : List BasicBlockId}
    (h : WalkInv succ entry stack visited rpo) (hw : Cfg.walk succ n stack visited rpo = some out) :
    WalkDone succ entry out := by
  induction n, stack, visited, rpo using Cfg.walk.induct succ with
  | case1 => cases hw
  | case2 n visited rpo =>
    cases hw
    exact h.done
  | case3 n visited rpo node stack ih => exact ih h.finish hw
  | case4 n visited rpo node stack hv ih =>
    rw [Cfg.walk, if_pos hv] at hw
    exact ih (h.drop hv) hw
  | case5 n visited rpo node stack hv visited' pushed ih =>
    rw [Cfg.walk, if_neg hv] at hw
    exact ih (h.visit hv) hw

end

/-! ## Immediate dominators -/

/-- `usize::MAX`. -/
def usizeMax : Nat := 2 ^ 64 - 1

/-- `*rpo_index.get(&b).unwrap_or(&usize::MAX)`. A node is in the order once. -/
def rpoIndex (rpo : List BasicBlockId) (b : BasicBlockId) : Nat :=
  if b ∈ rpo then rpo.idxOf b else usizeMax

/-- The parent, or the node itself. -/
def parentOf (idom : Idom) (b : BasicBlockId) : BasicBlockId := (idom b).getD b

/-- An inner loop of `intersect`: climb from `b1` while it is later than `b2`. -/
def climb (rank : BasicBlockId → Nat) (idom : Idom) : Nat → BasicBlockId → BasicBlockId →
    Option BasicBlockId
  | 0, _, _ => none
  | n + 1, b1, b2 =>
    if rank b1 > rank b2 then
      if parentOf idom b1 = b1 then some b1 else climb rank idom n (parentOf idom b1) b2
    else some b1

/-- `ControlFlowGraph::intersect`. -/
def intersect (rank : BasicBlockId → Nat) (idom : Idom) : Nat → BasicBlockId → BasicBlockId →
    Option BasicBlockId
  | 0, _, _ => none
  | n + 1, b1, b2 =>
    if b1 = b2 then some b1
    else do
      let c1 ← climb rank idom n b1 b2
      let c2 ← climb rank idom n b2 c1
      if parentOf idom c1 = c1 ∧ parentOf idom c2 = c2 ∧ c1 ≠ c2 then some c1
      else intersect rank idom n c1 c2

/-- The common dominator of the predecessors that are in the map. -/
def meet (rank : BasicBlockId → Nat) (idom : Idom) (n : Nat) (first : BasicBlockId)
    (others : List BasicBlockId) : Option BasicBlockId :=
  others.foldlM (fun newIdom p => intersect rank idom n p newIdom) first

/-- One node of a pass: the map after it, and whether it changed. -/
def relax (f : Function) (rank : BasicBlockId → Nat) (n : Nat) (b : BasicBlockId) (idom : Idom) :
    Option (Idom × Bool) :=
  if b = f.entryBlock then some (idom, false)
  else
    match (predecessors f b).filter (fun p => (idom p).isSome) with
    | [] => some (idom, false)
    | first :: others => do
      let newIdom ← meet rank idom n first others
      if idom b = some newIdom then some (idom, false)
      else some (Function.update idom b (some newIdom), true)

/-- One pass over the reverse post-order. -/
def pass (f : Function) (rank : BasicBlockId → Nat) (n : Nat) :
    List BasicBlockId → Idom → Option (Idom × Bool)
  | [], idom => some (idom, false)
  | b :: bs, idom => do
    let (idom, changed) ← relax f rank n b idom
    let (idom, changed') ← pass f rank n bs idom
    some (idom, changed || changed')

/-- `while changed`. -/
def passes (f : Function) (rank : BasicBlockId → Nat) (rpo : List BasicBlockId) (n : Nat) :
    Nat → Idom → Option Idom
  | 0, _ => none
  | k + 1, idom => do
    let (idom, changed) ← pass f rank n rpo idom
    if changed then passes f rank rpo n k idom else some idom

/-- `ControlFlowGraph::compute_dominance`: the map of immediate dominators. -/
def computeDominance (n : Nat) (f : Function) : Option Idom :=
  if f.blocks = [] then some fun _ => none
  else do
    let rpo ← walk (successors f) n [(f.entryBlock, false)] [] []
    passes f (rpoIndex rpo) rpo n n (Function.update (fun _ => none) f.entryBlock (some f.entryBlock))

/-- The loop of `dominates`. -/
def dominatesFrom (idom : Idom) (a : BasicBlockId) : Nat → BasicBlockId → Option Bool
  | 0, _ => none
  | n + 1, b =>
    match idom b with
    | none => some false
    | some parent =>
      if parent = a then some true
      else if parent = b then some false
      else dominatesFrom idom a n parent

/-- `ControlFlowGraph::dominates`. -/
def dominates (n : Nat) (idom : Idom) (a b : BasicBlockId) : Option Bool :=
  if a = b then some true else dominatesFrom idom a n b

theorem anc_of_dominatesFrom {idom : Idom} {a b : BasicBlockId} {n : Nat}
    (h : dominatesFrom idom a n b = some true) : Anc idom a b := by
  induction n generalizing b with
  | zero => cases h
  | succ n ih =>
    simp only [dominatesFrom] at h
    split at h
    case h_1 => cases h
    case h_2 p hp =>
      split_ifs at h with h₁ h₂
      · exact .up hp (h₁ ▸ .refl _)
      · cases h
      · exact .up hp (ih h)

theorem anc_of_dominates {idom : Idom} {a b : BasicBlockId} {n : Nat}
    (h : dominates n idom a b = some true) : Anc idom a b := by
  simp only [dominates] at h
  split_ifs at h with hab
  · exact hab ▸ .refl _
  · exact anc_of_dominatesFrom h

section
variable {f : Function} {rank : BasicBlockId → Nat} {idom idom' : Idom} {n : Nat}
  {a b b1 b2 c d first : BasicBlockId} {rpo others : List BasicBlockId}

theorem climb_anc (h : climb rank idom n b1 b2 = some c) : Anc idom c b1 := by
  induction n generalizing b1 with
  | zero => cases h
  | succ n ih =>
    simp only [climb] at h
    split_ifs at h with h₁ h₂
    · cases h; exact .refl _
    · cases hp : idom b1 with
      | none => rw [parentOf, hp] at h₂; exact absurd rfl h₂
      | some p => rw [parentOf, hp] at h; exact .up hp (ih h)
    · cases h; exact .refl _

section
variable (T : RankedTree f.entryBlock idom rank)
include T

theorem eq_entry_of_parentOf (hb : (idom b).isSome)
    (h : parentOf idom b = b) : b = f.entryBlock := by
  obtain ⟨p, hp⟩ := Option.isSome_iff_exists.mp hb
  rw [parentOf, hp] at h
  obtain rfl : p = b := h
  exact T.eq_entry_of_loop hp

/-- `intersect` finds a common ancestor. Both climbs can only be stuck at the entry. -/
theorem intersect_anc (h₁ : (idom b1).isSome)
    (h₂ : (idom b2).isSome) (h : intersect rank idom n b1 b2 = some c) :
    Anc idom c b1 ∧ Anc idom c b2 := by
  induction n generalizing b1 b2 with
  | zero => cases h
  | succ n ih =>
    simp only [intersect] at h
    split_ifs at h with heq
    · cases h
      exact ⟨.refl _, heq ▸ .refl _⟩
    · obtain ⟨c1, hc1, h⟩ := Option.bind_eq_some_iff.mp h
      obtain ⟨c2, hc2, h⟩ := Option.bind_eq_some_iff.mp h
      have ha1 := climb_anc hc1
      have ha2 := climb_anc hc2
      have hi1 := T.anc_in ha1 h₁
      have hi2 := T.anc_in ha2 h₂
      split_ifs at h with hstuck
      · have he1 := eq_entry_of_parentOf T hi1 hstuck.1
        have he2 := eq_entry_of_parentOf T hi2 hstuck.2.1
        exact absurd (he1.trans he2.symm) hstuck.2.2
      · exact ⟨(ih hi1 hi2 h).1.trans ha1, (ih hi1 hi2 h).2.trans ha2⟩

theorem meet_anc (hf : (idom first).isSome)
    (ho : ∀ p ∈ others, (idom p).isSome) (h : meet rank idom n first others = some d) :
    ∀ p ∈ first :: others, Anc idom d p := by
  induction others generalizing first with
  | nil =>
    cases h
    intro p hp
    obtain rfl := List.mem_singleton.mp hp
    exact .refl _
  | cons o os ih =>
    obtain ⟨c, hc, h⟩ := Option.bind_eq_some_iff.mp h
    have ho' := ho o List.mem_cons_self
    have hc' := intersect_anc T ho' hf hc
    have hrest := ih (T.anc_in hc'.1 ho') (fun p hp => ho p (List.mem_cons_of_mem _ hp)) h
    have hdc := hrest c List.mem_cons_self
    intro p hp
    rcases List.mem_cons.mp hp with rfl | hp
    · exact hdc.trans hc'.2
    · rcases List.mem_cons.mp hp with rfl | hp
      · exact hdc.trans hc'.1
      · exact hrest p (List.mem_cons_of_mem _ hp)

end

/-- What the passes keep. -/
structure PassInv (f : Function) (rpo : List BasicBlockId) (idom : Idom) : Prop where
  tree : RankedTree f.entryBlock idom (rpoIndex rpo)
  keys : ∀ b, (idom b).isSome → b ∈ rpo

/-- The parent of a node is an ancestor of all its predecessors in the map. -/
def Settled (f : Function) (idom : Idom) (b : BasicBlockId) : Prop :=
  b ≠ f.entryBlock → ∃ d, idom b = some d ∧
    ∀ p ∈ predecessors f b, (idom p).isSome → Anc idom d p

/-- One node of a pass, when a predecessor that comes earlier in the order is in the map. -/
theorem relax_spec {ch : Bool} (h : relax f (rpoIndex rpo) n b idom = some (idom', ch))
    (I : PassInv f rpo idom) (hb : b ∈ rpo)
    (hu : b ≠ f.entryBlock → ∃ u ∈ predecessors f b, (idom u).isSome ∧
      rpoIndex rpo u < rpoIndex rpo b) :
    PassInv f rpo idom' ∧ (idom' b).isSome ∧ (∀ x, (idom x).isSome → (idom' x).isSome) ∧
      (ch = false → idom' = idom ∧ Settled f idom b) := by
  simp only [relax] at h
  split_ifs at h with he
  · cases h
    exact ⟨I, by rw [he, I.tree.root]; rfl, fun _ => id, fun _ => ⟨rfl, fun hne => absurd he hne⟩⟩
  · obtain ⟨u, hup, hui, hul⟩ := hu he
    have hmem : ∀ p, p ∈ (predecessors f b).filter (fun p => (idom p).isSome) ↔
        p ∈ predecessors f b ∧ (idom p).isSome := fun p => by rw [List.mem_filter]
    split at h
    case h_1 hnil =>
      have := (hmem u).mpr ⟨hup, hui⟩
      rw [hnil] at this
      cases this
    case h_2 first others hcons =>
      rw [hcons] at hmem
      obtain ⟨d, hd, h⟩ := Option.bind_eq_some_iff.mp h
      have hfirst := ((hmem first).mp List.mem_cons_self).2
      have hanc := meet_anc I.tree hfirst
        (fun p hp => ((hmem p).mp (List.mem_cons_of_mem _ hp)).2) hd
      have hdi := I.tree.anc_in (hanc first List.mem_cons_self) hfirst
      have hdl : rpoIndex rpo d < rpoIndex rpo b :=
        Nat.lt_of_le_of_lt (I.tree.rank_le (hanc u ((hmem u).mpr ⟨hup, hui⟩))) hul
      split_ifs at h with hsame
      · cases h
        refine ⟨I, by rw [hsame]; rfl, fun _ => id, fun _ => ⟨rfl, fun _ => ⟨d, hsame, ?_⟩⟩⟩
        exact fun p hp hpi => hanc p ((hmem p).mpr ⟨hp, hpi⟩)
      · cases h
        refine ⟨⟨I.tree.insert he hdi hdl, fun x hx => ?_⟩, by rw [Function.update_self]; rfl,
          fun x hx => ?_, fun hf => by cases hf⟩
        · by_cases hxb : x = b
          · exact hxb ▸ hb
          · rw [Function.update_of_ne hxb] at hx
            exact I.keys x hx
        · by_cases hxb : x = b
          · rw [hxb, Function.update_self]; rfl
          · rwa [Function.update_of_ne hxb]

theorem rpoIndex_of_mem (hb : b ∈ rpo) : rpoIndex rpo b = rpo.idxOf b := if_pos hb

/-- A pass over the rest `bs` of the order, when everything before it is in the map. -/
theorem pass_spec {bs before : List BasicBlockId} {ch : Bool}
    (W : WalkDone (successors f) f.entryBlock rpo) (hsplit : rpo = before ++ bs)
    (hbefore : ∀ x ∈ before, (idom x).isSome) (I : PassInv f rpo idom)
    (h : pass f (rpoIndex rpo) n bs idom = some (idom', ch)) :
    PassInv f rpo idom' ∧ (∀ x ∈ rpo, (idom' x).isSome) ∧
      (ch = false → idom' = idom ∧ ∀ b ∈ bs, Settled f idom b) := by
  induction bs generalizing before idom ch with
  | nil =>
    cases h
    rw [List.append_nil] at hsplit
    exact ⟨I, hsplit ▸ hbefore, fun _ => ⟨rfl, fun b hb => by cases hb⟩⟩
  | cons b bs ih =>
    obtain ⟨⟨idom₁, ch₁⟩, h₁, h⟩ := Option.bind_eq_some_iff.mp h
    obtain ⟨⟨idom₂, ch₂⟩, h₂, h⟩ := Option.bind_eq_some_iff.mp h
    cases h
    have hb : b ∈ rpo := hsplit ▸ List.mem_append_right _ List.mem_cons_self
    have hu : b ≠ f.entryBlock → ∃ u ∈ predecessors f b, (idom u).isSome ∧
        rpoIndex rpo u < rpoIndex rpo b := by
      intro hne
      obtain ⟨u, hu, hs, hlt⟩ := W.parent b hb hne
      refine ⟨u, mem_predecessors.mpr hs, hbefore u ?_, by
        rwa [rpoIndex_of_mem hu, rpoIndex_of_mem hb]⟩
      -- a node with a smaller index stands before `b`
      have hnot : b ∉ before := fun hm => by
        have := W.once
        rw [hsplit] at this
        exact (List.nodup_append.mp this).2.2 b hm b List.mem_cons_self rfl
      rw [hsplit, List.idxOf_append_of_notMem hnot, List.idxOf_cons_self] at hlt
      by_contra hub
      rw [List.idxOf_append_of_notMem hub] at hlt
      omega
    obtain ⟨I₁, hb₁, hkeep, hch₁⟩ := relax_spec h₁ I hb hu
    obtain ⟨I₂, hall, hch₂⟩ := ih (show rpo = (before ++ [b]) ++ bs by simpa using hsplit)
      (fun x hx => by
        rcases List.mem_append.mp hx with hx | hx
        · exact hkeep x (hbefore x hx)
        · obtain rfl := List.mem_singleton.mp hx
          exact hb₁) I₁ h₂
    refine ⟨I₂, hall, fun hc => ?_⟩
    obtain ⟨rfl, rfl⟩ := Bool.or_eq_false_iff.mp hc
    obtain ⟨rfl, hs₁⟩ := hch₁ rfl
    obtain ⟨rfl, hs₂⟩ := hch₂ rfl
    refine ⟨rfl, fun x hx => ?_⟩
    rcases List.mem_cons.mp hx with rfl | hx
    · exact hs₁
    · exact hs₂ x hx

theorem passes_spec {k : Nat} (W : WalkDone (successors f) f.entryBlock rpo)
    (I : PassInv f rpo idom) (h : passes f (rpoIndex rpo) rpo n k idom = some idom') :
    PassInv f rpo idom' ∧ (∀ x ∈ rpo, (idom' x).isSome) ∧ ∀ b ∈ rpo, Settled f idom' b := by
  induction k generalizing idom with
  | zero => cases h
  | succ k ih =>
    obtain ⟨⟨idom₁, ch⟩, h₁, h⟩ := Option.bind_eq_some_iff.mp h
    obtain ⟨I₁, hall, hch⟩ := pass_spec W (List.nil_append rpo).symm (fun x hx => by cases hx) I h₁
    cases ch with
    | true => exact ih I₁ h
    | false =>
      cases h
      obtain ⟨rfl, hset⟩ := hch rfl
      exact ⟨I₁, hall, hset⟩

/-- **`compute_dominance` returns a dominator tree** of the blocks the entry reaches. -/
theorem dominatorTree_of_computeDominance (h : computeDominance n f = some idom)
    (hne : f.blocks ≠ []) :
    ∃ rank, DominatorTree (fun p b => b ∈ successors f p) f.entryBlock idom rank := by
  simp only [computeDominance, if_neg hne] at h
  obtain ⟨rpo, hw, h⟩ := Option.bind_eq_some_iff.mp h
  have W : WalkDone (successors f) f.entryBlock rpo := WalkInv.start.walk hw
  have I : PassInv f rpo
      (Function.update (fun _ => none) f.entryBlock (some f.entryBlock)) := by
    refine ⟨⟨Function.update_self .., fun {b p} hp hb => ?_⟩, fun b hb => ?_⟩
    · rw [Function.update_of_ne hb] at hp; cases hp
    · by_cases he : b = f.entryBlock
      · exact he ▸ W.entry_mem
      · rw [Function.update_of_ne he] at hb; cases hb
  obtain ⟨I', hall, hset⟩ := passes_spec W I h
  refine ⟨rpoIndex rpo, { I'.tree with
    edge_up := fun {p b} hp hs hb => ?_
    pred := fun {b} hi hb => ?_ }⟩
  · obtain ⟨d, hd, hanc⟩ := hset b (W.closed p (I'.keys p hp) b hs) hb
    exact ⟨d, hd, hanc p (mem_predecessors.mpr hs) hp⟩
  · obtain ⟨u, hu, hs, hlt⟩ := W.parent b (I'.keys b hi) hb
    exact ⟨u, hall u hu, hs, by rwa [rpoIndex_of_mem hu, rpoIndex_of_mem (I'.keys b hi)]⟩

end

end Cfg

end Datara.Dmir

/-!
## The fuel of the dominance computation

More fuel gives the same map, so two computations of the immediate dominators of one function that
end, end in the same map (`computeDominance_unique`).
-/

namespace Datara.Dmir.Cfg

variable {f : Function} {rank : BasicBlockId → Nat} {idom : Idom} {n m : Nat}

/-- A step of a monadic computation may be replaced by one that gives the same when it gives
something. -/
theorem bind_mono {α β : Type} {x x' : Option α} {g g' : α → Option β} {y : β}
    (hx : ∀ a, x = some a → x' = some a) (hg : ∀ a, g a = some y → g' a = some y)
    (h : x.bind g = some y) : x'.bind g' = some y := by
  obtain ⟨a, ha, h⟩ := Option.bind_eq_some_iff.mp h
  exact Option.bind_eq_some_iff.mpr ⟨a, hx a ha, hg a h⟩

section
variable (hnm : n ≤ m)
include hnm

theorem walk_mono {succ : BasicBlockId → List BasicBlockId} {stack : List (BasicBlockId × Bool)}
    {visited rpo out : List BasicBlockId} (h : walk succ n stack visited rpo = some out) :
    walk succ m stack visited rpo = some out := by
  induction n generalizing m stack visited rpo with
  | zero => simp [walk] at h
  | succ n ih =>
    obtain ⟨m, rfl⟩ : ∃ k, m = k + 1 := ⟨m - 1, by omega⟩
    have hnm : n ≤ m := by omega
    cases stack with
    | nil => exact h
    | cons top stack =>
      obtain ⟨node, entered⟩ := top
      cases entered with
      | true => exact ih (m := m) hnm h
      | false =>
        simp only [walk] at h ⊢
        split_ifs at h ⊢ <;> exact ih hnm h

theorem climb_mono {b1 b2 c : BasicBlockId} (h : climb rank idom n b1 b2 = some c) :
    climb rank idom m b1 b2 = some c := by
  induction n generalizing m b1 with
  | zero => cases h
  | succ n ih =>
    obtain ⟨m, rfl⟩ : ∃ k, m = k + 1 := ⟨m - 1, by omega⟩
    simp only [climb] at h ⊢
    split_ifs at h ⊢
    · exact h
    · exact ih (by omega) h
    · exact h

theorem intersect_mono {b1 b2 c : BasicBlockId}
    (h : intersect rank idom n b1 b2 = some c) : intersect rank idom m b1 b2 = some c := by
  induction n generalizing m b1 b2 with
  | zero => cases h
  | succ n ih =>
    obtain ⟨m, rfl⟩ : ∃ k, m = k + 1 := ⟨m - 1, by omega⟩
    have hnm : n ≤ m := by omega
    simp only [intersect] at h ⊢
    split_ifs at h ⊢ with he
    · exact h
    · refine bind_mono (fun c1 => climb_mono hnm) (fun c1 => ?_) h
      refine bind_mono (fun c2 => climb_mono hnm) fun c2 h => ?_
      split_ifs at h ⊢
      · exact h
      · exact ih hnm h

theorem meet_mono {first d : BasicBlockId} {others : List BasicBlockId}
    (h : meet rank idom n first others = some d) : meet rank idom m first others = some d := by
  induction others generalizing first with
  | nil => exact h
  | cons p others ih =>
    unfold meet at h ⊢
    rw [List.foldlM_cons] at h ⊢
    exact bind_mono (fun c => intersect_mono hnm) (fun c => ih) h

theorem relax_mono {b : BasicBlockId} {r : Idom × Bool}
    (h : relax f rank n b idom = some r) : relax f rank m b idom = some r := by
  unfold relax at h ⊢
  split_ifs at h ⊢ with hb
  · exact h
  · cases hp : (predecessors f b).filter fun p => (idom p).isSome with
    | nil => simpa only [hp] using h
    | cons first others =>
      simp only [hp] at h ⊢
      exact bind_mono (fun d => meet_mono hnm) (fun d h => h) h

theorem pass_mono {bs : List BasicBlockId} {r : Idom × Bool}
    (h : pass f rank n bs idom = some r) : pass f rank m bs idom = some r := by
  induction bs generalizing idom r with
  | nil => exact h
  | cons b bs ih =>
    refine bind_mono (fun x => relax_mono hnm) (fun x => ?_) h
    exact bind_mono (fun y => ih) fun y h => h

theorem passes_mono {rpo : List BasicBlockId} {k j : Nat} {out : Idom} (hkj : k ≤ j)
    (h : passes f rank rpo n k idom = some out) : passes f rank rpo m j idom = some out := by
  induction k generalizing j idom with
  | zero => cases h
  | succ k ih =>
    obtain ⟨j, rfl⟩ : ∃ i, j = i + 1 := ⟨j - 1, by omega⟩
    refine bind_mono (fun x => pass_mono hnm) (fun x h => ?_) h
    obtain ⟨next, changed⟩ := x
    simp only at h ⊢
    split_ifs at h ⊢
    · exact ih (by omega) h
    · exact h

theorem computeDominance_mono (h : computeDominance n f = some idom) :
    computeDominance m f = some idom := by
  unfold computeDominance at h ⊢
  split_ifs at h ⊢
  · exact h
  · exact bind_mono (fun rpo => walk_mono hnm) (fun rpo => passes_mono hnm hnm) h

end

/-- **One map.** -/
theorem computeDominance_unique {idom' : Idom} (h : computeDominance n f = some idom)
    (h' : computeDominance m f = some idom') : idom = idom' := by
  have h₁ := computeDominance_mono (Nat.le_max_left n m) h
  have h₂ := computeDominance_mono (Nat.le_max_right n m) h'
  exact Option.some.inj (h₁.symm.trans h₂)

theorem dominates_mono {a b : BasicBlockId} {v : Bool} (hnm : n ≤ m)
    (h : dominates n idom a b = some v) : dominates m idom a b = some v := by
  have from_mono : ∀ {n m : Nat} {b : BasicBlockId}, n ≤ m → dominatesFrom idom a n b = some v →
      dominatesFrom idom a m b = some v := by
    intro n
    induction n with
    | zero => intro m b _ h; cases h
    | succ n ih =>
      intro m b hnm h
      obtain ⟨m, rfl⟩ : ∃ k, m = k + 1 := ⟨m - 1, by omega⟩
      unfold dominatesFrom at h ⊢
      split at h
      case h_1 => exact h
      case h_2 =>
        split_ifs at h ⊢
        · exact h
        · exact h
        · exact ih (by omega) h
  unfold dominates at h ⊢
  split_ifs at h ⊢
  · exact h
  · exact from_mono hnm h

end Datara.Dmir.Cfg
