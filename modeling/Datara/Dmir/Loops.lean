import Datara.Dmir.Cfg
import Mathlib.Data.List.Nodup

/-!
# Natural loops

`compute_natural_loops` of `dmir/cfg.rs`: an edge into a dominator of its source is a back edge, and
the loop of its target holds the blocks that reach the source without passing the target. The two
back edges of one header make one loop.

A loop is entered through its header only (`NaturalLoop.Closed`).
-/

namespace Datara.Dmir

open Library

structure NaturalLoop where
  header : BasicBlockId
  backEdges : List BasicBlockId
  blocks : List BasicBlockId
  deriving DecidableEq, Repr

namespace Cfg

/-- Insert the predecessors that are not in the body yet, into the body and at the end of the
worklist. -/
def insertPreds : List BasicBlockId → List BasicBlockId → List BasicBlockId →
    List BasicBlockId × List BasicBlockId
  | [], body, work => (body, work)
  | p :: ps, body, work =>
    if p ∈ body then insertPreds ps body work else insertPreds ps (p :: body) (work ++ [p])

/-- The blocks that reach the worklist without passing the header, which is in the body from the
start. -/
def loopBody (f : Function) : Nat → List BasicBlockId → List BasicBlockId →
    Option (List BasicBlockId)
  | 0, _, _ => none
  | _ + 1, body, [] => some body
  | n + 1, body, m :: work =>
    let (body, work) := insertPreds (predecessors f m) body work
    loopBody f n body work

/-- Enter a back edge and its body into the loops. -/
def addLoop (n header : BasicBlockId) (body : List BasicBlockId) :
    List NaturalLoop → List NaturalLoop
  | [] => [{ header, backEdges := [n], blocks := body }]
  | l :: ls =>
    if l.header = header then
      { l with backEdges := l.backEdges ++ [n], blocks := l.blocks ++ body } :: ls
    else l :: addLoop n header body ls

/-- `ControlFlowGraph::compute_natural_loops`. -/
def naturalLoops (n : Nat) (f : Function) (idom : Idom) : Option (List NaturalLoop) :=
  let edges := f.blocks.flatMap fun b => (successors f b.id).map fun h => (b.id, h)
  edges.foldlM (fun loops e => do
    if ← dominates n idom e.2 e.1 then
      let body ← loopBody f n [e.2, e.1] (if e.1 ≠ e.2 then [e.1] else [])
      some (addLoop e.1 e.2 body loops)
    else some loops) []

/-- The loops of `ControlFlowGraph::build`. -/
def loops (n : Nat) (f : Function) : Option (List NaturalLoop) := do
  let idom ← computeDominance n f
  naturalLoops n f idom

end Cfg

/-- A loop holds its header and the sources of its back edges, and all predecessors of its other
blocks. The header dominates the blocks it holds. -/
structure NaturalLoop.Closed (f : Function) (idom : Cfg.Idom) (l : NaturalLoop) : Prop where
  header : l.header ∈ l.blocks
  backEdges : ∀ n ∈ l.backEdges, n ∈ l.blocks
  preds : ∀ b ∈ l.blocks, b ≠ l.header → ∀ p ∈ Cfg.predecessors f b, p ∈ l.blocks
  dominated : ∀ b ∈ l.blocks, (idom b).isSome → Anc idom l.header b

variable {loops : List NaturalLoop}

namespace Cfg

theorem insertPreds_spec {ps body work : List BasicBlockId} :
    (∀ b, b ∈ (insertPreds ps body work).1 ↔ b ∈ ps ∨ b ∈ body) ∧
      (∀ b ∈ work, b ∈ (insertPreds ps body work).2) ∧
      (∀ b ∈ ps, b ∈ body ∨ b ∈ (insertPreds ps body work).2) ∧
      ∀ b ∈ (insertPreds ps body work).2, b ∈ work ∨ b ∈ ps ∧ b ∉ body := by
  induction ps generalizing body work with
  | nil => simp [insertPreds]
  | cons p ps ih =>
    unfold insertPreds
    split_ifs with hp
    · obtain ⟨h₁, h₂, h₃, h₄⟩ := ih
      refine ⟨fun b => ?_, h₂, fun b hb => ?_, fun b hb => ?_⟩
      · rw [h₁, List.mem_cons]
        constructor
        · rintro (h | h)
          · exact .inl (.inr h)
          · exact .inr h
        · rintro ((rfl | h) | h)
          · exact .inr hp
          · exact .inl h
          · exact .inr h
      · rcases List.mem_cons.mp hb with rfl | hb
        · exact .inl hp
        · exact h₃ b hb
      · exact (h₄ b hb).imp_right fun h => ⟨List.mem_cons_of_mem _ h.1, h.2⟩
    · obtain ⟨h₁, h₂, h₃, h₄⟩ := ih
      refine ⟨fun b => ?_, fun b hb => h₂ b (List.mem_append_left _ hb), fun b hb => ?_,
        fun b hb => ?_⟩
      · rw [h₁, List.mem_cons, List.mem_cons]
        tauto
      · rcases List.mem_cons.mp hb with rfl | hb
        · exact .inr (h₂ b (by simp))
        · rcases h₃ b hb with h | h
          · rcases List.mem_cons.mp h with rfl | h
            · exact .inr (h₂ b (by simp))
            · exact .inl h
          · exact .inr h
      · rcases h₄ b hb with h | ⟨h, hnot⟩
        · rcases List.mem_append.mp h with h | h
          · exact .inl h
          · obtain rfl := List.mem_singleton.mp h
            exact .inr ⟨List.mem_cons_self, hp⟩
        · exact .inr ⟨List.mem_cons_of_mem _ h, fun hb => hnot (List.mem_cons_of_mem _ hb)⟩

section
variable {f : Function} {idom : Idom} {rank : BasicBlockId → Nat} {header : BasicBlockId}

/-- The state of the worklist: what is in the body, and not on the worklist or the header, has its
predecessors in the body. -/
structure BodyInv (f : Function) (idom : Idom) (head : BasicBlockId)
    (body work : List BasicBlockId) : Prop where
  header : head ∈ body
  queued : ∀ b ∈ work, b ∈ body ∧ b ≠ head
  preds : ∀ b ∈ body, b ≠ head → b ∈ work ∨ ∀ p ∈ predecessors f b, p ∈ body
  dominated : ∀ b ∈ body, (idom b).isSome → Anc idom head b

theorem BodyInv.next {m : BasicBlockId} {body work : List BasicBlockId}
    (T : DominatorTree (fun p b => b ∈ successors f p) f.entryBlock idom rank)
    (I : BodyInv f idom header body (m :: work)) :
    BodyInv f idom header (insertPreds (predecessors f m) body work).1
      (insertPreds (predecessors f m) body work).2 := by
  obtain ⟨h₁, h₂, h₃, h₄⟩ :=
    insertPreds_spec
  have hold : ∀ b ∈ body, b ≠ header → b ∈ (insertPreds (predecessors f m) body work).2 ∨
      ∀ p ∈ predecessors f b, p ∈ (insertPreds (predecessors f m) body work).1 := by
    intro b hb hne
    rcases I.preds b hb hne with hwork | hp
    · rcases List.mem_cons.mp hwork with rfl | hwork
      · exact .inr fun p hp => (h₁ p).mpr (.inl hp)
      · exact .inl (h₂ b hwork)
    · exact .inr fun p hp' => (h₁ p).mpr (.inr (hp p hp'))
  obtain ⟨hm, hne⟩ := I.queued m List.mem_cons_self
  refine ⟨(h₁ _).mpr (.inr I.header), fun b hb => ?_, fun b hb hne => ?_, fun b hb hr => ?_⟩
  · rcases h₄ b hb with hwork | ⟨hp, hnot⟩
    · obtain ⟨hb, hne⟩ := I.queued b (List.mem_cons_of_mem _ hwork)
      exact ⟨(h₁ b).mpr (.inr hb), hne⟩
    · exact ⟨(h₁ b).mpr (.inl hp), fun he => hnot (he ▸ I.header)⟩
  · rcases (h₁ b).mp hb with hnew | hb
    · rcases h₃ b hnew with hb | hwork
      · exact hold b hb hne
      · exact .inl hwork
    · exact hold b hb hne
  · rcases (h₁ b).mp hb with hp | hb
    · have hedge := mem_predecessors.mp hp
      exact T.anc_of_edge hr hedge (I.dominated m hm (T.closed hr hedge)) (Ne.symm hne)
    · exact I.dominated b hb hr

theorem loopBody_spec {n : Nat} {body work out : List BasicBlockId}
    (T : DominatorTree (fun p b => b ∈ successors f p) f.entryBlock idom rank)
    (h : loopBody f n body work = some out) (I : BodyInv f idom header body work) :
    (∀ b ∈ body, b ∈ out) ∧ BodyInv f idom header out [] := by
  induction n generalizing body work with
  | zero => cases h
  | succ n ih =>
    cases work with
    | nil =>
      cases h
      exact ⟨fun b hb => hb, I⟩
    | cons m work =>
      obtain ⟨hin, hout⟩ := ih h (I.next T)
      exact ⟨fun b hb => hin b (insertPreds_spec.1 b |>.mpr (.inr hb)), hout⟩

theorem addLoop_closed {n : BasicBlockId} {body : List BasicBlockId}
    (hloops : ∀ l ∈ loops, l.Closed f idom) (hn : n ∈ body) (I : BodyInv f idom header body []) :
    ∀ l ∈ addLoop n header body loops, l.Closed f idom := by
  have hpreds : ∀ b ∈ body, b ≠ header → ∀ p ∈ predecessors f b, p ∈ body :=
    fun b hb hne => (I.preds b hb hne).resolve_left List.not_mem_nil
  induction loops with
  | nil =>
    intro l hl
    obtain rfl := List.mem_singleton.mp hl
    exact ⟨I.header, fun m hm => List.mem_singleton.mp hm ▸ hn, hpreds, I.dominated⟩
  | cons k loops ih =>
    obtain ⟨hk, hrest⟩ := List.forall_mem_cons.mp hloops
    unfold addLoop
    split_ifs with hh
    · subst hh
      refine List.forall_mem_cons.mpr ⟨⟨?_, ?_, ?_, ?_⟩, hrest⟩
      · exact List.mem_append_left _ hk.header
      · intro m hm
        rcases List.mem_append.mp hm with hm | hm
        · exact List.mem_append_left _ (hk.backEdges m hm)
        · exact List.mem_append_right _ (List.mem_singleton.mp hm ▸ hn)
      · intro b hb hne p hp
        rcases List.mem_append.mp hb with hb | hb
        · exact List.mem_append_left _ (hk.preds b hb hne p hp)
        · exact List.mem_append_right _ (hpreds b hb hne p hp)
      · intro b hb hr
        rcases List.mem_append.mp hb with hb | hb
        · exact hk.dominated b hb hr
        · exact I.dominated b hb hr
    · exact List.forall_mem_cons.mpr ⟨hk, ih hrest⟩

/-- What holds of no loops, and goes on holding as the bodies of back edges are entered, holds of the loops. -/
theorem naturalLoops_rule {n : Nat} {motive : List NaturalLoop → Prop}
    (h : naturalLoops n f idom = some loops) (nil : motive [])
    (add : ∀ (e : BasicBlockId × BasicBlockId) (body : List BasicBlockId) (start : List NaturalLoop),
      e.2 ∈ successors f e.1 → Anc idom e.2 e.1 →
      loopBody f n [e.2, e.1] (if e.1 ≠ e.2 then [e.1] else []) = some body → motive start →
      motive (addLoop e.1 e.2 body start)) : motive loops := by
  have hedges : ∀ e ∈ f.blocks.flatMap (fun b => (successors f b.id).map fun h => (b.id, h)),
      e.2 ∈ successors f e.1 := by
    intro e he
    obtain ⟨b, -, he⟩ := List.mem_flatMap.mp he
    obtain ⟨s, hs, rfl⟩ := List.mem_map.mp he
    exact hs
  rw [naturalLoops] at h
  generalize f.blocks.flatMap (fun b => (successors f b.id).map fun h => (b.id, h)) = edges at h hedges
  generalize ([] : List NaturalLoop) = start at h nil
  induction edges generalizing start with
  | nil =>
    cases h
    exact nil
  | cons e edges ih =>
    obtain ⟨hedge, hrest⟩ := List.forall_mem_cons.mp hedges
    rw [List.foldlM_cons] at h
    obtain ⟨next, hnext, h⟩ := Option.bind_eq_some_iff.mp h
    refine ih hrest next h ?_
    obtain ⟨back, hback, hnext⟩ := Option.bind_eq_some_iff.mp hnext
    cases back with
    | false =>
      cases hnext
      exact nil
    | true =>
      obtain ⟨body, hbody, hnext⟩ := Option.bind_eq_some_iff.mp hnext
      cases hnext
      exact add e body start hedge (anc_of_dominates hback) hbody nil

/-- **A loop is entered through its header.** -/
theorem naturalLoops_closed {n : Nat}
    (T : DominatorTree (fun p b => b ∈ successors f p) f.entryBlock idom rank)
    (h : naturalLoops n f idom = some loops) : ∀ l ∈ loops, l.Closed f idom := by
  refine naturalLoops_rule (motive := fun ls => ∀ l ∈ ls, l.Closed f idom) h (fun l hl => absurd hl List.not_mem_nil)
    fun e body start _ hdom hbody hstart => ?_
  have I : BodyInv f idom e.2 [e.2, e.1] (if e.1 ≠ e.2 then [e.1] else []) := by
    refine ⟨List.mem_cons_self, fun b hb => ?_, fun b hb hne => ?_, fun b hb _ => ?_⟩
    · split_ifs at hb with hne
      · obtain rfl := List.mem_singleton.mp hb
        exact ⟨List.mem_cons_of_mem _ hb, hne⟩
      · cases hb
    · obtain rfl := (List.mem_pair.mp hb).resolve_left hne
      exact .inl (by simp [hne])
    · rcases List.mem_pair.mp hb with rfl | rfl
      · exact .refl _
      · exact hdom
  obtain ⟨hin, hout⟩ := loopBody_spec T hbody I
  exact addLoop_closed hstart (hin _ (by simp)) hout

end

end Cfg

/-! ## Back edges -/

variable {l : NaturalLoop}

namespace Cfg

section
variable {f : Function} {idom : Idom} {n : Nat} {a b : BasicBlockId}

theorem eq_of_anc_root (hb : idom b = some b) (h : Anc idom a b) : a = b := by
  induction h with
  | refl => rfl
  | up hp _ ih =>
    cases hb.symm.trans hp
    exact ih hb

theorem dominates_of_anc {v : Bool} (h : dominates n idom a b = some v) (ha : Anc idom a b) : v = true := by
  unfold dominates at h
  split_ifs at h with hab
  · exact (Option.some.inj h).symm
  · induction n generalizing b with
    | zero => cases h
    | succ n ih =>
      unfold dominatesFrom at h
      split at h
      case h_1 hnone =>
        cases ha with
        | refl => exact absurd rfl hab
        | up hp _ => rw [hnone] at hp; cases hp
      case h_2 p hp =>
        split_ifs at h with h₁ h₂
        · exact (Option.some.inj h).symm
        · exact absurd (eq_of_anc_root (h₂ ▸ hp) ha) hab
        · exact ih (ha.of_parent hp hab) (fun he => h₁ he.symm) h

theorem addLoop_spec (n header : BasicBlockId) (body : List BasicBlockId) (loops : List NaturalLoop) :
    (∀ l ∈ loops, ∃ l' ∈ addLoop n header body loops, l'.header = l.header ∧
        l.backEdges ⊆ l'.backEdges) ∧
      (∃ l ∈ addLoop n header body loops, l.header = header ∧ n ∈ l.backEdges) ∧
      ((loops.map (·.header)).Nodup → ((addLoop n header body loops).map (·.header)).Nodup) ∧
      ∀ x ∈ (addLoop n header body loops).map (·.header), x = header ∨ x ∈ loops.map (·.header) := by
  induction loops with
  | nil => simp [addLoop]
  | cons k loops ih =>
    unfold addLoop
    split_ifs with hh
    · refine ⟨fun l hl => ?_, ⟨_, List.mem_cons_self, hh, by simp⟩, fun hnd => by simpa using hnd,
        fun x hx => .inr (by simpa using hx)⟩
      rcases List.mem_cons.mp hl with rfl | hl
      · exact ⟨_, List.mem_cons_self, rfl, List.subset_append_left _ _⟩
      · exact ⟨l, List.mem_cons_of_mem _ hl, rfl, List.Subset.refl _⟩
    · obtain ⟨h₁, ⟨l, hl, hlh, hn⟩, h₃, h₄⟩ := ih
      refine ⟨fun l hl => ?_, ⟨l, List.mem_cons_of_mem _ hl, hlh, hn⟩, fun hnd => ?_, fun x hx => ?_⟩
      · rcases List.mem_cons.mp hl with rfl | hl
        · exact ⟨l, List.mem_cons_self, rfl, List.Subset.refl _⟩
        · obtain ⟨l', hl', hrest⟩ := h₁ l hl
          exact ⟨l', List.mem_cons_of_mem _ hl', hrest⟩
      · obtain ⟨hk, hnd⟩ := List.nodup_cons.mp hnd
        refine List.nodup_cons.mpr ⟨fun hm => ?_, h₃ hnd⟩
        rcases h₄ _ hm with he | hm
        · exact hh he
        · exact hk hm
      · rcases List.mem_cons.mp hx with rfl | hx
        · exact .inr List.mem_cons_self
        · exact (h₄ x hx).imp_right (List.mem_cons_of_mem _)

/-- The loops have a header each, and every edge into a dominator is a back edge of one of them. -/
theorem naturalLoops_spec (h : naturalLoops n f idom = some loops) : (loops.map (·.header)).Nodup ∧
    ∀ b ∈ f.blocks, ∀ s ∈ successors f b.id, Anc idom s b.id → ∃ l ∈ loops, l.header = s ∧ b.id ∈ l.backEdges := by
  suffices hfold : ∀ (edges : List (BasicBlockId × BasicBlockId)) (start : List NaturalLoop),
      edges.foldlM (fun loops e => do
        if ← dominates n idom e.2 e.1 then
          let body ← loopBody f n [e.2, e.1] (if e.1 ≠ e.2 then [e.1] else [])
          some (addLoop e.1 e.2 body loops)
        else some loops) start = some loops → (start.map (·.header)).Nodup →
      (loops.map (·.header)).Nodup ∧
        (∀ k ∈ start, ∃ l ∈ loops, l.header = k.header ∧ k.backEdges ⊆ l.backEdges) ∧
        ∀ e ∈ edges, Anc idom e.2 e.1 → ∃ l ∈ loops, l.header = e.2 ∧ e.1 ∈ l.backEdges by
    obtain ⟨hnd, -, hall⟩ := hfold _ [] h List.nodup_nil
    exact ⟨hnd, fun b hb s hs => hall (b.id, s) (List.mem_flatMap.mpr ⟨b, hb, List.mem_map_of_mem hs⟩)⟩
  intro edges
  induction edges with
  | nil =>
    intro start h hnd
    cases h
    exact ⟨hnd, fun k hk => ⟨k, hk, rfl, List.Subset.refl _⟩, fun e he => by cases he⟩
  | cons e edges ih =>
    intro start h hnd
    rw [List.foldlM_cons] at h
    obtain ⟨next, hnext, h⟩ := Option.bind_eq_some_iff.mp h
    obtain ⟨back, hback, hnext⟩ := Option.bind_eq_some_iff.mp hnext
    cases back with
    | false =>
      cases hnext
      obtain ⟨h₁, h₂, h₃⟩ := ih start h hnd
      refine ⟨h₁, h₂, fun x hx hax => ?_⟩
      rcases List.mem_cons.mp hx with rfl | hx
      · exact absurd (dominates_of_anc hback hax) Bool.false_ne_true
      · exact h₃ x hx hax
    | true =>
      obtain ⟨body, -, hnext⟩ := Option.bind_eq_some_iff.mp hnext
      cases hnext
      obtain ⟨hkeep, ⟨k, hk, hkh, hkn⟩, hnd', -⟩ := addLoop_spec e.1 e.2 body start
      obtain ⟨h₁, h₂, h₃⟩ := ih _ h (hnd' hnd)
      refine ⟨h₁, fun j hj => ?_, fun x hx hax => ?_⟩
      · obtain ⟨j', hj', hh, hsub⟩ := hkeep j hj
        obtain ⟨l, hl, hlh, hsub'⟩ := h₂ j' hj'
        exact ⟨l, hl, hlh.trans hh, fun x hx => hsub' (hsub hx)⟩
      · rcases List.mem_cons.mp hx with rfl | hx
        · obtain ⟨l, hl, hlh, hsub⟩ := h₂ k hk
          exact ⟨l, hl, hlh.trans hkh, hsub hkn⟩
        · exact h₃ x hx hax

/-- **Every edge into a dominator is a back edge** of the one loop that has the target as its header. -/
theorem naturalLoops_backEdge (h : naturalLoops n f idom = some loops)
    (hl : l ∈ loops) {b : BasicBlock} (hb : b ∈ f.blocks)
    (hs : l.header ∈ successors f b.id) (ha : Anc idom l.header b.id) : b.id ∈ l.backEdges := by
  obtain ⟨hnd, hall⟩ := naturalLoops_spec h
  obtain ⟨l', hl', hh, hback⟩ := hall b hb l.header hs ha
  rwa [List.inj_on_of_nodup_map hnd hl' hl hh] at hback

end

end Cfg

theorem NaturalLoop.Closed.entry_notMem {f : Function} {idom : Cfg.Idom}
    {rank : BasicBlockId → Nat}
    (T : DominatorTree (fun p b => b ∈ Cfg.successors f p) f.entryBlock idom rank)
    (h : l.Closed f idom) (hne : l.header ≠ f.entryBlock) : f.entryBlock ∉ l.blocks := fun hm =>
  hne (T.anc_entry (h.dominated _ hm (by rw [T.root]; rfl)))

theorem Cfg.closed_of_loops {n m : Nat} {f : Function} {idom : Cfg.Idom} {ls : List NaturalLoop}
    (hne : f.blocks ≠ []) (hidom : Cfg.computeDominance m f = some idom)
    (h : Cfg.loops n f = some ls) : ∀ l ∈ ls, l.Closed f idom := by
  obtain ⟨idom', hidom', h⟩ := Option.bind_eq_some_iff.mp h
  obtain rfl := computeDominance_unique hidom hidom'
  obtain ⟨rank, T⟩ := dominatorTree_of_computeDominance hidom hne
  exact naturalLoops_closed T h

/-- What holds of the loops of a function: a loop is entered through its header, from outside only if
it is not the entry block, and what leads back to the header from inside is a back edge. -/
theorem Cfg.loops_closed {n m : Nat} {f : Function} {idom : Cfg.Idom} {ls : List NaturalLoop}
    (hne : f.blocks ≠ []) (hidom : Cfg.computeDominance m f = some idom)
    (h : Cfg.loops n f = some ls) (hl : l ∈ ls) (hentry : l.header ≠ f.entryBlock) :
    l.Closed f idom ∧ f.entryBlock ∉ l.blocks ∧
      ∀ b ∈ f.blocks, b.id ∈ l.blocks → (idom b.id).isSome → l.header ∈ Cfg.successors f b.id →
        b.id ∈ l.backEdges := by
  obtain ⟨idom', hidom', h⟩ := Option.bind_eq_some_iff.mp h
  obtain rfl := computeDominance_unique hidom hidom'
  obtain ⟨rank, T⟩ := dominatorTree_of_computeDominance hidom hne
  have hclosed := naturalLoops_closed T h l hl
  exact ⟨hclosed, hclosed.entry_notMem T hentry, fun b hb hbl hr hs =>
    naturalLoops_backEdge h hl hb hs (hclosed.dominated b.id hbl hr)⟩

end Datara.Dmir
