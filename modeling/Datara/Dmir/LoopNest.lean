import Datara.Dmir.Frontiers
import Datara.Dmir.Loops

/-!
# Loops next to each other

What `compute_natural_loops` of `dmir/cfg.rs` finds, loop by loop: two loops of a function are one in the other, or
share no block that the entry reaches. A block of a loop leads to the header through the loop, and a block that leads
to it from below the header is in the loop as well.
-/

namespace Datara.Dmir

open Library

/-- Every block leads to the header through the loop. -/
def NaturalLoop.Leads (f : Function) (head : BasicBlockId) (body : List BasicBlockId) : Prop :=
  ∀ b ∈ body, Relation.ReflTransGen (fun c s => s ∈ Cfg.successors f c ∧ s ∈ body) b head

namespace Cfg

variable {f : Function} {idom : Idom} {rank : BasicBlockId → Nat} {header : BasicBlockId} {n : Nat}
  {body work out : List BasicBlockId} {ls : List NaturalLoop}

open NaturalLoop (Leads)

theorem leads_mono {b : BasicBlockId} {body' : List BasicBlockId} (hsub : ∀ x ∈ body, x ∈ body')
    (h : Relation.ReflTransGen (fun c s => s ∈ successors f c ∧ s ∈ body) b header) :
    Relation.ReflTransGen (fun c s => s ∈ successors f c ∧ s ∈ body') b header := by
  induction h with
  | refl => exact .refl
  | tail _ hs ih => exact ih.tail ⟨hs.1, hsub _ hs.2⟩

theorem leads_insertPreds {m : BasicBlockId} (h : Leads f header body) (hm : m ∈ body) :
    Leads f header (insertPreds (predecessors f m) body work).1 := by
  have hsub : ∀ x ∈ body, x ∈ (insertPreds (predecessors f m) body work).1 := fun x hx =>
    (insertPreds_spec.1 x).mpr (.inr hx)
  intro b hb
  rcases (insertPreds_spec.1 b).mp hb with hp | hb
  · exact .head ⟨mem_predecessors.mp hp, hsub m hm⟩ (leads_mono hsub (h m hm))
  · exact leads_mono hsub (h b hb)

theorem leads_loopBody (h : Leads f header body) (hwork : ∀ b ∈ work, b ∈ body)
    (hout : loopBody f n body work = some out) : Leads f header out := by
  induction n generalizing body work with
  | zero => cases hout
  | succ n ih =>
    cases work with
    | nil =>
      cases hout
      exact h
    | cons m work =>
      refine ih (leads_insertPreds h (hwork m List.mem_cons_self)) (fun b hb => ?_) hout
      refine (insertPreds_spec.1 b).mpr ?_
      rcases insertPreds_spec.2.2.2 b hb with hb | hb
      · exact .inr (hwork b (List.mem_cons_of_mem _ hb))
      · exact .inl hb.1

theorem leads_addLoop (hls : ∀ l ∈ ls, Leads f l.header l.blocks) (h : Leads f header body) :
    ∀ l ∈ addLoop n header body ls, Leads f l.header l.blocks := by
  induction ls with
  | nil =>
    intro l hl
    obtain rfl := List.mem_singleton.mp hl
    exact h
  | cons k ls ih =>
    obtain ⟨hk, hrest⟩ := List.forall_mem_cons.mp hls
    unfold addLoop
    split_ifs with hh
    · subst hh
      refine List.forall_mem_cons.mpr ⟨fun b hb => ?_, hrest⟩
      rcases List.mem_append.mp hb with hb | hb
      · exact leads_mono (fun _ => List.mem_append_left _) (hk b hb)
      · exact leads_mono (fun _ => List.mem_append_right _) (h b hb)
    · exact List.forall_mem_cons.mpr ⟨hk, ih hrest⟩

/-- The loops of a function lead to their headers. -/
theorem naturalLoops_leads (h : naturalLoops n f idom = some ls) : ∀ l ∈ ls, Leads f l.header l.blocks := by
  refine naturalLoops_rule (motive := fun ls => ∀ l ∈ ls, Leads f l.header l.blocks) h
    (fun l hl => absurd hl List.not_mem_nil) fun e body start hedge _ hbody hstart => leads_addLoop hstart ?_
  refine leads_loopBody (fun b hb => ?_) (fun b hb => ?_) hbody
  · rcases List.mem_pair.mp hb with rfl | rfl
    · exact .refl
    · exact .single ⟨hedge, List.mem_cons_self⟩
  · split_ifs at hb
    · exact List.mem_cons_of_mem _ hb
    · cases hb

/-- The header of a loop has an edge from a block that it dominates. -/
theorem naturalLoops_source (h : naturalLoops n f idom = some ls) :
    ∀ x ∈ ls.map (·.header), ∃ p, x ∈ successors f p ∧ Anc idom x p :=
  naturalLoops_rule (motive := fun ls => ∀ x ∈ ls.map (·.header), ∃ p, x ∈ successors f p ∧ Anc idom x p) h
    (fun x hx => absurd hx List.not_mem_nil) fun e body start hedge hanc _ hstart x hx => by
      rcases (addLoop_spec e.1 e.2 body start).2.2.2 x hx with rfl | hx
      · exact ⟨e.1, hedge, hanc⟩
      · exact hstart x hx

/-! ## The search ends -/

theorem insertPreds_length {nodes ps : List BasicBlockId} (hps : ∀ p ∈ ps, p ∈ nodes) :
    (nodes.filter (· ∉ (insertPreds ps body work).1)).length + (insertPreds ps body work).2.length ≤
      (nodes.filter (· ∉ body)).length + work.length := by
  induction ps generalizing body work with
  | nil => exact Nat.le_refl _
  | cons p ps ih =>
    obtain ⟨hp, hps⟩ := List.forall_mem_cons.mp hps
    unfold insertPreds
    split_ifs with hin
    · exact ih hps
    · have hrest := @ih (p :: body) (work ++ [p]) hps
      have hlt := unvisited_lt hp hin
      rw [List.length_append, List.length_singleton] at hrest
      omega

/-- A block that is taken from the worklist is gone from it, and one that is entered is not entered again. -/
theorem loopBody_total (hn : ((f.blocks.map (·.id)).filter (· ∉ body)).length + work.length < n) :
    ∃ out, loopBody f n body work = some out := by
  induction n generalizing body work with
  | zero => exact absurd hn (Nat.not_lt_zero _)
  | succ n ih =>
    cases work with
    | nil => exact ⟨body, rfl⟩
    | cons m work =>
      have hpreds : ∀ p ∈ predecessors f m, p ∈ f.blocks.map (·.id) := by
        intro p hp
        obtain ⟨b, hb, hp⟩ := List.mem_flatMap.mp hp
        obtain ⟨s, -, rfl⟩ := List.mem_map.mp hp
        exact List.mem_map_of_mem hb
      have hle := @insertPreds_length body work _ _ hpreds
      rw [List.length_cons] at hn
      exact ih (by omega)

theorem naturalLoops_total (T : RankedTree f.entryBlock idom rank) (hrank : ∀ b, (idom b).isSome → rank b < n)
    (hn : f.blocks.length + 1 < n) : ∃ ls, naturalLoops n f idom = some ls := by
  rw [naturalLoops]
  generalize f.blocks.flatMap (fun b => (successors f b.id).map fun h => (b.id, h)) = edges
  generalize ([] : List NaturalLoop) = start
  induction edges generalizing start with
  | nil => exact ⟨start, rfl⟩
  | cons e edges ih =>
    obtain ⟨v, hv⟩ : ∃ v, dominates n idom e.2 e.1 = some v := by
      cases hin : idom e.1 with
      | some p =>
        have hsome : (idom e.1).isSome := by rw [hin]; rfl
        obtain ⟨v, hv, -⟩ := dominates_iff_anc (a := e.2) T hsome (hrank _ hsome)
        exact ⟨v, hv⟩
      | none =>
        obtain ⟨k, rfl⟩ : ∃ k, n = k + 1 := ⟨n - 1, by omega⟩
        by_cases he : e.2 = e.1
        · exact ⟨true, if_pos he⟩
        · refine ⟨false, (if_neg he).trans ?_⟩
          rw [dominatesFrom, hin]
    obtain ⟨body, hbody⟩ : ∃ body, loopBody f n [e.2, e.1] (if e.1 ≠ e.2 then [e.1] else []) = some body := by
      refine loopBody_total (Nat.lt_of_le_of_lt ?_ hn)
      have hle := List.length_filter_le (· ∉ [e.2, e.1]) (f.blocks.map (·.id))
      rw [List.length_map] at hle
      split_ifs <;> simp only [List.length_singleton, List.length_nil] <;> omega
    rw [List.foldlM_cons]
    cases v with
    | true =>
      obtain ⟨ls, hls⟩ := ih (addLoop e.1 e.2 body start)
      refine ⟨ls, ?_⟩
      simp only [hv, hbody, Option.bind_eq_bind, Option.bind_some, if_true]
      exact hls
    | false =>
      obtain ⟨ls, hls⟩ := ih start
      refine ⟨ls, ?_⟩
      simp only [hv, Option.bind_eq_bind, Option.bind_some, Bool.false_eq_true, if_false]
      exact hls

/-- The dominators and the loops of a function that has blocks. -/
theorem loops_total (f : Function) (hne : f.blocks ≠ []) : ∃ n ls idom rank node, loops n f = some ls ∧
    naturalLoops n f idom = some ls ∧ FlowOrder (Edge f) f.entryBlock rank node ∧
      Approx (Edge f) f.entryBlock rank node idom ∧ Round (Edge f) f.entryBlock rank node idom idom := by
  obtain ⟨n, idom, rank, node, hcompute, O, H, R, hn⟩ := computeDominance_total f hne
  obtain ⟨ls, hls⟩ : ∃ ls, naturalLoops (max n (f.blocks.length + 2)) f idom = some ls :=
    naturalLoops_total R.tree (fun b hb => lt_max_of_lt_left (hn b (R.isSome_iff.mp hb))) (by omega)
  refine ⟨_, ls, idom, rank, node, ?_, hls, O, H, R⟩
  rw [loops, computeDominance_mono (Nat.le_max_left _ _) hcompute]
  exact hls

theorem loops_nil (hnil : f.blocks = []) : loops n f = some [] := by
  rw [loops, computeDominance, if_pos hnil, Option.bind_eq_bind, Option.bind_some, naturalLoops, hnil]
  rfl

end Cfg

/-! ## Nesting -/

section
variable {f : Function} {idom : Cfg.Idom} {rank : BasicBlockId → Nat} {l l₁ l₂ : NaturalLoop} {b d : BasicBlockId}

/-- What lies between the header of a loop and a block of it is in the loop. -/
theorem NaturalLoop.Closed.mem_of_anc (T : DominatorTree (fun p b => b ∈ Cfg.successors f p) f.entryBlock idom rank)
    (h : l.Closed f idom) (hb : b ∈ l.blocks) (hr : (idom b).isSome) (hd : Anc idom d b) (hh : Anc idom l.header d)
    (hne : l.header ≠ d) : d ∈ l.blocks := by
  induction hk : rank b using Nat.strongRecOn generalizing b with
  | ind k ih =>
    subst hk
    by_cases hbd : b = d
    · exact hbd ▸ hb
    · have hhead : b ≠ l.header := by
        rintro rfl
        exact hne (T.antisymm hh hd)
      have hentry : b ≠ f.entryBlock := by
        rintro rfl
        exact hbd (T.anc_entry hd).symm
      obtain ⟨p, hp, hedge, hlt⟩ := T.pred hr hentry
      exact ih _ hlt (h.preds b hb hhead p (Cfg.mem_predecessors.mpr hedge)) hp
        (T.anc_of_edge hp hedge hd (Ne.symm hbd)) rfl

/-- A loop that shares a block with one whose header is above its own is inside that one. -/
theorem NaturalLoop.Closed.subset_of_anc
    (T : DominatorTree (fun p b => b ∈ Cfg.successors f p) f.entryBlock idom rank) (h₁ : l₁.Closed f idom)
    (h₂ : l₂.Closed f idom) (hleads : Leads f l₂.header l₂.blocks) (hb₁ : b ∈ l₁.blocks) (hb₂ : b ∈ l₂.blocks)
    (hr : (idom b).isSome) (ha : Anc idom l₁.header l₂.header) (hne : l₁.header ≠ l₂.header) :
    l₂.blocks ⊆ l₁.blocks := by
  intro c hc
  induction hleads c hc using Relation.ReflTransGen.head_induction_on with
  | refl => exact h₁.mem_of_anc T hb₁ hr (h₂.dominated b hb₂ hr) ha hne
  | @head c s hstep _ ih =>
    have hhead : s ≠ l₁.header := by
      rintro rfl
      exact hne (T.antisymm ha (h₂.dominated _ hstep.2 (T.anc_in (h₁.dominated b hb₁ hr) hr)))
    exact h₁.preds s (ih hstep.2) hhead c (Cfg.mem_predecessors.mpr hstep.1)

end

/-- **The loops of a function are nested.** The search for them ends; no two have one header; and of two that share a
block that the entry reaches, one holds all blocks of the other. -/
theorem Cfg.loops_nested (f : Function) : ∃ n ls, Cfg.loops n f = some ls ∧ (ls.map (·.header)).Nodup ∧
    ∀ l₁ ∈ ls, ∀ l₂ ∈ ls, ∀ b ∈ l₁.blocks, b ∈ l₂.blocks → Relation.ReflTransGen (Edge f) f.entryBlock b →
      l₁.blocks ⊆ l₂.blocks ∨ l₂.blocks ⊆ l₁.blocks := by
  by_cases hne : f.blocks = []
  · exact ⟨0, [], loops_nil hne, List.nodup_nil, fun l hl => absurd hl List.not_mem_nil⟩
  · obtain ⟨n, ls, idom, rank, node, hloops, hls, O, -, R⟩ := loops_total f hne
    have T := R.dominatorTree O
    obtain ⟨hnodup, -⟩ := naturalLoops_spec hls
    have hleads := naturalLoops_leads hls
    refine ⟨n, ls, hloops, hnodup, fun l₁ hl₁ l₂ hl₂ b hb₁ hb₂ hreach => ?_⟩
    have hr : (idom b).isSome := R.isSome_iff.mpr (O.of_reaches hreach)
    have h₁ := naturalLoops_closed T hls l₁ hl₁
    have h₂ := naturalLoops_closed T hls l₂ hl₂
    by_cases hhead : l₁.header = l₂.header
    · rw [List.inj_on_of_nodup_map hnodup hl₁ hl₂ hhead]
      exact .inl (List.Subset.refl _)
    · rcases (h₁.dominated b hb₁ hr).total (h₂.dominated b hb₂ hr) with ha | ha
      · exact .inr (h₁.subset_of_anc T h₂ (hleads l₂ hl₂) hb₁ hb₂ hr ha hhead)
      · exact .inl (h₂.subset_of_anc T h₁ (hleads l₁ hl₁) hb₂ hb₁ hr ha (Ne.symm hhead))

/-! ## What a loop holds -/

/-- A block that leads to the header through the loop leads to the source of an edge into the header first. -/
theorem NaturalLoop.Leads.source {f : Function} {h b : BasicBlockId} {body : List BasicBlockId}
    (hleads : Leads f h body) (hb : b ∈ body) (hne : b ≠ h) : ∃ p ∈ body, Cfg.Edge f p h ∧
      Relation.ReflTransGen (fun c s => Cfg.Edge f c s ∧ s ≠ h) b p := by
  have hpath := hleads b hb
  induction hpath using Relation.ReflTransGen.head_induction_on with
  | refl => exact absurd rfl hne
  | @head c s hstep _ ih =>
    by_cases hs : s = h
    · exact ⟨c, hb, hs ▸ hstep.1, .refl⟩
    · obtain ⟨p, hp, hedge, hpath⟩ := ih hstep.2 hs
      exact ⟨p, hp, hedge, .head ⟨hstep.1, hs⟩ hpath⟩

/-- **The loops are exact.** The search for them ends; and a block that the entry reaches is in a loop with a header
exactly when it is the header of a back edge, or leads to the source of one without passing the header. A back edge
comes from a block that the entry reaches only by way of its target. -/
theorem Cfg.loops_exact (f : Function) : ∃ n ls, Cfg.loops n f = some ls ∧
    ∀ h b, Relation.ReflTransGen (Edge f) f.entryBlock b → ((∃ l ∈ ls, l.header = h ∧ b ∈ l.blocks) ↔
      ∃ p, Edge f p h ∧ Relation.ReflTransGen (Edge f) f.entryBlock p ∧ OnEveryPath f h p ∧
        (b = h ∨ Relation.ReflTransGen (fun c s => Edge f c s ∧ s ≠ h) b p)) := by
  by_cases hne : f.blocks = []
  · refine ⟨0, [], loops_nil hne, fun h b _ => iff_of_false (fun ⟨l, hl, _⟩ => absurd hl List.not_mem_nil) ?_⟩
    rintro ⟨p, hedge, -⟩
    rw [Edge, successors, hne] at hedge
    cases hedge
  obtain ⟨n, ls, idom, rank, node, hloops, hls, O, H, R⟩ := loops_total f hne
  have T := R.dominatorTree O
  have hanc : ∀ {a b}, (idom b).isSome → (Anc idom a b ↔ OnEveryPath f a b) := fun hb =>
    (R.anc_iff H O (R.isSome_iff.mp hb)).trans not_avoids_iff
  refine ⟨n, ls, hloops, fun h b hreach => ⟨?_, ?_⟩⟩
  · rintro ⟨l, hl, rfl, hb⟩
    obtain ⟨p, hedge, hp, ha, hpath⟩ : ∃ p, Edge f p l.header ∧ (idom p).isSome ∧ Anc idom l.header p ∧
        (b = l.header ∨ Relation.ReflTransGen (fun c s => Edge f c s ∧ s ≠ l.header) b p) := by
      by_cases hbh : b = l.header
      · obtain ⟨p, hedge, ha⟩ := naturalLoops_source hls _ (List.mem_map_of_mem hl)
        refine ⟨p, hedge, ?_, ha, .inl hbh⟩
        cases ha with
        | refl => exact T.isSome_iff.mpr (hbh ▸ hreach)
        | up hp _ => exact Option.isSome_of_mem hp
      · obtain ⟨p, hp, hedge, hpath⟩ := (naturalLoops_leads hls l hl).source hb hbh
        have hr : (idom p).isSome := T.isSome_iff.mpr (hreach.trans (Relation.ReflTransGen.mono (fun _ _ h => h.1) _ _ hpath))
        exact ⟨p, hedge, hr, (naturalLoops_closed T hls l hl).dominated p hp hr, .inr hpath⟩
    exact ⟨p, hedge, T.isSome_iff.mp hp, (hanc hp).mp ha, hpath⟩
  · rintro ⟨p, hedge, hp, hon, hpath⟩
    obtain ⟨bl, hbl, hs⟩ := List.mem_flatMap.mp hedge
    obtain ⟨hmem, hid⟩ := List.mem_filter.mp hbl
    obtain rfl : bl.id = p := by simpa using hid
    obtain ⟨l, hl, rfl, hback⟩ :=
      (naturalLoops_spec hls).2 bl hmem h hedge ((hanc (T.isSome_iff.mpr hp)).mpr hon)
    have C := naturalLoops_closed T hls l hl
    refine ⟨l, hl, rfl, ?_⟩
    rcases hpath with rfl | hpath
    · exact C.header
    · induction hpath using Relation.ReflTransGen.head_induction_on with
      | refl => exact C.backEdges _ hback
      | head hstep _ ih => exact C.preds _ (ih (hreach.tail hstep.1)) hstep.2 _ (mem_predecessors.mpr hstep.1)

end Datara.Dmir
