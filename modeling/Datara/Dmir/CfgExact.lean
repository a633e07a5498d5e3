import Datara.Dmir.Cfg
import Datara.Library.DominatorRounds

/-!
# The dominators of a function

`ControlFlowGraph::compute_dominance` comes to an end on every function, and what it returns are the dominators:
`dominates` says that a block dominates another exactly when every path from the entry to the second goes
through the first (`dominates_exact`). The passes over the reverse post-order are rounds of
`Library.DominatorRounds`, in which `intersect` finds the nearest common ancestor of two nodes.
-/

namespace Datara.Dmir.Cfg

open Library

/-- An edge of the graph. -/
def Edge (f : Function) (p b : BasicBlockId) : Prop := b ∈ successors f p

section
variable {f : Function} {rank : BasicBlockId → Nat} {idom idom' : Idom} {n k : Nat}
  {a b b1 b2 c d first : BasicBlockId} {rpo others bs before : List BasicBlockId}

/-! ## The nearest common ancestor -/

/-- A climb does not pass an ancestor that is not below the other node. -/
theorem anc_of_climb (h : climb rank idom n b1 b2 = some c) (ha : Anc idom a b1) (hab : rank a ≤ rank b2) :
    Anc idom a c := by
  induction n generalizing b1 with
  | zero => cases h
  | succ n ih =>
    rw [climb] at h
    split_ifs at h with hlater hstuck
    · exact Option.some.inj h ▸ ha
    · refine ih h ?_
      have hne : a ≠ b1 := by
        rintro rfl
        exact absurd hab (Nat.not_le.mpr hlater)
      cases hp : idom b1 with
      | none =>
        rw [parentOf, hp] at hstuck
        exact absurd rfl hstuck
      | some p =>
        rw [parentOf, hp]
        exact ha.of_parent hp hne
    · exact Option.some.inj h ▸ ha

theorem anc_of_intersect (T : RankedTree f.entryBlock idom rank) (h : intersect rank idom n b1 b2 = some c)
    (ha₁ : Anc idom a b1) (ha₂ : Anc idom a b2) : Anc idom a c := by
  induction n generalizing b1 b2 with
  | zero => cases h
  | succ n ih =>
    rw [intersect] at h
    split_ifs at h with heq
    · exact Option.some.inj h ▸ ha₁
    · obtain ⟨c1, hc1, h⟩ := Option.bind_eq_some_iff.mp h
      obtain ⟨c2, hc2, h⟩ := Option.bind_eq_some_iff.mp h
      have hac1 := anc_of_climb hc1 ha₁ (T.rank_le ha₂)
      have hac2 := anc_of_climb hc2 ha₂ (T.rank_le hac1)
      split_ifs at h with hstuck
      · exact Option.some.inj h ▸ hac1
      · exact ih h hac1 hac2

theorem anc_of_meet (T : RankedTree f.entryBlock idom rank) (h : meet rank idom n first others = some d)
    (ha : ∀ p ∈ first :: others, Anc idom a p) : Anc idom a d := by
  induction others generalizing first with
  | nil => exact Option.some.inj h ▸ ha first List.mem_cons_self
  | cons o os ih =>
    rw [meet, List.foldlM_cons] at h
    obtain ⟨c, hc, h⟩ := Option.bind_eq_some_iff.mp h
    have hac := anc_of_intersect T hc (ha o (List.mem_cons_of_mem _ List.mem_cons_self)) (ha first List.mem_cons_self)
    refine ih h fun p hp => ?_
    obtain rfl | hp := List.mem_cons.mp hp
    · exact hac
    · exact ha p (List.mem_cons_of_mem _ (List.mem_cons_of_mem _ hp))

/-! ## A pass is a round -/

theorem flowOrder (W : WalkDone (successors f) f.entryBlock rpo) :
    FlowOrder (Edge f) f.entryBlock (rpoIndex rpo) (· ∈ rpo) where
  entry_node := W.entry_mem
  closed := fun hp hedge => W.closed _ hp _ hedge
  entry_lt := by
    intro b hb hne
    induction hk : rpo.idxOf b using Nat.strong_induction_on generalizing b with
    | _ k ih =>
      subst hk
      obtain ⟨u, hu, -, hlt⟩ := W.parent b hb hne
      rw [rpoIndex_of_mem hb]
      by_cases hue : u = f.entryBlock
      · rw [← hue, rpoIndex_of_mem hu]
        exact hlt
      · have hlt' := ih _ hlt hu hue rfl
        rw [rpoIndex_of_mem hu] at hlt'
        exact hlt'.trans hlt
  forward := by
    intro b hb hne
    obtain ⟨u, hu, hedge, hlt⟩ := W.parent b hb hne
    exact ⟨u, hu, hedge, by rwa [rpoIndex_of_mem hu, rpoIndex_of_mem hb]⟩

/-- One node of a pass, when a predecessor that comes earlier in the order is in the map. -/
theorem relax_nearest {ch : Bool} (h : relax f (rpoIndex rpo) n b idom = some (idom', ch))
    (I : PassInv f rpo idom) (he : b ≠ f.entryBlock)
    (hu : ∃ u ∈ predecessors f b, (idom u).isSome ∧ rpoIndex rpo u < rpoIndex rpo b) :
    (∃ d, idom' b = some d ∧ d ∈ rpo ∧ rpoIndex rpo d < rpoIndex rpo b ∧
        Nearest idom (PredIn (Edge f) idom b) d) ∧
      (∀ v, v ≠ b → idom' v = idom v) ∧ (ch = true ↔ idom' b ≠ idom b) := by
  rw [relax, if_neg he] at h
  obtain ⟨u, hup, hui, hul⟩ := hu
  have hmem : ∀ p, p ∈ (predecessors f b).filter (fun p => (idom p).isSome) ↔ PredIn (Edge f) idom b p :=
    fun p => by rw [List.mem_filter, mem_predecessors]; rfl
  have huin := (hmem u).mpr ⟨mem_predecessors.mp hup, hui⟩
  split at h
  case h_1 hnil =>
    rw [hnil] at huin
    cases huin
  case h_2 first others hcons =>
    rw [hcons] at hmem huin
    obtain ⟨d, hd, h⟩ := Option.bind_eq_some_iff.mp h
    have hfirst := ((hmem first).mp List.mem_cons_self).2
    have hanc := meet_anc I.tree hfirst (fun p hp => ((hmem p).mp (List.mem_cons_of_mem _ hp)).2) hd
    have hnear : Nearest idom (PredIn (Edge f) idom b) d :=
      ⟨fun p hp => hanc p ((hmem p).mpr hp), fun a ha => anc_of_meet I.tree hd fun p hp => ha p ((hmem p).mp hp)⟩
    have hdin := I.keys d (I.tree.anc_in (hanc first List.mem_cons_self) hfirst)
    have hlt := Nat.lt_of_le_of_lt (I.tree.rank_le (hanc u huin)) hul
    split_ifs at h with hsame
    · cases h
      exact ⟨⟨d, hsame, hdin, hlt, hnear⟩, fun _ _ => rfl, by simp⟩
    · cases h
      refine ⟨⟨d, Function.update_self .., hdin, hlt, hnear⟩, fun v hv => Function.update_of_ne hv .., ?_⟩
      rw [Function.update_self]
      exact iff_of_true rfl fun heq => hsame heq.symm

/-- What a pass leaves at a node: the nearest common ancestor of its predecessors, when its turn came. -/
def PassedAt (f : Function) (rpo : List BasicBlockId) (S U : Idom) (b : BasicBlockId) : Prop :=
  ∃ d, U b = some d ∧ d ∈ rpo ∧ rpoIndex rpo d < rpoIndex rpo b ∧
    Nearest (mixed (rpoIndex rpo) S U (rpoIndex rpo b)) (PredIn (Edge f) (mixed (rpoIndex rpo) S U (rpoIndex rpo b)) b) d

section
variable (W : WalkDone (successors f) f.entryBlock rpo)
include W

theorem rpoIndex_lt (hsplit : rpo = before ++ b :: bs) {v : BasicBlockId}
    (hv : v ∈ bs) : rpoIndex rpo b < rpoIndex rpo v := by
  have honce := W.once
  rw [hsplit] at honce
  obtain ⟨-, hbs, hdisjoint⟩ := List.nodup_append.mp honce
  have hb : b ∉ before := fun hm => hdisjoint b hm b List.mem_cons_self rfl
  have hvb : v ∉ before := fun hm => hdisjoint v hm v (List.mem_cons_of_mem _ hv) rfl
  have hne : b ≠ v := by
    rintro rfl
    exact (List.nodup_cons.mp hbs).1 hv
  rw [rpoIndex_of_mem (hsplit ▸ List.mem_append_right _ List.mem_cons_self),
    rpoIndex_of_mem (hsplit ▸ List.mem_append_right _ (List.mem_cons_of_mem _ hv)), hsplit,
    List.idxOf_append_of_notMem hb, List.idxOf_append_of_notMem hvb, List.idxOf_cons_self, List.idxOf_cons_ne _ hne]
  omega

theorem earlier_predecessor {S : Idom} (hsplit : rpo = before ++ b :: bs)
    (hbefore : ∀ x ∈ before, (S x).isSome) (hne : b ≠ f.entryBlock) :
    ∃ u ∈ predecessors f b, (S u).isSome ∧ rpoIndex rpo u < rpoIndex rpo b := by
  have hb : b ∈ rpo := hsplit ▸ List.mem_append_right _ List.mem_cons_self
  obtain ⟨u, hu, hs, hlt⟩ := W.parent b hb hne
  have hlt : rpoIndex rpo u < rpoIndex rpo b := by rwa [rpoIndex_of_mem hu, rpoIndex_of_mem hb]
  refine ⟨u, mem_predecessors.mpr hs, hbefore u ?_, hlt⟩
  obtain hin | hin := List.mem_append.mp (hsplit ▸ hu : u ∈ before ++ b :: bs)
  · exact hin
  · obtain rfl | hin := List.mem_cons.mp hin
    · exact absurd hlt (Nat.lt_irrefl _)
    · exact absurd hlt (Nat.lt_asymm (rpoIndex_lt W hsplit hin))

/-- A pass over the rest `bs` of the order, when everything before it is in the map. -/
theorem pass_passed {ch : Bool} {S U : Idom}
    (hsplit : rpo = before ++ bs) (hbefore : ∀ x ∈ before, (S x).isSome) (I : PassInv f rpo S)
    (h : pass f (rpoIndex rpo) n bs S = some (U, ch)) :
    (∀ v, v ∉ bs → U v = S v) ∧ (∀ b ∈ bs, b ≠ f.entryBlock → PassedAt f rpo S U b) ∧
      (ch = true → ∃ b ∈ bs, U b ≠ S b) := by
  induction bs generalizing before S ch with
  | nil =>
    cases h
    exact ⟨fun _ _ => rfl, nofun, nofun⟩
  | cons b bs ih =>
    obtain ⟨⟨S₁, ch₁⟩, h₁, h⟩ := Option.bind_eq_some_iff.mp h
    obtain ⟨⟨U', ch₂⟩, h₂, h⟩ := Option.bind_eq_some_iff.mp h
    obtain ⟨hU, rfl⟩ := Prod.mk.inj (Option.some.inj h)
    rw [hU] at h₂
    have hb : b ∈ rpo := hsplit ▸ List.mem_append_right _ List.mem_cons_self
    have hbs : b ∉ bs := by
      have honce := W.once
      rw [hsplit] at honce
      exact (List.nodup_cons.mp (List.nodup_append.mp honce).2.1).1
    have hu := earlier_predecessor W hsplit hbefore
    obtain ⟨I₁, hb₁, hkeep, -⟩ := relax_spec h₁ I hb hu
    obtain ⟨hsame, hpassed, hchanged⟩ := ih (show rpo = (before ++ [b]) ++ bs by rw [hsplit, List.append_assoc]; rfl)
      (fun x hx => by
        obtain hx | hx := List.mem_append.mp hx
        · exact hkeep x (hbefore x hx)
        · exact List.mem_singleton.mp hx ▸ hb₁) I₁ h₂
    have hrest : ∀ v, v ≠ b → S₁ v = S v := by
      intro v hv
      by_cases he : b = f.entryBlock
      · rw [relax, if_pos he] at h₁
        rw [(Prod.mk.inj (Option.some.inj h₁)).1]
      · exact (relax_nearest h₁ I he (hu he)).2.1 v hv
    refine ⟨fun v hv => ?_, fun v hv he => ?_, fun hch => ?_⟩
    · obtain ⟨hvb, hvbs⟩ := List.ne_and_not_mem_of_not_mem_cons hv
      rw [hsame v hvbs, hrest v hvb]
    · obtain rfl | hv := List.mem_cons.mp hv
      · -- at its turn the nodes of lower rank have their new parents already
        obtain ⟨d, hd, hdin, hlt, hnear⟩ := (relax_nearest h₁ I he (hu he)).1
        have hmixed : mixed (rpoIndex rpo) S U (rpoIndex rpo v) = S := by
          funext w
          by_cases hw : rpoIndex rpo w < rpoIndex rpo v
          · have hwv : w ≠ v := by
              rintro rfl
              exact absurd hw (Nat.lt_irrefl _)
            have hwbs : w ∉ bs := fun hm => absurd hw (Nat.lt_asymm (rpoIndex_lt W hsplit hm))
            rw [mixed_below hw, hsame w hwbs, hrest w hwv]
          · exact mixed_above (Nat.not_lt.mp hw)
        exact ⟨d, (hsame v hbs).trans hd, hdin, hlt, hmixed.symm ▸ hnear⟩
      · have hmixed : mixed (rpoIndex rpo) S U (rpoIndex rpo v) = mixed (rpoIndex rpo) S₁ U (rpoIndex rpo v) := by
          funext w
          by_cases hw : rpoIndex rpo w < rpoIndex rpo v
          · rw [mixed_below hw, mixed_below hw]
          · have hwb : w ≠ b := by
              intro hwb
              exact hw (hwb ▸ rpoIndex_lt W hsplit hv)
            rw [mixed_above (Nat.not_lt.mp hw), mixed_above (Nat.not_lt.mp hw), hrest w hwb]
        rw [PassedAt, hmixed]
        exact hpassed v hv he
    · obtain hch | hch := Bool.or_eq_true_iff.mp hch
      · have he : b ≠ f.entryBlock := by
          rintro he
          rw [relax, if_pos he] at h₁
          rw [← (Prod.mk.inj (Option.some.inj h₁)).2] at hch
          cases hch
        refine ⟨b, List.mem_cons_self, ?_⟩
        rw [hsame b hbs]
        exact (relax_nearest h₁ I he (hu he)).2.2.mp hch
      · obtain ⟨v, hv, hne⟩ := hchanged hch
        have hvb : v ≠ b := by
          rintro rfl
          exact hbs hv
        exact ⟨v, List.mem_cons_of_mem _ hv, by rwa [← hrest v hvb]⟩

/-- **A pass over the whole order is a round.** -/
theorem round_of_pass {ch : Bool} {S U : Idom} (I : PassInv f rpo S)
    (h : pass f (rpoIndex rpo) n rpo S = some (U, ch)) :
    Round (Edge f) f.entryBlock (rpoIndex rpo) (· ∈ rpo) S U ∧ PassInv f rpo U ∧
      (ch = false → U = S) ∧ (ch = true → ∃ b ∈ rpo, U b ≠ S b) := by
  obtain ⟨I', hall, hsame⟩ := pass_spec W (List.nil_append rpo).symm nofun I h
  obtain ⟨-, hpassed, hchanged⟩ := pass_passed W (List.nil_append rpo).symm nofun I h
  exact ⟨⟨I'.tree.root, fun hb => I'.keys _ hb, fun hb he => hpassed _ hb he⟩, I', fun hch => (hsame hch).1, hchanged⟩

end

/-! ## The walks come to an end -/

/-- A climb ends, and from an earlier node it does not start. -/
theorem climb_total (T : RankedTree f.entryBlock idom rank) (hb : (idom b1).isSome) (hn : rank b1 < n) :
    ∃ c, climb rank idom n b1 b2 = some c := by
  induction n generalizing b1 with
  | zero => exact absurd hn (Nat.not_lt_zero _)
  | succ n ih =>
    rw [climb]
    split_ifs with hlater hstuck
    · exact ⟨b1, rfl⟩
    · obtain ⟨p, hp⟩ := Option.isSome_iff_exists.mp hb
      have hparent : parentOf idom b1 = p := by rw [parentOf, hp, Option.getD_some]
      have he : b1 ≠ f.entryBlock := by
        intro he
        rw [he, T.root] at hp
        exact hstuck (hparent.trans (Option.some.inj hp ▸ he.symm))
      obtain ⟨hlt, hin⟩ := T.lower hp he
      rw [hparent]
      exact ih hin (by omega)
    · exact ⟨b1, rfl⟩

theorem climb_lt (T : RankedTree f.entryBlock idom rank) (hb : (idom b1).isSome) (he : b1 ≠ f.entryBlock)
    (hlater : rank b2 < rank b1) (h : climb rank idom n b1 b2 = some c) : rank c < rank b1 := by
  cases n with
  | zero => cases h
  | succ n =>
    obtain ⟨p, hp⟩ := Option.isSome_iff_exists.mp hb
    have hlt := (T.lower hp he).1
    have hstuck : parentOf idom b1 ≠ b1 := fun hstuck => he (eq_entry_of_parentOf T hb hstuck)
    rw [climb, if_pos hlater, if_neg hstuck, parentOf, hp] at h
    exact (T.rank_le (climb_anc h)).trans_lt hlt

theorem climb_earlier (hn : rank b1 ≤ rank b2) (h : climb rank idom n b1 b2 = some c) : c = b1 := by
  cases n with
  | zero => cases h
  | succ n =>
    rw [climb, if_neg (Nat.not_lt.mpr hn)] at h
    exact (Option.some.inj h).symm

/-- The nodes in the map, each with its own place in the order. -/
theorem PassInv.eq_of_index (I : PassInv f rpo idom) (hb : (idom b1).isSome)
    (h : rpoIndex rpo b1 = rpoIndex rpo b2) (hb' : (idom b2).isSome) : b1 = b2 := by
  have h₁ := I.keys _ hb
  have h₂ := I.keys _ hb'
  rw [rpoIndex_of_mem h₁, rpoIndex_of_mem h₂] at h
  exact (List.idxOf_inj h₁).mp h

theorem PassInv.index_lt (I : PassInv f rpo idom) (hb : (idom b).isSome) : rpoIndex rpo b < rpo.length := by
  rw [rpoIndex_of_mem (I.keys _ hb)]
  exact List.idxOf_lt_length_of_mem (I.keys _ hb)

section
variable (W : WalkDone (successors f) f.entryBlock rpo)
include W

/-- **The two climbs of `intersect` come to an end**: together the nodes get nearer to the entry. -/
theorem intersect_total (I : PassInv f rpo idom)
    (h₁ : (idom b1).isSome) (h₂ : (idom b2).isSome) (hn : rpoIndex rpo b1 + rpoIndex rpo b2 + 1 < n) :
    ∃ c, intersect (rpoIndex rpo) idom n b1 b2 = some c := by
  induction n generalizing b1 b2 with
  | zero => exact absurd hn (Nat.not_lt_zero _)
  | succ n ih =>
    rw [intersect]
    split_ifs with heq
    · exact ⟨b1, rfl⟩
    obtain ⟨c1, hc1⟩ : ∃ c, climb (rpoIndex rpo) idom n b1 b2 = some c := climb_total I.tree h₁ (by omega)
    obtain ⟨c2, hc2⟩ : ∃ c, climb (rpoIndex rpo) idom n b2 c1 = some c := climb_total I.tree h₂ (by omega)
    have hin₁ := I.tree.anc_in (climb_anc hc1) h₁
    have hin₂ := I.tree.anc_in (climb_anc hc2) h₂
    have hle₂ := I.tree.rank_le (climb_anc hc2)
    have hnearer : rpoIndex rpo c1 + rpoIndex rpo c2 < rpoIndex rpo b1 + rpoIndex rpo b2 := by
      have hentry : ∀ {b c}, (idom b).isSome → (idom c).isSome → rpoIndex rpo b < rpoIndex rpo c → c ≠ f.entryBlock :=
        fun hb _ hlt => (flowOrder W).ne_entry (I.keys _ hb) hlt
      obtain hlt | hlt := Nat.lt_or_gt_of_ne fun h => heq (I.eq_of_index h₁ h h₂)
      · -- the second is later, so the first stays
        obtain rfl := climb_earlier hlt.le hc1
        have := climb_lt I.tree h₂ (hentry h₁ h₂ hlt) hlt hc2
        omega
      · have := climb_lt I.tree h₁ (hentry h₂ h₁ hlt) hlt hc1
        omega
    rw [hc1, Option.bind_eq_bind, Option.bind_some, hc2, Option.bind_some]
    split_ifs with hstuck
    · exact ⟨c1, rfl⟩
    · exact ih hin₁ hin₂ (by omega)

theorem meet_total (I : PassInv f rpo idom)
    (hfirst : (idom first).isSome) (hothers : ∀ p ∈ others, (idom p).isSome) (hn : 2 * rpo.length ≤ n) :
    ∃ d, meet (rpoIndex rpo) idom n first others = some d := by
  induction others generalizing first with
  | nil => exact ⟨first, rfl⟩
  | cons o os ih =>
    have ho := hothers o List.mem_cons_self
    have hlo := I.index_lt ho
    have hlf := I.index_lt hfirst
    obtain ⟨c, hc⟩ := intersect_total W I ho hfirst (n := n) (by omega)
    have hcin := I.tree.anc_in (intersect_anc I.tree ho hfirst hc).1 ho
    obtain ⟨d, hd⟩ := ih hcin fun p hp => hothers p (List.mem_cons_of_mem _ hp)
    refine ⟨d, ?_⟩
    rw [meet, List.foldlM_cons, hc]
    exact hd

theorem relax_total (I : PassInv f rpo idom)
    (hn : 2 * rpo.length ≤ n) : ∃ r, relax f (rpoIndex rpo) n b idom = some r := by
  rw [relax]
  split_ifs with he
  · exact ⟨_, rfl⟩
  split
  · exact ⟨_, rfl⟩
  next first others hcons =>
    have hin : ∀ p ∈ first :: others, (idom p).isSome := by
      intro p hp
      rw [← hcons] at hp
      exact (List.mem_filter.mp hp).2
    obtain ⟨d, hd⟩ := meet_total W I (hin first List.mem_cons_self) (fun p hp => hin p (List.mem_cons_of_mem _ hp)) hn
    rw [hd, Option.bind_eq_bind, Option.bind_some]
    split_ifs
    · exact ⟨_, rfl⟩
    · exact ⟨_, rfl⟩

theorem pass_total {S : Idom} (hsplit : rpo = before ++ bs)
    (hbefore : ∀ x ∈ before, (S x).isSome) (I : PassInv f rpo S) (hn : 2 * rpo.length ≤ n) :
    ∃ r, pass f (rpoIndex rpo) n bs S = some r := by
  induction bs generalizing before S with
  | nil => exact ⟨_, rfl⟩
  | cons b bs ih =>
    obtain ⟨⟨S₁, ch₁⟩, h₁⟩ := relax_total W I (b := b) hn
    have hb : b ∈ rpo := hsplit ▸ List.mem_append_right _ List.mem_cons_self
    obtain ⟨I₁, hb₁, hkeep, -⟩ := relax_spec h₁ I hb (earlier_predecessor W hsplit hbefore)
    obtain ⟨⟨U, ch₂⟩, h₂⟩ := ih (show rpo = (before ++ [b]) ++ bs by rw [hsplit, List.append_assoc]; rfl)
      (fun x hx => by
        obtain hx | hx := List.mem_append.mp hx
        · exact hkeep x (hbefore x hx)
        · exact List.mem_singleton.mp hx ▸ hb₁) I₁
    refine ⟨(U, ch₁ || ch₂), ?_⟩
    rw [pass]
    exact Option.bind_eq_some_iff.mpr ⟨_, h₁, Option.bind_eq_some_iff.mpr ⟨_, h₂, rfl⟩⟩

/-- **The passes come to an end**, at a map that one more pass leaves as it is: every pass before makes the map
lighter. -/
theorem passes_total {S : Idom} (I : PassInv f rpo S)
    (H : Approx (Edge f) f.entryBlock (rpoIndex rpo) (· ∈ rpo) S) (hn : 2 * rpo.length ≤ n) :
    ∃ k out, passes f (rpoIndex rpo) rpo n k S = some out ∧
      Approx (Edge f) f.entryBlock (rpoIndex rpo) (· ∈ rpo) out ∧
      Round (Edge f) f.entryBlock (rpoIndex rpo) (· ∈ rpo) out out := by
  induction hw : weight (rpoIndex rpo) S rpo using Nat.strong_induction_on generalizing S with
  | _ w ih =>
    subst hw
    obtain ⟨⟨U, ch⟩, hpass⟩ := pass_total W (List.nil_append rpo).symm nofun I hn
    obtain ⟨R, I', hsame, hchanged⟩ := round_of_pass W I hpass
    cases ch with
    | false =>
      obtain rfl := hsame rfl
      refine ⟨1, U, ?_, H, R⟩
      rw [passes, hpass]
      rfl
    | true =>
      have hlt := R.weight_lt H (flowOrder W) (fun b hb => hb) (hchanged rfl)
      obtain ⟨k, out, hk, hout⟩ := ih _ hlt I' (R.approx H (flowOrder W)) rfl
      refine ⟨k + 1, out, ?_, hout⟩
      rw [passes, hpass]
      exact hk

end

theorem unvisited_lt {nodes visited : List BasicBlockId} {node : BasicBlockId} (hnode : node ∈ nodes)
    (hv : node ∉ visited) :
    (nodes.filter (· ∉ node :: visited)).length < (nodes.filter (· ∉ visited)).length := by
  have hfilter : nodes.filter (· ∉ node :: visited) = (nodes.filter (· ∉ visited)).filter (· ≠ node) := by
    rw [List.filter_filter]
    refine List.filter_congr fun b _ => ?_
    simp
  rw [hfilter, List.length_filter_lt_length_iff_exists]
  exact ⟨node, List.mem_filter.mpr ⟨hnode, decide_eq_true hv⟩, by simp⟩

/-- **The depth-first walk comes to an end**: a visit takes a node out of those that are not visited, and every
other step an entry off the stack. -/
theorem walk_total {succ : BasicBlockId → List BasicBlockId} {nodes visited : List BasicBlockId}
    {stack : List (BasicBlockId × Bool)} (hclosed : ∀ b, ∀ s ∈ succ b, s ∈ nodes)
    (hstack : ∀ x ∈ stack, x.1 ∈ nodes) : ∃ n out, walk succ n stack visited rpo = some out := by
  induction hm : (nodes.filter (· ∉ visited)).length using Nat.strong_induction_on
    generalizing stack visited rpo with
  | _ m ih =>
    subst hm
    induction stack generalizing rpo with
    | nil => exact ⟨1, rpo, rfl⟩
    | cons x stack ihs =>
      obtain ⟨node, mark⟩ := x
      have hrest : ∀ x ∈ stack, x.1 ∈ nodes := fun x hx => hstack x (List.mem_cons_of_mem _ hx)
      cases mark with
      | true =>
        obtain ⟨n, out, h⟩ : ∃ n out, walk succ n stack visited (node :: rpo) = some out := ihs hrest
        exact ⟨n + 1, out, h⟩
      | false =>
        by_cases hv : node ∈ visited
        · obtain ⟨n, out, h⟩ : ∃ n out, walk succ n stack visited rpo = some out := ihs hrest
          refine ⟨n + 1, out, ?_⟩
          rw [walk, if_pos hv]
          exact h
        · have hnode : node ∈ nodes := hstack _ List.mem_cons_self
          have hstack' : ∀ x ∈ (((succ node).filter (· ∉ node :: visited)).map fun s => (s, false)).reverse ++
              (node, true) :: stack, x.1 ∈ nodes := by
            intro x hx
            obtain hx | hx := List.mem_append.mp hx
            · obtain ⟨s, hs, rfl⟩ := List.mem_map.mp (List.mem_reverse.mp hx)
              exact hclosed node s (List.mem_filter.mp hs).1
            · obtain rfl | hx := List.mem_cons.mp hx
              · exact hnode
              · exact hrest x hx
          obtain ⟨n, out, h⟩ := ih _ (unvisited_lt hnode hv) hstack' rfl
          refine ⟨n + 1, out, ?_⟩
          rw [walk, if_neg hv]
          exact h

/-! ## The answers -/

/-- The loop of `dominates` ends, and finds the ancestors other than the node itself. -/
theorem dominatesFrom_iff (T : RankedTree f.entryBlock idom rank) (hb : (idom b).isSome) (hab : a ≠ b)
    (hn : rank b < n) : ∃ v, dominatesFrom idom a n b = some v ∧ (v = true ↔ Anc idom a b) := by
  induction n generalizing b with
  | zero => exact absurd hn (Nat.not_lt_zero _)
  | succ n ih =>
    obtain ⟨p, hp⟩ := Option.isSome_iff_exists.mp hb
    simp only [dominatesFrom, hp]
    split_ifs with hpa hpb
    · exact ⟨true, rfl, iff_of_true rfl (.up hp (hpa ▸ .refl _))⟩
    · obtain rfl := T.eq_entry_of_loop (hpb ▸ hp)
      exact ⟨false, rfl, iff_of_false (by simp) fun h => hab (T.anc_entry h)⟩
    · have he : b ≠ f.entryBlock := by
        intro he
        rw [he, T.root] at hp
        exact hpb (Option.some.inj hp ▸ he.symm)
      obtain ⟨hlt, hin⟩ := T.lower hp he
      obtain ⟨v, hv, hiff⟩ := ih hin (Ne.symm hpa) (by omega)
      exact ⟨v, hv, hiff.trans ⟨fun h => .up hp h, fun h => h.of_parent hp hab⟩⟩

theorem dominates_iff_anc (T : RankedTree f.entryBlock idom rank) (hb : (idom b).isSome) (hn : rank b < n) :
    ∃ v, dominates n idom a b = some v ∧ (v = true ↔ Anc idom a b) := by
  by_cases hab : a = b
  · exact ⟨true, if_pos hab, iff_of_true rfl (hab ▸ .refl _)⟩
  · obtain ⟨v, hv, hiff⟩ := dominatesFrom_iff T hb hab hn
    exact ⟨v, (if_neg hab).trans hv, hiff⟩

/-- The computation comes to an end, at a map of the dominators of the blocks that the entry reaches. -/
theorem computeDominance_total (f : Function) (hne : f.blocks ≠ []) : ∃ n idom rank node,
    computeDominance n f = some idom ∧ FlowOrder (Edge f) f.entryBlock rank node ∧
      Approx (Edge f) f.entryBlock rank node idom ∧ Round (Edge f) f.entryBlock rank node idom idom ∧
      ∀ b, node b → rank b < n := by
  have hclosed : ∀ b, ∀ s ∈ successors f b, s ∈ f.entryBlock :: f.blocks.flatMap (·.terminator.successors) := by
    intro b s hs
    obtain ⟨bl, hbl, hs⟩ := List.mem_flatMap.mp hs
    exact List.mem_cons_of_mem _ (List.mem_flatMap.mpr ⟨bl, (List.mem_filter.mp hbl).1, hs⟩)
  obtain ⟨m, rpo, hwalk⟩ : ∃ m out, walk (successors f) m [(f.entryBlock, false)] [] [] = some out :=
    walk_total hclosed fun x hx => List.mem_singleton.mp hx ▸ List.mem_cons_self
  have W : WalkDone (successors f) f.entryBlock rpo := WalkInv.start.walk hwalk
  have H := Approx.start (flowOrder W)
  obtain ⟨k, out, hpasses, hout, R⟩ := passes_total W ⟨H.toRankedTree, fun b => H.keys⟩ H (Nat.le_refl _)
  refine ⟨max m (max (2 * rpo.length) k), out, _, _, ?_, flowOrder W, hout, R, fun b hb => ?_⟩
  · rw [computeDominance, if_neg hne, walk_mono (Nat.le_max_left ..) hwalk, Option.bind_eq_bind, Option.bind_some]
    exact passes_mono (by omega) (by omega) hpasses
  · have := List.idxOf_lt_length_of_mem hb
    rw [rpoIndex_of_mem hb]
    omega

/-- **The dominators are exact.** The computation comes to an end, and on what it returns `dominates` does, for
every block that the entry reaches, with the answer whether all paths to it go through the other. -/
theorem dominates_exact (f : Function) : ∃ n idom, computeDominance n f = some idom ∧
    ∀ a b, Relation.ReflTransGen (Edge f) f.entryBlock b → ∃ m v, dominates m idom a b = some v ∧
      (v = true ↔ ∀ p : List BasicBlockId, p.IsChain (Edge f) → p.head? = some f.entryBlock →
        p.getLast? = some b → a ∈ p) := by
  by_cases hne : f.blocks = []
  · refine ⟨0, fun _ => none, if_pos hne, fun a b hb => ?_⟩
    have hnone : ∀ p c, ¬Edge f p c := by
      intro p c hedge
      rw [Edge, successors, hne] at hedge
      cases hedge
    obtain rfl : b = f.entryBlock := by
      obtain he | ⟨p, -, hedge⟩ := hb.cases_tail
      · exact he
      · exact absurd hedge (hnone _ _)
    rw [← not_avoids_iff]
    by_cases ha : a = f.entryBlock
    · refine ⟨1, true, if_pos ha, iff_of_true rfl fun h => ?_⟩
      cases h with
      | start hea => exact hea ha.symm
      | step _ hedge _ => exact hnone _ _ hedge
    · exact ⟨1, false, if_neg ha, iff_of_false (by simp) fun h => h (.start (Ne.symm ha))⟩
  · obtain ⟨n, idom, rank, node, hcompute, O, H, R, hn⟩ := computeDominance_total f hne
    refine ⟨n, idom, hcompute, fun a b hb => ?_⟩
    have hnode : node b := O.of_reaches hb
    obtain ⟨v, hv, hiff⟩ := dominates_iff_anc (a := a) R.tree (R.isSome_iff.mpr hnode) (hn b hnode)
    exact ⟨n, v, hv, hiff.trans ((R.anc_iff H O hnode).trans not_avoids_iff)⟩

end

end Datara.Dmir.Cfg
