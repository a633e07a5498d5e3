import Datara.Library.DominatorTree
import Mathlib.Data.List.Chain
import Mathlib.Algebra.Order.BigOperators.Group.List
import Mathlib.Algebra.Order.Group.Nat
import Mathlib.Algebra.GroupWithZero.Nat

/-!
# Dominators by rounds

Immediate dominators found round by round, over a graph whose nodes are ranked so that each has a predecessor of
lower rank. A round takes the nodes in the order of their ranks and gives each the nearest common ancestor, in the
map as it is by then, of its predecessors in the map (`Round`). All nodes share one map, so a node that is given a
new parent changes the ancestors of the nodes below it, which are not at their turn yet.

What a round begins with holds too many ancestors, never too few (`Approx`). A round keeps that (`Round.approx`)
and only takes ancestors away (`Round.anc_of_anc`), so the rounds come to an end; a map that a round does not
change holds exactly the dominators (`Round.anc_iff`).
-/

namespace Datara.Library

universe u

variable {α : Type u}

/-! ## Paths -/

/-- The nodes that a path from the entry leads to without going through `a`. -/
inductive Avoids (edge : α → α → Prop) (entry a : α) : α → Prop
  | start : entry ≠ a → Avoids edge entry a entry
  | step {x y : α} : Avoids edge entry a x → edge x y → y ≠ a → Avoids edge entry a y

section
variable {edge : α → α → Prop} {entry a b x y : α}

theorem Avoids.ne (h : Avoids edge entry a b) : b ≠ a := by
  cases h with
  | start hne => exact hne
  | step _ _ hne => exact hne

theorem Avoids.of_chain {p : List α} (hx : Avoids edge entry a x) (hp : (x :: p).IsChain edge) (ha : a ∉ p)
    (hlast : (x :: p).getLast? = some b) : Avoids edge entry a b := by
  induction p generalizing x with
  | nil =>
    cases hlast
    exact hx
  | cons y p ih =>
    obtain ⟨hedge, hp⟩ := List.isChain_cons_cons.mp hp
    obtain ⟨hne, ha⟩ := List.ne_and_not_mem_of_not_mem_cons ha
    rw [List.getLast?_cons_cons] at hlast
    exact ih (hx.step hedge hne.symm) hp ha hlast

theorem Avoids.exists_path (h : Avoids edge entry a b) :
    ∃ p : List α, p.IsChain edge ∧ p.head? = some entry ∧ p.getLast? = some b ∧ a ∉ p := by
  induction h with
  | start hne => exact ⟨[entry], List.isChain_singleton _, rfl, rfl, fun h => hne (List.mem_singleton.mp h).symm⟩
  | @step x y _ hedge hne ih =>
    obtain ⟨p, hchain, hhead, hlast, ha⟩ := ih
    refine ⟨p ++ [y], ?_, ?_, List.getLast?_concat, fun h => ?_⟩
    · refine List.isChain_append.mpr ⟨hchain, List.isChain_singleton _, fun z hz w hw => ?_⟩
      rw [hlast] at hz
      cases hz
      cases hw
      exact hedge
    · rw [List.head?_append, hhead]
      rfl
    · obtain h | h := List.mem_append.mp h
      · exact ha h
      · exact hne (List.mem_singleton.mp h).symm

/-- **Every path from the entry to `b` goes through `a`.** -/
theorem not_avoids_iff : ¬Avoids edge entry a b ↔
    ∀ p : List α, p.IsChain edge → p.head? = some entry → p.getLast? = some b → a ∈ p := by
  constructor
  · intro h p hchain hhead hlast
    by_contra ha
    cases p with
    | nil => cases hhead
    | cons x p =>
      cases hhead
      obtain ⟨hne, ha⟩ := List.ne_and_not_mem_of_not_mem_cons ha
      exact h ((Avoids.start hne.symm).of_chain hchain ha hlast)
  · intro h havoid
    obtain ⟨p, hchain, hhead, hlast, ha⟩ := havoid.exists_path
    exact ha (h p hchain hhead hlast)

/-- An ancestor is on every path. -/
theorem DominatorTree.not_avoids {idom : α → Option α} {rank : α → Nat} (T : DominatorTree edge entry idom rank)
    (h : Anc idom a b) : ¬Avoids edge entry a b := by
  intro havoid
  suffices ∀ c, Avoids edge entry a c → (idom c).isSome ∧ ¬Anc idom a c from (this b havoid).2 h
  intro c hc
  induction hc with
  | start hne => exact ⟨by rw [T.root]; rfl, fun hanc => hne (T.anc_entry hanc).symm⟩
  | step _ hedge hne ih => exact ⟨T.closed ih.1 hedge, fun hanc => ih.2 (T.anc_of_edge ih.1 hedge hanc hne.symm)⟩

end

/-! ## Rounds -/

/-- Ranks that go up from the entry along some edge into each other node. -/
structure FlowOrder (edge : α → α → Prop) (entry : α) (rank : α → Nat) (node : α → Prop) : Prop where
  entry_node : node entry
  closed : ∀ {p b}, node p → edge p b → node b
  entry_lt : ∀ {b}, node b → b ≠ entry → rank entry < rank b
  forward : ∀ {b}, node b → b ≠ entry → ∃ u, node u ∧ edge u b ∧ rank u < rank b

/-- A path along which the ranks go up. -/
def Forward (edge : α → α → Prop) (rank : α → Nat) : α → α → Prop :=
  Relation.ReflTransGen fun x y => edge x y ∧ rank x < rank y

/-- The map within a round: new below a rank, as before from it on. -/
def mixed (rank : α → Nat) (S U : α → Option α) (i : Nat) (v : α) : Option α := if rank v < i then U v else S v

/-- A nearest common ancestor. -/
structure Nearest (T : α → Option α) (P : α → Prop) (d : α) : Prop where
  anc : ∀ p, P p → Anc T d p
  greatest : ∀ a, (∀ p, P p → Anc T a p) → Anc T a d

/-- The predecessors of a node that are in a map. -/
def PredIn (edge : α → α → Prop) (T : α → Option α) (b p : α) : Prop := edge p b ∧ (T p).isSome

/-- A round from `S` to `U`. -/
structure Round (edge : α → α → Prop) (entry : α) (rank : α → Nat) (node : α → Prop) (S U : α → Option α) :
    Prop where
  root : U entry = some entry
  keys : ∀ {b}, (U b).isSome → node b
  parent : ∀ {b}, node b → b ≠ entry → ∃ d, U b = some d ∧ node d ∧ rank d < rank b ∧
    Nearest (mixed rank S U (rank b)) (PredIn edge (mixed rank S U (rank b)) b) d

/-- A map with too many ancestors, if any: a node's parent is reached forward, every common ancestor of its
predecessors is one of its own, and so is every dominator. -/
structure Approx (edge : α → α → Prop) (entry : α) (rank : α → Nat) (node : α → Prop) (S : α → Option α) :
    Prop extends RankedTree entry S rank where
  keys : ∀ {b}, (S b).isSome → node b
  forward : ∀ {b x}, S b = some x → b ≠ entry → Forward edge rank x b
  kept : ∀ {b x a}, S b = some x → b ≠ entry → (∀ p, PredIn edge S b p → Anc S a p) → Anc S a x
  dominators : ∀ {b a}, (S b).isSome → ¬Avoids edge entry a b → Anc S a b

section
variable {edge : α → α → Prop} {entry : α} {rank : α → Nat} {node : α → Prop} {S T U : α → Option α}
  {a b d p v x : α} {i : Nat}

theorem Forward.rank_le (h : Forward edge rank x v) : rank x ≤ rank v := by
  induction h with
  | refl => exact Nat.le_refl _
  | tail _ hedge ih => exact ih.trans hedge.2.le

theorem Forward.avoids (h : Forward edge rank x v) (hx : Avoids edge entry a x) (ha : rank a < rank x) :
    Avoids edge entry a v := by
  induction h with
  | refl => exact hx
  | tail hpath hedge ih =>
    refine ih.step hedge.1 ?_
    rintro rfl
    exact absurd (ha.trans_le (Forward.rank_le hpath)) (Nat.lt_asymm hedge.2)

section
variable (O : FlowOrder edge entry rank node)
include O

theorem FlowOrder.of_forward (h : Forward edge rank x v) (hx : node x) :
    node v := by
  induction h with
  | refl => exact hx
  | tail _ hedge ih => exact O.closed ih hedge.1

theorem FlowOrder.of_reaches (h : Relation.ReflTransGen edge entry b) :
    node b := by
  induction h with
  | refl => exact O.entry_node
  | tail _ hedge ih => exact O.closed ih hedge

theorem FlowOrder.ne_entry (hp : node p) (hlt : rank p < rank b) :
    b ≠ entry := by
  intro hb
  rw [hb] at hlt
  by_cases he : p = entry
  · exact absurd (he ▸ hlt) (Nat.lt_irrefl _)
  · exact absurd (O.entry_lt hp he) (Nat.lt_asymm hlt)

end

theorem mixed_below (h : rank v < i) : mixed rank S U i v = U v := if_pos h

theorem mixed_above (h : i ≤ rank v) : mixed rank S U i v = S v := if_neg (Nat.not_lt.mpr h)

/-- Ancestors below a rank are looked up below it. -/
theorem anc_of_agree (hS : RankedTree entry S rank) (hagree : ∀ v, rank v < i → S v = T v) (hv : rank v < i)
    (h : Anc S a v) : Anc T a v := by
  induction h with
  | refl => exact .refl _
  | @up q v hq hanc ih =>
    have hlt : rank q < i := by
      by_cases he : v = entry
      · cases hS.root.symm.trans (he ▸ hq)
        exact he ▸ hv
      · exact (hS.lower hq he).1.trans hv
    exact .up (hagree v hv ▸ hq) (ih hlt)

namespace Round

variable (R : Round edge entry rank node S U) (H : Approx edge entry rank node S)
  (O : FlowOrder edge entry rank node)

include R

theorem isSome_iff : (U b).isSome ↔ node b := by
  refine ⟨R.keys, fun hb => ?_⟩
  by_cases he : b = entry
  · rw [he, R.root]
    rfl
  · obtain ⟨d, hd, -⟩ := R.parent hb he
    rw [hd]
    rfl

theorem tree : RankedTree entry U rank where
  root := R.root
  lower := by
    intro b p hp hb
    obtain ⟨d, hd, hnode, hlt, -⟩ := R.parent (R.keys (by rw [hp]; rfl)) hb
    cases hp.symm.trans hd
    exact ⟨hlt, R.isSome_iff.mpr hnode⟩

theorem mixed_isSome (hv : node v) (h : rank v < i ∨ (S v).isSome) : (mixed rank S U i v).isSome := by
  by_cases hlt : rank v < i
  · rw [mixed_below hlt]
    exact R.isSome_iff.mpr hv
  · rw [mixed_above (Nat.not_lt.mp hlt)]
    exact h.resolve_left hlt

include H

theorem mixed_tree : RankedTree entry (mixed rank S U i) rank where
  root := by
    by_cases hlt : rank entry < i
    · rw [mixed_below hlt, R.root]
    · rw [mixed_above (Nat.not_lt.mp hlt), H.root]
  lower := by
    intro b p hp hb
    by_cases hlt : rank b < i
    · rw [mixed_below hlt] at hp
      obtain ⟨hrank, hin⟩ := R.tree.lower hp hb
      exact ⟨hrank, R.mixed_isSome (R.keys hin) (.inl (hrank.trans hlt))⟩
    · rw [mixed_above (Nat.not_lt.mp hlt)] at hp
      obtain ⟨hrank, hin⟩ := H.lower hp hb
      exact ⟨hrank, R.mixed_isSome (H.keys hin) (.inr hin)⟩

theorem mixed_node (h : (mixed rank S U i v).isSome) : node v := by
  by_cases hlt : rank v < i
  · rw [mixed_below hlt] at h
    exact R.keys h
  · rw [mixed_above (Nat.not_lt.mp hlt)] at h
    exact H.keys h

theorem anc_mixed_below (hv : rank v < i) : Anc (mixed rank S U i) a v ↔ Anc U a v :=
  ⟨anc_of_agree (R.mixed_tree H) (fun _ => mixed_below) hv,
    anc_of_agree R.tree (fun _ h => (mixed_below h).symm) hv⟩

/-- Along an edge that goes up, the ancestors of the target are ancestors of the source. -/
theorem anc_of_edge_up (hp : node p) (hedge : edge p b) (hlt : rank p < rank b) (hb : node b) (hne : b ≠ entry)
    (h : Anc U a b) (hab : a ≠ b) : Anc U a p := by
  obtain ⟨d, hd, -, -, hnear⟩ := R.parent hb hne
  have hdp := hnear.anc p ⟨hedge, R.mixed_isSome hp (.inl hlt)⟩
  exact (h.of_parent hd hab).trans ((R.anc_mixed_below H hlt).mp hdp)

include O

/-- So they are along a path that goes up, from a node that is not below the ancestor. -/
theorem anc_of_forward (hpath : Forward edge rank x v) (hx : node x) (h : Anc U a v) (ha : a = x ∨ rank a < rank x) :
    Anc U a x := by
  obtain rfl | ha := ha
  · exact .refl _
  induction hpath with
  | refl => exact h
  | @tail y z hpath hedge ih =>
    have hynode := O.of_forward hpath hx
    have hxy : rank x ≤ rank y := Forward.rank_le hpath
    have hne : a ≠ z := by
      rintro rfl
      exact absurd hedge.2 (by omega)
    exact ih (R.anc_of_edge_up H hynode hedge.1 hedge.2 (O.closed hynode hedge.1)
      (O.ne_entry hynode hedge.2) h hne)

/-- **A round takes ancestors away, and adds none.** -/
theorem anc_of_anc (hv : (S v).isSome) (h : Anc U a v) : Anc S a v := by
  induction hk : rank v using Nat.strong_induction_on generalizing v with
  | _ k ih =>
    subst hk
    by_cases he : v = entry
    · subst he
      rw [R.tree.anc_entry h]
      exact .refl _
    by_cases hav : a = v
    · rw [hav]
      exact .refl _
    obtain ⟨x, hx⟩ := Option.isSome_iff_exists.mp hv
    obtain ⟨d, hd, -, hdv, hnear⟩ := R.parent (H.keys hv) he
    have had : Anc (mixed rank S U (rank v)) a d := (R.anc_mixed_below H hdv).mpr (h.of_parent hd hav)
    refine .up hx (H.kept hx he fun p hp => ?_)
    have hpin : (mixed rank S U (rank v) p).isSome := R.mixed_isSome (H.keys hp.2) (.inr hp.2)
    have hap := had.trans (hnear.anc p ⟨hp.1, hpin⟩)
    -- what is an ancestor within the round was one before it
    suffices ∀ q, Anc (mixed rank S U (rank v)) a q → (S q).isSome → Anc S a q from this p hap hp.2
    intro q hq hqin
    induction hq with
    | refl => exact .refl _
    | @up r q hr hanc ihq =>
      by_cases hlt : rank q < rank v
      · exact ih _ hlt hqin ((R.anc_mixed_below H hlt).mp (.up hr hanc)) rfl
      · rw [mixed_above (Nat.not_lt.mp hlt)] at hr
        refine .up hr (ihq ?_)
        by_cases hqe : q = entry
        · cases H.root.symm.trans (hqe ▸ hr)
          exact hqe ▸ hqin
        · exact (H.lower hr hqe).2

/-- The ancestors after a round are ancestors within it. -/
theorem anc_mixed_of_anc (hv : (mixed rank S U i v).isSome) (h : Anc U a v) : Anc (mixed rank S U i) a v := by
  by_cases hlt : rank v < i
  · exact (R.anc_mixed_below H hlt).mpr h
  · rw [mixed_above (Nat.not_lt.mp hlt)] at hv
    have hS := R.anc_of_anc H O hv h
    induction hS with
    | refl => exact .refl _
    | @up x v hx hax ih =>
      by_cases hlt : rank v < i
      · exact (R.anc_mixed_below H hlt).mpr h
      have hparent : mixed rank S U i v = some x := by rwa [mixed_above (Nat.not_lt.mp hlt)]
      by_cases he : v = entry
      · subst he
        rw [R.tree.anc_entry h]
        exact .refl _
      obtain ⟨-, hxin⟩ := H.lower hx he
      have hrank : a = x ∨ rank a < rank x := by
        by_cases hne : a = x
        · exact .inl hne
        · exact .inr (H.rank_lt hax hne)
      have hU := R.anc_of_forward H O (H.forward hx he) (H.keys hxin) h hrank
      by_cases hxi : rank x < i
      · exact .up hparent ((R.anc_mixed_below H hxi).mpr hU)
      · exact .up hparent (ih hxin hU hxi)

theorem forward (hb : U b = some d) (he : b ≠ entry) : Forward edge rank d b := by
  induction hk : rank b using Nat.strong_induction_on generalizing b d with
  | _ k ih =>
    subst hk
    have hbnode : node b := R.keys (by rw [hb]; rfl)
    obtain ⟨d', hd', -, hdb, hnear⟩ := R.parent hbnode he
    cases hb.symm.trans hd'
    obtain ⟨u, hu, hedge, hlt⟩ := O.forward hbnode he
    have hdu := (R.anc_mixed_below H hlt).mp (hnear.anc u ⟨hedge, R.mixed_isSome hu (.inl hlt)⟩)
    suffices ∀ w, Anc U d w → rank w < rank b → Forward edge rank d w from (this u hdu hlt).tail ⟨hedge, hlt⟩
    intro w hw hwb
    induction hw with
    | refl => exact .refl
    | @up q w hq _ ihw =>
      by_cases hwe : w = entry
      · cases R.root.symm.trans (hwe ▸ hq)
        exact hwe ▸ ihw (hwe ▸ hwb)
      · exact (ihw ((R.tree.lower hq hwe).1.trans hwb)).trans (ih _ hwb hq hwe rfl)

omit O in
theorem anc_mixed_of_dominates (hbelow : ∀ v, rank v < i → node v → ¬Avoids edge entry a v → Anc U a v)
    (hv : (mixed rank S U i v).isSome) (h : ¬Avoids edge entry a v) : Anc (mixed rank S U i) a v := by
  by_cases hlt : rank v < i
  · exact (R.anc_mixed_below H hlt).mpr (hbelow v hlt (R.mixed_node H hv) h)
  · rw [mixed_above (Nat.not_lt.mp hlt)] at hv
    have hS := H.dominators hv h
    induction hS with
    | refl => exact .refl _
    | @up x v hx hax ih =>
      by_cases hlt : rank v < i
      · exact (R.anc_mixed_below H hlt).mpr (hbelow v hlt (H.keys hv) h)
      have hparent : mixed rank S U i v = some x := by rwa [mixed_above (Nat.not_lt.mp hlt)]
      refine .up hparent ?_
      by_cases hne : a = x
      · rw [hne]
        exact .refl _
      by_cases he : v = entry
      · cases H.root.symm.trans (he ▸ hx)
        exact he ▸ ih (he ▸ hv) (he ▸ h) (he ▸ hlt)
      have hxin := (H.lower hx he).2
      -- a path that avoids the ancestor would go on to `v`
      have hdom : ¬Avoids edge entry a x := fun havoid =>
        h ((H.forward hx he).avoids havoid (H.rank_lt hax hne))
      by_cases hxi : rank x < i
      · exact (R.anc_mixed_below H hxi).mpr (hbelow x hxi (H.keys hxin) hdom)
      · exact ih hxin hdom hxi

omit O in
theorem dominators (hb : node b) (h : ¬Avoids edge entry a b) : Anc U a b := by
  induction hk : rank b using Nat.strong_induction_on generalizing b with
  | _ k ih =>
    subst hk
    by_cases hab : a = b
    · rw [hab]
      exact .refl _
    by_cases he : b = entry
    · exact absurd (.start fun hea => hab (hea.symm.trans he.symm)) (he ▸ h)
    obtain ⟨d, hd, -, hdb, hnear⟩ := R.parent hb he
    refine .up hd ((R.anc_mixed_below H hdb).mp (hnear.greatest a fun p hp => ?_))
    exact R.anc_mixed_of_dominates H (fun v hv hnode hdom => ih _ hv hnode hdom rfl) hp.2
      fun havoid => h (havoid.step hp.1 fun hba => hab hba.symm)

/-- **What a round keeps.** -/
theorem approx : Approx edge entry rank node U where
  toRankedTree := R.tree
  keys := R.keys
  forward := R.forward H O
  kept := by
    intro b x a hx he hcommon
    obtain ⟨d, hd, -, hdb, hnear⟩ := R.parent (R.keys (by rw [hx]; rfl)) he
    cases hx.symm.trans hd
    refine (R.anc_mixed_below H hdb).mp (hnear.greatest a fun p hp => ?_)
    have hpU := hcommon p ⟨hp.1, R.isSome_iff.mpr (R.mixed_node H hp.2)⟩
    exact R.anc_mixed_of_anc H O hp.2 hpU
  dominators := fun hb h => R.dominators H (R.keys hb) h

theorem parent_le (hx : S b = some x) (hd : U b = some d) : d = x ∨ rank d < rank x := by
  by_cases he : b = entry
  · cases H.root.symm.trans (he ▸ hx)
    exact .inl (Option.some.inj (R.root.symm.trans (he ▸ hd))).symm
  · have hlt := (R.tree.lower hd he).1
    have hanc := R.anc_of_anc H O (by rw [hx]; rfl) (.up hd (.refl d))
    have hdx := hanc.of_parent hx fun hdb => absurd (hdb ▸ hlt) (Nat.lt_irrefl _)
    by_cases hne : d = x
    · exact .inl hne
    · exact .inr (H.rank_lt hdx hne)

omit R H O in
theorem dominatorTree (R : Round edge entry rank node S S) (O : FlowOrder edge entry rank node) :
    DominatorTree edge entry S rank where
  toRankedTree := R.tree
  edge_up := by
    intro p b hp hedge he
    have hsame : mixed rank S S (rank b) = S := funext fun v => ite_self _
    obtain ⟨d, hd, -, -, hnear⟩ := R.parent (O.closed (R.keys hp) hedge) he
    rw [hsame] at hnear
    exact ⟨d, hd, hnear.anc p ⟨hedge, hp⟩⟩
  pred := by
    intro b hb he
    obtain ⟨u, hu, hedge, hlt⟩ := O.forward (R.keys hb) he
    exact ⟨u, R.isSome_iff.mpr hu, hedge, hlt⟩

omit R H O in
/-- **A map that a round leaves as it is holds exactly the dominators.** -/
theorem anc_iff (R : Round edge entry rank node S S) (H : Approx edge entry rank node S)
    (O : FlowOrder edge entry rank node) (hb : node b) : Anc S a b ↔ ¬Avoids edge entry a b :=
  ⟨(R.dominatorTree O).not_avoids, H.dominators (R.isSome_iff.mpr hb)⟩

end Round

theorem Approx.start [DecidableEq α] (O : FlowOrder edge entry rank node) :
    Approx edge entry rank node (Function.update (fun _ => none) entry (some entry)) where
  root := Function.update_self ..
  lower := by
    intro b p hp hb
    rw [Function.update_of_ne hb] at hp
    cases hp
  keys := by
    intro b hb
    by_cases he : b = entry
    · exact he ▸ O.entry_node
    · rw [Function.update_of_ne he] at hb
      cases hb
  forward := by
    intro b x hx hb
    rw [Function.update_of_ne hb] at hx
    cases hx
  kept := by
    intro b x a hx hb
    rw [Function.update_of_ne hb] at hx
    cases hx
  dominators := by
    intro b a hb h
    by_cases he : b = entry
    · by_cases hae : a = entry
      · rw [hae, he]
        exact .refl _
      · exact absurd (.start fun hea => hae hea.symm) (he ▸ h)
    · rw [Function.update_of_ne he] at hb
      cases hb

/-! ## The end of the rounds -/

/-- The ranks of the parents, and of the nodes without one. -/
def weight (rank : α → Nat) (S : α → Option α) (l : List α) : Nat :=
  (l.map fun b => ((S b).map rank).getD (rank b)).sum

theorem Round.weight_le (R : Round edge entry rank node S U) (H : Approx edge entry rank node S)
    (O : FlowOrder edge entry rank node) (b : α) (hb : node b) :
    ((U b).map rank).getD (rank b) ≤ ((S b).map rank).getD (rank b) ∧
      (((U b).map rank).getD (rank b) = ((S b).map rank).getD (rank b) → U b = S b) := by
  obtain ⟨d, hd⟩ := Option.isSome_iff_exists.mp (R.isSome_iff.mpr hb)
  cases hx : S b with
  | none =>
    have he : b ≠ entry := fun he => by
      rw [he, H.root] at hx
      cases hx
    have hlt := (R.tree.lower hd he).1
    rw [hd]
    exact ⟨hlt.le, fun heq => absurd heq hlt.ne⟩
  | some x =>
    rw [hd]
    obtain rfl | hlt := R.parent_le H O hx hd
    · exact ⟨Nat.le_refl _, fun _ => rfl⟩
    · exact ⟨hlt.le, fun heq => absurd heq hlt.ne⟩

/-- **A round that changes the map makes it lighter.** -/
theorem Round.weight_lt (R : Round edge entry rank node S U) (H : Approx edge entry rank node S)
    (O : FlowOrder edge entry rank node) {l : List α} (hl : ∀ b ∈ l, node b) (hne : ∃ b ∈ l, U b ≠ S b) :
    weight rank U l < weight rank S l := by
  obtain ⟨b, hb, hne⟩ := hne
  refine List.sum_lt_sum _ _ (fun c hc => (R.weight_le H O c (hl c hc)).1) ⟨b, hb, ?_⟩
  obtain ⟨hle, heq⟩ := R.weight_le H O b (hl b hb)
  exact Nat.lt_of_le_of_ne hle fun h => hne (heq h)

end

end Datara.Library
