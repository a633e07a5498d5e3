import Mathlib.Data.List.Nodup

/-!
# Trees of digests

A level of digests is combined two by two, an odd last digest with itself, until one is left. When
no two nodes that are formed share a digest, and no leaf is the digest of a node, the digest at the
top determines the leaves, their number included (`top_injective`): a digest has one height, so two
trees with the same top have the same number of levels, and distinct leaves tell a digest paired with
itself from one paired with its neighbour.
-/

namespace Datara.Library.Merkle

variable {δ : Type}

/-- The children of the nodes above a level. -/
def pairs : List δ → List (δ × δ)
  | [] => []
  | [a] => [(a, a)]
  | a :: b :: l => (a, b) :: pairs l

theorem length_pairs (l : List δ) : (pairs l).length = (l.length + 1) / 2 := by
  fun_induction pairs l with
  | case1 => simp
  | case2 => simp
  | case3 a b l ih =>
    rw [List.length_cons, ih]
    simp only [List.length_cons]
    omega

theorem mem_of_mem_pairs {p : δ × δ} : ∀ {l : List δ}, p ∈ pairs l → p.1 ∈ l ∧ p.2 ∈ l
  | [a], h => by
    obtain rfl := List.mem_singleton.mp h
    exact ⟨List.mem_singleton_self a, List.mem_singleton_self a⟩
  | a :: b :: l, h => by
    rcases List.mem_cons.mp h with rfl | h
    · simp
    · obtain ⟨h₁, h₂⟩ := mem_of_mem_pairs h
      exact ⟨List.mem_cons_of_mem _ (List.mem_cons_of_mem _ h₁),
        List.mem_cons_of_mem _ (List.mem_cons_of_mem _ h₂)⟩

theorem nodup_pairs : ∀ {l : List δ}, l.Nodup → (pairs l).Nodup
  | [], _ => List.nodup_nil
  | [_], _ => List.nodup_singleton _
  | a :: b :: l, h => by
    rw [List.nodup_cons, List.nodup_cons] at h
    refine List.nodup_cons.mpr ⟨fun hm => ?_, nodup_pairs h.2.2⟩
    exact h.1 (List.mem_cons_of_mem _ (mem_of_mem_pairs hm).1)

variable {l m : List δ}

theorem pairs_injective (hl : l.Nodup) (hm : m.Nodup) (h : pairs l = pairs m) : l = m := by
  induction l using pairs.induct generalizing m with
  | case1 =>
    have := congrArg List.length h
    rw [length_pairs, length_pairs, List.length_nil] at this
    exact (List.eq_nil_of_length_eq_zero (by omega)).symm
  | case2 a =>
    match m, hm, h with
    | [b], _, h =>
      simp only [pairs, List.cons.injEq, Prod.mk.injEq, and_true, and_self] at h
      rw [h]
    | c :: d :: m, hm, h =>
      simp only [pairs, List.cons.injEq, Prod.mk.injEq] at h
      rw [← h.1.1, ← h.1.2] at hm
      simp at hm
  | case3 a b l ih =>
    match m, hm, h with
    | [c], _, h =>
      simp only [pairs, List.cons.injEq, Prod.mk.injEq] at h
      rw [h.1.1, h.1.2] at hl
      simp at hl
    | c :: d :: m, hm, h =>
      simp only [pairs, List.cons.injEq, Prod.mk.injEq] at h
      rw [List.nodup_cons, List.nodup_cons] at hl hm
      rw [h.1.1, h.1.2, ih hl.2.2 hm.2.2 h.2]

/-- What one function separates, in two lists with the same image, another may as well. -/
theorem map_eq_map_of {α β γ : Type} {f : α → β} {g : α → γ} {l m : List α}
    (hf : ∀ p ∈ l, ∀ q ∈ m, f p = f q → g p = g q) (h : l.map f = m.map f) : l.map g = m.map g := by
  induction l generalizing m with
  | nil => rw [List.map_eq_nil_iff.mp h.symm]
  | cons p l ih =>
    cases m with
    | nil => cases h
    | cons q m =>
      obtain ⟨hp, h⟩ := List.cons.inj h
      rw [List.map_cons, List.map_cons, hf p List.mem_cons_self q List.mem_cons_self hp,
        ih (fun p hp q hq => hf p (List.mem_cons_of_mem _ hp) q (List.mem_cons_of_mem _ hq)) h]

/-- A function that separates two lists' members tells the lists apart. -/
theorem eq_of_map_eq {α β : Type} {f : α → β} {l m : List α}
    (hf : ∀ p ∈ l, ∀ q ∈ m, f p = f q → p = q) (h : l.map f = m.map f) : l = m := by
  have := map_eq_map_of (g := id) hf h
  rwa [List.map_id, List.map_id] at this

section
variable (node : δ → δ → δ)

/-- The level above. -/
def above (level : List δ) : List δ := (pairs level).map fun p => node p.1 p.2

theorem length_above (level : List δ) : (above node level).length = (level.length + 1) / 2 := by
  rw [above, List.length_map, length_pairs]

/-- The last level. -/
def top (level : List δ) : List δ :=
  if level.length ≤ 1 then level else top (above node level)
termination_by level.length
decreasing_by
  rw [length_above]
  omega

variable {level : List δ}

theorem top_of_le (h : level.length ≤ 1) : top node level = level := by
  rw [top, if_pos h]

theorem top_of_lt (h : ¬level.length ≤ 1) : top node level = top node (above node level) := by
  rw [top, if_neg h]

/-- The children of every node that is formed. -/
def nodesOf (level : List δ) : List (δ × δ) :=
  if level.length ≤ 1 then [] else pairs level ++ nodesOf (above node level)
termination_by level.length
decreasing_by
  rw [length_above]
  omega

theorem nodesOf_of_lt (h : ¬level.length ≤ 1) :
    nodesOf node level = pairs level ++ nodesOf node (above node level) := by
  rw [nodesOf, if_neg h]

theorem above_ne_nil (h : ¬level.length ≤ 1) : above node level ≠ [] := by
  intro he
  have := congrArg List.length he
  rw [length_above, List.length_nil] at this
  omega

/-- One digest is left. -/
theorem length_top (h : level ≠ []) : (top node level).length = 1 := by
  induction level using top.induct node with
  | case1 level hl =>
    rw [top_of_le node hl]
    have := List.length_pos_of_ne_nil h
    omega
  | case2 level hl ih =>
    rw [top_of_lt node hl]
    exact ih (above_ne_nil node hl)

theorem mem_nodesOf {p : δ × δ} (h : p ∈ nodesOf node level) :
    p.1 ∈ level ∨ ∃ q ∈ nodesOf node level, p.1 = node q.1 q.2 := by
  induction level using top.induct node with
  | case1 level hl =>
    rw [nodesOf, if_pos hl] at h
    cases h
  | case2 level hl ih =>
    rw [nodesOf_of_lt node hl] at h ⊢
    rcases List.mem_append.mp h with h | h
    · exact .inl (mem_of_mem_pairs h).1
    · right
      rcases ih h with hm | ⟨q, hq, he⟩
      · obtain ⟨q, hq, he⟩ := List.mem_map.mp hm
        exact ⟨q, List.mem_append_left _ hq, he.symm⟩
      · exact ⟨q, List.mem_append_right _ hq, he⟩

theorem mem_top {x : δ} (h : x ∈ top node level) : x ∈ level ∨ ∃ q ∈ nodesOf node level, x = node q.1 q.2 := by
  induction level using top.induct node with
  | case1 level hl =>
    rw [top_of_le node hl] at h
    exact .inl h
  | case2 level hl ih =>
    rw [top_of_lt node hl] at h
    rw [nodesOf_of_lt node hl]
    right
    rcases ih h with hm | ⟨q, hq, he⟩
    · obtain ⟨q, hq, he⟩ := List.mem_map.mp hm
      exact ⟨q, List.mem_append_left _ hq, he.symm⟩
    · exact ⟨q, List.mem_append_right _ hq, he⟩

/-- The digest heads a tree of a height, whose leaves and nodes are among the given ones. -/
inductive Height (leaf : δ → Prop) (formed : δ × δ → Prop) : Nat → δ → Prop
  | leaf {x : δ} (h : leaf x) : Height leaf formed 0 x
  | node {n : Nat} {a b : δ} (h : formed (a, b)) (ha : Height leaf formed n a) :
      Height leaf formed (n + 1) (node a b)

variable {node} {leaf : δ → Prop} {formed : δ × δ → Prop}

section
variable (hnode : ∀ p, formed p → ∀ q, formed q → node p.1 p.2 = node q.1 q.2 → p = q)
  (hleaf : ∀ x, leaf x → ∀ p, formed p → x ≠ node p.1 p.2)
include hnode hleaf

/-- **A digest has one height.** -/
theorem Height.unique {m n : Nat} {x : δ} (h : Height node leaf formed m x)
    (h' : Height node leaf formed n x) : m = n := by
  induction h generalizing n with
  | leaf hx =>
    cases h' with
    | leaf => rfl
    | node hp _ => exact absurd rfl (hleaf _ hx _ hp)
  | @node m a b hp _ ih =>
    generalize hy : node a b = y at h'
    cases h' with
    | leaf hx => exact absurd hy.symm (hleaf _ hx (a, b) hp)
    | @node n c d hq hc =>
      cases hnode (a, b) hp (c, d) hq hy
      rw [ih hc]

variable {n : Nat}

omit hnode hleaf in
theorem Height.above (h : ∀ x ∈ level, Height node leaf formed n x)
    (hf : ∀ p ∈ pairs level, formed p) :
    ∀ x ∈ above node level, Height node leaf formed (n + 1) x := by
  intro x hx
  obtain ⟨p, hp, rfl⟩ := List.mem_map.mp hx
  exact .node (hf p hp) (h _ (mem_of_mem_pairs hp).1)

omit hnode hleaf in
/-- What is left is at least as high as the level it came from. -/
theorem Height.top (h : ∀ x ∈ level, Height node leaf formed n x)
    (hf : ∀ p ∈ nodesOf node level, formed p) :
    ∀ x ∈ top node level, ∃ k, n ≤ k ∧ Height node leaf formed k x := by
  induction level using Merkle.top.induct node generalizing n with
  | case1 level hl =>
    intro x hx
    rw [top_of_le node hl] at hx
    exact ⟨n, Nat.le_refl n, h x hx⟩
  | case2 level hl ih =>
    intro x hx
    rw [top_of_lt node hl] at hx
    rw [nodesOf_of_lt node hl] at hf
    obtain ⟨k, hk, hx⟩ := ih (Height.above h fun p hp => hf p (List.mem_append_left _ hp))
      (fun p hp => hf p (List.mem_append_right _ hp)) x hx
    exact ⟨k, by omega, hx⟩

omit hleaf in
theorem nodup_above (h : level.Nodup) (hf : ∀ p ∈ pairs level, formed p) : (above node level).Nodup := by
  refine List.Nodup.map_on ?_ (nodup_pairs h)
  intro p hp q hq he
  exact hnode p (hf p hp) q (hf q hq) he

/-- The top of a level of one digest is no other level's. -/
theorem top_ne (hl : l ≠ []) (hhl : ∀ x ∈ l, Height node leaf formed n x)
    (hhm : ∀ x ∈ m, Height node leaf formed n x) (hfm : ∀ p ∈ nodesOf node m, formed p)
    (hsl : l.length ≤ 1) (hsm : ¬m.length ≤ 1) : top node l ≠ top node m := by
  intro h
  obtain ⟨x, hx⟩ := List.exists_mem_of_ne_nil l hl
  rw [top_of_le node hsl, top_of_lt node hsm] at h
  rw [nodesOf_of_lt node hsm] at hfm
  have habove := Height.above hhm fun p hp => hfm p (List.mem_append_left _ hp)
  obtain ⟨k, hk, hxk⟩ := Height.top habove (fun p hp => hfm p (List.mem_append_right _ hp)) x
    (h ▸ hx)
  have := (hhl x hx).unique hnode hleaf hxk
  omega

theorem level_injective (hl : l ≠ []) (hm : m ≠ []) (ndl : l.Nodup)
    (ndm : m.Nodup) (hhl : ∀ x ∈ l, Height node leaf formed n x)
    (hhm : ∀ x ∈ m, Height node leaf formed n x) (hfl : ∀ p ∈ nodesOf node l, formed p)
    (hfm : ∀ p ∈ nodesOf node m, formed p) (h : top node l = top node m) : l = m := by
  induction l using Merkle.top.induct node generalizing m n with
  | case1 l hsl =>
    by_cases hsm : m.length ≤ 1
    · rwa [top_of_le node hsl, top_of_le node hsm] at h
    · exact absurd h (top_ne hnode hleaf hl hhl hhm hfm hsl hsm)
  | case2 l hsl ih =>
    by_cases hsm : m.length ≤ 1
    · exact absurd h.symm (top_ne hnode hleaf hm hhm hhl hfl hsm hsl)
    · rw [top_of_lt node hsl, top_of_lt node hsm] at h
      rw [nodesOf_of_lt node hsl] at hfl
      rw [nodesOf_of_lt node hsm] at hfm
      have hpl : ∀ p ∈ pairs l, formed p := fun p hp => hfl p (List.mem_append_left _ hp)
      have hpm : ∀ p ∈ pairs m, formed p := fun p hp => hfm p (List.mem_append_left _ hp)
      have habove : Merkle.above node l = Merkle.above node m :=
        ih (above_ne_nil node hsl) (above_ne_nil node hsm) (nodup_above hnode ndl hpl) (nodup_above hnode ndm hpm)
          (Height.above hhl hpl) (Height.above hhm hpm)
          (fun p hp => hfl p (List.mem_append_right _ hp))
          (fun p hp => hfm p (List.mem_append_right _ hp)) h
      apply pairs_injective ndl ndm
      exact eq_of_map_eq (fun p hp q hq => hnode p (hpl p hp) q (hpm q hq)) habove

/-- **The digest at the top determines the leaves.** -/
theorem top_injective (hl : l ≠ []) (hm : m ≠ []) (ndl : l.Nodup) (ndm : m.Nodup)
    (hll : ∀ x ∈ l, leaf x) (hlm : ∀ x ∈ m, leaf x) (hfl : ∀ p ∈ nodesOf node l, formed p)
    (hfm : ∀ p ∈ nodesOf node m, formed p) (h : top node l = top node m) : l = m :=
  level_injective hnode hleaf hl hm ndl ndm (fun x hx => .leaf (hll x hx))
    (fun x hx => .leaf (hlm x hx)) hfl hfm h

end

end

end Datara.Library.Merkle
