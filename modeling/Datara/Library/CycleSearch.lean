import Mathlib.Data.Finset.Card

/-!
# Searching for a cycle

The search through a stack of nodes for a way back to where it started finds one exactly if there is one
(`leadsBack_eq`). And a relation whose paths from a node all end has no cycle that is reached from there
(`Acc.acyclic`).
-/

namespace Datara.Library

universe u v

/-- A loop over a list in which every step gives a result. -/
theorem foldlM_induction {σ : Type u} {ε : Type v} {f : σ → ε → Option σ} {I : List ε → σ → Prop} {l : List ε} {init : σ}
    (h0 : I [] init) (hstep : ∀ pre e post s, l = pre ++ e :: post → I pre s → ∃ s', f s e = some s' ∧ I (pre ++ [e]) s') :
    ∃ s, l.foldlM f init = some s ∧ I l s := by
  suffices hrest : ∀ rest pre s, l = pre ++ rest → I pre s → ∃ s', rest.foldlM f s = some s' ∧ I l s' from
    hrest l [] init rfl h0
  intro rest
  induction rest with
  | nil =>
    intro pre s heq hI
    rw [List.append_nil] at heq
    exact ⟨s, rfl, heq ▸ hI⟩
  | cons e rest ih =>
    intro pre s heq hI
    obtain ⟨s', hs', hI'⟩ := hstep pre e rest s heq hI
    obtain ⟨t, ht, hIt⟩ := ih (pre ++ [e]) s' (by rw [heq, List.append_assoc, List.singleton_append]) hI'
    refine ⟨t, ?_, hIt⟩
    rw [List.foldlM_cons, hs']
    exact ht

variable {α : Type u}

/-- No path from a node leads into a cycle where every path from it ends. -/
theorem Acc.acyclic {R : α → α → Prop} {a b : α} (h : Acc (fun x y => R y x) a) (hreach : Relation.ReflTransGen R a b) :
    ¬ Relation.TransGen R b b := by
  have hacc : Acc (fun x y => R y x) b := by
    induction hreach with
    | refl => exact h
    | tail _ hlast ih => exact ih.inv hlast
  clear hreach h
  have hacc' := hacc.transGen
  clear hacc
  induction hacc' with
  | intro b _ ih =>
    intro hcycle
    have hswap : Relation.TransGen (fun x y => R y x) b b := Relation.transGen_swap.mp hcycle
    exact ih b hswap hcycle

variable [DecidableEq α]

/-- The new nodes of a list go on the stack; nothing where the start is among them. -/
def pushNew (start : α) : List α → List α → List α → Option (List α × List α)
  | [], stack, visited => some (stack, visited)
  | x :: xs, stack, visited =>
    if x = start then none
    else if x ∈ visited then pushNew start xs stack visited
    else pushNew start xs (x :: stack) (x :: visited)

/-- Whether a way leads from the stack back to the start; nothing when the search has not ended after so many nodes. -/
def leadsBack (next : α → List α) (start : α) : Nat → List α → List α → Option Bool
  | 0, _, _ => none
  | _ + 1, [], _ => some false
  | fuel + 1, x :: stack, visited =>
    match pushNew start (next x) stack visited with
    | none => some true
    | some (stack, visited) => leadsBack next start fuel stack visited

variable {next : α → List α} {start x : α} {xs stack stack' visited visited' done : List α} {nodes : Finset α}

theorem pushNew_eq_none : pushNew start xs stack visited = none ↔ start ∈ xs := by
  induction xs generalizing stack visited with
  | nil => simp [pushNew]
  | cons x xs ih =>
    rw [pushNew, List.mem_cons]
    split
    case isTrue hx => simp [hx]
    case isFalse hx =>
      split
      case isTrue => rw [ih, or_iff_right fun h => hx h.symm]
      case isFalse => rw [ih, or_iff_right fun h => hx h.symm]

theorem pushNew_eq_some (h : pushNew start xs stack visited = some (stack', visited')) :
    ∃ added : List α, stack' = added ++ stack ∧ visited' = added ++ visited ∧ added.Nodup ∧
      (∀ x ∈ added, x ∈ xs ∧ x ∉ visited) ∧ ∀ x ∈ xs, x ∈ visited' := by
  induction xs generalizing stack visited with
  | nil =>
    cases h
    exact ⟨[], rfl, rfl, List.nodup_nil, nofun, nofun⟩
  | cons x xs ih =>
    rw [pushNew] at h
    split at h
    case isTrue => cases h
    case isFalse =>
      split at h
      case isTrue hx =>
        obtain ⟨added, hstack, hvisited, hnodup, hfrom, hall⟩ := ih h
        refine ⟨added, hstack, hvisited, hnodup, fun y hy => ⟨List.mem_cons_of_mem _ (hfrom y hy).1, (hfrom y hy).2⟩, ?_⟩
        intro y hy
        rcases List.mem_cons.mp hy with rfl | hy
        · exact hvisited ▸ List.mem_append_right _ hx
        · exact hall y hy
      case isFalse hx =>
        obtain ⟨added, hstack, hvisited, hnodup, hfrom, hall⟩ := ih h
        have happend : ∀ l, added ++ x :: l = (added ++ [x]) ++ l := fun l => by rw [List.append_assoc]; rfl
        refine ⟨added ++ [x], by rw [hstack, happend], by rw [hvisited, happend], ?_, ?_, ?_⟩
        · refine List.nodup_append.mpr ⟨hnodup, List.pairwise_singleton _ x, fun y hy z hz hyz => ?_⟩
          rw [List.mem_singleton.mp hz] at hyz
          exact (hfrom y hy).2 (hyz ▸ List.mem_cons_self)
        · intro y hy
          rcases List.mem_append.mp hy with hy | hy
          · exact ⟨List.mem_cons_of_mem _ (hfrom y hy).1, fun h => (hfrom y hy).2 (List.mem_cons_of_mem _ h)⟩
          · rw [List.mem_singleton.mp hy]
            exact ⟨List.mem_cons_self, hx⟩
        · intro y hy
          rcases List.mem_cons.mp hy with rfl | hy
          · rw [hvisited]
            exact List.mem_append_right _ List.mem_cons_self
          · exact hall y hy

theorem pushNew_size (h : pushNew start xs stack visited = some (stack', visited')) (hxs : ∀ x ∈ xs, x ∈ nodes) :
    stack'.length + (nodes \ visited'.toFinset).card ≤ stack.length + (nodes \ visited.toFinset).card := by
  obtain ⟨added, rfl, rfl, hnodup, hfrom, -⟩ := pushNew_eq_some h
  have hsub : added.toFinset ⊆ nodes \ visited.toFinset := by
    intro x hx
    obtain ⟨hin, hnot⟩ := hfrom x (List.mem_toFinset.mp hx)
    exact Finset.mem_sdiff.mpr ⟨hxs x hin, fun h => hnot (List.mem_toFinset.mp h)⟩
  have hrest : nodes \ (added ++ visited).toFinset = (nodes \ visited.toFinset) \ added.toFinset := by
    rw [List.toFinset_append, sdiff_sdiff, Finset.union_comm]
    rfl
  have hcard := Finset.card_sdiff_add_card_eq_card hsub
  rw [List.toFinset_card_of_nodup hnodup] at hcard
  rw [hrest, List.length_append]
  omega

/-- The search ends. -/
theorem leadsBack_isSome (hnext : ∀ x, ∀ y ∈ next x, y ∈ nodes) {fuel : Nat}
    (hfuel : stack.length + (nodes \ visited.toFinset).card < fuel) :
    ∃ found, leadsBack next start fuel stack visited = some found := by
  induction fuel generalizing stack visited with
  | zero => omega
  | succ fuel ih =>
    match stack with
    | [] => exact ⟨false, rfl⟩
    | x :: stack =>
      rw [leadsBack]
      match hpush : pushNew start (next x) stack visited with
      | none => exact ⟨true, rfl⟩
      | some (stack', visited') =>
        have hsize := pushNew_size hpush (hnext x)
        rw [List.length_cons] at hfuel
        exact ih (by omega)

/-- A way that is found is one. -/
theorem leadsBack_sound {fuel : Nat} (h : leadsBack next start fuel stack visited = some true) :
    ∃ x ∈ stack, Relation.TransGen (fun x y => y ∈ next x) x start := by
  induction fuel generalizing stack visited with
  | zero => cases h
  | succ fuel ih =>
    match stack with
    | [] => cases h
    | x :: stack =>
      rw [leadsBack] at h
      match hpush : pushNew start (next x) stack visited with
      | none => exact ⟨x, List.mem_cons_self, .single (pushNew_eq_none.mp hpush)⟩
      | some (stack', visited') =>
        rw [hpush] at h
        obtain ⟨y, hy, hway⟩ := ih h
        obtain ⟨added, rfl, -, -, hfrom, -⟩ := pushNew_eq_some hpush
        rcases List.mem_append.mp hy with hy | hy
        · exact ⟨x, List.mem_cons_self, .head (hfrom y hy).1 hway⟩
        · exact ⟨y, List.mem_cons_of_mem _ hy, hway⟩

theorem leadsBack_closed {fuel : Nat} (h : leadsBack next start fuel stack visited = some false)
    (hvisited : ∀ x ∈ visited, x ∈ stack ∨ x ∈ done)
    (hdone : ∀ x ∈ done, ∀ y ∈ next x, y ≠ start ∧ (y ∈ stack ∨ y ∈ done)) :
    ∃ closed : List α, (∀ x, x ∈ stack ∨ x ∈ done → x ∈ closed) ∧ ∀ x ∈ closed, ∀ y ∈ next x, y ≠ start ∧ y ∈ closed := by
  induction fuel generalizing stack visited done with
  | zero => cases h
  | succ fuel ih =>
    match stack with
    | [] =>
      refine ⟨done, fun x hx => hx.resolve_left nofun, fun x hx y hy => ?_⟩
      obtain ⟨hne, hy⟩ := hdone x hx y hy
      exact ⟨hne, hy.resolve_left nofun⟩
    | x :: stack =>
      rw [leadsBack] at h
      match hpush : pushNew start (next x) stack visited with
      | none =>
        rw [hpush] at h
        cases h
      | some (stack', visited') =>
        rw [hpush] at h
        have hnone : start ∉ next x := fun hin => by
          rw [pushNew_eq_none.mpr hin] at hpush
          cases hpush
        obtain ⟨added, rfl, rfl, -, -, hall⟩ := pushNew_eq_some hpush
        -- A node that was on the stack or done is on the new stack, or done now.
        have hmove : ∀ y, y ∈ x :: stack ∨ y ∈ done → y ∈ added ++ stack ∨ y ∈ x :: done := by
          intro y hy
          rcases hy with hy | hy
          · rcases List.mem_cons.mp hy with rfl | hy
            · exact .inr List.mem_cons_self
            · exact .inl (List.mem_append_right _ hy)
          · exact .inr (List.mem_cons_of_mem _ hy)
        have hvisited' : ∀ y ∈ added ++ visited, y ∈ added ++ stack ∨ y ∈ x :: done := by
          intro y hy
          rcases List.mem_append.mp hy with hy | hy
          · exact .inl (List.mem_append_left _ hy)
          · exact hmove y (hvisited y hy)
        have hdone' : ∀ z ∈ x :: done, ∀ y ∈ next z, y ≠ start ∧ (y ∈ added ++ stack ∨ y ∈ x :: done) := by
          intro z hz y hy
          rcases List.mem_cons.mp hz with rfl | hz
          · exact ⟨fun heq => hnone (heq ▸ hy), hvisited' y (hall y hy)⟩
          · exact ⟨(hdone z hz y hy).1, hmove y (hdone z hz y hy).2⟩
        obtain ⟨closed, hmem, hclosed⟩ := ih h hvisited' hdone'
        exact ⟨closed, fun y hy => hmem y (hmove y hy), hclosed⟩

/-- **The search finds a cycle through where it starts exactly if there is one.** -/
theorem leadsBack_eq (hnext : ∀ x, ∀ y ∈ next x, y ∈ nodes) {fuel : Nat}
    (hfuel : (next start).length + nodes.card < fuel) :
    ∃ found, leadsBack next start fuel (next start).reverse [] = some found ∧
      (found = true ↔ Relation.TransGen (fun x y => y ∈ next x) start start) := by
  obtain ⟨found, hfound⟩ : ∃ found, leadsBack next start fuel (next start).reverse [] = some found :=
    leadsBack_isSome hnext (by simpa using hfuel)
  refine ⟨found, hfound, fun htrue => ?_, fun hcycle => ?_⟩
  · subst htrue
    obtain ⟨x, hx, hway⟩ := leadsBack_sound hfound
    exact .head (List.mem_reverse.mp hx) hway
  · cases found with
    | true => rfl
    | false =>
      exfalso
      obtain ⟨closed, hmem, hclosed⟩ := leadsBack_closed hfound nofun fun x (hx : x ∈ []) => nomatch hx
      have hreach : ∀ y, Relation.TransGen (fun x y => y ∈ next x) start y → y ∈ closed := by
        intro y hy
        induction hy with
        | single hy => exact hmem _ (.inl (List.mem_reverse.mpr hy))
        | tail _ hlast ih => exact (hclosed _ ih _ hlast).2
      obtain ⟨x, hx, hlast⟩ := Relation.TransGen.tail'_iff.mp hcycle
      rcases Relation.reflTransGen_iff_eq_or_transGen.mp hx with rfl | hx
      · exact (hclosed _ (hmem _ (.inl (List.mem_reverse.mpr hlast))) _ hlast).1 rfl
      · exact (hclosed x (hreach x hx) _ hlast).1 rfl

end Datara.Library
