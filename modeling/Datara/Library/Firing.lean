import Mathlib.Data.Set.Finite.List

/-!
# Firing systems

Tasks that become ready when enough others are done: `fires done i` says that the tasks of `done` are enough
for `i`. Whatever ready task is done next, no task is ready or done twice, and when none is ready any more
the tasks that are done are those that what is done fires (`Fired.exhausted`). What holds of a task when it
holds of enough others holds of every task that gets done (`Fired.induction`).
-/

namespace Datara.Library

universe u

variable {ι : Type u} {fires : List ι → ι → Prop} {done ready newly : List ι} {i j : ι}

/-- The tasks that are done, in order, and those that are ready. -/
structure Fired (fires : List ι → ι → Prop) (done ready : List ι) : Prop where
  nodup : (done ++ ready).Nodup
  fired : ∀ i, i ∈ done ++ ready ↔ fires done i
  order : ∀ pre i post, done = pre ++ i :: post → fires pre i

/-- At first nothing is done. -/
theorem Fired.start (hnodup : ready.Nodup) (hfires : ∀ i, i ∈ ready ↔ fires [] i) : Fired fires [] ready where
  nodup := hnodup
  fired := hfires
  order pre i post h := by
    cases pre <;> cases h

theorem Fired.perm {ready' : List ι} (h : Fired fires done ready) (hperm : ready.Perm ready') :
    Fired fires done ready' where
  nodup := ((hperm.append_left done).nodup_iff).mp h.nodup
  fired i := (hperm.append_left done).mem_iff.symm.trans (h.fired i)
  order := h.order

/-- **A ready task is done**, and makes others ready. -/
theorem Fired.next (h : Fired fires done (j :: ready))
    (hmono : ∀ i, fires done i → fires (done ++ [j]) i) (hnodup : newly.Nodup)
    (hnewly : ∀ i, i ∈ newly ↔ fires (done ++ [j]) i ∧ ¬fires done i) :
    Fired fires (done ++ [j]) (ready ++ newly) where
  nodup := by
    rw [← List.append_assoc, List.append_assoc done]
    refine List.Nodup.append h.nodup hnodup fun i hi hnew => ?_
    exact ((hnewly i).mp hnew).2 ((h.fired i).mp hi)
  fired i := by
    have hsplit : i ∈ done ++ [j] ++ (ready ++ newly) ↔ i ∈ done ++ j :: ready ∨ i ∈ newly := by
      simp only [List.mem_append, List.mem_cons, List.not_mem_nil, or_false]
      tauto
    rw [hsplit, h.fired, hnewly]
    constructor
    · rintro (hf | ⟨hf, -⟩)
      · exact hmono i hf
      · exact hf
    · intro hf
      by_cases hi : fires done i
      · exact .inl hi
      · exact .inr ⟨hf, hi⟩
  order pre i post heq := by
    obtain rfl | ⟨post', x, rfl⟩ := List.eq_nil_or_concat' post
    · obtain ⟨rfl, hj⟩ := List.append_inj' heq rfl
      obtain rfl := List.singleton_inj.mp hj
      exact (h.fired j).mp (List.mem_append_right _ List.mem_cons_self)
    · rw [← List.cons_append, ← List.append_assoc] at heq
      exact h.order pre i post' (List.append_inj' heq rfl).1

theorem Fired.exhausted (h : Fired fires done []) (i : ι) : i ∈ done ↔ fires done i := by
  rw [← h.fired, List.append_nil]

/-- **What holds of a task when it holds of enough others holds of every task that is done.** -/
theorem Fired.induction {motive : ι → Prop} (h : Fired fires done ready)
    (hstep : ∀ pre i, pre <+: done → (∀ j ∈ pre, motive j) → fires pre i → motive i) :
    ∀ i ∈ done, motive i := by
  have hpre : ∀ (pre post : List ι), done = pre ++ post → ∀ j ∈ pre, motive j := by
    intro pre
    induction pre using List.reverseRecOn with
    | nil => exact fun _ _ => nofun
    | append_singleton pre i ih =>
      intro post heq j hj
      rw [List.append_assoc] at heq
      have hall := ih _ heq
      obtain hj | hj := List.mem_append.mp hj
      · exact hall j hj
      · obtain rfl := List.mem_singleton.mp hj
        exact hstep pre j ⟨_, heq.symm⟩ hall (h.order pre j post heq)
  exact hpre done [] (List.append_nil done).symm

theorem Fired.length_le {n : Nat} {done ready : List Nat} {fires : List Nat → Nat → Prop}
    (h : Fired fires done ready) (hlt : ∀ i, fires done i → i < n) : (done ++ ready).length ≤ n := by
  have hsub : done ++ ready ⊆ List.range n := fun i hi => List.mem_range.mpr (hlt i ((h.fired i).mp hi))
  simpa using (h.nodup.subperm hsub).length_le

/-- Where each task of a list depends on another one of it, the dependencies lead to a cycle. -/
theorem exists_cycle {dep : ι → ι → Prop} {l : List ι} (hdep : ∀ i ∈ l, ∃ j ∈ l, dep i j) (hi : i ∈ l) :
    ∃ c ∈ l, Relation.ReflTransGen dep i c ∧ Relation.TransGen dep c c := by
  by_contra hnone
  let below : {j // j ∈ l ∧ Relation.ReflTransGen dep i j} → {j // j ∈ l ∧ Relation.ReflTransGen dep i j} → Prop :=
    fun a b => Relation.TransGen dep b.1 a.1
  have : Finite {j // j ∈ l ∧ Relation.ReflTransGen dep i j} :=
    Set.Finite.to_subtype ((List.finite_toSet l).subset fun j hj => hj.1)
  have : Std.Irrefl below := ⟨fun a ha => hnone ⟨a.1, a.2.1, a.2.2, ha⟩⟩
  have hwf : WellFounded below := Finite.wellFounded_of_trans_of_irrefl below
  obtain ⟨m, -, hmin⟩ := hwf.has_min Set.univ ⟨⟨i, hi, .refl⟩, trivial⟩
  obtain ⟨j, hj, hmj⟩ := hdep m.1 m.2.1
  exact hmin ⟨j, hj, m.2.2.tail hmj⟩ trivial (.single hmj)

end Datara.Library
