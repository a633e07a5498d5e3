import Datara.Ownership.Domain

/-!
# The dense domain refines the one of sets

As long as there is room for the sets (`Fits`), the number of a set stays its number, each count of borrows covers the
set of its state, and a join of dense states is the join of the states they stand for (`dense_refines`).
-/

namespace Datara.Ownership.Domain

open Library

/-! ## What the domains promise -/

/-- Equal but for where and why a variable was moved. -/
def VarBaseState.Same : VarBaseState → VarBaseState → Prop
  | .moved _ _, .moved _ _ => True
  | a, b => a = b

/-- The order of the domain: `Uninit` is at the bottom and `Unknown` at the top. -/
structure AbstractVarState.Le (s t : AbstractVarState) : Prop where
  base : s.base = .uninit ∨ t.base = .unknown ∨ s.base.Same t.base
  borrows : s.borrows ≤ t.borrows
  mutBorrows : s.mutBorrows ≤ t.mutBorrows
  activeBorrows : s.activeBorrows ⊆ t.activeBorrows

/-- Equal but for where and why a variable was moved. -/
structure DenseVarState.Same (s t : DenseVarState) : Prop where
  base : s.base.Same t.base
  borrows : s.borrows = t.borrows
  mutBorrows : s.mutBorrows = t.mutBorrows
  borrowSetId : s.borrowSetId = t.borrowSetId

/-- Numbers are equal when their sets are and still have the meaning they were given with; a join of two states is
there, stands for the join of what they stand for, and is above both; and joins commute, associate and are idempotent. -/
structure Faithful (w : World) : Prop where
  canonical : ∀ x ∈ w.given, ∀ y ∈ w.given, x.1 = y.1 ↔ x.2 = y.2
  meaning : ∀ x ∈ w.given, w.interner.toHashSet x.1 = x.2
  total : ∀ s ∈ w.states, ∀ t ∈ w.states, (s.join t w.interner).isSome
  refines : ∀ j ∈ w.joins, j.result.toAbstract w.interner =
    (j.left.toAbstract w.interner).join (j.right.toAbstract w.interner)
  upper : ∀ j ∈ w.joins, (j.left.toAbstract w.interner).Le (j.result.toAbstract w.interner) ∧
    (j.right.toAbstract w.interner).Le (j.result.toAbstract w.interner)
  comm : ∀ j ∈ w.joins, ∀ k ∈ w.joins, k.left = j.right → k.right = j.left → j.result.Same k.result
  assoc : ∀ ab ∈ w.joins, ∀ abc ∈ w.joins, ∀ bc ∈ w.joins, ∀ abc' ∈ w.joins,
    abc.left = ab.result → bc.left = ab.right → bc.right = abc.right → abc'.left = ab.left → abc'.right = bc.result →
    abc.result = abc'.result
  idem : ∀ j ∈ w.joins, j.left = j.right → j.result = j.left

/-- A set has its number, or there is a `u32` left for it. -/
def Room (set : Finset String) (interner : BorrowSetInterner) : Prop :=
  (interner.map set).isSome ∨ interner.sets.length < 2 ^ 32

/-- **There is room for what a step adds**: a number for its set, and for the count of borrows one more. -/
def Fits : Op → World → Prop
  | .intern set, w => Room set w.interner
  | .union a b, w => Room (w.interner.toHashSet a ∪ w.interner.toHashSet b) w.interner
  | .insert base item, w => Room (insert item (w.interner.toHashSet base)) w.interner
  | .make _, _ => True
  | .view k item, w | .mutView k item, w => ∀ s, w.states[k]? = some s →
      Room (insert item (w.interner.toHashSet s.borrowSetId)) w.interner ∧ s.borrows + 1 < 2 ^ 64
  | .join k l, w => ∀ s t, w.states[k]? = some s → w.states[l]? = some t →
      Room (w.interner.toHashSet s.borrowSetId ∪ w.interner.toHashSet t.borrowSetId) w.interner

/-! ## The domain of sets -/

namespace VarBaseState

variable {a b c : VarBaseState}

theorem join_comm (a b : VarBaseState) : (a.join b).Same (b.join a) := by cases a <;> cases b <;> trivial

theorem join_assoc (a b c : VarBaseState) : (a.join b).join c = a.join (b.join c) := by
  cases a <;> cases b <;> cases c <;> rfl

theorem join_self (a : VarBaseState) : a.join a = a := by cases a <;> rfl

theorem le_join_left (a b : VarBaseState) : a = .uninit ∨ a.join b = .unknown ∨ a.Same (a.join b) := by
  cases a <;> cases b <;> simp [join, Same]

theorem le_join_right (a b : VarBaseState) : b = .uninit ∨ a.join b = .unknown ∨ b.Same (a.join b) := by
  cases a <;> cases b <;> simp [join, Same]

end VarBaseState

namespace AbstractVarState

variable {s t u : AbstractVarState}

theorem le_join_left (s t : AbstractVarState) : s.Le (s.join t) where
  base := VarBaseState.le_join_left _ _
  borrows := by simp only [join]; omega
  mutBorrows := by simp only [join]; omega
  activeBorrows := Finset.subset_union_left

theorem le_join_right (s t : AbstractVarState) : t.Le (s.join t) where
  base := VarBaseState.le_join_right _ _
  borrows := by simp only [join]; omega
  mutBorrows := by simp only [join]; omega
  activeBorrows := Finset.subset_union_right

/-- The count of a join covers the sets of both sides, so a second join counts nothing less. -/
theorem join_assoc (s t u : AbstractVarState) : (s.join t).join u = s.join (t.join u) := by
  have hst := Finset.card_le_card (@Finset.subset_union_left _ _ (s.activeBorrows ∪ t.activeBorrows) u.activeBorrows)
  have htu := Finset.card_le_card (@Finset.subset_union_right _ _ s.activeBorrows (t.activeBorrows ∪ u.activeBorrows))
  rw [← Finset.union_assoc] at htu
  simp only [join, VarBaseState.join_assoc, Finset.union_assoc, mk.injEq, true_and, and_true] at *
  omega

theorem join_comm (s t : AbstractVarState) :
    (s.join t).base.Same (t.join s).base ∧ (s.join t).borrows = (t.join s).borrows ∧
      (s.join t).mutBorrows = (t.join s).mutBorrows ∧ (s.join t).activeBorrows = (t.join s).activeBorrows := by
  refine ⟨VarBaseState.join_comm _ _, ?_, Nat.max_comm _ _, Finset.union_comm _ _⟩
  simp only [join, Finset.union_comm t.activeBorrows]
  omega

theorem join_self (h : s.activeBorrows.card ≤ s.borrows) : s.join s = s := by
  obtain ⟨base, borrows, mutBorrows, activeBorrows⟩ := s
  simp only [join, VarBaseState.join_self, Finset.union_self, mk.injEq, true_and, and_true, Nat.max_self] at *
  omega

end AbstractVarState

/-! ## The interner -/

/-- The table and its index agree, the empty set has number 0, and every number is a `u32`. -/
structure BorrowSetInterner.Ok (interner : BorrowSetInterner) : Prop where
  consed : Consed interner.sets interner.map
  empty : interner.sets[0]? = some ∅
  room : interner.sets.length ≤ 2 ^ 32

/-- A number for a set, and an interner that has it and all it had. -/
structure Gives (interner : BorrowSetInterner) (set : Finset String) (r : Nat × BorrowSetInterner) : Prop where
  ok : r.2.Ok
  kept : interner.sets <+: r.2.sets
  here : r.2.sets[r.1]? = some set

variable {interner interner' : BorrowSetInterner} {set A B : Finset String} {a b id : Nat} {item : String}
  {s t : DenseVarState} {w w' : World} {op : Op}

theorem toHashSet_of_getElem? (h : interner.sets[id]? = some set) : interner.toHashSet id = set := by
  rw [BorrowSetInterner.toHashSet, h]
  rfl

theorem new_ok : BorrowSetInterner.new.Ok where
  consed := Consed.single ∅
  empty := rfl
  room := by simp [BorrowSetInterner.new]

theorem gives_self (ok : interner.Ok) (h : interner.sets[id]? = some set) : Gives interner set (id, interner) :=
  ⟨ok, List.prefix_refl _, h⟩

theorem intern_gives (ok : interner.Ok) (room : Room set interner) : Gives interner set (interner.intern set) := by
  unfold BorrowSetInterner.intern
  cases hmap : interner.map set with
  | some id => exact gives_self ok ((ok.consed set id).mp hmap)
  | none =>
    have hlt : interner.sets.length < 2 ^ 32 := by simpa [Room, hmap] using room
    have hid : interner.sets.length % 2 ^ 32 = interner.sets.length := Nat.mod_eq_of_lt hlt
    have hkept : interner.sets <+: interner.sets ++ [set] := List.prefix_append _ _
    simp only [hid]
    refine ⟨⟨ok.consed.push hmap, getElem?_kept hkept ok.empty, ?_⟩, hkept, ?_⟩
    · rw [List.length_append]
      exact hlt
    · exact List.getElem?_concat_length

theorem union_gives (ok : interner.Ok) (ha : interner.sets[a]? = some A) (hb : interner.sets[b]? = some B)
    (room : Room (A ∪ B) interner) : ∃ r, interner.union a b = some r ∧ Gives interner (A ∪ B) r := by
  have hzero : ∀ {c C}, interner.sets[c]? = some C → c = 0 → C = ∅ := by
    rintro c C hc rfl
    exact Option.some.inj (hc.symm.trans ok.empty)
  unfold BorrowSetInterner.union
  split
  case isTrue hskip =>
    refine ⟨_, rfl, gives_self ok ?_⟩
    rcases hskip with rfl | hb0
    · rw [ha, Option.some.inj (ha.symm.trans hb), Finset.union_self]
    · rw [ha, hzero hb hb0, Finset.union_empty]
  case isFalse =>
    split
    case isTrue ha0 =>
      refine ⟨_, rfl, gives_self ok ?_⟩
      rw [hb, hzero ha ha0, Finset.empty_union]
    case isFalse =>
      rw [ha, hb]
      exact ⟨_, rfl, intern_gives ok room⟩

theorem insert_gives (ok : interner.Ok) (room : Room (insert item (interner.toHashSet a)) interner) :
    Gives interner (insert item (interner.toHashSet a)) (interner.insert a item) := by
  unfold BorrowSetInterner.insert
  cases ha : interner.sets[a]? with
  | none =>
    have hset : interner.toHashSet a = ∅ := by rw [BorrowSetInterner.toHashSet, ha]; rfl
    rw [hset, insert_empty_eq] at room ⊢
    exact intern_gives ok room
  | some A =>
    rw [toHashSet_of_getElem? ha] at room ⊢
    by_cases hmem : item ∈ A
    · rw [Finset.insert_eq_of_mem hmem]
      simp only [hmem, if_true]
      exact gives_self ok ha
    · simp only [hmem, if_false]
      exact intern_gives ok room

/-! ## Dense states -/

/-- The number of a state is one of the interner's, and its count covers the set. -/
def Covered (interner : BorrowSetInterner) (s : DenseVarState) : Prop :=
  ∃ set, interner.sets[s.borrowSetId]? = some set ∧ set.card ≤ s.borrows

theorem Covered.mono (h : Covered interner s) (hkept : interner.sets <+: interner'.sets) : Covered interner' s := by
  obtain ⟨set, hset, hcard⟩ := h
  exact ⟨set, getElem?_kept hkept hset, hcard⟩

theorem Covered.toAbstract_eq (h : Covered interner s) (hkept : interner.sets <+: interner'.sets) :
    s.toAbstract interner' = s.toAbstract interner := by
  obtain ⟨set, hset, -⟩ := h
  rw [DenseVarState.toAbstract, DenseVarState.toAbstract, toHashSet_of_getElem? hset,
    toHashSet_of_getElem? (getElem?_kept hkept hset)]

theorem ofBase_covered (ok : interner.Ok) (base : VarBaseState) : Covered interner (.ofBase base) :=
  ⟨∅, ok.empty, Nat.le_refl 0⟩

theorem covered_of_insert (hs : Covered interner s)
    (hgives : Gives interner (insert item (interner.toHashSet s.borrowSetId)) (id, interner'))
    (hcount : s.borrows + 1 < 2 ^ 64) (ht : t.borrows = (s.borrows + 1) % 2 ^ 64) (hid : t.borrowSetId = id) :
    Covered interner' t := by
  obtain ⟨set, hset, hcard⟩ := hs
  refine ⟨insert item set, ?_, ?_⟩
  · rw [hid, hgives.here, toHashSet_of_getElem? hset]
  · rw [ht, Nat.mod_eq_of_lt hcount]
    exact Nat.le_trans (Finset.card_insert_le item set) (Nat.succ_le_succ hcard)

/-- **A join of dense states** is there and stands for the join of what they stand for. -/
theorem join_spec (ok : interner.Ok) (hs : Covered interner s) (ht : Covered interner t)
    (room : Room (interner.toHashSet s.borrowSetId ∪ interner.toHashSet t.borrowSetId) interner) :
    ∃ d interner', s.join t interner = some (d, interner') ∧ interner'.Ok ∧ interner.sets <+: interner'.sets ∧
      Covered interner' d ∧ d.toAbstract interner' = (s.toAbstract interner).join (t.toAbstract interner) ∧
      (s = t → d = s) := by
  by_cases heq : s = t
  · -- the early exit needs the count to cover the set
    subst heq
    refine ⟨s, interner, by rw [DenseVarState.join, if_pos rfl], ok, List.prefix_refl _, hs, ?_, fun _ => rfl⟩
    obtain ⟨set, hset, hcard⟩ := hs
    refine (AbstractVarState.join_self ?_).symm
    simpa only [DenseVarState.toAbstract, toHashSet_of_getElem? hset] using hcard
  · obtain ⟨A, hA, hAcard⟩ := hs
    obtain ⟨B, hB, hBcard⟩ := ht
    rw [toHashSet_of_getElem? hA, toHashSet_of_getElem? hB] at room
    obtain ⟨⟨id, interner'⟩, hunion, hgives⟩ := union_gives ok hA hB room
    have hlen : interner'.len id = (A ∪ B).card := by rw [BorrowSetInterner.len, hgives.here]; rfl
    refine ⟨_, interner', by rw [DenseVarState.join, if_neg heq, hunion], hgives.ok, hgives.kept,
      ⟨A ∪ B, hgives.here, ?_⟩, ?_, fun h => absurd h heq⟩
    · simp only [hlen]
      omega
    · simp [DenseVarState.toAbstract, AbstractVarState.join, toHashSet_of_getElem? hgives.here, toHashSet_of_getElem? hA, toHashSet_of_getElem? hB, hlen]

theorem join_isSome (hs : Covered interner s) (ht : Covered interner t) : (s.join t interner).isSome := by
  obtain ⟨A, hA, -⟩ := hs
  obtain ⟨B, hB, -⟩ := ht
  unfold DenseVarState.join BorrowSetInterner.union
  rw [hA, hB]
  split
  · rfl
  · split
    · rename_i h
      split at h
      · cases h
      · split at h <;> cases h
    · rfl

theorem Covered.id_eq (ok : interner.Ok) (hs : Covered interner s) (ht : Covered interner t)
    (h : interner.toHashSet s.borrowSetId = interner.toHashSet t.borrowSetId) : s.borrowSetId = t.borrowSetId := by
  obtain ⟨A, hA, -⟩ := hs
  obtain ⟨B, hB, -⟩ := ht
  rw [toHashSet_of_getElem? hA, toHashSet_of_getElem? hB] at h
  exact (ok.consed.inj hA hB).mpr h

theorem Covered.eq_of_toAbstract (ok : interner.Ok) (hs : Covered interner s) (ht : Covered interner t)
    (h : s.toAbstract interner = t.toAbstract interner) : s = t := by
  have hid := hs.id_eq ok ht (congrArg AbstractVarState.activeBorrows h)
  obtain ⟨base, borrows, mutBorrows, borrowSetId⟩ := s
  obtain ⟨base', borrows', mutBorrows', borrowSetId'⟩ := t
  simp only [DenseVarState.toAbstract, AbstractVarState.mk.injEq] at h hid
  obtain ⟨rfl, rfl, rfl, -⟩ := h
  rw [hid]

/-! ## Runs -/

/-- What every step keeps. -/
structure Inv (w : World) : Prop where
  ok : w.interner.Ok
  given : ∀ x ∈ w.given, w.interner.sets[x.1]? = some x.2
  states : ∀ s ∈ w.states, Covered w.interner s
  joins : ∀ j ∈ w.joins, (j.left ∈ w.states ∧ j.right ∈ w.states ∧ j.result ∈ w.states) ∧
    j.result.toAbstract w.interner = (j.left.toAbstract w.interner).join (j.right.toAbstract w.interner) ∧
    (j.left = j.right → j.result = j.left)

theorem init_inv : Inv {} where
  ok := new_ok
  given := by simp [BorrowSetInterner.new]
  states := by simp
  joins := by simp

section
variable (hinv : Inv w)
include hinv

theorem Inv.joins_mono (hkept : w.interner.sets <+: interner'.sets) {j : Joined} (hj : j ∈ w.joins) :
    j.result.toAbstract interner' = (j.left.toAbstract interner').join (j.right.toAbstract interner') := by
  obtain ⟨⟨hleft, hright, hresult⟩, heq, -⟩ := hinv.joins j hj
  rw [(hinv.states _ hleft).toAbstract_eq hkept, (hinv.states _ hright).toAbstract_eq hkept,
    (hinv.states _ hresult).toAbstract_eq hkept, heq]

theorem give_inv {r : Nat × BorrowSetInterner} (hgives : Gives w.interner set r) :
    Inv (w.give set r) where
  ok := hgives.ok
  given x hx := by
    rcases List.mem_append.mp hx with hx | hx
    · exact getElem?_kept hgives.kept (hinv.given x hx)
    · obtain rfl := List.mem_singleton.mp hx
      exact hgives.here
  states s hs := (hinv.states s hs).mono hgives.kept
  joins j hj := ⟨(hinv.joins j hj).1, hinv.joins_mono hgives.kept hj, (hinv.joins j hj).2.2⟩

theorem add_inv {r : DenseVarState × BorrowSetInterner} (ok : r.2.Ok)
    (hkept : w.interner.sets <+: r.2.sets) (hr : Covered r.2 r.1) : Inv (w.add r) where
  ok := ok
  given x hx := getElem?_kept hkept (hinv.given x hx)
  states s hs := by
    rcases List.mem_append.mp hs with hs | hs
    · exact (hinv.states s hs).mono hkept
    · obtain rfl := List.mem_singleton.mp hs
      exact hr
  joins j hj := by
    obtain ⟨⟨hleft, hright, hresult⟩, -, hidem⟩ := hinv.joins j hj
    exact ⟨⟨List.mem_append_left _ hleft, List.mem_append_left _ hright, List.mem_append_left _ hresult⟩,
      hinv.joins_mono hkept hj, hidem⟩

theorem borrow_inv {r : DenseVarState × BorrowSetInterner} (hs : s ∈ w.states)
    (hfits : Room (insert item (w.interner.toHashSet s.borrowSetId)) w.interner ∧ s.borrows + 1 < 2 ^ 64)
    (hid : (r.1.borrowSetId, r.2) = w.interner.insert s.borrowSetId item)
    (hcount : r.1.borrows = (s.borrows + 1) % 2 ^ 64) : Inv (w.add r) := by
  have hgives := insert_gives hinv.ok hfits.1
  rw [← hid] at hgives
  exact add_inv hinv hgives.ok hgives.kept (covered_of_insert (hinv.states s hs) hgives hfits.2 hcount rfl)

theorem step_inv (hfits : Fits op w) (hstep : step op w = some w') : Inv w' := by
  cases op with
  | intern set =>
    cases hstep
    exact give_inv hinv (intern_gives hinv.ok hfits)
  | union a b =>
    obtain ⟨⟨ha, hb⟩, hstep⟩ := Option.ite_none_right_eq_some.mp hstep
    obtain ⟨x, hx, rfl⟩ := List.mem_map.mp ha
    obtain ⟨y, hy, rfl⟩ := List.mem_map.mp hb
    have hA := hinv.given x hx
    have hB := hinv.given y hy
    simp only [Fits, toHashSet_of_getElem? hA, toHashSet_of_getElem? hB] at hfits hstep
    obtain ⟨r, hunion, hgives⟩ := union_gives hinv.ok hA hB hfits
    rw [hunion] at hstep
    cases hstep
    exact give_inv hinv hgives
  | insert base item =>
    cases hstep
    exact give_inv hinv (insert_gives hinv.ok hfits)
  | make base =>
    cases hstep
    exact add_inv hinv hinv.ok (List.prefix_refl _) (ofBase_covered hinv.ok base)
  | view k item =>
    obtain ⟨s, hs, rfl⟩ := Option.map_eq_some_iff.mp hstep
    exact borrow_inv hinv (List.mem_of_getElem? hs) (hfits s hs) rfl rfl
  | mutView k item =>
    obtain ⟨s, hs, rfl⟩ := Option.map_eq_some_iff.mp hstep
    exact borrow_inv hinv (List.mem_of_getElem? hs) (hfits s hs) rfl rfl
  | join k l =>
    simp only [step] at hstep
    cases hs : w.states[k]? with
    | none => simp [hs] at hstep
    | some s =>
    cases ht : w.states[l]? with
    | none => simp [hs, ht] at hstep
    | some t =>
    have hsmem := List.mem_of_getElem? hs
    have htmem := List.mem_of_getElem? ht
    have hscov := hinv.states s hsmem
    have htcov := hinv.states t htmem
    obtain ⟨d, interner', hjoin, ok, hkept, hcov, heq, hidem⟩ := join_spec hinv.ok hscov htcov (hfits s t hs ht)
    simp only [hs, ht, hjoin, Option.map_some, Option.some.injEq] at hstep
    subst hstep
    have hadd := add_inv (r := (d, interner')) hinv ok hkept hcov
    refine ⟨hadd.ok, hadd.given, hadd.states, fun j hj => ?_⟩
    rcases List.mem_append.mp hj with hj | hj
    · exact hadd.joins j hj
    · obtain rfl := List.mem_singleton.mp hj
      refine ⟨⟨List.mem_append_left _ hsmem, List.mem_append_left _ htmem,
        List.mem_append_right _ (List.mem_singleton_self d)⟩, ?_, hidem⟩
      exact heq.trans (by rw [← hscov.toAbstract_eq hkept, ← htcov.toAbstract_eq hkept]; rfl)

theorem faithful_of_inv : Faithful w where
  canonical x hx y hy := hinv.ok.consed.inj (hinv.given x hx) (hinv.given y hy)
  meaning x hx := toHashSet_of_getElem? (hinv.given x hx)
  total s hs t ht := join_isSome (hinv.states s hs) (hinv.states t ht)
  refines j hj := (hinv.joins j hj).2.1
  upper j hj := by
    rw [(hinv.joins j hj).2.1]
    exact ⟨AbstractVarState.le_join_left _ _, AbstractVarState.le_join_right _ _⟩
  comm j hj k hk hleft hright := by
    obtain ⟨⟨-, -, hjmem⟩, hjeq, -⟩ := hinv.joins j hj
    obtain ⟨⟨-, -, hkmem⟩, hkeq, -⟩ := hinv.joins k hk
    have hcomm := AbstractVarState.join_comm (j.left.toAbstract w.interner) (j.right.toAbstract w.interner)
    rw [hleft, hright] at hkeq
    rw [← hjeq, ← hkeq] at hcomm
    exact ⟨hcomm.1, hcomm.2.1, hcomm.2.2.1,
      (hinv.states _ hjmem).id_eq hinv.ok (hinv.states _ hkmem) hcomm.2.2.2⟩
  assoc ab hab abc habc bc hbc abc' habc' h₁ h₂ h₃ h₄ h₅ := by
    obtain ⟨⟨-, -, hmem⟩, heq, -⟩ := hinv.joins abc habc
    obtain ⟨⟨-, -, hmem'⟩, heq', -⟩ := hinv.joins abc' habc'
    rw [h₁, (hinv.joins ab hab).2.1, AbstractVarState.join_assoc, ← h₂, ← h₃, ← (hinv.joins bc hbc).2.1, ← h₄, ← h₅,
      ← heq'] at heq
    exact (hinv.states _ hmem).eq_of_toAbstract hinv.ok (hinv.states _ hmem') heq
  idem j hj := (hinv.joins j hj).2.2

end

/-- **The dense domain refines the one of sets**: in every run with room for its sets and counts. -/
theorem dense_refines (es : List Op) (w : World) (hrun : runEvents step es {} = some w) (hfits : Meets step Fits es {}) :
    Faithful w :=
  faithful_of_inv (hfits.invariant (fun _ _ _ hinv hfit hstep => step_inv hinv hfit hstep) init_inv hrun)

theorem dense_refines_view :
    ∃ w, runEvents step [.make .owned, .view 0 "view", .join 0 1] {} = some w ∧ Faithful w := by
  have hfits : Meets step Fits [.make .owned, .view 0 "view", .join 0 1] {} := by
    refine .cons trivial rfl (.cons ?_ rfl (.cons ?_ rfl trivial))
    · rintro s hs
      cases hs
      exact ⟨Or.inr (by decide), by decide⟩
    · rintro s t - -
      exact Or.inr (by decide)
  exact ⟨_, rfl, dense_refines _ _ rfl hfits⟩

/-! ## A number that is given twice -/

/-- The set of one borrow, of a name of its own. -/
def oneBorrow (k : Nat) : Finset String := {String.ofList (List.replicate k 'a')}

theorem oneBorrow_inj {k l : Nat} (h : oneBorrow k = oneBorrow l) : k = l := by
  have hlist := String.ofList_injective (Finset.singleton_injective h)
  simpa using congrArg List.length hlist

/-- Interns so many of them. -/
def manySets (n : Nat) : List Op := (List.range n).map fun k => .intern (oneBorrow k)

theorem run_manySets_succ {n : Nat} (hrun : runEvents step (manySets n) {} = some w) :
    runEvents step (manySets (n + 1)) {} = some (w.give (oneBorrow n) (w.interner.intern (oneBorrow n))) := by
  rw [manySets, List.range_succ, List.map_append, ← manySets, runEvents_append hrun]
  rfl

theorem map_oneBorrow {n : Nat} (hinv : Inv w) (hsets : w.interner.sets = ∅ :: (List.range n).map oneBorrow) :
    w.interner.map (oneBorrow n) = none := by
  rw [Option.eq_none_iff_forall_ne_some]
  intro id hid
  have hmem := List.mem_of_getElem? ((hinv.ok.consed _ _).mp hid)
  rw [hsets, List.mem_cons, List.mem_map] at hmem
  rcases hmem with hmem | ⟨k, hk, heq⟩
  · exact Finset.singleton_ne_empty _ hmem
  · exact absurd (oneBorrow_inj heq) (Nat.ne_of_lt (List.mem_range.mp hk))

theorem run_manySets {n : Nat} (hn : n < 2 ^ 32) : ∃ w, runEvents step (manySets n) {} = some w ∧ Inv w ∧
    (0, ∅) ∈ w.given ∧ w.interner.sets = ∅ :: (List.range n).map oneBorrow := by
  induction n with
  | zero => exact ⟨{}, rfl, init_inv, List.mem_singleton_self _, rfl⟩
  | succ n ih =>
    obtain ⟨w, hrun, hinv, hgiven, hsets⟩ := ih (by omega)
    have hlen : w.interner.sets.length = n + 1 := by simp [hsets]
    have hmap := map_oneBorrow hinv hsets
    refine ⟨_, run_manySets_succ hrun, give_inv hinv (intern_gives hinv.ok (Or.inr (by omega))),
      List.mem_append_left _ hgiven, ?_⟩
    simp [World.give, BorrowSetInterner.intern, hmap, hsets, List.range_succ]

theorem not_faithful_of_full {m : Nat} (hm : m = 2 ^ 32) :
    ∃ w, runEvents step (manySets m) {} = some w ∧ ¬ Faithful w := by
  obtain ⟨n, rfl⟩ : ∃ n, m = n + 1 := ⟨m - 1, by omega⟩
  obtain ⟨w, hrun, hinv, hgiven, hsets⟩ := run_manySets (n := n) (by omega)
  refine ⟨_, run_manySets_succ hrun, fun h => ?_⟩
  have hlen : w.interner.sets.length % 2 ^ 32 = 0 := by
    rw [hsets, List.length_cons, List.length_map, List.length_range, hm, Nat.mod_self]
  have hnew : (w.interner.intern (oneBorrow n)).1 = 0 := by
    simp only [BorrowSetInterner.intern, map_oneBorrow hinv hsets, hlen]
  have hset := (h.canonical (0, ∅) (List.mem_append_left _ hgiven) (_, oneBorrow n)
    (List.mem_append_right _ (List.mem_singleton_self _))).mp hnew.symm
  exact Finset.singleton_ne_empty _ hset.symm

theorem number_given_twice : ∃ w, runEvents step (manySets (2 ^ 32)) {} = some w ∧ ¬ Faithful w :=
  not_faithful_of_full rfl

end Datara.Ownership.Domain
