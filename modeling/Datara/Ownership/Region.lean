import Datara.Dmir.Verifier
import Datara.Library.Rounds
import Datara.Library.UnionFind

/-!
# Region escape analysis

`compute_escape_set` (`ownership/region.rs`) says which objects of a function leave its frame. A copy
of a variable is put in one class with every value that was ever assigned to the variable; the uses
that hand an object out are marked on the class; marks go from an object to the objects stored into
it.

The source walks two hash maps, in an order it does not know. The order is an argument here
(`HashOrder`).
-/

namespace Datara.Ownership

open Dmir Library

/-- The arguments of `compute_escape_set`. -/
structure EscapeQuery where
  f : Function
  cyclicClasses : List String
  globals : List String
  assignVarSeeds : Bool
  structinitFieldSeeds : Bool

/-! ## Pass 1 -/

/-- `class_of`. The last allocation under a value id gives its class. -/
def classOf (f : Function) : List (ValueId × String) :=
  f.insts.foldl
    (fun m i => match i with
      | .structInit d c _ => (d, c) :: m.filter (·.1 ≠ d)
      | _ => m) []

/-- The stores of one instruction, as pairs of parent and child. -/
def storesOf : Inst → List (ValueId × ValueId)
  | .structInit d _ fs => fs.map fun f => (d, f.2)
  | .setField o _ v => [(o, v)]
  | _ => []

/-- `stored_into`. -/
def storedInto (f : Function) : List (ValueId × ValueId) := f.insts.flatMap storesOf

/-- `name_vids`: what is assigned to a variable, anywhere. -/
def nameVids (f : Function) (name : String) : List ValueId :=
  f.insts.filterMap fun
    | .assignVar n v => if n = name then some v else none
    | _ => none

/-- The orders in which the hash maps `class_of` and `stored_into` are walked. -/
structure HashOrder (f : Function) where
  classes : List (ValueId × String)
  classes_perm : classes.Perm (classOf f)
  stores : List (ValueId × ValueId)
  stores_perm : stores.Perm (storedInto f)

/-- The maps, walked as they were filled. -/
def HashOrder.source (f : Function) : HashOrder f := ⟨_, .refl _, _, .refl _⟩

namespace EscapeQuery

variable (q : EscapeQuery) (order : HashOrder q.f)

/-! ## Pass 2 -/

/-- The unions of the second pass. -/
def aliasUnions : List (ValueId × ValueId) :=
  q.f.insts.flatMap fun
    | .loadVar d n => if n ∈ q.globals then [] else (nameVids q.f n).map fun v => (d, v)
    | _ => []

def uf : UnionFind ValueId := (UnionFind.discrete ValueId).unions q.aliasUnions

/-- `uf.find`, without the compressed paths: no find changes a root. -/
def root (v : ValueId) : ValueId := q.uf.root v

/-- `root_class`. -/
def rootClass : ValueId → Option String :=
  order.classes.foldl (fun m e => Function.update m (q.root e.1) (some e.2)) fun _ => none

/-- `is_cyclic`. -/
def isCyclic (v : ValueId) : Bool :=
  (q.rootClass order (q.root v)).any (· ∈ q.cyclicClasses)

/-! ## Pass 3 -/

/-- The values whose use by an instruction makes their class escape. -/
def seedsOf : Inst → List ValueId
  | .call _ _ args _ => args
  | .methodCall _ object _ args _ => object :: args
  | .assignVar n v =>
    if q.assignVarSeeds && !(q.isCyclic order v && !decide (n ∈ q.globals)) then [v] else []
  | .setField o _ v => if !(q.isCyclic order v && q.isCyclic order o) then [v] else []
  | .structInit d _ fs =>
    if q.structinitFieldSeeds then
      (fs.map Prod.snd).filter fun v => !(q.isCyclic order v && q.isCyclic order d)
    else []
  | _ => []

/-- The returned value. -/
def returned : Terminator → List ValueId
  | .ret (some v) => [v]
  | _ => []

/-- `escaped_roots` after the third pass. -/
def seeds : List ValueId :=
  (q.f.blocks.flatMap fun b => returned b.terminator ++ b.instructions.flatMap (q.seedsOf order)).map
    q.root

/-! ## Passes 4 and 5 -/

/-- A child that a store puts into an escaping parent escapes, if its class is cyclic. -/
def flip (escaped : List ValueId) (store : ValueId × ValueId) : Option (List ValueId) :=
  if q.root store.1 ∈ escaped && q.isCyclic order store.2 && q.root store.2 ∉ escaped then
    some (q.root store.2 :: escaped)
  else none

/-- `escaped_roots` after the fourth pass. -/
def escapedRoots : List ValueId :=
  (rounds (q.flip order) order.stores (order.stores.length + 1) (q.seeds order)).getD []

/-- `compute_escape_set`. -/
def computeEscapeSet : List ValueId :=
  (order.classes.map Prod.fst).filter fun v => q.root v ∈ q.escapedRoots order

end EscapeQuery

/-! ## What the passes leave -/

/-- The keys of `class_of` are the allocated values. -/
theorem mem_classOf_keys {f : Function} {d : ValueId} :
    d ∈ (classOf f).map Prod.fst ↔ ∃ c fs, Inst.structInit d c fs ∈ f.insts := by
  suffices h : ∀ (is : List Inst) (m : List (ValueId × String)),
      d ∈ (is.foldl (fun m i => match i with
          | .structInit d c _ => (d, c) :: m.filter (·.1 ≠ d)
          | _ => m) m).map Prod.fst ↔
        d ∈ m.map Prod.fst ∨ ∃ c fs, Inst.structInit d c fs ∈ is by
    exact (h f.insts []).trans (by simp)
  intro is
  induction is with
  | nil => simp
  | cons i is ih =>
    intro m
    rw [List.foldl_cons, ih]
    cases i with
    | structInit d' c fs =>
      by_cases hd : d = d'
      · subst hd
        simp only [List.map_cons, List.mem_cons, true_or, true_iff]
        exact .inr ⟨c, fs, .inl rfl⟩
      · simp [hd]
    | _ => simp

namespace EscapeQuery

variable {q : EscapeQuery} {order : HashOrder q.f} {v p : ValueId}

theorem mem_computeEscapeSet {d : ValueId} {c : String} {fs : List (String × ValueId)}
    (h : .structInit d c fs ∈ q.f.insts) :
    d ∈ q.computeEscapeSet order ↔ q.root d ∈ q.escapedRoots order := by
  have hkey : d ∈ order.classes.map Prod.fst :=
    (order.classes_perm.map _).mem_iff.mpr (mem_classOf_keys.mpr ⟨c, fs, h⟩)
  simp [computeEscapeSet, hkey]

theorem root_loadVar {d : ValueId} {n : String} (hl : .loadVar d n ∈ q.f.insts)
    (ha : .assignVar n v ∈ q.f.insts) (hn : n ∉ q.globals) : q.root d = q.root v := by
  refine UnionFind.root_unions (List.mem_flatMap.mpr ⟨_, hl, ?_⟩)
  simp only [hn, if_false, List.mem_map, Prod.mk.injEq, true_and, exists_eq_right]
  exact List.mem_filterMap.mpr ⟨_, ha, by simp⟩

/-- The loop of the fourth pass ends. Each turn but the last marks the class of a child. -/
theorem rounds_flip :
    rounds (q.flip order) order.stores (order.stores.length + 1) (q.seeds order) =
      some (q.escapedRoots order) := by
  suffices h : (rounds (q.flip order) order.stores (order.stores.length + 1)
      (q.seeds order)).isSome by
    obtain ⟨t, ht⟩ := Option.isSome_iff_exists.mp h
    rw [escapedRoots, ht, Option.getD_some]
  -- the measure: how many children are unmarked
  refine rounds_isSome (μ := fun s => (order.stores.filter fun e => q.root e.2 ∉ s).length)
    (fun s store hstore t ht => ?_) (Nat.lt_succ_of_le (List.length_filter_le _ _))
  simp only [flip] at ht
  split_ifs at ht with hc
  cases ht
  simp only [Bool.and_eq_true, decide_eq_true_eq] at hc
  have hsub : (order.stores.filter fun e => q.root e.2 ∉ q.root store.2 :: s) =
      (order.stores.filter fun e => q.root e.2 ∉ s).filter
        fun e => q.root e.2 ≠ q.root store.2 := by
    rw [List.filter_filter]
    exact List.filter_congr fun e _ => by simp [not_or]
  rw [hsub, List.length_filter_lt_length_iff_exists]
  exact ⟨store, List.mem_filter.mpr ⟨hstore, by simpa using hc.2⟩, by simp⟩

theorem seeds_subset : q.seeds order ⊆ q.escapedRoots order := by
  refine rounds_invariant (I := fun s => q.seeds order ⊆ s) (fun s e _ t hs ht => ?_)
    (List.Subset.refl _) rounds_flip
  simp only [flip] at ht
  split_ifs at ht
  cases ht
  exact List.subset_cons_of_subset _ hs

theorem escapes_of_seedsOf {i : Inst} (hi : i ∈ q.f.insts) (hv : v ∈ q.seedsOf order i) :
    q.root v ∈ q.escapedRoots order := by
  obtain ⟨b, hb, hi⟩ := Function.mem_insts.mp hi
  refine seeds_subset (List.mem_map_of_mem (List.mem_flatMap.mpr ⟨b, hb, ?_⟩))
  exact List.mem_append_right _ (List.mem_flatMap.mpr ⟨i, hi, hv⟩)

theorem escapes_of_returned {b : BasicBlock} (hb : b ∈ q.f.blocks) (hv : v ∈ returned b.terminator) :
    q.root v ∈ q.escapedRoots order :=
  seeds_subset (List.mem_map_of_mem (List.mem_flatMap.mpr ⟨b, hb, List.mem_append_left _ hv⟩))

theorem escapes_of_store {i : Inst} (hi : i ∈ q.f.insts) (hs : (p, v) ∈ storesOf i)
    (hp : q.root p ∈ q.escapedRoots order) (hc : q.isCyclic order v = true) :
    q.root v ∈ q.escapedRoots order := by
  have hmem : (p, v) ∈ order.stores :=
    order.stores_perm.mem_iff.mpr (List.mem_flatMap.mpr ⟨i, hi, hs⟩)
  have hstable := rounds_stable (rounds_flip (q := q)) _ hmem
  by_contra hv
  simp [flip, hp, hc, hv] at hstable

end EscapeQuery

end Datara.Ownership
