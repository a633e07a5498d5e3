import Mathlib.Data.List.Basic
import Mathlib.Data.List.Induction
import Mathlib.Logic.Function.Iterate

/-!
# Lexical resolution of paths

A path is a list of segments, read from a starting directory: an empty segment and `.` stay, `..`
goes up, every other segment goes down. Nothing is asked of a file system. A resolved directory is
kept innermost segment first; a rooted one has nothing above it, one that is not rooted may begin
(at its outer end) with as many `..` as were left over.

Walking a path from a directory is the same as walking its own resolution (`walk_eq`): go up as often
as it has `..` left over, then down by its names. Where the walk ends under the directory it began in
is decided by that (`under_walk_iff`).
-/

namespace Datara.Library.LexicalPath

/-- A path segment. -/
abbrev Segment := List Char

def dot : Segment := ['.']

def dotdot : Segment := ['.', '.']

/-- A segment that goes down. -/
def IsName (s : Segment) : Prop := s ≠ [] ∧ s ≠ dot ∧ s ≠ dotdot

instance (s : Segment) : Decidable (IsName s) :=
  inferInstanceAs (Decidable (s ≠ [] ∧ s ≠ dot ∧ s ≠ dotdot))

/-- One level up. -/
def goUp (rooted : Bool) : List Segment → List Segment
  | [] => if rooted then [] else [dotdot]
  | s :: dir => if s = dotdot then dotdot :: s :: dir else dir

/-- One segment. -/
def step (rooted : Bool) (dir : List Segment) (s : Segment) : List Segment :=
  if s = [] ∨ s = dot then dir else if s = dotdot then goUp rooted dir else s :: dir

/-- Where a path leads from a directory. -/
def walk (rooted : Bool) (dir : List Segment) (path : List Segment) : List Segment :=
  path.foldl (step rooted) dir

/-- Where a path leads. -/
abbrev resolve (rooted : Bool) (path : List Segment) : List Segment := walk rooted [] path

/-- What is left of a path that is read on its own: names, after so many `..`. -/
structure Relative (path : List Segment) (ups : Nat) (names : List Segment) : Prop where
  eq : resolve false path = names ++ List.replicate ups dotdot
  names : ∀ s ∈ names, IsName s

/-- A directory with everything resolved. -/
structure Resolved (rooted : Bool) (dir : List Segment) (ups : Nat) (names : List Segment) : Prop where
  eq : dir = names ++ List.replicate ups dotdot
  names : ∀ s ∈ names, IsName s
  rooted : rooted = true → ups = 0

section
variable {rooted : Bool} {dir path : List Segment} {s : Segment}

theorem isName_dotdot : ¬IsName dotdot := fun h => h.2.2 rfl

theorem walk_append (p q : List Segment) :
    walk rooted dir (p ++ q) = walk rooted (walk rooted dir p) q := List.foldl_append

theorem resolve_append (p q : List Segment) :
    resolve rooted (p ++ q) = walk rooted (resolve rooted p) q := walk_append p q

theorem step_name (h : IsName s) : step rooted dir s = s :: dir := by
  rw [step, if_neg (not_or.mpr ⟨h.1, h.2.1⟩), if_neg h.2.2]

theorem walk_names {names : List Segment} (h : ∀ s ∈ names, IsName s) :
    walk rooted dir names = names.reverse ++ dir := by
  induction names generalizing dir with
  | nil => rfl
  | cons s names ih =>
    show walk rooted (step rooted dir s) names = _
    rw [step_name (h s List.mem_cons_self), ih fun s hs => h s (List.mem_cons_of_mem _ hs)]
    simp

theorem goUp_replicate (n : Nat) : goUp false (List.replicate n dotdot) = List.replicate (n + 1) dotdot := by
  cases n with
  | zero => rfl
  | succ n => rw [List.replicate_succ, goUp, if_pos rfl, ← List.replicate_succ, ← List.replicate_succ]

/-- **Every path has a resolution of its own, and leads where that leads.** -/
theorem walk_eq (path : List Segment) : ∃ ups names, Relative path ups names ∧
    ∀ rooted dir, walk rooted dir path = names ++ (goUp rooted)^[ups] dir := by
  induction path using List.reverseRecOn with
  | nil => exact ⟨0, [], ⟨rfl, nofun⟩, fun _ _ => rfl⟩
  | append_singleton path s ih =>
    obtain ⟨ups, names, hrel, hwalk⟩ := ih
    have hsnoc : ∀ rooted dir, walk rooted dir (path ++ [s]) =
        step rooted (names ++ (goUp rooted)^[ups] dir) s := by
      intro rooted dir
      rw [walk_append, hwalk]
      rfl
    by_cases hskip : s = [] ∨ s = dot
    · refine ⟨ups, names, ⟨?_, hrel.names⟩, fun rooted dir => ?_⟩
      · rw [resolve, walk_append, ← resolve, hrel.eq]
        exact if_pos hskip
      · rw [hsnoc]
        exact if_pos hskip
    by_cases hup : s = dotdot
    · have hstep : ∀ rooted dir, step rooted dir s = goUp rooted dir := by
        intro rooted dir
        rw [step, if_neg hskip, if_pos hup]
      cases names with
      | nil =>
        refine ⟨ups + 1, [], ⟨?_, nofun⟩, fun rooted dir => ?_⟩
        · rw [resolve, walk_append, ← resolve, hrel.eq]
          exact (hstep _ _).trans (goUp_replicate ups)
        · rw [hsnoc, hstep, List.nil_append, List.nil_append, Function.iterate_succ_apply']
      | cons n names =>
        have hn : n ≠ dotdot := (hrel.names n List.mem_cons_self).2.2
        refine ⟨ups, names, ⟨?_, fun s hs => hrel.names s (List.mem_cons_of_mem _ hs)⟩,
          fun rooted dir => ?_⟩
        · rw [resolve, walk_append, ← resolve, hrel.eq]
          exact (hstep _ _).trans (if_neg hn)
        · rw [hsnoc, hstep]
          exact if_neg hn
    · have hname : IsName s := ⟨fun h => hskip (.inl h), fun h => hskip (.inr h), hup⟩
      refine ⟨ups, s :: names, ⟨?_, ?_⟩, fun rooted dir => ?_⟩
      · rw [resolve, walk_append, ← resolve, hrel.eq]
        exact step_name hname
      · intro t ht
        rcases List.mem_cons.mp ht with rfl | ht
        · exact hname
        · exact hrel.names t ht
      · rw [hsnoc]
        exact step_name hname

theorem names_unique {u u' : Nat} {names names' : List Segment} (h : ∀ s ∈ names, IsName s)
    (h' : ∀ s ∈ names', IsName s)
    (he : names ++ List.replicate u dotdot = names' ++ List.replicate u' dotdot) :
    u = u' ∧ names = names' := by
  induction names generalizing names' with
  | nil =>
    cases names' with
    | nil => exact ⟨by simpa using congrArg List.length he, rfl⟩
    | cons s names' =>
      cases u with
      | zero => cases he
      | succ u =>
        obtain rfl := (List.cons.inj he).1
        exact absurd (h' _ List.mem_cons_self) isName_dotdot
  | cons s names ih =>
    cases names' with
    | nil =>
      cases u' with
      | zero => cases he
      | succ u' =>
        obtain rfl := (List.cons.inj he).1
        exact absurd (h _ List.mem_cons_self) isName_dotdot
    | cons s' names' =>
      rw [List.cons_append, List.cons_append, List.cons.injEq] at he
      obtain ⟨rfl, he⟩ := he
      obtain ⟨hu, rfl⟩ := ih (fun s hs => h s (List.mem_cons_of_mem _ hs))
        (fun s hs => h' s (List.mem_cons_of_mem _ hs)) he
      exact ⟨hu, rfl⟩

theorem Relative.unique {u u' : Nat} {names names' : List Segment} (h : Relative path u names)
    (h' : Relative path u' names') : u = u' ∧ names = names' :=
  names_unique h.names h'.names (h.eq.symm.trans h'.eq)

/-- **A path leads where its resolution leads.** -/
theorem Relative.walk {ups : Nat} {names : List Segment} (h : Relative path ups names) :
    walk rooted dir path = names ++ (goUp rooted)^[ups] dir := by
  obtain ⟨u, ns, h', hwalk⟩ := walk_eq path
  obtain ⟨rfl, rfl⟩ := h.unique h'
  exact hwalk rooted dir

theorem exists_relative (path : List Segment) : ∃ ups names, Relative path ups names := by
  obtain ⟨ups, names, h, -⟩ := walk_eq path
  exact ⟨ups, names, h⟩

theorem Resolved.goUp_iterate {k : Nat} {names : List Segment} (h : Resolved rooted dir k names)
    (u : Nat) : (goUp rooted)^[u] dir =
      if u ≤ names.length then dir.drop u
      else List.replicate (if rooted then 0 else k + (u - names.length)) dotdot := by
  obtain ⟨rfl, hnames, hroot⟩ := h
  induction names generalizing u with
  | nil =>
    simp only [List.nil_append, List.length_nil, Nat.le_zero, Nat.sub_zero]
    induction u with
    | zero => rfl
    | succ u ih =>
      rw [Function.iterate_succ_apply', ih]
      cases rooted with
      | true => split <;> simp_all [goUp]
      | false =>
        split
        · subst_vars
          exact goUp_replicate k
        · exact goUp_replicate _
  | cons s names ih =>
    cases u with
    | zero => rfl
    | succ u =>
      rw [Function.iterate_succ_apply, List.cons_append, goUp,
        if_neg (hnames s List.mem_cons_self).2.2,
        ih u fun s hs => hnames s (List.mem_cons_of_mem _ hs), List.length_cons, List.drop_succ_cons]
      simp

theorem resolved_resolve (rooted : Bool) (path : List Segment) :
    ∃ k names, Resolved rooted (resolve rooted path) k names := by
  obtain ⟨ups, names, hrel, hwalk⟩ := walk_eq path
  have hnil : Resolved rooted [] 0 [] := ⟨rfl, nofun, fun _ => rfl⟩
  have h := hwalk rooted []
  rw [hnil.goUp_iterate ups] at h
  cases rooted with
  | true =>
    refine ⟨0, names, ?_, hrel.names, fun _ => rfl⟩
    rw [resolve, h]
    split <;> simp
  | false => exact ⟨ups, names, hrel.eq, hrel.names, nofun⟩

end

/-! ## Below a directory -/

/-- `target` is `dir` or lies below it. -/
def Under (dir target : List Segment) : Prop :=
  ∃ names, target = names ++ dir ∧ ∀ s ∈ names, IsName s

/-- `target` is a child of `dir`. -/
def ChildOf (dir target : List Segment) : Prop := ∃ name, IsName name ∧ target = name :: dir

/-- What a path goes up from a directory it comes down again. -/
def ComesBack (rooted : Bool) (dir : List Segment) (ups : Nat) (names : List Segment) : Prop :=
  (rooted = true ∨ ups ≤ dir.length) ∧ dir.take ups <:+ names

instance (rooted : Bool) (dir : List Segment) (ups : Nat) (names : List Segment) :
    Decidable (ComesBack rooted dir ups names) :=
  inferInstanceAs (Decidable ((rooted = true ∨ ups ≤ dir.length) ∧ dir.take ups <:+ names))

section
variable {rooted : Bool} {dir path : List Segment} {k ups : Nat} {dirNames names : List Segment}

section
variable (hd : Resolved rooted dir k dirNames)
include hd

/-- Where a path ends so many names below the directory it starts in. -/
theorem walk_eq_append_iff (hp : Relative path ups names)
    {ns : List Segment} :
    (walk rooted dir path = ns ++ dir ∧ ∀ s ∈ ns, IsName s) ↔
      (rooted = true ∨ ups ≤ dir.length) ∧ names = ns ++ dir.take ups := by
  have isNames : names = ns ++ dir.take ups → ∀ s ∈ ns, IsName s := by
    intro he s hs
    exact hp.names s (he ▸ List.mem_append_left _ hs)
  rw [hp.walk, hd.goUp_iterate]
  by_cases hu : ups ≤ dirNames.length
  · have hlen : ups ≤ dir.length := by
      rw [hd.eq, List.length_append]
      omega
    rw [if_pos hu]
    constructor
    · rintro ⟨he, -⟩
      have hsplit : names ++ dir.drop ups = (ns ++ dir.take ups) ++ dir.drop ups := by
        rw [he, List.append_assoc, List.take_append_drop]
      exact ⟨.inr hlen, List.append_cancel_right hsplit⟩
    · rintro ⟨-, he⟩
      refine ⟨?_, isNames he⟩
      rw [he, List.append_assoc, List.take_append_drop]
  · rw [if_neg hu]
    have hcount : ∀ ns : List Segment, (∀ s ∈ ns, IsName s) → ns.count dotdot = 0 := fun ns h =>
      List.count_eq_zero.mpr fun hm => isName_dotdot (h _ hm)
    cases hr : rooted with
    | true =>
      obtain rfl := hd.rooted hr
      have hdir : dir = dirNames := by rw [hd.eq, List.replicate_zero, List.append_nil]
      have htake : dir.take ups = dir := by
        apply List.take_of_length_le
        rw [hdir]
        omega
      rw [if_pos rfl, List.replicate_zero, List.append_nil, htake]
      constructor
      · exact fun h => ⟨.inl rfl, h.1⟩
      · exact fun h => ⟨h.2, isNames (by rw [htake]; exact h.2)⟩
    | false =>
      rw [if_neg Bool.false_ne_true]
      constructor
      · rintro ⟨he, hns⟩
        have := congrArg (List.count dotdot) he
        rw [hd.eq, List.count_append, List.count_append, List.count_append, hcount _ hp.names,
          hcount _ hns, hcount _ hd.names, List.count_replicate_self, List.count_replicate_self] at this
        omega
      · rintro ⟨hle, he⟩
        exfalso
        have hle : ups ≤ dir.length := hle.resolve_left nofun
        -- the part that was left includes a `..`
        have hmem : dotdot ∈ dir.take ups := by
          rw [hd.eq, List.take_append]
          rw [hd.eq, List.length_append, List.length_replicate] at hle
          refine List.mem_append_right _ ?_
          rw [List.take_replicate, List.mem_replicate]
          exact ⟨by omega, rfl⟩
        exact isName_dotdot (hp.names _ (he ▸ List.mem_append_right _ hmem))

/-- **A path ends below the directory it starts in when it comes back to it.** -/
theorem under_walk_iff (hp : Relative path ups names) :
    Under dir (walk rooted dir path) ↔ ComesBack rooted dir ups names := by
  constructor
  · rintro ⟨ns, h⟩
    obtain ⟨hle, he⟩ := (walk_eq_append_iff hd hp).mp h
    exact ⟨hle, ns, he.symm⟩
  · rintro ⟨hle, ns, he⟩
    exact ⟨ns, (walk_eq_append_iff hd hp).mpr ⟨hle, he.symm⟩⟩

/-- It ends at a child of the directory when one name more is left than it has come back by. -/
theorem childOf_walk_iff (hp : Relative path ups names) :
    ChildOf dir (walk rooted dir path) ↔
      (rooted = true ∨ ups ≤ dir.length) ∧ names.tail = dir.take ups ∧ names ≠ [] := by
  constructor
  · rintro ⟨n, hn, h⟩
    obtain ⟨hle, he⟩ := (walk_eq_append_iff hd hp).mp
      ⟨h, fun s hs => List.mem_singleton.mp hs ▸ hn⟩
    rw [he]
    exact ⟨hle, rfl, List.cons_ne_nil _ _⟩
  · rintro ⟨hle, htail, hne⟩
    cases names with
    | nil => exact absurd rfl hne
    | cons n names =>
      obtain ⟨h, hn⟩ := (@walk_eq_append_iff _ _ _ _ _ _ _ hd hp [n]).mpr ⟨hle, congrArg _ htail⟩
      exact ⟨n, hn n List.mem_cons_self, h⟩

end

/-! ## The resolution, computed -/

/-- The names a path leaves. -/
def relNames (path : List Segment) : List Segment := (resolve false path).takeWhile (· ≠ dotdot)

/-- The `..` a path leaves. -/
def relUps (path : List Segment) : Nat := (resolve false path).length - (relNames path).length

theorem relative_rel (path : List Segment) : Relative path (relUps path) (relNames path) := by
  obtain ⟨u, ns, h⟩ := exists_relative path
  have hnames : relNames path = ns := by
    have hall : ∀ s ∈ ns, decide (s ≠ dotdot) = true := fun s hs => by simpa using (h.names s hs).2.2
    rw [relNames, h.eq, List.takeWhile_append_of_pos hall]
    cases u <;> simp [List.replicate_succ]
  have hups : relUps path = u := by
    rw [relUps, hnames, h.eq, List.length_append, List.length_replicate]
    omega
  rw [hnames, hups]
  exact h

end

end Datara.Library.LexicalPath
