import Datara.Project.Glob
import Mathlib.Data.List.Infix

/-!
# What a capability pattern confines

For a pattern `dir/**` or `dir/*` whose directory has no wildcard of its own, an accepted target is
the directory followed by a remainder (`matchesGlob_under_iff`, `matchesGlob_child_iff`). The target
lies below the directory when both begin at the same root and the remainder comes back from wherever
its `..` lead.
-/

namespace Datara.Project

open Library.LexicalPath

/-! ## Text -/

theorem slashes_append (a b : Text) : slashes (a ++ b) = slashes a ++ slashes b := List.map_append

/-- The text is empty or ends with a separator. -/
def EndsDir (d : Text) : Prop := d = [] ∨ ∃ e, d = e ++ ['/']

theorem EndsDir.of_cons {c : Char} {d : Text} (h : EndsDir (c :: d)) (hd : d ≠ []) : EndsDir d := by
  rcases h with h | ⟨e, he⟩
  · cases h
  · cases e with
    | nil => exact absurd (List.cons.inj he).2 hd
    | cons c' e => exact .inr ⟨e, (List.cons.inj he).2⟩

theorem endsDir_trim (d : Text) (h : EndsDir d) : EndsDir (trimDotSlash d) := by
  induction d using trimDotSlash.induct with
  | case1 cs ih =>
    rw [trimDotSlash]
    by_cases hcs : cs = []
    · subst hcs
      exact .inl rfl
    · exact ih ((h.of_cons (List.cons_ne_nil _ _)).of_cons hcs)
  | case2 cs hcs =>
    rw [trimDotSlash]
    · exact h
    · exact hcs

/-- Leading `./` are trimmed from the directory alone. -/
theorem trim_append {d y : Text} (h : EndsDir d) (hy : trimDotSlash y = y) :
    trimDotSlash (d ++ y) = trimDotSlash d ++ y := by
  induction d using trimDotSlash.induct with
  | case1 cs ih =>
    by_cases hcs : cs = []
    · subst hcs
      exact hy
    · exact ih ((h.of_cons (List.cons_ne_nil _ _)).of_cons hcs)
  | case2 cs hcs =>
    have htrim : trimDotSlash cs = cs := by
      rw [trimDotSlash]
      exact hcs
    rw [htrim]
    match cs, hcs, h with
    | [], _, _ => exact hy
    | [c], _, h =>
      obtain ⟨e, he⟩ := h.resolve_left (List.cons_ne_nil _ _)
      obtain rfl : c = '/' := by
        cases e with
        | nil => exact (List.cons.inj he).1
        | cons c' e => simp at he
      rw [trimDotSlash]
      simp
    | c :: c' :: cs, hcs, _ =>
      rw [trimDotSlash]
      intro cs' h
      simp only [List.cons_append, List.cons.injEq] at h
      exact hcs cs (by rw [h.1, h.2.1])

/-- The text of a directory, before what the pattern says of its contents. -/
def dirText (dir : Text) : Text := normalizePath (dir ++ ['/'])

theorem endsDir_dirText (dir : Text) : EndsDir (dirText dir) := by
  apply endsDir_trim
  exact .inr ⟨slashes dir, slashes_append dir ['/']⟩

theorem normalizePath_append {dir y : Text} (hs : slashes y = y) (hy : trimDotSlash y = y) :
    normalizePath (dir ++ '/' :: y) = dirText dir ++ y := by
  have hsplit : slashes (dir ++ '/' :: y) = slashes (dir ++ ['/']) ++ y := by
    rw [slashes_append, slashes_append, List.append_assoc]
    show slashes dir ++ '/' :: slashes y = slashes dir ++ '/' :: y
    rw [hs]
  rw [normalizePath, hsplit, trim_append _ hy]
  · rfl
  · exact .inr ⟨slashes dir, slashes_append dir ['/']⟩

/-! ## The wildcard match -/

/-- Once the last `*` ends the pattern, the rest matches. -/
theorem wildcardLoop_star_end (text rest : Text) (behind) :
    wildcardLoop [] text (some ([], rest)) behind = true := by
  induction rest generalizing text with
  | nil =>
    have := behind _ rfl
    obtain rfl : text = [] := List.eq_nil_of_length_eq_zero (by simpa using this)
    rw [wildcardLoop]
    rfl
  | cons c rest ih =>
    cases text with
    | nil =>
      rw [wildcardLoop]
      rfl
    | cons c' text =>
      rw [wildcardLoop]
      exact ih rest (by simp)

theorem wildcardLoop_nil (text : Text) (behind) : wildcardLoop [] text none behind = decide (text = []) := by
  cases text with
  | nil =>
    rw [wildcardLoop]
    rfl
  | cons c text =>
    rw [wildcardLoop]
    simp

theorem wildcardLoop_literal {lit : Text} (hlit : ∀ c ∈ lit, c ≠ '*' ∧ c ≠ '?') (p s : Text) (behind) :
    wildcardLoop (lit ++ p) s none behind =
      match s.dropPrefix? lit with
      | some rest => wildcardMatch p rest
      | none => false := by
  induction lit generalizing s with
  | nil => simp [wildcardMatch]
  | cons q lit ih =>
    obtain ⟨hstar, hany⟩ := hlit q List.mem_cons_self
    cases s with
    | nil =>
      rw [wildcardLoop]
      simp [hstar, List.dropPrefix?]
    | cons c s =>
      rw [List.cons_append, wildcardLoop]
      by_cases hqc : q = c
      · subst hqc
        rw [if_pos (.inr rfl), ih fun c hc => hlit c (List.mem_cons_of_mem _ hc)]
        simp [List.dropPrefix?]
      · rw [if_neg (not_or.mpr ⟨hany, hqc⟩), if_neg hstar]
        have : (c == q) = false := by simpa using fun h => hqc h.symm
        simp [List.dropPrefix?, this]

/-- The text a `*` at the end of a pattern does not match: it begins with an asterisk, which is taken
for the pattern's. -/
theorem wildcardMatch_star (s : Text) : wildcardMatch ['*'] s = true ↔ s = ['*'] ∨ s.head? ≠ some '*' := by
  cases s with
  | nil =>
    rw [wildcardMatch, wildcardLoop]
    simp
  | cons c s =>
    rw [wildcardMatch, wildcardLoop]
    by_cases hc : c = '*'
    · subst hc
      rw [if_pos (.inr rfl), wildcardLoop_nil]
      simp
    · rw [if_neg (not_or.mpr ⟨by decide, fun h => hc h.symm⟩), if_pos rfl, wildcardLoop_star_end]
      simp [hc]

theorem wildcardMatch_star_star (s : Text) :
    wildcardMatch ['*', '*'] s = true ↔ s = ['*', '*'] ∨ ¬['*', '*'] <+: s := by
  cases s with
  | nil =>
    rw [wildcardMatch, wildcardLoop]
    simp
  | cons c s =>
    rw [wildcardMatch, wildcardLoop]
    by_cases hc : c = '*'
    · subst hc
      rw [if_pos (.inr rfl)]
      show wildcardMatch ['*'] s = true ↔ _
      rw [wildcardMatch_star]
      cases s with
      | nil => simp
      | cons c' s => simp [List.cons_prefix_cons, eq_comm]
    · rw [if_neg (not_or.mpr ⟨by decide, fun h => hc h.symm⟩), if_pos rfl, wildcardLoop]
      rw [if_neg (not_or.mpr ⟨by decide, fun h => hc h.symm⟩), if_pos rfl, wildcardLoop_star_end]
      simp [List.cons_prefix_cons, Ne.symm hc]

/-! ## What is accepted -/

section
variable {kind : CapabilityKind} {dir target : Text}

/-- The directory has no wildcard. -/
def PlainDir (dir : Text) : Prop := ∀ c ∈ dir, c ≠ '*' ∧ c ≠ '?'

theorem plainDir_d : PlainDir ['d'] := by
  intro c hc
  obtain rfl := List.mem_singleton.mp hc
  exact ⟨by decide, by decide⟩

theorem mem_trimDotSlash {c : Char} {d : Text} (h : c ∈ trimDotSlash d) : c ∈ d := by
  induction d using trimDotSlash.induct with
  | case1 cs ih => exact List.mem_cons_of_mem _ (List.mem_cons_of_mem _ (ih h))
  | case2 cs hcs =>
    rw [trimDotSlash] at h
    · exact h
    · exact hcs

theorem PlainDir.dirText (h : PlainDir dir) : PlainDir (dirText dir) := by
  intro c hc
  obtain ⟨a, ha, rfl⟩ := List.mem_map.mp (mem_trimDotSlash hc)
  by_cases hb : a = '\\'
  · rw [if_pos hb]
    decide
  · rw [if_neg hb]
    rcases List.mem_append.mp ha with ha | ha
    · exact h a ha
    · obtain rfl := List.mem_singleton.mp ha
      decide

theorem wildcardMatch_dir (h : PlainDir dir) (stars t : Text) :
    wildcardMatch (dirText dir ++ stars) t =
      match t.dropPrefix? (dirText dir) with
      | some rest => wildcardMatch stars rest
      | none => false := wildcardLoop_literal h.dirText stars t (by simp)

theorem isPath_of {kind : CapabilityKind} (h : kind = .fsRead ∨ kind = .fsWrite) : kind ≠ .exec := by
  rcases h with rfl | rfl <;> decide

theorem matchesGlob_path (hkind : kind = .fsRead ∨ kind = .fsWrite) {y : Text}
    (hs : slashes y = y) (hy : trimDotSlash y = y) :
    matchesGlob (dir ++ '/' :: y) target kind = true ↔
      dirText dir ++ y = normalizePath target ∨ underRule (dirText dir ++ y) (normalizePath target) ∨
        childRule (dirText dir ++ y) (normalizePath target) ∨
          wildcardMatch (dirText dir ++ y) (normalizePath target) = true := by
  have hne : ∀ l : Text, '/' ∉ l → dir ++ '/' :: y ≠ l := by
    intro l hl he
    exact hl (he ▸ List.mem_append_right _ List.mem_cons_self)
  rw [matchesGlob, if_neg (not_or.mpr ⟨hne _ (by decide), hne _ (by decide)⟩)]
  simp only [hkind, if_true, normalizePath_append hs hy, isPath_of hkind, false_and, if_false,
    true_and]
  split_ifs with h₁ h₂
  · simp [h₁]
  · exact iff_of_true rfl (.inr (h₂.elim .inl fun h => .inr (.inl h)))
  · rw [not_or] at h₂
    simp [h₁, h₂]

theorem slashes_stars : slashes ['*', '*'] = ['*', '*'] ∧ slashes ['*'] = ['*'] := by decide

theorem dropPrefix?_eq_some {s p rest : Text} : s.dropPrefix? p = some rest ↔ s = p ++ rest := by
  rw [List.dropPrefix?_eq_some_iff]
  constructor
  · rintro ⟨p', hp, he⟩
    rw [hp, eq_of_beq he]
  · exact fun h => ⟨_, h, beq_self_eq_true _⟩

theorem dropSuffix?_append (p s : Text) : (p ++ s).dropSuffix? s = some p := by
  rw [List.dropSuffix?_eq_some_iff]
  exact ⟨s, rfl, beq_self_eq_true _⟩

theorem dropSuffix?_eq_none {l s : Text} (h : ∀ p, l ≠ p ++ s) : l.dropSuffix? s = none := by
  rw [Option.eq_none_iff_forall_ne_some]
  intro p hp
  obtain ⟨s', hl, he⟩ := List.dropSuffix?_eq_some_iff.mp hp
  exact h p (by rw [hl, eq_of_beq he])

/-- The wildcard match takes an asterisk of the target for one of the pattern's. -/
def Overlooked (stars t : Text) : Prop := stars <+: t ∧ t ≠ stars

instance (stars t : Text) : Decidable (Overlooked stars t) :=
  inferInstanceAs (Decidable (stars <+: t ∧ t ≠ stars))

theorem underRule_iff (e t : Text) : underRule (e ++ ['/', '*', '*']) t = true ↔ e ++ ['/'] <+: t ++ ['/'] := by
  simp only [underRule, dropSuffix?_append]
  constructor
  · intro h
    cases hr : t.dropPrefix? e with
    | none => rw [hr] at h; cases h
    | some rem =>
      rw [hr] at h
      obtain rfl := dropPrefix?_eq_some.mp hr
      match rem, h with
      | [], _ => exact ⟨[], by simp⟩
      | c :: rem, h =>
        obtain rfl : c = '/' := by simpa using h
        exact ⟨rem ++ ['/'], by simp⟩
  · rintro ⟨rem, hrem⟩
    rcases List.eq_nil_or_concat rem with rfl | ⟨rem, c, rfl⟩
    · have ht : t = e := by simpa using hrem.symm
      rw [ht, dropPrefix?_eq_some.mpr (List.append_nil e).symm]
      rfl
    · rw [List.concat_eq_append, ← List.append_assoc] at hrem
      have ht : t = e ++ '/' :: rem := by
        have := List.append_inj_left' hrem rfl
        rw [← this, List.append_assoc]
        rfl
      rw [ht, dropPrefix?_eq_some.mpr rfl]
      rfl

theorem childRule_iff (e t : Text) :
    childRule (e ++ ['/', '*']) t = true ↔ ∃ rest, t = e ++ '/' :: rest ∧ '/' ∉ rest := by
  simp only [childRule, dropSuffix?_append]
  constructor
  · intro h
    cases hr : t.dropPrefix? e with
    | none => rw [hr] at h; cases h
    | some rem =>
      rw [hr] at h
      obtain rfl := dropPrefix?_eq_some.mp hr
      split at h
      case h_1 rest he =>
        cases he
        exact ⟨rest, rfl, by simpa using h⟩
      case h_2 => cases h
  · rintro ⟨rest, rfl, hrest⟩
    rw [dropPrefix?_eq_some.mpr rfl]
    simpa using hrest

/-- **What `dir/**` accepts**: what begins with the directory. -/
theorem matchesGlob_under_iff (hkind : kind = .fsRead ∨ kind = .fsWrite) (hdir : PlainDir dir) :
    matchesGlob (dir ++ ['/', '*', '*']) target kind = true ↔
      dirText dir <+: normalizePath target ++ ['/'] ∧
        ¬(dirText dir = [] ∧ Overlooked ['*', '*'] (normalizePath target)) := by
  rw [matchesGlob_path hkind slashes_stars.1 rfl, wildcardMatch_dir hdir]
  generalize normalizePath target = t
  generalize hd : dirText dir = d
  have hchild : childRule (d ++ ['*', '*']) t = false := by
    rw [childRule, dropSuffix?_eq_none]
    intro p hp
    have := congrArg (fun l => l.reverse.tail.head?) hp
    simp at this
  rw [hchild]
  rcases hd ▸ endsDir_dirText dir with rfl | ⟨e, rfl⟩
  · have hunder : underRule ['*', '*'] t = false := by
      rw [underRule, dropSuffix?_eq_none]
      intro p hp
      have := congrArg List.length hp
      simp at this
    simp only [List.nil_append, hunder, List.dropPrefix?_nil, wildcardMatch_star_star, Overlooked]
    by_cases ht : t = ['*', '*']
    · simp [ht]
    · simp [ht, eq_comm]
  · have hne : e ++ ['/'] ≠ [] := by simp
    have hunder : underRule (e ++ ['/'] ++ ['*', '*']) t = true ↔ e ++ ['/'] <+: t ++ ['/'] := by
      rw [show e ++ ['/'] ++ ['*', '*'] = e ++ ['/', '*', '*'] by simp, underRule_iff]
    have hprefix : ∀ rest, t = e ++ ['/'] ++ rest → e ++ ['/'] <+: t ++ ['/'] := by
      rintro rest rfl
      exact ⟨rest ++ ['/'], by simp⟩
    simp only [hne, false_and, not_false_eq_true, and_true, hunder]
    constructor
    · rintro (h | h | h | h)
      · exact hprefix _ h.symm
      · exact h
      · cases h
      · cases hr : t.dropPrefix? (e ++ ['/']) with
        | none => rw [hr] at h; cases h
        | some rest => exact hprefix rest (dropPrefix?_eq_some.mp hr)
    · exact fun h => .inr (.inl h)

/-- **What `dir/*` accepts**: what begins with the directory and a separator, whatever follows. -/
theorem matchesGlob_child_iff (hkind : kind = .fsRead ∨ kind = .fsWrite) (hdir : PlainDir dir) :
    matchesGlob (dir ++ ['/', '*']) target kind = true ↔
      ∃ rest, normalizePath target = dirText dir ++ rest ∧
        ¬(Overlooked ['*'] rest ∧ (dirText dir = [] ∨ '/' ∈ rest)) := by
  rw [matchesGlob_path hkind slashes_stars.2 rfl, wildcardMatch_dir hdir]
  generalize normalizePath target = t
  generalize hd : dirText dir = d
  have hunder : underRule (d ++ ['*']) t = false := by
    rw [underRule, dropSuffix?_eq_none]
    intro p hp
    have hlast := congrArg (fun l => l.reverse.tail.head?) hp
    rcases hd ▸ endsDir_dirText dir with rfl | ⟨e, rfl⟩ <;> simp at hlast
  have hstar : ∀ rest : Text, wildcardMatch ['*'] rest = true ↔ ¬Overlooked ['*'] rest := by
    intro rest
    rw [wildcardMatch_star, Overlooked]
    cases rest with
    | nil => simp
    | cons c rest =>
      simp only [List.head?_cons, ne_eq, Option.some.injEq, List.cons_prefix_cons, List.nil_prefix,
        and_true, not_and, not_not]
      constructor
      · rintro (h | h) hc
        · exact h
        · exact absurd hc.symm h
      · exact fun h => (Classical.em (c = '*')).imp (fun hc => h hc.symm) id
  have hchild : childRule (d ++ ['*']) t = true ↔ d ≠ [] ∧ ∃ rest, t = d ++ rest ∧ '/' ∉ rest := by
    rcases hd ▸ endsDir_dirText dir with rfl | ⟨e, rfl⟩
    · rw [childRule, dropSuffix?_eq_none]
      · simp
      · intro p hp
        have := congrArg List.length hp
        simp at this
    · rw [show e ++ ['/'] ++ ['*'] = e ++ ['/', '*'] by simp, childRule_iff]
      simp
  rw [hunder, hchild]
  constructor
  · rintro (h | h | ⟨hne, rest, ht, hrest⟩ | h)
    · exact ⟨['*'], h.symm, fun hover => hover.1.2 rfl⟩
    · cases h
    · exact ⟨rest, ht, fun hover => hover.2.elim hne hrest⟩
    · cases hr : t.dropPrefix? d with
      | none => rw [hr] at h; cases h
      | some rest =>
        rw [hr] at h
        exact ⟨rest, dropPrefix?_eq_some.mp hr, fun hover => (hstar rest).mp h hover.1⟩
  · rintro ⟨rest, ht, hover⟩
    by_cases hov : Overlooked ['*'] rest
    · refine .inr (.inr (.inl ⟨fun h => hover ⟨hov, .inl h⟩, rest, ht, fun h => hover ⟨hov, .inr h⟩⟩))
    · rw [dropPrefix?_eq_some.mpr ht]
      exact .inr (.inr (.inr ((hstar rest).mpr hov)))

end

/-! ## Where a path leads -/

/-- Where a path leads: whether it begins at the root, and the directory, innermost segment first. -/
structure Location where
  rooted : Bool
  dir : List Segment
  deriving DecidableEq, Repr

/-- The location a path names, with either slash. -/
def locate (p : Text) : Location :=
  let rooted : Bool := (slashes p).head? = some '/'
  ⟨rooted, resolve rooted ((slashes p).splitOn '/')⟩

/-- The location of the directory of a pattern. The empty text before `/**` is the root. -/
def locateDir (dir : Text) : Location := locate (dir ++ ['/'])

/-- `target` is the directory or lies below it. -/
def Location.IsUnder (dir target : Location) : Prop :=
  dir.rooted = target.rooted ∧ Under dir.dir target.dir

/-- `target` is a child of the directory. -/
def Location.IsChild (dir target : Location) : Prop :=
  dir.rooted = target.rooted ∧ ChildOf dir.dir target.dir

section
variable {rooted : Bool}

theorem split_slash (a b : Text) : (a ++ '/' :: b).splitOn '/' = a.splitOn '/' ++ b.splitOn '/' :=
  List.splitOn_append_cons_self a b

theorem resolve_trim (t : Text) :
    resolve rooted ((trimDotSlash t).splitOn '/') = resolve rooted (t.splitOn '/') := by
  induction t using trimDotSlash.induct with
  | case1 cs ih =>
    have hsplit : ('.' :: '/' :: cs).splitOn '/' = ['.'] :: cs.splitOn '/' :=
      @List.splitOn_append_cons_self_of_not_mem _ ['.'] _ _ '/' (by decide) cs
    rw [hsplit]
    exact ih
  | case2 cs hcs =>
    rw [trimDotSlash]
    exact hcs

theorem walk_split_nil (dir : List Segment) (b : Text) (h : b = []) : walk rooted dir (b.splitOn '/') = dir := by
  subst h
  rfl

theorem resolve_slash (t : Text) : resolve rooted ((t ++ ['/']).splitOn '/') = resolve rooted (t.splitOn '/') := by
  rw [split_slash, resolve_append]
  rfl

theorem resolve_dir_append {d : Text} (h : EndsDir d) (rest : Text) :
    resolve rooted ((d ++ rest).splitOn '/') =
      walk rooted (resolve rooted (d.splitOn '/')) (rest.splitOn '/') := by
  rcases h with rfl | ⟨e, rfl⟩
  · rfl
  · rw [resolve_slash, List.append_assoc]
    show resolve rooted ((e ++ '/' :: rest).splitOn '/') = _
    rw [split_slash, resolve_append]

theorem locateDir_dir (dir : Text) :
    (locateDir dir).dir = resolve (locateDir dir).rooted ((dirText dir).splitOn '/') := by
  rw [dirText, normalizePath, resolve_trim]
  rfl

/-- A target that begins with the directory leads where the remainder leads from there. -/
theorem locate_of_dropPrefix {dir target rest : Text}
    (hroot : (locateDir dir).rooted = (locate target).rooted)
    (h : normalizePath target ++ ['/'] = dirText dir ++ rest) :
    (locate target).dir = walk (locateDir dir).rooted (locateDir dir).dir (rest.splitOn '/') := by
  have htarget : (locate target).dir =
      resolve (locateDir dir).rooted ((normalizePath target ++ ['/']).splitOn '/') := by
    rw [resolve_slash, normalizePath, resolve_trim, hroot]
    rfl
  rw [htarget, h, resolve_dir_append (endsDir_dirText dir), locateDir_dir]

end

/-! ## Confinement -/

/-- What follows the directory in a target. -/
def remainder (dir target : Text) : Option Text :=
  (normalizePath target ++ ['/']).dropPrefix? (dirText dir)

/-- The path and the directory begin at the same root, and the path comes back to the directory
however far its remainder goes up. -/
def Stays (dir target rest : Text) : Prop :=
  (locateDir dir).rooted = (locate target).rooted ∧
    ComesBack (locateDir dir).rooted (locateDir dir).dir (relUps (rest.splitOn '/'))
      (relNames (rest.splitOn '/'))

/-- The same, with one name more at the end than it has come back by. -/
def StaysChild (dir target rest : Text) : Prop :=
  (locateDir dir).rooted = (locate target).rooted ∧
    ((locateDir dir).rooted = true ∨ relUps (rest.splitOn '/') ≤ (locateDir dir).dir.length) ∧
      (relNames (rest.splitOn '/')).tail = (locateDir dir).dir.take (relUps (rest.splitOn '/')) ∧
        relNames (rest.splitOn '/') ≠ []

/-- **When `dir/**` confines a target.** -/
def ConfinesUnder (dir target : Text) : Prop :=
  ∀ rest, remainder dir target = some rest →
    (dirText dir = [] ∧ Overlooked ['*', '*'] (normalizePath target)) ∨ Stays dir target rest

/-- **When `dir/*` confines a target.** -/
def ConfinesChild (dir target : Text) : Prop :=
  ∀ rest, normalizePath target = dirText dir ++ rest →
    (Overlooked ['*'] rest ∧ (dirText dir = [] ∨ '/' ∈ rest)) ∨ StaysChild dir target rest

/-- A path of ordinary names, one below another. -/
def PlainPath (path : Text) : Prop :=
  (∀ s ∈ path.splitOn '/', IsName s) ∧ ∀ c ∈ path, c ≠ '\\' ∧ c ≠ '*' ∧ c ≠ '?'

section
variable {dir target rest : Text} {kind : CapabilityKind}

theorem exists_resolved (dir : Text) :
    ∃ k names, Resolved (locateDir dir).rooted (locateDir dir).dir k names := resolved_resolve _ _

theorem isUnder_iff_stays (h : remainder dir target = some rest) :
    (locateDir dir).IsUnder (locate target) ↔ Stays dir target rest := by
  obtain ⟨k, names, hd⟩ := exists_resolved dir
  apply and_congr_right
  intro hroot
  rw [locate_of_dropPrefix hroot (dropPrefix?_eq_some.mp h)]
  exact under_walk_iff hd (relative_rel _)

theorem isChild_iff_stays (h : normalizePath target = dirText dir ++ rest) :
    (locateDir dir).IsChild (locate target) ↔ StaysChild dir target rest := by
  obtain ⟨k, names, hd⟩ := exists_resolved dir
  apply and_congr_right
  intro hroot
  have hwalk : (locate target).dir =
      walk (locateDir dir).rooted (locateDir dir).dir (rest.splitOn '/') := by
    have hslash : normalizePath target ++ ['/'] = dirText dir ++ (rest ++ ['/']) := by
      rw [h, List.append_assoc]
    rw [locate_of_dropPrefix hroot hslash, split_slash, walk_append]
    exact walk_split_nil _ _ rfl
  rw [hwalk]
  exact childOf_walk_iff hd (relative_rel _)

section
variable (hkind : kind = .fsRead ∨ kind = .fsWrite)
include hkind

theorem confinesUnder_iff (hdir : PlainDir dir) :
    (matchesGlob (dir ++ ['/', '*', '*']) target kind = true →
      (locateDir dir).IsUnder (locate target)) ↔ ConfinesUnder dir target := by
  rw [matchesGlob_under_iff hkind hdir]
  constructor
  · intro h rest hrest
    by_cases hover : dirText dir = [] ∧ Overlooked ['*', '*'] (normalizePath target)
    · exact .inl hover
    · refine .inr ((isUnder_iff_stays hrest).mp (h ⟨⟨rest, ?_⟩, hover⟩))
      exact (dropPrefix?_eq_some.mp hrest).symm
  · rintro h ⟨⟨rest, hrest⟩, hover⟩
    have hrem : remainder dir target = some rest := dropPrefix?_eq_some.mpr hrest.symm
    exact (isUnder_iff_stays hrem).mpr ((h rest hrem).resolve_left hover)

theorem confinesChild_iff (hdir : PlainDir dir) :
    (matchesGlob (dir ++ ['/', '*']) target kind = true →
      (locateDir dir).IsChild (locate target)) ↔ ConfinesChild dir target := by
  rw [matchesGlob_child_iff hkind hdir]
  constructor
  · intro h rest hrest
    by_cases hover : Overlooked ['*'] rest ∧ (dirText dir = [] ∨ '/' ∈ rest)
    · exact .inl hover
    · exact .inr ((isChild_iff_stays hrest).mp (h ⟨rest, hrest, hover⟩))
  · rintro h ⟨rest, hrest, hover⟩
    exact (isChild_iff_stays hrest).mpr ((h rest hrest).resolve_left hover)

theorem matchesGlob_plain (hdir : PlainDir dir)
    {path : Text} (h : PlainPath path) :
    matchesGlob (dir ++ ['/', '*', '*']) (dir ++ '/' :: path) kind = true := by
  have hs : slashes path = path := by
    have hid : ∀ c ∈ path, (if c = '\\' then '/' else c) = c := fun c hc => if_neg (h.2 c hc).1
    exact (List.map_congr_left hid).trans (List.map_id path)
  have ht : trimDotSlash path = path := by
    unfold trimDotSlash
    split
    case h_1 cs =>
      have hsplit : ('.' :: '/' :: cs).splitOn '/' = ['.'] :: cs.splitOn '/' :=
        @List.splitOn_append_cons_self_of_not_mem _ ['.'] _ _ '/' (by decide) cs
      exact absurd rfl (h.1 dot (hsplit ▸ List.mem_cons_self)).2.1
    case h_2 => rfl
  rw [matchesGlob_under_iff hkind hdir, normalizePath_append hs ht]
  refine ⟨⟨path ++ ['/'], by rw [List.append_assoc]⟩, ?_⟩
  rintro ⟨hnil, ⟨rest, hrest⟩, -⟩
  rw [hnil, List.nil_append] at hrest
  exact (h.2 '*' (hrest ▸ List.mem_cons_self)).2.1 rfl

end

end

/-- **A capability pattern confines exactly the targets whose remainder comes back**, for every
directory without a wildcard, and it accepts every plain path below the directory. -/
theorem matchesGlob_confined_iff (kind : CapabilityKind) (dir target : Text)
    (hkind : kind = .fsRead ∨ kind = .fsWrite) (hdir : PlainDir dir) :
    ((matchesGlob (dir ++ ['/', '*', '*']) target kind = true →
        (locateDir dir).IsUnder (locate target)) ↔ ConfinesUnder dir target) ∧
      ((matchesGlob (dir ++ ['/', '*']) target kind = true →
        (locateDir dir).IsChild (locate target)) ↔ ConfinesChild dir target) ∧
      ∀ path, PlainPath path →
        matchesGlob (dir ++ ['/', '*', '*']) (dir ++ '/' :: path) kind = true :=
  ⟨confinesUnder_iff hkind hdir, confinesChild_iff hkind hdir,
    fun _ h => matchesGlob_plain hkind hdir h⟩

/-- `d/**` and the target `d/../d/x`, which goes up and comes back. -/
theorem matchesGlob_confined_back :
    matchesGlob "d/**".toList "d/../d/x".toList .fsRead = true ∧
      (locateDir ['d']).IsUnder (locate "d/../d/x".toList) := by
  have haccepts : matchesGlob "d/**".toList "d/../d/x".toList .fsRead = true :=
    (matchesGlob_under_iff (.inl rfl) plainDir_d).mpr (by decide)
  refine ⟨haccepts, ?_⟩
  refine (matchesGlob_confined_iff .fsRead ['d'] "d/../d/x".toList (.inl rfl)
    plainDir_d).1.mpr (fun rest hrest => ?_) haccepts
  obtain rfl : "../d/x/".toList = rest := by
    have hrem : remainder ['d'] "d/../d/x".toList = some "../d/x/".toList := by decide
    exact Option.some.inj (hrem.symm.trans hrest)
  exact .inr (by unfold Stays; decide)

/-- A pattern does not confine: `d/**` accepts `d/../x`. -/
theorem matchesGlob_not_confined :
    ¬∀ (kind : CapabilityKind) (dir target : Text), kind = .fsRead ∨ kind = .fsWrite →
      PlainDir dir → matchesGlob (dir ++ ['/', '*', '*']) target kind = true →
        (locateDir dir).IsUnder (locate target) := by
  intro h
  obtain ⟨-, names, hnames, -⟩ := h .fsRead ['d'] "d/../x".toList (.inl rfl)
    plainDir_d
    ((matchesGlob_under_iff (.inl rfl) plainDir_d).mpr (by decide))
  have hmem : ['d'] ∈ (locate "d/../x".toList).dir := by
    rw [hnames]
    exact List.mem_append_right _ (by decide)
  exact absurd hmem (by decide)

end Datara.Project
