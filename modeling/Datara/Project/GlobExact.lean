import Datara.Project.Glob
import Mathlib.Data.List.Forall2

/-!
# What the wildcard match accepts

A pattern matches a text when the text can be cut so that each `?` takes one character, each `*` a run and
every other character itself (`Globs`). The loop tests a pattern character for equality before it asks
whether it is a `*`, so a `*` that meets a `*` of the text takes that one character and is no star any more
(`StarForStar`). This is exactly what the loop decides, by one backtrack point (`wildcardMatch_iff_starForStar`).
-/

namespace Datara.Project

/-- The text can be cut into parts for the characters of the pattern. -/
inductive Globs : Text → Text → Prop
  | nil : Globs [] []
  | any {p s : Text} {c : Char} : Globs p s → Globs ('?' :: p) (c :: s)
  | star {p s : Text} (run : Text) : Globs p s → Globs ('*' :: p) (run ++ s)
  | char {p s : Text} {c : Char} : c ≠ '*' → c ≠ '?' → Globs p s → Globs (c :: p) (c :: s)

/-- The same, where a `*` of the pattern that comes to stand at a `*` of the text takes that character and
nothing more. -/
inductive StarForStar : Text → Text → Prop
  | nil : StarForStar [] []
  | any {p s : Text} {c : Char} : StarForStar p s → StarForStar ('?' :: p) (c :: s)
  | star {p s : Text} (run : Text) : ((run ++ s).head? = some '*' → run = ['*']) → StarForStar p s →
      StarForStar ('*' :: p) (run ++ s)
  | char {p s : Text} {c : Char} : c ≠ '*' → c ≠ '?' → StarForStar p s → StarForStar (c :: p) (c :: s)

theorem StarForStar.globs {p s : Text} (h : StarForStar p s) : Globs p s := by
  induction h with
  | nil => exact .nil
  | any _ ih => exact .any ih
  | star run _ _ ih => exact .star run ih
  | char hstar hany _ ih => exact .char hstar hany ih

/-! ## One character of the pattern -/

section
variable {p s seg matched after text : Text} {q c : Char}

/-- The first test of the loop: the character of the pattern takes the character of the text. -/
def Takes (q c : Char) : Prop := q = '?' ∨ q = c

theorem starForStar_star : StarForStar ('*' :: p) text ↔
    ∃ run s, text = run ++ s ∧ (text.head? = some '*' → run = ['*']) ∧ StarForStar p s := by
  constructor
  · intro h
    generalize hpat : '*' :: p = pat at h
    cases h with
    | nil => cases hpat
    | any => exact absurd (List.cons.inj hpat).1 (by decide)
    | star run hrun h =>
      obtain rfl := (List.cons.inj hpat).2
      exact ⟨run, _, rfl, hrun, h⟩
    | char hstar => exact absurd (List.cons.inj hpat).1.symm hstar
  · rintro ⟨run, s, rfl, hrun, h⟩
    exact .star run hrun h

theorem starForStar_cons (hq : q ≠ '*') : StarForStar (q :: p) text ↔
    ∃ c s, text = c :: s ∧ Takes q c ∧ StarForStar p s := by
  constructor
  · intro h
    cases h with
    | any h => exact ⟨_, _, rfl, .inl rfl, h⟩
    | star => exact absurd rfl hq
    | char _ _ h => exact ⟨_, _, rfl, .inr rfl, h⟩
  · rintro ⟨c, s, rfl, htakes, h⟩
    by_cases hany : q = '?'
    · subst hany
      exact .any h
    · obtain rfl := htakes.resolve_left hany
      exact .char hq hany h

/-- A character that takes the other takes it in every cut: a `*` only where both are `*`. -/
theorem starForStar_takes (h : Takes q c) : StarForStar (q :: p) (c :: s) ↔ StarForStar p s := by
  by_cases hq : q = '*'
  · obtain rfl := h.resolve_left (by rw [hq]; decide)
    subst hq
    rw [starForStar_star]
    constructor
    · rintro ⟨run, s', hcut, hrun, h⟩
      rw [hrun rfl] at hcut
      exact (List.cons.inj hcut).2 ▸ h
    · intro h
      exact ⟨['*'], s, rfl, fun _ => rfl, h⟩
  · rw [starForStar_cons hq]
    constructor
    · rintro ⟨c', s', hcut, -, h⟩
      exact (List.cons.inj hcut).2 ▸ h
    · intro h
      exact ⟨c, s, rfl, ‹_›, h⟩

/-- Elsewhere a `*` takes any run. -/
theorem starForStar_star_drop (hc : text.head? ≠ some '*') :
    StarForStar ('*' :: p) text ↔ ∃ k, StarForStar p (text.drop k) := by
  rw [starForStar_star]
  constructor
  · rintro ⟨run, s, rfl, -, h⟩
    exact ⟨run.length, by rwa [List.drop_left]⟩
  · rintro ⟨k, h⟩
    exact ⟨text.take k, text.drop k, (List.take_append_drop k text).symm, fun hx => absurd hx hc, h⟩

theorem starForStar_nil_right : StarForStar p [] ↔ p.all (· = '*') = true := by
  induction p with
  | nil => exact ⟨fun _ => rfl, fun _ => .nil⟩
  | cons q p ih =>
    by_cases hq : q = '*'
    · subst hq
      rw [starForStar_star_drop (by simp)]
      simp [ih]
    · rw [starForStar_cons hq]
      simp [hq]

/-! ## The exchange -/

/-- **One backtrack point is enough.** What a segment of the pattern has taken character by character, from
a star's first place on, it cannot end before when the star takes more. -/
theorem starForStar_overtakes (hseg : List.Forall₂ Takes seg matched) {k : Nat}
    (h : StarForStar (seg ++ p) ((matched ++ text).drop k)) : ∃ j, StarForStar p (text.drop j) := by
  induction hseg generalizing k with
  | nil => exact ⟨k, h⟩
  | @cons q c seg matched hqc hseg ih =>
    cases k with
    | zero => exact ih (k := 0) ((starForStar_takes hqc).mp h)
    | succ k =>
      -- later in the text, the character takes one more or, being a star, any run
      rw [List.cons_append, List.cons_append, List.drop_succ_cons] at h
      by_cases hq : q = '*'
      · subst hq
        obtain ⟨run, s, hcut, -, h⟩ := starForStar_star.mp h
        refine ih (k := k + run.length) ?_
        rwa [← List.drop_drop, hcut, List.drop_left]
      · obtain ⟨c', s, hcut, -, h⟩ := (starForStar_cons hq).mp h
        refine ih (k := k + 1) ?_
        rwa [← List.drop_drop, hcut]

end

/-! ## The loop -/

/-- What the loop can still go back to: the star takes more than before. -/
def Backtracks (star : Option (Text × Text)) : Prop :=
  ∃ x ∈ star, ∃ k ≥ 1, StarForStar x.1 (x.2.drop k)

/-- Since the last star the loop went on character by character. -/
def Followed (pat text : Text) (star : Option (Text × Text)) : Prop :=
  ∀ x ∈ star, ∃ seg matched, x.1 = seg ++ pat ∧ x.2 = matched ++ text ∧ List.Forall₂ Takes seg matched

variable {star : Option (Text × Text)}

theorem Followed.starForStar {pat text : Text} (h : Followed pat text star)
    (hback : Backtracks star) : ∃ j, StarForStar pat (text.drop j) := by
  obtain ⟨x, hx, k, -, hmatch⟩ := hback
  obtain ⟨seg, matched, hafter, htext, hseg⟩ := h x hx
  rw [hafter, htext] at hmatch
  exact starForStar_overtakes hseg hmatch

theorem Followed.step {pat text : Text} {star : Option (Text × Text)} {q c : Char}
    (h : Followed (q :: pat) (c :: text) star) (hqc : Takes q c) : Followed pat text star := by
  intro x hx
  obtain ⟨seg, matched, hafter, htext, hseg⟩ := h x hx
  refine ⟨seg ++ [q], matched ++ [c], ?_, ?_, List.rel_append hseg (.cons hqc .nil)⟩
  · rw [hafter, List.append_assoc]
    rfl
  · rw [htext, List.append_assoc]
    rfl

theorem followed_here (pat text : Text) : Followed pat text (some (pat, text)) := by
  intro x hx
  cases hx
  exact ⟨[], [], rfl, rfl, .nil⟩

/-- Neither test of the loop holds. -/
def Stuck (pat : Text) (c : Char) : Prop := ∀ q ∈ pat.head?, ¬Takes q c ∧ q ≠ '*'

variable {pat rest : Text}

theorem Stuck.not_starForStar {c : Char} (h : Stuck pat c) : ¬StarForStar pat (c :: rest) := by
  cases pat with
  | nil => nofun
  | cons q pat =>
    obtain ⟨hqc, hq⟩ := h q rfl
    rw [starForStar_cons hq]
    intro ⟨c', s, hcut, htakes, _⟩
    exact hqc ((List.cons.inj hcut).1 ▸ htakes)

theorem wildcardLoop_takes {q c : Char} {behind}
    (h : Takes q c) : wildcardLoop (q :: pat) (c :: rest) star behind =
      wildcardLoop pat rest star fun x hx => Nat.le_of_succ_le (behind x hx) := by
  rw [wildcardLoop.eq_def]
  exact if_pos h

theorem behind_here (pat text : Text) : ∀ x ∈ some (pat, text), text.length ≤ x.2.length := by
  intro x hx
  cases hx
  exact Nat.le_refl _

theorem wildcardLoop_star {c : Char} {behind}
    (h : ¬Takes '*' c) : wildcardLoop ('*' :: pat) (c :: rest) star behind =
      wildcardLoop pat (c :: rest) (some (pat, c :: rest)) (behind_here pat _) := by
  rw [wildcardLoop.eq_def]
  exact (if_neg h).trans (if_pos rfl)

theorem wildcardLoop_stuck_none {c : Char} {behind} (h : Stuck pat c) :
    wildcardLoop pat (c :: rest) none behind = false := by
  rw [wildcardLoop.eq_def]
  cases pat with
  | nil => rfl
  | cons q pat => exact (if_neg (h q rfl).1).trans (if_neg (h q rfl).2)

theorem wildcardLoop_stuck {pat rest after rest' : Text} {c c' : Char} {behind} (h : Stuck pat c) :
    wildcardLoop pat (c :: rest) (some (after, c' :: rest')) behind =
      wildcardLoop after rest' (some (after, rest')) (behind_here after rest') := by
  rw [wildcardLoop.eq_def]
  cases pat with
  | nil => rfl
  | cons q pat => exact (if_neg (h q rfl).1).trans (if_neg (h q rfl).2)

theorem backtracks_cons {after rest : Text} {c : Char} :
    Backtracks (some (after, c :: rest)) ↔ StarForStar after rest ∨ Backtracks (some (after, rest)) := by
  constructor
  · intro ⟨x, hx, k, hk, h⟩
    cases hx
    obtain ⟨k, rfl⟩ : ∃ n, k = n + 1 := ⟨k - 1, by omega⟩
    rw [List.drop_succ_cons] at h
    cases k with
    | zero => exact .inl h
    | succ k => exact .inr ⟨_, rfl, k + 1, by omega, h⟩
  · rintro (h | ⟨x, hx, k, hk, h⟩)
    · exact ⟨_, rfl, 1, Nat.le_refl _, h⟩
    · cases hx
      exact ⟨_, rfl, k + 1, by omega, h⟩

theorem starForStar_star_here {pat text : Text} (hc : text.head? ≠ some '*') :
    StarForStar ('*' :: pat) text ↔ StarForStar pat text ∨ Backtracks (some (pat, text)) := by
  rw [starForStar_star_drop hc]
  constructor
  · intro ⟨k, h⟩
    cases k with
    | zero => exact .inl h
    | succ k => exact .inr ⟨_, rfl, k + 1, by omega, h⟩
  · rintro (h | ⟨x, hx, k, -, h⟩)
    · exact ⟨0, h⟩
    · cases hx
      exact ⟨k, h⟩

/-- What the loop comes down by. -/
def loopMeasure (pat text : Text) (star : Option (Text × Text)) : Nat × Nat × Nat × Nat :=
  (if star.isNone then 1 else 0, (star.map (·.2.length)).getD 0, text.length, pat.length)

theorem lex_wf : WellFounded (Prod.Lex (· < · : Nat → Nat → Prop) (Prod.Lex (· < · : Nat → Nat → Prop)
    (Prod.Lex (· < · : Nat → Nat → Prop) (· < · : Nat → Nat → Prop)))) :=
  (Prod.lex Nat.lt_wfRel (Prod.lex Nat.lt_wfRel (Prod.lex Nat.lt_wfRel Nat.lt_wfRel))).wf

/-- The loop accepts what the rest of the pattern matches here, or after its last star further on. -/
theorem wildcardLoop_iff (pat text : Text) (star : Option (Text × Text)) (behind)
    (h : Followed pat text star) :
    wildcardLoop pat text star behind = true ↔ StarForStar pat text ∨ Backtracks star := by
  generalize hm : loopMeasure pat text star = m
  induction m using lex_wf.induction generalizing pat text star with
  | _ m ih =>
    subst hm
    cases text with
    | nil =>
      rw [wildcardLoop, ← starForStar_nil_right]
      refine ⟨.inl, fun hx => hx.elim id fun hback => ?_⟩
      obtain ⟨j, hj⟩ := h.starForStar hback
      rwa [List.drop_nil] at hj
    | cons c rest =>
      by_cases hstuck : Stuck pat c
      · rw [or_iff_right hstuck.not_starForStar]
        cases star with
        | none =>
          rw [wildcardLoop_stuck_none hstuck]
          simp [Backtracks]
        | some x =>
          obtain ⟨after, behindStar⟩ := x
          cases behindStar with
          | nil => exact absurd (behind _ rfl) (by simp)
          | cons c' rest' =>
            rw [wildcardLoop_stuck hstuck, backtracks_cons]
            refine ih _ ?_ after rest' _ _ (followed_here after rest') rfl
            simp [loopMeasure, Prod.lex_def]
      · cases pat with
        | nil => exact absurd (by simp [Stuck]) hstuck
        | cons q pat =>
          by_cases hqc : Takes q c
          · rw [wildcardLoop_takes hqc, starForStar_takes hqc]
            refine ih _ ?_ pat rest star _ (h.step hqc) rfl
            simp [loopMeasure, Prod.lex_def]
          · obtain rfl : q = '*' := by
              by_contra hq
              exact hstuck fun x hx => by
                cases hx
                exact ⟨hqc, hq⟩
            have hc : (c :: rest).head? ≠ some '*' := fun hx => hqc (.inr (Option.some.inj hx).symm)
            have hrest : wildcardLoop pat (c :: rest) (some (pat, c :: rest)) (behind_here pat _) = true ↔
                StarForStar pat (c :: rest) ∨ Backtracks (some (pat, c :: rest)) := by
              refine ih _ ?_ pat (c :: rest) _ _ (followed_here _ _) rfl
              cases star with
              | none => simp [loopMeasure, Prod.lex_def]
              | some x =>
                have hlen := behind x rfl
                simp only [List.length_cons] at hlen
                simp only [loopMeasure, Prod.lex_def, Option.isNone_some, Option.map_some, Option.getD_some,
                  List.length_cons]
                simp
                omega
            rw [wildcardLoop_star hqc, hrest, ← starForStar_star_here hc]
            refine ⟨.inl, fun hx => hx.elim id fun hback => ?_⟩
            -- the older star is not needed: the new one takes what the older would
            obtain ⟨j, hj⟩ := h.starForStar hback
            obtain ⟨run, s, hcut, -, hs⟩ := starForStar_star.mp hj
            refine (starForStar_star_drop hc).mpr ⟨j + run.length, ?_⟩
            rwa [← List.drop_drop, hcut, List.drop_left]

/-- **What `wildcard_match` accepts.** -/
theorem wildcardMatch_iff_starForStar (pat s : Text) : wildcardMatch pat s = true ↔ StarForStar pat s := by
  rw [wildcardMatch, wildcardLoop_iff pat s none _ (by simp [Followed]), or_iff_left]
  simp [Backtracks]

/-- **`wildcard_match` is the wildcard match exactly where a pattern that matches at all matches with each
star that comes to stand at a `*` taking no more than that.** A match it reports is always one. -/
theorem wildcardMatch_exact_iff (pat s : Text) :
    (wildcardMatch pat s = true ↔ Globs pat s) ↔ (Globs pat s → StarForStar pat s) := by
  rw [wildcardMatch_iff_starForStar]
  exact ⟨fun h => h.mpr, fun h => ⟨StarForStar.globs, h⟩⟩

/-- The text `**`, of which the pattern `*` takes one character. -/
theorem wildcardMatch_misses : Globs ['*'] ['*', '*'] ∧ ¬wildcardMatch ['*'] ['*', '*'] = true := by
  refine ⟨.star ['*', '*'] .nil, ?_⟩
  rw [wildcardMatch_iff_starForStar, starForStar_takes (.inr rfl)]
  exact nofun

end Datara.Project
