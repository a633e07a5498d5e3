import Datara.Types.MatchCheck

/-!
# Where the check of a match is exact

The check reads each pattern as a catch-all, as a name or as nothing (`reading`), and what it reports follows
from these readings alone (`Ran`). So it is exact where the names it asks for are the variants of the type and
each pattern is read as what it matches (`exact_of_plain`), and each pattern that is not goes wrong in some match
(`exact_iff_plain`).
-/

namespace Datara.Types

open Ast

/-- What the check takes a pattern for. -/
inductive Reading where
  | all
  | name (n : String)
  | nothing

def reading (domain : Domain) : Pattern → Reading
  | .wildcard => .all
  | .identifier name => if name ≠ "_" ∧ isEnumVariant domain name = true then .name name else .all
  | .literal .none => .name "None"
  | .literal (.bool b) => .name (boolKey b)
  | .literal _ => .nothing
  | .variant _ name _ => .name name

/-- The values a reading stands for. -/
def Reading.Has (v : String) : Reading → Prop
  | .all => True
  | .name n => v = n
  | .nothing => False

/-- A pattern that is read as what it matches. -/
def Scrutinee.Plain (s : Scrutinee) : Pattern → Prop
  | .wildcard => True
  | .identifier name => isEnumVariant s.domain name = true → name = "_" ∨ ∀ v ∈ s.variants, v = name
  | .literal .none => "None" ∈ s.variants → s.kind = .option
  | .literal (.bool b) => boolKey b ∈ s.variants → s.kind = .bool
  | .literal _ => True
  | .variant enumName name _ =>
    name ∈ s.variants → s.kind ≠ .bool ∧ ∀ e, enumName = some e → e ∈ s.typeNames

/-- The names the check asks for are the variants of the type. -/
def Scrutinee.NamesRight (s : Scrutinee) : Prop := ∀ v, v ∈ s.domain.required.map Prod.fst ↔ v ∈ s.variants

variable {s : Scrutinee} {st : CheckState} {arms before after : List MatchArm} {arm : MatchArm} {v name : String}
  {p : Pattern} {index : Nat} {domain : Domain}

theorem plain_iff (p : Pattern) : s.Plain p ↔ ∀ v ∈ s.variants, (reading s.domain p).Has v ↔ s.Matches v p := by
  cases p with
  | wildcard => exact iff_of_true trivial fun _ _ => Iff.rfl
  | identifier name =>
    show (isEnumVariant s.domain name = true → name = "_" ∨ ∀ v ∈ s.variants, v = name) ↔ ∀ v ∈ s.variants,
      (if name ≠ "_" ∧ isEnumVariant s.domain name = true then Reading.name name else .all).Has v ↔ True
    by_cases hread : name ≠ "_" ∧ isEnumVariant s.domain name = true
    · rw [if_pos hread]
      show (_ → _ ∨ _) ↔ ∀ v ∈ s.variants, v = name ↔ True
      simp [hread.2, hread.1]
    · rw [if_neg hread]
      refine iff_of_true (fun hvariant => .inl ?_) fun _ _ => Iff.rfl
      by_contra hname
      exact hread ⟨hname, hvariant⟩
  | literal value =>
    cases value with
    | none =>
      exact ⟨fun h v hv => ⟨fun heq => ⟨h (heq ▸ hv), heq⟩, And.right⟩, fun h hv => ((h _ hv).mp rfl).1⟩
    | bool b =>
      exact ⟨fun h v hv => ⟨fun heq => ⟨h (heq ▸ hv), heq⟩, And.right⟩, fun h hv => ((h _ hv).mp rfl).1⟩
    | _ => exact iff_of_true trivial fun _ _ => Iff.rfl
  | variant enumName name bindings =>
    constructor
    · intro h v hv
      refine ⟨fun heq => ?_, fun hm => hm.2.1⟩
      obtain ⟨hbool, hnames⟩ := h (heq ▸ hv)
      exact ⟨hbool, heq, hnames⟩
    · intro h hv
      obtain ⟨hbool, -, hnames⟩ := (h name hv).mp rfl
      exact ⟨hbool, hnames⟩

/-! ## The run over the arms -/

def CatchAll (domain : Domain) (arms : List MatchArm) : Prop :=
  ∃ arm ∈ arms, Unguarded arm ∧ reading domain arm.pattern = .all

def Named (domain : Domain) (arms : List MatchArm) (name : String) : Prop :=
  ∃ arm ∈ arms, Unguarded arm ∧ reading domain arm.pattern = .name name

/-- The arm is read as covered by those before it. -/
def Hidden (domain : Domain) (before : List MatchArm) (arm : MatchArm) : Prop :=
  CatchAll domain before ∨ ∃ name, reading domain arm.pattern = .name name ∧ Named domain before name

/-- The state of the check after some arms. -/
structure Ran (domain : Domain) (arms : List MatchArm) (st : CheckState) : Prop where
  catchAll : st.catchAllHit = true ↔ CatchAll domain arms
  named : ∀ name ∈ st.coveredVariants, Named domain arms name
  covered : ∀ name, ¬ CatchAll domain arms → Named domain arms name → name ∈ st.coveredVariants
  silent : ¬ Reported st.diags
  hidden : ∀ before arm after, arms = before ++ arm :: after → ReportedUnreachable st.diags before.length →
    Hidden domain before arm
  /-- Reports are about arms that were seen. -/
  seen : ∀ index, ReportedUnreachable st.diags index → index < arms.length

/-- What an arm does to the state, by its reading. -/
structure Stepped (st st' : CheckState) (r : Reading) (unguarded : Bool) (index : Nat) : Prop where
  catchAll : st'.catchAllHit = true ↔ st.catchAllHit = true ∨ unguarded = true ∧ r = .all
  covered : ∀ name, name ∈ st'.coveredVariants ↔
    name ∈ st.coveredVariants ∨ st.catchAllHit = false ∧ unguarded = true ∧ r = .name name
  silent : Reported st'.diags → Reported st.diags
  hidden : ∀ k, ReportedUnreachable st'.diags k → ReportedUnreachable st.diags k ∨
    k = index ∧ (st.catchAllHit = true ∨ ∃ name, r = .name name ∧ name ∈ st.coveredVariants)

section
variable {code : ErrorCode} {message : String} {place : Place} {st' : CheckState} {r : Reading} {u : Bool}

theorem reported_error (hcode : code ≠ .nonExhaustiveMatch) (h : Reported (st.error code message place).diags) :
    Reported st.diags := by
  obtain ⟨d, hd, heq⟩ := h
  obtain hd | hd := List.mem_append.mp hd
  · exact ⟨d, hd, heq⟩
  · rw [List.mem_singleton.mp hd] at heq
    exact absurd heq hcode

theorem unreachable_error {k : Nat} (h : ReportedUnreachable (st.error code message place).diags k) :
    ReportedUnreachable st.diags k ∨ code = .unreachablePattern ∧ place = .arm k := by
  obtain ⟨d, hd, hcode, hplace⟩ := h
  obtain hd | hd := List.mem_append.mp hd
  · exact .inl ⟨d, hd, hcode, hplace⟩
  · rw [List.mem_singleton.mp hd] at hcode hplace
    exact .inr ⟨hcode, hplace⟩

theorem Stepped.of_typeMismatch (h : Stepped (st.error .typeMismatch message place) st' r u index) :
    Stepped st st' r u index where
  catchAll := h.catchAll
  covered := h.covered
  silent hr := reported_error (by decide) (h.silent hr)
  hidden k hk := by
    obtain hk | hk := h.hidden k hk
    · obtain hk | hk := unreachable_error hk
      · exact .inl hk
      · exact absurd hk.1 (by decide)
    · exact .inr hk

theorem Stepped.of_hit (hhit : st.catchAllHit = true) :
    Stepped st (st.error .unreachablePattern message (.arm index)) r u index where
  catchAll := ⟨.inl, fun _ => hhit⟩
  covered name := ⟨.inl, fun h => h.elim id fun h => absurd (hhit.symm.trans h.1) (by decide)⟩
  silent := reported_error (by decide)
  hidden k hk := by
    obtain hk | hk := unreachable_error hk
    · exact .inl hk
    · exact .inr ⟨(Place.arm.inj hk.2).symm, .inl hhit⟩

theorem Stepped.catchAll_all : Stepped st (st.catchAll u) .all u index := by
  unfold CheckState.catchAll
  cases u with
  | true =>
    exact ⟨⟨fun _ => .inr ⟨rfl, rfl⟩, fun _ => rfl⟩, fun name => ⟨.inl, fun h => h.elim id fun h => nomatch h.2.2⟩,
      id, fun k hk => .inl hk⟩
  | false =>
    exact ⟨⟨.inl, fun h => h.elim id fun h => nomatch h.1⟩, fun name => ⟨.inl, fun h => h.elim id fun h => nomatch h.2.1⟩,
      id, fun k hk => .inl hk⟩

theorem Stepped.nothing : Stepped st st .nothing u index :=
  ⟨⟨.inl, fun h => h.elim id fun h => nomatch h.2⟩, fun _ => ⟨.inl, fun h => h.elim id fun h => nomatch h.2.2⟩, id,
    fun _ hk => .inl hk⟩

theorem Stepped.cover (hhit : st.catchAllHit = false) :
    Stepped st (st.cover name message index u) (.name name) u index := by
  let st₁ := if st.coveredVariants.contains name then st.error .unreachablePattern message (.arm index) else st
  have hcovered : st₁.coveredVariants = st.coveredVariants := by
    show (if _ then _ else _ : CheckState).coveredVariants = _
    split <;> rfl
  have hcatch : st₁.catchAllHit = st.catchAllHit := by
    show (if _ then _ else _ : CheckState).catchAllHit = _
    split <;> rfl
  have hst : st.cover name message index u =
      if u then { st₁ with coveredVariants := name :: st₁.coveredVariants } else st₁ := rfl
  have hdiags : (st.cover name message index u).diags = st₁.diags := by
    rw [hst]
    split <;> rfl
  have hnew : (st.cover name message index u).catchAllHit = st.catchAllHit := by
    rw [hst, ← hcatch]
    split <;> rfl
  constructor
  case catchAll => exact ⟨fun h => .inl (hnew ▸ h), fun h => h.elim (hnew ▸ ·) fun h => nomatch h.2⟩
  case covered =>
    intro x
    rw [hst]
    cases u with
    | true =>
      show x ∈ name :: st₁.coveredVariants ↔ _
      rw [hcovered, List.mem_cons, or_comm]
      exact or_congr_right ⟨fun h => ⟨hhit, rfl, h ▸ rfl⟩, fun h => (Reading.name.inj h.2.2).symm⟩
    | false =>
      show x ∈ st₁.coveredVariants ↔ _
      rw [hcovered]
      exact ⟨.inl, fun h => h.elim id fun h => nomatch h.2.1⟩
  case silent =>
    intro h
    rw [hdiags] at h
    by_cases hmem : st.coveredVariants.contains name = true
    · rw [show st₁ = _ from if_pos hmem] at h
      exact reported_error (by decide) h
    · rwa [show st₁ = st from if_neg hmem] at h
  case hidden =>
    intro k hk
    rw [hdiags] at hk
    by_cases hmem : st.coveredVariants.contains name = true
    · rw [show st₁ = _ from if_pos hmem] at hk
      obtain hk | hk := unreachable_error hk
      · exact .inl hk
      · exact .inr ⟨(Place.arm.inj hk.2).symm, .inr ⟨name, rfl, List.contains_iff_mem.mp hmem⟩⟩
    · rw [show st₁ = st from if_neg hmem] at hk
      exact .inl hk

end

/-- **An arm does to the state what its reading says.** -/
theorem checkArm_stepped (s : Scrutinee) (st : CheckState) (index : Nat) (arm : MatchArm) :
    Stepped st (checkArm s st index arm) (reading s.domain arm.pattern) arm.guard.isNone index := by
  unfold checkArm
  by_cases hhit : st.catchAllHit = true
  · rw [if_pos hhit]
    exact .of_hit hhit
  rw [if_neg hhit]
  have hno : st.catchAllHit = false := by rwa [Bool.not_eq_true] at hhit
  cases arm.pattern with
  | wildcard => exact .catchAll_all
  | identifier name =>
    by_cases hname : name = "_"
    · simp only [reading, hname, if_true, ne_eq, not_true_eq_false, false_and, if_false]
      exact .catchAll_all
    · by_cases hvariant : isEnumVariant s.domain name = true
      · simp only [reading, hname, hvariant, if_true, if_false, ne_eq, not_false_eq_true, and_self]
        exact .cover hno
      · simp only [reading, hname, hvariant, if_false, ne_eq, not_false_eq_true, and_false]
        exact .catchAll_all
  | literal value =>
    cases value with
    | none =>
      show Stepped st (CheckState.cover _ _ _ _ _) (.name "None") _ _
      split
      · exact .cover hno
      · exact .of_typeMismatch (.cover hno)
    | bool b =>
      show Stepped st (CheckState.cover _ _ _ _ _) (.name (boolKey b)) _ _
      split
      · exact .cover hno
      · exact .of_typeMismatch (.cover hno)
    | _ => exact .nothing
  | variant enumName name bindings =>
    show Stepped st (CheckState.cover _ _ _ _ _) (.name name) _ _
    split
    · exact .cover hno
    · exact .of_typeMismatch (.cover hno)

theorem isNone_iff (arm : MatchArm) : arm.guard.isNone = true ↔ Unguarded arm := Option.isNone_iff_eq_none

theorem catchAll_snoc : CatchAll domain (arms ++ [arm]) ↔
    CatchAll domain arms ∨ Unguarded arm ∧ reading domain arm.pattern = .all := by
  unfold CatchAll
  simp

theorem named_snoc : Named domain (arms ++ [arm]) name ↔
    Named domain arms name ∨ Unguarded arm ∧ reading domain arm.pattern = .name name := by
  unfold Named
  simp

theorem Ran.nil : Ran domain [] {} where
  catchAll := ⟨nofun, fun h => nomatch h.choose_spec.1⟩
  named := nofun
  covered _ _ h := nomatch h.choose_spec.1
  silent h := nomatch h.choose_spec.1
  hidden _ _ _ h := nomatch List.append_eq_nil_iff.mp h.symm
  seen _ h := nomatch h.choose_spec.1

theorem Ran.snoc (h : Ran s.domain arms st) (arm : MatchArm) :
    Ran s.domain (arms ++ [arm]) (checkArm s st arms.length arm) := by
  have hstep := checkArm_stepped s st arms.length arm
  have hhit : st.catchAllHit = false ↔ ¬ CatchAll s.domain arms := by
    rw [← h.catchAll, Bool.not_eq_true]
  constructor
  case catchAll => rw [hstep.catchAll, h.catchAll, isNone_iff, catchAll_snoc]
  case named =>
    intro name hname
    rw [named_snoc]
    obtain hold | hnew := (hstep.covered name).mp hname
    · exact .inl (h.named name hold)
    · exact .inr ⟨(isNone_iff arm).mp hnew.2.1, hnew.2.2⟩
  case covered =>
    intro name hno hname
    rw [catchAll_snoc, not_or] at hno
    rw [hstep.covered]
    apply (named_snoc.mp hname).imp
    · exact h.covered name hno.1
    · exact fun hnew => ⟨hhit.mpr hno.1, (isNone_iff arm).mpr hnew.1, hnew.2⟩
  case silent => exact fun hr => h.silent (hstep.silent hr)
  case hidden =>
    intro before a after hsplit hr
    obtain hold | ⟨hlast, hcover⟩ := hstep.hidden _ hr
    · have hlt := h.seen _ hold
      obtain ⟨rest, hbefore, hrest⟩ | ⟨rest, harms, hrest⟩ := List.append_eq_append_iff.mp hsplit
      · rw [hbefore, List.length_append] at hlt
        omega
      · cases rest with
        | nil =>
          rw [harms, List.append_nil] at hlt
          omega
        | cons b rest =>
          cases hrest
          exact h.hidden before a rest harms hold
    · obtain ⟨rfl, hrest⟩ := List.append_inj hsplit hlast.symm
      cases hrest
      apply hcover.imp h.catchAll.mp
      intro hname
      obtain ⟨name, hread, hmem⟩ := hname
      exact ⟨name, hread, h.named name hmem⟩
  case seen =>
    intro k hk
    rw [List.length_append, List.length_singleton]
    obtain hold | ⟨rfl, -⟩ := hstep.hidden _ hk
    · exact Nat.lt_succ_of_lt (h.seen k hold)
    · exact Nat.lt_succ_self _

theorem Ran.append {done : List MatchArm} (h : Ran s.domain done st) :
    Ran s.domain (done ++ arms) (checkArms s st done.length arms) := by
  induction arms generalizing done st with
  | nil => rwa [List.append_nil]
  | cons arm arms ih =>
    have hnext := ih (h.snoc arm)
    rw [List.length_append, List.append_assoc] at hnext
    exact hnext

/-- **The state after all the arms.** -/
theorem checkArms_ran (s : Scrutinee) (arms : List MatchArm) : Ran s.domain arms (checkArms s {} 0 arms) :=
  Ran.nil.append

/-! ## The reports -/

theorem missingPatterns_eq_nil {covered : List String} :
    missingPatterns domain covered = [] ↔ ∀ v ∈ domain.required.map Prod.fst, v ∈ covered := by
  rw [missingPatterns, List.map_eq_nil_iff, List.filter_eq_nil_iff]
  simp

theorem reportMissing_spec (s : Scrutinee) (st : CheckState) :
    (∀ k, ReportedUnreachable (reportMissing s st).diags k → ReportedUnreachable st.diags k) ∧
      (s.domain.required ≠ [] → (Reported (reportMissing s st).diags ↔
        Reported st.diags ∨ missingPatterns s.domain st.coveredVariants ≠ [])) := by
  have hnew {message : String} {help : Option String} {k : Nat}
      (h : ReportedUnreachable (st.diags ++ [⟨.nonExhaustiveMatch, message, .matchSpan, help⟩]) k) :
      ReportedUnreachable st.diags k := by
    obtain ⟨d, hd, hcode, hplace⟩ := h
    obtain hd | hd := List.mem_append.mp hd
    · exact ⟨d, hd, hcode, hplace⟩
    · rw [List.mem_singleton.mp hd] at hcode
      exact nomatch hcode
  have hreport {message : String} {help : Option String} :
      Reported (st.diags ++ [⟨.nonExhaustiveMatch, message, .matchSpan, help⟩]) :=
    ⟨_, List.mem_append_right _ (List.mem_singleton.mpr rfl), rfl⟩
  unfold reportMissing
  cases s.domain with
  | infinite => exact ⟨fun k h => hnew h, fun h => absurd rfl h⟩
  | _ =>
    simp only
    cases missingPatterns _ st.coveredVariants with
    | nil => exact ⟨fun k h => h, fun _ => ⟨.inl, fun h => h.elim id fun h => absurd rfl h⟩⟩
    | cons first rest => exact ⟨fun k h => hnew h, fun _ => ⟨fun _ => .inr (List.cons_ne_nil _ _), fun _ => hreport⟩⟩

/-- **What is reported about the match**, by the readings of its arms. -/
theorem reported_iff (hnames : s.domain.required ≠ []) :
    Reported (checkMatchExhaustiveness s arms) ↔ arms = [] ∨ ¬ CatchAll s.domain arms ∧
      ∃ v ∈ s.domain.required.map Prod.fst, ¬ Named s.domain arms v := by
  have hran := checkArms_ran s arms
  unfold checkMatchExhaustiveness
  by_cases hempty : arms = []
  · rw [if_pos (List.isEmpty_iff.mpr hempty)]
    exact iff_of_true ⟨_, List.mem_singleton.mpr rfl, rfl⟩ (.inl hempty)
  rw [if_neg fun h => hempty (List.isEmpty_iff.mp h), or_iff_right hempty]
  simp only
  by_cases hcatch : CatchAll s.domain arms
  · rw [if_pos (hran.catchAll.mpr hcatch)]
    exact iff_of_false hran.silent fun h => h.1 hcatch
  · rw [if_neg fun h => hcatch (hran.catchAll.mp h), ((reportMissing_spec s _).2 hnames), or_iff_right hran.silent,
      ne_eq, missingPatterns_eq_nil, and_iff_right hcatch, not_forall]
    simp only [Classical.not_imp]
    refine exists_congr fun v => and_congr_right fun _ => not_congr ?_
    exact ⟨hran.named v, hran.covered v hcatch⟩

theorem hidden_of_reported (hsplit : arms = before ++ arm :: after)
    (h : ReportedUnreachable (checkMatchExhaustiveness s arms) before.length) : Hidden s.domain before arm := by
  have hran := checkArms_ran s arms
  apply hran.hidden before arm after hsplit
  unfold checkMatchExhaustiveness at h
  rw [if_neg (by rw [hsplit]; simp)] at h
  simp only at h
  split at h
  · exact h
  · exact (reportMissing_spec s _).1 _ h

/-! ## Where the check is exact -/

theorem NamesRight.required_ne_nil (h : s.NamesRight) (hv : v ∈ s.variants) : s.domain.required ≠ [] := by
  intro hnil
  have := (h v).mpr hv
  rw [hnil] at this
  exact nomatch this

/-- **The check is exact** where it asks for the variants and reads the patterns as what they match. -/
theorem exact_of_plain (hnames : s.NamesRight) (hv : v ∈ s.variants) (hplain : ∀ arm ∈ arms, s.Plain arm.pattern) :
    s.Exact arms := by
  have hreq := NamesRight.required_ne_nil hnames hv
  have hread {arm : MatchArm} {v : String} (harm : arm ∈ arms) (hv : v ∈ s.variants) :
      (reading s.domain arm.pattern).Has v ↔ s.Matches v arm.pattern := (plain_iff _).mp (hplain arm harm) v hv
  constructor
  case exhaustive =>
    intro hno v hv
    rw [reported_iff hreq, not_or, not_and_or, not_not] at hno
    obtain ⟨-, hall | hnamed⟩ := hno
    · obtain ⟨arm, harm, hguard, heq⟩ := hall
      exact ⟨arm, harm, hguard, (hread harm hv).mp (heq ▸ trivial)⟩
    · have hname : Named s.domain arms v := by
        by_contra hnot
        exact hnamed ⟨v, (hnames v).mpr hv, hnot⟩
      obtain ⟨arm, harm, hguard, heq⟩ := hname
      exact ⟨arm, harm, hguard, (hread harm hv).mp (heq ▸ rfl)⟩
  case missing =>
    intro hr
    obtain rfl | ⟨hall, x, hx, hname⟩ := (reported_iff hreq).mp hr
    · exact ⟨v, hv, fun h => nomatch h.choose_spec.1⟩
    · have hx := (hnames x).mp hx
      refine ⟨x, hx, fun hc => ?_⟩
      obtain ⟨arm, harm, hguard, hm⟩ := hc
      have hhas := (hread harm hx).mpr hm
      cases heq : reading s.domain arm.pattern with
      | all => exact hall ⟨arm, harm, hguard, heq⟩
      | name n =>
        rw [heq] at hhas
        exact hname ⟨arm, harm, hguard, heq.trans (congrArg Reading.name (Eq.symm hhas))⟩
      | nothing => exact nomatch heq ▸ hhas
  case unreachable =>
    intro before arm after hsplit hr v hv hm
    have harm : arm ∈ arms := hsplit ▸ List.mem_append_right _ List.mem_cons_self
    have hbefore {a : MatchArm} (ha : a ∈ before) : a ∈ arms := hsplit ▸ List.mem_append_left _ ha
    obtain ⟨a, ha, hguard, heq⟩ | ⟨n, hn, a, ha, hguard, heq⟩ := hidden_of_reported hsplit hr
    · exact ⟨a, ha, hguard, (hread (hbefore ha) hv).mp (heq ▸ trivial)⟩
    · have hhas := (hread harm hv).mpr hm
      rw [hn] at hhas
      exact ⟨a, ha, hguard, (hread (hbefore ha) hv).mp (heq ▸ hhas)⟩

/-! ## Where it is not -/

/-- An arm without a guard. -/
def plainArm (p : Pattern) : MatchArm := .mk p none (.literal (.int 0))

/-- The pattern of a variant of the type. -/
def Scrutinee.variantPattern (s : Scrutinee) (v : String) : Pattern :=
  match s.kind with
  | .bool => .literal (.bool (v == "true"))
  | _ => .variant none v []

theorem variantPattern_spec (hv : v ∈ s.variants) : s.Plain (s.variantPattern v) ∧
    reading s.domain (s.variantPattern v) = .name v ∧ ∀ w, s.Matches w (s.variantPattern v) ↔ w = v := by
  unfold Scrutinee.variantPattern
  split
  case _ hkind =>
    have hkey : boolKey (v == "true") = v := by
      rw [Scrutinee.variants, hkind] at hv
      obtain rfl | hv := List.mem_cons.mp hv
      · rfl
      · rw [List.mem_singleton.mp hv]
        rfl
    refine ⟨fun _ => hkind, congrArg Reading.name hkey, fun w => ?_⟩
    show s.kind = .bool ∧ w = boolKey (v == "true") ↔ w = v
    rw [hkey, and_iff_right hkind]
  case _ hkind =>
    exact ⟨fun _ => ⟨hkind, nofun⟩, rfl, fun w => ⟨fun h => h.2.1, fun h => ⟨hkind, h, nofun⟩⟩⟩

/-- The arms of some variants. -/
def Scrutinee.variantArms (s : Scrutinee) (vs : List String) : List MatchArm :=
  vs.map fun v => plainArm (s.variantPattern v)

theorem mem_variantArms {vs : List String} : arm ∈ s.variantArms vs ↔ ∃ v ∈ vs, plainArm (s.variantPattern v) = arm :=
  List.mem_map

theorem not_exact_identifier (hnames : s.NamesRight) (hread : reading s.domain p = .name name)
    (hall : ∀ v, s.Matches v p) (hv : v ∈ s.variants) (hne : v ≠ name) : ¬ s.Exact [plainArm p] := by
  intro hexact
  have honly {r : Reading} (h : ∃ arm ∈ [plainArm p], Unguarded arm ∧ reading s.domain arm.pattern = r) :
      r = .name name := by
    obtain ⟨arm, harm, -, heq⟩ := h
    rw [List.mem_singleton.mp harm] at heq
    exact heq.symm.trans hread
  have hr : Reported (checkMatchExhaustiveness s [plainArm p]) := by
    rw [reported_iff (NamesRight.required_ne_nil hnames hv)]
    refine .inr ⟨fun h => (nomatch honly h), v, (hnames v).mpr hv, fun h => hne ?_⟩
    exact Reading.name.inj (honly h)
  obtain ⟨w, -, hw⟩ := hexact.missing hr
  exact hw ⟨_, List.mem_singleton.mpr rfl, rfl, hall w⟩

theorem not_exact_named (hnames : s.NamesRight) (hread : reading s.domain p = .name name)
    (hv : name ∈ s.variants) (hno : ¬ s.Matches name p) :
    ¬ s.Exact (plainArm p :: s.variantArms (s.variants.filter (· != name))) := by
  intro hexact
  have hr : ¬ Reported (checkMatchExhaustiveness s (plainArm p :: s.variantArms (s.variants.filter (· != name)))) := by
    rw [reported_iff (NamesRight.required_ne_nil hnames hv), not_or, not_and_or]
    refine ⟨List.cons_ne_nil _ _, .inr fun h => ?_⟩
    obtain ⟨x, hx, hmissing⟩ := h
    have hx := (hnames x).mp hx
    apply hmissing
    by_cases heq : x = name
    · exact ⟨_, List.mem_cons_self, rfl, heq ▸ hread⟩
    · have hfilter : x ∈ s.variants.filter (· != name) := List.mem_filter.mpr ⟨hx, bne_iff_ne.mpr heq⟩
      exact ⟨_, List.mem_cons_of_mem _ (mem_variantArms.mpr ⟨x, hfilter, rfl⟩), rfl, (variantPattern_spec hx).2.1⟩
  obtain ⟨arm, harm, -, hm⟩ := hexact.exhaustive hr name hv
  obtain rfl | harm := List.mem_cons.mp harm
  · exact hno hm
  · obtain ⟨x, hx, rfl⟩ := mem_variantArms.mp harm
    obtain ⟨hx, hne⟩ := List.mem_filter.mp hx
    exact bne_iff_ne.mp hne (((variantPattern_spec hx).2.2 name).mp hm).symm

theorem exists_not_exact (hnames : s.NamesRight) (hp : ¬ s.Plain p) :
    ∃ arms : List MatchArm, (∀ arm ∈ arms, arm.pattern = p ∨ s.Plain arm.pattern) ∧ ¬ s.Exact arms := by
  have hwrong {name : String} (hread : reading s.domain p = .name name) (hv : name ∈ s.variants)
      (hno : ¬ s.Matches name p) :
      ∃ arms : List MatchArm, (∀ arm ∈ arms, arm.pattern = p ∨ s.Plain arm.pattern) ∧ ¬ s.Exact arms := by
    refine ⟨_, fun arm harm => ?_, not_exact_named hnames hread hv hno⟩
    obtain rfl | harm := List.mem_cons.mp harm
    · exact .inl rfl
    · obtain ⟨x, hx, rfl⟩ := mem_variantArms.mp harm
      exact .inr (variantPattern_spec (List.mem_filter.mp hx).1).1
  cases p with
  | wildcard => exact absurd trivial hp
  | identifier name =>
    obtain ⟨hvariant, hrest⟩ := Classical.not_imp.mp hp
    obtain ⟨hname, hmore⟩ := not_or.mp hrest
    obtain ⟨v, hv⟩ := not_forall.mp hmore
    obtain ⟨hv, hne⟩ := Classical.not_imp.mp hv
    have hread : reading s.domain (.identifier name) = .name name := if_pos ⟨hname, hvariant⟩
    exact ⟨_, fun arm harm => .inl (List.mem_singleton.mp harm ▸ rfl),
      not_exact_identifier hnames hread (fun _ => trivial) hv hne⟩
  | literal value =>
    cases value with
    | none =>
      obtain ⟨hv, hkind⟩ := Classical.not_imp.mp hp
      exact hwrong rfl hv fun h => hkind h.1
    | bool b =>
      obtain ⟨hv, hkind⟩ := Classical.not_imp.mp hp
      exact hwrong rfl hv fun h => hkind h.1
    | _ => exact absurd trivial hp
  | variant enumName name bindings =>
    obtain ⟨hv, hother⟩ := Classical.not_imp.mp hp
    exact hwrong rfl hv fun h => hother ⟨h.1, h.2.2⟩

/-- Only an enum with the name of a built-in type is taken for something else. -/
theorem kind_cases (s : Scrutinee) : s.kind = s.domain ∨
    (∃ vars, s.kind = .enum vars) ∧ (s.domain = .option ∨ s.domain = .result) := by
  have hnamed (name : String) : namedKind s.enums name = namedDomain s.enums name ∨
      (∃ vars, namedKind s.enums name = .enum vars) ∧
        (namedDomain s.enums name = .option ∨ namedDomain s.enums name = .result) := by
    unfold namedKind namedDomain
    cases s.enums name with
    | none => exact .inl rfl
    | some vars =>
      by_cases hoption : name = "Maybe" ∨ name = "Option"
      · exact .inr ⟨⟨vars, rfl⟩, .inl (if_pos hoption)⟩
      · by_cases hresult : name = "Outcome" ∨ name = "Result"
        · exact .inr ⟨⟨vars, rfl⟩, .inr ((if_neg hoption).trans (if_pos hresult))⟩
        · exact .inl (((if_neg hoption).trans (if_neg hresult)).symm)
  unfold Scrutinee.kind Scrutinee.domain
  cases s.ty with
  | classType name => exact hnamed name
  | genericInstance name => exact hnamed name
  | _ => exact .inl rfl

theorem exists_not_exact_of_names (hv : v ∈ s.variants) (hnames : ¬ s.NamesRight) :
    ∃ arms : List MatchArm, (∀ arm ∈ arms, s.Plain arm.pattern) ∧ ¬ s.Exact arms := by
  obtain hkind | ⟨⟨vars, hkind⟩, hdomain⟩ := kind_cases s
  · exact absurd (fun v => by rw [Scrutinee.variants, hkind]) hnames
  have hbool : s.kind ≠ .bool := by rw [hkind]; exact nofun
  have hreq : s.domain.required ≠ [] := by
    obtain h | h := hdomain <;> rw [h] <;> exact List.cons_ne_nil _ _
  let arms (vs : List String) := vs.map fun v => plainArm (.variant none v [])
  have hplain (vs : List String) : ∀ arm ∈ arms vs, s.Plain arm.pattern := by
    intro arm harm
    obtain ⟨x, -, rfl⟩ := List.mem_map.mp harm
    exact fun _ => ⟨hbool, nofun⟩
  have hread {vs : List String} {r : Reading}
      (h : ∃ arm ∈ arms vs, Unguarded arm ∧ reading s.domain arm.pattern = r) : ∃ x ∈ vs, r = .name x := by
    obtain ⟨arm, harm, -, heq⟩ := h
    obtain ⟨x, hx, rfl⟩ := List.mem_map.mp harm
    exact ⟨x, hx, heq.symm⟩
  have hcovered {vs : List String} {x : String} : s.Covered (arms vs) x ↔ x ∈ vs := by
    constructor
    · intro h
      obtain ⟨arm, harm, -, hm⟩ := h
      obtain ⟨y, hy, rfl⟩ := List.mem_map.mp harm
      exact (show x = y from hm.2.1) ▸ hy
    · intro hx
      exact ⟨_, List.mem_map_of_mem hx, rfl, hbool, rfl, nofun⟩
  by_cases hsub : ∀ w ∈ s.variants, w ∈ s.domain.required.map Prod.fst
  · -- a name is asked for that is no variant, so all the variants are not enough
    refine ⟨arms s.variants, hplain _, fun hexact => ?_⟩
    obtain ⟨d, hd, hno⟩ : ∃ d ∈ s.domain.required.map Prod.fst, d ∉ s.variants := by
      by_contra hall
      exact hnames fun w => ⟨fun hw => by_contra fun hno => hall ⟨w, hw, hno⟩, hsub w⟩
    have hr : Reported (checkMatchExhaustiveness s (arms s.variants)) := by
      rw [reported_iff hreq]
      refine .inr ⟨fun h => (nomatch hread h), d, hd, fun h => ?_⟩
      obtain ⟨x, hx, heq⟩ := hread h
      exact hno (Reading.name.inj heq ▸ hx)
    obtain ⟨w, hw, hmissing⟩ := hexact.missing hr
    exact hmissing (hcovered.mpr hw)
  · -- a variant is not asked for, so the names are not enough
    refine ⟨arms (s.domain.required.map Prod.fst), hplain _, fun hexact => ?_⟩
    obtain ⟨w, hw⟩ := not_forall.mp hsub
    obtain ⟨hw, hno⟩ := Classical.not_imp.mp hw
    have hr : ¬ Reported (checkMatchExhaustiveness s (arms (s.domain.required.map Prod.fst))) := by
      rw [reported_iff hreq, not_or, not_and_or]
      refine ⟨fun h => hreq (List.map_eq_nil_iff.mp (List.map_eq_nil_iff.mp h)), .inr fun h => ?_⟩
      obtain ⟨d, hd, hmissing⟩ := h
      exact hmissing ⟨_, List.mem_map_of_mem hd, rfl, rfl⟩
    exact hno (hcovered.mp (hexact.exhaustive hr w hw))

/-- The enum `Result` with the variants `Good` and `Bad`. -/
def resultEnum : Scrutinee :=
  ⟨.classType "Result", "Result", fun name => if name = "Result" then some ["Good", "Bad"] else none⟩

end Datara.Types
