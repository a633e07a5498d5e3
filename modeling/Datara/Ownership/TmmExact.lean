import Datara.Ownership.Tmm

/-!
# When the cycle detectors are exact

Both searches are exact on the references they see: the classes that are found are those on a cycle of seen references
(`mem_cyclic`), and errors are reported exactly if an `@arc` class leads to one (`detect_iff`). So the detectors are
exact where the references that are not seen make no difference (`cycles_exact_iff`).
-/

namespace Datara.Ownership.Tmm

open Library

variable {program : List Decl} {plan : TmmPlan} {a c d name : String} {t : TypeNode} {n : Nat}

/-! ## The plan -/

theorem classNamed_append (decl : Decl) : classNamed (program ++ [decl]) name =
    match decl with
    | .class c => if c.name = name then some c else classNamed program name
    | _ => classNamed program name := by
  rw [classNamed, List.reverse_append, List.reverse_singleton, List.singleton_append, List.findSome?_cons]
  cases decl with
  | «class» c =>
    by_cases hc : c.name = name
    · simp [if_pos hc]
    · simp only [if_neg hc]
      rfl
  | _ => rfl

theorem synonymNamed_append (decl : Decl) : synonymNamed (program ++ [decl]) name =
    match decl with
    | .type n baseType => if n = name then some baseType else synonymNamed program name
    | _ => synonymNamed program name := by
  rw [synonymNamed, List.reverse_append, List.reverse_singleton, List.singleton_append, List.findSome?_cons]
  cases decl with
  | type n baseType =>
    by_cases hn : n = name
    · simp [if_pos hn]
    · simp only [if_neg hn]
      rfl
  | _ => rfl

theorem lookup_collectSynonyms (program : List Decl) (name : String) :
    (TmmPlan.collectSynonyms program).lookup name = (synonymNamed program name).map (·.name) := by
  induction program using List.reverseRecOn with
  | nil => rfl
  | append_singleton program decl ih =>
    rw [synonymNamed_append, TmmPlan.collectSynonyms, List.foldl_append]
    cases decl with
    | type n baseType =>
      show (upsert n baseType.name (TmmPlan.collectSynonyms program)).lookup name = _
      rw [lookup_upsert, ih]
      by_cases hn : name = n
      · simp [hn]
      · simp [hn, Ne.symm hn]
    | _ => exact ih

theorem synonyms_addClass (decls : List Decl) (plan : TmmPlan) :
    (decls.foldl TmmPlan.addClass plan).synonyms = plan.synonyms := by
  induction decls generalizing plan with
  | nil => rfl
  | cons decl decls ih =>
    rw [List.foldl_cons, ih]
    cases decl <;> rfl

theorem classPlan_congr {plan' : TmmPlan} (h : plan.synonyms = plan'.synonyms) : plan.classPlan = plan'.classPlan := by
  have hedge : plan.fieldEdge = plan'.fieldEdge := by
    funext item
    cases item with
    | field f => simp only [TmmPlan.fieldEdge, TmmPlan.resolve, h]
    | other => rfl
  funext c
  rw [TmmPlan.classPlan, TmmPlan.classPlan, hedge]

theorem lookup_addClass (decls : List Decl) (name : String) : (decls.foldl TmmPlan.addClass plan).classes.lookup name =
    ((classNamed decls name).map plan.classPlan).or (plan.classes.lookup name) := by
  induction decls using List.reverseRecOn with
  | nil => rfl
  | append_singleton decls decl ih =>
    rw [List.foldl_append, classNamed_append]
    cases decl with
    | «class» c =>
      show (upsert c.name _ (decls.foldl TmmPlan.addClass plan).classes).lookup name = _
      rw [lookup_upsert, ih, classPlan_congr (synonyms_addClass decls plan)]
      by_cases hc : name = c.name
      · simp [hc]
      · simp [hc, Ne.symm hc]
    | _ => exact ih

theorem lookup_build (program : List Decl) (name : String) : (TmmPlan.build program).classes.lookup name =
    (classNamed program name).map (TmmPlan.build program).classPlan := by
  rw [TmmPlan.build, lookup_addClass, classPlan_congr (synonyms_addClass program _)]
  exact Option.or_none

theorem resolve_build (program : List Decl) (name : String) :
    (TmmPlan.build program).resolve name = throughSynonyms program 8 name := by
  rw [TmmPlan.resolve, TmmPlan.build, synonyms_addClass]
  generalize 8 = n
  induction n generalizing name with
  | zero => rfl
  | succ n ih =>
    rw [resolveFrom, throughSynonyms, lookup_collectSynonyms]
    cases synonymNamed program name with
    | none => rfl
    | some base =>
      show (if base.name ≠ name then _ else _) = if base.name ≠ name then _ else _
      rw [ih]

theorem keys_addClass (decls : List Decl) (h : (plan.classes.map Prod.fst).Nodup) :
    ((decls.foldl TmmPlan.addClass plan).classes.map Prod.fst).Nodup := by
  induction decls generalizing plan with
  | nil => exact h
  | cons decl decls ih =>
    rw [List.foldl_cons]
    cases decl with
    | «class» c => exact ih (nodup_upsert h)
    | _ => exact ih h

theorem keys_build (program : List Decl) : ((TmmPlan.build program).classes.map Prod.fst).Nodup :=
  keys_addClass program List.nodup_nil

theorem classNamed_name {decl : ClassDecl} (h : classNamed program name = some decl) : decl.name = name := by
  obtain ⟨item, -, hitem⟩ := List.exists_of_findSome?_eq_some h
  cases item with
  | «class» c =>
    simp only [Option.ite_none_right_eq_some, Option.some.injEq] at hitem
    exact hitem.2 ▸ hitem.1
  | _ => cases hitem

theorem mem_names {p : ClassPlan → Bool} {q : ClassDecl → Prop}
    (hpq : ∀ decl, p ((TmmPlan.build program).classPlan decl) = true ↔ q decl) :
    c ∈ ((TmmPlan.build program).values.filter p).map (·.name) ↔ ∃ decl, classNamed program c = some decl ∧ q decl := by
  have hmem : ∀ cp, cp ∈ (TmmPlan.build program).values ↔
      ∃ k decl, classNamed program k = some decl ∧ (TmmPlan.build program).classPlan decl = cp := by
    intro cp
    simp only [TmmPlan.values, List.mem_map, List.mem_insertionSort, Prod.exists, exists_eq_right]
    refine exists_congr fun k => ?_
    rw [mem_iff_lookup (keys_build program), lookup_build, Option.map_eq_some_iff]
  simp only [List.mem_map, List.mem_filter, hmem]
  constructor
  · intro h
    obtain ⟨cp, ⟨⟨k, decl, hdecl, rfl⟩, hp⟩, rfl⟩ := h
    refine ⟨decl, ?_, (hpq decl).mp hp⟩
    show classNamed program decl.name = some decl
    rw [classNamed_name hdecl]
    exact hdecl
  · intro h
    obtain ⟨decl, hdecl, hq⟩ := h
    exact ⟨_, ⟨⟨c, decl, hdecl, rfl⟩, (hpq decl).mpr hq⟩, classNamed_name hdecl⟩

theorem mem_dataflowNames : c ∈ dataflowNames (.build program) ↔ Dataflow program c :=
  mem_names fun decl => by rw [decide_eq_true_eq]; rfl

theorem mem_arcNames : a ∈ arcNames (.build program) ↔ IsArc program a := mem_names fun _ => Iff.rfl

/-- A strong field edge of the plan. -/
def TmmPlan.Strong (plan : TmmPlan) (c d : String) : Prop :=
  ∃ node, plan.classes.lookup c = some node ∧ ∃ e ∈ node.fields, e.isWeak = false ∧ e.target = d

theorem strong_build : (TmmPlan.build program).Strong c d ↔
    ∃ t, HasField program c t ∧ t.name ≠ "Weak" ∧ throughSynonyms program 8 t.inner = d := by
  constructor
  · intro h
    obtain ⟨node, hnode, e, he, hweak, htarget⟩ := h
    rw [lookup_build] at hnode
    obtain ⟨decl, hdecl, rfl⟩ := Option.map_eq_some_iff.mp hnode
    obtain ⟨item, hitem, hedge⟩ := List.mem_filterMap.mp he
    cases item with
    | other => cases hedge
    | field f =>
      obtain ⟨t, ht, rfl⟩ := Option.map_eq_some_iff.mp hedge
      exact ⟨t, ⟨decl, hdecl, f, hitem, ht⟩, of_decide_eq_false hweak, (resolve_build program _).symm.trans htarget⟩
  · intro h
    obtain ⟨t, ⟨decl, hdecl, f, hitem, ht⟩, hweak, htarget⟩ := h
    have hedge : (TmmPlan.build program).fieldEdge (.field f) = some
        { fieldName := f.name, target := (TmmPlan.build program).resolve t.inner, isWeak := t.name = "Weak",
          span := f.span } := congrArg (Option.map _) ht
    refine ⟨_, (lookup_build program c).trans (congrArg _ hdecl), _, List.mem_filterMap.mpr ⟨_, hitem, hedge⟩, ?_, ?_⟩
    · exact decide_eq_false hweak
    · exact (resolve_build program _).trans htarget

theorem isSome_lookup_build : ((TmmPlan.build program).classes.lookup d).isSome ↔ (classNamed program d).isSome := by
  rw [lookup_build, Option.isSome_map]

theorem seen_iff : Seen program c d ↔
    (TmmPlan.build program).Strong c d ∧ ((TmmPlan.build program).classes.lookup d).isSome := by
  rw [strong_build, isSome_lookup_build]
  constructor
  · intro ⟨t, hfield, hweak, hd, hsome⟩
    exact ⟨⟨t, hfield, hweak, hd⟩, hsome⟩
  · intro ⟨⟨t, hfield, hweak, hd⟩, hsome⟩
    exact ⟨t, hfield, hweak, hd, hsome⟩

/-! ## What is seen is a reference -/

theorem occurs_of_throughSynonyms (h : throughSynonyms program n t.name = d) (hd : (classNamed program d).isSome) :
    Occurs program t d := by
  induction n generalizing t with
  | zero =>
    subst h
    exact .name hd
  | succ n ih =>
    rw [throughSynonyms] at h
    split at h
    case h_1 base hbase =>
      split at h
      case isTrue => exact .synonym hbase (ih h)
      case isFalse =>
        subst h
        exact .name hd
    case h_2 =>
      subst h
      exact .name hd

theorem Seen.refers (h : Seen program c d) : Refers program c d := by
  obtain ⟨t, hfield, hweak, hd, hsome⟩ := h
  refine ⟨t, hfield, hweak, ?_⟩
  rw [TypeNode.inner] at hd
  cases hlast : t.genericArgs.getLast? with
  | none =>
    rw [hlast] at hd
    exact occurs_of_throughSynonyms hd hsome
  | some a =>
    rw [hlast] at hd
    exact .arg hweak (List.mem_of_getLast? hlast) (occurs_of_throughSynonyms hd hsome)

/-! ## Cycles of dataflow classes -/

theorem mem_neighbors : d ∈ neighbors (.build program) c ↔ Seen program c d ∧ Dataflow program d := by
  have hsome : Dataflow program d → ((TmmPlan.build program).classes.lookup d).isSome := by
    rintro ⟨decl, hdecl, -⟩
    rw [isSome_lookup_build, hdecl]
    rfl
  rw [seen_iff, and_assoc, and_iff_right_of_imp hsome, neighbors, TmmPlan.Strong]
  cases (TmmPlan.build program).classes.lookup c with
  | none => simp
  | some node =>
    simp only [Option.map_some, Option.getD_some, List.mem_map, List.mem_filter, Bool.and_eq_true, Bool.not_eq_true',
      decide_eq_true_eq, mem_dataflowNames, Option.some.injEq, exists_eq_left']
    constructor
    · rintro ⟨e, ⟨he, hweak, hd⟩, htarget⟩
      exact ⟨⟨e, he, hweak, htarget⟩, htarget ▸ hd⟩
    · rintro ⟨⟨e, he, hweak, htarget⟩, hd⟩
      exact ⟨e, ⟨he, hweak, htarget.symm ▸ hd⟩, htarget⟩

/-- **The classes that are found are those on a cycle of seen references.** -/
theorem mem_cyclic (program : List Decl) : ∃ cyclic, cyclicDataflowClasses (.build program) = some cyclic ∧
    ∀ c, c ∈ cyclic ↔ Dataflow program c ∧
      Relation.TransGen (fun a b => Seen program a b ∧ Dataflow program b) c c := by
  have hrel : (fun a b => b ∈ neighbors (.build program) a) = fun a b => Seen program a b ∧ Dataflow program b := by
    funext a b
    exact propext mem_neighbors
  have hnodes : ∀ a, ∀ b ∈ neighbors (.build program) a, b ∈ (dataflowNames (.build program)).toFinset := fun a b hb =>
    List.mem_toFinset.mpr (mem_dataflowNames.mpr (mem_neighbors.mp hb).2)
  have hcard := List.toFinset_card_le (dataflowNames (.build program))
  obtain ⟨cyclic, hcyclic, hmem⟩ : ∃ cyclic, cyclicDataflowClasses (.build program) = some cyclic ∧
      ∀ c, c ∈ cyclic ↔ c ∈ dataflowNames (.build program) ∧
        Relation.TransGen (fun a b => Seen program a b ∧ Dataflow program b) c c := by
    apply foldlM_induction (I := fun pre cyclic => ∀ c, c ∈ cyclic ↔ c ∈ pre ∧
      Relation.TransGen (fun a b => Seen program a b ∧ Dataflow program b) c c)
    · simp
    · intro pre start post cyclic _ hI
      have hfuel : (neighbors (.build program) start).length + (dataflowNames (.build program)).toFinset.card <
          (neighbors (.build program) start).length + (dataflowNames (.build program)).length + 1 := by omega
      obtain ⟨found, hfound, hiff⟩ := leadsBack_eq hnodes hfuel
      rw [hrel] at hiff
      refine ⟨_, congrArg (Option.map _) hfound, fun c => ?_⟩
      rw [List.mem_append, List.mem_singleton, or_and_right, ← hI c]
      cases found with
      | true =>
        show c ∈ cyclic ++ [start] ↔ _
        rw [List.mem_append, List.mem_singleton]
        refine or_congr_right ⟨fun hc => ⟨hc, hc ▸ hiff.mp rfl⟩, And.left⟩
      | false =>
        refine (or_iff_left fun hc => ?_).symm
        obtain ⟨rfl, hcycle⟩ := hc
        cases hiff.mpr hcycle
  exact ⟨cyclic, hcyclic, fun c => by rw [hmem, mem_dataflowNames]⟩

/-! ## Cycles that lead from an `@arc` class -/

/-- What the search that began with a class goes along. -/
def TmmPlan.Follows (plan : TmmPlan) (a c d : String) : Prop :=
  plan.Strong c d ∧ (plan.classes.lookup d).isSome ∧ (plan.resolve d = d ∨ d = a)

/-- The class leads to a cycle. -/
def TmmPlan.Leads (plan : TmmPlan) (a : String) : Prop :=
  ∃ d, Relation.ReflTransGen (plan.Follows a) a d ∧ Relation.TransGen (plan.Follows a) d d

/-- Every path from a class ends. -/
def TmmPlan.Ends (plan : TmmPlan) (a c : String) : Prop := Acc (fun x y => plan.Follows a y x) c

/-- A path of the search, with the class it has come to. -/
structure OnPath (plan : TmmPlan) (a c : String) (path : List String) : Prop where
  nodup : path.Nodup
  here : c ∈ path
  start : a ∈ path
  classes : ∀ d ∈ path, (plan.classes.lookup d).isSome
  fixed : ∀ d ∈ path, plan.resolve d = d ∨ d = a
  reached : ∀ d ∈ path, Relation.ReflTransGen (plan.Follows a) a d
  leads : ∀ d ∈ path, Relation.ReflTransGen (plan.Follows a) d c

/-- Nothing is noted without an error, and there is a reason for errors. -/
structure Reports (reason : Prop) (st : CycleState) : Prop where
  noted : st.errors = [] → st.reported = []
  reason : st.errors ≠ [] → reason

/-- What a search leaves: classes that it has visited and that are not on its path lead nowhere. -/
structure Searched (plan : TmmPlan) (a : String) (reason : Prop) (st st' : CycleState) : Prop where
  reports : Reports reason st'
  errors : st'.errors = [] → st.errors = []
  visited : st'.errors = [] → ∀ e ∈ st'.visited, e ∈ st.visited ∨ plan.Ends a e.1

variable {reason : Prop} {path : List String} {st st' : CycleState} {edge : FieldEdge} {pos : Nat}

theorem OnPath.length_le (h : OnPath plan a c path) : path.length ≤ plan.classes.length := by
  have hsub : path ⊆ plan.classes.map Prod.fst := by
    intro d hd
    obtain ⟨e, he, hd⟩ := List.lookup_isSome_iff.mp (h.classes d hd)
    exact beq_iff_eq.mp hd ▸ List.mem_map_of_mem he
  have := (h.nodup.subperm hsub).length_le
  rwa [List.length_map] at this

theorem OnPath.closes (h : OnPath plan a c path) (hd : d ∈ path) (hedge : plan.Strong c d) : plan.Leads a :=
  ⟨d, h.reached d hd, .tail' (h.leads d hd) ⟨hedge, h.classes d hd, h.fixed d hd⟩⟩

theorem OnPath.snoc (h : OnPath plan a c path) (hd : d ∉ path) (hedge : plan.Strong c d)
    (hclass : (plan.classes.lookup d).isSome) (hfixed : d = plan.resolve d) : OnPath plan a d (path ++ [d]) := by
  have hfollows : plan.Follows a c d := ⟨hedge, hclass, .inl hfixed.symm⟩
  have hmem : ∀ {x}, x ∈ path ++ [d] → x ∈ path ∨ x = d := fun hx => by
    rwa [List.mem_append, List.mem_singleton] at hx
  refine ⟨?_, List.mem_append_right _ (List.mem_singleton.mpr rfl), List.mem_append_left _ h.start, ?_, ?_, ?_, ?_⟩
  · refine List.nodup_append.mpr ⟨h.nodup, List.pairwise_singleton _ d, fun x hx y hy hxy => ?_⟩
    exact hd (List.mem_singleton.mp hy ▸ hxy ▸ hx)
  · intro x hx
    rcases hmem hx with hx | rfl
    · exact h.classes x hx
    · exact hclass
  · intro x hx
    rcases hmem hx with hx | rfl
    · exact h.fixed x hx
    · exact .inl hfixed.symm
  · intro x hx
    rcases hmem hx with hx | rfl
    · exact h.reached x hx
    · exact (h.reached c h.here).tail hfollows
  · intro x hx
    rcases hmem hx with hx | rfl
    · exact (h.leads x hx).tail hfollows
    · exact .refl

theorem report_reports (h : Reports reason st) (hreason : reason) :
    Reports reason (report plan path pos edge st) ∧ (report plan path pos edge st).errors ≠ [] := by
  have hne : (report plan path pos edge st).errors ≠ [] := by
    rw [report]
    split
    case isTrue hin =>
      intro hnone
      rw [h.noted hnone] at hin
      cases hin
    case isFalse => simp
  exact ⟨⟨fun hnone => absurd hnone hne, fun _ => hreason⟩, hne⟩

/-- What is searched for from a class: it is reported, or leads nowhere. -/
def Searches (plan : TmmPlan) (a : String) (reason : Prop) (search : String → List String → CycleState → Option CycleState)
    (c : String) (path : List String) : Prop :=
  OnPath plan a c path → ∀ st, Reports reason st →
    (st.errors = [] → ∀ e ∈ st.visited, (e.1 ∈ path ∧ e.1 ≠ c) ∨ plan.Ends a e.1) →
    ∃ st', search c path st = some st' ∧ Searched plan a reason st st' ∧ (st'.errors = [] → plan.Ends a c)

/-- What holds after some fields of a class: those that have been gone along lead nowhere. -/
structure FieldsSearched (plan : TmmPlan) (a c : String) (reason : Prop) (st : CycleState) (fields : List FieldEdge)
    (st' : CycleState) : Prop where
  reports : Reports reason st'
  errors : st'.errors = [] → st.errors = []
  visited : st'.errors = [] → ∀ e ∈ st'.visited, e ∈ st.visited ∨ plan.Ends a e.1 ∨
    (e.1 = c ∧ (plan.Follows a c e.2 → plan.Ends a e.2))
  edges : st'.errors = [] → ∀ e ∈ fields, e.isWeak = false → plan.Follows a c e.target → plan.Ends a e.target

theorem FieldsSearched.snoc {fields : List FieldEdge} {st₁ st₂ : CycleState} (h : FieldsSearched plan a c reason st fields st₁)
    (hreports : Reports reason st₂) (herrors : st₂.errors = [] → st₁.errors = [])
    (hvisited : st₂.errors = [] → ∀ e ∈ st₂.visited, e ∈ st₁.visited ∨ plan.Ends a e.1 ∨
      (e.1 = c ∧ (plan.Follows a c e.2 → plan.Ends a e.2)))
    (hedge : st₂.errors = [] → edge.isWeak = false → plan.Follows a c edge.target → plan.Ends a edge.target) :
    FieldsSearched plan a c reason st (fields ++ [edge]) st₂ := by
  refine ⟨hreports, fun hnone => h.errors (herrors hnone), fun hnone e he => ?_, fun hnone e he => ?_⟩
  · rcases hvisited hnone e he with he | he
    · exact h.visited (herrors hnone) e he
    · exact .inr he
  · rcases List.mem_append.mp he with he | he
    · exact h.edges (herrors hnone) e he
    · rw [List.mem_singleton.mp he]
      exact hedge hnone

theorem dfsEdge_spec (hreason : plan.Leads a → reason)
    {search : String → List String → CycleState → Option CycleState}
    (hsearch : ∀ d, Searches plan a reason search d (path ++ [d])) (hpath : OnPath plan a c path)
    (hvisited : st.errors = [] → ∀ e ∈ st.visited, (e.1 ∈ path ∧ e.1 ≠ c) ∨ plan.Ends a e.1)
    {fields : List FieldEdge} {st₁ : CycleState} (h : FieldsSearched plan a c reason st fields st₁)
    (hedge : edge.isWeak = false → plan.Strong c edge.target) :
    ∃ st₂, dfsEdge plan search c path st₁ edge = some st₂ ∧
      FieldsSearched plan a c reason st (fields ++ [edge]) st₂ := by
  rw [dfsEdge]
  split
  case isTrue hweak =>
    exact ⟨_, rfl, h.snoc h.reports id (fun _ e he => .inl he) fun _ hnot => absurd (hweak.symm.trans hnot) nofun⟩
  case isFalse hweak =>
    have hstrong := hedge (eq_false_of_ne_true hweak)
    split
    case isTrue hseen =>
      refine ⟨_, rfl, h.snoc h.reports id (fun _ e he => .inl he) fun hnone _ hfollows => ?_⟩
      rcases h.visited hnone _ hseen with hold | hends | ⟨-, hends⟩
      · rcases hvisited (h.errors hnone) _ hold with ⟨-, hne⟩ | hends
        · exact absurd rfl hne
        · exact hends.inv hfollows
      · exact hends.inv hfollows
      · exact hends hfollows
    case isFalse =>
      have hreports : Reports reason { st₁ with visited := (c, edge.target) :: st₁.visited } :=
        ⟨h.reports.noted, h.reports.reason⟩
      cases hpos : path.idxOf? edge.target with
      | some pos =>
        have hd : edge.target ∈ path := by
          by_contra hnot
          rw [List.idxOf?_eq_none_iff.mpr hnot] at hpos
          cases hpos
        obtain ⟨hreported, hne⟩ := report_reports hreports (hreason (hpath.closes hd hstrong))
        exact ⟨_, rfl, h.snoc hreported (fun hnone => absurd hnone hne) (fun hnone => absurd hnone hne)
          fun hnone => absurd hnone hne⟩
      | none =>
        have hd : edge.target ∉ path := List.idxOf?_eq_none_iff.mp hpos
        show ∃ st₂, (if (plan.classes.lookup edge.target).isSome ∧ edge.target = plan.resolve edge.target then _ else _) =
          some st₂ ∧ _
        split
        case isTrue hgo =>
          obtain ⟨st₂, hst₂, hsearched, hends⟩ := hsearch _ (hpath.snoc hd hstrong hgo.1 hgo.2) _ hreports (by
            intro hnone e he
            have hold : ∀ {x}, x ∈ path → x ∈ path ++ [edge.target] ∧ x ≠ edge.target := fun hx =>
              ⟨List.mem_append_left _ hx, fun heq => hd (heq ▸ hx)⟩
            rcases List.mem_cons.mp he with rfl | he
            · exact .inl (hold hpath.here)
            · rcases h.visited hnone e he with he | he | ⟨he, -⟩
              · exact (hvisited (h.errors hnone) e he).imp_left fun hin => hold hin.1
              · exact .inr he
              · exact .inl (hold (he ▸ hpath.here)))
          refine ⟨st₂, hst₂, h.snoc hsearched.reports hsearched.errors ?_ fun hnone _ _ => hends hnone⟩
          intro hnone e he
          rcases hsearched.visited hnone e he with he | he
          · rcases List.mem_cons.mp he with rfl | he
            · exact .inr (.inr ⟨rfl, fun _ => hends hnone⟩)
            · exact .inl he
          · exact .inr (.inl he)
        case isFalse hstop =>
          have hno : ¬ plan.Follows a c edge.target := by
            intro ⟨_, hclass, hfixed⟩
            rcases hfixed with hfixed | heq
            · exact hstop ⟨hclass, hfixed.symm⟩
            · exact hd (heq ▸ hpath.start)
          refine ⟨_, rfl, h.snoc hreports id ?_ fun _ _ hfollows => absurd hfollows hno⟩
          intro _ e he
          rcases List.mem_cons.mp he with rfl | he
          · exact .inr (.inr ⟨rfl, fun hfollows => absurd hfollows hno⟩)
          · exact .inl he

/-- **The search from a class**: it ends, and where it reports nothing, no path from the class goes on for ever. -/
theorem dfsCycle_spec (hreason : plan.Leads a → reason) {fuel : Nat}
    (hfuel : plan.classes.length < fuel + path.length) : Searches plan a reason (dfsCycle plan fuel) c path := by
  induction fuel generalizing c path with
  | zero =>
    intro hpath
    have := hpath.length_le
    omega
  | succ fuel ih =>
    intro hpath st hreports hvisited
    obtain ⟨node, hnode⟩ := Option.isSome_iff_exists.mp (hpath.classes c hpath.here)
    have hsearch : ∀ d, Searches plan a reason (dfsCycle plan fuel) d (path ++ [d]) := fun d =>
      ih (by rw [List.length_append, List.length_singleton]; omega)
    obtain ⟨st', hst', hfields⟩ : ∃ st', node.fields.foldlM (dfsEdge plan (dfsCycle plan fuel) c path) st = some st' ∧
        FieldsSearched plan a c reason st node.fields st' := by
      apply foldlM_induction (I := FieldsSearched plan a c reason st)
      · exact ⟨hreports, id, fun _ e he => .inl he, nofun⟩
      · intro pre edge post st₁ heq h
        refine dfsEdge_spec hreason hsearch hpath hvisited h fun hweak => ?_
        exact ⟨node, hnode, edge, heq ▸ List.mem_append_right _ List.mem_cons_self, hweak, rfl⟩
    have hends : st'.errors = [] → plan.Ends a c := by
      intro hnone
      refine .intro _ fun y hy => ?_
      obtain ⟨node', hnode', e, he, hweak, rfl⟩ := hy.1
      cases hnode.symm.trans hnode'
      exact hfields.edges hnone e he hweak hy
    refine ⟨st', ?_, ⟨hfields.reports, hfields.errors, fun hnone e he => ?_⟩, hends⟩
    · rw [dfsCycle, hnode]
      exact hst'
    · rcases hfields.visited hnone e he with he | he | ⟨he, -⟩
      · exact .inl he
      · exact .inr he
      · exact .inr (he ▸ hends hnone)

theorem follows_iff : (TmmPlan.build program).Follows a c d ↔ Followed program a c d := by
  rw [TmmPlan.Follows, Followed, seen_iff, and_assoc, resolve_build]

theorem leads_iff : (∃ a, IsArc program a ∧ (TmmPlan.build program).Leads a) ↔ LeadsToCycle program := by
  have hrel : ∀ a, (TmmPlan.build program).Follows a = Followed program a := fun a => by
    funext c d
    exact propext follows_iff
  simp [TmmPlan.Leads, LeadsToCycle, hrel]

theorem onPath_start (h : (plan.classes.lookup a).isSome) : OnPath plan a a [a] := by
  refine ⟨List.nodup_singleton a, List.mem_singleton.mpr rfl, List.mem_singleton.mpr rfl, ?_, ?_, ?_, ?_⟩
  · exact fun d hd => List.mem_singleton.mp hd ▸ h
  · exact fun d hd => .inr (List.mem_singleton.mp hd)
  · exact fun d hd => List.mem_singleton.mp hd ▸ .refl
  · exact fun d hd => List.mem_singleton.mp hd ▸ .refl

/-- **Errors are reported exactly if an `@arc` class leads to a cycle.** -/
theorem detect_iff (program : List Decl) : ∃ errors, detectArcCycles (.build program) = some errors ∧
    (errors ≠ [] ↔ LeadsToCycle program) := by
  obtain ⟨st, hst, hreports, hnone⟩ : ∃ st, (arcNames (.build program)).foldlM (fun st start =>
      dfsCycle (.build program) (TmmPlan.build program).classes.length start [start] { st with visited := [] }) {} =
        some st ∧ Reports (LeadsToCycle program) st ∧
          (st.errors = [] → ∀ a ∈ arcNames (.build program), (TmmPlan.build program).Ends a a) := by
    apply foldlM_induction (I := fun pre st => Reports (LeadsToCycle program) st ∧
      (st.errors = [] → ∀ a ∈ pre, (TmmPlan.build program).Ends a a))
    · exact ⟨⟨fun _ => rfl, fun h => absurd rfl h⟩, fun _ => nofun⟩
    · intro pre start post st heq ⟨hreports, hnone⟩
      have harc : IsArc program start := mem_arcNames.mp (heq ▸ List.mem_append_right _ List.mem_cons_self)
      have hclass : ((TmmPlan.build program).classes.lookup start).isSome := by
        obtain ⟨decl, hdecl, _⟩ := harc
        rw [isSome_lookup_build, hdecl]
        rfl
      have hreason : (TmmPlan.build program).Leads start → LeadsToCycle program :=
        fun hleads => leads_iff.mp ⟨start, harc, hleads⟩
      obtain ⟨st', hst', hsearched, hends⟩ := dfsCycle_spec hreason (Nat.lt_succ_self _) (onPath_start hclass)
        { st with visited := [] } ⟨hreports.noted, hreports.reason⟩ nofun
      refine ⟨st', hst', hsearched.reports, fun hclean a ha => ?_⟩
      rcases List.mem_append.mp ha with ha | ha
      · exact hnone (hsearched.errors hclean) a ha
      · rw [List.mem_singleton.mp ha]
        exact hends hclean
  refine ⟨st.errors, congrArg (Option.map _) hst, hreports.reason, fun hleads hclean => ?_⟩
  obtain ⟨a, harc, d, hreach, hcycle⟩ := leads_iff.mpr hleads
  exact (hnone hclean a (mem_arcNames.mpr harc)).acyclic hreach hcycle

/-- **The detectors are exact exactly where the references that are not seen make no difference.** -/
theorem cycles_exact_iff (program : List Decl) : CyclesExact program ↔ CyclesSeen program := by
  obtain ⟨cyclic, hcyclic, hmem⟩ := mem_cyclic program
  obtain ⟨errors, herrors, hiff⟩ := detect_iff program
  have hseen : ∀ c, Relation.TransGen (fun a b => Seen program a b ∧ Dataflow program b) c c → DataflowCycle program c :=
    fun c hcycle => hcycle.lift id fun a b hab => ⟨hab.1.refers, hab.2⟩
  constructor
  · intro ⟨cyclic', errors', hcyclic', herrors', hclasses, harc⟩
    cases hcyclic.symm.trans hcyclic'
    cases herrors.symm.trans herrors'
    exact ⟨fun c hc hcycle => ((hmem c).mp ((hclasses c hc).mpr hcycle)).2, fun h => hiff.mp (harc.mpr h),
      fun h => harc.mp (hiff.mpr h)⟩
  · intro h
    refine ⟨cyclic, errors, hcyclic, herrors, fun c hc => ?_, ?_⟩
    · rw [hmem c, and_iff_right hc]
      exact ⟨hseen c, h.dataflow c hc⟩
    · rw [hiff]
      exact ⟨h.stray, h.arc⟩

/-- A class with a field of a type. -/
def oneField (name : String) (attributes : List Attribute) (t : TypeNode) : Decl :=
  .class { name, attributes, bodyItems := [.field { name := "f", typeNode := some t, span := default }], span := default }

/-- `class Node { f: List<List<Node>> }`: the cycle is not found. -/
theorem nested_list_missed : ¬ CyclesExact [oneField "Node" [] (.mk "List" [.mk "List" [.mk "Node" [] none] none] none)] := by
  intro ⟨cyclic, errors, hcyclic, _, hclasses, _⟩
  obtain rfl : [] = cyclic := Option.some.inj hcyclic
  have hnode : Dataflow [oneField "Node" [] (.mk "List" [.mk "List" [.mk "Node" [] none] none] none)] "Node" :=
    ⟨_, rfl, rfl⟩
  have hmem := (hclasses "Node" hnode).mpr (.single ⟨⟨_, ⟨_, rfl, _, List.mem_singleton.mpr rfl, rfl⟩, by decide, ?_⟩, hnode⟩)
  · cases hmem
  · apply Occurs.arg (by decide) (List.mem_singleton.mpr rfl)
    apply Occurs.arg (by decide) (List.mem_singleton.mpr rfl)
    exact .name rfl

end Datara.Ownership.Tmm
