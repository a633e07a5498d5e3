import Datara.Cimport.CAbi
import Mathlib.Data.List.Forall2

/-!
# The C import gate against the C ABI

The layout that `compute_struct_layouts` gives a structure of fewer than 16 bytes is the one of the C
ABI, or larger where a `long` has 4 bytes (`Exact`): a member that it cannot size counts 16. So what is
let through is known to C, and it is returned right exactly where `ReturnFits` says
(`cImportGate_right_iff`).
-/

namespace Datara.Cimport

open Library

/-! ## Layouts of C -/

variable {Ls : List Layout} {n : Nat}

section
variable {t : Target} {decls : List CDecl} {ty : CType} {L L' : Layout} {k : Nat}

theorem layoutOf_of_scalar (h : t.scalarLayout ty = some L) (k : Nat) : layoutOf t decls k ty = some L := by
  cases k with
  | zero => exact h
  | succ k => rw [layoutOf, h, Option.some_or]

theorem layoutsOf_eq_some {layout : CType → Option Layout} {fs : List CField} :
    layoutsOf layout fs = some Ls ↔ List.Forall₂ (fun f L => layout f.ty = some L) fs Ls := by
  induction fs generalizing Ls with
  | nil => simp [layoutsOf, List.forall₂_nil_left_iff, eq_comm]
  | cons f fs ih =>
    simp only [layoutsOf, Option.bind_eq_some_iff, Option.map_eq_some_iff, ih,
      List.forall₂_cons_left_iff]
    constructor
    · rintro ⟨L, hL, Ls', hLs, rfl⟩
      exact ⟨L, Ls', hL, hLs, rfl⟩
    · rintro ⟨L, Ls', hL, hLs, rfl⟩
      exact ⟨L, hL, Ls', hLs, rfl⟩

/-- What names are laid out to only grows with what types are. -/
theorem layoutDeclared_mono {layout layout' : CType → Option Layout}
    (hmono : ∀ ty L, layout ty = some L → layout' ty = some L)
    (h : layoutDeclared decls layout ty = some L) : layoutDeclared decls layout' ty = some L := by
  cases ty with
  | named name =>
    unfold layoutDeclared at h ⊢
    cases hs : structNamed decls name with
    | some s =>
      simp only [hs] at h ⊢
      obtain ⟨Ls, hLs, hL⟩ := Option.map_eq_some_iff.mp h
      refine Option.map_eq_some_iff.mpr ⟨Ls, ?_, hL⟩
      rw [layoutsOf_eq_some] at hLs ⊢
      exact hLs.imp fun f L hf => hmono f.ty L hf
    | none =>
      simp only [hs] at h ⊢
      obtain ⟨target, ha, hL⟩ := Option.bind_eq_some_iff.mp h
      exact Option.bind_eq_some_iff.mpr ⟨target, ha, hmono target L hL⟩
  | _ => cases h

theorem layoutOf_succ (h : layoutOf t decls k ty = some L) : layoutOf t decls (k + 1) ty = some L := by
  induction k generalizing ty L with
  | zero => exact layoutOf_of_scalar h 1
  | succ k ih =>
    rw [layoutOf] at h ⊢
    rcases Option.or_eq_some_iff.mp h with hs | ⟨hs, h⟩
    · rw [hs, Option.some_or]
    · rw [hs, Option.none_or]
      exact layoutDeclared_mono (fun _ _ => ih) h

theorem layoutOf_mono (hk : k ≤ n) (h : layoutOf t decls k ty = some L) : layoutOf t decls n ty = some L := by
  induction hk with
  | refl => exact h
  | step _ ih => exact layoutOf_succ ih

theorem HasLayout.unique (h : HasLayout t decls ty L) (h' : HasLayout t decls ty L') : L = L' := by
  obtain ⟨k, hk⟩ := h
  obtain ⟨n, hn⟩ := h'
  have hk := layoutOf_mono (Nat.le_max_left k n) hk
  rw [layoutOf_mono (Nat.le_max_right k n) hn] at hk
  exact (Option.some.inj hk).symm

theorem HasLayout.of_scalar (h : t.scalarLayout ty = some L) : HasLayout t decls ty L := ⟨0, h⟩

/-- The members of a structure are laid out at one depth. -/
theorem HasLayout.common {fs : List CField}
    (h : List.Forall₂ (fun f L => HasLayout t decls f.ty L) fs Ls) :
    ∃ k, List.Forall₂ (fun f L => layoutOf t decls k f.ty = some L) fs Ls := by
  induction h with
  | nil => exact ⟨0, .nil⟩
  | cons hf _ ih =>
    obtain ⟨k, hk⟩ := hf
    obtain ⟨n, hn⟩ := ih
    refine ⟨max k n, .cons (layoutOf_mono (Nat.le_max_left k n) hk) ?_⟩
    exact hn.imp fun f L hf => layoutOf_mono (Nat.le_max_right k n) hf

theorem HasLayout.struct {name : String} {s : CStruct}
    (hs : structNamed decls name = some s) (hn : t.namedScalar name = none)
    (h : List.Forall₂ (fun f L => HasLayout t decls f.ty L) s.fields Ls) :
    HasLayout t decls (.named name) (.struct Ls) := by
  obtain ⟨k, hk⟩ := HasLayout.common h
  refine ⟨k + 1, ?_⟩
  have hLs : layoutsOf (layoutOf t decls k) s.fields = some Ls := layoutsOf_eq_some.mpr hk
  have hdecl : layoutDeclared decls (layoutOf t decls k) (.named name) = some (.struct Ls) := by
    simp [layoutDeclared, hs, hLs]
  rw [layoutOf, show t.scalarLayout (.named name) = none from hn, Option.none_or, hdecl]

end

/-! ## Names -/

section
variable {decls : List CDecl} {name : String} {s : CStruct}

theorem structNamed_eq_some (h : structNamed decls name = some s) : .struct s ∈ decls ∧ s.name = name := by
  obtain ⟨d, hd, h⟩ := List.exists_of_findSome?_eq_some h
  cases d with
  | struct s' =>
    simp only [Option.ite_none_right_eq_some, Option.some.injEq] at h
    obtain ⟨hname, rfl⟩ := h
    exact ⟨hd, hname⟩
  | _ => cases h

theorem WellFormed.structNamed (hwf : WellFormed decls) (hs : .struct s ∈ decls) :
    structNamed decls s.name = some s := by
  cases h : Cimport.structNamed decls s.name with
  | some s' =>
    obtain ⟨hs', hname⟩ := structNamed_eq_some h
    rw [hwf.once s' s hs' hs hname]
  | none =>
    have := List.findSome?_eq_none_iff.mp h _ hs
    simp at this

theorem namedScalar_eq_none (t : Target) : t.namedScalar name = none ↔ cNamedSize name = none := by
  unfold cNamedSize
  split <;> simp_all [Target.namedScalar]

end

/-! ## Layouts of the gate -/

variable {cls : SysVClass}

section
variable {t : Target} {decls : List CDecl} {ty : CType} {layouts : StructLayouts}

/-- **What the gate takes for the extent of a type**: that of the C ABI, or something larger where a
`long` is smaller than it looks. What it cannot size has 16 bytes. -/
structure Exact (t : Target) (decls : List CDecl) (ty : CType) (e : Extent) : Prop where
  proper : e.Proper
  known : e.size < 16 → ∃ L, HasLayout t decls ty L ∧ L.extent.Proper ∧ L.size ≤ e.size ∧
    L.align ∣ e.align ∧ (t = .sysv → L.extent = e)

/-- The structures seen so far are laid out right. -/
def TableExact (t : Target) (decls : List CDecl) (layouts : StructLayouts) : Prop :=
  ∀ name lay, layouts name = some lay → Exact t decls (.named name) ⟨lay.size, lay.align⟩

/-- A scalar of the size the gate takes it for, or a `long` of Windows. -/
theorem Exact.of_scalar {n m : Nat} (h : t.scalarLayout ty = some (.scalar n cls))
    (hm : m = 1 ∨ m = 2 ∨ m = 4 ∨ m = 8) (hn : n = m ∨ t = .windows ∧ n = 4 ∧ m = 8) :
    Exact t decls ty ⟨m, m⟩ where
  proper := ⟨by show 0 < m; omega, hm⟩
  known := by
    intro _
    refine ⟨_, .of_scalar h, ?_, ?_, ?_, ?_⟩
    · exact ⟨by show 0 < n; omega, by show n = 1 ∨ n = 2 ∨ n = 4 ∨ n = 8; omega⟩
    · show n ≤ m
      omega
    · show n ∣ m
      rcases hn with rfl | ⟨-, rfl, rfl⟩
      · exact Nat.dvd_refl n
      · decide
    · rintro rfl
      obtain rfl : n = m := hn.resolve_right fun h => nomatch h.1
      rfl

theorem namedScalar_of_size {name : String} {m : Nat} (t : Target) (h : cNamedSize name = some m) :
    (m = 1 ∨ m = 2 ∨ m = 4 ∨ m = 8) ∧ ∃ n cls, t.namedScalar name = some (.scalar n cls) ∧
      (n = m ∨ t = .windows ∧ n = 4 ∧ m = 8) := by
  unfold cNamedSize at h
  split at h <;> cases h <;> refine ⟨by decide, ?_⟩ <;> cases t <;> exact ⟨_, _, rfl, by decide⟩

/-- **A member takes up what the gate says.** -/
theorem TableExact.field (htab : TableExact t decls layouts) (hty : ty.WellFormed) :
    Exact t decls ty (cFieldLayout layouts ty).1 := by
  cases ty with
  | void => exact absurd hty id
  | int name bits isSigned =>
    obtain ⟨hbits, hlong⟩ := hty
    have he : (cFieldLayout layouts (.int name bits isSigned)).1 = ⟨bits / 8, bits / 8⟩ := by
      show Extent.mk (bits / 8) (min (bits / 8) 8) = _
      rw [Nat.min_eq_left (by omega)]
    rw [he]
    apply Exact.of_scalar rfl
    · omega
    · split
      case isTrue h => exact .inr ⟨h.1, rfl, by rw [hlong h.2]⟩
      case isFalse => exact .inl rfl
  | float name bits =>
    have he : (cFieldLayout layouts (.float name bits)).1 = ⟨bits / 8, bits / 8⟩ := by
      rcases hty with rfl | rfl <;> rfl
    rw [he]
    exact Exact.of_scalar rfl (by rcases hty with rfl | rfl <;> decide) (.inl rfl)
  | char => exact Exact.of_scalar rfl (.inl rfl) (.inl rfl)
  | string => exact Exact.of_scalar rfl (by decide) (.inl rfl)
  | rawPtr pointee => exact Exact.of_scalar rfl (by decide) (.inl rfl)
  | named name =>
    cases hsize : cNamedSize name with
    | some m =>
      obtain ⟨hm, n, cls, hn, hnm⟩ := namedScalar_of_size t hsize
      have he : (cFieldLayout layouts (.named name)).1 = ⟨m, m⟩ := by simp [cFieldLayout, hsize]
      rw [he]
      exact Exact.of_scalar hn hm hnm
    | none =>
      cases hlay : layouts name with
      | some lay =>
        have he : (cFieldLayout layouts (.named name)).1 = ⟨lay.size, lay.align⟩ := by
          simp [cFieldLayout, hsize, hlay]
        rw [he]
        exact htab name lay hlay
      | none =>
        have he : (cFieldLayout layouts (.named name)).1 = ⟨16, 8⟩ := by
          simp [cFieldLayout, hsize, hlay]
        rw [he]
        exact ⟨⟨by decide, by decide⟩, fun h => absurd h (by decide)⟩

/-- The extents of the members, as the gate takes them. -/
def fieldExtents (layouts : StructLayouts) (fs : List CField) : List Extent :=
  fs.map fun f => (cFieldLayout layouts f.ty).1

theorem FieldWalk.fields_extent {fs : List CField} (h : ∀ e ∈ fieldExtents layouts fs, e.Proper)
    (w : FieldWalk) (index : Nat) :
    (FieldWalk.fields layouts w index (fs.map (·.ty))).size =
        Extent.stop w.size (fieldExtents layouts fs) ∧
      (FieldWalk.fields layouts w index (fs.map (·.ty))).align =
        Extent.joint w.align (fieldExtents layouts fs) := by
  induction fs generalizing w index with
  | nil => exact ⟨rfl, rfl⟩
  | cons f fs ih =>
    have hpos := (h _ List.mem_cons_self).align_pos
    have hw : (w.field layouts index f.ty).size =
        alignUp (cFieldLayout layouts f.ty).1.align w.size + (cFieldLayout layouts f.ty).1.size := by
      show roundUp w.size (cFieldLayout layouts f.ty).1.align + _ = _
      rw [roundUp, Nat.max_eq_left hpos]
    obtain ⟨hsize, halign⟩ := ih (fun e he => h e (List.mem_cons_of_mem _ he))
      (w.field layouts index f.ty) (index + 1)
    refine ⟨hsize.trans ?_, halign⟩
    rw [hw]
    rfl

variable {fs : List CField}

theorem structLayout_extent (h : ∀ e ∈ fieldExtents layouts fs, e.Proper) :
    (structLayout layouts (fs.map (·.ty))).size = Extent.total (fieldExtents layouts fs) ∧
      (structLayout layouts (fs.map (·.ty))).align = Extent.joint 1 (fieldExtents layouts fs) := by
  obtain ⟨hsize, halign⟩ := FieldWalk.fields_extent h ⟨0, 1, true, some (.integer, .integer)⟩ 0
  refine ⟨?_, halign⟩
  have hpos : 1 ≤ Extent.joint 1 (fieldExtents layouts fs) := Extent.le_joint h
  rw [structLayout, roundUp, hsize, halign, Nat.max_eq_left hpos]
  rfl

section
variable (htab : TableExact t decls layouts)
include htab

theorem TableExact.fields_proper
    (hfs : ∀ f ∈ fs, f.ty.WellFormed) : ∀ e ∈ fieldExtents layouts fs, e.Proper := by
  intro e he
  obtain ⟨f, hf, rfl⟩ := List.mem_map.mp he
  exact (htab.field (hfs f hf)).proper

/-- **The members of a small structure are known**, and the gate's extents are theirs. -/
theorem TableExact.fields_known
    (hfs : ∀ f ∈ fs, f.ty.WellFormed) (hsmall : ∀ e ∈ fieldExtents layouts fs, e.size < 16) :
    ∃ Ls, List.Forall₂ (fun f L => HasLayout t decls f.ty L) fs Ls ∧
      (∀ e ∈ Ls.map Layout.extent, e.Proper) ∧
      Extent.Within (Ls.map Layout.extent) (fieldExtents layouts fs) ∧
      (t = .sysv → Ls.map Layout.extent = fieldExtents layouts fs) := by
  induction fs with
  | nil => exact ⟨[], .nil, fun e he => absurd he List.not_mem_nil, .nil, fun _ => rfl⟩
  | cons f fs ih =>
    obtain ⟨Ls, hLs, hproper, hwithin, heq⟩ := ih (fun g hg => hfs g (List.mem_cons_of_mem _ hg))
      (fun e he => hsmall e (List.mem_cons_of_mem _ he))
    obtain ⟨L, hL, hprop, hsize, halign, hext⟩ :=
      (htab.field (hfs f List.mem_cons_self)).known (hsmall _ List.mem_cons_self)
    refine ⟨L :: Ls, .cons hL hLs, ?_, .cons ⟨hsize, halign⟩ hwithin, ?_⟩
    · intro e he
      rcases List.mem_cons.mp he with rfl | he
      · exact hprop
      · exact hproper e he
    · intro ht
      exact congrArg₂ List.cons (hext ht) (heq ht)

/-- A structure is laid out right, where those before it are. -/
theorem TableExact.struct (hwf : WellFormed decls) {s : CStruct}
    (hs : .struct s ∈ decls) : Exact t decls (.named s.name)
      ⟨(structLayout layouts (s.fields.map (·.ty))).size,
        (structLayout layouts (s.fields.map (·.ty))).align⟩ := by
  obtain ⟨hne, hfs⟩ := hwf.fields s hs
  have hproper := htab.fields_proper hfs
  obtain ⟨hsize, halign⟩ := structLayout_extent hproper
  have hes : fieldExtents layouts s.fields ≠ [] := by simpa [fieldExtents] using hne
  rw [hsize, halign]
  refine ⟨⟨Extent.total_pos hproper hes, Extent.joint_align (.inl rfl) hproper⟩, fun hlt => ?_⟩
  have hsmall : ∀ e ∈ fieldExtents layouts s.fields, e.size < 16 := by
    intro e he
    have := Extent.size_le_stop hproper e he (n := 0)
    have := Extent.stop_le_total hproper
    have : Extent.total (fieldExtents layouts s.fields) < 16 := hlt
    omega
  obtain ⟨Ls, hLs, hprop, hwithin, heq⟩ := htab.fields_known hfs hsmall
  have hLne : Ls.map Layout.extent ≠ [] := by
    intro h
    rw [h] at hwithin
    exact hes (List.forall₂_nil_left_iff.mp hwithin)
  refine ⟨.struct Ls, .struct (hwf.structNamed hs) ?_ hLs, ?_, ?_, ?_, ?_⟩
  · exact (namedScalar_eq_none t).mpr (hwf.names s hs)
  · exact ⟨Extent.total_pos hprop hLne, Extent.joint_align (.inl rfl) hprop⟩
  · exact Extent.total_le hprop hproper hwithin
  · exact Extent.joint_dvd hprop hproper hwithin
  · intro ht
    show Extent.mk _ _ = _
    rw [Layout.struct, heq ht]

end

/-- The structures laid out so far, each under those before it. -/
structure TableOf (t : Target) (decls : List CDecl) (layouts : StructLayouts) : Prop where
  exact : TableExact t decls layouts
  of : ∀ name lay, layouts name = some lay → ∃ s, .struct s ∈ decls ∧ s.name = name ∧
    ∃ earlier, TableExact t decls earlier ∧ lay = structLayout earlier (s.fields.map (·.ty))

theorem TableOf.decl (htab : TableOf t decls layouts) (hwf : WellFormed decls) {d : CDecl}
    (hd : d ∈ decls) : TableOf t decls (layoutDecl layouts d) := by
  cases d with
  | struct cs =>
    constructor
    · intro name lay hlay
      by_cases hname : name = cs.name
      · subst hname
        cases (Function.update_self cs.name _ layouts).symm.trans hlay
        exact htab.exact.struct hwf hd
      · exact htab.exact name lay ((Function.update_of_ne hname _ layouts).symm.trans hlay)
    · intro name lay hlay
      by_cases hname : name = cs.name
      · subst hname
        cases (Function.update_self cs.name _ layouts).symm.trans hlay
        exact ⟨cs, hd, rfl, layouts, htab.exact, rfl⟩
      · exact htab.of name lay ((Function.update_of_ne hname _ layouts).symm.trans hlay)
  | _ => exact htab

/-- **`compute_struct_layouts`**, structure by structure. -/
theorem computeStructLayouts_tableOf (hwf : WellFormed decls) : TableOf t decls (computeStructLayouts decls) := by
  suffices hfold : ∀ ds : List CDecl, (∀ d ∈ ds, d ∈ decls) → ∀ layouts, TableOf t decls layouts →
      TableOf t decls (ds.foldl layoutDecl layouts) from
    hfold decls (fun _ => id) _ ⟨by nofun, by nofun⟩
  intro ds
  induction ds with
  | nil => exact fun _ _ h => h
  | cons d ds ih =>
    intro hmem layouts htab
    exact ih (fun x hx => hmem x (List.mem_cons_of_mem _ hx)) _
      (htab.decl hwf (hmem d List.mem_cons_self))

theorem computeStructLayouts_isSome {s : CStruct} (hs : .struct s ∈ decls) :
    (computeStructLayouts decls s.name).isSome := by
  suffices hfold : ∀ ds : List CDecl, ∀ layouts : StructLayouts,
      (layouts s.name).isSome ∨ .struct s ∈ ds → (ds.foldl layoutDecl layouts s.name).isSome from
    hfold decls _ (.inr hs)
  intro ds
  induction ds with
  | nil => exact fun layouts h => h.resolve_right List.not_mem_nil
  | cons d ds ih =>
    intro layouts h
    apply ih
    cases d with
    | struct cs =>
      by_cases hname : s.name = cs.name
      · refine .inl ?_
        rw [layoutDecl, hname, Function.update_self]
        rfl
      · rcases h with h | h
        · refine .inl ?_
          rw [layoutDecl, Function.update_of_ne hname]
          exact h
        · exact .inr ((List.mem_cons.mp h).resolve_left fun he => hname (by cases he; rfl))
    | _ => exact h.imp id fun h => (List.mem_cons.mp h).resolve_left (by nofun)

end

/-! ## Values in a register -/

section
variable {t : Target} {decls : List CDecl} {ty : CType} {L : Layout} {layouts : StructLayouts}

/-- A layout of C: its extent, and its members where the rule puts them. -/
structure LayoutOk (L : Layout) : Prop where
  proper : L.extent.Proper
  members : ∃ es, (∀ e ∈ es, e.Proper) ∧ L.members = Extent.offsets 0 es ∧
    (es = [] ∨ L.size = Extent.total es)

theorem LayoutOk.scalar (h : n = 1 ∨ n = 2 ∨ n = 4 ∨ n = 8) :
    LayoutOk (.scalar n cls) where
  proper := ⟨by show 0 < n; omega, h⟩
  members := ⟨[], by simp, rfl, .inl rfl⟩

theorem LayoutOk.struct (hne : Ls ≠ []) (h : ∀ L ∈ Ls, LayoutOk L) : LayoutOk (.struct Ls) := by
  have hes : ∀ e ∈ Ls.map Layout.extent, e.Proper := by
    intro e he
    obtain ⟨L, hL, rfl⟩ := List.mem_map.mp he
    exact (h L hL).proper
  have hne' : Ls.map Layout.extent ≠ [] := by simpa using hne
  refine ⟨⟨Extent.total_pos hes hne', Extent.joint_align (.inl rfl) hes⟩, ?_⟩
  exact ⟨_, hes, rfl, .inr rfl⟩

theorem scalarLayout_ok (hty : ty.WellFormed) (h : t.scalarLayout ty = some L) : LayoutOk L := by
  cases ty with
  | void => cases h
  | int name bits isSigned =>
    cases h
    obtain ⟨hbits, -⟩ := hty
    apply LayoutOk.scalar
    split <;> omega
  | float name bits =>
    cases h
    apply LayoutOk.scalar
    rcases hty with rfl | rfl <;> decide
  | char => obtain rfl := Option.some.inj h; exact .scalar (by decide)
  | string => obtain rfl := Option.some.inj h; exact .scalar (by decide)
  | rawPtr _ => obtain rfl := Option.some.inj h; exact .scalar (by decide)
  | named name =>
    have hsome : cNamedSize name ≠ none := fun hn => by
      have := (namedScalar_eq_none t).mpr hn
      rw [Target.scalarLayout, this] at h
      cases h
    obtain ⟨m, hm⟩ := Option.ne_none_iff_exists'.mp hsome
    obtain ⟨hm', n, cls, hn, hnm⟩ := namedScalar_of_size t hm
    cases hn.symm.trans h
    exact .scalar (by omega)

theorem aliasNamed_wellFormed (hwf : WellFormed decls) {name : String} (h : aliasNamed decls name = some ty) :
    ty.WellFormed := by
  obtain ⟨d, hd, h⟩ := List.exists_of_findSome?_eq_some h
  cases d with
  | enum n vs =>
    cases n with
    | none => cases h
    | some n =>
      simp only [Option.ite_none_right_eq_some, Option.some.injEq] at h
      obtain ⟨-, rfl⟩ := h
      exact ⟨by decide, by decide⟩
  | typedef n target =>
    simp only [Option.ite_none_right_eq_some, Option.some.injEq] at h
    obtain ⟨-, rfl⟩ := h
    exact hwf.targets n target hd
  | _ => cases h

/-- **The layouts of C are laid out by its rule.** -/
theorem HasLayout.ok (hwf : WellFormed decls) (hty : ty.WellFormed) (h : HasLayout t decls ty L) : LayoutOk L := by
  obtain ⟨k, h⟩ := h
  induction k generalizing ty L with
  | zero => exact scalarLayout_ok hty h
  | succ k ih =>
    rcases Option.or_eq_some_iff.mp h with hs | ⟨-, h⟩
    · exact scalarLayout_ok hty hs
    · cases ty with
      | named name =>
        unfold layoutDeclared at h
        cases hs : structNamed decls name with
        | some s =>
          simp only [hs] at h
          obtain ⟨Ls, hLs, rfl⟩ := Option.map_eq_some_iff.mp h
          obtain ⟨hne, hfs⟩ := hwf.fields s (structNamed_eq_some hs).1
          have hLs := layoutsOf_eq_some.mp hLs
          refine .struct (fun he => ?_) fun L hL => ?_
          · rw [he] at hLs
            exact hne (List.forall₂_nil_right_iff.mp hLs)
          · obtain ⟨i, hi, rfl⟩ := List.mem_iff_getElem.mp hL
            have hlen := hLs.length_eq
            have hf := (List.forall₂_iff_get.mp hLs).2 i (by omega) hi
            exact ih (hfs _ (List.getElem_mem _)) hf
        | none =>
          simp only [hs] at h
          obtain ⟨target, ha, h⟩ := Option.bind_eq_some_iff.mp h
          exact ih (aliasNamed_wellFormed hwf ha) h
      | _ => cases h

/-- **RAX takes the value**: it is of a size and a class that come back there. -/
def RidesRax (t : Target) (L : Layout) : Prop :=
  match t with
  | .sysv => L.size ≤ 8 ∧ L.eightbyte 0 = .integer
  | .windows => if L.members = [] then L.eightbyte 0 = .integer else L.size ∈ [1, 2, 4, 8]

theorem passing_eq_rax : L.passing t = .registers [.integer] ↔ RidesRax t L := by
  cases t with
  | sysv =>
    simp only [Layout.passing, RidesRax]
    split
    case isTrue h => simp [h]
    case isFalse h => split <;> simp [h]
  | windows =>
    simp only [Layout.passing, RidesRax]
    split
    case isTrue h => simp
    case isFalse h =>
      split
      case isTrue h' => simp [h']
      case isFalse h' => simp [h']

theorem RidesRax.size_le (h : RidesRax t L) : L.members = [] ∨ L.size ≤ 8 := by
  cases t with
  | sysv => exact .inr h.1
  | windows =>
    simp only [RidesRax] at h
    split at h
    case isTrue hm => exact .inl hm
    case isFalse =>
      refine .inr ?_
      simp only [List.mem_cons, List.not_mem_nil, or_false] at h
      omega

/-- The members of a value of one word stand where fields are read if there is at most one. -/
theorem LayoutOk.members_iff (hL : LayoutOk L) (h : L.members = [] ∨ L.size ≤ 8) :
    (∀ i o, L.members[i]? = some o → o = i * 8) ↔ L.members.length ≤ 1 := by
  obtain ⟨es, hes, hm, hsize⟩ := hL.members
  constructor
  · intro hall
    by_contra hlen
    have hlt : 1 < L.members.length := by omega
    have h8 := hall 1 _ (List.getElem?_eq_getElem hlt)
    have hmem : L.members[1] ∈ Extent.offsets 0 es := hm ▸ List.getElem_mem hlt
    have hstop := Extent.offset_lt_stop hes _ hmem
    have htotal := Extent.stop_le_total hes
    rcases hsize with rfl | hsize
    · rw [hm] at hlt
      cases hlt
    · rcases h with h | h
      · rw [h] at hlt
        cases hlt
      · omega
  · intro hlen i o ho
    cases es with
    | nil =>
      rw [hm] at ho
      cases ho
    | cons e es =>
      rw [hm] at ho hlen
      have hnil : es = [] := by simpa [Extent.offsets, Extent.length_offsets] using hlen
      subst hnil
      cases i with
      | zero =>
        cases ho
        simp [alignUp_of_dvd (hes e List.mem_cons_self).align_pos (Nat.dvd_zero _)]
      | succ i => cases ho

end

/-! ## The gate -/

/-- **The types that the gate returns right.** A name that is not built in has to be a complete type: one
with at most one member that rides in RAX, or a structure of two words. -/
def ReturnFits (t : Target) (decls : List CDecl) : CType → Prop
  | .named name =>
    (t.namedScalar name).isSome ∨
      ∃ L, HasLayout t decls (.named name) L ∧
        (L.members.length ≤ 1 ∧ RidesRax t L ∨ 8 < L.size ∧ (structNamed decls name).isSome)
  | _ => True

section
variable {t : Target} {decls : List CDecl} {L : Layout} {layouts : StructLayouts} {cf : CFunction}
  {e : ExternFnDecl}

theorem expandFunction_ok {abi : StructReturnAbi} (h : expandFunction abi layouts cf = .ok e) :
    returnGate abi layouts cf = .ok (e.sretSize, e.sysvClasses) := by
  unfold expandFunction at h
  cases hg : returnGate abi layouts cf with
  | error w => rw [hg] at h; cases h
  | ok r => rw [hg] at h; cases h; rfl

theorem not_hasLayout_void : ¬HasLayout t decls .void L := by
  rintro ⟨k, h⟩
  cases k <;> cases h

theorem gateRight_iff_of_layout (hL : HasLayout t decls cf.returnType L) :
    GateRight t decls cf e ↔ e.passing cf.returnType = L.passing t ∧
      ∀ i o, L.members[i]? = some o → o = i * 8 := by
  constructor
  · rintro ⟨hp, hmem⟩
    refine ⟨?_, hmem L hL⟩
    generalize cf.returnType = ty at hL hp
    generalize e.passing ty = q at hp
    cases hp with
    | void => exact absurd hL not_hasLayout_void
    | ofLayout hL' => rw [hL'.unique hL]
  · rintro ⟨hp, hmem⟩
    refine ⟨?_, fun L' hL' => ?_⟩
    · rw [hp]
      exact .ofLayout hL
    · rw [hL'.unique hL]
      exact hmem

theorem GateRight.hasLayout (h : GateRight t decls cf e) (hne : cf.returnType ≠ .void) :
    ∃ L, HasLayout t decls cf.returnType L := by
  have hp := h.prescribed
  generalize cf.returnType = ty at hp hne
  generalize e.passing ty = q at hp
  cases hp with
  | void => exact absurd rfl hne
  | ofLayout hL => exact ⟨_, hL⟩

theorem gateRight_scalar
    (hs : t.scalarLayout cf.returnType = some (.scalar n cls)) (hn : n ≤ 8)
    (hcls : cf.returnType.registerClass = some cls) (hret : e.sretSize = none)
    (hsysv : e.sysvClasses = none) : GateRight t decls cf e := by
  refine (gateRight_iff_of_layout (.of_scalar hs)).mpr ⟨?_, fun i o ho => nomatch ho⟩
  simp only [ExternFnDecl.passing, hret, hsysv, hcls]
  cases t <;> cases cls <;> simp [Layout.passing, Layout.scalar, Layout.eightbyte, hn]

theorem gateRight_named_iff (hwf : WellFormed decls) {name : String} (hty : cf.returnType = .named name)
    (hbuiltin : cNamedSize name = none) (hret : e.sretSize = none) (hsysv : e.sysvClasses = none) :
    GateRight t decls cf e ↔
      ∃ L, HasLayout t decls (.named name) L ∧ L.members.length ≤ 1 ∧ RidesRax t L := by
  have hrax : e.passing cf.returnType = .registers [.integer] := by
    have hname : ¬(name = "float" ∨ name = "double") := by
      rintro (rfl | rfl) <;> cases hbuiltin
    simp [ExternFnDecl.passing, hret, hsysv, hty, CType.registerClass, hname]
  have hvalue : (CType.named name).WellFormed := trivial
  constructor
  · intro h
    obtain ⟨L, hL⟩ := h.hasLayout (by simp [hty])
    obtain ⟨hp, hmem⟩ := (gateRight_iff_of_layout hL).mp h
    rw [hty] at hL
    have hr := passing_eq_rax.mp (hp.symm.trans hrax)
    exact ⟨L, hL, ((hL.ok hwf hvalue).members_iff hr.size_le).mp hmem, hr⟩
  · rintro ⟨L, hL, hm, hr⟩
    refine (gateRight_iff_of_layout (hty ▸ hL)).mpr ⟨hrax.trans (passing_eq_rax.mpr hr).symm, ?_⟩
    exact ((hL.ok hwf hvalue).members_iff hr.size_le).mpr hm

/-- A member that the gate takes for an 8-byte scalar is one, or a `long`. -/
theorem word_scalar {ty : CType} (t : Target) (hty : ty.WellFormed)
    (h : (cFieldLayout layouts ty).2 = true) :
    ∃ n cls, cFieldRegClass ty = some cls ∧ t.scalarLayout ty = some (.scalar n cls) ∧
      (n = 8 ∨ t = .windows ∧ n = 4) := by
  cases ty with
  | void => cases h
  | char => cases h
  | int name bits isSigned =>
    have h8 : bits / 8 = 8 := of_decide_eq_true h
    have hbits : bits = 64 := by have := hty.1; omega
    subst hbits
    refine ⟨_, _, rfl, rfl, ?_⟩
    split
    case isTrue hw => exact .inr ⟨hw.1, rfl⟩
    case isFalse => exact .inl rfl
  | float name bits =>
    have h8 : bits / 8 = 8 := of_decide_eq_true h
    have hbits : bits = 64 := by
      rcases hty with rfl | rfl
      · cases h8
      · rfl
    subst hbits
    exact ⟨_, _, rfl, rfl, .inl rfl⟩
  | string => exact ⟨_, _, rfl, rfl, .inl rfl⟩
  | rawPtr _ => exact ⟨_, _, rfl, rfl, .inl rfl⟩
  | named name =>
    cases hsize : cNamedSize name with
    | none =>
      have h' : (cFieldLayout layouts (.named name)).2 = false := by
        simp only [cFieldLayout, hsize]
        cases layouts name <;> rfl
      rw [h'] at h
      cases h
    | some m =>
      simp only [cFieldLayout, hsize, decide_eq_true_eq] at h
      subst h
      unfold cNamedSize at hsize
      split at hsize <;> cases hsize <;> cases t <;> exact ⟨_, _, rfl, rfl, by decide⟩

/-- A structure of more than a word that is let through has two words for members. -/
theorem eligible_pair {tys : List CType} (h : (structLayout layouts tys).sretEligible = true)
    (hlo : 8 < (structLayout layouts tys).size) (hhi : (structLayout layouts tys).size ≤ 16) :
    ∃ a b, tys = [a, b] ∧ (cFieldLayout layouts a).2 = true ∧ (cFieldLayout layouts b).2 = true ∧
      (structLayout layouts tys).size = 16 := by
  have hflags : (FieldWalk.fields layouts ⟨0, 1, true, some (.integer, .integer)⟩ 0 tys).eligible = true ∧
      (structLayout layouts tys).size = tys.length * 8 := by
    have := h
    simp only [structLayout, Bool.and_eq_true, Bool.not_eq_true', Bool.or_eq_false_iff,
      decide_eq_false_iff_not, ne_eq, not_not] at this
    exact ⟨this.1, this.2.2⟩
  obtain ⟨helig, hsize⟩ := hflags
  have hlen : tys.length = 2 := by omega
  obtain ⟨a, b, rfl⟩ := List.length_eq_two.mp hlen
  simp only [FieldWalk.fields, FieldWalk.field, Bool.and_eq_true, Bool.true_and] at helig
  exact ⟨a, b, rfl, helig.1.1.1, helig.1.2, hsize⟩

theorem HasLayout.pair (hwf : WellFormed decls) {s : CStruct} (hs : .struct s ∈ decls) {f g : CField}
    (hfs : s.fields = [f, g]) {n m : Nat} {c d : SysVClass}
    (hf : t.scalarLayout f.ty = some (.scalar n c)) (hg : t.scalarLayout g.ty = some (.scalar m d)) :
    HasLayout t decls (.named s.name) (.struct [.scalar n c, .scalar m d]) := by
  apply HasLayout.struct (hwf.structNamed hs)
  · exact (namedScalar_eq_none t).mpr (hwf.names s hs)
  · rw [hfs]
    exact .cons (.of_scalar hf) (.cons (.of_scalar hg) .nil)

/-- Two words, of which at most one is a `long` of Windows. -/
theorem struct_words (c d : SysVClass) {n m : Nat}
    (h : n = 8 ∧ m = 8 ∨ n = 8 ∧ m = 4 ∨ n = 4 ∧ m = 8) :
    Layout.struct [.scalar n c, .scalar m d] = ⟨16, 8, [0, 8], [⟨0, c⟩, ⟨8, d⟩]⟩ := by
  rcases h with ⟨rfl, rfl⟩ | ⟨rfl, rfl⟩ | ⟨rfl, rfl⟩ <;>
    simp [Layout.struct, Layout.scalar, Layout.extent, Layout.leavesAt, Extent.total, Extent.joint,
      Extent.stop, Extent.offsets, alignUp]

/-- Two `long`s of Windows make one word. -/
theorem struct_longs (c d : SysVClass) :
    Layout.struct [.scalar 4 c, .scalar 4 d] = ⟨8, 4, [0, 4], [⟨0, c⟩, ⟨4, d⟩]⟩ := by
  simp [Layout.struct, Layout.scalar, Layout.extent, Layout.leavesAt, Extent.total, Extent.joint,
    Extent.stop, Extent.offsets, alignUp]

variable {lay : StructLayout}

theorem classifyLayout_pair {f g : CField} {c d : SysVClass} (hc : cFieldRegClass f.ty = some c)
    (hd : cFieldRegClass g.ty = some d)
    (hlay : lay = structLayout layouts [f.ty, g.ty]) (helig : lay.sretEligible = true)
    (h16 : lay.size = 16) :
    classifyLayout .sysvRegisters lay = .sysvRegisters (c, d) ∧ classifyLayout .sret lay = .sret 16 := by
  have hclasses : lay.sysvClasses = some (c, d) := by
    rw [hlay] at h16 ⊢
    show (if (structLayout layouts [f.ty, g.ty]).size ≠ 16 then none else _) = _
    rw [h16]
    simp [FieldWalk.fields, FieldWalk.field, hc, hd]
  constructor <;> simp [classifyLayout, helig, h16, hclasses, maxSretBytes]

/-- **Two words** are returned right, unless both are a `long` of Windows. -/
theorem gateRight_pair_iff (hwf : WellFormed decls) {s : CStruct} (hs : .struct s ∈ decls)
    (hty : cf.returnType = .named s.name) {earlier : StructLayouts}
    (hlay : lay = structLayout earlier (s.fields.map (·.ty))) (helig : lay.sretEligible = true)
    (hlo : 8 < lay.size) (hhi : lay.size ≤ 16)
    (hclass : classifyReturn cf.returnType layouts t.abi = classifyLayout t.abi lay)
    (hgate : returnGate t.abi layouts cf = .ok (e.sretSize, e.sysvClasses)) :
    GateRight t decls cf e ↔ ReturnFits t decls cf.returnType := by
  obtain ⟨a, b, htys, ha, hb, h16⟩ := eligible_pair (hlay ▸ helig) (hlay ▸ hlo) (hlay ▸ hhi)
  obtain ⟨f, fs, hfs, rfl, hrest⟩ := List.map_eq_cons_iff.mp htys
  obtain ⟨g, gs, rfl, rfl, hnil⟩ := List.map_eq_cons_iff.mp hrest
  obtain rfl := List.map_eq_nil_iff.mp hnil
  have hvalues := (hwf.fields s hs).2
  rw [hfs] at hvalues
  obtain ⟨n, c, hc, hf, hn⟩ := word_scalar t (hvalues f (by simp)) ha
  obtain ⟨m, d, hd, hg, hm⟩ := word_scalar t (hvalues g (by simp)) hb
  have hL := HasLayout.pair hwf hs hfs hf hg
  have hnone : t.namedScalar s.name = none := (namedScalar_eq_none t).mpr (hwf.names s hs)
  have hfits : ReturnFits t decls cf.returnType ↔
      8 < (Layout.struct [.scalar n c, .scalar m d]).size := by
    rw [hty]
    constructor
    · rintro (h | ⟨L, hL', h⟩)
      · rw [hnone] at h
        cases h
      · obtain rfl := hL'.unique hL
        refine (h.resolve_left fun h => ?_).1
        exact absurd h.1 (by simp [Layout.struct, Extent.length_offsets])
    · exact fun h => .inr ⟨_, hL, .inr ⟨h, by rw [hwf.structNamed hs]; rfl⟩⟩
  rw [hfits, gateRight_iff_of_layout (hty ▸ hL)]
  rw [htys] at h16
  obtain ⟨hsysv, hsret⟩ := classifyLayout_pair hc hd (by rw [hlay, htys]) helig
    (by rw [hlay, htys, h16])
  have hmembers : ∀ i o, ([0, 8] : List Nat)[i]? = some o → o = i * 8 := by
    intro i o ho
    match i with
    | 0 | 1 => simpa using ho.symm
    | i + 2 => cases ho
  cases t with
  | sysv =>
    obtain rfl : n = 8 := hn.resolve_right (by simp)
    obtain rfl : m = 8 := hm.resolve_right (by simp)
    rw [returnGate, hclass, show Target.sysv.abi = .sysvRegisters from rfl, hsysv] at hgate
    simp only at hgate
    split at hgate
    case isFalse => cases hgate
    have hret : none = e.sretSize := (Prod.mk.inj (Except.ok.inj hgate)).1
    have hcls : some (c, d) = e.sysvClasses := (Prod.mk.inj (Except.ok.inj hgate)).2
    rw [struct_words c d (.inl ⟨rfl, rfl⟩)]
    refine iff_of_true ⟨?_, hmembers⟩ (by show 8 < 16; decide)
    simp only [ExternFnDecl.passing, ← hret, ← hcls]
    cases c <;> cases d <;> rfl
  | windows =>
    rw [returnGate, hclass, show Target.windows.abi = .sret from rfl, hsret] at hgate
    simp only at hgate
    split at hgate
    case isFalse => cases hgate
    have hret : some 16 = e.sretSize := (Prod.mk.inj (Except.ok.inj hgate)).1
    have hpassing : e.passing cf.returnType = .hiddenPointer := by
      simp [ExternFnDecl.passing, ← hret]
    rw [hpassing]
    by_cases hlongs : n = 4 ∧ m = 4
    · obtain ⟨rfl, rfl⟩ := hlongs
      rw [struct_longs]
      exact iff_of_false (fun h => nomatch h.1) (by show ¬8 < 8; decide)
    · rw [struct_words c d (by omega)]
      exact iff_of_true ⟨rfl, hmembers⟩ (by show 8 < 16; decide)

/-- Of the structures of more than a word, only two words pass. -/
theorem classifyLayout_refused (abi : StructReturnAbi) (h8 : ¬lay.size ≤ 8)
    (h : ¬(lay.sretEligible = true ∧ lay.size ≤ 16)) :
    (∃ n, classifyLayout abi lay = .aboveWindow n) ∨ ∃ n, classifyLayout abi lay = .unsupported n := by
  by_cases he : lay.sretEligible = true
  · refine .inl ⟨lay.size, (if_neg h8).trans ((if_pos he).trans (if_neg ?_))⟩
    exact fun hle => h ⟨he, hle⟩
  · exact .inr ⟨some lay.size, (if_neg h8).trans (if_neg he)⟩

theorem registerClass_named {name : String}
    (h : t.namedScalar name = some (.scalar n cls)) :
    (CType.named name).registerClass = some cls := by
  obtain ⟨m, hm⟩ := Option.ne_none_iff_exists'.mp
    (fun hn : cNamedSize name = none => by rw [(namedScalar_eq_none t).mpr hn] at h; cases h)
  unfold cNamedSize at hm
  split at hm <;> cases hm <;> cases t <;> cases h <;> rfl

theorem registered (h : expandFunction t.abi layouts cf = .ok e)
    (hreg : classifyReturn cf.returnType layouts t.abi = .register) :
    e.sretSize = none ∧ e.sysvClasses = none := by
  have hgate := expandFunction_ok h
  rw [returnGate, hreg] at hgate
  obtain ⟨hret, hsysv⟩ := Prod.mk.inj (Except.ok.inj hgate)
  exact ⟨hret.symm, hsysv.symm⟩

theorem scalar_registered {size : Nat} (h : expandFunction t.abi layouts cf = .ok e)
    (hstruct : ∀ name, cf.returnType = .named name → layouts name = none)
    (hsize : cTypeSize cf.returnType = some size) :
    size ≤ 8 ∧ e.sretSize = none ∧ e.sysvClasses = none := by
  have hclass : classifyReturn cf.returnType layouts t.abi =
      if size > 8 then .unsupported (some size) else .register := by
    unfold classifyReturn
    rw [hsize]
    cases hty : cf.returnType with
    | named name => simp only [hstruct name hty]
    | _ => rfl
  by_cases h8 : size > 8
  · have hgate := expandFunction_ok h
    rw [returnGate, hclass, if_pos h8] at hgate
    cases hgate
  · rw [if_neg h8] at hclass
    exact ⟨Nat.not_lt.mp h8, registered h hclass⟩

theorem gateRight_iff (hwf : WellFormed decls)
    (h : expandFunction t.abi (computeStructLayouts decls) cf = .ok e) :
    GateRight t decls cf e ↔ ReturnFits t decls cf.returnType := by
  have htab : TableOf t decls (computeStructLayouts decls) := computeStructLayouts_tableOf hwf
  cases hty : cf.returnType with
  | void =>
    obtain ⟨-, hret, hsysv⟩ := scalar_registered h (by simp [hty]) (by rw [hty]; rfl)
    refine iff_of_true ⟨?_, fun L hL => ?_⟩ trivial
    · have hp : e.passing cf.returnType = .nothing := by
        simp [ExternFnDecl.passing, hret, hsysv, hty, CType.registerClass]
      rw [hp, hty]
      exact .void
    · rw [hty] at hL
      exact absurd hL not_hasLayout_void
  | int name bits isSigned =>
    obtain ⟨hsize, hret, hsysv⟩ := scalar_registered h (by simp [hty]) (by rw [hty]; rfl)
    refine iff_of_true (gateRight_scalar (by rw [hty]; rfl) ?_ (by rw [hty]; rfl) hret hsysv) trivial
    split <;> omega
  | float name bits =>
    obtain ⟨hsize, hret, hsysv⟩ := scalar_registered h (by simp [hty]) (by rw [hty]; rfl)
    exact iff_of_true (gateRight_scalar (by rw [hty]; rfl) hsize (by rw [hty]; rfl) hret hsysv) trivial
  | char =>
    obtain ⟨hsize, hret, hsysv⟩ := scalar_registered h (by simp [hty]) (by rw [hty]; rfl)
    exact iff_of_true (gateRight_scalar (by rw [hty]; rfl) hsize (by rw [hty]; rfl) hret hsysv) trivial
  | string =>
    obtain ⟨hsize, hret, hsysv⟩ := scalar_registered h (by simp [hty]) (by rw [hty]; rfl)
    exact iff_of_true (gateRight_scalar (by rw [hty]; rfl) hsize (by rw [hty]; rfl) hret hsysv) trivial
  | rawPtr pointee =>
    obtain ⟨hsize, hret, hsysv⟩ := scalar_registered h (by simp [hty]) (by rw [hty]; rfl)
    exact iff_of_true (gateRight_scalar (by rw [hty]; rfl) hsize (by rw [hty]; rfl) hret hsysv) trivial
  | named name =>
    cases hlay : computeStructLayouts decls name with
    | none =>
      cases hbuiltin : cNamedSize name with
      | some m =>
        obtain ⟨hm, n, cls, hn, hnm⟩ := namedScalar_of_size t hbuiltin
        obtain ⟨-, hret, hsysv⟩ := scalar_registered h
          (fun name' h' => by rw [hty] at h'; cases h'; exact hlay) (by rw [hty]; exact hbuiltin)
        have hscalar : t.scalarLayout cf.returnType = some (.scalar n cls) := by rw [hty]; exact hn
        refine iff_of_true (gateRight_scalar hscalar (by omega) ?_ hret hsysv) (.inl (by rw [hn]; rfl))
        rw [hty]
        exact registerClass_named hn
      | none =>
        have hreg : classifyReturn cf.returnType (computeStructLayouts decls) t.abi = .register := by
          simp [classifyReturn, hty, hlay, cTypeSize, hbuiltin]
        obtain ⟨hret, hsysv⟩ := registered h hreg
        rw [gateRight_named_iff hwf hty hbuiltin hret hsysv]
        have hstruct : structNamed decls name = none := by
          cases hs : structNamed decls name with
          | none => rfl
          | some s =>
            obtain ⟨hmem, rfl⟩ := structNamed_eq_some hs
            have := computeStructLayouts_isSome hmem
            rw [hlay] at this
            cases this
        have hscalar := (namedScalar_eq_none t).mpr hbuiltin
        simp [ReturnFits, hstruct, hscalar]
    | some lay =>
      obtain ⟨s, hs, rfl, earlier, hearlier, hlay'⟩ := htab.of name lay hlay
      have hclass : classifyReturn cf.returnType (computeStructLayouts decls) t.abi =
          classifyLayout t.abi lay := by
        unfold classifyReturn
        rw [hty]
        simp [hlay]
      have hbuiltin := hwf.names s hs
      have hscalar := (namedScalar_eq_none t).mpr hbuiltin
      by_cases h8 : lay.size ≤ 8
      · have hreg : classifyLayout t.abi lay = .register := if_pos h8
        obtain ⟨hret, hsysv⟩ := registered h (hclass.trans hreg)
        rw [gateRight_named_iff hwf hty hbuiltin hret hsysv]
        obtain ⟨L, hL, -, hsize, -⟩ := (htab.exact s.name lay hlay).known (by show lay.size < 16; omega)
        have hle : L.size ≤ 8 := Nat.le_trans hsize h8
        constructor
        · rintro ⟨L', hL', hm⟩
          exact .inr ⟨L', hL', .inl hm⟩
        · rintro (hb | ⟨L', hL', hm⟩)
          · rw [hscalar] at hb
            cases hb
          · obtain rfl := hL'.unique hL
            exact ⟨L', hL', hm.resolve_right fun hm => absurd hm.1 (by omega)⟩
      · have hgate := expandFunction_ok h
        have helig : lay.sretEligible = true ∧ lay.size ≤ 16 := by
          by_contra hno
          rcases classifyLayout_refused t.abi h8 hno with ⟨n, hn⟩ | ⟨n, hn⟩
          · rw [returnGate, hclass, hn] at hgate
            cases hgate
          · rw [returnGate, hclass, hn] at hgate
            cases hgate
        rw [← hty]
        exact gateRight_pair_iff hwf hs hty hlay' helig.1 (Nat.lt_of_not_le h8) helig.2 hclass hgate

end

theorem mem_expandCImports {abi : StructReturnAbi} {decls : List CDecl} {e : ExternFnDecl} :
    .externFn e ∈ (expandCImports abi [] decls).1 ↔
      ∃ cf, .function cf ∈ decls ∧ expandFunction abi (computeStructLayouts decls) cf = .ok e := by
  have htype : ∀ (acc : List Decl) name (d : Decl), (∀ f, d ≠ .externFn f) →
      (.externFn e ∈ declareType acc name d ↔ .externFn e ∈ acc) := by
    intro acc name d hd
    unfold declareType
    split
    · rfl
    · simp [(hd e).symm]
  have hvariants : ∀ (vs : List (String × Int)) (acc : List Decl),
      .externFn e ∈ vs.foldl (fun ds v => if ds.any fun d => d.functionName = some v.1 then ds
        else ds ++ [.intFunction v.1 v.2]) acc ↔ .externFn e ∈ acc := by
    intro vs
    induction vs with
    | nil => exact fun acc => Iff.rfl
    | cons v vs ih =>
      intro acc
      rw [List.foldl_cons, ih]
      split
      · rfl
      · simp
  suffices hfold : ∀ (layouts : StructLayouts) (ds : List CDecl) (acc : List Decl × List String),
      .externFn e ∈ (ds.foldl (expandDecl abi layouts) acc).1 ↔
        .externFn e ∈ acc.1 ∨ ∃ cf, .function cf ∈ ds ∧ expandFunction abi layouts cf = .ok e by
    have := hfold (computeStructLayouts decls) decls ([], [])
    simpa [expandCImports] using this
  intro layouts ds
  induction ds with
  | nil => simp
  | cons d ds ih =>
    intro acc
    rw [List.foldl_cons, ih]
    cases d with
    | function cf =>
      cases hx : expandFunction abi layouts cf with
      | ok f =>
        have hdecl : (expandDecl abi layouts acc (.function cf)).1 = acc.1 ++ [.externFn f] := by
          simp [expandDecl, hx]
        simp [hdecl, or_and_right, exists_or, hx, or_assoc, eq_comm]
      | error w =>
        have hdecl : (expandDecl abi layouts acc (.function cf)).1 = acc.1 := by
          simp [expandDecl, hx]
        simp [hdecl, or_and_right, exists_or, hx]
    | enum name variants =>
      have hdecl : .externFn e ∈ (expandDecl abi layouts acc (.enum name variants)).1 ↔
          .externFn e ∈ acc.1 := by
        cases name with
        | none => exact hvariants _ _
        | some name => exact (hvariants _ _).trans (htype _ _ _ (by simp))
      simp [hdecl]
    | defineInt name value => simp [expandDecl]
    | opaqueStruct name =>
      have hdecl := htype acc.1 name (.type name "RawPtr") (by simp)
      simp [expandDecl, hdecl]
    | struct cs =>
      have hdecl := htype acc.1 cs.name
        (.class cs.name (cs.fields.map fun f => (f.name, f.ty.toDataraTypeNode))) (by simp)
      simp [expandDecl, hdecl]
    | typedef name target =>
      have hdecl : .externFn e ∈ (expandDecl abi layouts acc (.typedef name target)).1 ↔
          .externFn e ∈ acc.1 := by
        cases hx : target.toDataraTypeNode with
        | none => simp [expandDecl, hx]
        | some base =>
          simp only [expandDecl, hx]
          exact htype _ _ _ (by simp)
      simp [hdecl]

/-- **The gate is right on exactly the types of `ReturnFits`.** The functions that `expand_c_imports`
declares are those it accepts, and one of them is returned as the C ABI of the target says, with its
members where fields are read, if and only if its type fits. -/
theorem cImportGate_right_iff (t : Target) (decls : List CDecl) (hwf : WellFormed decls) :
    (∀ e, .externFn e ∈ (expandCImports t.abi [] decls).1 ↔
      ∃ cf, .function cf ∈ decls ∧ expandFunction t.abi (computeStructLayouts decls) cf = .ok e) ∧
    ∀ cf e, expandFunction t.abi (computeStructLayouts decls) cf = .ok e →
      (GateRight t decls cf e ↔ ReturnFits t decls cf.returnType) :=
  ⟨fun _ => mem_expandCImports, fun _ _ => gateRight_iff hwf⟩

/-- A header with one structure of 8-byte members, and a function that returns it. -/
def boxDecls (members : List CType) : List CDecl :=
  [.struct ⟨"Box", members.map fun ty => ⟨"v", ty⟩⟩, .function ⟨"unbox", .named "Box", [], false⟩]

def boxFunction : CFunction := ⟨"unbox", .named "Box", [], false⟩

theorem boxDecls_wellFormed {members : List CType} (hne : members ≠ [])
    (h : ∀ ty ∈ members, ty.WellFormed) : WellFormed (boxDecls members) where
  fields := by
    intro s hs
    obtain rfl : s = ⟨"Box", members.map fun ty => ⟨"v", ty⟩⟩ := by simpa [boxDecls] using hs
    refine ⟨by simpa using hne, fun f hf => ?_⟩
    obtain ⟨ty, hty, rfl⟩ := List.mem_map.mp hf
    exact h ty hty
  names := by
    intro s hs
    obtain rfl : s = ⟨"Box", members.map fun ty => ⟨"v", ty⟩⟩ := by simpa [boxDecls] using hs
    rfl
  once := by
    intro s s' hs hs' _
    obtain rfl : s = ⟨"Box", members.map fun ty => ⟨"v", ty⟩⟩ := by simpa [boxDecls] using hs
    obtain rfl : s' = ⟨"Box", members.map fun ty => ⟨"v", ty⟩⟩ := by simpa [boxDecls] using hs'
    rfl
  targets := by simp [boxDecls]

/-- `struct Box { double v; double v; }` comes back in XMM0 and XMM1. -/
theorem cImportGate_right_pair :
    GateRight .sysv (boxDecls [.float "double" 64, .float "double" 64]) boxFunction
      ⟨"unbox", [], some "Box", none, some (.sse, .sse)⟩ := by
  have hwf : WellFormed (boxDecls [.float "double" 64, .float "double" 64]) :=
    boxDecls_wellFormed (by simp) (by simp [CType.WellFormed])
  refine ((cImportGate_right_iff .sysv _ hwf).2 boxFunction _ (by rfl)).mpr (.inr ?_)
  refine ⟨_, HasLayout.pair hwf (s := ⟨"Box", _⟩) (List.mem_cons_self) rfl rfl rfl, .inr ⟨?_, rfl⟩⟩
  rw [struct_words .sse .sse (.inl ⟨rfl, rfl⟩)]
  decide

/-- Not every accepted function is: `struct Box { double v; }` comes back in XMM0 under System V, and
is taken from RAX. -/
theorem cImportGate_not_right :
    ¬∀ (t : Target) (decls : List CDecl), WellFormed decls → ∀ cf e, .function cf ∈ decls →
      expandFunction t.abi (computeStructLayouts decls) cf = .ok e → GateRight t decls cf e := by
  intro h
  have hwf : WellFormed (boxDecls [.float "double" 64]) :=
    boxDecls_wellFormed (by simp) (by simp [CType.WellFormed])
  have hright := h .sysv _ hwf boxFunction ⟨"unbox", [], some "Box", none, none⟩
    (by simp [boxDecls, boxFunction]) (by rfl)
  obtain ⟨L, hL, -, hr⟩ := (gateRight_named_iff hwf rfl (by rfl) rfl rfl).mp hright
  have hbox : HasLayout .sysv (boxDecls [.float "double" 64]) (.named "Box")
      (.struct [.scalar 8 .sse]) :=
    HasLayout.struct (s := ⟨"Box", [⟨"v", .float "double" 64⟩]⟩) (by rfl) (by rfl)
      (.cons (.of_scalar rfl) .nil)
  obtain rfl := hL.unique hbox
  have hsse : (Layout.struct [.scalar 8 .sse]).eightbyte 0 = .sse := by decide
  rw [hr.2] at hsse
  cases hsse

end Datara.Cimport
