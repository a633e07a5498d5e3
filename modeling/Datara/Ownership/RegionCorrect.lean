import Datara.Dmir.Availability
import Datara.Dmir.Reachability
import Datara.Ownership.Region

/-!
# Region escape analysis against runs

A run of the function, with every reference that leads to a kept object in view. The analysis follows
an object through variables: a copy of a variable that holds it has the object's allocation in its
class (`Confines.regs`). The uses that hand such an object out were seeds, so they do not meet one that
is kept.

**Where all flow is through variables, nothing outside the frame leads to a kept object**
(`computeEscapeSet_sound`). A value that carries an object some other way, through a `Select` say, is
in no class with it, and its uses mark nothing (`computeEscapeSet_not_sound`).
-/

namespace Datara.Ownership

open Dmir Library

namespace EscapeQuery

variable (q : EscapeQuery) (order : HashOrder q.f)

/-! ## The claim -/

/-- An object that a `StructInit` of a cyclic class of the function made. -/
def Own (r : Ref) : Prop :=
  ∃ d c fs k, r = .site q.f.name d k ∧ .structInit d c fs ∈ q.f.insts ∧ c ∈ q.cyclicClasses

/-- An object that a `StructInit` outside the escape set made. -/
def Kept (r : Ref) : Prop :=
  ∃ d c fs k, r = .site q.f.name d k ∧ .structInit d c fs ∈ q.f.insts ∧
    d ∉ q.computeEscapeSet order

/-- An object of a cyclic class that the escape set leaves in the frame. -/
def KeptCyclic (r : Ref) : Prop :=
  ∃ d c fs k, r = .site q.f.name d k ∧ .structInit d c fs ∈ q.f.insts ∧ c ∈ q.cyclicClasses ∧
    d ∉ q.computeEscapeSet order

/-- Nothing that outlives the frame leads to an object the frame keeps: nothing held outside, no
returned value, and no object of the frame's own that the escape set sends to the heap. -/
structure Confined (s : Frame × World) : Prop where
  outer : ∀ r, s.2.Outer r → ¬s.2.LeadsTo (q.KeptCyclic order) r
  returned : ∀ r, s.1.code = [] → s.1.term.exit q.f s.1.regs = .ret (.ref r) →
    ¬s.2.LeadsTo (q.KeptCyclic order) r
  heap : ∀ r, s.2.LeadsTo (q.KeptCyclic order) r → q.Kept order r ∨ s.2.Unborn q.f.name r

/-! ## The condition -/

/-- An own object that nothing held outside leads to. -/
def Private (w : World) (r : Ref) : Prop := q.Own r ∧ ∀ x, w.Outer x → ¬w.Leads x r

/-- The value leads to a private object. -/
def Carries (s : Frame × World) (v : ValueId) : Prop :=
  ∃ r, s.1.regs v = .ref r ∧ s.2.LeadsTo (q.Private s.2) r

/-- An allocation, or a copy of a variable of the frame. -/
def copies : Inst → Bool
  | .structInit _ _ _ => true
  | .loadVar _ n => n ∉ q.globals
  | _ => false

/-- A value that nothing but allocations and copies of variables defines. -/
def Tracked (v : ValueId) : Prop :=
  (∀ p ∈ q.f.params, p.val ≠ v) ∧ (∀ b ∈ q.f.blocks, ∀ p ∈ b.params, p.val ≠ v) ∧
    ∀ i ∈ q.f.insts, v ∈ i.dests → q.copies i = true

instance (v : ValueId) : Decidable (q.Tracked v) :=
  inferInstanceAs (Decidable ((∀ p ∈ q.f.params, p.val ≠ v) ∧
    (∀ b ∈ q.f.blocks, ∀ p ∈ b.params, p.val ≠ v) ∧ ∀ i ∈ q.f.insts, v ∈ i.dests → q.copies i = true))

/-- The value holds an own object whose allocation is in its class. -/
def Owns (s : Frame × World) (v : ValueId) : Prop :=
  ∃ d c fs k, s.1.regs v = .ref (.site q.f.name d k) ∧ .structInit d c fs ∈ q.f.insts ∧
    c ∈ q.cyclicClasses ∧ q.root v = q.root d

/-- What an instruction stores or hands out, and carries a private object, is tracked. Besides: a
module variable is assigned one only where assignments are seeds; a store between two cyclic classes
is into an own object; an object of another class is put into an object only where fields are
seeds. -/
def InstCovered (s : Frame × World) : Inst → Prop
  | .assignVar n v => q.Carries s v → q.Tracked v ∧ (n ∈ q.globals → q.assignVarSeeds = true)
  | .setField o _ v => q.Carries s v → q.Tracked v ∧
      (q.isCyclic order v = true → q.isCyclic order o = true → q.Owns s o)
  | .structInit _ _ fs => ∀ v ∈ fs.map Prod.snd, q.Carries s v → q.Tracked v ∧
      (q.isCyclic order v = true ∨ q.structinitFieldSeeds = true)
  | .call _ _ args _ => ∀ v ∈ args, q.Carries s v → q.Tracked v
  | .methodCall _ o _ args _ => ∀ v ∈ o :: args, q.Carries s v → q.Tracked v
  | i => ∀ v ∈ i.handsOver, ¬q.Carries s v

/-- All flow of private objects is through variables. -/
structure Covered (s : Frame × World) : Prop where
  inst : ∀ i rest, s.1.code = i :: rest → q.InstCovered order s i
  ret : ∀ v, s.1.code = [] → s.1.term = .ret (some v) → q.Carries s v → q.Tracked v

/-- A variable is not assigned under one name and copied under another. -/
def SlotsApart : Prop :=
  ∀ n m d v, .loadVar d n ∈ q.f.insts → .assignVar m v ∈ q.f.insts → n ∉ q.globals →
    m ∉ q.globals → q.f.slotOf n = q.f.slotOf m → n = m

/-! ## The invariant -/

/-- The class of a value has the allocation of an object. -/
def SameRoot (v : ValueId) (r : Ref) : Prop :=
  ∃ d k, r = .site q.f.name d k ∧ q.root v = q.root d

/-- A set of references that is closed backwards and holds the kept objects, and how the references
in it are held. -/
structure Confines (dead : Ref → Prop) (s : Frame × World) : Prop where
  target : ∀ r, q.KeptCyclic order r → dead r
  kept : ∀ r, dead r → q.Kept order r ∨ s.2.Unborn q.f.name r
  world : s.2.AgreeOff dead s.2
  regs : ∀ v, q.Tracked v → ∀ r, s.1.regs v = .ref r → dead r → q.SameRoot v r
  vars : ∀ x r, s.1.vars x = .ref r → dead r → ∃ n v, .assignVar n v ∈ q.f.insts ∧
    n ∉ q.globals ∧ q.f.slotOf n = x ∧ q.SameRoot v r

/-- The references that lead to a kept object, and those to objects that were not made yet. -/
def Shut (w : World) (r : Ref) : Prop := w.LeadsTo (q.KeptCyclic order) r ∨ w.Unborn q.f.name r

end EscapeQuery

namespace EscapeQuery.Confines

variable {q : EscapeQuery} {order : HashOrder q.f} {dead : Ref → Prop} {s : Frame × World}
  {P : Program} {w : World} {i : Inst} {rest : List Inst} {ws : List (ValueId × Val)}
  {vars : String → Val}

theorem not_ext (h : q.Confines order dead s) (n : Nat) : ¬dead (.ext n) := by
  intro hd
  rcases h.kept _ hd with ⟨d, c, fs, k, he, -⟩ | hu
  · cases he
  · exact s.2.unborn_ext n hu

variable {r : Ref}

theorem leadsTo (h : q.Confines order dead s)
    (hr : s.2.LeadsTo (q.KeptCyclic order) r) : dead r := World.LeadsTo.mem h.world h.target hr

theorem not_outer (h : q.Confines order dead s) (ho : s.2.Outer r) : ¬dead r := by
  cases ho with
  | @global n r hg => exact h.world.globals_off n r hg
  | @known r hk => exact h.world.known_off r hk
  | ext n => exact h.not_ext n

/-- The set can be taken to be what leads to a kept object, with what was not made yet. -/
theorem shut (h : q.Confines order dead s) (hb : Born q.f.name s) :
    q.Confines order (q.Shut order s.2) s where
  target r hr := .inl (.of_target hr)
  kept r hr := hr.elim (fun hl => h.kept r (h.leadsTo hl)) .inr
  world := by
    refine World.agreeOff_of (fun r o hr ho field x hx hd => ?_) (fun n x hx hd => ?_)
      fun r hr hd => ?_
    · rcases hd with hl | hu
      · exact hr (.inl (.of_points ⟨o, field, ho, hx⟩ hl))
      · exact hb.world.fields r o (fun hu => hr (.inr hu)) ho field x hx hu
    · rcases hd with hl | hu
      · exact h.world.globals_off n x hx (h.leadsTo hl)
      · exact hb.world.globals_off n x hx hu
    · rcases hd with hl | hu
      · exact h.world.known_off r hr (h.leadsTo hl)
      · exact hb.world.known_off r hr hu
  regs v hv r hr hd := by
    rcases hd with hl | hu
    · exact h.regs v hv r hr (h.leadsTo hl)
    · exact absurd hu (hb.regs v r hr)
  vars x r hr hd := by
    rcases hd with hl | hu
    · exact h.vars x r hr (h.leadsTo hl)
    · exact absurd hu (hb.vars x r hr)

variable {v : ValueId}

theorem carries (h : q.Confines order (q.Shut order s.2) s) (hb : Born q.f.name s)
    (hr : s.1.regs v = .ref r) (hd : q.Shut order s.2 r) : q.Carries s v := by
  rcases hd with ⟨x, hx, hl⟩ | hu
  · obtain ⟨d, c, fs, k, he, hi, hc, -⟩ := id hx
    exact ⟨r, hr, x, ⟨⟨d, c, fs, k, he, hi, hc⟩, fun y hy hyl =>
      h.not_outer hy (.inl ⟨x, hx, hyl⟩)⟩, hl⟩
  · exact absurd hu (hb.regs v r hr)

theorem not_escaped (h : q.Confines order dead s) (hb : Born q.f.name s)
    (hv : q.Tracked v) (hr : s.1.regs v = .ref r) (hd : dead r) :
    q.root v ∉ q.escapedRoots order := by
  obtain ⟨d, k, rfl, hroot⟩ := h.regs v hv r hr hd
  rcases h.kept _ hd with ⟨d', c, fs, k', he, hi, hkept⟩ | hu
  · cases he
    rw [hroot]
    exact fun hesc => hkept ((mem_computeEscapeSet hi).mpr hesc)
  · exact absurd hu (hb.regs v _ hr)

theorem off_of_seed (h : q.Confines order (q.Shut order s.2) s) (hb : Born q.f.name s)
    (hc : q.Carries s v → q.Tracked v ∧ q.root v ∈ q.escapedRoots order) :
    (s.1.regs v).Off (q.Shut order s.2) := by
  intro r hr hd
  obtain ⟨hv, hesc⟩ := hc (h.carries hb hr hd)
  exact h.not_escaped hb hv hr hd hesc

/-! ### Instructions -/

theorem regs_after (h : q.Confines order dead s) (hi : i ∈ q.f.insts) (hcopy : q.copies i = false)
    (hp : (s.1.effect P i).perform P q.f s.1.vars s.2 = .done ws vars w)
    (hv : q.Tracked v) (hr : bindRegs s.1.regs ws v = .ref r) (hd : dead r) :
    q.SameRoot v r := by
  have hnew : v ∉ ws.map (·.1) := by
    rw [Effect.perform_dests hp]
    exact fun hmem => absurd (hv.2.2 i hi hmem) (by rw [hcopy]; exact Bool.false_ne_true)
  rw [bindRegs_of_notMem hnew] at hr
  exact h.regs v hv r hr hd

theorem plain (h : q.Confines order dead s) (hi : i ∈ q.f.insts) (hcopy : q.copies i = false)
    (hplain : i.storesNothing = true) (hover : ∀ v ∈ i.handsOver, (s.1.regs v).Off dead)
    (hp : (s.1.effect P i).perform P q.f s.1.vars s.2 = .done ws vars w) :
    q.Confines order dead (s.1.after rest ws vars, w) := by
  obtain ⟨rfl, hw⟩ := Effect.perform_hands h.not_ext h.world (Inst.effect_hands hplain hover) hp
  have halloc : w.allocs = s.2.allocs := Effect.perform_allocs hp fun d c fs he => by
    have := @Inst.effect_hands _ P.host s.1.fn.provenNoOverflow _ _ hplain hover
    rw [show i.effect P.host s.1.fn.provenNoOverflow s.1.regs = .alloc d c fs from he] at this
    exact this
  refine ⟨h.target, fun r hr => ?_, hw, fun v hv r => h.regs_after hi hcopy hp hv, h.vars⟩
  simp only [World.Unborn, halloc]
  exact h.kept r hr

variable {d : ValueId} {n : String}

/-- A copy of a variable of the frame. The value that was assigned is in the copy's class. -/
theorem load (h : q.Confines order dead s) (hslots : q.SlotsApart)
    (hi : .loadVar d n ∈ q.f.insts) (hn : n ∉ q.globals) :
    q.Confines order dead (s.1.after rest [(d, s.1.vars (q.f.slotOf n))] s.1.vars, s.2) := by
  refine ⟨h.target, h.kept, h.world, fun v hv r hr hd => ?_, h.vars⟩
  by_cases hvd : v = d
  · subst hvd
    have hr : s.1.vars (q.f.slotOf n) = .ref r := by
      simpa only [Frame.after, bindRegs, List.foldl_cons, List.foldl_nil, Function.update_self]
        using hr
    obtain ⟨m, u, hu, hm, hslot, e, k, rfl, hroot⟩ := h.vars _ r hr hd
    obtain rfl := hslots n m v u hi hu hn hm hslot.symm
    exact ⟨e, k, rfl, (root_loadVar hi hu hn).trans hroot⟩
  · have hr : s.1.regs v = .ref r := by
      simpa only [Frame.after, bindRegs, List.foldl_cons, List.foldl_nil,
        Function.update_of_ne hvd] using hr
    exact h.regs v hv r hr hd

section
variable (h : q.Confines order (q.Shut order s.2) s)
include h

theorem assign
    (hb : Born q.f.name s) (hi : .assignVar n v ∈ q.f.insts) (hn : n ∉ q.globals)
    (hcov : q.Carries s v → q.Tracked v) :
    q.Confines order (q.Shut order s.2)
      (s.1.after rest [] (Function.update s.1.vars (q.f.slotOf n) (s.1.regs v)), s.2) := by
  refine ⟨h.target, h.kept, h.world, h.regs, fun x r hr hd => ?_⟩
  by_cases hx : x = q.f.slotOf n
  · have hr : s.1.regs v = .ref r := by simpa [Frame.after, hx] using hr
    have hv := hcov (h.carries hb hr hd)
    exact ⟨n, v, hi, hn, hx.symm, h.regs v hv r hr hd⟩
  · exact h.vars x r (by simpa [Frame.after, hx] using hr) hd

/-- An assignment to a module variable: it was a seed, if it could let a kept object out. -/
theorem assignGlobal
    (hb : Born q.f.name s) (hi : .assignVar n v ∈ q.f.insts) (hn : n ∈ q.globals)
    (hcov : q.InstCovered order s (.assignVar n v)) :
    q.Confines order (q.Shut order s.2)
      (s.1.after rest [] s.1.vars,
        (s.2.setGlobal n (s.1.regs v)).emit (.setGlobal n (s.1.regs v))) := by
  have hoff : (s.1.regs v).Off (q.Shut order s.2) := h.off_of_seed hb fun hc => by
    obtain ⟨hv, hseeds⟩ := hcov hc
    refine ⟨hv, escapes_of_seedsOf hi ?_⟩
    simp [seedsOf, hseeds hn, hn]
  exact ⟨h.target, h.kept, (h.world.setGlobal n hoff).emit _, h.regs, h.vars⟩

theorem setField {o v : ValueId} {field : String} {ob : Obj} (hb : Born q.f.name s)
    (hi : .setField o field v ∈ q.f.insts) (hcov : q.InstCovered order s (.setField o field v))
    (hr : s.1.regs o = .ref r) (ho : s.2.heap r = some ob) :
    q.Confines order (q.Shut order s.2)
      (s.1.after rest [] s.1.vars, s.2.setObj r (ob.set field (s.1.regs v))) := by
  suffices hstored : q.Shut order s.2 r ∨ (s.1.regs v).Off (q.Shut order s.2) from
    ⟨h.target, h.kept, World.agreeOff_setObj h.world ho hstored, h.regs, h.vars⟩
  by_cases hcyc : q.isCyclic order v = true ∧ q.isCyclic order o = true ∧ q.Carries s v
  · obtain ⟨hcv, hco, hc⟩ := hcyc
    obtain ⟨hv, howns⟩ := hcov hc
    obtain ⟨d, c, fs, k, hrd, hs, hcl, hroot⟩ := howns hcv hco
    cases hr.symm.trans hrd
    by_cases hd : d ∈ q.computeEscapeSet order
    · right
      have hesc : q.root o ∈ q.escapedRoots order := hroot ▸ (mem_computeEscapeSet hs).mp hd
      exact h.off_of_seed hb fun _ => ⟨hv, escapes_of_store hi (List.mem_singleton.mpr rfl) hesc hcv⟩
    · exact .inl (.inl (.of_target ⟨d, c, fs, k, rfl, hs, hcl, hd⟩))
  · right
    refine h.off_of_seed hb fun hc => ⟨(hcov hc).1, escapes_of_seedsOf hi ?_⟩
    have hseed : (q.isCyclic order v && q.isCyclic order o) = false := by
      rw [Bool.and_eq_false_iff]
      by_contra hboth
      simp only [not_or, Bool.not_eq_false] at hboth
      exact hcyc ⟨hboth.1, hboth.2, hc⟩
    simp [seedsOf, hseed]

theorem allocKept {c : String} {fs : List (String × ValueId)}
    {fields : List (String × Val)}
    (hi : .structInit d c fs ∈ q.f.insts) (hd : d ∉ q.computeEscapeSet order) :
    q.Confines order (q.Shut order s.2)
      (s.1.after rest [(d, .ref (s.2.alloc q.f.name d c fields).1)] s.1.vars,
        (s.2.alloc q.f.name d c fields).2) := by
  have hnew : q.Shut order s.2 (s.2.alloc q.f.name d c fields).1 := .inr (s.2.unborn_new c fields)
  refine ⟨h.target, fun r hr => ?_, World.agreeOff_of (fun x p hx hp => ?_) h.world.globals_off
    h.world.known_off, fun v hv r hr hd => ?_, h.vars⟩
  · by_cases he : r = (s.2.alloc q.f.name d c fields).1
    · exact .inl ⟨d, c, fs, _, he, hi, hd⟩
    · exact (h.kept r hr).imp_right fun hu => World.unborn_alloc.mpr ⟨hu, he⟩
  · have hne : x ≠ (s.2.alloc q.f.name d c fields).1 := fun he => hx (he ▸ hnew)
    refine h.world.fields x p hx ?_
    rwa [show (s.2.alloc q.f.name d c fields).2.heap x = s.2.heap x from
      Function.update_of_ne hne _ _] at hp
  · by_cases hvd : v = d
    · subst hvd
      refine ⟨v, s.2.allocs (q.f.name, v), ?_, rfl⟩
      simpa [Frame.after, bindRegs, World.alloc, eq_comm] using hr
    · exact h.regs v hv r (by simpa [Frame.after, bindRegs, hvd] using hr) hd

theorem allocEscaping {c : String} {fs : List (String × ValueId)} (hb : Born q.f.name s)
    (hi : .structInit d c fs ∈ q.f.insts) (hcov : q.InstCovered order s (.structInit d c fs))
    (hd : d ∈ q.computeEscapeSet order) :
    let a := s.2.alloc q.f.name d c (fs.map fun f => (f.1, s.1.regs f.2))
    q.Confines order (fun r => q.Shut order s.2 r ∧ r ≠ a.1)
      (s.1.after rest [(d, .ref a.1)] s.1.vars, a.2) := by
  intro a
  have hfields : ∀ f ∈ fs.map (fun f => (f.1, s.1.regs f.2)), f.2.Off (q.Shut order s.2) := by
    intro p hp
    obtain ⟨f, hf, rfl⟩ := List.mem_map.mp hp
    have hmem : f.2 ∈ fs.map Prod.snd := List.mem_map_of_mem hf
    refine h.off_of_seed hb fun hc => ?_
    obtain ⟨hv, hcyc | hseeds⟩ := hcov f.2 hmem hc
    · refine ⟨hv, escapes_of_store hi (List.mem_map_of_mem hf) ?_ hcyc⟩
      exact (mem_computeEscapeSet hi).mp hd
    · refine ⟨hv, ?_⟩
      by_cases hcyc : q.isCyclic order f.2 = true
      · exact escapes_of_store hi (List.mem_map_of_mem hf) ((mem_computeEscapeSet hi).mp hd) hcyc
      · refine escapes_of_seedsOf hi ?_
        simp only [seedsOf, hseeds, if_true, List.mem_filter]
        exact ⟨hmem, by simp [hcyc]⟩
  obtain ⟨o, hheap, ho⟩ := World.alloc_fields_off s.2 q.f.name d c hfields
  have hle : ∀ r, q.Shut order s.2 r ∧ r ≠ a.1 → q.Shut order s.2 r := fun r hr => hr.1
  refine ⟨fun r hr => ⟨h.target r hr, ?_⟩, fun r hr => ?_, World.agreeOff_of (fun x p hx hp fl => ?_)
    (fun n => (h.world.globals_off n).mono hle) fun r hr hd => h.world.known_off r hr hd.1,
    fun v hv r hr hd => ?_, fun x r hr hd => h.vars x r hr hd.1⟩
  · obtain ⟨d', c', fs', k, rfl, hi', -, hd'⟩ := hr
    intro he
    obtain rfl : d' = d := (Ref.site.inj he).2.1
    exact hd' hd
  · exact (h.kept r hr.1).imp_right fun hu => World.unborn_alloc.mpr ⟨hu, hr.2⟩
  · rw [hheap] at hp
    by_cases hnew : x = a.1
    · obtain rfl : o = p := by simpa [a, hnew] using hp
      exact (ho fl).mono hle
    · rw [Function.update_of_ne hnew] at hp
      exact (h.world.fields x p (fun hs => hx ⟨hs, hnew⟩) hp fl).mono hle
  · by_cases hvd : v = d
    · subst hvd
      exact absurd (by simpa [Frame.after, bindRegs] using hr.symm) hd.2
    · exact h.regs v hv r (by simpa [Frame.after, bindRegs, hvd] using hr) hd.1

/-- **An instruction that goes through.** The set changes where an object is made, and only there. -/
theorem after (hb : Born q.f.name s)
    (hglobals : ∀ n, P.isGlobal n = true ↔ n ∈ q.globals) (hslots : q.SlotsApart)
    (hi : i ∈ q.f.insts) (hcov : q.InstCovered order s i)
    (hp : (s.1.effect P i).perform P q.f s.1.vars s.2 = .done ws vars w) :
    ∃ dead, q.Confines order dead (s.1.after rest ws vars, w) := by
  have plainly : q.copies i = false → i.storesNothing = true →
      (∀ v ∈ i.handsOver, (s.1.regs v).Off (q.Shut order s.2)) →
      ∃ dead, q.Confines order dead (s.1.after rest ws vars, w) :=
    fun hcopy hplain hover => ⟨_, h.plain hi hcopy hplain hover hp⟩
  -- nothing of the set is handed over by an instruction that may hand over nothing private
  have silent : (∀ v ∈ i.handsOver, ¬q.Carries s v) →
      ∀ v ∈ i.handsOver, (s.1.regs v).Off (q.Shut order s.2) :=
    fun hno v hv => h.off_of_seed hb fun hc => absurd hc (hno v hv)
  cases i with
  | assignVar n v =>
    simp only [Frame.effect, Inst.effect, Effect.perform] at hp
    by_cases hn : n ∈ q.globals
    · rw [if_pos ((hglobals n).mpr hn)] at hp
      cases hp
      exact ⟨_, h.assignGlobal hb hi hn hcov⟩
    · rw [if_neg fun hg => hn ((hglobals n).mp hg)] at hp
      cases hp
      exact ⟨_, h.assign hb hi hn fun hc => (hcov hc).1⟩
  | setField o field v =>
    simp only [Frame.effect, Inst.effect, Effect.perform] at hp
    split at hp
    case h_1 r ob hro =>
      cases hp
      cases hv : s.1.regs o with
      | ref r' =>
        rw [hv] at hro
        obtain ⟨ob', ho, heq⟩ := Option.map_eq_some_iff.mp hro
        cases heq
        exact ⟨_, h.setField hb hi hcov hv ho⟩
      | _ => rw [hv] at hro; cases hro
    case h_2 => cases hp
  | structInit d c fs =>
    cases hp
    by_cases hd : d ∈ q.computeEscapeSet order
    · exact ⟨_, h.allocEscaping hb hi hcov hd⟩
    · exact ⟨_, h.allocKept hi hd⟩
  | loadVar d n =>
    by_cases hn : n ∈ q.globals
    · exact plainly (by simp [copies, hn]) rfl fun v hv => absurd hv List.not_mem_nil
    · simp only [Frame.effect, Inst.effect, Effect.perform,
        if_neg fun hg => hn ((hglobals n).mp hg)] at hp
      cases hp
      exact ⟨_, h.load hslots hi hn⟩
  | call d g args ty =>
    exact plainly rfl rfl fun v hv => h.off_of_seed hb fun hc =>
      ⟨hcov v hv hc, escapes_of_seedsOf hi hv⟩
  | methodCall d o m args ty =>
    exact plainly rfl rfl fun v hv => h.off_of_seed hb fun hc =>
      ⟨hcov v hv hc, escapes_of_seedsOf hi hv⟩
  | _ => exact plainly rfl rfl (silent hcov)

end

theorem into {b : BasicBlock} {vs : List Val} (h : q.Confines order dead s) (hb : b ∈ q.f.blocks) :
    q.Confines order dead (s.1.into b vs, s.2) := by
  refine ⟨h.target, h.kept, h.world, fun v hv r hr hd => ?_, h.vars⟩
  have hnew : v ∉ ((b.params.map (·.val)).zip vs).map (·.1) := by
    intro hmem
    obtain ⟨e, he, rfl⟩ := List.mem_map.mp hmem
    obtain ⟨p, hp, hpv⟩ := List.mem_map.mp (List.of_mem_zip he).1
    exact hv.2.1 b hb p hp hpv
  exact h.regs v hv r ((bindRegs_of_notMem hnew).symm.trans hr) hd

theorem start {args : List Val} (hout : Outside args w) :
    q.Confines order (fun r => q.KeptCyclic order r ∨ w.Unborn q.f.name r) (q.f.start args, w) := by
  have hsite : ∀ r, q.KeptCyclic order r ∨ w.Unborn q.f.name r → ∃ fn d k, r = .site fn d k := by
    rintro r (⟨d, c, fs, k, rfl, -⟩ | ⟨d, k, rfl, -⟩)
    · exact ⟨_, d, k, rfl⟩
    · exact ⟨_, d, k, rfl⟩
  obtain ⟨hw, hargs⟩ := hout.agreeOff hsite
  obtain ⟨hregs, hvars⟩ := Function.start_off (f := q.f) hargs
  refine ⟨fun r => .inl, fun r hd => hd.imp_left ?_, hw, fun v _ r hr hd => absurd hd (hregs v r hr),
    fun x r hr hd => absurd hd (hvars x r hr)⟩
  rintro ⟨d, c, fs, k, he, hi, -, hesc⟩
  exact ⟨d, c, fs, k, he, hi, hesc⟩

end EscapeQuery.Confines

namespace EscapeQuery

variable {q : EscapeQuery} {order : HashOrder q.f} {P : Program} {args : List Val} {w : World}
  {s : Frame × World}

theorem confines_of_steps (hglobals : ∀ n, P.isGlobal n = true ↔ n ∈ q.globals)
    (hslots : q.SlotsApart) (hout : Outside args w)
    (hcov : ∀ t, P.leafMachine.Steps (q.f.start args, w) t → q.Covered order t)
    (h : P.leafMachine.Steps (q.f.start args, w) s) :
    q.Confines order (q.Shut order s.2) s := by
  suffices hrun : ∀ a, P.leafMachine.Steps (q.f.start args, w) a →
      (∃ dead, q.Confines order dead a) → ∀ t, P.leafMachine.Steps a t →
      ∃ dead, q.Confines order dead t by
    obtain ⟨dead, hd⟩ := hrun _ (.refl _) ⟨_, .start hout⟩ s h
    exact hd.shut (born_of_steps hout h)
  intro a hreach ha t ht
  induction ht with
  | refl => exact ha
  | @head a b t hstep _ ih =>
    refine ih (hreach.snoc hstep) ?_
    obtain ⟨dead, hdead⟩ := ha
    have hb := born_of_steps hout hreach
    obtain ⟨hfn, hcode⟩ := Function.mem_of_steps hreach
    simp only [Program.leafMachine, Program.leafStep] at hstep
    split at hstep
    case h_1 i rest hc =>
      split at hstep
      case h_1 ws vars w' hp =>
        cases hstep
        rw [hfn] at hp
        have hi : i ∈ q.f.insts := Function.mem_insts.mpr (hcode i (hc ▸ List.mem_cons_self))
        exact (hdead.shut hb).after hb hglobals hslots hi ((hcov a hreach).inst i rest hc) hp
      case h_2 => cases hstep
    case h_2 =>
      split at hstep
      case h_1 =>
        split at hstep
        case h_1 F hF =>
          cases hstep
          obtain ⟨b, hget, rfl⟩ := Option.map_eq_some_iff.mp hF
          exact ⟨dead, hdead.into (hfn ▸ (Function.getBlock_eq_some hget).1)⟩
        case h_2 => cases hstep
      case h_2 => cases hstep
      case h_3 => cases hstep

/-- **Nothing that outlives the frame leads to an object the frame keeps**, in a run in which private
objects flow through variables only. -/
theorem computeEscapeSet_sound (P : Program) (q : EscapeQuery) (order : HashOrder q.f)
    (hglobals : ∀ n, P.isGlobal n = true ↔ n ∈ q.globals) (hslots : q.SlotsApart) {args : List Val}
    {w : World} (hout : Outside args w)
    (hcov : ∀ t, P.leafMachine.Steps (q.f.start args, w) t → q.Covered order t) {s : Frame × World}
    (h : P.leafMachine.Steps (q.f.start args, w) s) : q.Confined order s := by
  have hs := confines_of_steps hglobals hslots hout hcov h
  have hb := born_of_steps hout h
  refine ⟨fun r ho hl => hs.not_outer ho (.inl hl), fun r hcode hexit hl => ?_, fun r hl =>
    hs.kept r (.inl hl)⟩
  rcases Function.term_of_steps h with hterm | ⟨b, hb', hterm⟩
  · rw [hterm] at hexit
    cases hexit
  · cases hv : s.1.term with
    | ret v =>
      simp only [hv, Terminator.exit, Exit.ret.injEq, Function.returnValue] at hexit
      cases v with
      | none =>
        split_ifs at hexit
        cases hexit
      | some v =>
        split_ifs at hexit
        have hd : q.Shut order s.2 r := .inl hl
        have htracked := (hcov s h).ret v hcode hv (hs.carries hb hexit hd)
        refine hs.not_escaped hb htracked hexit hd (escapes_of_returned hb' ?_)
        rw [← hterm, hv]
        exact List.mem_singleton.mpr rfl
    | condBranch c t ta e ea =>
      simp only [hv, Terminator.exit] at hexit
      split_ifs at hexit
    | branch t ta => rw [hv] at hexit; cases hexit
    | unreachable => rw [hv] at hexit; cases hexit

end EscapeQuery

/-! ## Where it holds, and where it fails -/

/-- Two objects of a cyclic class, linked both ways through a copy of the variable `a`. -/
def linkedPair : Function where
  name := "pair"
  returnType := "Unit"
  blocks := [{
    id := 0
    instructions := [.structInit 0 "A" [], .assignVar "a" 0, .structInit 1 "A" [("peer", 0)],
      .loadVar 2 "a", .setField 2 "peer" 1]
    terminator := .ret none }]

/-- A query about a function, for the class `A`. -/
def cyclicA (f : Function) (assignVarSeeds structinitFieldSeeds : Bool) : EscapeQuery :=
  ⟨f, ["A"], [], assignVarSeeds, structinitFieldSeeds⟩

/-- The pair stays in the frame, with both settings of the back ends. -/
example : ∀ a s, (cyclicA linkedPair a s).computeEscapeSet (.source _) = [] := by decide

/-- The store into the pair's first object finds that object. -/
def storesIntoFirst (s : Frame × World) : Bool :=
  match s.1.code with
  | .setField _ _ _ :: _ => s.1.regs 2 = .ref (.site "pair" 0 0)
  | _ => true

theorem EscapeQuery.computeEscapeSet_sound_pair :
    ∃ s, (Program.bare []).leafMachine.Steps (linkedPair.start [], World.initial) s ∧
      s.1.code = [] ∧ (cyclicA linkedPair true true).Confined (.source _) s := by
  have hsteps : (Program.bare []).leafMachine.Steps (linkedPair.start [], World.initial) _ :=
    .head rfl (.head rfl (.head rfl (.head rfl (.head rfl (.refl _)))))
  have hout : Outside [] World.initial := World.outside_initial fun v hv => by cases hv
  refine ⟨_, hsteps, rfl, computeEscapeSet_sound (Program.bare []) (cyclicA linkedPair true true)
    (.source _) (fun n => by simp [Program.bare, cyclicA]) ?_ hout (fun t ht => ⟨?_, ?_⟩) hsteps⟩
  · intro n m d v hl ha _ _ _
    simp only [cyclicA, linkedPair, Function.insts, List.flatMap_cons, List.flatMap_nil,
      List.append_nil, List.mem_cons, Inst.loadVar.injEq, Inst.assignVar.injEq, reduceCtorEq,
      List.not_mem_nil, or_false, false_or] at hl ha
    rw [hl.2, ha.1]
  · intro i rest hcode
    obtain ⟨b, hb, hi⟩ := (Function.mem_of_steps ht).2 i (hcode ▸ List.mem_cons_self)
    obtain rfl := List.mem_singleton.mp hb
    simp only [List.mem_cons, List.not_mem_nil, or_false] at hi
    rcases hi with rfl | rfl | rfl | rfl | rfl
    · exact fun v hv => absurd hv List.not_mem_nil
    · exact fun _ => ⟨by decide, fun hg => absurd hg List.not_mem_nil⟩
    · intro v hv _
      obtain rfl := List.mem_singleton.mp hv
      exact ⟨by decide, .inl (by decide)⟩
    · exact fun v hv => absurd hv List.not_mem_nil
    · have hfirst := Machine.forall_of_always (n := 8) (p := storesIntoFirst) rfl ht
      rw [storesIntoFirst, hcode] at hfirst
      refine fun _ => ⟨by decide, fun _ _ => ⟨0, "A", [], 0, of_decide_eq_true hfirst, ?_⟩⟩
      exact ⟨List.mem_cons_self, List.mem_cons_self, by decide⟩
  · intro v _ hterm _
    rcases Function.term_of_steps ht with h | ⟨b, hb, h⟩
    · cases hterm.symm.trans h
    · obtain rfl := List.mem_singleton.mp hb
      cases hterm.symm.trans h

/-- An object of a cyclic class, returned through a `Select`. -/
def returnsSelected : Function where
  name := "mk"
  returnType := "A"
  blocks := [{
    id := 0
    instructions := [.structInit 0 "A" [], .constBool 1 true, .select 2 1 0 0 "A"]
    terminator := .ret (some 2) }]

/-- The caller is handed an object of the dead frame. -/
theorem EscapeQuery.computeEscapeSet_not_sound :
    ¬∀ (P : Program) (q : EscapeQuery) (order : HashOrder q.f),
      (∀ n, P.isGlobal n = true ↔ n ∈ q.globals) → ∀ args w, Outside args w → ∀ s,
        P.leafMachine.Steps (q.f.start args, w) s → q.Confined order s := by
  intro h
  have hsteps : (Program.bare []).leafMachine.Steps (returnsSelected.start [], World.initial) _ :=
    .head rfl (.head rfl (.head rfl (.refl _)))
  have hconfined := h (Program.bare []) (cyclicA returnsSelected true true) (.source _)
    (fun n => by simp [Program.bare, cyclicA]) [] World.initial
    (World.outside_initial fun v hv => by cases hv) _ hsteps
  refine hconfined.returned (.site "mk" 0 0) rfl rfl (.of_target ⟨0, "A", [], 0, rfl, ?_⟩)
  exact ⟨List.mem_cons_self, List.mem_cons_self, by decide⟩

end Datara.Ownership
