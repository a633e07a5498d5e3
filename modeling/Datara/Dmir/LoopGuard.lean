import Datara.Dmir.Loops
import Datara.Dmir.ValueFacts

/-!
# Guarded loops

A loop whose header branches on a test of one of its own parameters. Where the header is left into
the loop only with the test passed (`LeavesWhenFalse`), the parameter has in the whole body what the
test tells of it (`GuardInv`): a natural loop is entered through its header, and the parameter is
bound there only.
-/

namespace Datara.Dmir

open Library

/-- At the end of the header the loop is left when the condition is false. -/
def LeavesWhenFalse (f : Function) (lp : NaturalLoop) (s : Frame × World) : Prop :=
  ∀ header c t ta e ea, f.getBlock lp.header = some header →
    header.terminator = .condBranch c t ta e ea → s.1.code = [] → s.1.term = header.terminator →
    (s.1.regs c).truthy = false → e ∉ lp.blocks

/-- A header parameter, and the instruction of the header that computes the branch condition. -/
structure Guard (f : Function) (lp : NaturalLoop) where
  header : BasicBlock
  cond : ValueId
  iVid : ValueId
  test : Inst
  header_get : f.getBlock lp.header = some header
  branches : ∃ t ta e ea, header.terminator = .condBranch cond t ta e ea
  param : iVid ∈ header.params.map (·.val)
  test_mem : test ∈ header.instructions
  cond_mem : cond ∈ test.dests

section
variable {P : Program} {f : Function} {lp : NaturalLoop} {n : Nat} {idom : Cfg.Idom}
  {b : BasicBlock} {before : List Inst} {s : Frame × World} {fact : Val → Prop}

namespace Guard
variable (G : Guard f lp)
include G

theorem header_spec : G.header ∈ f.blocks ∧ G.header.id = lp.header :=
  Function.getBlock_eq_some G.header_get

theorem iVid_headDef : G.iVid ∈ f.headDefs G.header := List.mem_append_right _ G.param

theorem iVid_not_dest (V : Verified n f idom) (hb : b ∈ f.blocks) {i : Inst} {rest : List Inst}
    (hi : b.instructions = before ++ i :: rest) : G.iVid ∉ i.dests := fun hd =>
  V.head_not_dest hb G.header_spec.1 hi hd G.iVid_headDef

theorem iVid_not_param (V : Verified n f idom) (hb : b ∈ f.blocks) (hne : b.id ≠ lp.header) :
    G.iVid ∉ b.params.map (·.val) := by
  intro hp
  have hs := site_of_headDefs V.once hb (List.mem_append_right _ hp)
  rw [site_of_headDefs V.once G.header_spec.1 G.iVid_headDef] at hs
  exact hne ((Prod.mk.inj (Option.some.inj hs)).1.symm.trans G.header_spec.2)

theorem ne_header (V : Verified n f idom) (hb : b ∈ f.blocks) {t : BasicBlockId}
    {args : List ValueId} (ht : b.terminator = .branch t args) : b.id ≠ lp.header := by
  intro he
  have hsame : f.getBlock b.id = some G.header := he ▸ G.header_get
  rw [Function.getBlock_of_mem V.ids hb] at hsame
  obtain ⟨t', ta, e, ea, hterm⟩ := G.branches
  rw [Option.some.inj hsame, hterm] at ht
  cases ht

end Guard

/-- The parameter satisfies the fact in the body, and in the header once the test was passed. -/
structure GuardInv (G : Guard f lp) (fact : Val → Prop) (b : BasicBlock) (before : List Inst)
    (regs : ValueId → Val) : Prop where
  body : b.id ∈ lp.blocks → b.id ≠ lp.header → fact (regs G.iVid)
  tested : b.id = lp.header → G.cond ∈ destsOf before → (regs G.cond).truthy = true →
    fact (regs G.iVid)

namespace GuardInv
variable {G : Guard f lp}

theorem start (hentry : f.entryBlock ∉ lp.blocks) (hid : b.id = f.entryBlock)
    (regs : ValueId → Val) : GuardInv G fact b [] regs where
  body hbody := absurd (hid ▸ hbody) hentry
  tested _ hc := by cases hc

theorem after (V : Verified n f idom) (hat : At f idom b before s.1)
    (h : GuardInv G fact b before s.1.regs) {i : Inst} {rest : List Inst}
    {ws : List (ValueId × Val)} {vars : String → Val} {w : World} (hcode : s.1.code = i :: rest)
    (hp : (s.1.effect P i).perform P f s.1.vars s.2 = .done ws vars w)
    (htest : i = G.test → b = G.header → ((s.1.after rest ws vars).regs G.cond).truthy = true →
      fact (s.1.regs G.iVid)) :
    GuardInv G fact b (before ++ [i]) (s.1.after rest ws vars).regs := by
  have hi : b.instructions = before ++ i :: rest := hcode ▸ hat.code
  have hold : ∀ v, v ∉ i.dests → (s.1.after rest ws vars).regs v = s.1.regs v :=
    fun v hv => bindRegs_of_notMem (Effect.perform_dests hp ▸ hv)
  have hiVid := hold _ (G.iVid_not_dest V hat.mem hi)
  refine ⟨fun hbody hne => ?_, fun hid hc ht => ?_⟩
  · rw [hiVid]
    exact h.body hbody hne
  · rw [hiVid]
    by_cases hc' : G.cond ∈ i.dests
    · obtain ⟨pre, post, hpre⟩ := List.append_of_mem G.test_mem
      obtain ⟨hb, -, hi'⟩ := V.def_unique hat.mem G.header_spec.1 hi hc' hpre G.cond_mem
      exact htest hi' hb ht
    · rw [destsOf, List.flatMap_append, List.mem_append] at hc
      exact h.tested hid (hc.resolve_right (by simpa using hc')) (hold _ hc' ▸ ht)

/-- A block of the body is entered from the loop, and from the header with the test passed. -/
theorem into (V : Verified n f idom) (hlp : lp.Closed f idom) (hleaves : LeavesWhenFalse f lp s)
    (hat : At f idom b b.instructions s.1) (h : GuardInv G fact b b.instructions s.1.regs)
    {c : BasicBlock} {vs : List Val} (hexit : b.terminator.exit f s.1.regs = .goto c.id vs)
    (ht : c.id ∈ b.terminator.targets) (hc : c ∈ f.blocks) :
    GuardInv G fact c [] (s.1.into c vs).regs := by
  refine ⟨fun hbody hne => ?_, fun _ hd => by cases hd⟩
  have hold : (s.1.into c vs).regs G.iVid = s.1.regs G.iVid := by
    refine bindRegs_of_notMem fun hm => G.iVid_not_param V hc hne ?_
    obtain ⟨x, hx, he⟩ := List.mem_map.mp hm
    exact he ▸ (List.of_mem_zip hx).1
  rw [hold]
  have hpred : b.id ∈ lp.blocks :=
    hlp.preds c.id hbody hne b.id (Cfg.mem_predecessors.mpr ((V.mem_successors hat.mem).mpr ht))
  by_cases hb : b.id = lp.header
  · obtain ⟨hhmem, hhid⟩ := G.header_spec
    obtain rfl : b = G.header := List.inj_on_of_nodup_map V.ids hat.mem hhmem (hb.trans hhid.symm)
    obtain ⟨t, ta, e, ea, hterm⟩ := G.branches
    have hcode : s.1.code = [] := List.self_eq_append_right.mp hat.code
    refine h.tested hb (List.mem_flatMap.mpr ⟨_, G.test_mem, G.cond_mem⟩) ?_
    by_contra hfalse
    have hfalse := Bool.eq_false_iff.mpr hfalse
    have hout := hleaves G.header G.cond t ta e ea G.header_get hterm hcode hat.term hfalse
    rw [hterm] at hexit
    simp only [Terminator.exit, hfalse, Bool.false_eq_true, if_false, Exit.goto.injEq] at hexit
    exact hout (hexit.1 ▸ hbody)
  · exact h.body hpred hb

end GuardInv

end

end Datara.Dmir
