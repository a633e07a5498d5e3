import Datara.Dmir.ValueFacts
import Datara.Optimizer.OvfElide

/-!
# What the constant walk says of a run

`const_expr_int_value` computes a constant expression over the integers, whatever the types of its
operators. Where these do not matter (`ConstFits`), a value the walk resolves is that constant, all
along a run (`ConstFact`).
-/

namespace Datara.Optimizer

open Dmir Library

section
variable {f : Function} {v : ValueId} {z : Int}

theorem checkedI64_eq_some {y : Int} : checkedI64 y = some z ↔ y = z ∧ IntTy.int.Contains z := by
  unfold checkedI64
  rw [Option.ite_none_right_eq_some, Option.some.injEq]
  exact ⟨fun h => ⟨h.2, h.2 ▸ h.1⟩, fun h => ⟨h.1 ▸ h.2, h.1⟩⟩

theorem toInt_ofInt (hz : IntTy.int.Contains z) : (BitVec.ofInt 64 z).toInt = z :=
  IntTy.decode_encode (T := .int) hz

theorem constExprOp_contains {op : String} {l r : Int} (h : constExprOp op l r = some z) :
    IntTy.int.Contains z := by
  unfold constExprOp at h
  split at h
  case h_7 => cases h
  all_goals exact (checkedI64_eq_some.mp h).2

theorem findInst_split {α : Type} {p : Inst → Option α} {a : α}
    (h : (f.blocks.findSome? fun b => b.instructions.findSome? p) = some a) :
    ∃ b ∈ f.blocks, ∃ before i after, b.instructions = before ++ i :: after ∧ p i = some a := by
  obtain ⟨b, hb, h⟩ := List.exists_of_findSome?_eq_some h
  obtain ⟨i, hi, h⟩ := List.exists_of_findSome?_eq_some h
  obtain ⟨before, after, hi⟩ := List.append_of_mem hi
  exact ⟨b, hb, before, i, after, hi, h⟩

/-- Where a search that lets a later match replace an earlier one found what it found. -/
theorem exists_of_foldl_or {α : Type} {p : Inst → Option α} {is : List Inst} {a : α}
    (h : is.foldl (fun found i => (p i).or found) none = some a) : ∃ i ∈ is, p i = some a := by
  suffices hfold : ∀ found, is.foldl (fun found i => (p i).or found) found = some a →
      found = some a ∨ ∃ i ∈ is, p i = some a from
    (hfold none h).resolve_left fun he => nomatch he
  clear h
  induction is with
  | nil => exact fun found h => .inl h
  | cons i is ih =>
    intro found h
    rcases ih _ h with h | ⟨j, hj, h⟩
    · rcases Option.or_eq_some_iff.mp h with h | ⟨-, h⟩
      · exact .inr ⟨i, List.mem_cons_self, h⟩
      · exact .inl h
    · exact .inr ⟨j, List.mem_cons_of_mem _ hj, h⟩

theorem constIntValue_def (h : constIntValue f v = some z) :
    ∃ b ∈ f.blocks, ∃ before after c, b.instructions = before ++ .constInt v c :: after ∧
      z = c.toInt := by
  obtain ⟨b, hb, before, i, after, hi, hp⟩ := findInst_split h
  cases i with
  | constInt d c =>
    simp only [Option.ite_none_right_eq_some, Option.some.injEq] at hp
    obtain ⟨rfl, rfl⟩ := hp
    exact ⟨b, hb, before, after, c, hi, rfl⟩
  | _ => cases hp

theorem binOpOf_def {op : String} {l r : ValueId} (h : binOpOf f v = some (op, l, r)) :
    ∃ b ∈ f.blocks, ∃ before after ty, b.instructions = before ++ .binOp v op l r ty :: after := by
  obtain ⟨b, hb, before, i, after, hi, hp⟩ := findInst_split h
  cases i with
  | binOp d op' l' r' ty =>
    simp only [Option.ite_none_right_eq_some, Option.some.injEq, Prod.mk.injEq] at hp
    obtain ⟨rfl, rfl, rfl, rfl⟩ := hp
    exact ⟨b, hb, before, after, ty, hi⟩
  | _ => cases hp

theorem constExprIntValueDepth_succ {k : Nat} (h : constExprIntValueDepth f (k + 1) v = some z) :
    constIntValue f v = some z ∨ ∃ op l r x y, binOpOf f v = some (op, l, r) ∧
      constExprIntValueDepth f k l = some x ∧ constExprIntValueDepth f k r = some y ∧
      constExprOp op x y = some z := by
  unfold constExprIntValueDepth at h
  split at h
  case h_1 z' hc =>
    cases h
    exact .inl hc
  case h_2 =>
    split at h
    case h_1 op l r hb =>
      obtain ⟨x, hx, h⟩ := Option.bind_eq_some_iff.mp h
      obtain ⟨y, hy, h⟩ := Option.bind_eq_some_iff.mp h
      exact .inr ⟨op, l, r, x, y, hb, hx, hy, h⟩
    case h_2 => cases h

theorem constExprIntValueDepth_contains {k : Nat} (h : constExprIntValueDepth f k v = some z) :
    IntTy.int.Contains z := by
  cases k with
  | zero => cases h
  | succ k =>
    rcases constExprIntValueDepth_succ h with hc | ⟨op, l, r, x, y, -, -, -, hop⟩
    · obtain ⟨b, hb, before, after, c, hi, rfl⟩ := constIntValue_def hc
      exact IntTy.contains_decode_int c
    · exact constExprOp_contains hop

theorem constExprIntValueDepth_dest {k : Nat} (h : constExprIntValueDepth f k v = some z) :
    ∃ b ∈ f.blocks, ∃ before i after, b.instructions = before ++ i :: after ∧ v ∈ i.dests := by
  cases k with
  | zero => cases h
  | succ k =>
    rcases constExprIntValueDepth_succ h with hc | ⟨op, l, r, x, y, hb, -⟩
    · obtain ⟨b, hb, before, after, c, hi, -⟩ := constIntValue_def hc
      exact ⟨b, hb, before, _, after, hi, List.mem_singleton_self v⟩
    · obtain ⟨b, hb, before, after, ty, hi⟩ := binOpOf_def hb
      exact ⟨b, hb, before, _, after, hi, List.mem_singleton_self v⟩

end

/-- The constant expression of a value means what the walk makes of it: its operators, each at its
own type, have no other result on the constants than the exact one. -/
def ConstFits (h : Host) (f : Function) : Nat → ValueId → Prop
  | 0, _ => True
  | depth + 1, vid => ∀ b ∈ f.blocks, ∀ op l r ty, .binOp vid op l r ty ∈ b.instructions →
      (ConstFits h f depth l ∧ ConstFits h f depth r) ∧
        ∀ x y z res, constExprIntValueDepth f depth l = some x →
          constExprIntValueDepth f depth r = some y → constExprOp op x y = some z →
          h.evalBinOp (vid ∈ f.provenNoOverflow) op ty (.int (.ofInt 64 x)) (.int (.ofInt 64 y)) =
            .ok res → res = .int (.ofInt 64 z)

theorem ConstFits.of_no_binOp {h : Host} {f : Function} {v : ValueId}
    (hv : ∀ b ∈ f.blocks, ∀ op l r ty, Inst.binOp v op l r ty ∉ b.instructions) :
    ∀ k, ConstFits h f k v
  | 0 => trivial
  | _ + 1 => fun b hb op l r ty hi => absurd hi (hv b hb op l r ty)

/-- What is known of a value: if the walk resolves it, and its expression means that, it is that. -/
def ConstFact (h : Host) (f : Function) (v : ValueId) (val : Val) : Prop :=
  ∀ k z, ConstFits h f k v → constExprIntValueDepth f k v = some z → val = .int (.ofInt 64 z)

section
variable {P : Program} {f : Function} {n : Nat} {idom : Cfg.Idom} {b : BasicBlock}
  {before : List Inst} {s : Frame × World}

theorem ConstFact.of_head (V : Verified n f idom) (hb : b ∈ f.blocks) {v : ValueId}
    (hv : v ∈ f.headDefs b) (val : Val) : ConstFact P.host f v val := by
  intro k z _ hz
  obtain ⟨b', hb', before, i, after, hi, hd⟩ := constExprIntValueDepth_dest hz
  exact absurd hv (V.head_not_dest hb' hb hi hd)

theorem ConstFact.of_inst (V : Verified n f idom) (hat : At f idom b before s.1)
    (hfacts : FactsAt f idom (ConstFact P.host f) b before s.1.regs) {i : Inst} {rest : List Inst}
    {ws : List (ValueId × Val)} {vars : String → Val} {w : World} (hcode : s.1.code = i :: rest)
    (hp : (s.1.effect P i).perform P f s.1.vars s.2 = .done ws vars w) :
    ∀ x ∈ ws, ConstFact P.host f x.1 x.2 := by
  intro x hx k z hfits hz
  have hd : x.1 ∈ i.dests := Effect.perform_dests hp ▸ List.mem_map_of_mem hx
  have hi : b.instructions = before ++ i :: rest := hcode ▸ hat.code
  cases k with
  | zero => cases hz
  | succ k =>
    rcases constExprIntValueDepth_succ hz with hc | ⟨op, l, r, y, y', hdef, hy, hy', hop⟩
    · obtain ⟨b', hb', before', after', c, hi', rfl⟩ := constIntValue_def hc
      obtain ⟨-, -, rfl⟩ := V.def_unique hat.mem hb' hi hd hi' (List.mem_singleton_self _)
      cases hp
      rw [List.mem_singleton.mp hx, BitVec.ofInt_toInt]
    · obtain ⟨b', hb', before', after', ty, hi'⟩ := binOpOf_def hdef
      obtain ⟨rfl, -, rfl⟩ := V.def_unique hat.mem hb' hi hd hi' (List.mem_singleton_self _)
      obtain ⟨⟨hl, hr⟩, hres⟩ := hfits b hat.mem op l r ty (by rw [hi]; simp)
      have hl := hfacts l (V.use_available hat.mem hi (by simp [instructionUses])) k y hl hy
      have hr := hfacts r (V.use_available hat.mem hi (by simp [instructionUses])) k y' hr hy'
      obtain ⟨res, -, hws, hev⟩ := @binOp_result _ _ _ _ _ _ _ _ _ rest _ _ hat.fn hp
      rw [hws] at hx
      rw [hl, hr] at hev
      rw [List.mem_singleton.mp hx]
      exact hres y y' z res hy hy' hop hev

end

end Datara.Optimizer
