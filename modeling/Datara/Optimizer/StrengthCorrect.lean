import Datara.Library.Masks
import Datara.Optimizer.ScalarCorrect
import Datara.Optimizer.Strength

/-!
# Strength reduction, correct where no value is overlooked

What is known of a value is so whenever it is available (`Fact`, `factsAt_of_steps`), so what stands in the place of an
instruction has its effect (`stands_of_facts`): the identities on integers, and the masks on dividends that are not
negative. The outcome is accepted, runs the same, and its new values are its own
(`applyStrengthReduction_preserves`).
-/

namespace Datara.Optimizer

open Dmir Library

/-! ## Operators on integers -/

/-- The value an identity yields. -/
def Identity.value (a b : BitVec 64) : Identity → BitVec 64
  | .left => a
  | .right => b
  | .zero => 0

section
variable {h : Host} {safe : Bool} {op : String} {a b c : BitVec 64} {lC rC : Option (BitVec 64)} {x : Identity}

theorem evalBinOp_int (op : String) (a b : BitVec 64) :
    h.evalBinOp safe op "Int" (.int a) (.int b) = evalIntBinOp safe op "Int" a b := by
  have hstr : mentionsStr "Int" = false := by decide
  simp [Host.evalBinOp, hstr, Val.bits]

theorem checked_int {z : Int} (hz : IntTy.int.Contains z) : IntTy.int.checked z = .ok z := by
  rw [IntTy.checked, if_neg (by decide), if_pos hz]

theorem checked_int_error {z : Int} (hz : ¬IntTy.int.Contains z) : IntTy.int.checked z = .error .overflow := by
  rw [IntTy.checked, if_neg (by decide), if_neg hz]

/-- What an operator of type `Int` comes to. -/
theorem evalIntBinOp_eq {o : IntOp} (hop : op = o.spelling) : evalIntBinOp safe op "Int" a b =
    match IntTy.int.eval (if safe then o.unchecked else o) a.toInt b.toInt with
    | .error t => .error t
    | .ok (.truth t) => .ok (.bool t)
    | .ok (.num z) => .ok (.int (BitVec.ofInt 64 z)) := by
  have hT : IntTy.ofRepr "Int" = .int := IntTy.ofRepr_repr .int
  have hand : o.spelling ≠ "&&" := by cases o <;> decide
  have hor : o.spelling ≠ "||" := by cases o <;> decide
  have hbool : "Int" ≠ "Bool" := by decide
  subst hop
  simp only [evalIntBinOp, if_neg hand, if_neg hor, IntOp.ofSpelling_spelling, hT, if_neg hbool]
  rfl

/-- A result that is a value of the type. -/
theorem evalIntBinOp_num {o : IntOp} {z : Int} (hop : op = o.spelling)
    (hz : IntTy.int.eval (if safe then o.unchecked else o) a.toInt b.toInt = .ok (.num z)) :
    evalIntBinOp safe op "Int" a b = .ok (.int (BitVec.ofInt 64 z)) := by
  rw [evalIntBinOp_eq hop, hz]

theorem evalIntBinOp_error {o : IntOp} {t : Trap} (hop : op = o.spelling)
    (hz : IntTy.int.eval (if safe then o.unchecked else o) a.toInt b.toInt = .error t) :
    evalIntBinOp safe op "Int" a b = .error t := by
  rw [evalIntBinOp_eq hop, hz]

theorem eval_arith {o : IntOp} {z : Int} (hop : op = o.spelling) (hz : IntTy.int.Contains z)
    (hchecked : IntTy.int.eval o a.toInt b.toInt = IntResult.num <$> IntTy.int.checked z)
    (hunchecked : IntTy.int.eval o.unchecked a.toInt b.toInt = .ok (.num (IntTy.int.wrap z))) :
    evalIntBinOp safe op "Int" a b = .ok (.int (BitVec.ofInt 64 z)) := by
  apply evalIntBinOp_num hop
  cases safe with
  | false => exact hchecked.trans (congrArg (IntResult.num <$> ·) (checked_int hz))
  | true => exact hunchecked.trans (congrArg (fun z => Except.ok (IntResult.num z)) (IntTy.wrap_of_contains hz))

theorem eval_add (hz : IntTy.int.Contains (a.toInt + b.toInt)) :
    evalIntBinOp safe "+" "Int" a b = .ok (.int (BitVec.ofInt 64 (a.toInt + b.toInt))) :=
  eval_arith (o := .add) rfl hz rfl rfl

theorem eval_sub (hz : IntTy.int.Contains (a.toInt - b.toInt)) :
    evalIntBinOp safe "-" "Int" a b = .ok (.int (BitVec.ofInt 64 (a.toInt - b.toInt))) :=
  eval_arith (o := .sub) rfl hz rfl rfl

theorem eval_mul (hz : IntTy.int.Contains (a.toInt * b.toInt)) :
    evalIntBinOp safe "*" "Int" a b = .ok (.int (BitVec.ofInt 64 (a.toInt * b.toInt))) :=
  eval_arith (o := .mul) rfl hz rfl rfl

theorem eval_div (hb : b.toInt ≠ 0) (hz : IntTy.int.Contains (a.toInt.tdiv b.toInt)) :
    evalIntBinOp safe "/" "Int" a b = .ok (.int (BitVec.ofInt 64 (a.toInt.tdiv b.toInt))) := by
  apply evalIntBinOp_num (o := .div) rfl
  rw [show (if safe then IntOp.div.unchecked else IntOp.div) = .div from ite_self _]
  show (if b.toInt = 0 then _ else _) = _
  rw [if_neg hb, checked_int hz]
  rfl

theorem eval_rem (hb : 0 < b.toInt) :
    evalIntBinOp safe "%" "Int" a b = .ok (.int (BitVec.ofInt 64 (a.toInt.tmod b.toInt))) := by
  apply evalIntBinOp_num (o := .rem) rfl
  rw [show (if safe then IntOp.rem.unchecked else IntOp.rem) = .rem from ite_self _]
  show IntResult.num <$> IntTy.int.remainder a.toInt b.toInt = _
  rw [IntTy.remainder, if_neg hb.ne', if_neg fun h => by omega]
  rfl

theorem eval_and : evalIntBinOp safe "&" "Int" a b = .ok (.int (a &&& b)) := by
  have hand : evalIntBinOp safe "&" "Int" a b = .ok (.int (BitVec.ofInt 64 (a &&& b).toInt)) := by
    apply evalIntBinOp_num (o := .and) rfl
    rw [show (if safe then IntOp.and.unchecked else IntOp.and) = .and from ite_self _]
    show Except.ok (IntResult.num (IntTy.int.decode (IntTy.int.encode a.toInt &&& IntTy.int.encode b.toInt))) = _
    rw [show IntTy.int.encode a.toInt = a from BitVec.ofInt_toInt, show IntTy.int.encode b.toInt = b from BitVec.ofInt_toInt]
    rfl
  rw [hand, BitVec.ofInt_toInt]

/-- **The identities hold on integers.** -/
theorem identityOf_eval (hid : identityOf op lC rC = some x) (hl : ∀ c, lC = some c → a = c)
    (hr : ∀ c, rC = some c → b = c) : h.evalBinOp safe op "Int" (.int a) (.int b) = .ok (.int (x.value a b)) := by
  have hcontains : ∀ v : BitVec 64, IntTy.int.Contains v.toInt := IntTy.contains_decode_int
  have hzero : (0 : BitVec 64).toInt = 0 := rfl
  have hone : (1 : BitVec 64).toInt = 1 := rfl
  have hof : ∀ v : BitVec 64, BitVec.ofInt 64 v.toInt = v := fun v => BitVec.ofInt_toInt
  rw [evalBinOp_int]
  unfold identityOf at hid
  split_ifs at hid with h₁ h₂ h₃ h₄ h₅ h₆ h₇ h₈ <;> obtain rfl := Option.some.inj hid
  · obtain ⟨rfl, hc⟩ := h₁
    rw [hr 0 hc, eval_add] <;> rw [hzero, Int.add_zero]
    · rw [hof]
      rfl
    · exact hcontains a
  · obtain ⟨rfl, hc⟩ := h₂
    rw [hl 0 hc, eval_add] <;> rw [hzero, Int.zero_add]
    · rw [hof]
      rfl
    · exact hcontains b
  · obtain ⟨rfl, hc⟩ := h₃
    rw [hr 0 hc, eval_sub] <;> rw [hzero, Int.sub_zero]
    · rw [hof]
      rfl
    · exact hcontains a
  · obtain ⟨rfl, hc⟩ := h₄
    have hprod : a.toInt * b.toInt = 0 := by
      rcases hc with hc | hc
      · rw [hl 0 hc, hzero, Int.zero_mul]
      · rw [hr 0 hc, hzero, Int.mul_zero]
    rw [eval_mul] <;> rw [hprod]
    · rfl
    · decide
  · obtain ⟨rfl, hc⟩ := h₅
    rw [hr 1 hc, eval_mul] <;> rw [hone, Int.mul_one]
    · rw [hof]
      rfl
    · exact hcontains a
  · obtain ⟨rfl, hc⟩ := h₆
    rw [hl 1 hc, eval_mul] <;> rw [hone, Int.one_mul]
    · rw [hof]
      rfl
    · exact hcontains b
  · obtain ⟨rfl, hc⟩ := h₇
    rw [hr 1 hc, eval_div (by decide)] <;> rw [hone, Int.tdiv_one]
    · rw [hof]
      rfl
    · exact hcontains a
  · obtain ⟨rfl, hc⟩ := h₈
    rw [hr 1 hc, eval_rem (by decide), hone, Int.tmod_one]
    rfl

theorem identityOf_operand (hid : identityOf op lC rC = some x) : op ∈ ["+", "-", "*", "/", "%"] ∧
    ((lC = some 0 ∨ lC = some 1) ∨ rC = some 0 ∨ rC = some 1) := by
  unfold identityOf at hid
  split_ifs at hid with h₁ h₂ h₃ h₄ h₅ h₆ h₇ h₈
  · exact ⟨by simp [h₁.1], .inr (.inl h₁.2)⟩
  · exact ⟨by simp [h₂.1], .inl (.inl h₂.2)⟩
  · exact ⟨by simp [h₃.1], .inr (.inl h₃.2)⟩
  · exact ⟨by simp [h₄.1], h₄.2.imp .inl .inl⟩
  · exact ⟨by simp [h₅.1], .inr (.inr h₅.2)⟩
  · exact ⟨by simp [h₆.1], .inl (.inr h₆.2)⟩
  · exact ⟨by simp [h₇.1], .inr (.inr h₇.2)⟩
  · exact ⟨by simp [h₈.1], .inr (.inr h₈.2)⟩

/-- **A mask is the remainder** of a dividend that is not negative. -/
theorem ofInt_tmod_eq (ha : 0 ≤ a.toInt) (hc : 1 < c.toInt) (hpow : c &&& (c - 1) = 0) :
    BitVec.ofInt 64 (a.toInt.tmod c.toInt) = a &&& (c - 1) := by
  have hnat : ∀ v : BitVec 64, 0 ≤ v.toInt → v.toInt = v.toNat := fun v hv => by
    rw [BitVec.toInt_eq_toNat_cond] at hv ⊢
    split at hv <;> split <;> omega
  have hcn := hnat c (by omega)
  have hlow : (c - 1).toNat = c.toNat - 1 := by
    rw [BitVec.toNat_sub]
    simp
    omega
  obtain ⟨k, hk⟩ : ∃ k, c.toNat = 2 ^ k := by
    have hand := congrArg BitVec.toNat hpow
    rw [BitVec.toNat_and, hlow] at hand
    exact (Nat.and_sub_one_eq_zero_iff_isPowerOfTwo (by omega)).mp hand
  apply BitVec.eq_of_toNat_eq
  rw [toNat_and_low (hlow.trans (by rw [hk])), hnat a ha, hcn, ← Int.ofNat_tmod, BitVec.ofInt_natCast, BitVec.toNat_ofNat,
    hk]
  apply Nat.mod_eq_of_lt
  exact (Nat.mod_le _ _).trans_lt a.isLt

theorem evalBinOp_sum_or_product {res : Val} (hop : op = "+" ∨ op = "*")
    (hres : h.evalBinOp false op "Int" (.int a) (.int b) = .ok res) :
    ∃ c : BitVec 64, res = .int c ∧ c.toInt = if op = "+" then a.toInt + b.toInt else a.toInt * b.toInt := by
  rw [evalBinOp_int] at hres
  have hexact : ∀ {z : Int}, IntTy.int.Contains z → (BitVec.ofInt 64 z).toInt = z := fun hz => IntTy.decode_encode hz
  rcases hop with rfl | rfl
  · by_cases hz : IntTy.int.Contains (a.toInt + b.toInt)
    · rw [eval_add hz] at hres
      exact ⟨_, (Except.ok.inj hres).symm, hexact hz⟩
    · have herror : evalIntBinOp false "+" "Int" a b = .error .overflow :=
        evalIntBinOp_error (o := .add) rfl (congrArg (IntResult.num <$> ·) (checked_int_error hz))
      cases herror.symm.trans hres
  · by_cases hz : IntTy.int.Contains (a.toInt * b.toInt)
    · rw [eval_mul hz] at hres
      exact ⟨_, (Except.ok.inj hres).symm, hexact hz⟩
    · have herror : evalIntBinOp false "*" "Int" a b = .error .overflow :=
        evalIntBinOp_error (o := .mul) rfl (congrArg (IntResult.num <$> ·) (checked_int_error hz))
      cases herror.symm.trans hres

end

/-! ## Along a run -/

/-- Where an arithmetic operator of type `Int` about to execute has the operand 0 or 1, it is on integers. -/
def IdentitiesOnIntegers (s : Frame × World) : Prop :=
  ∀ d op l r rest, s.1.code = .binOp d op l r "Int" :: rest → op ∈ ["+", "-", "*", "/", "%"] →
    ((s.1.regs l = .int 0 ∨ s.1.regs l = .int 1) ∨ s.1.regs r = .int 0 ∨ s.1.regs r = .int 1) →
    ∃ a b, s.1.regs l = .int a ∧ s.1.regs r = .int b

/-- What is known of a value is so. -/
structure Fact (f : Function) (v : ValueId) (x : Val) : Prop where
  int : ∀ c, KnownInt f v c → x = .int c
  nonNeg : KnownNonNeg f v → ∃ c : BitVec 64, x = .int c ∧ 0 ≤ c.toInt
  bool : ∀ b, .constBool v b ∈ f.insts → x = .bool b

section
variable {P : Program} {f : Function} {n : Nat} {idom : Cfg.Idom} {b : BasicBlock} {before rest : List Inst} {i j : Inst}
  {s : Frame × World} {d l r v : ValueId} {op : String} {lC rC : Option (BitVec 64)} {x : Identity}

theorem KnownInt.defined {c : BitVec 64} (h : KnownInt f v c) : ∃ i ∈ f.insts, v ∈ i.dests := by
  cases h with
  | const hi => exact ⟨_, hi, List.mem_singleton.mpr rfl⟩
  | zero hi => exact ⟨_, hi, List.mem_singleton.mpr rfl⟩

theorem KnownNonNeg.defined (h : KnownNonNeg f v) : ∃ i ∈ f.insts, v ∈ i.dests := by
  cases h with
  | known h => exact h.defined
  | sum hi => exact ⟨_, hi, List.mem_singleton.mpr rfl⟩
  | copy hi => exact ⟨_, hi, List.mem_singleton.mpr rfl⟩

/-- Nothing is known of a parameter. -/
theorem fact_of_headDef (V : Verified n f idom) (hb : b ∈ f.blocks) (hv : v ∈ f.headDefs b) (y : Val) : Fact f v y := by
  have hno : ∀ i ∈ f.insts, v ∉ i.dests := by
    intro i hi hd
    obtain ⟨c, hc, hic⟩ := Function.mem_insts.mp hi
    obtain ⟨pre, post, hsplit⟩ := List.append_of_mem hic
    exact V.head_not_dest hc hb hsplit hd hv
  refine ⟨fun c hc => ?_, fun hn => ?_, fun b hb => absurd (List.mem_singleton.mpr rfl) (hno _ hb)⟩
  · obtain ⟨i, hi, hd⟩ := hc.defined
    exact absurd hd (hno i hi)
  · obtain ⟨i, hi, hd⟩ := hn.defined
    exact absurd hd (hno i hi)

/-- A value has one definition. -/
theorem inst_unique (V : Verified n f idom) (hb : b ∈ f.blocks) (hi : b.instructions = before ++ i :: rest)
    (hd : d ∈ i.dests) (hj : j ∈ f.insts) (hdj : d ∈ j.dests) : j = i := by
  obtain ⟨c, hc, hjc⟩ := Function.mem_insts.mp hj
  obtain ⟨pre, post, hsplit⟩ := List.append_of_mem hjc
  obtain ⟨rfl, rfl, rfl⟩ := V.def_unique hc hb hsplit hdj hi hd
  rfl

theorem identity_operands (hints : IdentitiesOnIntegers s) (hcode : s.1.code = .binOp d op l r "Int" :: rest)
    (hfl : Fact f l (s.1.regs l)) (hfr : Fact f r (s.1.regs r)) (hl : ∀ c, lC = some c → KnownInt f l c)
    (hr : ∀ c, rC = some c → KnownInt f r c) (hid : identityOf op lC rC = some x) :
    ∃ a b, s.1.regs l = .int a ∧ s.1.regs r = .int b ∧ ∀ h : Host, ∀ safe,
      h.evalBinOp safe op "Int" (s.1.regs l) (s.1.regs r) = .ok (.int (x.value a b)) := by
  have hlc : ∀ c, lC = some c → s.1.regs l = .int c := fun c hc => hfl.int c (hl c hc)
  have hrc : ∀ c, rC = some c → s.1.regs r = .int c := fun c hc => hfr.int c (hr c hc)
  obtain ⟨hop, hconst⟩ := identityOf_operand hid
  obtain ⟨a, b, ha, hb⟩ := hints d op l r rest hcode hop
    (hconst.imp (fun hc => hc.imp (hlc 0) (hlc 1)) fun hc => hc.imp (hrc 0) (hrc 1))
  refine ⟨a, b, ha, hb, fun h safe => ?_⟩
  rw [ha, hb]
  exact identityOf_eval hid (fun c hc => Val.int.inj (ha.symm.trans (hlc c hc)))
    fun c hc => Val.int.inj (hb.symm.trans (hrc c hc))

/-- **What an instruction writes is as it is known.** -/
theorem fact_of_inst (V : Verified n f idom) (hat : At f idom b before s.1)
    (hfacts : FactsAt f idom (Fact f) b before s.1.regs) (hmarks : MarksHoldAt P f s) (hints : IdentitiesOnIntegers s)
    (hcode : s.1.code = i :: rest) {ws : List (ValueId × Val)} {vars : String → Val} {w : World}
    (hp : (s.1.effect P i).perform P f s.1.vars s.2 = .done ws vars w) : ∀ y ∈ ws, Fact f y.1 y.2 := by
  intro ⟨d, y⟩ hy
  have hi : b.instructions = before ++ i :: rest := hcode ▸ hat.code
  have hd : d ∈ i.dests := Effect.perform_dests hp ▸ List.mem_map_of_mem hy
  have hsame : ∀ {j}, j ∈ f.insts → d ∈ j.dests → j = i := fun hj hdj => inst_unique V hat.mem hi hd hj hdj
  have huse : ∀ v ∈ instructionUses i, Fact f v (s.1.regs v) := fun v hv =>
    hfacts v (V.use_available hat.mem hi hv)
  -- What an instruction that computes one value writes.
  have hwrites : ∀ {z}, (s.1.effect P i) = .compute d (.ok z) → y = z := by
    intro z hz
    rw [hz] at hp
    cases hp
    exact congrArg Prod.snd (List.mem_singleton.mp hy)
  have hint : ∀ c, KnownInt f d c → y = .int c := by
    intro c hc
    cases hc with
    | const hj =>
      obtain rfl := hsame hj (List.mem_singleton.mpr rfl)
      exact hwrites rfl
    | @zero _ l r op lC rC hj hl hr hid =>
      obtain rfl := hsame hj (List.mem_singleton.mpr rfl)
      obtain ⟨a, b, -, -, heval⟩ := identity_operands hints hcode (huse l (by simp [instructionUses]))
        (huse r (by simp [instructionUses])) hl hr hid
      exact hwrites (congrArg (Effect.compute d) (heval _ _))
  refine ⟨hint, fun hn => ?_, fun c hc => ?_⟩
  · cases hn with
    | known hc hpos => exact ⟨_, hint _ hc, hpos⟩
    | @sum _ l r op hj hop hl hr =>
      obtain rfl := hsame hj (List.mem_singleton.mpr rfl)
      obtain ⟨a, ha, hapos⟩ := (huse l (by simp [instructionUses])).nonNeg hl
      obtain ⟨c, hc, hcpos⟩ := (huse r (by simp [instructionUses])).nonNeg hr
      obtain ⟨res, -, rfl, hev⟩ := @binOp_result P f s w d l r op "Int" rest ws vars hat.fn hp
      cases List.mem_singleton.mp hy
      have hchecked : P.host.evalBinOp false op "Int" (s.1.regs l) (s.1.regs r) = .ok y := by
        by_cases hm : d ∈ f.provenNoOverflow
        · rw [← hmarks d op l r "Int" rest hcode hm, ← decide_eq_true hm]
          exact hev
        · rw [decide_eq_false hm] at hev
          exact hev
      rw [ha, hc] at hchecked
      obtain ⟨z, rfl, hz⟩ := evalBinOp_sum_or_product hop hchecked
      refine ⟨z, rfl, ?_⟩
      rw [hz]
      split
      case isTrue => exact Int.add_nonneg hapos hcpos
      case isFalse => exact Int.mul_nonneg hapos hcpos
    | @copy _ o ty hj ho =>
      obtain rfl := hsame hj (List.mem_singleton.mpr rfl)
      obtain rfl : y = s.1.regs o := hwrites rfl
      exact (huse o (by simp [instructionUses])).nonNeg ho
  · obtain rfl := hsame hc (List.mem_singleton.mpr rfl)
    exact hwrites rfl

/-- **What is known is so along a run.** -/
theorem factsAt_of_steps (V : Verified n f idom) {args : List Val} {w : World}
    (hgood : ∀ s, P.leafMachine.Steps (f.start args, w) s → MarksHoldAt P f s ∧ IdentitiesOnIntegers s)
    (h : P.leafMachine.Steps (f.start args, w) s) :
    ∃ b before, At f idom b before s.1 ∧ FactsAt f idom (Fact f) b before s.1.regs := by
  refine V.invariant (J := fun b before s => FactsAt f idom (Fact f) b before s.1.regs) ?_ ?_ ?_ h
  · exact fun b hb hid => .start V hid fun v hv => fact_of_headDef V hb hv _
  · intro s b before i rest ws vars w' hs hat hJ hcode hp
    exact hJ.after hp (fact_of_inst V hat hJ (hgood s hs).1 (hgood s hs).2 hcode hp)
  · intro s b c vs _ hat hJ _ ht hc hlen
    refine hJ.into V hat.mem hc hat.reached ht hlen fun y hy => ?_
    exact fact_of_headDef V hc (List.mem_append_right _ (List.of_mem_zip hy).1) _

/-! ## What stands in the place of an instruction -/

variable {g : BasicBlock → List Chunk} {c : Chunk}

theorem reduced_get (hall : List.Forall₂ (Reduced f) b.instructions (g b)) (hi : b.instructions = before ++ i :: rest)
    (hget : (g b)[before.length]? = some c) : Reduced f i c := by
  obtain ⟨hlt, rfl⟩ := List.getElem?_eq_some_iff.mp hget
  have hlt' : before.length < b.instructions.length := by rw [hi]; simp
  have := hall.get hlt' hlt
  simpa [hi] using this

/-- **What stands there has the effect of the instruction.** -/
theorem stands_of_facts (V : Verified n f idom) (E : Expands f g)
    (hall : ∀ b ∈ f.blocks, List.Forall₂ (Reduced f) b.instructions (g b))
    (hfacts : ∃ b before, At f idom b before s.1 ∧ FactsAt f idom (Fact f) b before s.1.regs)
    (hints : IdentitiesOnIntegers s) : Stands P f idom g s := by
  intro b before i rest c hat hcode hget regs hregs
  have hi : b.instructions = before ++ i :: rest := hcode ▸ hat.code
  have hmention : ∀ v ∈ i.visitVids, v ∈ f.valueIds := fun v hv =>
    mem_valueIds_of_visit hat.mem (by rw [hi]; simp) hv
  have huse : ∀ d ∈ i.dests, ∀ v ∈ instructionUses i, Fact f v (s.1.regs v) := by
    intro d hd v hv
    obtain ⟨b', before', hat', hJ⟩ := hfacts
    obtain ⟨rfl, rfl⟩ := hat.unique V hat' hcode hd
    exact hJ v (V.use_available hat.mem hi hv)
  have hfresh := E.unused b hat.mem c (List.mem_of_getElem? hget)
  cases reduced_get (hall b hat.mem) hi hget with
  | same => exact Inst.effect_of_agree hat.mem (by rw [hi]; simp) hregs
  | @identity d l r op lC rC x hl hr hid =>
    obtain ⟨a, b, ha, hb, heval⟩ := identity_operands hints hcode (huse d (List.mem_singleton.mpr rfl) l (by simp [instructionUses]))
      (huse d (List.mem_singleton.mpr rfl) r (by simp [instructionUses])) hl hr hid
    show _ = Effect.compute d (P.host.evalBinOp _ op "Int" (s.1.regs l) (s.1.regs r))
    rw [heval]
    have hrl : regs l = .int a := (hregs l (hmention l (by simp [Inst.visitVids]))).trans ha
    have hrr : regs r = .int b := (hregs r (hmention r (by simp [Inst.visitVids]))).trans hb
    cases x with
    | left => exact congrArg (fun v => Effect.compute d (.ok v)) hrl
    | right => exact congrArg (fun v => Effect.compute d (.ok v)) hrr
    | zero => rfl
  | @mask d l r v c hr hone hpow hnn =>
    obtain ⟨a, ha, hpos⟩ := (huse d (List.mem_singleton.mpr rfl) l (by simp [instructionUses])).nonNeg hnn
    have hrc : s.1.regs r = .int c := (huse d (List.mem_singleton.mpr rfl) r (by simp [instructionUses])).int c hr
    have hlids := hmention l (by simp [Inst.visitVids])
    have hne : l ≠ v := fun heq => hfresh v (List.mem_singleton.mpr rfl) (heq ▸ hlids)
    have hrl : Function.update regs v (.int (c - 1)) l = .int a := by
      rw [Function.update_of_ne hne, hregs l hlids, ha]
    show Effect.compute d (P.host.evalBinOp _ "&" "Int" (Function.update regs v (.int (c - 1)) l)
      (Function.update regs v (.int (c - 1)) v)) = Effect.compute d (P.host.evalBinOp _ "%" "Int" (s.1.regs l) (s.1.regs r))
    rw [hrl, Function.update_self, ha, hrc, evalBinOp_int, evalBinOp_int, eval_and, eval_rem (by omega),
      ofInt_tmod_eq hpos hone hpow]
  | @same_arms d c t ty =>
    have hrt := hregs t (hmention t (by simp [Inst.visitVids]))
    show Effect.compute d (.ok (regs t)) = Effect.compute d (.ok (if (s.1.regs c).truthy then s.1.regs t else s.1.regs t))
    rw [ite_self, hrt]
  | @decided d c t e x ty hx =>
    have hcond := (huse d (List.mem_singleton.mpr rfl) c (by simp [instructionUses])).bool x hx
    have hrt := hregs t (hmention t (by simp [Inst.visitVids]))
    have hre := hregs e (hmention e (by simp [Inst.visitVids]))
    show Effect.compute d (.ok (regs (if x then t else e))) =
      Effect.compute d (.ok (if (s.1.regs c).truthy then s.1.regs t else s.1.regs e))
    rw [hcond]
    cases x with
    | false => exact congrArg (fun v => Effect.compute d (.ok v)) hre
    | true => exact congrArg (fun v => Effect.compute d (.ok v)) hrt

/-- What stands there reads what the instruction does, and what is loaded. -/
theorem Reduced.uses (h : Reduced f i c) : ∀ v ∈ instructionUses c.inst, v ∈ c.fresh ∨ v ∈ instructionUses i := by
  cases h with
  | same => exact fun v hv => .inr hv
  | @identity d l r op lC rC x =>
    cases x <;> simp [Identity.inst, instructionUses]
  | mask => simp [instructionUses, Chunk.fresh]
  | same_arms => simp [instructionUses]
  | @decided d c t e x => cases x <;> simp [instructionUses]

theorem exists_reduced (hall : ∀ b ∈ f.blocks, List.Forall₂ (Reduced f) b.instructions (g b))
    (hi : i ∈ (f.expand g).insts) (hno : ∀ v n, i ≠ .constInt v n) : ∃ j ∈ f.insts, ∃ c, Reduced f j c ∧ c.inst = i := by
  obtain ⟨b', hb', hib⟩ := Function.mem_insts.mp hi
  obtain ⟨b, hb, rfl⟩ := mem_mapCode.mp hb'
  obtain ⟨c, hc, hic⟩ := List.mem_flatMap.mp hib
  have hinst : c.inst = i := by
    rcases List.mem_append.mp hic with hload | hinst
    · obtain ⟨p, -, rfl⟩ := List.mem_map.mp hload
      exact absurd rfl (hno _ _)
    · exact (List.mem_singleton.mp hinst).symm
  obtain ⟨k, hk, rfl⟩ := List.getElem_of_mem hc
  have hlen := (hall b hb).length_eq
  exact ⟨_, Function.mem_insts.mpr ⟨b, hb, List.getElem_mem (by omega)⟩, _, (hall b hb).get (by omega) hk, hinst⟩

/-- **Strength reduction is correct where no value is overlooked.** The outcome is accepted, and its new values are not
mentioned in the function. Where the marks hold and the identities are on integers, both run the same, and the dividend of
a remainder that a mask replaces is not negative. -/
theorem applyStrengthReduction_preserves (P : Program) (f : Function) (hf : Accepts f) (hfree : Unhidden f) :
    Accepts (applyStrengthReduction f).1 ∧
      (∀ v ∈ (applyStrengthReduction f).1.defs.map (·.1), v ∉ f.defs.map (·.1) → v ∉ f.valueIds) ∧
      ∀ args w, (∀ s, P.leafMachine.Steps (f.start args, w) s → MarksHoldAt P f s ∧ IdentitiesOnIntegers s) →
        (∀ o, P.RunsTo (applyStrengthReduction f).1 args w o ↔ P.RunsTo f args w o) ∧
        ∀ d l r l' v, .binOp d "%" l r "Int" ∈ f.insts → .binOp d "&" l' v "Int" ∈ (applyStrengthReduction f).1.insts →
          l' = l ∧ ∀ s rest, P.leafMachine.Steps (f.start args, w) s → s.1.code = .binOp d "%" l r "Int" :: rest →
            ∃ c : BitVec 64, s.1.regs l = .int c ∧ 0 ≤ c.toInt := by
  have W := accepts_iff.mp hf
  obtain ⟨n, idom, V⟩ := W.verified
  obtain ⟨g, hg, E, hall⟩ := strength_expands W.ids hfree
  rw [hg]
  refine ⟨accepts_iff.mpr (E.wellFormed W ?_), ?_, fun args w hgood => ⟨fun o => ?_, ?_⟩⟩
  · intro b hb before i rest c hi hget v hv
    exact ((reduced_get (hall b hb) hi hget).uses v hv).imp_right fun hv => W.uses b hb before i rest hi v hv
  · intro v hv hnot
    rcases List.mem_append.mp (E.defs_perm.mem_iff.mp hv) with hv | hv
    · exact absurd hv hnot
    · obtain ⟨b, hb, hv⟩ := List.mem_flatMap.mp hv
      obtain ⟨c, hc, hv⟩ := List.mem_flatMap.mp hv
      exact E.unused b hb c hc v hv
  · exact runsTo_expand_iff E V (fun s hs =>
      stands_of_facts V E hall (factsAt_of_steps V hgood hs) (hgood s hs).2) o
  · intro d l r l' v hrem hand
    obtain ⟨j, hj, c, hreduced, hinst⟩ := exists_reduced hall hand nofun
    have hd : d ∈ j.dests := by
      rw [← hreduced.dests, hinst]
      exact List.mem_singleton.mpr rfl
    obtain ⟨b, hb, hib⟩ := Function.mem_insts.mp hrem
    obtain ⟨pre, post, hsplit⟩ := List.append_of_mem hib
    obtain rfl := inst_unique V hb hsplit (List.mem_singleton.mpr rfl) hj hd
    have hnonNeg : l' = l ∧ KnownNonNeg f l := by
      cases hreduced with
      | same => exact absurd (Inst.binOp.inj hinst).2.1 (by decide)
      | @identity _ _ _ _ _ _ x => cases x <;> cases hinst
      | mask _ _ _ hnn =>
        cases hinst
        exact ⟨rfl, hnn⟩
    refine ⟨hnonNeg.1, fun s rest hs hcode => ?_⟩
    obtain ⟨b', before', hat, hJ⟩ := factsAt_of_steps V hgood hs
    have huse := V.use_available hat.mem (hcode ▸ hat.code) (show l ∈ instructionUses (.binOp d "%" l r "Int") by
      simp [instructionUses])
    exact (hJ l huse).nonNeg hnonNeg.2

end

/-- `7 % 4`. -/
def remainderByFour : Function where
  name := "f"
  params := []
  returnType := "Int"
  blocks :=
    [{ id := 0
       instructions := [.constInt 0 7, .constInt 1 4, .binOp 2 "%" 0 1 "Int"]
       terminator := .ret (some 2) }]

/-- An operator about to execute reads integers. -/
def readsIntegers (s : Frame × World) : Bool :=
  match s.1.code with
  | .binOp _ _ l r _ :: _ =>
    match s.1.regs l, s.1.regs r with
    | .int _, .int _ => true
    | _, _ => false
  | _ => true

theorem identitiesOnIntegers_of_reads {s : Frame × World} (h : readsIntegers s = true) : IdentitiesOnIntegers s := by
  intro d op l r rest hcode _ _
  simp only [readsIntegers, hcode] at h
  split at h
  case h_1 a b ha hb => exact ⟨a, b, ha, hb⟩
  case h_2 => cases h

/-- The remainder becomes a mask, and is 3 as before. -/
theorem applyStrengthReduction_preserves_remainder :
    (applyStrengthReduction remainderByFour).1.insts.length = 4 ∧
      (Program.bare []).RunsTo (applyStrengthReduction remainderByFour).1 [] World.initial
        ⟨.returned (.int 3), [.returned (.int 3)]⟩ := by
  have hfree : Unhidden remainderByFour := fun v hv => .inl (by revert v hv; decide)
  obtain ⟨-, -, hruns⟩ := applyStrengthReduction_preserves (Program.bare []) remainderByFour ⟨16, rfl⟩ hfree
  refine ⟨rfl, ((hruns [] World.initial fun s hs => ⟨?_, ?_⟩).1 _).mpr (Machine.halts_of_run (n := 16) rfl)⟩
  · intro d op l r ty rest _ hm
    exact absurd hm List.not_mem_nil
  · exact identitiesOnIntegers_of_reads (Machine.forall_of_always (n := 16) (p := readsIntegers) rfl hs)

/-- A remainder by four, and a value loaded before it under an id that the scan overlooks. -/
def loadsBeside : Function where
  name := "f"
  params := []
  returnType := "Int"
  blocks :=
    [{ id := 0
       instructions := [.constInt 0 7, .constInt 1 4, .volatileLoad 3 0 "Int", .binOp 2 "%" 0 1 "Int", .out 3 "Int"]
       terminator := .ret (some 2) }]

/-- The mask is loaded over the value, which is printed. -/
theorem applyStrengthReduction_overwrites :
    Accepts loadsBeside ∧ ¬Accepts (applyStrengthReduction loadsBeside).1 ∧
      ¬∀ o, (Program.bare []).RunsTo (applyStrengthReduction loadsBeside).1 [] World.initial o ↔
        (Program.bare []).RunsTo loadsBeside [] World.initial o := by
  refine ⟨⟨16, rfl⟩, fun h => absurd (accepts_iff.mp h).once (by decide), fun h => ?_⟩
  have hprinted : (Program.bare []).RunsTo loadsBeside [] World.initial
      ⟨.returned (.int 3), [.returned (.int 3), .out .unit "Int", .volatileLoad (.int 7) "Int"]⟩ :=
    Machine.halts_of_run (n := 16) rfl
  have hmask : (Program.bare []).RunsTo (applyStrengthReduction loadsBeside).1 [] World.initial
      ⟨.returned (.int 3), [.returned (.int 3), .out (.int 3) "Int", .volatileLoad (.int 7) "Int"]⟩ :=
    Machine.halts_of_run (n := 16) rfl
  cases ((h _).mpr hprinted).unique hmask

end Datara.Optimizer
