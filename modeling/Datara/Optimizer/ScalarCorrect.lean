import Datara.Dmir.Pointwise
import Datara.Optimizer.Scalar

/-!
# Global common-subexpression elimination, correct on integers

What the walk leaves (`Reused`): an operator, or a copy of the result of an operator with the same key
that stands before it, in the block or in a dominating one. Such a result is still what the operator
would compute (`ExprsAt`): between the two no operand is bound again, since an operand's definition
dominates both. The outcome is accepted, and runs the same (`eliminateCommonSubexpressions_preserves`),
where the operators whose operands the key swaps are on integers and the marks of
`proven_no_overflow` hold.
-/

namespace Datara.Optimizer

open Dmir Library

/-! ## What the walk leaves -/

variable {op ty : String} {rest : List Inst}

section
variable {f : Function} {dom : BasicBlockId → BasicBlockId → Bool} {approve : ExprKey → Bool}
  {b : BasicBlock} {k : Nat} {i i' : Inst} {key : ExprKey} {v : ValueId}

/-- An operator with the key that is executed before the place `k` of the block. -/
def DefinedBefore (f : Function) (dom : BasicBlockId → BasicBlockId → Bool) (b : BasicBlock) (k : Nat)
    (key : ExprKey) (v : ValueId) : Prop :=
  ∃ c ∈ f.blocks, ∃ j op l r ty, c.instructions[j]? = some (.binOp v op l r ty) ∧
    canonicalKey op ty l r = key ∧ (c = b ∧ j < k ∨ c.id ≠ b.id ∧ dom c.id b.id = true)

/-- An instruction of the outcome: the one that was there, or a copy of an earlier result. -/
inductive Reused (f : Function) (dom : BasicBlockId → BasicBlockId → Bool) (b : BasicBlock) (k : Nat) :
    Inst → Inst → Prop
  | same (i : Inst) : Reused f dom b k i i
  | copy {d l r v : ValueId} {op ty : String} :
      DefinedBefore f dom b k (canonicalKey op ty l r) v →
      Reused f dom b k (.binOp d op l r ty) (.unOp d "copy" v ty)

theorem Reused.dests (h : Reused f dom b k i i') : i'.dests = i.dests := by cases h <;> rfl

/-- An operator that is still there was there. -/
theorem Reused.of_binOp {d l r : ValueId}
    (h : Reused f dom b k i (.binOp d op l r ty)) : i = .binOp d op l r ty := by
  cases h
  rfl

/-- The code of a block, place by place. -/
def CodeReused (f : Function) (dom : BasicBlockId → BasicBlockId → Bool) (b : BasicBlock)
    (is : List Inst) : Prop :=
  ∀ k i i', b.instructions[k]? = some i → is[k]? = some i' → Reused f dom b k i i'

variable {is : List Inst}

theorem firstVal_def (h : firstVal key is = some v) :
    ∃ (j : Nat) (op : String) (l r : ValueId) (ty : String), is[j]? = some (.binOp v op l r ty) ∧ canonicalKey op ty l r = key := by
  obtain ⟨i, hi, h⟩ := List.exists_of_findSome?_eq_some h
  obtain ⟨j, hj⟩ := List.mem_iff_getElem?.mp hi
  cases i with
  | binOp d op l r ty =>
    simp only [Option.ite_none_right_eq_some, Option.some.injEq] at h
    obtain ⟨hkey, rfl⟩ := h
    exact ⟨j, op, l, r, ty, hj, hkey⟩
  | _ => cases h

theorem firstVal_append {is js : List Inst} (h : (firstVal key is).isSome) :
    firstVal key (is ++ js) = firstVal key is := by
  rw [firstVal, List.findSome?_append]
  exact Option.or_of_isSome h

theorem CodeReused.firstVal (h : CodeReused f dom b is)
    (hlen : is.length ≤ b.instructions.length) (hv : firstVal key is = some v) :
    ∃ j op l r ty, j < is.length ∧ b.instructions[j]? = some (.binOp v op l r ty) ∧
      canonicalKey op ty l r = key := by
  obtain ⟨j, op, l, r, ty, hj, hkey⟩ := firstVal_def hv
  have hlt : j < is.length := (List.getElem?_eq_some_iff.mp hj).1
  have hget := List.getElem?_eq_getElem (Nat.lt_of_lt_of_le hlt hlen)
  have := (h j _ _ hget hj).of_binOp
  exact ⟨j, op, l, r, ty, hlt, by rw [hget, this], hkey⟩

/-- What is known of the surviving definitions while a block is walked: those of the block stand before. -/
def Cse.Before (st : Cse) (bid : BasicBlockId) (before : List Inst) : Prop :=
  ∀ key, st.defBlock key = some bid → (firstVal key before).isSome

/-- The blocks as they are by now. -/
structure BlocksReused (f : Function) (dom : BasicBlockId → BasicBlockId → Bool)
    (g : BasicBlock → List Inst) : Prop where
  length : ∀ b ∈ f.blocks, (g b).length = b.instructions.length
  code : ∀ b ∈ f.blocks, CodeReused f dom b (g b)

theorem find?_mapCode {g : BasicBlock → List Inst} {id : BasicBlockId} {c : BasicBlock}
    (h : (f.mapCode g).blocks.find? (·.id = id) = some c) :
    ∃ b ∈ f.blocks, b.id = id ∧ c = b.withCode (g b) := by
  obtain ⟨b, hb, rfl⟩ := mem_mapCode.mp (List.mem_of_find?_eq_some h)
  have hid := List.find?_some h
  exact ⟨b, hb, of_decide_eq_true hid, rfl⟩

theorem survivor_definedBefore {g : BasicBlock → List Inst} (hg : BlocksReused f dom g)
    (hb : b ∈ f.blocks) {before : List Inst} {db : BasicBlockId}
    (hcode : CodeReused f dom b before) (hlen : before.length ≤ b.instructions.length)
    (hhere : db = b.id → (firstVal key before).isSome)
    (hdom : db = b.id ∨ dom db b.id = true)
    (h : survivor (f.mapCode g).blocks b.id db key (before ++ rest) = some v) :
    DefinedBefore f dom b before.length key v := by
  unfold survivor at h
  by_cases he : b.id = db
  · have hsome := hhere he.symm
    rw [if_pos he, firstVal_append hsome, Option.or_of_isSome hsome] at h
    obtain ⟨j, op, l, r, ty, hj, hget, hkey⟩ := hcode.firstVal hlen h
    exact ⟨b, hb, j, op, l, r, ty, hget, hkey, .inl ⟨rfl, hj⟩⟩
  · rw [if_neg he, Option.none_or] at h
    obtain ⟨c', hfind, h⟩ := Option.bind_eq_some_iff.mp h
    obtain ⟨c, hc, rfl, rfl⟩ := find?_mapCode hfind
    obtain ⟨j, op, l, r, ty, -, hget, hkey⟩ :=
      (hg.code c hc).firstVal (Nat.le_of_eq (hg.length c hc)) h
    exact ⟨c, hc, j, op, l, r, ty, hget, hkey, .inr ⟨Ne.symm he, hdom.resolve_left (Ne.symm he)⟩⟩

/-- **What the walk does to an instruction**, and which definitions it records. -/
theorem cseInst_spec {g : BasicBlock → List Inst} (hg : BlocksReused f dom g)
    (hb : b ∈ f.blocks) {before rest : List Inst} {st : Cse}
    (hcode : CodeReused f dom b before) (hlen : before.length ≤ b.instructions.length)
    (hst : st.Before b.id before) :
    Reused f dom b before.length i
        (cseInst approve dom (f.mapCode g).blocks b.id before i rest st).1 ∧
      ∀ key db, (cseInst approve dom (f.mapCode g).blocks b.id before i rest st).2.defBlock key =
          some db → st.defBlock key = some db ∨ db = b.id ∧
        (firstVal key [(cseInst approve dom (f.mapCode g).blocks b.id before i rest st).1]).isSome := by
  cases i with
  | binOp d op l r ty =>
    simp only [cseInst]
    -- a dropped definition is no longer there, the others stay
    have dropped : ∀ key' db,
        Function.update st.defBlock (canonicalKey op ty l r) none key' = some db →
          st.defBlock key' = some db := by
      intro key' db h
      by_cases hk : key' = canonicalKey op ty l r
      · subst hk
        rw [Function.update_self] at h
        cases h
      · rwa [Function.update_of_ne hk] at h
    split
    case h_1 hnone =>
      refine ⟨.same _, fun key' db h => ?_⟩
      by_cases hk : key' = canonicalKey op ty l r
      · subst hk
        simp only [Function.update_self] at h
        cases hdef : st.defBlock (canonicalKey op ty l r) with
        | some db' => exact .inl (by rw [hdef] at h; exact h)
        | none =>
          rw [hdef] at h
          exact .inr ⟨(Option.some.inj h).symm, by simp [firstVal]⟩
      · simp only [Function.update_of_ne hk] at h
        exact .inl h
    case h_2 db hdb =>
      obtain ⟨hdef, hdom⟩ := Option.filter_eq_some_iff.mp hdb
      have hdom : db = b.id ∨ dom db b.id = true := by simpa using hdom
      split_ifs with happ
      · split
        case h_1 v hv =>
          exact ⟨.copy (survivor_definedBefore hg hb hcode hlen
            (fun he => hst _ (he ▸ hdef)) hdom hv), fun _ _ h => .inl h⟩
        case h_2 => exact ⟨.same _, fun key' db h => .inl (dropped key' db h)⟩
      · exact ⟨.same _, fun key' db h => .inl (dropped key' db h)⟩
  | _ => exact ⟨.same _, fun _ _ h => .inl h⟩

theorem cseCode_spec {g : BasicBlock → List Inst} (hg : BlocksReused f dom g)
    (hb : b ∈ f.blocks) {before rest : List Inst} {st : Cse}
    (hcode : CodeReused f dom b before) (hrest : b.instructions.drop before.length = rest)
    (hlen : before.length ≤ b.instructions.length) (hst : st.Before b.id before) :
    CodeReused f dom b (cseCode approve dom (f.mapCode g).blocks b.id before rest st).1 ∧
      (cseCode approve dom (f.mapCode g).blocks b.id before rest st).1.length =
        b.instructions.length ∧
      ∀ key db, (cseCode approve dom (f.mapCode g).blocks b.id before rest st).2.defBlock key =
        some db → st.defBlock key = some db ∨ db = b.id := by
  induction rest generalizing before st with
  | nil =>
    exact ⟨hcode, Nat.le_antisymm hlen (List.drop_eq_nil_iff.mp hrest), fun _ _ h => .inl h⟩
  | cons i rest ih =>
    obtain ⟨hreused, hdefs⟩ := cseInst_spec (i := i) hg hb hcode hlen hst
    have hget : b.instructions[before.length]? = some i := by
      rw [← List.head?_drop, hrest]
      rfl
    have hlt : before.length < b.instructions.length := (List.getElem?_eq_some_iff.mp hget).1
    rw [cseCode]
    generalize cseInst approve dom (f.mapCode g).blocks b.id before i rest st = r at hreused hdefs ⊢
    have hcode' : CodeReused f dom b (before ++ [r.1]) := by
      intro k j j' hj hj'
      rcases Nat.lt_trichotomy k before.length with hk | rfl | hk
      · exact hcode k j j' hj (by rwa [List.getElem?_append_left hk] at hj')
      · cases hget.symm.trans hj
        rw [List.getElem?_concat_length] at hj'
        exact Option.some.inj hj' ▸ hreused
      · rw [List.getElem?_eq_none (by simp; omega)] at hj'
        cases hj'
    have hst' : r.2.Before b.id (before ++ [r.1]) := by
      intro key h
      rw [firstVal, List.findSome?_append, Option.isSome_or, Bool.or_eq_true]
      exact (hdefs key _ h).imp (hst key) (·.2)
    obtain ⟨h₁, h₂, h₃⟩ := ih hcode' (by rw [List.length_append, ← List.drop_drop, hrest]; rfl)
      (by simpa using Nat.succ_le_of_lt hlt) hst'
    refine ⟨h₁, h₂, fun key db h => ?_⟩
    exact (h₃ key db h).elim (fun h => (hdefs key db h).imp id (·.1)) .inr

theorem setCode_mapCode {g : BasicBlock → List Inst}
    (hids : (f.blocks.map (·.id)).Nodup) (hb : b ∈ f.blocks) :
    setCode b.id is (f.mapCode g).blocks =
      (f.mapCode fun c => if c.id = b.id then is else g c).blocks := by
  simp only [Function.mapCode]
  generalize f.blocks = bs at hids hb
  induction bs with
  | nil => cases hb
  | cons c bs ih =>
    simp only [List.map_cons, List.nodup_cons] at hids
    simp only [List.map_cons, setCode]
    by_cases hc : c.id = b.id
    · rw [if_pos (show (c.withCode (g c)).id = b.id from hc), if_pos hc]
      congr 1
      apply List.map_congr_left
      intro d hd
      rw [if_neg]
      rintro he
      exact hids.1 (List.mem_map.mpr ⟨d, hd, he.trans hc.symm⟩)
    · have hb' : b ∈ bs := (List.mem_cons.mp hb).resolve_left fun he => hc (he ▸ rfl)
      rw [if_neg (show (c.withCode (g c)).id ≠ b.id from hc), if_neg hc, ih hids.2 hb']

theorem cseBlocks_spec (hids : (f.blocks.map (·.id)).Nodup) {order : List BasicBlockId}
    {g : BasicBlock → List Inst} {st : Cse} (hg : BlocksReused f dom g) (hnodup : order.Nodup)
    (hst : ∀ key, ∀ id ∈ order, st.defBlock key ≠ some id)
    (hnew : ∀ b ∈ f.blocks, b.id ∈ order → g b = b.instructions) :
    ∃ g', BlocksReused f dom g' ∧
      (cseBlocks approve dom order (f.mapCode g).blocks st).1 = (f.mapCode g').blocks := by
  induction order generalizing g st with
  | nil => exact ⟨g, hg, rfl⟩
  | cons bid order ih =>
    obtain ⟨hbid, horder⟩ := List.nodup_cons.mp hnodup
    rw [cseBlocks]
    split
    case h_1 =>
      exact ih hg horder (fun key id h => hst key id (List.mem_cons_of_mem _ h))
        fun b hb h => hnew b hb (List.mem_cons_of_mem _ h)
    case h_2 c hfind =>
      obtain ⟨b, hb, rfl, rfl⟩ := find?_mapCode hfind
      have hcode : (b.withCode (g b)).instructions = b.instructions := hnew b hb List.mem_cons_self
      rw [hcode]
      obtain ⟨h₁, h₂, h₃⟩ := @cseCode_spec _ _ _ _ _ hg hb [] _ _
        (fun k j j' _ hj' => by cases hj') rfl (Nat.zero_le _)
        (fun key h => absurd h (hst key _ List.mem_cons_self))
      simp only [setCode_mapCode hids hb]
      refine ih ⟨fun c hc => ?_, fun c hc => ?_⟩ horder (fun key id hid h => ?_) fun c hc hid => ?_
      · split_ifs with he
        · obtain rfl : c = b := List.inj_on_of_nodup_map hids hc hb he
          exact h₂
        · exact hg.length c hc
      · split_ifs with he
        · obtain rfl : c = b := List.inj_on_of_nodup_map hids hc hb he
          exact h₁
        · exact hg.code c hc
      · rcases h₃ key id h with h | rfl
        · exact hst key id (List.mem_cons_of_mem _ hid) h
        · exact hbid hid
      · rw [if_neg fun he : c.id = b.id => hbid (he ▸ hid)]
        exact hnew c hc (List.mem_cons_of_mem _ hid)

theorem domOrder_nodup {idom : Cfg.Idom} {m : Nat} {stack order : List BasicBlockId}
    (h : order.Nodup) : (domOrder f idom m stack order).Nodup := by
  induction m generalizing stack order with
  | zero => exact h
  | succ m ih =>
    cases stack with
    | nil => exact h
    | cons b stack =>
      rw [domOrder]
      split_ifs with hb
      · exact ih h
      · exact ih (h.append (List.nodup_singleton b) (by simpa using hb))

/-- **What the pass leaves**: the blocks with their code, each operator kept or reused. -/
theorem eliminate_reused {n count : Nat} {f' : Function} (hids : (f.blocks.map (·.id)).Nodup)
    (h : eliminateCommonSubexpressionsWith approve n f = some (f', count)) :
    ∃ idom g, Cfg.computeDominance n f = some idom ∧ f' = f.mapCode g ∧
      BlocksReused f (fun a b => Cfg.dominates n idom a b = some true) g := by
  obtain ⟨idom, hidom, h⟩ := Option.map_eq_some_iff.mp h
  obtain ⟨g, hg, hblocks⟩ := @cseBlocks_spec f
    (fun a b => Cfg.dominates n idom a b = some true) _ hids _ (·.instructions) .empty
    ⟨fun _ _ => rfl, fun b _ k i i' hi hi' => Option.some.inj (hi.symm.trans hi') ▸ .same i⟩
    (domOrder_nodup List.nodup_nil) (fun _ _ _ h => by cases h) fun _ _ _ => rfl
  have hsame : (f.mapCode (·.instructions)).blocks = f.blocks := by
    simp [Function.mapCode, BasicBlock.withCode]
  rw [hsame] at hblocks
  cases h
  exact ⟨idom, g, hidom, by rw [hblocks]; rfl, hg⟩

end

/-! ## Results of operators -/

/-- An integer or a truth value. -/
def isIntegral : Val → Bool
  | .int _ | .bool _ => true
  | _ => false

theorem eval_unchecked {T : IntTy} {o : IntOp} {x y : Int} {r : IntResult}
    (h : T.eval o x y = .ok r) : T.eval o.unchecked x y = .ok r := by
  have num : ∀ z, IntResult.num <$> T.checked z = .ok r → .ok (.num (T.wrap z)) = (.ok r : Except Trap _) := by
    intro z hz
    unfold IntTy.checked at hz
    split_ifs at hz with hnarrow hin
    · exact hz
    · rw [IntTy.wrap_of_contains hin]
      exact hz
    · cases hz
  cases o with
  | add => exact num _ h
  | sub => exact num _ h
  | mul => exact num _ h
  | _ => exact h

theorem evalIntBinOp_checked {x y : BitVec 64} {r : Val}
    (h : evalIntBinOp false op ty x y = .ok r) : evalIntBinOp true op ty x y = .ok r := by
  unfold evalIntBinOp at h ⊢
  by_cases h₁ : op = "&&"
  · rwa [if_pos h₁] at h ⊢
  by_cases h₂ : op = "||"
  · rwa [if_neg h₁, if_pos h₂] at h ⊢
  rw [if_neg h₁, if_neg h₂] at h ⊢
  cases ho : IntOp.ofSpelling op with
  | none =>
    simp only [ho] at h
    cases h
  | some o =>
    simp only [ho, Bool.false_eq_true, if_false, if_true] at h ⊢
    cases he : (IntTy.ofRepr ty).eval o ((IntTy.ofRepr ty).decode x) ((IntTy.ofRepr ty).decode y) with
    | error t =>
      rw [he] at h
      cases h
    | ok res =>
      rw [he] at h
      rw [eval_unchecked he]
      exact h

/-- An operator that goes through checked computes the same marked. -/
theorem evalBinOp_checked {h : Host} {a b r : Val}
    (hr : h.evalBinOp false op ty a b = .ok r) (safe : Bool) : h.evalBinOp safe op ty a b = .ok r := by
  cases safe with
  | false => exact hr
  | true =>
    unfold Host.evalBinOp at hr ⊢
    split at hr <;> first | exact hr | skip
    all_goals
      split_ifs at hr ⊢ with hstr
      · exact hr
      · exact evalIntBinOp_checked hr

/-- The swapped operators give the same on integers and truth values. -/
theorem evalBinOp_swap {h : Host} {safe : Bool} {op : String} {a b : Val} (hop : op ∈ commutingOps)
    (ha : isIntegral a = true) (hb : isIntegral b = true) :
    h.evalBinOp safe op "Int" a b = h.evalBinOp safe op "Int" b a := by
  have hstr : mentionsStr "Int" = false := by decide
  have hint : ∀ x y, evalIntBinOp safe op "Int" x y = evalIntBinOp safe op "Int" y x := by
    intro x y
    simp only [commutingOps, List.mem_cons, List.not_mem_nil, or_false] at hop
    rcases hop with rfl | rfl | rfl | rfl | rfl | rfl | rfl <;> cases safe <;>
      simp [evalIntBinOp, IntOp.ofSpelling, IntOp.unchecked, IntTy.eval, Int.add_comm, Int.mul_comm,
        BitVec.and_comm, BitVec.or_comm, BitVec.xor_comm, eq_comm]
  have hbits : ∀ c d, isIntegral c = true → isIntegral d = true →
      h.evalBinOp safe op "Int" c d = evalIntBinOp safe op "Int" c.bits d.bits := by
    intro c d hc hd
    cases c <;> cases hc <;> cases d <;> cases hd <;> simp [Host.evalBinOp, hstr]
  rw [hbits a b ha hb, hbits b a hb ha, hint]

/-! ## Results along a run -/

/-- A marked operator about to execute goes through checked, or traps marked as well. -/
def MarksHoldAt (P : Program) (f : Function) (s : Frame × World) : Prop :=
  ∀ d op l r ty rest, s.1.code = .binOp d op l r ty :: rest → d ∈ f.provenNoOverflow →
    P.host.evalBinOp true op ty (s.1.regs l) (s.1.regs r) =
      P.host.evalBinOp false op ty (s.1.regs l) (s.1.regs r)

/-- An operator about to execute whose operands a key may swap is on integers or truth values. -/
def SwapsIntegers (s : Frame × World) : Prop :=
  ∀ d op l r rest, s.1.code = .binOp d op l r "Int" :: rest → op ∈ commutingOps →
    isIntegral (s.1.regs l) = true ∧ isIntegral (s.1.regs r) = true

section
variable {P : Program} {f : Function} {n : Nat} {idom : Cfg.Idom} {b : BasicBlock}
  {before : List Inst} {s : Frame × World}

/-- An available result is what its operator computes on the operands as they are now. -/
def ExprsAt (P : Program) (f : Function) (idom : Cfg.Idom) (b : BasicBlock) (before : List Inst)
    (regs : ValueId → Val) : Prop :=
  ∀ c ∈ f.blocks, ∀ v op l r ty, .binOp v op l r ty ∈ c.instructions →
    Available f (Anc idom) b before v → ∀ safe,
      P.host.evalBinOp safe op ty (regs l) (regs r) = .ok (regs v)

namespace ExprsAt

theorem start (V : Verified n f idom) (hid : b.id = f.entryBlock) (regs : ValueId → Val)
    (hb : b ∈ f.blocks) : ExprsAt P f idom b [] regs := by
  obtain ⟨rank, T⟩ := V.tree
  intro c hc v op l r ty hi hav
  obtain ⟨pre, post, hi⟩ := List.append_of_mem hi
  rcases hav with h | h | ⟨d, _, hne, _, hanc⟩
  · exact absurd h (V.head_not_dest hc hb hi (List.mem_singleton_self v))
  · cases h
  · exact absurd (T.anc_entry (hid ▸ hanc)) (hid ▸ hne)

theorem after (V : Verified n f idom) (hmarks : MarksHoldAt P f s) (hat : At f idom b before s.1)
    (h : ExprsAt P f idom b before s.1.regs) {i : Inst}
    {ws : List (ValueId × Val)} {vars : String → Val} {w : World} (hcode : s.1.code = i :: rest)
    (hp : (s.1.effect P i).perform P f s.1.vars s.2 = .done ws vars w) :
    ExprsAt P f idom b (before ++ [i]) (s.1.after rest ws vars).regs := by
  intro c hc v op l r ty hj hav safe
  have hi : b.instructions = before ++ i :: rest := hcode ▸ hat.code
  obtain ⟨pre, post, hj⟩ := List.append_of_mem hj
  have hold : ∀ x, x ∉ i.dests → (s.1.after rest ws vars).regs x = s.1.regs x :=
    fun x hx => bindRegs_of_notMem (Effect.perform_dests hp ▸ hx)
  have huse : ∀ x, x = l ∨ x = r → x ∈ instructionUses (.binOp v op l r ty) := by
    rintro x (rfl | rfl) <;> simp [instructionUses]
  by_cases hv : v ∈ i.dests
  · obtain ⟨rfl, rfl, rfl⟩ := V.def_unique hat.mem hc hi hv hj (List.mem_singleton_self v)
    obtain ⟨res, hres, -, hev⟩ := binOp_result hat.fn hp
    -- the operands are not what is defined here
    have hne : ∀ x, x = l ∨ x = r → (s.1.after rest ws vars).regs x = s.1.regs x := by
      intro x hx
      apply hold
      intro hd
      obtain rfl := List.mem_singleton.mp hd
      exact V.operand_first hat.mem hi hd hc hj hd (huse x hx) (V.use_available hat.mem hi (huse x hx))
    rw [hne l (.inl rfl), hne r (.inr rfl), hres]
    by_cases hm : v ∈ f.provenNoOverflow
    · have hsame := hmarks v op l r ty rest hcode hm
      rw [decide_eq_true hm, hsame] at hev
      exact evalBinOp_checked hev safe
    · rw [decide_eq_false hm] at hev
      exact evalBinOp_checked hev safe
  · have hav' : Available f (Anc idom) b before v := hav.cases_snoc.resolve_left hv
    have hne : ∀ x, x = l ∨ x = r → (s.1.after rest ws vars).regs x = s.1.regs x := fun x hx =>
      hold x fun hd =>
        V.operand_first hat.mem hi hd hc hj (List.mem_singleton_self v) (huse x hx) hav'
    rw [hne l (.inl rfl), hne r (.inr rfl), hold v hv]
    exact h c hc v op l r ty (by rw [hj]; simp) hav' safe

theorem into (V : Verified n f idom) (hat : At f idom b b.instructions s.1)
    (h : ExprsAt P f idom b b.instructions s.1.regs) {d : BasicBlock} {vs : List Val}
    (ht : d.id ∈ b.terminator.targets) (hd : d ∈ f.blocks) :
    ExprsAt P f idom d [] (s.1.into d vs).regs := by
  intro c hc v op l r ty hj hav safe
  obtain ⟨pre, post, hj'⟩ := List.append_of_mem hj
  have hold : ∀ x, x ∉ d.params.map (·.val) → (s.1.into d vs).regs x = s.1.regs x := by
    intro x hx
    refine bindRegs_of_notMem fun hm => hx ?_
    obtain ⟨p, hp, rfl⟩ := List.mem_map.mp hm
    exact (List.of_mem_zip hp).1
  have hv : v ∉ d.params.map (·.val) := fun hm =>
    V.head_not_dest hc hd hj' (List.mem_singleton_self v) (List.mem_append_right _ hm)
  have hne : ∀ x, x = l ∨ x = r → (s.1.into d vs).regs x = s.1.regs x := by
    intro x hx
    apply hold
    intro hm
    refine V.operand_first_head hd (List.mem_append_right _ hm) hc hj' (List.mem_singleton_self v) ?_ hav
    rcases hx with rfl | rfl <;> simp [instructionUses]
  have hav' := (V.available_of_edge hat.mem hd hat.reached ht hav).resolve_left hv
  rw [hne l (.inl rfl), hne r (.inr rfl), hold v hv]
  exact h c hc v op l r ty hj hav' safe

end ExprsAt

/-- The results along a run. -/
theorem exprsAt_of_steps (V : Verified n f idom) {args : List Val} {w : World}
    (hmarks : ∀ s, P.leafMachine.Steps (f.start args, w) s → MarksHoldAt P f s)
    (h : P.leafMachine.Steps (f.start args, w) s) :
    ∃ b before, At f idom b before s.1 ∧ ExprsAt P f idom b before s.1.regs :=
  V.invariant (J := fun b before s => ExprsAt P f idom b before s.1.regs)
    (fun _ hb hid => .start V hid _ hb)
    (fun s _ _ _ _ _ _ _ hs hat hJ hcode hp => hJ.after V (hmarks s hs) hat hcode hp)
    (fun _ _ _ _ _ hat hJ _ ht hc _ => hJ.into V hat ht hc) h

/-- Equal keys are of one operator and type, on the same operands or on the swapped ones. -/
theorem canonicalKey_eq {op op' ty ty' : String} {l r l' r' : ValueId}
    (h : canonicalKey op' ty' l' r' = canonicalKey op ty l r) :
    op' = op ∧ ty' = ty ∧ (l' = l ∧ r' = r ∨ l' = r ∧ r' = l ∧ ty = "Int" ∧ op ∈ commutingOps) := by
  unfold canonicalKey at h
  split_ifs at h with h₁ h₂ h₂ <;> obtain ⟨rfl, rfl, rfl, rfl⟩ := ExprKey.mk.inj h
  · exact ⟨rfl, rfl, .inl ⟨rfl, rfl⟩⟩
  · exact ⟨rfl, rfl, .inr ⟨rfl, rfl, h₁.1, h₁.2.1⟩⟩
  · exact ⟨rfl, rfl, .inr ⟨rfl, rfl, h₂.1, h₂.2.1⟩⟩
  · exact ⟨rfl, rfl, .inl ⟨rfl, rfl⟩⟩

theorem DefinedBefore.available {dom : BasicBlockId → BasicBlockId → Bool}
    {anc : BasicBlockId → BasicBlockId → Prop} (hdom : ∀ a c, dom a c = true → anc a c)
    {key : ExprKey} {v : ValueId} {k : Nat} (h : DefinedBefore f dom b k key v) :
    Available f anc b (b.instructions.take k) v := by
  obtain ⟨c, hc, j, op, l, r, ty, hj, -, ⟨rfl, hlt⟩ | ⟨hne, hd⟩⟩ := h
  · refine .inr (.inl (mem_destsOf.mpr ⟨j, .binOp v op l r ty, ?_, List.mem_singleton_self v⟩))
    rw [List.getElem?_take_of_lt hlt]
    exact hj
  · refine .inr (.inr ⟨c, hc, hne, List.mem_append_right _ ?_, hdom _ _ hd⟩)
    exact mem_destsOf.mpr ⟨j, .binOp v op l r ty, hj, List.mem_singleton_self v⟩

/-- **A reused result is the one the operator computes.** -/
theorem ExprsAt.reused (h : ExprsAt P f idom b before s.1.regs) (hswap : SwapsIntegers s)
    {dom : BasicBlockId → BasicBlockId → Bool} (hdom : ∀ a c, dom a c = true → Anc idom a c)
    (hat : At f idom b before s.1) {d l r v : ValueId}
    (hcode : s.1.code = .binOp d op l r ty :: rest)
    (hv : DefinedBefore f dom b before.length (canonicalKey op ty l r) v) (safe : Bool) :
    P.host.evalBinOp safe op ty (s.1.regs l) (s.1.regs r) = .ok (s.1.regs v) := by
  have hav := hv.available hdom
  rw [hat.code, List.take_left] at hav
  obtain ⟨c, hc, j, op', l', r', ty', hj, hkey, -⟩ := hv
  have hval := h c hc v op' l' r' ty' (List.mem_of_getElem? hj) hav safe
  obtain ⟨rfl, rfl, ⟨rfl, rfl⟩ | ⟨rfl, rfl, rfl, hop⟩⟩ := canonicalKey_eq hkey
  · exact hval
  · obtain ⟨hl, hr⟩ := hswap d _ _ _ rest hcode hop
    rw [evalBinOp_swap hop hl hr]
    exact hval

end

/-! ## The pass -/

section
variable {P : Program} {f : Function} {n : Nat} {idom : Cfg.Idom} {g : BasicBlock → List Inst}

theorem BlocksReused.sameDests {dom : BasicBlockId → BasicBlockId → Bool}
    (hg : BlocksReused f dom g) : SameDests f g := by
  intro b hb
  apply List.ext_getElem?
  intro k
  rw [List.getElem?_map, List.getElem?_map]
  by_cases hk : k < b.instructions.length
  · have hk' : k < (g b).length := by rwa [hg.length b hb]
    rw [List.getElem?_eq_getElem hk, List.getElem?_eq_getElem hk', Option.map_some, Option.map_some,
      (hg.code b hb k _ _ (List.getElem?_eq_getElem hk) (List.getElem?_eq_getElem hk')).dests]
  · have hlen := hg.length b hb
    rw [List.getElem?_eq_none (by omega), List.getElem?_eq_none (by omega)]

theorem BlocksReused.accepts (V : Verified n f idom)
    (hg : BlocksReused f (fun a b => Cfg.dominates n idom a b = some true) g) :
    Verified n (f.mapCode g) idom := by
  refine V.mapCode_pointwise hg.sameDests fun b hb before i rest i' hi hi' v hv => ?_
  cases hg.code b hb before.length i i' (by rw [hi]; simp) hi' with
  | same => exact V.uses b hb before i rest hi v hv
  | copy hdef =>
    obtain rfl := List.mem_singleton.mp hv
    have hav := hdef.available
      fun a c h => of_decide_eq_true h
    rwa [hi, List.take_left] at hav

/-- An operator and the copy in its place have the same effect. -/
theorem BlocksReused.mimics {s : Frame × World}
    {m : Nat} (V : Verified m f idom) (hg : BlocksReused f (fun a b => Cfg.dominates n idom a b = some true) g)
    (hexprs : ∃ b before, At f idom b before s.1 ∧ ExprsAt P f idom b before s.1.regs)
    (hswap : SwapsIntegers s) : Mimics P f idom g s := by
  intro b before i rest i' hat hcode hi'
  have hi : b.instructions = before ++ i :: rest := hcode ▸ hat.code
  cases hg.code b hat.mem before.length i i' (by rw [hi]; simp) hi' with
  | same => rfl
  | @copy d l r v op ty hdef =>
    obtain ⟨b', before', hat', hJ⟩ := hexprs
    obtain ⟨rfl, rfl⟩ := hat.unique V hat' hcode (List.mem_singleton_self d)
    have hsame := hJ.reused hswap (fun a c h => Cfg.anc_of_dominates (of_decide_eq_true h)) hat hcode
      hdef (d ∈ f.provenNoOverflow)
    simp only [Inst.effect, hsame]
    rfl

/-- A copy that the pass has put in the place of an operator: the copied value is the result of the
same operator, of the same type, on the same operands or on swapped ones, and whenever a run comes to
the operator, it is what the operator would compute. -/
def CopiesResult (P : Program) (f : Function) (d v : ValueId) (op ty : String) (l r : ValueId)
    (args : List Val) (w : World) : Prop :=
  ∃ c ∈ f.blocks, ∃ l' r', .binOp v op l' r' ty ∈ c.instructions ∧
    (l' = l ∧ r' = r ∨ l' = r ∧ r' = l ∧ ty = "Int" ∧ op ∈ commutingOps) ∧
    ∀ s rest, P.leafMachine.Steps (f.start args, w) s → s.1.code = .binOp d op l r ty :: rest →
      ∀ safe, P.host.evalBinOp safe op ty (s.1.regs l) (s.1.regs r) = .ok (s.1.regs v)

/-- **Common-subexpression elimination** terminates on an accepted function, under any verdicts, and
its result is accepted. Where the marks of `proven_no_overflow` hold and the operators a key swaps are
on integers, both functions run the same, and every copy is of the value the replaced operator
computes. -/
theorem eliminateCommonSubexpressions_preserves (P : Program) (f : Function) (hf : Accepts f)
    (approve : ExprKey → Bool) :
    (∃ n r, eliminateCommonSubexpressionsWith approve n f = some r) ∧
      ∀ n f' count, eliminateCommonSubexpressionsWith approve n f = some (f', count) →
        Accepts f' ∧ ∀ args w,
          (∀ s, P.leafMachine.Steps (f.start args, w) s → MarksHoldAt P f s ∧ SwapsIntegers s) →
          (∀ o, P.RunsTo f' args w o ↔ P.RunsTo f args w o) ∧
          ∀ b ∈ f.blocks, ∀ (k : Nat) d op l r ty v, b.instructions[k]? = some (.binOp d op l r ty) →
            (∃ b' ∈ f'.blocks, b'.id = b.id ∧ b'.instructions[k]? = some (.unOp d "copy" v ty)) →
            CopiesResult P f d v op ty l r args w := by
  obtain ⟨m, hm⟩ := hf
  obtain ⟨idom, V⟩ := verifyFunction_ok_iff_verified.mp hm
  refine ⟨⟨m, _, congrArg (Option.map _) V.dominance⟩, fun n f' count h => ?_⟩
  obtain ⟨idom', g, hidom, rfl, hg⟩ := eliminate_reused V.ids h
  obtain rfl := Cfg.computeDominance_unique V.dominance hidom
  constructor
  · -- with fuel for both, what the walk takes to dominate does
    have hg' : BlocksReused f (fun a b => Cfg.dominates (max m n) idom a b = some true) g := by
      refine ⟨hg.length, fun b hb k i i' hi hi' => ?_⟩
      cases hg.code b hb k i i' hi hi' with
      | same => exact .same _
      | copy hdef =>
        obtain ⟨c, hc, j, op, l, r, ty, hj, hkey, hplace⟩ := hdef
        refine .copy ⟨c, hc, j, op, l, r, ty, hj, hkey, hplace.imp id fun ⟨hne, hd⟩ => ⟨hne, ?_⟩⟩
        exact decide_eq_true (Cfg.dominates_mono (Nat.le_max_right m n) (of_decide_eq_true hd))
    exact ⟨_, verifyFunction_ok_iff_verified.mpr ⟨idom, hg'.accepts (V.mono (Nat.le_max_left m n))⟩⟩
  · intro args w hgood
    have hexprs : ∀ s, P.leafMachine.Steps (f.start args, w) s →
        ∃ b before, At f idom b before s.1 ∧ ExprsAt P f idom b before s.1.regs :=
      fun s hs => exprsAt_of_steps V (fun s hs => (hgood s hs).1) hs
    refine ⟨runsTo_mapCode_iff V hg.sameDests fun s hs =>
      hg.mimics V (hexprs s hs) (hgood s hs).2, ?_⟩
    rintro b hb k d op l r ty v hi ⟨b', hb', hid, hi'⟩
    obtain ⟨b₁, hb₁, rfl⟩ := mem_mapCode.mp hb'
    obtain rfl := List.inj_on_of_nodup_map V.ids hb₁ hb hid
    cases hg.code b₁ hb k _ _ hi hi' with
    | copy hdef =>
      have hdef' := hdef
      obtain ⟨c, hc, j, op', l', r', ty', hj, hkey, -⟩ := hdef
      obtain ⟨rfl, rfl, hsides⟩ := canonicalKey_eq hkey
      refine ⟨c, hc, l', r', List.mem_of_getElem? hj, hsides, fun s rest hs hcode safe => ?_⟩
      obtain ⟨b₂, before, hat, hJ⟩ := hexprs s hs
      obtain ⟨pre, post, hsplit⟩ := List.append_of_mem (List.mem_of_getElem? hi)
      obtain ⟨rfl, rfl, -⟩ := V.def_unique hat.mem hb (hcode ▸ hat.code) (List.mem_singleton_self d)
        hsplit (List.mem_singleton_self d)
      have hk : k = before.length := by
        have hs₁ := site_of_dest V.once hb hi (List.mem_singleton_self d)
        rw [site_of_dest V.once hb (Verified.getElem?_split hsplit) (List.mem_singleton_self d)] at hs₁
        exact (Option.some.inj (Prod.mk.inj (Option.some.inj hs₁)).2).symm
      exact hJ.reused (hgood s hs).2 (fun a c h => Cfg.anc_of_dominates (of_decide_eq_true h)) hat
        hcode (hk ▸ hdef') safe

end

/-- `a + b`, and then the sum of two of the parameters. -/
def addsTwice (marked : List ValueId) (left right : ValueId) : Function where
  name := "f"
  params := [⟨"a", "T", 0⟩, ⟨"b", "T", 1⟩]
  returnType := "T"
  provenNoOverflow := marked
  blocks :=
    [{ id := 0, instructions := [.binOp 2 "+" 0 1 "Int", .binOp 3 "+" left right "Int"]
       terminator := .ret (some 3) }]

/-- The operator about to execute is on integers. -/
def onIntegers (s : Frame × World) : Bool :=
  match s.1.code with
  | .binOp _ _ l r _ :: _ => isIntegral (s.1.regs l) && isIntegral (s.1.regs r)
  | _ => true

theorem swapsIntegers_of_onIntegers {s : Frame × World} (h : onIntegers s = true) : SwapsIntegers s := by
  intro d op l r rest hcode _
  simp only [onIntegers, hcode] at h
  exact Bool.and_eq_true_iff.mp h

/-- On `2` and `3` the second sum is a copy of the first. -/
theorem eliminateCommonSubexpressions_preserves_sum :
    ∃ f', eliminateCommonSubexpressionsWith (fun _ => true) 16 (addsTwice [] 1 0) = some (f', 1) ∧
      Accepts f' ∧ (Program.bare []).RunsTo f' [.int 2, .int 3] World.initial
        ⟨.returned (.int 5), [.returned (.int 5)]⟩ := by
  obtain ⟨haccepts, hruns⟩ := (eliminateCommonSubexpressions_preserves (Program.bare [])
    (addsTwice [] 1 0) ⟨16, rfl⟩ fun _ => true).2 16 _ 1 rfl
  refine ⟨_, rfl, haccepts, ((hruns [.int 2, .int 3] World.initial fun s hs => ⟨?_, ?_⟩).1 _).mpr
    (Machine.halts_of_run (n := 16) rfl)⟩
  · intro d op l r ty rest _ hm
    exact absurd hm List.not_mem_nil
  · exact swapsIntegers_of_onIntegers
      (Machine.forall_of_always (n := 16) (p := onIntegers) rfl hs)

/-- Both conditions are needed. An `Int` operator on strings appends them, and its operands are swapped
all the same; and a sum that wraps because of its mark is copied to where the same sum traps. -/
theorem eliminateCommonSubexpressions_needs_both :
    (¬∀ (P : Program) (f : Function), Accepts f → ∀ n f' count,
      eliminateCommonSubexpressions n f = some (f', count) → ∀ args w,
        (∀ s, P.leafMachine.Steps (f.start args, w) s → MarksHoldAt P f s) →
        ∀ o, P.RunsTo f' args w o ↔ P.RunsTo f args w o) ∧
    ¬∀ (P : Program) (f : Function), Accepts f → ∀ n f' count,
      eliminateCommonSubexpressions n f = some (f', count) → ∀ args w,
        (∀ s, P.leafMachine.Steps (f.start args, w) s → SwapsIntegers s) →
        ∀ o, P.RunsTo f' args w o ↔ P.RunsTo f args w o := by
  constructor
  · intro h
    have hruns := h (Program.bare []) (addsTwice [] 1 0) ⟨16, rfl⟩ 16 _ 1 rfl [.str "x", .str "y"]
      World.initial (fun s _ d op l r ty rest _ hm => absurd hm List.not_mem_nil)
      ⟨.returned (.str "xy"), [.returned (.str "xy")]⟩
    have horiginal : (Program.bare []).RunsTo (addsTwice [] 1 0) [.str "x", .str "y"] World.initial
        ⟨.returned (.str "yx"), [.returned (.str "yx")]⟩ := Machine.halts_of_run (n := 16) rfl
    have hsame := Machine.Halts.unique (hruns.mp (Machine.halts_of_run (n := 16) rfl)) horiginal
    simp at hsame
  · intro h
    have hruns := h (Program.bare []) (addsTwice [2] 0 1) ⟨16, rfl⟩ 16 _ 1 rfl
      [.int (.intMax 64), .int 1] World.initial
      (fun s hs => swapsIntegers_of_onIntegers
        (Machine.forall_of_always (n := 16) (p := onIntegers) rfl hs))
      ⟨.returned (.int (.intMin 64)), [.returned (.int (.intMin 64))]⟩
    have horiginal : (Program.bare []).RunsTo (addsTwice [2] 0 1) [.int (.intMax 64), .int 1]
        World.initial ⟨.trapped .overflow, []⟩ := Machine.halts_of_run (n := 16) rfl
    cases Machine.Halts.unique (hruns.mp (Machine.halts_of_run (n := 16) rfl)) horiginal

end Datara.Optimizer
