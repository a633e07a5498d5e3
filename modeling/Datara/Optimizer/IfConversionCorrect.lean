import Datara.Optimizer.IfConversion

/-!
# If-conversion, correct

Below a diamond the two programs part: the original runs one arm, the result runs both. What the
arm not taken writes is never looked at, because its values are available nowhere else
(`Shape.not_available_of_arm`), and what it computes is harmless exactly as long as it does not
fault, which is what `Speculates` asks of a run. The relation `IfAt` follows the original through
head, arm and merge.
-/

namespace Datara.Optimizer

open Dmir Library

/-! ## What was matched -/

/-- A block is an arm of a diamond. -/
structure IsArm (f : Function) (head : BasicBlock) (id merge : BasicBlockId) (arm : BasicBlock)
    (args : List ValueId) : Prop where
  mem : arm ∈ f.blocks
  id_eq : arm.id = id
  params : arm.params = []
  found : armBranch f id = some (arm, merge, args)
  pure : ∀ i ∈ arm.instructions, isArmPure i = true
  terminator : arm.terminator = .branch merge args
  sole : predCount f id = 1
  target : id ∈ head.terminator.targets

/-- A diamond as the pass has matched it. -/
structure Shape (f : Function) (D : Diamond) (head thenB elseB : BasicBlock)
    (thenArgs elseArgs : List ValueId) : Prop where
  headAt : f.blocks[D.headPos]? = some head
  terminator : head.terminator = .condBranch D.cond D.thenId [] D.elseId []
  arms_ne : D.thenId ≠ D.elseId
  thenArm : IsArm f head D.thenId D.merge thenB thenArgs
  elseArm : IsArm f head D.elseId D.merge elseB elseArgs
  length : thenArgs.length = elseArgs.length
  merge_head : D.merge ≠ head.id
  merge_then : D.merge ≠ D.thenId
  merge_else : D.merge ≠ D.elseId

/-- The head after the conversion. -/
def convertedHead (D : Diamond) (head thenB elseB : BasicBlock) (merged : List Inst × List ValueId) :
    BasicBlock :=
  { head with
    instructions := head.instructions ++ thenB.instructions ++ elseB.instructions ++ merged.1
    terminator := .branch D.merge merged.2 }

/-- The result of the pass on a diamond. -/
def collapsed (f : Function) (D : Diamond) (head : BasicBlock) : Function :=
  collapse f D.headPos (f.blocks.findIdx (·.id = D.thenId)) (f.blocks.findIdx (·.id = D.elseId)) head

theorem armBranch_eq_some {f : Function} {id target : BasicBlockId} {b : BasicBlock}
    {args : List ValueId} (h : armBranch f id = some (b, target, args)) :
    b ∈ f.blocks ∧ b.id = id ∧ b.params = [] ∧ b.terminator = .branch target args := by
  unfold armBranch at h
  split at h
  case h_1 c hc =>
    split_ifs at h with hp
    split at h
    case h_1 t as ht =>
      obtain ⟨rfl, rfl, rfl⟩ : c = b ∧ t = target ∧ as = args := by simpa using h
      exact ⟨List.mem_of_find?_eq_some hc, by simpa using List.find?_some hc, hp.1, ht⟩
    case h_2 => cases h
  case h_2 => cases h

theorem shape_of_findDiamond {f : Function} {D : Diamond} {head thenB elseB : BasicBlock}
    {tt et : BasicBlockId} {thenArgs elseArgs : List ValueId} (hD : findDiamond f = some D)
    (hhead : f.blocks[D.headPos]? = some head)
    (hthen : armBranch f D.thenId = some (thenB, tt, thenArgs))
    (helse : armBranch f D.elseId = some (elseB, et, elseArgs))
    (hm : ¬(D.merge = head.id ∨ D.merge = D.thenId ∨ D.merge = D.elseId)) :
    Shape f D head thenB elseB thenArgs elseArgs := by
  obtain ⟨⟨b, k⟩, hb, hd⟩ := List.exists_of_findSome?_eq_some hD
  have hbk := List.mk_mem_zipIdx_iff_getElem?.mp hb
  unfold diamondAt at hd
  split at hd
  case h_2 => cases hd
  case h_1 cond thenId thenArgs' elseId elseArgs' hterm =>
    split_ifs at hd with h₁ h₂
    obtain ⟨⟨tb, tt', ta⟩, ht, hd⟩ := Option.bind_eq_some_iff.mp hd
    obtain ⟨⟨eb, et', ea⟩, he, hd⟩ := Option.bind_eq_some_iff.mp hd
    simp only at hd
    split_ifs at hd with h₃ h₄ h₅
    cases hd
    obtain rfl : b = head := Option.some.inj (hbk.symm.trans hhead)
    obtain ⟨rfl, rfl, rfl⟩ : tb = thenB ∧ tt' = tt ∧ ta = thenArgs := by simpa [ht] using hthen
    obtain ⟨rfl, rfl, rfl⟩ : eb = elseB ∧ et' = et ∧ ea = elseArgs := by simpa [he] using helse
    simp only [not_or, ne_eq, not_not] at h₁ h₂ h₃ hm
    simp only [Bool.and_eq_true, List.all_eq_true] at h₄
    obtain ⟨ht₁, ht₂, ht₃, ht₄⟩ := armBranch_eq_some ht
    obtain ⟨he₁, he₂, he₃, he₄⟩ := armBranch_eq_some he
    have htargets : b.terminator.targets = [thenId, elseId] := by rw [hterm]; rfl
    exact {
      headAt := hhead
      terminator := by rw [hterm, h₁.1, h₁.2.1]
      arms_ne := h₁.2.2
      thenArm := ⟨ht₁, ht₂, ht₃, ht, h₄.1, ht₄, h₂.1, by simp [htargets]⟩
      elseArm := ⟨he₁, he₂, he₃, by rw [he, h₃.1], h₄.2, by rw [he₄, h₃.1], h₂.2, by simp [htargets]⟩
      length := h₃.2
      merge_head := hm.1
      merge_then := hm.2.1
      merge_else := hm.2.2 }

theorem convert_cases (f : Function) :
    (convertBranchesToSelect f).1 = f ∨
      ∃ D head thenB elseB thenArgs elseArgs selTypes,
        findDiamond f = some D ∧ (convertBranchesToSelect f).2 = true ∧ Shape f D head thenB elseB thenArgs elseArgs ∧
          (thenArgs.zip elseArgs).zipIdx.mapM (selectTy (diamondTypes f head thenB elseB)
            (f.blocks.find? (·.id = D.merge))) = some selTypes ∧
          (convertBranchesToSelect f).1 =
            collapsed f D (convertedHead D head thenB elseB
              (mergeArgs D.cond f.maxValueId ((thenArgs.zip elseArgs).zip selTypes))) := by
  unfold convertBranchesToSelect
  split_ifs with hlen
  · exact .inl rfl
  · split
    case h_1 => exact .inl rfl
    case h_2 D hD =>
      split
      case h_2 => exact .inl rfl
      case h_1 head thenB tt thenArgs elseB et elseArgs hhead hthen helse =>
        split_ifs with hm
        · exact .inl rfl
        · simp only
          split
          case h_1 => exact .inl rfl
          case h_2 selTypes hs =>
            exact .inr ⟨D, head, thenB, elseB, thenArgs, elseArgs, selTypes, hD, rfl,
              shape_of_findDiamond hD hhead hthen helse hm, hs, rfl⟩

/-! ## The blocks of the result -/

section
variable {f : Function} {D : Diamond} {head thenB elseB : BasicBlock}
  {thenArgs elseArgs : List ValueId}

/-- With unique ids, the position of a block is where its id stands. -/
theorem findIdx_eq_iff {bs : List BasicBlock} {b : BasicBlock} (hids : (bs.map (·.id)).Nodup)
    (hb : b ∈ bs) (k : Nat) :
    k = bs.findIdx (·.id = b.id) ↔ ∃ c, bs[k]? = some c ∧ c.id = b.id := by
  have hlt : bs.findIdx (·.id = b.id) < bs.length :=
    List.findIdx_lt_length_of_exists ⟨b, hb, by simp⟩
  have hat : bs[bs.findIdx (·.id = b.id)].id = b.id := by
    simpa using List.findIdx_getElem (w := hlt)
  constructor
  · rintro rfl
    exact ⟨_, List.getElem?_eq_getElem hlt, hat⟩
  · rintro ⟨c, hk, hc⟩
    obtain ⟨hklt, rfl⟩ := List.getElem?_eq_some_iff.mp hk
    have hk' : k < (bs.map (·.id)).length := by simpa using hklt
    have hlt' : bs.findIdx (·.id = b.id) < (bs.map (·.id)).length := by simpa using hlt
    have hinj : (bs.map (·.id))[k] = (bs.map (·.id))[bs.findIdx (·.id = b.id)] := by
      simp [hc, hat]
    exact (List.Nodup.getElem_inj_iff hids).mp hinj

theorem mem_eraseIdx_pair {α : Type} {l : List α} {i j : Nat} (hij : i ≠ j) {x : α} :
    x ∈ (l.eraseIdx (max i j)).eraseIdx (min i j) ↔ ∃ k, k ≠ i ∧ k ≠ j ∧ l[k]? = some x := by
  rw [List.mem_eraseIdx_iff_getElem?]
  constructor
  · rintro ⟨k, hk, hx⟩
    rw [List.getElem?_eraseIdx] at hx
    split_ifs at hx with hlt
    · exact ⟨k, by omega, by omega, hx⟩
    · exact ⟨k + 1, by omega, by omega, hx⟩
  · rintro ⟨k, hi, hj, hx⟩
    by_cases hlt : k < max i j
    · exact ⟨k, by omega, by rw [List.getElem?_eraseIdx, if_pos hlt]; exact hx⟩
    · refine ⟨k - 1, by omega, ?_⟩
      rw [List.getElem?_eraseIdx, if_neg (by omega), Nat.sub_add_cancel (by omega)]
      exact hx

namespace Shape

variable (S : Shape f D head thenB elseB thenArgs elseArgs) (hids : (f.blocks.map (·.id)).Nodup)
  {b head' : BasicBlock}

include S

theorem head_mem : head ∈ f.blocks := List.mem_of_getElem? S.headAt

theorem head_ne_arm {arm : BasicBlock} {args : List ValueId}
    (h : arm.terminator = .branch D.merge args) : head ≠ arm := by
  rintro rfl
  rw [S.terminator] at h
  cases h

include hids

theorem mem_collapsed :
    b ∈ (collapsed f D head').blocks ↔
      b = head' ∨ b ∈ f.blocks ∧ b ≠ head ∧ b ≠ thenB ∧ b ≠ elseB := by
  have harm : ∀ {arm : BasicBlock} {args : List ValueId} {id : BasicBlockId},
      IsArm f head id D.merge arm args → ∀ k c, f.blocks[k]? = some c →
        (k = f.blocks.findIdx (·.id = id) ↔ c = arm) := by
    intro arm args id A k c hk
    have := findIdx_eq_iff hids A.mem k
    rw [A.id_eq] at this
    rw [this]
    constructor
    · rintro ⟨c', hk', hid⟩
      cases hk.symm.trans hk'
      exact List.inj_on_of_nodup_map hids (List.mem_of_getElem? hk) A.mem (hid.trans A.id_eq.symm)
    · rintro rfl
      exact ⟨c, hk, A.id_eq⟩
  have hthen := harm S.thenArm
  have helse := harm S.elseArm
  have hpos : f.blocks.findIdx (·.id = D.thenId) ≠ f.blocks.findIdx (·.id = D.elseId) := by
    intro he
    obtain ⟨k, hk⟩ := List.mem_iff_getElem?.mp S.thenArm.mem
    have hk' := (helse k _ hk).mp (((hthen k _ hk).mpr rfl).trans he)
    exact S.arms_ne (by rw [← S.thenArm.id_eq, hk', S.elseArm.id_eq])
  have hhead : ∀ k c, f.blocks[k]? = some c → (k = D.headPos ↔ c = head) := by
    intro k c hk
    constructor
    · rintro rfl
      exact Option.some.inj (hk.symm.trans S.headAt)
    · rintro rfl
      have h₁ := (findIdx_eq_iff hids S.head_mem k).mpr ⟨c, hk, rfl⟩
      have h₂ := (findIdx_eq_iff hids S.head_mem D.headPos).mpr ⟨c, S.headAt, rfl⟩
      exact h₁.trans h₂.symm
  have hlt : D.headPos < f.blocks.length := (List.getElem?_eq_some_iff.mp S.headAt).1
  simp only [collapsed, collapse]
  rw [mem_eraseIdx_pair hpos]
  constructor
  · rintro ⟨k, h₁, h₂, hk⟩
    rw [List.getElem?_set] at hk
    split_ifs at hk with hkh
    · exact .inl (Option.some.inj hk).symm
    · refine .inr ⟨List.mem_of_getElem? hk, fun he => hkh ?_, fun he => h₁ ?_, fun he => h₂ ?_⟩
      · exact ((hhead k b hk).mpr he).symm
      · exact (hthen k b hk).mpr he
      · exact (helse k b hk).mpr he
  · rintro (rfl | ⟨hb, h₁, h₂, h₃⟩)
    · refine ⟨D.headPos, fun he => ?_, fun he => ?_, by rw [List.getElem?_set_self hlt]⟩
      · exact S.head_ne_arm S.thenArm.terminator ((hthen _ _ S.headAt).mp he)
      · exact S.head_ne_arm S.elseArm.terminator ((helse _ _ S.headAt).mp he)
    · obtain ⟨k, hk⟩ := List.mem_iff_getElem?.mp hb
      refine ⟨k, fun he => h₂ ((hthen k b hk).mp he), fun he => h₃ ((helse k b hk).mp he), ?_⟩
      rw [List.getElem?_set_ne (fun he => h₁ ((hhead k b hk).mp he.symm))]
      exact hk

theorem collapsed_ids (hid : head'.id = head.id) : ((collapsed f D head').blocks.map (·.id)).Nodup := by
  have hset : (f.blocks.set D.headPos head').map (·.id) = f.blocks.map (·.id) := by
    have hlt := (List.getElem?_eq_some_iff.mp S.headAt)
    have hlen : D.headPos < (f.blocks.map (·.id)).length := by simpa using hlt.1
    have : head'.id = (f.blocks.map (·.id))[D.headPos] := by
      rw [List.getElem_map, hlt.2, hid]
    rw [List.map_set, this, List.set_getElem_self]
  refine (hset ▸ hids).sublist (List.Sublist.map _ ?_)
  exact (List.eraseIdx_sublist _ _).trans (List.eraseIdx_sublist _ _)

theorem getBlock_head (hid : head'.id = head.id) : (collapsed f D head').getBlock head.id = some head' :=
  hid ▸ Function.getBlock_of_mem (S.collapsed_ids hids hid) ((S.mem_collapsed hids).mpr (.inl rfl))

theorem getBlock_other (hid : head'.id = head.id) (hb : b ∈ f.blocks) (h₁ : b ≠ head)
    (h₂ : b ≠ thenB) (h₃ : b ≠ elseB) : (collapsed f D head').getBlock b.id = some b :=
  Function.getBlock_of_mem (S.collapsed_ids hids hid)
    ((S.mem_collapsed hids).mpr (.inr ⟨hb, h₁, h₂, h₃⟩))

end Shape

/-! ## What an arm writes -/

theorem IsArm.pred_eq {id merge : BasicBlockId} {arm b : BasicBlock} {args : List ValueId}
    (A : IsArm f head id merge arm args) (hhead : head ∈ f.blocks) (hb : b ∈ f.blocks)
    (ht : id ∈ b.terminator.targets) : b = head :=
  eq_of_predCount (Nat.le_of_eq A.sole) hb hhead ht A.target

section
variable {n : Nat} {idom : Cfg.Idom} {id merge : BasicBlockId} {arm : BasicBlock}
  {args : List ValueId} {v : ValueId} {before : List Inst}

section
variable (A : IsArm f head id merge arm args)
include A

theorem IsArm.source_eq (hhead : head ∈ f.blocks)
    {p : BasicBlockId} (h : arm.id ∈ Cfg.successors f p) : p = head.id := by
  obtain ⟨b, hb, hpb⟩ := List.mem_flatMap.mp (Cfg.mem_predecessors.mpr h)
  obtain ⟨s, hs, rfl⟩ := List.mem_map.mp hpb
  obtain ⟨hs, he⟩ := List.mem_filter.mp hs
  obtain rfl : s = arm.id := of_decide_eq_true he
  rw [A.pred_eq hhead hb (A.id_eq ▸ Terminator.mem_successors.mp hs)]

theorem IsArm.reach_head (V : Verified n f idom)
    (hhead : head ∈ f.blocks) (hentry : id ≠ f.entryBlock) (h : (idom arm.id).isSome) :
    (idom head.id).isSome := by
  obtain ⟨rank, T⟩ := V.tree
  obtain ⟨p, hp, hedge, _⟩ := T.pred h (by rw [A.id_eq]; exact hentry)
  rwa [A.source_eq hhead hedge] at hp

theorem IsArm.available (V : Verified n f idom)
    (hhead : head ∈ f.blocks) (hreach : (idom head.id).isSome)
    (h : Available f (Anc idom) arm before v) :
    v ∈ destsOf before ∨ Available f (Anc idom) head head.instructions v := by
  have edge : Available f (Anc idom) arm [] v →
      Available f (Anc idom) head head.instructions v := fun h => by
    have := V.available_of_edge hhead A.mem hreach (by rw [A.id_eq]; exact A.target) h
    rw [A.params] at this
    exact this.resolve_left List.not_mem_nil
  rcases h with h | h | h
  · exact .inr (edge (.inl h))
  · exact .inl h
  · exact .inr (edge (.inr (.inr h)))

theorem IsArm.arg_le (hv : v ∈ args) : v ≤ f.maxValueId := by
  refine le_maxValueId (List.mem_append_right _ (List.mem_flatMap.mpr ⟨arm, A.mem, ?_⟩))
  refine List.mem_append_right _ ?_
  rw [A.terminator]
  exact hv

theorem IsArm.not_available (V : Verified n f idom)
    (hhead : head ∈ f.blocks) (hne : head ≠ arm) (hreach : (idom head.id).isSome)
    (hentry : id ≠ f.entryBlock) (hv : v ∈ destsOf arm.instructions) :
    ¬Available f (Anc idom) head head.instructions v := by
  obtain ⟨i, hi, hvi⟩ := List.mem_flatMap.mp hv
  obtain ⟨pre, post, hsplit⟩ := List.append_of_mem hi
  -- the arm is the one block that defines the value
  have only : ∀ c ∈ f.blocks, v ∈ destsOf c.instructions → arm = c := by
    intro c hc hvc
    obtain ⟨j, hj, hvj⟩ := List.mem_flatMap.mp hvc
    obtain ⟨pre', post', hsplit'⟩ := List.append_of_mem hj
    exact (V.def_unique A.mem hc hsplit hvi hsplit' hvj).1
  rintro (h | h | ⟨c, hc, hcn, h, hanc⟩)
  · exact V.head_not_dest A.mem hhead hsplit hvi h
  · exact hne (only head hhead h).symm
  · rcases List.mem_append.mp h with h | h
    · exact V.head_not_dest A.mem hc hsplit hvi h
    · obtain rfl := only c hc h
      obtain ⟨rank, T⟩ := V.tree
      have hin : (idom arm.id).isSome :=
        T.closed hreach ((V.mem_successors hhead).mpr (by rw [A.id_eq]; exact A.target))
      exact T.not_anc_of_sole hin (by rw [A.id_eq]; exact hentry)
        (fun q hq => A.source_eq hhead hq) hanc

end

end

/-! ## Running an arm -/

/-- Run instructions that only compute, on the registers. -/
def speculate (h : Host) (safe : List ValueId) : List Inst → (ValueId → Val) →
    Except Trap (ValueId → Val)
  | [], rd => .ok rd
  | i :: is, rd =>
    match i.effect h safe rd with
    | .compute d (.ok v) => speculate h safe is (Function.update rd d v)
    | .compute _ (.error t) => .error t
    | _ => speculate h safe is rd

section
variable {h : Host} {safe : List ValueId} {is js : List Inst} {rd rd' r : ValueId → Val} {i : Inst}

theorem effect_of_isArmPure (safe : List ValueId) (hi : isArmPure i = true) :
    ∃ d, i.dests = [d] ∧ ∀ rd, ∃ x, i.effect h safe rd = .compute d x := by
  cases i with
  | constInt d _ | constFloat d _ | constBool d _ | constStr d _ | binOp d _ _ _ _ | unOp d _ _ _
  | select d _ _ _ _ => exact ⟨d, rfl, fun rd => ⟨_, rfl⟩⟩
  | _ => cases hi

theorem speculate_cons (hi : isArmPure i = true) (hs : speculate h safe (i :: is) rd = .ok r) :
    ∃ d v, i.dests = [d] ∧ i.effect h safe rd = .compute d (.ok v) ∧
      speculate h safe is (Function.update rd d v) = .ok r := by
  obtain ⟨d, hd, he⟩ := effect_of_isArmPure (h := h) safe hi
  obtain ⟨x, hx⟩ := he rd
  cases x with
  | error t => simp [speculate, hx] at hs
  | ok v => exact ⟨d, v, hd, hx, by simpa [speculate, hx] using hs⟩

theorem speculate_frame (hp : ∀ i ∈ is, isArmPure i = true) (hs : speculate h safe is rd = .ok r)
    {v : ValueId} (hv : v ∉ destsOf is) : r v = rd v := by
  induction is generalizing rd with
  | nil => cases hs; rfl
  | cons i is ih =>
    rw [List.forall_mem_cons] at hp
    obtain ⟨d, u, hd, _, hs⟩ := speculate_cons hp.1 hs
    rw [destsOf, List.flatMap_cons, List.mem_append, not_or, hd, List.mem_singleton] at hv
    rw [ih hp.2 hs hv.2, Function.update_of_ne hv.1]

theorem speculate_congr (hp : ∀ i ∈ is, isArmPure i = true)
    (hr : ∀ before i after, is = before ++ i :: after → ∀ v ∈ i.reads,
      v ∈ destsOf before ∨ rd v = rd' v)
    (hs : speculate h safe is rd = .ok r) : ∃ r', speculate h safe is rd' = .ok r' := by
  induction is generalizing rd rd' with
  | nil => exact ⟨rd', rfl⟩
  | cons i is ih =>
    rw [List.forall_mem_cons] at hp
    obtain ⟨d, u, hd, he, hs⟩ := speculate_cons hp.1 hs
    have he' : i.effect h safe rd' = .compute d (.ok u) := by
      rw [← he]
      refine Inst.effect_congr (fun _ _ => Iff.rfl) fun v hv => ?_
      exact ((hr [] i is rfl v hv).resolve_left List.not_mem_nil).symm
    have hrest : ∀ before j after, is = before ++ j :: after → ∀ v ∈ j.reads,
        v ∈ destsOf before ∨ Function.update rd d u v = Function.update rd' d u v := by
      intro before j after hj v hv
      by_cases hvd : v = d
      · exact .inr (by rw [hvd, Function.update_self, Function.update_self])
      · rw [Function.update_of_ne hvd, Function.update_of_ne hvd]
        rcases hr (i :: before) j after (by rw [hj]; rfl) v hv with hm | hm
        · rw [destsOf, List.flatMap_cons, List.mem_append, hd, List.mem_singleton] at hm
          exact .inl (hm.resolve_left hvd)
        · exact .inr hm
    obtain ⟨r', hr'⟩ := ih hp.2 hrest hs
    exact ⟨r', by simpa [speculate, he'] using hr'⟩

theorem steps_of_speculate {P : Program} {s : Frame × World} (rest : List Inst)
    (hcode : s.1.code = is ++ rest) (hp : ∀ i ∈ is, isArmPure i = true)
    (hs : speculate P.host s.1.fn.provenNoOverflow is s.1.regs = .ok r) :
    P.leafMachine.Steps s ({ s.1 with code := rest, regs := r }, s.2) := by
  induction is generalizing s with
  | nil =>
    cases hs
    have : s = ({ s.1 with code := rest }, s.2) := by
      rw [List.nil_append] at hcode
      rw [← hcode]
    exact this ▸ .refl s
  | cons i is ih =>
    rw [List.forall_mem_cons] at hp
    obtain ⟨d, u, _, he, hs⟩ := speculate_cons hp.1 hs
    have hdone : (s.1.effect P i).perform P s.1.fn s.1.vars s.2 = .done [(d, u)] s.1.vars s.2 := by
      rw [Frame.effect, he]; rfl
    have hstep := leafStep_done hcode hdone
    exact .head hstep (ih (s := (s.1.after (is ++ rest) [(d, u)] s.1.vars, s.2)) rfl hp.2 hs)

end

/-! ## The selects -/

theorem mapM_zipIdx_some {α β : Type} {g : α × Nat → Option β} {l : List α} {r : List β} {k : Nat}
    (h : (l.zipIdx k).mapM g = some r) :
    l.length = r.length ∧ ∀ p ∈ l.zip r, ∃ j, g (p.1, j) = some p.2 := by
  induction l generalizing r k with
  | nil => cases h; exact ⟨rfl, fun p hp => by cases hp⟩
  | cons a l ih =>
    rw [List.zipIdx_cons, List.mapM_cons] at h
    obtain ⟨b, hb, h⟩ := Option.bind_eq_some_iff.mp h
    obtain ⟨bs, hbs, h⟩ := Option.bind_eq_some_iff.mp h
    cases h
    obtain ⟨hlen, hall⟩ := ih hbs
    refine ⟨congrArg (· + 1) hlen, fun p hp => ?_⟩
    rcases List.mem_cons.mp hp with rfl | hp
    · exact ⟨k, hb⟩
    · exact hall p hp

/-- Arguments that differ get a type. -/
theorem isSome_of_selectTy {valTy : ValueId → Option String} {mergeB : Option BasicBlock}
    {p : ValueId × ValueId} {j : Nat} {ty : Option String}
    (h : selectTy valTy mergeB (p, j) = some ty) (hne : p.1 ≠ p.2) : ty.isSome := by
  simp only [selectTy, if_neg hne] at h
  obtain ⟨t, _, rfl⟩ := Option.map_eq_some_iff.mp h
  rfl

/-- The `Select`s pick, for each pair of merge arguments, the one of the arm that was taken. -/
theorem speculate_mergeArgs {h : Host} {safe : List ValueId} {cond : ValueId}
    {pairs : List ((ValueId × ValueId) × Option String)} {m : Nat} (rd : ValueId → Val)
    (hty : ∀ p ∈ pairs, p.1.1 ≠ p.1.2 → p.2.isSome) (hcond : cond ≤ m)
    (hle : ∀ p ∈ pairs, p.1.1 ≤ m ∧ p.1.2 ≤ m) :
    ∃ r, speculate h safe (mergeArgs cond m pairs).1 rd = .ok r ∧ (∀ v ≤ m, r v = rd v) ∧
      (mergeArgs cond m pairs).2.map r =
        pairs.map fun p => if (rd cond).truthy then rd p.1.1 else rd p.1.2 := by
  induction pairs generalizing m rd with
  | nil => exact ⟨rd, rfl, fun _ _ => rfl, rfl⟩
  | cons p pairs ih =>
    obtain ⟨⟨t, e⟩, ty⟩ := p
    rw [List.forall_mem_cons] at hty hle
    simp only [mergeArgs]
    by_cases hte : t = e
    · obtain ⟨r, hr, hkeep, hmap⟩ := ih rd hty.2 hcond hle.2
      rw [if_pos hte]
      refine ⟨r, hr, hkeep, ?_⟩
      rw [List.map_cons, List.map_cons, hmap, hkeep t hle.1.1]
      simp [hte]
    · obtain ⟨ty', rfl⟩ := Option.isSome_iff_exists.mp (hty.1 hte)
      rw [if_neg hte]
      -- the first select writes the fresh register
      obtain ⟨r, hr, hkeep, hmap⟩ := ih (m := m + 1)
        (Function.update rd (m + 1) (if (rd cond).truthy then rd t else rd e)) hty.2
        (Nat.le_succ_of_le hcond)
        (fun p hp => ⟨Nat.le_succ_of_le (hle.2 p hp).1, Nat.le_succ_of_le (hle.2 p hp).2⟩)
      have old : ∀ v ≤ m, Function.update rd (m + 1) (if (rd cond).truthy then rd t else rd e) v
          = rd v := fun v hv => Function.update_of_ne (Nat.ne_of_lt (Nat.lt_succ_of_le hv)) _ _
      refine ⟨r, ?_, fun v hv => (hkeep v (Nat.le_succ_of_le hv)).trans (old v hv), ?_⟩
      · simpa [speculate, Inst.effect] using hr
      · rw [List.map_cons, List.map_cons, hkeep (m + 1) (Nat.le_refl _), Function.update_self, hmap,
          old cond hcond]
        congr 1
        refine List.map_congr_left fun p hp => ?_
        rw [old _ (hle.2 p hp).1, old _ (hle.2 p hp).2]

theorem isArmPure_mergeArgs {cond : ValueId} {m : Nat}
    {pairs : List ((ValueId × ValueId) × Option String)} :
    ∀ i ∈ (mergeArgs cond m pairs).1, isArmPure i = true := by
  induction pairs generalizing m with
  | nil => exact fun i hi => by cases hi
  | cons p pairs ih =>
    obtain ⟨⟨t, e⟩, ty⟩ := p
    simp only [mergeArgs]
    split_ifs
    · exact ih
    · cases ty with
      | none => exact ih
      | some ty =>
        intro i hi
        rcases List.mem_cons.mp hi with rfl | hi
        · rfl
        · exact ih i hi

end

/-! ## Runs -/

/-- Where the head branches, the arm not taken computes without a fault. -/
def Speculates (P : Program) (f : Function) (s : Frame × World) : Prop :=
  (convertBranchesToSelect f).2 = true →
    ∀ D thenB tt thenArgs elseB et elseArgs, findDiamond f = some D →
      armBranch f D.thenId = some (thenB, tt, thenArgs) →
      armBranch f D.elseId = some (elseB, et, elseArgs) →
      s.1.code = [] → s.1.term = .condBranch D.cond D.thenId [] D.elseId [] →
        ∃ regs, speculate P.host f.provenNoOverflow
          (if (s.1.regs D.cond).truthy then elseB.instructions else thenB.instructions)
          s.1.regs = .ok regs

/-- The entry block is not one of the arms that are removed. -/
def ArmsNotEntry (f : Function) : Prop :=
  (convertBranchesToSelect f).2 = true →
    ∀ D, findDiamond f = some D → D.thenId ≠ f.entryBlock ∧ D.elseId ≠ f.entryBlock

/-- A conversion of a verified function. `pairs` are the merge arguments with their types. -/
structure Conversion (f : Function) (D : Diamond) (head thenB elseB : BasicBlock)
    (thenArgs elseArgs : List ValueId) (n : Nat) (idom : Cfg.Idom)
    (pairs : List ((ValueId × ValueId) × Option String)) : Prop where
  shape : Shape f D head thenB elseB thenArgs elseArgs
  verified : Verified n f idom
  thenEntry : D.thenId ≠ f.entryBlock
  elseEntry : D.elseId ≠ f.entryBlock
  pairs_fst : pairs.map (·.1) = thenArgs.zip elseArgs
  pairs_ty : ∀ p ∈ pairs, p.1.1 ≠ p.1.2 → p.2.isSome

/-- The function after the conversion. -/
def converted (f : Function) (D : Diamond) (head thenB elseB : BasicBlock)
    (pairs : List ((ValueId × ValueId) × Option String)) : Function :=
  collapsed f D (convertedHead D head thenB elseB (mergeArgs D.cond f.maxValueId pairs))

section
variable (P : Program) (f : Function) (D : Diamond) (head thenB elseB : BasicBlock)
  (pairs : List ((ValueId × ValueId) × Option String))

/-- What the result has still to execute, after the rest of the original's block `b`, and the
terminator it then meets. `regs` are its registers. -/
inductive Extra (b : BasicBlock) (regs : ValueId → Val) : List Inst → Terminator → Prop
  | other : b ≠ head → b ≠ thenB → b ≠ elseB → Extra b regs [] b.terminator
  | head : b = head →
    Extra b regs (thenB.instructions ++ elseB.instructions ++ (mergeArgs D.cond f.maxValueId pairs).1)
      (.branch D.merge (mergeArgs D.cond f.maxValueId pairs).2)
  | thenArm : b = thenB → (regs D.cond).truthy = true →
    (∃ r, speculate P.host f.provenNoOverflow elseB.instructions regs = .ok r) →
    Extra b regs (elseB.instructions ++ (mergeArgs D.cond f.maxValueId pairs).1)
      (.branch D.merge (mergeArgs D.cond f.maxValueId pairs).2)
  | elseArm : b = elseB → (regs D.cond).truthy = false →
    Extra b regs (mergeArgs D.cond f.maxValueId pairs).1
      (.branch D.merge (mergeArgs D.cond f.maxValueId pairs).2)

/-- The original in block `b` after `before`, and the result at the matching place. -/
structure IfAt (idom : Cfg.Idom) (b : BasicBlock) (before : List Inst) (s t : Frame × World) :
    Prop where
  mem : b ∈ f.blocks
  reached : (idom b.id).isSome
  fn : s.1.fn = f
  fn' : t.1.fn = converted f D head thenB elseB pairs
  vars : t.1.vars = s.1.vars
  world : t.2 = s.2
  code : b.instructions = before ++ s.1.code
  term : s.1.term = b.terminator
  regs : ∀ v, Available f (Anc idom) b before v → t.1.regs v = s.1.regs v
  place : ∃ more, t.1.code = s.1.code ++ more ∧
    Extra P f D head thenB elseB pairs b t.1.regs more t.1.term

end

section
variable {P : Program} {f : Function} {D : Diamond} {head thenB elseB : BasicBlock}
  {thenArgs elseArgs : List ValueId} {n : Nat} {idom : Cfg.Idom}
  {pairs : List ((ValueId × ValueId) × Option String)} {b : BasicBlock} {before rest : List Inst}
  {i : Inst} {v : ValueId} {s t : Frame × World}

variable {regs : ValueId → Val}

namespace Conversion

variable (C : Conversion f D head thenB elseB thenArgs elseArgs n idom pairs)

include C

theorem cond_available : Available f (Anc idom) head head.instructions D.cond :=
  C.verified.termUse_available C.shape.head_mem (by rw [C.shape.terminator]; simp [Terminator.vids])

theorem thenB_ne_elseB : thenB ≠ elseB := fun h => C.shape.arms_ne (by
  rw [← C.shape.thenArm.id_eq, h, C.shape.elseArm.id_eq])

theorem not_other_arm {id id' : BasicBlockId} {arm arm' : BasicBlock} {args args' : List ValueId}
    (A : IsArm f head id D.merge arm args) (A' : IsArm f head id' D.merge arm' args')
    (hne : arm ≠ arm') (hentry' : id' ≠ f.entryBlock) (hreach : (idom head.id).isSome)
    (hb : ∀ x ∈ before, x ∈ arm.instructions)
    (h : Available f (Anc idom) arm before v) : v ∉ destsOf arm'.instructions := fun hv => by
  have V := C.verified
  rcases A.available V C.shape.head_mem hreach h with h | h
  · obtain ⟨x, hx, hvx⟩ := List.mem_flatMap.mp h
    obtain ⟨y, hy, hvy⟩ := List.mem_flatMap.mp hv
    obtain ⟨pre, post, hsplit⟩ := List.append_of_mem (hb x hx)
    obtain ⟨pre', post', hsplit'⟩ := List.append_of_mem hy
    exact hne (V.def_unique A.mem A'.mem hsplit hvx hsplit' hvy).1
  · exact A'.not_available V C.shape.head_mem (C.shape.head_ne_arm A'.terminator) hreach hentry' hv h

/-- The selects pick the merge arguments of the arm that was taken. -/
theorem run_selects (h : Host) (safe : List ValueId) (rd : ValueId → Val) :
    ∃ r, speculate h safe (mergeArgs D.cond f.maxValueId pairs).1 rd = .ok r ∧
      (∀ v ≤ f.maxValueId, r v = rd v) ∧
      (mergeArgs D.cond f.maxValueId pairs).2.map r =
        if (rd D.cond).truthy then thenArgs.map rd else elseArgs.map rd := by
  have S := C.shape
  have hzip : ∀ p ∈ pairs, p.1.1 ∈ thenArgs ∧ p.1.2 ∈ elseArgs := fun p hp =>
    List.of_mem_zip (C.pairs_fst ▸ List.mem_map_of_mem hp)
  obtain ⟨r, hr, hkeep, hmap⟩ := speculate_mergeArgs rd C.pairs_ty
    (C.cond_available.le_maxValueId S.head_mem fun _ => id)
    (fun p hp => ⟨S.thenArm.arg_le (hzip p hp).1, S.elseArm.arg_le (hzip p hp).2⟩)
  refine ⟨r, hr, hkeep, hmap.trans ?_⟩
  have hfst : thenArgs = pairs.map (·.1.1) := by
    have : (pairs.map (·.1)).map (·.1) = thenArgs := by
      rw [C.pairs_fst, List.map_fst_zip (Nat.le_of_eq S.length)]
    rw [← this, List.map_map]; rfl
  have hsnd : elseArgs = pairs.map (·.1.2) := by
    have : (pairs.map (·.1)).map (·.2) = elseArgs := by
      rw [C.pairs_fst, List.map_snd_zip (Nat.le_of_eq S.length.symm)]
    rw [← this, List.map_map]; rfl
  split_ifs with hc
  · rw [hfst, List.map_map]; rfl
  · rw [hsnd, List.map_map]; rfl

theorem getBlock_converted (hb : b ∈ f.blocks) (h₂ : b ≠ thenB) (h₃ : b ≠ elseB) :
    ∃ b', (converted f D head thenB elseB pairs).getBlock b.id = some b' ∧ b'.params = b.params ∧
      ∀ regs, ∃ more, b'.instructions = b.instructions ++ more ∧
        Extra P f D head thenB elseB pairs b regs more b'.terminator := by
  by_cases h₁ : b = head
  · subst h₁
    refine ⟨_, C.shape.getBlock_head C.verified.ids rfl, rfl, fun regs => ⟨_, ?_, .head rfl⟩⟩
    simp [convertedHead]
  · exact ⟨b, C.shape.getBlock_other C.verified.ids rfl hb h₁ h₂ h₃, rfl,
      fun regs => ⟨[], (List.append_nil _).symm, .other h₁ h₂ h₃⟩⟩

/-- An instruction of the original leaves the result at its place. -/
theorem extra_step {ws : List (ValueId × Val)} {more : List Inst}
    {term : Terminator} (hb : (idom b.id).isSome) (hi : b.instructions = before ++ i :: rest)
    (hws : ws.map (·.1) = i.dests)
    (h : Extra P f D head thenB elseB pairs b regs more term) :
    Extra P f D head thenB elseB pairs b (bindRegs regs ws) more term := by
  have S := C.shape
  have V := C.verified
  -- neither the condition nor what the other arm reads is written in an arm
  have cond : ∀ {id : BasicBlockId} {arm : BasicBlock} {args : List ValueId},
      IsArm f head id D.merge arm args → id ≠ f.entryBlock → b = arm →
        bindRegs regs ws D.cond = regs D.cond := by
    rintro id arm args A hentry rfl
    refine bindRegs_of_notMem fun hm => ?_
    refine A.not_available V S.head_mem (S.head_ne_arm A.terminator)
      (A.reach_head V S.head_mem hentry hb) hentry ?_ C.cond_available
    rw [hi, destsOf, List.flatMap_append, List.flatMap_cons]
    exact List.mem_append_right _ (List.mem_append_left _ (hws ▸ hm))
  cases h with
  | other h₁ h₂ h₃ => exact .other h₁ h₂ h₃
  | head h => exact .head h
  | elseArm h hc => exact .elseArm h ((cond S.elseArm C.elseEntry h).symm ▸ hc)
  | thenArm h hc hs =>
    refine .thenArm h ((cond S.thenArm C.thenEntry h).symm ▸ hc) ?_
    obtain ⟨r, hr⟩ := hs
    refine speculate_congr S.elseArm.pure (fun pre j post hj v hv => ?_) hr
    by_cases hm : v ∈ i.dests
    · exfalso
      subst h
      have hreach := S.thenArm.reach_head V S.head_mem C.thenEntry hb
      refine C.not_other_arm S.elseArm S.thenArm C.thenB_ne_elseB.symm C.thenEntry hreach
        (fun x (hx : x ∈ pre) => hj ▸ List.mem_append_left _ hx)
        (V.use_available S.elseArm.mem hj (j.reads_subset hv)) ?_
      rw [hi, destsOf, List.flatMap_append, List.flatMap_cons]
      exact List.mem_append_right _ (List.mem_append_left _ hm)
    · exact .inr (bindRegs_of_notMem (hws ▸ hm)).symm

end Conversion

section
variable (C : Conversion f D head thenB elseB thenArgs elseArgs n idom pairs)
include C

theorem IfAt.inst
    (h : IfAt P f D head thenB elseB pairs idom b before s t) (hcode : s.1.code = i :: rest) :
    (∃ s' t', P.leafMachine.step s = .inl s' ∧ P.leafMachine.step t = .inl t' ∧
        IfAt P f D head thenB elseB pairs idom b (before ++ [i]) s' t') ∨
      ∃ o, P.leafMachine.step s = .inr o ∧ P.leafMachine.step t = .inr o := by
  obtain ⟨more, hmore, hextra⟩ := h.place
  have hi : b.instructions = before ++ i :: rest := by rw [h.code, hcode]
  have hcode' : t.1.code = i :: (rest ++ more) := by rw [hmore, hcode]; rfl
  have heff : t.1.effect P i = s.1.effect P i := by
    refine Inst.effect_congr (fun d _ => by rw [h.fn, h.fn']; rfl) fun v hv => ?_
    exact h.regs v (C.verified.use_available h.mem hi (i.reads_subset hv))
  rcases leafStep_lockstep hcode hcode' (by rw [h.fn, h.fn']; rfl) (by rw [h.fn, h.fn']; rfl) heff
    h.vars h.world with ⟨ws, vars, w, hp, hs, ht⟩ | ho
  · have hws := Effect.perform_dests hp
    refine .inl ⟨_, _, hs, ht, h.mem, h.reached, h.fn, h.fn', rfl, rfl, ?_, h.term, fun v hv => ?_,
      more, rfl, C.extra_step h.reached hi hws hextra⟩
    · rw [hi, List.append_assoc]; rfl
    · refine bindRegs_congr fun hn => ?_
      exact h.regs v (hv.cases_snoc.resolve_left (hws ▸ hn))
  · exact .inr ho

theorem IfAt.into
    (h : IfAt P f D head thenB elseB pairs idom b before s t) {c : BasicBlock} (args : List Val)
    (hc : c ∈ f.blocks) (ht : c.id ∈ b.terminator.targets)
    (hlen : args.length = c.params.length) (h₂ : c ≠ thenB) (h₃ : c ≠ elseB)
    (hregs : ∀ v, Available f (Anc idom) b b.instructions v → regs v = s.1.regs v) :
    ∃ c', (converted f D head thenB elseB pairs).getBlock c.id = some c' ∧
      IfAt P f D head thenB elseB pairs idom c [] (s.1.into c args, s.2)
        ({ t.1 with code := [], regs := regs }.into c' args, t.2) := by
  have V := C.verified
  obtain ⟨c', hget, hparams, hextra⟩ := C.getBlock_converted (P := P) hc h₂ h₃
  refine ⟨c', hget, hc, V.reached_of_edge h.mem h.reached ht, h.fn, h.fn', h.vars, h.world, rfl, rfl,
    fun v hv => ?_, hextra _⟩
  simp only [Frame.into, hparams]
  exact V.agree_into h.mem hc h.reached ht hlen hregs hv

theorem IfAt.leave_arm
    {id : BasicBlockId} {args : List ValueId} (A : IsArm f head id D.merge b args)
    (h : IfAt P f D head thenB elseB pairs idom b before s t) (hcode : s.1.code = [])
    (hu : P.leafMachine.Steps t
      ({ t.1 with code := (mergeArgs D.cond f.maxValueId pairs).1, regs := regs }, t.2))
    (hterm : t.1.term = .branch D.merge (mergeArgs D.cond f.maxValueId pairs).2)
    (hregs : ∀ v, Available f (Anc idom) b b.instructions v → regs v = s.1.regs v)
    (hpick : (if (regs D.cond).truthy then thenArgs.map regs else elseArgs.map regs) =
      args.map regs) :
    ∃ c ∈ f.blocks, ∃ s' t₁ t', P.leafMachine.step s = .inl s' ∧ P.leafMachine.step t = .inl t₁ ∧
      P.leafMachine.Steps t₁ t' ∧ IfAt P f D head thenB elseB pairs idom c [] s' t' := by
  have V := C.verified
  have S := C.shape
  have hexit : s.1.term.exit s.1.fn s.1.regs = .goto D.merge (args.map s.1.regs) := by
    rw [h.term, A.terminator]; rfl
  have hjump : b.terminator.exit f s.1.regs = .goto D.merge (args.map s.1.regs) := by
    rw [A.terminator]; rfl
  obtain ⟨c, hc, hget, hid, hlen, ht⟩ := V.exit_goto h.mem hjump
  have h₂ : c ≠ thenB := fun he => S.merge_then (by rw [← hid, he, S.thenArm.id_eq])
  have h₃ : c ≠ elseB := fun he => S.merge_else (by rw [← hid, he, S.elseArm.id_eq])
  obtain ⟨r, hr, hkeep, hmap⟩ := C.run_selects P.host
    t.1.fn.provenNoOverflow regs
  -- the merge arguments are the values the arm passes on
  have hargs : (mergeArgs D.cond f.maxValueId pairs).2.map r = args.map s.1.regs := by
    rw [hmap, hpick]
    refine List.map_congr_left fun v hv => hregs v (V.termUse_available h.mem ?_)
    rw [A.terminator]
    exact hv
  have old : ∀ v, Available f (Anc idom) b b.instructions v → r v = s.1.regs v := fun v hv =>
    (hkeep v (hv.le_maxValueId h.mem (List.Subset.refl _))).trans (hregs v hv)
  obtain ⟨c', hget', hnew⟩ := h.into C (args.map s.1.regs) hc ht hlen h₂ h₃ old
  have hsel := hu.trans (steps_of_speculate [] (List.append_nil _).symm
    isArmPure_mergeArgs hr)
  have hlast : P.leafMachine.step ({ t.1 with code := [], regs := r }, t.2) =
      .inl ({ t.1 with code := [], regs := r }.into c' (args.map s.1.regs), t.2) := by
    refine leafStep_goto rfl ?_ (h.fn' ▸ hid ▸ hget')
    rw [hterm, ← hargs]; rfl
  obtain ⟨t₁, h₁, hsteps⟩ := hsel.snoc_first hlast
  exact ⟨c, hc, _, t₁, _, leafStep_goto hcode hexit (h.fn ▸ hget), h₁, hsteps, hnew⟩

/-- The arm not taken has no fault, in the result as in the original. -/
theorem IfAt.speculate_arm
    (h : IfAt P f D head thenB elseB pairs idom head before s t) (hcode : s.1.code = [])
    {id : BasicBlockId} {arm : BasicBlock} {args : List ValueId}
    (A : IsArm f head id D.merge arm args) {r : ValueId → Val}
    (hs : speculate P.host f.provenNoOverflow arm.instructions s.1.regs = .ok r) :
    ∃ r', speculate P.host f.provenNoOverflow arm.instructions t.1.regs = .ok r' := by
  have V := C.verified
  have hbefore : before = head.instructions := by rw [h.code, hcode, List.append_nil]
  refine speculate_congr A.pure (fun pre i post hi v hv => ?_) hs
  refine (A.available V C.shape.head_mem h.reached
    (V.use_available A.mem hi (i.reads_subset hv))).imp_right fun hav => ?_
  exact (h.regs v (hbefore ▸ hav)).symm

theorem IfAt.leave
    (h : IfAt P f D head thenB elseB pairs idom b before s t) (hcode : s.1.code = [])
    (hD : findDiamond f = some D) (hconv : (convertBranchesToSelect f).2 = true)
    (hS : Speculates P f s) :
    (∃ c ∈ f.blocks, ∃ s' t', P.leafMachine.step s = .inl s' ∧ P.leafMachine.Steps t t' ∧
        IfAt P f D head thenB elseB pairs idom c [] s' t' ∧
        (c.terminator ≠ b.terminator ∧ b = head ∨ ∃ t₁, P.leafMachine.step t = .inl t₁ ∧
          P.leafMachine.Steps t₁ t')) ∨
      ∃ o, P.leafMachine.step s = .inr o ∧ P.leafMachine.step t = .inr o := by
  have V := C.verified
  have S := C.shape
  have hbefore : before = b.instructions := by rw [h.code, hcode, List.append_nil]
  have hregs : ∀ v, Available f (Anc idom) b b.instructions v → t.1.regs v = s.1.regs v := by
    rw [← hbefore]; exact h.regs
  have hsafe : f.provenNoOverflow = t.1.fn.provenNoOverflow := by rw [h.fn']; rfl
  obtain ⟨more, hmore, hextra⟩ := h.place
  rw [hcode, List.nil_append] at hmore
  generalize hterm : t.1.term = term at hextra
  cases hextra with
  | other h₁ h₂ h₃ =>
    have hexit : t.1.term.exit t.1.fn t.1.regs = s.1.term.exit s.1.fn s.1.regs := by
      rw [hterm, h.term]
      exact Terminator.exit_congr (by rw [h.fn, h.fn']; rfl)
        fun v hv => hregs v (V.termUse_available h.mem hv)
    cases hex : s.1.term.exit s.1.fn s.1.regs with
    | goto target args =>
      obtain ⟨c, hc, hget, hid, hlen, ht⟩ := V.exit_goto h.mem (h.fn ▸ h.term ▸ hex)
      have narm : ∀ {id : BasicBlockId} {arm : BasicBlock} {as : List ValueId},
          IsArm f head id D.merge arm as → c ≠ arm := by
        rintro id arm as A rfl
        exact h₁ (A.pred_eq S.head_mem h.mem (A.id_eq ▸ ht))
      obtain ⟨c', hget', hnew⟩ := h.into C args hc ht hlen
        (narm S.thenArm) (narm S.elseArm) hregs
      have hstep := leafStep_goto (P := P) (hmore) (hexit.trans hex) (h.fn' ▸ hid ▸ hget')
      exact .inl ⟨c, hc, _, _, leafStep_goto hcode hex (h.fn ▸ hget), .single hstep, hnew,
        .inr ⟨_, hstep, .refl _⟩⟩
    | ret v =>
      refine .inr ⟨_, leafStep_ret hcode hex, ?_⟩
      rw [leafStep_ret hmore (hexit.trans hex), h.world]
    | trap e =>
      refine .inr ⟨_, leafStep_trap hcode hex, ?_⟩
      rw [leafStep_trap hmore (hexit.trans hex), h.world]
  | head hb =>
    subst hb
    have hcond : t.1.regs D.cond = s.1.regs D.cond := hregs _ C.cond_available
    obtain ⟨rs, hrs⟩ := hS hconv D thenB D.merge thenArgs elseB D.merge elseArgs hD S.thenArm.found
      S.elseArm.found hcode (h.term.trans S.terminator)
    -- what is available at the head of an arm was available at the end of this block
    have enter : ∀ {id : BasicBlockId} {arm : BasicBlock} {as : List ValueId},
        IsArm f b id D.merge arm as → id ≠ f.entryBlock → ∀ {regs : ValueId → Val},
        (∀ v, v ∉ destsOf thenB.instructions → regs v = t.1.regs v) →
        ∀ v, Available f (Anc idom) arm [] v → regs v = s.1.regs v := by
      intro id arm as A hentry regs hr v hv
      have hav := (A.available V S.head_mem h.reached hv).resolve_left List.not_mem_nil
      rw [hr v fun hm => S.thenArm.not_available V S.head_mem (S.head_ne_arm S.thenArm.terminator)
        h.reached C.thenEntry hm hav]
      exact hregs v hav
    have hget : ∀ {id : BasicBlockId} {arm : BasicBlock} {as : List ValueId},
        IsArm f b id D.merge arm as → s.1.fn.getBlock id = some arm := fun A => by
      rw [h.fn, ← A.id_eq]; exact Function.getBlock_of_mem V.ids A.mem
    have into_nil : ∀ {id : BasicBlockId} {arm : BasicBlock} {as : List ValueId},
        IsArm f b id D.merge arm as → (s.1.into arm []).regs = s.1.regs := fun A => by
      simp only [Frame.into, A.params]; rfl
    by_cases hc : (s.1.regs D.cond).truthy = true
    · -- the original enters the then arm, and the result waits
      rw [if_pos hc] at hrs
      have hex : s.1.term.exit s.1.fn s.1.regs = .goto D.thenId [] := by
        rw [h.term, S.terminator, Terminator.exit, if_pos hc]; rfl
      refine .inl ⟨thenB, S.thenArm.mem, _, t, leafStep_goto hcode hex (hget S.thenArm), .refl t, ?_,
        .inl ⟨by rw [S.thenArm.terminator, S.terminator]; exact Terminator.noConfusion, rfl⟩⟩
      refine ⟨S.thenArm.mem, V.reached_of_edge h.mem h.reached (S.thenArm.id_eq ▸ S.thenArm.target),
        h.fn, h.fn', h.vars, h.world, rfl, rfl, fun v hv => ?_,
        elseB.instructions ++ (mergeArgs D.cond f.maxValueId pairs).1, ?_, ?_⟩
      · rw [into_nil S.thenArm]
        exact enter S.thenArm C.thenEntry (fun _ _ => rfl) v hv
      · rw [hmore, List.append_assoc]; rfl
      · rw [hterm]
        exact .thenArm rfl (hcond ▸ hc) (h.speculate_arm C hcode S.elseArm hrs)
    · -- the original enters the else arm, and the result runs the then arm first
      rw [if_neg hc] at hrs
      have hex : s.1.term.exit s.1.fn s.1.regs = .goto D.elseId [] := by
        rw [h.term, S.terminator, Terminator.exit, if_neg hc]; rfl
      obtain ⟨r, hr⟩ := h.speculate_arm C hcode S.thenArm hrs
      have hrun := steps_of_speculate (P := P) (s := t)
        (elseB.instructions ++ (mergeArgs D.cond f.maxValueId pairs).1)
        (by rw [hmore, List.append_assoc]) S.thenArm.pure (hsafe ▸ hr)
      have hframe : ∀ v, v ∉ destsOf thenB.instructions → r v = t.1.regs v := fun v hv =>
        speculate_frame S.thenArm.pure hr hv
      have hcr : r D.cond = s.1.regs D.cond := (hframe _ fun hm =>
        S.thenArm.not_available V S.head_mem (S.head_ne_arm S.thenArm.terminator) h.reached
          C.thenEntry hm C.cond_available).trans hcond
      refine .inl ⟨elseB, S.elseArm.mem, _, _, leafStep_goto hcode hex (hget S.elseArm), hrun, ?_,
        .inl ⟨by rw [S.elseArm.terminator, S.terminator]; exact Terminator.noConfusion, rfl⟩⟩
      refine ⟨S.elseArm.mem, V.reached_of_edge h.mem h.reached (S.elseArm.id_eq ▸ S.elseArm.target),
        h.fn, h.fn', h.vars, h.world, rfl, rfl, fun v hv => ?_,
        (mergeArgs D.cond f.maxValueId pairs).1, rfl, ?_⟩
      · rw [into_nil S.elseArm]
        exact enter S.elseArm C.elseEntry hframe v hv
      · rw [hterm]
        exact .elseArm rfl (Eq.trans (congrArg Val.truthy hcr) (by simpa using hc))
  | thenArm hb hc hs =>
    subst hb
    obtain ⟨r, hr⟩ := hs
    have hreach := S.thenArm.reach_head V S.head_mem C.thenEntry h.reached
    have hrun := steps_of_speculate (P := P) (s := t)
      (mergeArgs D.cond f.maxValueId pairs).1 hmore S.elseArm.pure (hsafe ▸ hr)
    have hkeep : ∀ v, Available f (Anc idom) b b.instructions v → r v = t.1.regs v := fun v hv =>
      speculate_frame S.elseArm.pure hr (C.not_other_arm S.thenArm S.elseArm C.thenB_ne_elseB
        C.elseEntry hreach (fun _ hx => hx) hv)
    have hcr : r D.cond = t.1.regs D.cond := speculate_frame S.elseArm.pure hr fun hm =>
      S.elseArm.not_available V S.head_mem (S.head_ne_arm S.elseArm.terminator) hreach
        C.elseEntry hm C.cond_available
    obtain ⟨c, hcm, s', t₁, t', hs', ht₁, hst, hnew⟩ := h.leave_arm C S.thenArm hcode hrun hterm
      (fun v hv => (hkeep v hv).trans (hregs v hv)) (by rw [hcr, if_pos hc])
    exact .inl ⟨c, hcm, s', t', hs', .head ht₁ hst, hnew, .inr ⟨t₁, ht₁, hst⟩⟩
  | elseArm hb hc =>
    subst hb
    have hrun : P.leafMachine.Steps t
        ({ t.1 with code := (mergeArgs D.cond f.maxValueId pairs).1, regs := t.1.regs }, t.2) := by
      rw [← hmore]; exact .refl t
    obtain ⟨c, hcm, s', t₁, t', hs', ht₁, hst, hnew⟩ := h.leave_arm C S.elseArm hcode hrun hterm
      hregs (by rw [hc]; rfl)
    exact .inl ⟨c, hcm, s', t', hs', .head ht₁ hst, hnew, .inr ⟨t₁, ht₁, hst⟩⟩

end

/-- The simulation. The result may wait only where the original goes from the head into an arm. -/
def ifSimulation (P : Program)
    (C : Conversion f D head thenB elseB thenArgs elseArgs n idom pairs)
    (hD : findDiamond f = some D) (hconv : (convertBranchesToSelect f).2 = true) :
    Simulation P.leafMachine P.leafMachine (· = ·) where
  R s t := ∃ b before, IfAt P f D head thenB elseB pairs idom b before s t
  measure s := if s.1.term = head.terminator then 1 else 0
  Good := Speculates P f
  halt := by
    rintro s t o ⟨b, before, h⟩ hS hs
    cases hcode : s.1.code with
    | nil =>
      rcases h.leave C hcode hD hconv hS with ⟨_, _, s', _, hs', _⟩ | ⟨o', hs', ht'⟩
      · rw [hs] at hs'; cases hs'
      · cases hs.symm.trans hs'
        exact ⟨o, .of_halt ht', rfl⟩
    | cons i rest =>
      rcases h.inst C hcode with ⟨s', _, hs', _⟩ | ⟨o', hs', ht'⟩
      · rw [hs] at hs'; cases hs'
      · cases hs.symm.trans hs'
        exact ⟨o, .of_halt ht', rfl⟩
  step := by
    rintro s t s' ⟨b, before, h⟩ hS hs
    cases hcode : s.1.code with
    | nil =>
      rcases h.leave C hcode hD hconv hS with ⟨c, _, s₁, t₁, hs₁, hsteps, h₁, hlow | ⟨t₂, ht₂, hst⟩⟩ |
        ⟨o', hs', _⟩
      · cases hs.symm.trans hs₁
        refine .of_steps hsteps ⟨c, [], h₁⟩ ?_
        obtain ⟨hne, rfl⟩ := hlow
        rw [h₁.term, h.term, if_neg hne, if_pos rfl]
        exact Nat.one_pos
      · cases hs.symm.trans hs₁
        exact .steps ht₂ hst ⟨c, [], h₁⟩
      · rw [hs] at hs'; cases hs'
    | cons i rest =>
      rcases h.inst C hcode with ⟨s₁, t₁, hs₁, ht₁, h₁⟩ | ⟨o', hs', _⟩
      · cases hs.symm.trans hs₁
        exact .steps ht₁ (.refl _) ⟨b, _, h₁⟩
      · rw [hs] at hs'; cases hs'

theorem start_ifAt (C : Conversion f D head thenB elseB thenArgs elseArgs n idom pairs)
    (args : List Val) (w : World) :
    ∃ b, IfAt P f D head thenB elseB pairs idom b [] (f.start args, w)
      ((converted f D head thenB elseB pairs).start args, w) := by
  have V := C.verified
  obtain ⟨b, hb, hid⟩ := List.mem_map.mp V.entry
  have hget : f.getBlock f.entryBlock = some b := hid ▸ Function.getBlock_of_mem V.ids hb
  have narm : ∀ {id : BasicBlockId} {arm : BasicBlock} {as : List ValueId},
      IsArm f head id D.merge arm as → id ≠ f.entryBlock → b ≠ arm := by
    rintro id arm as A hne rfl
    exact hne (A.id_eq.symm.trans hid)
  obtain ⟨b', hget', _, hextra⟩ := C.getBlock_converted (P := P) hb (narm C.shape.thenArm C.thenEntry)
    (narm C.shape.elseArm C.elseEntry)
  obtain ⟨more, hmore, hx⟩ := hextra ((converted f D head thenB elseB pairs).start args).regs
  have hentry : (converted f D head thenB elseB pairs).getBlock
      (converted f D head thenB elseB pairs).entryBlock = some b' := hid ▸ hget'
  refine ⟨b, hb, hid ▸ V.reached_entry, rfl, rfl, rfl, rfl, ?_, ?_, fun v _ => rfl, more, ?_, ?_⟩
  · simp [Function.start, hget]
  · simp [Function.start, hget]
  · simpa [Function.start, hget, hentry] using hmore
  · simpa [Function.start, hentry] using hx

end

/-- **If-conversion.** When no arm is the entry block, a run of the original in which the arm not
taken would never have faulted has the outcome of the result's run. -/
theorem convertBranchesToSelect_preserves (P : Program) (f : Function) (hf : Accepts f)
    (hentry : ArmsNotEntry f) (args : List Val) (w : World)
    (hS : ∀ s, P.leafMachine.Steps (f.start args, w) s → Speculates P f s) (o : Outcome) :
    P.RunsTo f args w o ↔ P.RunsTo (convertBranchesToSelect f).1 args w o := by
  rcases convert_cases f with h | ⟨D, head, thenB, elseB, thenArgs, elseArgs, selTypes, hD, hconv, S,
    hsel, h⟩
  · rw [h]
  · rw [h]
    obtain ⟨n, hn⟩ := hf
    obtain ⟨idom, V⟩ := verifyFunction_ok_iff_verified.mp hn
    obtain ⟨hlen, hall⟩ := mapM_zipIdx_some hsel
    have C : Conversion f D head thenB elseB thenArgs elseArgs n idom
        ((thenArgs.zip elseArgs).zip selTypes) := by
      refine ⟨S, V, (hentry hconv D hD).1, (hentry hconv D hD).2,
        List.map_fst_zip (Nat.le_of_eq hlen), fun p hp hne => ?_⟩
      obtain ⟨j, hj⟩ := hall p hp
      exact isSome_of_selectTy hj hne
    obtain ⟨b, hstart⟩ := start_ifAt (P := P) C args w
    exact (ifSimulation P C hD hconv).halts_iff ⟨b, [], hstart⟩ hS o

/-- `if a { 1 } else { 2 }`. -/
def pickConstant : Function where
  name := "pick"
  params := [{ name := "a", ty := "Bool", val := 0 }]
  returnType := "Int"
  blocks :=
    [{ id := 0, instructions := [], terminator := .condBranch 0 1 [] 2 [] },
     { id := 1, instructions := [.constInt 1 1], terminator := .branch 3 [1] },
     { id := 2, instructions := [.constInt 2 2], terminator := .branch 3 [2] },
     { id := 3, params := [{ val := 3, ty := "Int" }], instructions := [], terminator := .ret (some 3) }]

theorem convertBranchesToSelect_preserves_pickConstant :
    (Program.bare []).RunsTo (convertBranchesToSelect pickConstant).1 [.bool false] World.initial
      ⟨.returned (.int 2), [.returned (.int 2)]⟩ := by
  have found : findDiamond pickConstant =
      some { headPos := 0, thenId := 1, elseId := 2, merge := 3, cond := 0 } := by decide
  refine (convertBranchesToSelect_preserves (Program.bare []) pickConstant ⟨16, rfl⟩ ?_ _ _ ?_ _).mp
    (Machine.halts_of_run (n := 8) rfl)
  · intro _ D hD
    cases found.symm.trans hD
    exact ⟨by decide, by decide⟩
  · intro s _ _ D thenB tt thenArgs elseB et elseArgs hD hthen helse _ _
    cases found.symm.trans hD
    obtain ⟨rfl, _⟩ := Prod.mk.inj (Option.some.inj hthen)
    obtain ⟨rfl, _⟩ := Prod.mk.inj (Option.some.inj helse)
    split_ifs
    · exact ⟨_, rfl⟩
    · exact ⟨_, rfl⟩

/-- `if a { b + b } else { b }`. -/
def pickSum : Function where
  name := "pick"
  params := [{ name := "a", ty := "Bool", val := 0 }, { name := "b", ty := "Int", val := 1 }]
  returnType := "Int"
  blocks :=
    [{ id := 0, instructions := [], terminator := .condBranch 0 1 [] 2 [] },
     { id := 1, instructions := [.binOp 2 "+" 1 1 "Int"], terminator := .branch 3 [2] },
     { id := 2, instructions := [], terminator := .branch 3 [1] },
     { id := 3, params := [{ val := 3, ty := "Int" }], instructions := [], terminator := .ret (some 3) }]

/-- The sum overflows in the arm that the original does not take. -/
theorem convertBranchesToSelect_overflows :
    Accepts pickSum ∧
      ¬∀ o, (Program.bare []).RunsTo pickSum [.bool false, .int 9223372036854775807] World.initial o ↔
        (Program.bare []).RunsTo (convertBranchesToSelect pickSum).1
          [.bool false, .int 9223372036854775807] World.initial o := by
  refine ⟨⟨16, rfl⟩, fun h => ?_⟩
  have returned : (Program.bare []).RunsTo pickSum [.bool false, .int 9223372036854775807]
      World.initial ⟨.returned (.int 9223372036854775807), [.returned (.int 9223372036854775807)]⟩ :=
    Machine.halts_of_run (n := 8) rfl
  have trapped : (Program.bare []).RunsTo (convertBranchesToSelect pickSum).1
      [.bool false, .int 9223372036854775807] World.initial ⟨.trapped .overflow, []⟩ :=
    Machine.halts_of_run (n := 8) rfl
  cases ((h _).mp returned).unique trapped

end Datara.Optimizer
