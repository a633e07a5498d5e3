import Datara.Dmir.Frames

/-!
# Results marked as not overflowing

What `Function::proven_no_overflow` promises of a run: a marked operator about to execute does not
overflow (`NoOverflowAt`). Where this holds all along a run, the marks are not observed.
-/

namespace Datara.Optimizer

open Dmir Library

/-- The exact result of an operator whose overflow is trapped. -/
def exactResult (op : String) (x y : Int) : Option Int :=
  match op with
  | "+" => some (x + y)
  | "-" => some (x - y)
  | "*" => some (x * y)
  | _ => none

/-- A marked operator about to execute does not overflow: its exact result is in the signed 64-bit
range, and it computes the same whether it is marked or not. -/
def NoOverflowAt (P : Program) (marked : List ValueId) (s : Frame × World) : Prop :=
  ∀ d op l r ty rest, s.1.code = .binOp d op l r ty :: rest → d ∈ marked → op ∈ ["+", "-", "*"] →
    ∃ x y z, s.1.regs l = .int x ∧ s.1.regs r = .int y ∧
      exactResult op ((IntTy.ofRepr ty).decode x) ((IntTy.ofRepr ty).decode y) = some z ∧
      IntTy.int.Contains z ∧ ∀ safe, P.host.evalBinOp safe op ty (s.1.regs l) (s.1.regs r) =
        P.host.evalBinOp true op ty (s.1.regs l) (s.1.regs r)

theorem evalBinOp_unmarked {h : Host} {op ty : String} {a b : Val} {safe safe' : Bool}
    (hop : op ∉ ["+", "-", "*"]) : h.evalBinOp safe op ty a b = h.evalBinOp safe' op ty a b := by
  simp only [List.mem_cons, List.not_mem_nil, or_false, not_or] at hop
  have hint : ∀ x y, evalIntBinOp safe op ty x y = evalIntBinOp safe' op ty x y := by
    intro x y
    unfold evalIntBinOp
    cases ho : IntOp.ofSpelling op with
    | none => rfl
    | some o =>
      have hsame : o.unchecked = o := by
        cases o with
        | add => exact absurd (IntOp.eq_spelling_of_ofSpelling ho) hop.1
        | sub => exact absurd (IntOp.eq_spelling_of_ofSpelling ho) hop.2.1
        | mul => exact absurd (IntOp.eq_spelling_of_ofSpelling ho) hop.2.2
        | _ => rfl
      simp [hsame]
  unfold Host.evalBinOp
  split <;> simp [hint]

/-- The function with more results marked. -/
def markProven (f : Function) (marked : List ValueId) : Function :=
  { f with provenNoOverflow := f.provenNoOverflow ++ marked }

section
variable {P : Program} {f : Function} {marked : List ValueId}

/-- The frame of the marked function. -/
def markFrame (marked : List ValueId) (F : Frame) : Frame := { F with fn := markProven F.fn marked }

theorem markFrame_effect {s : Frame × World} (h : NoOverflowAt P marked s) {i : Inst}
    {rest : List Inst} (hcode : s.1.code = i :: rest) :
    (markFrame marked s.1).effect P i = s.1.effect P i := by
  by_cases hm : ∃ d ∈ i.dests, d ∈ marked
  · cases i with
    | binOp d op l r ty =>
      obtain ⟨d', hd, hm⟩ := hm
      obtain rfl := List.mem_singleton.mp hd
      simp only [Frame.effect, Inst.effect, markFrame]
      by_cases hop : op ∈ ["+", "-", "*"]
      · obtain ⟨x, y, z, -, -, -, -, hsame⟩ := h d' op l r ty rest hcode hm hop
        rw [hsame, hsame (d' ∈ s.1.fn.provenNoOverflow)]
      · rw [evalBinOp_unmarked hop]
    | _ => rfl
  · refine Inst.effect_congr (fun d hd => ?_) fun _ _ => rfl
    rw [markFrame, markProven, List.mem_append]
    exact or_iff_left fun hd' => hm ⟨d, hd, hd'⟩

theorem markFrame_step {s : Frame × World} (h : NoOverflowAt P marked s) :
    P.leafMachine.step (markFrame marked s.1, s.2) =
      (P.leafMachine.step s).map (fun s => (markFrame marked s.1, s.2)) id := by
  cases hcode : s.1.code with
  | cons i rest =>
    rcases @leafStep_lockstep _ _ _ _ (markFrame marked s.1, s.2) _ _ hcode hcode rfl rfl
      (markFrame_effect h hcode) rfl rfl with ⟨ws, vars, w, -, hs, ht⟩ | ⟨o, hs, ht⟩
    · rw [hs, ht]
      rfl
    · rw [hs, ht]
      rfl
  | nil =>
    have hcode' : (markFrame marked s.1).code = [] := hcode
    have hexit : (markFrame marked s.1).term.exit (markFrame marked s.1).fn (markFrame marked s.1).regs =
        s.1.term.exit s.1.fn s.1.regs := Terminator.exit_congr rfl fun _ _ => rfl
    cases hx : s.1.term.exit s.1.fn s.1.regs with
    | goto t args =>
      cases hb : s.1.fn.getBlock t with
      | none =>
        rw [leafStep_missing hcode hx hb, leafStep_missing (s := (markFrame marked s.1, s.2)) hcode' (hexit.trans hx) hb]
        rfl
      | some b =>
        rw [leafStep_goto hcode hx hb, leafStep_goto (s := (markFrame marked s.1, s.2)) hcode' (hexit.trans hx) hb]
        rfl
    | ret v =>
      rw [leafStep_ret hcode hx, leafStep_ret (s := (markFrame marked s.1, s.2)) hcode' (hexit.trans hx)]
      rfl
    | trap e =>
      rw [leafStep_trap hcode hx, leafStep_trap (s := (markFrame marked s.1, s.2)) hcode' (hexit.trans hx)]
      rfl

/-- The function and the marked one run side by side. -/
def markSimulation (P : Program) (marked : List ValueId) :
    Simulation P.leafMachine P.leafMachine (· = ·) where
  R s t := t = (markFrame marked s.1, s.2)
  measure _ := 0
  Good := NoOverflowAt P marked
  halt := by
    rintro s _ o rfl hgood hs
    exact ⟨o, .of_halt ((markFrame_step hgood).trans (by rw [hs]; rfl)), rfl⟩
  step := by
    rintro s _ s' rfl hgood hs
    exact .steps ((markFrame_step hgood).trans (by rw [hs]; rfl)) (.refl _) rfl

/-- **Marks that hold are not observed.** -/
theorem runsTo_markProven_iff {args : List Val} {w : World} {o : Outcome}
    (h : ∀ s, P.leafMachine.Steps (f.start args, w) s → NoOverflowAt P marked s) :
    P.RunsTo (markProven f marked) args w o ↔ P.RunsTo f args w o :=
  ((markSimulation P marked).halts_iff rfl h o).symm

end

end Datara.Optimizer
