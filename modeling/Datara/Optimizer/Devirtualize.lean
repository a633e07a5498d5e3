import Datara.Codegen.MethodDispatch
import Datara.Dmir.Ir

/-!
# Devirtualization

`InterproceduralOptimizer::devirtualize_single_impl_methods` in `optimizer/ipo.rs`. A method call becomes a call of
the one function of the module whose name ends in the method's, whatever the receiver is. It is what the back end
would have called exactly when the back end calls a method of the module at all (`devirtualize_dispatches`).
-/

namespace Datara.Optimizer

open Codegen Dmir

/-- `builtin_methods`. -/
def builtinMethods : List String :=
  ["len", "count", "length", "byte_len", "char_len", "str_byte_at", "byte_at", "char_at", "append", "push", "get", "at",
    "set", "insert", "pop", "slice", "contains", "trim"]

/-- The name is not that of a copy which the lowering makes of a behavior's or a trait's method. -/
def ownName (name : String) : Bool := !Codegen.startsWith "B_" name && !Codegen.startsWith "I_" name

/-- `method_to_impls`, at a method. -/
def methodImpls (names : List String) (method : String) : List String :=
  names.filter fun name => ownName name && decide (afterLastUnderscore name = some method) && decide (method ≠ "")

/-- The rewriting of one instruction. -/
def devirtualizeInst (names : List String) : Inst → Inst
  | .methodCall dest object method args ty =>
    if method ∈ builtinMethods then .methodCall dest object method args ty
    else
      match methodImpls names method with
      | [target] => .call dest target (object :: args) ty
      | _ => .methodCall dest object method args ty
  | i => i

def devirtualizeBlock (names : List String) (b : BasicBlock) : BasicBlock :=
  { b with instructions := b.instructions.map (devirtualizeInst names) }

/-- `devirtualize_single_impl_methods`, on the functions of a module under their names. -/
def devirtualizeSingleImplMethods (functions : List (String × Function)) : List (String × Function) :=
  let names := functions.map Prod.fst
  functions.map fun (name, f) => (name, { f with blocks := f.blocks.map (devirtualizeBlock names) })

/-- The receiver does not answer itself, and its method is a function of the module, and not a copy. -/
def CallsOwn (functions : List (String × Function)) (others : List String) (r : Receiver) (method : String) : Prop :=
  let names := functions.map Prod.fst
  answersItself (names ++ others) r method = false ∧
    ∃ name, ownMethod (names ++ others) r method = some name ∧ name ∈ names ∧ ownName name = true

section
variable {names : List String} {dest object : ValueId} {method target ty ty' : String} {args args' : List ValueId}

theorem mem_methodImpls {name : String} : name ∈ methodImpls names method ↔
    name ∈ names ∧ ownName name = true ∧ afterLastUnderscore name = some method ∧ method ≠ "" := by
  rw [methodImpls, List.mem_filter, Bool.and_eq_true, Bool.and_eq_true, decide_eq_true_eq, decide_eq_true_eq, and_assoc]

theorem devirtualizeInst_eq_call {dest' : ValueId}
    (h : devirtualizeInst names (.methodCall dest object method args ty) = .call dest' target args' ty') :
    methodImpls names method = [target] ∧ args' = object :: args := by
  rw [devirtualizeInst] at h
  split at h
  · cases h
  · split at h
    case h_1 name heq =>
      cases h
      exact ⟨heq, rfl⟩
    case h_2 => cases h

end

/-- A method call of a module, and the call that the pass puts in its place. -/
structure RewrittenCall (functions : List (String × Function)) where
  dest : ValueId
  object : ValueId
  method : String
  args : List ValueId
  ty : String
  target : String
  callArgs : List ValueId
  /-- The places of the function, the block and the instruction. -/
  place : Nat × Nat × Nat
  before : ∃ name f b, functions[place.1]? = some (name, f) ∧ f.blocks[place.2.1]? = some b ∧
    b.instructions[place.2.2]? = some (.methodCall dest object method args ty)
  after : ∃ name f b, (devirtualizeSingleImplMethods functions)[place.1]? = some (name, f) ∧
    f.blocks[place.2.1]? = some b ∧ b.instructions[place.2.2]? = some (.call dest target callArgs ty)

theorem RewrittenCall.inst {functions : List (String × Function)} (c : RewrittenCall functions) :
    devirtualizeInst (functions.map Prod.fst) (.methodCall c.dest c.object c.method c.args c.ty) =
      .call c.dest c.target c.callArgs c.ty := by
  obtain ⟨name, f, b, hf, hb, hcall⟩ := c.before
  obtain ⟨name', f', b', hf', hb', hcall'⟩ := c.after
  rw [devirtualizeSingleImplMethods, List.getElem?_map, hf] at hf'
  obtain rfl := (Prod.mk.inj (Option.some.inj hf')).2
  rw [List.getElem?_map, hb] at hb'
  cases hb'
  rw [devirtualizeBlock, List.getElem?_map, hcall] at hcall'
  exact Option.some.inj hcall'

/-- **A rewritten call calls what the dispatch does** exactly when the dispatch goes to a method of the module. -/
theorem devirtualize_dispatches (functions : List (String × Function)) (others : List String)
    (c : RewrittenCall functions) (r : Receiver) :
    (dispatch (functions.map Prod.fst ++ others) r c.method = .function c.target ∧ c.callArgs = c.object :: c.args) ↔
      CallsOwn functions others r c.method := by
  obtain ⟨himpls, hargs⟩ := devirtualizeInst_eq_call c.inst
  obtain ⟨hmem, hown, hlast, hempty⟩ := mem_methodImpls.mp (himpls ▸ List.mem_singleton_self c.target)
  obtain ⟨pre, hname, hnot⟩ := afterLastUnderscore_spec.mp hlast
  have hne : c.target ≠ c.method := by
    intro he
    rw [he] at hname
    rw [hname] at hnot
    exact hnot (List.mem_append_right _ List.mem_cons_self)
  rw [and_iff_left hargs, dispatch_eq_function hne, CallsOwn]
  refine and_congr_right fun _ => ⟨fun h => ⟨c.target, h, hmem, hown⟩, ?_⟩
  rintro ⟨own, h, hin, hplain⟩
  -- A function of the module with the method's name is the one that the pass has found.
  have himpl : own ∈ methodImpls (functions.map Prod.fst) c.method :=
    mem_methodImpls.mpr ⟨hin, hplain, (ownMethod_spec hnot h).2, hempty⟩
  rw [himpls, List.mem_singleton] at himpl
  rw [h, himpl]

/-- A module with a function that sorts, and one that calls the method `sort`. -/
def sortModule : List (String × Function) :=
  [("main", { name := "main", blocks := [{
      id := 0, instructions := [.methodCall 1 0 "sort" [] "List<Int>"], terminator := .ret none }] }),
    ("quick_sort", { name := "quick_sort", blocks := [] })]

def sortCall : RewrittenCall sortModule where
  dest := 1
  object := 0
  method := "sort"
  args := []
  ty := "List<Int>"
  target := "quick_sort"
  callArgs := [0]
  place := (0, 0, 0)
  before := ⟨_, _, _, rfl, rfl, rfl⟩
  after := ⟨_, _, _, rfl, rfl, rfl⟩

/-- On a list, `sort` is the list's own method and not the function of the module. -/
theorem devirtualize_not_dispatches :
    ¬∀ (functions : List (String × Function)) (others : List String) (c : RewrittenCall functions) (r : Receiver),
      dispatch (functions.map Prod.fst ++ others) r c.method = .function c.target := by
  intro h
  have hlist := h sortModule [] sortCall { isList := true }
  cases hlist

end Datara.Optimizer
