import Datara.Dmir.Calls
import Datara.Dmir.Rewrite

/-!
# Dead-code elimination

`Optimizer::dead_code_elimination` of `optimizer/dce.rs`: one scan for the variables that are
loaded, one for the values that are used, and one sweep over every block. The sets of the source are
lists here. The report's counter of removed instructions is left out.
-/

namespace Datara.Optimizer

open Dmir

/-! ## Names -/

/-- `str::starts_with`. -/
def startsWith (s p : String) : Bool := p.toList.isPrefixOf s.toList

/-- `str::strip_prefix`. -/
def stripPrefix (s p : String) : Option String :=
  if startsWith s p then some (String.ofList (s.toList.drop p.toList.length)) else none

/-- `LoopOptimizer::is_pure_call`. The prefixes of impure functions are looked at first. -/
def isPureCall (func : String) : Bool :=
  let clean := (((stripPrefix func "datara_rt_math_").or (stripPrefix func "math_")).or
    (stripPrefix func "datara_rt_")).getD func
  if ["fiber_", "chan_", "pgo_", "profile"].any (startsWith clean) then false
  else
    ["abs", "min", "max", "sqrt", "pow", "hypot", "sin", "cos", "tan", "floor", "ceil", "round",
      "log", "exp", "fib", "calc", "compute", "factorial", "gcd", "lcm", "float4", "float8", "int4",
      "int8", "f32x4", "f64x2", "f64x4", "i32x4", "i64x2", "dot", "dot4", "cross", "cross3",
      "pure_", "checked_", "wrapping_", "saturating_"].any (startsWith clean)

/-! ## Scans -/

mutual

/-- `scan_loads`: the variables an instruction loads. -/
def scanLoads : Inst → List String
  | .loadVar _ n => [n]
  | .whileLoop ci _ bi => scanLoadsAll ci ++ scanLoadsAll bi
  | _ => []

/-- `scanLoads` along a nested instruction list. -/
def scanLoadsAll : List Inst → List String
  | [] => []
  | i :: is => scanLoads i ++ scanLoadsAll is

end

mutual

/-- `collect_used_values`. An assignment uses its value when the variable is loaded somewhere or is
a module global. -/
def collectUsedValues (loadedVars moduleGlobals : List String) : Inst → List ValueId
  | .assignVar n v => if n ∈ loadedVars ∨ n ∈ moduleGlobals then [v] else []
  | .binOp _ _ l r _ => [l, r]
  | .unOp _ _ o _ => [o]
  | .call _ _ args _ => args
  | .methodCall _ o _ args _ => o :: args
  | .structInit _ _ fs => fs.map Prod.snd
  | .getField _ o _ _ => [o]
  | .setField o _ v => [o, v]
  | .out v _ | .err v => [v]
  | .formatStr _ _ vs _ => vs
  | .decide _ arms ev _ => arms.flatMap (fun a => [a.1, a.2]) ++ ev.toList
  | .select _ c t e _ => [c, t, e]
  | .whileLoop ci cv bi =>
    cv :: collectUsedAll loadedVars moduleGlobals ci ++ collectUsedAll loadedVars moduleGlobals bi
  | .ret v => v.toList
  | .cast _ v _ _ => [v]
  | .volatileLoad _ a _ => [a]
  | .volatileStore a v _ => [a, v]
  | .inlineAsm _ _ ins _ _ => ins.map Prod.snd
  | .constInt _ _ | .constFloat _ _ | .constStr _ _ | .constBool _ _ | .loadVar _ _
  | .getFuncAddr _ _ => []

/-- `collectUsedValues` along a nested instruction list. -/
def collectUsedAll (loadedVars moduleGlobals : List String) : List Inst → List ValueId
  | [] => []
  | i :: is => collectUsedValues loadedVars moduleGlobals i ++
      collectUsedAll loadedVars moduleGlobals is

end

/-- The variables a function loads. -/
def loadedVars (f : Function) : List String :=
  f.blocks.flatMap fun b => b.instructions.flatMap scanLoads

/-- The values a function uses: in its instructions and in its terminators. -/
def usedValues (moduleGlobals : List String) (f : Function) : List ValueId :=
  f.blocks.flatMap fun b =>
    b.instructions.flatMap (collectUsedValues (loadedVars f) moduleGlobals) ++ b.terminator.vids

/-! ## The sweep -/

/-- `Optimizer::may_trap`. -/
def mayTrap : Inst → Bool
  | .binOp _ op _ _ ty => (op = "/" || op = "%") && ty ≠ "Float"
  | _ => false

/-- The calls taken for pure. -/
def isPureCallInst : Inst → Bool
  | .call _ func _ _ =>
    isPureCall func || startsWith func "datara_rt_str_concat" ||
      func = "datara_rt_format_str_i64_str_i64" || func = "datara_rt_int_to_str" ||
      func = "datara_rt_float_to_str" || func = "datara_rt_len"
  | _ => false

/-- `is_pure`. -/
def isPure : Inst → Bool
  | .constInt _ _ | .constFloat _ _ | .constStr _ _ | .constBool _ _ | .binOp _ _ _ _ _
  | .unOp _ _ _ _ | .loadVar _ _ | .structInit _ _ _ | .formatStr _ _ _ _ | .select _ _ _ _ _
  | .decide _ _ _ _ => true
  | i => isPureCallInst i

/-- The result of an instruction the sweep may remove as pure. -/
def pureDest : Inst → Option ValueId
  | .constInt d _ | .constFloat d _ | .constStr d _ | .constBool d _ | .binOp d _ _ _ _
  | .unOp d _ _ _ | .cast d _ _ _ | .call d _ _ _ | .loadVar d _ | .structInit d _ _
  | .formatStr d _ _ _ | .select d _ _ _ _ | .decide d _ _ _ => some d
  | _ => none

/-- The object was made by a `StructInit` earlier in the block. -/
def initialized (before : List Inst) (object : ValueId) : Bool :=
  before.any fun
    | .structInit d _ _ => d = object
    | _ => false

/-- What the sweep decides from. -/
structure Liveness where
  loaded : List String
  globals : List String
  used : List ValueId

/-- The sweep removes an instruction that comes after `before` in its block. -/
def Liveness.removes (L : Liveness) (before : List Inst) (i : Inst) : Bool :=
  (match i with
    | .assignVar n _ => n ∉ L.loaded && n ∉ L.globals
    | _ => false) ||
  (isPure i && !mayTrap i &&
    match pureDest i with
    | some d => d ∉ L.used
    | none => true) ||
  (match i with
    | .getField d o _ _ => d ∉ L.used && initialized before o
    | _ => false)

/-- The instructions of a block that stay. -/
def Liveness.sweep (L : Liveness) : List Inst → List Inst → List Inst
  | _, [] => []
  | before, i :: is =>
    if L.removes before i then L.sweep (before ++ [i]) is else i :: L.sweep (before ++ [i]) is

/-- What the scans find. -/
def liveness (moduleGlobals : List String) (f : Function) : Liveness where
  loaded := loadedVars f
  globals := moduleGlobals
  used := usedValues moduleGlobals f

/-- `Optimizer::dead_code_elimination`: the function, and whether anything was removed. -/
def deadCodeElimination (moduleGlobals : List String) (f : Function) : Function × Bool :=
  let L := liveness moduleGlobals f
  let f' := f.mapCode fun b => L.sweep [] b.instructions
  (f', f.blocks.any fun b => (L.sweep [] b.instructions).length ≠ b.instructions.length)

end Datara.Optimizer

/-!
## Purity by name

Three passes delete, merge and move the calls whose name passes `is_pure_call`. What they take for
granted of such a function is `Unobservable`: it leaves the store and the trace alone, and what it
returns depends on its arguments. The test is on the name, so a function of the module has any name it
likes; it is unobservable when it runs silently and returns (`isPureCall_sound`), and a function that
prints is not, whatever its name (`isPureCall_not_sound`).
-/

namespace Datara.Optimizer

open Dmir Library

/-- What deleting a call of `g` on `args`, or putting `v` in its place, takes for granted. -/
structure Unobservable (P : Program) (M : Module) (g : Function) (args : List Val) (v : Val) : Prop where
  /-- No event, no write of a global or of an object: the store is as it was all along. -/
  store : ∀ w t, (P.callMachine M).Steps (g.thread args w) t → t.world = w
  /-- The result is that of the arguments, whatever the store. -/
  result : ∀ w, (P.callMachine M).Halts (g.thread args w) (.returned v, w)
  /-- To a caller, the call binds the result and does nothing else. -/
  call : P.host.builtin g.name = none → ∀ (F : Frame) d as ty rest callers w,
    F.code = .call d g.name as ty :: rest → as.map F.regs = args →
      (P.callMachine M).Steps ⟨F, callers, w⟩ ⟨F.after rest [(d, v)] F.vars, callers, w⟩

/-- A function with one instruction, and what it returns. -/
def oneInst (name : String) (i : Inst) (result : ValueId) : Function where
  name := name
  params := [⟨"x", "Int", 0⟩]
  returnType := "Int"
  blocks := [{ id := 0, instructions := [i], terminator := .ret (some result) }]

/-- `compute_twice(x) = double(x)`, with `double(x) = x wrapping_+ x`. -/
def twiceModule : Module :=
  ⟨[oneInst "compute_twice" (.call 1 "double" [0] "Int") 1,
    oneInst "double" (.binOp 1 "wrapping_+" 0 0 "Int") 1]⟩

/-- The instruction about to execute is a sum or a call of `double`. -/
def sumsOrDoubles (s : Thread) : Bool :=
  match s.frame.code with
  | .binOp .. :: _ | [] => true
  | .call _ func _ _ :: _ => func = "double"
  | _ => false

end Datara.Optimizer
