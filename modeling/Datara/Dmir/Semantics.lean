import Datara.Dmir.Value
import Datara.Library.Machine
import Mathlib.Data.List.Infix

/-!
# Running DMIR

What a DMIR function does, as the native back end compiles it, with integer operators taken at their
typed meaning (`IntTy.eval`).

An instruction is first read as an `Effect`: its operands are replaced by their values and nothing
else is looked at. Everything that follows is about the dozen effects and not about the instructions.
A register or a variable that was never written reads as zero, which is what the back end emits for
it. The two legacy compound instructions compile to nothing.

A function runs alone in `leafMachine`, where all its calls are events, and with the other functions
of its module in `moduleMachine`.
-/

namespace Datara.Dmir

open Library (Machine)

/-! ## Operators -/

/-- `ty.contains("Str")`. -/
def mentionsStr (ty : String) : Bool := "Str".toList <:+: ty.toList

/-- The text of a value in a concatenation. -/
def Host.textOf (h : Host) : Val → String
  | .int v => toString v.toInt
  | .bool b => if b then "true" else "false"
  | .str s => s
  | v => h.text v

/-- The unchecked form of an operator whose result is proven not to overflow. -/
def IntOp.unchecked : IntOp → IntOp
  | .add => .wrappingAdd
  | .sub => .wrappingSub
  | .mul => .wrappingMul
  | o => o

/-- An operator on two slots that hold integers or truth values. -/
def evalIntBinOp (safe : Bool) (op ty : String) (x y : BitVec 64) : Except Trap Val :=
  if op = "&&" then .ok (.bool (x &&& y ≠ 0))
  else if op = "||" then .ok (.bool (x ||| y ≠ 0))
  else
    let T := IntTy.ofRepr ty
    match IntOp.ofSpelling op with
    | none => .error .unsupported
    | some o =>
      match T.eval (if safe then o.unchecked else o) (T.decode x) (T.decode y) with
      | .error t => .error t
      | .ok (.truth b) => .ok (.bool b)
      | .ok (.num z) => .ok (if ty = "Bool" then .bool (T.encode z ≠ 0) else .int (T.encode z))

/-- A comparison of two strings. -/
def evalStrBinOp (op : String) (s t : String) : Except Trap Val :=
  match op with
  | "==" => .ok (.bool (s = t))
  | "!=" => .ok (.bool (s ≠ t))
  | "<" => .ok (.bool (s < t))
  | "<=" => .ok (.bool (¬t < s))
  | ">" => .ok (.bool (t < s))
  | ">=" => .ok (.bool (¬s < t))
  | _ => .error .unsupported

/-- `Inst::BinOp`. `safe` is membership of the result in `proven_no_overflow`. -/
def Host.evalBinOp (h : Host) (safe : Bool) (op ty : String) (a b : Val) : Except Trap Val :=
  match a, b with
  | .str s, .str t => if op = "+" then .ok (.str (s ++ t)) else evalStrBinOp op s t
  | .str s, v => if op = "+" then .ok (.str (s ++ h.textOf v)) else .ok (h.binary op ty a b).1
  | v, .str t => if op = "+" then .ok (.str (h.textOf v ++ t)) else .ok (h.binary op ty a b).1
  | .int _, .int _ | .int _, .bool _ | .bool _, .int _ | .bool _, .bool _ =>
    if op = "+" && mentionsStr ty then .ok (.str (h.textOf a ++ h.textOf b))
    else evalIntBinOp safe op ty a.bits b.bits
  | _, _ =>
    if op = "+" && mentionsStr ty then .ok (.str (h.textOf a ++ h.textOf b))
    else .ok (h.binary op ty a b).1

/-- `Inst::UnOp`. Every operator without a meaning of its own passes its operand on. -/
def Host.evalUnOp (h : Host) (op ty : String) (v : Val) : Val :=
  if op = "-" then
    match v with
    | .int x => .int ((IntTy.ofRepr ty).encode ((IntTy.ofRepr ty).neg ((IntTy.ofRepr ty).decode x)))
    | v => (h.unary op ty v).1
  else if op = "!" then
    match v with
    | .int x => .bool (x = 0)
    | .bool b => .bool !b
    | v => (h.unary op ty v).1
  else v

/-- The type names a cast takes for integers. -/
def isCastInt (ty : String) : Bool :=
  ty ∈ ["Int", "Int8", "Int16", "Int32", "Int64", "UInt", "UInt8", "UInt16", "UInt32", "UInt64",
    "Bool", "Char"]

/-- The type names a cast takes for floats. -/
def isCastFloat (ty : String) : Bool := ty ∈ ["Float", "Float32", "Dec64"]

/-- The narrowing of an integer cast. -/
def castInt (toTy : String) (v : BitVec 64) : BitVec 64 :=
  match toTy with
  | "Int8" => signTrunc 8 v
  | "Int16" => signTrunc 16 v
  | "Int32" => signTrunc 32 v
  | "UInt8" => zeroTrunc 8 v
  | "UInt16" => zeroTrunc 16 v
  | "UInt32" => zeroTrunc 32 v
  | _ => v

/-- `Inst::Cast`. A cast that is neither a conversion nor a narrowing passes the slot on. -/
def Host.evalCast (h : Host) (fromTy toTy : String) (v : Val) : Val :=
  if (isCastFloat fromTy && (isCastInt toTy || isCastFloat toTy)) ||
      (isCastInt fromTy && isCastFloat toTy) then (h.convert fromTy toTy v).1
  else
    match v with
    | .int x => .int (if isCastInt fromTy && isCastInt toTy then castInt toTy x else x)
    | .bool b =>
      .int (if isCastInt fromTy && isCastInt toTy then castInt toTy (Val.bool b).bits
        else (Val.bool b).bits)
    | v => v

/-- `compile_numeric_convert`: `.to_int()` and `.to_float()` of a number. Every other receiver has the
method looked up. -/
def Host.convertMethod (h : Host) (method : String) (args : List ValueId) (v : Val) :
    Option (Except Trap Val) :=
  match method, args, v with
  | "to_int", [], .int x => some (.ok (.int x))
  | "to_int", [], .bool b => some (.ok (.int (Val.bool b).bits))
  | "to_int", [], .float b =>
    some (match h.truncate b with
      | some x => .ok (.int x)
      | none => .error .overflow)
  | "to_float", [], .int x => some (.ok (h.convert "Int" "Float" (.int x)).1)
  | "to_float", [], .bool b => some (.ok (h.convert "Int" "Float" (.bool b)).1)
  | "to_float", [], .float b => some (.ok (.float b))
  | _, _, _ => none

/-- The fraction of a `Dec64` text: four digits, trailing zeros dropped. -/
def decFraction (frac : Nat) : String :=
  let digits := (toString (10000 + frac)).toList.drop 1
  let kept := (digits.reverse.dropWhile (· = '0')).reverse
  if kept = [] then "" else "." ++ String.ofList kept

/-- `datara_rt_dec_to_str`: a fixed-point number of scale `10 ^ 4`. -/
def decText (v : BitVec 64) : String :=
  let z := v.toInt
  let whole := z.tdiv 10000
  let frac := (z.tmod 10000).natAbs
  if z < 0 ∧ whole = 0 then "-0" ++ decFraction frac else toString whole ++ decFraction frac

/-- The text of an interpolated value of a declared type. -/
def Host.formatPiece (h : Host) (ty : Option String) (v : Val) : String :=
  match v with
  | .str s => s
  | v => if ty = some "Dec64" then decText v.bits else h.textOf v

/-- `Inst::FormatStr`: each part is followed by the value of its index. -/
def Host.formatText (h : Host) : List String → List Val → List String → String
  | [], _, _ => ""
  | p :: ps, [], tys => p ++ h.formatText ps [] tys
  | p :: ps, v :: vs, tys => p ++ h.formatPiece tys.head? v ++ h.formatText ps vs tys.tail

/-- `Inst::Decide`: the value of the first arm whose condition holds. -/
def decideArms : List (Val × Val) → Option Val → Val
  | [], none => .zero
  | [], some v => v
  | (c, v) :: arms, ev => if c.truthy then v else decideArms arms ev

/-! ## Effects -/

/-- What an instruction does once its operands are read. A computation may fault; a request hands an
event to the environment and binds what comes back. -/
inductive Effect
  | compute (dest : ValueId) (result : Except Trap Val)
  | skip
  | load (dest : ValueId) (name : String)
  | store (name : String) (v : Val)
  | alloc (dest : ValueId) (className : String) (fields : List (String × Val))
  | getField (dest : ValueId) (object : Val) (field : String)
  | setField (object : Val) (field : String) (v : Val)
  | emit (e : Event)
  | request (e : Event) (binds : Val → List (ValueId × Val))
  | call (dest : ValueId) (func : String) (args : List Val)
  | method (dest : ValueId) (name : String) (receiver : Val) (args : List Val)

/-- The effect of an instruction, under the values of its operands. -/
def Inst.effect (h : Host) (safe : List ValueId) (rd : ValueId → Val) : Inst → Effect
  | .constInt d v => .compute d (.ok (.int v))
  | .constFloat d v => .compute d (.ok (.float v))
  | .constStr d s => .compute d (.ok (.str s))
  | .constBool d b => .compute d (.ok (.bool b))
  | .loadVar d n => .load d n
  | .assignVar n v => .store n (rd v)
  | .binOp d op l r ty => .compute d (h.evalBinOp (d ∈ safe) op ty (rd l) (rd r))
  | .unOp d op o ty => .compute d (.ok (h.evalUnOp op ty (rd o)))
  | .cast d v fromTy toTy => .compute d (.ok (h.evalCast fromTy toTy (rd v)))
  | .call d f args _ => .call d f (args.map rd)
  | .methodCall d o m args _ =>
    match h.convertMethod m args (rd o) with
    | some r => .compute d r
    | none => .method d m (rd o) (args.map rd)
  | .structInit d c fs => .alloc d c (fs.map fun f => (f.1, rd f.2))
  | .getField d o f _ => .getField d (rd o) f
  | .setField o f v => .setField (rd o) f (rd v)
  | .out v ty => .emit (.out (rd v) ty)
  | .err v => .emit (.err (rd v))
  | .formatStr d ps vs tys => .compute d (.ok (.str (h.formatText ps (vs.map rd) tys)))
  | .decide d arms ev _ =>
    .compute d (.ok (decideArms (arms.map fun a => (rd a.1, rd a.2)) (ev.map rd)))
  | .whileLoop _ _ _ => .skip
  | .ret _ => .skip
  | .getFuncAddr d f => .compute d (.ok (.fn f))
  | .select d c t e _ => .compute d (.ok (if (rd c).truthy then rd t else rd e))
  | .inlineAsm tm outs ins _ _ =>
    .request (.asm tm (ins.map fun i => rd i.2))
      (fun v => outs.map fun o => (o.2, (h.asmOutput o.1 v).1))
  | .volatileLoad d a ty => .request (.volatileLoad (rd a) ty) (fun v => [(d, v)])
  | .volatileStore a v ty => .request (.volatileStore (rd a) (rd v) ty) (fun _ => [])

/-! ## Performing an effect -/

/-- The surroundings of a run: the run-time library, the environment, and which names are module
variables. -/
structure Program where
  host : Host
  env : Env
  isGlobal : String → Bool

/-- The variable a name denotes: a function with a parameter named `this` or `self` has one
variable under both names. -/
def Function.slotOf (f : Function) (name : String) : String :=
  if (name = "this" ∨ name = "self") ∧ f.params.any (fun p => p.name = "this" || p.name = "self")
  then "this" else name

/-- What an effect leaves: registers to write, the variables and the store; or the end of the
run. -/
inductive Result
  | done (writes : List (ValueId × Val)) (vars : String → Val) (w : World)
  | halt (e : Ending) (w : World)

/-- The result once an environment has answered. -/
def Result.answered (vars : String → Val) (binds : Val → List (ValueId × Val)) :
    Ending × World → Result
  | (.returned v, w) => .done (binds v) vars w
  | (e, w) => .halt e w

/-- The object an allocation site makes next, and the store with it. -/
def World.alloc (w : World) (fn : String) (d : ValueId) (className : String)
    (fields : List (String × Val)) : Ref × World :=
  let k := w.allocs (fn, d)
  let r := Ref.site fn d k
  let o : Obj := fields.foldl (fun o f => o.set f.1 f.2) { className, fields := fun _ => .zero }
  (r, { w with heap := Function.update w.heap r (some o)
               allocs := Function.update w.allocs (fn, d) (k + 1) })

/-- The object a value refers to. -/
def World.deref (w : World) (v : Val) : Option (Ref × Obj) :=
  match v with
  | .ref r => (w.heap r).map (fun o => (r, o))
  | _ => none

/-- An effect in a function `f`, on its variables and the store. A call leaves the module. -/
def Effect.perform (P : Program) (f : Function) (vars : String → Val) (w : World) : Effect → Result
  | .compute d (.ok v) => .done [(d, v)] vars w
  | .compute _ (.error t) => .halt (.trapped t) w
  | .skip => .done [] vars w
  | .load d n => .done [(d, if P.isGlobal n then w.globals n else vars (f.slotOf n))] vars w
  | .store n v =>
    if P.isGlobal n then .done [] vars ((w.setGlobal n v).emit (.setGlobal n v))
    else .done [] (Function.update vars (f.slotOf n) v) w
  | .alloc d c fs =>
    let a := w.alloc f.name d c fs
    .done [(d, .ref a.1)] vars a.2
  | .getField d obj field =>
    match w.deref obj with
    | some (_, o) => .done [(d, o.fields field)] vars w
    | none => .halt (.trapped .nullReference) w
  | .setField obj field v =>
    match w.deref obj with
    | some (r, o) => .done [] vars (w.setObj r (o.set field v))
    | none => .halt (.trapped .nullReference) w
  | .emit e => .done [] vars (w.emit e)
  | .request e binds => .answered vars binds (w.ask P.env e)
  | .call d func args =>
    match P.host.builtin func with
    | some g => .done [(d, (g args).1)] vars w
    | none => .answered vars (fun v => [(d, v)]) (w.ask P.env (.call func args))
  | .method d m o args => .answered vars (fun v => [(d, v)]) (w.ask P.env (.method m (o :: args)))

/-! ## Frames -/

/-- An activation of a function: the rest of its current block, its registers and its variables. -/
structure Frame where
  fn : Function
  code : List Inst
  term : Terminator
  regs : ValueId → Val
  vars : String → Val

/-- Write registers in order. -/
def bindRegs (regs : ValueId → Val) (bs : List (ValueId × Val)) : ValueId → Val :=
  bs.foldl (fun r b => Function.update r b.1 b.2) regs

/-- The effect of an instruction of the frame's function, under the frame's registers. -/
def Frame.effect (P : Program) (F : Frame) (i : Inst) : Effect :=
  i.effect P.host F.fn.provenNoOverflow F.regs

/-- Go on after an instruction. -/
def Frame.after (F : Frame) (rest : List Inst) (writes : List (ValueId × Val))
    (vars : String → Val) : Frame :=
  { F with code := rest, regs := bindRegs F.regs writes, vars }

/-- The head of a block, its parameters bound. -/
def Frame.into (F : Frame) (b : BasicBlock) (args : List Val) : Frame :=
  { F with
    code := b.instructions
    term := b.terminator
    regs := bindRegs F.regs ((b.params.map (·.val)).zip args) }

/-- Enter a block along an edge. All arguments were read before a parameter is bound. -/
def Frame.enter (F : Frame) (target : BasicBlockId) (args : List Val) : Option Frame :=
  (F.fn.getBlock target).map fun b => F.into b args

/-- Where a terminator leads. -/
inductive Exit
  | goto (target : BasicBlockId) (args : List Val)
  | ret (v : Val)
  | trap (t : Trap)

/-- The value a `Return` hands back. -/
def Function.returnValue (f : Function) (rd : ValueId → Val) (value : Option ValueId) : Val :=
  if f.returnType = "Unit" then .unit
  else
    match value with
    | some v => rd v
    | none => .zero

/-- The exit of a terminator, under the values of its operands. -/
def Terminator.exit (f : Function) (rd : ValueId → Val) : Terminator → Exit
  | .branch t args => .goto t (args.map rd)
  | .condBranch c t ta e ea =>
    if (rd c).truthy then .goto t (ta.map rd) else .goto e (ea.map rd)
  | .ret v => .ret (f.returnValue rd v)
  | .unreachable => .trap .unreachable

/-- The first frame of a call. The entry block's own parameters are the function's. -/
def Function.start (f : Function) (args : List Val) : Frame :=
  let bound := f.params.zip args
  let entry := f.getBlock f.entryBlock
  { fn := f
    code := (entry.map (·.instructions)).getD []
    term := (entry.map (·.terminator)).getD .unreachable
    regs := bindRegs (fun _ => .zero) (bound.map fun b => (b.1.val, b.2))
    vars := bound.foldl (fun vars b => Function.update vars (f.slotOf b.1.name) b.2)
      (fun _ => .zero) }

/-! ## Machines -/

/-- What an observer is left with: how the run ended, and the trace. -/
structure Outcome where
  ending : Ending
  trace : List Event

/-- The end of a run. The observer of a returned value is asked once more. -/
def Program.finish (P : Program) (w : World) : Ending → Outcome
  | .returned v => ⟨.returned v, (w.ask P.env (.returned v)).2.trace⟩
  | e => ⟨e, w.trace⟩

/-- One step of a frame whose calls leave the module. -/
def Program.leafStep (P : Program) (F : Frame) (w : World) : (Frame × World) ⊕ Outcome :=
  match F.code with
  | i :: rest =>
    match (F.effect P i).perform P F.fn F.vars w with
    | .done writes vars w => .inl (F.after rest writes vars, w)
    | .halt e w => .inr (P.finish w e)
  | [] =>
    match F.term.exit F.fn F.regs with
    | .goto t args =>
      match F.enter t args with
      | some F => .inl (F, w)
      | none => .inr (P.finish w (.trapped .unsupported))
    | .ret v => .inr (P.finish w (.returned v))
    | .trap t => .inr (P.finish w (.trapped t))

/-- One function on its own: a frame and a store. -/
def Program.leafMachine (P : Program) : Machine (Frame × World) Outcome where
  step s := P.leafStep s.1 s.2

/-- What a run starts from: arguments and a store that hold no object of the run's own. -/
structure Outside (args : List Val) (w : World) : Prop where
  args : ∀ v ∈ args, ∀ fn d k, v ≠ .ref (.site fn d k)
  globals : ∀ n fn d k, w.globals n ≠ .ref (.site fn d k)
  fields : ∀ r o, w.heap r = some o → ∀ field fn d k, o.fields field ≠ .ref (.site fn d k)
  known : ∀ r ∈ w.known, ∀ fn d k, r ≠ .site fn d k

/-- A run of one function, from its arguments and a store, halts with an outcome. -/
def Program.RunsTo (P : Program) (f : Function) (args : List Val) (w : World) (o : Outcome) : Prop :=
  P.leafMachine.Halts (f.start args, w) o

/-! ## The bare program -/

/-- A run-time library without functions, and an environment that answers nothing. -/
def Program.bare (globals : List String) : Program where
  host :=
    { text := fun _ => ""
      binary := fun _ _ _ _ => ⟨.unit, rfl⟩
      unary := fun _ _ _ => ⟨.unit, rfl⟩
      convert := fun _ _ _ => ⟨.unit, rfl⟩
      truncate := fun _ => none
      asmOutput := fun _ _ => ⟨.unit, rfl⟩
      builtin := fun _ => none }
  env := fun _ => .ret .unit
  isGlobal n := n ∈ globals

/-- The store before anything has happened. -/
def World.initial : World where
  heap _ := none
  allocs _ := 0
  globals _ := .zero
  known := []
  trace := []

theorem World.outside_initial {args : List Val} (h : ∀ v ∈ args, v.ref? = none) :
    Outside args World.initial where
  args := by rintro v hv fn d k rfl; cases h _ hv
  globals := by rintro n fn d k ⟨⟩
  fields := by rintro r o ⟨⟩
  known := by rintro r ⟨⟩

end Datara.Dmir
