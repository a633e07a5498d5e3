import Datara.Dmir.Arith

/-!
# Values, objects and the world outside a function

What a DMIR value can be at run time, the store a function runs in, and the environment that answers
its calls.

A function's observable behaviour is its trace: what it prints, the calls it makes, the module
variables it writes, and the value it returns. A call is answered by an environment, which is any
strategy of finitely many interactions (`Reply`) chosen from the trace so far. It may read and write
module variables and objects, emit events of its own, fault, or cut the run off. It can use a
reference only after the reference was handed to it; this is checked when the reply runs. The same
holds of the caller: after a return the environment is asked once more and can look at what the
returned value reaches.
-/

namespace Datara.Dmir

/-- An object's name: the `k`-th allocation at an allocation site, or an object from outside. -/
inductive Ref
  | site (fn : String) (dest : ValueId) (k : Nat)
  | ext (n : Nat)
  deriving DecidableEq, Repr

/-- A run-time value. The tag is what the code generator tracks of a slot (`bool_vids`,
`string_vids`, the slot's type). -/
inductive Val
  | int (v : BitVec 64)
  | float (bits : BitVec 64)
  | bool (b : Bool)
  | str (s : String)
  | ref (r : Ref)
  | fn (name : String)
  | unit
  deriving DecidableEq, Repr, Inhabited

namespace Val

/-- The slot of a variable nothing was assigned to. -/
def zero : Val := .int 0

/-- The value as a branch condition: the slot is not zero. -/
def truthy : Val → Bool
  | int v => v ≠ 0
  | float bits => bits ≠ 0
  | bool b => b
  | str _ | ref _ | fn _ => true
  | unit => false

/-- The reference a value holds. -/
def ref? : Val → Option Ref
  | ref r => some r
  | _ => none

/-- The value's 64-bit slot, for the values that are numbers. -/
def bits : Val → BitVec 64
  | int v | float v => v
  | bool b => if b then 1 else 0
  | _ => 0

end Val

/-- An object: its class and its fields. A field that was never written reads as zero. -/
structure Obj where
  className : String
  fields : String → Val

/-- What an observer sees. -/
inductive Event
  | out (v : Val) (ty : String)
  | err (v : Val)
  | call (func : String) (args : List Val)
  | method (name : String) (args : List Val)
  | setGlobal (name : String) (v : Val)
  | volatileLoad (addr : Val) (ty : String)
  | volatileStore (addr v : Val) (ty : String)
  | asm (template : String) (inputs : List Val)
  | returned (v : Val)
  | foreign (v : Val)
  deriving DecidableEq, Repr

/-- The values an event hands to the environment. -/
def Event.handed : Event → List Val
  | .call _ args | .method _ args | .asm _ args => args
  | .volatileLoad a _ => [a]
  | .volatileStore a v _ => [a, v]
  | .returned v => [v]
  | .out _ _ | .err _ | .setGlobal _ _ | .foreign _ => []

/-- The answer of an environment to one event. -/
inductive Reply
  | ret (v : Val)
  | trap (t : Trap)
  | stop
  | emit (v : Val) (k : Reply)
  | getField (r : Ref) (field : String) (k : Val → Reply)
  | setField (r : Ref) (field : String) (v : Val) (k : Reply)
  | put (n : Nat) (o : Obj) (k : Reply)
  | getGlobal (name : String) (k : Val → Reply)
  | setGlobal (name : String) (v : Val) (k : Reply)

/-- An environment answers an event from the trace that it ends. -/
abbrev Env := List Event → Reply

/-- The store: objects, how often each site has allocated, module variables, the references the
environment holds, and the trace, newest event first. -/
structure World where
  heap : Ref → Option Obj
  allocs : String × ValueId → Nat
  globals : String → Val
  known : List Ref
  trace : List Event

namespace World

/-- The environment holds every reference the value does. References to objects from outside are
its own. -/
def knows (w : World) (v : Val) : Bool :=
  match v with
  | .ref (.site f d k) => .site f d k ∈ w.known
  | _ => true

def learn (w : World) (v : Val) : World :=
  match v with
  | .ref r => { w with known := r :: w.known }
  | _ => w

def emit (w : World) (e : Event) : World := { w with trace := e :: w.trace }

def setGlobal (w : World) (name : String) (v : Val) : World :=
  { w with globals := Function.update w.globals name v }

def setObj (w : World) (r : Ref) (o : Obj) : World :=
  { w with heap := Function.update w.heap r (some o) }

end World

/-- How an answer or a run ends. -/
inductive Ending
  | returned (v : Val)
  | trapped (t : Trap)
  | stopped
  deriving DecidableEq, Repr

/-- An object with one field written. -/
def Obj.set (o : Obj) (field : String) (v : Val) : Obj :=
  { o with fields := Function.update o.fields field v }

/-- Run an answer on the store. A reply that uses a reference it was not handed is cut off. -/
def Reply.run : Reply → World → Ending × World
  | .ret v, w => if w.knows v then (.returned v, w) else (.stopped, w)
  | .trap t, w => (.trapped t, w)
  | .stop, w => (.stopped, w)
  | .emit v k, w => k.run (w.emit (.foreign v))
  | .getField r field k, w =>
    if w.knows (.ref r) then
      match w.heap r with
      | some o => (k (o.fields field)).run (w.learn (o.fields field))
      | none => (.trapped .nullReference, w)
    else (.stopped, w)
  | .setField r field v k, w =>
    if w.knows (.ref r) && w.knows v then
      match w.heap r with
      | some o => k.run (w.setObj r (o.set field v))
      | none => (.trapped .nullReference, w)
    else (.stopped, w)
  | .put n o k, w =>
    -- an object of the environment's own, whose fields are numbers until they are written
    k.run (w.setObj (.ext n) { o with fields := fun _ => .zero })
  | .getGlobal name k, w => (k (w.globals name)).run (w.learn (w.globals name))
  | .setGlobal name v k, w =>
    if w.knows v then k.run (w.setGlobal name v) else (.stopped, w)

/-- Hand an event to the environment and run its answer. -/
def World.ask (env : Env) (w : World) (e : Event) : Ending × World :=
  (env (e :: w.trace)).run (e.handed.foldl World.learn (w.emit e))

/-- A value that is not a reference. -/
abbrev Scalar := { v : Val // v.ref? = none }

/-- The run-time library a program is linked with: the text of floats, references and functions,
arithmetic that is not on integers, conversions that involve a float (`truncate` is the one that
faults out of range), and the built-in functions that have no effect. None of them makes a
reference. -/
structure Host where
  text : Val → String
  binary : String → String → Val → Val → Scalar
  unary : String → String → Val → Scalar
  convert : String → String → Val → Scalar
  truncate : BitVec 64 → Option (BitVec 64)
  asmOutput : String → Val → Scalar
  builtin : String → Option (List Val → Scalar)

end Datara.Dmir
