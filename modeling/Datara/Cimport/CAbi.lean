import Datara.Cimport.Gate

/-!
# The C ABIs of the two targets

What C says of the declarations of a header: the layout of a type (`HasLayout`), and how a value of it
is returned (`Layout.passing`), on x86-64 under System V and under Windows.
-/

namespace Datara.Cimport

open Library

/-- The targets for which structures are returned. -/
inductive Target
  | sysv | windows
  deriving DecidableEq, Repr

/-- What the compiler is told of the target. -/
def Target.abi : Target → StructReturnAbi
  | sysv => .sysvRegisters
  | windows => .sret

/-- A scalar inside a value. -/
structure Leaf where
  offset : Nat
  cls : SysVClass
  deriving DecidableEq, Repr

structure Layout where
  size : Nat
  align : Nat
  /-- Where the members of a structure stand. A scalar has none. -/
  members : List Nat
  leaves : List Leaf
  deriving DecidableEq, Repr

namespace Layout

def scalar (size : Nat) (cls : SysVClass) : Layout := ⟨size, size, [], [⟨0, cls⟩]⟩

def extent (L : Layout) : Extent := ⟨L.size, L.align⟩

/-- The scalars of a layout that stands at an offset. -/
def leavesAt (L : Layout) (o : Nat) : List Leaf := L.leaves.map fun l => { l with offset := o + l.offset }

/-- A structure of members in order. -/
def struct (ms : List Layout) : Layout :=
  let es := ms.map extent
  { size := Extent.total es
    align := Extent.joint 1 es
    members := Extent.offsets 0 es
    leaves := ((ms.zip (Extent.offsets 0 es)).map fun m => m.1.leavesAt m.2).flatten }

end Layout

/-- The scalar of a built-in name. A `long` has 4 bytes on Windows. -/
def Target.namedScalar (t : Target) (name : String) : Option Layout :=
  if name ∈ ["char", "int8_t", "uint8_t"] then some (.scalar 1 .integer)
  else if name ∈ ["short", "int16_t", "uint16_t"] then some (.scalar 2 .integer)
  else if name ∈ ["int", "int32_t", "uint32_t"] then some (.scalar 4 .integer)
  else if name ∈ ["long long", "size_t", "ssize_t", "int64_t", "uint64_t", "intptr_t", "uintptr_t",
      "ptrdiff_t"] then some (.scalar 8 .integer)
  else if name = "long" then some (.scalar (if t = .windows then 4 else 8) .integer)
  else if name = "float" then some (.scalar 4 .sse)
  else if name = "double" then some (.scalar 8 .sse)
  else none

/-- The layout of a type that needs no declaration. -/
def Target.scalarLayout (t : Target) : CType → Option Layout
  | .void => none
  | .int name bits _ => some (.scalar (if t = .windows ∧ name = "long" then 4 else bits / 8) .integer)
  | .float _ bits => some (.scalar (bits / 8) .sse)
  | .char => some (.scalar 1 .integer)
  | .string | .rawPtr _ => some (.scalar 8 .integer)
  | .named name => t.namedScalar name

/-- The structure of a name. -/
def structNamed (decls : List CDecl) (name : String) : Option CStruct :=
  decls.findSome? fun
    | .struct s => if s.name = name then some s else none
    | _ => none

/-- The type that another name, or an enumeration's, stands for. -/
def aliasNamed (decls : List CDecl) (name : String) : Option CType :=
  decls.findSome? fun
    | .enum (some n) _ => if n = name then some (.int "int" 32 true) else none
    | .typedef n target => if n = name then some target else none
    | _ => none

/-- The layouts of members, if all are complete. -/
def layoutsOf (layout : CType → Option Layout) : List CField → Option (List Layout)
  | [] => some []
  | f :: fs => (layout f.ty).bind fun L => (layoutsOf layout fs).map fun Ls => L :: Ls

/-- The layout of a name, under the layouts of other types. -/
def layoutDeclared (decls : List CDecl) (layout : CType → Option Layout) : CType → Option Layout
  | .named name =>
    match structNamed decls name with
    | some s => (layoutsOf layout s.fields).map .struct
    | none => (aliasNamed decls name).bind layout
  | _ => none

/-- The layout of a type, through names up to a depth. -/
def layoutOf (t : Target) (decls : List CDecl) : Nat → CType → Option Layout
  | 0, ty => t.scalarLayout ty
  | depth + 1, ty => (t.scalarLayout ty).or (layoutDeclared decls (layoutOf t decls depth) ty)

/-- A type is complete and has the layout. -/
def HasLayout (t : Target) (decls : List CDecl) (ty : CType) (L : Layout) : Prop :=
  ∃ depth, layoutOf t decls depth ty = some L

/-- How a value is returned. -/
inductive Passing
  | nothing
  /-- Each eightbyte in the next return register of its class. -/
  | registers (classes : List SysVClass)
  /-- In memory that the caller passes a pointer to. -/
  | hiddenPointer
  deriving DecidableEq, Repr

namespace Layout

/-- The class of an eightbyte: an integer in it decides. -/
def eightbyte (L : Layout) (k : Nat) : SysVClass :=
  if L.leaves.any fun l => l.offset / 8 = k && l.cls = .integer then .integer else .sse

/-- **The C ABI.** -/
def passing (t : Target) (L : Layout) : Passing :=
  match t with
  | .sysv =>
    if L.size ≤ 8 then .registers [L.eightbyte 0]
    else if L.size ≤ 16 then .registers [L.eightbyte 0, L.eightbyte 1]
    else .hiddenPointer
  | .windows =>
    if L.members = [] then .registers [L.eightbyte 0]
    else if L.size ∈ [1, 2, 4, 8] then .registers [.integer]
    else .hiddenPointer

end Layout

/-- The ABI prescribes how a value of the type is returned. -/
inductive Prescribed (t : Target) (decls : List CDecl) : CType → Passing → Prop
  | void : Prescribed t decls .void .nothing
  | ofLayout {ty : CType} {L : Layout} :
      HasLayout t decls ty L → Prescribed t decls ty (L.passing t)

/-- The register class of a value that comes back in one register. -/
def CType.registerClass : CType → Option SysVClass
  | .void => none
  | .float _ _ => some .sse
  | .named name => some (if name = "float" ∨ name = "double" then .sse else .integer)
  | _ => some .integer

/-- How the back end takes the value of an accepted function that returns a type: `Register` is RAX for
a small structure, and for a scalar the register of its class. -/
def ExternFnDecl.passing (e : ExternFnDecl) (ty : CType) : Passing :=
  match e.sretSize, e.sysvClasses with
  | some _, _ => .hiddenPointer
  | none, some classes => .registers [classes.1, classes.2]
  | none, none =>
    match ty.registerClass with
    | none => .nothing
    | some cls => .registers [cls]

/-- **An accepted function is returned as the ABI prescribes**, and the members of its structure stand
where fields are read. -/
structure GateRight (t : Target) (decls : List CDecl) (cf : CFunction) (e : ExternFnDecl) : Prop where
  prescribed : Prescribed t decls cf.returnType (e.passing cf.returnType)
  fields : ∀ L, HasLayout t decls cf.returnType L → ∀ i o, L.members[i]? = some o → o = i * 8

/-- A type the parser makes for a member: the widths of C's scalars, and no `void`. -/
def CType.WellFormed : CType → Prop
  | .void => False
  | .int name bits _ =>
    (bits = 8 ∨ bits = 16 ∨ bits = 32 ∨ bits = 64) ∧ (name = "long" → bits = 64)
  | .float _ bits => bits = 32 ∨ bits = 64
  | _ => True

/-- What C asks of the declarations: a structure has members, its name is its own and not a built-in
one, and members and targets are types of values. -/
structure WellFormed (decls : List CDecl) : Prop where
  fields : ∀ s, .struct s ∈ decls → s.fields ≠ [] ∧ ∀ f ∈ s.fields, f.ty.WellFormed
  names : ∀ s, .struct s ∈ decls → cNamedSize s.name = none
  once : ∀ s s', .struct s ∈ decls → .struct s' ∈ decls → s.name = s'.name → s = s'
  targets : ∀ name target, .typedef name target ∈ decls → target.WellFormed

end Datara.Cimport
