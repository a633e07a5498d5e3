import Datara.Library.AggregateLayout

/-!
# C imports

`expand_c_imports` on the declarations of a parsed header: every C declaration becomes a declaration
of the program. A function that returns a structure is let through the gate of `classify_return` or
refused with a warning. Source positions, and the warnings of the parser, are left out.
-/

namespace Datara.Cimport

open Library

/-! ## C declarations -/

inductive CType
  | void
  | int (name : String) (bits : Nat) (isSigned : Bool)
  | float (name : String) (bits : Nat)
  | char
  /-- `char*` or `const char*`. -/
  | string
  | rawPtr (pointee : Option String)
  | named (name : String)
  deriving DecidableEq, Repr

/-- The names that stand for integers in Datara. -/
def intTypeNames : List String :=
  ["int", "long", "short", "size_t", "ssize_t", "int64_t", "uint64_t", "int32_t", "uint32_t",
    "int16_t", "uint16_t", "int8_t", "uint8_t", "intptr_t", "uintptr_t", "ptrdiff_t", "char"]

/-- `to_datara_type_node`. -/
def CType.toDataraTypeNode : CType → Option String
  | void => none
  | int _ _ _ | char => some "Int"
  | float _ _ => some "Float"
  | string => some "String"
  | rawPtr _ => some "RawPtr"
  | named name =>
    if name ∈ intTypeNames then some "Int"
    else if name = "float" ∨ name = "double" then some "Float"
    else some name

structure CField where
  name : String
  ty : CType
  deriving DecidableEq, Repr

structure CStruct where
  name : String
  fields : List CField
  deriving DecidableEq, Repr

structure CFunction where
  name : String
  returnType : CType
  params : List CField
  isVariadic : Bool
  deriving DecidableEq, Repr

inductive CDecl
  | function (f : CFunction)
  | enum (name : Option String) (variants : List (String × Int))
  | defineInt (name : String) (value : Int)
  | opaqueStruct (name : String)
  | struct (s : CStruct)
  | typedef (name : String) (target : CType)
  deriving DecidableEq, Repr

/-! ## Layouts -/

/-- The SysV AMD64 class of an eightbyte. -/
inductive SysVClass
  | integer | sse
  deriving DecidableEq, Repr

structure StructLayout where
  /-- With tail padding. -/
  size : Nat
  align : Nat
  /-- Every field is an 8-byte scalar at `index * 8`, and nothing else. -/
  sretEligible : Bool
  /-- The classes of two 8-byte scalars. -/
  sysvClasses : Option (SysVClass × SysVClass)
  deriving DecidableEq, Repr

abbrev StructLayouts := String → Option StructLayout

def roundUp (value align : Nat) : Nat := alignUp (max align 1) value

/-- The sizes of the named types that are known; `c_field_layout` and `c_type_size` have the same. -/
def cNamedSize : String → Option Nat
  | "char" | "int8_t" | "uint8_t" => some 1
  | "short" | "int16_t" | "uint16_t" => some 2
  | "int" | "int32_t" | "uint32_t" => some 4
  | "long" | "long long" | "size_t" | "ssize_t" | "int64_t" | "uint64_t" | "intptr_t"
  | "uintptr_t" | "ptrdiff_t" => some 8
  | "float" => some 4
  | "double" => some 8
  | _ => none

/-- `c_field_reg_class`. -/
def cFieldRegClass : CType → Option SysVClass
  | .int _ bits _ => if bits = 64 then some .integer else none
  | .float _ bits => if bits = 64 then some .sse else none
  | .string | .rawPtr _ => some .integer
  | .named name =>
    match name with
    | "long" | "long long" | "size_t" | "ssize_t" | "int64_t" | "uint64_t" | "intptr_t"
    | "uintptr_t" | "ptrdiff_t" => some .integer
    | "double" => some .sse
    | _ => none
  | _ => none

/-- `c_field_layout`: what a field takes up, and whether it is an 8-byte scalar. -/
def cFieldLayout (structs : StructLayouts) : CType → Extent × Bool
  | .void => (⟨0, 1⟩, false)
  | .int _ bits _ | .float _ bits =>
    let size := bits / 8
    (⟨size, min size 8⟩, size = 8)
  | .char => (⟨1, 1⟩, false)
  | .string | .rawPtr _ => (⟨8, 8⟩, true)
  | .named name =>
    match cNamedSize name with
    | some size => (⟨size, size⟩, size = 8)
    | none =>
      match structs name with
      | some nested => (⟨nested.size, nested.align⟩, false)
      | none => (⟨16, 8⟩, false)

/-- What `compute_struct_layouts` carries over the fields of a structure. -/
structure FieldWalk where
  size : Nat
  align : Nat
  eligible : Bool
  classes : Option (SysVClass × SysVClass)

/-- The field of an index. -/
def FieldWalk.field (structs : StructLayouts) (w : FieldWalk) (index : Nat) (ty : CType) : FieldWalk :=
  let f := cFieldLayout structs ty
  let offset := roundUp w.size f.1.align
  { size := offset + f.1.size
    align := max w.align f.1.align
    eligible := w.eligible && f.2 && offset = index * 8
    classes :=
      match cFieldRegClass ty, index, w.classes with
      | some cls, 0, some arr => some (cls, arr.2)
      | some cls, 1, some arr => some (arr.1, cls)
      | _, _, _ => none }

def FieldWalk.fields (structs : StructLayouts) : FieldWalk → Nat → List CType → FieldWalk
  | w, _, [] => w
  | w, index, ty :: tys => fields structs (w.field structs index ty) (index + 1) tys

/-- One structure, under the layouts of those before it. -/
def structLayout (structs : StructLayouts) (tys : List CType) : StructLayout :=
  let w := FieldWalk.fields structs ⟨0, 1, true, some (.integer, .integer)⟩ 0 tys
  let total := roundUp w.size w.align
  { size := total
    align := w.align
    sretEligible := w.eligible && !(tys.isEmpty || total ≠ tys.length * 8)
    sysvClasses := if total ≠ 16 then none else w.classes }

/-- A declaration, for the layouts of the structures so far. -/
def layoutDecl (layouts : StructLayouts) : CDecl → StructLayouts
  | .struct cs =>
    Function.update layouts cs.name (some (structLayout layouts (cs.fields.map (·.ty))))
  | _ => layouts

/-- `compute_struct_layouts`. -/
def computeStructLayouts (decls : List CDecl) : StructLayouts :=
  decls.foldl layoutDecl fun _ => none

/-! ## Classification -/

inductive StructReturnAbi
  | none | sret | sysvRegisters
  deriving DecidableEq, Repr

inductive ReturnAbi
  | register
  | sret (size : Nat)
  | sysvRegisters (classes : SysVClass × SysVClass)
  | aboveWindow (size : Nat)
  | unsupported (size : Option Nat)
  deriving DecidableEq, Repr

def maxSretBytes : Nat := 16

/-- `c_type_size` with no structure known. -/
def cTypeSize : CType → Option Nat
  | .void => some 0
  | .int _ bits _ | .float _ bits => some (bits / 8)
  | .char => some 1
  | .string | .rawPtr _ => some 8
  | .named name => cNamedSize name

/-- The layout of a structure, for a return. -/
def classifyLayout (abi : StructReturnAbi) (layout : StructLayout) : ReturnAbi :=
  if layout.size ≤ 8 then .register
  else if layout.sretEligible then
    if layout.size ≤ maxSretBytes then
      match abi, layout.sysvClasses with
      | .sysvRegisters, some classes => .sysvRegisters classes
      | _, _ => .sret layout.size
    else .aboveWindow layout.size
  else .unsupported (some layout.size)

/-- `classify_return`. -/
def classifyReturn (ty : CType) (structs : StructLayouts) (abi : StructReturnAbi) : ReturnAbi :=
  let structOf := match ty with
    | .named name => structs name
    | _ => none
  match structOf with
  | some layout => classifyLayout abi layout
  | none =>
    match cTypeSize ty with
    | some size => if size > 8 then .unsupported (some size) else .register
    | none => .register

/-! ## Expansion -/

structure ExternFnDecl where
  name : String
  params : List (String × Option String)
  returnType : Option String
  sretSize : Option Nat
  sysvClasses : Option (SysVClass × SysVClass)
  deriving DecidableEq, Repr

inductive Decl
  | externFn (f : ExternFnDecl)
  | type (name baseType : String)
  /-- A function without parameters that returns an `Int` literal. -/
  | intFunction (name : String) (value : Int)
  | class (name : String) (fields : List (String × Option String))
  deriving DecidableEq, Repr

/-- The name under which a type is declared. -/
def Decl.typeName : Decl → Option String
  | type name _ | .class name _ => some name
  | _ => none

/-- The name of a function that was made from a constant. -/
def Decl.functionName : Decl → Option String
  | intFunction name _ => some name
  | _ => none

def SysVClass.debug : SysVClass → String
  | integer => "Integer"
  | sse => "Sse"

def variadicReason : String :=
  "the function is variadic and the import path does not model the variadic struct-return ABI"

/-- The warning about a structure that the target could return, but not here. -/
def rejectedShape (name shape reason : String) : String :=
  "C function '" ++ name ++ "' returns a by-value struct of " ++ shape ++ ", but " ++ reason ++
    ", so the declaration is rejected at compile time instead of crashing at run time. Use an " ++
    "out-pointer parameter (e.g. `void f(T* out)`)."

/-- `sret_size` and `sysv_classes` of an accepted function, or the warning about a refused one. -/
def returnGate (abi : StructReturnAbi) (layouts : StructLayouts) (cf : CFunction) :
    Except String (Option Nat × Option (SysVClass × SysVClass)) :=
  match classifyReturn cf.returnType layouts abi with
  | .register => .ok (none, none)
  | .sret size =>
    if !cf.isVariadic && abi = .sret then .ok (some size, none)
    else
      .error <| rejectedShape cf.name (toString size ++ " bytes") <|
        if cf.isVariadic then variadicReason
        else "the current compilation target does not implement the hidden sret return-slot ABI " ++
          "for C imports yet"
  | .sysvRegisters classes =>
    if !cf.isVariadic && abi = .sysvRegisters then .ok (none, some classes)
    else
      .error <| rejectedShape cf.name
        ("16 bytes classified as " ++ classes.1.debug ++ "/" ++ classes.2.debug ++ " eightbytes") <|
        if cf.isVariadic then variadicReason
        else "the current compilation target does not implement the SysV AMD64 register-pair " ++
          "return ABI for C imports yet"
  | .aboveWindow size =>
    .error <| "C function '" ++ cf.name ++ "' returns a by-value struct of " ++ toString size ++
      " bytes, which exceeds the supported hidden sret return window of " ++ toString maxSretBytes ++
      " bytes (two 8-byte fields) for C imports, so the declaration is rejected at compile time " ++
      "instead of silently relying on an untested ABI shape. Use an out-pointer parameter (e.g. " ++
      "`void f(T* out)`)."
  | .unsupported size =>
    let note := match size with
      | some bytes => "of " ++ toString bytes ++ " bytes"
      | none => "of unknown size"
    .error <| "C function '" ++ cf.name ++ "' returns a by-value struct " ++ note ++
      " whose C layout cannot be mapped onto the Datara object layout used to read the sret return " ++
      "buffer (every field must be an 8-byte scalar at offset index*8 and the total size must equal " ++
      "fields*8), so the declaration is rejected at compile time instead of crashing at run time. " ++
      "Use an out-pointer parameter (e.g. `void f(T* out)`)."

/-- A function that passes the gate. -/
def expandFunction (abi : StructReturnAbi) (layouts : StructLayouts) (cf : CFunction) :
    Except String ExternFnDecl :=
  (returnGate abi layouts cf).map fun r =>
    { name := cf.name
      params := cf.params.map fun p => (p.name, p.ty.toDataraTypeNode)
      returnType := cf.returnType.toDataraTypeNode
      sretSize := r.1
      sysvClasses := r.2 }

/-- A declaration, unless a type of its name is there. -/
def declareType (acc : List Decl) (name : String) (d : Decl) : List Decl :=
  if acc.any fun d => d.typeName = some name then acc else acc ++ [d]

/-- The declarations so far and the warnings, after a C declaration. -/
def expandDecl (abi : StructReturnAbi) (layouts : StructLayouts) (acc : List Decl × List String) :
    CDecl → List Decl × List String
  | .function cf =>
    match expandFunction abi layouts cf with
    | .ok f => (acc.1 ++ [.externFn f], acc.2)
    | .error w => (acc.1, acc.2 ++ [w])
  | .enum name variants =>
    let named := match name with
      | some name => declareType acc.1 name (.type name "Int")
      | none => acc.1
    (variants.foldl
      (fun ds v =>
        if ds.any fun d => d.functionName = some v.1 then ds else ds ++ [.intFunction v.1 v.2])
      named, acc.2)
  | .defineInt name value => (acc.1 ++ [.intFunction name value], acc.2)
  | .opaqueStruct name => (declareType acc.1 name (.type name "RawPtr"), acc.2)
  | .struct cs =>
    (declareType acc.1 cs.name
      (.class cs.name (cs.fields.map fun f => (f.name, f.ty.toDataraTypeNode))), acc.2)
  | .typedef name target =>
    match target.toDataraTypeNode with
    | some base => (declareType acc.1 name (.type name base), acc.2)
    | none => acc

/-- `expand_c_imports`, on the declarations of one header, after the declarations `program`. -/
def expandCImports (abi : StructReturnAbi) (program : List Decl) (decls : List CDecl) :
    List Decl × List String :=
  decls.foldl (expandDecl abi (computeStructLayouts decls)) (program, [])

end Datara.Cimport
