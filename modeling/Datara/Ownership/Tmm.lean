import Datara.Ast.Nodes
import Datara.Library.CycleSearch
import Datara.Library.Upsert
import Mathlib.Data.List.Sort

/-!
# The ownership graph of classes

`ownership/tmm.rs`: the layers and the fields of a program's classes (`TmmPlan.build`), the classes without an
annotation that are on a cycle (`cyclicDataflowClasses`), and the cycles that `@arc` classes are told of
(`detectArcCycles`). What the graph is meant to be is stated over the declared types (`Refers`).
-/

namespace Datara.Ownership.Tmm

open Library
open Ast (SourceSpan)

/-! ## Declarations -/

/-- `TypeNode`, as far as it names types. -/
inductive TypeNode
  | mk (name : String) (genericArgs : List TypeNode) (errorType : Option TypeNode)

namespace TypeNode

def name : TypeNode → String
  | mk name _ _ => name

def genericArgs : TypeNode → List TypeNode
  | mk _ genericArgs _ => genericArgs

def errorType : TypeNode → Option TypeNode
  | mk _ _ errorType => errorType

end TypeNode

structure Attribute where
  name : String
  args : List (String × String)

structure FieldDecl where
  name : String
  typeNode : Option TypeNode
  span : SourceSpan

inductive ClassItem
  | field (f : FieldDecl)
  | other

structure ClassDecl where
  name : String
  attributes : List Attribute
  bodyItems : List ClassItem
  span : SourceSpan

inductive Decl
  | type (name : String) (baseType : TypeNode)
  | class (c : ClassDecl)
  | other

/-! ## The plan -/

inductive TmmLayer
  | dataflow
  | arc
  | weak
  | autoFree
  deriving DecidableEq

structure FieldEdge where
  fieldName : String
  target : String
  isWeak : Bool
  span : SourceSpan

structure ClassPlan where
  name : String
  layer : TmmLayer
  isArc : Bool
  fields : List FieldEdge
  span : SourceSpan

structure TmmPlan where
  classes : List (String × ClassPlan) := []
  synonyms : List (String × String) := []

def ClassDecl.isArc (c : ClassDecl) : Bool := c.attributes.any fun a => a.name = "arc"

def ClassDecl.hasAutofree (c : ClassDecl) : Bool :=
  c.attributes.any fun a => a.name = "derive" && a.args.any fun arg => arg.1 = "AutoFree"

def ClassDecl.layer (c : ClassDecl) : TmmLayer :=
  if c.isArc then .arc else if c.hasAutofree then .autoFree else .dataflow

/-- The name that stands for a field's type: the last argument's, or its own. -/
def TypeNode.inner (t : TypeNode) : String := (t.genericArgs.getLast?.map (·.name)).getD t.name

/-- The loop of `resolve`. -/
def resolveFrom (synonyms : List (String × String)) : Nat → String → String
  | 0, current => current
  | n + 1, current =>
    match synonyms.lookup current with
    | some next => if next ≠ current then resolveFrom synonyms n next else current
    | none => current

namespace TmmPlan

def resolve (plan : TmmPlan) (name : String) : String := resolveFrom plan.synonyms 8 name

def fieldEdge (plan : TmmPlan) : ClassItem → Option FieldEdge
  | .field f => f.typeNode.map fun t =>
    { fieldName := f.name, target := plan.resolve t.inner, isWeak := t.name = "Weak", span := f.span }
  | .other => none

def classPlan (plan : TmmPlan) (c : ClassDecl) : ClassPlan :=
  { name := c.name, layer := c.layer, isArc := c.isArc, fields := c.bodyItems.filterMap plan.fieldEdge, span := c.span }

/-- Pass 0. -/
def collectSynonyms (program : List Decl) : List (String × String) :=
  program.foldl (fun synonyms decl => match decl with
    | .type name baseType => upsert name baseType.name synonyms
    | _ => synonyms) []

/-- A declaration enters the plan. -/
def addClass (plan : TmmPlan) : Decl → TmmPlan
  | .class c => { plan with classes := upsert c.name (plan.classPlan c) plan.classes }
  | _ => plan

/-- `TmmPlan::build`. -/
def build (program : List Decl) : TmmPlan := program.foldl addClass { synonyms := collectSynonyms program }

/-- `classes.values()`, in the order of the keys. -/
def values (plan : TmmPlan) : List ClassPlan := (plan.classes.insertionSort fun e f => e.1 ≤ f.1).map Prod.snd

end TmmPlan

/-! ## Cycles of dataflow classes -/

/-- `dataflow`. -/
def dataflowNames (plan : TmmPlan) : List String :=
  (plan.values.filter fun c => c.layer = .dataflow).map (·.name)

def neighbors (plan : TmmPlan) (name : String) : List String :=
  ((plan.classes.lookup name).map fun c =>
    (c.fields.filter fun f => !f.isWeak && decide (f.target ∈ dataflowNames plan)).map (·.target)).getD []

/-- The search from a class. -/
def findCycle (plan : TmmPlan) (cyclic : List String) (start : String) : Option (List String) :=
  (leadsBack (neighbors plan) start ((neighbors plan start).length + (dataflowNames plan).length + 1)
    (neighbors plan start).reverse []).map fun found => if found then cyclic ++ [start] else cyclic

/-- `cyclic_dataflow_classes`. -/
def cyclicDataflowClasses (plan : TmmPlan) : Option (List String) := (dataflowNames plan).foldlM (findCycle plan) []

/-! ## Cycles that lead from an `@arc` class -/

/-- An error `E-TMM-001`. -/
structure ArcCycle where
  message : String
  span : SourceSpan
  help : String

structure CycleState where
  visited : List (String × String) := []
  reported : List (List String) := []
  errors : List ArcCycle := []

/-- What is reported of an edge back to a place of the path. -/
def report (plan : TmmPlan) (path : List String) (pos : Nat) (edge : FieldEdge) (st : CycleState) : CycleState :=
  let cycle := path.drop pos ++ [edge.target]
  let members := (path.drop pos).insertionSort (· ≤ ·)
  if members ∈ st.reported then st
  else
    { st with
      reported := members :: st.reported
      errors := st.errors ++
        [{ message := "Strong reference cycle in @arc ownership graph: " ++ " → ".intercalate cycle ++
              ". The refcount of these objects can never reach zero, so they leak."
           span := ((plan.classes.lookup edge.target).map (·.span)).getD edge.span
           help := "put @weak on the field back-edge (e.g. 'next: Weak<" ++ cycle.headD "" ++ ">' instead of '" ++
              edge.fieldName ++ ": " ++ edge.target ++ "') and call upgrade() -> Outcome<T> before use" }] }

/-- An edge of the class that the path has come to, with what searches from there. -/
def dfsEdge (plan : TmmPlan) (search : String → List String → CycleState → Option CycleState) (cls : String)
    (path : List String) (st : CycleState) (edge : FieldEdge) : Option CycleState :=
  if edge.isWeak then some st
  else if (cls, edge.target) ∈ st.visited then some st
  else
    let st := { st with visited := (cls, edge.target) :: st.visited }
    match path.idxOf? edge.target with
    | some pos => some (report plan path pos edge st)
    | none =>
      if (plan.classes.lookup edge.target).isSome ∧ edge.target = plan.resolve edge.target then
        search edge.target (path ++ [edge.target]) st
      else some st

/-- `dfs_cycle`; nothing when the path has not ended after so many classes. -/
def dfsCycle (plan : TmmPlan) : Nat → String → List String → CycleState → Option CycleState
  | 0, _, _, _ => none
  | fuel + 1, cls, path, st =>
    match plan.classes.lookup cls with
    | none => some st
    | some node => node.fields.foldlM (dfsEdge plan (dfsCycle plan fuel) cls path) st

def arcNames (plan : TmmPlan) : List String := (plan.values.filter (·.isArc)).map (·.name)

/-- `detect_arc_cycles`. -/
def detectArcCycles (plan : TmmPlan) : Option (List ArcCycle) :=
  ((arcNames plan).foldlM (fun st start =>
    dfsCycle plan plan.classes.length start [start] { st with visited := [] }) {}).map (·.errors)

/-! ## References -/

variable (program : List Decl)

/-- The declaration of a class; a later one of the same name replaces it. -/
def classNamed (name : String) : Option ClassDecl :=
  program.reverse.findSome? fun
    | .class c => if c.name = name then some c else none
    | _ => none

/-- What a type synonym stands for. -/
def synonymNamed (name : String) : Option TypeNode :=
  program.reverse.findSome? fun
    | .type n baseType => if n = name then some baseType else none
    | _ => none

/-- A class occurs in a type, and not under `Weak`. -/
inductive Occurs : TypeNode → String → Prop
  | name {t : TypeNode} : (classNamed program t.name).isSome → Occurs t t.name
  | synonym {t base : TypeNode} {c : String} : synonymNamed program t.name = some base → Occurs base c → Occurs t c
  | arg {t a : TypeNode} {c : String} : t.name ≠ "Weak" → a ∈ t.genericArgs → Occurs a c → Occurs t c
  | error {t e : TypeNode} {c : String} : t.errorType = some e → Occurs e c → Occurs t c

/-- A class has a field of a type. -/
def HasField (c : String) (t : TypeNode) : Prop :=
  ∃ decl, classNamed program c = some decl ∧ ∃ f, .field f ∈ decl.bodyItems ∧ f.typeNode = some t

/-- A strong reference. -/
def Refers (c d : String) : Prop := ∃ t, HasField program c t ∧ t.name ≠ "Weak" ∧ Occurs program t d

def Dataflow (c : String) : Prop := ∃ decl, classNamed program c = some decl ∧ decl.layer = .dataflow

def IsArc (c : String) : Prop := ∃ decl, classNamed program c = some decl ∧ decl.isArc

/-- A class is on a cycle of references among dataflow classes. -/
def DataflowCycle (c : String) : Prop := Relation.TransGen (fun a b => Refers program a b ∧ Dataflow program b) c c

/-- What is asked of both detectors. -/
def CyclesExact : Prop :=
  ∃ cyclic errors, cyclicDataflowClasses (.build program) = some cyclic ∧ detectArcCycles (.build program) = some errors ∧
    (∀ c, Dataflow program c → (c ∈ cyclic ↔ DataflowCycle program c)) ∧
    (errors ≠ [] ↔ ∃ a, IsArc program a ∧ Relation.TransGen (Refers program) a a)

/-- A name through at most so many synonyms, as far as they are plain names. -/
def throughSynonyms : Nat → String → String
  | 0, name => name
  | n + 1, name =>
    match synonymNamed program name with
    | some base => if base.name ≠ name then throughSynonyms n base.name else name
    | none => name

/-- A reference that is seen: by the name of the last argument of a field's type, or of the type where it has none,
through eight synonyms. -/
def Seen (c d : String) : Prop :=
  ∃ t, HasField program c t ∧ t.name ≠ "Weak" ∧ throughSynonyms program 8 t.inner = d ∧ (classNamed program d).isSome

/-- A seen reference that the search from an `@arc` class goes along: not to a class whose name is a synonym, but for
the class it began with. -/
def Followed (a c d : String) : Prop := Seen program c d ∧ (throughSynonyms program 8 d = d ∨ d = a)

/-- An `@arc` class leads to a cycle of references that are followed. -/
def LeadsToCycle : Prop :=
  ∃ a, IsArc program a ∧ ∃ d, Relation.ReflTransGen (Followed program a) a d ∧ Relation.TransGen (Followed program a) d d

/-- Where a dataflow class is on a cycle it is on one of seen references; where an `@arc` class is on a cycle some leads
to one of seen references; and where one leads to a cycle some is on a cycle. -/
structure CyclesSeen : Prop where
  dataflow : ∀ c, Dataflow program c → DataflowCycle program c →
    Relation.TransGen (fun a b => Seen program a b ∧ Dataflow program b) c c
  arc : (∃ a, IsArc program a ∧ Relation.TransGen (Refers program) a a) → LeadsToCycle program
  stray : LeadsToCycle program → ∃ a, IsArc program a ∧ Relation.TransGen (Refers program) a a

end Datara.Ownership.Tmm
