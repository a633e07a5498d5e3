import Datara.Ast.Nodes
import Datara.Library.JsonText
import Datara.Library.Upsert

/-!
# The derived JSON methods

`@derive(Json)` writes a method that joins its texts and the fields of the object with `+`, each field between the texts its
place and type ask for; `@derive(Deserialize)` writes one that builds an object of defaults. What the first returns is the
object of the fields exactly when no text in it needs an escape, and the second gives the object back exactly when it holds the
defaults already (`encoding_faithful_iff`).
-/

namespace Datara.Derive

open Datara.Ast Datara.Library

structure FieldDecl where
  name : String
  typeNode : Option TypeNode

def FieldDecl.typeName (f : FieldDecl) : Option String :=
  f.typeNode.map fun | .mk name _ => name

/-! ## What is synthesized -/

section
variable (span : SourceSpan)

private def stringLiteral (s : String) : Expr := .literal (.string s)

def fieldAccess (f : FieldDecl) : Expr := .memberAccess (.identifier "this" span) f.name

def isStr (f : FieldDecl) : Bool := f.typeName == some "Str" || f.typeName == some "String"

/-- What one field adds to the parts; only the first has no comma before it. -/
def fieldParts (i : Nat) (f : FieldDecl) : List Expr :=
  (if 0 < i then [stringLiteral ", "] else []) ++
    [stringLiteral ("\"" ++ f.name ++ "\": ")] ++
      if isStr f then [stringLiteral "\"", fieldAccess span f, stringLiteral "\""] else [fieldAccess span f]

def parts (fields : List FieldDecl) : List Expr :=
  fields.zipIdx.flatMap (fun p => fieldParts span p.2 p.1) ++ [stringLiteral "\x7d"]

def synthesizeToJson (fields : List FieldDecl) : MethodDecl where
  name := "to_json"
  attributes := []
  params := []
  requires := []
  body := some (.ret (some ((parts span fields).foldl (fun expr p => .binary "+" expr p) (stringLiteral "\x7b"))))

def defaultLiteral : Option String → LiteralValue
  | some "Int" => .int 0
  | some "Float" => .float 0
  | some "Bool" => .bool false
  | some "Str" => .string ""
  | some "String" => .string ""
  | _ => .int 0

def synthesizeFromJson (className : String) (fields : List FieldDecl) : MethodDecl where
  name := "from_json"
  attributes := []
  params := [{ name := "json_str", typeNode := some (.mk "Str" none), ownershipMode := "view" }]
  requires := []
  body := some (.ret (some (.objectInit className (fields.map fun f => (f.name, .literal (defaultLiteral f.typeName))))))

def hasMethod (methods : List MethodDecl) (name : String) : Bool := methods.any fun m => m.name == name

/-- What one requested trait adds to the methods of a class; the traits that write neither method add none of these names. -/
def expandTrait (className : String) (fields : List FieldDecl) (methods : List MethodDecl) (trait : String) : List MethodDecl :=
  if trait = "Json" ∨ trait = "Serialize" then
    if hasMethod methods "to_json" then methods else methods ++ [synthesizeToJson span fields]
  else if trait = "Deserialize" then
    if hasMethod methods "from_json" then methods else methods ++ [synthesizeFromJson className fields]
  else methods

def expandClassDerives (className : String) (fields : List FieldDecl) (requestedTraits : List String)
    (methods : List MethodDecl) : List MethodDecl :=
  requestedTraits.foldl (expandTrait span className fields) methods

end

/-! ## What the synthesized bodies do -/

inductive Value
  | int (n : Int)
  | bool (b : Bool)
  | str (s : String)
  deriving DecidableEq

/-- The text `+` takes for an operand when the other is a string. -/
def Value.display : Value → List Char
  | .int n => Json.intText n
  | .bool b => Json.boolText b
  | .str s => s.toList

def literalValue : LiteralValue → Option Value
  | .int n => some (.int n)
  | .bool b => some (.bool b)
  | .string s => some (.str s)
  | _ => none

/-- `+` with a string on the left, which is the only one the synthesized bodies hold. -/
def join : Value → Value → Option Value
  | .str s, v => some (.str (String.ofList (s.toList ++ v.display)))
  | _, _ => none

abbrev Fields := List (String × Value)

def eval (this : Fields) : Expr → Option Value
  | .literal v => literalValue v
  | .memberAccess (.identifier object _) member => if object = "this" then this.lookup member else none
  | .binary op left right =>
    if op = "+" then do
      let l ← eval this left
      let r ← eval this right
      join l r
    else none
  | _ => none

def evalFields (this : Fields) : List (String × Expr) → Option Fields
  | [] => some []
  | (name, e) :: rest => do
    let v ← eval this e
    let values ← evalFields this rest
    pure ((name, v) :: values)

/-- The value a method returns whose body is one `return`. -/
def returned (m : MethodDecl) : Option Expr :=
  match m.body with
  | some (.ret e) => e
  | _ => none

def callNamed (methods : List MethodDecl) (name : String) : Option Expr :=
  (methods.find? fun m => m.name == name).bind returned

def callToJson (methods : List MethodDecl) (this : Fields) : Option (List Char) :=
  match (callNamed methods "to_json").bind (eval this) with
  | some (.str s) => some s.toList
  | _ => none

/-- The parameter is no part of the body, so the text that is passed is not looked at. -/
def callFromJson (methods : List MethodDecl) (_jsonStr : List Char) : Option Fields :=
  match callNamed methods "from_json" with
  | some (.objectInit _ fields) => evalFields [] fields
  | _ => none

/-! ## The classes and objects meant -/

def Value.HasType : Value → String → Prop
  | .int _, t => t = "Int"
  | .bool _, t => t = "Bool"
  | .str _, t => t = "Str" ∨ t = "String"

/-- A class that derives its encoding: its fields have distinct names, which are identifiers. -/
structure JsonClass where
  name : String
  span : SourceSpan
  fields : List FieldDecl
  requestedTraits : List String
  methods : List MethodDecl
  derives : "Json" ∈ requestedTraits ∨ "Serialize" ∈ requestedTraits
  own : hasMethod methods "to_json" = false ∧ hasMethod methods "from_json" = false
  distinct : (fields.map FieldDecl.name).Nodup
  identifiers : ∀ f ∈ fields, ∀ c ∈ f.name.toList, Json.Plain c

/-- An object of the class, with a value of its type in each field. -/
structure Object (c : JsonClass) where
  values : List Value
  typed : List.Forall₂ (fun f v => ∃ t, f.typeName = some t ∧ Value.HasType v t) c.fields values

variable {c : JsonClass}

def Object.fields (x : Object c) : Fields := (c.fields.map FieldDecl.name).zip x.values

def Value.scalar : Value → Json.Scalar
  | .int n => .number n
  | .bool b => .bool b
  | .str s => .string s.toList

def members (fs : Fields) : List (List Char × Json.Scalar) := fs.map fun m => (m.1.toList, m.2.scalar)

def JsonClass.expanded (c : JsonClass) : List MethodDecl :=
  expandClassDerives c.span c.name c.fields c.requestedTraits c.methods

def Object.toJson (x : Object c) : Option (List Char) := callToJson c.expanded x.fields

def JsonClass.fromJson (c : JsonClass) (text : List Char) : Option Fields := callFromJson c.expanded text

/-- The value a synthesized `from_json` gives every field of a type. -/
def Value.IsDefault : Value → Prop
  | .int n => n = 0
  | .bool b => b = false
  | .str s => s = ""

def Value.Unescaped : Value → Prop
  | .str s => ∀ c ∈ s.toList, Json.Plain c
  | _ => True

/-! ## The methods of the expanded class -/

section
variable {span : SourceSpan} {className : String} {fields : List FieldDecl} {methods : List MethodDecl} {traits : List String}

theorem hasMethod_eq_find (name : String) :
    hasMethod methods name = (methods.find? fun m => m.name == name).isSome := by
  rw [Bool.eq_iff_iff, List.find?_isSome]
  simp [hasMethod]

theorem find_add (methods : List MethodDecl) (m : MethodDecl) (name : String) :
    ((if hasMethod methods m.name then methods else methods ++ [m]).find? fun d => d.name == name) =
      if m.name = name then (methods.find? fun d => d.name == name).or (some m)
      else methods.find? fun d => d.name == name := by
  rw [hasMethod_eq_find]
  by_cases hname : m.name = name
  · subst hname
    cases hfind : methods.find? fun d => d.name == m.name with
    | none => simp [hfind]
    | some d => simp [hfind]
  · split <;> simp [hname]

theorem find_toJson (trait : String) :
    ((expandTrait span className fields methods trait).find? fun m => m.name == "to_json") =
      if trait = "Json" ∨ trait = "Serialize" then
        (methods.find? fun m => m.name == "to_json").or (some (synthesizeToJson span fields))
      else methods.find? fun m => m.name == "to_json" := by
  have hto := find_add methods (synthesizeToJson span fields) "to_json"
  have hfrom := find_add methods (synthesizeFromJson className fields) "to_json"
  rw [expandTrait]
  by_cases hjson : trait = "Json" ∨ trait = "Serialize"
  · rw [if_pos hjson, if_pos hjson]
    exact hto
  · rw [if_neg hjson, if_neg hjson]
    split
    · exact hfrom
    · rfl

theorem find_fromJson (trait : String) :
    ((expandTrait span className fields methods trait).find? fun m => m.name == "from_json") =
      if trait = "Deserialize" then
        (methods.find? fun m => m.name == "from_json").or (some (synthesizeFromJson className fields))
      else methods.find? fun m => m.name == "from_json" := by
  have hto := find_add methods (synthesizeToJson span fields) "from_json"
  have hfrom := find_add methods (synthesizeFromJson className fields) "from_json"
  rw [expandTrait]
  by_cases hjson : trait = "Json" ∨ trait = "Serialize"
  · have hother : trait ≠ "Deserialize" := by
      rcases hjson with rfl | rfl <;> decide
    rw [if_pos hjson, if_neg hother]
    exact hto
  · rw [if_neg hjson]
    by_cases hfield : trait = "Deserialize"
    · rw [if_pos hfield, if_pos hfield]
      exact hfrom
    · rw [if_neg hfield, if_neg hfield]

theorem find_expanded_toJson :
    ((expandClassDerives span className fields traits methods).find? fun m => m.name == "to_json") =
      (methods.find? fun m => m.name == "to_json").or
        (if "Json" ∈ traits ∨ "Serialize" ∈ traits then some (synthesizeToJson span fields) else none) := by
  induction traits generalizing methods with
  | nil => simp [expandClassDerives]
  | cons t ts ih =>
    rw [expandClassDerives, List.foldl_cons, ← expandClassDerives, ih, find_toJson]
    by_cases ht : t = "Json" ∨ t = "Serialize"
    · have hin : "Json" ∈ t :: ts ∨ "Serialize" ∈ t :: ts := by
        rcases ht with rfl | rfl <;> simp
      rw [if_pos ht, if_pos hin]
      cases methods.find? fun m => m.name == "to_json" <;> simp
    · have hin : ("Json" ∈ t :: ts ∨ "Serialize" ∈ t :: ts) = ("Json" ∈ ts ∨ "Serialize" ∈ ts) := by
        obtain ⟨hj, hs⟩ := not_or.mp ht
        simp [Ne.symm hj, Ne.symm hs]
      simp only [if_neg ht, hin]

theorem find_expanded_fromJson :
    ((expandClassDerives span className fields traits methods).find? fun m => m.name == "from_json") =
      (methods.find? fun m => m.name == "from_json").or
        (if "Deserialize" ∈ traits then some (synthesizeFromJson className fields) else none) := by
  induction traits generalizing methods with
  | nil => simp [expandClassDerives]
  | cons t ts ih =>
    rw [expandClassDerives, List.foldl_cons, ← expandClassDerives, ih, find_fromJson]
    by_cases ht : t = "Deserialize"
    · subst ht
      cases methods.find? fun m => m.name == "from_json" <;> simp
    · simp [if_neg ht, Ne.symm ht]

end

/-! ## Running the synthesized bodies -/

variable {fs : List FieldDecl} {values : List Value}

section
variable {this : Fields} {span : SourceSpan}

/-- The chain of `+` joins what its parts display. -/
theorem eval_chain {ps : List Expr} {vs : List Value} (h : List.Forall₂ (fun p v => eval this p = some v) ps vs) :
    ∀ {e : Expr} {s : List Char}, eval this e = some (.str (String.ofList s)) →
      eval this (ps.foldl (fun expr p => .binary "+" expr p) e) =
        some (.str (String.ofList (s ++ vs.flatMap Value.display))) := by
  induction h with
  | nil =>
    intro e s he
    simpa using he
  | cons hp _ ih =>
    intro e s he
    rw [List.foldl_cons, List.flatMap_cons, ← List.append_assoc]
    refine ih ?_
    simp [eval, he, hp, join]

theorem eval_literal (s : String) : eval this (stringLiteral s) = some (.str s) := rfl

theorem fieldParts_shown (span : SourceSpan) (i : Nat) {f : FieldDecl} {v : Value} (hv : this.lookup f.name = some v)
    (ht : ∃ t, f.typeName = some t ∧ Value.HasType v t) :
    ∃ vs, List.Forall₂ (fun p v => eval this p = some v) (fieldParts span i f) vs ∧
      vs.flatMap Value.display =
        (if 0 < i then [',', ' '] else []) ++ Json.memberRaw (f.name.toList, v.scalar) := by
  have haccess : eval this (fieldAccess span f) = some v := by simp [fieldAccess, eval, hv]
  obtain ⟨t, ht, htype⟩ := ht
  have hvalue : ∃ vs, List.Forall₂ (fun p v => eval this p = some v)
      (if isStr f then [stringLiteral "\"", fieldAccess span f, stringLiteral "\""] else [fieldAccess span f]) vs ∧
      vs.flatMap Value.display = Json.scalarRaw v.scalar := by
    cases v with
    | int n =>
      have hstr : isStr f = false := by simp [isStr, ht, show t = "Int" from htype]
      exact ⟨[.int n], by simp [hstr, haccess], by simp [Value.display, Value.scalar, Json.scalarRaw]⟩
    | bool b =>
      have hstr : isStr f = false := by simp [isStr, ht, show t = "Bool" from htype]
      exact ⟨[.bool b], by simp [hstr, haccess], by simp [Value.display, Value.scalar, Json.scalarRaw]⟩
    | str s =>
      have hstr : isStr f = true := by
        rcases htype with rfl | rfl <;> simp [isStr, ht]
      exact ⟨[.str "\"", .str s, .str "\""], by simp [hstr, haccess, eval_literal],
        by simp [Value.display, Value.scalar, Json.scalarRaw, Json.quoted]⟩
  obtain ⟨vs, hvs, hshown⟩ := hvalue
  refine ⟨(if 0 < i then [.str ", "] else []) ++ .str ("\"" ++ f.name ++ "\": ") :: vs, ?_, ?_⟩
  · by_cases hi : 0 < i <;> simp [fieldParts, hi, eval_literal, hvs]
  · by_cases hi : 0 < i <;> simp [hi, hshown, Value.display, Json.memberRaw, Json.quoted]

/-- The members after the first one, each after a comma. -/
private def laterRaw (ms : List (List Char × Json.Scalar)) : List Char :=
  ms.flatMap fun m => ',' :: ' ' :: Json.memberRaw m

theorem membersRaw_eq (m : List Char × Json.Scalar) (ms : List (List Char × Json.Scalar)) :
    Json.membersRaw (m :: ms) = Json.memberRaw m ++ laterRaw ms := by
  induction ms generalizing m with
  | nil => simp [Json.membersRaw, laterRaw]
  | cons m' ms ih =>
    rw [Json.membersRaw_cons (List.cons_ne_nil _ _), ih]
    simp [laterRaw]

theorem laterParts_shown (span : SourceSpan) {k : Nat} (hk : 0 < k)
    (htyped : List.Forall₂ (fun f v => ∃ t, f.typeName = some t ∧ Value.HasType v t) fs values)
    (hlookup : ∀ m ∈ (fs.map FieldDecl.name).zip values, this.lookup m.1 = some m.2) :
    ∃ vs, List.Forall₂ (fun p v => eval this p = some v) ((fs.zipIdx k).flatMap fun p => fieldParts span p.2 p.1) vs ∧
      vs.flatMap Value.display = laterRaw (members ((fs.map FieldDecl.name).zip values)) := by
  induction htyped generalizing k with
  | nil => exact ⟨[], by simp, rfl⟩
  | @cons f v fs values ht _ ih =>
    obtain ⟨vs, hvs, hshown⟩ := fieldParts_shown span k (hlookup (f.name, v) (by simp)) ht
    obtain ⟨vs', hvs', hshown'⟩ := ih (k := k + 1) (Nat.succ_pos k) fun m hm => hlookup m (by simp [hm])
    refine ⟨vs ++ vs', by simpa using List.rel_append hvs hvs', ?_⟩
    rw [List.flatMap_append, hshown, hshown', if_pos hk]
    simp [laterRaw, members]

theorem parts_shown (span : SourceSpan)
    (htyped : List.Forall₂ (fun f v => ∃ t, f.typeName = some t ∧ Value.HasType v t) fs values)
    (hlookup : ∀ m ∈ (fs.map FieldDecl.name).zip values, this.lookup m.1 = some m.2) :
    ∃ vs, List.Forall₂ (fun p v => eval this p = some v) (parts span fs) vs ∧
      vs.flatMap Value.display = Json.membersRaw (members ((fs.map FieldDecl.name).zip values)) ++ ['\x7d'] := by
  have hfields : ∃ vs, List.Forall₂ (fun p v => eval this p = some v)
      (fs.zipIdx.flatMap fun p => fieldParts span p.2 p.1) vs ∧
      vs.flatMap Value.display = Json.membersRaw (members ((fs.map FieldDecl.name).zip values)) := by
    cases htyped with
    | nil => exact ⟨[], by simp, rfl⟩
    | @cons f v fs values ht htyped =>
      obtain ⟨vs, hvs, hshown⟩ := fieldParts_shown span 0 (hlookup (f.name, v) (by simp)) ht
      obtain ⟨vs', hvs', hshown'⟩ := laterParts_shown span Nat.one_pos htyped
        fun m hm => hlookup m (by simp [hm])
      refine ⟨vs ++ vs', by simpa using List.rel_append hvs hvs', ?_⟩
      rw [List.flatMap_append, hshown, hshown', List.map_cons, List.zip_cons_cons]
      simp [members, membersRaw_eq]
  obtain ⟨vs, hvs, hshown⟩ := hfields
  refine ⟨vs ++ [.str "\x7d"], List.rel_append hvs (by simp [eval_literal]), ?_⟩
  simp [hshown, Value.display]

end

/-! ## The two methods of an object -/

section
variable (x : Object c)

theorem toJson_eq : x.toJson = some (Json.objectRaw (members x.fields)) := by
  have hdistinct : (x.fields.map Prod.fst).Nodup := by
    rw [Object.fields, List.map_fst_zip (by rw [List.length_map, x.typed.length_eq])]
    exact c.distinct
  obtain ⟨vs, hvs, hshown⟩ := parts_shown c.span x.typed
    fun m hm => (mem_iff_lookup hdistinct).mp hm
  have hbody := eval_chain hvs (e := stringLiteral "\x7b") (s := ['\x7b']) rfl
  have hown : (c.methods.find? fun m => m.name == "to_json") = none := by
    have := c.own.1
    rw [hasMethod_eq_find] at this
    simpa using this
  have hcall : callNamed c.expanded "to_json" =
      some ((parts c.span c.fields).foldl (fun expr p => .binary "+" expr p) (stringLiteral "\x7b")) := by
    rw [callNamed, JsonClass.expanded, find_expanded_toJson, hown, if_pos c.derives]
    rfl
  rw [Object.toJson, callToJson, hcall, Option.bind_some, hbody, hshown]
  simp [Json.objectRaw, Object.fields]

/-- The literal a field is given has the value its object is asked to hold. -/
theorem default_of_type {v : Value} {t : String} (h : Value.HasType v t) :
    ∃ d, literalValue (defaultLiteral (some t)) = some d ∧ (d = v ↔ v.IsDefault) := by
  cases v with
  | int n =>
    obtain rfl : t = "Int" := h
    exact ⟨.int 0, rfl, by simp [Value.IsDefault, eq_comm]⟩
  | bool b =>
    obtain rfl : t = "Bool" := h
    exact ⟨.bool false, rfl, by simp [Value.IsDefault, eq_comm]⟩
  | str s =>
    obtain rfl | rfl := h
    · exact ⟨.str "", rfl, by simp [Value.IsDefault, eq_comm]⟩
    · exact ⟨.str "", rfl, by simp [Value.IsDefault, eq_comm]⟩

theorem evalFields_defaults
    (h : List.Forall₂ (fun f v => ∃ t, f.typeName = some t ∧ Value.HasType v t) fs values) :
    evalFields [] (fs.map fun f => (f.name, .literal (defaultLiteral f.typeName))) =
      some ((fs.map FieldDecl.name).zip values) ↔ ∀ v ∈ values, v.IsDefault := by
  induction h with
  | nil => simp [evalFields]
  | @cons f v fs values ht _ ih =>
    obtain ⟨t, ht, htype⟩ := ht
    obtain ⟨d, hd, hdefault⟩ := default_of_type htype
    rw [List.map_cons, evalFields, ht, eval, hd, List.map_cons, List.zip_cons_cons, List.forall_mem_cons, ← hdefault, ← ih]
    cases evalFields [] (fs.map fun f => (f.name, .literal (defaultLiteral f.typeName))) with
    | none => simp
    | some rest => simp

theorem fromJson_eq_iff (h : "Deserialize" ∈ c.requestedTraits) (text : List Char) :
    c.fromJson text = some x.fields ↔ ∀ v ∈ x.values, v.IsDefault := by
  have hown : (c.methods.find? fun m => m.name == "from_json") = none := by
    have := c.own.2
    rw [hasMethod_eq_find] at this
    simpa using this
  have hcall : callNamed c.expanded "from_json" =
      some (.objectInit c.name (c.fields.map fun f => (f.name, .literal (defaultLiteral f.typeName)))) := by
    rw [callNamed, JsonClass.expanded, find_expanded_fromJson, hown, if_pos h]
    rfl
  rw [JsonClass.fromJson, callFromJson, hcall]
  exact evalFields_defaults x.typed

theorem members_plain_iff : (∀ m ∈ members x.fields, Json.PlainMember m) ↔ ∀ v ∈ x.values, v.Unescaped := by
  have hlen : (c.fields.map FieldDecl.name).length = x.values.length := by
    rw [List.length_map, x.typed.length_eq]
  have hscalar (v : Value) : Json.PlainScalar v.scalar ↔ v.Unescaped := by
    cases v <;> rfl
  constructor
  · intro h v hv
    rw [← List.map_snd_zip hlen.ge] at hv
    obtain ⟨m, hm, rfl⟩ := List.mem_map.mp hv
    exact (hscalar m.2).mp (h _ (List.mem_map_of_mem hm)).2
  · intro h m hm
    obtain ⟨⟨name, v⟩, hin, rfl⟩ := List.mem_map.mp hm
    obtain ⟨hname, hv⟩ := List.of_mem_zip hin
    obtain ⟨f, hf, rfl⟩ := List.mem_map.mp hname
    exact ⟨c.identifiers f hf, (hscalar v).mpr (h v hv)⟩

/-- **The derived methods encode and give back an object faithfully exactly when none of its texts needs an escape and, where
the class derives both, every field holds its default.** -/
theorem encoding_faithful_iff :
    (∃ text, x.toJson = some text ∧ Json.Object (members x.fields) text ∧
      ("Deserialize" ∈ c.requestedTraits → c.fromJson text = some x.fields)) ↔
    (∀ v ∈ x.values, v.Unescaped) ∧ ("Deserialize" ∈ c.requestedTraits → ∀ v ∈ x.values, v.IsDefault) := by
  constructor
  · rintro ⟨text, htext, hobject, hback⟩
    rw [toJson_eq, Option.some.injEq] at htext
    subst htext
    exact ⟨(members_plain_iff x).mp (Json.object_raw_iff.mp hobject), fun h => (fromJson_eq_iff x h _).mp (hback h)⟩
  · rintro ⟨hplain, hdefault⟩
    refine ⟨_, toJson_eq x, Json.object_raw_iff.mpr ((members_plain_iff x).mpr hplain), fun h => ?_⟩
    exact (fromJson_eq_iff x h _).mpr (hdefault h)

end

/-! ## A name with a quote in it -/

private def oneText : JsonClass where
  name := "Note"
  span := default
  fields := [{ name := "text", typeNode := some (.mk "Str" none) }]
  requestedTraits := ["Json"]
  methods := []
  derives := .inl (by simp)
  own := ⟨rfl, rfl⟩
  distinct := by simp
  identifiers := by simp [Json.Plain]

private def quoteInText : Object oneText where
  values := [.str "a\"b"]
  typed := .cons ⟨"Str", rfl, .inl rfl⟩ .nil

/-- The quote ends the string early, and what is returned is no object of the field. -/
theorem quote_not_escaped :
    ¬∃ text, quoteInText.toJson = some text ∧ Json.Object (members quoteInText.fields) text := by
  rintro ⟨text, htext, hobject⟩
  rw [toJson_eq, Option.some.injEq] at htext
  subst htext
  have hplain := (members_plain_iff quoteInText).mp (Json.object_raw_iff.mp hobject) (.str "a\"b") (by simp [quoteInText])
  exact (hplain '"' (by simp)).2.1 rfl

end Datara.Derive
