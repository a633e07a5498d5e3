import Mathlib.Data.List.Sort
import Mathlib.Data.List.TakeWhile

/-!
# The dispatch of a method

What the back end makes of a method call: `compile_method_call` in
`codegen/cranelift/backend/inst_method_call.rs`, as far as it chooses what is called. It goes by what it knows of
the receiver, by the name of the method and by the names of the functions there are.
-/

namespace Datara.Codegen

/-- What is known of the object that a method is called on. -/
structure Receiver where
  /-- `val_to_class`. -/
  cls : Option String := none
  isList : Bool := false
  isMap : Bool := false
  isStr : Bool := false
  deriving DecidableEq, Repr

/-- What a method call calls. -/
inductive Target
  /-- A numeric conversion, or a function of the run-time library that goes with the kind of the receiver. -/
  | builtin
  | function (name : String)
  /-- `close` on a type without it. -/
  | nothing
  | unresolved
  deriving DecidableEq, Repr

def startsWith (pre s : String) : Bool := pre.toList.isPrefixOf s.toList

/-- `split('<').next()`. -/
def genericBase (c : String) : String := String.ofList (c.toList.takeWhile (· ≠ '<'))

/-- `split('_').next()`. -/
def beforeUnderscore (c : String) : String := String.ofList (c.toList.takeWhile (· ≠ '_'))

/-- The second part of `split_once('_')`. -/
def afterFirstUnderscore (s : String) : Option String :=
  if '_' ∈ s.toList then some (String.ofList (s.toList.dropWhile (· ≠ '_')).tail) else none

/-- The function of a class for a method. -/
def methodName (cls method : String) : String := cls ++ "_" ++ method

/-- The methods that a receiver of unknown class is taken for a list by. -/
def listLikeMethods : List String :=
  ["push", "append", "pop", "set", "get", "at", "len", "length", "count", "first", "last", "is_empty", "sort",
    "reverse", "clear", "slice"]

def mapMethods : List String :=
  ["get", "at", "insert", "set", "add", "put", "len", "length", "count", "contains", "has_key"]

/-- The methods of a list; `join` is looked up by its name. -/
def listMethods : List String :=
  ["length", "count", "len", "get", "at", "set", "push", "append", "add", "push_unchecked", "append_unchecked", "pop",
    "first", "last", "sort", "remove_at", "remove_value", "insert_at", "contains", "index_of", "reverse", "clear",
    "slice", "is_empty"]

def strMethods : List String :=
  ["length", "count", "len", "byte_len", "char_len", "chars", "byte_at", "char_at"]

section
variable (symbols : List String) (r : Receiver) (method : String)

/-- A numeric conversion, unless the class has a method of that name. -/
def converts : Bool :=
  (method = "to_float" ∨ method = "to_int") ∧ !r.isList ∧ !r.isMap ∧ !r.isStr ∧
    !(r.cls.any fun c => methodName (genericBase c) method ∈ symbols)

/-- The receiver is of a class whose methods are in the run-time library. -/
def runtimeClassAnswers : Bool :=
  match r.cls with
  | some "StrBuf" => method ∈ ["push", "push_int", "join", "len", "length"]
  | some c => (c = "Weak" ∨ startsWith "Weak<" c) ∧ method ∈ ["upgrade", "is_alive"]
  | none => false

/-- `list_special`. -/
def protocolAnswers : Bool :=
  if r.isMap then method ∈ mapMethods
  else if r.isList ∨ r.cls.any (startsWith "List") ∨ (r.cls = none ∧ !r.isStr ∧ method ∈ listLikeMethods) then
    method ∈ listMethods ∨ (method = "join" ∧ "str_join" ∈ symbols)
  else if r.isStr then method ∈ strMethods
  else false

/-- The method of a slice view or a volatile pointer. -/
def viewMethod : Option String :=
  match r.cls with
  | some "SliceView" => if methodName "SliceView" method ∈ symbols then some (methodName "SliceView" method) else none
  | some "VolatilePtr" =>
    if methodName "VolatilePtr" method ∈ symbols then some (methodName "VolatilePtr" method) else none
  | _ => none

/-- `class_matched`. -/
def classMatched : Option String :=
  r.cls.bind fun c =>
    if methodName c method ∈ symbols then some (methodName c method)
    else
      let base := methodName (beforeUnderscore (genericBase c)) method
      if base ∈ symbols then some base else none

/-- `has_known_class`. -/
def hasKnownClass : Bool :=
  r.cls.any fun c =>
    if c.toList.length = 1 ∧ c.toList.all Char.isUpper then false
    else symbols.any (startsWith (genericBase c ++ "_"))

/-- The functions whose name after the first underscore is the method's. -/
def candidates : List String :=
  (symbols.filter fun k => afterFirstUnderscore k = some method).mergeSort fun a b => decide (a ≤ b)

/-- The function that is the method of the receiver, by its class or else by its name. -/
def ownMethod : Option String :=
  (viewMethod symbols r method).or ((classMatched symbols r method).or
    (if method = "close" ∨ hasKnownClass symbols r then none else (candidates symbols method).head?))

/-- `compile_method_call`. -/
def dispatch : Target :=
  if converts symbols r method ∨ runtimeClassAnswers r method then .builtin
  else
    match viewMethod symbols r method with
    | some name => .function name
    | none =>
      if protocolAnswers symbols r method then .builtin
      else
        match ownMethod symbols r method with
        | some name => .function name
        | none =>
          if method ∈ symbols then .function method else if method = "close" then .nothing else .unresolved

/-- The receiver itself answers: its kind has the method in the run-time library. -/
def answersItself : Bool :=
  converts symbols r method ∨ runtimeClassAnswers r method ∨
    (viewMethod symbols r method = none ∧ protocolAnswers symbols r method)

end

variable {symbols : List String} {r : Receiver} {method name : String}

/-! ## Names of methods -/

/-- The part of a name after its last underscore. -/
def afterLastUnderscore (s : String) : Option String :=
  if '_' ∈ s.toList then some (String.ofList (s.toList.reverse.takeWhile (· ≠ '_')).reverse) else none

theorem afterLastUnderscore_spec : afterLastUnderscore name = some method ↔
    ∃ pre, name.toList = pre ++ '_' :: method.toList ∧ '_' ∉ method.toList := by
  rw [afterLastUnderscore]
  constructor
  · intro h
    obtain ⟨hmem, h⟩ := Option.ite_none_right_eq_some.mp h
    cases h
    rw [String.toList_ofList]
    have hsplit := List.takeWhile_append_dropWhile (p := (· ≠ '_')) (l := name.toList.reverse)
    have hnot : '_' ∉ name.toList.reverse.takeWhile (· ≠ '_') := fun h => by
      have := List.mem_takeWhile_imp h
      simp at this
    generalize name.toList.reverse.takeWhile (· ≠ '_') = a at hsplit hnot
    obtain ⟨b, hb⟩ : ∃ b, name.toList.reverse.dropWhile (· ≠ '_') = '_' :: b := by
      cases hd : name.toList.reverse.dropWhile (· ≠ '_') with
      | nil =>
        rw [hd, List.append_nil] at hsplit
        rw [hsplit, List.mem_reverse] at hnot
        exact absurd hmem hnot
      | cons c b =>
        have := List.head?_dropWhile_not (· ≠ '_') name.toList.reverse
        rw [hd] at this
        simp at this
        exact ⟨b, by rw [this]⟩
    rw [hb] at hsplit
    refine ⟨b.reverse, ?_, fun h => hnot (List.mem_reverse.mp h)⟩
    rw [← List.reverse_reverse name.toList, ← hsplit, List.reverse_append, List.reverse_cons, List.append_assoc]
    rfl
  · rintro ⟨pre, hname, hnot⟩
    rw [if_pos (by rw [hname]; exact List.mem_append_right _ List.mem_cons_self), hname, List.reverse_append,
      List.reverse_cons, List.append_assoc, List.takeWhile_append_of_pos, List.singleton_append,
      List.takeWhile_cons_of_neg (by simp), List.append_nil, List.reverse_reverse, String.ofList_toList]
    intro c hc
    rw [List.mem_reverse] at hc
    simp only [ne_eq, decide_not, Bool.not_eq_eq_eq_not, Bool.not_true, decide_eq_false_iff_not]
    rintro rfl
    exact hnot hc

theorem afterLastUnderscore_methodName {c : String} (h : '_' ∉ method.toList) :
    afterLastUnderscore (methodName c method) = some method := by
  refine afterLastUnderscore_spec.mpr ⟨c.toList, ?_, h⟩
  rw [methodName, String.toList_append, String.toList_append, List.append_assoc]
  rfl

theorem afterLastUnderscore_of_first (h : '_' ∉ method.toList) (hname : afterFirstUnderscore name = some method) :
    afterLastUnderscore name = some method := by
  rw [afterFirstUnderscore] at hname
  obtain ⟨hmem, hname⟩ := Option.ite_none_right_eq_some.mp hname
  cases hname
  rw [String.toList_ofList] at h
  refine afterLastUnderscore_spec.mpr ⟨name.toList.takeWhile (· ≠ '_'), ?_, ?_⟩
  · rw [String.toList_ofList]
    have hsplit := List.takeWhile_append_dropWhile (p := (· ≠ '_')) (l := name.toList)
    cases hd : name.toList.dropWhile (· ≠ '_') with
    | nil =>
      rw [hd, List.append_nil] at hsplit
      rw [← hsplit] at hmem
      simpa using List.mem_takeWhile_imp hmem
    | cons c b =>
      have hc := List.head?_dropWhile_not (· ≠ '_') name.toList
      rw [hd] at hc
      obtain rfl : c = '_' := by simpa using hc
      rw [hd] at hsplit
      exact hsplit.symm
  · rwa [String.toList_ofList]

/-- Whatever function a receiver's method is, it is among the symbols and has the method's name after its last
underscore. -/
theorem ownMethod_spec (h : '_' ∉ method.toList) (hown : ownMethod symbols r method = some name) :
    name ∈ symbols ∧ afterLastUnderscore name = some method := by
  rw [ownMethod, Option.or_eq_some_iff, Option.or_eq_some_iff] at hown
  obtain hview | ⟨-, hcls | ⟨-, hcand⟩⟩ := hown
  · rw [viewMethod] at hview
    split at hview
    · obtain ⟨hmem, he⟩ := Option.ite_none_right_eq_some.mp hview
      exact Option.some.inj he ▸ ⟨hmem, afterLastUnderscore_methodName h⟩
    · obtain ⟨hmem, he⟩ := Option.ite_none_right_eq_some.mp hview
      exact Option.some.inj he ▸ ⟨hmem, afterLastUnderscore_methodName h⟩
    · cases hview
  · rw [classMatched, Option.bind_eq_some_iff] at hcls
    obtain ⟨c, -, hc⟩ := hcls
    split at hc
    case isTrue hmem => exact Option.some.inj hc ▸ ⟨hmem, afterLastUnderscore_methodName h⟩
    case isFalse =>
      obtain ⟨hmem, he⟩ := Option.ite_none_right_eq_some.mp hc
      exact Option.some.inj he ▸ ⟨hmem, afterLastUnderscore_methodName h⟩
  · obtain ⟨-, hcand⟩ := Option.ite_none_left_eq_some.mp hcand
    have hmem := List.mem_of_head? hcand
    rw [candidates, List.mem_mergeSort, List.mem_filter] at hmem
    exact ⟨hmem.1, afterLastUnderscore_of_first h (of_decide_eq_true hmem.2)⟩

/-- **What a method call calls**, when it is a function other than the one of the method's bare name. -/
theorem dispatch_eq_function (hne : name ≠ method) : dispatch symbols r method = .function name ↔
    answersItself symbols r method = false ∧ ownMethod symbols r method = some name := by
  have hanswers : answersItself symbols r method = false ↔
      ¬(converts symbols r method ∨ runtimeClassAnswers r method) ∧
        ¬(viewMethod symbols r method = none ∧ protocolAnswers symbols r method) := by
    rw [answersItself, decide_eq_false_iff_not, ← or_assoc, not_or]
  rw [hanswers, dispatch]
  by_cases hrun : converts symbols r method ∨ runtimeClassAnswers r method
  · rw [if_pos hrun]
    exact ⟨nofun, fun h => absurd hrun h.1.1⟩
  · rw [if_neg hrun]
    cases hview : viewMethod symbols r method with
    | some v =>
      rw [ownMethod, hview, Option.some_or, Target.function.injEq, Option.some.injEq]
      exact ⟨fun h => ⟨⟨hrun, nofun⟩, h⟩, And.right⟩
    | none =>
      simp only
      by_cases hprotocol : protocolAnswers symbols r method
      · rw [if_pos hprotocol]
        exact ⟨nofun, fun h => absurd ⟨trivial, hprotocol⟩ h.1.2⟩
      · rw [if_neg hprotocol, and_iff_right ⟨hrun, fun h => hprotocol h.2⟩]
        cases ownMethod symbols r method with
        | some own => rw [Target.function.injEq, Option.some.injEq]
        | none =>
          simp only
          refine ⟨fun h => ?_, nofun⟩
          split at h
          · exact absurd (Target.function.inj h).symm hne
          · split at h <;> cases h

end Datara.Codegen
