import Mathlib.Algebra.GroupWithZero.Nat
import Mathlib.Data.List.Basic

/-!
# String interpolation

A template is cut into literal text and expressions: an opening brace takes the text up to where the braces close, and what is
taken becomes an expression when the expression parser takes all of it, else text again. The format of an expression stands
behind its first colon. The parser of expressions is a parameter. A template is preserved exactly when the braces and colons
that are met are harmless (`template_preserved_iff`): no brace in a string literal changes where the braces close, no `\\{`
stands between braces, blank braces are empty, no character before the colon takes more than a byte, and something stands
behind it.
-/

namespace Datara.Parse.Interpolation

abbrev Text := List Char

/-! ## The code -/

/-- The loop for the text of a brace: what is taken, what is left, and whether the braces closed. -/
def takeBraced : Nat → Text → Text × Text × Bool
  | _, [] => ([], [], false)
  | depth, c :: cs =>
    if c = '{' then
      let (body, rest, closed) := takeBraced (depth + 1) cs
      (c :: body, rest, closed)
    else if c = '}' then
      if depth = 1 then ([], cs, true)
      else
        let (body, rest, closed) := takeBraced (depth - 1) cs
        (c :: body, rest, closed)
    else
      let (body, rest, closed) := takeBraced depth cs
      (c :: body, rest, closed)

/-- Where `split_fmt_spec` is: in braces, in a string literal, behind a backslash in one. -/
structure Mode where
  depth : Nat
  inString : Bool
  escape : Bool

def Mode.start : Mode := ⟨0, false, false⟩

def Mode.next (m : Mode) (c : Char) : Mode :=
  if m.inString then
    if m.escape then { m with escape := false }
    else if c = '\\' then { m with escape := true }
    else if c = '"' then { m with inString := false }
    else m
  else if c = '"' then { m with inString := true }
  else if c = '{' then { m with depth := m.depth + 1 }
  else if c = '}' then { m with depth := m.depth - 1 }
  else m

def Mode.cuts (m : Mode) (c : Char) : Bool := !m.inString && c == ':' && m.depth == 0

/-- The two slices, with the number of bytes used as a number of characters; slicing past the end or inside a character
panics. -/
def sliceAt (whole : Text) (byteIdx : Nat) : Option (Text × Text) :=
  match whole.drop byteIdx with
  | [] => none
  | c :: rest => if c.utf8Size = 1 then some (whole.take byteIdx, rest) else none

def splitLoop (whole : Text) : Mode → Nat → Text → Option (Text × Text)
  | _, _, [] => some (whole, [])
  | m, byteIdx, c :: cs =>
    if m.cuts c then sliceAt whole byteIdx else splitLoop whole (m.next c) (byteIdx + c.utf8Size) cs

def splitFmtSpec (exprStr : Text) : Option (Text × Text) := splitLoop exprStr .start 0 exprStr

def isValidFmtSpec (spec : Text) : Bool :=
  match spec with
  | '.' :: rest => !rest.isEmpty && rest.all Char.isDigit
  | _ => spec == ['x'] || spec == ['X'] || spec == ['o'] || spec == ['b']

/-- The characters `trim` takes off: the white space of Unicode. -/
def isWhiteSpace (c : Char) : Bool :=
  let n := c.toNat
  9 ≤ n && n ≤ 13 || n == 32 || n == 0x85 || n == 0xA0 || n == 0x1680 || 0x2000 ≤ n && n ≤ 0x200A || n == 0x2028 ||
    n == 0x2029 || n == 0x202F || n == 0x205F || n == 0x3000

/-- What the parser makes of a text: it may fail in itself, refuse the text or leave some of it, or take it as an expression. -/
inductive Sub (E : Type)
  | panics
  | refused
  | parsed (expr : E)

/-- An expression, with the text it was parsed from. -/
structure Parsed (E : Type) where
  text : Text
  expr : E

structure Template (E : Type) where
  parts : List Text
  expressions : List (Parsed E)
  specs : List Text

/-- What an opening brace comes to. -/
inductive Region (E : Type)
  | text (t : Text)
  | expression (e : Parsed E) (spec : Text)

section
variable {E : Type} (sub : Text → Sub E)

def braced (body : Text) : Text := '{' :: (body ++ ['}'])

/-- What a text between braces comes to behind the checks for blanks, lines and semicolons. -/
def readExpression (body : Text) : Option (Region E) := do
  let (exprPart, specPart) ← splitFmtSpec body
  match sub exprPart with
  | .panics => none
  | .refused => some (.text (braced body))
  | .parsed expr =>
    if specPart ≠ [] ∧ isValidFmtSpec specPart = false then some (.text (braced body))
    else some (.expression ⟨exprPart, expr⟩ specPart)

def readRegion (body : Text) (closed : Bool) : Option (Region E) :=
  if closed = false then some (.text ('{' :: body))
  else if body.all isWhiteSpace then some (.text ['{', '}'])
  else if '\n' ∈ body ∨ ';' ∈ body then some (.text (braced body))
  else readExpression sub body

theorem length_rest_le (depth : Nat) (s : Text) : (takeBraced depth s).2.1.length ≤ s.length := by
  induction s generalizing depth with
  | nil => simp [takeBraced]
  | cons c cs ih =>
    rw [takeBraced]
    split
    · exact Nat.le_succ_of_le (ih _)
    · split
      · split
        · exact Nat.le_succ _
        · exact Nat.le_succ_of_le (ih _)
      · exact Nat.le_succ_of_le (ih _)

/-- The main loop, from what is left of the content and the literal text that is open. -/
def parseLoop : Text → Text → Option (Template E)
  | [], currentLit => some ⟨[currentLit], [], []⟩
  | c :: cs, currentLit =>
    if c = '\\' ∧ cs.head? = some '{' then parseLoop cs.tail (currentLit ++ ['{'])
    else if c = '{' then
      match readRegion sub (takeBraced 1 cs).1 (takeBraced 1 cs).2.2 with
      | none => none
      | some (.text t) => parseLoop (takeBraced 1 cs).2.1 (currentLit ++ t)
      | some (.expression e spec) =>
        (parseLoop (takeBraced 1 cs).2.1 []).map fun t => ⟨currentLit :: t.parts, e :: t.expressions, spec :: t.specs⟩
    else parseLoop cs (currentLit ++ [c])
termination_by s => s.length
decreasing_by
  · rw [List.length_tail, List.length_cons]
    omega
  · exact Nat.lt_succ_of_le (length_rest_le 1 cs)
  · exact Nat.lt_succ_of_le (length_rest_le 1 cs)
  · exact Nat.lt_succ_self _

end

inductive Interpolated (E : Type)
  | literal (s : Text)
  | interpolatedString (t : Template E)

/-- `parse_interpolated_string_content`; `none` is a panic. -/
def parseInterpolatedStringContent {E : Type} (sub : Text → Sub E) (content : Text) : Option (Interpolated E) :=
  (parseLoop sub content []).map fun t => if t.expressions.isEmpty then .literal (t.parts.headD []) else .interpolatedString t

def Interpolated.template {E : Type} : Interpolated E → Template E
  | .literal s => ⟨[s], [], []⟩
  | .interpolatedString t => t

/-! ## What is asked of a template -/

/-- The content with each escaped brace as the brace. -/
def unescape : Text → Text
  | [] => []
  | c :: cs => if c = '\\' ∧ cs.head? = some '{' then unescape cs else c :: unescape cs

/-- The text of an expression with its format. -/
def written {E : Type} (e : Parsed E) (spec : Text) : Text :=
  braced (e.text ++ if spec = [] then [] else ':' :: spec)

def rebuild {E : Type} : List Text → List (Parsed E) → List Text → Text
  | p :: parts, e :: expressions, spec :: specs => p ++ (written e spec ++ rebuild parts expressions specs)
  | p :: _, _, _ => p
  | [], _, _ => []

/-- The text of a brace up to where the braces outside string literals close. -/
def takeOutside : Mode → Text → Text × Text × Bool
  | _, [] => ([], [], false)
  | m, c :: cs =>
    if m.inString = false ∧ c = '}' ∧ m.depth = 1 then ([], cs, true)
    else
      let (body, rest, closed) := takeOutside (m.next c) cs
      (c :: body, rest, closed)

/-- The place of the first colon outside braces and string literals. -/
def firstColon : Mode → Text → Option Nat
  | _, [] => none
  | m, c :: cs => if m.cuts c then some 0 else (firstColon (m.next c) cs).map (· + 1)

/-- The text cut at that colon. -/
def cutAtColon (s : Text) : Text × Text :=
  match firstColon .start s with
  | none => (s, [])
  | some k => (s.take k, s.drop (k + 1))

/-- What stands behind the braces that the parser opens, brace after brace. -/
def opened : Text → List Text
  | [] => []
  | c :: cs =>
    if c = '\\' ∧ cs.head? = some '{' then opened cs.tail
    else if c = '{' then cs :: opened (takeBraced 1 cs).2.1
    else opened cs
termination_by s => s.length
decreasing_by
  · rw [List.length_tail, List.length_cons]
    omega
  · exact Nat.lt_succ_of_le (length_rest_le 1 cs)
  · exact Nat.lt_succ_self _

/-- A text between braces that is looked at as an expression. -/
def LookedAt (body : Text) (closed : Bool) : Prop :=
  closed = true ∧ body.all isWhiteSpace = false ∧ '\n' ∉ body ∧ ';' ∉ body

section
variable {E : Type} (sub : Text → Sub E)

/-- A template is taken apart without a loss. -/
structure Preserved (content : Text) : Prop where
  rebuilt : ∃ r, parseInterpolatedStringContent sub content = some r ∧
    r.template.parts.length = r.template.expressions.length + 1 ∧ r.template.specs.length = r.template.expressions.length ∧
    rebuild r.template.parts r.template.expressions r.template.specs = unescape content
  braces : ∀ s ∈ opened content, takeBraced 1 s = takeOutside ⟨1, false, false⟩ s
  colons : ∀ s ∈ opened content, LookedAt (takeBraced 1 s).1 (takeBraced 1 s).2.2 →
    splitFmtSpec (takeBraced 1 s).1 = some (cutAtColon (takeBraced 1 s).1)

/-- A brace whose text is harmless. -/
structure Harmless (body : Text) (closed : Bool) : Prop where
  unescaped : unescape body = body
  blank : closed = true → body.all isWhiteSpace = true → body = []
  single : LookedAt body closed → ∀ k, firstColon .start body = some k → ∀ c ∈ body.take k, c.utf8Size = 1
  parses : LookedAt body closed → sub (cutAtColon body).1 ≠ .panics
  format : LookedAt body closed → ∀ k, firstColon .start body = some k → k + 1 = body.length →
    ∀ expr, sub (body.take k) ≠ .parsed expr

end

/-! ## Braces and escapes -/

theorem takeBraced_spec (depth : Nat) (s : Text) :
    ((takeBraced depth s).2.2 = true → s = (takeBraced depth s).1 ++ '}' :: (takeBraced depth s).2.1) ∧
      ((takeBraced depth s).2.2 = false → (takeBraced depth s).2.1 = [] ∧ s = (takeBraced depth s).1) := by
  induction s generalizing depth with
  | nil => simp [takeBraced]
  | cons c cs ih =>
    have hmore (d : Nat) (h : takeBraced depth (c :: cs) = (c :: (takeBraced d cs).1, (takeBraced d cs).2.1, (takeBraced d cs).2.2)) :
        ((takeBraced depth (c :: cs)).2.2 = true →
          c :: cs = (takeBraced depth (c :: cs)).1 ++ '}' :: (takeBraced depth (c :: cs)).2.1) ∧
        ((takeBraced depth (c :: cs)).2.2 = false →
          (takeBraced depth (c :: cs)).2.1 = [] ∧ c :: cs = (takeBraced depth (c :: cs)).1) := by
      rw [h]
      exact ⟨fun hc => congrArg (c :: ·) ((ih d).1 hc), fun hc => ⟨((ih d).2 hc).1, congrArg (c :: ·) ((ih d).2 hc).2⟩⟩
    by_cases hopen : c = '{'
    · exact hmore (depth + 1) (by rw [takeBraced, if_pos hopen])
    · by_cases hclose : c = '}'
      · by_cases hlast : depth = 1
        · have h : takeBraced depth (c :: cs) = ([], cs, true) := by
            rw [takeBraced, if_neg hopen, if_pos hclose, if_pos hlast]
          rw [h, hclose]
          simp
        · exact hmore (depth - 1) (by rw [takeBraced, if_neg hopen, if_pos hclose, if_neg hlast])
      · exact hmore depth (by rw [takeBraced, if_neg hopen, if_neg hclose])

theorem unescape_append {d : Char} (hd : d ≠ '{') (body rest : Text) :
    unescape (body ++ d :: rest) = unescape body ++ unescape (d :: rest) := by
  induction body with
  | nil => rfl
  | cons c cs ih =>
    have hhead : (cs ++ d :: rest).head? = some '{' ↔ cs.head? = some '{' := by
      cases cs with
      | nil => simp [hd]
      | cons e es => rfl
    rw [List.cons_append, unescape, unescape, ih]
    by_cases h : c = '\\' ∧ cs.head? = some '{'
    · rw [if_pos h, if_pos ⟨h.1, hhead.mpr h.2⟩]
    · rw [if_neg h, if_neg fun h' => h ⟨h'.1, hhead.mp h'.2⟩, List.cons_append]

theorem unescape_cons {c : Char} (hc : c ≠ '\\') (s : Text) : unescape (c :: s) = c :: unescape s := by
  rw [unescape, if_neg fun h => hc h.1]

/-- A text that is kept as it is agrees with the one whose braces are freed only when it has none to free. -/
theorem unescape_eq {body x y : Text} (h : unescape body ++ x = body ++ y) : unescape body = body ∧ x = y := by
  induction body with
  | nil => exact ⟨rfl, h⟩
  | cons c cs ih =>
    rw [unescape] at h ⊢
    by_cases hesc : c = '\\' ∧ cs.head? = some '{'
    · exfalso
      obtain ⟨rfl, hhead⟩ := hesc
      cases cs with
      | nil => simp at hhead
      | cons d ds =>
        obtain rfl : d = '{' := by simpa using hhead
        rw [if_pos ⟨rfl, rfl⟩, unescape_cons (by decide)] at h
        simp at h
    · rw [if_neg hesc] at h ⊢
      obtain ⟨hcs, hxy⟩ := ih (List.cons.inj h).2
      exact ⟨congrArg (c :: ·) hcs, hxy⟩

/-! ## The cut -/

def byteLength (s : Text) : Nat := (s.map Char.utf8Size).sum

theorem length_le_byteLength (s : Text) : s.length ≤ byteLength s ∧ (s.length = byteLength s ↔ ∀ c ∈ s, c.utf8Size = 1) := by
  induction s with
  | nil => simp [byteLength]
  | cons c cs ih =>
    have hpos := c.utf8Size_pos
    have hcons : byteLength (c :: cs) = c.utf8Size + byteLength cs := by simp [byteLength]
    rw [hcons, List.length_cons, List.forall_mem_cons, ← ih.2]
    omega

variable {k : Nat}

theorem firstColon_spec {m : Mode} {s : Text} (h : firstColon m s = some k) :
    k < s.length ∧ s.drop k = ':' :: s.drop (k + 1) := by
  induction s generalizing m k with
  | nil => simp [firstColon] at h
  | cons c cs ih =>
    rw [firstColon] at h
    by_cases hcut : m.cuts c = true
    · rw [if_pos hcut] at h
      obtain rfl : 0 = k := Option.some.inj h
      have hc : c = ':' := by
        simp only [Mode.cuts, Bool.and_eq_true, beq_iff_eq] at hcut
        exact hcut.1.2
      exact ⟨Nat.succ_pos _, by simp [hc]⟩
    · rw [if_neg hcut] at h
      obtain ⟨j, hj, rfl⟩ := Option.map_eq_some_iff.mp h
      obtain ⟨hlt, hdrop⟩ := ih hj
      exact ⟨Nat.succ_lt_succ hlt, by simpa using hdrop⟩

theorem splitLoop_eq (whole : Text) (m : Mode) (byteIdx : Nat) (s : Text) :
    splitLoop whole m byteIdx s =
      match firstColon m s with
      | none => some (whole, [])
      | some k => sliceAt whole (byteIdx + byteLength (s.take k)) := by
  induction s generalizing m byteIdx with
  | nil => rfl
  | cons c cs ih =>
    rw [splitLoop, firstColon]
    by_cases hcut : m.cuts c = true
    · rw [if_pos hcut, if_pos hcut]
      rfl
    · rw [if_neg hcut, if_neg hcut, ih]
      cases firstColon (m.next c) cs with
      | none => rfl
      | some k =>
        have hbytes : byteLength ((c :: cs).take (k + 1)) = c.utf8Size + byteLength (cs.take k) := by simp [byteLength]
        rw [Option.map_some]
        dsimp only
        rw [hbytes, Nat.add_assoc]

theorem split_eq_iff (s : Text) : splitFmtSpec s = some (cutAtColon s) ↔
    ∀ k, firstColon .start s = some k → ∀ c ∈ s.take k, c.utf8Size = 1 := by
  rw [splitFmtSpec, splitLoop_eq, cutAtColon]
  cases hk : firstColon .start s with
  | none => simp
  | some k =>
    obtain ⟨hlt, hdrop⟩ := firstColon_spec hk
    obtain ⟨hle, hiff⟩ := length_le_byteLength (s.take k)
    rw [List.length_take, Nat.min_eq_left (Nat.le_of_lt hlt)] at hle hiff
    simp only [Option.some.injEq, forall_eq', Nat.zero_add]
    rw [← hiff]
    constructor
    · intro h
      rw [sliceAt] at h
      split at h
      case h_1 => simp at h
      case h_2 c rest hc =>
        split at h
        · have htake := congrArg (fun p => p.1.length) (Option.some.inj h)
          have hshort : byteLength (s.take k) < s.length := by
            have := congrArg List.length hc
            rw [List.length_drop, List.length_cons] at this
            omega
          simp only [List.length_take] at htake
          omega
        · simp at h
    · intro h
      rw [← h, sliceAt, hdrop]
      rfl

/-! ## What a template shows -/

section
variable {E : Type} {sub : Text → Sub E}

def Template.shown (t : Template E) : Text := rebuild t.parts t.expressions t.specs

def Region.shown : Region E → Text
  | .text t => t
  | .expression e spec => written e spec

/-- A part more than expressions, and a format for each expression. -/
def Template.Balanced (t : Template E) : Prop :=
  t.parts.length = t.expressions.length + 1 ∧ t.specs.length = t.expressions.length

/-- The text a template gives back, from what is left of the content. -/
def gives (sub : Text → Sub E) (s : Text) : Option Text := (parseLoop sub s []).map Template.shown

theorem parseLoop_cons_escape {cs lit : Text} {c : Char} (h : c = '\\' ∧ cs.head? = some '{') :
    parseLoop sub (c :: cs) lit = parseLoop sub cs.tail (lit ++ ['{']) := by
  rw [parseLoop, if_pos h]

theorem parseLoop_cons_char {cs lit : Text} {c : Char} (h : ¬(c = '\\' ∧ cs.head? = some '{')) (hc : c ≠ '{') :
    parseLoop sub (c :: cs) lit = parseLoop sub cs (lit ++ [c]) := by
  rw [parseLoop, if_neg h, if_neg hc]

theorem parseLoop_cons_brace (cs lit : Text) :
    parseLoop sub ('{' :: cs) lit = (readRegion sub (takeBraced 1 cs).1 (takeBraced 1 cs).2.2).bind fun
      | .text t => parseLoop sub (takeBraced 1 cs).2.1 (lit ++ t)
      | .expression e spec =>
        (parseLoop sub (takeBraced 1 cs).2.1 []).map fun t => ⟨lit :: t.parts, e :: t.expressions, spec :: t.specs⟩ := by
  rw [parseLoop, if_neg (by simp), if_pos rfl]
  cases readRegion sub (takeBraced 1 cs).1 (takeBraced 1 cs).2.2 with
  | none => rfl
  | some r => cases r <;> rfl

/-- The template with text before its first part. -/
def Template.prepend (lit : Text) (t : Template E) : Template E :=
  { t with parts := match t.parts with
    | p :: parts => (lit ++ p) :: parts
    | [] => [] }

/-- The literal text that is open only comes before the rest. -/
theorem parseLoop_lit (s lit : Text) : parseLoop sub s lit = (parseLoop sub s []).map (Template.prepend lit) := by
  induction hn : s.length using Nat.strongRecOn generalizing s lit with
  | ind n ih =>
    cases s with
    | nil => simp [parseLoop, Template.prepend]
    | cons c cs =>
      rw [List.length_cons] at hn
      have hstep (rest u : Text) (hrest : rest.length < n) :
          parseLoop sub rest (lit ++ u) = (parseLoop sub rest u).map (Template.prepend lit) := by
        rw [ih rest.length hrest rest (lit ++ u) rfl, ih rest.length hrest rest u rfl, Option.map_map]
        refine Option.map_congr fun t _ => ?_
        obtain ⟨parts, es, ss⟩ := t
        cases parts <;> simp [Template.prepend]
      by_cases hesc : c = '\\' ∧ cs.head? = some '{'
      · rw [parseLoop_cons_escape hesc, parseLoop_cons_escape hesc]
        exact hstep _ _ (by rw [List.length_tail]; omega)
      · by_cases hbrace : c = '{'
        · subst hbrace
          have hrest := length_rest_le 1 cs
          rw [parseLoop_cons_brace, parseLoop_cons_brace]
          cases readRegion sub (takeBraced 1 cs).1 (takeBraced 1 cs).2.2 with
          | none => rfl
          | some r =>
            cases r with
            | text t => exact hstep _ _ (by omega)
            | expression e spec =>
              rw [Option.bind_some, Option.bind_some, Option.map_map]
              refine Option.map_congr fun t _ => ?_
              simp [Template.prepend]
        · rw [parseLoop_cons_char hesc hbrace, parseLoop_cons_char hesc hbrace]
          exact hstep _ _ (by omega)

variable {t : Template E}

theorem prepend_shown (lit : Text) (h : t.Balanced) : (t.prepend lit).shown = lit ++ t.shown := by
  obtain ⟨parts, es, ss⟩ := t
  obtain ⟨hparts, hspecs⟩ := h
  dsimp only at hparts hspecs
  cases parts with
  | nil => simp at hparts
  | cons p parts =>
    cases es with
    | nil => simp [Template.prepend, Template.shown, rebuild]
    | cons e es =>
      cases ss with
      | nil => simp at hspecs
      | cons spec ss => simp [Template.prepend, Template.shown, rebuild]

theorem parseLoop_balanced {s lit : Text} (h : parseLoop sub s lit = some t) : t.Balanced := by
  induction hn : s.length using Nat.strongRecOn generalizing s lit t with
  | ind n ih =>
    cases s with
    | nil =>
      rw [parseLoop] at h
      cases h
      exact ⟨rfl, rfl⟩
    | cons c cs =>
      rw [List.length_cons] at hn
      by_cases hesc : c = '\\' ∧ cs.head? = some '{'
      · rw [parseLoop_cons_escape hesc] at h
        exact ih cs.tail.length (by rw [List.length_tail]; omega) h rfl
      · by_cases hbrace : c = '{'
        · subst hbrace
          have hrest := length_rest_le 1 cs
          rw [parseLoop_cons_brace] at h
          obtain ⟨r, -, h⟩ := Option.bind_eq_some_iff.mp h
          cases r with
          | text u => exact ih _ (by omega) h rfl
          | expression e spec =>
            obtain ⟨t', ht', rfl⟩ := Option.map_eq_some_iff.mp h
            obtain ⟨hparts, hspecs⟩ := ih _ (by omega) ht' rfl
            exact ⟨by simp [hparts], by simp [hspecs]⟩
        · rw [parseLoop_cons_char hesc hbrace] at h
          exact ih cs.length (by omega) h rfl

theorem shown_lit (s lit : Text) : (parseLoop sub s lit).map Template.shown = (gives sub s).map (lit ++ ·) := by
  rw [parseLoop_lit, gives, Option.map_map, Option.map_map]
  refine Option.map_congr fun t ht => ?_
  exact prepend_shown lit (parseLoop_balanced ht)

theorem gives_nil : gives sub [] = some [] := by
  rw [gives, parseLoop]
  rfl

theorem gives_escape {cs : Text} {c : Char} (h : c = '\\' ∧ cs.head? = some '{') :
    gives sub (c :: cs) = (gives sub cs.tail).map ('{' :: ·) := by
  rw [gives, parseLoop_cons_escape h]
  exact shown_lit _ _

theorem gives_char {cs : Text} {c : Char} (h : ¬(c = '\\' ∧ cs.head? = some '{')) (hc : c ≠ '{') :
    gives sub (c :: cs) = (gives sub cs).map (c :: ·) := by
  rw [gives, parseLoop_cons_char h hc]
  exact shown_lit _ _

theorem gives_brace (cs : Text) :
    gives sub ('{' :: cs) = (readRegion sub (takeBraced 1 cs).1 (takeBraced 1 cs).2.2).bind fun r =>
      (gives sub (takeBraced 1 cs).2.1).map (r.shown ++ ·) := by
  rw [gives, parseLoop_cons_brace]
  cases readRegion sub (takeBraced 1 cs).1 (takeBraced 1 cs).2.2 with
  | none => rfl
  | some r =>
    cases r with
    | text t => exact shown_lit _ _
    | expression e spec =>
      rw [Option.bind_some, Option.bind_some, gives, Option.map_map, Option.map_map]
      rfl

/-! ## One brace -/

variable {body : Text}

theorem cut_of_none (h : firstColon .start body = none) : cutAtColon body = (body, []) := by
  rw [cutAtColon, h]

theorem cut_of_some (h : firstColon .start body = some k) : cutAtColon body = (body.take k, body.drop (k + 1)) := by
  rw [cutAtColon, h]

theorem take_colon (h : firstColon .start body = some k) : body = body.take k ++ ':' :: body.drop (k + 1) := by
  conv_lhs => rw [← List.take_append_drop k body, (firstColon_spec h).2]

theorem written_cut (expr : E) (h : ∀ k, firstColon .start body = some k → k + 1 ≠ body.length) :
    written ⟨(cutAtColon body).1, expr⟩ (cutAtColon body).2 = braced body := by
  cases hk : firstColon .start body with
  | none => simp [cut_of_none hk, written]
  | some k =>
    obtain ⟨hlt, -⟩ := firstColon_spec hk
    have hne : body.drop (k + 1) ≠ [] := by
      rw [Ne, List.drop_eq_nil_iff]
      have := h k hk
      omega
    rw [cut_of_some hk, written, if_neg hne, ← take_colon hk]

theorem readRegion_of_lookedAt {closed : Bool} (h : LookedAt body closed) :
    readRegion sub body closed = readExpression sub body := by
  obtain ⟨hclosed, hblank, hline, hsemi⟩ := h
  rw [readRegion, if_neg (by simp [hclosed]), if_neg (by simp [hblank]), if_neg (not_or.mpr ⟨hline, hsemi⟩)]

theorem readRegion_of_harmless {closed : Bool} (h : Harmless sub body closed) :
    ∃ r, readRegion sub body closed = some r ∧ r.shown = if closed = true then braced body else '{' :: body := by
  by_cases hlooked : LookedAt body closed
  · have hsplit := (split_eq_iff body).mpr (h.single hlooked)
    rw [readRegion_of_lookedAt hlooked, readExpression, hsplit, if_pos hlooked.1]
    simp only [Option.bind_eq_bind, Option.bind_some]
    cases hsub : sub (cutAtColon body).1 with
    | panics => exact absurd hsub (h.parses hlooked)
    | refused => exact ⟨_, rfl, rfl⟩
    | parsed expr =>
      dsimp only
      split
      · exact ⟨_, rfl, rfl⟩
      · refine ⟨_, rfl, written_cut expr fun k hk hlen => ?_⟩
        rw [cut_of_some hk] at hsub
        exact h.format hlooked k hk hlen expr hsub
  · rw [readRegion]
    cases closed with
    | false => exact ⟨_, rfl, rfl⟩
    | true =>
      rw [if_neg (by simp), if_pos rfl]
      by_cases hblank : body.all isWhiteSpace = true
      · rw [if_pos hblank, h.blank rfl hblank]
        exact ⟨_, rfl, rfl⟩
      · have hline : '\n' ∈ body ∨ ';' ∈ body := by
          by_contra hno
          obtain ⟨hn, hs⟩ := not_or.mp hno
          exact hlooked ⟨rfl, Bool.eq_false_iff.mpr hblank, hn, hs⟩
        rw [if_neg hblank, if_pos hline]
        exact ⟨_, rfl, rfl⟩

theorem whiteSpace_ne {c : Char} (h : isWhiteSpace c = true) : c ≠ '\\' ∧ c ≠ '}' := by
  constructor <;> rintro rfl <;> exact absurd h (by decide)

theorem unescape_blank (h : body.all isWhiteSpace = true) : unescape body = body := by
  induction body with
  | nil => rfl
  | cons c cs ih =>
    obtain ⟨hc, hcs⟩ := Bool.and_eq_true_iff.mp h
    rw [unescape_cons (whiteSpace_ne hc).1, ih hcs]

theorem braced_eq {body x y : Text} (h : braced body ++ x = '{' :: (unescape body ++ '}' :: y)) :
    unescape body = body ∧ x = y := by
  have heq : unescape body ++ '}' :: y = body ++ '}' :: x := by
    simpa [braced] using h.symm
  obtain ⟨hbody, htail⟩ := unescape_eq heq
  exact ⟨hbody, (List.cons.inj htail).2.symm⟩

theorem harmless_of_shown {body x y : Text} {r : Region E} (hr : readRegion sub body true = some r)
    (hsplit : LookedAt body true → splitFmtSpec body = some (cutAtColon body))
    (heq : r.shown ++ x = '{' :: (unescape body ++ '}' :: y)) : Harmless sub body true ∧ x = y := by
  have hsingle (h : LookedAt body true) := (split_eq_iff body).mp (hsplit h)
  by_cases hlooked : LookedAt body true
  · rw [readRegion_of_lookedAt hlooked, readExpression, hsplit hlooked] at hr
    simp only [Option.bind_eq_bind, Option.bind_some] at hr
    have hnoblank (h : body.all isWhiteSpace = true) : body = [] := by
      rw [hlooked.2.1] at h
      simp at h
    -- the colon of an expression without a format is lost
    have hformat (k : Nat) (hk : firstColon .start body = some k) (hlen : k + 1 = body.length) (expr : E) :
        sub (body.take k) ≠ .parsed expr := by
      intro hsub
      rw [cut_of_some hk] at hr
      dsimp only at hr
      rw [hsub] at hr
      have hnil : body.drop (k + 1) = [] := List.drop_eq_nil_iff.mpr (by omega)
      simp only [hnil, ne_eq, not_true_eq_false, false_and, if_false, Option.some.injEq] at hr
      subst hr
      have hbody := take_colon hk
      rw [hnil] at hbody
      have hun : unescape body = unescape (body.take k) ++ [':'] := by
        conv_lhs => rw [hbody, unescape_append (by decide)]
        rfl
      rw [hun] at heq
      simp only [Region.shown, written, if_true, List.append_nil, braced, List.cons_append, List.append_assoc,
        List.cons.injEq, true_and, List.nil_append] at heq
      obtain ⟨-, hbad⟩ := unescape_eq heq.symm
      simp at hbad
    cases hsub : sub (cutAtColon body).1 with
    | panics =>
      rw [hsub] at hr
      simp at hr
    | refused =>
      rw [hsub] at hr
      cases hr
      obtain ⟨hbody, hxy⟩ := braced_eq heq
      exact ⟨⟨hbody, fun _ => hnoblank, hsingle, fun _ => by rw [hsub]; simp, fun _ => hformat⟩, hxy⟩
    | parsed expr =>
      rw [hsub] at hr
      have hshown : r.shown = braced body := by
        dsimp only at hr
        split at hr
        · cases hr
          rfl
        · cases hr
          refine written_cut expr fun k hk hlen => ?_
          rw [cut_of_some hk] at hsub
          exact hformat k hk hlen expr hsub
      rw [hshown] at heq
      obtain ⟨hbody, hxy⟩ := braced_eq heq
      exact ⟨⟨hbody, fun _ => hnoblank, hsingle, fun _ => by rw [hsub]; simp, fun _ => hformat⟩, hxy⟩
  · rw [readRegion, if_neg (by simp)] at hr
    by_cases hblank : body.all isWhiteSpace = true
    · rw [if_pos hblank] at hr
      cases hr
      have hun := unescape_blank hblank
      rw [hun] at heq
      cases body with
      | nil =>
        refine ⟨⟨rfl, fun _ _ => rfl, fun h => absurd h hlooked, fun h => absurd h hlooked, fun h => absurd h hlooked⟩, ?_⟩
        simpa [Region.shown] using heq
      | cons c cs =>
        exfalso
        have hc : '}' = c := by
          simp only [Region.shown, List.cons_append, List.cons.injEq, true_and] at heq
          exact heq.1
        exact (whiteSpace_ne (Bool.and_eq_true_iff.mp hblank).1).2 hc.symm
    · have hline : '\n' ∈ body ∨ ';' ∈ body := by
        by_contra hno
        obtain ⟨hn, hs⟩ := not_or.mp hno
        exact hlooked ⟨rfl, Bool.eq_false_iff.mpr hblank, hn, hs⟩
      rw [if_neg hblank, if_pos hline] at hr
      cases hr
      obtain ⟨hbody, hxy⟩ := braced_eq heq
      exact ⟨⟨hbody, fun _ h => absurd h hblank, fun h => absurd h hlooked, fun h => absurd h hlooked,
        fun h => absurd h hlooked⟩, hxy⟩

/-! ## The whole template -/

def ColonsRight (s : Text) : Prop :=
  LookedAt (takeBraced 1 s).1 (takeBraced 1 s).2.2 → splitFmtSpec (takeBraced 1 s).1 = some (cutAtColon (takeBraced 1 s).1)

theorem opened_escape {cs : Text} {c : Char} (h : c = '\\' ∧ cs.head? = some '{') : opened (c :: cs) = opened cs.tail := by
  rw [opened, if_pos h]

theorem opened_char {cs : Text} {c : Char} (h : ¬(c = '\\' ∧ cs.head? = some '{')) (hc : c ≠ '{') :
    opened (c :: cs) = opened cs := by
  rw [opened, if_neg h, if_neg hc]

theorem opened_brace (cs : Text) : opened ('{' :: cs) = cs :: opened (takeBraced 1 cs).2.1 := by
  rw [opened, if_neg (by simp), if_pos rfl]

theorem brace_iff (cs : Text)
    (ih : (gives sub (takeBraced 1 cs).2.1 = some (unescape (takeBraced 1 cs).2.1) ∧
        ∀ s ∈ opened (takeBraced 1 cs).2.1, ColonsRight s) ↔
      ∀ s ∈ opened (takeBraced 1 cs).2.1, Harmless sub (takeBraced 1 s).1 (takeBraced 1 s).2.2) :
    (gives sub ('{' :: cs) = some (unescape ('{' :: cs)) ∧ ∀ s ∈ cs :: opened (takeBraced 1 cs).2.1, ColonsRight s) ↔
      ∀ s ∈ cs :: opened (takeBraced 1 cs).2.1, Harmless sub (takeBraced 1 s).1 (takeBraced 1 s).2.2 := by
  obtain ⟨hclosed, hopen⟩ := takeBraced_spec 1 cs
  rw [List.forall_mem_cons, List.forall_mem_cons, gives_brace, unescape_cons (by decide), ← ih]
  have hspread (h : (takeBraced 1 cs).2.2 = true) :
      unescape cs = unescape (takeBraced 1 cs).1 ++ '}' :: unescape (takeBraced 1 cs).2.1 := by
    conv_lhs => rw [hclosed h, unescape_append (by decide), unescape_cons (by decide)]
  constructor
  · rintro ⟨hgives, hcolon, hrest⟩
    obtain ⟨r, hr, hmap⟩ := Option.bind_eq_some_iff.mp hgives
    obtain ⟨g, hg, heq⟩ := Option.map_eq_some_iff.mp hmap
    cases hb : (takeBraced 1 cs).2.2 with
    | true =>
      rw [hb] at hr
      rw [hspread hb] at heq
      obtain ⟨hharmless, rfl⟩ := harmless_of_shown hr (fun h => hcolon (by rwa [hb])) heq
      exact ⟨hharmless, hg, hrest⟩
    | false =>
      obtain ⟨hnil, hcs⟩ := hopen hb
      rw [hb, readRegion, if_pos rfl] at hr
      cases hr
      have hnot (h : LookedAt (takeBraced 1 cs).1 false) : False := by
        have := h.1
        simp at this
      rw [hnil, gives_nil] at hg
      cases hg
      have hbody : unescape (takeBraced 1 cs).1 = (takeBraced 1 cs).1 := by
        rw [← hcs]
        simpa [Region.shown, ← hcs] using heq.symm
      refine ⟨⟨hbody, fun h => by simp at h, fun h => (hnot h).elim, fun h => (hnot h).elim, fun h => (hnot h).elim⟩, ?_, hrest⟩
      rw [hnil, gives_nil]
      rfl
  · rintro ⟨hharmless, hg, hrest⟩
    obtain ⟨r, hr, hshown⟩ := readRegion_of_harmless hharmless
    refine ⟨?_, fun h => (split_eq_iff _).mpr (hharmless.single h), hrest⟩
    rw [hr, hg, Option.bind_some, Option.map_some, hshown]
    cases hb : (takeBraced 1 cs).2.2 with
    | true => rw [if_pos rfl, hspread hb, hharmless.unescaped, braced, List.cons_append, List.append_assoc]; rfl
    | false =>
      obtain ⟨hnil, hcs⟩ := hopen hb
      have hun := hharmless.unescaped
      rw [← hcs] at hun ⊢
      rw [if_neg (by simp), hnil, hun]
      simp [unescape]

theorem gives_iff (content : Text) :
    (gives sub content = some (unescape content) ∧ ∀ s ∈ opened content, ColonsRight s) ↔
      ∀ s ∈ opened content, Harmless sub (takeBraced 1 s).1 (takeBraced 1 s).2.2 := by
  induction hn : content.length using Nat.strongRecOn generalizing content with
  | ind n ih =>
    cases content with
    | nil => simp [gives_nil, opened, unescape]
    | cons c cs =>
      rw [List.length_cons] at hn
      by_cases hesc : c = '\\' ∧ cs.head? = some '{'
      · have hcs : cs = '{' :: cs.tail := by
          cases cs with
          | nil => simp at hesc
          | cons d ds => rw [show d = '{' by simpa using hesc.2]; rfl
        have hun : unescape (c :: cs) = '{' :: unescape cs.tail := by
          rw [unescape, if_pos hesc]
          conv_lhs => rw [hcs, unescape_cons (by decide)]
        rw [gives_escape hesc, opened_escape hesc, hun, ← ih cs.tail.length (by rw [List.length_tail]; omega) cs.tail rfl]
        cases gives sub cs.tail <;> simp
      · by_cases hbrace : c = '{'
        · subst hbrace
          have hrest := length_rest_le 1 cs
          rw [opened_brace]
          exact brace_iff cs (ih _ (by omega) _ rfl)
        · have hun : unescape (c :: cs) = c :: unescape cs := by rw [unescape, if_neg hesc]
          rw [gives_char hesc hbrace, opened_char hesc hbrace, hun, ← ih cs.length (by omega) cs rfl]
          cases gives sub cs <;> simp

theorem template_of_parse (h : t.Balanced) :
    (if t.expressions.isEmpty then Interpolated.literal (t.parts.headD []) else .interpolatedString t).template = t := by
  obtain ⟨parts, es, ss⟩ := t
  obtain ⟨hparts, hspecs⟩ := h
  dsimp only at hparts hspecs
  cases es with
  | nil =>
    obtain ⟨p, rfl⟩ := List.length_eq_one_iff.mp hparts
    obtain rfl := List.length_eq_zero_iff.mp hspecs
    rfl
  | cons e es => rfl

theorem rebuilt_iff (content : Text) :
    (∃ r, parseInterpolatedStringContent sub content = some r ∧
      r.template.parts.length = r.template.expressions.length + 1 ∧ r.template.specs.length = r.template.expressions.length ∧
      rebuild r.template.parts r.template.expressions r.template.specs = unescape content) ↔
    gives sub content = some (unescape content) := by
  rw [parseInterpolatedStringContent, gives]
  cases ht : parseLoop sub content [] with
  | none => simp
  | some t =>
    have hbalanced := parseLoop_balanced ht
    simp only [Option.map_some, Option.some.injEq, exists_eq_left', template_of_parse hbalanced]
    exact ⟨fun h => h.2.2, fun h => ⟨hbalanced.1, hbalanced.2, h⟩⟩

end

/-- **A template is taken apart without a loss exactly when its braces close where those outside string literals do and what
stands in each is harmless.** -/
theorem template_preserved_iff {E : Type} (sub : Text → Sub E) (content : Text) : Preserved sub content ↔
    ∀ s ∈ opened content, takeBraced 1 s = takeOutside ⟨1, false, false⟩ s ∧
      Harmless sub (takeBraced 1 s).1 (takeBraced 1 s).2.2 := by
  constructor
  · rintro ⟨hrebuilt, hbraces, hcolons⟩ s hs
    exact ⟨hbraces s hs, (gives_iff content).mp ⟨(rebuilt_iff content).mp hrebuilt, hcolons⟩ s hs⟩
  · intro h
    have hgives : gives sub content = some (unescape content) ∧ ∀ s ∈ opened content, ColonsRight s :=
      (gives_iff content).mpr fun s hs => (h s hs).2
    exact ⟨(rebuilt_iff content).mpr hgives.1, fun s hs => (h s hs).1, hgives.2⟩

/-- Two letters of two bytes each before the colon: the slice goes past the end. -/
theorem letters_before_colon : ¬Preserved (fun _ => Sub.parsed ()) ['{', 'é', 'é', ':', 'x', '}'] := by
  rintro ⟨⟨r, hr, -⟩, -, -⟩
  have hbraced : takeBraced 1 ['é', 'é', ':', 'x', '}'] = (['é', 'é', ':', 'x'], [], true) := by decide
  have hslices : splitFmtSpec ['é', 'é', ':', 'x'] = none := by decide
  have hregion : readRegion (fun _ => Sub.parsed ()) ['é', 'é', ':', 'x'] true = none := by
    rw [readRegion, if_neg (by decide), if_neg (by decide), if_neg (by decide), readExpression, hslices]
    rfl
  rw [parseInterpolatedStringContent, parseLoop, if_neg (by decide), if_pos rfl, hbraced] at hr
  dsimp only at hr
  rw [hregion] at hr
  simp at hr

end Datara.Parse.Interpolation
