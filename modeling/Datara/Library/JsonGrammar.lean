import Datara.Library.Predictive

/-!
# The JSON grammar over bytes

The grammar of RFC 8259 as languages (`Rfc.text`), with the white space where the RFC has it: around the structural characters
and around the text. A scanner passes white space once, so it reads the same texts in another arrangement, where no text of a
value begins or ends in white space (`Tight.value`); the two differ by the white space around a value and nothing else
(`text_eq`).
-/

namespace Datara.Library

open Computability

theorem kstar_mul_slide {α : Type*} [KleeneAlgebra α] (a b : α) : (a * b)∗ * a = a * (b * a)∗ := by
  apply le_antisymm
  · refine kstar_mul_le ?_ ?_
    · calc a = a * 1 := (mul_one a).symm
        _ ≤ a * (b * a)∗ := mul_le_mul_right one_le_kstar a
    · calc a * b * (a * (b * a)∗) = a * (b * a * (b * a)∗) := by simp only [mul_assoc]
        _ ≤ a * (b * a)∗ := mul_le_mul_right mul_kstar_le_kstar a
  · refine mul_kstar_le ?_ ?_
    · calc a = 1 * a := (one_mul a).symm
        _ ≤ (a * b)∗ * a := mul_le_mul_left one_le_kstar a
    · calc (a * b)∗ * a * (b * a) = (a * b)∗ * (a * b) * a := by simp only [mul_assoc]
        _ ≤ (a * b)∗ * a := mul_le_mul_left kstar_mul_le_kstar a

namespace Json

def isWs (x : Nat) : Bool := x == 32 || x == 9 || x == 10 || x == 13

def isDigit (x : Nat) : Bool := 48 ≤ x && x ≤ 57

def isHex (x : Nat) : Bool := isDigit x || 65 ≤ x && x ≤ 70 || 97 ≤ x && x ≤ 102

/-- The bytes that stand for themselves in a string: no control byte, no quote and no backslash. -/
def isUnescaped (x : Nat) : Bool := 32 ≤ x && x != 34 && x != 92

/-- The letters of the short escapes. -/
def isEscape (x : Nat) : Bool := x == 34 || x == 92 || x == 47 || x == 98 || x == 102 || x == 110 || x == 114 || x == 116

abbrev byte (x : Nat) : Language Nat := one (· == x)

def ws : Language Nat := (one isWs)∗

def word (w : List Nat) : Language Nat := w.foldr (fun x L => byte x * L) 1

def wordTrue : List Nat := [116, 114, 117, 101]
def wordFalse : List Nat := [102, 97, 108, 115, 101]
def wordNull : List Nat := [110, 117, 108, 108]

def digits : Language Nat := one isDigit * (one isDigit)∗

/-- `zero / ( digit1-9 *DIGIT )` -/
def int : Language Nat := byte 48 + one (fun x => isDigit x && x != 48) * (one isDigit)∗

def frac : Language Nat := byte 46 * digits

def exp : Language Nat := one (fun x => x == 101 || x == 69) * ((one (fun x => x == 43 || x == 45) + 1) * digits)

def number : Language Nat := (byte 45 + 1) * (int * ((frac + 1) * (exp + 1)))

def char : Language Nat :=
  byte 92 * (byte 117 * (one isHex * (one isHex * (one isHex * one isHex))) + one isEscape) + one isUnescaped

def string : Language Nat := byte 34 * (char∗ * byte 34)

/-- The values that hold no others. -/
def scalar : Language Nat := string + (number + (word wordTrue + (word wordFalse + word wordNull)))

namespace Rfc

def structural (x : Nat) : Language Nat := ws * byte x * ws

def member (V : Language Nat) : Language Nat := string * structural 58 * V

def object (V : Language Nat) : Language Nat :=
  structural 123 * (1 + member V * (structural 44 * member V)∗) * structural 125

def array (V : Language Nat) : Language Nat := structural 91 * (1 + V * (structural 44 * V)∗) * structural 93

/-- The values whose objects and arrays are nested at most so deep. -/
def value : Nat → Language Nat
  | 0 => scalar
  | d + 1 => object (value d) + (array (value d) + scalar)

/-- `JSON-text = ws value ws` -/
def text (d : Nat) : Language Nat := ws * value d * ws

end Rfc

namespace Tight

def pair (V : Language Nat) : Language Nat := string * (ws * (byte 58 * (ws * (V * ws))))

def items (item : Language Nat) (close : Nat) : Language Nat :=
  byte close + item * ((byte 44 * (ws * item))∗ * byte close)

def object (V : Language Nat) : Language Nat := byte 123 * (ws * items (pair V) 125)

def array (V : Language Nat) : Language Nat := byte 91 * (ws * items (V * ws) 93)

def value : Nat → Language Nat
  | 0 => 0 + (0 + scalar)
  | d + 1 => object (value d) + (array (value d) + scalar)

end Tight

/-! ## The two arrangements -/

theorem ws_mul_ws : ws * ws = ws := kstar_mul_kstar _

theorem ws_mul_ws_mul (L : Language Nat) : ws * (ws * L) = ws * L := by rw [← mul_assoc, ws_mul_ws]

/-- Items with white space before and behind each separator, in white space. -/
theorem ws_items (item sep : Language Nat) :
    ws * ((1 + item * (ws * sep * ws * item)∗) * ws) = ws * (1 + item * ws * (sep * (ws * (item * ws)))∗) := by
  have hslide : (ws * (sep * (ws * item)))∗ * ws = ws * (sep * (ws * item) * ws)∗ := kstar_mul_slide _ _
  have hinner : (ws * sep * ws * item)∗ * ws = ws * (sep * (ws * (item * ws)))∗ := by
    rw [show ws * sep * ws * item = ws * (sep * (ws * item)) by simp only [mul_assoc], hslide]
    simp only [mul_assoc]
  calc ws * ((1 + item * (ws * sep * ws * item)∗) * ws)
      = ws * ws + ws * (item * ((ws * sep * ws * item)∗ * ws)) := by simp only [add_mul, mul_add, one_mul, mul_assoc]
    _ = ws * 1 + ws * (item * ws * (sep * (ws * (item * ws)))∗) := by rw [ws_mul_ws, hinner, mul_one, mul_assoc]
    _ = ws * (1 + item * ws * (sep * (ws * (item * ws)))∗) := (mul_add _ _ _).symm

theorem padded_items (a item : Language Nat) (close : Nat) :
    ws * (ws * a * ws * (1 + item * (Rfc.structural 44 * item)∗) * Rfc.structural close) * ws =
      ws * (a * (ws * Tight.items (item * ws) close)) * ws := by
  have h := ws_items item (byte 44)
  simp only [Rfc.structural, Tight.items]
  calc ws * (ws * a * ws * (1 + item * (ws * byte 44 * ws * item)∗) * (ws * byte close * ws)) * ws
      = ws * (ws * (a * (ws * ((1 + item * (ws * byte 44 * ws * item)∗) * ws) * (byte close * (ws * ws))))) := by
        simp only [mul_assoc]
    _ = ws * (a * (ws * (1 + item * ws * (byte 44 * (ws * (item * ws)))∗) * (byte close * ws))) := by
        rw [h, ws_mul_ws, ws_mul_ws_mul]
    _ = ws * (a * (ws * (byte close + item * ws * ((byte 44 * (ws * (item * ws)))∗ * byte close)))) * ws := by
        simp only [add_mul, mul_add, one_mul, mul_assoc]

/-- White space around the value of a member may as well be the white space around it in the other arrangement. -/
theorem member_ws {V T : Language Nat} (h : ws * V * ws = ws * T * ws) : Rfc.member V * ws = Tight.pair T := by
  calc Rfc.member V * ws = string * (ws * (byte 58 * (ws * V * ws))) := by
        simp only [Rfc.member, Rfc.structural, mul_assoc]
    _ = Tight.pair T := by rw [h, Tight.pair, mul_assoc]

theorem items_ws {V T : Language Nat} (close : Nat) (h : ws * V * ws = ws * T * ws) :
    ws * Tight.items (V * ws) close = ws * Tight.items (T * ws) close := by
  have hspread (X : Language Nat) : ws * Tight.items (X * ws) close =
      ws * byte close + ws * X * ws * ((byte 44 * (ws * X * ws))∗ * byte close) := by
    simp only [Tight.items, mul_add, mul_assoc]
  rw [hspread, hspread, h]

theorem value_ws (d : Nat) : ws * Rfc.value d * ws = ws * Tight.value d * ws := by
  induction d with
  | zero => rw [Rfc.value, Tight.value, zero_add, zero_add]
  | succ d ih =>
    have hobject : ws * Rfc.object (Rfc.value d) * ws = ws * Tight.object (Tight.value d) * ws := by
      rw [Tight.object, ← member_ws ih, ← padded_items]
      rfl
    have harray : ws * Rfc.array (Rfc.value d) * ws = ws * Tight.array (Tight.value d) * ws := by
      rw [Tight.array, ← items_ws 93 ih, ← padded_items]
      rfl
    rw [Rfc.value, Tight.value]
    simp only [mul_add, add_mul, hobject, harray]

theorem text_eq (d : Nat) : Rfc.text d = ws * (Tight.value d * ws) := by
  rw [Rfc.text, value_ws, mul_assoc]

/-! ## What the texts begin with -/

variable {f : Nat → Prop} {x : Nat}

theorem starts_byte (h : f x) : Starts (byte x) f := by
  rintro t ⟨y, hy, rfl⟩
  exact ⟨y, [], rfl, by rwa [beq_iff_eq.mp hy]⟩

variable {p : Nat → Bool}

theorem starts_one (h : ∀ x, p x = true → f x) : Starts (one p) f := by
  rintro t ⟨y, hy, rfl⟩
  exact ⟨y, [], rfl, h y hy⟩

theorem starts_is (x : Nat) : Starts (byte x) fun y => y = x := starts_byte rfl

theorem starts_zero : Starts (0 : Language Nat) f := fun t ht => absurd ht (Language.notMem_zero t)

theorem starts_word {w : List Nat} (h : f x) : Starts (word (x :: w)) f := (starts_byte h).mul

theorem starts_string (h : f 34) : Starts string f := (starts_byte h).mul

theorem starts_int (h : ∀ x, isDigit x = true → f x) : Starts int f := by
  refine (starts_byte (h 48 rfl)).add (starts_one fun x hx => h x ?_).mul
  simp only [Bool.and_eq_true] at hx
  exact hx.1

theorem starts_number (hminus : f 45) (h : ∀ x, isDigit x = true → f x) : Starts number f := by
  rw [number, add_mul, one_mul]
  exact (starts_byte hminus).mul.add (starts_int h).mul

/-- What a value begins with that holds no others. -/
def BeginsScalar (x : Nat) : Prop := x = 34 ∨ x = 45 ∨ isDigit x = true ∨ x = 116 ∨ x = 102 ∨ x = 110

theorem starts_scalar : Starts scalar BeginsScalar := by
  refine (starts_string (.inl rfl)).add ((starts_number (.inr (.inl rfl)) fun x hx => .inr (.inr (.inl hx))).add ?_)
  refine (starts_word ?_).add ((starts_word ?_).add (starts_word ?_)) <;> simp [BeginsScalar]

/-- No white space begins a value, nor what closes an array. -/
theorem starts_value (d : Nat) : Starts (Tight.value d) fun x => isWs x = false ∧ x ≠ 93 := by
  have hscalar : Starts scalar fun x => isWs x = false ∧ x ≠ 93 := by
    refine starts_scalar.weaken fun x hx => ?_
    simp only [BeginsScalar, isDigit, Bool.and_eq_true, decide_eq_true_eq] at hx
    simp [isWs]
    omega
  cases d with
  | zero => exact starts_zero.add (starts_zero.add hscalar)
  | succ d =>
    have hopen (x : Nat) (h : isWs x = false ∧ x ≠ 93) : Starts (byte x) fun x => isWs x = false ∧ x ≠ 93 := starts_byte h
    exact (hopen 123 (by decide)).mul.add ((hopen 91 (by decide)).mul.add hscalar)

/-! ## The scan -/

/-- Why a text is none. -/
inductive Fault
  | unexpectedByte
  | badLiteral
  | unterminated
  | controlByte
  | badEscape
  | badUnicode
  | digitExpected
  | leadingZero
  | fraction
  | exponent
  | colon
  | commaOrClose
  | depth
  | trailing
  deriving DecidableEq

abbrev Reader := Scan Fault Nat

open Scan

def passWs : Reader := dropAll isWs

def readWord (w : List Nat) : Reader := w.foldr (fun x S => seq (next (· == x) .badLiteral) S) skip

def readDigits (e : Fault) : Reader := seq (next isDigit e) (dropAll isDigit)

def aheadIs (p : Nat → Bool) : Option Nat → Bool
  | some x => p x
  | none => false

def maybe (p : Nat → Bool) (S : Reader) : Reader := choose (aheadIs p) S skip

/-- The digits before the point; a zero is followed by none. -/
def readInt : Reader :=
  choose (aheadIs (· == 48)) (seq (next (· == 48) .digitExpected) (choose (aheadIs isDigit) (fail .leadingZero) skip))
    (seq (next (fun x => isDigit x && x != 48) .digitExpected) (dropAll isDigit))

def readFrac : Reader := seq (next (· == 46) .fraction) (readDigits .fraction)

def readExp : Reader :=
  seq (next (fun x => x == 101 || x == 69) .exponent)
    (seq (maybe (fun x => x == 43 || x == 45) (next (fun x => x == 43 || x == 45) .exponent)) (readDigits .exponent))

def readNumber : Reader :=
  seq (maybe (· == 45) (next (· == 45) .digitExpected))
    (seq readInt (seq (maybe (· == 46) readFrac) (maybe (fun x => x == 101 || x == 69) readExp)))

def readHex : Reader := next isHex .badUnicode

def readEscape : Reader :=
  choose (aheadIs (· == 117)) (seq (next (· == 117) .badEscape) (seq readHex (seq readHex (seq readHex readHex))))
    (next isEscape .badEscape)

/-- What an unescaped byte is refused for. -/
def readUnescaped : Reader :=
  choose Option.isSome (choose (aheadIs (· < 32)) (fail .controlByte) (next isUnescaped .controlByte)) (fail .unterminated)

def readChar : Reader := choose (aheadIs (· == 92)) (seq (next (· == 92) .badEscape) readEscape) readUnescaped

def notQuote : Option Nat → Bool
  | some x => x != 34
  | none => true

def readString : Reader :=
  seq (next (· == 34) .unexpectedByte) (seq (repeated notQuote readChar) (next (· == 34) .unterminated))

def readItems (item : Reader) (close : Nat) : Reader :=
  seq item (seq (repeated (aheadIs (· == 44)) (seq (next (· == 44) .commaOrClose) (seq passWs item)))
    (next (· == close) .commaOrClose))

def readContainer (start close : Nat) (item : Reader) : Reader :=
  seq (next (· == start) .unexpectedByte)
    (seq passWs (choose (aheadIs (· == close)) (next (· == close) .commaOrClose) (readItems item close)))

def readPair (V : Reader) : Reader :=
  seq readString (seq passWs (seq (next (· == 58) .colon) (seq passWs (seq V passWs))))

/-- A value by its first byte, with the ways to read an object and an array. -/
def readBy (object array : Reader) : Reader :=
  choose (aheadIs (· == 123)) object (choose (aheadIs (· == 91)) array (choose (aheadIs (· == 34)) readString
    (choose (aheadIs fun x => x == 45 || isDigit x) readNumber (choose (aheadIs (· == 116)) (readWord wordTrue)
      (choose (aheadIs (· == 102)) (readWord wordFalse) (choose (aheadIs (· == 110)) (readWord wordNull)
        (fail .unexpectedByte)))))))

def readValue : Nat → Reader
  | 0 => readBy (fail .depth) (fail .depth)
  | d + 1 => readBy (readContainer 123 125 (readPair (readValue d))) (readContainer 91 93 (seq (readValue d) passWs))

def atEnd : Reader := choose Option.isSome (fail .trailing) skip

/-- A value with white space behind it and nothing else. -/
def readAll (d : Nat) : Reader := seq (readValue d) (seq passWs atEnd)

/-! ## What is predicted -/

/-- What can follow a number. -/
def Ends (o : Option Nat) : Prop := ∀ x ∈ o, isDigit x = false ∧ x ≠ 46 ∧ x ≠ 101 ∧ x ≠ 69

def NotWs (o : Option Nat) : Prop := ∀ x ∈ o, isWs x = false

def NotDigit (o : Option Nat) : Prop := ∀ x ∈ o, isDigit x = false

/-- What follows the whole number or the fraction of a number. -/
def AfterInt (o : Option Nat) : Prop := ∀ x ∈ o, isDigit x = false ∧ x ≠ 46

/-- What stands behind an item. -/
def Closes (close : Nat) (o : Option Nat) : Prop := o = some 44 ∨ o = some close

theorem aheadIs_cons {r : List Nat} : aheadIs p (x :: r).head? = true ↔ p x = true := Iff.rfl

theorem predicts_word (w : List Nat) (f : Option Nat → Prop) : Predicts (readWord w) (word w) f := by
  induction w with
  | nil => exact .skip
  | cons x w ih => exact ih.next_seq

variable {L : Language Nat}

theorem predicts_maybe {S : Reader} {f : Option Nat → Prop} (hS : Predicts S L f)
    (hstart : Starts L fun x => p x = true) (hf : ∀ o, f o → aheadIs p o = false) : Predicts (maybe p S) (L + 1) f :=
  hS.choose .skip (hstart.leads fun _ hx => hx) (.one hf)

theorem predicts_passWs : Predicts passWs ws NotWs := .dropAll fun x h => h x rfl

theorem predicts_digits (e : Fault) : Predicts (readDigits e) digits NotDigit :=
  (Predicts.dropAll fun x h => h x rfl).next_seq

theorem predicts_int : Predicts readInt int NotDigit := by
  have hzero : Predicts (choose (aheadIs isDigit) (fail .leadingZero) skip : Reader) (0 + 1) NotDigit := by
    refine (Predicts.fail _).choose .skip (fun t ht => absurd ht (Language.notMem_zero t)) (.one fun o ho => ?_)
    cases o with
    | none => rfl
    | some x => exact ho x rfl
  have hsplit : int = byte 48 * (0 + 1) + one (fun x => isDigit x && x != 48) * (one isDigit)∗ := by
    rw [int, zero_add, mul_one]
  rw [hsplit]
  refine hzero.next_seq.choose (Predicts.dropAll fun x h => h x rfl).next_seq ?_ ?_
  · exact (starts_is 48).mul.leads fun x hx => by simp [aheadIs, hx]
  · refine (starts_one (f := fun x => x ≠ 48) fun x hx => ?_).mul.leads fun x hx => by simpa [aheadIs] using hx
    simp only [Bool.and_eq_true, bne_iff_ne] at hx
    exact hx.2

theorem starts_digits (h : ∀ x, isDigit x = true → f x) : Starts digits f := (starts_one h).mul

theorem predicts_frac : Predicts readFrac frac NotDigit := (predicts_digits _).next_seq

theorem predicts_exp : Predicts readExp exp NotDigit := by
  refine Predicts.next_seq (Predicts.seq (predicts_maybe (f := fun o => ∀ x ∈ o, isDigit x = true) ?_ ?_ ?_) ?_ ?_)
  · exact Predicts.next _ _
  · exact starts_one fun x hx => hx
  · intro o ho
    cases o with
    | none => rfl
    | some x =>
      have := ho x rfl
      simp only [isDigit, Bool.and_eq_true, decide_eq_true_eq] at this
      simp [aheadIs]
      omega
  · exact predicts_digits _
  · exact (starts_digits fun x hx => hx).leads fun x hx y hy => by rwa [← Option.some.inj hy]

theorem predicts_number : Predicts readNumber number Ends := by
  have hexp : Predicts (maybe (fun x => x == 101 || x == 69) readExp) (exp + 1) Ends := by
    refine predicts_maybe (predicts_exp.strengthen fun o ho x hx => (ho x hx).1) ?_ ?_
    · exact (starts_one fun x hx => hx).mul
    · intro o ho
      cases o with
      | none => rfl
      | some x => simpa [aheadIs] using (ho x rfl).2.2
  have hfrac : Predicts (maybe (· == 46) readFrac) (frac + 1) AfterInt := by
    refine predicts_maybe (predicts_frac.strengthen fun o ho x hx => (ho x hx).1) (starts_one fun _ hx => hx).mul ?_
    intro o ho
    cases o with
    | none => rfl
    | some x => simpa [aheadIs] using (ho x rfl).2
  have hexpLeads : Leads (exp + 1) Ends AfterInt := by
    refine Leads.add (Starts.leads (starts_one fun x hx => hx).mul ?_) (.one fun o ho x hx => ⟨(ho x hx).1, (ho x hx).2.1⟩)
    intro x hx y hy
    cases hy
    simp only [Bool.or_eq_true, beq_iff_eq] at hx
    rcases hx with rfl | rfl <;> simp [isDigit]
  have hfracLeads : Leads (frac + 1) AfterInt NotDigit := by
    refine Leads.add (Starts.leads (starts_is 46).mul ?_) (.one fun o ho x hx => (ho x hx).1)
    rintro x rfl y hy
    cases hy
    rfl
  refine Predicts.seq (predicts_maybe (f := fun o => ∀ x ∈ o, isDigit x = true) (.next _ _) (starts_one fun _ hx => hx) ?_)
    (predicts_int.seq (hfrac.seq hexp hexpLeads) (hfracLeads.mul hexpLeads)) ?_
  · intro o ho
    cases o with
    | none => rfl
    | some x =>
      have := ho x rfl
      simp only [isDigit, Bool.and_eq_true, decide_eq_true_eq] at this
      simp [aheadIs]
      omega
  · exact (starts_int fun x hx => hx).mul.leads fun x hx y hy => by rwa [← Option.some.inj hy]

theorem predicts_char (f : Option Nat → Prop) : Predicts readChar char f := by
  have hhex : Predicts readHex (one isHex) f := .next _ _
  have hescape : Predicts readEscape (byte 117 * (one isHex * (one isHex * (one isHex * one isHex))) + one isEscape) f := by
    refine (hhex.next_seq.next_seq.next_seq.next_seq).choose (.next _ _) ?_ ?_
    · exact (starts_one fun x hx => hx).mul.leads fun x hx => hx
    · refine (starts_one (f := fun x => x ≠ 117) ?_).leads fun x hx => by simpa [aheadIs] using hx
      rintro x hx rfl
      exact absurd hx (by decide)
  have hplain : Predicts readUnescaped ((0 + one isUnescaped) + 0) f := by
    refine Predicts.choose ((Predicts.fail _).choose (.next _ _) ?_ ?_) (.fail _) ?_ ?_
    · exact fun t ht => absurd ht (Language.notMem_zero t)
    · refine (starts_one fun x hx => hx).leads fun x hx => ?_
      simp only [isUnescaped, Bool.and_eq_true, decide_eq_true_eq] at hx
      simp [aheadIs]
      omega
    · exact (starts_zero.add (starts_one fun x hx => hx)).leads fun _ _ => rfl
    · exact fun t ht => absurd ht (Language.notMem_zero t)
  rw [zero_add, add_zero] at hplain
  refine hescape.next_seq.choose hplain ?_ ?_
  · exact (starts_one fun x hx => hx).mul.leads fun x hx => hx
  · refine (starts_one fun x hx => hx).leads fun x hx => ?_
    simp only [isUnescaped, Bool.and_eq_true, bne_iff_ne] at hx
    simp [aheadIs, hx.2]

theorem starts_char : Starts char fun x => notQuote (some x) = true := by
  refine Starts.add (starts_byte (by rfl)).mul (starts_one fun x hx => ?_)
  simp only [isUnescaped, Bool.and_eq_true] at hx
  exact hx.1.2

theorem predicts_string (f : Option Nat → Prop) : Predicts readString string f := by
  have hbody : Predicts (repeated notQuote readChar) (char∗) fun o => o = some 34 := by
    refine (predicts_char fun _ => True).repeated starts_char leads_any ?_ fun _ _ => trivial
    rintro o rfl
    rfl
  exact (hbody.seq (.next _ _) ((starts_is 34).leads fun x hx => congrArg some hx)).next_seq

theorem predicts_items {item : Reader} {close : Nat} (hitem : Predicts item L (Closes close))
    (hstart : Starts L fun x => isWs x = false) (hclose : close ≠ 44) (f : Option Nat → Prop) :
    Predicts (readItems item close) (L * ((byte 44 * (ws * L))∗ * byte close)) f := by
  have hnext : Predicts (seq (next (· == 44) .commaOrClose) (seq passWs item)) (byte 44 * (ws * L)) (Closes close) := by
    refine (predicts_passWs.seq hitem (hstart.leads fun x hx y hy => ?_)).next_seq
    rwa [← Option.some.inj hy]
  have hcomma : Leads (byte 44 * (ws * L)) (Closes close) (Closes close) :=
    (starts_is 44).mul.leads fun x hx => .inl (congrArg some hx)
  have hmore : Predicts (repeated (aheadIs (· == 44)) (seq (next (· == 44) .commaOrClose) (seq passWs item)))
      ((byte 44 * (ws * L))∗) fun o => o = some close := by
    refine hnext.repeated (starts_one fun x hx => hx).mul hcomma ?_ fun o ho => .inr ho
    rintro o rfl
    simpa [aheadIs] using hclose
  refine hitem.seq (hmore.seq (.next _ _) ((starts_is close).leads fun x hx => congrArg some hx)) ?_
  exact (hcomma.kstar fun _ ho => ho).mul ((starts_is close).leads fun x hx => .inr (congrArg some hx))

theorem predicts_container {item : Reader} {start close : Nat} (hitem : Predicts item L (Closes close))
    (hstart : Starts L fun x => isWs x = false ∧ x ≠ close) (hclose : close ≠ 44) (hws : isWs close = false)
    (f : Option Nat → Prop) : Predicts (readContainer start close item) (byte start * (ws * Tight.items L close)) f := by
  have hitems := predicts_items hitem (hstart.weaken fun _ hx => hx.1) hclose f
  have hinside : Predicts (choose (aheadIs (· == close)) (next (· == close) .commaOrClose) (readItems item close))
      (Tight.items L close) f := by
    refine Predicts.choose (.next _ _) hitems ((starts_one fun x hx => hx).leads fun x hx => hx) ?_
    exact hstart.mul.leads fun x hx => by simpa [aheadIs] using hx.2
  have hfirst : Starts (Tight.items L close) fun x => isWs x = false :=
    (starts_byte hws).add (hstart.weaken fun _ hx => hx.1).mul
  refine (predicts_passWs.seq hinside (hfirst.leads fun x hx y hy => ?_)).next_seq
  rwa [← Option.some.inj hy]

theorem predicts_by {O A : Reader} {LO LA : Language Nat} (hO : Predicts O LO Ends) (hA : Predicts A LA Ends)
    (hbegin : Starts LO fun x => x = 123) (hbegin' : Starts LA fun x => x = 91) :
    Predicts (readBy O A) (LO + (LA + scalar)) Ends := by
  have hword (x : Nat) (w : List Nat) {S : Reader} {L : Language Nat} (hS : Predicts S L Ends)
      (hL : Starts L fun y => y ≠ x) :
      Predicts (choose (aheadIs (· == x)) (readWord (x :: w)) S) (word (x :: w) + L) Ends := by
    refine (predicts_word _ _).choose hS ((starts_one fun y hy => hy).mul.leads fun y hy => hy) ?_
    exact hL.leads fun y hy => by simpa [aheadIs] using hy
  have hnull := hword 110 [117, 108, 108] (.fail .unexpectedByte) starts_zero
  have hfalse := hword 102 [97, 108, 115, 101] hnull ((starts_word (by decide)).add starts_zero)
  have htrue := hword 116 [114, 117, 101] hfalse
    ((starts_word (by decide)).add ((starts_word (by decide)).add starts_zero))
  rw [add_zero] at htrue
  have hwords : Starts (word wordTrue + (word wordFalse + word wordNull)) fun x => x = 116 ∨ x = 102 ∨ x = 110 :=
    (starts_word (.inl rfl)).add ((starts_word (.inr (.inl rfl))).add (starts_word (.inr (.inr rfl))))
  have hnumber := predicts_number.choose htrue (c := aheadIs fun x => x == 45 || isDigit x)
    ((starts_number (f := fun x => (x == 45 || isDigit x) = true) rfl fun x hx => by simp [hx]).leads fun x hx => hx)
    (hwords.leads fun x hx => by rcases hx with rfl | rfl | rfl <;> rfl)
  have hafter : Starts (number + (word wordTrue + (word wordFalse + word wordNull))) fun x => x ≠ 34 := by
    refine (starts_number (by decide) ?_).add (hwords.weaken ?_)
    · rintro x hx rfl
      exact absurd hx (by decide)
    · rintro x hx rfl
      simp at hx
  have hscalar : Predicts _ scalar Ends := (predicts_string Ends).choose hnumber (c := aheadIs (· == 34))
    ((starts_string (f := fun x => (x == 34) = true) rfl).leads fun x hx => hx)
    (hafter.leads fun x hx => by simpa [aheadIs] using hx)
  have hnot (y : Nat) (hy : ¬BeginsScalar y) : Starts scalar fun x => x ≠ y :=
    starts_scalar.weaken fun x hx heq => hy (heq ▸ hx)
  have harray := hA.choose hscalar (c := aheadIs (· == 91)) (hbegin'.leads fun x hx => by simp [aheadIs, hx])
    ((hnot 91 (by simp [BeginsScalar, isDigit])).leads fun x hx => by simpa [aheadIs] using hx)
  refine hO.choose harray (hbegin.leads fun x hx => by simp [aheadIs, hx]) ?_
  refine ((hbegin'.weaken fun x hx => ?_).add (hnot 123 (by simp [BeginsScalar, isDigit]))).leads
    fun x hx => by simpa [aheadIs] using hx
  rw [hx]
  decide

/-- White space goes on no number. -/
theorem ws_leads_ends {f : Option Nat → Prop} (hf : ∀ o, f o → Ends o) : Leads ws f Ends := by
  refine Leads.kstar (Starts.leads (starts_one fun x hx => hx) ?_) hf
  intro x hx y hy
  cases hy
  simp only [isWs, Bool.or_eq_true, beq_iff_eq] at hx
  rcases hx with ((rfl | rfl) | rfl) | rfl <;> decide

theorem predicts_value (d : Nat) : Predicts (readValue d) (Tight.value d) Ends := by
  induction d with
  | zero => exact predicts_by (.fail _) (.fail _) starts_zero starts_zero
  | succ d ih =>
    have hclose (close : Nat) (hd : isDigit close = false ∧ close ≠ 46 ∧ close ≠ 101 ∧ close ≠ 69) (o : Option Nat)
        (ho : Closes close o) : Ends o := by
      rintro x hx
      obtain rfl | rfl := ho
      · cases hx
        decide
      · exact Option.some.inj hx ▸ hd
    have hclose' (close : Nat) (hw : isWs close = false) (o : Option Nat) (ho : Closes close o) : NotWs o := by
      rintro x hx
      obtain rfl | rfl := ho
      · cases hx
        rfl
      · exact Option.some.inj hx ▸ hw
    have hitem : Predicts (seq (readValue d) passWs) (Tight.value d * ws) fun o => Ends o ∧ NotWs o :=
      ih.seq (predicts_passWs.strengthen fun o ho => ho.2) (ws_leads_ends fun o ho => ho.1)
    have hpair : Predicts (readPair (readValue d)) (Tight.pair (Tight.value d)) fun o => Ends o ∧ NotWs o := by
      have hvalue := predicts_passWs.seq hitem ((starts_value d).mul.leads fun x hx y hy => Option.some.inj hy ▸ hx.1)
      have hcolon := predicts_passWs.seq (hvalue.next_seq (p := (· == 58)) (e := .colon))
        ((starts_is 58).mul.leads fun x hx y hy => by rw [← Option.some.inj hy, hx]; rfl)
      exact (predicts_string _).seq hcolon leads_any
    refine predicts_by ?_ ?_ (starts_is 123).mul (starts_is 91).mul
    · refine predicts_container (hpair.strengthen fun o ho => ⟨hclose 125 (by decide) o ho, hclose' 125 rfl o ho⟩) ?_
        (by decide) rfl _
      exact (starts_string (by decide)).mul
    · refine predicts_container (hitem.strengthen fun o ho => ⟨hclose 93 (by decide) o ho, hclose' 93 rfl o ho⟩) ?_
        (by decide) rfl _
      exact (starts_value d).mul

theorem predicts_all (d : Nat) : Predicts (readAll d) (Tight.value d * ws) fun o => o = none := by
  have hend : Predicts atEnd (0 + 1) fun o => o = none := by
    refine (Predicts.fail _).choose .skip (fun t ht => absurd ht (Language.notMem_zero t)) (.one ?_)
    rintro o rfl
    rfl
  rw [zero_add] at hend
  have hws : Predicts (seq passWs atEnd) ws fun o => o = none := by
    have := predicts_passWs.seq hend (.one fun o ho x hx => by rw [ho] at hx; simp at hx)
    rwa [mul_one] at this
  refine (predicts_value d).seq hws (ws_leads_ends ?_)
  rintro o rfl x hx
  simp at hx

theorem readAll_done {d : Nat} {b x : List Nat} (h : readAll d b = .done x) : x = [] := by
  rw [readAll, seq] at h
  cases hv : readValue d b with
  | done y =>
    rw [hv] at h
    simp only [andThen, seq, passWs, dropAll, atEnd, choose] at h
    split at h
    · simp [fail] at h
    case isFalse hnone =>
      obtain rfl : y.dropWhile isWs = x := by simpa [skip] using h
      simpa using hnone
  | stuck e y =>
    rw [hv] at h
    simp [andThen] at h

end Json

end Datara.Library
