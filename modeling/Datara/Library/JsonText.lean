import Datara.Library.Radix
import Mathlib.Data.List.Basic

/-!
# JSON text

The objects of JSON whose members are scalars, over characters: whitespace, strings with their escapes, integers without a
fraction or an exponent, and the two truth values. An object that is written with its texts as they are is one of what was
written exactly when no text holds a character that JSON escapes (`object_raw_iff`).
-/

namespace Datara.Library.Json

/-- A character that stands for itself in a string. -/
def Plain (c : Char) : Prop := 32 ≤ c.toNat ∧ c ≠ '"' ∧ c ≠ '\\'

instance (c : Char) : Decidable (Plain c) := inferInstanceAs (Decidable (_ ∧ _ ∧ _))

/-- What a backslash makes of the character after it. -/
def escapeOf : Char → Option Char
  | '"' => some '"'
  | '\\' => some '\\'
  | '/' => some '/'
  | 'b' => some (Char.ofNat 8)
  | 'f' => some (Char.ofNat 12)
  | 'n' => some '\n'
  | 'r' => some '\r'
  | 't' => some '\t'
  | _ => none

/-- The unit that four hexadecimal digits are. -/
def Unit16 (ds : List Char) (u : Nat) : Prop := ds.length = 4 ∧ digitsValue 16 0 ds = some u

/-- What stands between the quotes of a string, with the characters it is. -/
inductive Chars : List Char → List Char → Prop
  | nil : Chars [] []
  | plain {c : Char} {d r : List Char} : Plain c → Chars d r → Chars (c :: d) (c :: r)
  | escape {e x : Char} {d r : List Char} : escapeOf e = some x → Chars d r → Chars (x :: d) ('\\' :: e :: r)
  | unit {ds d r : List Char} {u : Nat} : Unit16 ds u → u.isValidChar → Chars d r →
      Chars (Char.ofNat u :: d) ('\\' :: 'u' :: (ds ++ r))
  | pair {hs ls d r : List Char} {h l : Nat} : Unit16 hs h → Unit16 ls l → 0xD800 ≤ h → h < 0xDC00 → 0xDC00 ≤ l →
      l < 0xE000 → Chars d r →
      Chars (Char.ofNat (0x10000 + (h - 0xD800) * 0x400 + (l - 0xDC00)) :: d)
        ('\\' :: 'u' :: (hs ++ '\\' :: 'u' :: (ls ++ r)))

inductive Scalar
  | number (n : Int)
  | bool (b : Bool)
  | string (s : List Char)
  deriving DecidableEq

/-- Digits without a leading zero. -/
def Digits (n : Nat) (ds : List Char) : Prop :=
  (∀ c ∈ ds, c.isDigit) ∧ ds ≠ [] ∧ (ds.head? = some '0' → ds = ['0']) ∧ Nat.ofDigitChars 10 ds 0 = n

def Number (n : Int) (t : List Char) : Prop :=
  ∃ ds m, Digits m ds ∧ (t = ds ∧ n = m ∨ t = '-' :: ds ∧ n = -(m : Int))

def boolText (b : Bool) : List Char := if b then ['t', 'r', 'u', 'e'] else ['f', 'a', 'l', 's', 'e']

def quoted (r : List Char) : List Char := '"' :: (r ++ ['"'])

def Text : Scalar → List Char → Prop
  | .number n, t => Number n t
  | .bool b, t => t = boolText b
  | .string s, t => ∃ r, Chars s r ∧ t = quoted r

def IsSpace (c : Char) : Prop := c = ' ' ∨ c = '\t' ∨ c = '\n' ∨ c = '\r'

def Spaces (t : List Char) : Prop := ∀ c ∈ t, IsSpace c

/-- A name with its value, with the whitespace around them. -/
def Member (m : List Char × Scalar) (t : List Char) : Prop :=
  ∃ w₁ r w₂ w₃ tv w₄, Spaces w₁ ∧ Spaces w₂ ∧ Spaces w₃ ∧ Spaces w₄ ∧ Chars m.1 r ∧ Text m.2 tv ∧
    t = w₁ ++ (quoted r ++ (w₂ ++ ':' :: (w₃ ++ (tv ++ w₄))))

inductive Members : List (List Char × Scalar) → List Char → Prop
  | last {m : List Char × Scalar} {t : List Char} : Member m t → Members [m] t
  | more {m : List Char × Scalar} {ms : List (List Char × Scalar)} {t t' : List Char} : Member m t → Members ms t' →
      Members (m :: ms) (t ++ ',' :: t')

/-- A text that is an object with these members, in this order. -/
def Object (ms : List (List Char × Scalar)) (text : List Char) : Prop :=
  ∃ w₁ body w₂, Spaces w₁ ∧ Spaces w₂ ∧ text = w₁ ++ '{' :: (body ++ '}' :: w₂) ∧
    (ms = [] ∧ Spaces body ∨ Members ms body)

/-! ## Strings -/

section
variable {d r s t t' : List Char} {c c' : Char}

theorem chars_length (h : Chars d r) : d.length ≤ r.length ∧ (d.length = r.length → r = d ∧ ∀ c ∈ d, Plain c) := by
  induction h with
  | nil => simp
  | plain hc _ ih =>
    refine ⟨by simpa using ih.1, fun heq => ?_⟩
    obtain ⟨rfl, hall⟩ := ih.2 (by simpa using heq)
    exact ⟨rfl, by simpa using ⟨hc, hall⟩⟩
  | escape _ _ ih =>
    simp only [List.length_cons]
    exact ⟨by omega, fun heq => by omega⟩
  | unit _ _ _ ih =>
    simp only [List.length_cons, List.length_append]
    exact ⟨by omega, fun heq => by omega⟩
  | pair _ _ _ _ _ _ _ ih =>
    simp only [List.length_cons, List.length_append]
    exact ⟨by omega, fun heq => by omega⟩

theorem unit_no_quote {ds : List Char} {u : Nat} (h : Unit16 ds u) : '"' ∉ ds := by
  intro hmem
  have := digitVal_isSome_of_digitsValue h.2 hmem
  exact absurd this (by decide)

theorem exists_rest {a b r t : List Char} (h : r ++ c :: t = a ++ c' :: b) (hlen : a.length < r.length) :
    ∃ b', r = a ++ c' :: b' := by
  obtain ⟨m, hr, hm⟩ | ⟨m, ha, hm⟩ := List.append_eq_append_iff.mp h.symm
  · rcases m with _ | ⟨x, m⟩
    · rw [hr, List.append_nil] at hlen
      exact absurd hlen (Nat.lt_irrefl _)
    · exact ⟨m, by rw [hr, (List.cons.inj hm).1]⟩
  · rw [ha, List.length_append] at hlen
    omega

theorem after_unit {ds a b r : List Char} {u : Nat} (hds : Unit16 ds u) (h : '\\' :: 'u' :: (ds ++ r) = a ++ '"' :: b)
    (ha : '"' ∉ a) : ∃ a', a = '\\' :: 'u' :: (ds ++ a') ∧ r = a' ++ '"' :: b := by
  rcases a with _ | ⟨x, _ | ⟨y, a⟩⟩
  · simp at h
  · simp at h
  · obtain ⟨rfl, hu⟩ := List.cons.inj h
    obtain ⟨rfl, htail⟩ := List.cons.inj hu
    obtain ⟨m, hm, hrest⟩ | ⟨m, hm, hrest⟩ := List.append_eq_append_iff.mp htail
    · exact ⟨m, by rw [hm], hrest⟩
    · rcases m with _ | ⟨z, m⟩
      · rw [List.append_nil] at hm
        exact ⟨[], by rw [hm, List.append_nil], by rw [List.nil_append] at hrest ⊢; exact hrest.symm⟩
      · cases hrest
        exact absurd (hm ▸ List.mem_append_right _ List.mem_cons_self) (unit_no_quote hds)

/-- The first quote of what stands in a string is escaped, and so comes before its place in what the string is. -/
theorem chars_quote (h : Chars d r) : ∀ a b, r = a ++ '"' :: b → '"' ∉ a → '"' ∈ d.take a.length := by
  induction h with
  | nil =>
    intro a b heq
    simp at heq
  | plain hc _ ih =>
    intro a b heq ha
    rcases a with _ | ⟨x, a⟩
    · exact absurd (List.cons.inj heq).1 hc.2.1
    · obtain ⟨rfl, htail⟩ := List.cons.inj heq
      rw [List.length_cons, List.take_succ_cons]
      exact List.mem_cons_of_mem _ (ih a b htail fun hm => ha (List.mem_cons_of_mem _ hm))
  | escape he _ ih =>
    intro a b heq ha
    rcases a with _ | ⟨x, _ | ⟨y, a⟩⟩
    · simp at heq
    · obtain ⟨-, htail⟩ := List.cons.inj heq
      cases htail
      cases he
      exact List.mem_cons_self
    · obtain ⟨rfl, htail⟩ := List.cons.inj heq
      obtain ⟨rfl, hrest⟩ := List.cons.inj htail
      have hin := ih a b hrest fun hm => ha (List.mem_cons_of_mem _ (List.mem_cons_of_mem _ hm))
      rw [List.length_cons, List.length_cons, List.take_succ_cons]
      exact List.mem_cons_of_mem _ (List.take_subset_take_left _ (Nat.le_succ _) hin)
  | unit hds _ _ ih =>
    intro a b heq ha
    obtain ⟨a', rfl, hrest⟩ := after_unit hds heq ha
    have hin := ih a' b hrest fun hm => ha (by simp [hm])
    simp only [List.length_cons, List.length_append, List.take_succ_cons]
    exact List.mem_cons_of_mem _ (List.take_subset_take_left _ (by omega) hin)
  | pair hhs hls _ _ _ _ _ ih =>
    intro a b heq ha
    obtain ⟨a', rfl, hrest⟩ := after_unit hhs heq ha
    obtain ⟨a'', rfl, hlast⟩ := after_unit hls hrest fun hm => ha (by simp [hm])
    have hin := ih a'' b hlast fun hm => ha (by simp [hm])
    simp only [List.length_cons, List.length_append, List.take_succ_cons]
    exact List.mem_cons_of_mem _ (List.take_subset_take_left _ (by omega) hin)

/-- A string ends at its first quote: what is read up to one, of a text that is written as it is, is that text. -/
theorem chars_written (h : Chars d r) (heq : r ++ '"' :: t = d ++ '"' :: t') :
    r = d ∧ (∀ c ∈ d, Plain c) ∧ t = t' := by
  obtain ⟨hle, hsame⟩ := chars_length h
  have hnone : '"' ∉ d := by
    intro hmem
    obtain ⟨a, b, hd, ha⟩ := List.eq_append_cons_of_mem hmem
    have hlen := congrArg List.length hd
    rw [List.length_append, List.length_cons] at hlen
    have hsplit : ∃ b', r = a ++ '"' :: b' := by
      rw [hd, List.append_assoc, List.cons_append] at heq
      exact exists_rest heq (by omega)
    obtain ⟨b', hr⟩ := hsplit
    have hin := chars_quote h a b' hr ha
    rw [hd, List.take_left' rfl] at hin
    exact ha hin
  have hlen : d.length = r.length := by
    by_contra hne
    obtain ⟨b', hr⟩ := exists_rest heq (by omega)
    exact hnone (List.mem_of_mem_take (chars_quote h d b' hr hnone))
  obtain ⟨rfl, hplain⟩ := hsame hlen
  exact ⟨rfl, hplain, (List.cons.inj (List.append_cancel_left heq)).2⟩

theorem chars_plain (h : ∀ c ∈ d, Plain c) : Chars d d := by
  induction d with
  | nil => exact .nil
  | cons c d ih => exact .plain (h c List.mem_cons_self) (ih fun x hx => h x (List.mem_cons_of_mem _ hx))

/-! ## What is read at a place -/

theorem run_unique {P : Char → Prop} {a b : List Char} (ha : ∀ x ∈ a, P x) (hb : ∀ x ∈ b, P x) (hc : ¬P c) (hc' : ¬P c')
    (h : a ++ c :: t = b ++ c' :: t') : a = b ∧ c = c' ∧ t = t' := by
  induction a generalizing b with
  | nil =>
    rcases b with _ | ⟨y, b⟩
    · exact ⟨rfl, List.cons.inj h⟩
    · exact absurd ((List.cons.inj h).1 ▸ hb y List.mem_cons_self) hc
  | cons x a ih =>
    rcases b with _ | ⟨y, b⟩
    · exact absurd ((List.cons.inj h).1 ▸ ha x List.mem_cons_self) hc'
    · obtain ⟨rfl, htail⟩ := List.cons.inj h
      obtain ⟨rfl, hrest⟩ := ih (fun z hz => ha z (List.mem_cons_of_mem _ hz)) (fun z hz => hb z (List.mem_cons_of_mem _ hz))
        htail
      exact ⟨rfl, hrest⟩

/-- The end of a value: a comma or a closing brace. -/
def Separator (c : Char) : Prop := c = ',' ∨ c = '}'

def InNumber (c : Char) : Prop := c = '-' ∨ c.isDigit

theorem separator_not_space (h : Separator c) : ¬IsSpace c := by
  rcases h with rfl | rfl <;> simp [IsSpace]

theorem separator_not_number (h : Separator c) : ¬InNumber c := by
  rcases h with rfl | rfl <;> simp [InNumber]

theorem space_not_number (h : IsSpace c) : ¬InNumber c := by
  rcases h with rfl | rfl | rfl | rfl <;> simp [InNumber]

theorem follows_not_number {w : List Char} (hw : Spaces w) (hc : Separator c) :
    ∃ x u, w ++ c :: t = x :: u ∧ ¬InNumber x := by
  rcases w with _ | ⟨x, w⟩
  · exact ⟨c, t, rfl, separator_not_number hc⟩
  · exact ⟨x, w ++ c :: t, rfl, space_not_number (hw x List.mem_cons_self)⟩

theorem number_chars {n : Int} (h : Number n t) : ∀ x ∈ t, InNumber x := by
  obtain ⟨ds, m, hds, ⟨rfl, -⟩ | ⟨rfl, -⟩⟩ := h
  · exact fun x hx => .inr (hds.1 x hx)
  · intro x hx
    rcases List.mem_cons.mp hx with rfl | hx
    · exact .inl rfl
    · exact .inr (hds.1 x hx)

theorem number_not_nil {n : Int} (h : Number n t) : t ≠ [] := by
  obtain ⟨ds, m, hds, ⟨rfl, -⟩ | ⟨rfl, -⟩⟩ := h
  · exact hds.2.1
  · exact List.cons_ne_nil _ _

theorem text_head {v : Scalar} (h : Text v t) : ∃ x u, t = x :: u ∧ ¬IsSpace x := by
  cases v with
  | number n =>
    obtain ⟨x, u, rfl⟩ := List.exists_cons_of_ne_nil (number_not_nil h)
    exact ⟨x, u, rfl, fun hs => space_not_number hs (number_chars h x List.mem_cons_self)⟩
  | bool b =>
    cases b with
    | false => exact ⟨_, _, h, by simp [IsSpace]⟩
    | true => exact ⟨_, _, h, by simp [IsSpace]⟩
  | string s =>
    obtain ⟨r, -, rfl⟩ := h
    exact ⟨_, _, rfl, by simp [IsSpace]⟩

end

/-! ## Objects that are written with their texts as they are -/

def intText (n : Int) : List Char :=
  if n < 0 then '-' :: Nat.toDigits 10 n.natAbs else Nat.toDigits 10 n.natAbs

def scalarRaw : Scalar → List Char
  | .number n => intText n
  | .bool b => boolText b
  | .string s => quoted s

def memberRaw (m : List Char × Scalar) : List Char := quoted m.1 ++ ':' :: ' ' :: scalarRaw m.2

def membersRaw : List (List Char × Scalar) → List Char
  | [] => []
  | [m] => memberRaw m
  | m :: ms => memberRaw m ++ ',' :: ' ' :: membersRaw ms

def objectRaw (ms : List (List Char × Scalar)) : List Char := '{' :: (membersRaw ms ++ ['}'])

def PlainScalar : Scalar → Prop
  | .string s => ∀ c ∈ s, Plain c
  | _ => True

/-- A member without a character that is escaped. -/
def PlainMember (m : List Char × Scalar) : Prop := (∀ c ∈ m.1, Plain c) ∧ PlainScalar m.2

theorem toDigits_head {n : Nat} (h : (Nat.toDigits 10 n).head? = some '0') : Nat.toDigits 10 n = ['0'] := by
  induction n using Nat.strongRecOn with
  | ind n ih =>
    by_cases hn : n < 10
    · rw [Nat.toDigits_of_lt_base hn] at h ⊢
      rw [Option.some.inj h]
    · exfalso
      rw [Nat.toDigits_of_base_le (by decide) (by omega), List.head?_append_of_ne_nil _ Nat.toDigits_ne_nil] at h
      have hzero := Nat.ofDigitChars_toDigits (b := 10) (n := n / 10) (by decide) (by decide)
      rw [ih (n / 10) (by omega) h] at hzero
      have hvalue : Nat.ofDigitChars 10 ['0'] 0 = 0 := rfl
      omega

theorem intText_number (n : Int) : Number n (intText n) := by
  have hdigits : Digits n.natAbs (Nat.toDigits 10 n.natAbs) := by
    exact ⟨fun c hc => Nat.isDigit_of_mem_toDigits (by decide) (by decide) hc, Nat.toDigits_ne_nil, toDigits_head,
      Nat.ofDigitChars_toDigits (by decide) (by decide)⟩
  rw [intText]
  by_cases h : n < 0
  · rw [if_pos h]
    exact ⟨_, _, hdigits, .inr ⟨rfl, by omega⟩⟩
  · rw [if_neg h]
    exact ⟨_, _, hdigits, .inl ⟨rfl, by omega⟩⟩

section
variable {s t t' w p : List Char} {c c' : Char} {v : Scalar} {m : List Char × Scalar} {ms : List (List Char × Scalar)}

theorem raw_head (v : Scalar) : ∃ x u, scalarRaw v = x :: u ∧ ¬IsSpace x := by
  cases v with
  | number n => exact text_head (v := .number n) (intText_number n)
  | bool b => exact text_head (v := .bool b) rfl
  | string s => exact ⟨_, _, rfl, by simp [IsSpace]⟩

theorem text_raw (h : Text v t) (hw : Spaces w) (hc : Separator c) (hc' : Separator c')
    (heq : t ++ (w ++ c :: s) = scalarRaw v ++ c' :: t') : PlainScalar v ∧ c = c' ∧ s = t' := by
  have hend (hrest : w ++ c :: s = c' :: t') : c = c' ∧ s = t' :=
    (run_unique (a := w) (b := []) hw (by simp) (separator_not_space hc) (separator_not_space hc') hrest).2
  cases v with
  | number n =>
    obtain ⟨x, u, hx, hnot⟩ := follows_not_number (t := s) hw hc
    rw [hx] at heq
    obtain ⟨-, rfl, rfl⟩ := run_unique (number_chars h) (number_chars (intText_number n)) hnot (separator_not_number hc') heq
    exact ⟨trivial, hend hx⟩
  | bool b =>
    obtain rfl : t = boolText b := h
    exact ⟨trivial, hend (List.append_cancel_left heq)⟩
  | string r =>
    obtain ⟨r', hr, rfl⟩ := h
    simp only [scalarRaw, quoted, List.cons_append, List.append_assoc, List.cons.injEq, true_and] at heq
    obtain ⟨-, hplain, hrest⟩ := chars_written hr heq
    exact ⟨hplain, hend hrest⟩

theorem member_raw (h : Member m t) (hp : Spaces p) (hc : Separator c) (hc' : Separator c')
    (heq : t ++ c :: s = p ++ (memberRaw m ++ c' :: t')) : PlainMember m ∧ c = c' ∧ s = t' := by
  obtain ⟨w₁, r, w₂, w₃, tv, w₄, hw₁, hw₂, hw₃, hw₄, hname, hvalue, rfl⟩ := h
  simp only [memberRaw, quoted, List.append_assoc, List.cons_append, List.nil_append] at heq
  obtain ⟨-, -, heq₁⟩ := run_unique hw₁ hp (by simp [IsSpace]) (by simp [IsSpace]) heq
  obtain ⟨-, hplain, heq₂⟩ := chars_written hname heq₁
  obtain ⟨-, -, heq₃⟩ := run_unique (b := []) hw₂ (by simp) (by simp [IsSpace]) (by simp [IsSpace]) heq₂
  obtain ⟨x, u, rfl, hx⟩ := text_head hvalue
  obtain ⟨y, u', hraw, hy⟩ := raw_head m.2
  have hspace : Spaces [' '] := by simp [Spaces, IsSpace]
  rw [hraw] at heq₃
  obtain ⟨-, rfl, heq₄⟩ := run_unique (b := [' ']) hw₃ hspace hx hy heq₃
  obtain ⟨hvalue', hend⟩ := text_raw (v := m.2) (t := x :: u) hvalue hw₄ hc hc' (by rw [hraw]; simpa using heq₄)
  exact ⟨⟨hplain, hvalue'⟩, hend⟩

theorem members_ne_nil (h : Members ms t) : ms ≠ [] := by
  cases h <;> exact List.cons_ne_nil _ _

theorem membersRaw_cons (h : ms ≠ []) : membersRaw (m :: ms) = memberRaw m ++ ',' :: ' ' :: membersRaw ms := by
  obtain ⟨m', ms, rfl⟩ := List.exists_cons_of_ne_nil h
  rfl

theorem members_raw (h : Members ms t) (hp : Spaces p) (heq : t ++ '}' :: s = p ++ (membersRaw ms ++ '}' :: t')) :
    ∀ m ∈ ms, PlainMember m := by
  induction h generalizing p with
  | last hm =>
    intro m hmem
    obtain rfl := List.mem_singleton.mp hmem
    exact (member_raw hm hp (.inr rfl) (.inr rfl) heq).1
  | more hm hms ih =>
    rw [membersRaw_cons (members_ne_nil hms)] at heq
    simp only [List.append_assoc, List.cons_append] at heq
    obtain ⟨hplain, -, hrest⟩ := member_raw hm hp (.inl rfl) (.inl rfl) heq
    intro m hmem
    rcases List.mem_cons.mp hmem with rfl | hin
    · exact hplain
    · exact ih (p := [' ']) (by simp [Spaces, IsSpace]) hrest m hin

theorem member_of_plain (h : PlainMember m) (hp : Spaces p) : Member m (p ++ memberRaw m) := by
  have hvalue : Text m.2 (scalarRaw m.2) := by
    obtain ⟨-, hplain⟩ := h
    cases hm : m.2 with
    | number n => exact intText_number n
    | bool b => rfl
    | string s =>
      rw [hm] at hplain
      exact ⟨s, chars_plain hplain, rfl⟩
  refine ⟨p, m.1, [], [' '], scalarRaw m.2, [], hp, by simp [Spaces], by simp [Spaces, IsSpace], by simp [Spaces],
    chars_plain h.1, hvalue, ?_⟩
  simp [memberRaw]

theorem members_of_plain (hne : ms ≠ []) (h : ∀ m ∈ ms, PlainMember m) (hp : Spaces p) : Members ms (p ++ membersRaw ms) := by
  induction ms generalizing p with
  | nil => exact absurd rfl hne
  | cons m ms ih =>
    have hm := member_of_plain (h m List.mem_cons_self) hp
    by_cases hms : ms = []
    · subst hms
      exact .last hm
    · have hrest := ih (p := [' ']) hms (fun x hx => h x (List.mem_cons_of_mem _ hx)) (by simp [Spaces, IsSpace])
      rw [membersRaw_cons hms, ← List.append_assoc]
      exact .more hm hrest

/-- **Writing texts as they are gives the object meant exactly when none of them holds a character that is escaped.** -/
theorem object_raw_iff : Object ms (objectRaw ms) ↔ ∀ m ∈ ms, PlainMember m := by
  constructor
  · rintro ⟨w₁, body, w₂, hw₁, -, heq, hbody⟩
    obtain ⟨-, -, hinside⟩ := run_unique (a := []) (by simp) hw₁ (by simp [IsSpace]) (by simp [IsSpace]) heq
    obtain ⟨rfl, -⟩ | hms := hbody
    · simp
    · exact members_raw (p := []) hms (by simp [Spaces]) hinside.symm
  · intro h
    refine ⟨[], membersRaw ms, [], by simp [Spaces], by simp [Spaces], rfl, ?_⟩
    by_cases hms : ms = []
    · subst hms
      exact .inl ⟨rfl, by simp [Spaces, membersRaw]⟩
    · exact .inr (members_of_plain (p := []) hms h (by simp [Spaces]))

end

end Datara.Library.Json
