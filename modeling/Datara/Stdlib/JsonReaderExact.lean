import Datara.Stdlib.JsonReader

/-!
# What the validator accepts

The cursor and what is left of the bytes say the same (`At`), so each production of the validator goes as the scan of what it
reads (`Matches`, `Runs`); by induction on the fuel a value goes as `readValue` with the depth that is left. What the scan
predicts is then what the validator tells.
-/

namespace Datara.Stdlib.JsonReader

open Datara.Library Datara.Library.Json Scan

/-- The cursor stands before what is left. -/
structure At (b : List Nat) (p : Nat) (r : List Nat) : Prop where
  le : p ≤ b.length
  drop : b.drop p = r

def Fault.kind : Fault → Nat
  | .unexpectedByte => 1
  | .badLiteral => 2
  | .unterminated => 3
  | .controlByte => 4
  | .badEscape => 5
  | .badUnicode => 6
  | .digitExpected => 7
  | .leadingZero => 8
  | .fraction => 9
  | .exponent => 10
  | .colon => 11
  | .commaOrClose => 12
  | .depth => 13
  | .trailing => 14

/-- What a production returns is what a scan of the same bytes tells. -/
def Matches (b : List Nat) (rc : Int) : Outcome Fault Nat → Prop
  | .done x => ∃ q : Nat, rc = q ∧ At b q x
  | .stuck e x => ∃ q : Nat, rc = rFail (Fault.kind e) q ∧ At b q x

def Runs (b : List Nat) (m : Option Int) (o : Outcome Fault Nat) : Prop := ∃ rc, m = some rc ∧ Matches b rc o

variable {b r x : List Nat} {p q : Nat} {e : Fault} {o : Outcome Fault Nat} {rc : Int} {m : Option Int}

theorem rFail_neg (k p : Nat) (hk : 0 < k) : rFail k p < 0 := by
  rw [rFail]
  omega

theorem Fault.kind_pos (e : Fault) : 0 < Fault.kind e := by cases e <;> decide

theorem Fault.kind_le (e : Fault) : Fault.kind e ≤ 14 := by cases e <;> decide

/-! ## The cursor -/

theorem At.peek_nil (h : At b p []) : rPeek b p = -1 := by
  have := h.drop
  rw [List.drop_eq_nil_iff] at this
  rw [rPeek, List.getElem?_eq_none this]

theorem At.peek_cons {y : Nat} (h : At b p (y :: r)) : rPeek b p = y := by
  have hget : b[p]? = some y := by
    rw [← List.head?_drop, h.drop]
    rfl
  rw [rPeek, hget]

theorem At.next {y : Nat} (h : At b p (y :: r)) : At b (p + 1) r := by
  have hlen := congrArg List.length h.drop
  rw [List.length_drop, List.length_cons] at hlen
  refine ⟨by omega, ?_⟩
  rw [← List.drop_drop, h.drop]
  rfl

theorem At.peek_iff (h : At b p r) {c : Int → Prop} {s : Nat → Bool} (hend : ¬c (-1)) (hc : ∀ y : Nat, c y ↔ s y = true) :
    c (rPeek b p) ↔ aheadIs s r.head? = true := by
  cases r with
  | nil =>
    rw [h.peek_nil]
    exact iff_of_false hend Bool.false_ne_true
  | cons y r =>
    rw [h.peek_cons]
    exact hc y

theorem At.peek_eq (h : At b p r) (n : Nat) : rPeek b p = n ↔ aheadIs (· == n) r.head? = true :=
  h.peek_iff (c := fun z => z = n) (by omega) fun y => by
    simp only [beq_iff_eq]
    omega

theorem isDigitCode_iff (y : Nat) : IsDigitCode y ↔ isDigit y = true := by
  simp only [IsDigitCode, isDigit, Bool.and_eq_true, decide_eq_true_eq]
  omega

theorem At.peek_digit (h : At b p r) : IsDigitCode (rPeek b p) ↔ aheadIs isDigit r.head? = true :=
  h.peek_iff (by decide) isDigitCode_iff

theorem At.skipWs (h : At b p r) : At b (rSkipWs b p) (r.dropWhile isWs) := by
  have hstep (p : Nat) {r : List Nat} (h : At b p r) :
      (rPeek b p = 32 ∨ rPeek b p = 9 ∨ rPeek b p = 10 ∨ rPeek b p = 13) ↔ aheadIs isWs r.head? = true :=
    h.peek_iff (c := fun z => z = 32 ∨ z = 9 ∨ z = 10 ∨ z = 13) (by omega) fun y => by
      simp only [isWs, Bool.or_eq_true, beq_iff_eq]
      omega
  induction r generalizing p with
  | nil =>
    rw [rSkipWs, dif_neg (by rw [hstep p h]; exact Bool.false_ne_true)]
    exact h
  | cons y r ih =>
    rw [rSkipWs]
    by_cases hy : isWs y = true
    · rw [dif_pos ((hstep p h).mpr hy), List.dropWhile_cons_of_pos hy]
      exact ih h.next
    · rw [dif_neg (by rw [hstep p h]; exact hy), List.dropWhile_cons_of_neg hy]
      exact h

theorem At.digits (h : At b p r) : At b (rDigits b p) (r.dropWhile isDigit) := by
  induction r generalizing p with
  | nil =>
    rw [rDigits, dif_neg (by rw [h.peek_digit]; exact Bool.false_ne_true)]
    exact h
  | cons y r ih =>
    rw [rDigits]
    by_cases hy : isDigit y = true
    · rw [dif_pos (h.peek_digit.mpr hy), List.dropWhile_cons_of_pos hy]
      exact ih h.next
    · rw [dif_neg (by rw [h.peek_digit]; exact hy), List.dropWhile_cons_of_neg hy]
      exact h

theorem passWs_seq (P : Reader) (r : List Nat) : seq passWs P r = P (r.dropWhile isWs) := rfl

theorem dropWhile_again (s : Nat → Bool) (r : List Nat) : (r.dropWhile s).dropWhile s = r.dropWhile s := by
  induction r with
  | nil => rfl
  | cons y r ih =>
    by_cases hy : s y = true
    · rwa [List.dropWhile_cons_of_pos hy]
    · rw [List.dropWhile_cons_of_neg hy, List.dropWhile_cons_of_neg hy]

/-! ## Steps -/

theorem matches_done (h : At b q x) : Matches b (q : Int) (.done x) := ⟨q, rfl, h⟩

theorem matches_stuck {k : Nat} (hk : Fault.kind e = k) (h : At b q x) : Matches b (rFail k q) (.stuck e x) :=
  ⟨q, by rw [hk], h⟩

theorem Runs.of_matches (h : Matches b rc o) : Runs b (some rc) o := ⟨rc, rfl, h⟩

/-- A production goes on after another. -/
theorem Runs.bind {Q : Reader} {k : Nat → Option Int} (h : Runs b m o)
    (hk : ∀ q x, o = .done x → At b q x → Runs b (k q) (Q x)) :
    Runs b (m.bind fun v => if v < 0 then some v else k v.toNat) (andThen o Q) := by
  obtain ⟨rc, rfl, hrc⟩ := h
  cases o with
  | done x =>
    obtain ⟨q, rfl, hat⟩ := hrc
    rw [Option.bind_some, if_neg (by omega), Int.toNat_natCast]
    exact hk q x rfl hat
  | stuck e x =>
    obtain ⟨q, rfl, hat⟩ := hrc
    rw [Option.bind_some, if_pos (rFail_neg _ _ (Fault.kind_pos e))]
    exact ⟨_, rfl, q, rfl, hat⟩

variable {k : Option Int}

/-- A byte that is asked for is there, or the production fails. -/
theorem Runs.expect {Q : Reader} {n j : Nat} (hj : Fault.kind e = j) (h : At b p r)
    (hk : ∀ x, r = n :: x → At b (p + 1) x → Runs b k (Q x)) :
    Runs b (if rPeek b p ≠ n then some (rFail j p) else k) (seq (Scan.next (· == n) e) Q r) := by
  by_cases hn : rPeek b p = n
  · rw [if_neg (not_not.mpr hn)]
    have hhead := (h.peek_eq n).mp hn
    cases r with
    | nil => exact absurd hhead Bool.false_ne_true
    | cons y r =>
      rw [seq_of_done (next_of_pos (aheadIs_cons.mp hhead))]
      obtain rfl : y = n := beq_iff_eq.mp hhead
      exact hk r rfl h.next
  · rw [if_pos hn]
    refine .of_matches ?_
    cases r with
    | nil => exact matches_stuck hj h
    | cons y r =>
      rw [seq_of_stuck (next_of_neg (mt aheadIs_cons.mpr (mt (h.peek_eq n).mpr hn)))]
      exact matches_stuck hj h

/-- A byte that may be there. -/
theorem maybe_next (h : At b p r) (s : Nat → Bool) (c : Prop) [Decidable c] (hc : c ↔ aheadIs s r.head? = true) :
    ∃ x, maybe s (Scan.next s e) r = .done x ∧ At b (if c then p + 1 else p) x := by
  by_cases hpos : c
  · rw [if_pos hpos, maybe, choose_of_pos (hc.mp hpos)]
    cases r with
    | nil => exact absurd (hc.mp hpos) Bool.false_ne_true
    | cons y r => exact ⟨r, next_of_pos (aheadIs_cons.mp (hc.mp hpos)), h.next⟩
  · rw [if_neg hpos, maybe, choose_of_neg (mt hc.mpr hpos)]
    exact ⟨r, rfl, h⟩

/-! ## Words and numbers -/

theorem lit_matches (w : List Nat) (h : At b p r) : Matches b (rParseLit b p w) (readWord w r) := by
  induction w generalizing p r with
  | nil => exact matches_done h
  | cons n w ih =>
    obtain ⟨rc, hrc, hmatch⟩ := Runs.expect (e := .badLiteral) (Q := readWord w) (k := some (rParseLit b (p + 1) w)) (n := n)
      rfl h fun x _ hx => .of_matches (ih hx)
    have heq : rParseLit b p (n :: w) = rc := by
      rw [rParseLit]
      split at hrc
      · rw [if_pos ‹_›]
        exact Option.some.inj hrc
      · rw [if_neg ‹_›]
        exact Option.some.inj hrc
    rw [heq]
    exact hmatch

theorem readDigits_eq (e : Fault) (r : List Nat) :
    readDigits e r = if aheadIs isDigit r.head? = true then .done (r.dropWhile isDigit) else .stuck e r := by
  cases r with
  | nil => rfl
  | cons y r =>
    change _ = if isDigit y = true then _ else _
    by_cases hy : isDigit y = true
    · rw [if_pos hy, List.dropWhile_cons_of_pos hy, readDigits, seq_of_done (next_of_pos hy)]
      rfl
    · rw [if_neg hy, readDigits, seq_of_stuck (next_of_neg hy)]

theorem exponent_matches (h : At b p r) :
    Matches b (rParseExponent b p) (maybe (fun y => y == 101 || y == 69) readExp r) := by
  have hletter : (rPeek b p = 101 ∨ rPeek b p = 69) ↔ aheadIs (fun y => y == 101 || y == 69) r.head? = true :=
    h.peek_iff (c := fun z => z = 101 ∨ z = 69) (by omega) fun y => by simp only [Bool.or_eq_true, beq_iff_eq]; omega
  rw [rParseExponent, maybe]
  by_cases hc : rPeek b p = 101 ∨ rPeek b p = 69
  · rw [if_pos hc, choose_of_pos (hletter.mp hc)]
    cases r with
    | nil => exact absurd (hletter.mp hc) Bool.false_ne_true
    | cons y r =>
      have hsign : (rPeek b (p + 1) = 43 ∨ rPeek b (p + 1) = 45) ↔ aheadIs (fun y => y == 43 || y == 45) r.head? = true :=
        h.next.peek_iff (c := fun z => z = 43 ∨ z = 45) (by omega) fun y => by
          simp only [Bool.or_eq_true, beq_iff_eq]
          omega
      obtain ⟨x, hx, hat⟩ := maybe_next (e := .exponent) h.next _ _ hsign
      rw [readExp, seq_of_done (next_of_pos (aheadIs_cons.mp (hletter.mp hc))), seq_of_done hx, readDigits_eq]
      by_cases hd : aheadIs isDigit x.head? = true
      · rw [if_neg (not_not.mpr (hat.peek_digit.mpr hd)), if_pos hd]
        exact matches_done hat.digits
      · rw [if_pos (mt hat.peek_digit.mp hd), if_neg hd]
        exact matches_stuck rfl hat
  · rw [if_neg hc, choose_of_neg (mt hletter.mpr hc)]
    exact matches_done h

/-- A number from the point on. -/
def readFromPoint : Reader := seq (maybe (· == 46) readFrac) (maybe (fun y => y == 101 || y == 69) readExp)

theorem fraction_matches (h : At b p r) : Matches b (rParseFraction b p) (readFromPoint r) := by
  have hpoint := h.peek_eq 46
  rw [rParseFraction, readFromPoint]
  by_cases hc : rPeek b p = (46 : Nat)
  · rw [if_pos (by exact hc)]
    have hmaybe : maybe (· == 46) readFrac r = readFrac r := choose_of_pos (hpoint.mp hc)
    cases r with
    | nil => exact absurd (hpoint.mp hc) Bool.false_ne_true
    | cons y r =>
      have hfirst : (y == 46) = true := hpoint.mp hc
      have hfrac : readFrac (y :: r) = readDigits .fraction r :=
        seq_of_done (next_of_pos (p := (· == 46)) hfirst)
      rw [hfrac, readDigits_eq] at hmaybe
      by_cases hd : aheadIs isDigit r.head? = true
      · rw [if_pos hd] at hmaybe
        rw [if_neg (not_not.mpr (h.next.peek_digit.mpr hd)), seq_of_done hmaybe]
        exact exponent_matches h.next.digits
      · rw [if_neg hd] at hmaybe
        rw [if_pos (mt h.next.peek_digit.mp hd), seq_of_stuck hmaybe]
        exact matches_stuck rfl h.next
  · have hmaybe : maybe (· == 46) readFrac r = .done r := choose_of_neg (mt hpoint.mpr hc)
    rw [if_neg (by exact hc), seq_of_done hmaybe]
    exact exponent_matches h

theorem int_matches (h : At b p r) :
    Matches b (if ¬IsDigitCode (rPeek b p) then rFail 7 p
      else if rPeek b p = 48 then if IsDigitCode (rPeek b (p + 1)) then rFail 8 (p + 1) else rParseFraction b (p + 1)
      else rParseFraction b (rDigits b p)) (seq Json.readInt readFromPoint r) := by
  have hzero := h.peek_eq 48
  by_cases hd : aheadIs isDigit r.head? = true
  · rw [if_neg (not_not.mpr (h.peek_digit.mpr hd))]
    cases r with
    | nil => exact absurd hd Bool.false_ne_true
    | cons y r =>
      by_cases hc : rPeek b p = (48 : Nat)
      · rw [if_pos (by exact hc), Json.readInt]
        by_cases hnext : aheadIs isDigit r.head? = true
        · rw [if_pos (h.next.peek_digit.mpr hnext), seq_of_stuck (x := r) (e := .leadingZero)]
          · exact matches_stuck rfl h.next
          · rw [choose_of_pos (hzero.mp hc), seq_of_done (next_of_pos (aheadIs_cons.mp (hzero.mp hc))), choose_of_pos hnext]
            rfl
        · rw [if_neg (mt h.next.peek_digit.mp hnext), seq_of_done (x := r)]
          · exact fraction_matches h.next
          · rw [choose_of_pos (hzero.mp hc), seq_of_done (next_of_pos (aheadIs_cons.mp (hzero.mp hc))), choose_of_neg hnext]
            rfl
      · have hdigits := h.digits
        have hfirst : (isDigit y && y != 48) = true := by
          have : y ≠ 48 := fun hy => hc (by rw [h.peek_cons, hy])
          simp only [Bool.and_eq_true, bne_iff_ne]
          exact ⟨hd, this⟩
        rw [List.dropWhile_cons_of_pos (aheadIs_cons.mp hd)] at hdigits
        rw [if_neg (by exact hc), Json.readInt, seq_of_done (x := r.dropWhile isDigit)]
        · exact fraction_matches hdigits
        · rw [choose_of_neg (mt hzero.mpr hc), seq_of_done (next_of_pos (p := fun x => isDigit x && x != 48) hfirst)]
          rfl
  · rw [if_pos (mt h.peek_digit.mp hd), Json.readInt, seq_of_stuck (x := r) (e := .digitExpected)]
    · exact matches_stuck rfl h
    · have hnot : ¬aheadIs (· == 48) r.head? = true := by
        cases r with
        | nil => exact Bool.false_ne_true
        | cons y r =>
          intro hy
          obtain rfl : y = 48 := beq_iff_eq.mp hy
          exact hd rfl
      rw [choose_of_neg hnot]
      cases r with
      | nil => rfl
      | cons y r =>
        refine seq_of_stuck (next_of_neg fun hy => hd ?_)
        simp only [Bool.and_eq_true] at hy
        exact hy.1

theorem number_matches (h : At b p r) : Matches b (rParseNumber b p) (readNumber r) := by
  obtain ⟨x, hx, hat⟩ := maybe_next (e := .digitExpected) h _ _ (h.peek_eq 45)
  rw [readNumber, seq_of_done hx]
  exact int_matches hat

/-! ## Strings -/

/-- So many digits of a `\u`. -/
def readHexes : Nat → Reader
  | 0 => skip
  | k + 1 => seq readHex (readHexes k)

theorem isHexCode_iff (y : Nat) : IsHexCode y ↔ isHex y = true := by
  simp only [IsHexCode, isHex, isDigit, Bool.or_eq_true, Bool.and_eq_true, decide_eq_true_eq]
  omega

theorem At.peek_hex (h : At b p r) : IsHexCode (rPeek b p) ↔ aheadIs isHex r.head? = true :=
  h.peek_iff (by decide) isHexCode_iff

theorem hexes_matches (k : Nat) (h : At b p r) :
    match rHexDigits b p k with
    | .ok q => ∃ x, readHexes k r = .done x ∧ At b q x
    | .error rc => ∃ e x, readHexes k r = .stuck e x ∧ Matches b rc (.stuck e x) := by
  induction k generalizing p r with
  | zero => exact ⟨r, rfl, h⟩
  | succ k ih =>
    rw [rHexDigits, readHexes]
    by_cases hd : aheadIs isHex r.head? = true
    · rw [if_pos (h.peek_hex.mpr hd)]
      cases r with
      | nil => exact absurd hd Bool.false_ne_true
      | cons y r =>
        rw [readHex, seq_of_done (next_of_pos (aheadIs_cons.mp hd))]
        exact ih h.next
    · rw [if_neg (mt h.peek_hex.mp hd)]
      refine ⟨.badUnicode, r, ?_, matches_stuck rfl h⟩
      cases r with
      | nil => rfl
      | cons y r => exact seq_of_stuck (next_of_neg (mt aheadIs_cons.mpr hd))

theorem shrinks_hexes (k : Nat) : Shrinks (readHexes k) := by
  induction k with
  | zero => exact fun r => List.suffix_refl r
  | succ k ih => exact (Shrinks.next _ _).seq ih

/-- What is read of a string behind its first quote. -/
def readRest : Reader := seq (repeated notQuote readChar) (next (· == 34) .unterminated)

theorem readRest_of_char (h : notQuote r.head? = true) : readRest r = andThen (readChar r) readRest := by
  have hchar : Predicts readChar char fun _ => True := predicts_char _
  rw [readRest, seq, repeated_of_lt h fun x hx => hchar.lt_of_done starts_char hx, seq]
  cases readChar r <;> rfl

theorem isEscapeCode_iff (y : Nat) : ((y : Int) = 34 ∨ (y : Int) = 92 ∨ (y : Int) = 47 ∨ (y : Int) = 98 ∨ (y : Int) = 102 ∨
    (y : Int) = 110 ∨ (y : Int) = 114 ∨ (y : Int) = 116) ↔ isEscape y = true := by
  simp only [isEscape, Bool.or_eq_true, beq_iff_eq]
  omega

theorem readEscape_unicode (h : aheadIs (· == 117) r.head? = true) : ∃ x, r = 117 :: x ∧ readEscape r = readHexes 4 x := by
  cases r with
  | nil => exact absurd h Bool.false_ne_true
  | cons z x =>
    have hz : (z == 117) = true := h
    obtain rfl : z = 117 := beq_iff_eq.mp hz
    refine ⟨x, rfl, ?_⟩
    rw [readEscape, choose_of_pos h, seq_of_done (next_of_pos (p := (· == 117)) hz)]
    simp [readHexes, seq_skip]

/-- The loop behind a backslash, when it is right about what follows the escape. -/
theorem escape_matches (h : At b p r)
    (hloop : ∀ q x, At b q x → x.length < r.length → Matches b (rStringLoop b q) (readRest x)) :
    Matches b (if rPeek b p = 117 then
        match _h : rHexDigits b (p + 1) 4 with
        | .ok q => rStringLoop b q
        | .error rc => rc
      else if rPeek b p = 34 ∨ rPeek b p = 92 ∨ rPeek b p = 47 ∨ rPeek b p = 98 ∨ rPeek b p = 102 ∨ rPeek b p = 110 ∨
          rPeek b p = 114 ∨ rPeek b p = 116 then rStringLoop b (p + 1)
      else rFail 5 p) (andThen (readEscape r) readRest) := by
  have hu := h.peek_eq 117
  have hletter := h.peek_iff (c := fun z => z = 34 ∨ z = 92 ∨ z = 47 ∨ z = 98 ∨ z = 102 ∨ z = 110 ∨ z = 114 ∨ z = 116)
    (by omega) isEscapeCode_iff
  by_cases hc : rPeek b p = (117 : Nat)
  · rw [if_pos (by exact hc)]
    obtain ⟨x, rfl, hread⟩ := readEscape_unicode (hu.mp hc)
    rw [hread]
    have hdigits := hexes_matches 4 h.next
    split
    case h_1 q hq =>
      rw [hq] at hdigits
      obtain ⟨y, hy, hat⟩ := hdigits
      have hlen := (shrinks_hexes 4 x).length_le
      rw [hy] at hlen ⊢
      exact hloop q y hat (Nat.lt_succ_of_le hlen)
    case h_2 rc hrc =>
      rw [hrc] at hdigits
      obtain ⟨e, y, hy, hmatch⟩ := hdigits
      rw [hy]
      exact hmatch
  · rw [if_neg (by exact hc)]
    have hread : readEscape r = next isEscape .badEscape r := choose_of_neg (mt hu.mpr hc)
    rw [hread]
    by_cases hd : aheadIs isEscape r.head? = true
    · rw [if_pos (hletter.mpr hd)]
      cases r with
      | nil => exact absurd hd Bool.false_ne_true
      | cons z r =>
        rw [next_of_pos (aheadIs_cons.mp hd)]
        exact hloop _ r h.next (Nat.lt_succ_self _)
    · rw [if_neg (mt hletter.mp hd)]
      cases r with
      | nil => exact matches_stuck rfl h
      | cons z r =>
        rw [next_of_neg (mt aheadIs_cons.mpr hd)]
        exact matches_stuck rfl h

theorem string_loop_matches (h : At b p r) : Matches b (rStringLoop b p) (readRest r) := by
  induction hn : r.length using Nat.strongRecOn generalizing p r with
  | ind n ih =>
    rw [rStringLoop]
    cases r with
    | nil =>
      have hpeek := h.peek_nil
      rw [if_neg (by omega), dif_pos (by omega), readRest_of_char rfl]
      exact matches_stuck rfl h
    | cons y r =>
      have hpeek := h.peek_cons
      have hlen : r.length < n := by
        rw [← hn]
        exact Nat.lt_succ_self _
      by_cases hquote : y = 34
      · rw [if_pos (by omega), readRest, seq_of_done (x := y :: r)]
        · rw [next_of_pos (by simp [hquote])]
          exact matches_done h.next
        · exact repeated_of_stop (by simp [notQuote, hquote])
      · have hnot : notQuote (y :: r).head? = true := by simp [notQuote, hquote]
        rw [if_neg (by omega), dif_neg (by omega), readRest_of_char hnot]
        by_cases hcontrol : y < 32
        · have hread : readChar (y :: r) = .stuck .controlByte (y :: r) := by
            have hslash : ¬aheadIs (· == 92) (y :: r).head? = true := fun hy => by
              obtain rfl : y = 92 := beq_iff_eq.mp hy
              omega
            have hlow : aheadIs (· < 32) (y :: r).head? = true := by simpa [aheadIs] using hcontrol
            rw [readChar, choose_of_neg hslash, readUnescaped, choose_of_pos (by rfl), choose_of_pos hlow]
            rfl
          rw [if_pos (by omega), hread]
          exact matches_stuck rfl h
        · rw [if_neg (by omega)]
          by_cases hslash : y = 92
          · rw [if_pos (by omega)]
            have hread : readChar (y :: r) = readEscape r := by
              rw [readChar, choose_of_pos (by simp [aheadIs, hslash]),
                seq_of_done (next_of_pos (p := (· == 92)) (by simp [hslash]))]
            rw [hread]
            exact escape_matches h.next fun q x hq hx => ih x.length (by omega) hq rfl
          · have hread : readChar (y :: r) = .done r := by
              have hchar : isUnescaped y = true := by
                simp [isUnescaped, hquote, hslash]
                omega
              have hlow : ¬aheadIs (· < 32) (y :: r).head? = true := by simpa [aheadIs] using hcontrol
              rw [readChar, choose_of_neg (by simpa [aheadIs] using hslash), readUnescaped, choose_of_pos (by rfl),
                choose_of_neg hlow, next_of_pos hchar]
            rw [if_neg (by omega), hread]
            exact ih r.length hlen h.next rfl

theorem string_matches (h : At b p r) : Matches b (rParseString b p) (readString r) := by
  obtain ⟨rc, hrc, hmatch⟩ := Runs.expect (e := .unexpectedByte) (Q := readRest) (k := some (rStringLoop b (p + 1))) (n := 34)
    rfl h fun x _ hx => .of_matches (string_loop_matches hx)
  have heq : rParseString b p = rc := by
    rw [rParseString]
    split at hrc
    · rw [if_pos ‹_›]
      exact Option.some.inj hrc
    · rw [if_neg ‹_›]
      exact Option.some.inj hrc
  rw [heq]
  exact hmatch

/-! ## Values -/

theorem shrinks_value (d : Nat) : Shrinks (readValue d) := (predicts_value d).suffix

theorem shrinks_pair (d : Nat) : Shrinks (readPair (readValue d)) :=
  (predicts_string fun _ => True).suffix.seq
    ((Shrinks.dropAll _).seq ((Shrinks.next _ _).seq ((Shrinks.dropAll _).seq ((shrinks_value d).seq (.dropAll _)))))

/-- What is read behind an item. -/
def readTail (item : Reader) (close : Nat) : Reader :=
  seq (repeated (aheadIs (· == 44)) (seq (next (· == 44) .commaOrClose) (seq passWs item))) (next (· == close) .commaOrClose)

variable {item : Reader} {close : Nat}

theorem readTail_of_comma (hitem : Shrinks item) :
    readTail item close (44 :: r) = seq passWs (readItems item close) r := by
  have hlt : ∀ x, seq (next (· == 44) .commaOrClose) (seq passWs item) (44 :: r) = .done x → x.length < (44 :: r).length := by
    intro x hx
    rw [seq_of_done (next_of_pos (p := (· == 44)) rfl)] at hx
    have := ((Shrinks.dropAll isWs).seq hitem r).length_le
    rw [passWs] at hx
    rw [hx] at this
    exact Nat.lt_succ_of_le this
  have hagain := repeated_of_lt (c := aheadIs (· == 44)) (A := seq (next (· == 44) .commaOrClose) (seq passWs item))
    (r := 44 :: r) rfl hlt
  have hcomma : seq (next (· == 44) .commaOrClose) (seq passWs item) (44 :: r) = seq passWs item r :=
    seq_of_done (next_of_pos (p := (· == 44)) rfl)
  rw [readTail, seq, hagain, seq, hcomma, readItems]
  simp only [seq, passWs, dropAll, andThen]
  cases item (r.dropWhile isWs) <;> rfl

theorem readTail_of_other (h : ¬aheadIs (· == 44) r.head? = true) :
    readTail item close r = next (· == close) .commaOrClose r := by
  have : aheadIs (· == 44) r.head? = false := Bool.eq_false_iff.mpr h
  rw [readTail, seq_of_done (repeated_of_stop this)]

/-- The end of a round of either loop. -/
theorem tail_runs (hitem : Shrinks item) (h : At b p r)
    (hk : ∀ x, r = 44 :: x → At b (p + 1) x → Runs b k (seq passWs (readItems item close) x)) :
    Runs b (if rPeek b p = 44 then k else if rPeek b p = close then some ((p + 1 : Nat) : Int) else some (rFail 12 p))
      (readTail item close r) := by
  have hcomma := h.peek_eq 44
  by_cases hc : rPeek b p = (44 : Nat)
  · rw [if_pos (by exact hc)]
    have hhead := hcomma.mp hc
    cases r with
    | nil => exact absurd hhead Bool.false_ne_true
    | cons y r =>
      obtain rfl : y = 44 := beq_iff_eq.mp (show (y == 44) = true from hhead)
      rw [readTail_of_comma hitem]
      exact hk r rfl h.next
  · rw [if_neg (by exact hc), readTail_of_other (mt hcomma.mpr hc)]
    have hclose := h.peek_eq close
    by_cases hd : rPeek b p = (close : Nat)
    · rw [if_pos hd]
      have hhead := hclose.mp hd
      cases r with
      | nil => exact absurd hhead Bool.false_ne_true
      | cons y r =>
        rw [next_of_pos (aheadIs_cons.mp hhead)]
        exact .of_matches (matches_done h.next)
    · rw [if_neg hd]
      refine .of_matches ?_
      cases r with
      | nil => exact matches_stuck rfl h
      | cons y r =>
        rw [next_of_neg (mt aheadIs_cons.mpr (mt hclose.mpr hd))]
        exact matches_stuck rfl h

/-- The productions of values as fuel goes: the bounds say how much of it each takes for what is left. -/
structure Reads (b : List Nat) (fuel : Nat) : Prop where
  value : ∀ p r depth, At b p r → 3 * r.length + 3 ≤ fuel → depth ≤ 129 →
    Runs b (rParseValue b fuel p depth) (readValue (129 - depth) r)
  object : ∀ p r depth, At b p (123 :: r) → 3 * r.length + 5 ≤ fuel → depth ≤ 128 →
    Runs b (rParseObject b fuel p depth) (readContainer 123 125 (readPair (readValue (128 - depth))) (123 :: r))
  array : ∀ p r depth, At b p (91 :: r) → 3 * r.length + 5 ≤ fuel → depth ≤ 128 →
    Runs b (rParseArray b fuel p depth) (readContainer 91 93 (seq (readValue (128 - depth)) passWs) (91 :: r))
  members : ∀ p r depth, At b p r → 3 * r.length + 4 ≤ fuel → depth ≤ 128 →
    Runs b (rMembers b fuel p depth) (seq passWs (readItems (readPair (readValue (128 - depth))) 125) r)
  elements : ∀ p r depth, At b p r → 3 * r.length + 4 ≤ fuel → depth ≤ 128 →
    Runs b (rElements b fuel p depth) (seq passWs (readItems (seq (readValue (128 - depth)) passWs) 93) r)

/-- Which way a value goes is told by its first byte, in the code as in the scan. -/
theorem value_runs {O A : Reader} {mO mA : Option Int} (h : At b p r)
    (hO : ∀ x, r = 123 :: x → Runs b mO (O r)) (hA : ∀ x, r = 91 :: x → Runs b mA (A r)) :
    Runs b (if rPeek b p = 123 then mO
      else if rPeek b p = 91 then mA
      else if rPeek b p = 34 then some (rParseString b p)
      else if rPeek b p = 45 ∨ IsDigitCode (rPeek b p) then some (rParseNumber b p)
      else if rPeek b p = 116 then some (rParseLit b p wordTrue)
      else if rPeek b p = 102 then some (rParseLit b p wordFalse)
      else if rPeek b p = 110 then some (rParseLit b p wordNull)
      else some (rFail 1 p)) (readBy O A r) := by
  have hcons (n : Nat) (hn : aheadIs (· == n) r.head? = true) : ∃ x, r = n :: x := by
    cases r with
    | nil => exact absurd hn Bool.false_ne_true
    | cons y r => exact ⟨r, by rw [beq_iff_eq.mp (show (y == n) = true from hn)]⟩
  have hnumber : (rPeek b p = 45 ∨ IsDigitCode (rPeek b p)) ↔ aheadIs (fun y => y == 45 || isDigit y) r.head? = true :=
    h.peek_iff (c := fun z => z = 45 ∨ IsDigitCode z) (by decide) fun y => by
      rw [isDigitCode_iff]
      simp only [Bool.or_eq_true, beq_iff_eq]
      exact or_congr (by omega) Iff.rfl
  -- one test of the code after the other
  have hstep {c : Prop} [Decidable c] {s : Nat → Bool} {m m' : Option Int} {S T : Reader}
      (hc : c ↔ aheadIs s r.head? = true) (hpos : c → Runs b m (S r)) (hneg : Runs b m' (T r)) :
      Runs b (if c then m else m') (choose (aheadIs s) S T r) := by
    by_cases hd : c
    · rw [if_pos hd, choose_of_pos (hc.mp hd)]
      exact hpos hd
    · rw [if_neg hd, choose_of_neg (mt hc.mpr hd)]
      exact hneg
  refine hstep (h.peek_eq 123) (fun hc => ?_) (hstep (h.peek_eq 91) (fun hc => ?_)
    (hstep (h.peek_eq 34) (fun _ => .of_matches (string_matches h)) (hstep hnumber (fun _ => .of_matches (number_matches h))
      (hstep (h.peek_eq 116) (fun _ => .of_matches (lit_matches _ h)) (hstep (h.peek_eq 102)
        (fun _ => .of_matches (lit_matches _ h)) (hstep (h.peek_eq 110) (fun _ => .of_matches (lit_matches _ h))
          (.of_matches (matches_stuck rfl h))))))))
  · obtain ⟨x, hx⟩ := hcons 123 ((h.peek_eq 123).mp hc)
    exact hO x hx
  · obtain ⟨x, hx⟩ := hcons 91 ((h.peek_eq 91).mp hc)
    exact hA x hx

/-- What stands between the brackets: nothing, or what the loop reads. -/
theorem container_runs {start close : Nat} (h : At b p (start :: r))
    (hk : ∀ x, At b (rSkipWs b (p + 1)) x → x.length ≤ r.length → Runs b k (seq passWs (readItems item close) x)) :
    Runs b (if rPeek b (rSkipWs b (p + 1)) = close then some ((rSkipWs b (p + 1) + 1 : Nat) : Int) else k)
      (readContainer start close item (start :: r)) := by
  have hat := h.next.skipWs
  have hlen := List.length_dropWhile_le isWs r
  have hread : readContainer start close item (start :: r) =
      choose (aheadIs (· == close)) (next (· == close) .commaOrClose) (readItems item close) (r.dropWhile isWs) := by
    rw [readContainer, seq_of_done (next_of_pos (p := (· == start)) (beq_self_eq_true start))]
    rfl
  have hagain : (r.dropWhile isWs).dropWhile isWs = r.dropWhile isWs := dropWhile_again isWs r
  have hrest := hk _ hat hlen
  rw [passWs_seq, hagain] at hrest
  rw [hread]
  have hclose := hat.peek_eq close
  by_cases hc : rPeek b (rSkipWs b (p + 1)) = close
  · rw [if_pos hc, choose_of_pos (hclose.mp hc)]
    have hhead := hclose.mp hc
    cases hr : r.dropWhile isWs with
    | nil =>
      rw [hr] at hhead
      exact absurd hhead Bool.false_ne_true
    | cons y x =>
      rw [hr] at hhead hat
      rw [next_of_pos (aheadIs_cons.mp hhead)]
      exact .of_matches (matches_done hat.next)
  · rw [if_neg hc, choose_of_neg (mt hclose.mpr hc)]
    exact hrest

section
variable {fuel : Nat}

theorem Reads.value_succ (ih : Reads b fuel) (p : Nat) (r : List Nat) (depth : Nat) (h : At b p r)
    (hfuel : 3 * r.length + 3 ≤ fuel + 1) (hdepth : depth ≤ 129) :
    Runs b (rParseValue b (fuel + 1) p depth) (readValue (129 - depth) r) := by
  rw [rParseValue]
  by_cases hmax : depth = 129
  · subst hmax
    have hfails : Runs b (some (rFail 13 p)) ((fail .depth : Reader) r) := .of_matches (matches_stuck rfl h)
    cases fuel with
    | zero => omega
    | succ fuel =>
      refine value_runs h (fun _ _ => ?_) (fun _ _ => ?_)
      · rw [rParseObject, if_pos (by decide)]
        exact hfails
      · rw [rParseArray, if_pos (by decide)]
        exact hfails
  · have hd : 129 - depth = (128 - depth) + 1 := by omega
    rw [hd, readValue]
    refine value_runs h ?_ ?_
    · rintro x rfl
      rw [List.length_cons] at hfuel
      exact ih.object p x depth h (by omega) (by omega)
    · rintro x rfl
      rw [List.length_cons] at hfuel
      exact ih.array p x depth h (by omega) (by omega)

theorem Reads.object_succ (ih : Reads b fuel) (p : Nat) (r : List Nat) (depth : Nat) (h : At b p (123 :: r))
    (hfuel : 3 * r.length + 5 ≤ fuel + 1) (hdepth : depth ≤ 128) :
    Runs b (rParseObject b (fuel + 1) p depth) (readContainer 123 125 (readPair (readValue (128 - depth))) (123 :: r)) := by
  rw [rParseObject, if_neg (by omega)]
  exact container_runs h fun x hx hlen => ih.members _ x depth hx (by omega) hdepth

theorem Reads.array_succ (ih : Reads b fuel) (p : Nat) (r : List Nat) (depth : Nat) (h : At b p (91 :: r))
    (hfuel : 3 * r.length + 5 ≤ fuel + 1) (hdepth : depth ≤ 128) :
    Runs b (rParseArray b (fuel + 1) p depth) (readContainer 91 93 (seq (readValue (128 - depth)) passWs) (91 :: r)) := by
  rw [rParseArray, if_neg (by omega)]
  exact container_runs h fun x hx hlen => ih.elements _ x depth hx (by omega) hdepth

theorem Reads.elements_succ (ih : Reads b fuel) (p : Nat) (r : List Nat) (depth : Nat) (h : At b p r)
    (hfuel : 3 * r.length + 4 ≤ fuel + 1) (hdepth : depth ≤ 128) :
    Runs b (rElements b (fuel + 1) p depth) (seq passWs (readItems (seq (readValue (128 - depth)) passWs) 93) r) := by
  have hlen := List.length_dropWhile_le isWs r
  have hvalue := ih.value _ _ (depth + 1) h.skipWs (by omega) (by omega)
  have hread : seq passWs (readItems (seq (readValue (128 - depth)) passWs) 93) r =
      andThen (readValue (128 - depth) (r.dropWhile isWs))
        (seq passWs (readTail (seq (readValue (128 - depth)) passWs) 93)) := by
    rw [readItems, seq_assoc]
    rfl
  rw [show 129 - (depth + 1) = 128 - depth by omega] at hvalue
  rw [rElements, hread]
  refine Runs.bind (k := fun v => if rPeek b (rSkipWs b v) = 44 then rElements b fuel (rSkipWs b v + 1) depth
    else if rPeek b (rSkipWs b v) = 93 then some ((rSkipWs b v + 1 : Nat) : Int) else some (rFail 12 (rSkipWs b v)))
    hvalue fun q x hx hat => ?_
  rw [passWs_seq]
  have hshort : x.length ≤ (r.dropWhile isWs).length := by
    have := (shrinks_value (128 - depth) (r.dropWhile isWs)).length_le
    rwa [hx] at this
  refine tail_runs ((shrinks_value _).seq (.dropAll _)) hat.skipWs fun y hy hcomma => ?_
  have htail := List.length_dropWhile_le isWs x
  rw [hy, List.length_cons] at htail
  exact ih.elements _ y depth hcomma (by omega) hdepth

theorem Reads.colon_succ (ih : Reads b fuel) (p : Nat) (r : List Nat) (depth : Nat) (h : At b p r)
    (hfuel : 3 * r.length + 5 ≤ fuel + 1) (hdepth : depth ≤ 128) :
    Runs b (if rPeek b p ≠ 58 then some (rFail 11 p)
      else (rParseValue b fuel (rSkipWs b (p + 1)) (depth + 1)).bind fun v =>
        if v < 0 then some v
        else if rPeek b (rSkipWs b v.toNat) = 44 then rMembers b fuel (rSkipWs b v.toNat + 1) depth
        else if rPeek b (rSkipWs b v.toNat) = 125 then some ((rSkipWs b v.toNat + 1 : Nat) : Int)
        else some (rFail 12 (rSkipWs b v.toNat)))
      (seq (next (· == 58) .colon) (seq passWs (seq (readValue (128 - depth)) (seq passWs
        (readTail (readPair (readValue (128 - depth))) 125)))) r) := by
  refine Runs.expect (n := 58) rfl h fun x hx hat => ?_
  subst hx
  rw [List.length_cons] at hfuel
  have hlen := List.length_dropWhile_le isWs x
  have hvalue := ih.value _ _ (depth + 1) hat.skipWs (by omega) (by omega)
  rw [show 129 - (depth + 1) = 128 - depth by omega] at hvalue
  rw [passWs_seq]
  refine Runs.bind (k := fun v => if rPeek b (rSkipWs b v) = 44 then rMembers b fuel (rSkipWs b v + 1) depth
    else if rPeek b (rSkipWs b v) = 125 then some ((rSkipWs b v + 1 : Nat) : Int) else some (rFail 12 (rSkipWs b v)))
    hvalue fun q y hy hq => ?_
  rw [passWs_seq]
  have hshort : y.length ≤ (x.dropWhile isWs).length := by
    have := (shrinks_value (128 - depth) (x.dropWhile isWs)).length_le
    rwa [hy] at this
  refine tail_runs (shrinks_pair _) hq.skipWs fun z hz hcomma => ?_
  have htail := List.length_dropWhile_le isWs y
  rw [hz, List.length_cons] at htail
  exact ih.members _ z depth hcomma (by omega) hdepth

theorem Reads.members_succ (ih : Reads b fuel) (p : Nat) (r : List Nat) (depth : Nat) (h : At b p r)
    (hfuel : 3 * r.length + 4 ≤ fuel + 1) (hdepth : depth ≤ 128) :
    Runs b (rMembers b (fuel + 1) p depth) (seq passWs (readItems (readPair (readValue (128 - depth))) 125) r) := by
  have hlen := List.length_dropWhile_le isWs r
  have hread : seq passWs (readItems (readPair (readValue (128 - depth))) 125) r =
      andThen (readString (r.dropWhile isWs)) (seq passWs (seq (next (· == 58) .colon) (seq passWs
        (seq (readValue (128 - depth)) (seq passWs (readTail (readPair (readValue (128 - depth))) 125)))))) := by
    rw [readItems, ← readTail]
    conv_lhs => rw [readPair]
    simp only [seq_assoc]
    rfl
  rw [rMembers, hread]
  refine Runs.bind (m := some (rParseString b (rSkipWs b p))) (k := fun k =>
      if rPeek b (rSkipWs b k) ≠ 58 then some (rFail 11 (rSkipWs b k))
      else (rParseValue b fuel (rSkipWs b (rSkipWs b k + 1)) (depth + 1)).bind fun v =>
        if v < 0 then some v
        else if rPeek b (rSkipWs b v.toNat) = 44 then rMembers b fuel (rSkipWs b v.toNat + 1) depth
        else if rPeek b (rSkipWs b v.toNat) = 125 then some ((rSkipWs b v.toNat + 1 : Nat) : Int)
        else some (rFail 12 (rSkipWs b v.toNat))) (.of_matches (string_matches h.skipWs)) fun q x hx hat => ?_
  have hshort : x.length < (r.dropWhile isWs).length :=
    (predicts_string fun _ => True).lt_of_done (starts_is 34).mul hx
  have htail := List.length_dropWhile_le isWs x
  rw [passWs_seq]
  exact ih.colon_succ _ _ depth hat.skipWs (by omega) hdepth

theorem reads (b : List Nat) (fuel : Nat) : Reads b fuel := by
  induction fuel with
  | zero =>
    refine ⟨fun _ _ _ _ h => ?_, fun _ _ _ _ h => ?_, fun _ _ _ _ h => ?_, fun _ _ _ _ h => ?_, fun _ _ _ _ h => ?_⟩ <;>
      omega
  | succ fuel ih => exact ⟨ih.value_succ, ih.object_succ, ih.array_succ, ih.members_succ, ih.elements_succ⟩

end

/-! ## The whole text -/

theorem validate_runs {fuel : Nat} (hfuel : 3 * b.length + 3 ≤ fuel) : Runs b (jsonValidate b fuel) (readAll 129 b) := by
  have hstart : At b 0 b := ⟨Nat.zero_le _, rfl⟩
  have hvalue := (reads b fuel).value 0 b 0 hstart hfuel (by decide)
  refine Runs.bind (k := fun v =>
      if rSkipWs b v ≠ b.length then some (-(14000000000 + rSkipWs b v)) else some (rSkipWs b v : Int))
    hvalue fun q x hx hat => ?_
  have hend := hat.skipWs
  have hlen := congrArg List.length hend.drop
  rw [List.length_drop] at hlen
  have hle := hend.le
  rw [passWs_seq]
  by_cases hstop : rSkipWs b q = b.length
  · have hnil : x.dropWhile isWs = [] := List.eq_nil_of_length_eq_zero (by omega)
    rw [if_neg (not_not.mpr hstop), hnil]
    rw [hnil] at hend
    exact .of_matches (matches_done hend)
  · obtain ⟨y, u, hu⟩ := List.exists_cons_of_ne_nil (l := x.dropWhile isWs) fun hnil => by
      rw [hnil, List.length_nil] at hlen
      omega
    rw [hu] at hend ⊢
    rw [if_pos hstop]
    exact .of_matches ⟨_, by simp only [rFail, Fault.kind]; omega, hend⟩

theorem jsonErrorKind_rFail {k q : Nat} (hk : 0 < k) (hq : q < 1000000000) : jsonErrorKind (rFail k q) = k := by
  have hneg := rFail_neg k q hk
  rw [jsonErrorKind, if_pos hneg, Int.tdiv_eq_ediv_of_nonneg (by omega), rFail]
  omega

theorem jsonErrorPos_rFail {k q : Nat} (hk : 0 < k) (hq : q < 1000000000) : jsonErrorPos (rFail k q) = q := by
  have hneg := rFail_neg k q hk
  rw [jsonErrorPos, if_pos hneg, Int.tmod_eq_emod_of_nonneg (by omega), rFail]
  omega

/-- What is told of a text is right: its length, or what is wrong and the first place where no text goes on like it. -/
def Exact (b : List Nat) (rc : Int) : Prop :=
  (rc = b.length ↔ b ∈ Rfc.text 129) ∧
    (b ∉ Rfc.text 129 → rc < 0 ∧ (1 ≤ jsonErrorKind rc ∧ jsonErrorKind rc ≤ 14) ∧
      (0 ≤ jsonErrorPos rc ∧ jsonErrorPos rc ≤ b.length) ∧
      (jsonErrorPos rc < b.length → ∀ t ∈ Rfc.text 129, ¬b.take ((jsonErrorPos rc).toNat + 1) <+: t))

/-- The validator stops with a code that is right. -/
def Validates (b : List Nat) : Prop := ∃ rc least, (∀ fuel ≥ least, jsonValidate b fuel = some rc) ∧ Exact b rc

variable {t : List Nat}

theorem tight_of_text {d : Nat} (ht : t ∈ Rfc.text d) (hhead : ∀ y ∈ t.head?, isWs y = false) :
    t ∈ Tight.value d * ws := by
  rw [text_eq] at ht
  obtain ⟨w, hw, u, hu, rfl⟩ := Language.mem_mul.mp ht
  cases w with
  | nil => exact hu
  | cons y w =>
    have hy := mem_kstar_one.mp hw y List.mem_cons_self
    rw [hhead y rfl] at hy
    exact absurd hy Bool.false_ne_true

theorem text_of_tight {d : Nat} (ht : t ∈ Tight.value d * ws) : t ∈ Rfc.text d := by
  rw [text_eq]
  exact Language.append_mem_mul (Language.nil_mem_kstar _) ht

theorem sameUpTo_of_take {n : Nat} (hn : n < b.length) (h : b.take (n + 1) <+: t) : SameUpTo n b t := by
  intro i hi
  obtain ⟨u, rfl⟩ := h
  rw [List.getElem?_append_left (by rw [List.length_take]; omega), List.getElem?_take_of_lt (by omega)]

theorem exact_of_stuck {k : Fault} {q : Nat} (hlen : b.length < 1000000000) (hhead : ∀ y ∈ b.head?, isWs y = false)
    (hscan : readAll 129 b = .stuck k x) (hat : At b q x) : Exact b (rFail (Fault.kind k) q) := by
  have hle := hat.le
  have hneg := rFail_neg (Fault.kind k) q (Fault.kind_pos k)
  have hkind := jsonErrorKind_rFail (Fault.kind_pos k) (show q < 1000000000 by omega)
  have hpos := jsonErrorPos_rFail (Fault.kind_pos k) (show q < 1000000000 by omega)
  have hpassed : passed (readAll 129) b = q := by
    have hdrop := congrArg List.length hat.drop
    rw [List.length_drop] at hdrop
    rw [passed, hscan, Outcome.rest]
    omega
  have hno (t : List Nat) (ht : t ∈ Rfc.text 129) (hthead : t.head? = b.head?) : ¬SameUpTo q b t := by
    intro hsame
    have htight := tight_of_text ht fun y hy => hhead y (hthead ▸ hy)
    have hstuck : ¬SameUpTo (passed (readAll 129) b) b (t ++ []) := (predicts_all 129).no_text hscan htight rfl
    rw [hpassed, List.append_nil] at hstuck
    exact hstuck hsame
  have hnot : b ∉ Rfc.text 129 := fun hb => hno b hb rfl fun _ _ => rfl
  refine ⟨iff_of_false (by omega) hnot, fun _ => ⟨hneg, ?_, ?_, ?_⟩⟩
  · have := Fault.kind_pos k
    have := Fault.kind_le k
    omega
  · omega
  · intro hlt t ht htake
    rw [hpos] at hlt htake
    have hsame := sameUpTo_of_take (by omega) htake
    exact hno t ht hsame.head.symm hsame

theorem validates_of_head (hlen : b.length < 1000000000) (hhead : ∀ y ∈ b.head?, isWs y = false) : Validates b := by
  have hrun (fuel : Nat) (hfuel : fuel ≥ 3 * b.length + 3) := validate_runs (b := b) hfuel
  cases hscan : readAll 129 b with
  | done x =>
    rw [hscan] at hrun
    obtain rfl := readAll_done hscan
    refine ⟨b.length, 3 * b.length + 3, fun fuel hfuel => ?_, ?_⟩
    · obtain ⟨rc, hrc, q, rfl, hat⟩ := hrun fuel hfuel
      have := List.drop_eq_nil_iff.mp hat.drop
      have := hat.le
      rw [hrc, show q = b.length by omega]
    · obtain ⟨t, ht, heq⟩ := (predicts_all 129).sound b [] hscan
      have hmem : b ∈ Rfc.text 129 := by
        rw [heq, List.append_nil]
        exact text_of_tight ht
      exact ⟨iff_of_true rfl hmem, fun hnot => absurd hmem hnot⟩
  | stuck k x =>
    rw [hscan] at hrun
    obtain ⟨rc, hrc, q, rfl, hat⟩ := hrun _ (Nat.le_refl _)
    refine ⟨_, 3 * b.length + 3, fun fuel hfuel => ?_, exact_of_stuck hlen hhead hscan hat⟩
    obtain ⟨rc', hrc', q', rfl, hat'⟩ := hrun fuel hfuel
    have hdrop := congrArg List.length hat.drop
    have hdrop' := congrArg List.length hat'.drop
    have := hat.le
    have := hat'.le
    rw [List.length_drop] at hdrop hdrop'
    rw [hrc', show q' = q by omega]

/-- White space is no first byte of a value, and it is not passed before the first one. -/
theorem leading_ws {y fuel : Nat} (hy : isWs y = true) : jsonValidate (y :: r) (fuel + 1) = some (rFail 1 0) := by
  have hpeek : rPeek (y :: r) 0 = y := rfl
  have hvalue : rParseValue (y :: r) (fuel + 1) 0 0 = some (rFail 1 0) := by
    simp only [isWs, Bool.or_eq_true, beq_iff_eq] at hy
    have hdigit : ¬IsDigitCode y := by
      rw [IsDigitCode]
      omega
    rw [rParseValue, hpeek, if_neg (by omega), if_neg (by omega), if_neg (by omega), if_neg (not_or.mpr ⟨by omega, hdigit⟩),
      if_neg (by omega), if_neg (by omega), if_neg (by omega)]
  simp [jsonValidate, hvalue, if_pos (rFail_neg 1 0 Nat.one_pos)]

theorem not_validates_of_ws {y : Nat} (hy : isWs y = true) : ¬Validates (y :: r) := by
  rintro ⟨rc, least, hrun, hiff, hrest⟩
  have hrc : rFail 1 0 = rc := Option.some.inj ((leading_ws hy).symm.trans (hrun (least + 1) (Nat.le_succ least)))
  subst hrc
  have hneg := rFail_neg 1 0 Nat.one_pos
  have hpos := jsonErrorPos_rFail Nat.one_pos (show 0 < 1000000000 by omega)
  have hnot : y :: r ∉ Rfc.text 129 := fun hmem => by
    have := hiff.mpr hmem
    omega
  obtain ⟨-, -, -, hplace⟩ := hrest hnot
  rw [hpos] at hplace
  -- the same white space before a zero
  have hzero : [48] ∈ Tight.value 129 * ws := by
    obtain ⟨t, ht, heq⟩ := (predicts_all 129).sound [48] [] rfl
    rwa [heq, List.append_nil]
  have htext : [y] ++ [48] ∈ Rfc.text 129 := by
    rw [text_eq]
    refine Language.append_mem_mul (mem_kstar_one.mpr fun z hz => ?_) hzero
    rwa [List.mem_singleton.mp hz]
  exact hplace (by simp) _ htext ⟨[48], rfl⟩

/-- **The validator tells the length of a JSON text, and of any other where it stops being one, exactly when the text does not
begin with white space.** -/
theorem validate_exact_iff (b : List Nat) (hlen : b.length < 1000000000) :
    Validates b ↔ ∀ y ∈ b.head?, isWs y = false := by
  refine ⟨fun h y hy => ?_, validates_of_head hlen⟩
  cases b with
  | nil => simp at hy
  | cons z r =>
    obtain rfl : z = y := by simpa using hy
    exact Bool.eq_false_iff.mpr fun hz => not_validates_of_ws hz h

theorem validate_exact_digit : [49].length < 1000000000 ∧ Validates [49] :=
  ⟨by decide, (validate_exact_iff [49] (by decide)).mpr (by simp [isWs])⟩

/-- A space before a number. -/
theorem space_refused : ¬Validates [32, 49] := not_validates_of_ws rfl

end Datara.Stdlib.JsonReader
