import Datara.Library.FixedPoint
import Mathlib.Data.BitVec

/-!
# Decimals in text

`runtime/datara_print.c` keeps a `Dec64` as an integer of `10 ^ -4`. Printed and as a string it is the shortest
decimal of its value (`printDec64_eq`, `decToStr_eq`). To a precision it is rounded as it should be below four
places; from four on it is not scaled down (`precRight_iff`).
-/

namespace Datara.Runtime.Dec64

open Library

/-- `%0*lld` of a number that is not negative. -/
def zeroPad (width n : Nat) : List UInt8 := List.replicate (width - (decimal n).length) 48 ++ decimal n

/-- `snprintf`: what fits in the buffer before its terminator. -/
def snprintf (size : Nat) (text : List UInt8) : List UInt8 := text.take (size - 1)

/-- `while (len > least && buf[len - 1] == '0') len--`. -/
def trimZeros (least : Nat) (buf : List UInt8) : List UInt8 :=
  if least < buf.length ∧ buf.getLast? = some 48 then trimZeros least buf.dropLast else buf
termination_by buf.length
decreasing_by
  rw [List.length_dropLast]
  omega

/-- `if (len > 0 && buf[len - 1] == '.') len--`. -/
def trimPoint (buf : List UInt8) : List UInt8 := if buf.getLast? = some 46 then buf.dropLast else buf

/-- The part after the point, as both printers compute it. -/
def fracOf (val : Int) : Nat :=
  let frac := val.tmod 10000
  (if frac < 0 then -frac else frac).toNat

/-- `datara_rt_print_dec64`: what it writes out. -/
def printDec64 (val : BitVec 64) : List UInt8 :=
  let integer := val.toInt.tdiv 10000
  let frac := fracOf val.toInt
  if val.toInt < 0 ∧ integer = 0 then trimZeros 3 (snprintf 48 ([45, 48, 46] ++ zeroPad 4 frac))
  else trimPoint (trimZeros 0 (snprintf 48 (decimalInt integer ++ 46 :: zeroPad 4 frac)))

/-- `datara_rt_dec_to_str`, with a buffer from the allocator of scratch strings. -/
def decToStr (val : BitVec 64) : List UInt8 :=
  let integer := val.toInt.tdiv 10000
  let frac := fracOf val.toInt
  let buf := if val.toInt < 0 ∧ integer = 0 then snprintf 48 ([45, 48, 46] ++ zeroPad 4 frac)
    else snprintf 48 (decimalInt integer ++ 46 :: zeroPad 4 frac)
  trimPoint (trimZeros 0 buf)

/-- The result of an operation on `int64_t`. There is none when it overflows, which C leaves undefined. -/
def int64 (x : Int) : Option Int := if -2 ^ 63 ≤ x ∧ x < 2 ^ 63 then some x else none

/-- The loop that computes the scale. -/
def scaleLoop : Nat → Int → Option Int
  | 0, scale => some scale
  | n + 1, scale => do
    let scale ← int64 (scale * 10)
    scaleLoop n scale

/-- The end of `datara_rt_dec64_to_str_prec`. -/
def precText (scaled scale : Int) (prec : Nat) : List UInt8 :=
  let integer := scaled.tdiv scale
  let frac := scaled.tmod scale
  let frac := (if frac < 0 then -frac else frac).toNat
  if scaled < 0 ∧ integer = 0 then snprintf 64 ([45, 48, 46] ++ zeroPad prec frac)
  else if prec = 0 then snprintf 64 (decimalInt integer)
  else snprintf 64 (decimalInt integer ++ 46 :: zeroPad prec frac)

/-- `datara_rt_dec64_to_str_prec`, with a buffer from the allocator of scratch strings. -/
def dec64ToStrPrec (val : BitVec 64) (prec : Int) : Option (List UInt8) := do
  let prec := if prec < 0 then 0 else prec
  let prec := if 40 < prec then 40 else prec
  let scale ← scaleLoop prec.toNat 1
  let scaled ← int64 (val.toInt * scale)
  let scaled ← (if prec < 4 then
      let drop := scaled.tmod 10000
      let scaled := scaled.tdiv 10000
      if drop ≤ -5000 then int64 (scaled - 1) else if 5000 ≤ drop then int64 (scaled + 1) else some scaled
    else some scaled)
  some (precText scaled scale prec.toNat)

/-- The text to a precision is the value rounded half away from zero, with so many places. -/
def PrecRight (val : BitVec 64) (prec : Nat) : Prop :=
  ∃ r, RoundedAway (val.toInt * 10 ^ prec) 10000 r ∧ dec64ToStrPrec val prec = some (fixedInt prec r)

/-- The two texts of a value are its shortest decimal. -/
def TextsRight (val : BitVec 64) : Prop :=
  printDec64 val = decToStr val ∧ Shortest (decToStr val) ((val.toInt : ℚ) / 10 ^ 4)

variable {k n m least : Nat} {r scaled : Int} {val : BitVec 64} {s t : List UInt8}

/-! ## The texts -/

theorem zeroPad_eq {f : Nat} (hf : f < 10 ^ (k + 1)) : zeroPad (k + 1) f = fractionDigits (k + 1) f := by
  induction k generalizing f with
  | zero =>
    rw [zeroPad, decimal_ten (by omega), fractionDigits, Nat.mod_eq_of_lt (by omega)]
    rfl
  | succ k ih =>
    rw [pow_succ] at hf
    rw [fractionDigits, ← ih (by omega)]
    by_cases hten : f < 10
    · have hzero : f / 10 = 0 := by omega
      rw [zeroPad, zeroPad, decimal_ten hten, hzero, decimal_ten (by decide), Nat.mod_eq_of_lt hten]
      show List.replicate (k + 1) 48 ++ [digit f] = List.replicate k 48 ++ [48] ++ [digit f]
      rw [List.replicate_succ']
    · have hsplit : decimal f = decimal (f / 10) ++ [digit (f % 10)] := by rw [decimal, if_neg hten]
      rw [zeroPad, zeroPad, hsplit, List.length_append, List.length_singleton, Nat.add_sub_add_right,
        List.append_assoc]

theorem snprintf_eq (h : t.length < k) : snprintf k t = t := List.take_of_length_le (by omega)

theorem text_pointed (hk : 0 < k) (r : Int) :
    (if r < 0 ∧ r.tdiv (10 ^ k) = 0 then
        [45, 48, 46] ++ zeroPad k (if r.tmod (10 ^ k) < 0 then -r.tmod (10 ^ k) else r.tmod (10 ^ k)).toNat
      else decimalInt (r.tdiv (10 ^ k)) ++
        46 :: zeroPad k (if r.tmod (10 ^ k) < 0 then -r.tmod (10 ^ k) else r.tmod (10 ^ k)).toNat) =
      signed (r < 0) (pointed k r.natAbs) := by
  have hscale : ((10 : Int) ^ k).natAbs = 10 ^ k := by rw [Int.natAbs_pow]; rfl
  have hint : (r.tdiv (10 ^ k)).natAbs = r.natAbs / 10 ^ k := by
    rw [Int.natAbs_tdiv, hscale]
    rfl
  have hfrac : (if r.tmod (10 ^ k) < 0 then -r.tmod (10 ^ k) else r.tmod (10 ^ k)).toNat = r.natAbs % 10 ^ k := by
    have habs : (r.tmod (10 ^ k)).natAbs = r.natAbs % 10 ^ k := by rw [Int.natAbs_tmod, hscale]
    split <;> omega
  obtain ⟨j, rfl⟩ := Nat.exists_eq_succ_of_ne_zero hk.ne'
  rw [hfrac, zeroPad_eq (Nat.mod_lt _ (Nat.pow_pos (by decide)))]
  by_cases hneg : r < 0
  · have hopp := Int.tdiv_nonneg (a := -r) (b := 10 ^ j.succ) (by omega) (Int.pow_nonneg (by decide))
    rw [Int.neg_tdiv] at hopp
    rw [decide_eq_true hneg, pointed, ← hint]
    by_cases hzero : r.tdiv (10 ^ j.succ) = 0
    · rw [if_pos ⟨hneg, hzero⟩, hzero, Int.natAbs_zero, decimal_ten (by decide)]
      rfl
    · rw [if_neg fun h => hzero h.2, decimalInt, if_pos (by omega)]
      rfl
  · have hge : 0 ≤ r.tdiv (10 ^ j.succ) := Int.tdiv_nonneg (by omega) (Int.pow_nonneg (by decide))
    rw [if_neg fun h => hneg h.1, decide_eq_false hneg, pointed, ← hint, decimalInt, if_neg (by omega)]
    rfl

theorem pointed_length (k n : Nat) : (pointed k n).length = (decimal (n / 10 ^ k)).length + (k + 1) := by
  rw [pointed, List.length_append, List.length_cons, fractionDigits_length]

theorem signed_pointed_length (hr : n ≤ 2 ^ 63) (neg : Bool) : (signed neg (pointed k n)).length ≤ 21 + k := by
  have hlen := decimal_length (n := n / 10 ^ k) (k := 18)
    (lt_of_le_of_lt (Nat.div_le_self _ _) (lt_of_le_of_lt hr (by decide)))
  rw [signed_length, pointed_length]
  split <;> omega

/-! ## The zeros at the end -/

theorem trimZeros_pointed (h : least ≤ (s ++ pointed 0 (n / 10 ^ k)).length) :
    trimZeros least (s ++ pointed k n) = s ++ pointed (stripped k n).1 (stripped k n).2 := by
  induction k generalizing n with
  | zero =>
    have hlast : (s ++ pointed 0 n).getLast? = some 46 := by
      rw [pointed_zero, ← List.append_assoc, List.getLast?_concat]
    rw [trimZeros, hlast, if_neg fun h => absurd h.2 (by decide)]
    rfl
  | succ k ih =>
    have hint : n / 10 ^ (k + 1) = n / 10 / 10 ^ k := by rw [pow_succ', Nat.div_div_eq_div_mul]
    rw [hint] at h
    have hlen : least < (s ++ pointed k (n / 10) ++ [digit (n % 10)]).length := by
      rw [List.length_append, pointed_length, pow_zero, Nat.div_one] at h
      rw [List.length_append, List.length_append, pointed_length, List.length_singleton]
      omega
    rw [pointed_succ, ← List.append_assoc, trimZeros, List.getLast?_concat, List.dropLast_concat, stripped]
    by_cases hlast : n % 10 = 0
    · rw [if_pos ⟨hlen, by rw [hlast]; rfl⟩, if_pos hlast, ih h]
    · rw [if_neg fun h => hlast (digit_eq_zero (Nat.mod_lt n (by decide)) (Option.some.inj h.2)), if_neg hlast,
        pointed_succ, ← List.append_assoc]

theorem trimPoint_pointed : trimPoint (s ++ pointed k n) = s ++ fixed k n := by
  cases k with
  | zero =>
    have hlast : (s ++ pointed 0 n).getLast? = some 46 := by
      rw [pointed_zero, ← List.append_assoc, List.getLast?_concat]
    rw [trimPoint, if_pos hlast, pointed_zero, ← List.append_assoc, List.dropLast_concat, fixed, if_pos rfl]
  | succ k =>
    have hlast : (s ++ pointed (k + 1) n).getLast? = some (digit (n % 10)) := by
      rw [pointed_succ, ← List.append_assoc, List.getLast?_concat]
    rw [trimPoint, hlast, if_neg, fixed, if_neg (Nat.succ_ne_zero k)]
    intro h
    have hval := congrArg UInt8.toNat (Option.some.inj h)
    rw [digit_toNat (Nat.mod_lt n (by decide))] at hval
    have hpoint : (46 : UInt8).toNat = 46 := rfl
    omega

/-! ## The two printers -/

theorem natAbs_toInt_le (val : BitVec 64) : val.toInt.natAbs ≤ 2 ^ 63 := by
  have hlow := BitVec.le_toInt val
  have hhigh := BitVec.toInt_lt (x := val)
  omega

theorem signed_append (neg : Bool) (t : List UInt8) : signed neg t = signed neg [] ++ t := by
  cases neg <;> rfl

theorem buffer_eq (val : BitVec 64) :
    (if val.toInt < 0 ∧ val.toInt.tdiv 10000 = 0 then snprintf 48 ([45, 48, 46] ++ zeroPad 4 (fracOf val.toInt))
      else snprintf 48 (decimalInt (val.toInt.tdiv 10000) ++ 46 :: zeroPad 4 (fracOf val.toInt))) =
      signed (val.toInt < 0) (pointed 4 val.toInt.natAbs) := by
  have hfits : (signed (val.toInt < 0) (pointed 4 val.toInt.natAbs)).length < 48 :=
    lt_of_le_of_lt (signed_pointed_length (natAbs_toInt_le val) _) (by decide)
  rw [← apply_ite (snprintf 48)]
  exact (congrArg (snprintf 48) (text_pointed (by decide) val.toInt)).trans (snprintf_eq hfits)

/-- The places without trailing zeros. -/
def places (v : Int) : Nat := (stripped 4 v.natAbs).1

/-- The value in units of the last place. -/
def units (v : Int) : Int := if v < 0 then -((stripped 4 v.natAbs).2 : Int) else (stripped 4 v.natAbs).2

theorem natAbs_units (v : Int) : (units v).natAbs = (stripped 4 v.natAbs).2 := by
  unfold units
  split <;> omega

theorem units_neg (v : Int) : units v < 0 ↔ v < 0 := by
  have hval := (stripped_spec 4 v.natAbs).2.1
  unfold units
  split
  case isTrue h =>
    have hne : (stripped 4 v.natAbs).2 ≠ 0 := by
      intro hzero
      rw [hzero, Nat.zero_mul] at hval
      omega
    omega
  case isFalse h => omega

theorem decToStr_eq (val : BitVec 64) : decToStr val = fixedInt (places val.toInt) (units val.toInt) := by
  have hneg : (decide (val.toInt < 0)) = decide (units val.toInt < 0) := decide_eq_decide.mpr (units_neg _).symm
  show trimPoint (trimZeros 0 (if _ then _ else _)) = _
  rw [buffer_eq, signed_append, trimZeros_pointed (Nat.zero_le _), trimPoint_pointed, fixedInt, natAbs_units,
    signed_append (decide (units val.toInt < 0)), hneg]
  rfl

theorem printDec64_eq (val : BitVec 64) : printDec64 val = decToStr val := by
  by_cases h : val.toInt < 0 ∧ val.toInt.tdiv 10000 = 0
  · have hbuf := buffer_eq val
    rw [if_pos h, signed_append, decide_eq_true h.1] at hbuf
    have hplaces : (stripped 4 val.toInt.natAbs).1 ≠ 0 := by
      intro hzero
      have hval := (stripped_spec 4 val.toInt.natAbs).2.1
      have hint : (val.toInt.tdiv 10000).natAbs = val.toInt.natAbs / 10000 := Int.natAbs_tdiv _ _
      rw [hzero] at hval
      rw [h.2] at hint
      omega
    rw [decToStr_eq, printDec64, if_pos h, hbuf, trimZeros_pointed, fixedInt, fixed, places, if_neg hplaces,
      natAbs_units, decide_eq_true ((units_neg _).mpr h.1)]
    · rfl
    · rw [List.length_append, pointed_length, pow_zero, Nat.div_one]
      have hpos := List.length_pos_of_ne_nil (decimal_ne_nil (val.toInt.natAbs / 10 ^ 4))
      show 3 ≤ 1 + _
      omega
  · rw [printDec64, decToStr, if_neg h, if_neg h]

theorem units_value (v : Int) : ((units v : ℚ) / 10 ^ places v) = (v : ℚ) / 10 ^ 4 := by
  obtain ⟨hle, hval, -⟩ := stripped_spec 4 v.natAbs
  have hv : v = units v * 10 ^ (4 - places v) := by
    have hcast : ((stripped 4 v.natAbs).2 : Int) * 10 ^ (4 - places v) = v.natAbs := by exact_mod_cast hval
    unfold units
    split
    · rw [Int.neg_mul, hcast]
      omega
    · rw [hcast]
      omega
  have hp : (10 : ℚ) ^ places v ≠ 0 := pow_ne_zero _ (by norm_num)
  have hfour : (10 : ℚ) ^ 4 = 10 ^ (4 - places v) * 10 ^ places v := by
    rw [← pow_add, Nat.sub_add_cancel (show places v ≤ 4 from hle)]
  have hcast : (v : ℚ) = units v * 10 ^ (4 - places v) := by exact_mod_cast hv
  rw [hfour, hcast, div_eq_div_iff hp (mul_ne_zero (pow_ne_zero _ (by norm_num)) hp)]
  ring

theorem textsRight (val : BitVec 64) : TextsRight val := by
  refine ⟨printDec64_eq val, ?_⟩
  rw [decToStr_eq, ← units_value]
  apply shortest_fixedInt
  rw [natAbs_units]
  exact (stripped_spec 4 val.toInt.natAbs).2.2

/-! ## To a precision -/

theorem int64_pos {x : Int} (h : -2 ^ 63 ≤ x ∧ x < 2 ^ 63) : int64 x = some x := if_pos h

theorem scaleLoop_spec (n : Nat) (hk : k ≤ 18) :
    scaleLoop n (10 ^ k) = if k + n ≤ 18 then some (10 ^ (k + n)) else none := by
  induction n generalizing k with
  | zero => rw [Nat.add_zero, if_pos hk, scaleLoop]
  | succ n ih =>
    have hstep : scaleLoop (n + 1) (10 ^ k) = (int64 (10 ^ k * 10)).bind (scaleLoop n) := rfl
    rw [hstep, ← pow_succ]
    by_cases hlt : k < 18
    · have hle : (10 : Int) ^ (k + 1) ≤ 10 ^ 18 := pow_le_pow_right₀ (by decide) hlt
      have hge : (0 : Int) ≤ 10 ^ (k + 1) := pow_nonneg (by decide) _
      rw [int64_pos (by omega)]
      show scaleLoop n (10 ^ (k + 1)) = _
      rw [ih hlt, Nat.succ_add_eq_add_succ]
    · obtain rfl : k = 18 := by omega
      rw [if_neg (by omega)]
      rfl

theorem precText_eq {prec : Nat} (hprec : prec ≤ 40) (hr : r.natAbs ≤ 2 ^ 63) :
    precText r (10 ^ prec) prec = fixedInt prec r := by
  cases prec with
  | zero =>
    have hlen : (fixedInt 0 r).length < 64 := by
      have := decimal_length (n := r.natAbs) (k := 18) (lt_of_le_of_lt hr (by decide))
      rw [fixedInt, signed_length, fixed, if_pos rfl]
      split <;> omega
    have htext : decimalInt r = fixedInt 0 r := by
      unfold decimalInt fixedInt fixed
      by_cases hneg : r < 0
      · rw [if_pos hneg, decide_eq_true hneg]
        rfl
      · rw [if_neg hneg, decide_eq_false hneg]
        rfl
    rw [precText, pow_zero, Int.tdiv_one, if_neg (by omega), if_pos rfl, htext, snprintf_eq hlen]
  | succ k =>
    have hlen : (signed (r < 0) (pointed (k + 1) r.natAbs)).length < 64 :=
      lt_of_le_of_lt (signed_pointed_length hr _) (by omega)
    have htext := text_pointed (k := k + 1) (Nat.succ_pos k) r
    rw [precText]
    simp only [Nat.succ_ne_zero, if_false]
    rw [← apply_ite (snprintf 64), htext, snprintf_eq hlen, fixedInt, fixed, if_neg (Nat.succ_ne_zero k)]

/-- The division by `10 ^ 4` of the path for fewer than four places, and its rounding. -/
theorem rounded (scaled : Int) (hscaled : scaled.natAbs ≤ 2 ^ 63) :
    ∃ r, RoundedAway scaled 10000 r ∧ r.natAbs ≤ 2 ^ 63 ∧
      (if scaled.tmod 10000 ≤ -5000 then int64 (scaled.tdiv 10000 - 1)
        else if 5000 ≤ scaled.tmod 10000 then int64 (scaled.tdiv 10000 + 1) else some (scaled.tdiv 10000)) =
        some r := by
  have hsplit := Int.mul_tdiv_add_tmod scaled 10000
  have hfrac : (scaled.tmod 10000).natAbs = scaled.natAbs % 10000 := Int.natAbs_tmod _ _
  have hint : (scaled.tdiv 10000).natAbs = scaled.natAbs / 10000 := Int.natAbs_tdiv _ _
  generalize scaled.tdiv 10000 = q at *
  generalize scaled.tmod 10000 = d at *
  unfold RoundedAway
  by_cases hlow : d ≤ -5000
  · exact ⟨q - 1, by omega, by omega, by rw [if_pos hlow, int64_pos (by omega)]⟩
  by_cases hhigh : 5000 ≤ d
  · exact ⟨q + 1, by omega, by omega, by rw [if_neg hlow, if_pos hhigh, int64_pos (by omega)]⟩
  · exact ⟨q, by omega, by omega, by rw [if_neg hlow, if_neg hhigh]⟩

theorem dec64ToStrPrec_nat {prec : Nat} (hprec : prec ≤ 40) :
    dec64ToStrPrec val prec = (scaleLoop prec 1).bind fun scale => (int64 (val.toInt * scale)).bind fun scaled =>
      (if prec < 4 then
          if scaled.tmod 10000 ≤ -5000 then int64 (scaled.tdiv 10000 - 1)
          else if 5000 ≤ scaled.tmod 10000 then int64 (scaled.tdiv 10000 + 1) else some (scaled.tdiv 10000)
        else some scaled).bind fun scaled => some (precText scaled scale prec) := by
  have hlow : ¬ (prec : Int) < 0 := by omega
  have hhigh : ¬ (40 : Int) < prec := by omega
  have hfour : ((prec : Int) < 4) = (prec < 4) := propext (by omega)
  unfold dec64ToStrPrec
  simp only [hlow, hhigh, hfour, if_false, Int.toNat_natCast]
  rfl

/-- **To a precision the text is right** below four places, where the scaled value does not overflow, and from
four on for zero only, as long as the scale does not overflow. -/
theorem precRight_iff {prec : Nat} (hprec : prec ≤ 40) :
    PrecRight val prec ↔ prec ≤ 3 ∧ -2 ^ 63 ≤ val.toInt * 10 ^ prec ∧ val.toInt * 10 ^ prec < 2 ^ 63 ∨
      prec ≤ 18 ∧ val.toInt = 0 := by
  have hscale := scaleLoop_spec (k := 0) prec (by decide)
  rw [pow_zero, Nat.zero_add] at hscale
  unfold PrecRight
  rw [dec64ToStrPrec_nat hprec, hscale]
  by_cases hlarge : 18 < prec
  · rw [if_neg (by omega)]
    exact iff_of_false (fun h => nomatch h.choose_spec.2) (by omega)
  rw [if_pos (by omega)]
  simp only [Option.bind_some]
  by_cases hfits : -2 ^ 63 ≤ val.toInt * 10 ^ prec ∧ val.toInt * 10 ^ prec < 2 ^ 63
  case neg =>
    refine iff_of_false (fun h => ?_) (fun h => ?_)
    · rw [int64, if_neg hfits] at h
      exact nomatch h.choose_spec.2
    · obtain h | h := h
      · exact hfits h.2
      · rw [h.2, Int.zero_mul] at hfits
        exact hfits (by decide)
  have habs : (val.toInt * 10 ^ prec).natAbs ≤ 2 ^ 63 := by omega
  rw [int64_pos hfits]
  simp only [Option.bind_some]
  by_cases hfour : prec < 4
  · obtain ⟨r, hround, hr, heq⟩ := rounded (val.toInt * 10 ^ prec) habs
    refine iff_of_true ⟨r, hround, ?_⟩ (.inl ⟨by omega, hfits⟩)
    rw [if_pos hfour, heq]
    exact congrArg some (precText_eq hprec hr)
  rw [if_neg hfour]
  simp only [Option.bind_some]
  rw [precText_eq hprec habs]
  constructor
  · intro h
    obtain ⟨r, hround, heq⟩ := h
    obtain rfl := fixedInt_injective (Option.some.inj heq)
    right
    refine ⟨by omega, ?_⟩
    by_contra hne
    -- the mantissa itself stands where a ten thousandth of it should
    have hscaled : (10000 : Int) ≤ 10 ^ prec := by
      calc (10000 : Int) = 10 ^ 4 := by norm_num
        _ ≤ 10 ^ prec := pow_le_pow_right₀ (by decide) (by omega)
    have hbig : 10000 ≤ (val.toInt * 10 ^ prec).natAbs := by
      rw [Int.natAbs_mul]
      calc 10000 = 1 * 10000 := rfl
        _ ≤ val.toInt.natAbs * ((10 : Int) ^ prec).natAbs := Nat.mul_le_mul (by omega) (by omega)
    have := hround.1
    omega
  · intro h
    obtain h | h := h
    · omega
    · refine ⟨0, ?_, by rw [h.2, Int.zero_mul]⟩
      rw [h.2, Int.zero_mul]
      unfold RoundedAway
      omega

/-- **The texts of a decimal are right** where the text to the precision is. -/
theorem dec64_right_iff (val : BitVec 64) {prec : Nat} (hprec : prec ≤ 40) :
    TextsRight val ∧ PrecRight val prec ↔
      prec ≤ 3 ∧ -2 ^ 63 ≤ val.toInt * 10 ^ prec ∧ val.toInt * 10 ^ prec < 2 ^ 63 ∨ prec ≤ 18 ∧ val = 0 := by
  rw [and_iff_right (textsRight val), precRight_iff hprec, ← BitVec.toInt_zero (w := 64), BitVec.toInt_inj]
  rfl

theorem dec64_right_two : TextsRight 12345 ∧ PrecRight 12345 2 :=
  (dec64_right_iff 12345 (by decide)).mpr (.inl (by decide))

/-- `1.2345` to four places is `12345.0000`. -/
theorem dec64_four_places : ¬ (TextsRight 12345 ∧ PrecRight 12345 4) := by
  intro h
  exact absurd ((precRight_iff (by decide)).mp h.2) (by decide)

end Datara.Runtime.Dec64
