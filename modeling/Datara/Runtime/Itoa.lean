import Datara.Library.Words
import Datara.Runtime.IntDigits
import Mathlib.Data.BitVec

/-!
# Two formatters of integers

`fast_i64toa` of `runtime/datara_string.c` and `datara_fast_i64toa` of `runtime/datara_print.c`, on the bytes
they are given: a buffer that a store outside of has no result in. Both write the integer in decimal and
return its length (`fastI64toa_spec`, `dataraFastI64toa_spec`), whatever was in the buffers before.
-/

namespace Datara.Runtime.Itoa

open Library
open List (append_assoc append_nil length_append length_cons length_drop length_nil length_singleton length_take)

/-- `DIGITS_LUT`. -/
def digitsLut : List UInt8 :=
  ["00010203040506070809",
    "10111213141516171819",
    "20212223242526272829",
    "30313233343536373839",
    "40414243444546474849",
    "50515253545556575859",
    "60616263646566676869",
    "70717273747576777879",
    "80818283848586878889",
    "90919293949596979899"].flatMap fun row => row.toList.map fun c => UInt8.ofNat c.toNat

/-- `memcpy(p, &DIGITS_LUT[r * 2], 2)`. -/
def putPair (buf : List UInt8) (p : Int) (r : Nat) : Option (List UInt8) := copyWords digitsLut ((r * 2 : Nat) : Int) p 2 buf

/-- The loop of `fast_i64toa`: pairs of digits from the end of `temp`, while there are more than two. -/
def pairsLoop (uval : Nat) (p : Int) (temp : List UInt8) : Option (Nat × Int × List UInt8) :=
  if 100 ≤ uval then do
    let q := uval / 100
    let r := uval - q * 100
    let temp ← putPair temp (p - 2) r
    pairsLoop q (p - 2) temp
  else some (uval, p, temp)

/-- The digits of a number at the end of `temp`, and where they begin. -/
def digitsInto (uval : Nat) (temp : List UInt8) : Option (Int × List UInt8) := do
  let (uval, p, temp) ← pairsLoop uval 31 temp
  if 10 ≤ uval then (putPair temp (p - 2) uval).map (p - 2, ·)
  else (storeWord temp (p - 1) (digit uval)).map (p - 1, ·)

/-- `fast_i64toa`: the length it returns and the buffer. `temp` is the local array of 32, which is not set. -/
def fastI64toa (temp : List UInt8) (val : BitVec 64) (buf : List UInt8) : Option (Nat × List UInt8) :=
  if 0 ≤ val.toInt ∧ val.toInt < 10000 then
    let v := val.toInt.toNat
    if v < 10 then do
      let buf ← storeWord buf 0 (digit v)
      let buf ← storeWord buf 1 0
      some (1, buf)
    else if v < 100 then do
      let buf ← putPair buf 0 v
      let buf ← storeWord buf 2 0
      some (2, buf)
    else
      let q := v / 100
      let r := v - q * 100
      if 10 ≤ q then do
        let buf ← putPair buf 0 q
        let buf ← putPair buf 2 r
        let buf ← storeWord buf 4 0
        some (4, buf)
      else do
        let buf ← storeWord buf 0 (digit q)
        let buf ← putPair buf 1 r
        let buf ← storeWord buf 3 0
        some (3, buf)
  else if 0 ≤ val.toInt ∧ val.toInt < 1000000 then do
    let v := val.toInt.toNat
    let q1 := v / 10000
    let rem := v - q1 * 10000
    let q2 := rem / 100
    let r := rem - q2 * 100
    let (p, buf) ← (if 10 ≤ q1 then (putPair buf 0 q1).map (2, ·) else (storeWord buf 0 (digit q1)).map (1, ·))
    let buf ← putPair buf p q2
    let buf ← putPair buf (p + 2) r
    let buf ← storeWord buf (p + 4) 0
    some ((p + 4).toNat, buf)
  else do
    -- `(uint64_t)(-(val + 1)) + 1` is the magnitude of the least integer too
    let uval := if val.toInt < 0 then (-(val.toInt + 1)).toNat + 1 else val.toInt.toNat
    let (p, temp) ← digitsInto uval temp
    let len := (31 - p).toNat
    let (dst, len, buf) ← (if val.toInt < 0 then (storeWord buf 0 45).map (1, len + 1, ·) else some (0, len, buf))
    let buf ← copyWords temp p dst (31 - p).toNat buf
    let buf ← storeWord buf len 0
    some (len, buf)

/-- The first loop of `datara_fast_i64toa`: the digits from the last one on. -/
def digitsBackward (u : Nat) (p : Int) (temp : List UInt8) : Option (Int × List UInt8) := do
  let temp ← storeWord temp p (digit (u % 10))
  if 0 < u / 10 then digitsBackward (u / 10) (p + 1) temp else some (p + 1, temp)

/-- The second loop of `datara_fast_i64toa`, at each digit of `temp` below `p` in turn, from the last one. -/
def digitsForward (temp : List UInt8) : Nat → Nat → List UInt8 → Option (Nat × List UInt8)
  | 0, len, dst => some (len, dst)
  | p + 1, len, dst => do
    let c ← loadWord temp p
    let dst ← storeWord dst len c
    digitsForward temp p (len + 1) dst

/-- `datara_fast_i64toa`. -/
def dataraFastI64toa (temp : List UInt8) (val : BitVec 64) (dst : List UInt8) : Option (Nat × List UInt8) := do
  let (u, len, dst) ← (if val.toInt < 0 then (storeWord dst 0 45).map ((~~~val + 1).toNat, 1, ·)
    else some (val.toNat, 0, dst))
  let (p, temp) ← digitsBackward u 0 temp
  digitsForward temp p.toNat len dst

/-! ## Bytes written from the start of a buffer, and to the end of one -/

variable {buf temp t : List UInt8} {n k : Nat} {c : UInt8} {val : BitVec 64}

/-- The buffer with a text at its start. -/
def startedBy (t buf : List UInt8) : List UInt8 := t ++ buf.drop t.length

/-- The buffer with a text that ends at an index. -/
def endedBy (t : List UInt8) (k : Nat) (buf : List UInt8) : List UInt8 :=
  buf.take (k - t.length) ++ t ++ buf.drop k

theorem digitsLut_eq : digitsLut = (List.range 100).flatMap digitPair := by decide +kernel

theorem digitsLut_length : digitsLut.length = 200 := by
  rw [digitsLut_eq]
  decide +kernel

theorem digitsLut_pair {r : Nat} (h : r < 100) : (digitsLut.drop (r * 2)).take 2 = digitPair r := by
  have hall : ∀ r : Fin 100, (((List.range 100).flatMap digitPair).drop (r * 2)).take 2 = digitPair r := by
    decide +kernel
  rw [digitsLut_eq]
  exact hall ⟨r, h⟩

theorem storeWord_started (h : t.length < buf.length) :
    storeWord (startedBy t buf) t.length c = some (startedBy (t ++ [c]) buf) := by
  have hsplit : buf.drop t.length = buf[t.length] :: buf.drop (t.length + 1) := List.drop_eq_getElem_cons h
  rw [startedBy, hsplit, storeWord_append rfl, startedBy, length_append, length_singleton,
    append_assoc]
  rfl

theorem copyWords_started {w : List UInt8} {s : Int} (hs : s = k) (hk : k + n ≤ w.length)
    (h : t.length + n ≤ buf.length) :
    copyWords w s t.length n (startedBy t buf) = some (startedBy (t ++ (w.drop k).take n) buf) := by
  have hsplit : startedBy t buf = t ++ (buf.drop t.length).take n ++ buf.drop (t.length + n) := by
    rw [startedBy, append_assoc, ← List.drop_drop, List.take_append_drop]
  have hlen : ((w.drop k).take n).length = n := by
    rw [length_take, length_drop]
    omega
  rw [hsplit, copyWords_spec hs hk rfl (by rw [length_take, length_drop]; omega), startedBy,
    length_append, hlen]

theorem putPair_started {r : Nat} (hr : r < 100) (h : t.length + 2 ≤ buf.length) :
    putPair (startedBy t buf) t.length r = some (startedBy (t ++ digitPair r) buf) := by
  have hlut := digitsLut_length
  rw [putPair, copyWords_started rfl (by omega) h, digitsLut_pair hr]

/-- The store of a digit right before the text that ends the buffer. -/
theorem storeWord_ended (h : t.length < k) (hk : k ≤ buf.length) :
    storeWord (endedBy t k buf) ((k - t.length : Nat) - 1) c = some (endedBy (c :: t) k buf) := by
  have hlt : k - t.length - 1 < buf.length := by omega
  have hsplit : buf.take (k - t.length) = buf.take (k - t.length - 1) ++ [buf[k - t.length - 1]] := by
    rw [← List.take_succ_eq_append_getElem hlt]
    congr 1
    omega
  have hat : ((k - t.length : Nat) - 1 : Int) = (buf.take (k - t.length - 1)).length := by
    rw [length_take]
    omega
  rw [endedBy, hsplit, append_assoc, append_assoc, List.singleton_append, storeWord_append hat, endedBy,
    length_cons, Nat.sub_add_eq, append_assoc]
  rfl

theorem putPair_ended {r : Nat} (hr : r < 100) (h : t.length + 2 ≤ k) (hk : k ≤ buf.length) :
    putPair (endedBy t k buf) ((k - t.length : Nat) - 2) r = some (endedBy (digitPair r ++ t) k buf) := by
  have hlut := digitsLut_length
  have hsplit : buf.take (k - t.length) =
      buf.take (k - t.length - 2) ++ (buf.drop (k - t.length - 2)).take 2 := by
    rw [← List.take_add, Nat.sub_add_cancel (by omega)]
  have hat : ((k - t.length : Nat) - 2 : Int) = (buf.take (k - t.length - 2)).length := by
    rw [length_take]
    omega
  have htwo : ((buf.drop (k - t.length - 2)).take 2).length = 2 := by
    rw [length_take, length_drop]
    omega
  rw [endedBy, hsplit, append_assoc, putPair, copyWords_spec rfl (by omega) hat htwo, digitsLut_pair hr, endedBy,
    length_append, show (digitPair r).length = 2 from rfl, Nat.add_comm, Nat.sub_add_eq]
  simp

/-! ## `fast_i64toa` -/

/-- The loop puts all but one or two of the digits before the text. -/
theorem pairsLoop_spec (uval : Nat) (ht : t.length + (decimal uval).length ≤ 31) (h : 31 ≤ temp.length) :
    ∃ u s, u < 100 ∧ decimal uval ++ t = decimal u ++ s ∧ s.length ≤ 31 ∧
      pairsLoop uval ((31 - t.length : Nat) : Int) (endedBy t 31 temp) =
        some (u, ((31 - s.length : Nat) : Int), endedBy s 31 temp) := by
  induction uval using Nat.strong_induction_on generalizing t with
  | _ uval ih =>
    rw [pairsLoop]
    by_cases hhundred : 100 ≤ uval
    · have hdigits := decimal_hundred hhundred
      have hr : uval - uval / 100 * 100 = uval % 100 := by omega
      have htwo : (digitPair (uval % 100)).length = 2 := rfl
      rw [hdigits, length_append, htwo] at ht
      have hnext : ((31 - t.length : Nat) : Int) - 2 = ((31 - (digitPair (uval % 100) ++ t).length : Nat) : Int) := by
        rw [length_append, htwo]
        omega
      obtain ⟨u, s, hu, htext, hs, hloop⟩ := ih (uval / 100) (by omega) (t := digitPair (uval % 100) ++ t)
        (by rw [length_append, htwo]; omega)
      refine ⟨u, s, hu, ?_, hs, ?_⟩
      · rw [hdigits, append_assoc, htext]
      · rw [if_pos hhundred]
        show (putPair _ _ (uval - uval / 100 * 100)).bind _ = _
        rw [hr, putPair_ended (by omega) (by omega) h, hnext]
        exact hloop
    · exact ⟨uval, t, by omega, rfl, by omega, if_neg hhundred⟩

theorem drop_ended (hk : k ≤ buf.length) : ((endedBy t k buf).drop (k - t.length)).take t.length = t := by
  rw [endedBy, append_assoc, List.drop_left' (List.length_take_of_le (by omega)), List.take_left]

theorem endedBy_nil : endedBy [] k buf = buf := by
  rw [endedBy, append_nil, length_nil, Nat.sub_zero, List.take_append_drop]

theorem length_ended (h : t.length ≤ k) (hk : k ≤ buf.length) : (endedBy t k buf).length = buf.length := by
  rw [endedBy, length_append, length_append, length_take, length_drop]
  omega

theorem digitsInto_spec {uval : Nat} (htemp : temp.length = 32) (hlen : (decimal uval).length ≤ 20) :
    digitsInto uval temp = some (((31 - (decimal uval).length : Nat) : Int), endedBy (decimal uval) 31 temp) := by
  obtain ⟨u, s, hu, htext, hs, hloop⟩ := pairsLoop_spec (t := []) uval (by rw [length_nil]; omega)
    (show 31 ≤ temp.length by omega)
  rw [append_nil] at htext
  rw [endedBy_nil, length_nil] at hloop
  have hslen := congrArg List.length htext
  rw [length_append] at hslen
  show (pairsLoop uval ((31 - 0 : Nat) : Int) temp).bind _ = _
  rw [hloop, htext]
  show (if 10 ≤ u then _ else _) = _
  by_cases hten : 10 ≤ u
  · have hat : ((31 - s.length : Nat) : Int) - 2 = ((31 - (digitPair u ++ s).length : Nat) : Int) := by
      rw [length_append, show (digitPair u).length = 2 from rfl]
      omega
    rw [if_pos hten, putPair_ended hu (by omega) (by omega), hat, decimal_pair hten hu]
    rfl
  · have hat : ((31 - s.length : Nat) : Int) - 1 = ((31 - (digit u :: s).length : Nat) : Int) := by
      rw [length_cons]
      omega
    rw [if_neg hten, storeWord_ended (by omega) (by omega), hat, decimal_ten (by omega)]
    rfl

theorem digits_copied {uval : Nat} (htemp : temp.length = 32) (hbuf : 21 ≤ buf.length)
    (hlen : t.length + (decimal uval).length ≤ 20) :
    copyWords (endedBy (decimal uval) 31 temp) ((31 - (decimal uval).length : Nat) : Int) t.length
      (decimal uval).length (startedBy t buf) = some (startedBy (t ++ decimal uval) buf) := by
  have hcopy := copyWords_started (w := endedBy (decimal uval) 31 temp) (n := (decimal uval).length) rfl
    (k := 31 - (decimal uval).length) (by rw [length_ended (by omega) (by omega)]; omega)
    (show t.length + (decimal uval).length ≤ buf.length by omega)
  rwa [drop_ended (by omega)] at hcopy

/-- The last path of `fast_i64toa`, after the sign. -/
theorem lastPath_spec {uval len : Nat} (htemp : temp.length = 32) (hbuf : 21 ≤ buf.length)
    (hbound : t.length + (decimal uval).length ≤ 20) (hlen : len = (t ++ decimal uval).length) :
    (do
      let buf ← copyWords (endedBy (decimal uval) 31 temp) ((31 - (decimal uval).length : Nat) : Int) t.length
        (31 - ((31 - (decimal uval).length : Nat) : Int)).toNat (startedBy t buf)
      let buf ← storeWord buf len 0
      some (len, buf)) =
      some ((t ++ decimal uval).length, startedBy (t ++ decimal uval ++ [0]) buf) := by
  have hcount : (31 - ((31 - (decimal uval).length : Nat) : Int)).toNat = (decimal uval).length := by omega
  rw [hlen, hcount, digits_copied htemp hbuf hbound]
  show (storeWord _ _ _).bind _ = _
  rw [storeWord_started (by rw [length_append]; omega)]
  rfl

theorem lead_started {q : Nat} (hq : q < 100) (hbuf : 21 ≤ buf.length) :
    (if 10 ≤ q then (putPair buf 0 q).map ((2 : Int), ·) else (storeWord buf 0 (digit q)).map ((1 : Int), ·)) =
      some (((if 10 ≤ q then digitPair q else [digit q]).length : Int),
        startedBy (if 10 ≤ q then digitPair q else [digit q]) buf) := by
  by_cases hten : 10 ≤ q
  · have hpair : putPair buf 0 q = some (startedBy (digitPair q) buf) :=
      putPair_started (t := []) hq (by rw [length_nil]; omega)
    rw [if_pos hten, if_pos hten, hpair]
    rfl
  · have hdigit : storeWord buf 0 (digit q) = some (startedBy [digit q] buf) :=
      storeWord_started (t := []) (by rw [length_nil]; omega)
    rw [if_neg hten, if_neg hten, hdigit]
    rfl

/-- The path of the integers of five and six digits, after the first ones. -/
theorem middlePath_spec {q r : Nat} (hq : q < 100) (hr : r < 100) (ht : t.length ≤ 2) (hbuf : 21 ≤ buf.length) :
    (do
      let buf ← putPair (startedBy t buf) t.length q
      let buf ← putPair buf (t.length + 2) r
      let buf ← storeWord buf (t.length + 4) 0
      some (((t.length : Int) + 4).toNat, buf)) =
      some ((t ++ digitPair q ++ digitPair r).length, startedBy (t ++ digitPair q ++ digitPair r ++ [0]) buf) := by
  have htwo (r : Nat) : (digitPair r).length = 2 := rfl
  have hsecond : (t.length : Int) + 2 = (t ++ digitPair q).length := by
    rw [length_append, htwo]
    rfl
  have hthird : (t.length : Int) + 4 = (t ++ digitPair q ++ digitPair r).length := by
    rw [length_append, length_append, htwo, htwo]
    omega
  rw [hsecond, hthird, putPair_started hq (by omega)]
  show (putPair _ _ _).bind _ = _
  rw [putPair_started hr (by rw [length_append, htwo]; omega)]
  show (storeWord _ _ _).bind _ = _
  rw [storeWord_started (by rw [length_append, length_append, htwo, htwo]; omega)]
  rfl

/-- The buffer ends up with the text of the integer and a terminator. -/
theorem fastI64toa_text (htemp : temp.length = 32) (hbuf : 21 ≤ buf.length) :
    fastI64toa temp val buf = some ((Runtime.fastI64toa val.toInt).length,
      startedBy (Runtime.fastI64toa val.toInt ++ [0]) buf) := by
  unfold fastI64toa Runtime.fastI64toa
  by_cases hfour : 0 ≤ val.toInt ∧ val.toInt < 10000
  · simp only [hfour, and_self, if_true]
    have hlt : val.toInt.toNat < 10000 := by omega
    generalize val.toInt.toNat = v at hlt
    by_cases hten : v < 10
    · have hdigit : storeWord buf 0 (digit v) = some (startedBy [digit v] buf) :=
        storeWord_started (t := []) (by rw [length_nil]; omega)
      have hend : storeWord (startedBy [digit v] buf) 1 0 = some (startedBy [digit v, 0] buf) :=
        storeWord_started (t := [digit v]) (by rw [length_singleton]; omega)
      simp only [hten, if_true, hdigit, Option.bind_eq_bind, Option.bind_some, hend]
      rfl
    by_cases hhundred : v < 100
    · have hpair : putPair buf 0 v = some (startedBy (digitPair v) buf) :=
        putPair_started (t := []) hhundred (by rw [length_nil]; omega)
      have hend : storeWord (startedBy (digitPair v) buf) 2 0 = some (startedBy (digitPair v ++ [0]) buf) :=
        storeWord_started (t := digitPair v) (show 2 < buf.length by omega)
      simp only [hten, hhundred, if_true, if_false, hpair, Option.bind_eq_bind, Option.bind_some, hend]
      rfl
    simp only [hten, hhundred, if_false]
    have hr : v - v / 100 * 100 < 100 := by omega
    generalize v - v / 100 * 100 = r at hr
    by_cases hq : 10 ≤ v / 100
    · have hfirst : putPair buf 0 (v / 100) = some (startedBy (digitPair (v / 100)) buf) :=
        putPair_started (t := []) (by omega) (by rw [length_nil]; omega)
      have hsecond : putPair (startedBy (digitPair (v / 100)) buf) 2 r =
          some (startedBy (digitPair (v / 100) ++ digitPair r) buf) :=
        putPair_started (t := digitPair (v / 100)) hr (show 4 ≤ buf.length by omega)
      have hend : storeWord (startedBy (digitPair (v / 100) ++ digitPair r) buf) 4 0 =
          some (startedBy (digitPair (v / 100) ++ digitPair r ++ [0]) buf) :=
        storeWord_started (t := digitPair (v / 100) ++ digitPair r) (show 4 < buf.length by omega)
      simp only [hq, if_true, hfirst, hsecond, hend, Option.bind_eq_bind, Option.bind_some]
      rfl
    · have hfirst : storeWord buf 0 (digit (v / 100)) = some (startedBy [digit (v / 100)] buf) :=
        storeWord_started (t := []) (by rw [length_nil]; omega)
      have hsecond : putPair (startedBy [digit (v / 100)] buf) 1 r =
          some (startedBy (digit (v / 100) :: digitPair r) buf) :=
        putPair_started (t := [digit (v / 100)]) hr (show 3 ≤ buf.length by omega)
      have hend : storeWord (startedBy (digit (v / 100) :: digitPair r) buf) 3 0 =
          some (startedBy (digit (v / 100) :: digitPair r ++ [0]) buf) :=
        storeWord_started (t := digit (v / 100) :: digitPair r) (show 3 < buf.length by omega)
      simp only [hq, if_false, hfirst, hsecond, hend, Option.bind_eq_bind, Option.bind_some]
      rfl
  by_cases hsix : 0 ≤ val.toInt ∧ val.toInt < 1000000
  · rw [if_neg hfour, if_pos hsix, if_neg hfour, if_pos hsix]
    have hlt : val.toInt.toNat < 1000000 := by omega
    generalize val.toInt.toNat = v at hlt
    show (Option.bind (if 10 ≤ v / 10000 then _ else _) _) = _
    rw [lead_started (by omega) hbuf]
    apply middlePath_spec (by omega) (by omega) _ hbuf
    split
    · exact Nat.le_refl 2
    · exact Nat.le_succ 1
  rw [if_neg hfour, if_neg hsix, if_neg hfour, if_neg hsix]
  have hbound := decimalInt_length (BitVec.le_toInt val) BitVec.toInt_lt
  unfold decimalInt at hbound
  simp only [digitsLoop_eq, append_nil]
  by_cases hneg : val.toInt < 0
  · have huval : (-(val.toInt + 1)).toNat + 1 = val.toInt.natAbs := by omega
    rw [if_pos hneg, length_cons] at hbound
    have hsign : storeWord buf 0 45 = some (startedBy [45] buf) :=
      storeWord_started (t := []) (by rw [length_nil]; omega)
    simp only [hneg, if_true, huval]
    rw [digitsInto_spec htemp (by omega)]
    rw [hsign]
    have hlen : (31 - ((31 - (decimal val.toInt.natAbs).length : Nat) : Int)).toNat + 1 =
        ([45] ++ decimal val.toInt.natAbs).length := by
      rw [length_append, length_singleton]
      omega
    exact lastPath_spec (t := [45]) htemp hbuf (by rw [length_singleton]; omega) hlen
  · have hnat : val.toInt.toNat = val.toInt.natAbs := by omega
    rw [if_neg hneg] at hbound
    simp only [hneg, if_false, hnat]
    rw [digitsInto_spec htemp (by omega)]
    have hlen : (31 - ((31 - (decimal val.toInt.natAbs).length : Nat) : Int)).toNat =
        ([] ++ decimal val.toInt.natAbs).length := by
      rw [List.nil_append]
      omega
    exact lastPath_spec (t := []) htemp hbuf (by rw [length_nil]; omega) hlen

/-- **`fast_i64toa` writes the integer in decimal and a terminator.** -/
theorem fastI64toa_spec (htemp : temp.length = 32) (hbuf : 21 ≤ buf.length) :
    fastI64toa temp val buf = some ((decimalInt val.toInt).length, startedBy (decimalInt val.toInt ++ [0]) buf) := by
  rw [fastI64toa_text htemp hbuf, fastI64toa_eq]

/-! ## `datara_fast_i64toa` -/

theorem digitsBackward_spec (u : Nat) (h : t.length + (decimal u).length ≤ temp.length) :
    digitsBackward u t.length (startedBy t temp) =
      some (((t ++ (decimal u).reverse).length : Int), startedBy (t ++ (decimal u).reverse) temp) := by
  induction u using Nat.strong_induction_on generalizing t with
  | _ u ih =>
    rw [digitsBackward]
    by_cases hten : u < 10
    · rw [decimal_ten hten] at h ⊢
      rw [length_singleton] at h
      rw [Nat.mod_eq_of_lt hten, storeWord_started (by omega)]
      show (if 0 < u / 10 then _ else _) = _
      rw [if_neg (by omega), List.reverse_singleton, length_append, length_singleton]
      rfl
    · have hsplit : decimal u = decimal (u / 10) ++ [digit (u % 10)] := by
        rw [decimal, if_neg hten]
      rw [hsplit, length_append, length_singleton] at h
      rw [storeWord_started (by omega)]
      show (if 0 < u / 10 then _ else _) = _
      have hnext : (t.length : Int) + 1 = ((t ++ [digit (u % 10)]).length : Int) := by
        rw [length_append]
        rfl
      rw [if_pos (by omega), hnext, ih (u / 10) (by omega) (by rw [length_append, length_singleton]; omega),
        hsplit, List.reverse_append, List.reverse_singleton, append_assoc]

theorem digitsForward_spec {p : Nat} (hp : p ≤ temp.length) (h : t.length + p ≤ buf.length) :
    digitsForward temp p t.length (startedBy t buf) =
      some ((t ++ (temp.take p).reverse).length, startedBy (t ++ (temp.take p).reverse) buf) := by
  induction p generalizing t with
  | zero =>
    rw [List.take_zero, List.reverse_nil, append_nil]
    rfl
  | succ p ih =>
    have hlast : temp.take (p + 1) = temp.take p ++ [temp[p]] := List.take_succ_eq_append_getElem (by omega)
    show (loadWord temp p).bind _ = _
    rw [loadWord_nat, List.getElem?_eq_getElem (by omega)]
    show (storeWord _ _ _).bind _ = _
    rw [storeWord_started (by omega)]
    have hrest := ih (t := t ++ [temp[p]]) (by omega) (by rw [length_append, length_singleton]; omega)
    rw [hlast, List.reverse_append, List.reverse_singleton, ← append_assoc]
    rw [length_append, length_singleton] at hrest
    exact hrest

theorem digits_started {u : Nat} (htemp : temp.length = 32) (hbuf : 21 ≤ buf.length)
    (hlen : t.length + (decimal u).length ≤ 20) :
    (do
      let (p, temp) ← digitsBackward u 0 temp
      digitsForward temp p.toNat t.length (startedBy t buf)) =
      some ((t ++ decimal u).length, startedBy (t ++ decimal u) buf) := by
  have hback := digitsBackward_spec u (show ([] : List UInt8).length + _ ≤ temp.length by rw [length_nil]; omega)
  rw [List.nil_append] at hback
  show (digitsBackward u (([] : List UInt8).length : Int) (startedBy [] temp)).bind _ = _
  rw [hback]
  show digitsForward (startedBy (decimal u).reverse temp) (decimal u).reverse.length _ _ = _
  have htake : (startedBy (decimal u).reverse temp).take (decimal u).reverse.length = (decimal u).reverse :=
    List.take_left
  rw [digitsForward_spec _ (by rw [List.length_reverse]; omega), htake, List.reverse_reverse]
  rw [startedBy, length_append]
  exact Nat.le_add_right _ _

/-- `~u + 1` is the magnitude of a negative integer. -/
theorem toNat_not_add_one (h : val.toInt < 0) : (~~~val + 1).toNat = val.toInt.natAbs := by
  have hneg : ~~~val + 1 = -val := (BitVec.neg_eq_not_add val).symm
  rw [BitVec.toInt_eq_toNat_cond] at h ⊢
  rw [hneg, BitVec.toNat_neg]
  split at h <;> split <;> omega

/-- **`datara_fast_i64toa` writes the integer in decimal.** -/
theorem dataraFastI64toa_spec (htemp : temp.length = 32) (hbuf : 21 ≤ buf.length) :
    dataraFastI64toa temp val buf = some ((decimalInt val.toInt).length, startedBy (decimalInt val.toInt) buf) := by
  have hbound := decimalInt_length (BitVec.le_toInt val) BitVec.toInt_lt
  unfold dataraFastI64toa
  unfold decimalInt at hbound ⊢
  by_cases hneg : val.toInt < 0
  · have hsign : storeWord buf 0 45 = some (startedBy [45] buf) :=
      storeWord_started (t := []) (by rw [length_nil]; omega)
    rw [if_pos hneg, length_cons] at hbound
    rw [if_pos hneg, if_pos hneg, hsign, toNat_not_add_one hneg]
    exact digits_started (t := [45]) htemp hbuf (by rw [length_singleton]; omega)
  · have hnat : val.toNat = val.toInt.natAbs := by
      rw [BitVec.toInt_eq_toNat_cond] at hneg ⊢
      split at hneg <;> split <;> omega
    rw [if_neg hneg] at hbound
    rw [if_neg hneg, if_neg hneg, hnat]
    exact digits_started (t := []) htemp hbuf (by rw [length_nil]; omega)

/-- **The two formatters agree**, on the canonical numeral of the integer: whatever the local arrays and the
buffers hold, and with 21 bytes to write to. What is after the text stays as it was. -/
theorem formatters_agree (val : BitVec 64) (temp temp' buf buf' : List UInt8) (htemp : temp.length = 32)
    (htemp' : temp'.length = 32) (hbuf : 21 ≤ buf.length) (hbuf' : 21 ≤ buf'.length) :
    ∃ text, IntNumeral text ∧ readInt text = val.toInt ∧ text.length + 1 ≤ 21 ∧
      fastI64toa temp val buf = some (text.length, text ++ 0 :: buf.drop (text.length + 1)) ∧
      dataraFastI64toa temp' val buf' = some (text.length, text ++ buf'.drop text.length) := by
  refine ⟨decimalInt val.toInt, decimalInt_numeral _, readInt_decimalInt _,
    Nat.succ_le_succ (decimalInt_length (BitVec.le_toInt val) BitVec.toInt_lt), ?_,
    dataraFastI64toa_spec htemp' hbuf'⟩
  rw [fastI64toa_spec htemp hbuf, startedBy, length_append, append_assoc]
  rfl

theorem formatters_agree_least : ∃ text, IntNumeral text ∧ readInt text = (BitVec.intMin 64).toInt ∧
    text.length + 1 ≤ 21 ∧
    fastI64toa (List.replicate 32 0) (BitVec.intMin 64) (List.replicate 21 0) =
      some (text.length, text ++ 0 :: (List.replicate 21 0).drop (text.length + 1)) ∧
    dataraFastI64toa (List.replicate 32 0) (BitVec.intMin 64) (List.replicate 21 0) =
      some (text.length, text ++ (List.replicate 21 0).drop text.length) :=
  formatters_agree _ _ _ _ _ List.length_replicate List.length_replicate (Nat.le_refl 21) (Nat.le_refl 21)

end Datara.Runtime.Itoa
