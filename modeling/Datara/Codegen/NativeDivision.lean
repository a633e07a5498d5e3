import Datara.Codegen.NativeArith

/-!
# The native lowering of `/` and `%`

Both are signed operations behind two gates, with a shortcut for a divisor that is a known power of
two. The shortcut is exact (`shiftQuotient_eq`, `shiftRemainder_eq`). On a wide unsigned type an
operand past `2 ^ 63` is read as `2 ^ 64` below its value; the quadrants of the two readings are taken
one at a time.
-/

namespace Datara.Codegen

open Datara.Dmir Datara.Optimizer Datara.Library Clif

/-! ## The shortcut for a power of two -/

/-- A shift divisor is `2 ^ k` with `1 ≤ k ≤ 62`, under both readings. -/
theorem shiftDivisor_spec {c : BitVec 64} (h : isShiftDivisor c = true) :
    ∃ k, 1 ≤ k ∧ k ≤ 62 ∧ (trailingZeros c).toNat = k ∧ c.toNat = 2 ^ k ∧ c.toInt = 2 ^ k := by
  simp only [isShiftDivisor, Bool.and_eq_true, decide_eq_true_eq] at h
  obtain ⟨⟨h1, hand⟩, h62⟩ := h
  have hc : c ≠ 0 := by rintro rfl; revert h1; decide
  have hnat := toNat_eq_two_pow_ctz hc hand
  have hint : c.toInt = (c.toNat : Int) := by
    have := BitVec.toInt_eq_toNat_cond c
    split at * <;> omega
  have hpow : c.toInt = 2 ^ c.ctz.toNat := by rw [hint, hnat]; push_cast; rfl
  refine ⟨c.ctz.toNat, ?_, ?_, trailingZeros_toNat hc, hnat, hpow⟩
  · by_contra h0
    have h0 : c.ctz.toNat = 0 := by omega
    rw [hpow, h0] at h1
    exact absurd h1 (by decide)
  · rw [hpow] at h62
    by_contra hk
    have : (2 : Int) ^ 63 ≤ 2 ^ c.ctz.toNat := pow_le_pow_right₀ (by norm_num) (by omega)
    omega

theorem bias_toNat (l : BitVec 64) {k : BitVec 64} (h1 : 1 ≤ k.toNat) (h2 : k.toNat ≤ 62) :
    (ushr (sshr l 63) (64 - k)).toNat = if l.toInt < 0 then 2 ^ k.toNat - 1 else 0 := by
  have hk : (64 - k).toNat = 64 - k.toNat := by
    rw [BitVec.toNat_sub_of_le (BitVec.le_def.mpr (by simpa using (by omega : k.toNat ≤ 64)))]; rfl
  have hs : (sshr l 63).toInt = if l.toInt < 0 then -1 else 0 := by
    have := l.toInt_lt
    have := l.le_toInt
    rw [sshr_toInt l (by decide)]
    change l.toInt / 2 ^ 63 = _
    split <;> omega
  rw [ushr, hk, Nat.mod_eq_of_lt (by omega), BitVec.toNat_ushiftRight, Nat.shiftRight_eq_div_pow]
  split at hs
  case isTrue h =>
    have hall : (sshr l 63).toNat = 2 ^ 64 - 1 := by
      have := BitVec.toInt_eq_toNat_cond (sshr l 63)
      split at * <;> omega
    have hsplit : 2 ^ 64 = 2 ^ (64 - k.toNat) * 2 ^ k.toNat := by
      rw [← pow_add]; congr 1; omega
    have hp := Nat.two_pow_pos (64 - k.toNat)
    rw [hall, if_pos h, Nat.div_eq_iff hp, hsplit]
    have hm : (2 ^ k.toNat - 1) * 2 ^ (64 - k.toNat) =
        2 ^ (64 - k.toNat) * 2 ^ k.toNat - 2 ^ (64 - k.toNat) := by
      rw [Nat.sub_mul, one_mul, mul_comm]
    omega
  case isFalse h =>
    have hz : (sshr l 63).toNat = 0 := by
      have := BitVec.toInt_eq_toNat_cond (sshr l 63)
      split at * <;> omega
    rw [hz, if_neg h, Nat.zero_div]

theorem shiftQuotient_eq {c l : BitVec 64} (h : isShiftDivisor c = true) : shiftQuotient c l = l.sdiv c := by
  obtain ⟨k, h1, h62, hk, hnat, hint⟩ := shiftDivisor_spec h
  have hle := l.le_toInt
  have hpow : (2 : Int) ^ k ≤ 2 ^ 62 := pow_le_pow_right₀ (by norm_num) h62
  have hpos : (0 : Int) < 2 ^ k := by positivity
  have hb := bias_toNat l (k := trailingZeros c) (by omega) (by omega)
  rw [hk] at hb
  have hsum : (l + ushr (sshr l 63) (64 - trailingZeros c)).toInt =
      l.toInt + if l.toInt < 0 then 2 ^ k - 1 else 0 := by
    have hbint : (ushr (sshr l 63) (64 - trailingZeros c)).toInt =
        if l.toInt < 0 then (2 : Int) ^ k - 1 else 0 := by
      have hcast : ((2 ^ k - 1 : Nat) : Int) = 2 ^ k - 1 := by
        have := Nat.two_pow_pos k
        push_cast [Nat.cast_sub this]; rfl
      have := BitVec.toInt_eq_toNat_cond (ushr (sshr l 63) (64 - trailingZeros c))
      split at hb <;> split at this <;> omega
    have := l.toInt_lt
    rw [BitVec.toInt_add, hbint, Int.bmod_eq_of_le_mul_two] <;> split <;> omega
  apply BitVec.eq_of_toInt_eq
  have hneg : c ≠ -1#64 := by
    rintro rfl
    revert h; decide
  rw [BitVec.toInt_sdiv_of_ne_or_ne _ _ (.inr hneg), hint, tdiv_two_pow_eq_biased, ← hsum]
  exact (sshr_toInt _ (by omega)).trans (by rw [hk])

/-- What a division or a remainder leaves: the two gates, then the signed operation. -/
def gated (l r res : BitVec 64) : Except Trap (BitVec 64) :=
  if r = 0 then .error .divisionByZero
  else if l = BitVec.intMin 64 ∧ r = -1 then .error .overflow
  else .ok res

theorem divisionGates_eq (l r : BitVec 64) :
    divisionGates l r = if r = 0 then .error .divisionByZero
      else if l = BitVec.intMin 64 ∧ r = -1 then .error .overflow else .ok () := by
  unfold divisionGates trapnz icmp
  by_cases h0 : r = 0
  · simp [h0]; rfl
  · by_cases hm : l = BitVec.intMin 64 ∧ r = -1
    · rw [if_neg h0, if_pos hm]
      simp [hm]; rfl
    · rw [if_neg h0, if_neg hm, if_neg (by simpa using h0), if_neg (by simpa using hm)]; rfl

theorem divisionGates_bind (l r : BitVec 64) (k : Except Trap (BitVec 64)) (res : BitVec 64)
    (hk : r ≠ 0 → ¬(l = BitVec.intMin 64 ∧ r = -1) → k = .ok res) :
    (divisionGates l r >>= fun _ => k) = gated l r res := by
  rw [divisionGates_eq, gated]
  split_ifs with h0 hm
  · rfl
  · rfl
  · exact hk h0 hm

theorem sdiv_eq_ofInt (l r : BitVec 64) : l.sdiv r = BitVec.ofInt 64 (l.toInt.tdiv r.toInt) :=
  BitVec.eq_of_toInt_eq (by rw [BitVec.toInt_sdiv, BitVec.toInt_ofInt])

theorem srem_eq_ofInt (l r : BitVec 64) : l.srem r = BitVec.ofInt 64 (l.toInt.tmod r.toInt) := by
  rw [← BitVec.toInt_srem, BitVec.ofInt_toInt]

theorem shiftRemainder_eq {c l : BitVec 64} (h : isShiftDivisor c = true) :
    l - ishl (shiftQuotient c l) (trailingZeros c) = l.srem c := by
  obtain ⟨k, h1, h62, hk, hnat, hint⟩ := shiftDivisor_spec h
  have hc : BitVec.twoPow 64 (trailingZeros c).toNat = c :=
    BitVec.eq_of_toNat_eq (by rw [hk, BitVec.toNat_twoPow_of_lt (by omega), hnat])
  rw [shiftQuotient_eq h, ishl_eq_mul _ _ (by omega), hc, sdiv_eq_ofInt, srem_eq_ofInt,
    Int.tmod_def, ofInt_sub, BitVec.ofInt_toInt, BitVec.ofInt_mul, BitVec.ofInt_toInt,
    BitVec.mul_comm]

variable {l r : BitVec 64} {ctx : BinopCtx}

theorem divArm_eq (hk : ctx.Known l r) : divArm ctx l r = gated l r (l.sdiv r) := by
  unfold divArm
  apply divisionGates_bind
  intro h0 hm
  have hs : sdiv l r = .ok (l.sdiv r) := by rw [sdiv, if_neg h0, if_neg hm]
  cases hc : ctx.constRight with
  | none => exact hs
  | some c =>
    obtain rfl := hk.right c hc
    by_cases h : isShiftDivisor c = true
    · simp [h, shiftQuotient_eq h]; rfl
    · simp [h, hs]

theorem remArm_eq (hk : ctx.Known l r) : remArm ctx l r = gated l r (l.srem r) := by
  unfold remArm
  apply divisionGates_bind
  intro h0 hm
  have hs : srem l r = .ok (l.srem r) := by rw [srem, if_neg h0]
  cases hc : ctx.constRight with
  | none => exact hs
  | some c =>
    obtain rfl := hk.right c hc
    by_cases h : isShiftDivisor c = true
    · simp [h, shiftRemainder_eq h]; rfl
    · simp [h, hs]

/-- The operands on which a division is lowered right. On a wide unsigned type the signed quotient
of two values below `2 ^ 63` is right, and past that only where it happens to be the same word. -/
def DivAgrees (T : IntTy) (x y : Int) : Prop :=
  wideUnsigned T = true →
    y = 0 ∨ (x < 2 ^ 63 ∧ y < 2 ^ 63) ∨ y = 1 ∨ (x < 2 ^ 63 ∧ 2 ^ 63 ≤ y ∧ x + y < 2 ^ 64) ∨ x = y

/-- The operands on which a remainder is lowered right. -/
def RemAgrees (T : IntTy) (x y : Int) : Prop :=
  wideUnsigned T = true →
    y = 0 ∨ (x < 2 ^ 63 ∧ y < 2 ^ 63) ∨ (x < 2 ^ 63 ∧ 2 ^ 63 ≤ y ∧ x + y < 2 ^ 64) ∨ x = y ∨
      (y < 2 ^ 63 ∧ 2 ^ 63 ≤ x ∧ y ∣ x ∧ y ∣ 2 ^ 64)

/-- A number below `2 ^ 64` that `2 ^ 64` divides is zero. -/
theorem eq_zero_of_dvd_two_pow {z : Int} (h0 : 0 ≤ z) (h1 : z < 2 ^ 64) : (2 ^ 64 : Int) ∣ z ↔ z = 0 :=
  ⟨fun h => by omega, fun h => by rw [h]; exact dvd_zero _⟩

/-- A small dividend over a divisor read as negative. -/
theorem quotient_small_wrapped {x b : Int} (hx0 : 0 ≤ x) (_ : x < 2 ^ 63) (hb : 0 < b)
    (hxy : x < 2 ^ 64 - b) :
    (2 ^ 64 : Int) ∣ x.tdiv (-b) - x / (2 ^ 64 - b) ↔ x < b := by
  have hle := Int.ediv_le_self b hx0
  have h0 := Int.ediv_nonneg hx0 hb.le
  rw [Int.tdiv_neg, Int.tdiv_eq_ediv_of_nonneg hx0, Int.ediv_eq_zero_of_lt hx0 hxy, sub_zero,
    Int.dvd_neg, eq_zero_of_dvd_two_pow h0 (by omega)]
  constructor
  · intro h
    by_contra hlt
    have := Int.le_ediv_of_mul_le hb (by omega : 1 * b ≤ x)
    omega
  · exact fun h => Int.ediv_eq_zero_of_lt hx0 h

/-- A dividend read as negative over a small divisor. -/
theorem quotient_wrapped_small {a y : Int} (ha : 0 < a) (ha63 : a ≤ 2 ^ 63) (hy : 0 < y)
    (hy63 : y < 2 ^ 63) :
    (2 ^ 64 : Int) ∣ (-a).tdiv y - (2 ^ 64 - a) / y ↔ y = 1 := by
  rw [Int.neg_tdiv, Int.tdiv_eq_ediv_of_nonneg ha.le]
  have h1 := Int.ediv_nonneg ha.le hy.le
  have h2 : 1 ≤ (2 ^ 64 - a) / y := Int.le_ediv_of_mul_le hy (by omega)
  have hm1 := Int.ediv_mul_le a hy.ne'
  have hm2 := Int.ediv_mul_le (2 ^ 64 - a) hy.ne'
  constructor
  · intro h
    by_contra hne
    have hs : (a / y + (2 ^ 64 - a) / y) * 2 ≤ (a / y + (2 ^ 64 - a) / y) * y :=
      mul_le_mul_of_nonneg_left (by omega) (by omega)
    rw [add_mul (a / y) _ y] at hs
    omega
  · rintro rfl
    rw [Int.ediv_one, Int.ediv_one]; omega

/-- Both operands read as negative. -/
theorem quotient_wrapped_wrapped {a b : Int} (ha : 0 < a) (ha63 : a ≤ 2 ^ 63) (hb : 0 < b)
    (hb63 : b ≤ 2 ^ 63) :
    (2 ^ 64 : Int) ∣ (-a).tdiv (-b) - (2 ^ 64 - a) / (2 ^ 64 - b) ↔ a = b := by
  rw [Int.neg_tdiv, Int.tdiv_neg, neg_neg, Int.tdiv_eq_ediv_of_nonneg ha.le]
  have hle := Int.ediv_le_self b ha.le
  rcases lt_trichotomy a b with h | h | h
  · rw [Int.ediv_eq_zero_of_lt ha.le h,
      show (2 ^ 64 - a) / (2 ^ 64 - b) = 1 from by
        rw [Int.ediv_eq_iff_of_pos (by omega)]; omega]
    omega
  · subst h
    rw [Int.ediv_self hb.ne', Int.ediv_self (by omega)]; simp
  · have h1 := Int.le_ediv_of_mul_le hb (by omega : 1 * b ≤ a)
    rw [Int.ediv_eq_zero_of_lt (by omega : (0 : Int) ≤ 2 ^ 64 - a) (by omega)]
    omega

theorem remainder_small_wrapped {x b : Int} (hx0 : 0 ≤ x) (_ : x < 2 ^ 63) (hb : 0 < b)
    (hxy : x < 2 ^ 64 - b) :
    (2 ^ 64 : Int) ∣ x.tmod (-b) - x % (2 ^ 64 - b) ↔ x < b := by
  have h0 := Int.emod_nonneg x hb.ne'
  have h1 := Int.emod_lt_of_pos x hb
  rw [Int.tmod_neg, Int.tmod_eq_emod_of_nonneg hx0, Int.emod_eq_of_lt hx0 hxy]
  constructor
  · intro h; omega
  · intro h; rw [Int.emod_eq_of_lt hx0 h, sub_self]; exact dvd_zero _

theorem remainder_wrapped_small {a y : Int} (ha : 0 < a) (hy : 0 < y) (hy63 : y < 2 ^ 63) :
    (2 ^ 64 : Int) ∣ (-a).tmod y - (2 ^ 64 - a) % y ↔ y ∣ 2 ^ 64 - a ∧ y ∣ 2 ^ 64 := by
  have h0 := Int.emod_nonneg a hy.ne'
  have h1 := Int.emod_lt_of_pos a hy
  have h2 := Int.emod_nonneg (2 ^ 64 - a) hy.ne'
  have h3 := Int.emod_lt_of_pos (2 ^ 64 - a) hy
  rw [Int.neg_tmod, Int.tmod_eq_emod_of_nonneg ha.le]
  have hiff : (2 ^ 64 : Int) ∣ -(a % y) - (2 ^ 64 - a) % y ↔
      a % y = 0 ∧ (2 ^ 64 - a) % y = 0 := by
    constructor
    · intro h; omega
    · rintro ⟨h, h'⟩; rw [h, h']; decide
  rw [hiff, ← Int.dvd_iff_emod_eq_zero, ← Int.dvd_iff_emod_eq_zero]
  constructor
  · rintro ⟨h, h'⟩
    exact ⟨h', by simpa using dvd_add h' h⟩
  · rintro ⟨h, h'⟩
    exact ⟨by simpa using dvd_sub h' h, h⟩

theorem remainder_wrapped_wrapped {a b : Int} (ha : 0 < a) (ha63 : a ≤ 2 ^ 63) (hb : 0 < b)
    (hb63 : b ≤ 2 ^ 63) :
    (2 ^ 64 : Int) ∣ (-a).tmod (-b) - (2 ^ 64 - a) % (2 ^ 64 - b) ↔ a = b := by
  have h0 := Int.emod_nonneg a hb.ne'
  have h1 := Int.emod_lt_of_pos a hb
  rw [Int.neg_tmod, Int.tmod_neg, Int.tmod_eq_emod_of_nonneg ha.le]
  rcases lt_trichotomy a b with h | h | h
  · have hm : (2 ^ 64 - a) % (2 ^ 64 - b) = b - a := by
      rw [show (2 : Int) ^ 64 - a = (b - a) + 1 * (2 ^ 64 - b) by ring, Int.add_mul_emod_self_right,
        Int.emod_eq_of_lt (by omega) (by omega)]
    rw [Int.emod_eq_of_lt ha.le h, hm]
    omega
  · subst h; simp
  · rw [Int.emod_eq_of_lt (by omega : (0 : Int) ≤ 2 ^ 64 - a) (by omega)]
    omega

variable {T : IntTy}

theorem quotient_wide_iff (hw : wideUnsigned T = true) (l r : BitVec 64)
    (hr : T.decode r ≠ 0) :
    (2 ^ 64 : Int) ∣ l.toInt.tdiv r.toInt - T.decode l / T.decode r ↔
      DivAgrees T (T.decode l) (T.decode r) := by
  obtain ⟨hl0, hl1, -⟩ := toInt_wideUnsigned hw l
  obtain ⟨hr0, hr1, -⟩ := toInt_wideUnsigned hw r
  simp only [DivAgrees, hw, forall_const]
  by_cases hx : T.decode l < 2 ^ 63 <;> by_cases hy : T.decode r < 2 ^ 63
  · rw [toInt_small hw l hx, toInt_small hw r hy, Int.tdiv_eq_ediv_of_nonneg hl0, sub_self]
    exact ⟨fun _ => .inr (.inl ⟨hx, hy⟩), fun _ => dvd_zero _⟩
  · obtain ⟨b, hb, -, hrb, hry⟩ := toInt_wrapped hw r hy
    rw [toInt_small hw l hx, hrb, hry, quotient_small_wrapped hl0 hx hb (by omega)]
    omega
  · obtain ⟨a, ha, ha63, hla, hlx⟩ := toInt_wrapped hw l hx
    rw [toInt_small hw r hy, hla, hlx, quotient_wrapped_small ha ha63 (by omega) hy]
    omega
  · obtain ⟨a, ha, ha63, hla, hlx⟩ := toInt_wrapped hw l hx
    obtain ⟨b, hb, hb63, hrb, hry⟩ := toInt_wrapped hw r hy
    rw [hla, hrb, hlx, hry, quotient_wrapped_wrapped ha ha63 hb hb63]
    omega

theorem remainder_wide_iff (hw : wideUnsigned T = true) (l r : BitVec 64)
    (hr : T.decode r ≠ 0) :
    (2 ^ 64 : Int) ∣ l.toInt.tmod r.toInt - T.decode l % T.decode r ↔
      RemAgrees T (T.decode l) (T.decode r) := by
  obtain ⟨hl0, hl1, -⟩ := toInt_wideUnsigned hw l
  obtain ⟨hr0, hr1, -⟩ := toInt_wideUnsigned hw r
  simp only [RemAgrees, hw, forall_const]
  by_cases hx : T.decode l < 2 ^ 63 <;> by_cases hy : T.decode r < 2 ^ 63
  · rw [toInt_small hw l hx, toInt_small hw r hy, Int.tmod_eq_emod_of_nonneg hl0, sub_self]
    exact ⟨fun _ => .inr (.inl ⟨hx, hy⟩), fun _ => dvd_zero _⟩
  · obtain ⟨b, hb, -, hrb, hry⟩ := toInt_wrapped hw r hy
    rw [toInt_small hw l hx, hrb, hry, remainder_small_wrapped hl0 hx hb (by omega)]
    omega
  · obtain ⟨a, ha, ha63, hla, hlx⟩ := toInt_wrapped hw l hx
    rw [toInt_small hw r hy, hla, hlx, remainder_wrapped_small ha (by omega) hy]
    constructor
    · exact fun h => .inr (.inr (.inr (.inr ⟨hy, by omega, h⟩)))
    · rintro (h | h | h | h | h)
      · exact absurd h hr
      · omega
      · omega
      · omega
      · exact h.2.2
  · obtain ⟨a, ha, ha63, hla, hlx⟩ := toInt_wrapped hw l hx
    obtain ⟨b, hb, hb63, hrb, hry⟩ := toInt_wrapped hw r hy
    rw [hla, hrb, hlx, hry, remainder_wrapped_wrapped ha ha63 hb hb63]
    omega

theorem narrow_ne_intMin {v : BitVec 64} (hn : T.narrow = true) (hc : T.Canonical v) : v ≠ BitVec.intMin 64 := by
  rintro rfl
  obtain ⟨h, -⟩ := narrow_range hn hc
  have hr := toInt_eq_decode hc (by simp [wideUnsigned, hn])
  rw [← hr] at h
  exact absurd h (by decide)

theorem contains_tdiv (h : ¬(l = BitVec.intMin 64 ∧ r = -1)) : IntTy.int.Contains (l.toInt.tdiv r.toInt) := by
  have hne : l ≠ BitVec.intMin 64 ∨ r ≠ -1#64 := by
    by_contra hc
    rw [not_or, not_ne_iff, not_ne_iff] at hc
    exact h hc
  rw [← BitVec.toInt_sdiv_of_ne_or_ne l r hne]
  exact IntTy.contains_decode_int _

/-- A remainder lies between zero and the dividend. -/
theorem contains_tmod {x : Int} (hx : T.Contains x) (y : Int) : T.Contains (x.tmod y) := by
  have h0 : T.lo ≤ 0 ∧ 0 ≤ T.hi := by cases T <;> decide
  have hb : (0 ≤ x.tmod y ∧ x.tmod y ≤ x) ∨ (x ≤ x.tmod y ∧ x.tmod y ≤ 0) := by
    rcases le_total 0 x with h | h
    · left
      have h2 := Nat.mod_le x.natAbs y.natAbs
      have h3 := Int.natAbs_tmod x y
      have h4 := Int.tmod_nonneg y h
      omega
    · right
      have h2 := Nat.mod_le x.natAbs y.natAbs
      have h3 := Int.natAbs_tmod x y
      have h4 : x.tmod y ≤ 0 := by
        have := Int.tmod_nonneg y (by omega : 0 ≤ -x)
        rw [Int.neg_tmod] at this
        omega
      omega
  unfold IntTy.Contains at *
  omega

/-- The one quotient out of range, of the values of an `Int`. -/
theorem gate_int : (l = BitVec.intMin 64 ∧ r = -1) ↔ (l.toInt = IntTy.int.lo ∧ r.toInt = -1) := by
  rw [← BitVec.toInt_inj, ← BitVec.toInt_inj]; exact Iff.rfl

/-- The lowering of `/`. -/
theorem div_lowered_iff (hl : T.Canonical l) (hr : T.Canonical r) :
    (gated l r (l.sdiv r)).map (widthFixup T.repr) =
      (if T.decode r = 0 then .error .divisionByZero
        else (T.checked ((T.decode l).tdiv (T.decode r))).map T.encode) ↔
      DivAgrees T (T.decode l) (T.decode r) := by
  unfold gated
  by_cases h0 : r = 0
  · rw [if_pos h0, if_pos (decode_eq_zero.mpr h0)]
    exact ⟨fun _ _ => .inl (decode_eq_zero.mpr h0), fun _ => rfl⟩
  have hd0 : T.decode r ≠ 0 := mt decode_eq_zero.mp h0
  rw [if_neg h0, if_neg hd0, sdiv_eq_ofInt]
  cases hu : wideUnsigned T with
  | false =>
    refine iff_of_true ?_ (fun h => Bool.noConfusion (hu ▸ h))
    rw [toInt_eq_decode hl hu, toInt_eq_decode hr hu]
    change Except.map _ (if _ then _ else Except.ok (T.encode _)) = _
    cases hn : T.narrow with
    | true =>
      rw [if_neg (fun h => narrow_ne_intMin hn hl h.1)]
      simp [IntTy.checked, hn, Except.map, widthFixup_encode]
    | false =>
      obtain rfl : T = .int := by
        cases T <;> first | rfl | (revert hu hn; decide)
      by_cases hg : l = BitVec.intMin 64 ∧ r = -1
      · obtain ⟨rfl, rfl⟩ := hg
        rfl
      · have hc := contains_tdiv hg
        rw [toInt_eq_decode hl hu, toInt_eq_decode hr hu] at hc
        rw [if_neg hg, IntTy.checked, hn, if_neg (by decide), if_pos hc]
        simp [Except.map, widthFixup_encode, IntTy.wrap_of_contains hc]
  | true =>
    have hn : T.narrow = false := by cases T <;> simp_all [wideUnsigned]
    obtain ⟨hl0, hl1, -⟩ := toInt_wideUnsigned hu l
    obtain ⟨hr0, hr1, -⟩ := toInt_wideUnsigned hu r
    have hq0 := Int.ediv_nonneg hl0 hr0
    have hq1 := Int.ediv_le_self (T.decode r) hl0
    have hc : T.Contains (T.decode l / T.decode r) := by
      cases T <;> simp_all [wideUnsigned, IntTy.Contains, IntTy.lo, IntTy.hi, IntTy.signed,
        IntTy.width, IntTy.narrow] <;> omega
    have hck : T.checked (T.decode l / T.decode r) = .ok (T.decode l / T.decode r) := by
      simp [IntTy.checked, hn, hc]
    rw [Int.tdiv_eq_ediv_of_nonneg hl0, hck]
    by_cases hg : l = BitVec.intMin 64 ∧ r = -1
    · rw [if_pos hg]
      obtain ⟨rfl, rfl⟩ := hg
      refine iff_of_false (fun h => by cases h) ?_
      rw [DivAgrees, decode_wideUnsigned hu, decode_wideUnsigned hu]
      intro h
      exact absurd (h hu) (by decide)
    · rw [if_neg hg, ← quotient_wide_iff hu l r hd0]
      change Except.ok (widthFixup T.repr (T.encode _)) = Except.ok _ ↔ _
      rw [widthFixup_encode, encode_wrap_wide hn, Except.ok.injEq, encode_eq_encode]

/-- The lowering of `%`. -/
theorem rem_lowered_iff (hl : T.Canonical l) (hr : T.Canonical r) :
    (gated l r (l.srem r)).map (widthFixup T.repr) =
      (T.remainder (T.decode l) (T.decode r)).map T.encode ↔
      RemAgrees T (T.decode l) (T.decode r) := by
  unfold gated IntTy.remainder
  by_cases h0 : r = 0
  · rw [if_pos h0, if_pos (decode_eq_zero.mpr h0)]
    exact ⟨fun _ _ => .inl (decode_eq_zero.mpr h0), fun _ => rfl⟩
  have hd0 : T.decode r ≠ 0 := mt decode_eq_zero.mp h0
  rw [if_neg h0, if_neg hd0, srem_eq_ofInt]
  cases hu : wideUnsigned T with
  | false =>
    refine iff_of_true ?_ (fun h => Bool.noConfusion (hu ▸ h))
    have hc := contains_tmod hl (T.decode r)
    rw [toInt_eq_decode hl hu, toInt_eq_decode hr hu]
    change Except.map _ (if _ then _ else Except.ok (T.encode _)) = _
    cases hn : T.narrow with
    | true =>
      rw [if_neg (fun h => narrow_ne_intMin hn hl h.1),
        if_neg (fun h => by rw [h.1] at hn; cases hn)]
      simp [Except.map, widthFixup_encode, IntTy.wrap_of_contains hc]
    | false =>
      obtain rfl : T = .int := by
        cases T <;> first | rfl | (revert hu hn; decide)
      by_cases hg : l = BitVec.intMin 64 ∧ r = -1
      · rw [if_pos hg, if_pos ⟨rfl, gate_int.mp hg⟩]; rfl
      · rw [if_neg hg, if_neg (fun h => hg (gate_int.mpr h.2))]
        simp [Except.map, widthFixup_encode, IntTy.wrap_of_contains hc]
  | true =>
    have hn : T.narrow = false := by cases T <;> simp_all [wideUnsigned]
    obtain ⟨hl0, hl1, -⟩ := toInt_wideUnsigned hu l
    have hne : ¬(T = .int ∧ T.decode l = T.lo ∧ T.decode r = -1) := by
      rintro ⟨rfl, -⟩
      cases hu
    rw [Int.tmod_eq_emod_of_nonneg hl0]
    by_cases hg : l = BitVec.intMin 64 ∧ r = -1
    · rw [if_pos hg, if_neg hne]
      obtain ⟨rfl, rfl⟩ := hg
      refine iff_of_false (fun h => by cases h) ?_
      rw [RemAgrees, decode_wideUnsigned hu, decode_wideUnsigned hu]
      intro h
      exact absurd (h hu) (by decide)
    · rw [if_neg hg, if_neg hne, ← remainder_wide_iff hu l r hd0]
      change Except.ok (widthFixup T.repr (T.encode _)) = Except.ok _ ↔ _
      rw [widthFixup_encode, encode_wrap_wide hn, Except.ok.injEq, encode_eq_encode]

theorem eval_div (x y : Int) :
    (T.eval .div x y).map (·.slot T) =
      if y = 0 then .error .divisionByZero else (T.checked (x.tdiv y)).map T.encode := by
  change Except.map _ (if _ then _ else _ <$> _) = _
  split
  · rfl
  · cases T.checked (x.tdiv y) <;> rfl

theorem eval_rem (x y : Int) : (T.eval .rem x y).map (·.slot T) = (T.remainder x y).map T.encode := by
  change Except.map _ (_ <$> _) = _
  cases T.remainder x y <;> rfl

/-- A folded quotient or remainder is past the machine's gates, and is what they let through. -/
theorem folded_gated {op : IntOp} {l r res : BitVec 64} {c : FoldedConst}
    (hc : (if (r ≠ 0 && !(l = BitVec.intMin 64 && r = -1)) = true
      then some (dmWrapI64ToRepr T.repr res) else none).map FoldedConst.int = some c)
    (h : ¬(l = BitVec.intMin 64 ∧ r = -1) → (gated l r res).map (widthFixup T.repr) =
      (T.eval op (T.decode l) (T.decode r)).map (·.slot T)) :
    (T.eval op (T.decode l) (T.decode r)).map (·.slot T) = .ok c.slot := by
  split at hc
  case isFalse => cases hc
  case isTrue hg =>
    simp only [ne_eq, Bool.and_eq_true, decide_eq_true_eq, Bool.not_eq_true'] at hg
    have hgate : ¬(l = BitVec.intMin 64 ∧ r = -1) := by simpa using hg.2
    cases hc
    rw [← h hgate, gated, if_neg hg.1, if_neg hgate, widthFixup_eq_dmWrap]
    rfl

theorem folded_div (hl : T.Canonical l) (hr : T.Canonical r)
    (hag : ¬(l = BitVec.intMin 64 ∧ r = -1) → DivAgrees T (T.decode l) (T.decode r)) :
    Folded T .div l r := by
  intro c hc
  rw [IntOp.spelling, foldIntBinOp_arith rfl rfl] at hc
  exact folded_gated hc fun hg => ((div_lowered_iff hl hr).mpr (hag hg)).trans (eval_div _ _).symm

theorem folded_rem (hl : T.Canonical l) (hr : T.Canonical r)
    (hag : ¬(l = BitVec.intMin 64 ∧ r = -1) → RemAgrees T (T.decode l) (T.decode r)) :
    Folded T .rem l r := by
  intro c hc
  rw [IntOp.spelling, foldIntBinOp_arith rfl rfl] at hc
  exact folded_gated hc fun hg => ((rem_lowered_iff hl hr).mpr (hag hg)).trans (eval_rem _ _).symm

/-- The quotient and the remainder: lowered right exactly where the machine's agree, and folded to
what the lowering leaves. -/
theorem slot_div (hl : T.Canonical l)
    (hr : T.Canonical r) (hk : ctx.Known l r) :
    (Lowered ctx T .div l r ∧ Folded T .div l r) ↔ DivAgrees T (T.decode l) (T.decode r) := by
  have hlow : compileBinop ctx "/" T.repr l r =
      .ok ((gated l r (l.sdiv r)).map (widthFixup T.repr)) :=
    compileBinop_value rfl (by rw [← divArm_eq hk]; rfl)
  rw [Lowered, eval_div, IntOp.spelling, hlow, Except.ok.injEq, div_lowered_iff hl hr,
    and_iff_left_iff_imp]
  exact fun hag => folded_div hl hr fun _ => hag

theorem slot_rem (hl : T.Canonical l)
    (hr : T.Canonical r) (hk : ctx.Known l r) :
    (Lowered ctx T .rem l r ∧ Folded T .rem l r) ↔ RemAgrees T (T.decode l) (T.decode r) := by
  have hlow : compileBinop ctx "%" T.repr l r =
      .ok ((gated l r (l.srem r)).map (widthFixup T.repr)) :=
    compileBinop_value rfl (by rw [← remArm_eq hk]; rfl)
  rw [Lowered, eval_rem, IntOp.spelling, hlow, Except.ok.injEq, rem_lowered_iff hl hr,
    and_iff_left_iff_imp]
  exact fun hag => folded_rem hl hr fun _ => hag

end Datara.Codegen
