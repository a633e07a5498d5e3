import Mathlib.Data.Nat.Bitwise

/-!
# The or of two intervals

When no or of a number of one interval with a number of another goes above the greater of their upper ends
(`or_le_iff`): the bits of the smaller end are bits of the greater, and where a number of an interval can have
such a bit cleared the greater end has only ones below.
-/

namespace Datara.Library

variable {a b m n r₀ r₁ s₀ s₁ k : Nat}

/-- Where two numbers first differ, from the top, the greater has the one. -/
theorem exists_top_bit (h : n ≤ m) : n = m ∨ ∃ i, n.testBit i = false ∧ m.testBit i = true ∧
    ∀ j, i < j → n.testBit j = m.testBit j := by
  induction m using Nat.strong_induction_on generalizing n with
  | _ m ih =>
    by_cases heq : n = m
    · exact .inl heq
    · right
      obtain hsame | ⟨i, hn, hm, habove⟩ := ih (m / 2) (by omega) (n := n / 2) (by omega)
      · refine ⟨0, ?_, ?_, fun j hj => ?_⟩
        · rw [Nat.testBit_zero]
          exact decide_eq_false (by omega)
        · rw [Nat.testBit_zero]
          exact decide_eq_true (by omega)
        · obtain ⟨j, rfl⟩ := Nat.exists_eq_add_one.mpr hj
          rw [Nat.testBit_succ, Nat.testBit_succ, hsame]
      · refine ⟨i + 1, by rwa [Nat.testBit_succ], by rwa [Nat.testBit_succ], fun j hj => ?_⟩
        obtain ⟨j, rfl⟩ := Nat.exists_eq_add_one.mpr (Nat.zero_lt_of_lt hj)
        rw [Nat.testBit_succ, Nat.testBit_succ]
        exact habove j (by omega)

/-- A number of the interval has a bit of its upper end cleared, and the bits above it. -/
theorem div_lt_div_of_bit (hn : n.testBit k = false) (hm : m.testBit k = true)
    (habove : ∀ j, k < j → n.testBit j = m.testBit j) : n / 2 ^ k < m / 2 ^ k := by
  apply Nat.lt_of_testBit 0
  · rwa [Nat.testBit_div_two_pow, Nat.zero_add]
  · rwa [Nat.testBit_div_two_pow, Nat.zero_add]
  · intro j hj
    rw [Nat.testBit_div_two_pow, Nat.testBit_div_two_pow]
    exact habove _ (by omega)

/-- The greatest number of an interval with a bit of its upper end cleared. -/
theorem exists_lowered (hm : m.testBit k = true) (h : n / 2 ^ k < m / 2 ^ k) :
    ∃ a, n ≤ a ∧ a ≤ m ∧ (∀ j, k < j → a.testBit j = m.testBit j) ∧ ∀ j, j < k → a.testBit j = true := by
  have hpow : 0 < 2 ^ k := Nat.two_pow_pos k
  have hodd : m / 2 ^ k % 2 = 1 := by
    have hbit : (m / 2 ^ k).testBit 0 = true := by rwa [Nat.testBit_div_two_pow, Nat.zero_add]
    rw [Nat.testBit_zero] at hbit
    exact of_decide_eq_true hbit
  obtain ⟨q, hq⟩ : ∃ q, m / 2 ^ k = q + 1 := Nat.exists_eq_add_one.mpr (Nat.zero_lt_of_lt h)
  have hlow : 2 ^ k - 1 < 2 ^ k := by omega
  have hbound : 2 ^ k * (q + 1) ≤ m := hq ▸ Nat.mul_div_le m (2 ^ k)
  refine ⟨2 ^ k * q + (2 ^ k - 1), ?_, ?_, fun j hj => ?_, fun j hj => ?_⟩
  · have hn : n < 2 ^ k * (q + 1) :=
      (Nat.lt_mul_div_succ n hpow).trans_le (Nat.mul_le_mul_left _ (hq ▸ h))
    rw [Nat.mul_succ] at hn
    omega
  · rw [Nat.mul_succ] at hbound
    omega
  · obtain ⟨j, rfl⟩ := Nat.exists_eq_add_of_lt hj
    rw [Nat.testBit_two_pow_mul_add _ hlow, if_neg (by omega)]
    have hsub : k + j + 1 - k = j + 1 := by omega
    have hm : m.testBit (k + j + 1) = (q + 1).testBit (j + 1) := by
      rw [← hq, Nat.testBit_div_two_pow]
      congr 1
      omega
    rw [hsub, hm, Nat.testBit_succ, Nat.testBit_succ]
    congr 1
    omega
  · rw [Nat.testBit_two_pow_mul_add _ hlow, if_pos hj, Nat.testBit_two_pow_sub_one]
    exact decide_eq_true hj

/-- The bits of `s₁` are bits of `r₁`, and below one that a number of either interval can do without there are
only ones in `r₁`. -/
structure OrFree (r₀ r₁ s₀ s₁ : Nat) : Prop where
  mask : ∀ k, s₁.testBit k = true → r₁.testBit k = true
  ones : ∀ k, s₁.testBit k = true → r₀ / 2 ^ k < r₁ / 2 ^ k ∨ s₀ / 2 ^ k < s₁ / 2 ^ k →
    ∀ j, j < k → r₁.testBit j = true

/-- Two numbers of the intervals where they first leave the upper ends. -/
theorem exists_first_bit (ha : a ≤ r₁) (hb : b ≤ s₁) (hne : ¬(a = r₁ ∧ b = s₁)) :
    ∃ i, (∀ j, i < j → a.testBit j = r₁.testBit j ∧ b.testBit j = s₁.testBit j) ∧
      ((a.testBit i = false ∧ r₁.testBit i = true ∧ (b.testBit i = true → s₁.testBit i = true)) ∨
        (b.testBit i = false ∧ s₁.testBit i = true)) := by
  obtain rfl | ⟨i, ha₀, ha₁, ha⟩ := exists_top_bit ha
  · obtain rfl | ⟨i, hb₀, hb₁, hb⟩ := exists_top_bit hb
    · exact absurd ⟨rfl, rfl⟩ hne
    · exact ⟨i, fun j hj => ⟨rfl, hb j hj⟩, .inr ⟨hb₀, hb₁⟩⟩
  · obtain rfl | ⟨l, hb₀, hb₁, hb⟩ := exists_top_bit hb
    · exact ⟨i, fun j hj => ⟨ha j hj, rfl⟩, .inl ⟨ha₀, ha₁, id⟩⟩
    · obtain hlt | hle := Nat.lt_or_ge i l
      · exact ⟨l, fun j hj => ⟨ha j (by omega), hb j hj⟩, .inr ⟨hb₀, hb₁⟩⟩
      · refine ⟨i, fun j hj => ⟨ha j hj, hb j (by omega)⟩, .inl ⟨ha₀, ha₁, fun hbit => ?_⟩⟩
        obtain heq | hlt := Nat.eq_or_lt_of_le hle
        · rwa [heq] at hb₁
        · rwa [← hb i hlt]

theorem OrFree.or_le (h : OrFree r₀ r₁ s₀ s₁) (ha : r₀ ≤ a ∧ a ≤ r₁) (hb : s₀ ≤ b ∧ b ≤ s₁) : a ||| b ≤ r₁ := by
  by_cases hends : a = r₁ ∧ b = s₁
  · obtain ⟨rfl, rfl⟩ := hends
    refine Nat.le_of_testBit fun j hj => ?_
    rw [Nat.testBit_or, Bool.or_eq_true] at hj
    exact hj.elim id (h.mask j)
  obtain ⟨i, habove, hfirst⟩ := exists_first_bit ha.2 hb.2 hends
  by_cases hbit : s₁.testBit i = true
  · -- below this bit the greater end has only ones
    have hones : ∀ j, j < i → r₁.testBit j = true := by
      refine h.ones i hbit (hfirst.imp (fun hlow => ?_) fun hlow => ?_)
      · exact (Nat.div_le_div_right ha.1).trans_lt
          (div_lt_div_of_bit hlow.1 hlow.2.1 fun j hj => (habove j hj).1)
      · exact (Nat.div_le_div_right hb.1).trans_lt
          (div_lt_div_of_bit hlow.1 hlow.2 fun j hj => (habove j hj).2)
    refine Nat.le_of_testBit fun j hj => ?_
    rw [Nat.testBit_or, Bool.or_eq_true] at hj
    obtain hlt | rfl | hgt := Nat.lt_trichotomy j i
    · exact hones j hlt
    · exact h.mask j hbit
    · rw [(habove j hgt).1, (habove j hgt).2] at hj
      exact hj.elim id (h.mask j)
  · -- only the first number leaves its upper end here, and the other has no bit in its place
    obtain ⟨ha₀, ha₁, hb₁⟩ | ⟨-, hb₁⟩ := hfirst
    · refine Nat.le_of_lt (Nat.lt_of_testBit i ?_ ha₁ fun j hj => ?_)
      · rw [Nat.testBit_or, ha₀, Bool.false_or]
        exact Bool.eq_false_iff.mpr fun hb => hbit (hb₁ hb)
      · rw [Nat.testBit_or, (habove j hj).1, (habove j hj).2]
        cases hs : s₁.testBit j with
        | false => exact Bool.or_false _
        | true => rw [h.mask j hs, Bool.or_true]
    · exact absurd hb₁ hbit

/-- The or with a number that has the lower bits of an upper end. -/
theorem ones_of_or_le (hle : a ||| b ≤ r₁) (habove : ∀ j, k < j → r₁.testBit j = true → (a ||| b).testBit j = true)
    (hbit : (a ||| b).testBit k = true) (hones : ∀ j, j < k → (a ||| b).testBit j = true) :
    ∀ j, j < k → r₁.testBit j = true := by
  have hge : r₁ ≤ a ||| b := by
    refine Nat.le_of_testBit fun j hj => ?_
    obtain hlt | rfl | hgt := Nat.lt_trichotomy j k
    · exact hones j hlt
    · exact hbit
    · exact habove j hgt hj
  intro j hj
  rw [Nat.le_antisymm hge hle]
  exact hones j hj

/-- **When the or of two intervals stays below the greater end.** -/
theorem or_le_iff (hr : r₀ ≤ r₁) (hs : s₀ ≤ s₁) :
    (∀ a b, r₀ ≤ a ∧ a ≤ r₁ → s₀ ≤ b ∧ b ≤ s₁ → a ||| b ≤ r₁) ↔ OrFree r₀ r₁ s₀ s₁ := by
  refine ⟨fun h => ?_, fun h a b ha hb => h.or_le ha hb⟩
  have hmask : ∀ k, s₁.testBit k = true → r₁.testBit k = true := by
    intro k hk
    have hsame : r₁ ||| s₁ = r₁ := Nat.le_antisymm (h r₁ s₁ ⟨hr, Nat.le_refl _⟩ ⟨hs, Nat.le_refl _⟩) Nat.left_le_or
    rw [← hsame, Nat.testBit_or, hk, Bool.or_true]
  refine ⟨hmask, fun k hk hlow => ?_⟩
  obtain hlow | hlow := hlow
  · obtain ⟨a, ha₀, ha₁, habove, hones⟩ := exists_lowered (hmask k hk) hlow
    refine ones_of_or_le (h a s₁ ⟨ha₀, ha₁⟩ ⟨hs, Nat.le_refl _⟩) (fun j hj hbit => ?_) ?_ fun j hj => ?_
    · rw [Nat.testBit_or, habove j hj, hbit, Bool.true_or]
    · rw [Nat.testBit_or, hk, Bool.or_true]
    · rw [Nat.testBit_or, hones j hj, Bool.true_or]
  · obtain ⟨b, hb₀, hb₁, -, hones⟩ := exists_lowered hk hlow
    refine ones_of_or_le (h r₁ b ⟨hr, Nat.le_refl _⟩ ⟨hb₀, hb₁⟩) (fun j hj hbit => ?_) ?_ fun j hj => ?_
    · rw [Nat.testBit_or, hbit, Bool.true_or]
    · rw [Nat.testBit_or, hmask k hk, Bool.true_or]
    · rw [Nat.testBit_or, hones j hj, Bool.or_true]

end Datara.Library
