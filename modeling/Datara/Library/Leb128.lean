import Mathlib.Algebra.Group.Int.Defs
import Mathlib.Algebra.Group.Nat.Defs
import Mathlib.Data.List.Basic

/-!
# LEB128 numbers

The `uN` and `sN` of a binary format: seven bits to a byte, the lowest first, and the high bit set on every byte but the
last. A number has at most as many bytes as `N` bits need, and the bits of the last that are left over repeat its sign.
-/

namespace Datara.Library.Leb128

/-- `uN`: the number, and what follows. -/
def decodeU (N : Nat) : List UInt8 → Option (Nat × List UInt8)
  | [] => none
  | b :: rest =>
    if b.toNat < 128 then if b.toNat < 2 ^ N then some (b.toNat, rest) else none
    else if 7 < N then (decodeU (N - 7) rest).map fun (m, rest) => (128 * m + (b.toNat - 128), rest)
    else none

/-- `sN`. -/
def decodeS (N : Nat) : List UInt8 → Option (Int × List UInt8)
  | [] => none
  | b :: rest =>
    if b.toNat < 64 then if b.toNat < 2 ^ (N - 1) then some (b.toNat, rest) else none
    else if b.toNat < 128 then if 128 - 2 ^ (N - 1) ≤ b.toNat then some (b.toNat - 128, rest) else none
    else if 7 < N then (decodeS (N - 7) rest).map fun (m, rest) => (128 * m + (b.toNat - 128), rest)
    else none

/-- The bytes are a number's: all but the last go on. -/
def Terminated : List UInt8 → Prop
  | [] => False
  | [b] => b.toNat < 128
  | b :: rest => 128 ≤ b.toNat ∧ Terminated rest

/-- The number that the groups of seven bits make. -/
def value : List UInt8 → Nat
  | [] => 0
  | b :: rest => b.toNat % 128 + 128 * value rest

section
variable {N : Nat} {b : UInt8} {bs used rest : List UInt8} {v : Nat}

theorem pow_split (h : 7 < N) : 2 ^ N = 128 * 2 ^ (N - 7) := by
  rw [show (128 : Nat) = 2 ^ 7 from rfl, ← Nat.pow_add, Nat.add_sub_cancel' (Nat.le_of_lt h)]

theorem terminated_cons (h : bs ≠ []) : Terminated (b :: bs) ↔ 128 ≤ b.toNat ∧ Terminated bs := by
  cases bs with
  | nil => exact absurd rfl h
  | cons c bs => rfl

theorem Terminated.ne_nil (h : Terminated bs) : bs ≠ [] := by
  rintro rfl
  exact h

theorem decodeU_shortens (h : decodeU N bs = some (v, rest)) : rest.length < bs.length := by
  induction bs generalizing N v with
  | nil => cases h
  | cons b bs ih =>
    rw [decodeU] at h
    split at h
    · obtain ⟨-, h⟩ := Option.ite_none_right_eq_some.mp h
      rw [← (Prod.mk.inj (Option.some.inj h)).2]
      exact Nat.lt_succ_self _
    · obtain ⟨-, h⟩ := Option.ite_none_right_eq_some.mp h
      obtain ⟨⟨m, rest'⟩, hm, h⟩ := Option.map_eq_some_iff.mp h
      obtain ⟨-, rfl⟩ := Prod.mk.inj h
      exact Nat.lt_succ_of_lt (ih hm)

/-- **What a `uN` is**: bytes of which only the last ends it, no more than `N` bits need, of a number of `N` bits. -/
theorem decodeU_iff (hN : 0 < N) : decodeU N (used ++ rest) = some (v, rest) ↔
    Terminated used ∧ value used = v ∧ v < 2 ^ N ∧ 7 * (used.length - 1) < N := by
  induction used generalizing N v with
  | nil => exact ⟨fun h => absurd (decodeU_shortens h) (Nat.lt_irrefl _), fun h => h.1.elim⟩
  | cons b used ih =>
    rw [List.cons_append, decodeU]
    by_cases hend : b.toNat < 128
    · rw [if_pos hend]
      cases used with
      | nil =>
        have hvalue : value [b] = b.toNat := by
          simp only [value]
          omega
        simp only [List.nil_append, Option.ite_none_right_eq_some, Option.some.injEq, Prod.mk.injEq, and_true,
          Terminated, hend, true_and, hvalue, List.length_singleton]
        constructor
        · rintro ⟨hlt, rfl⟩
          exact ⟨rfl, hlt, hN⟩
        · rintro ⟨rfl, hlt, -⟩
          exact ⟨hlt, rfl⟩
      | cons c used =>
        refine ⟨fun h => ?_, fun h => absurd h.1.1 (Nat.not_le.mpr hend)⟩
        obtain ⟨-, h⟩ := Option.ite_none_right_eq_some.mp h
        have hlen := congrArg List.length (Prod.mk.inj (Option.some.inj h)).2
        simp only [List.cons_append, List.length_cons, List.length_append] at hlen
        omega
    · rw [if_neg hend, Option.ite_none_right_eq_some]
      cases used with
      | nil =>
        refine ⟨fun h => ?_, fun h => absurd h.1 hend⟩
        obtain ⟨-, h⟩ := h
        obtain ⟨⟨m, rest'⟩, hm, h⟩ := Option.map_eq_some_iff.mp h
        obtain ⟨-, rfl⟩ := Prod.mk.inj h
        exact absurd (decodeU_shortens hm) (Nat.lt_irrefl _)
      | cons c used =>
        have hb := b.toNat_lt
        have hvalue : value (b :: c :: used) = b.toNat - 128 + 128 * value (c :: used) := by
          rw [value]
          omega
        rw [terminated_cons (List.cons_ne_nil c used), hvalue]
        simp only [List.length_cons, Nat.add_sub_cancel]
        constructor
        · rintro ⟨h7, h⟩
          obtain ⟨⟨m, rest'⟩, hm, h⟩ := Option.map_eq_some_iff.mp h
          obtain ⟨rfl, rfl⟩ := Prod.mk.inj h
          obtain ⟨hterm, rfl, hlt, hlen⟩ := (ih (by omega)).mp hm
          have hsplit := pow_split h7
          simp only [List.length_cons, Nat.add_sub_cancel] at hlen
          exact ⟨⟨by omega, hterm⟩, by omega, by omega, by omega⟩
        · rintro ⟨⟨-, hterm⟩, rfl, hlt, hlen⟩
          have h7 : 7 < N := by omega
          have hsplit := pow_split h7
          refine ⟨h7, Option.map_eq_some_iff.mpr ⟨(value (c :: used), rest), (ih (by omega)).mpr
            ⟨hterm, rfl, by omega, ?_⟩, ?_⟩⟩
          · simp only [List.length_cons, Nat.add_sub_cancel]
            omega
          · exact Prod.ext (Nat.add_comm _ _) rfl

end

end Datara.Library.Leb128
