import Mathlib.Data.List.Basic

/-!
# Text as bytes

The UTF-8 encoding of a text given by its characters, and its inverse on what is valid. The bytes of ASCII
characters are their codes, and no other character has a byte below 128.
-/

namespace Datara.Library

def toUtf8 (t : List Char) : List UInt8 := t.flatMap String.utf8EncodeChar

def fromUtf8 (bytes : List UInt8) : Option (List Char) :=
  (ByteArray.utf8Decode? bytes.toByteArray).map Array.toList

theorem fromUtf8_toUtf8 (t : List Char) : fromUtf8 (toUtf8 t) = some t := by
  have h : (toUtf8 t).toByteArray = t.utf8Encode := rfl
  rw [fromUtf8, h, List.utf8Decode?_utf8Encode]
  rfl

def isAscii (c : Char) : Bool := c.toNat < 128

theorem utf8_of_ascii {c : Char} (h : isAscii c = true) : String.utf8EncodeChar c = [UInt8.ofNat c.toNat] := by
  have hval : c.val ≤ 127 := by
    have hlt : c.toNat < 128 := of_decide_eq_true h
    rw [UInt32.le_iff_toNat_le]
    exact Nat.le_of_lt_succ hlt
  exact String.utf8EncodeChar_eq_singleton (Char.utf8Size_eq_one_iff.mpr hval)

theorem le_of_mem_utf8 {c : Char} {b : UInt8} (h : isAscii c = false) (hb : b ∈ String.utf8EncodeChar c) :
    128 ≤ b.toNat := by
  have marked : ∀ x m : UInt8, 128 ≤ m.toNat → 128 ≤ (x ||| m).toNat := fun x m hm => by
    rw [UInt8.toNat_or]
    exact Nat.le_trans hm Nat.right_le_or
  have hsize : c.utf8Size ≠ 1 := fun hone => by
    have hval := UInt32.le_iff_toNat_le.mp (Char.utf8Size_eq_one_iff.mp hone)
    have hlt : ¬c.toNat < 128 := of_decide_eq_false h
    exact hlt (Nat.lt_succ_of_le hval)
  have hpos := c.utf8Size_pos
  have hle := c.utf8Size_le_four
  obtain htwo | hthree | hfour : c.utf8Size = 2 ∨ c.utf8Size = 3 ∨ c.utf8Size = 4 := by omega
  · rw [String.utf8EncodeChar_eq_cons_cons htwo] at hb
    simp only [List.mem_cons, List.not_mem_nil, or_false] at hb
    rcases hb with rfl | rfl
    · exact marked _ _ (by decide)
    · exact marked _ _ (by decide)
  · rw [String.utf8EncodeChar_eq_cons_cons_cons hthree] at hb
    simp only [List.mem_cons, List.not_mem_nil, or_false] at hb
    rcases hb with rfl | rfl | rfl
    · exact marked _ _ (by decide)
    · exact marked _ _ (by decide)
    · exact marked _ _ (by decide)
  · rw [String.utf8EncodeChar_eq_cons_cons_cons_cons hfour] at hb
    simp only [List.mem_cons, List.not_mem_nil, or_false] at hb
    rcases hb with rfl | rfl | rfl | rfl
    · exact marked _ _ (by decide)
    · exact marked _ _ (by decide)
    · exact marked _ _ (by decide)
    · exact marked _ _ (by decide)

theorem mem_of_mem_toUtf8 {t : List Char} {b : UInt8} (hb : b.toNat < 128) (h : b ∈ toUtf8 t) :
    Char.ofNat b.toNat ∈ t := by
  obtain ⟨c, hc, hmem⟩ := List.mem_flatMap.mp h
  cases hascii : isAscii c with
  | false => exact absurd (le_of_mem_utf8 hascii hmem) (Nat.not_le.mpr hb)
  | true =>
    rw [utf8_of_ascii hascii, List.mem_singleton] at hmem
    have hlt : c.toNat < 128 := of_decide_eq_true hascii
    have hnat : b.toNat = c.toNat := by
      rw [hmem, UInt8.toNat_ofNat']
      omega
    rwa [hnat, Char.ofNat_toNat]

theorem toUtf8_of_ascii {t : List Char} (h : ∀ c ∈ t, isAscii c = true) :
    toUtf8 t = t.map fun c => UInt8.ofNat c.toNat := by
  induction t with
  | nil => rfl
  | cons c t ih =>
    rw [toUtf8, List.flatMap_cons, utf8_of_ascii (h c List.mem_cons_self)]
    exact congrArg _ (ih fun d hd => h d (List.mem_cons_of_mem _ hd))

end Datara.Library
