import Mathlib.Tactic.Common

/-!
# Laying out an aggregate

The parts of an aggregate stand one after the other, each at the next multiple of its alignment, and
the whole is padded to the largest alignment (`Extent.total`). Parts that are smaller and less aligned
make no larger aggregate (`Extent.total_le`).
-/

namespace Datara.Library

/-- The next multiple of `a`. -/
def alignUp (a n : Nat) : Nat := (n + a - 1) / a * a

section
variable {a b n m : Nat}

theorem le_alignUp (ha : 0 < a) : n ≤ alignUp a n := by
  have h := Nat.div_add_mod (n + a - 1) a
  have hlt := Nat.mod_lt (n + a - 1) ha
  rw [Nat.mul_comm] at h
  rw [alignUp]
  omega

theorem dvd_alignUp : a ∣ alignUp a n := Nat.dvd_mul_left a _

theorem alignUp_le (ha : 0 < a) (h : n ≤ m) (hm : a ∣ m) : alignUp a n ≤ m := by
  obtain ⟨k, rfl⟩ := hm
  rw [alignUp, Nat.mul_comm a k]
  apply Nat.mul_le_mul_right
  rw [Nat.div_le_iff_le_mul ha, Nat.mul_comm k a]
  omega

/-- A smaller number is rounded to no more by a divisor of the alignment. -/
theorem alignUp_mono (ha : 0 < a) (hb : 0 < b) (hd : a ∣ b) (h : n ≤ m) : alignUp a n ≤ alignUp b m :=
  alignUp_le ha (Nat.le_trans h (le_alignUp hb)) (Nat.dvd_trans hd dvd_alignUp)

theorem alignUp_of_dvd (ha : 0 < a) (h : a ∣ n) : alignUp a n = n :=
  Nat.le_antisymm (alignUp_le ha (Nat.le_refl n) h) (le_alignUp ha)

end

/-- What a part takes up. -/
structure Extent where
  size : Nat
  align : Nat
  deriving DecidableEq, Repr

namespace Extent

/-- Where the parts stand, from `n` on. -/
def offsets (n : Nat) : List Extent → List Nat
  | [] => []
  | e :: es => alignUp e.align n :: offsets (alignUp e.align n + e.size) es

/-- Where the last part ends. -/
def stop (n : Nat) : List Extent → Nat
  | [] => n
  | e :: es => stop (alignUp e.align n + e.size) es

/-- The alignment of the whole, `a` at least. -/
def joint (a : Nat) : List Extent → Nat
  | [] => a
  | e :: es => joint (max a e.align) es

/-- The size of the whole. -/
def total (es : List Extent) : Nat := alignUp (joint 1 es) (stop 0 es)

/-- A part that takes up something, at an alignment a machine has. -/
structure Proper (e : Extent) : Prop where
  size : 0 < e.size
  align : e.align = 1 ∨ e.align = 2 ∨ e.align = 4 ∨ e.align = 8

theorem Proper.align_pos {e : Extent} (h : e.Proper) : 0 < e.align := by
  rcases h.align with h | h | h | h <;> omega

/-- The parts of one list take up no more than those of the other, one by one. -/
def Within : List Extent → List Extent → Prop :=
  List.Forall₂ fun e e' => e.size ≤ e'.size ∧ e.align ∣ e'.align

section
variable {es es' : List Extent} {n m a b : Nat}

@[simp] theorem length_offsets : (offsets n es).length = es.length := by
  induction es generalizing n with
  | nil => rfl
  | cons e es ih => simp [offsets, ih]

theorem joint_align (ha : a = 1 ∨ a = 2 ∨ a = 4 ∨ a = 8) (h : ∀ e ∈ es, e.Proper) :
    joint a es = 1 ∨ joint a es = 2 ∨ joint a es = 4 ∨ joint a es = 8 := by
  induction es generalizing a with
  | nil => exact ha
  | cons e es ih =>
    apply ih
    · have := (h e List.mem_cons_self).align
      omega
    · exact fun x hx => h x (List.mem_cons_of_mem _ hx)

theorem le_joint (he : ∀ e ∈ es, e.Proper) : a ≤ joint a es := by
  induction es generalizing a with
  | nil => exact Nat.le_refl a
  | cons e es ih =>
    exact Nat.le_trans (Nat.le_max_left a e.align) (ih fun x hx => he x (List.mem_cons_of_mem _ hx))

section
variable (h : ∀ e ∈ es, e.Proper)
include h

theorem le_stop : n ≤ stop n es := by
  induction es generalizing n with
  | nil => exact Nat.le_refl n
  | cons e es ih =>
    have hn : n ≤ alignUp e.align n := le_alignUp (h e List.mem_cons_self).align_pos
    have := @ih (alignUp e.align n + e.size) fun x hx => h x (List.mem_cons_of_mem _ hx)
    rw [stop]
    omega

/-- Every part ends where the last one does at the latest. -/
theorem offset_lt_stop : ∀ o ∈ offsets n es, o < stop n es := by
  induction es generalizing n with
  | nil => exact fun o ho => absurd ho List.not_mem_nil
  | cons e es ih =>
    have hes : ∀ x ∈ es, x.Proper := fun x hx => h x (List.mem_cons_of_mem _ hx)
    intro o ho
    rcases List.mem_cons.mp ho with rfl | ho
    · have hsize := (h e List.mem_cons_self).size
      have := @le_stop es (alignUp e.align n + e.size) hes
      rw [stop]
      omega
    · exact ih hes o ho

/-- No part is larger than the whole. -/
theorem size_le_stop : ∀ e ∈ es, e.size ≤ stop n es := by
  induction es generalizing n with
  | nil => exact fun e he => absurd he List.not_mem_nil
  | cons e es ih =>
    have hes : ∀ x ∈ es, x.Proper := fun x hx => h x (List.mem_cons_of_mem _ hx)
    intro x hx
    rcases List.mem_cons.mp hx with rfl | hx
    · have := @le_stop es (alignUp x.align n + x.size) hes
      rw [stop]
      omega
    · exact ih hes x hx

theorem stop_le_total : stop 0 es ≤ total es := by
  apply le_alignUp
  have := @le_joint es 1 h
  omega

theorem stop_le (h' : ∀ e ∈ es', e.Proper) (hw : Within es es')
    (hn : n ≤ m) : stop n es ≤ stop m es' := by
  induction hw generalizing n m with
  | nil => exact hn
  | @cons e e' es es' he _ ih =>
    have hup : alignUp e.align n ≤ alignUp e'.align m :=
      alignUp_mono (h e List.mem_cons_self).align_pos (h' e' List.mem_cons_self).align_pos he.2 hn
    apply ih
    · exact fun x hx => h x (List.mem_cons_of_mem _ hx)
    · exact fun x hx => h' x (List.mem_cons_of_mem _ hx)
    · omega

end

theorem joint_le (hw : Within es es') (hab : a ≤ b) (h' : ∀ e ∈ es', e.Proper) : joint a es ≤ joint b es' := by
  induction hw generalizing a b with
  | nil => exact hab
  | @cons e e' es es' he _ ih =>
    apply ih
    · have := Nat.le_of_dvd (h' e' List.mem_cons_self).align_pos he.2
      omega
    · exact fun x hx => h' x (List.mem_cons_of_mem _ hx)

theorem dvd_of_le (ha : a = 1 ∨ a = 2 ∨ a = 4 ∨ a = 8) (hb : b = 1 ∨ b = 2 ∨ b = 4 ∨ b = 8)
    (h : a ≤ b) : a ∣ b := by
  rcases ha with rfl | rfl | rfl | rfl <;> rcases hb with rfl | rfl | rfl | rfl <;> omega

theorem joint_dvd (h : ∀ e ∈ es, e.Proper) (h' : ∀ e ∈ es', e.Proper) (hw : Within es es') :
    joint 1 es ∣ joint 1 es' :=
  dvd_of_le (joint_align (.inl rfl) h) (joint_align (.inl rfl) h')
    (joint_le hw (Nat.le_refl 1) h')

/-- **Smaller parts make no larger aggregate.** -/
theorem total_le (h : ∀ e ∈ es, e.Proper) (h' : ∀ e ∈ es', e.Proper) (hw : Within es es') :
    total es ≤ total es' := by
  have hpos : 0 < joint 1 es := @le_joint es 1 h
  have hpos' : 0 < joint 1 es' := @le_joint es' 1 h'
  exact alignUp_mono hpos hpos' (joint_dvd h h' hw) (stop_le h h' hw (Nat.le_refl 0))

/-- An aggregate of something takes up something. -/
theorem total_pos (h : ∀ e ∈ es, e.Proper) (hne : es ≠ []) : 0 < total es := by
  cases es with
  | nil => exact absurd rfl hne
  | cons e es =>
    have hstop := stop_le_total h
    have := offset_lt_stop h (alignUp e.align 0) List.mem_cons_self
    omega

end

end Extent

end Datara.Library
