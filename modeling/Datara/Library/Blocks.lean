import Mathlib.Data.List.Basic
import Mathlib.Order.Nat

/-!
# Blocks of memory

A block is its address and its size, and it holds the addresses from the one on. Blocks are apart when they hold no
address in common; what lies inside one of two blocks that are apart is apart from what lies inside the other
(`Apart.mono`). What a program has of a system is cut into parts that are apart (`Parcels`).
-/

namespace Datara.Library

structure Block where
  addr : Nat
  size : Nat
  deriving DecidableEq

namespace Block

variable {a b c d : Block}

/-- The address past the last one. -/
def limit (b : Block) : Nat := b.addr + b.size

/-- The addresses of a block. -/
def Holds (b : Block) (x : Nat) : Prop := b.addr ≤ x ∧ x < b.limit

def Within (a b : Block) : Prop := ∀ x, a.Holds x → b.Holds x

def Apart (a b : Block) : Prop := ∀ x, a.Holds x → ¬ b.Holds x

theorem Within.of_bounds (hfrom : b.addr ≤ a.addr) (hto : a.limit ≤ b.limit) : a.Within b :=
  fun _ hx => ⟨hfrom.trans hx.1, hx.2.trans_le hto⟩

theorem Within.refl (b : Block) : b.Within b := fun _ hx => hx

theorem Within.trans (hab : a.Within b) (hbc : b.Within c) : a.Within c := fun x hx => hbc x (hab x hx)

/-- A block that holds an address is between the bounds of the block it lies in. -/
theorem Within.bounds (h : a.Within b) (hpos : 0 < a.size) : b.addr ≤ a.addr ∧ a.limit ≤ b.limit := by
  have hfirst := h a.addr ⟨le_rfl, Nat.lt_add_of_pos_right hpos⟩
  have hlast := h (a.limit - 1) ⟨by rw [limit]; omega, by rw [limit]; omega⟩
  refine ⟨hfirst.1, ?_⟩
  have hlt := hlast.2
  rw [limit] at hlt
  rw [limit]
  omega

theorem Within.of_empty (h : a.size = 0) : a.Within b := by
  intro x hx
  have := hx.1
  have := hx.2
  rw [limit] at this
  omega

theorem Apart.symm (h : a.Apart b) : b.Apart a := fun x hb ha => h x ha hb

theorem Apart.of_empty (h : a.size = 0) : a.Apart b := by
  intro x hx
  have := hx.1
  have := hx.2
  rw [limit] at this
  omega

theorem Apart.mono (h : a.Apart b) (hc : c.Within a) (hd : d.Within b) : c.Apart d :=
  fun x hx hx' => h x (hc x hx) (hd x hx')

theorem Apart.of_le (h : a.limit ≤ b.addr) : a.Apart b :=
  fun _ ha hb => Nat.not_lt.mpr (h.trans hb.1) ha.2

theorem not_apart_of_addr_eq (h : a.addr = b.addr) (ha : 0 < a.size) (hb : 0 < b.size) : ¬ a.Apart b :=
  fun hapart => hapart a.addr ⟨le_rfl, Nat.lt_add_of_pos_right ha⟩
    ⟨h.symm.le, by rw [h, limit]; omega⟩

theorem apart_of_ne {l : List Block} (h : l.Pairwise Apart) {i j : Nat} (ha : l[i]? = some a) (hb : l[j]? = some b)
    (hne : i ≠ j) : a.Apart b := by
  obtain ⟨hi, rfl⟩ := List.getElem?_eq_some_iff.mp ha
  obtain ⟨hj, rfl⟩ := List.getElem?_eq_some_iff.mp hb
  rw [List.pairwise_iff_getElem] at h
  rcases Nat.lt_or_gt_of_ne hne with hlt | hlt
  · exact h i j hi hj hlt
  · exact (h j i hj hi hlt).symm

theorem apart_of_mem {l : List Block} (h : l.Pairwise Apart) (ha : a ∈ l) (hb : b ∈ l) (hne : a ≠ b) : a.Apart b := by
  obtain ⟨i, hi⟩ := List.mem_iff_getElem?.mp ha
  obtain ⟨j, hj⟩ := List.mem_iff_getElem?.mp hb
  apply apart_of_ne h hi hj
  intro hij
  subst hij
  exact hne (Option.some.inj (hi.symm.trans hj))

theorem not_apart_self (h : 0 < a.size) : ¬ a.Apart a := not_apart_of_addr_eq rfl h h

/-- An address past all of some blocks. -/
def top (l : List Block) : Nat := l.foldr (fun b m => max b.limit m) 64

theorem limit_le_top {l : List Block} (h : b ∈ l) : b.limit ≤ top l := by
  induction l with
  | nil => cases h
  | cons c l ih =>
    rcases List.mem_cons.mp h with rfl | h
    · exact Nat.le_max_left _ _
    · exact (ih h).trans (Nat.le_max_right _ _)

end Block

/-! ## Memory in parts

What a program has of a system, and the parts it has cut it into. -/

structure Parcels (held parts : List Block) : Prop where
  held_pos : ∀ r ∈ held, 0 < r.addr ∧ 0 < r.size
  held_apart : held.Pairwise Block.Apart
  pos : ∀ b ∈ parts, 0 < b.size
  within : ∀ b ∈ parts, ∃ r ∈ held, b.Within r
  apart : parts.Pairwise Block.Apart

namespace Parcels

variable {held parts parts' pieces : List Block} {b r : Block}

theorem nil : Parcels [] [] :=
  ⟨List.forall_mem_nil _, .nil, List.forall_mem_nil _, List.forall_mem_nil _, .nil⟩

theorem perm (h : Parcels held parts) (hperm : parts.Perm parts') : Parcels held parts' where
  held_pos := h.held_pos
  held_apart := h.held_apart
  pos b hb := h.pos b (hperm.mem_iff.mpr hb)
  within b hb := h.within b (hperm.mem_iff.mpr hb)
  apart := (hperm.pairwise_iff Block.Apart.symm).mp h.apart

theorem split (h : Parcels held (b :: parts)) (hpos : ∀ c ∈ pieces, 0 < c.size) (hin : ∀ c ∈ pieces, c.Within b)
    (hapart : pieces.Pairwise Block.Apart) : Parcels held (pieces ++ parts) where
  held_pos := h.held_pos
  held_apart := h.held_apart
  pos := List.forall_mem_append.mpr ⟨hpos, (List.forall_mem_cons.mp h.pos).2⟩
  within := by
    obtain ⟨⟨r, hr, hb⟩, hrest⟩ := List.forall_mem_cons.mp h.within
    exact List.forall_mem_append.mpr ⟨fun c hc => ⟨r, hr, (hin c hc).trans hb⟩, hrest⟩
  apart := by
    obtain ⟨hb, hrest⟩ := List.pairwise_cons.mp h.apart
    exact List.pairwise_append.mpr ⟨hapart, hrest, fun c hc d hd => (hb d hd).mono (hin c hc) (.refl d)⟩

theorem tail (h : Parcels held (b :: parts)) : Parcels held parts :=
  h.split (List.forall_mem_nil _) (List.forall_mem_nil _) .nil

/-- The system gives a block more. -/
theorem acquire (h : Parcels held parts) (haddr : 0 < r.addr) (hsize : 0 < r.size) (hfresh : ∀ b ∈ held, b.Apart r) :
    Parcels (r :: held) (r :: parts) where
  held_pos := List.forall_mem_cons.mpr ⟨⟨haddr, hsize⟩, h.held_pos⟩
  held_apart := List.pairwise_cons.mpr ⟨fun b hb => (hfresh b hb).symm, h.held_apart⟩
  pos := List.forall_mem_cons.mpr ⟨hsize, h.pos⟩
  within := by
    refine List.forall_mem_cons.mpr ⟨⟨r, List.mem_cons_self, .refl r⟩, fun b hb => ?_⟩
    obtain ⟨r', hr', hin⟩ := h.within b hb
    exact ⟨r', List.mem_cons_of_mem _ hr', hin⟩
  apart := by
    refine List.pairwise_cons.mpr ⟨fun b hb => ?_, h.apart⟩
    obtain ⟨r', hr', hin⟩ := h.within b hb
    exact ((hfresh r' hr').mono hin (.refl r)).symm

theorem eq_of_addr_eq (h : Parcels held parts) {a : Block} (ha : a ∈ held) (hb : b ∈ held) (haddr : a.addr = b.addr) :
    a = b := by
  by_contra hne
  exact Block.not_apart_of_addr_eq haddr (h.held_pos a ha).2 (h.held_pos b hb).2
    (Block.apart_of_mem h.held_apart ha hb hne)

theorem kept (h : Parcels held (r :: parts)) (hr : r ∈ held) {c : Block} (hc : c ∈ held) (hb : b ∈ parts)
    (hin : b.Within c) : c ∈ held.eraseP (·.addr = r.addr) := by
  rw [List.mem_eraseP_of_neg]
  · exact hc
  · intro haddr
    obtain rfl := h.eq_of_addr_eq hc hr (of_decide_eq_true haddr)
    have hapart := (List.pairwise_cons.mp h.apart).1 b hb
    exact Block.not_apart_self (h.tail.pos b hb) (hapart.mono hin (.refl b))

theorem release (h : Parcels held (r :: parts)) (hr : r ∈ held) :
    Parcels (held.eraseP (·.addr = r.addr)) parts := by
  refine ⟨fun c hc => h.held_pos c (List.mem_of_mem_eraseP hc), h.held_apart.sublist List.eraseP_sublist,
    h.tail.pos, fun b hb => ?_, h.tail.apart⟩
  obtain ⟨c, hc, hin⟩ := h.tail.within b hb
  exact ⟨c, h.kept hr hc hb hin, hin⟩

end Parcels

theorem flatMap_exchange {α : Type*} {f g : Nat → List α} {n c : Nat} (hc : c < n) (hsame : ∀ d, d ≠ c → g d = f d) :
    ∃ rest, ((List.range n).flatMap f).Perm (f c ++ rest) ∧ ((List.range n).flatMap g).Perm (g c ++ rest) := by
  have hperm := List.perm_cons_erase (List.mem_range.mpr hc)
  refine ⟨((List.range n).erase c).flatMap f, hperm.flatMap_right f, ?_⟩
  have hrest : ((List.range n).erase c).flatMap g = ((List.range n).erase c).flatMap f := by
    apply List.flatMap_congr
    intro d hd
    exact hsame d (List.nodup_range.mem_erase_iff.mp hd).1
  rw [← hrest]
  exact hperm.flatMap_right g

end Datara.Library
