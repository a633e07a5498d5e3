import Datara.Runtime.TierAllocSound

/-!
# Runs of the allocator

What each function of the allocator keeps (`poolAlloc_keeps` and the like), and from it what a run keeps whose
allocations meet `PoolFits`.
-/

namespace Datara.Runtime

open Library

namespace AllocRun

open AllocState

variable {sys : System} {dead : Nat → List Nat} {s : AllocState} {live : List LiveBlock} {b : LiveBlock}
  {api : AllocApi} {addrs : Nat → List Nat} {p cls sz : Nat}

/-- What an allocation leaves, with its block. -/
def Keeps (api : AllocApi) (sz : Nat) (live : List LiveBlock) (r : Nat × AllocState) : Prop :=
  ∃ dead, Inv dead r.2 (if r.1 = 0 then live else ⟨api, r.1, sz⟩ :: live)

/-! ## The system -/

/-- A block of the system's own, when its class does not ask for more. -/
theorem malloc_keeps (hsys : sys.Lawful) (h : Inv dead s live) (hsz : sz ≠ 0)
    (hext : ∀ p, (∀ r ∈ s.held, r.Apart ⟨p, sz⟩) → sys.malloc s.time s.held sz = p → p ≠ 0 →
      extent (slabAddrs s) ⟨api, p, sz⟩ = ⟨p, sz⟩ ∧
        (manager api sz = .slab → recycledSize (slabAddrs s) ⟨api, p, sz⟩ = none)) :
    Keeps api sz live (malloc sys sz s) := by
  refine ⟨dead, ?_⟩
  by_cases hp : sys.malloc s.time s.held sz = 0
  · rw [AllocState.malloc, if_pos hp, if_pos hp]
    exact h.congr rfl rfl rfl rfl rfl
  · rw [AllocState.malloc, if_neg hp, if_neg hp]
    have hfresh := hsys.malloc_apart s.time s.held sz hp
    obtain ⟨hsame, hown⟩ := hext _ hfresh rfl hp
    have hacq := h.acquire hsame hp (Nat.pos_of_ne_zero hsz) hfresh le_rfl hown
    exact hacq.congr rfl rfl rfl rfl rfl

theorem extent_system (h : recycledSize addrs ⟨api, p, sz⟩ = none) (hm : manager api sz ≠ .huge) :
    extent addrs ⟨api, p, sz⟩ = ⟨p, sz⟩ := by
  rw [extent, h, systemSize]
  cases hman : manager api sz with
  | pool => rfl
  | slab => rfl
  | huge => exact absurd hman hm

/-! ## Pools -/

theorem recycledSize_pool (hm : manager api sz = .pool) :
    recycledSize addrs ⟨api, p, sz⟩ = (poolClassForSize sz).map poolClassSize := by
  simp [recycledSize, hm]

theorem extent_pool (hm : manager api sz = .pool) (hcls : poolClassForSize sz = some cls) :
    extent addrs ⟨api, p, sz⟩ = ⟨p, poolClassSize cls⟩ := by
  rw [extent, recycledSize_pool hm, hcls]
  rfl

theorem owned_pool {held : List Block} (hm : manager api sz = .pool) (hcls : poolClassForSize sz = some cls) :
    Owned addrs held ⟨api, p, sz⟩ := by
  refine ⟨fun hnone => ?_, fun _ hslab => ?_⟩
  · rw [recycledSize_pool hm, hcls] at hnone
    cases hnone
  · rw [hm] at hslab
    cases hslab

/-- Nothing is lost with what is cut from a slab that was given up. -/
theorem cut_given_up (h : Inv dead s live) (hfailed : s.refillFailed = true) (n : Nat) :
    Inv dead (AllocState.cut n s).2 live := by
  refine h.congr rfl rfl rfl rfl ?_
  have hleft : bumpParts (AllocState.cut n s).2 = [] := if_pos (Or.inl hfailed)
  have hright : bumpParts s = [] := if_pos (Or.inl hfailed)
  rw [hleft, hright]

theorem poolAlloc_keeps (hsys : sys.Lawful) (h : Inv dead s live) (hm : manager api sz = .pool)
    (hfits : PoolFits sys sz s) : Keeps api sz live (poolAlloc sys sz s) := by
  rw [poolAlloc]
  split
  next => exact ⟨dead, h⟩
  next hsz =>
    dsimp only
    split
    next hcls =>
      have hcount : Inv dead { s with heapLive := s.heapLive + 1, heapAllocCount := s.heapAllocCount + 1 } live :=
        h.congr rfl rfl rfl rfl rfl
      apply malloc_keeps hsys hcount hsz
      intro p _ _ _
      have hnone : recycledSize (slabAddrs s) ⟨api, p, sz⟩ = none := by rw [recycledSize_pool hm, hcls, Option.map_none]
      exact ⟨extent_system hnone (by rw [hm]; simp), fun _ => hnone⟩
    next cls hcls =>
      obtain ⟨hlt, hle, hmin, hmax⟩ := poolClass_spec hcls
      have hcount : Inv dead { s with heapLive := s.heapLive + 1 } live := h.congr rfl rfl rfl rfl rfl
      split
      next hp =>
        obtain ⟨dead', hreuse⟩ := hcount.reuse hlt hp (b := ⟨api, s.freelist cls, sz⟩) (extent_pool hm hcls) hle
          (owned_pool hm hcls)
        refine ⟨dead', ?_⟩
        rw [if_neg hp]
        exact hreuse
      next hp =>
        rw [not_not] at hp
        split
        next hrem =>
          rw [AllocState.malloc]
          split
          next hslab =>
            have hup : Inv dead { s with
              heapLive := s.heapLive + 1
              time := s.time + 1
              poolSlab := 0
              heapAllocCount := s.heapAllocCount + 1
              refillFailed := true } live := (hcount.giveUp (x := 0)).congr rfl rfl rfl rfl rfl
            apply malloc_keeps hsys hup hsz
            intro p _ hmalloc hp'
            have hfull := hfits.fallback cls hcls hp hrem hslab (by rw [← hmalloc] at hp'; exact hp')
            refine ⟨?_, fun hm' => ?_⟩
            · rw [extent_pool hm hcls, ← hfull]
            · rw [hm] at hm'
              cases hm'
          next hslab =>
            have hfresh := hsys.malloc_apart s.time s.held poolSlabSize hslab
            have hrefill : Inv dead { s with
              heapLive := s.heapLive + 1
              time := s.time + 1
              held := ⟨_, poolSlabSize⟩ :: s.held
              poolSlab := sys.malloc s.time s.held poolSlabSize
              poolSlabRemaining := poolSlabSize
              heapAllocCount := s.heapAllocCount + 1
              refillFailed := false } live := (hcount.refill hslab hfresh).congr rfl rfl rfl rfl rfl
            refine ⟨dead, ?_⟩
            have hcut := hrefill.cut (b := ⟨api, sys.malloc s.time s.held poolSlabSize, sz⟩) rfl
              (Nat.zero_lt_of_lt hmin) (hmax.trans (show 1024 ≤ poolSlabSize by decide)) (extent_pool hm hcls) hle (owned_pool hm hcls)
            rw [AllocState.cut]
            rw [if_neg hslab]
            exact hcut
        next hrem =>
          rw [Nat.not_lt] at hrem
          refine ⟨dead, ?_⟩
          by_cases hfailed : s.refillFailed = true
          · have hnull : (AllocState.cut (poolClassSize cls) { s with heapLive := s.heapLive + 1 }).1 = 0 :=
              hfits.cut cls hcls hp hrem hfailed
            rw [if_pos hnull]
            exact cut_given_up hcount hfailed _
          · have hcut := hcount.cut (b := ⟨api, s.poolSlab, sz⟩) (Bool.eq_false_of_not_eq_true hfailed)
              (Nat.zero_lt_of_lt hmin) hrem (extent_pool hm hcls) hle (owned_pool hm hcls)
            have hnull : (AllocState.cut (poolClassSize cls) { s with heapLive := s.heapLive + 1 }).1 ≠ 0 := hcut.ptr_ne
            rw [if_neg hnull]
            exact hcut

theorem poolFree_keeps (h : Inv dead s (b :: live)) (hm : manager b.api b.size = .pool) :
    ∃ dead, Inv dead (poolFree b.ptr b.size s) live := by
  rw [poolFree, if_neg h.ptr_ne]
  dsimp only
  split
  next cls hcls =>
    obtain ⟨hlt, -⟩ := poolClass_spec hcls
    obtain ⟨dead', hrec⟩ := h.recycle hlt (extent_pool hm hcls)
    exact ⟨dead', hrec.congr rfl rfl rfl rfl rfl⟩
  next hcls =>
    have hcount : Inv dead { s with heapLive := if s.heapLive > 0 then s.heapLive - 1 else s.heapLive } (b :: live) :=
      h.congr rfl rfl rfl rfl rfl
    refine ⟨dead, hcount.release ?_⟩
    have hrec : recycledSize (slabAddrs s) ⟨b.api, b.ptr, b.size⟩ = _ := recycledSize_pool hm
    rw [hcls] at hrec
    exact hrec

/-! ## Slabs -/

theorem splitFirst_some {f : Slab → Bool} {l pre post : List Slab} {t : Slab}
    (h : splitFirst f l = some (pre, t, post)) : l = pre ++ t :: post ∧ f t = true := by
  induction l generalizing pre with
  | nil => cases h
  | cons u us ih =>
    rw [splitFirst] at h
    split at h
    next hf =>
      obtain ⟨rfl, rfl, rfl⟩ : _ ∧ _ ∧ _ := by simpa using h
      exact ⟨rfl, hf⟩
    next =>
      obtain ⟨⟨pre', t', post'⟩, hsplit, hpair⟩ := Option.map_eq_some_iff.mp h
      obtain ⟨rfl, rfl, rfl⟩ : _ ∧ _ ∧ _ := by simpa using hpair
      obtain ⟨rfl, ht⟩ := ih hsplit
      exact ⟨rfl, ht⟩

theorem splitFirst_none {f : Slab → Bool} {l : List Slab} (h : splitFirst f l = none) : ∀ t ∈ l, f t = false := by
  induction l with
  | nil => exact List.forall_mem_nil _
  | cons u us ih =>
    rw [splitFirst] at h
    split at h
    next => cases h
    next hf => exact List.forall_mem_cons.mpr ⟨Bool.eq_false_of_not_eq_true hf, ih (Option.map_eq_none_iff.mp h)⟩

variable {mask : BitVec 64}

theorem ctz64_spec (h : mask ≠ 0) : ctz64 mask < 64 ∧ mask.getLsbD (ctz64 mask) = true := by
  rw [ctz64]
  cases hfind : (List.range 64).find? mask.getLsbD with
  | some i => exact ⟨List.mem_range.mp (List.mem_of_find?_eq_some hfind), List.find?_some hfind⟩
  | none =>
    refine absurd (BitVec.eq_of_getLsbD_eq fun i hi => ?_) h
    have := List.find?_eq_none.mp hfind i (List.mem_range.mpr hi)
    rw [Bool.eq_false_of_not_eq_true this]
    exact BitVec.getLsbD_zero.symm

theorem getLsbD_clear {i j : Nat} (hi : i < 64) :
    (mask &&& ~~~(1#64 <<< i)).getLsbD j = (mask.getLsbD j && decide (j ≠ i)) := by
  rw [BitVec.getLsbD_and, BitVec.getLsbD_not, ← BitVec.twoPow_eq, BitVec.getLsbD_twoPow]
  by_cases hj : j < 64
  · simp [hi, hj, eq_comm]
  · rw [BitVec.getLsbD_of_ge mask j (Nat.not_lt.mp hj), Bool.false_and, Bool.false_and]

theorem getLsbD_put {i j : Nat} (hi : i < 64) :
    (mask ||| 1#64 <<< i).getLsbD j = (mask.getLsbD j || decide (j = i)) := by
  rw [BitVec.getLsbD_or, ← BitVec.twoPow_eq, BitVec.getLsbD_twoPow]
  simp [hi, eq_comm]

variable {a i : Nat}

theorem slot_addr_lt (hi : i < 64) (hcls : cls < slabNumClasses) :
    (slot cls a i).addr < a + slabHeader + 64 * slabClassSize cls := by
  have hpos := slabClassSize_pos hcls
  have hmul : i * slabClassSize cls < 64 * slabClassSize cls := Nat.mul_lt_mul_of_pos_right hi (by omega)
  show a + slabHeader + i * slabClassSize cls < _
  omega

theorem covers_slot (hi : i < 64) (hcls : cls < slabNumClasses) (mask : BitVec 64) :
    covers (slabClassSize cls) (slot cls a i).addr ⟨a, mask⟩ = true := by
  rw [covers, Bool.and_eq_true, decide_eq_true_eq, decide_eq_true_eq]
  exact ⟨Nat.le_add_right _ _, slot_addr_lt hi hcls⟩

theorem recycledSize_slab (hm : manager api sz = .slab) (hcls : slabClassForSize sz = some cls) :
    recycledSize addrs ⟨api, p, sz⟩ =
      if (addrs cls).any fun a => covers (slabClassSize cls) p ⟨a, 0⟩ then some (slabClassSize cls) else none := by
  simp [recycledSize, hm, hcls]

/-- The slot of a slab of the class. -/
theorem recycledSize_slot (hm : manager api sz = .slab) (hcls : slabClassForSize sz = some cls)
    (ha : a ∈ addrs cls) (hi : i < 64) :
    recycledSize addrs ⟨api, (slot cls a i).addr, sz⟩ = some (slabClassSize cls) := by
  rw [recycledSize_slab hm hcls, if_pos]
  exact List.any_eq_true.mpr ⟨a, ha, covers_slot hi (slabClass_spec hcls).1 0⟩

/-- What is apart from the slabs is not covered by them. -/
theorem not_covered (h : Inv dead s live) (hcls : cls < slabNumClasses) {n : Nat} (hn : 0 < n)
    (hapart : ∀ r ∈ s.held, r.Apart ⟨p, n⟩) :
    ((slabAddrs s cls).any fun a => covers (slabClassSize cls) p ⟨a, 0⟩) = false := by
  rw [← Bool.not_eq_true]
  intro hany
  obtain ⟨a, ha, hcovers⟩ := List.any_eq_true.mp hany
  rw [covers, Bool.and_eq_true, decide_eq_true_eq, decide_eq_true_eq] at hcovers
  dsimp only at hcovers
  have hin : (⟨a, slabTotal (slabClassSize cls)⟩ : Block).Holds p := by
    show a ≤ p ∧ p < a + slabTotal (slabClassSize cls)
    rw [slabTotal]
    omega
  exact hapart _ (h.regions cls hcls a ha) p hin ⟨Nat.le_refl p, Nat.lt_add_of_pos_right hn⟩

/-- A block of the system's own through the functions of the slabs. -/
theorem slab_malloc_keeps (hsys : sys.Lawful) (h : Inv dead s live) (hm : manager api sz = .slab) (hsz : sz ≠ 0) :
    Keeps api sz live (malloc sys sz s) := by
  apply malloc_keeps hsys h hsz
  intro p hfresh _ _
  have hnone : recycledSize (slabAddrs s) ⟨api, p, sz⟩ = none := by
    cases hcls : slabClassForSize sz with
    | none => simp only [recycledSize, hm, hcls, Option.bind_none]
    | some cls =>
      have hnot := not_covered h (slabClass_spec hcls).1 (Nat.pos_of_ne_zero hsz) hfresh
      rw [recycledSize_slab hm hcls, hnot]
      rfl
  exact ⟨extent_system hnone (by rw [hm]; simp), fun _ => hnone⟩

/-- The first free slot of a slab. -/
theorem slot_keeps (h : Inv dead s live) {pre post : List Slab} {t : Slab} (hm : manager api sz = .slab)
    (hcls : slabClassForSize sz = some cls) (hheads : s.slabHeads cls = pre ++ t :: post) (hmask : t.freeMask ≠ 0) :
    Inv dead { s with
        slabHeads := Function.update s.slabHeads cls
          (pre ++ { t with freeMask := t.freeMask &&& ~~~(1#64 <<< ctz64 t.freeMask) } :: post) }
      (⟨api, t.addr + slabHeader + ctz64 t.freeMask * slabClassSize cls, sz⟩ :: live) := by
  obtain ⟨hlt, hset⟩ := ctz64_spec hmask
  obtain ⟨hcls', hle, -⟩ := slabClass_spec hcls
  have ha : t.addr ∈ slabAddrs s cls := by
    rw [slabAddrs, hheads]
    exact List.mem_map_of_mem (List.mem_append_right _ List.mem_cons_self)
  have hrec := recycledSize_slot hm hcls ha hlt
  apply h.takeSlot (u := { t with freeMask := t.freeMask &&& ~~~(1#64 <<< ctz64 t.freeMask) }) hcls' hheads rfl hlt
    hset (fun j => getLsbD_clear hlt) ?_ hle
  · refine ⟨fun hnone => ?_, fun _ _ => ⟨cls, hcls, t.addr, ha, _, hlt, rfl⟩⟩
    exact absurd (hrec.symm.trans hnone) (Option.some_ne_none _)
  · show extent (slabAddrs s) ⟨api, (slot cls t.addr (ctz64 t.freeMask)).addr, sz⟩ = _
    rw [extent, hrec]
    rfl

theorem slabAlloc_keeps (hsys : sys.Lawful) (h : Inv dead s live) (hm : manager api sz = .slab) :
    Keeps api sz live (slabAlloc sys sz s) := by
  rw [slabAlloc]
  split
  next => exact ⟨dead, h⟩
  next hsz =>
    split
    next => exact slab_malloc_keeps hsys h hm hsz
    next cls hcls =>
      obtain ⟨hlt, -⟩ := slabClass_spec hcls
      dsimp only
      split
      next pre t post hsplit =>
        obtain ⟨hheads, hmask⟩ := splitFirst_some hsplit
        have hmask : t.freeMask ≠ 0 := of_decide_eq_true hmask
        have hslot := slot_keeps h hm hcls hheads hmask
        rw [if_neg (Nat.not_le.mpr (ctz64_spec hmask).1)]
        refine ⟨dead, ?_⟩
        rw [if_neg hslot.ptr_ne]
        exact hslot
      next =>
        rw [AllocState.malloc]
        split
        next hslab =>
          have hasked : Inv dead { s with time := s.time + 1 } live := h.congr rfl rfl rfl rfl rfl
          exact slab_malloc_keeps hsys hasked hm hsz
        next hslab =>
          have hfresh := hsys.malloc_apart s.time s.held _ hslab
          have hnew : Inv dead { s with
            time := s.time + 1
            held := ⟨_, slabTotal (slabClassSize cls)⟩ :: s.held
            slabHeads := Function.update s.slabHeads cls (⟨_, BitVec.allOnes 64⟩ :: s.slabHeads cls) } live :=
            (h.newSlab hlt hslab hfresh).congr rfl rfl rfl rfl rfl
          have hones : BitVec.allOnes 64 ≠ 0 := by decide
          have hheads : ∀ u : Slab, Function.update s.slabHeads cls (u :: s.slabHeads cls) cls =
              [] ++ u :: s.slabHeads cls := fun u => Function.update_self _ _ _
          have hslot := slot_keeps hnew hm hcls (hheads _) hones
          rw [if_neg (Nat.not_le.mpr (ctz64_spec hones).1)]
          refine ⟨dead, ?_⟩
          rw [if_neg hslot.ptr_ne]
          simp only [Function.update_idem] at hslot
          exact hslot

/-- The slab that covers a slot. -/
theorem addr_of_covers (h : Inv dead s live) (hcls : cls < slabNumClasses) {a a' i : Nat} (ha : a ∈ slabAddrs s cls)
    (ha' : a' ∈ slabAddrs s cls) (hi : i < 64)
    (hcovers : covers (slabClassSize cls) (slot cls a i).addr ⟨a', mask⟩ = true) : a' = a := by
  by_contra hne
  have hapart := Block.apart_of_mem h.parcels.held_apart (h.regions cls hcls a' ha') (h.regions cls hcls a ha)
    fun heq => hne (congrArg Block.addr heq)
  rw [covers, Bool.and_eq_true, decide_eq_true_eq, decide_eq_true_eq] at hcovers
  dsimp only at hcovers
  have hlt := slot_addr_lt (a := a) hi hcls
  have hle : a + slabHeader ≤ (slot cls a i).addr := Nat.le_add_right _ _
  refine hapart (slot cls a i).addr ?_ ?_
  · show a' ≤ (slot cls a i).addr ∧ (slot cls a i).addr < a' + slabTotal (slabClassSize cls)
    rw [slabTotal]
    omega
  · show a ≤ (slot cls a i).addr ∧ (slot cls a i).addr < a + slabTotal (slabClassSize cls)
    rw [slabTotal]
    omega

theorem slabFree_keeps (h : Inv dead s (b :: live)) (hm : manager b.api b.size = .slab) :
    ∃ dead, Inv dead (slabFree b.ptr b.size s) live := by
  rw [slabFree, if_neg h.ptr_ne]
  split
  next hcls =>
    refine ⟨dead, h.release ?_⟩
    simp [recycledSize, hm, hcls]
  next cls hcls =>
    obtain ⟨hlt, -⟩ := slabClass_spec hcls
    have hrec : recycledSize (slabAddrs s) ⟨b.api, b.ptr, b.size⟩ = _ := recycledSize_slab hm hcls
    split
    next hsplit =>
      refine ⟨dead, h.release (hrec.trans (if_neg ?_))⟩
      intro hany
      obtain ⟨a, ha, hcovers⟩ := List.any_eq_true.mp hany
      obtain ⟨t, ht, rfl⟩ := List.mem_map.mp ha
      exact Bool.false_ne_true ((splitFirst_none hsplit t ht).symm.trans hcovers)
    next pre t post hsplit =>
      obtain ⟨hheads, hcovers⟩ := splitFirst_some hsplit
      have ht : t.addr ∈ slabAddrs s cls := by
        rw [slabAddrs, hheads]
        exact List.mem_map_of_mem (List.mem_append_right _ List.mem_cons_self)
      have hsome : recycledSize (slabAddrs s) b = some (slabClassSize cls) :=
        hrec.trans (if_pos (List.any_eq_true.mpr ⟨t.addr, ht, hcovers⟩))
      obtain ⟨d, hd, a, ha, i, hi, hptr⟩ := (h.owned b List.mem_cons_self).slot
        (by rw [hsome]; exact Option.some_ne_none _) hm
      cases hcls.symm.trans hd
      rw [hptr] at hcovers
      obtain rfl := addr_of_covers h hlt ha ht hi hcovers
      have hpos := slabClassSize_pos hlt
      have hbit : (b.ptr - (t.addr + slabHeader)) / slabClassSize cls = i := by
        rw [hptr]
        show (t.addr + slabHeader + i * slabClassSize cls - (t.addr + slabHeader)) / slabClassSize cls = i
        rw [Nat.add_sub_cancel_left]
        exact Nat.mul_div_cancel i (Nat.zero_lt_of_lt hpos)
      rw [hbit, if_pos hi]
      refine ⟨dead, h.putSlot (u := { t with freeMask := t.freeMask ||| 1#64 <<< i }) hlt hheads rfl hi
        (fun j => getLsbD_put hi) ?_⟩
      rw [extent, hsome, hptr]
      rfl

/-! ## Huge pages -/

theorem hugeAligned_spec (hsz : sz < 2 ^ 64) : hugeAligned sz = 0 ∨ sz ≤ hugeAligned sz := by
  by_cases hsum : sz + (2 ^ 21 - 1) < 2 ^ 64
  · right
    rw [hugeAligned, add_and_high_eq (by decide) hsum]
    exact le_alignUp (by decide)
  · left
    have hwrap : (sz + (2 ^ 21 - 1)) % 2 ^ 64 < 2 ^ 21 := by omega
    rw [hugeAligned, and_high_eq (Nat.mod_lt _ (by decide)) (by decide), Nat.div_eq_of_lt hwrap, Nat.zero_mul]

theorem recycledSize_huge (hm : manager api sz = .huge) : recycledSize addrs ⟨api, p, sz⟩ = none := by
  simp [recycledSize, hm]

theorem extent_huge (hm : manager api sz = .huge) : extent addrs ⟨api, p, sz⟩ = ⟨p, hugeAligned sz⟩ := by
  rw [extent, recycledSize_huge hm, Option.getD_none, systemSize]
  simp [hm]

theorem hugePageAlloc_keeps (hsys : sys.Lawful) (h : Inv dead s live) (hm : manager api sz = .huge)
    (hsz : sz < 2 ^ 64) : Keeps api sz live (hugePageAlloc sys sz s) := by
  refine ⟨dead, ?_⟩
  by_cases hp : sys.map s.time s.held (hugeAligned sz) = 0
  · rw [hugePageAlloc, if_pos hp, if_pos hp]
    exact h.congr rfl rfl rfl rfl rfl
  · rw [hugePageAlloc, if_neg hp, if_neg hp]
    have hfresh := hsys.map_apart s.time s.held _ hp
    have hnonzero : hugeAligned sz ≠ 0 := by
      intro hzero
      rw [hzero] at hp
      exact hp (hsys.map_zero _ _)
    have hle := (hugeAligned_spec hsz).resolve_left hnonzero
    have hacq := h.acquire (extent_huge hm) hp (Nat.pos_of_ne_zero hnonzero) hfresh hle
      fun hslab => by rw [hm] at hslab; cases hslab
    exact hacq.congr rfl rfl rfl rfl rfl

theorem hugePageFree_keeps (h : Inv dead s (b :: live)) (hm : manager b.api b.size = .huge) :
    ∃ dead, Inv dead (hugePageFree b.ptr s) live := by
  rw [hugePageFree, if_neg h.ptr_ne]
  exact ⟨dead, h.release (recycledSize_huge hm)⟩

/-! ## Steps -/

theorem allocBy_keeps (hsys : sys.Lawful) (h : Inv dead s live) (hsz : sz < 2 ^ 64)
    (hfits : manager api sz = .pool → PoolFits sys sz s) : Keeps api sz live (allocBy sys api sz s) := by
  cases api with
  | pool => exact poolAlloc_keeps hsys h rfl (hfits rfl)
  | slab => exact slabAlloc_keeps hsys h rfl
  | tier =>
    rw [allocBy, tierAlloc]
    split
    next => exact ⟨dead, h⟩
    next =>
      split
      next hsmall => exact slabAlloc_keeps hsys h (if_pos hsmall)
      next hsmall =>
        split
        next hbig => exact hugePageAlloc_keeps hsys h ((if_neg hsmall).trans (if_pos hbig)) hsz
        next hbig =>
          have hm : manager .tier sz = .pool := (if_neg hsmall).trans (if_neg hbig)
          exact poolAlloc_keeps hsys h hm (hfits hm)

theorem freeBy_keeps (h : Inv dead s (b :: live)) : ∃ dead, Inv dead (freeBy b.api b.ptr b.size s) live := by
  obtain ⟨api, ptr, sz⟩ := b
  cases api with
  | pool => exact poolFree_keeps h rfl
  | slab => exact slabFree_keeps h rfl
  | tier =>
    rw [freeBy, tierFree, if_neg h.ptr_ne]
    split
    next hsmall => exact slabFree_keeps h (if_pos hsmall)
    next hsmall =>
      split
      next hbig => exact hugePageFree_keeps h ((if_neg hsmall).trans (if_pos hbig))
      next hbig => exact poolFree_keeps h ((if_neg hsmall).trans (if_neg hbig))

/-! ## Links -/

theorem poolAlloc_linked : (poolAlloc sys sz s).2.linked = s.linked := by
  simp only [poolAlloc]
  repeat' split
  all_goals rfl

theorem slabAlloc_linked : (slabAlloc sys sz s).2.linked = s.linked := by
  simp only [slabAlloc]
  repeat' split
  all_goals rfl

theorem allocBy_linked : (allocBy sys api sz s).2.linked = s.linked := by
  cases api with
  | pool => exact poolAlloc_linked
  | slab => exact slabAlloc_linked
  | tier =>
    rw [allocBy, tierAlloc]
    repeat' split
    · rfl
    · exact slabAlloc_linked
    · rfl
    · exact poolAlloc_linked

theorem slabFree_linked : (slabFree p sz s).linked = s.linked := by
  simp only [slabFree]
  repeat' split
  all_goals rfl

theorem hugePageFree_linked : (hugePageFree p s).linked = s.linked := by
  rw [hugePageFree]
  split
  all_goals rfl

/-- A link is written at the start of a block that goes on a free list. -/
theorem poolFree_linked (hm : manager api sz = .pool) : (poolFree p sz s).linked = s.linked ∨
    ((poolFree p sz s).linked = some ⟨p, 8⟩ ∧ (poolFree p sz s).held = s.held ∧
      (poolFree p sz s).slabHeads = s.slabHeads ∧ 8 ≤ (extent addrs ⟨api, p, sz⟩).size) := by
  simp only [poolFree]
  split
  next => exact .inl rfl
  next =>
    split
    next cls hcls =>
      refine .inr ⟨rfl, rfl, rfl, ?_⟩
      rw [extent_pool hm hcls]
      have hpos := poolClassSize_pos (poolClass_spec hcls).1
      exact Nat.le_trans (by decide) hpos
    next => exact .inl rfl

theorem freeBy_linked : (freeBy b.api b.ptr b.size s).linked = s.linked ∨
    ((freeBy b.api b.ptr b.size s).linked = some ⟨b.ptr, 8⟩ ∧ (freeBy b.api b.ptr b.size s).held = s.held ∧
      (freeBy b.api b.ptr b.size s).slabHeads = s.slabHeads ∧ 8 ≤ (extent (slabAddrs s) b).size) := by
  obtain ⟨api, ptr, sz⟩ := b
  cases api with
  | pool => exact poolFree_linked rfl
  | slab => exact .inl slabFree_linked
  | tier =>
    rw [freeBy, tierFree]
    split
    next => exact .inl rfl
    next =>
      split
      next => exact .inl slabFree_linked
      next hsmall =>
        split
        next => exact .inl hugePageFree_linked
        next hbig => exact poolFree_linked ((if_neg hsmall).trans (if_neg hbig))

/-! ## Runs -/

/-- A state whose last link is in a block that was freed. -/
structure RunInv (s : AllocRun) : Prop where
  inv : ∃ dead, Inv dead s.state s.live
  linked : ∀ w ∈ s.state.linked, (∃ r ∈ s.state.held, w.Within r) ∧
    ∀ b ∈ s.live, w.Apart (extent (slabAddrs s.state) b)

namespace RunInv

variable {s s' : AllocRun}

theorem sound (h : RunInv s) : Sound s := by
  obtain ⟨dead, hinv⟩ := h.inv
  have hparts := List.pairwise_append.mp hinv.parcels.apart
  refine ⟨hinv.size, fun b hb => ?_, hparts.1, h.linked, fun cls hcls a ha b hb => ?_⟩
  · exact hinv.parcels.within _ (List.mem_append_left _ (List.mem_map_of_mem hb))
  · obtain ⟨t, ht, rfl⟩ := List.mem_map.mp ha
    apply Block.Apart.symm
    apply hparts.2.2 _ (List.mem_map_of_mem hb)
    apply List.mem_append_right
    apply List.mem_append_right
    exact List.mem_flatMap.mpr ⟨cls, List.mem_range.mpr hcls, List.mem_flatMap.mpr ⟨t, ht, List.mem_cons_self⟩⟩

/-- What the program writes to its blocks is not on a free list. -/
theorem write {dead : Nat → List Nat} {st : AllocState} {live : List LiveBlock} (h : Inv dead st live) (hb : b ∈ live)
    (mem : Nat → Nat) : Inv dead { st with
      mem := fun a => if a < b.ptr + b.size ∧ b.ptr < a + 8 then mem a else st.mem a
      linked := none } live := by
  refine ⟨h.parcels, fun cls hcls => (h.chain cls hcls).frame fun q hq => if_neg ?_, h.regions, h.distinct, h.owned,
    h.size⟩
  intro hmeets
  have hpos := poolClassSize_pos hcls
  have hbin : extent (slabAddrs st) b ∈ live.map (extent (slabAddrs st)) := List.mem_map_of_mem hb
  have hextent := h.parcels.pos _ (List.mem_append_left _ hbin)
  have hsize := h.size b hb
  have hin : (⟨q, poolClassSize cls⟩ : Block) ∈ poolParts dead ++ (bumpParts st ++ slabsParts st.slabHeads) :=
    List.mem_append_left _ (List.mem_flatMap.mpr ⟨cls, List.mem_range.mpr hcls, List.mem_map_of_mem hq⟩)
  have hapart := (List.pairwise_append.mp h.parcels.apart).2.2 _ hbin _ hin
  refine hapart (max q b.ptr) ?_ ?_
  · show b.ptr ≤ max q b.ptr ∧ max q b.ptr < b.ptr + (extent (slabAddrs st) b).size
    omega
  · show q ≤ max q b.ptr ∧ max q b.ptr < q + poolClassSize cls
    omega

theorem step (hsys : sys.Lawful) {op : AllocOp} (h : RunInv s) (hop : Admits sys op s)
    (hstep : AllocRun.step sys op s = some s') : RunInv s' := by
  obtain ⟨dead, hinv⟩ := h.inv
  have hclear : Inv dead { s.state with linked := none } s.live := hinv.congr rfl rfl rfl rfl rfl
  cases op with
  | alloc api size =>
    cases hstep
    have hkeeps := allocBy_keeps hsys hclear size.isLt fun hm => ⟨(hop hm).fallback, (hop hm).cut⟩
    refine ⟨hkeeps, fun w hw => ?_⟩
    have hnone : (allocBy sys api size { s.state with linked := none }).2.linked = none := allocBy_linked
    change w ∈ (allocBy sys api size { s.state with linked := none }).2.linked at hw
    rw [hnone] at hw
    cases hw
  | free i =>
    rw [AllocRun.step, Option.bind_eq_bind, Option.bind_eq_some_iff] at hstep
    obtain ⟨b, hb, hstep⟩ := hstep
    cases hstep
    obtain ⟨hi, rfl⟩ := List.getElem?_eq_some_iff.mp hb
    have hfirst := hclear.perm (List.getElem_cons_eraseIdx_perm hi).symm
    refine ⟨freeBy_keeps hfirst, fun w hw => ?_⟩
    rcases freeBy_linked (b := s.live[i]) (s := { s.state with linked := none }) with hsame | ⟨hlink, hheld, hheads, hsize⟩
    · rw [hsame] at hw
      cases hw
    · rw [hlink] at hw
      cases hw
      have haddrs : slabAddrs (freeBy s.live[i].api s.live[i].ptr s.live[i].size { s.state with linked := none }) =
          slabAddrs s.state := by
        funext cls
        rw [slabAddrs, slabAddrs, hheads]
      have hin : (⟨s.live[i].ptr, 8⟩ : Block).Within (extent (slabAddrs s.state) s.live[i]) :=
        .of_bounds (Nat.le_refl s.live[i].ptr) (Nat.add_le_add_left hsize _)
      obtain ⟨r, hr, hbr⟩ := hfirst.parcels.within _ List.mem_cons_self
      refine ⟨⟨r, hheld ▸ hr, hin.trans hbr⟩, fun c hc => ?_⟩
      rw [haddrs]
      have hapart := (List.pairwise_cons.mp hfirst.parcels.apart).1 (extent (slabAddrs s.state) c)
        (List.mem_append_left _ (List.mem_map_of_mem hc))
      exact hapart.mono hin (.refl _)
  | write i mem =>
    rw [AllocRun.step, Option.bind_eq_bind, Option.bind_eq_some_iff] at hstep
    obtain ⟨b, hb, hstep⟩ := hstep
    cases hstep
    exact ⟨⟨dead, write hinv (List.mem_of_getElem? hb) mem⟩, fun w hw => by cases hw⟩

end RunInv

theorem initial_inv : RunInv {} where
  inv := by
    refine ⟨fun _ => [], ?_, ?_, ?_, ?_, List.forall_mem_nil _, List.forall_mem_nil _⟩
    · exact Parcels.nil
    · exact fun _ _ => rfl
    · exact fun _ _ _ ha => by cases ha
    · exact fun _ _ => List.nodup_nil
  linked w hw := by cases hw

/-- A system that gives addresses past what is in use, and fails at some times. -/
def stackSystem (fails : Nat → Bool) : System where
  malloc t held _ := if fails t then 0 else alignUp 16 (Block.top held)
  map t held size := if fails t || size == 0 then 0 else alignUp 16 (Block.top held)

theorem stackSystem_lawful (fails : Nat → Bool) : (stackSystem fails).Lawful := by
  have hpast : ∀ held : List Block, ∀ b ∈ held, b.limit ≤ alignUp 16 (Block.top held) := fun held b hb =>
    (Block.limit_le_top hb).trans (le_alignUp (by decide))
  refine ⟨fun t held size h b hb => ?_, fun t held size h b hb => ?_, fun t held => ?_⟩
  · apply Block.Apart.of_le
    have hgiven : (stackSystem fails).malloc t held size = alignUp 16 (Block.top held) :=
      (ite_ne_left_iff.mp h).1 |> if_neg
    rw [hgiven]
    exact hpast held b hb
  · apply Block.Apart.of_le
    have hgiven : (stackSystem fails).map t held size = alignUp 16 (Block.top held) :=
      (ite_ne_left_iff.mp h).1 |> if_neg
    rw [hgiven]
    exact hpast held b hb
  · show (if fails t || 0 == 0 then 0 else _) = 0
    rw [beq_self_eq_true, Bool.or_true, if_pos rfl]

end AllocRun

end Datara.Runtime
