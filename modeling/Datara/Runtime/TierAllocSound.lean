import Datara.Runtime.TierAlloc

/-!
# Blocks of the tiers are apart

The memory a thread has of the system is in parts: the blocks that are not freed, the blocks on the free lists, what is
left of the bump slab, and the headers and free slots of the slabs (`parts`). A call moves a part, cuts one up, or gets
one from the system. A block on a free list has its whole class as long as no block of a pool class that is smaller
came from `malloc`.
-/

namespace Datara.Runtime

open Library
open List (append_assoc forall_mem_cons mem_append_right mem_cons_of_mem mem_cons_self mem_filter mem_flatMap mem_map
  mem_range nil_append perm_middle singleton_append)
open Function (update_of_ne update_self)

namespace AllocRun

open AllocState

/-- The functions a block goes through. -/
inductive Manager
  | pool
  | slab
  | huge
  deriving DecidableEq

def manager : AllocApi → Nat → Manager
  | .pool, _ => .pool
  | .slab, _ => .slab
  | .tier, size => if size ≤ 512 then .slab else if size ≥ hugePageSz then .huge else .pool

/-! ## What a block is made of -/

/-- The slabs of the classes, by their addresses. -/
def slabAddrs (s : AllocState) (cls : Nat) : List Nat := (s.slabHeads cls).map Slab.addr

/-- The class size under which a block is used again, if it does not go back to the system. -/
def recycledSize (addrs : Nat → List Nat) (b : LiveBlock) : Option Nat :=
  match manager b.api b.size with
  | .pool => (poolClassForSize b.size).map poolClassSize
  | .slab => (slabClassForSize b.size).bind fun cls =>
      if (addrs cls).any fun a => covers (slabClassSize cls) b.ptr ⟨a, 0⟩ then some (slabClassSize cls) else none
  | .huge => none

/-- What is asked of the system for a block of its own. -/
def systemSize (b : LiveBlock) : Nat :=
  match manager b.api b.size with
  | .pool | .slab => b.size
  | .huge => hugeAligned b.size

/-- The memory of a block: its whole class, when it may be used again. -/
def extent (addrs : Nat → List Nat) (b : LiveBlock) : Block := ⟨b.ptr, (recycledSize addrs b).getD (systemSize b)⟩

/-- Every block that is not freed is as large as was asked for and in memory of the system, and the blocks are apart;
no link is written into one of them, and none reaches into the header of a slab. -/
structure Sound (s : AllocRun) : Prop where
  size : ∀ b ∈ s.live, b.size ≤ (extent (slabAddrs s.state) b).size
  inside : ∀ b ∈ s.live, ∃ r ∈ s.state.held, (extent (slabAddrs s.state) b).Within r
  apart : (s.live.map (extent (slabAddrs s.state))).Pairwise Block.Apart
  linked : ∀ w ∈ s.state.linked, (∃ r ∈ s.state.held, w.Within r) ∧
    ∀ b ∈ s.live, w.Apart (extent (slabAddrs s.state) b)
  headers : ∀ cls < slabNumClasses, ∀ a ∈ slabAddrs s.state cls, ∀ b ∈ s.live,
    (⟨a, slabHeader⟩ : Block).Apart (extent (slabAddrs s.state) b)

/-- What an allocation from a pool has to meet. When the bump slab is used up and there is no memory for another, a
block comes from `malloc` only at the full size of its class; and none is cut from what a slab left that was given up,
but for the first, which is `NULL`. -/
structure PoolFits (sys : System) (sz : Nat) (s : AllocState) : Prop where
  fallback : ∀ cls, poolClassForSize sz = some cls → s.freelist cls = 0 → s.poolSlabRemaining < poolClassSize cls →
    sys.malloc s.time s.held poolSlabSize = 0 → sys.malloc (s.time + 1) s.held sz ≠ 0 → sz = poolClassSize cls
  cut : ∀ cls, poolClassForSize sz = some cls → s.freelist cls = 0 → poolClassSize cls ≤ s.poolSlabRemaining →
    s.refillFailed = true → s.poolSlab = 0

/-- The condition of a step. -/
def Admits (sys : System) : AllocOp → AllocRun → Prop
  | .alloc api size, s => manager api size = .pool → PoolFits sys size s.state
  | _, _ => True

/-! ## The parts -/

/-- A free list in memory. -/
def Chain (mem : Nat → Nat) : Nat → List Nat → Prop
  | p, [] => p = 0
  | p, q :: qs => p = q ∧ p ≠ 0 ∧ Chain mem (mem p) qs

def slot (cls a i : Nat) : Block := ⟨a + slabHeader + i * slabClassSize cls, slabClassSize cls⟩

def slabParts (cls : Nat) (t : Slab) : List Block :=
  ⟨t.addr, slabHeader⟩ :: ((List.range 64).filter t.freeMask.getLsbD).map (slot cls t.addr)

def poolParts (dead : Nat → List Nat) : List Block :=
  (List.range poolNumClasses).flatMap fun cls => (dead cls).map fun p => ⟨p, poolClassSize cls⟩

def bumpParts (s : AllocState) : List Block :=
  if s.refillFailed ∨ s.poolSlabRemaining = 0 then [] else [⟨s.poolSlab, s.poolSlabRemaining⟩]

def slabsParts (heads : Nat → List Slab) : List Block :=
  (List.range slabNumClasses).flatMap fun cls => (heads cls).flatMap (slabParts cls)

def parts (dead : Nat → List Nat) (s : AllocState) (live : List LiveBlock) : List Block :=
  live.map (extent (slabAddrs s)) ++ (poolParts dead ++ (bumpParts s ++ slabsParts s.slabHeads))

/-- A block that is not used again is one of the system, and one that a slab uses again is a slot. -/
structure Owned (addrs : Nat → List Nat) (held : List Block) (b : LiveBlock) : Prop where
  system : recycledSize addrs b = none → extent addrs b ∈ held
  slot : recycledSize addrs b ≠ none → manager b.api b.size = .slab → ∃ cls, slabClassForSize b.size = some cls ∧
    ∃ a ∈ addrs cls, ∃ i < 64, b.ptr = (slot cls a i).addr

/-- The state, with the free lists and the blocks that are not freed. -/
structure Inv (dead : Nat → List Nat) (s : AllocState) (live : List LiveBlock) : Prop where
  parcels : Parcels s.held (parts dead s live)
  chain : ∀ cls < poolNumClasses, Chain s.mem (s.freelist cls) (dead cls)
  regions : ∀ cls < slabNumClasses, ∀ a ∈ slabAddrs s cls, ⟨a, slabTotal (slabClassSize cls)⟩ ∈ s.held
  distinct : ∀ cls < slabNumClasses, (slabAddrs s cls).Nodup
  owned : ∀ b ∈ live, Owned (slabAddrs s) s.held b
  size : ∀ b ∈ live, b.size ≤ (extent (slabAddrs s) b).size

variable {sys : System} {dead dead' : Nat → List Nat} {s s' : AllocState} {live live' : List LiveBlock} {b : LiveBlock}
  {addrs addrs' : Nat → List Nat} {held : List Block} {mem mem' : Nat → Nat} {p : Nat} {cls sz : Nat}

/-! ## Classes -/

theorem poolClass_spec (h : poolClassForSize sz = some cls) :
    cls < poolNumClasses ∧ sz ≤ poolClassSize cls ∧ 16 ≤ poolClassSize cls ∧ poolClassSize cls ≤ 1024 := by
  simp only [poolClassForSize] at h
  repeat' split at h
  all_goals cases h
  all_goals refine ⟨by decide, ?_, by decide, by decide⟩
  all_goals simpa only [poolClassSize, poolClassSizes]

theorem slabClass_spec (h : slabClassForSize sz = some cls) :
    cls < slabNumClasses ∧ sz ≤ slabClassSize cls ∧ 16 ≤ slabClassSize cls ∧ slabClassSize cls ≤ 512 := by
  simp only [slabClassForSize] at h
  repeat' split at h
  all_goals cases h
  all_goals refine ⟨by decide, ?_, by decide, by decide⟩
  all_goals simpa only [slabClassSize, slabClassSizes]

theorem poolClassSize_pos (h : cls < poolNumClasses) : 16 ≤ poolClassSize cls := by
  revert cls
  decide

theorem slabClassSize_pos (h : cls < slabNumClasses) : 16 ≤ slabClassSize cls := by
  revert cls
  decide

/-! ## Free lists -/

theorem Chain.frame {l : List Nat} (hmem : ∀ q ∈ l, mem' q = mem q) (h : Chain mem p l) : Chain mem' p l := by
  induction l generalizing p with
  | nil => exact h
  | cons q qs ih =>
    obtain ⟨rfl, hp, hrest⟩ := h
    obtain ⟨hhead, htail⟩ := forall_mem_cons.mp hmem
    exact ⟨rfl, hp, hhead.symm ▸ ih htail hrest⟩

theorem Owned.mono {held' : List Block} (hheld : ∀ r ∈ held, r ∈ held') (h : Owned addrs held b) :
    Owned addrs held' b :=
  ⟨fun hnone => hheld _ (h.system hnone), h.slot⟩

variable {α : Type*}

/-- A part among the others. -/
theorem perm_inner {x : α} {l m n : List α} : (l ++ (m ++ x :: n)).Perm (x :: (l ++ (m ++ n))) :=
  (perm_middle.append_left l).trans perm_middle

namespace Inv

/-- What does not matter. -/
theorem congr (h : Inv dead s live) (hheld : s'.held = s.held) (hmem : s'.mem = s.mem)
    (hfree : s'.freelist = s.freelist) (hheads : s'.slabHeads = s.slabHeads) (hbump : bumpParts s' = bumpParts s) :
    Inv dead s' live := by
  have haddrs : slabAddrs s' = slabAddrs s := by
    funext cls
    rw [slabAddrs, slabAddrs, hheads]
  refine ⟨?_, ?_, ?_, ?_, ?_, ?_⟩
  · rw [hheld, parts, haddrs, hbump, hheads]
    exact h.parcels
  · rw [hmem, hfree]
    exact h.chain
  · rw [hheld, haddrs]
    exact h.regions
  · rw [haddrs]
    exact h.distinct
  · rw [hheld, haddrs]
    exact h.owned
  · rw [haddrs]
    exact h.size

theorem perm (h : Inv dead s live) (hperm : live.Perm live') : Inv dead s live' where
  parcels := h.parcels.perm ((hperm.map _).append_right _)
  chain := h.chain
  regions := h.regions
  distinct := h.distinct
  owned b hb := h.owned b (hperm.mem_iff.mpr hb)
  size b hb := h.size b (hperm.mem_iff.mpr hb)

/-- The address of a part is not `NULL`. -/
theorem addr_pos (h : Inv dead s live) {c : Block} (hc : c ∈ parts dead s live) : 0 < c.addr := by
  obtain ⟨r, hr, hin⟩ := h.parcels.within c hc
  exact (h.parcels.held_pos r hr).1.trans_le (hin.bounds (h.parcels.pos c hc)).1

theorem ptr_ne (h : Inv dead s (b :: live)) : b.ptr ≠ 0 :=
  (h.addr_pos (c := extent (slabAddrs s) b) mem_cons_self).ne'

/-! ## From the system and back -/

/-- A block that is one of the system. -/
theorem acquire (h : Inv dead s live) {n : Nat} (hext : extent (slabAddrs s) b = ⟨p, n⟩) (hp : p ≠ 0) (hn : 0 < n)
    (hfresh : ∀ r ∈ s.held, r.Apart ⟨p, n⟩) (hsize : b.size ≤ n)
    (hown : manager b.api b.size = .slab → recycledSize (slabAddrs s) b = none) :
    Inv dead { s with held := ⟨p, n⟩ :: s.held } (b :: live) := by
  refine ⟨?_, h.chain, ?_, h.distinct, ?_, ?_⟩
  · have := h.parcels.acquire (r := ⟨p, n⟩) (Nat.pos_of_ne_zero hp) hn hfresh
    rw [← hext] at this ⊢
    exact this
  · exact fun cls hcls a ha => mem_cons_of_mem _ (h.regions cls hcls a ha)
  · refine forall_mem_cons.mpr ⟨?_, fun c hc => (h.owned c hc).mono fun r hr => mem_cons_of_mem _ hr⟩
    exact ⟨fun _ => hext ▸ mem_cons_self, fun hsome hm => absurd (hown hm) hsome⟩
  · refine forall_mem_cons.mpr ⟨?_, h.size⟩
    show b.size ≤ (extent (slabAddrs s) b).size
    rw [hext]
    exact hsize

/-- A block that is not used again goes back. -/
theorem release (h : Inv dead s (b :: live)) (hnone : recycledSize (slabAddrs s) b = none) :
    Inv dead (AllocState.free b.ptr s) live := by
  have hr : extent (slabAddrs s) b ∈ s.held := (h.owned b mem_cons_self).system hnone
  have hparts : parts dead s (b :: live) = extent (slabAddrs s) b :: parts dead s live := rfl
  have hparcels := h.parcels
  rw [hparts] at hparcels
  refine ⟨hparcels.release hr, h.chain, ?_, h.distinct, ?_, fun c hc => h.size c (mem_cons_of_mem _ hc)⟩
  · intro cls hcls a ha
    obtain ⟨t, ht, rfl⟩ := mem_map.mp ha
    apply hparcels.kept hr (h.regions cls hcls _ ha) (b := ⟨t.addr, slabHeader⟩)
    · apply mem_append_right
      apply mem_append_right
      apply mem_append_right
      rw [slabsParts, mem_flatMap]
      refine ⟨cls, mem_range.mpr hcls, mem_flatMap.mpr ⟨t, ht, mem_cons_self⟩⟩
    · refine Block.Within.of_bounds (Nat.le_refl t.addr) ?_
      show t.addr + slabHeader ≤ t.addr + slabTotal _
      rw [slabTotal]
      omega
  · intro c hc
    have hown := h.owned c (mem_cons_of_mem _ hc)
    refine ⟨fun hc' => hparcels.kept hr (hown.system hc') ?_ (.refl _), hown.slot⟩
    exact List.mem_append_left _ (List.mem_map_of_mem hc)

/-! ## Pools -/

theorem giveUp (h : Inv dead s live) {x : Nat} : Inv dead { s with poolSlab := x, refillFailed := true } live := by
  refine ⟨?_, h.chain, h.regions, h.distinct, h.owned, h.size⟩
  have hbump : bumpParts { s with poolSlab := x, refillFailed := true } = [] := if_pos (Or.inl rfl)
  have hold := h.parcels
  rw [parts, bumpParts] at hold
  rw [parts, hbump, nil_append]
  split at hold
  next =>
    rw [nil_append] at hold
    exact hold
  next =>
    rw [singleton_append] at hold
    exact (hold.perm perm_inner).tail

theorem refill (h : Inv dead s live) (hp : p ≠ 0) (hfresh : ∀ r ∈ s.held, r.Apart ⟨p, poolSlabSize⟩) :
    Inv dead { s with
      held := ⟨p, poolSlabSize⟩ :: s.held
      poolSlab := p
      poolSlabRemaining := poolSlabSize
      refillFailed := false } live := by
  have hup := h.giveUp (x := p)
  refine ⟨?_, h.chain, ?_, h.distinct, ?_, h.size⟩
  · have hacq := hup.parcels.acquire (r := ⟨p, poolSlabSize⟩) (Nat.pos_of_ne_zero hp) (Nat.zero_lt_succ _) hfresh
    apply hacq.perm
    have hbump : bumpParts { s with poolSlab := p, refillFailed := true } = [] := if_pos (Or.inl rfl)
    have hbump' : bumpParts { s with
        held := ⟨p, poolSlabSize⟩ :: s.held
        poolSlab := p
        poolSlabRemaining := poolSlabSize
        refillFailed := false } = [⟨p, poolSlabSize⟩] := rfl
    rw [parts, parts, hbump, hbump', nil_append, singleton_append]
    exact perm_inner.symm
  · exact fun cls hcls a ha => mem_cons_of_mem _ (h.regions cls hcls a ha)
  · exact fun c hc => (h.owned c hc).mono fun r hr => mem_cons_of_mem _ hr

theorem cut (h : Inv dead s live) (hok : s.refillFailed = false) {n : Nat} (hn : 0 < n) (hfit : n ≤ s.poolSlabRemaining)
    (hext : extent (slabAddrs s) b = ⟨s.poolSlab, n⟩) (hsize : b.size ≤ n) (hown : Owned (slabAddrs s) s.held b) :
    Inv dead (AllocState.cut n s).2 (b :: live) := by
  refine ⟨?_, h.chain, h.regions, h.distinct, forall_mem_cons.mpr ⟨hown, h.owned⟩,
    forall_mem_cons.mpr ⟨?_, h.size⟩⟩
  · have hbump : bumpParts s = [⟨s.poolSlab, s.poolSlabRemaining⟩] :=
      if_neg (not_or.mpr ⟨by rw [hok]; exact Bool.false_ne_true, by omega⟩)
    have hold : Parcels s.held (⟨s.poolSlab, s.poolSlabRemaining⟩ ::
        (live.map (extent (slabAddrs s)) ++ (poolParts dead ++ slabsParts s.slabHeads))) := by
      have hold := h.parcels
      rw [parts, hbump, singleton_append] at hold
      exact hold.perm perm_inner
    have hparts : parts dead (AllocState.cut n s).2 (b :: live) = ⟨s.poolSlab, n⟩ :: (live.map (extent (slabAddrs s)) ++
        (poolParts dead ++ (bumpParts (AllocState.cut n s).2 ++ slabsParts s.slabHeads))) := by
      rw [← hext]
      rfl
    rw [hparts]
    by_cases hlast : s.poolSlabRemaining - n = 0
    · have hrest : bumpParts (AllocState.cut n s).2 = [] := if_pos (Or.inr hlast)
      rw [hrest, nil_append, ← singleton_append]
      apply hold.split
      · exact List.forall_mem_singleton.mpr hn
      · exact List.forall_mem_singleton.mpr (.of_bounds (Nat.le_refl s.poolSlab) (Nat.add_le_add_left hfit _))
      · exact List.pairwise_singleton _ _
    · have hrest : bumpParts (AllocState.cut n s).2 = [⟨s.poolSlab + n, s.poolSlabRemaining - n⟩] :=
        if_neg (not_or.mpr ⟨by rw [AllocState.cut, hok]; exact Bool.false_ne_true, hlast⟩)
      rw [hrest, singleton_append]
      apply Parcels.perm _ (perm_inner.symm.cons _)
      have hpos : ∀ c ∈ [(⟨s.poolSlab, n⟩ : Block), ⟨s.poolSlab + n, s.poolSlabRemaining - n⟩], 0 < c.size :=
        forall_mem_cons.mpr ⟨hn, List.forall_mem_singleton.mpr (Nat.pos_of_ne_zero hlast)⟩
      apply hold.split hpos
      · refine forall_mem_cons.mpr ⟨.of_bounds (Nat.le_refl s.poolSlab) (Nat.add_le_add_left hfit _),
          List.forall_mem_singleton.mpr (.of_bounds (Nat.le_add_right s.poolSlab n) ?_)⟩
        show s.poolSlab + n + (s.poolSlabRemaining - n) ≤ s.poolSlab + s.poolSlabRemaining
        omega
      · exact List.pairwise_pair.mpr (.of_le (Nat.le_refl (s.poolSlab + n)))
  · show b.size ≤ (extent (slabAddrs s) b).size
    rw [hext]
    exact hsize

end Inv

theorem poolParts_perm {rest : List Nat} (hcls : cls < poolNumClasses) (h : dead cls = p :: rest) :
    (poolParts dead).Perm (⟨p, poolClassSize cls⟩ :: poolParts (Function.update dead cls rest)) := by
  obtain ⟨others, hf, hg⟩ := flatMap_exchange (f := fun c => (dead c).map fun q => (⟨q, poolClassSize c⟩ : Block))
    (g := fun c => (Function.update dead cls rest c).map fun q => (⟨q, poolClassSize c⟩ : Block)) hcls
    fun d hd => by rw [update_of_ne hd]
  rw [h] at hf
  rw [update_self] at hg
  exact hf.trans (hg.symm.cons _)

/-- A block more on a free list. -/
theorem poolParts_push (hcls : cls < poolNumClasses) :
    (poolParts (Function.update dead cls (p :: dead cls))).Perm (⟨p, poolClassSize cls⟩ :: poolParts dead) := by
  have h := poolParts_perm hcls (update_self cls (p :: dead cls) dead)
  rw [Function.update_idem, Function.update_eq_self] at h
  exact h

namespace Inv

theorem reuse (h : Inv dead s live) (hcls : cls < poolNumClasses) (hp : s.freelist cls ≠ 0)
    (hext : extent (slabAddrs s) b = ⟨s.freelist cls, poolClassSize cls⟩) (hsize : b.size ≤ poolClassSize cls)
    (hown : Owned (slabAddrs s) s.held b) :
    ∃ dead', Inv dead' { s with freelist := Function.update s.freelist cls (s.mem (s.freelist cls)) } (b :: live) := by
  have hchain := h.chain cls hcls
  cases hdead : dead cls with
  | nil =>
    rw [hdead] at hchain
    exact absurd hchain hp
  | cons q rest =>
    rw [hdead] at hchain
    obtain ⟨hq, -, hrest⟩ := hchain
    refine ⟨Function.update dead cls rest, ?_, ?_, h.regions, h.distinct, forall_mem_cons.mpr ⟨hown, h.owned⟩,
      forall_mem_cons.mpr ⟨?_, h.size⟩⟩
    · have hperm := poolParts_perm hcls hdead
      rw [← hq, ← hext] at hperm
      exact h.parcels.perm ((((hperm.append_right _).append_left _)).trans perm_middle)
    · intro d hd
      show Chain s.mem (Function.update s.freelist cls _ d) (Function.update dead cls rest d)
      by_cases hdc : d = cls
      · subst hdc
        rw [update_self, update_self]
        exact hrest
      · rw [update_of_ne hdc, update_of_ne hdc]
        exact h.chain d hd
    · show b.size ≤ (extent (slabAddrs s) b).size
      rw [hext]
      exact hsize

/-- A block goes on a free list. -/
theorem recycle (h : Inv dead s (b :: live)) (hcls : cls < poolNumClasses)
    (hext : extent (slabAddrs s) b = ⟨b.ptr, poolClassSize cls⟩) :
    ∃ dead', Inv dead' { s with
      mem := Function.update s.mem b.ptr (s.freelist cls)
      freelist := Function.update s.freelist cls b.ptr } live := by
  have hparts : parts dead s (b :: live) = ⟨b.ptr, poolClassSize cls⟩ :: parts dead s live := by
    rw [← hext]
    rfl
  have hold := h.parcels
  rw [hparts] at hold
  have hnew : ∀ d < poolNumClasses, ∀ q ∈ dead d, q ≠ b.ptr := by
    intro d hd q hq heq
    have hin : (⟨q, poolClassSize d⟩ : Block) ∈ parts dead s live := by
      apply mem_append_right
      apply List.mem_append_left
      exact mem_flatMap.mpr ⟨d, mem_range.mpr hd, List.mem_map_of_mem hq⟩
    have hpos := poolClassSize_pos hd
    have hpos' := poolClassSize_pos hcls
    have hapart := (List.pairwise_cons.mp hold.apart).1 _ hin
    exact Block.not_apart_of_addr_eq heq.symm (Nat.zero_lt_of_lt hpos') (Nat.zero_lt_of_lt hpos) hapart
  have hframe : ∀ d < poolNumClasses, Chain (Function.update s.mem b.ptr (s.freelist cls)) (s.freelist d) (dead d) :=
    fun d hd => (h.chain d hd).frame fun q hq => update_of_ne (hnew d hd q hq) _ _
  refine ⟨Function.update dead cls (b.ptr :: dead cls), ?_, ?_, h.regions, h.distinct,
    fun c hc => h.owned c (mem_cons_of_mem _ hc), fun c hc => h.size c (mem_cons_of_mem _ hc)⟩
  · apply hold.perm
    have hperm : (poolParts (Function.update dead cls (b.ptr :: dead cls))).Perm _ := poolParts_push hcls
    exact (((hperm.append_right _).append_left _).trans perm_middle).symm
  · intro d hd
    by_cases hdc : d = cls
    · subst hdc
      simp only [update_self]
      refine ⟨rfl, (h.addr_pos (c := extent (slabAddrs s) b) mem_cons_self).ne', ?_⟩
      rw [update_self]
      exact hframe d hd
    · simp only [update_of_ne hdc]
      exact hframe d hd

end Inv

/-! ## Slabs -/

theorem filter_perm [DecidableEq α] {l : List α} {x : α} {f g : α → Bool} (hl : l.Nodup) (hx : x ∈ l)
    (hf : f x = true) (hg : ∀ y, g y = (f y && decide (y ≠ x))) : (l.filter f).Perm (x :: l.filter g) := by
  have hgx : g x = false := by rw [hg, decide_eq_false (fun h => h rfl), Bool.and_false]
  rw [List.perm_ext_iff_of_nodup (hl.filter _) (List.nodup_cons.mpr ⟨?_, hl.filter _⟩)]
  · intro y
    rw [List.mem_cons, mem_filter, mem_filter, hg]
    by_cases hy : y = x
    · subst hy
      simp [hx, hf]
    · simp [hy]
  · rw [mem_filter, hgx]
    exact fun h => Bool.false_ne_true h.2

variable {t u : Slab} {i : Nat}

/-- The slot of a bit that is set in one mask, and not in another that is else the same. -/
theorem slabParts_perm (haddr : u.addr = t.addr) (hi : i < 64)
    (hset : t.freeMask.getLsbD i = true)
    (hmask : ∀ j, u.freeMask.getLsbD j = (t.freeMask.getLsbD j && decide (j ≠ i))) :
    (slabParts cls t).Perm (slot cls t.addr i :: slabParts cls u) := by
  rw [slabParts, slabParts, haddr]
  have hperm := filter_perm List.nodup_range (mem_range.mpr hi) hset hmask
  exact ((hperm.map (slot cls t.addr)).cons _).trans (List.Perm.swap _ _ _)

variable {pre post : List Slab}

theorem slabsParts_perm {heads : Nat → List Slab} {x : Block}
    (hcls : cls < slabNumClasses) (hheads : heads cls = pre ++ t :: post)
    (hperm : (slabParts cls t).Perm (x :: slabParts cls u)) :
    (slabsParts heads).Perm (x :: slabsParts (Function.update heads cls (pre ++ u :: post))) := by
  obtain ⟨others, hf, hg⟩ := flatMap_exchange (f := fun c => (heads c).flatMap (slabParts c))
    (g := fun c => (Function.update heads cls (pre ++ u :: post) c).flatMap (slabParts c)) hcls
    fun d hd => by rw [update_of_ne hd]
  rw [hheads, List.flatMap_append, List.flatMap_cons] at hf
  rw [update_self, List.flatMap_append, List.flatMap_cons] at hg
  have hmid : (pre.flatMap (slabParts cls) ++ (slabParts cls t ++ post.flatMap (slabParts cls))).Perm
      (x :: (pre.flatMap (slabParts cls) ++ (slabParts cls u ++ post.flatMap (slabParts cls)))) :=
    ((hperm.append_right _).append_left _).trans perm_middle
  exact hf.trans ((hmid.append_right _).trans (hg.symm.cons _))

theorem slabAddrs_update {heads : Nat → List Slab} (haddr : u.addr = t.addr)
    (hheads : heads cls = pre ++ t :: post) (hs : s.slabHeads = heads)
    (hs' : s'.slabHeads = Function.update heads cls (pre ++ u :: post)) : slabAddrs s' = slabAddrs s := by
  funext d
  rw [slabAddrs, slabAddrs, hs, hs']
  by_cases hd : d = cls
  · subst hd
    rw [update_self, hheads, List.map_append, List.map_append, List.map_cons, List.map_cons, haddr]
  · rw [update_of_ne hd]

/-- A part behind the pools and the bump slab. -/
theorem perm_outer {x : α} {k l m n n' : List α} (h : n.Perm (x :: n')) :
    (k ++ (l ++ (m ++ n))).Perm (x :: (k ++ (l ++ (m ++ n')))) :=
  ((((h.append_left m).append_left l).append_left k).trans (perm_inner.append_left k)).trans perm_middle

namespace Inv

theorem takeSlot (h : Inv dead s live) (hcls : cls < slabNumClasses)
    (hheads : s.slabHeads cls = pre ++ t :: post) (haddr : u.addr = t.addr) (hi : i < 64)
    (hset : t.freeMask.getLsbD i = true)
    (hmask : ∀ j, u.freeMask.getLsbD j = (t.freeMask.getLsbD j && decide (j ≠ i)))
    (hext : extent (slabAddrs s) b = slot cls t.addr i) (hsize : b.size ≤ slabClassSize cls)
    (hown : Owned (slabAddrs s) s.held b) :
    Inv dead { s with slabHeads := Function.update s.slabHeads cls (pre ++ u :: post) } (b :: live) := by
  have haddrs : slabAddrs { s with slabHeads := Function.update s.slabHeads cls (pre ++ u :: post) } = slabAddrs s :=
    slabAddrs_update haddr hheads rfl rfl
  have hperm := slabsParts_perm hcls hheads (slabParts_perm haddr hi hset hmask)
  refine ⟨?_, h.chain, ?_, ?_, ?_, ?_⟩
  · have hparts := h.parcels.perm (perm_outer hperm)
    rw [← hext] at hparts
    rw [parts, haddrs]
    exact hparts
  · rw [haddrs]
    exact h.regions
  · rw [haddrs]
    exact h.distinct
  · rw [haddrs]
    exact forall_mem_cons.mpr ⟨hown, h.owned⟩
  · rw [haddrs]
    refine forall_mem_cons.mpr ⟨?_, h.size⟩
    rw [hext]
    exact hsize

theorem putSlot (h : Inv dead s (b :: live)) (hcls : cls < slabNumClasses)
    (hheads : s.slabHeads cls = pre ++ t :: post) (haddr : u.addr = t.addr) (hi : i < 64)
    (hmask : ∀ j, u.freeMask.getLsbD j = (t.freeMask.getLsbD j || decide (j = i)))
    (hext : extent (slabAddrs s) b = slot cls t.addr i) :
    Inv dead { s with slabHeads := Function.update s.slabHeads cls (pre ++ u :: post) } live := by
  have haddrs : slabAddrs { s with slabHeads := Function.update s.slabHeads cls (pre ++ u :: post) } = slabAddrs s :=
    slabAddrs_update haddr hheads rfl rfl
  have hparts : parts dead s (b :: live) = slot cls t.addr i :: parts dead s live := by
    rw [← hext]
    rfl
  have hold := h.parcels
  rw [hparts] at hold
  have hclear : t.freeMask.getLsbD i = false := by
    rw [← Bool.not_eq_true]
    intro hset
    have hin : slot cls t.addr i ∈ parts dead s live := by
      apply mem_append_right
      apply mem_append_right
      apply mem_append_right
      refine mem_flatMap.mpr ⟨cls, mem_range.mpr hcls, mem_flatMap.mpr ⟨t, ?_, ?_⟩⟩
      · rw [hheads]
        exact mem_append_right _ mem_cons_self
      · apply mem_cons_of_mem
        exact List.mem_map_of_mem (mem_filter.mpr ⟨mem_range.mpr hi, hset⟩)
    exact Block.not_apart_self (hold.pos _ mem_cons_self) ((List.pairwise_cons.mp hold.apart).1 _ hin)
  have hback : ∀ j, t.freeMask.getLsbD j = (u.freeMask.getLsbD j && decide (j ≠ i)) := by
    intro j
    rw [hmask]
    by_cases hj : j = i
    · subst hj
      simp [hclear]
    · simp [hj]
  have hset : u.freeMask.getLsbD i = true := by
    rw [hmask, decide_eq_true rfl, Bool.or_true]
  have hperm : (slabsParts (Function.update s.slabHeads cls (pre ++ u :: post))).Perm
      (slot cls t.addr i :: slabsParts s.slabHeads) := by
    have hputs := slabsParts_perm hcls (update_self cls (pre ++ u :: post) s.slabHeads)
      (slabParts_perm haddr.symm hi hset hback)
    rw [Function.update_idem, ← hheads, Function.update_eq_self, haddr] at hputs
    exact hputs
  refine ⟨?_, h.chain, ?_, ?_, ?_, ?_⟩
  · rw [parts, haddrs]
    exact hold.perm (perm_outer hperm).symm
  · rw [haddrs]
    exact h.regions
  · rw [haddrs]
    exact h.distinct
  · rw [haddrs]
    exact fun c hc => h.owned c (mem_cons_of_mem _ hc)
  · rw [haddrs]
    exact fun c hc => h.size c (mem_cons_of_mem _ hc)

end Inv

theorem slot_le {a i j : Nat} (h : i < j) : (slot cls a i).limit ≤ (slot cls a j).addr := by
  have hmul : (i + 1) * slabClassSize cls ≤ j * slabClassSize cls := Nat.mul_le_mul_right _ h
  rw [Nat.add_mul, Nat.one_mul] at hmul
  show a + slabHeader + i * slabClassSize cls + slabClassSize cls ≤ a + slabHeader + j * slabClassSize cls
  omega

theorem slot_within {a i : Nat} (hi : i < 64) : (slot cls a i).Within ⟨a, slabTotal (slabClassSize cls)⟩ := by
  have hmul : (i + 1) * slabClassSize cls ≤ 64 * slabClassSize cls := Nat.mul_le_mul_right _ hi
  rw [Nat.add_mul, Nat.one_mul] at hmul
  apply Block.Within.of_bounds
  · show a ≤ a + slabHeader + i * slabClassSize cls
    omega
  · show a + slabHeader + i * slabClassSize cls + slabClassSize cls ≤ a + slabTotal (slabClassSize cls)
    rw [slabTotal]
    omega

/-- A slab's header and slots, in what the system gave for it. -/
theorem slabParts_pieces (t : Slab) (hcls : cls < slabNumClasses) :
    (∀ c ∈ slabParts cls t, 0 < c.size ∧ c.Within ⟨t.addr, slabTotal (slabClassSize cls)⟩) ∧
      (slabParts cls t).Pairwise Block.Apart := by
  constructor
  · refine forall_mem_cons.mpr ⟨⟨Nat.zero_lt_succ _, .of_bounds (Nat.le_refl t.addr) ?_⟩, fun c hc => ?_⟩
    · show t.addr + slabHeader ≤ t.addr + slabTotal _
      rw [slabTotal]
      omega
    · obtain ⟨i, hi, rfl⟩ := mem_map.mp hc
      have hi := mem_range.mp (mem_filter.mp hi).1
      exact ⟨Nat.zero_lt_of_lt (slabClassSize_pos hcls), slot_within hi⟩
  · refine List.pairwise_cons.mpr ⟨fun c hc => ?_, ?_⟩
    · obtain ⟨i, -, rfl⟩ := mem_map.mp hc
      exact .of_le (Nat.le_add_right (t.addr + slabHeader) _)
    · rw [List.pairwise_map]
      exact (List.pairwise_lt_range.imp fun hij => .of_le (slot_le hij)).sublist List.filter_sublist

theorem recycledSize_update (h : covers (slabClassSize cls) b.ptr ⟨p, 0⟩ = true → recycledSize addrs b ≠ none) :
    recycledSize (Function.update addrs cls (p :: addrs cls)) b = recycledSize addrs b := by
  rw [recycledSize, recycledSize] at *
  split
  next => rfl
  next hm =>
    rw [hm] at h
    cases hcls : slabClassForSize b.size with
    | none => rfl
    | some d =>
      rw [hcls] at h
      by_cases hd : d = cls
      · subst hd
        simp only [Option.bind_some, update_self, List.any_cons] at h ⊢
        cases hp : covers (slabClassSize d) b.ptr ⟨p, 0⟩ with
        | false => rw [Bool.false_or]
        | true =>
          have hany := h hp
          split at hany
          next hany' => rw [if_pos hany', Bool.true_or, if_pos rfl]
          next => exact absurd rfl hany
      · simp [update_of_ne hd]
  next => rfl

namespace Inv

theorem newSlab (h : Inv dead s live) (hcls : cls < slabNumClasses) (hp : p ≠ 0)
    (hfresh : ∀ r ∈ s.held, r.Apart ⟨p, slabTotal (slabClassSize cls)⟩) :
    Inv dead { s with
      held := ⟨p, slabTotal (slabClassSize cls)⟩ :: s.held
      slabHeads := Function.update s.slabHeads cls (⟨p, BitVec.allOnes 64⟩ :: s.slabHeads cls) } live := by
  have htotal : 0 < slabTotal (slabClassSize cls) := by
    rw [slabTotal, slabHeader]
    omega
  have haddrs : slabAddrs { s with
      held := ⟨p, slabTotal (slabClassSize cls)⟩ :: s.held
      slabHeads := Function.update s.slabHeads cls (⟨p, BitVec.allOnes 64⟩ :: s.slabHeads cls) } =
      Function.update (slabAddrs s) cls (p :: slabAddrs s cls) := by
    funext d
    show (Function.update s.slabHeads cls (⟨p, BitVec.allOnes 64⟩ :: s.slabHeads cls) d).map Slab.addr = _
    by_cases hd : d = cls
    · subst hd
      rw [update_self, update_self]
      rfl
    · rw [update_of_ne hd, update_of_ne hd]
      rfl
  have hmem : ∀ d, ∀ a ∈ slabAddrs s d, a ∈ Function.update (slabAddrs s) cls (p :: slabAddrs s cls) d := by
    intro d a ha
    by_cases hd : d = cls
    · subst hd
      rw [update_self]
      exact mem_cons_of_mem _ ha
    · rw [update_of_ne hd]
      exact ha
  have hrecycled : ∀ b ∈ live,
      recycledSize (Function.update (slabAddrs s) cls (p :: slabAddrs s cls)) b = recycledSize (slabAddrs s) b := by
    intro b hb
    apply recycledSize_update
    intro hcovers hnone
    have hown := (h.owned b hb).system hnone
    rw [covers, Bool.and_eq_true, decide_eq_true_eq, decide_eq_true_eq] at hcovers
    dsimp only at hcovers
    have hin : (⟨p, slabTotal (slabClassSize cls)⟩ : Block).Holds b.ptr := by
      show p ≤ b.ptr ∧ b.ptr < p + slabTotal (slabClassSize cls)
      rw [slabTotal]
      omega
    exact hfresh _ hown b.ptr ⟨Nat.le_refl _, Nat.lt_add_of_pos_right (h.parcels.held_pos _ hown).2⟩ hin
  have hextent : ∀ b ∈ live,
      extent (Function.update (slabAddrs s) cls (p :: slabAddrs s cls)) b = extent (slabAddrs s) b := by
    intro b hb
    rw [extent, extent, hrecycled b hb]
  obtain ⟨hpieces, hapart⟩ := slabParts_pieces ⟨p, BitVec.allOnes 64⟩ hcls
  refine ⟨?_, h.chain, ?_, ?_, ?_, ?_⟩
  · have hacq := (h.parcels.acquire (r := ⟨p, slabTotal (slabClassSize cls)⟩) (Nat.pos_of_ne_zero hp) htotal hfresh).split
      (fun c hc => (hpieces c hc).1) (fun c hc => (hpieces c hc).2) hapart
    have hlive : live.map (extent (Function.update (slabAddrs s) cls (p :: slabAddrs s cls))) =
        live.map (extent (slabAddrs s)) := List.map_congr_left hextent
    rw [parts, haddrs, hlive]
    apply hacq.perm
    obtain ⟨others, hf, hg⟩ := flatMap_exchange (f := fun c => (s.slabHeads c).flatMap (slabParts c))
      (g := fun c => (Function.update s.slabHeads cls (⟨p, BitVec.allOnes 64⟩ :: s.slabHeads cls) c).flatMap (slabParts c))
      hcls fun d hd => by rw [update_of_ne hd]
    rw [update_self, List.flatMap_cons, append_assoc] at hg
    have hslabs : (slabsParts (Function.update s.slabHeads cls (⟨p, BitVec.allOnes 64⟩ :: s.slabHeads cls))).Perm
        (slabParts cls ⟨p, BitVec.allOnes 64⟩ ++ slabsParts s.slabHeads) := hg.trans (hf.symm.append_left _)
    rw [parts]
    refine .trans ?_ ((((hslabs.symm.append_left _).append_left _).append_left _))
    generalize slabParts cls ⟨p, BitVec.allOnes 64⟩ = new
    generalize slabsParts s.slabHeads = old
    rw [← append_assoc, ← append_assoc, ← append_assoc, ← append_assoc, ← append_assoc,
      ← append_assoc]
    apply List.Perm.append_right
    rw [append_assoc, append_assoc, ← append_assoc (live.map _)]
    exact List.perm_append_comm
  · intro d hd a ha
    rw [haddrs] at ha
    by_cases hdc : d = cls
    · subst hdc
      rw [update_self] at ha
      rcases List.mem_cons.mp ha with rfl | ha
      · exact mem_cons_self
      · exact mem_cons_of_mem _ (h.regions d hd a ha)
    · rw [update_of_ne hdc] at ha
      exact mem_cons_of_mem _ (h.regions d hd a ha)
  · intro d hd
    rw [haddrs]
    by_cases hdc : d = cls
    · subst hdc
      rw [update_self]
      refine List.nodup_cons.mpr ⟨fun ha => ?_, h.distinct d hd⟩
      exact Block.not_apart_self htotal (hfresh _ (h.regions d hd p ha))
    · rw [update_of_ne hdc]
      exact h.distinct d hd
  · intro b hb
    rw [haddrs]
    have hown := h.owned b hb
    refine ⟨fun hnone => ?_, fun hsome hm => ?_⟩
    · rw [hextent b hb]
      rw [hrecycled b hb] at hnone
      exact mem_cons_of_mem _ (hown.system hnone)
    · rw [hrecycled b hb] at hsome
      obtain ⟨d, hd, a, ha, i, hi, hptr⟩ := hown.slot hsome hm
      exact ⟨d, hd, a, hmem d a ha, i, hi, hptr⟩
  · intro b hb
    rw [haddrs, hextent b hb]
    exact h.size b hb

end Inv

end AllocRun

end Datara.Runtime
