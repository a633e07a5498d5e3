import Datara.Runtime.BumpArena

/-!
# What the arena gives out

The chunks before the cursor may hold anything, the chunk at the cursor only what ends at the offset, and a chunk
after it only a block that begins with it (`Settled`). A call keeps this when it meets `Fits`, and what it returns is
sound only then.
-/

namespace Datara.Runtime

open Library

namespace ArenaRun

variable {sys : GlobalAlloc} {heap : List Block} {live : List Grant} {chunkSize idx offset : Nat} {c x : Block}
  {g : Grant} {s s' : ArenaRun} {r : Request}

/-- Where the blocks are that are not released, for a cursor. -/
structure Settled (heap : List Block) (chunkSize idx offset : Nat) (live : List Grant) : Prop where
  sound : Sound heap live
  idx_lt : idx < heap.length
  offset_le : offset ≤ chunkSize
  placed : ∀ g ∈ live, 0 < g.block.size → ∃ j c, heap[j]? = some c ∧ g.block.Within c ∧
    (j = idx → g.block.limit ≤ c.addr + offset) ∧ (idx < j → g.block.addr = c.addr)

/-- The state of an arena all of whose calls met the condition. -/
structure Inv (s : ArenaRun) : Prop where
  chunks : s.arena.chunks = s.heap.map Block.addr
  sizes : ∀ c ∈ s.heap, s.arena.chunkSize ≤ c.size ∧ c.size ≤ BumpArena.layoutMax
  apart : s.heap.Pairwise Block.Apart
  settled : Settled s.heap s.arena.chunkSize s.arena.currentChunkIdx s.arena.offset s.live
  scopes : ∀ f ∈ s.scopes, Settled s.heap s.arena.chunkSize f.1.initialChunk f.1.initialOffset f.2

/-! ## One block more -/

theorem Sound.cons (h : Sound heap live) (hc : c ∈ heap) (hdvd : g.align ∣ g.block.addr)
    (hsize : g.block.size ≤ c.size) (hin : g.block.Within c) (hapart : ∀ k ∈ live, g.block.Apart k.block) :
    Sound heap (g :: live) where
  aligned := List.forall_mem_cons.mpr ⟨hdvd, h.aligned⟩
  inside := List.forall_mem_cons.mpr ⟨⟨c, hc, hsize, hin⟩, h.inside⟩
  apart := List.pairwise_cons.mpr ⟨hapart, h.apart⟩

theorem Sound.grow (h : Sound heap live) : Sound (heap ++ [x]) live where
  aligned := h.aligned
  inside g hg := by
    obtain ⟨c, hc, hin⟩ := h.inside g hg
    exact ⟨c, List.mem_append_left _ hc, hin⟩
  apart := h.apart

theorem Sound.nil : Sound heap [] where
  aligned := List.forall_mem_nil _
  inside := List.forall_mem_nil _
  apart := .nil

namespace Settled

theorem of_nil (hidx : idx < heap.length) (hoffset : offset ≤ chunkSize) : Settled heap chunkSize idx offset [] :=
  ⟨.nil, hidx, hoffset, List.forall_mem_nil _⟩

section
variable (h : Settled heap chunkSize idx offset live)
include h

theorem grow : Settled (heap ++ [x]) chunkSize idx offset live where
  sound := h.sound.grow
  idx_lt := by
    rw [List.length_append]
    exact Nat.lt_add_right _ h.idx_lt
  offset_le := h.offset_le
  placed g hg hpos := by
    obtain ⟨j, c, hj, hplaced⟩ := h.placed g hg hpos
    refine ⟨j, c, ?_, hplaced⟩
    rw [List.getElem?_append_left (List.getElem?_eq_some_iff.mp hj).1]
    exact hj

theorem apart_of_ne (hheap : heap.Pairwise Block.Apart) {b : Block}
    {i : Nat} (hc : heap[i]? = some c) (hb : b.Within c)
    (hsame : ∀ k ∈ live, 0 < k.block.size → k.block.Within c → (i = idx → k.block.limit ≤ c.addr + offset) →
      (idx < i → k.block.addr = c.addr) → b.Apart k.block) :
    ∀ k ∈ live, b.Apart k.block := by
  intro k hk
  rcases Nat.eq_zero_or_pos k.block.size with hzero | hpos
  · exact (Block.Apart.of_empty hzero).symm
  · obtain ⟨j, d, hj, hin, hlim, hfirst⟩ := h.placed k hk hpos
    by_cases hij : i = j
    · subst hij
      cases hc.symm.trans hj
      exact hsame k hk hpos hin hlim hfirst
    · exact (Block.apart_of_ne hheap hc hj hij).mono hb hin

theorem cons_empty (hsize : g.block.size = 0)
    (hdvd : g.align ∣ g.block.addr) : Settled heap chunkSize idx offset (g :: live) where
  sound := h.sound.cons (List.getElem_mem h.idx_lt) hdvd (by rw [hsize]; exact Nat.zero_le _) (.of_empty hsize)
    fun _ _ => .of_empty hsize
  idx_lt := h.idx_lt
  offset_le := h.offset_le
  placed := List.forall_mem_cons.mpr ⟨fun hpos => absurd hsize hpos.ne', h.placed⟩

theorem bump (hheap : heap.Pairwise Block.Apart)
    (hc : heap[idx]? = some c) (hcs : chunkSize ≤ c.size) {a size align : Nat} (ha : offset ≤ a)
    (hfit : a + size ≤ chunkSize) (hdvd : align ∣ c.addr + a) :
    Settled heap chunkSize idx (a + size) (⟨⟨c.addr + a, size⟩, align⟩ :: live) := by
  have hin : Block.Within ⟨c.addr + a, size⟩ c := by
    apply Block.Within.of_bounds
    · exact Nat.le_add_right _ _
    · show c.addr + a + size ≤ c.addr + c.size
      omega
  have hapart := h.apart_of_ne hheap hc hin fun k _ _ _ hlim _ =>
    (Block.Apart.of_le ((hlim rfl).trans (Nat.add_le_add_left ha _))).symm
  refine ⟨h.sound.cons (List.mem_of_getElem? hc) hdvd ?_ hin hapart, h.idx_lt, hfit, ?_⟩
  · show size ≤ c.size
    omega
  · intro k hk hpos
    rcases List.mem_cons.mp hk with rfl | hk
    · refine ⟨idx, c, hc, hin, fun _ => ?_, fun hlt => absurd hlt (Nat.lt_irrefl _)⟩
      exact (Nat.add_assoc _ _ _).le
    · obtain ⟨j, d, hj, hkin, hlim, hfirst⟩ := h.placed k hk hpos
      refine ⟨j, d, hj, hkin, fun hidx => (hlim hidx).trans ?_, hfirst⟩
      omega

/-- A block that begins a chunk after the one at the cursor, while the cursor stays. -/
theorem dedicated {base size align : Nat}
    (hfresh : ∀ c ∈ heap, c.Apart ⟨base, size⟩) (hdvd : align ∣ base) :
    Settled (heap ++ [⟨base, size⟩]) chunkSize idx offset (⟨⟨base, size⟩, align⟩ :: live) := by
  have hlast : (heap ++ [(⟨base, size⟩ : Block)])[heap.length]? = some ⟨base, size⟩ := List.getElem?_concat_length
  have hapart : ∀ k ∈ live, Block.Apart ⟨base, size⟩ k.block := by
    intro k hk
    obtain ⟨c, hc, -, hin⟩ := h.sound.inside k hk
    exact ((hfresh c hc).mono hin (.refl _)).symm
  refine ⟨h.grow.sound.cons (List.mem_of_getElem? hlast) hdvd le_rfl (.refl _) hapart, h.grow.idx_lt, h.offset_le, ?_⟩
  refine List.forall_mem_cons.mpr ⟨fun _ => ⟨heap.length, _, hlast, .refl _, fun hidx => ?_, fun _ => rfl⟩, h.grow.placed⟩
  exact absurd h.idx_lt (hidx ▸ Nat.lt_irrefl _)

theorem advance (hheap : heap.Pairwise Block.Apart)
    (hc : heap[idx + 1]? = some c) (hcs : chunkSize ≤ c.size) {size align : Nat} (hfit : size ≤ chunkSize)
    (hdvd : align ∣ c.addr) (hfree : ∀ k ∈ live, 0 < k.block.size → k.block.addr ≠ c.addr) :
    Settled heap chunkSize (idx + 1) size (⟨⟨c.addr, size⟩, align⟩ :: live) := by
  have hin : Block.Within ⟨c.addr, size⟩ c :=
    .of_bounds le_rfl (Nat.add_le_add_left (hfit.trans hcs) _)
  have hapart := h.apart_of_ne hheap hc hin fun k hk hpos _ _ hfirst =>
    absurd (hfirst (Nat.lt_succ_self idx)) (hfree k hk hpos)
  refine ⟨h.sound.cons (List.mem_of_getElem? hc) hdvd (hfit.trans hcs) hin hapart,
    (List.getElem?_eq_some_iff.mp hc).1, hfit, ?_⟩
  refine List.forall_mem_cons.mpr ⟨fun _ => ⟨idx + 1, c, hc, hin, fun _ => le_rfl, fun hlt => absurd hlt (Nat.lt_irrefl _)⟩, ?_⟩
  intro k hk hpos
  obtain ⟨j, d, hj, hkin, -, hfirst⟩ := h.placed k hk hpos
  refine ⟨j, d, hj, hkin, fun hjdx => ?_, fun hlt => hfirst (by omega)⟩
  subst hjdx
  cases hc.symm.trans hj
  exact absurd (hfirst (Nat.lt_succ_self idx)) (hfree k hk hpos)

end

end Settled

/-! ## What a call does -/

/-- The results of a call. -/
inductive Allocated (sys : GlobalAlloc) (heap : List Block) (a : BumpArena) (r : Request) :
    Nat → BumpArena → List Block → Prop
  | empty (hsize : r.size = 0) : Allocated sys heap a r BumpArena.dangling a heap
  | bump {chunk total : Nat} (hsize : 0 < r.size) (hfit : a.bumped r ≤ a.chunkSize)
      (hchunk : a.chunks[a.currentChunkIdx]? = some chunk) :
      Allocated sys heap a r (chunk + a.alignedOffset r) { a with offset := a.bumped r, totalAllocated := total } heap
  | dedicated {base total : Nat} (hsize : 0 < r.size) (hfit : a.chunkSize < a.bumped r) (hbig : a.chunkSize < r.size)
      (hmax : r.size ≤ BumpArena.layoutMax) (hbase : sys heap r.size = some base) :
      Allocated sys heap a r base { a with chunks := a.chunks ++ [base], totalAllocated := total }
        (heap ++ [⟨base, r.size⟩])
  | next {chunk total : Nat} (hsize : 0 < r.size) (hfit : a.chunkSize < a.bumped r) (hbig : r.size ≤ a.chunkSize)
      (hchunk : a.chunks[a.currentChunkIdx + 1]? = some chunk) :
      Allocated sys heap a r chunk
        { a with currentChunkIdx := a.currentChunkIdx + 1, offset := r.size, totalAllocated := total } heap
  | fresh {base total : Nat} (hsize : 0 < r.size) (hfit : a.chunkSize < a.bumped r) (hbig : r.size ≤ a.chunkSize)
      (hlast : a.chunks.length = a.currentChunkIdx + 1) (hmax : a.chunkSize ≤ BumpArena.layoutMax)
      (hbase : sys heap a.chunkSize = some base) :
      Allocated sys heap a r base
        { a with
          chunks := a.chunks ++ [base]
          currentChunkIdx := a.currentChunkIdx + 1
          offset := r.size
          totalAllocated := total }
        (heap ++ [⟨base, a.chunkSize⟩])

variable {heap' : List Block}

theorem allocChunk_eq {size base : Nat}
    (h : BumpArena.allocChunk sys heap size = some (base, heap')) :
    size ≤ BumpArena.layoutMax ∧ sys heap size = some base ∧ heap' = heap ++ [⟨base, size⟩] := by
  rw [BumpArena.allocChunk] at h
  split at h
  next hmax =>
    obtain ⟨p, hp, hpair⟩ := Option.map_eq_some_iff.mp h
    cases hpair
    exact ⟨hmax, hp, rfl⟩
  next => cases h

variable {p : Nat}

theorem alloc_cases {a a' : BumpArena} (hidx : a.currentChunkIdx < a.chunks.length)
    (h : a.alloc sys heap r = some (p, a', heap')) : Allocated sys heap a r p a' heap' := by
  rw [BumpArena.alloc] at h
  split at h
  next hsize =>
    obtain ⟨rfl, rfl, rfl⟩ : _ ∧ _ ∧ _ := by simpa using h
    exact .empty hsize
  next hsize =>
    have hpos : 0 < r.size := Nat.pos_of_ne_zero hsize
    split at h
    next hfit =>
      rw [Option.bind_eq_bind, Option.bind_eq_some_iff] at h
      obtain ⟨chunk, hchunk, h⟩ := h
      obtain ⟨rfl, rfl, rfl⟩ : _ ∧ _ ∧ _ := by simpa using h
      exact .bump hpos hfit hchunk
    next hfit =>
      rw [Nat.not_le] at hfit
      split at h
      next hbig =>
        rw [Option.bind_eq_bind, Option.bind_eq_some_iff] at h
        obtain ⟨⟨base, heap₁⟩, hchunk, h⟩ := h
        obtain ⟨hmax, hbase, rfl⟩ := allocChunk_eq hchunk
        obtain ⟨rfl, rfl, rfl⟩ : _ ∧ _ ∧ _ := by simpa using h
        exact .dedicated hpos hfit hbig hmax hbase
      next hbig =>
        rw [Nat.not_lt] at hbig
        rw [Option.bind_eq_bind, Option.bind_eq_some_iff] at h
        obtain ⟨⟨chunks, heap₁⟩, hnext, h⟩ := h
        rw [Option.bind_eq_bind, Option.bind_eq_some_iff] at h
        obtain ⟨chunk, hchunk, h⟩ := h
        obtain ⟨rfl, rfl, rfl⟩ : _ ∧ _ ∧ _ := by simpa using h
        rw [BumpArena.nextChunk] at hnext
        split at hnext
        next hlen =>
          obtain ⟨⟨base, heap₂⟩, hnew, hpair⟩ := Option.map_eq_some_iff.mp hnext
          obtain ⟨hmax, hbase, rfl⟩ := allocChunk_eq hnew
          cases hpair
          have hlast : a.chunks.length = a.currentChunkIdx + 1 := Nat.le_antisymm hlen hidx
          rw [← hlast, List.getElem?_concat_length] at hchunk
          cases hchunk
          exact .fresh hpos hfit hbig hlast hmax hbase
        next =>
          cases hnext
          exact .next hpos hfit hbig hchunk

/-- The offset rounded up, for an alignment that may be as large as half of memory. -/
theorem alignedOffset_spec {a : BumpArena} (h : a.offset ≤ BumpArena.layoutMax) (r : Request) :
    r.align ∣ a.alignedOffset r ∧ a.offset ≤ a.alignedOffset r ∧ a.alignedOffset r ≤ 2 ^ 63 := by
  obtain ⟨k, hk, halign⟩ := r.align_eq
  have hpos : 0 < 2 ^ k := Nat.two_pow_pos k
  have hle : 2 ^ k ≤ 2 ^ 63 := Nat.pow_le_pow_right (by decide) (Nat.le_of_lt_succ hk)
  have hmax : BumpArena.layoutMax = 2 ^ 63 - 64 := rfl
  have hup : a.alignedOffset r = alignUp (2 ^ k) a.offset := by
    rw [BumpArena.alignedOffset, halign]
    exact add_and_high_eq hk.le (by omega)
  rw [hup, halign]
  refine ⟨dvd_alignUp, le_alignUp hpos, alignUp_le hpos (by omega) ?_⟩
  exact Nat.pow_dvd_pow 2 (Nat.le_of_lt_succ hk)

namespace Inv

section
variable (h : Inv s)
include h

theorem layout : s.arena.chunkSize ≤ BumpArena.layoutMax := by
  obtain ⟨hfrom, hto⟩ := h.sizes _ (List.getElem_mem h.settled.idx_lt)
  exact hfrom.trans hto

theorem offset_le : s.arena.offset ≤ BumpArena.layoutMax := h.settled.offset_le.trans h.layout

theorem length_eq : s.arena.chunks.length = s.heap.length := by
  rw [h.chunks, List.length_map]

theorem idx_lt : s.arena.currentChunkIdx < s.arena.chunks.length := h.length_eq ▸ h.settled.idx_lt

theorem chunk_at {i base : Nat} (hget : s.arena.chunks[i]? = some base) :
    ∃ c, s.heap[i]? = some c ∧ c.addr = base := by
  rw [h.chunks, List.getElem?_map] at hget
  exact Option.map_eq_some_iff.mp hget

theorem dvd_iff {a' : BumpArena}
    (halloc : Allocated sys s.heap s.arena r p a' heap') (hpos : 0 < r.size) :
    ∃ base, chunkFor sys s r = some base ∧ (r.align ∣ p ↔ r.align ∣ base) := by
  cases halloc with
  | empty hsize => exact absurd hsize hpos.ne'
  | bump _ hfit hchunk =>
    refine ⟨_, (if_pos hfit).trans hchunk, ?_⟩
    exact (Nat.dvd_add_iff_left (alignedOffset_spec h.offset_le r).1).symm
  | dedicated _ hfit hbig hmax hbase =>
    refine ⟨p, ?_, Iff.rfl⟩
    rw [chunkFor, if_neg (Nat.not_le.mpr hfit), if_pos hbig, BumpArena.allocChunk, if_pos hmax, hbase]
    rfl
  | next _ hfit hbig hchunk =>
    refine ⟨p, ?_, Iff.rfl⟩
    rw [chunkFor, if_neg (Nat.not_le.mpr hfit), if_neg (Nat.not_lt.mpr hbig), hchunk]
  | fresh _ hfit hbig hlast hmax hbase =>
    refine ⟨p, ?_, Iff.rfl⟩
    rw [chunkFor, if_neg (Nat.not_le.mpr hfit), if_neg (Nat.not_lt.mpr hbig),
      List.getElem?_eq_none hlast.le, BumpArena.allocChunk, if_pos hmax, hbase]
    rfl

theorem alloc_of_chunkFor {base : Nat} (hbase : chunkFor sys s r = some base) (hpos : 0 < r.size) :
    ∃ p a' heap', s.arena.alloc sys s.heap r = some (p, a', heap') := by
  rw [BumpArena.alloc, if_neg hpos.ne']
  rw [chunkFor] at hbase
  split at hbase
  next hfit =>
    rw [if_pos hfit, hbase]
    exact ⟨_, _, _, rfl⟩
  next hfit =>
    rw [if_neg hfit]
    split at hbase
    next hbig =>
      obtain ⟨⟨p, heap'⟩, hchunk, -⟩ := Option.map_eq_some_iff.mp hbase
      rw [if_pos hbig, hchunk]
      exact ⟨_, _, _, rfl⟩
    next hbig =>
      rw [if_neg hbig, BumpArena.nextChunk]
      split at hbase
      next chunk hchunk =>
        rw [if_neg (Nat.not_le.mpr (List.getElem?_eq_some_iff.mp hchunk).1)]
        simp only [Option.bind_eq_bind, Option.bind_some, hchunk]
        exact ⟨_, _, _, rfl⟩
      next hchunk =>
        obtain ⟨⟨p, heap'⟩, hnew, -⟩ := Option.map_eq_some_iff.mp hbase
        have hlen : s.arena.chunks.length = s.arena.currentChunkIdx + 1 :=
          Nat.le_antisymm (List.getElem?_eq_none_iff.mp hchunk) h.idx_lt
        rw [if_pos hlen.le, hnew, ← hlen]
        simp only [Option.map_some, Option.bind_eq_bind, Option.bind_some, List.getElem?_concat_length]
        exact ⟨_, _, _, rfl⟩

end

/-! ## Steps -/

theorem grow (hsys : sys.Lawful) (h : Inv s) {base size : Nat} (hbase : sys s.heap size = some base)
    (hfrom : s.arena.chunkSize ≤ size) (hto : size ≤ BumpArena.layoutMax) :
    (∀ c ∈ s.heap ++ [(⟨base, size⟩ : Block)], s.arena.chunkSize ≤ c.size ∧ c.size ≤ BumpArena.layoutMax) ∧
      (s.heap ++ [(⟨base, size⟩ : Block)]).Pairwise Block.Apart ∧
      ∀ f ∈ s.scopes, Settled (s.heap ++ [⟨base, size⟩]) s.arena.chunkSize f.1.initialChunk f.1.initialOffset f.2 := by
  refine ⟨?_, ?_, fun f hf => (h.scopes f hf).grow⟩
  · intro c hc
    rcases List.mem_append.mp hc with hc | hc
    · exact h.sizes c hc
    · obtain rfl := List.mem_singleton.mp hc
      exact ⟨hfrom, hto⟩
  · rw [List.pairwise_append]
    refine ⟨h.apart, List.pairwise_singleton _ _, fun c hc d hd => ?_⟩
    obtain rfl := List.mem_singleton.mp hd
    exact hsys.apart _ _ _ hbase c hc

theorem alloc (hsys : sys.Lawful) (h : Inv s) (hfits : Fits sys s r) {a' : BumpArena}
    (halloc : Allocated sys s.heap s.arena r p a' heap') :
    Inv { s with arena := a', heap := heap', live := ⟨⟨p, r.size⟩, r.align⟩ :: s.live } := by
  have hdvd : 0 < r.size → r.align ∣ p := by
    intro hpos
    obtain ⟨base, hbase, hiff⟩ := h.dvd_iff halloc hpos
    exact hiff.mpr (hfits.chunk hpos base hbase)
  cases halloc with
  | empty hsize =>
    refine ⟨h.chunks, h.sizes, h.apart, h.settled.cons_empty hsize ?_, h.scopes⟩
    rw [hfits.empty hsize]
    exact Nat.one_dvd _
  | bump hpos hfit hchunk =>
    obtain ⟨c, hc, rfl⟩ := h.chunk_at hchunk
    have hsum : s.arena.bumped r = s.arena.alignedOffset r + r.size := Nat.mod_eq_of_lt (hfits.sum hpos hfit)
    refine ⟨h.chunks, h.sizes, h.apart, ?_, h.scopes⟩
    have hsettled := h.settled.bump h.apart hc (h.sizes c (List.mem_of_getElem? hc)).1
      (alignedOffset_spec h.offset_le r).2.1 (hsum ▸ hfit) (hdvd hpos)
    rw [← hsum] at hsettled
    exact hsettled
  | dedicated hpos hfit hbig hmax hbase =>
    obtain ⟨hsizes, hapart, hscopes⟩ := h.grow hsys hbase hbig.le hmax
    refine ⟨?_, hsizes, hapart, h.settled.dedicated (hsys.apart _ _ _ hbase) (hdvd hpos), hscopes⟩
    simp [h.chunks]
  | next hpos hfit hbig hchunk =>
    have hfree := hfits.next hpos hfit hbig p hchunk
    obtain ⟨c, hc, rfl⟩ := h.chunk_at hchunk
    refine ⟨h.chunks, h.sizes, h.apart, ?_, h.scopes⟩
    exact h.settled.advance h.apart hc (h.sizes c (List.mem_of_getElem? hc)).1 hbig (hdvd hpos) hfree
  | fresh hpos hfit hbig hlast hmax hbase =>
    obtain ⟨hsizes, hapart, hscopes⟩ := h.grow hsys hbase le_rfl hmax
    refine ⟨?_, hsizes, hapart, ?_, hscopes⟩
    · simp [h.chunks]
    · have hnew : (s.heap ++ [(⟨p, s.arena.chunkSize⟩ : Block)])[s.arena.currentChunkIdx + 1]? =
          some ⟨p, s.arena.chunkSize⟩ := by
        rw [← hlast, h.length_eq, List.getElem?_concat_length]
      apply h.settled.grow.advance hapart hnew le_rfl hbig (hdvd hpos)
      intro k hk hsize haddr
      obtain ⟨c, hc, -, hin⟩ := h.settled.sound.inside k hk
      have hbetween := (hsys.apart _ _ _ hbase c hc).mono hin (.refl _)
      exact Block.not_apart_of_addr_eq haddr hsize (hpos.trans_le hbig) hbetween

theorem step (hsys : sys.Lawful) {op : ArenaOp} (h : Inv s) (hop : Admits sys op s)
    (hstep : ArenaRun.step sys op s = some s') : Inv s' := by
  cases op with
  | alloc r =>
    obtain ⟨⟨p, a', heap'⟩, halloc, rfl⟩ := Option.map_eq_some_iff.mp hstep
    exact h.alloc hsys hop (alloc_cases h.idx_lt halloc)
  | openScope =>
    cases hstep
    exact ⟨h.chunks, h.sizes, h.apart, h.settled, List.forall_mem_cons.mpr ⟨h.settled, h.scopes⟩⟩
  | closeScope =>
    rw [ArenaRun.step] at hstep
    split at hstep
    next => cases hstep
    next guard kept scopes hscopes =>
      cases hstep
      have hall := h.scopes
      rw [hscopes, List.forall_mem_cons] at hall
      exact ⟨h.chunks, h.sizes, h.apart, hall.1, hall.2⟩
  | reset =>
    cases hstep
    refine ⟨h.chunks, h.sizes, h.apart, .of_nil (Nat.zero_lt_of_lt h.settled.idx_lt) (Nat.zero_le _), ?_⟩
    intro f hf
    obtain ⟨⟨guard, kept⟩, hin, rfl⟩ := List.mem_map.mp hf
    exact .of_nil (h.scopes _ hin).idx_lt (h.scopes _ hin).offset_le

/-- What is sound after a call shows that it met the condition. -/
theorem admits {op : ArenaOp} (h : Inv s)
    (hsound : ∀ s', ArenaRun.step sys op s = some s' → Sound s'.heap s'.live) : Admits sys op s := by
  cases op with
  | openScope | closeScope | reset => trivial
  | alloc r =>
    have hresult : ∀ {p a' heap'}, s.arena.alloc sys s.heap r = some (p, a', heap') →
        Sound heap' (⟨⟨p, r.size⟩, r.align⟩ :: s.live) := by
      intro p a' heap' halloc
      apply hsound { s with arena := a', heap := heap', live := ⟨⟨p, r.size⟩, r.align⟩ :: s.live }
      rw [ArenaRun.step, halloc]
      rfl
    refine ⟨?_, ?_, ?_, ?_⟩
    · intro hsize
      have halloc : s.arena.alloc sys s.heap r = some (BumpArena.dangling, s.arena, s.heap) := if_pos hsize
      exact Nat.dvd_one.mp ((hresult halloc).aligned _ List.mem_cons_self)
    · intro hpos hfit
      have hbase : chunkFor sys s r = some (s.arena.chunks.get ⟨_, h.idx_lt⟩) := by
        rw [chunkFor, if_pos hfit]
        exact List.getElem?_eq_getElem h.idx_lt
      obtain ⟨p, a', heap', halloc⟩ := h.alloc_of_chunkFor hbase hpos
      have hsame : heap' = s.heap := by
        cases alloc_cases h.idx_lt halloc with
        | empty | bump => rfl
        | dedicated _ hlt | next _ hlt | fresh _ hlt => exact absurd hfit (Nat.not_le.mpr hlt)
      obtain ⟨c, hc, hsize, -⟩ := (hresult halloc).inside _ List.mem_cons_self
      have hmax := (h.sizes c (hsame ▸ hc)).2
      have haligned := (alignedOffset_spec h.offset_le r).2.2
      rw [BumpArena.layoutMax] at hmax
      dsimp only at hsize
      omega
    · intro hpos base hbase
      obtain ⟨p, a', heap', halloc⟩ := h.alloc_of_chunkFor hbase hpos
      obtain ⟨base', hbase', hiff⟩ := h.dvd_iff (alloc_cases h.idx_lt halloc) hpos
      cases hbase.symm.trans hbase'
      exact hiff.mp ((hresult halloc).aligned _ List.mem_cons_self)
    · intro hpos hfit hbig base hchunk g hg hsize haddr
      have hbase : chunkFor sys s r = some base := by
        rw [chunkFor, if_neg (Nat.not_le.mpr hfit), if_neg (Nat.not_lt.mpr hbig), hchunk]
      obtain ⟨p, a', heap', halloc⟩ := h.alloc_of_chunkFor hbase hpos
      have hp : p = base := by
        cases alloc_cases h.idx_lt halloc with
        | empty hzero => exact absurd hzero hpos.ne'
        | bump _ hle => exact absurd hfit (Nat.not_lt.mpr hle)
        | dedicated _ _ hlt => exact absurd hbig (Nat.not_le.mpr hlt)
        | next _ _ _ hnext => exact Option.some.inj (hnext.symm.trans hchunk)
        | fresh _ _ _ hlast =>
          rw [List.getElem?_eq_none hlast.le] at hchunk
          cases hchunk
      have hapart := List.rel_of_pairwise_cons (hresult halloc).apart hg
      exact Block.not_apart_of_addr_eq (hp.trans haddr.symm) hpos hsize hapart

end Inv

theorem start_inv {chunkSize : Nat} (h : start sys chunkSize = some s) : Inv s := by
  obtain ⟨⟨arena, heap⟩, hnew, rfl⟩ := Option.map_eq_some_iff.mp h
  obtain ⟨⟨first, heap₁⟩, hchunk, hpair⟩ := Option.map_eq_some_iff.mp hnew
  obtain ⟨hmax, -, rfl⟩ := allocChunk_eq hchunk
  cases hpair
  refine ⟨rfl, ?_, List.pairwise_singleton _ _, .of_nil Nat.zero_lt_one (Nat.zero_le _), List.forall_mem_nil _⟩
  intro c hc
  obtain rfl := List.mem_singleton.mp hc
  exact ⟨le_rfl, hmax⟩

/-- A global allocator that never gives a block out again. -/
def stackAlloc : GlobalAlloc := fun held _ => some (alignUp 64 (Block.top held))

theorem stackAlloc_lawful : stackAlloc.Lawful where
  aligned held size p h := by
    cases h
    exact dvd_alignUp
  apart held size p h b hb := by
    cases h
    exact .of_le ((Block.limit_le_top hb).trans (le_alignUp (by decide)))

/-- **What an arena gives out is sound in every state of a run exactly if its calls meet the condition.** -/
theorem arena_sound_iff (hsys : sys.Lawful) {chunkSize : Nat} (hstart : start sys chunkSize = some s) (ops : List ArenaOp) :
    (∀ pre t, pre <+: ops → runEvents (step sys) pre s = some t → Sound t.heap t.live) ↔
      Meets (step sys) (Admits sys) ops s :=
  (meets_iff (fun _ h => h.settled.sound) (fun _ _ _ h => h.step hsys) (fun _ _ h => h.admits) (start_inv hstart)).symm

theorem arena_sound_iff_two : (∀ pre t, pre <+: [.alloc (.bytes 40 (by decide)), .alloc (.bytes 20 (by decide))] →
      runEvents (step stackAlloc) pre ⟨⟨64, [64], 0, 0, 0⟩, [⟨64, 64⟩], [], []⟩ = some t → Sound t.heap t.live) ↔
    Meets (step stackAlloc) (Admits stackAlloc) [.alloc (.bytes 40 (by decide)), .alloc (.bytes 20 (by decide))]
      ⟨⟨64, [64], 0, 0, 0⟩, [⟨64, 64⟩], [], []⟩ :=
  @arena_sound_iff stackAlloc _ stackAlloc_lawful 64 rfl _

/-- A block of 200 bytes gets a chunk of its own behind the first; when the first chunk is full, the next block is
placed in it. -/
theorem oversized_overlaps : ¬ ∀ (sys : GlobalAlloc) (chunkSize : Nat) (s t : ArenaRun) (ops : List ArenaOp),
    sys.Lawful → start sys chunkSize = some s → runEvents (step sys) ops s = some t → Sound t.heap t.live := by
  intro h
  have hsound := h stackAlloc 64 ⟨⟨64, [64], 0, 0, 0⟩, [⟨64, 64⟩], [], []⟩
    ⟨⟨64, [64, 128], 1, 40, 280⟩, [⟨64, 64⟩, ⟨128, 200⟩],
      [⟨⟨128, 40⟩, 1⟩, ⟨⟨64, 40⟩, 1⟩, ⟨⟨128, 200⟩, 1⟩], []⟩
    [.alloc (.bytes 200 (by decide)), .alloc (.bytes 40 (by decide)), .alloc (.bytes 40 (by decide))]
    stackAlloc_lawful rfl rfl
  have hapart : Block.Apart ⟨128, 40⟩ ⟨128, 200⟩ :=
    (List.pairwise_cons.mp hsound.apart).1 ⟨⟨128, 200⟩, 1⟩ (by simp)
  apply Block.not_apart_of_addr_eq _ _ _ hapart
  all_goals decide

end ArenaRun

end Datara.Runtime
