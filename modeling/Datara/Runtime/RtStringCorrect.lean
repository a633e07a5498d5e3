import Datara.Runtime.RtString

/-!
# Strings do not change

A call makes a string in a block that no string of the program is in, or appends to the block of the string it
takes, which no other string is in (`Inv.push`). So every string stays what it was, in every run whose calls find
the slots and blocks they take new and large enough (`strings_intact`). A block that the scratch ring has no room
for is given a capacity of more bytes than it has (`strings_not_intact`).
-/

namespace Datara.Runtime

open Library
open List (append_assoc append_nil length_append length_cons length_replicate mem_singleton)
open Option (bind_eq_bind bind_some isSome_iff_exists)
open Function (update_of_ne update_self)

namespace StrMem

variable {m m' : StrMem} {p q dst : StrPtr} {b : StrBlock} {bs : List UInt8}

/-! ## Strings in memory -/

/-- A string at a place. -/
structure Holds (m : StrMem) (p : StrPtr) (bs : List UInt8) : Prop where
  nulFree : 0 ∉ bs
  null : p = .null → bs = []
  block : p ≠ .null → ∃ b rest, m.blocks p = some b ∧ b.bytes = bs ++ 0 :: rest ∧
    ∀ slot, p = .int slot → b.bytes[31]? = some (UInt8.ofNat bs.length) ∧ bs.length < 256

theorem Holds.congr (h : Holds m p bs) (heq : m'.blocks p = m.blocks p) : Holds m' p bs :=
  ⟨h.nulFree, h.null, fun hp => by rw [heq]; exact h.block hp⟩

theorem findIdx_nul {rest : List UInt8} (h : 0 ∉ bs) : (bs ++ 0 :: rest).findIdx? (· = 0) = some bs.length := by
  induction bs with
  | nil => rfl
  | cons c bs ih =>
    rw [List.mem_cons, not_or] at h
    rw [List.cons_append, List.findIdx?_cons, if_neg (by rw [decide_eq_true_eq]; exact fun hc => h.1 hc.symm),
      ih h.2]
    rfl

section
variable (h : Holds m p bs)
include h

theorem Holds.strlen (hp : p ≠ .null) : m.strlen p = some bs.length := by
  obtain ⟨b, rest, hb, hbytes, -⟩ := h.block hp
  unfold StrMem.strlen
  rw [hb]
  show b.bytes.findIdx? _ = _
  rw [hbytes, findIdx_nul h.nulFree]

theorem Holds.isEmpty : m.isEmpty p = some (bs.isEmpty) := by
  by_cases hp : p = .null
  · rw [hp, h.null hp]
    rfl
  · obtain ⟨b, rest, hb, hbytes, -⟩ := h.block hp
    rw [StrMem.isEmpty]
    · rw [hb]
      show (b.bytes[0]?).bind _ = _
      rw [hbytes]
      cases bs with
      | nil => rfl
      | cons c bs =>
        have hc : c ≠ 0 := fun hc => h.nulFree (hc ▸ List.mem_cons_self)
        show some (decide (c = 0)) = some false
        rw [decide_eq_false hc]
    · exact hp

theorem Holds.text : RtString.text p m = some bs := by
  by_cases hp : p = .null
  · rw [hp, h.null hp]
    rfl
  · obtain ⟨b, rest, hb, hbytes, -⟩ := h.block hp
    rw [RtString.text]
    · rw [hb]
      show (b.bytes.findIdx? _).bind _ = _
      rw [hbytes, findIdx_nul h.nulFree]
      show some ((bs ++ 0 :: rest).take bs.length) = some bs
      rw [List.take_left]
    · exact hp

theorem Holds.read (hp : p ≠ .null) : m.read p bs.length = some bs := by
  obtain ⟨b, rest, hb, hbytes, -⟩ := h.block hp
  unfold StrMem.read
  rw [hb]
  show (if bs.length ≤ b.bytes.length then _ else _) = _
  rw [if_pos (by rw [hbytes, length_append]; omega), hbytes, List.take_left]

theorem Holds.ne_null (hbs : bs ≠ []) : p ≠ .null :=
  fun hp => hbs (h.null hp)

end

/-! ## Copies -/

theorem setBlock_self : (m.setBlock p b).blocks p = some b := update_self ..

theorem setBlock_of_ne (h : q ≠ p) : (m.setBlock p b).blocks q = m.blocks q := update_of_ne h ..

theorem setBlock_setBlock {c : StrBlock} : (m.setBlock p b).setBlock p c = m.setBlock p c := by
  unfold setBlock
  rw [Function.update_idem]

theorem write_spec {x y z v : List UInt8} {d : Nat} (hb : m.blocks p = some b) (hbytes : b.bytes = x ++ y ++ z)
    (hd : d = x.length) (hy : y.length = v.length) :
    m.write p d v = some (m.setBlock p { b with bytes := x ++ v ++ z }) := by
  unfold write
  rw [hb]
  show (patchWords b.bytes d v).bind _ = _
  rw [hbytes, patchWords_spec hd hy]
  rfl

/-- The bytes of some strings one after the other. -/
def joined (vs : List (StrPtr × List UInt8)) : List UInt8 := (vs.map Prod.snd).flatten

/-- The strings to copy. -/
def sources (vs : List (StrPtr × List UInt8)) : List (StrPtr × Nat) := vs.map fun v => (v.1, v.2.length)

theorem total_sources (vs : List (StrPtr × List UInt8)) : total (sources vs) = (joined vs).length := by
  unfold total sources joined
  rw [List.length_flatten, List.map_map, List.map_map]
  rfl

/-- Strings that are not in a block are copied to it one after the other. -/
theorem copyAll_spec {l : List (StrPtr × List UInt8)} {x y z : List UInt8} {d : Nat}
    (hl : ∀ v ∈ l, v.1 ≠ p ∧ Holds m v.1 v.2) (hb : m.blocks p = some b) (hbytes : b.bytes = x ++ y ++ z)
    (hd : d = x.length) (hy : y.length = (joined l).length) :
    m.copyAll p d (sources l) = some (m.setBlock p { b with bytes := x ++ joined l ++ z }) := by
  induction l generalizing m b x y d with
  | nil =>
    obtain rfl := List.eq_nil_of_length_eq_zero hy
    have hsame : m.setBlock p b = m := by
      unfold setBlock
      rw [← hb, Function.update_eq_self]
    show some m = _
    rw [joined, List.map_nil, List.flatten_nil, ← hbytes, hsame]
  | cons v l ih =>
    obtain ⟨hne, hv⟩ := hl v List.mem_cons_self
    have hrest : ∀ w ∈ l, w.1 ≠ p ∧ Holds m w.1 w.2 := fun w hw => hl w (List.mem_cons_of_mem _ hw)
    have hjoined : joined (v :: l) = v.2 ++ joined l := rfl
    rw [hjoined] at hy ⊢
    show (if v.2.length = 0 then _ else _) = _
    by_cases hnil : v.2.length = 0
    · rw [if_pos hnil]
      have hv2 := List.eq_nil_of_length_eq_zero hnil
      rw [hv2, List.nil_append] at hy ⊢
      exact ih hrest hb hbytes hd hy
    · rw [if_neg hnil]
      have hread := hv.read (hv.ne_null fun h => hnil (h ▸ rfl))
      rw [length_append] at hy
      have hsplit : b.bytes = x ++ y.take v.2.length ++ (y.drop v.2.length ++ z) := by
        rw [hbytes, append_assoc x (y.take _), ← append_assoc (y.take _), List.take_append_drop,
          append_assoc]
      have hwrite := write_spec (v := v.2) hb hsplit hd (List.length_take_of_le (by omega))
      have hnext := ih (m := m.setBlock p { b with bytes := x ++ v.2 ++ (y.drop v.2.length ++ z) })
        (b := { b with bytes := x ++ v.2 ++ (y.drop v.2.length ++ z) }) (x := x ++ v.2) (y := y.drop v.2.length)
        (d := d + v.2.length)
        (fun w hw => ⟨(hrest w hw).1, (hrest w hw).2.congr (setBlock_of_ne (hrest w hw).1)⟩) setBlock_self
        (append_assoc ..).symm (by rw [length_append, hd]) (by rw [List.length_drop]; omega)
      simp only [hread, hwrite, bind_eq_bind, bind_some]
      rw [setBlock_setBlock] at hnext
      rw [← append_assoc x v.2]
      exact hnext

/-- **Strings are copied to a block**, with a terminator after them. -/
theorem fill_spec {l : List (StrPtr × List UInt8)} {x y z : List UInt8} {c : UInt8} {d : Nat}
    (hl : ∀ v ∈ l, v.1 ≠ p ∧ Holds m v.1 v.2) (hb : m.blocks p = some b)
    (hbytes : b.bytes = x ++ y ++ c :: z) (hd : d = x.length) (hy : y.length = (joined l).length) :
    m.fill p d (sources l) = some (m.setBlock p { b with bytes := x ++ joined l ++ 0 :: z }) := by
  have hcopy := copyAll_spec hl hb hbytes hd hy
  have hwrite := write_spec (m := m.setBlock p { b with bytes := x ++ joined l ++ c :: z }) (p := p)
    (d := d + total (sources l)) (x := x ++ joined l) (y := [c]) (z := z) (v := [0]) setBlock_self
    (List.append_cons ..) (by rw [total_sources, length_append, hd]) rfl
  unfold fill
  simp only [hcopy, bind_eq_bind, bind_some]
  rw [hwrite, setBlock_setBlock, ← List.append_cons]

/-! ## The memory of a thread -/

/-- Places that have been given out. -/
def Old (m : StrMem) : StrPtr → Prop
  | .null | .lit => True
  | .ext n => n < m.exts
  | .sso slot => slot < m.ssoIdx
  | .int slot => slot < m.intIdx
  | .ring o => o < m.offset
  | .heap n => n < m.heaps

/-- **The invariant of the memory.** A header's capacity is of bytes that its block has; the blocks of the scratch
ring lie one after the other, and end where the next one begins or a block before it. -/
structure Ok (m : StrMem) : Prop where
  cap : ∀ p b, m.blocks p = some b → b.live = true → b.cap ≤ b.bytes.length ∧ b.cap < 2 ^ 32
  ringBlock : ∀ o b, m.blocks (.ring o) = some b → b.bytes.length % 16 = 0 ∧
    (b.live = true → b.cap = b.bytes.length) ∧
    (o + 16 + b.bytes.length = m.offset ∨ o + 16 + b.bytes.length + 32 ≤ m.offset)
  sso : ∀ slot < 512, ∃ b, m.blocks (.sso slot) = some b ∧ b.bytes.length = 24
  int : ∀ slot < 256, ∃ b, m.blocks (.int slot) = some b ∧ b.bytes.length = 32
  lit : Holds m .lit []
  ring : ∀ w, m.ring = some w → w.length = ringSize
  recent : m.recent = .null ∨ ∃ n < m.heaps, m.recent = .heap n

theorem growable_of (hb : m'.blocks q = m.blocks q) (hr : m'.recent = m.recent ∨ q ≠ m'.recent)
    (hg : m'.growable q = true) : m.growable q = true := by
  have hother : (decide (q = m'.recent) && (m'.blocks q).any StrBlock.live) = true →
      (decide (q = m.recent) && (m.blocks q).any StrBlock.live) = true := by
    intro hg
    obtain ⟨hq, hlive⟩ := Bool.and_eq_true_iff.mp hg
    obtain hr | hr := hr
    · rw [← hr, hq, ← hb, hlive]
      rfl
    · exact absurd (of_decide_eq_true hq) hr
  cases q with
  | null => cases hg
  | ring o =>
    have hg' : (m'.blocks (.ring o)).any StrBlock.live = true := hg
    rw [hb] at hg'
    exact hg'
  | lit => exact hother hg
  | ext n => exact hother hg
  | sso slot => exact hother hg
  | int slot => exact hother hg
  | heap n => exact hother hg

/-- A result, where some places are kept. -/
structure Gives (K : StrPtr → Prop) (m m' : StrMem) (p : StrPtr) (bs : List UInt8) : Prop where
  ok : Ok m'
  holds : Holds m' p bs
  len : m'.growable p = true → m'.cachedLen p = bs.length
  old : Old m' p
  mono : ∀ q, Old m q → Old m' q
  frame : ∀ q, K q → m'.blocks q = m.blocks q ∧ (m'.growable q = true → m.growable q = true ∧ q ≠ p)

theorem Ok.setBlock (h : Ok m) (hb : m.blocks p = some b) (b' : StrBlock)
    (hlen : b'.bytes.length = b.bytes.length) (hcap : b'.live = true → b'.cap ≤ b'.bytes.length ∧ b'.cap < 2 ^ 32)
    (hring : b'.live = true → ∀ o, p = .ring o → b'.cap = b'.bytes.length) (hp : p ≠ .lit) :
    Ok (m.setBlock p b') where
  cap q c hc hlive := by
    by_cases hq : q = p
    · rw [hq, setBlock_self] at hc
      cases hc
      exact hcap hlive
    · rw [setBlock_of_ne hq] at hc
      exact h.cap q c hc hlive
  ringBlock o c hc := by
    by_cases hq : StrPtr.ring o = p
    · rw [hq, setBlock_self] at hc
      cases hc
      have hold := h.ringBlock o b (by rw [hq]; exact hb)
      rw [hlen]
      exact ⟨hold.1, fun hlive => (hring hlive o hq.symm).trans hlen, hold.2.2⟩
    · rw [setBlock_of_ne hq] at hc
      exact h.ringBlock o c hc
  sso slot hslot := by
    obtain ⟨c, hc, hlen'⟩ := h.sso slot hslot
    by_cases hq : StrPtr.sso slot = p
    · rw [hq, hb] at hc
      cases hc
      exact ⟨b', by rw [hq, setBlock_self], hlen.trans hlen'⟩
    · exact ⟨c, by rw [setBlock_of_ne hq, hc], hlen'⟩
  int slot hslot := by
    obtain ⟨c, hc, hlen'⟩ := h.int slot hslot
    by_cases hq : StrPtr.int slot = p
    · rw [hq, hb] at hc
      cases hc
      exact ⟨b', by rw [hq, setBlock_self], hlen.trans hlen'⟩
    · exact ⟨c, by rw [setBlock_of_ne hq, hc], hlen'⟩
  lit := h.lit.congr (setBlock_of_ne fun hl => hp hl.symm)
  ring := h.ring
  recent := h.recent

theorem Ok.alloc {mem : StrMem} (h : Ok m) (hsame : mem.blocks = Function.update m.blocks p (some b))
    (hlive : b.live = false) (hnew : (∃ n, p = .heap n) ∨ ∃ o, p = .ring o) (hoff : m.offset ≤ mem.offset)
    (hgrow : mem.offset = m.offset ∨ m.offset + 32 ≤ mem.offset)
    (hring : ∀ o, p = .ring o → b.bytes.length % 16 = 0 ∧ o + 16 + b.bytes.length = mem.offset)
    (hw : ∀ w, mem.ring = some w → w.length = ringSize) (hrecent : mem.recent = m.recent)
    (hheaps : m.heaps ≤ mem.heaps) : Ok mem := by
  have hself : mem.blocks p = some b := by rw [hsame, update_self]
  have hother : ∀ q, q ≠ p → mem.blocks q = m.blocks q := fun q hq => by rw [hsame, update_of_ne hq]
  have hstatic : ∀ q, (∀ n, q ≠ .heap n) → (∀ o, q ≠ .ring o) → mem.blocks q = m.blocks q := by
    intro q hheap hr
    refine hother q fun hq => ?_
    obtain ⟨n, hn⟩ | ⟨o, ho⟩ := hnew
    · exact hheap n (hq.trans hn)
    · exact hr o (hq.trans ho)
  refine ⟨fun q c hc hl => ?_, fun o c hc => ?_, fun slot hs => ?_, fun slot hs => ?_, ?_, hw, ?_⟩
  · by_cases hq : q = p
    · rw [hq, hself] at hc
      rw [← Option.some.inj hc, hlive] at hl
      cases hl
    · rw [hother q hq] at hc
      exact h.cap q c hc hl
  · by_cases hq : StrPtr.ring o = p
    · rw [hq, hself] at hc
      cases hc
      obtain ⟨hmod, hend⟩ := hring o hq.symm
      refine ⟨hmod, fun hl => ?_, .inl hend⟩
      rw [hlive] at hl
      cases hl
    · rw [hother _ hq] at hc
      obtain ⟨hmod, hcap, hend⟩ := h.ringBlock o c hc
      refine ⟨hmod, hcap, ?_⟩
      omega
  · rw [hstatic (.sso slot) (fun _ => nofun) (fun _ => nofun)]
    exact h.sso slot hs
  · rw [hstatic (.int slot) (fun _ => nofun) (fun _ => nofun)]
    exact h.int slot hs
  · exact h.lit.congr (hstatic .lit (fun _ => nofun) (fun _ => nofun))
  · rw [hrecent]
    obtain hnull | ⟨n, hn, heq⟩ := h.recent
    · exact .inl hnull
    · exact .inr ⟨n, by omega, heq⟩

/-! ## Allocation -/

section
variable {malloc : Nat → Option (List UInt8)} (hm : ∀ n, ∃ w, malloc n = some w ∧ w.length = n) {mem : StrMem}
  {len : Nat}

/-- A new block of the scratch ring or the heap. -/
structure Fresh (m mem : StrMem) (p : StrPtr) (b : StrBlock) (len : Nat) : Prop where
  ok : Ok mem
  block : mem.blocks p = some b
  dead : b.live = false
  size : len + 1 ≤ b.bytes.length
  exact : ∀ o, p = .ring o → b.bytes.length = roundUp (len + 1)
  kind : (∃ n, p = .heap n) ∨ ∃ o, p = .ring o
  new : ¬Old m p
  old : Old mem p
  mono : ∀ q, Old m q → Old mem q
  other : ∀ q, q ≠ p → mem.blocks q = m.blocks q
  recent : mem.recent = m.recent

/-- The capacity that a header is given is of bytes that the block has. -/
def Roomy (b : StrBlock) (len : Nat) : Prop :=
  roundUp (len + 1) ≤ b.bytes.length ∧ roundUp (len + 1) < 2 ^ 32

theorem heapAlloc_fresh {r : Option (List UInt8)} (h : Ok m) (hr : ∀ w, r = some w → w.length = ringSize)
    {w : List UInt8} (hw : w.length = len + 1) :
    Fresh m { { m with ring := r }.setBlock (.heap m.heaps) { bytes := w } with heaps := m.heaps + 1 }
      (.heap m.heaps) { bytes := w } len where
  ok := h.alloc rfl rfl (.inl ⟨_, rfl⟩) (Nat.le_refl _) (.inl rfl) (fun o ho => by cases ho) hr rfl (Nat.le_succ _)
  block := setBlock_self
  dead := rfl
  size := Nat.le_of_eq hw.symm
  exact o ho := by cases ho
  kind := .inl ⟨_, rfl⟩
  new hold := Nat.lt_irrefl _ hold
  old := Nat.lt_succ_self _
  mono q hq := by
    cases q with
    | heap n => exact Nat.lt_succ_of_lt hq
    | null => exact hq
    | lit => exact hq
    | ext n => exact hq
    | sso slot => exact hq
    | int slot => exact hq
    | ring o => exact hq
  other q hq := setBlock_of_ne hq
  recent := rfl

include hm in
theorem scratchAlloc_eq (h : Ok m) (len : Nat) : ∃ ring, ring.length = ringSize ∧
    scratchAlloc malloc len m =
      if ringSize / 2 < roundUp (len + 1) + hdrBytes then heapAllocGrowable malloc len { m with ring := some ring }
      else if ringSize ≤ m.offset + (roundUp (len + 1) + hdrBytes) then
        heapAllocGrowable malloc len { m with ring := some ring }
      else (some (.ring m.offset), { { m with ring := some ring }.setBlock (.ring m.offset)
          { bytes := (ring.drop (m.offset + hdrBytes)).take (roundUp (len + 1) + hdrBytes - hdrBytes) } with
        offset := m.offset + (roundUp (len + 1) + hdrBytes) }) := by
  cases hr : m.ring with
  | some w =>
    have heta : { m with ring := some w } = m := by
      rw [← hr]
    refine ⟨w, h.ring w hr, ?_⟩
    rw [heta]
    unfold scratchAlloc
    simp [hr]
  | none =>
    obtain ⟨w, hw, hl⟩ := hm ringSize
    refine ⟨w, hl, ?_⟩
    unfold scratchAlloc
    simp [hr, hw]

include hm in
/-- **Every allocation gives a new block** of the length asked for. -/
theorem scratchAlloc_fresh (h : Ok m) (len : Nat) :
    ∃ p mem b, scratchAlloc malloc len m = (some p, mem) ∧ Fresh m mem p b len ∧
      (RtString.Room len m → Roomy b len) := by
  obtain ⟨ring, hlen, hring⟩ := scratchAlloc_eq hm h len
  have hr : ∀ w, some ring = some w → w.length = ringSize := fun w hw => Option.some.inj hw ▸ hlen
  have hheap : ∀ hroom : RtString.Room len m → (len + 1) % 16 = 0 ∧ len + 1 < 2 ^ 32,
      ∃ p mem b, heapAllocGrowable malloc len { m with ring := some ring } = (some p, mem) ∧ Fresh m mem p b len ∧
        (RtString.Room len m → Roomy b len) := by
    intro hroom
    obtain ⟨w, hw, hl⟩ := hm (len + 1 + hdrBytes * 2)
    have hdrop : (w.drop (hdrBytes * 2)).length = len + 1 := by
      rw [List.length_drop, hl]
      omega
    refine ⟨_, _, _, ?_, heapAlloc_fresh h hr hdrop, fun hroom' => ?_⟩
    · unfold heapAllocGrowable
      rw [hw]
    · obtain ⟨hmod, hlt⟩ := hroom hroom'
      have hround : roundUp (len + 1) = len + 1 := by
        unfold roundUp
        omega
      rw [Roomy, hround]
      exact ⟨Nat.le_of_eq hdrop.symm, hlt⟩
  rw [hring]
  by_cases hhalf : ringSize / 2 < roundUp (len + 1) + hdrBytes
  · rw [if_pos hhalf]
    refine hheap fun hroom => ?_
    obtain hroom | hroom := hroom
    · omega
    · exact hroom
  rw [if_neg hhalf]
  by_cases hfull : ringSize ≤ m.offset + (roundUp (len + 1) + hdrBytes)
  · rw [if_pos hfull]
    refine hheap fun hroom => ?_
    obtain hroom | hroom := hroom
    · omega
    · exact hroom
  rw [if_neg hfull]
  have hround : len + 1 ≤ roundUp (len + 1) ∧ roundUp (len + 1) % 16 = 0 := by
    unfold roundUp
    omega
  have hbytes : ((ring.drop (m.offset + hdrBytes)).take (roundUp (len + 1) + hdrBytes - hdrBytes)).length =
      roundUp (len + 1) := by
    rw [List.length_take, List.length_drop, hlen]
    omega
  have hhdr : hdrBytes = 16 := rfl
  have hsize : ringSize = 1048576 := rfl
  refine ⟨_, _, { bytes := (ring.drop (m.offset + hdrBytes)).take (roundUp (len + 1) + hdrBytes - hdrBytes) }, rfl,
    ⟨h.alloc (p := .ring m.offset) rfl rfl (.inr ⟨_, rfl⟩) (Nat.le_add_right _ _) (.inr ?_) ?_ hr rfl
      (Nat.le_refl _), setBlock_self, rfl, ?_, ?_, .inr ⟨_, rfl⟩, ?_, ?_, ?_, fun q hq => setBlock_of_ne hq, rfl⟩, ?_⟩
  · show m.offset + 32 ≤ m.offset + (roundUp (len + 1) + hdrBytes)
    omega
  · intro o ho
    cases ho
    rw [hbytes]
    show _ ∧ m.offset + 16 + _ = m.offset + (roundUp (len + 1) + hdrBytes)
    omega
  · rw [hbytes]
    exact hround.1
  · exact fun _ _ => hbytes
  · exact Nat.lt_irrefl _
  · show m.offset < m.offset + (roundUp (len + 1) + hdrBytes)
    omega
  · intro q hq
    cases q with
    | ring o => exact Nat.lt_of_lt_of_le hq (Nat.le_add_right _ _)
    | null => exact hq
    | lit => exact hq
    | ext n => exact hq
    | sso slot => exact hq
    | int slot => exact hq
    | heap n => exact hq
  · intro _
    rw [Roomy, hbytes]
    omega

section
variable (f : Fresh m mem p b len)
include f

theorem Fresh.ne_null : p ≠ .null := by
  obtain ⟨n, hn⟩ | ⟨o, ho⟩ := f.kind
  · exact fun hp => by cases hn.symm.trans hp
  · exact fun hp => by cases ho.symm.trans hp

theorem Fresh.ne_lit : p ≠ .lit := by
  obtain ⟨n, hn⟩ | ⟨o, ho⟩ := f.kind
  · exact fun hp => by cases hn.symm.trans hp
  · exact fun hp => by cases ho.symm.trans hp

theorem Fresh.ne_int (slot : Nat) : p ≠ .int slot := by
  obtain ⟨n, hn⟩ | ⟨o, ho⟩ := f.kind
  · exact fun hp => by cases hn.symm.trans hp
  · exact fun hp => by cases ho.symm.trans hp

theorem Fresh.ne (hq : Old m q) : q ≠ p := fun h => f.new (h ▸ hq)

end

end

/-- Strings given out, to copy. -/
def Given (m : StrMem) (vs : List (StrPtr × List UInt8)) : Prop := ∀ v ∈ vs, Old m v.1 ∧ Holds m v.1 v.2

theorem Given.nulFree {vs : List (StrPtr × List UInt8)} (h : Given m vs) : 0 ∉ joined vs := by
  intro hmem
  obtain ⟨l, hl, hmem⟩ := List.mem_flatten.mp hmem
  obtain ⟨v, hv, rfl⟩ := List.mem_map.mp hl
  exact (h v hv).2.nulFree hmem

section
variable {malloc : Nat → Option (List UInt8)} {mem : StrMem} {len : Nat} {vs : List (StrPtr × List UInt8)}

theorem Fresh.fill (f : Fresh m mem p b len) (h : Given m vs) (hlen : (joined vs).length ≤ len) :
    ∃ z, mem.fill p 0 (sources vs) = some (mem.setBlock p { b with bytes := joined vs ++ 0 :: z }) ∧
      (joined vs ++ 0 :: z).length = b.bytes.length := by
  have hsize := f.size
  obtain ⟨y, z, hy, hylen⟩ := exists_part (w := b.bytes) (n := (joined vs).length) (by omega)
  have hz := congrArg List.length hy
  rw [length_append, hylen] at hz
  obtain ⟨c, z, rfl⟩ := exists_word (w := z) (by omega)
  refine ⟨z, ?_, ?_⟩
  · refine fill_spec (x := []) (fun v hv => ?_) f.block hy rfl hylen
    exact ⟨f.ne (h v hv).1, (h v hv).2.congr (f.other _ (f.ne (h v hv).1))⟩
  · rw [length_append, hz]
    rfl

theorem Fresh.gives {z : List UInt8} {r : StrPtr} (f : Fresh m mem p b len) (b' : StrBlock)
    (h : 0 ∉ bs) (hbytes : b'.bytes = bs ++ 0 :: z) (hsize : (bs ++ 0 :: z).length = b.bytes.length)
    (hr : r = mem.recent ∨ r = p ∧ ∃ n, p = .heap n)
    (hlive : b'.live = true → b'.cap = roundUp (len + 1) ∧ b'.len = bs.length ∧
      roundUp (len + 1) ≤ b.bytes.length ∧ roundUp (len + 1) < 2 ^ 32) :
    Gives (Old m) m ({ mem with recent := r }.setBlock p b') p bs := by
  have hself : ({ mem with recent := r }.setBlock p b').blocks p = some b' := setBlock_self
  have hother : ∀ q, q ≠ p → ({ mem with recent := r }.setBlock p b').blocks q = m.blocks q :=
    fun q hq => (setBlock_of_ne hq).trans (f.other q hq)
  have hok : Ok { mem with recent := r } := { f.ok with
    lit := f.ok.lit.congr rfl
    recent := by
      obtain rfl | ⟨rfl, n, rfl⟩ := hr
      · exact f.ok.recent
      · exact .inr ⟨n, f.old, rfl⟩ }
  refine ⟨hok.setBlock f.block b' (by rw [hbytes, hsize]) (fun hl => ?_) (fun hl o ho => ?_) f.ne_lit,
    ⟨h, fun hp => absurd hp f.ne_null, fun _ => ⟨b', z, hself, hbytes, fun slot hs => absurd hs (f.ne_int slot)⟩⟩,
    fun hg => ?_, ?_, ?_, fun q hq => ⟨hother q (f.ne hq), fun hg => ⟨?_, f.ne hq⟩⟩⟩
  · obtain ⟨hcap, -, hle, hlt⟩ := hlive hl
    rw [hcap, hbytes, hsize]
    exact ⟨hle, hlt⟩
  · rw [(hlive hl).1, hbytes, hsize, f.exact o ho]
  · have hl : b'.live = true := by
      obtain ⟨n, rfl⟩ | ⟨o, rfl⟩ := f.kind
      · have hg' : (decide _ && (Option.any _ _)) = true := hg
        rw [hself] at hg'
        exact (Bool.and_eq_true_iff.mp hg').2
      · have hg' : (Option.any _ _) = true := hg
        rw [hself] at hg'
        exact hg'
    rw [cachedLen, hself]
    exact (hlive hl).2.1
  · obtain ⟨n, rfl⟩ | ⟨o, rfl⟩ := f.kind
    · exact f.old
    · exact f.old
  · intro q hq
    have hmono := f.mono q hq
    cases q <;> exact hmono
  · refine growable_of (hother q (f.ne hq)) ?_ hg
    obtain rfl | ⟨rfl, -⟩ := hr
    · exact .inl f.recent
    · exact .inr (f.ne hq)

theorem markLive_eq {cap l : Nat} (hb : m.blocks p = some b) (hcap : 16 ≤ cap)
    (hkind : (∃ n, p = .heap n) ∨ ∃ o, p = .ring o) :
    ∃ r, (r = m.recent ∨ r = p ∧ ∃ n, p = .heap n) ∧ m.markLive p cap l =
      { m with recent := r }.setBlock p { b with live := true, cap := cap % 2 ^ 32, len := l % 2 ^ 32 } := by
  have hsmall : ¬cap < hdrBytes := Nat.not_lt.mpr hcap
  obtain ⟨n, rfl⟩ | ⟨o, rfl⟩ := hkind
  · refine ⟨.heap n, .inr ⟨rfl, n, rfl⟩, ?_⟩
    unfold markLive
    simp [hsmall, hb]
  · refine ⟨m.recent, .inl rfl, ?_⟩
    unfold markLive
    simp [hsmall, hb]

/-- **A new block that may grow** holds the strings copied to it. -/
theorem build_gives (hm : ∀ n, ∃ w, malloc n = some w ∧ w.length = n) (h : Ok m)
    (vs : List (StrPtr × List UInt8)) (hvs : Given m vs)
    (hlen : (joined vs).length ≤ len) (hroom : RtString.Room len m) (fallback : StrPtr) :
    ∃ p m', build malloc len (sources vs) fallback m = some (p, m') ∧ Gives (Old m) m m' p (joined vs) ∧
      ¬Old m p := by
  obtain ⟨p, mem, b, halloc, f, hroomy⟩ := scratchAlloc_fresh hm h len
  obtain ⟨z, hfill, hsize⟩ := f.fill hvs hlen
  obtain ⟨hle, hlt⟩ := hroomy hroom
  have hround : len + 1 ≤ roundUp (len + 1) ∧ 16 ≤ roundUp (len + 1) := by
    unfold roundUp
    omega
  obtain ⟨r, hr, hmark⟩ := markLive_eq (m := mem.setBlock p { b with bytes := joined vs ++ 0 :: z })
    (l := total (sources vs)) setBlock_self hround.2 f.kind
  have hgives := f.gives ⟨joined vs ++ 0 :: z, true, roundUp (len + 1) % 2 ^ 32, total (sources vs) % 2 ^ 32⟩
    hvs.nulFree rfl hsize hr (fun _ => by
      rw [total_sources, Nat.mod_eq_of_lt hlt, Nat.mod_eq_of_lt (by omega)]
      exact ⟨rfl, rfl, hle, hlt⟩)
  refine ⟨p, _, ?_, hgives, f.new⟩
  unfold build
  rw [halloc]
  show (mem.fill p 0 (sources vs)).bind _ = _
  rw [hfill]
  show some (p, markLive _ _ _ _) = _
  rw [hmark]
  have hset := setBlock_setBlock (m := { mem with recent := r }) (p := p) (b := { b with bytes := joined vs ++ 0 :: z })
    (c := ⟨joined vs ++ 0 :: z, true, roundUp (len + 1) % 2 ^ 32, total (sources vs) % 2 ^ 32⟩)
  exact congrArg (fun m => some (p, m)) hset

theorem build_overstates (hm : ∀ n, ∃ w, malloc n = some w ∧ w.length = n) (h : Ok m) (hvs : Given m vs)
    (hlen : (joined vs).length ≤ len) (hhalf : ringSize / 2 < roundUp (len + 1) + hdrBytes)
    (hmod : (len + 1) % 16 ≠ 0) (hlt : roundUp (len + 1) < 2 ^ 32) (fallback : StrPtr) :
    ∃ p m' b, build malloc len (sources vs) fallback m = some (p, m') ∧ m'.blocks p = some b ∧ b.live = true ∧
      b.bytes.length < b.cap := by
  obtain ⟨ring, hring, halloc⟩ := scratchAlloc_eq hm h len
  obtain ⟨w, hw, hwlen⟩ := hm (len + 1 + hdrBytes * 2)
  have hdrop : (w.drop (hdrBytes * 2)).length = len + 1 := by
    rw [List.length_drop, hwlen]
    omega
  have f := heapAlloc_fresh (r := some ring) h (fun w hw => Option.some.inj hw ▸ hring) hdrop
  generalize hmem : ({ { m with ring := some ring }.setBlock (.heap m.heaps) { bytes := w.drop (hdrBytes * 2) } with
    heaps := m.heaps + 1 } : StrMem) = mem at f
  obtain ⟨z, hfill, hsize⟩ := f.fill hvs hlen
  have hround : len + 1 < roundUp (len + 1) ∧ 16 ≤ roundUp (len + 1) := by
    unfold roundUp
    omega
  obtain ⟨r, -, hmark⟩ := markLive_eq (l := total (sources vs)) (b := { bytes := joined vs ++ 0 :: z })
    (m := mem.setBlock (.heap m.heaps) { bytes := joined vs ++ 0 :: z }) setBlock_self hround.2 f.kind
  refine ⟨.heap m.heaps, { mem.setBlock (.heap m.heaps) { bytes := joined vs ++ 0 :: z } with recent := r }.setBlock
      (.heap m.heaps) ⟨joined vs ++ 0 :: z, true, roundUp (len + 1) % 2 ^ 32, total (sources vs) % 2 ^ 32⟩,
    _, ?_, setBlock_self, rfl, ?_⟩
  · unfold build
    rw [halloc, if_pos hhalf]
    simp only [heapAllocGrowable, hw, hmem, bind_eq_bind]
    rw [hfill]
    show some (_, markLive _ _ _ _) = _
    rw [hmark]
  · rw [Nat.mod_eq_of_lt hlt, hsize, hdrop]
    exact hround.1

/-- **A slot that no string is in** holds the strings copied to it. -/
theorem shortString_gives (h : Ok m) (hvs : Given m vs) (hlen : (joined vs).length ≤ ssoMaxLen)
    (hshort : RtString.Short m) :
    ∃ p m', shortString (sources vs) m = some (p, m') ∧ Gives (Old m) m m' p (joined vs) := by
  have hidx : m.ssoIdx < 512 := hshort
  have hslot : m.ssoIdx % ssoRingCount = m.ssoIdx := Nat.mod_eq_of_lt hidx
  have hnext : (m.ssoIdx + 1) % 2 ^ 32 = m.ssoIdx + 1 := Nat.mod_eq_of_lt (by omega)
  have hmax : ssoMaxLen = 22 := rfl
  obtain ⟨b, hb, hblen⟩ := h.sso m.ssoIdx hidx
  have hne : ∀ q, Old m q → q ≠ .sso m.ssoIdx := by
    intro q hq heq
    subst heq
    exact Nat.lt_irrefl _ hq
  obtain ⟨y, z, hy, hylen⟩ := exists_part (w := b.bytes) (n := (joined vs).length) (by omega)
  have hz := congrArg List.length hy
  rw [length_append, hylen] at hz
  obtain ⟨c, z, rfl⟩ := exists_word (w := z) (by omega)
  have hsize : (joined vs ++ 0 :: z).length = b.bytes.length := by
    rw [length_append, hz]
    rfl
  have hok : Ok { m with ssoIdx := m.ssoIdx + 1 } := { h with lit := h.lit.congr rfl }
  have hfill := fill_spec (m := { m with ssoIdx := m.ssoIdx + 1 }) (p := .sso m.ssoIdx) (x := []) (d := 0)
    (fun v hv => ⟨hne _ (hvs v hv).1, (hvs v hv).2.congr rfl⟩) hb hy rfl hylen
  refine ⟨.sso m.ssoIdx, _, ?_, hok.setBlock hb { b with bytes := joined vs ++ 0 :: z } hsize
    (fun hl => ?_) (fun _ o ho => by cases ho) (fun hp => by cases hp), ⟨hvs.nulFree, (fun hp => by cases hp),
    fun _ => ⟨_, z, setBlock_self, rfl, (fun slot hs => by cases hs)⟩⟩, fun hg => ?_, Nat.lt_succ_self _, fun q hq => ?_,
    fun q hq => ⟨setBlock_of_ne (hne q hq), fun hg => ⟨growable_of (setBlock_of_ne (hne q hq)) (.inl rfl) hg, hne q hq⟩⟩⟩
  · unfold shortString
    simp only [hslot, hnext, hfill, bind_eq_bind, bind_some]
    rfl
  · rw [hsize]
    exact h.cap _ b hb hl
  · have hrecent : StrPtr.sso m.ssoIdx = m.recent := of_decide_eq_true (Bool.and_eq_true_iff.mp hg).1
    obtain hnull | ⟨n, -, hn⟩ := h.recent
    · cases hrecent.trans hnull
    · cases hrecent.trans hn
  · cases q with
    | sso slot => exact Nat.lt_succ_of_lt hq
    | null => exact hq
    | lit => exact hq
    | ext n => exact hq
    | int slot => exact hq
    | ring o => exact hq
    | heap n => exact hq

/-! ## Concatenation -/

/-- An argument of a call. -/
structure Arg (m : StrMem) (p : StrPtr) (bs : List UInt8) : Prop where
  old : Old m p
  holds : Holds m p bs
  len : m.growable p = true → m.cachedLen p = bs.length

theorem Arg.length (h : Arg m p bs) (hp : p ≠ .null) : RtString.length p m = bs.length := by
  unfold RtString.length
  rw [h.holds.strlen hp]
  rfl

theorem Arg.empty (h : Arg m p bs) : RtString.empty p m ↔ bs = [] := by
  unfold RtString.empty
  rw [h.holds.isEmpty, Option.some.injEq, List.isEmpty_iff]

/-- `""` never grows. -/
theorem Ok.growable_lit (h : Ok m) : m.growable .lit = false := by
  obtain hr | ⟨n, -, hr⟩ := h.recent
  · show (decide (StrPtr.lit = m.recent) && _) = false
    rw [hr]
    rfl
  · show (decide (StrPtr.lit = m.recent) && _) = false
    rw [hr]
    rfl

theorem Ok.arg_lit (h : Ok m) : Arg m .lit [] :=
  ⟨trivial, h.lit, fun hg => by rw [h.growable_lit] at hg; cases hg⟩

/-- A call may return an argument that does not grow. -/
theorem Arg.gives (h : Arg m p bs) (hok : Ok m) (hg : m.growable p = false) : Gives (Old m) m m p bs where
  ok := hok
  holds := h.holds
  len := h.len
  old := h.old
  mono _ hq := hq
  frame q _ := ⟨rfl, fun hq => ⟨hq, fun heq => by rw [heq, hg] at hq; cases hq⟩⟩

variable {a b : StrPtr} {as bs : List UInt8} (hm : ∀ n, ∃ w, malloc n = some w ∧ w.length = n)
include hm

theorem copyGrowable_gives (hok : Ok m) (h : Arg m p bs) (hg : m.growable p = true)
    (hroom : RtString.Room bs.length m) :
    ∃ q m', copyGrowable malloc p m = some (q, m') ∧ Gives (Old m) m m' q bs := by
  have hjoined : joined [(p, bs)] = bs := append_nil bs
  obtain ⟨q, m', hbuild, hgives, -⟩ := build_gives hm hok [(p, bs)]
    (fun v hv => by rw [mem_singleton.mp hv]; exact ⟨h.old, h.holds⟩) (Nat.le_of_eq (by rw [hjoined])) hroom .lit
  rw [hjoined] at hgives
  refine ⟨q, m', ?_, hgives⟩
  unfold copyGrowable
  simp only [hg, if_true, h.len hg, bind_eq_bind, bind_some]
  exact hbuild

theorem identity_gives (hok : Ok m) (h : Arg m p bs)
    (hroom : m.growable p = true → RtString.Room (RtString.length p m) m) :
    ∃ q m', (if m.growable p = true then copyGrowable malloc p m
      else some (if p = .null then .lit else p, m)) = some (q, m') ∧ Gives (Old m) m m' q bs := by
  by_cases hg : m.growable p = true
  · have hp : p ≠ .null := by
      rintro rfl
      cases hg
    have hroom := hroom hg
    rw [h.length hp] at hroom
    rw [if_pos hg]
    exact copyGrowable_gives hm hok h hg hroom
  · rw [if_neg hg]
    by_cases hp : p = .null
    · rw [if_pos hp, h.holds.null hp]
      exact ⟨_, _, rfl, hok.arg_lit.gives hok hok.growable_lit⟩
    · rw [if_neg hp]
      exact ⟨_, _, rfl, h.gives hok (Bool.not_eq_true _ ▸ hg)⟩

omit hm in
/-- Two strings that are not empty, and too long for a slot, take a new block. -/
theorem concat_build (malloc : Nat → Option (List UInt8)) (ha : Arg m a as) (hb : Arg m b bs) (hanil : as ≠ []) (hbnil : bs ≠ [])
    (hlong : ¬as.length + bs.length ≤ ssoMaxLen) :
    concat malloc a b m = build malloc (as.length + bs.length) (sources [(a, as), (b, bs)]) .lit m := by
  unfold concat
  simp only [ha.holds.isEmpty, hb.holds.isEmpty, bind_eq_bind, bind_some, List.isEmpty_iff, hanil, hbnil,
    if_false, ha.holds.strlen (ha.holds.ne_null hanil), hb.holds.strlen (hb.holds.ne_null hbnil), hlong]
  rfl

omit hm in
theorem given_pair (ha : Arg m a as) (hb : Arg m b bs) : Given m [(a, as), (b, bs)] := by
  intro v hv
  obtain rfl | hv := List.mem_cons.mp hv
  · exact ⟨ha.old, ha.holds⟩
  · rw [mem_singleton.mp hv]
    exact ⟨hb.old, hb.holds⟩

omit hm in
theorem joined_pair : joined [(a, as), (b, bs)] = as ++ bs := by
  show as ++ (bs ++ []) = as ++ bs
  rw [append_nil]

/-- **A concatenation** gives the first string and the second. -/
theorem concat_gives (hok : Ok m) (ha : Arg m a as) (hb : Arg m b bs) (hroom : RtString.ConcatRoom a b m) :
    ∃ p m', concat malloc a b m = some (p, m') ∧ Gives (Old m) m m' p (as ++ bs) := by
  obtain ⟨hfirst, hsecond, hboth⟩ := hroom
  unfold concat
  simp only [ha.holds.isEmpty, hb.holds.isEmpty, bind_eq_bind, bind_some, List.isEmpty_iff]
  by_cases hanil : as = []
  · rw [if_pos hanil, hanil, List.nil_append]
    exact identity_gives hm hok hb (hfirst (ha.empty.mpr hanil))
  have ha0 : ¬RtString.empty a m := fun h => hanil (ha.empty.mp h)
  have hap := ha.holds.ne_null hanil
  rw [if_neg hanil]
  by_cases hbnil : bs = []
  · rw [if_pos hbnil, hbnil, append_nil]
    have hid := identity_gives hm hok ha (hsecond ha0 (hb.empty.mpr hbnil))
    rwa [if_neg hap] at hid
  have hb0 : ¬RtString.empty b m := fun h => hbnil (hb.empty.mp h)
  have hbp := hb.holds.ne_null hbnil
  obtain ⟨hshort, hlong⟩ := hboth ha0 hb0
  rw [ha.length hap, hb.length hbp] at hshort hlong
  by_cases hsmall : as.length + bs.length ≤ ssoMaxLen
  · obtain ⟨p, m', hp, hgives⟩ := shortString_gives hok (given_pair ha hb)
      (by rw [joined_pair, length_append]; exact hsmall) (hshort hsmall)
    rw [joined_pair] at hgives
    simp only [hbnil, if_false, ha.holds.strlen hap, hb.holds.strlen hbp, bind_some, hsmall, if_true]
    exact ⟨p, m', hp, hgives⟩
  · obtain ⟨p, m', hp, hgives, -⟩ := build_gives hm hok _ (given_pair ha hb)
      (by rw [joined_pair, length_append]) (hlong (by omega)) .lit
    rw [joined_pair] at hgives
    have hbuild := concat_build malloc ha hb hanil hbnil hsmall
    unfold concat at hbuild
    simp only [ha.holds.isEmpty, hb.holds.isEmpty, bind_eq_bind, bind_some, List.isEmpty_iff, hanil,
      if_false] at hbuild
    rw [hbuild]
    exact ⟨p, m', hp, hgives⟩

end

/-! ## Appends -/

section
variable {malloc : Nat → Option (List UInt8)} {a : StrPtr} {ds as : List UInt8} {h : StrBlock}

theorem Gives.weaken {K K' : StrPtr → Prop} (g : Gives K m m' p bs) (hK : ∀ q, K' q → K q) : Gives K' m m' p bs :=
  { g with frame := fun q hq => g.frame q (hK q hq) }

/-- The places kept by an append: not that of a string that may grow, which is the call's own. -/
def Kept (m : StrMem) (dst q : StrPtr) : Prop := Old m q ∧ (m.growable dst = true → q ≠ dst)

theorem Ok.growable_kind (hok : Ok m) (hg : m.growable p = true) :
    (∃ o, p = .ring o) ∨ ∃ n < m.heaps, p = .heap n ∧ m.recent = p := by
  have hrecent : p = m.recent → ∃ n < m.heaps, p = .heap n ∧ m.recent = p := by
    intro hp
    obtain hnull | ⟨n, hn, heq⟩ := hok.recent
    · rw [hp, hnull] at hg
      cases hg
    · exact ⟨n, hn, hp.trans heq, hp.symm⟩
  cases p with
  | null => cases hg
  | ring o => exact .inl ⟨o, rfl⟩
  | lit => exact .inr (hrecent (of_decide_eq_true (Bool.and_eq_true_iff.mp hg).1))
  | ext n => exact .inr (hrecent (of_decide_eq_true (Bool.and_eq_true_iff.mp hg).1))
  | sso slot => exact .inr (hrecent (of_decide_eq_true (Bool.and_eq_true_iff.mp hg).1))
  | int slot => exact .inr (hrecent (of_decide_eq_true (Bool.and_eq_true_iff.mp hg).1))
  | heap n => exact .inr (hrecent (of_decide_eq_true (Bool.and_eq_true_iff.mp hg).1))

theorem growable_live (hg : m.growable p = true) (hb : m.blocks p = some b) : b.live = true := by
  have hany : (m.blocks p).any StrBlock.live = true := by
    cases p with
    | null => cases hg
    | ring o => exact hg
    | lit => exact (Bool.and_eq_true_iff.mp hg).2
    | ext n => exact (Bool.and_eq_true_iff.mp hg).2
    | sso slot => exact (Bool.and_eq_true_iff.mp hg).2
    | int slot => exact (Bool.and_eq_true_iff.mp hg).2
    | heap n => exact (Bool.and_eq_true_iff.mp hg).2
  rw [hb] at hany
  exact hany

theorem appendTo_gives (hok : Ok m) (hdst : Old m dst) (hkind : ∀ slot, dst ≠ .int slot) (hlit : dst ≠ .lit)
    (hnull : dst ≠ .null) (hb : m.blocks dst = some h) (hds : 0 ∉ ds) {rest : List UInt8}
    (hbytes : h.bytes = ds ++ 0 :: rest) (ha : Holds m a as) (hne : a ≠ dst)
    (hsize : ds.length + as.length + 1 ≤ h.bytes.length) (hlt : ds.length + as.length < 2 ^ 32) :
    ∃ m', appendTo dst ds.length a as.length m = some (dst, m') ∧
      Gives (fun q => Old m q ∧ q ≠ dst) m m' dst (ds ++ as) := by
  have hlen := congrArg List.length hbytes
  rw [length_append, length_cons] at hlen
  obtain ⟨y, z, hy, hylen⟩ := exists_part (w := 0 :: rest) (n := as.length) (by rw [length_cons]; omega)
  have hz := congrArg List.length hy
  rw [length_append, length_cons, hylen] at hz
  obtain ⟨c, z, rfl⟩ := exists_word (w := z) (by omega)
  rw [length_cons] at hz
  have hjoined : joined [(a, as)] = as := append_nil as
  have hfill := fill_spec (l := [(a, as)]) (x := ds) (z := z) (c := c) (d := ds.length)
    (fun v hv => by rw [mem_singleton.mp hv]; exact ⟨hne, ha⟩) hb
    (by rw [hbytes, hy, append_assoc]) rfl (by rw [hjoined, hylen])
  rw [hjoined] at hfill
  have hsame : (ds ++ as ++ 0 :: z).length = h.bytes.length := by
    rw [length_append, length_append, length_cons, hlen]
    omega
  have hcap := hok.cap dst h hb
  refine ⟨m.setBlock dst ⟨ds ++ as ++ 0 :: z, h.live, h.cap, (ds.length + as.length) % 2 ^ 32⟩, ?_,
    hok.setBlock hb _ hsame (fun hl => ?_) (fun hl o ho => ?_) hlit,
    ⟨fun hmem => ?_, fun hp => absurd hp hnull, fun _ => ⟨_, z, setBlock_self, rfl,
      fun slot hs => absurd hs (hkind slot)⟩⟩, fun _ => ?_, hdst, fun _ hq => hq, fun q hq =>
      ⟨setBlock_of_ne hq.2, fun hg => ⟨growable_of (setBlock_of_ne hq.2) (.inl rfl) hg, hq.2⟩⟩⟩
  · unfold appendTo
    have hfill' : m.fill dst ds.length [(a, as.length)] = _ := hfill
    simp [hfill', setBlock_self, setBlock_setBlock]
  · rw [hsame]
    exact hcap hl
  · subst ho
    rw [hsame]
    exact (hok.ringBlock o h hb).2.1 hl
  · obtain hmem | hmem := List.mem_append.mp hmem
    · exact hds hmem
    · exact ha.nulFree hmem
  · rw [cachedLen, setBlock_self, length_append]
    exact Nat.mod_eq_of_lt hlt

/-- A block of the scratch ring that may grow never ends where the tip is looked for: the rounding of its capacity,
which is rounded already, adds sixteen bytes. -/
theorem atTip_false (hok : Ok m) (hg : m.growable dst = true) (hb : m.blocks dst = some h) (newcap : Nat) :
    m.atTip dst h.cap newcap = false := by
  obtain ⟨o, rfl⟩ | ⟨n, -, rfl, -⟩ := hok.growable_kind hg
  · obtain ⟨hmod, hcap, hend⟩ := hok.ringBlock o h hb
    have hcap := hcap (growable_live hg hb)
    have hhdr : hdrBytes = 16 := rfl
    refine Bool.and_eq_false_iff.mpr (.inl (decide_eq_false fun htip => ?_))
    unfold roundUp at htip
    omega
  · rfl

theorem Ok.move (hok : Ok m) (n : Nat) {c : StrBlock}
    (hcap : c.cap ≤ c.bytes.length ∧ c.cap < 2 ^ 32) :
    Ok { m with
      blocks := Function.update (Function.update m.blocks (.heap n) none) (.heap m.heaps) (some c)
      recent := .heap m.heaps, heaps := m.heaps + 1 } := by
  have hother : ∀ q, (∀ k, q ≠ .heap k) →
      Function.update (Function.update m.blocks (.heap n) none) (.heap m.heaps) (some c) q = m.blocks q := by
    intro q hq
    rw [update_of_ne (hq m.heaps), update_of_ne (hq n)]
  refine ⟨fun q b' hb hl => ?_, fun o b' hb => ?_, fun slot hs => ?_, fun slot hs => ?_, ?_, hok.ring,
    .inr ⟨m.heaps, Nat.lt_succ_self _, rfl⟩⟩
  · have hb' : Function.update (Function.update m.blocks (.heap n) none) (.heap m.heaps) (some c) q = some b' := hb
    by_cases hq : q = .heap m.heaps
    · rw [hq, update_self] at hb'
      cases hb'
      exact hcap
    · rw [update_of_ne hq] at hb'
      by_cases hqn : q = .heap n
      · rw [hqn, update_self] at hb'
        cases hb'
      · rw [update_of_ne hqn] at hb'
        exact hok.cap q b' hb' hl
  · exact hok.ringBlock o b' ((hother (.ring o) fun _ => nofun).symm.trans hb)
  · obtain ⟨b', hb, hlen⟩ := hok.sso slot hs
    exact ⟨b', (hother (.sso slot) fun _ => nofun).trans hb, hlen⟩
  · obtain ⟨b', hb, hlen⟩ := hok.int slot hs
    exact ⟨b', (hother (.int slot) fun _ => nofun).trans hb, hlen⟩
  · exact hok.lit.congr (hother .lit fun _ => nofun)

theorem reallocAppend_gives (hm : ∀ n, ∃ w, malloc n = some w ∧ w.length = n) (hok : Ok m)
    (hg : m.growable dst = true) (hrecent : dst = m.recent) (hb : m.blocks dst = some h) (hds : 0 ∉ ds)
    {rest : List UInt8} (hbytes : h.bytes = ds ++ 0 :: rest) (hlen : h.len = ds.length) (ha : Holds m a as)
    (haold : Old m a) (hne : a ≠ dst) (newcap : Nat) (hnew : ds.length + as.length < newcap)
    (hlt : ds.length + as.length < 2 ^ 32) :
    ∃ p m', reallocAppend malloc dst h a as.length newcap m = some (p, m') ∧ Gives (Kept m dst) m m' p (ds ++ as) := by
  obtain ⟨n, hn, rfl⟩ : ∃ n < m.heaps, dst = .heap n := by
    obtain ⟨o, rfl⟩ | ⟨n, hn, rfl, -⟩ := hok.growable_kind hg
    · obtain hnull | ⟨n, -, heq⟩ := hok.recent
      · cases hrecent.trans hnull
      · cases hrecent.trans heq
    · exact ⟨n, hn, rfl⟩
  obtain ⟨w, hw, hwlen⟩ := hm (ds.length + as.length + 1 + hdrBytes * 2)
  have hneed : ds.length + as.length + 1 + hdrBytes * 2 - 1 - hdrBytes * 2 = ds.length + as.length := by omega
  have hmin : ¬newcap < ds.length + as.length := by omega
  -- the moved block, of one byte more than the two strings
  have htake : h.bytes.take (ds.length + as.length + 1) = ds ++ 0 :: rest.take as.length := by
    have hsum : ds.length + as.length + 1 = ds.length + (as.length + 1) := by omega
    rw [hbytes, hsum, List.take_length_add_append, List.take_succ_cons]
  obtain ⟨c, hc, hcbytes, hclen⟩ : ∃ c : StrBlock, c = ⟨h.bytes.take (ds.length + as.length + 1) ++
      (w.drop (hdrBytes * 2)).drop h.bytes.length, true, (ds.length + as.length) % 2 ^ 32, ds.length⟩ ∧
      c.bytes = ds ++ 0 :: (rest.take as.length ++ (w.drop (hdrBytes * 2)).drop h.bytes.length) ∧
      c.bytes.length = ds.length + as.length + 1 := by
    refine ⟨_, rfl, ?_, ?_⟩
    · rw [htake, append_assoc]
      rfl
    · rw [length_append, List.length_take, List.length_drop, List.length_drop, hwlen]
      omega
  have hokm := hok.move n (c := c) (by
    rw [hclen, hc]
    exact ⟨Nat.le_succ_of_le (Nat.mod_le _ _), Nat.mod_lt _ (by decide)⟩)
  have hkeep : ∀ q, Old m q → q ≠ .heap n → q ≠ .heap m.heaps ∧
      Function.update (Function.update m.blocks (.heap n) none) (.heap m.heaps) (some c) q = m.blocks q := by
    intro q hq hqn
    have hqm : q ≠ .heap m.heaps := by
      rintro rfl
      exact Nat.lt_irrefl _ hq
    exact ⟨hqm, by rw [update_of_ne hqm, update_of_ne hqn]⟩
  have hmono : ∀ q, Old m q → Old { m with
      blocks := Function.update (Function.update m.blocks (.heap n) none) (.heap m.heaps) (some c)
      recent := .heap m.heaps, heaps := m.heaps + 1 } q := by
    intro q hq
    cases q with
    | heap k => exact Nat.lt_succ_of_lt hq
    | null => exact hq
    | lit => exact hq
    | ext k => exact hq
    | sso slot => exact hq
    | int slot => exact hq
    | ring o => exact hq
  obtain ⟨m', happend, hgives⟩ := appendTo_gives (h := c) hokm
    (show Old _ (.heap m.heaps) from Nat.lt_succ_self m.heaps) (fun _ => nofun) nofun nofun (update_self ..) hds hcbytes
    (ha.congr (hkeep a haold hne).2) (hkeep a haold hne).1 (by rw [hclen]) hlt
  refine ⟨.heap m.heaps, m', ?_, hgives.ok, hgives.holds, hgives.len, hgives.old,
    fun q hq => hgives.mono q (hmono q hq), fun q hq => ?_⟩
  · unfold reallocAppend
    simp only [hlen, hw, hneed, hmin, if_false]
    rw [← hc]
    exact happend
  · obtain ⟨hqm, hsame⟩ := hkeep q hq.1 (hq.2 hg)
    obtain ⟨hframe, hgrow⟩ := hgives.frame q ⟨hmono q hq.1, hqm⟩
    exact ⟨hframe.trans hsame, fun hgq =>
      ⟨growable_of hsame (.inr hqm) (hgrow hgq).1, hqm⟩⟩

theorem within_self (hlen : 0 < ds.length) : within dst dst ds.length = true := by
  have hself : (decide (dst = dst) && decide (0 < ds.length)) = true := by
    rw [decide_eq_true rfl, decide_eq_true hlen]
    rfl
  cases dst with
  | ring o =>
    show (decide (o ≤ o) && decide (o < o + ds.length)) = true
    rw [decide_eq_true (Nat.le_refl o), decide_eq_true (Nat.lt_add_of_pos_right hlen)]
    rfl
  | null => exact hself
  | lit => exact hself
  | ext n => exact hself
  | sso slot => exact hself
  | int slot => exact hself
  | heap n => exact hself

theorem Gives.retire {p : StrPtr} (g : Gives (Old m) m m' p bs) (hdst : Old m dst) (hne : p ≠ dst)
    (hb : m.blocks dst = some h) (hg : m.growable dst = true) (hlit : dst ≠ .lit) :
    Gives (Kept m dst) m (m'.setBlock dst { h with live := false }) p bs := by
  have hsame := (g.frame dst hdst).1.trans hb
  have hp : (m'.setBlock dst { h with live := false }).blocks p = m'.blocks p := setBlock_of_ne hne
  refine ⟨g.ok.setBlock hsame _ rfl nofun nofun hlit, g.holds.congr hp, fun hgp => ?_, g.old, g.mono,
    fun q hq => ?_⟩
  · rw [cachedLen, hp]
    exact g.len (growable_of hp (.inl rfl) hgp)
  · have hqd := hq.2 hg
    obtain ⟨hframe, hgrow⟩ := g.frame q hq.1
    have hq' : (m'.setBlock dst { h with live := false }).blocks q = m'.blocks q := setBlock_of_ne hqd
    exact ⟨hq'.trans hframe, fun hgq => hgrow (growable_of hq' (.inl rfl) hgq)⟩

variable (hm : ∀ n, ∃ w, malloc n = some w ∧ w.length = n)
include hm

theorem grow_gives (hok : Ok m) (hd : Arg m dst ds) (ha : Arg m a as) (hdnil : ds ≠ []) (hg : m.growable dst = true)
    (hb : m.blocks dst = some h) (hne : a ≠ dst)
    (hroom : h.cap < h.len + as.length + 1 →
      if dst = m.recent then h.len + as.length < 2 ^ 32
      else RtString.Room (newCap h.cap (h.len + as.length)) m) :
    ∃ p m', (if h.cap < h.len + as.length + 1 then
        let newcap := newCap h.cap (h.len + as.length)
        if m.atTip dst h.cap newcap then (m.extendTip dst h newcap).appendTo dst h.len a as.length
        else if dst = m.recent then reallocAppend malloc dst h a as.length newcap m
        else do
          let (nb, m) ← build malloc newcap [(dst, h.len), (a, as.length)] .lit m
          some (nb, if nb = .lit then m else m.setBlock dst { h with live := false })
      else m.appendTo dst h.len a as.length) = some (p, m') ∧ Gives (Kept m dst) m m' p (ds ++ as) := by
  have hdp := hd.holds.ne_null hdnil
  have hlen : h.len = ds.length := by
    have := hd.len hg
    rw [cachedLen, hb] at this
    exact this
  obtain ⟨rest, hbytes⟩ : ∃ rest, h.bytes = ds ++ 0 :: rest := by
    obtain ⟨b', rest, hb', hbytes, -⟩ := hd.holds.block hdp
    rw [hb] at hb'
    exact ⟨rest, Option.some.inj hb' ▸ hbytes⟩
  have hlive := growable_live hg hb
  obtain ⟨hcaple, hcaplt⟩ := hok.cap dst h hb hlive
  have hkind : (∀ slot, dst ≠ .int slot) ∧ dst ≠ .lit := by
    obtain ⟨o, rfl⟩ | ⟨n, -, rfl, -⟩ := hok.growable_kind hg
    · exact ⟨fun _ => nofun, nofun⟩
    · exact ⟨fun _ => nofun, nofun⟩
  rw [hlen] at hroom ⊢
  by_cases hfull : h.cap < ds.length + as.length + 1
  · have hroom := hroom hfull
    simp only [hfull, if_true, atTip_false hok hg hb, Bool.false_eq_true, if_false]
    have hnew : ds.length + as.length < newCap h.cap (ds.length + as.length) := by
      unfold newCap
      omega
    by_cases hrecent : dst = m.recent
    · rw [if_pos hrecent] at hroom ⊢
      exact reallocAppend_gives hm hok hg hrecent hb hd.holds.nulFree hbytes hlen ha.holds ha.old hne _ hnew hroom
    · rw [if_neg hrecent] at hroom ⊢
      obtain ⟨p, m', hbuild, hgives, hfresh⟩ := build_gives hm hok _ (given_pair hd ha)
        (by rw [joined_pair, length_append]; omega) hroom .lit
      rw [joined_pair] at hgives
      have hbuild' : build malloc _ [(dst, ds.length), (a, as.length)] .lit m = some (p, m') := hbuild
      have hplit : p ≠ .lit := by
        rintro rfl
        exact hfresh trivial
      simp only [hbuild', bind_eq_bind, bind_some, hplit, if_false]
      have hretire := hgives.retire hd.old (fun heq => hfresh (heq ▸ hd.old)) hb hg hkind.2
      rw [hlen] at hretire
      exact ⟨p, _, rfl, hretire⟩
  · rw [if_neg hfull]
    obtain ⟨m', happend, hgives⟩ := appendTo_gives hok hd.old hkind.1 hkind.2 hdp hb hd.holds.nulFree hbytes ha.holds
      hne (by omega) (by omega)
    exact ⟨dst, m', happend, hgives.weaken fun q hq => ⟨hq.1, hq.2 hg⟩⟩

/-- **An append** gives the first string and the second, and leaves every other place as it was. -/
theorem concatMut_gives (hok : Ok m) (hd : Arg m dst ds) (ha : Arg m a as) (hroom : RtString.AppendRoom dst a m) :
    ∃ p m', concatMut malloc dst a m = some (p, m') ∧ Gives (Kept m dst) m m' p (ds ++ as) := by
  unfold concatMut
  simp only [hd.holds.isEmpty, ha.holds.isEmpty, bind_eq_bind, bind_some, List.isEmpty_iff]
  by_cases hanil : as = []
  · rw [if_pos hanil, hanil, append_nil]
    by_cases hdp : dst = .null
    · rw [if_pos hdp, hd.holds.null hdp]
      exact ⟨_, _, rfl, (hok.arg_lit.gives hok hok.growable_lit).weaken fun q hq => hq.1⟩
    · rw [if_neg hdp]
      refine ⟨_, _, rfl, hok, hd.holds, hd.len, hd.old, fun _ hq => hq, fun q hq => ⟨rfl, fun hgq => ⟨hgq, ?_⟩⟩⟩
      intro heq
      exact hq.2 (heq ▸ hgq) heq
  have hane : ¬RtString.empty a m := fun he => hanil (ha.empty.mp he)
  have hap := ha.holds.ne_null hanil
  obtain ⟨hstart, hcopy, hgrow⟩ := hroom hane
  rw [if_neg hanil]
  by_cases hdnil : ds = []
  · rw [if_pos hdnil, hdnil, List.nil_append]
    obtain ⟨hshared, hfirst⟩ := hstart (hd.empty.mpr hdnil)
    rw [ha.length hap] at hshared hfirst
    by_cases hga : m.growable a = true
    · rw [if_pos hga]
      obtain ⟨p, m', hp, hgives⟩ := copyGrowable_gives hm hok ha hga (hshared hga)
      exact ⟨p, m', hp, hgives.weaken fun q hq => hq.1⟩
    · rw [if_neg hga]
      have hjoined : joined [(a, as)] = as := append_nil as
      obtain ⟨p, m', hp, hgives, -⟩ := build_gives hm hok [(a, as)]
        (fun v hv => by rw [mem_singleton.mp hv]; exact ⟨ha.old, ha.holds⟩)
        (by rw [hjoined]; unfold roundUp; split <;> omega) (hfirst (Bool.not_eq_true _ ▸ hga)) a
      rw [hjoined] at hgives
      refine ⟨p, m', ?_, hgives.weaken fun q hq => hq.1⟩
      simp only [ha.holds.strlen hap, bind_some]
      exact hp
  have hdne : ¬RtString.empty dst m := fun he => hdnil (hd.empty.mp he)
  have hdp := hd.holds.ne_null hdnil
  rw [if_neg hdnil]
  by_cases hg : m.growable dst = true
  case neg =>
    rw [if_pos (Bool.not_eq_true _ ▸ hg)]
    obtain ⟨p, m', hp, hgives⟩ := concat_gives hm hok hd ha (hcopy hdne (.inl (Bool.not_eq_true _ ▸ hg)))
    exact ⟨p, m', hp, hgives.weaken fun q hq => hq.1⟩
  obtain ⟨h, rest, hb, hbytes, -⟩ := hd.holds.block hdp
  have hcached : m.cachedLen dst = h.len := by
    rw [cachedLen, hb]
    rfl
  have hlen : h.len = ds.length := hcached.symm.trans (hd.len hg)
  rw [hcached] at hcopy hgrow
  simp only [hg, Bool.true_eq_false, if_false, ha.holds.strlen hap, hb, bind_some]
  by_cases hin : within a dst h.len = true
  · rw [if_pos hin]
    obtain ⟨p, m', hp, hgives⟩ := concat_gives hm hok hd ha (hcopy hdne (.inr hin))
    exact ⟨p, m', hp, hgives.weaken fun q hq => hq.1⟩
  · rw [if_neg hin]
    have hne : a ≠ dst := by
      rintro rfl
      rw [hlen] at hin
      exact hin (within_self (List.length_pos_iff.mpr hdnil))
    have hgrow := hgrow hdne hg (Bool.not_eq_true _ ▸ hin) h hb
    rw [ha.length hap] at hgrow
    exact grow_gives hm hok hd ha hdnil hg hb hne hgrow

end

/-! ## Other results -/

section
variable {malloc : Nat → Option (List UInt8)} {vs : List (StrPtr × List UInt8)}

/-- The length in the last byte of an integer's buffer is that of its text. -/
theorem Holds.fastStrlen (h : Holds m p bs) : m.fastStrlen p = some bs.length := by
  cases p with
  | null => rw [h.null rfl]; rfl
  | int slot =>
    obtain ⟨b, rest, hb, -, hint⟩ := h.block nofun
    obtain ⟨hlast, hlt⟩ := hint slot rfl
    unfold StrMem.fastStrlen
    simp [hb, hlast, Nat.mod_eq_of_lt hlt]
  | lit => exact h.strlen nofun
  | ext n => exact h.strlen nofun
  | sso slot => exact h.strlen nofun
  | ring o => exact h.strlen nofun
  | heap n => exact h.strlen nofun

theorem mapM_fastStrlen (hvs : Given m vs) :
    (vs.map Prod.fst).mapM (fun s => m.fastStrlen s) = some (vs.map fun v => v.2.length) := by
  induction vs with
  | nil => rfl
  | cons v vs ih =>
    rw [List.map_cons, List.mapM_cons, (hvs v List.mem_cons_self).2.fastStrlen,
      ih fun w hw => hvs w (List.mem_cons_of_mem _ hw)]
    rfl

theorem concatN_gives (hm : ∀ n, ∃ w, malloc n = some w ∧ w.length = n) (hok : Ok m) (hvs : Given m vs) :
    ∃ p m', concatN malloc (vs.map Prod.fst) m = some (p, m') ∧ Gives (Old m) m m' p (joined vs) := by
  have hsum : (vs.map fun v => v.2.length).sum = (joined vs).length := by
    rw [joined, List.length_flatten, List.map_map]
    rfl
  have hzip : (vs.map Prod.fst).zip (vs.map fun v => v.2.length) = sources vs := by
    rw [List.zip_map']
    rfl
  obtain ⟨p, mem, b, halloc, f, -⟩ := scratchAlloc_fresh hm hok (joined vs).length
  obtain ⟨z, hfill, hsize⟩ := f.fill hvs (Nat.le_refl _)
  have hgives := f.gives (r := mem.recent) { b with bytes := joined vs ++ 0 :: z } hvs.nulFree rfl hsize (.inl rfl)
    (fun hl => by
      have hdead : b.live = true := hl
      rw [f.dead] at hdead
      cases hdead)
  refine ⟨p, _, ?_, hgives⟩
  unfold concatN
  simp [mapM_fastStrlen hvs, hsum, halloc, hzip, hfill]

/-- **A buffer that no string is in** holds the text of an integer. -/
theorem intToStr_gives (hok : Ok m) {v : Int} (hlow : -2 ^ 63 ≤ v) (hhigh : v < 2 ^ 63) (hidx : m.intIdx < 256) :
    ∃ p m', intToStr v m = some (p, m') ∧ Gives (Old m) m m' p (decimalInt v) := by
  have hslot : m.intIdx % 256 = m.intIdx := Nat.mod_eq_of_lt hidx
  have hnext : (m.intIdx + 1) % 2 ^ 32 = m.intIdx + 1 := Nat.mod_eq_of_lt (by omega)
  have hlen := decimalInt_length hlow hhigh
  generalize htext : decimalInt v = text at hlen
  have hnul : 0 ∉ text := htext ▸ decimalInt_nulFree v
  obtain ⟨b, hb, hblen⟩ := hok.int m.intIdx hidx
  have hne : ∀ q, Old m q → q ≠ .int m.intIdx := by
    rintro q hq rfl
    exact Nat.lt_irrefl _ hq
  -- the text and its terminator, what lies between, and the last byte
  obtain ⟨y, rest, hy, hylen⟩ := exists_part (w := b.bytes) (n := text.length + 1) (by omega)
  have hrest := congrArg List.length hy
  rw [length_append, hylen, hblen] at hrest
  obtain ⟨z, last, rfl, hz⟩ := exists_part (w := rest) (n := 30 - text.length) (by omega)
  rw [length_append, hz] at hrest
  have hfirst := write_spec (m := { m with intIdx := m.intIdx + 1 }) (p := .int m.intIdx) (x := []) (d := 0)
    (v := text ++ [0]) hb hy rfl (by rw [length_append, hylen]; rfl)
  have hsecond := write_spec (m := { m with intIdx := m.intIdx + 1 }.setBlock (.int m.intIdx)
      { b with bytes := [] ++ (text ++ [0]) ++ (z ++ last) }) (p := .int m.intIdx) (d := 31)
    (x := text ++ [0] ++ z) (y := last) (z := []) (v := [UInt8.ofNat text.length]) setBlock_self
    (by simp) (by simp; omega) (by rw [List.length_singleton]; omega)
  rw [setBlock_setBlock] at hsecond
  have hbytes : text ++ [0] ++ z ++ [UInt8.ofNat text.length] ++ [] = text ++ 0 :: (z ++ [UInt8.ofNat text.length]) := by
    simp
  rw [hbytes] at hsecond
  have hsize : (text ++ 0 :: (z ++ [UInt8.ofNat text.length])).length = b.bytes.length := by
    rw [length_append, length_cons, length_append, hz, hblen, List.length_singleton]
    omega
  have hlast : (text ++ 0 :: (z ++ [UInt8.ofNat text.length]))[31]? = some (UInt8.ofNat text.length) := by
    rw [← hbytes, append_nil, List.getElem?_append_right (by simp; omega)]
    have hzero : 31 - (text ++ [0] ++ z).length = 0 := by
      rw [length_append, length_append, List.length_singleton]
      omega
    rw [hzero]
    rfl
  have hok' : Ok { m with intIdx := m.intIdx + 1 } := { hok with lit := hok.lit.congr rfl }
  refine ⟨.int m.intIdx, _, ?_, hok'.setBlock hb { b with bytes := text ++ 0 :: (z ++ [UInt8.ofNat text.length]) } hsize
    (fun hl => ?_) (fun _ o ho => by cases ho) nofun, ⟨hnul, nofun, fun _ => ⟨_, _, setBlock_self, rfl,
    fun slot hs => ⟨hlast, by omega⟩⟩⟩, fun hg => ?_, Nat.lt_succ_self _, fun q hq => ?_, fun q hq =>
      ⟨setBlock_of_ne (hne q hq), fun hg => ⟨growable_of (setBlock_of_ne (hne q hq)) (.inl rfl) hg, hne q hq⟩⟩⟩
  · unfold intToStr
    simp only [hslot, hnext, fastI64toa_eq, htext, hfirst, hsecond, bind_eq_bind, bind_some]
  · rw [hsize]
    exact hok.cap _ b hb hl
  · have hrecent : StrPtr.int m.intIdx = m.recent := of_decide_eq_true (Bool.and_eq_true_iff.mp hg).1
    obtain hnull | ⟨n, -, hn⟩ := hok.recent
    · cases hrecent.trans hnull
    · cases hrecent.trans hn
  · cases q with
    | int slot => exact Nat.lt_succ_of_lt hq
    | null => exact hq
    | lit => exact hq
    | ext n => exact hq
    | sso slot => exact hq
    | ring o => exact hq
    | heap n => exact hq

theorem strSso_gives (hm : ∀ n, ∃ w, malloc n = some w ∧ w.length = n) (hok : Ok m) (h : Arg m p bs)
    (hshort : p ≠ .null → RtString.length p m ≤ ssoMaxLen → RtString.Short m) :
    ∃ q m', strSso malloc p m = some (q, m') ∧ Gives (Old m) m m' q bs := by
  by_cases hp : p = .null
  · rw [hp, h.holds.null hp]
    exact ⟨_, _, rfl, hok.arg_lit.gives hok hok.growable_lit⟩
  have hjoined : joined [(p, bs)] = bs := append_nil bs
  have hgiven : Given m [(p, bs)] := fun v hv => by
    rw [mem_singleton.mp hv]
    exact ⟨h.old, h.holds⟩
  have hshort := hshort hp
  rw [h.length hp] at hshort
  unfold strSso
  simp only [h.holds.strlen hp, bind_eq_bind, bind_some]
  by_cases hsmall : bs.length ≤ ssoMaxLen
  · rw [if_pos hsmall]
    obtain ⟨q, m', hq, hgives⟩ := shortString_gives hok hgiven (by rw [hjoined]; exact hsmall) (hshort hsmall)
    rw [hjoined] at hgives
    exact ⟨q, m', hq, hgives⟩
  · rw [if_neg hsmall]
    obtain ⟨w, hw, hwlen⟩ := hm (bs.length + 1)
    have f := heapAlloc_fresh (r := m.ring) hok hok.ring hwlen
    obtain ⟨z, hfill, hsize⟩ := f.fill hgiven (Nat.le_of_eq (by rw [hjoined]))
    rw [hjoined] at hfill hsize
    have hgives := f.gives (r := m.recent) { bytes := bs ++ 0 :: z } h.holds.nulFree rfl hsize (.inl rfl) nofun
    refine ⟨.heap m.heaps, _, ?_, hgives⟩
    simp only [hw]
    have hfill' : StrMem.fill _ 0 [(p, bs.length)] _ = _ := hfill
    rw [hfill']
    rfl

end

theorem null_gives (hok : Ok m) : Gives (Old m) m m .null [] where
  ok := hok
  holds := ⟨List.not_mem_nil, fun _ => rfl, fun h => absurd rfl h⟩
  len := nofun
  old := trivial
  mono _ hq := hq
  frame q _ := ⟨rfl, fun hg => ⟨hg, fun heq => by rw [heq] at hg; cases hg⟩⟩

theorem ext_gives (hok : Ok m) (cs : CStr) : Gives (Old m) m
    { m.setBlock (.ext m.exts) { bytes := cs.bytes ++ [0] } with exts := m.exts + 1 } (.ext m.exts) cs.bytes := by
  have hother : ∀ q, q ≠ .ext m.exts →
      (m.setBlock (.ext m.exts) { bytes := cs.bytes ++ [0] }).blocks q = m.blocks q := fun q hq => setBlock_of_ne hq
  have hne : ∀ q, Old m q → q ≠ .ext m.exts := by
    rintro q hq rfl
    exact Nat.lt_irrefl _ hq
  have hrecent : ∀ q, q ≠ .ext m.exts ∨ m.recent ≠ q := by
    intro q
    refine Classical.or_iff_not_imp_left.mpr fun hq hr => ?_
    obtain hnull | ⟨n, -, heq⟩ := hok.recent
    · exact hq fun he => by cases (hr.trans he).symm.trans hnull
    · exact hq fun he => by cases (hr.trans he).symm.trans heq
  refine ⟨⟨fun q b hb hl => ?_, fun o b hb => ?_, fun slot hs => ?_, fun slot hs => ?_, ?_, hok.ring, hok.recent⟩,
    ⟨cs.nulFree, nofun, fun _ => ⟨_, [], setBlock_self, rfl, fun slot hs => by cases hs⟩⟩, fun hg => ?_,
    Nat.lt_succ_self _, fun q hq => ?_, fun q hq =>
      ⟨hother q (hne q hq), fun hg => ⟨growable_of (hother q (hne q hq)) (.inl rfl) hg, hne q hq⟩⟩⟩
  · have hb' : (m.setBlock (.ext m.exts) { bytes := cs.bytes ++ [0] }).blocks q = some b := hb
    by_cases hq : q = .ext m.exts
    · rw [hq, setBlock_self] at hb'
      cases hb'
      cases hl
    · rw [hother q hq] at hb'
      exact hok.cap q b hb' hl
  · exact hok.ringBlock o b ((hother (.ring o) nofun).symm.trans hb)
  · obtain ⟨b, hb, hlen⟩ := hok.sso slot hs
    exact ⟨b, (hother (.sso slot) nofun).trans hb, hlen⟩
  · obtain ⟨b, hb, hlen⟩ := hok.int slot hs
    exact ⟨b, (hother (.int slot) nofun).trans hb, hlen⟩
  · exact hok.lit.congr (hother .lit nofun)
  · obtain h | h := hrecent (.ext m.exts)
    · exact absurd rfl h
    · exact absurd (of_decide_eq_true (Bool.and_eq_true_iff.mp hg).1).symm h
  · cases q with
    | ext n => exact Nat.lt_succ_of_lt hq
    | null => exact hq
    | lit => exact hq
    | sso slot => exact hq
    | int slot => exact hq
    | ring o => exact hq
    | heap n => exact hq

theorem ok_initial : Ok initial where
  cap p b hb hl := by
    have hdead : b.live = false := by
      cases p with
      | lit => rw [← Option.some.inj hb]
      | sso slot =>
        have hb' : (if slot < ssoRingCount then some ({ bytes := List.replicate ssoSlotSize 0 } : StrBlock) else none) =
          some b := hb
        split at hb'
        · rw [← Option.some.inj hb']
        · cases hb'
      | int slot =>
        have hb' : (if slot < 256 then some ({ bytes := List.replicate 32 0 } : StrBlock) else none) = some b := hb
        split at hb'
        · rw [← Option.some.inj hb']
        · cases hb'
      | null => cases hb
      | ext n => cases hb
      | ring o => cases hb
      | heap n => cases hb
    rw [hdead] at hl
    cases hl
  ringBlock o b hb := by cases hb
  sso slot hs := ⟨_, if_pos hs, length_replicate⟩
  int slot hs := ⟨_, if_pos hs, length_replicate⟩
  lit := ⟨List.not_mem_nil, nofun, fun _ => ⟨_, [], rfl, rfl, nofun⟩⟩
  ring := nofun
  recent := .inl rfl

end StrMem

/-! ## Programs -/

namespace RtString

variable {malloc : Nat → Option (List UInt8)} {s s' : Program} {op : Op} {ops : List Op} {v : Value} {i : Nat}

/-- **The invariant of a run.** Each string is what it was when it was returned, and one that may grow is the
program's only one there. -/
structure Inv (s : Program) : Prop where
  ok : s.mem.Ok
  arg : ∀ i v, s.val i = some v → s.mem.Arg v.1 v.2
  unique : ∀ i j v w, s.val i = some v → s.val j = some w → v.1 = w.1 → s.mem.growable v.1 = true → i = j

theorem val_push {m : StrMem} {w : Value} (h : (s.push v m).val i = some w) :
    i = s.vals.length ∧ w = v ∨ s.val i = some w := by
  have h' : (s.vals ++ [some v])[i]?.join = some w := h
  by_cases hi : i < s.vals.length
  · rw [List.getElem?_append_left hi] at h'
    exact .inr h'
  · rw [List.getElem?_append_right (by omega)] at h'
    by_cases hlast : i - s.vals.length = 0
    · rw [hlast] at h'
      exact .inl ⟨by omega, (Option.some.inj h').symm⟩
    · rw [List.getElem?_eq_none (by rw [List.length_singleton]; omega)] at h'
      cases h'

/-- **A result is one more string**, where the places of the others are kept. -/
theorem Inv.push {K : StrPtr → Prop} {m : StrMem} {p : StrPtr} {bs : List UInt8} (h : Inv s)
    (g : StrMem.Gives K s.mem m p bs) (hK : ∀ i v, s.val i = some v → K v.1) : Inv (s.push (p, bs) m) where
  ok := g.ok
  arg i v hv := by
    obtain ⟨-, rfl⟩ | hv := val_push hv
    · exact ⟨g.old, g.holds, g.len⟩
    · obtain ⟨hsame, hgrow⟩ := g.frame v.1 (hK i v hv)
      have harg := h.arg i v hv
      refine ⟨g.mono _ harg.old, harg.holds.congr hsame, fun hg => ?_⟩
      show m.cachedLen v.1 = _
      rw [StrMem.cachedLen, hsame]
      exact harg.len (hgrow hg).1
  unique i j v w hv hw heq hg := by
    obtain ⟨hi, rfl⟩ | hv := val_push hv
    · obtain ⟨hj, -⟩ | hw := val_push hw
      · exact hi.trans hj.symm
      · have hgw : m.growable w.1 = true := by
          rw [← heq]
          exact hg
        exact absurd heq.symm ((g.frame w.1 (hK j w hw)).2 hgw).2
    · have hgv := (g.frame v.1 (hK i v hv)).2 hg
      obtain ⟨-, rfl⟩ | hw := val_push hw
      · exact absurd heq hgv.2
      · exact h.unique i j v w hv hw heq hgv.1

theorem val_take {j : Nat} {w : Value} (h : (s.take i).val j = some w) : j ≠ i ∧ s.val j = some w := by
  have h' : (s.vals.set i none)[j]?.join = some w := h
  by_cases hij : i = j
  · subst hij
    rw [List.getElem?_set_self'] at h'
    cases hs : s.vals[i]? with
    | none =>
      rw [hs] at h'
      cases h'
    | some x =>
      rw [hs] at h'
      cases h'
  · rw [List.getElem?_set_ne hij] at h'
    exact ⟨fun heq => hij heq.symm, h'⟩

theorem Inv.take (h : Inv s) (i : Nat) : Inv (s.take i) where
  ok := h.ok
  arg j w hw := h.arg j w (val_take hw).2
  unique j k v w hv hw := h.unique j k v w (val_take hv).2 (val_take hw).2

/-- **One call** on strings of the program, where the buffers suffice. -/
theorem step_inv (hm : ∀ n, ∃ w, malloc n = some w ∧ w.length = n) (h : Inv s) (huses : Uses op s)
    (hsuff : Suffices op s) : ∃ s', step malloc op s = some s' ∧ Inv s' := by
  have hold : ∀ i v, s.val i = some v → s.mem.Old v.1 := fun i v hv => (h.arg i v hv).old
  cases op with
  | ext cs => exact ⟨_, rfl, h.push (StrMem.ext_gives h.ok cs) hold⟩
  | null => exact ⟨_, rfl, h.push (StrMem.null_gives h.ok) hold⟩
  | concat a b =>
    obtain ⟨va, hva⟩ := isSome_iff_exists.mp huses.1
    obtain ⟨vb, hvb⟩ := isSome_iff_exists.mp huses.2
    obtain ⟨p, m, hp, hgives⟩ := StrMem.concat_gives hm h.ok (h.arg a va hva) (h.arg b vb hvb) (hsuff va vb hva hvb)
    simp only [step, hva, hvb, hp, bind_eq_bind, bind_some]
    exact ⟨_, rfl, h.push hgives hold⟩
  | concatMut dst b =>
    obtain ⟨vd, hvd⟩ := isSome_iff_exists.mp huses.1
    obtain ⟨vb, hvb⟩ := isSome_iff_exists.mp huses.2
    obtain ⟨p, m, hp, hgives⟩ :=
      StrMem.concatMut_gives hm h.ok (h.arg dst vd hvd) (h.arg b vb hvb) (hsuff vd vb hvd hvb)
    simp only [step, hvd, hvb, hp, bind_eq_bind, bind_some]
    refine ⟨_, rfl, (h.take dst).push hgives fun j w hw => ?_⟩
    obtain ⟨hj, hw⟩ := val_take hw
    exact ⟨hold j w hw, fun hg heq => hj (h.unique j dst w vd hw hvd heq (heq ▸ hg))⟩
  | concatN srcs =>
    obtain ⟨vs, hvs, hgiven⟩ : ∃ vs, srcs.mapM (fun i => s.val i) = some vs ∧ s.mem.Given vs := by
      induction srcs with
      | nil => exact ⟨[], rfl, fun v hv => absurd hv List.not_mem_nil⟩
      | cons i srcs ih =>
        obtain ⟨v, hv⟩ := isSome_iff_exists.mp (huses i List.mem_cons_self)
        obtain ⟨vs, hvs, hgiven⟩ := ih (fun j hj => huses j (List.mem_cons_of_mem _ hj)) trivial
        refine ⟨v :: vs, by rw [List.mapM_cons, hv, hvs]; rfl, fun w hw => ?_⟩
        obtain rfl | hw := List.mem_cons.mp hw
        · exact ⟨(h.arg i w hv).old, (h.arg i w hv).holds⟩
        · exact hgiven w hw
    obtain ⟨p, m, hp, hgives⟩ := StrMem.concatN_gives hm h.ok hgiven
    simp only [step, hvs, hp, bind_eq_bind, bind_some]
    exact ⟨_, rfl, h.push hgives hold⟩
  | intToStr v =>
    obtain ⟨p, m, hp, hgives⟩ := StrMem.intToStr_gives h.ok huses.1 huses.2 hsuff
    simp only [step, hp, bind_eq_bind, bind_some]
    exact ⟨_, rfl, h.push hgives hold⟩
  | strSso i =>
    obtain ⟨v, hv⟩ := isSome_iff_exists.mp huses
    obtain ⟨p, m, hp, hgives⟩ := StrMem.strSso_gives hm h.ok (h.arg i v hv) (hsuff v hv)
    simp only [step, hv, hp, bind_eq_bind, bind_some]
    exact ⟨_, rfl, h.push hgives hold⟩

theorem inv_initial : Inv {} where
  ok := StrMem.ok_initial
  arg i v hv := by
    have hnone : (none : Option Value) = some v := hv
    cases hnone
  unique i j v w hv := by
    have hnone : (none : Option Value) = some v := hv
    cases hnone

theorem Inv.intact (h : Inv s) : Intact s :=
  ⟨fun i v hv => (h.arg i v hv).holds.text, fun p b hb hl => (h.ok.cap p b hb hl).1⟩

/-- What a run is expected to come to: no load or store is outside a block, and the strings are intact. -/
def Sound (malloc : Nat → Option (List UInt8)) (ops : List Op) : Prop :=
  ∃ s', runEvents (step malloc) ops {} = some s' ∧ Intact s'

/-- A memory of zeros. -/
def zeros (n : Nat) : Option (List UInt8) := some (List.replicate n 0)

theorem zeros_spec (n : Nat) : ∃ w, zeros n = some w ∧ w.length = n :=
  ⟨List.replicate n 0, rfl, length_replicate⟩

/-- `n` letters. -/
def letters (n : Nat) : CStr := ⟨List.replicate n 97, fun h => by cases List.eq_of_mem_replicate h⟩

theorem not_sound {n : Nat} (hhalf : StrMem.ringSize / 2 < StrMem.roundUp (n + 1 + 1) + StrMem.hdrBytes)
    (hmod : (n + 1 + 1) % 16 ≠ 0) (hlt : StrMem.roundUp (n + 1 + 1) < 2 ^ 32) (hlong : 22 < n + 1) :
    ¬Sound zeros [.ext (letters n), .ext (letters 1), .concat 0 1] := by
  intro ⟨s', hrun, hintact⟩
  obtain ⟨s₁, hs₁, h₁⟩ := @step_inv zeros {} (.ext (letters n)) zeros_spec inv_initial trivial trivial
  obtain ⟨s₂, hs₂, h₂⟩ := @step_inv zeros s₁ (.ext (letters 1)) zeros_spec h₁ trivial trivial
  have hvals : s₂.val 0 = some (.ext 0, List.replicate n 97) ∧ s₂.val 1 = some (.ext 1, List.replicate 1 97) := by
    cases hs₁
    cases hs₂
    exact ⟨rfl, rfl⟩
  have ha := h₂.arg 0 _ hvals.1
  have hb := h₂.arg 1 _ hvals.2
  have hlen : (List.replicate n (97 : UInt8)).length + (List.replicate 1 (97 : UInt8)).length = n + 1 := by
    rw [length_replicate, length_replicate]
  have hconcat := StrMem.concat_build zeros ha hb
    (fun hnil => by have := congrArg List.length hnil; rw [length_replicate, List.length_nil] at this; omega)
    (fun hnil => by cases hnil) (by rw [hlen]; exact Nat.not_le.mpr hlong)
  obtain ⟨p, m', b, hbuild, hblock, hlive, hover⟩ := StrMem.build_overstates zeros_spec h₂.ok
    (StrMem.given_pair ha hb)
    (by rw [StrMem.joined_pair, length_append, hlen]) hhalf hmod hlt .lit
  rw [hlen] at hconcat
  have hrun' : ((step zeros (.ext (letters n)) {}).bind fun s => (step zeros (.ext (letters 1)) s).bind fun s =>
      (step zeros (.concat 0 1) s).bind some) = some s' := hrun
  rw [hs₁, bind_some, hs₂, bind_some] at hrun'
  simp only [step, hvals.1, hvals.2, hconcat, hbuild, bind_eq_bind, bind_some] at hrun'
  cases hrun'
  have hle := hintact.2 p b hblock hlive
  omega

end RtString

end Datara.Runtime
