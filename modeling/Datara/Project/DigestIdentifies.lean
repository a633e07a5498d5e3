import Datara.Library.Upsert
import Datara.Project.Digest

/-!
# What a package digest identifies

The Merkle root identifies the files (`sameOfMerkleRoot`). The plain digest concatenates paths and
contents without their lengths: it identifies a set of files exactly when that is at most one file,
whose content does not go on like another (`digests_identify_iff`).
-/

namespace Datara.Project

open Library
open List (append_assoc cons_append flatMap_cons mem_append_left mem_append_right mem_cons mem_cons_of_mem
  mem_cons_self mem_map mem_singleton)

/-! ## Maps of files -/

variable {f : Text × Text}

namespace FileMap

variable {F G : FileMap} {k v : Text}

theorem get?_eq_some : F.get? k = some v ↔ (k, v) ∈ F.entries := lookup_eq_some_iff F.nodup

theorem mem_sorted : f ∈ F.sorted ↔ f ∈ F.entries := by
  have hval : ∀ v, (f.1, v) ∈ F.entries → (F.get? f.1).getD [] = v := by
    intro v hv
    rw [get?_eq_some.mpr hv]
    rfl
  constructor
  · intro h
    obtain ⟨k, hk, rfl⟩ := mem_map.mp h
    obtain ⟨e, he, rfl⟩ := mem_map.mp ((List.mem_insertionSort _).mp hk)
    rw [hval e.2 he]
    exact he
  · intro h
    refine mem_map.mpr ⟨f.1, (List.mem_insertionSort _).mpr (List.mem_map_of_mem h), ?_⟩
    rw [hval f.2 h]

theorem sorted_keys : F.sorted.map Prod.fst = F.sortedKeys := by
  rw [sorted, List.map_map]
  exact List.map_id _

theorem length_sorted : F.sorted.length = F.entries.length := by
  rw [sorted, List.length_map, sortedKeys, List.length_insertionSort, List.length_map]

theorem nodup_sortedKeys : F.sortedKeys.Nodup :=
  (List.perm_insertionSort _ _).nodup_iff.mpr F.nodup

/-- The paths increase. -/
theorem pairwise_sorted : F.sorted.Pairwise fun e f => e.1 < f.1 := by
  have hle : F.sortedKeys.Pairwise (· ≤ ·) := List.pairwise_insertionSort _ _
  have hlt : F.sortedKeys.Pairwise (· < ·) :=
    (hle.and nodup_sortedKeys).imp fun h => lt_of_le_of_ne h.1 h.2
  rw [← sorted_keys] at hlt
  exact List.pairwise_map.mp hlt

/-- A map with the files of an increasing list. -/
def ofSorted (l : List (Text × Text)) (h : l.Pairwise fun e f => e.1 < f.1) : FileMap where
  entries := l
  nodup := (List.pairwise_map.mpr h).imp ne_of_lt

theorem sorted_ofSorted {l : List (Text × Text)} (h : l.Pairwise fun e f => e.1 < f.1) :
    (ofSorted l h).sorted = l := by
  have hkeys : (ofSorted l h).sortedKeys = l.map Prod.fst :=
    List.Pairwise.insertionSort_eq ((List.pairwise_map.mpr h).imp le_of_lt)
  have hval : ∀ e ∈ l, (e.1, ((ofSorted l h).get? e.1).getD []) = e := by
    intro e he
    have hget : (ofSorted l h).get? e.1 = some e.2 := get?_eq_some.mpr he
    rw [hget]
    rfl
  rw [sorted, hkeys, List.map_map]
  exact (List.map_congr_left hval).trans (List.map_id l)

theorem same_of_sorted (h : F.sorted.map (fun f => (f.1, normalizeNewlines f.2)) =
    G.sorted.map fun f => (f.1, normalizeNewlines f.2)) : F.Same G := by
  have hmem : ∀ {F : FileMap} {k c : Text}, (F.get? k).map normalizeNewlines = some c ↔
      (k, c) ∈ F.sorted.map fun f => (f.1, normalizeNewlines f.2) := by
    intro F k c
    rw [Option.map_eq_some_iff, mem_map]
    constructor
    · rintro ⟨v, hv, rfl⟩
      exact ⟨(k, v), mem_sorted.mpr (get?_eq_some.mp hv), rfl⟩
    · rintro ⟨f, hf, he⟩
      cases he
      exact ⟨f.2, get?_eq_some.mpr (mem_sorted.mp hf), rfl⟩
  intro k
  apply Option.ext
  intro c
  rw [hmem, hmem, h]

theorem Same.mem_keys (h : F.Same G) (hk : k ∈ F.entries.map Prod.fst) : k ∈ G.entries.map Prod.fst := by
  obtain ⟨f, hf, rfl⟩ := mem_map.mp hk
  have hget := h f.1
  rw [get?_eq_some.mpr hf] at hget
  obtain ⟨v, hv, -⟩ := Option.map_eq_some_iff.mp hget.symm
  exact mem_map.mpr ⟨(f.1, v), get?_eq_some.mp hv, rfl⟩

theorem Accepted.notMem (h : F.Accepted) (hf : f ∈ F.entries) : ':' ∉ f.1 := by
  obtain ⟨safe, hsafe⟩ := Option.isSome_iff_exists.mp (h f hf)
  obtain ⟨rfl, -, -, hcolon⟩ := sanitizePackageRelPath_eq_some hsafe
  intro hm
  exact hcolon (mem_map.mpr ⟨':', hm, rfl⟩)

end FileMap

/-! ## Parsing -/

/-- What stands before a separator it does not hold is told from what stands after. -/
theorem split_unique {sep : Char} {a b x y : Text} (ha : sep ∉ a) (hb : sep ∉ b)
    (h : a ++ sep :: x = b ++ sep :: y) : a = b ∧ x = y := by
  induction a generalizing b with
  | nil =>
    cases b with
    | nil => exact ⟨rfl, (List.cons.inj h).2⟩
    | cons c b =>
      obtain rfl := (List.cons.inj h).1
      exact absurd mem_cons_self hb
  | cons c a ih =>
    cases b with
    | nil =>
      obtain rfl := (List.cons.inj h).1
      exact absurd mem_cons_self ha
    | cons d b =>
      rw [cons_append, cons_append, List.cons.injEq] at h
      obtain ⟨rfl, hx⟩ := ih (fun hm => ha (mem_cons_of_mem _ hm))
        (fun hm => hb (mem_cons_of_mem _ hm)) h.2
      exact ⟨by rw [h.1], hx⟩

/-- Line endings that normalize to a given text. -/
def denormalize (t : Text) : Text := t.flatMap fun c => if c = '\n' then ['\r', '\n'] else [c]

theorem normalize_denormalize (t : Text) : normalizeNewlines (denormalize t) = t := by
  induction t with
  | nil => rfl
  | cons c t ih =>
    rw [denormalize, flatMap_cons, ← denormalize]
    by_cases hc : c = '\n'
    · subst hc
      show '\n' :: normalizeNewlines (denormalize t) = _
      rw [ih]
    · rw [if_neg hc]
      have hhead : (denormalize t).head? ≠ some '\n' := by
        cases t with
        | nil => simp [denormalize]
        | cons d t =>
          rw [denormalize, flatMap_cons]
          split <;> simp_all
      show normalizeNewlines (c :: denormalize t) = c :: t
      rw [normalizeNewlines, ih]
      rintro rest rfl he
      rw [he] at hhead
      exact hhead rfl

theorem notMem_toString (n : Nat) : ':' ∉ (toString n).toList := by
  intro h
  rw [Nat.toString_eq_repr, Nat.toList_repr] at h
  have hdigit := Nat.isDigit_of_mem_toDigits (by decide) (by decide) h
  exact absurd hdigit (by decide)

/-- The part between a fixed text and the first colon. -/
theorem split_lead {lead a b x y : Text} (ha : ':' ∉ a) (hb : ':' ∉ b)
    (h : lead ++ a ++ ':' :: x = lead ++ b ++ ':' :: y) : a = b ∧ x = y := by
  rw [append_assoc, append_assoc, List.append_cancel_left_eq] at h
  exact split_unique ha hb h

theorem leafInput_inj {e f : Text × Text} (he : ':' ∉ e.1) (hf : ':' ∉ f.1)
    (h : leafInput e = leafInput f) :
    e.1 = f.1 ∧ normalizeNewlines e.2 = normalizeNewlines f.2 := by
  obtain ⟨hk, hrest⟩ := split_lead he hf h
  exact ⟨hk, (split_unique (notMem_toString _) (notMem_toString _) hrest).2⟩

theorem nodeInput_inj {a b c d : Text} (ha : ':' ∉ a) (hc : ':' ∉ c)
    (h : nodeInput a b = nodeInput c d) : a = c ∧ b = d := by
  exact split_lead ha hc h

theorem head_append_append {a b x : Text} {c : Char} (h : a.head? = some c) : (a ++ b ++ x).head? = some c := by
  rw [List.head?_append, List.head?_append, h]
  rfl

theorem head_leafInput (f : Text × Text) : (leafInput f).head? = some 'l' := by
  apply head_append_append
  exact congrArg List.head? (String.toList_ofList (l := ['l', 'e', 'a', 'f', ':']))

theorem head_nodeInput (a b : Text) : (nodeInput a b).head? = some 'n' := by
  apply head_append_append
  exact congrArg List.head? (String.toList_ofList (l := ['n', 'o', 'd', 'e', ':']))

theorem leafInput_ne_nodeInput (f : Text × Text) (a b : Text) : leafInput f ≠ nodeInput a b := by
  intro h
  have hhead : (leafInput f).head? = (nodeInput a b).head? := congrArg List.head? h
  rw [head_leafInput, head_nodeInput] at hhead
  exact absurd hhead (by decide)

/-! ## The Merkle root -/

section
variable {H : Hash} {F G : FileMap}

theorem leafInput_mem (hf : f ∈ F.sorted) : leafInput f ∈ H.messages F :=
  mem_cons_of_mem _ (mem_cons_of_mem _ (mem_append_left _ (List.mem_map_of_mem hf)))

theorem nodeInput_mem {p : Text × Text} (hp : p ∈ Merkle.nodesOf H.node (H.leaves F)) :
    nodeInput p.1 p.2 ∈ H.messages F :=
  mem_cons_of_mem _ (mem_cons_of_mem _ (mem_append_right _
    (mem_map.mpr ⟨p, hp, rfl⟩)))

theorem leaf_hex {x : Text} (h : x ∈ H.leaves F) : ':' ∉ x := by
  obtain ⟨f, -, rfl⟩ := mem_map.mp h
  exact H.hex _

theorem leaves_ne_nil (h : F.entries ≠ []) : H.leaves F ≠ [] := by
  intro he
  have hlen := congrArg List.length he
  rw [Hash.leaves, List.length_map, FileMap.length_sorted] at hlen
  exact h (List.eq_nil_of_length_eq_zero hlen)

theorem top_message (h : F.entries ≠ []) :
    ∃ m ∈ H.messages F, m ≠ [] ∧ Merkle.top H.node (H.leaves F) = [H.hexdigest m] := by
  obtain ⟨x, hx⟩ := List.length_eq_one_iff.mp (Merkle.length_top H.node (leaves_ne_nil (H := H) h))
  rcases Merkle.mem_top H.node (hx ▸ List.mem_singleton_self x) with hmem | ⟨p, hp, rfl⟩
  · obtain ⟨f, hf, rfl⟩ := mem_map.mp hmem
    exact ⟨leafInput f, leafInput_mem hf, List.ne_nil_of_mem (List.mem_of_mem_head? (head_leafInput f)), hx⟩
  · exact ⟨nodeInput p.1 p.2, nodeInput_mem hp, List.ne_nil_of_mem (List.mem_of_mem_head? (head_nodeInput _ _)), hx⟩

/-- **The Merkle root identifies the files.** -/
theorem same_of_merkleRoot (hF : F.Accepted) (hG : G.Accepted)
    (hfree : H.CollisionFree (H.messages F ++ H.messages G))
    (h : H.computeMerkleRoot F = H.computeMerkleRoot G) : F.Same G := by
  have noEmpty : ∀ m ∈ H.messages F ++ H.messages G, m ≠ [] → H.hexdigest m ≠ emptyDigest := by
    intro m hm hne he
    refine hne (hfree m hm [] (mem_append_left _ mem_cons_self) ?_)
    rw [he, H.empty]
  by_cases hFe : F.entries = []
  · by_cases hGe : G.entries = []
    · intro k
      simp [FileMap.get?, hFe, hGe]
    · obtain ⟨m, hm, hne, htop⟩ := top_message (H := H) hGe
      rw [Hash.computeMerkleRoot, Hash.computeMerkleRoot, if_pos hFe, if_neg hGe, htop,
        List.append_cancel_left_eq] at h
      exact absurd h.symm (noEmpty m (mem_append_right _ hm) hne)
  by_cases hGe : G.entries = []
  · obtain ⟨m, hm, hne, htop⟩ := top_message (H := H) hFe
    rw [Hash.computeMerkleRoot, Hash.computeMerkleRoot, if_neg hFe, if_pos hGe, htop,
      List.append_cancel_left_eq] at h
    exact absurd h (noEmpty m (mem_append_left _ hm) hne)
  -- two trees
  have hroot : Merkle.top H.node (H.leaves F) = Merkle.top H.node (H.leaves G) := by
    obtain ⟨m, -, -, htop⟩ := top_message (H := H) hFe
    obtain ⟨m', -, -, htop'⟩ := top_message (H := H) hGe
    rw [Hash.computeMerkleRoot, Hash.computeMerkleRoot, if_neg hFe, if_neg hGe, htop, htop',
      List.append_cancel_left_eq] at h
    rw [htop, htop']
    exact congrArg (fun x => [x]) h
  let formed : Text × Text → Prop := fun p =>
    p ∈ Merkle.nodesOf H.node (H.leaves F) ∨ p ∈ Merkle.nodesOf H.node (H.leaves G)
  have nodeMem : ∀ p, formed p → nodeInput p.1 p.2 ∈ H.messages F ++ H.messages G := by
    rintro p (hp | hp)
    · exact mem_append_left _ (nodeInput_mem hp)
    · exact mem_append_right _ (nodeInput_mem hp)
  have childHex : ∀ p, formed p → ':' ∉ p.1 := by
    have main : ∀ {F : FileMap} (p), p ∈ Merkle.nodesOf H.node (H.leaves F) → ':' ∉ p.1 := by
      intro F p hp
      rcases Merkle.mem_nodesOf H.node hp with hm | ⟨q, -, hq⟩
      · exact leaf_hex hm
      · rw [hq]
        exact H.hex _
    rintro p (hp | hp)
    · exact main p hp
    · exact main p hp
  have hnode : ∀ p, formed p → ∀ q, formed q → H.node p.1 p.2 = H.node q.1 q.2 → p = q := by
    intro p hp q hq he
    have hmsg := hfree _ (nodeMem p hp) _ (nodeMem q hq) he
    exact Prod.ext_iff.mpr (nodeInput_inj (childHex p hp) (childHex q hq) hmsg)
  let leaf : Text → Prop := fun x => x ∈ H.leaves F ∨ x ∈ H.leaves G
  have leafMem : ∀ x, leaf x →
      ∃ f, leafInput f ∈ H.messages F ++ H.messages G ∧ x = H.hexdigest (leafInput f) := by
    rintro x (hx | hx)
    · obtain ⟨f, hf, rfl⟩ := mem_map.mp hx
      exact ⟨f, mem_append_left _ (leafInput_mem hf), rfl⟩
    · obtain ⟨f, hf, rfl⟩ := mem_map.mp hx
      exact ⟨f, mem_append_right _ (leafInput_mem hf), rfl⟩
  have hleaf : ∀ x, leaf x → ∀ p, formed p → x ≠ H.node p.1 p.2 := by
    rintro x hx p hp he
    obtain ⟨f, hf, rfl⟩ := leafMem x hx
    exact leafInput_ne_nodeInput _ _ _ (hfree _ hf _ (nodeMem p hp) he)
  -- the message of a leaf tells its file, so two files have two leaves
  have hinj : ∀ {F' : FileMap}, F'.Accepted → H.messages F' ⊆ H.messages F ++ H.messages G →
      ∀ {G' : FileMap}, G'.Accepted → H.messages G' ⊆ H.messages F ++ H.messages G →
      ∀ e ∈ F'.sorted, ∀ f ∈ G'.sorted, H.hexdigest (leafInput e) = H.hexdigest (leafInput f) →
        (e.1, normalizeNewlines e.2) = (f.1, normalizeNewlines f.2) := by
    intro F' hF' hsubF G' hG' hsubG e he f hf hh
    have hmsg := hfree _ (hsubF (leafInput_mem he)) _ (hsubG (leafInput_mem hf)) hh
    exact Prod.ext_iff.mpr (leafInput_inj (hF'.notMem (FileMap.mem_sorted.mp he))
      (hG'.notMem (FileMap.mem_sorted.mp hf)) hmsg)
  have hnodup : ∀ {F' : FileMap}, F'.Accepted → H.messages F' ⊆ H.messages F ++ H.messages G →
      (H.leaves F').Nodup := by
    intro F' hF' hsub
    have hkeys : (F'.sorted.map Prod.fst).Nodup := FileMap.sorted_keys ▸ FileMap.nodup_sortedKeys
    refine List.Nodup.map_on (fun e he f hf hh => ?_) (List.Nodup.of_map _ hkeys)
    exact List.inj_on_of_nodup_map hkeys he hf (Prod.mk.inj (hinj hF' hsub hF' hsub e he f hf hh)).1
  have hsubF : H.messages F ⊆ H.messages F ++ H.messages G := List.subset_append_left _ _
  have hsubG : H.messages G ⊆ H.messages F ++ H.messages G := List.subset_append_right _ _
  have hleaves : H.leaves F = H.leaves G :=
    Merkle.top_injective hnode hleaf
      (leaves_ne_nil hFe) (leaves_ne_nil hGe) (hnodup hF hsubF) (hnodup hG hsubG)
      (fun x hx => .inl hx) (fun x hx => .inr hx) (fun p hp => .inl hp) (fun p hp => .inr hp) hroot
  apply FileMap.same_of_sorted
  exact Merkle.map_eq_map_of (hinj hF hsubF hG hsubG) hleaves

end

/-! ## The plain digest -/

section
variable {H : Hash} {F G : FileMap}

theorem digestPart_ne_nil (f : Text × Text) : digestPart f ≠ [] := by simp [digestPart]

/-- **A single file that goes on like no other is identified.** -/
theorem same_of_digestInput (hG : G.Accepted) (hF : F.Accepted) (hself : F.SelfDelimiting)
    (h : digestInput F = digestInput G) : F.Same G := by
  apply FileMap.same_of_sorted
  cases hsF : F.sorted with
  | nil =>
    rw [digestInput, digestInput, hsF, List.flatMap_nil] at h
    cases hsG : G.sorted with
    | nil => rfl
    | cons g rest =>
      rw [hsG, flatMap_cons] at h
      exact absurd (List.append_eq_nil_iff.mp h.symm).1 (digestPart_ne_nil g)
  | cons f restF =>
    obtain rfl : restF = [] := by
      have hlen := hself.1
      rw [← FileMap.length_sorted, hsF, List.length_cons] at hlen
      exact List.eq_nil_of_length_eq_zero (by omega)
    have hf : f ∈ F.entries := FileMap.mem_sorted.mp (hsF ▸ mem_cons_self)
    rw [digestInput, digestInput, hsF, flatMap_cons, List.flatMap_nil, List.append_nil] at h
    cases hsG : G.sorted with
    | nil =>
      rw [hsG] at h
      exact absurd h (digestPart_ne_nil f)
    | cons g rest =>
      have hg : g ∈ G.entries := FileMap.mem_sorted.mp (hsG ▸ mem_cons_self)
      rw [hsG, flatMap_cons, digestPart, digestPart, append_assoc, cons_append] at h
      obtain ⟨hk, hc⟩ := split_unique (hF.notMem hf) (hG.notMem hg) h
      cases rest with
      | nil =>
        rw [List.flatMap_nil, List.append_nil, List.append_cancel_right_eq] at hc
        rw [List.map_singleton, List.map_singleton, hk, hc]
      | cons e rest =>
        -- the second file of `G` would begin inside the content of `f`
        exfalso
        have hmem : e ∈ G.sorted := hsG ▸ mem_cons_of_mem _ mem_cons_self
        obtain ⟨b, c, hb⟩ : ∃ b c, normalizeNewlines e.2 ++ [';'] ++ rest.flatMap digestPart =
            b ++ [c] := by
          rcases List.eq_nil_or_concat (normalizeNewlines e.2 ++ [';'] ++ rest.flatMap digestPart)
            with hnil | ⟨b, c, hb⟩
          · simp at hnil
          · exact ⟨b, c, by rw [hb, List.concat_eq_append]⟩
        have hsplit : normalizeNewlines f.2 ++ [';'] =
            (normalizeNewlines g.2 ++ ';' :: (e.1 ++ ':' :: b)) ++ [c] := by
          rw [hc, flatMap_cons, digestPart]
          simp only [append_assoc, cons_append, List.nil_append] at hb ⊢
          rw [hb]
        have hle := hself.2 f hf _ e.1 b (List.append_inj_left' hsplit rfl)
          (hG e (FileMap.mem_sorted.mp hmem))
        have hlt : g.1 < e.1 := by
          have hpair := G.pairwise_sorted
          rw [hsG] at hpair
          exact (List.pairwise_cons.mp hpair).1 e mem_cons_self
        exact absurd hle (not_le_of_gt (hk ▸ hlt))

theorem Hash.computeDigest_eq_iff :
    H.computeDigest F = H.computeDigest G ↔
      H.hexdigest (digestInput F) = H.hexdigest (digestInput G) :=
  ⟨fun h => List.append_cancel_left h, fun h => congrArg ("sha256:".toList ++ ·) h⟩

/-- The text in unary, character by character. -/
def unary (m : Text) : Text := m.flatMap fun c => List.replicate c.toNat '0' ++ ['1']

theorem unary_injective {m m' : Text} (h : unary m = unary m') : m = m' := by
  induction m generalizing m' with
  | nil =>
    cases m' with
    | nil => rfl
    | cons c m' => simp [unary] at h
  | cons c m ih =>
    cases m' with
    | nil => simp [unary] at h
    | cons d m' =>
      have hzeros : ∀ n, '1' ∉ List.replicate n '0' := fun n hm =>
        absurd (List.eq_of_mem_replicate hm) (by decide)
      simp only [unary, flatMap_cons, append_assoc, List.singleton_append] at h
      obtain ⟨hn, hrest⟩ := split_unique (hzeros _) (hzeros _) h
      have hcd : c.toNat = d.toNat := by simpa using congrArg List.length hn
      rw [Char.toNat_inj.mp hcd, ih hrest]

/-- A hash without collisions. -/
def Hash.unary : Hash where
  hexdigest m := if m = [] then emptyDigest else Project.unary m
  hex m := by
    by_cases hm : m = []
    · rw [if_pos hm]
      decide
    · rw [if_neg hm]
      intro h
      obtain ⟨c, -, hc⟩ := List.mem_flatMap.mp h
      rcases List.mem_append.mp hc with hc | hc
      · exact absurd (List.eq_of_mem_replicate hc) (by decide)
      · exact absurd (mem_singleton.mp hc) (by decide)
  empty := rfl

theorem Hash.unary_collisionFree (ms : List Text) : Hash.unary.CollisionFree ms := by
  have hne : ∀ m : Text, m ≠ [] → Project.unary m ≠ emptyDigest := by
    intro m hm he
    obtain ⟨c, m, rfl⟩ := List.exists_cons_of_ne_nil hm
    have hhead := congrArg List.head? he
    rw [Project.unary, flatMap_cons] at hhead
    cases hn : c.toNat with
    | zero =>
      rw [hn] at hhead
      have hhead : some '1' = some 'e' := hhead
      exact absurd hhead (by decide)
    | succ n =>
      rw [hn, List.replicate_succ] at hhead
      have hhead : some '0' = some 'e' := hhead
      exact absurd hhead (by decide)
  intro x _ y _ h
  simp only [Hash.unary] at h
  split_ifs at h with hx hy hy
  · rw [hx, hy]
  · exact absurd h.symm (hne y hy)
  · exact absurd h (hne x hx)
  · exact unary_injective h

/-- Two files share their digest with one file that holds both. -/
theorem exists_merged (hF : F.Accepted) (h : ¬F.entries.length ≤ 1) :
    ∃ G : FileMap, G.Accepted ∧ digestInput F = digestInput G ∧ ¬F.Same G := by
  have hpair := F.pairwise_sorted
  match hs : F.sorted with
  | [] => exact absurd (by rw [← FileMap.length_sorted, hs]; simp) h
  | [_] => exact absurd (by rw [← FileMap.length_sorted, hs]; simp) h
  | e :: f :: rest =>
    rw [hs, List.pairwise_cons, List.pairwise_cons] at hpair
    obtain ⟨hle, hlf, hrest⟩ := hpair
    let merged : Text × Text :=
      (e.1, denormalize (normalizeNewlines e.2 ++ ';' :: (f.1 ++ ':' :: normalizeNewlines f.2)))
    have hmerged : (merged :: rest).Pairwise fun a b => a.1 < b.1 :=
      List.pairwise_cons.mpr ⟨fun x hx => hle x (mem_cons_of_mem _ hx), hrest⟩
    have hmem : ∀ x ∈ F.sorted, (sanitizePackageRelPath x.1).isSome := fun x hx =>
      hF x (FileMap.mem_sorted.mp hx)
    refine ⟨FileMap.ofSorted _ hmerged, ?_, ?_, ?_⟩
    · intro x hx
      rcases mem_cons.mp hx with rfl | hx
      · exact hmem e (hs ▸ mem_cons_self)
      · exact hmem x (hs ▸ mem_cons_of_mem _ (mem_cons_of_mem _ hx))
    · rw [digestInput, digestInput, hs, FileMap.sorted_ofSorted]
      simp [digestPart, merged, normalize_denormalize]
    · intro hsame
      have hf : f.1 ∈ F.entries.map Prod.fst :=
        List.mem_map_of_mem (FileMap.mem_sorted.mp (hs ▸ mem_cons_of_mem _ mem_cons_self))
      obtain ⟨x, hx, hxf⟩ := mem_map.mp (hsame.mem_keys hf)
      rcases mem_cons.mp hx with rfl | hx
      · exact absurd hxf (ne_of_lt (hle f mem_cons_self))
      · exact absurd hxf.symm (ne_of_lt (hlf x hx))

/-- A file that goes on like another shares its digest with the two. -/
theorem exists_parted (hF : F.Accepted) (hlen : F.entries.length ≤ 1)
    (hf : f ∈ F.entries) {a p b : Text}
    (hsplit : normalizeNewlines f.2 = a ++ ';' :: (p ++ ':' :: b))
    (hp : (sanitizePackageRelPath p).isSome) (hlt : f.1 < p) :
    ∃ G : FileMap, G.Accepted ∧ digestInput F = digestInput G ∧ ¬F.Same G := by
  have hentries : F.entries = [f] := by
    match he : F.entries, hlen, hf with
    | [x], _, hf => rw [mem_singleton.mp hf]
  have hs : F.sorted = [f] := by
    have hlen : F.sorted.length = 1 := by rw [FileMap.length_sorted, hentries]; rfl
    obtain ⟨x, hx⟩ := List.length_eq_one_iff.mp hlen
    have hmem : x ∈ F.entries := FileMap.mem_sorted.mp (hx ▸ List.mem_singleton_self x)
    rw [hentries, mem_singleton] at hmem
    rw [hx, hmem]
  have hparted : [(f.1, denormalize a), (p, denormalize b)].Pairwise fun a b => a.1 < b.1 := by
    simpa using hlt
  refine ⟨FileMap.ofSorted _ hparted, ?_, ?_, ?_⟩
  · intro x hx
    rcases mem_cons.mp hx with rfl | hx
    · exact hF f hf
    · rw [mem_singleton.mp hx]
      exact hp
  · rw [digestInput, digestInput, hs, FileMap.sorted_ofSorted]
    simp [digestPart, hsplit, normalize_denormalize]
  · intro hsame
    have hpG : p ∈ (FileMap.ofSorted _ hparted).entries.map Prod.fst := by
      show p ∈ [f.1, p]
      simp
    have hback : (FileMap.ofSorted _ hparted).Same F := fun k => (hsame k).symm
    have hpF := hback.mem_keys hpG
    rw [hentries] at hpF
    exact absurd (mem_singleton.mp hpF).symm (ne_of_lt hlt)

end

/-- **What the digests identify.** The Merkle root identifies every accepted set of files, and the
plain digest exactly the ones of at most one file that does not go on like another; that is so for
every hash that has no collision on the messages. -/
theorem digests_identify_iff (F : FileMap) (hF : F.Accepted) :
    (∀ (H : Hash) (G : FileMap), G.Accepted → H.CollisionFree (H.messages F ++ H.messages G) →
      (H.computeDigest F = H.computeDigest G → F.Same G) ∧
        (H.computeMerkleRoot F = H.computeMerkleRoot G → F.Same G)) ↔ F.SelfDelimiting := by
  have refuted : ∀ G : FileMap, G.Accepted → digestInput F = digestInput G → ¬F.Same G →
      ¬∀ (H : Hash) (G : FileMap), G.Accepted → H.CollisionFree (H.messages F ++ H.messages G) →
        (H.computeDigest F = H.computeDigest G → F.Same G) ∧
          (H.computeMerkleRoot F = H.computeMerkleRoot G → F.Same G) := by
    intro G hG hinput hsame h
    have hid := (h Hash.unary G hG (Hash.unary_collisionFree _)).1
    exact hsame (hid (Hash.computeDigest_eq_iff.mpr (congrArg _ hinput)))
  constructor
  · intro h
    by_contra hself
    rw [FileMap.SelfDelimiting, not_and_or] at hself
    by_cases hlen : F.entries.length ≤ 1
    · have hgoes := hself.resolve_left (not_not.mpr hlen)
      simp only [not_forall] at hgoes
      obtain ⟨f, hf, a, p, b, hsplit, hp, hle⟩ := hgoes
      obtain ⟨G, hG, hinput, hsame⟩ := exists_parted hF hlen hf hsplit hp (lt_of_not_ge hle)
      exact refuted G hG hinput hsame h
    · obtain ⟨G, hG, hinput, hsame⟩ := exists_merged hF hlen
      exact refuted G hG hinput hsame h
  · intro hself H G hG hfree
    refine ⟨fun h => ?_, same_of_merkleRoot hF hG hfree⟩
    rw [Hash.computeDigest_eq_iff] at h
    refine same_of_digestInput hG hF hself (hfree _ ?_ _ ?_ h)
    · exact mem_append_left _ (mem_cons_of_mem _ mem_cons_self)
    · exact mem_append_right _ (mem_cons_of_mem _ mem_cons_self)

/-- SHA-256 of four messages. -/
def sha256Samples : List (Text × Text) :=
  [("a:x;".toList,
      "7f94f701e3415c097e1ae6bea2116b8d116580d2b6eddfb4023bde0d6f1e9dc0".toList),
    ("leaf:a:1:x".toList,
      "df2730f613f0146d6ec7725f85e70665154c16596de20a4074ec5604756407a2".toList),
    ("b:x;".toList,
      "d6e0a2c5d03a296ecc49eada0a3bc1412aefe5c66149edb8aecbc40321a7db93".toList),
    ("leaf:b:1:x".toList,
      "298adcb43e8867da5afec596def1f60d2ca35f0728e2c3c640db0ead34056007".toList)]

theorem not_mem_ofList {c : Char} {l : Text} (h : c ∉ l) : c ∉ (String.ofList l).toList := by
  rwa [String.toList_ofList]

/-- SHA-256 on the four messages and on the empty one. -/
def Hash.sample : Hash where
  hexdigest m := ((sha256Samples.lookup m).getD (Hash.unary.hexdigest m))
  hex m := by
    cases hm : sha256Samples.lookup m with
    | none => exact Hash.unary.hex m
    | some d =>
      obtain ⟨l, r, htable, -⟩ := List.lookup_eq_some_iff.mp hm
      have hall : ∀ e ∈ sha256Samples, ':' ∉ e.2 := by
        intro e he
        simp only [sha256Samples, mem_cons, List.not_mem_nil, or_false] at he
        rcases he with rfl | rfl | rfl | rfl
        all_goals
          exact not_mem_ofList (by decide)
      exact hall (m, d) (htable ▸ mem_append_right _ mem_cons_self)
  empty := rfl

/-- One file with the content `x`. -/
def FileMap.oneFile (name : Char) : FileMap := ⟨[([name], ['x'])], by simp⟩

theorem messages_oneFile (H : Hash) (name : Char) : H.messages (.oneFile name) =
    [[], name :: ":x;".toList, "leaf:".toList ++ name :: ":1:x".toList] := by
  have hsorted : (FileMap.oneFile name).sorted = [([name], ['x'])] := by
    simp [FileMap.sorted, FileMap.sortedKeys, FileMap.get?, FileMap.oneFile]
  have hline : normalizeNewlines ['x'] = ['x'] := by decide
  have hdigits : (toString (utf8Length (normalizeNewlines ['x']))).toList = ['1'] := by
    rw [Nat.toString_eq_repr, Nat.toList_repr, hline]
    decide
  have hpart : digestPart ([name], ['x']) = name :: ":x;".toList :=
    congrArg (name :: ·) (String.toList_ofList (l := [':', 'x', ';'])).symm
  have hleaf : leafInput ([name], ['x']) = "leaf:".toList ++ name :: ":1:x".toList := by
    refine (append_assoc _ _ _).trans (congrArg (_ ++ name :: ·) ?_)
    refine Eq.trans ?_ (String.toList_ofList (l := [':', '1', ':', 'x'])).symm
    exact congrArg (':' :: ·) (congrArg₂ (· ++ ':' :: ·) hdigits hline)
  rw [Hash.messages, Hash.leaves, digestInput, hsorted, Merkle.nodesOf, if_pos (by simp), List.map_singleton,
    List.flatMap_singleton, hpart, hleaf]
  rfl

/-- Its content does not go on like another file. -/
theorem digests_identify_oneFile :
    (FileMap.oneFile 'a').SelfDelimiting ∧
      (Hash.sample.computeDigest (.oneFile 'a') = Hash.sample.computeDigest (.oneFile 'b') →
        (FileMap.oneFile 'a').Same (.oneFile 'b')) := by
  have hself : (FileMap.oneFile 'a').SelfDelimiting := by
    refine ⟨by decide, fun f hf a p b he _ => ?_⟩
    obtain rfl := mem_singleton.mp hf
    have hmem : ';' ∈ normalizeNewlines ['x'] := he ▸ mem_append_right _ mem_cons_self
    exact absurd hmem (by decide)
  refine ⟨hself,
    ((digests_identify_iff (.oneFile 'a') (by decide)).mpr hself Hash.sample _ (by decide) ?_).1⟩
  rw [messages_oneFile, messages_oneFile]
  decide +kernel

/-- The plain digest does not identify files: `x;b:y` in `a` is `x` in `a` and `y` in `b`. -/
theorem digests_not_identify :
    ¬∀ (H : Hash) (F G : FileMap), F.Accepted → G.Accepted →
      H.CollisionFree (H.messages F ++ H.messages G) →
        (H.computeDigest F = H.computeDigest G → F.Same G) ∧
          (H.computeMerkleRoot F = H.computeMerkleRoot G → F.Same G) := by
  intro h
  have hsame := (h Hash.unary ⟨[(['a'], "x;b:y".toList)], by decide⟩
    ⟨[(['a'], ['x']), (['b'], ['y'])], by decide⟩ (by decide) (by decide)
    (Hash.unary_collisionFree _)).1
    (Hash.computeDigest_eq_iff.mpr (congrArg _ (by decide)))
  exact absurd (hsame ['b']) (by decide)

end Datara.Project
