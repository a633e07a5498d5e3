import Mathlib.Data.List.Basic
import Mathlib.Logic.Relation

/-!
# A depth-first walk that checks what it meets

A walk goes from a node to what it leads to, with one set of keys of the nodes it has been to, and stops with `false` at the
first node that is refused. It comes to an end because only nodes with a key of a finite list lead anywhere. Where a key tells
the node, the walk is `true` exactly when no node that can be reached is refused, cycles or not (`visit_eq_true_iff`): a node
that is passed over as met is either checked already or being checked further up.
-/

namespace Datara.Library.CheckedWalk

universe u v

variable {α : Type u} {κ : Type v} [DecidableEq κ]

/-- The nodes a node leads to one after the other; `none` is one that is refused without being looked at. -/
def walkAll (visit : α → List κ → Option (Bool × List κ)) : List (Option α) → List κ → Option (Bool × List κ)
  | [], visited => some (true, visited)
  | none :: _, visited => some (false, visited)
  | some a :: rest, visited =>
    match visit a visited with
    | some (true, visited') => walkAll visit rest visited'
    | r => r

/-- The walk from a node; `succ` refuses it or tells what it leads to. -/
def visit (key : α → κ) (succ : α → Option (List (Option α))) : Nat → α → List κ → Option (Bool × List κ)
  | 0, _, _ => none
  | fuel + 1, a, visited =>
    if key a ∈ visited then some (true, visited)
    else
      match succ a with
      | none => some (false, key a :: visited)
      | some next => walkAll (visit key succ fuel) next (key a :: visited)

variable {key : α → κ} {succ : α → Option (List (Option α))} {a b : α} {visited visited' : List κ} {next : List (Option α)}
  {fuel : Nat}

/-- One node leads to another. -/
def LeadsTo (succ : α → Option (List (Option α))) (a b : α) : Prop := ∃ next, succ a = some next ∧ some b ∈ next

def Reach (succ : α → Option (List (Option α))) : α → α → Prop := Relation.ReflTransGen (LeadsTo succ)

/-- A node that is not refused, nor anything right behind it without being looked at. -/
def Passes (succ : α → Option (List (Option α))) (a : α) : Prop := ∃ next, succ a = some next ∧ none ∉ next

/-! ## What has been met stays met -/

variable {r : Bool}

theorem walkAll_grows
    (ih : ∀ a visited r visited', visit key succ fuel a visited = some (r, visited') → ∀ k ∈ visited, k ∈ visited') :
    ∀ (next : List (Option α)) (visited visited' : List κ),
      walkAll (visit key succ fuel) next visited = some (r, visited') → ∀ k ∈ visited, k ∈ visited' := by
  intro next
  induction next with
  | nil =>
    intro visited visited' h k hk
    cases h
    exact hk
  | cons o rest ihrest =>
    intro visited visited' h k hk
    cases o with
    | none =>
      cases h
      exact hk
    | some a =>
      rw [walkAll] at h
      split at h
      case h_1 mid hmid => exact ihrest mid visited' h k (ih a visited true mid hmid k hk)
      case h_2 => exact ih a visited r visited' h k hk

theorem visit_grows (h : visit key succ fuel a visited = some (r, visited')) : ∀ k ∈ visited, k ∈ visited' := by
  induction fuel generalizing a visited r visited' with
  | zero => simp [visit] at h
  | succ fuel ih =>
    rw [visit] at h
    split at h
    · cases h
      exact fun k hk => hk
    · intro k hk
      split at h
      · cases h
        exact List.mem_cons_of_mem _ hk
      · exact walkAll_grows (fun _ _ _ _ => ih) _ _ _ h k (List.mem_cons_of_mem _ hk)

/-! ## It comes to an end -/

/-- The keys that are still to be met. -/
def ahead (keys visited : List κ) : Nat := (keys.filter (· ∉ visited)).length

variable {keys : List κ}

theorem ahead_mono (h : ∀ k ∈ visited, k ∈ visited') : ahead keys visited' ≤ ahead keys visited := by
  refine (List.monotone_filter_right keys fun k hk => ?_).length_le
  simp only [decide_eq_true_eq] at hk ⊢
  exact fun hin => hk (h k hin)

theorem ahead_cons {k : κ} (hk : k ∈ keys) (hnew : k ∉ visited) :
    ahead keys (k :: visited) < ahead keys visited := by
  have hmem : k ∈ keys.filter (· ∉ visited) := List.mem_filter.mpr ⟨hk, by simpa using hnew⟩
  have hsplit : keys.filter (· ∉ k :: visited) = (keys.filter (· ∉ visited)).filter (· ≠ k) := by
    rw [List.filter_filter]
    refine List.filter_congr fun x _ => ?_
    simp
  rw [ahead, ahead, hsplit]
  exact List.length_filter_lt_length_iff_exists.mpr ⟨k, hmem, by simp⟩

theorem walkAll_isSome
    (ih : ∀ a visited, ahead keys visited < fuel → (visit key succ fuel a visited).isSome) :
    ∀ (next : List (Option α)) (visited : List κ), ahead keys visited < fuel →
      (walkAll (visit key succ fuel) next visited).isSome := by
  intro next
  induction next with
  | nil => exact fun _ _ => rfl
  | cons o rest ihrest =>
    intro visited hlt
    cases o with
    | none => rfl
    | some a =>
      rw [walkAll]
      split
      case h_1 mid hmid => exact ihrest mid (Nat.lt_of_le_of_lt (ahead_mono (visit_grows hmid)) hlt)
      case h_2 => exact ih a visited hlt

/-- Only the nodes with a key of a list lead anywhere, so the walk needs no more rounds than the list has keys. -/
theorem visit_isSome (hkeys : ∀ a, (succ a).isSome → key a ∈ keys) (h : ahead keys visited < fuel) :
    (visit key succ fuel a visited).isSome := by
  induction fuel generalizing a visited with
  | zero => omega
  | succ fuel ih =>
    rw [visit]
    split
    · rfl
    case isFalse hnew =>
      split
      · rfl
      case h_2 next hnext =>
        have hlt := ahead_cons (hkeys a (by rw [hnext]; rfl)) hnew
        exact walkAll_isSome (fun _ _ => ih) _ _ (by omega)

/-- More rounds change nothing. -/
theorem visit_mono {r : Bool × List κ} (h : visit key succ fuel a visited = some r) :
    visit key succ (fuel + 1) a visited = some r := by
  induction fuel generalizing a visited r with
  | zero => simp [visit] at h
  | succ fuel ih =>
    rw [visit] at h ⊢
    split
    case isTrue hin => rwa [if_pos hin] at h
    case isFalse hnew =>
      rw [if_neg hnew] at h
      cases hnext : succ a with
      | none => rwa [hnext] at h
      | some next =>
        rw [hnext] at h
        have hall : ∀ (rest : List (Option α)) (visited : List κ), walkAll (visit key succ fuel) rest visited = some r →
            walkAll (visit key succ (fuel + 1)) rest visited = some r := by
          intro rest
          induction rest with
          | nil => exact fun _ h => h
          | cons o rest ihrest =>
            intro visited hrest
            cases o with
            | none => exact hrest
            | some b =>
              rw [walkAll] at hrest ⊢
              cases hb : visit key succ fuel b visited with
              | none => simp [hb] at hrest
              | some s =>
                rw [ih hb]
                rw [hb] at hrest
                obtain ⟨ok, mid⟩ := s
                cases ok with
                | false => exact hrest
                | true => exact ihrest mid hrest
        exact hall next _ h

theorem visit_of_le {r : Bool × List κ} {more : Nat} (h : visit key succ fuel a visited = some r) (hle : fuel ≤ more) :
    visit key succ more a visited = some r := by
  induction hle with
  | refl => exact h
  | step _ ih => exact visit_mono ih

/-! ## What a walk has checked -/

/-- A key stands for a node that passes, and what it leads to has been met. -/
def Checked (key : α → κ) (succ : α → Option (List (Option α))) (a : α) (visited : List κ) (k : κ) : Prop :=
  ∃ b next, Reach succ a b ∧ key b = k ∧ succ b = some next ∧ ∀ o ∈ next, ∃ c, o = some c ∧ key c ∈ visited

omit [DecidableEq κ] in
theorem Checked.mono {k : κ} (h : Checked key succ a visited k) (hsub : ∀ k ∈ visited, k ∈ visited') :
    Checked key succ a visited' k := by
  obtain ⟨b, next, hreach, hk, hnext, hall⟩ := h
  refine ⟨b, next, hreach, hk, hnext, fun o ho => ?_⟩
  obtain ⟨c, hc, hin⟩ := hall o ho
  exact ⟨c, hc, hsub _ hin⟩

omit [DecidableEq κ] in
theorem Checked.of_leads {k : κ} (hab : LeadsTo succ a b) (h : Checked key succ b visited k) : Checked key succ a visited k := by
  obtain ⟨c, next, hreach, hrest⟩ := h
  exact ⟨c, next, .head hab hreach, hrest⟩

/-- After a walk that says `true`, the node is met, and what is met was so before or is checked. -/
def Sound (key : α → κ) (succ : α → Option (List (Option α))) (a : α) (visited visited' : List κ) : Prop :=
  key a ∈ visited' ∧ ∀ k ∈ visited', k ∈ visited ∨ Checked key succ a visited' k

theorem walkAll_sound
    (ih : ∀ a visited visited', visit key succ fuel a visited = some (true, visited') → Sound key succ a visited visited')
    (hnext : succ a = some next) : ∀ (rest : List (Option α)) (visited visited' : List κ), (∀ o ∈ rest, o ∈ next) →
      walkAll (visit key succ fuel) rest visited = some (true, visited') →
      (∀ k ∈ visited, k ∈ visited') ∧ (∀ o ∈ rest, ∃ c, o = some c ∧ key c ∈ visited') ∧
        ∀ k ∈ visited', k ∈ visited ∨ Checked key succ a visited' k := by
  intro rest
  induction rest with
  | nil =>
    intro visited visited' _ h
    cases h
    exact ⟨fun k hk => hk, by simp, fun k hk => .inl hk⟩
  | cons o rest ihrest =>
    intro visited visited' hsub h
    cases o with
    | none => simp [walkAll] at h
    | some b =>
      rw [walkAll] at h
      split at h
      case h_1 mid hmid =>
        obtain ⟨hb, hmet⟩ := ih b visited mid hmid
        obtain ⟨hgrow, hall, hrest⟩ := ihrest mid visited' (fun o ho => hsub o (List.mem_cons_of_mem _ ho)) h
        have hleads : LeadsTo succ a b := ⟨next, hnext, hsub _ List.mem_cons_self⟩
        refine ⟨fun k hk => hgrow k (visit_grows hmid k hk), ?_, fun k hk => ?_⟩
        · intro o ho
          rcases List.mem_cons.mp ho with rfl | ho
          · exact ⟨b, rfl, hgrow _ hb⟩
          · exact hall o ho
        · rcases hrest k hk with hin | hchecked
          · exact (hmet k hin).imp_right fun hc => (hc.of_leads hleads).mono hgrow
          · exact .inr hchecked
      case h_2 hnot => exact absurd h (hnot _)

theorem visit_sound (h : visit key succ fuel a visited = some (true, visited')) : Sound key succ a visited visited' := by
  induction fuel generalizing a visited visited' with
  | zero => simp [visit] at h
  | succ fuel ih =>
    rw [visit] at h
    split at h
    case isTrue hin =>
      cases h
      exact ⟨hin, fun k hk => .inl hk⟩
    case isFalse =>
      split at h
      · simp at h
      case h_2 next hnext =>
        obtain ⟨hgrow, hall, hrest⟩ := walkAll_sound (fun _ _ _ => ih) hnext next _ _ (fun _ ho => ho) h
        refine ⟨hgrow _ List.mem_cons_self, fun k hk => ?_⟩
        rcases hrest k hk with hin | hchecked
        · rcases List.mem_cons.mp hin with rfl | hin
          · exact .inr ⟨a, next, .refl, rfl, hnext, hall⟩
          · exact .inl hin
        · exact .inr hchecked

/-- A walk over nodes that all pass does not say `false`. -/
theorem visit_ne_false (hpass : ∀ b, Reach succ a b → Passes succ b) : visit key succ fuel a visited ≠ some (false, visited') := by
  induction fuel generalizing a visited visited' with
  | zero => simp [visit]
  | succ fuel ih =>
    rw [visit]
    split
    · simp
    · obtain ⟨next, hnext, hnone⟩ := hpass a .refl
      rw [hnext]
      have hall : ∀ (rest : List (Option α)) (visited : List κ), (∀ o ∈ rest, o ∈ next) →
          walkAll (visit key succ fuel) rest visited ≠ some (false, visited') := by
        intro rest
        induction rest with
        | nil => simp [walkAll]
        | cons o rest ihrest =>
          intro visited hsub
          cases o with
          | none => exact absurd (hsub none List.mem_cons_self) hnone
          | some b =>
            have hleads : LeadsTo succ a b := ⟨next, hnext, hsub _ List.mem_cons_self⟩
            rw [walkAll]
            split
            · exact ihrest _ fun o ho => hsub o (List.mem_cons_of_mem _ ho)
            · exact ih fun c hc => hpass c (.head hleads hc)
      exact hall next _ fun _ ho => ho

/-- **Where keys tell nodes, the walk says that no node it can come to is refused, and says so whenever it is true.** -/
theorem visit_eq_true_iff (hkey : ∀ b c, Reach succ a b → Reach succ a c → key b = key c → b = c)
    (h : visit key succ fuel a [] = some (r, visited')) : r = true ↔ ∀ b, Reach succ a b → Passes succ b := by
  constructor
  · rintro rfl b hb
    obtain ⟨hstart, hmet⟩ := visit_sound h
    have hchecked (k : κ) (hk : k ∈ visited') : Checked key succ a visited' k :=
      (hmet k hk).resolve_left (List.not_mem_nil)
    -- the node with a key that has been met is the one that was checked
    have hnode (c : α) (hc : Reach succ a c) (hin : key c ∈ visited') :
        ∃ next, succ c = some next ∧ ∀ o ∈ next, ∃ d, o = some d ∧ key d ∈ visited' := by
      obtain ⟨c', next, hc', hkc, hnext, hall⟩ := hchecked _ hin
      obtain rfl := hkey c' c hc' hc hkc
      exact ⟨next, hnext, hall⟩
    have hin : key b ∈ visited' := by
      induction hb with
      | refl => exact hstart
      | @tail c d hc hcd ih =>
        obtain ⟨next, hnext, hall⟩ := hnode c hc ih
        obtain ⟨next', hnext', hd⟩ := hcd
        obtain rfl : next = next' := Option.some.inj (hnext.symm.trans hnext')
        obtain ⟨d', hd', hkd⟩ := hall _ hd
        rwa [Option.some.inj hd']
    obtain ⟨next, hnext, hall⟩ := hnode b hb hin
    refine ⟨next, hnext, fun hnone => ?_⟩
    obtain ⟨d, hd, -⟩ := hall none hnone
    simp at hd
  · intro hpass
    cases r with
    | true => rfl
    | false => exact absurd h (visit_ne_false hpass)

end Datara.Library.CheckedWalk
