import Mathlib.Computability.Language
import Mathlib.Data.List.TakeWhile

/-!
# Predictive scanning

A scan reads a list from the front and either stops behind what it has read or is stuck at a place. It predicts a language when
it is told by the next element alone which way to go: what it reads is in the language, and a text of the language is read
whole as soon as the input agrees with it as far as the scan has looked (`Predicts.viable`). So a text is accepted, and no text
of the language agrees with an input past the place where the scan is stuck. The scans that are put together here from smaller
ones predict the language that is put together the same way.
-/

namespace Datara.Library

open Computability

universe u v

inductive Outcome (ε : Type u) (β : Type v)
  | done (rest : List β)
  | stuck (e : ε) (rest : List β)

abbrev Scan (ε : Type u) (β : Type v) := List β → Outcome ε β

variable {ε : Type u} {β : Type v}

def Outcome.rest : Outcome ε β → List β
  | .done r => r
  | .stuck _ r => r

namespace Scan

/-- The reading goes on behind what was read. -/
def andThen (o : Outcome ε β) (Q : Scan ε β) : Outcome ε β :=
  match o with
  | .done x => Q x
  | .stuck e x => .stuck e x

def skip : Scan ε β := .done

def fail (e : ε) : Scan ε β := .stuck e

def next (p : β → Bool) (e : ε) : Scan ε β
  | [] => .stuck e []
  | x :: r => if p x then .done r else .stuck e (x :: r)

def seq (P Q : Scan ε β) : Scan ε β := fun r => andThen (P r) Q

def choose (c : Option β → Bool) (A B : Scan ε β) : Scan ε β := fun r => if c r.head? then A r else B r

def dropAll (p : β → Bool) : Scan ε β := fun r => .done (r.dropWhile p)

/-- The reading is repeated as long as it is asked for and gets on. -/
def repeated (c : Option β → Bool) (A : Scan ε β) (r : List β) : Outcome ε β :=
  if c r.head? then
    match A r with
    | .done x => if x.length < r.length then repeated c A x else .done x
    | .stuck e x => .stuck e x
  else .done r
termination_by r.length

section
variable {P Q A B : Scan ε β} {r x : List β} {e : ε} {y : β} {p : β → Bool} {c : Option β → Bool}

theorem seq_of_done (h : P r = .done x) : seq P Q r = Q x := by rw [seq, h]; rfl

theorem seq_of_stuck (h : P r = .stuck e x) : seq P Q r = .stuck e x := by rw [seq, h]; rfl

theorem next_of_pos (h : p y = true) : next p e (y :: r) = .done r := if_pos h

theorem next_of_neg (h : ¬p y = true) : next p e (y :: r) = .stuck e (y :: r) := if_neg h

theorem choose_of_pos (h : c r.head? = true) : choose c A B r = A r := if_pos h

theorem choose_of_neg (h : ¬c r.head? = true) : choose c A B r = B r := if_neg h

end

theorem repeated_eq (c : Option β → Bool) (A : Scan ε β) (r : List β) :
    repeated c A r =
      if c r.head? then
        andThen (A r) fun x => if x.length < r.length then repeated c A x else .done x
      else .done r := by
  rw [repeated]
  split
  · cases A r <;> rfl
  · rfl

/-- A reading that gets on goes round again. -/
theorem repeated_of_lt {c : Option β → Bool} {A : Scan ε β} {r : List β} (hc : c r.head? = true)
    (h : ∀ x, A r = .done x → x.length < r.length) : repeated c A r = seq A (repeated c A) r := by
  rw [repeated_eq, if_pos hc, seq]
  cases hr : A r with
  | done x => exact if_pos (h x hr)
  | stuck e x => rfl

theorem repeated_of_stop {c : Option β → Bool} {A : Scan ε β} {r : List β} (hc : c r.head? = false) :
    repeated c A r = .done r := by
  rw [repeated_eq, hc]
  rfl

/-- A scan leaves a part of what it is given. -/
def Shrinks (P : Scan ε β) : Prop := ∀ r, (P r).rest <:+ r

theorem Shrinks.seq {P Q : Scan ε β} (hP : Shrinks P) (hQ : Shrinks Q) : Shrinks (seq P Q) := by
  intro r
  have hfirst := hP r
  rw [Scan.seq]
  cases hr : P r with
  | done x =>
    rw [hr] at hfirst
    exact (hQ x).trans hfirst
  | stuck e x => rwa [hr] at hfirst

theorem Shrinks.next (p : β → Bool) (e : ε) : Shrinks (next p e) := by
  intro r
  cases r with
  | nil => exact List.suffix_refl _
  | cons x r =>
    rw [Scan.next]
    split
    · exact List.suffix_cons x r
    · exact List.suffix_refl _

theorem Shrinks.dropAll (p : β → Bool) : Shrinks (dropAll p : Scan ε β) := fun _ => List.dropWhile_suffix p

theorem seq_assoc (P Q R : Scan ε β) : seq (seq P Q) R = seq P (seq Q R) := by
  funext r
  simp only [seq]
  cases P r <;> rfl

theorem seq_skip (P : Scan ε β) : seq P skip = P := by
  funext r
  simp only [seq]
  cases P r <;> rfl

end Scan

/-! ## What may follow -/

/-- What is next, an element or the end of the input, is as asked. -/
def Ahead (f : Option β → Prop) (s : List β) : Prop := f s.head?

/-- Before what may follow, a text of the language begins as something that may stand there. -/
def Leads (M : Language β) (g f : Option β → Prop) : Prop := ∀ t ∈ M, ∀ post, Ahead g post → Ahead f (t ++ post)

/-- A text of the language is not empty and begins with an element of a kind. -/
def Starts (L : Language β) (p : β → Prop) : Prop := ∀ t ∈ L, ∃ x u, t = x :: u ∧ p x

section
variable {L M : Language β} {f g h : Option β → Prop} {p q : β → Prop}

theorem Starts.leads (hL : Starts L p) (hp : ∀ x, p x → f (some x)) : Leads L g f := by
  intro t ht post _
  obtain ⟨y, u, rfl, hy⟩ := hL t ht
  exact hp y hy

theorem leads_any : Leads L g fun _ => True := fun _ _ _ _ => trivial

theorem Leads.one (h : ∀ o, g o → f o) : Leads 1 g f := by
  rintro t rfl post hpost
  exact h _ hpost

theorem Leads.mul (hL : Leads L g f) (hM : Leads M h g) : Leads (L * M) h f := by
  rintro t ht post hpost
  obtain ⟨a, ha, b, hb, rfl⟩ := Language.mem_mul.mp ht
  rw [List.append_assoc]
  exact hL a ha _ (hM b hb post hpost)

theorem Leads.add (hL : Leads L g f) (hM : Leads M g f) : Leads (L + M) g f := by
  rintro t ht
  exact ((Language.mem_add L M t).mp ht).elim (hL t) (hM t)

theorem Leads.kstar (hL : Leads L f f) (hfollow : ∀ o, g o → f o) : Leads (L∗) g f := by
  intro t ht post hpost
  obtain ⟨ts, rfl, hall⟩ := Language.mem_kstar.mp ht
  clear ht
  induction ts with
  | nil => exact hfollow _ hpost
  | cons a ts ih =>
    rw [List.flatten_cons, List.append_assoc]
    exact hL a (hall a List.mem_cons_self) _ (ih fun y hy => hall y (List.mem_cons_of_mem _ hy))

theorem Starts.mul (hL : Starts L p) : Starts (L * M) p := by
  rintro t ht
  obtain ⟨a, ha, b, -, rfl⟩ := Language.mem_mul.mp ht
  obtain ⟨x, u, rfl, hx⟩ := hL a ha
  exact ⟨x, u ++ b, rfl, hx⟩

theorem Starts.add (hL : Starts L p) (hM : Starts M p) : Starts (L + M) p := by
  rintro t ht
  exact ((Language.mem_add L M t).mp ht).elim (hL t) (hM t)

theorem Starts.weaken (hL : Starts L p) (h : ∀ x, p x → q x) : Starts L q := by
  intro t ht
  obtain ⟨x, u, hu, hx⟩ := hL t ht
  exact ⟨x, u, hu, h x hx⟩

end

/-- The texts of one element of a kind. -/
def one (p : β → Bool) : Language β := {t | ∃ x, p x = true ∧ t = [x]}

theorem mem_kstar_one {p : β → Bool} {t : List β} : t ∈ (one p)∗ ↔ ∀ x ∈ t, p x = true := by
  rw [Language.mem_kstar]
  constructor
  · rintro ⟨ts, rfl, hall⟩ x hx
    obtain ⟨a, ha, hin⟩ := List.mem_flatten.mp hx
    obtain ⟨y, hy, rfl⟩ := hall a ha
    rwa [List.mem_singleton.mp hin]
  · intro h
    refine ⟨t.map fun x => [x], by rw [← List.flatMap_def, List.flatMap_singleton'], fun y hy => ?_⟩
    obtain ⟨x, hx, rfl⟩ := List.mem_map.mp hy
    exact ⟨x, h x hx, rfl⟩

/-! ## Prediction -/

/-- The elements a scan has passed. -/
def passed (P : Scan ε β) (r : List β) : Nat := r.length - (P r).rest.length

/-- Two inputs are the same up to a place, the end of the input being part of it. -/
def SameUpTo (n : Nat) (r s : List β) : Prop := ∀ i ≤ n, r[i]? = s[i]?

/-- A text that an input is the same as, as far as the scan looks, is read from it. -/
def ViableAt (P : Scan ε β) (L : Language β) (f : Option β → Prop) (r : List β) : Prop :=
  ∀ t post, t ∈ L → Ahead f post → SameUpTo (passed P r) r (t ++ post) → ∃ x, P r = .done x ∧ r = t ++ x

structure Predicts (P : Scan ε β) (L : Language β) (f : Option β → Prop) : Prop where
  suffix : Scan.Shrinks P
  sound : ∀ r x, P r = .done x → ∃ t ∈ L, r = t ++ x
  viable : ∀ r, ViableAt P L f r

section
variable {r s t post : List β} {n m : Nat}

theorem SameUpTo.mono (h : SameUpTo n r s) (hm : m ≤ n) : SameUpTo m r s := fun i hi => h i (Nat.le_trans hi hm)

theorem SameUpTo.head (h : SameUpTo n r s) : r.head? = s.head? := by
  rw [List.head?_eq_getElem?, List.head?_eq_getElem?]
  exact h 0 (Nat.zero_le n)

theorem SameUpTo.append (h : SameUpTo (t.length + n) (t ++ r) (t ++ s)) : SameUpTo n r s := by
  intro i hi
  have := h (t.length + i) (by omega)
  rwa [List.getElem?_append_right (by omega), List.getElem?_append_right (by omega), Nat.add_sub_cancel_left] at this

theorem SameUpTo.cons {x y : β} (h : SameUpTo (n + 1) (x :: r) (y :: s)) : x = y ∧ SameUpTo n r s := by
  refine ⟨by simpa using h 0 (Nat.zero_le _), fun i hi => ?_⟩
  simpa using h (i + 1) (by omega)

end

namespace Predicts
variable {P Q A B : Scan ε β} {L M : Language β} {f g : Option β → Prop} {r t post : List β}

/-- No text of the language, with anything that may follow, agrees with the input past the place where a scan is stuck. -/
theorem no_text (hP : Predicts P L f) {e : ε} {x : List β} (hr : P r = .stuck e x) (ht : t ∈ L) (hpost : Ahead f post) :
    ¬SameUpTo (passed P r) r (t ++ post) := by
  intro hsame
  obtain ⟨y, hy, -⟩ := hP.viable r t post ht hpost hsame
  rw [hr] at hy
  simp at hy

theorem strengthen (hP : Predicts P L f) (h : ∀ o, g o → f o) : Predicts P L g where
  suffix := hP.suffix
  sound := hP.sound
  viable r t post ht hpost := hP.viable r t post ht (h _ hpost)

theorem skip : Predicts (Scan.skip : Scan ε β) 1 f where
  suffix r := List.suffix_refl r
  sound r x h := ⟨[], rfl, by simpa [Scan.skip] using h⟩
  viable r t post ht _ _ := by
    obtain rfl := ht
    exact ⟨r, rfl, rfl⟩

theorem fail (e : ε) : Predicts (Scan.fail e : Scan ε β) 0 f where
  suffix r := List.suffix_refl r
  sound r x h := by simp [Scan.fail] at h
  viable r t post ht := absurd ht (Language.notMem_zero t)

theorem next (p : β → Bool) (e : ε) : Predicts (Scan.next p e) (one p) f where
  suffix := .next p e
  sound r x h := by
    cases r with
    | nil => simp [Scan.next] at h
    | cons y r =>
      rw [Scan.next] at h
      split at h
      case isTrue hy =>
        obtain rfl : r = x := by simpa using h
        exact ⟨[y], ⟨y, hy, rfl⟩, rfl⟩
      case isFalse => simp at h
  viable r t post ht _ hsame := by
    obtain ⟨y, hy, rfl⟩ := ht
    have hhead := hsame.head
    cases r with
    | nil => simp at hhead
    | cons x r =>
      obtain rfl : x = y := by simpa using hhead
      exact ⟨r, by rw [Scan.next, if_pos hy], rfl⟩

theorem viableAt_seq (hP : Predicts P L f) (hsuffix : Scan.Shrinks Q) (hM : Leads M g f)
    (hQ : ∀ x, P r = .done x → ViableAt Q M g x) : ViableAt (Scan.seq P Q) (L * M) g r := by
  intro t post ht hpost hsame
  obtain ⟨a, ha, b, hb, rfl⟩ := Language.mem_mul.mp ht
  rw [List.append_assoc] at hsame
  -- what both have passed is at least what the first one has
  have hpassed : passed P r ≤ passed (Scan.seq P Q) r := by
    rw [passed, passed, Scan.seq]
    cases hr : P r with
    | done x =>
      have : (Q x).rest.length ≤ x.length := (hsuffix x).length_le
      exact Nat.sub_le_sub_left this _
    | stuck e x => exact Nat.le_refl _
  obtain ⟨x, hx, rfl⟩ := hP.viable r a _ ha (hM b hb post hpost) (hsame.mono hpassed)
  have hrest : passed (Scan.seq P Q) (a ++ x) = a.length + passed Q x := by
    have := (hsuffix x).length_le
    rw [passed, passed, Scan.seq, hx, List.length_append]
    simp only [Scan.andThen]
    omega
  rw [hrest] at hsame
  obtain ⟨y, hy, rfl⟩ := hQ x hx b post hb hpost hsame.append
  exact ⟨y, by rw [Scan.seq, hx]; exact hy, by rw [List.append_assoc]⟩

theorem suffix_seq (hP : Predicts P L f) (hQ : ∀ x, P r = .done x → (Q x).rest <:+ x) : (Scan.seq P Q r).rest <:+ r := by
  have hfirst := hP.suffix r
  rw [Scan.seq]
  cases hr : P r with
  | done x =>
    rw [hr] at hfirst
    exact (hQ x hr).trans hfirst
  | stuck e x => rwa [hr] at hfirst

theorem sound_seq (hP : Predicts P L f) {x : List β} (h : Scan.seq P Q r = .done x)
    (hQ : ∀ y, P r = .done y → Q y = .done x → ∃ b ∈ M, y = b ++ x) : ∃ t ∈ L * M, r = t ++ x := by
  rw [Scan.seq] at h
  cases hr : P r with
  | done y =>
    rw [hr] at h
    obtain ⟨a, ha, rfl⟩ := hP.sound r y hr
    obtain ⟨b, hb, rfl⟩ := hQ y hr h
    exact ⟨a ++ b, Language.append_mem_mul ha hb, (List.append_assoc a b x).symm⟩
  | stuck e y =>
    rw [hr] at h
    simp [Scan.andThen] at h

theorem seq (hP : Predicts P L f) (hQ : Predicts Q M g) (hM : Leads M g f) : Predicts (Scan.seq P Q) (L * M) g where
  suffix := hP.suffix.seq hQ.suffix
  sound _ x h := hP.sound_seq h fun y _ => hQ.sound y x
  viable _ := hP.viableAt_seq hQ.suffix hM fun x _ => hQ.viable x

theorem next_seq {p : β → Bool} {e : ε} (hQ : Predicts Q M g) : Predicts (Scan.seq (Scan.next p e) Q) (one p * M) g :=
  (next p e).seq hQ leads_any

theorem choose {c : Option β → Bool} (hA : Predicts A L f) (hB : Predicts B M f)
    (hL : Leads L f fun o => c o = true) (hM : Leads M f fun o => c o = false) :
    Predicts (Scan.choose c A B) (L + M) f where
  suffix r := by
    rw [Scan.choose]
    split
    · exact hA.suffix r
    · exact hB.suffix r
  sound r x h := by
    rw [Scan.choose] at h
    split at h
    · obtain ⟨t, ht, heq⟩ := hA.sound r x h
      exact ⟨t, .inl ht, heq⟩
    · obtain ⟨t, ht, heq⟩ := hB.sound r x h
      exact ⟨t, .inr ht, heq⟩
  viable r t post ht hpost hsame := by
    have hhead := hsame.head
    rw [passed] at hsame
    obtain ht | ht := ht
    · have hc : c r.head? = true := by rw [hhead]; exact hL t ht post hpost
      have heq : Scan.choose c A B r = A r := by rw [Scan.choose, if_pos hc]
      rw [heq] at hsame ⊢
      exact hA.viable r t post ht hpost hsame
    · have hc : c r.head? = false := by rw [hhead]; exact hM t ht post hpost
      have heq : Scan.choose c A B r = B r := by rw [Scan.choose, hc]; rfl
      rw [heq] at hsame ⊢
      exact hB.viable r t post ht hpost hsame

theorem dropWhile_prefix (p : β → Bool) : ∀ (r t post : List β), (∀ x ∈ t, p x = true) → (∀ x ∈ post.head?, p x = false) →
    SameUpTo (r.length - (r.dropWhile p).length) r (t ++ post) → r = t ++ r.dropWhile p := by
  intro r
  induction r with
  | nil =>
    intro t post ht _ hsame
    have hhead := hsame.head
    cases t with
    | nil => rfl
    | cons y t => simp at hhead
  | cons x r ih =>
    intro t post ht hpost hsame
    have hhead := hsame.head
    by_cases hx : p x = true
    · rw [List.dropWhile_cons_of_pos hx] at hsame ⊢
      cases t with
      | nil =>
        rw [List.nil_append] at hhead
        exact absurd hx (by rw [hpost x hhead.symm]; exact Bool.false_ne_true)
      | cons y t =>
        have hlen := List.length_dropWhile_le p r
        have hmore : (x :: r).length - (r.dropWhile p).length = r.length - (r.dropWhile p).length + 1 := by
          rw [List.length_cons]
          omega
        rw [hmore, List.cons_append] at hsame
        obtain ⟨rfl, hrest⟩ := hsame.cons
        rw [List.cons_append, ← ih t post (fun z hz => ht z (List.mem_cons_of_mem _ hz)) hpost hrest]
    · rw [List.dropWhile_cons_of_neg hx] at hsame ⊢
      cases t with
      | nil => rfl
      | cons y t =>
        obtain rfl : x = y := by simpa using hhead
        exact absurd (ht x List.mem_cons_self) hx

theorem dropAll {p : β → Bool} (hf : ∀ x, f (some x) → p x = false) : Predicts (Scan.dropAll p : Scan ε β) ((one p)∗) f where
  suffix := .dropAll p
  sound r x h := by
    obtain rfl : r.dropWhile p = x := by simpa [Scan.dropAll] using h
    exact ⟨r.takeWhile p, mem_kstar_one.mpr fun x hx => List.mem_takeWhile_imp hx, List.takeWhile_append_dropWhile.symm⟩
  viable r t post ht hpost hsame :=
    ⟨r.dropWhile p, rfl, dropWhile_prefix p r t post (mem_kstar_one.mp ht)
      (fun x hx => hf x (by rw [← Option.mem_def.mp hx]; exact hpost)) hsame⟩

/-- What reads a text that is not empty gets on. -/
theorem lt_of_done {p : β → Prop} (hA : Predicts A L f) (hstart : Starts L p) {x : List β} (h : A r = .done x) :
    x.length < r.length := by
  obtain ⟨t, ht, rfl⟩ := hA.sound r x h
  obtain ⟨y, u, rfl, -⟩ := hstart t ht
  simp only [List.length_cons, List.length_append]
  omega

theorem repeated {c : Option β → Bool} (hA : Predicts A L f) (hstart : Starts L fun x => c (some x) = true)
    (hL : Leads L f f) (hstop : ∀ o, g o → c o = false) (hfg : ∀ o, g o → f o) :
    Predicts (Scan.repeated c A) (L∗) g := by
  have hnext (r : List β) (hc : c r.head? = true) : Scan.repeated c A r = Scan.seq A (Scan.repeated c A) r :=
    Scan.repeated_of_lt hc fun x hx => hA.lt_of_done hstart hx
  have hend (r : List β) (hc : c r.head? = false) : Scan.repeated c A r = .done r := Scan.repeated_of_stop hc
  have hsuffix : Scan.Shrinks (Scan.repeated c A) := by
    intro r
    induction hn : r.length using Nat.strongRecOn generalizing r with
    | ind n ih =>
      cases hc : c r.head? with
      | true =>
        rw [hnext r hc]
        exact hA.suffix_seq fun x hx => ih x.length (hn ▸ hA.lt_of_done hstart hx) x rfl
      | false =>
        rw [hend r hc]
        exact List.suffix_refl r
  refine ⟨hsuffix, fun r x h => ?_, fun r => ?_⟩
  · induction hn : r.length using Nat.strongRecOn generalizing r with
    | ind n ih =>
      cases hc : c r.head? with
      | true =>
        rw [hnext r hc] at h
        obtain ⟨t, ht, heq⟩ := hA.sound_seq h fun y hy hrest =>
          ih y.length (hn ▸ hA.lt_of_done hstart hy) y hrest rfl
        exact ⟨t, (mul_kstar_le_kstar : L * L∗ ≤ L∗) ht, heq⟩
      | false =>
        rw [hend r hc] at h
        exact ⟨[], Language.nil_mem_kstar L, by simpa using h⟩
  · induction hn : r.length using Nat.strongRecOn generalizing r with
    | ind n ih =>
      intro t post ht hpost hsame
      have hhead := hsame.head
      rw [← Language.one_add_self_mul_kstar_eq_kstar] at ht
      obtain rfl | hmore := ht
      · have hc : c r.head? = false := by rw [hhead]; exact hstop _ hpost
        exact ⟨r, hend r hc, rfl⟩
      · have hc : c r.head? = true := by
          obtain ⟨y, u, hy, hcy⟩ := hstart.mul t hmore
          rw [hhead, hy]
          exact hcy
        have hseq := hA.viableAt_seq hsuffix (hL.kstar hfg) fun x hx => ih x.length (hn ▸ hA.lt_of_done hstart hx) x rfl
        rw [passed, hnext r hc] at hsame
        rw [hnext r hc]
        exact hseq t post hmore hpost hsame

end Predicts

end Datara.Library
