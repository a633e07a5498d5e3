import Mathlib.Data.List.Basic

/-!
# Channels with one slot

What a log of sends and takes says (`sentOn`, `tookOn`, `sentBy`, `takenFrom`) when every channel has a slot
for one value, and a sender does not send again before its value is taken (`Slots`): what was sent on a
channel was taken from it in that order or is in its slot, and so it is with what one sender sent.
-/

namespace Datara.Library

universe u v w

variable {κ : Type u} {α : Type v} {β : Type w}

/-- A value is sent on a channel by someone, or taken from it. -/
inductive ChanAct (κ : Type u) (α : Type v) (β : Type w)
  | sent (c : κ) (a : α) (v : β)
  | took (c : κ) (v : β)

/-- Who last sent on each channel, and who had sent what was taken, in the order it was taken. -/
structure Origins (κ : Type u) (α : Type v) (β : Type w) where
  last : κ → Option α := fun _ => none
  out : List (α × κ × β) := []

variable [DecidableEq κ] [DecidableEq α]

section
variable (acts acts' : List (ChanAct κ α β))

/-- What was sent on a channel, in that order. -/
def sentOn (c : κ) : List β :=
  acts.filterMap fun | .sent d _ v => if d = c then some v else none | .took _ _ => none

/-- What was taken from a channel, in that order. -/
def tookOn (c : κ) : List β :=
  acts.filterMap fun | .sent _ _ _ => none | .took d v => if d = c then some v else none

/-- What someone sent, and on which channels, in that order. -/
def sentBy (a : α) : List (κ × β) :=
  acts.filterMap fun | .sent c b v => if b = a then some (c, v) else none | .took _ _ => none

def Origins.step (o : Origins κ α β) : ChanAct κ α β → Origins κ α β
  | .sent c a _ => { o with last := Function.update o.last c (some a) }
  | .took c v => { o with out := o.out ++ ((o.last c).map fun a => (a, c, v)).toList }

def origins : Origins κ α β := acts.foldl Origins.step {}

/-- What was taken of someone's values, in that order. -/
def takenFrom (a : α) : List (κ × β) := (origins acts).out.filterMap fun o => if o.1 = a then some o.2 else none

variable {acts acts'}

omit [DecidableEq α] in
@[simp] theorem sentOn_append {c : κ} : sentOn (acts ++ acts') c = sentOn acts c ++ sentOn acts' c :=
  List.filterMap_append

omit [DecidableEq α] in
@[simp] theorem tookOn_append {c : κ} : tookOn (acts ++ acts') c = tookOn acts c ++ tookOn acts' c :=
  List.filterMap_append

omit [DecidableEq κ] in
@[simp] theorem sentBy_append {a : α} : sentBy (acts ++ acts') a = sentBy acts a ++ sentBy acts' a :=
  List.filterMap_append

omit [DecidableEq α] in
@[simp] theorem origins_snoc {act : ChanAct κ α β} : origins (acts ++ [act]) = (origins acts).step act :=
  List.foldl_concat _ _ _ _

end

/-- **What the log says of the slots.** -/
structure Slots (acts : List (ChanAct κ α β)) (slot : κ → Option (α × β)) : Prop where
  exact : ∀ c, sentOn acts c = tookOn acts c ++ ((slot c).map (·.2)).toList
  last : ∀ c a v, slot c = some (a, v) → (origins acts).last c = some a
  idle : ∀ a, (∀ c v, slot c ≠ some (a, v)) → sentBy acts a = takenFrom acts a
  busy : ∀ c a v, slot c = some (a, v) → sentBy acts a = takenFrom acts a ++ [(c, v)]

namespace Slots

variable {acts : List (ChanAct κ α β)} {slot : κ → Option (α × β)} {c : κ} {a : α} {v : β}

theorem start : Slots ([] : List (ChanAct κ α β)) fun _ => none where
  exact _ := rfl
  last _ _ _ h := nomatch h
  idle _ _ := rfl
  busy _ _ _ h := nomatch h

theorem order (h : Slots acts slot) (a : α) : takenFrom acts a <+: sentBy acts a := by
  by_cases hbusy : ∃ c v, slot c = some (a, v)
  · obtain ⟨c, v, hslot⟩ := hbusy
    rw [h.busy c a v hslot]
    exact List.prefix_append _ _
  · have hidle := h.idle a fun c v hslot => hbusy ⟨c, v, hslot⟩
    exact ⟨[], (List.append_nil _).trans hidle.symm⟩

/-- A value goes into a slot that is empty, from one that has none in any. -/
theorem sent (h : Slots acts slot) (hfree : slot c = none) (hidle : ∀ d w, slot d ≠ some (a, w)) :
    Slots (acts ++ [.sent c a v]) (Function.update slot c (some (a, v))) := by
  have htaken : ∀ b, takenFrom (acts ++ [.sent c a v]) b = takenFrom acts b := by
    intro b
    rw [takenFrom, origins_snoc]
    rfl
  have hby : ∀ b, sentBy (acts ++ [.sent c a v]) b = sentBy acts b ++ if a = b then [(c, v)] else [] := by
    intro b
    rw [sentBy_append]
    congr 1
    by_cases hb : a = b <;> simp [sentBy, hb]
  refine ⟨fun d => ?_, fun d b w hd => ?_, fun b hb => ?_, fun d b w hd => ?_⟩
  · rw [sentOn_append, tookOn_append, h.exact]
    by_cases hd : d = c
    · subst hd
      rw [Function.update_self, hfree]
      simp [sentOn, tookOn]
    · rw [Function.update_of_ne hd]
      simp [sentOn, tookOn, Ne.symm hd]
  · rw [origins_snoc]
    show Function.update (origins acts).last c (some a) d = _
    by_cases hdc : d = c
    · subst hdc
      rw [Function.update_self] at hd ⊢
      exact congrArg some (Prod.mk.inj (Option.some.inj hd)).1
    · rw [Function.update_of_ne hdc] at hd ⊢
      exact h.last d b w hd
  · have hab : a ≠ b := by
      rintro rfl
      exact hb c v (Function.update_self _ _ _)
    rw [htaken, hby, if_neg hab, List.append_nil]
    refine h.idle b fun d w hd => ?_
    have hdc : d ≠ c := by
      rintro rfl
      rw [hfree] at hd
      cases hd
    exact hb d w ((Function.update_of_ne hdc _ _).trans hd)
  · rw [htaken, hby]
    by_cases hdc : d = c
    · subst hdc
      rw [Function.update_self] at hd
      cases hd
      rw [if_pos rfl, h.idle a hidle]
    · rw [Function.update_of_ne hdc] at hd
      have hab : a ≠ b := by
        rintro rfl
        exact hidle d w hd
      rw [if_neg hab, List.append_nil]
      exact h.busy d b w hd

theorem took (h : Slots acts slot) (hslot : slot c = some (a, v)) (hone : ∀ d w, slot d = some (a, w) → d = c) :
    Slots (acts ++ [.took c v]) (Function.update slot c none) := by
  have hout : (origins (acts ++ [.took c v])).out = (origins acts).out ++ [(a, c, v)] := by
    rw [origins_snoc]
    show (origins acts).out ++ (((origins acts).last c).map fun a => (a, c, v)).toList = _
    rw [h.last c a v hslot]
    rfl
  have htaken : ∀ b, takenFrom (acts ++ [.took c v]) b = takenFrom acts b ++ if a = b then [(c, v)] else [] := by
    intro b
    rw [takenFrom, hout, List.filterMap_append, takenFrom]
    congr 1
    by_cases hb : a = b <;> simp [hb]
  have hby : ∀ b, sentBy (acts ++ [.took c v]) b = sentBy acts b := by
    intro b
    rw [sentBy_append]
    exact List.append_nil _
  refine ⟨fun d => ?_, fun d b w hd => ?_, fun b hb => ?_, fun d b w hd => ?_⟩
  · rw [sentOn_append, tookOn_append, h.exact]
    by_cases hd : d = c
    · subst hd
      rw [Function.update_self, hslot]
      simp [sentOn, tookOn]
    · rw [Function.update_of_ne hd]
      simp [sentOn, tookOn, Ne.symm hd]
  · have hdc : d ≠ c := by
      rintro rfl
      rw [Function.update_self] at hd
      cases hd
    rw [Function.update_of_ne hdc] at hd
    rw [origins_snoc]
    exact h.last d b w hd
  · rw [htaken, hby]
    by_cases hab : a = b
    · subst hab
      rw [if_pos rfl]
      exact h.busy c a v hslot
    · rw [if_neg hab, List.append_nil]
      refine h.idle b fun d w hd => ?_
      have hdc : d ≠ c := by
        rintro rfl
        exact hab (Prod.mk.inj (Option.some.inj (hslot.symm.trans hd))).1
      exact hb d w ((Function.update_of_ne hdc _ _).trans hd)
  · have hdc : d ≠ c := by
      rintro rfl
      rw [Function.update_self] at hd
      cases hd
    rw [Function.update_of_ne hdc] at hd
    have hab : a ≠ b := by
      rintro rfl
      exact hdc (hone d w hd)
    rw [htaken, hby, if_neg hab, List.append_nil]
    exact h.busy d b w hd

end Slots

end Datara.Library
