import Datara.Dmir.Freshness

/-!
# What leads where

Reachability in the store, from an object along its fields. A set of objects that no object outside
it refers to is closed backwards: whatever leads to one of its objects is in it (`LeadsTo.mem`). What
is held outside a frame (`World.Outer`) are the module variables, the references the environment was
handed and the environment's own objects.
-/

namespace Datara.Dmir

namespace World

/-- One field away. -/
def Points (w : World) (r r' : Ref) : Prop :=
  ∃ o field, w.heap r = some o ∧ o.fields field = .ref r'

/-- Any number of fields away. -/
def Leads (w : World) : Ref → Ref → Prop := Relation.ReflTransGen w.Points

/-- A reference from which an object of a kind is reached. -/
def LeadsTo (w : World) (target : Ref → Prop) (r : Ref) : Prop := ∃ r', target r' ∧ w.Leads r r'

/-- A reference that is held outside the frame. -/
inductive Outer (w : World) : Ref → Prop
  | global {n : String} {r : Ref} : w.globals n = .ref r → Outer w r
  | known {r : Ref} : r ∈ w.known → Outer w r
  | ext (n : Nat) : Outer w (.ext n)

variable {w w' : World} {target dead : Ref → Prop} {r : Ref}

theorem LeadsTo.of_target (h : target r) : w.LeadsTo target r := ⟨r, h, .refl⟩

theorem LeadsTo.of_points {r' : Ref} (h : w.Points r r') (h' : w.LeadsTo target r') : w.LeadsTo target r := by
  obtain ⟨x, hx, hl⟩ := h'
  exact ⟨x, hx, .head h hl⟩

theorem LeadsTo.mem (h : w.AgreeOff dead w') (ht : ∀ r, target r → dead r) (hr : w.LeadsTo target r) : dead r := by
  obtain ⟨x, hx, hl⟩ := hr
  induction hl using Relation.ReflTransGen.head_induction_on with
  | refl => exact ht x hx
  | head hpoints _ ih =>
    obtain ⟨o, field, ho, hfield⟩ := hpoints
    by_contra hdead
    exact h.fields _ o hdead ho field _ hfield ih

theorem agreeOff_of (hf : ∀ r o, ¬dead r → w.heap r = some o → ∀ field, (o.fields field).Off dead)
    (hg : ∀ n, (w.globals n).Off dead) (hk : ∀ r ∈ w.known, ¬dead r) : w.AgreeOff dead w :=
  ⟨fun _ _ => rfl, hf, fun _ _ => rfl, rfl, hg, rfl, hk, rfl⟩

theorem agreeOff_alloc {fn : String} {d : ValueId} {c : String} {fs : List (String × Val)}
    (h : w.AgreeOff dead w) (hf : ∀ f ∈ fs, f.2.Off dead) :
    (w.alloc fn d c fs).2.AgreeOff dead (w.alloc fn d c fs).2 := by
  obtain ⟨o, hheap, ho⟩ := alloc_fields_off w fn d c hf
  refine agreeOff_of (fun x p hx hp => ?_) h.globals_off h.known_off
  rw [hheap] at hp
  by_cases hnew : x = (w.alloc fn d c fs).1
  · obtain rfl : o = p := by simpa [hnew] using hp
    exact ho
  · rw [Function.update_of_ne hnew] at hp
    exact h.fields x p hx hp

theorem agreeOff_setObj {o : Obj} {field : String} {v : Val} (h : w.AgreeOff dead w)
    (ho : w.heap r = some o) (hv : dead r ∨ v.Off dead) :
    (w.setObj r (o.set field v)).AgreeOff dead (w.setObj r (o.set field v)) := by
  refine agreeOff_of (fun x p hx hp fl => ?_) h.globals_off h.known_off
  by_cases hxr : x = r
  · obtain rfl : o.set field v = p := by simpa [World.setObj, hxr] using hp
    subst hxr
    exact Obj.set_off (h.fields x o hx ho) (hv.resolve_left hx) fl
  · exact h.fields x p hx (by simpa [World.setObj, hxr] using hp) fl

end World

/-- An effect that leaves objects and variables to the environment, and hands it nothing dead. -/
def Effect.Hands (dead : Ref → Prop) : Effect → Prop
  | .store _ _ | .alloc _ _ _ | .setField _ _ _ => False
  | .request e _ => ∀ v ∈ e.handed, v.Off dead
  | .call _ _ args => ∀ a ∈ args, a.Off dead
  | .method _ _ o args => ∀ a ∈ o :: args, a.Off dead
  | _ => True

theorem Effect.perform_hands {P : Program} {f : Function} {vars vars' : String → Val}
    {dead : Ref → Prop} {w w' : World} {e : Effect} {ws : List (ValueId × Val)}
    (hext : ∀ n, ¬dead (.ext n)) (h : w.AgreeOff dead w) (he : e.Hands dead)
    (hp : e.perform P f vars w = .done ws vars' w') : vars' = vars ∧ w'.AgreeOff dead w' := by
  have answered : ∀ {binds : Val → List (ValueId × Val)} (ev : Event),
      (∀ v ∈ ev.handed, v.Off dead) →
      Result.answered vars binds (w.ask P.env ev) = .done ws vars' w' →
      vars' = vars ∧ w'.AgreeOff dead w' := by
    intro binds ev hev ha
    obtain ⟨v, hv, -, hvars⟩ := Result.answered_done ha
    have := (World.ask_agreeOff P.env hext h hev).2.1
    rw [hv] at this
    exact ⟨hvars, this⟩
  cases e with
  | compute d r => cases r <;> cases hp; exact ⟨rfl, h⟩
  | skip => cases hp; exact ⟨rfl, h⟩
  | load d n => cases hp; exact ⟨rfl, h⟩
  | store n v => cases he
  | alloc d c fs => cases he
  | getField d o field =>
    simp only [perform] at hp
    split at hp <;> cases hp
    exact ⟨rfl, h⟩
  | setField o field v => cases he
  | emit e => cases hp; exact ⟨rfl, h.emit e⟩
  | request e binds => exact answered e he hp
  | call d g args =>
    simp only [perform] at hp
    split at hp
    · cases hp; exact ⟨rfl, h⟩
    · exact answered (.call g args) he hp
  | method d m o args => exact answered (.method m (o :: args)) he hp

/-- The operands an instruction hands to the environment. -/
def Inst.handsOver : Inst → List ValueId
  | .call _ _ args _ => args
  | .methodCall _ o _ args _ => o :: args
  | .inlineAsm _ _ ins _ _ => ins.map Prod.snd
  | .volatileLoad _ a _ => [a]
  | .volatileStore a v _ => [a, v]
  | _ => []

/-- An instruction that stores nothing itself. -/
def Inst.storesNothing : Inst → Bool
  | .assignVar _ _ | .setField _ _ _ | .structInit _ _ _ => false
  | _ => true

theorem Inst.effect_hands {dead : Ref → Prop} {h : Host} {safe : List ValueId} {rd : ValueId → Val}
    {i : Inst} (hi : i.storesNothing = true) (hr : ∀ v ∈ i.handsOver, (rd v).Off dead) :
    (i.effect h safe rd).Hands dead := by
  have mapped : ∀ l : List ValueId, (∀ v ∈ l, (rd v).Off dead) → ∀ a ∈ l.map rd, a.Off dead := by
    intro l hl a ha
    obtain ⟨v, hv, rfl⟩ := List.mem_map.mp ha
    exact hl v hv
  cases i with
  | assignVar | setField | structInit => cases hi
  | call d f args ty => exact mapped args hr
  | methodCall d o m args ty =>
    simp only [effect]
    split
    · trivial
    · exact mapped (o :: args) hr
  | inlineAsm tm outs ins cl os =>
    intro a ha
    obtain ⟨p, hp, rfl⟩ := List.mem_map.mp ha
    exact hr p.2 (List.mem_map_of_mem hp)
  | volatileLoad d a ty => exact mapped [a] hr
  | volatileStore a v ty => exact mapped [a, v] hr
  | _ => trivial

end Datara.Dmir
