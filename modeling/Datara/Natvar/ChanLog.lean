import Datara.Library.Rendezvous
import Datara.Natvar.SoundCalls

/-!
# What is seen of the channels

A run is observed from the outside: what was sent on a channel and by whom, and what a `recv` returned
(`chanActs`). What the channels do is stated with that log (`Delivers`). Behind it every channel is a slot
that holds the value of a parked sender, and a receiver that is parked beside a value has been overtaken by
one that was woken for it (`Rendezvous`).
-/

namespace Datara.Natvar

open Library
open scoped List

/-- What was sent and taken since the runtime was last reset; the main thread is no fiber. -/
abbrev ChanLog := List (ChanAct Int (Option Ptr) Int)

namespace Runtime

/-- The channel with an id. -/
def chanOf (s : Runtime) (id : Int) : Option FiberChan := (s.chanById id).bind (s.chans[·]?)

/-- The value a channel holds. -/
def held (c : FiberChan) : Option Int := if c.hasValue then some c.buf else none

/-- The channel a step receives from, or goes on receiving from. -/
def recvOf (e : Event) (s : Runtime) : Option Int :=
  match e, s.currentCall with
  | .recv id _, _ => some id
  | .resume _ _, some (.recv id) => some id
  | _, _ => none

/-- What a `recv` took, if it returned. That of the main thread gives up with -1 when no fiber is left to
wait for. -/
def takeActs (id : Int) (s : Runtime) : Reply → ChanLog
  | .value v =>
    if s.chanOf id = none ∨ s.running = none ∧ v = -1 ∧ (s.chanOf id).bind held = none then []
    else [.took id v]
  | _ => []

/-- What a step sends or takes. -/
def chanActs (e : Event) (s : Runtime) (r : Reply) : ChanLog :=
  match e with
  | .send id v => if (s.chanOf id).isSome then [.sent id s.running v] else []
  | _ => (recvOf e s).elim [] fun id => takeActs id s r

/-- A step that is observed. -/
def chanLogged (e : Event) (c : ChanLog × Runtime) : Option (ChanLog × Runtime) :=
  (c.2.step e).map fun out =>
    (match e with
      | .reset => []
      | _ => c.1 ++ chanActs e c.2 out.1, out.2)

/-- A fiber parked in a `recv` of the channel. -/
def ParkedReceiver (id : Int) (s : Runtime) : Prop :=
  ∃ p f, s.heap p = some f ∧ f.state = .waitingChan ∧ f.call = some (.recv id)

/-- **Every value is delivered once**: what was sent on a channel was received from it in that order, or is
in it; what one sent is received in that order; a fiber that is not parked in a send has had all it sent
received; and no receiver is parked on a channel with a value while nothing can run. -/
structure Delivers (acts : ChanLog) (s : Runtime) : Prop where
  exact : ∀ id, sentOn acts id = tookOn acts id ++ ((s.chanOf id).bind held).toList
  order : ∀ a, takenFrom acts a <+: sentBy acts a
  resumed : ∀ p f, s.heap p = some f → ¬(f.state = .waitingChan ∧ f.call = none) →
    sentBy acts (some p) = takenFrom acts (some p)
  alive : ∀ id, ((s.chanOf id).bind held).isSome → ParkedReceiver id s → s.ready ≠ [] ∨ s.running ≠ none

/-! ## The slots behind it -/

/-- A fiber parked in a send on a channel. -/
def ParkedSender (id : Int) (s : Runtime) (p : Ptr) : Prop :=
  ∃ f, s.heap p = some f ∧ f.state = .waitingChan ∧ f.call = none ∧ f.waitOn = id

/-- A fiber that goes on receiving from a channel. -/
def Receiving (id : Int) (s : Runtime) : Prop :=
  ∃ p f, s.heap p = some f ∧ f.call = some (.recv id) ∧ (f.state = .ready ∨ f.state = .running)

/-- **Every channel is a slot** with the value of a sender that is parked, and a receiver beside a value is
not the only one. -/
structure Rendezvous (acts : ChanLog) (s : Runtime) (slot : Int → Option (Option Ptr × Int)) : Prop where
  slots : Slots acts slot
  held : ∀ id, (slot id).map (·.2) = (s.chanOf id).bind held
  parked : ∀ id a v, slot id = some (a, v) → ∃ p, a = some p ∧ ParkedSender id s p
  answered : ∀ id, ((s.chanOf id).bind Runtime.held).isSome → ParkedReceiver id s → Receiving id s

section
variable {s s' t : Runtime} {p q : Ptr} {f f' : Fiber} {acts : ChanLog}
  {slot : Int → Option (Option Ptr × Int)}

/-- What concerns no channel. -/
structure Aside (s s' : Runtime) : Prop where
  chans : ∀ id, s'.chanOf id = s.chanOf id ∨ s.chanOf id = none ∧ (s'.chanOf id).bind held = none
  stays : ∀ p f, s.heap p = some f → f.state = .waitingChan → ∃ f', s'.heap p = some f' ∧
    f'.state = .waitingChan ∧ f'.call = f.call ∧ f'.waitOn = f.waitOn
  parked : ∀ p f', s'.heap p = some f' → f'.state = .waitingChan → ∃ f, s.heap p = some f ∧
    f.state = .waitingChan ∧ f'.call = f.call
  goes : ∀ p f id, s.heap p = some f → f.call = some (.recv id) → f.state = .ready ∨ f.state = .running →
    ∃ f', s'.heap p = some f' ∧ f'.call = some (.recv id) ∧ (f'.state = .ready ∨ f'.state = .running)

theorem chanOf_congr (hchans : s'.chans = s.chans) (id : Int) : s'.chanOf id = s.chanOf id := by
  rw [chanOf, chanOf, chanById, chanById, hchans]

theorem Aside.record (hf : s.heap p = some f) (hself : s'.heap p = some f')
    (hheap : ∀ q, q ≠ p → s'.heap q = s.heap q) (hchans : s'.chans = s.chans)
    (hbefore : f.state ≠ .waitingChan) (hafter : f'.state ≠ .waitingChan)
    (hgoes : ∀ id, f.call = some (.recv id) → f.state = .ready ∨ f.state = .running →
      f'.call = some (.recv id) ∧ (f'.state = .ready ∨ f'.state = .running)) : Aside s s' := by
  refine ⟨fun id => .inl (chanOf_congr hchans id), fun q g hg hs => ?_, fun q g hg hs => ?_,
    fun q g id hg hc hs => ?_⟩
  · have hq : q ≠ p := by
      rintro rfl
      cases hf.symm.trans hg
      exact hbefore hs
    exact ⟨g, (hheap q hq).trans hg, hs, rfl, rfl⟩
  · have hq : q ≠ p := by
      rintro rfl
      cases hself.symm.trans hg
      exact hafter hs
    exact ⟨g, (hheap q hq).symm.trans hg, hs, rfl⟩
  · by_cases hq : q = p
    · subst hq
      cases hf.symm.trans hg
      exact ⟨f', hself, hgoes id hc hs⟩
    · exact ⟨g, (hheap q hq).trans hg, hc, hs⟩

theorem Aside.refl (s : Runtime) : Aside s s :=
  ⟨fun _ => .inl rfl, fun _ f hf hs => ⟨f, hf, hs, rfl, rfl⟩, fun _ f hf hs => ⟨f, hf, hs, rfl⟩,
    fun _ f _ hf hc hs => ⟨f, hf, hc, hs⟩⟩

theorem Aside.congr (hheap : s'.heap = s.heap) (hchans : s'.chans = s.chans) : Aside s s' := by
  refine ⟨fun id => .inl (chanOf_congr hchans id), ?_, ?_, ?_⟩ <;> rw [hheap]
  · exact fun _ f hf hs => ⟨f, hf, hs, rfl, rfl⟩
  · exact fun _ f hf hs => ⟨f, hf, hs, rfl⟩
  · exact fun _ f _ hf hc hs => ⟨f, hf, hc, hs⟩

theorem Plain.aside (h : Plain s s') : Aside s s' := by
  have hplain : ∀ {st : FiberState}, plainState st → st ≠ .waitingChan := by
    intro st hst he
    rw [he] at hst
    cases hst
  have hcall : ∀ {c : Option Call} {id}, plainCall c → c ≠ some (.recv id) := by
    intro c id hc he
    rw [he] at hc
    cases hc
  refine ⟨fun id => .inl (chanOf_congr h.chans id), fun p f hf hs => ?_, fun p f' hf' hs => ?_,
    fun p f id hf hc hs => ?_⟩
  · rcases h.heap p with he | ⟨g, g', hg, -, hp⟩
    · exact ⟨f, he.trans hf, hs, rfl, rfl⟩
    · cases hf.symm.trans hg
      exact absurd hs (hplain hp.states.1)
  · rcases h.heap p with he | ⟨g, g', -, hg', hp⟩
    · exact ⟨f', he.symm.trans hf', hs, rfl⟩
    · cases hf'.symm.trans hg'
      exact absurd hs (hplain hp.states.2)
  · rcases h.heap p with he | ⟨g, g', hg, hg', hp⟩
    · exact ⟨f, he.trans hf, hc, hs⟩
    · cases hf.symm.trans hg
      rcases hp.call with ⟨hsame, -, -⟩ | ⟨hold, -⟩
      · have hc' := hsame.trans hc
        exact ⟨g', hg', hc', hp.goes.resolve_left fun hnot => hcall hnot hc'⟩
      · exact absurd hc (hcall hold)

section
variable (h : Rendezvous acts s slot)
include h

/-- **The slots are as they were** after what concerns no channel. -/
theorem Rendezvous.aside (haside : Aside s s') : Rendezvous acts s' slot := by
  have hheld : ∀ id, (s'.chanOf id).bind Runtime.held = (s.chanOf id).bind Runtime.held := by
    intro id
    rcases haside.chans id with he | ⟨hnone, he⟩
    · rw [he]
    · rw [he, hnone]
      rfl
  refine ⟨h.slots, fun id => (h.held id).trans (hheld id).symm, fun id a v hslot => ?_, fun id hv hparked => ?_⟩
  · obtain ⟨p, ha, f, hf, hs, hc, hw⟩ := h.parked id a v hslot
    obtain ⟨f', hf', hs', hc', hw'⟩ := haside.stays p f hf hs
    exact ⟨p, ha, f', hf', hs', hc'.trans hc, hw'.trans hw⟩
  · rw [hheld] at hv
    obtain ⟨p, f', hf', hs', hc'⟩ := hparked
    obtain ⟨f, hf, hs, hc⟩ := haside.parked p f' hf' hs'
    obtain ⟨q, g, hg, hgc, hgs⟩ := h.answered id hv ⟨p, f, hf, hs, hc.symm.trans hc'⟩
    obtain ⟨g', hg', hgc', hgs'⟩ := haside.goes q g id hg hgc hgs
    exact ⟨q, g', hg', hgc', hgs'⟩

/-- **What is read off the slots.** -/
theorem Rendezvous.delivers (hsound : Sound s) : Delivers acts s := by
  refine ⟨fun id => ?_, h.slots.order, fun p f hf hnot => h.slots.idle (some p) fun id v hslot => ?_,
    fun id hv hparked => ?_⟩
  · rw [← h.held]
    exact h.slots.exact id
  · obtain ⟨q, hq, g, hg, hs, hc, -⟩ := h.parked id _ v hslot
    cases hq
    cases hf.symm.trans hg
    exact hnot ⟨hs, hc⟩
  · obtain ⟨p, f, hf, -, hs | hs⟩ := h.answered id hv hparked
    · exact .inl (List.ne_nil_of_mem (hsound.ready p f hf hs))
    · refine .inr ?_
      rw [(hsound.running p).mpr ⟨f, hf, hs⟩]
      nofun

theorem Rendezvous.idle (hf : s.heap p = some f) (hs : f.state ≠ .waitingChan)
    (id v : Int) : slot id ≠ some (some p, v) := by
  intro hslot
  obtain ⟨q, hq, g, hg, hstate, -⟩ := h.parked id _ v hslot
  cases hq
  cases hf.symm.trans hg
  exact hs hstate

theorem Rendezvous.one {id id' : Int} {a : Option Ptr} {v v' : Int}
    (hslot : slot id = some (a, v)) (hslot' : slot id' = some (a, v')) : id' = id := by
  obtain ⟨p, rfl, f, hf, -, -, hw⟩ := h.parked id a v hslot
  obtain ⟨q, hq, g, hg, -, -, hw'⟩ := h.parked id' _ v' hslot'
  cases hq
  cases hf.symm.trans hg
  exact hw'.symm.trans hw

end

end

end Runtime

end Datara.Natvar
