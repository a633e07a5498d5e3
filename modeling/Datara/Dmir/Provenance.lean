import Datara.Dmir.Frames

/-!
# Objects nobody refers to

A predicate `dead` on references, and stores that differ in dead objects only. As long as no value in
reach refers to a dead object (`Val.Off`), an environment's answer and an effect take two such
stores to two such stores, with the same events and the same values (`World.ask_agreeOff`,
`Effect.perform_agreeOff`). With no dead object at all this says that a run depends on nothing but
the store and the registers it reads.
-/

namespace Datara.Dmir

/-- A value that refers to no dead object. -/
def Val.Off (dead : Ref → Prop) (v : Val) : Prop := ∀ r, v = .ref r → ¬dead r

/-- Two stores that differ in dead objects only, which neither of them reaches. -/
structure World.AgreeOff (dead : Ref → Prop) (w w' : World) : Prop where
  heap : ∀ r, ¬dead r → w.heap r = w'.heap r
  fields : ∀ r o, ¬dead r → w.heap r = some o → ∀ field, (o.fields field).Off dead
  allocs : ∀ s, (∀ k, ¬dead (.site s.1 s.2 k)) → w.allocs s = w'.allocs s
  globals : w.globals = w'.globals
  globals_off : ∀ n, (w.globals n).Off dead
  known : w.known = w'.known
  known_off : ∀ r ∈ w.known, ¬dead r
  trace : w.trace = w'.trace

/-- Variables that agree where they are looked at. -/
def VarsAgree (dead : Ref → Prop) (live : String → Prop) (vars vars' : String → Val) : Prop :=
  ∀ n, live n → vars n = vars' n ∧ (vars n).Off dead

/-- The values of an effect refer to no dead object. -/
def Effect.Off (dead : Ref → Prop) : Effect → Prop
  | .compute _ r => ∀ v, r = .ok v → v.Off dead
  | .skip | .load _ _ => True
  | .store _ v => v.Off dead
  | .alloc _ _ fs => ∀ f ∈ fs, f.2.Off dead
  | .getField _ o _ => o.Off dead
  | .setField o _ v => o.Off dead ∧ v.Off dead
  | .emit e => ∀ v ∈ e.handed, v.Off dead
  | .request e binds =>
    (∀ v ∈ e.handed, v.Off dead) ∧ ∀ v, v.Off dead → ∀ b ∈ binds v, b.2.Off dead
  | .call _ _ args => ∀ a ∈ args, a.Off dead
  | .method _ _ o args => ∀ a ∈ o :: args, a.Off dead

/-- Two results that agree but for dead objects. -/
inductive Result.AgreeOff (dead : Ref → Prop) (live : String → Prop) : Result → Result → Prop
  | done {ws : List (ValueId × Val)} {vars vars' : String → Val} {w w' : World} :
    (∀ b ∈ ws, b.2.Off dead) → VarsAgree dead live vars vars' → w.AgreeOff dead w' →
      AgreeOff dead live (.done ws vars w) (.done ws vars' w')
  | halt {e : Ending} {w w' : World} :
    w.AgreeOff dead w' → AgreeOff dead live (.halt e w) (.halt e w')

variable {vars vars' : String → Val} {f : Function} {P : Program}

section
variable {dead : Ref → Prop} {live : String → Prop} {w w' : World} {v : Val}

theorem Val.off_of_ref?_eq_none (h : v.ref? = none) : v.Off dead := by
  rintro r rfl
  cases h

@[simp] theorem Scalar.off (s : Scalar) : s.1.Off dead := Val.off_of_ref?_eq_none s.2

@[simp] theorem Val.zero_off : Val.zero.Off dead := Val.off_of_ref?_eq_none rfl

namespace World.AgreeOff

theorem knows (h : w.AgreeOff dead w') : w.knows v = w'.knows v := by
  unfold World.knows
  split <;> simp [h.known]

theorem off_of_knows (hext : ∀ n, ¬dead (.ext n)) (h : w.AgreeOff dead w') (hk : w.knows v = true) :
    v.Off dead := by
  rintro r rfl
  cases r with
  | ext n => exact hext n
  | site fn d k => exact h.known_off _ (of_decide_eq_true hk)

theorem learn (h : w.AgreeOff dead w') (hv : v.Off dead) : (w.learn v).AgreeOff dead (w'.learn v) := by
  cases v with
  | ref r =>
    exact { h with
      known := by simp [World.learn, h.known]
      known_off := fun x hx => by
        rcases List.mem_cons.mp hx with rfl | hx
        · exact hv _ rfl
        · exact h.known_off x hx }
  | _ => exact h

theorem learnAll {vs : List Val} (h : w.AgreeOff dead w') (hv : ∀ v ∈ vs, v.Off dead) :
    (vs.foldl World.learn w).AgreeOff dead (vs.foldl World.learn w') := by
  induction vs generalizing w w' with
  | nil => exact h
  | cons v vs ih =>
    rw [List.forall_mem_cons] at hv
    exact ih (h.learn hv.1) hv.2

theorem emit (h : w.AgreeOff dead w') (e : Event) : (w.emit e).AgreeOff dead (w'.emit e) :=
  { h with trace := by simp only [World.emit, h.trace] }

theorem setGlobal (h : w.AgreeOff dead w') (n : String) (hv : v.Off dead) :
    (w.setGlobal n v).AgreeOff dead (w'.setGlobal n v) :=
  { h with
    globals := by simp [World.setGlobal, h.globals]
    globals_off := fun m => by
      by_cases hm : m = n
      · simpa [World.setGlobal, hm] using hv
      · simpa [World.setGlobal, hm] using h.globals_off m }

theorem setObj {r : Ref} {o : Obj} (h : w.AgreeOff dead w')
    (ho : ∀ field, (o.fields field).Off dead) : (w.setObj r o).AgreeOff dead (w'.setObj r o) :=
  { h with
    heap := fun x hx => by
      by_cases hxr : x = r
      · simp [World.setObj, hxr]
      · simpa [World.setObj, hxr] using h.heap x hx
    fields := fun x p hx hp => by
      by_cases hxr : x = r
      · obtain rfl : o = p := by simpa [World.setObj, hxr] using hp
        exact ho
      · exact h.fields x p hx (by simpa [World.setObj, hxr] using hp) }

end World.AgreeOff

theorem Obj.set_off {o : Obj} {field : String} (ho : ∀ f, (o.fields f).Off dead)
    (hv : v.Off dead) (f : String) : ((o.set field v).fields f).Off dead := by
  by_cases hf : f = field
  · simpa [Obj.set, hf] using hv
  · simpa [Obj.set, hf] using ho f

theorem Reply.run_agreeOff (hext : ∀ n, ¬dead (.ext n)) (k : Reply) (h : w.AgreeOff dead w') :
    (k.run w).1 = (k.run w').1 ∧ (k.run w).2.AgreeOff dead (k.run w').2 ∧
      ∀ v, (k.run w).1 = .returned v → v.Off dead := by
  induction k generalizing w w' with
  | ret v =>
    simp only [run, h.knows (v := v)]
    split
    case isTrue hk =>
      refine ⟨rfl, h, fun u hu => ?_⟩
      cases hu
      exact h.off_of_knows hext (h.knows.trans hk)
    case isFalse => exact ⟨rfl, h, fun u hu => by cases hu⟩
  | trap t => exact ⟨rfl, h, fun u hu => by cases hu⟩
  | stop => exact ⟨rfl, h, fun u hu => by cases hu⟩
  | emit v k ih => exact ih (h.emit _)
  | getField r field k ih =>
    simp only [run, h.knows (v := .ref r)]
    split
    case isTrue hk =>
      have hr : ¬dead r := h.off_of_knows hext (h.knows.trans hk) r rfl
      rw [h.heap r hr]
      cases ho : w'.heap r with
      | none => exact ⟨rfl, h, fun u hu => by cases hu⟩
      | some o => exact ih _ (h.learn (h.fields r o hr ((h.heap r hr).trans ho) field))
    case isFalse => exact ⟨rfl, h, fun u hu => by cases hu⟩
  | setField r field v k ih =>
    simp only [run, h.knows (v := .ref r), h.knows (v := v)]
    split
    case isTrue hk =>
      rw [Bool.and_eq_true] at hk
      have hr : ¬dead r := h.off_of_knows hext (h.knows.trans hk.1) r rfl
      rw [h.heap r hr]
      cases ho : w'.heap r with
      | none => exact ⟨rfl, h, fun u hu => by cases hu⟩
      | some o =>
        exact ih (h.setObj (Obj.set_off (h.fields r o hr ((h.heap r hr).trans ho))
          (h.off_of_knows hext (h.knows.trans hk.2))))
    case isFalse => exact ⟨rfl, h, fun u hu => by cases hu⟩
  | put n o k ih => exact ih (h.setObj fun _ => Val.zero_off)
  | getGlobal n k ih =>
    simp only [run, h.globals]
    exact ih _ (h.learn (h.globals ▸ h.globals_off n))
  | setGlobal n v k ih =>
    simp only [run, h.knows (v := v)]
    split
    case isTrue hk => exact ih (h.setGlobal n (h.off_of_knows hext (h.knows.trans hk)))
    case isFalse => exact ⟨rfl, h, fun u hu => by cases hu⟩

/-- An environment's answer is the same, and refers to no dead object. -/
theorem World.ask_agreeOff (env : Env) {e : Event} (hext : ∀ n, ¬dead (.ext n))
    (h : w.AgreeOff dead w') (he : ∀ v ∈ e.handed, v.Off dead) :
    (w.ask env e).1 = (w'.ask env e).1 ∧ (w.ask env e).2.AgreeOff dead (w'.ask env e).2 ∧
      ∀ v, (w.ask env e).1 = .returned v → v.Off dead := by
  unfold World.ask
  rw [h.trace]
  exact Reply.run_agreeOff hext _ ((h.emit e).learnAll he)

/-- A run that has ended leaves an observer with the same outcome. -/
theorem Program.finish_agreeOff {e : Ending} (hext : ∀ n, ¬dead (.ext n))
    (h : w.AgreeOff dead w') (he : ∀ v, e = .returned v → v.Off dead) :
    P.finish w e = P.finish w' e := by
  cases e with
  | returned v =>
    have := (World.ask_agreeOff P.env (e := .returned v) hext h fun u hu => by
      obtain rfl := List.mem_singleton.mp hu
      exact he _ rfl).2.1
    simp [finish, this.trace]
  | trapped t => simp only [finish, h.trace]
  | stopped => simp only [finish, h.trace]

/-! ## Instructions -/

theorem decideArms_off {arms : List (Val × Val)} {ev : Option Val}
    (ha : ∀ a ∈ arms, a.2.Off dead) (he : ∀ v ∈ ev, v.Off dead) : (decideArms arms ev).Off dead := by
  induction arms with
  | nil =>
    cases ev with
    | none => exact Val.zero_off
    | some v => exact he v rfl
  | cons a arms ih =>
    rw [List.forall_mem_cons] at ha
    simp only [decideArms]
    split_ifs
    · exact ha.1
    · exact ih ha.2

variable {op ty : String}

theorem evalIntBinOp_off {safe : Bool} {x y : BitVec 64}
    (h : evalIntBinOp safe op ty x y = .ok v) : v.Off dead := by
  refine Val.off_of_ref?_eq_none ?_
  unfold evalIntBinOp at h
  split at h
  · cases h; rfl
  · split at h
    · cases h; rfl
    · simp only at h
      split at h
      · cases h
      · split at h
        · cases h
        · cases h; rfl
        · cases h
          split <;> rfl

variable {h : Host}

/-- An operator's result is no reference. -/
theorem Host.evalBinOp_off {safe : Bool} {a b : Val} (hv : h.evalBinOp safe op ty a b = .ok v) : v.Off dead := by
  have str : ∀ {s : String}, (Except.ok (.str s) : Except Trap Val) = .ok v → v.Off dead := by
    intro s hs
    cases hs
    exact Val.off_of_ref?_eq_none rfl
  have scalar : ∀ {s : Scalar}, (Except.ok s.1 : Except Trap Val) = .ok v → v.Off dead := by
    intro s hs
    cases hs
    exact Scalar.off s
  have cmp : ∀ {s t : String}, evalStrBinOp op s t = .ok v → v.Off dead := by
    intro s t hs
    refine Val.off_of_ref?_eq_none ?_
    unfold evalStrBinOp at hs
    split at hs <;> cases hs <;> rfl
  unfold Host.evalBinOp at hv
  split at hv <;> split_ifs at hv <;>
    first
    | exact str hv
    | exact scalar hv
    | exact cmp hv
    | exact evalIntBinOp_off hv

theorem Host.evalUnOp_off {a : Val} (ha : a.Off dead) : (h.evalUnOp op ty a).Off dead := by
  unfold Host.evalUnOp
  split_ifs
  · split
    · exact Val.off_of_ref?_eq_none rfl
    · exact Scalar.off _
  · split
    · exact Val.off_of_ref?_eq_none rfl
    · exact Val.off_of_ref?_eq_none rfl
    · exact Scalar.off _
  · exact ha

theorem Host.evalCast_off {fromTy toTy : String} {a : Val} (ha : a.Off dead) :
    (h.evalCast fromTy toTy a).Off dead := by
  unfold Host.evalCast
  split_ifs
  · exact Scalar.off _
  all_goals
    split
    · exact Val.off_of_ref?_eq_none rfl
    · exact Val.off_of_ref?_eq_none rfl
    · exact ha

theorem Host.convertMethod_off {m : String} {args : List ValueId} {a v : Val}
    (hv : h.convertMethod m args a = some (.ok v)) : v.Off dead := by
  refine Val.off_of_ref?_eq_none ?_
  unfold Host.convertMethod at hv
  split at hv
  case h_3 b =>
    cases ht : h.truncate b with
    | none => rw [ht] at hv; cases hv
    | some x => rw [ht] at hv; cases hv; rfl
  case h_4 x => cases hv; exact (h.convert "Int" "Float" (.int x)).2
  case h_5 b => cases hv; exact (h.convert "Int" "Float" (.bool b)).2
  all_goals cases hv <;> rfl

theorem Inst.effect_off {safe : List ValueId} {rd : ValueId → Val} {i : Inst}
    (hr : ∀ v ∈ i.reads, (rd v).Off dead) : (i.effect h safe rd).Off dead := by
  have ok : ∀ {a : Val}, a.Off dead → ∀ v, (Except.ok a : Except Trap Val) = .ok v → v.Off dead := by
    intro a ha v hv
    cases hv
    exact ha
  have scalar : ∀ {a : Val}, a.ref? = none →
      ∀ v, (Except.ok a : Except Trap Val) = .ok v → v.Off dead :=
    fun ha => ok (Val.off_of_ref?_eq_none ha)
  cases i with
  | constInt d v => exact scalar rfl
  | constFloat d v => exact scalar rfl
  | constStr d v => exact scalar rfl
  | constBool d v => exact scalar rfl
  | getFuncAddr d f => exact scalar rfl
  | formatStr d ps vs tys => exact scalar rfl
  | loadVar d n => trivial
  | assignVar n v => exact hr v List.mem_cons_self
  | binOp d op l r ty => exact fun v hv => Host.evalBinOp_off hv
  | unOp d op o ty => exact ok (Host.evalUnOp_off (hr o List.mem_cons_self))
  | cast d v fromTy toTy => exact ok (Host.evalCast_off (hr v List.mem_cons_self))
  | call d f args ty =>
    intro a ha
    obtain ⟨v, hv, rfl⟩ := List.mem_map.mp ha
    exact hr v hv
  | methodCall d o m args ty =>
    simp only [effect]
    split
    case h_1 r hr => exact fun v hv => Host.convertMethod_off (hv ▸ hr)
    case h_2 =>
      intro a ha
      rcases List.mem_cons.mp ha with rfl | ha
      · exact hr o List.mem_cons_self
      · obtain ⟨v, hv, rfl⟩ := List.mem_map.mp ha
        exact hr v (List.mem_cons_of_mem _ hv)
  | structInit d c fs =>
    intro a ha
    obtain ⟨f, hf, rfl⟩ := List.mem_map.mp ha
    exact hr f.2 (List.mem_map_of_mem hf)
  | getField d o f ty => exact hr o List.mem_cons_self
  | setField o f v => exact ⟨hr o List.mem_cons_self, hr v (List.mem_cons_of_mem _ List.mem_cons_self)⟩
  | out v ty => exact fun u hu => by cases hu
  | err v => exact fun u hu => by cases hu
  | decide d arms ev ty =>
    simp only [reads, instructionUses, List.mem_append, List.mem_flatMap] at hr
    refine ok (decideArms_off (fun a ha => ?_) fun v hv => ?_)
    · obtain ⟨b, hb, rfl⟩ := List.mem_map.mp ha
      exact hr b.2 (.inl ⟨b, hb, by simp⟩)
    · obtain ⟨u, hu, rfl⟩ := Option.map_eq_some_iff.mp hv
      exact hr u (.inr (by simp [hu]))
  | whileLoop ci cv bi => trivial
  | ret v => trivial
  | select d c t e ty =>
    refine ok ?_
    split_ifs
    · exact hr t (by simp [reads, instructionUses])
    · exact hr e (by simp [reads, instructionUses])
  | inlineAsm tm outs ins cl os =>
    refine ⟨fun u hu => ?_, fun v _ b hb => ?_⟩
    · obtain ⟨a, ha, rfl⟩ := List.mem_map.mp hu
      exact hr a.2 (List.mem_map_of_mem ha)
    · obtain ⟨o, _, rfl⟩ := List.mem_map.mp hb
      exact Scalar.off _
  | volatileLoad d a ty =>
    refine ⟨fun u hu => ?_, fun v hv b hb => ?_⟩
    · obtain rfl := List.mem_singleton.mp hu
      exact hr a List.mem_cons_self
    · obtain rfl := List.mem_singleton.mp hb
      exact hv
  | volatileStore a v ty =>
    refine ⟨fun u hu => ?_, fun v _ b hb => by cases hb⟩
    simp only [Event.handed, List.mem_cons, List.not_mem_nil, or_false] at hu
    rcases hu with rfl | rfl
    · exact hr a List.mem_cons_self
    · exact hr v (List.mem_cons_of_mem _ List.mem_cons_self)

/-! ## Effects -/

theorem VarsAgree.update (h : VarsAgree dead live vars vars')
    (n : String) (hv : v.Off dead) :
    VarsAgree dead live (Function.update vars n v) (Function.update vars' n v) := by
  intro m hm
  by_cases hmn : m = n
  · simpa [hmn] using hv
  · simpa [hmn] using h m hm

theorem Result.answered_agreeOff {a a' : Ending × World}
    {binds : Val → List (ValueId × Val)} (hvars : VarsAgree dead live vars vars')
    (h : a.1 = a'.1 ∧ a.2.AgreeOff dead a'.2 ∧ ∀ v, a.1 = .returned v → v.Off dead)
    (hb : ∀ v, v.Off dead → ∀ b ∈ binds v, b.2.Off dead) :
    Result.AgreeOff dead live (.answered vars binds a) (.answered vars' binds a') := by
  obtain ⟨e, w⟩ := a
  obtain ⟨e', w'⟩ := a'
  obtain ⟨rfl, hw, hv⟩ := h
  cases e with
  | returned v => exact .done (hb v (hv v rfl)) hvars hw
  | trapped t => exact .halt hw
  | stopped => exact .halt hw

theorem World.alloc_agreeOff {fn : String} {d : ValueId} {c : String}
    {fs : List (String × Val)} (h : w.AgreeOff dead w') (hs : ∀ k, ¬dead (.site fn d k))
    (hf : ∀ f ∈ fs, f.2.Off dead) :
    (w.alloc fn d c fs).1 = (w'.alloc fn d c fs).1 ∧
      (w.alloc fn d c fs).2.AgreeOff dead (w'.alloc fn d c fs).2 := by
  have hk : w.allocs (fn, d) = w'.allocs (fn, d) := h.allocs (fn, d) hs
  have hobj : ∀ (fs : List (String × Val)) (o : Obj), (∀ f, (o.fields f).Off dead) →
      (∀ f ∈ fs, f.2.Off dead) →
      ∀ f, ((fs.foldl (fun o f => o.set f.1 f.2) o).fields f).Off dead := by
    intro fs
    induction fs with
    | nil => exact fun o ho _ => ho
    | cons f fs ih =>
      intro o ho hfs
      rw [List.forall_mem_cons] at hfs
      exact ih _ (Obj.set_off ho hfs.1) hfs.2
  have hset := h.setObj (r := .site fn d (w.allocs (fn, d)))
    (o := fs.foldl (fun o f => o.set f.1 f.2) { className := c, fields := fun _ => .zero })
    (hobj fs _ (fun _ => Val.zero_off) hf)
  refine ⟨by simp only [World.alloc, hk], ?_⟩
  simp only [World.alloc, ← hk]
  exact { hset with
    allocs := fun s hs' => by
      by_cases hsd : s = (fn, d)
      · simp [hsd]
      · simpa [hsd] using h.allocs s hs' }

theorem World.AgreeOff.alloc_left {fn : String} {d : ValueId} {c : String} {fs : List (String × Val)}
    (h : w.AgreeOff dead w') (hd : ∀ k, dead (.site fn d k)) : (w.alloc fn d c fs).2.AgreeOff dead w' :=
  { h with
    heap := fun r hr => by
      have : r ≠ .site fn d (w.allocs (fn, d)) := fun he => hr (he ▸ hd _)
      simpa [World.alloc, this] using h.heap r hr
    fields := fun r o hr ho => by
      have : r ≠ .site fn d (w.allocs (fn, d)) := fun he => hr (he ▸ hd _)
      exact h.fields r o hr (by simpa [World.alloc, this] using ho)
    allocs := fun x hx => by
      have : x ≠ (fn, d) := fun he => by subst he; exact hx 0 (hd 0)
      simpa [World.alloc, this] using h.allocs x hx }

/-- **An effect does the same on stores that differ in dead objects only.** -/
theorem Effect.perform_agreeOff
    {e : Effect} (hext : ∀ n, ¬dead (.ext n)) (h : w.AgreeOff dead w')
    (hvars : VarsAgree dead live vars vars') (he : e.Off dead)
    (hload : ∀ d n, e = .load d n → P.isGlobal n = false → live (f.slotOf n))
    (halloc : ∀ d c fs, e = .alloc d c fs → ∀ k, ¬dead (.site f.name d k)) :
    Result.AgreeOff dead live (e.perform P f vars w) (e.perform P f vars' w') := by
  cases e with
  | compute d r =>
    cases r with
    | ok v =>
      refine .done (fun b hb => ?_) hvars h
      obtain rfl := List.mem_singleton.mp hb
      exact he v rfl
    | error t => exact .halt h
  | skip => exact .done (fun b hb => by cases hb) hvars h
  | load d n =>
    simp only [perform]
    cases hg : P.isGlobal n with
    | true =>
      simp only [if_true, h.globals]
      refine .done (fun b hb => ?_) hvars h
      obtain rfl := List.mem_singleton.mp hb
      exact h.globals ▸ h.globals_off n
    | false =>
      have hn := hvars _ (hload d n rfl hg)
      simp only [Bool.false_eq_true, if_false, ← hn.1]
      refine .done (fun b hb => ?_) hvars h
      obtain rfl := List.mem_singleton.mp hb
      exact hn.2
  | store n v =>
    simp only [perform]
    split_ifs
    · exact .done (fun b hb => by cases hb) hvars ((h.setGlobal n he).emit _)
    · exact .done (fun b hb => by cases hb) (hvars.update _ he) h
  | alloc d c fs =>
    have hs := halloc d c fs rfl
    obtain ⟨hr, hw⟩ := World.alloc_agreeOff (c := c) h hs he
    simp only [perform, hr]
    refine .done (fun b hb => ?_) hvars hw
    obtain rfl := List.mem_singleton.mp hb
    rintro r hr'
    cases hr'
    exact hs _
  | getField d o field =>
    have hd : w.deref o = w'.deref o := by
      cases o with
      | ref r => simp only [World.deref, h.heap r (he r rfl)]
      | _ => rfl
    simp only [perform, hd]
    split
    case h_1 r obj hro =>
      refine .done (fun b hb => ?_) hvars h
      obtain rfl := List.mem_singleton.mp hb
      cases o with
      | ref r' =>
        obtain ⟨o', ho', heq⟩ := Option.map_eq_some_iff.mp hro
        cases heq
        exact h.fields _ _ (he _ rfl) ((h.heap _ (he _ rfl)).trans ho') field
      | _ => cases hro
    case h_2 => exact .halt h
  | setField o field v =>
    have hd : w.deref o = w'.deref o := by
      cases o with
      | ref r => simp only [World.deref, h.heap r (he.1 r rfl)]
      | _ => rfl
    simp only [perform, hd]
    split
    case h_1 r obj hro =>
      refine .done (fun b hb => by cases hb) hvars (h.setObj ?_)
      cases o with
      | ref r' =>
        obtain ⟨o', ho', heq⟩ := Option.map_eq_some_iff.mp hro
        cases heq
        exact Obj.set_off (h.fields _ _ (he.1 _ rfl) ((h.heap _ (he.1 _ rfl)).trans ho')) he.2
      | _ => cases hro
    case h_2 => exact .halt h
  | emit e => exact .done (fun b hb => by cases hb) hvars (h.emit e)
  | request e binds => exact Result.answered_agreeOff hvars (World.ask_agreeOff P.env hext h he.1) he.2
  | call d g args =>
    simp only [perform]
    split
    · refine .done (fun b hb => ?_) hvars h
      obtain rfl := List.mem_singleton.mp hb
      exact Scalar.off _
    · refine Result.answered_agreeOff hvars (World.ask_agreeOff P.env hext h he) fun v hv b hb => ?_
      obtain rfl := List.mem_singleton.mp hb
      exact hv
  | method d m o args =>
    refine Result.answered_agreeOff hvars (World.ask_agreeOff P.env hext h he) fun v hv b hb => ?_
    obtain rfl := List.mem_singleton.mp hb
    exact hv

theorem Terminator.exit_off {rd : ValueId → Val} {t : Terminator}
    (hr : ∀ v ∈ t.vids, (rd v).Off dead) :
    (∀ target args, t.exit f rd = .goto target args → ∀ a ∈ args, a.Off dead) ∧
      ∀ v, t.exit f rd = .ret v → v.Off dead := by
  have hmap : ∀ l : List ValueId, (∀ v ∈ l, (rd v).Off dead) → ∀ a ∈ l.map rd, a.Off dead := by
    intro l hl a ha
    obtain ⟨v, hv, rfl⟩ := List.mem_map.mp ha
    exact hl v hv
  cases t with
  | branch t args =>
    refine ⟨fun target as he => ?_, fun v he => by cases he⟩
    cases he
    exact hmap args hr
  | condBranch c t ta e ea =>
    simp only [vids, List.cons_append, List.mem_cons, List.mem_append] at hr
    simp only [exit]
    split_ifs
    · refine ⟨fun target as he => ?_, fun v he => by cases he⟩
      cases he
      exact hmap ta fun v hv => hr v (.inr (.inl hv))
    · refine ⟨fun target as he => ?_, fun v he => by cases he⟩
      cases he
      exact hmap ea fun v hv => hr v (.inr (.inr hv))
  | ret v =>
    refine ⟨fun target as he => (by cases he), fun u he => ?_⟩
    cases he
    unfold Function.returnValue
    split_ifs
    · exact Val.off_of_ref?_eq_none rfl
    · cases v with
      | none => exact Val.zero_off
      | some v => exact hr v (by simp [vids])
  | unreachable => exact ⟨fun target as he => (by cases he), fun v he => (by cases he)⟩

/-- Registers stay clear of dead objects when what is written does. -/
theorem bindRegs_off {regs : ValueId → Val} {ws : List (ValueId × Val)} {u : ValueId}
    (hws : ∀ b ∈ ws, b.2.Off dead) (hu : (regs u).Off dead) : (bindRegs regs ws u).Off dead := by
  rcases bindRegs_cases regs ws u with h | h
  · rwa [h]
  · exact hws _ h

end

/-! ## Objects stay -/

/-- No object goes away. -/
def World.Grows (w w' : World) : Prop := ∀ r, (w.heap r).isSome → (w'.heap r).isSome

namespace World.Grows

variable {w w' w'' : World}

theorem refl (w : World) : w.Grows w := fun _ => id

theorem trans (h : w.Grows w') (h' : w'.Grows w'') : w.Grows w'' := fun r hr => h' r (h r hr)

theorem of_heap_eq (h : w'.heap = w.heap) : w.Grows w' := fun r hr => by rwa [h]

theorem emit (w : World) (e : Event) : w.Grows (w.emit e) := of_heap_eq rfl

theorem setGlobal (w : World) (n : String) (v : Val) : w.Grows (w.setGlobal n v) := of_heap_eq rfl

theorem setObj (w : World) (r : Ref) (o : Obj) : w.Grows (w.setObj r o) := by
  intro x hx
  by_cases hxr : x = r
  · simp [World.setObj, hxr]
  · simpa [World.setObj, hxr] using hx

theorem learn (w : World) (v : Val) : w.Grows (w.learn v) := by
  cases v <;> exact of_heap_eq rfl

theorem learnAll (w : World) (vs : List Val) : w.Grows (vs.foldl World.learn w) := by
  induction vs generalizing w with
  | nil => exact .refl w
  | cons v vs ih => exact (learn w v).trans (ih _)

end World.Grows

theorem Reply.run_grows (k : Reply) (w : World) : w.Grows (k.run w).2 := by
  induction k generalizing w with
  | ret v => simp only [run]; split <;> exact .refl w
  | trap t => exact .refl w
  | stop => exact .refl w
  | emit v k ih => exact (World.Grows.emit w _).trans (ih _)
  | getField r field k ih =>
    simp only [run]
    split
    · split
      · exact (World.Grows.learn w _).trans (ih _ _)
      · exact .refl w
    · exact .refl w
  | setField r field v k ih =>
    simp only [run]
    split
    · split
      · exact (World.Grows.setObj w _ _).trans (ih _)
      · exact .refl w
    · exact .refl w
  | put n o k ih => exact (World.Grows.setObj w _ _).trans (ih _)
  | getGlobal n k ih => exact (World.Grows.learn w _).trans (ih _ _)
  | setGlobal n v k ih =>
    simp only [run]
    split
    · exact (World.Grows.setGlobal w _ _).trans (ih _)
    · exact .refl w

theorem World.ask_grows (env : Env) (w : World) (e : Event) : w.Grows (w.ask env e).2 :=
  ((World.Grows.emit w e).trans (World.Grows.learnAll (w.emit e) _)).trans
    (Reply.run_grows _ _)

theorem World.alloc_grows (w : World) (fn : String) (d : ValueId) (c : String)
    (fs : List (String × Val)) : w.Grows (w.alloc fn d c fs).2 := World.Grows.setObj w _ _

theorem Effect.perform_grows {w w' : World}
    {e : Effect} {ws : List (ValueId × Val)} (h : e.perform P f vars w = .done ws vars' w') :
    w.Grows w' := by
  have answered : ∀ {binds : Val → List (ValueId × Val)} {ev : Event},
      Result.answered vars binds (w.ask P.env ev) = .done ws vars' w' → w.Grows w' := by
    intro binds ev ha
    obtain ⟨v, hv, _⟩ := Result.answered_done ha
    have := World.ask_grows P.env w ev
    rwa [hv] at this
  cases e with
  | compute d r => cases r <;> cases h; exact .refl w
  | skip => cases h; exact .refl w
  | load d n => cases h; exact .refl w
  | store n v =>
    simp only [perform] at h
    split at h <;> cases h
    · exact .of_heap_eq rfl
    · exact .refl w
  | alloc d c fs => cases h; exact World.alloc_grows w _ _ _ _
  | getField d o field =>
    simp only [perform] at h
    split at h <;> cases h
    exact .refl w
  | setField o field v =>
    simp only [perform] at h
    split at h <;> cases h
    exact World.Grows.setObj w _ _
  | emit e => cases h; exact .of_heap_eq rfl
  | request e binds => exact answered h
  | call d g args =>
    simp only [perform] at h
    split at h
    · cases h; exact .refl w
    · exact answered h
  | method d m o args => exact answered h

end Datara.Dmir
