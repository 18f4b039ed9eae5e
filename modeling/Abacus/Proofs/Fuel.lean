import Abacus.Proofs.Simulation.OneSystem

/-! Fuel is no part of the result of a run: a run that ends ends in the same way with more of it. So
a session that ends has one result. Nobody can tell either whether a run was watched. -/

namespace Abacus

variable {α : Type}

/-- The fuel was too little for a run to end. -/
def LacksFuel (r : Except RunError (Outcome α)) : Prop :=
  ∃ log, r = .error (.defect .outOfFuel log)

theorem start_frames_related (s : NumberSystem α) (r t : Resources α) (fit : List Token → Prop) :
    Frames.Related (Binding.Related Eq (fun _ _ => True) fit) (Machine.start s r).frames
      (Machine.start s t).frames :=
  start_related
    (fun name => by
      cases s.constants.lookup name with
      | none => exact .none
      | some v => exact .some rfl)
    (fun name => by
      cases s.builtin? name with
      | none => exact .none
      | some x => exact .some ⟨rfl, trivial⟩)
    r t

/-- A run beside the same run, which may be watched and may have more fuel. -/
def Simulation.ofFuel (setup : Setup α) (watches : Bool) (lessFuel : Prop) :
    Simulation setup { setup with remembers := setup.remembers, watches := watches } :=
  .ofResources setup watches Eq (fun _ => False) Eq lessFuel False (fun _ => id)
    (repeats_same setup) (builtins_same setup) (factorial_same setup)

theorem Program.runIn_related (setup : Setup α) (watches : Bool) (lessFuel : Prop)
    {fuel fuel' : Nat} (h : fuel = fuel' ∨ lessFuel ∧ fuel ≤ fuel') (p : Program) (seed : Int)
    (inputs : List String) :
    p.runIn { setup with watches := watches } fuel' seed inputs =
        p.runIn setup fuel seed inputs ∨
      lessFuel ∧ LacksFuel (p.runIn setup fuel seed inputs) := by
  let S := Simulation.ofFuel setup watches lessFuel
  let start := Machine.start setup.system (setup.system.resources seed inputs)
  have hm : S.Related start start :=
    ⟨start_frames_related _ _ _ _, .nil, rfl, rfl, rfl, rfl⟩
  have hbody : Statement.AllFit S.fit p.body := Statement.allFit_of_all (fun _ => trivial) _
  have he := (S.simulates_program h hbody).ends start start hm
  rcases he.outcome_eq rfl rfl rfl (fun _ => id) setup.debugLevel with hh | ⟨e, m, hh, ha⟩
  · exact .inl hh.symm
  · rcases ha with ⟨hl, rfl⟩ | ⟨hl, _⟩ | ⟨hl, _⟩
    · exact .inr ⟨hl, _, congrArg (Outcome.ofResult setup.debugLevel) hh⟩
    · exact hl.elim
    · exact hl.elim

theorem Program.runIn_mono (setup : Setup α) {fuel fuel' : Nat} (h : fuel ≤ fuel') (p : Program)
    (seed : Int) (inputs : List String) (hr : ¬ LacksFuel (p.runIn setup fuel seed inputs)) :
    p.runIn setup fuel' seed inputs = p.runIn setup fuel seed inputs :=
  (p.runIn_related setup setup.watches True (.inr ⟨trivial, h⟩) seed inputs).resolve_right
    (fun hl => hr hl.2)

/-- Nobody can tell whether a run was watched. -/
theorem Program.runIn_watched (setup : Setup α) (watches : Bool) (fuel : Nat) (p : Program)
    (seed : Int) (inputs : List String) :
    p.runIn { setup with watches := watches } fuel seed inputs =
      p.runIn setup fuel seed inputs :=
  (p.runIn_related setup watches False (.inl rfl) seed inputs).resolve_right And.left

namespace Session

def Ends (s : NumberSystem α) (session : Session) (r : Except RunError (Outcome α)) : Prop :=
  ∃ fuel, session.runWith s fuel = r ∧ ¬ LacksFuel r

theorem runWith_mono (s : NumberSystem α) {fuel fuel' : Nat} (h : fuel ≤ fuel')
    (session : Session) (hr : ¬ LacksFuel (session.runWith s fuel)) :
    session.runWith s fuel' = session.runWith s fuel := by
  have hrun : ∀ p : Program, ¬ LacksFuel (p.run s session.options fuel session.inputs) →
      p.run s session.options fuel' session.inputs =
        p.run s session.options fuel session.inputs :=
    fun p hp => p.runIn_mono (p.setup s session.options) h _ _ hp
  cases hp : session.program with
  | some p =>
    simp only [runWith, hp] at hr ⊢
    exact hrun p hr
  | none =>
    simp only [runWith, hp] at hr ⊢
    cases hs : Program.parse session.source session.options.strict with
    | error f => rfl
    | ok p =>
      simp only [hs] at hr ⊢
      exact hrun p hr

/-- A session that ends has one result. -/
theorem Ends.unique {s : NumberSystem α} {session : Session} {r r' : Except RunError (Outcome α)}
    (h : session.Ends s r) (h' : session.Ends s r') : r = r' := by
  obtain ⟨fuel, rfl, hr⟩ := h
  obtain ⟨fuel', rfl, hr'⟩ := h'
  rcases Nat.le_total fuel fuel' with hle | hle
  · exact (runWith_mono s hle session hr).symm
  · exact runWith_mono s hle session hr'

end Session

end Abacus
