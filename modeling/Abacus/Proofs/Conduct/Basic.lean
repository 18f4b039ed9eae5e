import Abacus.Proofs.Reading.Heads
import Abacus.Proofs.Scoping.Frames
import Abacus.Proofs.Simulation.Basic

/-! What a run keeps to. A `Conduct` says what holds of the state of a run at any time, what its
computations may add to that state, and how they may stop. Since some of it is about what was there
before, it is said of a world that only grows. `Obeys` says that a computation keeps to it, and
`Leaves` that a statement does, between the moments that are noted at its beginning and its end. -/

namespace Abacus

variable {α γ δ : Type}

/-- What later steps of a run can depend on, other than what built-in functions draw on. -/
structure Memory (α : Type) where
  frames : Frames (Binding α)
  blocks : Blocks
  history : List (Moment α)

def Machine.memory (m : Machine α) : Memory α :=
  ⟨m.frames, m.blocks, m.history⟩

def Memory.note (scope : Scope) (c : Memory α) : Memory α :=
  { c with history := ⟨scope, c.frames⟩ :: c.history }

/-- What a computation may add: so many names to the frame of the scope `own`, a record about each of
the statements `reported` in their order, prints and, with `report`, the values of lines. -/
structure Additions where
  own : Scope
  names : Nat
  report : Bool
  reported : List Statement

namespace Additions

/-- No names, and nothing but prints. -/
def quiet (own : Scope) : Additions :=
  ⟨own, 0, false, []⟩

/-- What one computation and the next one may add makes up `c`. -/
structure Sum (a b c : Additions) : Prop where
  own : a.own = c.own
  own' : b.own = c.own
  names : a.names + b.names ≤ c.names
  report : a.report = true → c.report = true
  report' : b.report = true → c.report = true
  reported : (a.reported ++ b.reported).Sublist c.reported

theorem sum_quiet_left (a : Additions) : Sum (quiet a.own) a a where
  own := rfl
  own' := rfl
  names := by simp [quiet]
  report := nofun
  report' := id
  reported := .refl _

theorem sum_quiet_right (a : Additions) : Sum a (quiet a.own) a where
  own := rfl
  own' := rfl
  names := by simp [quiet]
  report := id
  report' := nofun
  reported := by simp [quiet]

end Additions

/-- What is said about how computations change the frames and the records. -/
structure Moves (α : Type) where
  rel : Additions → Machine α → Machine α → Prop
  same : ∀ {a m m'}, m'.frames = m.frames → m'.records = m.records → rel a m m'
  trans : ∀ {a b c m m' m''}, Additions.Sum a b c → rel a m m' → rel b m' m'' → rel c m m''
  record : ∀ {a m m'} {s : Statement} {output}, m'.frames = m.frames →
    m'.records = m.records.push ⟨s.kind, s.source, output⟩ →
    (s.kind ≠ .print ∧ s.kind ≠ .inline → s ∈ a.reported) →
    (a.report = false → s.kind ≠ .inline) → rel a m m'
  opened : ∀ {own scope names report reported m m' m''}, m.frames.Opened m'.frames →
    m'.records = m.records → rel ⟨m.frames.frames.size :: scope, names, report, reported⟩ m' m'' →
    rel ⟨own, 0, report, reported⟩ m m''
  placed : ∀ {scope name b m m' m''}, rel (.quiet scope) m m' →
    m.frames.Placed scope name b m'.frames m''.frames → m''.records = m'.records →
    rel ⟨scope, 1, false, []⟩ m m''

def Moves.any : Moves α where
  rel _ _ _ := True
  same _ _ := trivial
  trans _ _ _ := trivial
  record _ _ _ _ := trivial
  opened _ _ _ := trivial
  placed _ _ _ := trivial

/-- How a run may stop. It may always want a text; whether it may lack a number for a zero, the
function behind `!` or the text of a line depends on the number system. -/
structure Stops (setup : Setup α) where
  may : Stop → Prop
  input : ∀ prompt, may (.input prompt)
  zero : ∀ f, setup.system.parse "0" = .error f → may (.ofLiteral f)
  factorial : setup.system.builtin? "fac" = none → may (.defect .noOperand)
  unshown : setup.Shows ∨ ∀ f, may (.defect (.unshown f))

def Stops.all (setup : Setup α) : Stops setup where
  may _ := True
  input _ := trivial
  zero _ _ := trivial
  factorial _ := trivial
  unshown := .inr (fun _ => trivial)

namespace Binding

/-- A parameter can stand for it: of the numbers only the variables are passed. -/
def Passable (b : Binding α) : Prop :=
  ∀ v, b ≠ .number v true

theorem passable_variable (v : α) : (Binding.number v false).Passable :=
  nofun

theorem passable_function (g : Function) : (Binding.function g : Binding α).Passable :=
  nofun

theorem passable_of_variable {b : Binding α} (h : b.isConstant = false) : b.Passable := by
  rintro v rfl
  cases h

end Binding

/-- What the frame of a new scope inside `scope` may bind: the counter of a loop, or a parameter of
a function. -/
inductive Entry (free : String → Prop) (admits : Function → Prop) (scope : Scope) :
    String × Binding α → Prop where
  | counter {name : String} (h : free name) (v : α) :
      Entry free admits scope (name, .number v true)
  | parameter {name : String} {b : Binding α} {g : Function} (hg : admits g) (hs : g.scope = scope)
      (hn : name ∈ g.parameters) (hb : b.Passable) (ha : ∀ f, b = .function f → admits f) :
      Entry free admits scope (name, b)

/-- What holds of a run at any time. `begun` holds where a statement begins and `ended` where it
ends, in the middle of what was noted about it. -/
structure Conduct (setup : Setup α) where
  World : Type
  Before : World → World → Prop
  refl : ∀ w, Before w w
  trans : ∀ {w w' w''}, Before w w' → Before w' w'' → Before w w''
  inv : World → Memory α → Prop
  begun : World → Memory α → Prop
  ended : World → Memory α → Prop
  begun_inv : ∀ {w c}, begun w c → inv w c
  inv_ended : ∀ {w c}, inv w c → ended w c
  moves : Moves α
  stops : Stops setup
  /-- The scopes that were made. -/
  made : World → Scope → Prop
  made_mono : ∀ {w w' scope}, Before w w' → made w scope → made w' scope
  /-- The functions that are there. -/
  admits : World → Function → Prop
  admits_mono : ∀ {w w' g}, Before w w' → admits w g → admits w' g
  /-- The names that a counter in a scope may have. -/
  free : World → Scope → String → Prop
  free_mono : ∀ {w w' scope name}, Before w w' → free w scope name → free w' scope name
  /-- The token runs that may become functions. -/
  body : List Token → Prop
  /-- The blocks that may be remembered for a place. -/
  block : Int × Int → List Statement → Prop
  bound : ∀ {w c id e g}, inv w c → e ∈ c.frames.frame id → e.2 = .function g → admits w g
  called : ∀ {w g}, admits w g → made w g.scope ∧ body g.body
  recalled : ∀ {w c key b}, inv w c → c.blocks.lookup key = some b → block key b
  remembered : ∀ {w c key b}, inv w c → block key b →
    inv w { c with blocks := (key, b) :: c.blocks }
  counted : ∀ {w c scope name}, inv w c → made w scope →
    (∀ id b, c.frames.find scope name = some (id, b) → b.isConstant = false) → free w scope name
  opened : ∀ {w c scope} {f : Frames (Binding α)}, inv w c → made w scope → c.frames.Opened f →
    (∀ e ∈ f.frame c.frames.frames.size, Entry (free w scope) (admits w) scope e) →
    ∃ w', Before w w' ∧ inv w' { c with frames := f } ∧ made w' (c.frames.frames.size :: scope)
  placed : ∀ {w w' m m' scope name b f}, begun w m.memory → Before w w' → inv w' m'.memory →
    moves.rel (.quiet scope) m m' → made w scope →
    (∀ id c, m.frames.find scope name = some (id, c) → c.isConstant = false) →
    m.frames.Placed scope name b m'.frames f →
    (∀ g, b = .function g → g.scope = scope ∧ body g.body) →
    ∃ w'', Before w' w'' ∧ ended w'' { m'.memory with frames := f }
  begins : ∀ {w c scope}, setup.watches = true → inv w c → made w scope →
    ∃ w', Before w w' ∧ begun w' (c.note scope)
  ends : ∀ {w c scope}, setup.watches = true → ended w c → made w scope →
    ∃ w', Before w w' ∧ inv w' (c.note scope)
  unwatched : setup.watches = false → ∀ w c, (inv w c → begun w c) ∧ (ended w c → inv w c)

namespace Conduct

variable {setup : Setup α}

/-- A fault may be at this place. -/
def Place (C : Conduct setup) (i : Int) : Prop :=
  ∀ message length, C.stops.may (.fault ⟨i, message, length⟩)

/-- A computation that went from `m` to the end `r` added what it may. There `post` holds, and the
result satisfies `P` or the computation stopped as it may. -/
abbrev Ends (C : Conduct setup) (post : C.World → Memory α → Prop) (w : C.World) (a : Additions)
    (P : C.World → γ → Prop) (m : Machine α) (r : EStateM.Result Stop (Machine α) γ) : Prop :=
  C.moves.rel a m (Run.stateOf r) ∧
  ∃ w', C.Before w w' ∧ post w' (Run.stateOf r).memory ∧
    match r with
    | .ok v _ => P w' v
    | .error e _ => C.stops.may e

/-- From every state in which `pre` holds, in a world after `w`, the computation ends so. -/
def Leads (C : Conduct setup) (pre post : C.World → Memory α → Prop) (w : C.World) (a : Additions)
    (P : C.World → γ → Prop) (x : Run α γ) : Prop :=
  ∀ w₀ m, C.Before w w₀ → pre w₀ m.memory → C.Ends post w₀ a P m (x m)

abbrev Obeys (C : Conduct setup) :=
  Leads (γ := γ) C C.inv C.inv

abbrev Anything {C : Conduct setup} (_ : C.World) (_ : γ) : Prop :=
  True

/-- The same of a statement, whose beginning and end are noted. -/
abbrev Leaves (C : Conduct setup) (w : C.World) (a : Additions) (x : Run α γ) : Prop :=
  C.Leads C.begun C.ended w a Anything x

end Conduct

end Abacus
