import Abacus.Machine

/-! What the single steps of a run do to its state, and what number systems draw on. Whatever is
proved about whole runs takes the steps apart by these equations. -/

namespace Abacus

variable {α γ δ : Type}

/-- A value that is made from a draw is always had. -/
theorem draw_ok (value : Generator → α) (next : Generator → Generator) (g : Generator) :
    (do
      let g ← get
      set (next g)
      return value g : EStateM Failure Generator α) g = .ok (value g) (next g) :=
  rfl

namespace Arithmetic

theorem drawRandom_eq (a : Arithmetic α) (r : Resources α) :
    a.drawRandom r = match a.random r.generator with
      | .ok x g => .ok x { r with generator := g }
      | .error f _ => .error f r := by
  show (match a.random r.generator with
    | .ok x g => do
      set { r with generator := g }
      return x
    | .error f _ => throw f : EStateM Failure (Resources α) α) r = _
  cases a.random r.generator <;> rfl

theorem readInput_cons (a : Arithmetic α) (generator : Generator) (factorials : List (Nat × α))
    (text : String) (rest : List String) :
    a.readInput ⟨generator, factorials, text :: rest⟩ =
      match a.parse (Text.trimmed text) with
      | .ok x => .ok x ⟨generator, factorials, rest⟩
      | .error _ => .error (.invalidInput (Text.trimmed text)) ⟨generator, factorials, rest⟩ := by
  show (match a.parse (Text.trimmed text) with
    | .ok x => return x
    | .error _ => throw (.invalidInput (Text.trimmed text)) : EStateM Failure (Resources α) α)
      ⟨generator, factorials, rest⟩ = _
  cases a.parse (Text.trimmed text) <;> rfl

end Arithmetic

theorem Stop.ofFailure_eq {f : Failure} (hf : f ≠ .inputRequired) (offset length : Int) :
    Stop.ofFailure offset length f = .fault ⟨offset, Text.capitalized f.message, length⟩ := by
  cases f <;> first | rfl | exact absurd rfl hf

theorem Stop.ofLiteral_eq {f : Failure} (hf : f ≠ .inputRequired) :
    Stop.ofLiteral f = .defect (.literal f) := by
  cases f <;> first | rfl | exact absurd rfl hf

abbrev Blocks := List ((Int × Int) × List Statement)

def recallBlock (remembers : Bool) (known : Blocks) (key : Int × Int)
    (read : Except Fault (List Statement)) : Except Fault (List Statement × Blocks) :=
  match if remembers then known.lookup key else none with
  | some body => .ok (body, known)
  | none => read.map (fun body => (body, (key, body) :: known))

namespace Run

def stateOf : EStateM.Result Stop (Machine α) γ → Machine α
  | .ok _ m => m
  | .error _ m => m

section Bind

theorem bind_eq (x : Run α γ) (f : γ → Run α δ) (m : Machine α) :
    (x >>= f) m = match x m with
      | .ok v m' => f v m'
      | .error e m' => .error e m' := by
  show EStateM.bind x f m = _
  unfold EStateM.bind
  cases x m <;> rfl

variable {x : Run α γ} {f : γ → Run α δ} {m m' : Machine α}

theorem bind_ok {v : γ} (h : x m = .ok v m') : (x >>= f) m = f v m' := by
  rw [bind_eq, h]

theorem bind_error {e : Stop} (h : x m = .error e m') : (x >>= f) m = .error e m' := by
  rw [bind_eq, h]

end Bind

section Access

variable (setup : Setup α) (scope : Scope) (m : Machine α)

theorem noted_eq (x : Run α γ) :
    noted scope x m = match x (note scope m) with
      | .ok v m' => .ok v (note scope m')
      | .error e m' => .error e (note scope m') :=
  rfl

/-- What holds with notes and without them holds of a computation that may be watched. -/
theorem of_watched {motive : Run α γ → Prop} {x : Run α γ} (hnoted : motive (noted scope x))
    (hplain : motive x) : motive (watched setup scope x) := by
  unfold watched
  split
  · exact hnoted
  · exact hplain

theorem debug_eq (level : Int) (line : Unit → String) :
    debug setup level line = modify (fun m =>
      { m with log := if level ≤ setup.debugLevel then m.log.push (line ()) else m.log }) := by
  unfold debug
  split <;> rfl

theorem debug_ok (level : Int) (line : Unit → String) :
    ∃ log, debug setup level line m = .ok () { m with log := log } := by
  rw [debug_eq]
  exact ⟨_, rfl⟩

theorem builtin_eq (b : Builtin α) (args : List α) :
    builtin b args m = match b.run args m.resources with
      | .ok v r => .ok (.ok v) { m with resources := r }
      | .error f r => .ok (.error f) { m with resources := r } := by
  simp only [builtin, modifyGet, MonadStateOf.modifyGet]
  unfold EStateM.modifyGet
  dsimp only
  cases b.run args m.resources <;> rfl

theorem exists_builtin (b : Builtin α) (args : List α) :
    ∃ v r, builtin b args m = .ok v { m with resources := r } := by
  rw [builtin_eq]
  cases b.run args m.resources <;> exact ⟨_, _, rfl⟩

theorem block_eq (key : Int × Int) (read : Except Fault (List Statement)) :
    block setup key read m = match recallBlock setup.remembers m.blocks key read with
      | .ok (body, known) => .ok body { m with blocks := known }
      | .error f => .error (.fault f) m := by
  unfold recallBlock
  show (match if setup.remembers then m.blocks.lookup key else none with
    | some body => pure body
    | none => do
      let body ← ofExcept read
      modify (fun m => { m with blocks := (key, body) :: m.blocks })
      return body : Run α (List Statement)) m = _
  cases (if setup.remembers then m.blocks.lookup key else none) with
  | some body => rfl
  | none => cases read <;> rfl

/-- A block is one that was read before, or it is read now. -/
theorem block_cases (key : Int × Int) (read : Except Fault (List Statement)) :
    (∃ body, m.blocks.lookup key = some body ∧ block setup key read m = .ok body m) ∨
      (∃ body, read = .ok body ∧
        block setup key read m = .ok body { m with blocks := (key, body) :: m.blocks }) ∨
      ∃ f, read = .error f ∧ block setup key read m = .error (.fault f) m := by
  rw [block_eq]
  unfold recallBlock
  cases hk : (if setup.remembers then m.blocks.lookup key else none) with
  | some body =>
    have hknown : m.blocks.lookup key = some body := by
      split at hk
      · exact hk
      · cases hk
    exact .inl ⟨body, hknown, rfl⟩
  | none =>
    cases read with
    | ok body => exact .inr (.inl ⟨body, rfl, rfl⟩)
    | error f => exact .inr (.inr ⟨f, rfl, rfl⟩)

end Access

end Run

end Abacus
