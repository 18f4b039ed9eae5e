import Abacus.Proofs.Fuel

/-! Sessions: a run with more texts than it asks for is the same run, and a run that stopped for a
text has shown a beginning of what it shows with one more. So it does not matter that a session
starts anew for every text. -/

namespace Abacus

variable {α : Type}

def Resources.feed (r : Resources α) (texts : List String) : Resources α :=
  { r with inputs := r.inputs ++ texts }

/-- Texts behind those that a function reads change nothing. With `may` it may have to wait for
the first of them. -/
def ReadsInOrder (may : Prop) (x : EStateM Failure (Resources α) α) : Prop :=
  ∀ texts r, Draws may Eq Eq (fun r t => t = r.feed texts) (x r) (x (r.feed texts))

namespace ReadsInOrder

theorem of_never {may : Prop} {x : EStateM Failure (Resources α) α} (h : ReadsInOrder False x) :
    ReadsInOrder may x := by
  intro texts r
  have hd := h texts r
  generalize x r = u at hd ⊢
  generalize x (r.feed texts) = w at hd ⊢
  cases hd with
  | ok hv hr => exact .ok hv hr
  | error hf hr => exact .error hf hr
  | lacking hl => exact hl.elim

theorem liftResult (x : Except Failure α) :
    ReadsInOrder False (Arithmetic.liftResult x : EStateM Failure (Resources α) α) := by
  intro texts r
  cases x with
  | ok v => exact .ok rfl rfl
  | error f => exact .error rfl rfl

theorem throw (f : Failure) :
    ReadsInOrder False (throw f : EStateM Failure (Resources α) α) :=
  fun _ _ => .error rfl rfl

theorem unary (name : String) (f : α → Except Failure α) (args : List α) :
    ReadsInOrder False ((Arithmetic.unary name f).run args) := by
  match args with
  | [] => exact .throw _
  | x :: _ => exact .liftResult _

theorem binary (name : String) (f : α → α → Except Failure α) (args : List α) :
    ReadsInOrder False ((Arithmetic.binary name f).run args) := by
  match args with
  | [] => exact .throw _
  | [_] => exact .throw _
  | x :: y :: _ => exact .liftResult _

theorem variadic (name : String) (f : List α → Except Failure α) (args : List α) :
    ReadsInOrder False ((Arithmetic.variadic name f).run args) :=
  .liftResult _

theorem factorial (a : Arithmetic α) (x : α) : ReadsInOrder False (a.factorial x) := by
  intro texts r
  unfold Arithmetic.factorial
  cases hi : a.isInteger x with
  | false => exact .error rfl rfl
  | true =>
    dsimp only [Bool.not_true]
    rcases a.compare x a.zero with f | (_ | order)
    · exact .error rfl rfl
    · cases a.toCount x with
      | error f => exact .error rfl rfl
      | ok n => exact .ok rfl rfl
    · cases order with
      | lt => exact .error rfl rfl
      | eq | gt =>
        cases a.toCount x with
        | error f => exact .error rfl rfl
        | ok n => exact .ok rfl rfl

theorem drawRandom (a : Arithmetic α) : ReadsInOrder False a.drawRandom := by
  intro texts r
  have hgenerator : (r.feed texts).generator = r.generator := rfl
  rw [Arithmetic.drawRandom_eq, Arithmetic.drawRandom_eq, hgenerator]
  cases a.random r.generator with
  | ok x g => exact .ok rfl rfl
  | error f g => exact .error rfl rfl

theorem readInput (a : Arithmetic α) : ReadsInOrder True a.readInput := by
  intro texts r
  obtain ⟨generator, factorials, inputs⟩ := r
  cases inputs with
  | nil => exact .lacking trivial _
  | cons text rest =>
    have hfeed : (⟨generator, factorials, text :: rest⟩ : Resources α).feed texts =
        ⟨generator, factorials, text :: (rest ++ texts)⟩ := rfl
    rw [hfeed, Arithmetic.readInput_cons, Arithmetic.readInput_cons]
    cases a.parse (Text.trimmed text) with
    | ok x => exact .ok rfl rfl
    | error f => exact .error rfl rfl

end ReadsInOrder

/-- The built-in functions of a number system read texts one by one, and factorials read none. -/
structure NumberSystem.Sequential (s : NumberSystem α) : Prop where
  builtins : ∀ x ∈ s.builtins, ∀ args, ReadsInOrder True (x.run args)
  factorial : ∀ x, s.builtin? "fac" = some x → ∀ v, ReadsInOrder False (x.run [v])

theorem Arithmetic.shared_readsInOrder (a : Arithmetic α) :
    ∀ x ∈ a.shared, ∀ args, ReadsInOrder True (x.run args) := by
  have hfac : ∀ args : List α, ReadsInOrder False (a.fac.run args) := by
    intro args
    cases args with
    | nil => exact .throw _
    | cons x _ => exact .factorial a x
  simp only [Arithmetic.shared, List.forall_mem_cons]
  exact ⟨fun args => (ReadsInOrder.unary "abs" _ args).of_never,
    fun args => (ReadsInOrder.unary "round" _ args).of_never,
    fun args => (ReadsInOrder.unary "ceil" _ args).of_never,
    fun args => (ReadsInOrder.unary "floor" _ args).of_never,
    fun args => (ReadsInOrder.unary "sign" _ args).of_never,
    fun args => (ReadsInOrder.unary "sqrt" _ args).of_never,
    fun args => (ReadsInOrder.unary "cbrt" _ args).of_never,
    fun args => (ReadsInOrder.variadic "min" _ args).of_never,
    fun args => (ReadsInOrder.variadic "max" _ args).of_never,
    fun args => (ReadsInOrder.variadic "sum" _ args).of_never,
    fun _ => (ReadsInOrder.drawRandom a).of_never,
    fun args => (hfac args).of_never,
    fun args => (ReadsInOrder.binary "mod" _ args).of_never,
    fun _ => ReadsInOrder.readInput a,
    fun _ hx => (List.not_mem_nil hx).elim⟩

theorem Arithmetic.system_sequential (a : Arithmetic α) (constants : List (String × α))
    (own : List (Builtin α)) (h : ∀ x ∈ own, ∀ args, ReadsInOrder False (x.run args)) :
    (a.system constants own).Sequential where
  builtins x hx args := by
    rcases List.mem_append.mp hx with hx | hx
    · exact a.shared_readsInOrder x hx args
    · exact (h x hx args).of_never
  factorial x hx v := by
    have hf : (a.system constants own).builtin? "fac" = some a.fac := rfl
    obtain rfl := Option.some.inj (hx.symm.trans hf)
    exact .factorial a v

theorem Bignumber.system_sequential (places : Int) : (Bignumber.system places).Sequential := by
  apply Arithmetic.system_sequential
  simp only [List.forall_mem_cons]
  exact ⟨.unary "isFinite" _, .unary "isNaN" _, fun _ hx => (List.not_mem_nil hx).elim⟩

theorem Fraction.system_sequential (digits : Int) (digitLimit : Option Nat) :
    (Fraction.system digits digitLimit).Sequential := by
  apply Arithmetic.system_sequential
  simp only [List.forall_mem_cons]
  exact ⟨.binary "gcd" _, .binary "lcm" _, .unary "inverse" _,
    fun _ hx => (List.not_mem_nil hx).elim⟩

theorem unaries_readsInOrder {β : Type} (table : List (String × β))
    (f : String × β → α → Except Failure α) :
    ∀ x ∈ table.map (fun e => Arithmetic.unary e.1 (f e)), ∀ args,
      ReadsInOrder False (x.run args) := by
  intro x hx args
  obtain ⟨e, _, rfl⟩ := List.mem_map.mp hx
  exact .unary e.1 (f e) args

theorem Decimal.system_sequential (precision : Nat) : (Decimal.system precision).Sequential := by
  apply Arithmetic.system_sequential
  simp only [List.forall_mem_append, List.forall_mem_cons]
  exact ⟨⟨⟨.unary "exp" _, .unary "ln" _, .unary "log" _, fun _ hx => (List.not_mem_nil hx).elim⟩,
    unaries_readsInOrder _ _⟩, .variadic "hypot" _, fun _ hx => (List.not_mem_nil hx).elim⟩

theorem Complex.system_sequential (precision : Int) (digitLimit : Option Nat) :
    (Complex.system precision digitLimit).Sequential := by
  apply Arithmetic.system_sequential
  simp only [List.forall_mem_append, List.forall_mem_cons]
  exact ⟨unaries_readsInOrder _ _, .variadic "hypot" _, .unary "isReal" _,
    fun _ hx => (List.not_mem_nil hx).elim⟩

theorem Options.pick_cases {o : Options} {any : AnySystem} (h : o.pick = .ok any) :
    any = ⟨_, Bignumber.system o.places⟩ ∨ any = ⟨_, Fraction.system o.precision o.digitLimit⟩ ∨
      any = ⟨_, Decimal.system o.precision.toNat⟩ ∨
      any = ⟨_, Complex.system o.precision o.digitLimit⟩ := by
  have hchosen : ∀ {x : Except OptionError Unit} {any' : AnySystem},
      x.map (fun _ => any') = .ok any → any = any' := by
    intro x any' hx
    cases x with
    | error e => cases hx
    | ok u => exact (Except.ok.inj hx).symm
  unfold Options.pick at h
  split at h
  · cases h
  · exact .inl (hchosen h)
  · exact .inr (.inl (hchosen h))
  · exact .inr (.inr (.inl (hchosen h)))
  · exact .inr (.inr (.inr (Except.ok.inj h).symm))

theorem Options.pick_sequential {o : Options} {any : AnySystem} (h : o.pick = .ok any) :
    any.system.Sequential := by
  rcases Options.pick_cases h with rfl | rfl | rfl | rfl
  · exact Bignumber.system_sequential _
  · exact Fraction.system_sequential _ _
  · exact Decimal.system_sequential _
  · exact Complex.system_sequential _ _

/-- A run beside the same run with more texts. -/
def Simulation.ofMoreInput (setup : Setup α) (h : setup.system.Sequential) (texts : List String) :
    Simulation setup { setup with remembers := setup.remembers, watches := setup.watches } :=
  .ofResources setup setup.watches Eq (fun _ => False) (fun r t => t = r.feed texts) False True
    False.elim (repeats_same setup) (fun x hx vs r _ hr => .inl (hr ▸ h.builtins x hx vs texts r))
    (fun x hx v r _ hr => hr ▸ h.factorial x hx v texts r)

def status? : Except RunError (Outcome α) → Option Status
  | .ok o => some o.status
  | .error _ => none

theorem status?_eq_some {r : Except RunError (Outcome α)} {status : Status}
    (h : status? r = some status) : ∃ o, r = .ok o ∧ o.status = status := by
  cases r with
  | ok o => exact ⟨o, rfl, Option.some.inj h⟩
  | error e => cases h

def Waits (r : Except RunError (Outcome α)) : Prop :=
  ∃ prompt, status? r = some (.needsInput prompt)

theorem records_of_ofResult {d : Int} {t : EStateM.Result Stop (Machine α) Unit} {o : Outcome α}
    (h : Outcome.ofResult d t = .ok o) : o.records = (Run.stateOf t).records.toList := by
  match t with
  | .ok _ m => cases h; rfl
  | .error (.fault f) m => cases h; rfl
  | .error (.input prompt) m => cases h; rfl

/-- More texts change a run only if it waited for one, and then it shows what it showed before. -/
theorem Program.runIn_append (setup : Setup α) (hs : setup.system.Sequential) (fuel : Nat)
    (p : Program) (seed : Int) (xs ys : List String) :
    p.runIn setup fuel seed (xs ++ ys) = p.runIn setup fuel seed xs ∨
      ∃ o prompt, p.runIn setup fuel seed xs = .ok o ∧ o.status = .needsInput prompt ∧
        ∀ o', p.runIn setup fuel seed (xs ++ ys) = .ok o' → o.records <+: o'.records := by
  let S := Simulation.ofMoreInput setup hs ys
  let left := Machine.start setup.system (setup.system.resources seed xs)
  let right := Machine.start setup.system (setup.system.resources seed (xs ++ ys))
  have hm : S.Related left right :=
    ⟨start_frames_related _ _ _ _, .nil, rfl, rfl, rfl, rfl⟩
  have hbody : Statement.AllFit S.fit p.body := Statement.allFit_of_all (fun _ => trivial) _
  have he := (S.simulates_program (.inl (rfl : fuel = fuel)) hbody).ends left right hm
  rcases he.outcome_eq rfl rfl rfl (fun _ => id) setup.debugLevel with hh | ⟨e, m, hh, ha⟩
  · exact .inl hh.symm
  · rcases ha with ⟨hl, _⟩ | ⟨hl, _⟩ | ⟨_, ⟨prompt, rfl⟩, done, hd, hpre⟩
    · exact hl.elim
    · exact hl.elim
    · right
      refine ⟨_, prompt, congrArg (Outcome.ofResult setup.debugLevel) hh, rfl, ?_⟩
      intro o' ho'
      obtain rfl := forall₂_eq (fun _ _ h => h.eq) hd
      rw [records_of_ofResult ho']
      exact hpre

namespace Session

def given (session : Session) (inputs : List String) : Session :=
  { session with inputs := inputs }

theorem runWith_append (s : NumberSystem α) (hs : s.Sequential) (fuel : Nat) (session : Session)
    (xs ys : List String) :
    (session.given (xs ++ ys)).runWith s fuel = (session.given xs).runWith s fuel ∨
      ∃ o prompt, (session.given xs).runWith s fuel = .ok o ∧ o.status = .needsInput prompt ∧
        ∀ o', (session.given (xs ++ ys)).runWith s fuel = .ok o' → o.records <+: o'.records := by
  have hrun := fun p : Program =>
    p.runIn_append (p.setup s session.options) hs fuel session.options.seed xs ys
  cases hp : session.program with
  | some p =>
    simp only [runWith, given, hp]
    exact hrun p
  | none =>
    simp only [runWith, given, hp]
    cases Program.parse session.source session.options.strict with
    | error f => exact .inl rfl
    | ok p => exact hrun p

theorem runWith_afterRun (s : NumberSystem α) (fuel : Nat) (session : Session)
    (inputs : List String) :
    (session.afterRun.given inputs).runWith s fuel = (session.given inputs).runWith s fuel := by
  unfold afterRun
  split
  · next p hp hs => simp only [runWith, given, hp, hs]
  · rfl

theorem inputs_afterRun (session : Session) : session.afterRun.inputs = session.inputs := by
  unfold afterRun
  split <;> rfl

def Step.texts : Step → List String
  | .run => []
  | .resume text => [text]

theorem take_eq_given (session : Session) (step : Step) :
    session.take step = session.given (session.inputs ++ step.texts) := by
  cases step with
  | run => simp [take, given, Step.texts]
  | resume text => rfl

theorem play_getElem? (s : NumberSystem α) (fuel : Nat) (session : Session) (steps : List Step)
    (k : Nat) (hk : k < steps.length) :
    (session.play s fuel steps)[k]? =
      some ((session.given (session.inputs ++ (steps.take (k + 1)).flatMap Step.texts)).runWith s
        fuel) := by
  induction steps generalizing session k with
  | nil => simp at hk
  | cons step rest ih =>
    cases k with
    | zero => simp [play, take_eq_given]
    | succ k =>
      have hh := ih (session.take step).afterRun k (by simpa using hk)
      rw [runWith_afterRun, inputs_afterRun, take_eq_given] at hh
      simp only [play, List.getElem?_cons_succ, take_eq_given, List.take_succ_cons,
        List.flatMap_cons, ← List.append_assoc]
      exact hh

/-- Replay is faithful. Texts that a run does not ask for change nothing, what was shown before a
text was missing is shown again, and every step on a session has the result of a new session. -/
theorem replay_faithful (session : Session) (any : AnySystem)
    (h : session.options.pick = .ok any) :
    (∀ xs ys r, (session.given xs).Ends any.system r → ¬ Waits r →
      ∀ r', (session.given (xs ++ ys)).Ends any.system r' ↔ r' = r) ∧
    (∀ xs text o o', (session.given xs).Ends any.system (.ok o) → Waits (.ok o) →
      (session.given (xs ++ [text])).Ends any.system (.ok o') → o.records <+: o'.records) ∧
    ∀ fuel steps k, k < steps.length →
      (session.play any.system fuel steps)[k]? =
        some ((session.given (session.inputs ++
          (steps.take (k + 1)).flatMap Step.texts)).runWith any.system fuel) := by
  have hs := Options.pick_sequential h
  refine ⟨?_, ?_, fun fuel steps k hk => play_getElem? any.system fuel session steps k hk⟩
  · rintro xs ys r ⟨fuel, hr, hfuel⟩ hw
    have hends : (session.given (xs ++ ys)).Ends any.system r := by
      rcases runWith_append any.system hs fuel session xs ys with hh | ⟨o, prompt, ho, hp, _⟩
      · exact ⟨fuel, hh.trans hr, hfuel⟩
      · exact (hw ⟨prompt, by rw [← hr, ho]; exact congrArg some hp⟩).elim
    exact fun r' => ⟨fun h' => h'.unique hends, fun h' => h' ▸ hends⟩
  · rintro xs text o o' ⟨fuel, hr, hfuel⟩ _ ⟨fuel', hr', hfuel'⟩
    -- enough fuel for both runs
    have hx := runWith_mono any.system (Nat.le_max_left fuel fuel') (session.given xs)
      (hr ▸ hfuel)
    have hy := runWith_mono any.system (Nat.le_max_right fuel fuel')
      (session.given (xs ++ [text])) (hr' ▸ hfuel')
    rw [hr] at hx
    rw [hr'] at hy
    rcases runWith_append any.system hs (max fuel fuel') session xs [text] with
      hh | ⟨o₁, _, ho, _, hpre⟩
    · rw [hx, hy] at hh
      cases hh
      exact List.prefix_rfl
    · rw [hx] at ho
      cases ho
      exact hpre o' hy

theorem ends_of_status (s : NumberSystem α) (session : Session) (fuel : Nat) {status : Status}
    (h : status? (session.runWith s fuel) = some status) :
    ∃ o, session.Ends s (.ok o) ∧ o.status = status := by
  obtain ⟨o, hr, hstatus⟩ := status?_eq_some h
  exact ⟨o, ⟨fuel, hr, fun hl => by obtain ⟨_, hl⟩ := hl; cases hl⟩, hstatus⟩

/-- A script that asks for a number once. -/
def asking : Session :=
  ⟨"print first\nx = input()", {}, none, []⟩

theorem asking_replayed :
    ∃ o o', (asking.given []).Ends (Bignumber.system 20) (.ok o) ∧ Waits (.ok o) ∧
      (asking.given ["7"]).Ends (Bignumber.system 20) (.ok o') ∧ o.records <+: o'.records := by
  have hfirst : status? ((asking.given []).runWith (Bignumber.system 20) 9) =
      some (.needsInput "x = input()") := by decide +kernel
  have hsecond : status? ((asking.given ["7"]).runWith (Bignumber.system 20) 9) = some .ok := by
    decide +kernel
  obtain ⟨o, ho, hw⟩ := ends_of_status (Bignumber.system 20) (asking.given []) 9 hfirst
  obtain ⟨o', ho', _⟩ := ends_of_status (Bignumber.system 20) (asking.given ["7"]) 9 hsecond
  have hwaits : Waits (.ok o) := ⟨_, congrArg some hw⟩
  have hall := replay_faithful asking ⟨_, Bignumber.system 20⟩ rfl
  exact ⟨o, o', ho, hwaits, ho', hall.2.1 [] "7" o o' ho hwaits ho'⟩

end Session

end Abacus
