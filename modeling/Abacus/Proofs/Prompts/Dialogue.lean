import Abacus.Command.Dialogue
import Abacus.Proofs.LoopFree.Runs
import Abacus.Proofs.Prompts.Systems

/-! The command line asks for one more text as often as there are lines, and once more: the empty
text that stands for the end of the lines is a number of no system, so that the script that asked
for it fails. -/

namespace Abacus

variable {α : Type}

/-- The message of the fault that a text makes which is no number. -/
def refusal (text : String) : String :=
  Text.capitalized (Failure.invalidInput (Text.trimmed text)).message

theorem refusal_empty : refusal "" = "Invalid input value: ''" := by
  decide +kernel

theorem SameResult.ofDefinite {γ : Type} {x : Except Failure γ} (h : Definite x) :
    SameResult Failure.Same Eq x x := by
  cases x with
  | ok v => exact .ok rfl
  | error f => exact .error ⟨rfl, h f rfl⟩

theorem NumberSystem.Rejects.repeats {s : NumberSystem α} {text : String} (h : s.Rejects text) :
    s.Repeats Failure.Same where
  eq _ _ hf := hf.1
  parse text := .ofDefinite (h.parse text)
  format v := .ofDefinite (h.format v)
  toCount v := .ofDefinite (h.toCount v)
  basic v op w := .ofDefinite (h.basic v op w)

/-- A run beside the same run with one more text, which is no number: where the one waits for a text
the other fails. -/
def Simulation.ofRefusal (setup : Setup α) {text : String} (h : setup.system.Rejects text) :
    Simulation setup { setup with remembers := setup.remembers, watches := setup.watches } :=
  .ofResources setup setup.watches Failure.Same (· = .invalidInput (Text.trimmed text))
    (fun r t => t = r.feed [text]) False False never_both h.repeats
    (fun b hb vs r _ hr => hr ▸ h.builtins b hb vs r)
    (fun b hb v r _ hr => hr ▸ h.factorial b hb v r)

/-- A run that waits for a text fails on one that is no number. -/
theorem Program.runIn_refused {setup : Setup α} {text : String}
    (hs : setup.system.Rejects text) (fuel : Nat) (p : Program) (seed : Int) (xs : List String)
    {o : Outcome α} {prompt : String} (ho : p.runIn setup fuel seed xs = .ok o)
    (hwaits : o.status = .needsInput prompt) :
    ∃ o' f, p.runIn setup fuel seed (xs ++ [text]) = .ok o' ∧ o'.status = .error f ∧
      f.message = refusal text := by
  let S := Simulation.ofRefusal setup hs
  let left := Machine.start setup.system (setup.system.resources seed xs)
  let right := Machine.start setup.system (setup.system.resources seed (xs ++ [text]))
  have hm : S.Related left right :=
    ⟨start_frames_related _ _ _ _, .nil, rfl, rfl, rfl, rfl⟩
  have hbody : Statement.AllFit S.fit p.body := Statement.allFit_of_all (fun _ => trivial) _
  have hends := (S.simulates_program (.inl (rfl : fuel = fuel)) hbody).ends left right hm
  unfold Program.runIn at ho ⊢
  dsimp only [EStateM.run] at ho ⊢
  generalize Eval.program setup fuel p.body left = r at hends ho
  generalize Eval.program setup fuel p.body right = t at hends ⊢
  cases hends with
  | ok =>
    cases ho
    cases hwaits
  | error he =>
    cases he with
    | fault f =>
      cases ho
      cases hwaits
    | input hf => exact absurd rfl hf.2
    | defect | literal | unshown => cases ho
  | ahead ha =>
    rcases ha with ⟨hl, _⟩ | ⟨hl, _⟩ | ⟨hl, _⟩
    · exact hl.elim
    · exact hl.elim
    · exact hl.elim
  | refused hf =>
    obtain ⟨g, rfl, hmessage⟩ := hf
    exact ⟨_, _, rfl, rfl, hmessage⟩

namespace Session

/-- The session stops and asks for a text. -/
def Asks (stepFuel : Nat) (session : Session) : Prop :=
  ∃ r prompt, session.run stepFuel = .ok r ∧ r.status = .needsInput prompt

/-- The run of the session ends. -/
def Settles (stepFuel : Nat) (session : Session) : Prop :=
  ∀ log, session.run stepFuel ≠ .error (.defect .outOfFuel log)

/-- The script fails since a text is no number. -/
def Fails (stepFuel : Nat) (session : Session) (text : String) : Prop :=
  ∃ r f, session.run stepFuel = .ok r ∧ r.status = .error f ∧
    f.message = "Invalid input value: " ++ Text.quoted text

variable {stepFuel : Nat} {session : Session}

theorem runWith_refused {s : NumberSystem α} {text : String} (hs : s.Rejects text)
    {o : Outcome α} {prompt : String} (ho : session.runWith s stepFuel = .ok o)
    (hwaits : o.status = .needsInput prompt) :
    ∃ o' f, (session.resume text).runWith s stepFuel = .ok o' ∧ o'.status = .error f ∧
      f.message = refusal text := by
  unfold runWith at ho ⊢
  rw [show (session.resume text).program = session.program from rfl]
  cases hp : session.program with
  | some p =>
    rw [hp] at ho
    exact p.runIn_refused hs stepFuel _ _ ho hwaits
  | none =>
    rw [hp] at ho
    dsimp only [resume] at ho ⊢
    cases hread : Program.parse session.source session.options.strict with
    | error f =>
      rw [hread] at ho
      cases ho
      cases hwaits
    | ok p =>
      rw [hread] at ho
      exact p.runIn_refused hs stepFuel _ _ ho hwaits

theorem run_of_pick {any : AnySystem} (h : session.options.pick = .ok any) (stepFuel : Nat) :
    session.run stepFuel =
      (session.runWith any.system stepFuel).map (Outcome.report any.system) := by
  rw [run, h]

theorem Asks.fails (h : session.Asks stepFuel) : (session.resume "").Fails stepFuel "" := by
  obtain ⟨r, prompt, hrun, hwaits⟩ := h
  cases hpick : session.options.pick with
  | error e =>
    rw [run, hpick] at hrun
    cases hrun
  | ok any =>
    rw [run_of_pick hpick] at hrun
    cases ho : session.runWith any.system stepFuel with
    | error e =>
      rw [ho] at hrun
      cases hrun
    | ok o =>
      rw [ho] at hrun
      cases hrun
      obtain ⟨o', f, ho', hstatus, hmessage⟩ :=
        runWith_refused (Options.pick_rejects hpick) ho hwaits
      have hsame : (session.resume "").options.pick = .ok any := hpick
      refine ⟨o'.report any.system, f, ?_, hstatus, hmessage.trans refusal_empty⟩
      rw [run_of_pick hsame, ho']
      rfl

theorem Fails.not_asks {text : String} (h : session.Fails stepFuel text) :
    ¬ session.Asks stepFuel := by
  obtain ⟨r, f, hrun, hstatus, -⟩ := h
  rintro ⟨r', prompt, hrun', hwaits⟩
  rw [hrun] at hrun'
  cases hrun'
  rw [hstatus] at hwaits
  cases hwaits

theorem run_mono {fuel : Nat} (h : stepFuel ≤ fuel) (hs : session.Settles stepFuel) :
    session.run fuel = session.run stepFuel := by
  cases hpick : session.options.pick with
  | error e => rw [run, run, hpick]
  | ok any =>
    rw [run_of_pick hpick, run_of_pick hpick, runWith_mono any.system h session ?_]
    rintro ⟨log, hlog⟩
    refine hs log ?_
    rw [run_of_pick hpick, hlog]
    rfl

theorem Settles.mono {fuel : Nat} (hs : session.Settles stepFuel) (h : stepFuel ≤ fuel) :
    session.Settles fuel := by
  rw [Settles, run_mono h hs]
  exact hs

/-- Each run of a script without loops and definitions ends. -/
theorem settles_of_loopFree (h : LoopFree session.source) (hp : session.program = none) :
    session.Settles (enough session.source) := by
  intro log hlog
  cases hpick : session.options.pick with
  | error e =>
    rw [run, hpick] at hlog
    cases hlog
  | ok any =>
    rw [run_of_pick hpick, runWith, hp] at hlog
    cases hread : Program.parse session.source session.options.strict with
    | error f =>
      rw [hread] at hlog
      cases hlog
    | ok p =>
      have hends := h.never_lacks hread any.system session.options session.inputs
      rw [hread] at hlog
      dsimp only at hlog
      generalize p.run any.system session.options (enough session.source) session.inputs = r
        at hends hlog
      cases r with
      | ok o => cases hlog
      | error e =>
        cases hlog
        exact hends ⟨log, rfl⟩

/-- The session after `n` texts were given to it: lines first, and empty texts after their end. -/
def resumed (session : Session) : List String → Nat → Session
  | _, 0 => session
  | lines, n + 1 => resumed (session.resume (lines.headD "")) lines.tail n

theorem resumed_eq (session : Session) (lines : List String) (n : Nat) :
    session.resumed lines n =
      session.given (session.inputs ++ (lines.take n ++ List.replicate (n - lines.length) "")) := by
  induction n generalizing session lines with
  | zero => simp [resumed, given]
  | succ n ih =>
    cases lines with
    | nil => simp [resumed, ih, given, resume, List.replicate_succ]
    | cons l ls => simp [resumed, ih, given, resume]

/-- Some fuel is enough for any number of runs that end. -/
theorem exists_enough {lines : List String}
    (h : ∀ j, ∃ stepFuel, (session.resumed lines j).Settles stepFuel) (n : Nat) :
    ∃ least, ∀ j ≤ n, (session.resumed lines j).Settles least := by
  induction n with
  | zero =>
    obtain ⟨least, hleast⟩ := h 0
    exact ⟨least, fun j hj => Nat.le_zero.mp hj ▸ hleast⟩
  | succ n ih =>
    obtain ⟨least, hleast⟩ := ih
    obtain ⟨more, hmore⟩ := h (n + 1)
    refine ⟨max least more, fun j hj => ?_⟩
    rcases Nat.le_succ_iff.mp hj with hj | rfl
    · exact (hleast j hj).mono (Nat.le_max_left least more)
    · exact hmore.mono (Nat.le_max_right least more)

/-- A session asks once more than there are lines at most. -/
theorem exists_last (session : Session) (stepFuel : Nat) (lines : List String) :
    ∃ n ≤ lines.length + 1, (∀ j < n, (session.resumed lines j).Asks stepFuel) ∧
      ¬ (session.resumed lines n).Asks stepFuel ∧
      (lines.length < n → (session.resumed lines n).Fails stepFuel "") := by
  induction lines generalizing session with
  | nil =>
    by_cases hasks : session.Asks stepFuel
    · refine ⟨1, le_rfl, fun j hj => ?_, hasks.fails.not_asks, fun _ => hasks.fails⟩
      obtain rfl : j = 0 := by omega
      exact hasks
    · exact ⟨0, Nat.zero_le _, nofun, hasks, nofun⟩
  | cons l ls ih =>
    by_cases hasks : session.Asks stepFuel
    · obtain ⟨n, hn, hbefore, hlast, hfails⟩ := ih (session.resume l)
      refine ⟨n + 1, Nat.succ_le_succ hn, fun j hj => ?_, hlast, fun h => ?_⟩
      · cases j with
        | zero => exact hasks
        | succ j => exact hbefore j (Nat.lt_of_succ_lt_succ hj)
      · exact hfails (Nat.lt_of_succ_lt_succ h)
    · exact ⟨0, Nat.zero_le _, nofun, hasks, nofun⟩

end Session

namespace Command

/-- How many lines a dialogue asks for, if it is answered as when it is played. -/
def Dialogue.answers : Dialogue → List String → Nat
  | .finished _, _ => 0
  | .asking _ next, lines => (next (lines.headD "")).answers lines.tail + 1

/-- What is left of the last run of a session. -/
def closing (stepFuel : Nat) (session : Session) : Result :=
  match session.run stepFuel with
  | .error e => { exit := .crash (.run e), files := logFiles e.log }
  | .ok r => resultOf session.source r (logFiles r.log)

variable {stepFuel : Nat} {session : Session}

theorem execute_of_asks (h : session.Asks stepFuel) (fuel : Nat) :
    ∃ prompt, execute stepFuel (fuel + 1) session =
      .asking prompt (fun text => execute stepFuel fuel (session.resume text)) := by
  obtain ⟨r, prompt, hrun, hstatus⟩ := h
  refine ⟨promptFor prompt, ?_⟩
  rw [execute, hrun]
  dsimp only
  rw [hstatus]

theorem execute_of_not_asks (h : ¬ session.Asks stepFuel) (fuel : Nat) :
    execute stepFuel (fuel + 1) session = .finished (closing stepFuel session) := by
  rw [execute, closing]
  cases hrun : session.run stepFuel with
  | error e => rfl
  | ok r =>
    dsimp only
    split
    · next prompt hstatus => exact absurd ⟨r, prompt, hrun, hstatus⟩ h
    · rfl

/-- The dialogue asks as long as the session does. -/
theorem answers_execute {n : Nat} {lines : List String}
    (hbefore : ∀ j < n, (session.resumed lines j).Asks stepFuel)
    (hlast : ¬ (session.resumed lines n).Asks stepFuel) (fuel : Nat) :
    (execute stepFuel fuel session).answers lines = min n fuel ∧
      (n < fuel → ∀ shown, ∃ shown', (execute stepFuel fuel session).play lines shown =
        { closing stepFuel (session.resumed lines n) with
          out := shown' ++ (closing stepFuel (session.resumed lines n)).out }) := by
  induction n generalizing session lines fuel with
  | zero =>
    cases fuel with
    | zero => exact ⟨rfl, nofun⟩
    | succ fuel =>
      have hends : ¬ session.Asks stepFuel := hlast
      rw [execute_of_not_asks hends]
      exact ⟨by simp [Dialogue.answers], fun _ shown => ⟨shown, rfl⟩⟩
  | succ n ih =>
    cases fuel with
    | zero => exact ⟨rfl, nofun⟩
    | succ fuel =>
      obtain ⟨prompt, hasking⟩ := execute_of_asks (hbefore 0 (Nat.succ_pos n)) fuel
      have hrest : ∀ j < n,
          ((session.resume (lines.headD "")).resumed lines.tail j).Asks stepFuel :=
        fun j hj => hbefore (j + 1) (Nat.succ_lt_succ hj)
      obtain ⟨hcount, hplay⟩ := ih hrest hlast fuel
      rw [show session.resumed lines 0 = session from rfl] at hasking
      rw [hasking]
      refine ⟨?_, fun hn shown => hplay (Nat.lt_of_succ_lt_succ hn) _⟩
      rw [Dialogue.answers, hcount]
      omega

/-- If every single run of a session ends, so does its dialogue: each time it goes on it has one
more line, and after the last line at most once more, with the empty text. Then the script fails
where it asked. -/
theorem execute_ends (session : Session) (lines : List String)
    (h : ∀ texts, ∃ stepFuel, (session.given texts).Settles stepFuel) :
    (∀ stepFuel fuel, (execute stepFuel fuel session).answers lines ≤ lines.length + 1) ∧
    (∀ j, session.resumed lines j = session.given
      (session.inputs ++ (lines.take j ++ List.replicate (j - lines.length) ""))) ∧
    ∃ n ≤ lines.length + 1, ∃ least, ∀ stepFuel, least ≤ stepFuel →
      (∀ j < n, (session.resumed lines j).Asks stepFuel) ∧
      ¬ (session.resumed lines n).Asks stepFuel ∧ (session.resumed lines n).Settles stepFuel ∧
      (lines.length < n → (session.resumed lines n).Fails stepFuel "") ∧
      ∀ fuel, n < fuel → (execute stepFuel fuel session).answers lines = n ∧
        ∃ shown, (execute stepFuel fuel session).play lines "" =
          { closing stepFuel (session.resumed lines n) with
            out := shown ++ (closing stepFuel (session.resumed lines n)).out } := by
  refine ⟨fun stepFuel fuel => ?_, session.resumed_eq lines, ?_⟩
  · obtain ⟨n, hn, hbefore, hlast, -⟩ := session.exists_last stepFuel lines
    rw [(answers_execute hbefore hlast fuel).1]
    omega
  · have hends : ∀ j, ∃ stepFuel, (session.resumed lines j).Settles stepFuel := by
      intro j
      rw [session.resumed_eq lines j]
      exact h _
    obtain ⟨least, hleast⟩ := Session.exists_enough hends (lines.length + 1)
    obtain ⟨n, hn, hbefore, hlast, hfails⟩ := session.exists_last least lines
    have hsame : ∀ stepFuel, least ≤ stepFuel → ∀ j ≤ lines.length + 1,
        (session.resumed lines j).run stepFuel = (session.resumed lines j).run least :=
      fun stepFuel hle j hj => Session.run_mono hle (hleast j hj)
    refine ⟨n, hn, least, fun stepFuel hle => ?_⟩
    have hbefore' : ∀ j < n, (session.resumed lines j).Asks stepFuel := by
      intro j hj
      rw [Session.Asks, hsame stepFuel hle j (by omega)]
      exact hbefore j hj
    have hlast' : ¬ (session.resumed lines n).Asks stepFuel := by
      rw [Session.Asks, hsame stepFuel hle n hn]
      exact hlast
    refine ⟨hbefore', hlast', ?_, ?_, fun fuel hfuel => ?_⟩
    · rw [Session.Settles, hsame stepFuel hle n hn]
      exact hleast n hn
    · rw [Session.Fails, hsame stepFuel hle n hn]
      exact hfails
    · obtain ⟨hcount, hplay⟩ := answers_execute hbefore' hlast' fuel
      exact ⟨hcount.trans (Nat.min_eq_left hfuel.le), hplay hfuel ""⟩

/-- A script that asks for two numbers. -/
def adding : Session :=
  ⟨"input() + input()", {}, none, []⟩

/-- With one line there is a second question, and the empty text is the answer. -/
theorem adding_asks_twice :
    (∀ texts, ∃ stepFuel, (adding.given texts).Settles stepFuel) ∧
      ∃ least, ∀ stepFuel, least ≤ stepFuel → ∀ fuel, 2 < fuel →
        (execute stepFuel fuel adding).answers ["1"] = 2 ∧
          (adding.resumed ["1"] 2).Fails stepFuel "" := by
  have hfree : LoopFree adding.source := by decide +kernel
  have hsettles : ∀ texts, (adding.given texts).Settles (enough adding.source) := by
    intro texts
    have hsource : LoopFree (adding.given texts).source := hfree
    exact Session.settles_of_loopFree hsource rfl
  have hstatus : ∀ j < 2, ((adding.resumed ["1"] j).run (enough adding.source)).toOption.map
      Report.status = some (.needsInput "input() + input()") := by
    decide +kernel
  obtain ⟨-, hgiven, n, hn, least, hall⟩ :=
    execute_ends adding ["1"] (fun texts => ⟨_, hsettles texts⟩)
  refine ⟨fun texts => ⟨_, hsettles texts⟩, max least (enough adding.source),
    fun stepFuel hle fuel hfuel => ?_⟩
  obtain ⟨-, hlast, -, hfails, hends⟩ := hall stepFuel ((Nat.le_max_left _ _).trans hle)
  have hasks : ∀ j < 2, (adding.resumed ["1"] j).Asks stepFuel := by
    intro j hj
    have hsettled : (adding.resumed ["1"] j).Settles (enough adding.source) := by
      rw [hgiven]
      exact hsettles _
    have hrun := Session.run_mono ((Nat.le_max_right _ _).trans hle) hsettled
    have hj := hstatus j hj
    rw [Session.Asks, hrun]
    cases hr : (adding.resumed ["1"] j).run (enough adding.source) with
    | error e =>
      rw [hr] at hj
      cases hj
    | ok r =>
      rw [hr] at hj
      exact ⟨r, _, rfl, Option.some.inj hj⟩
  have htwo : n = 2 := by
    by_contra hne
    exact hlast (hasks n (by simp at hn; omega))
  subst htwo
  exact ⟨(hends fuel hfuel).1, hfails (by decide)⟩

end Command

end Abacus
