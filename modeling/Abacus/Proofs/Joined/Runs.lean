import Abacus.Proofs.Cache
import Abacus.Proofs.Joined.Reading
import Abacus.Proofs.Replay

/-! Running a script to which lines were added. The statements of the first lines do what they did
before: a block inside an expression of theirs shows the same text in the longer source. What was
recorded stays, and a run that stopped stops in the same way. -/

namespace Abacus

open Statement

variable {α : Type}

section Blocks

variable {F : List Token} {source source' : String} {strict : Bool}

/-- Every block that is remembered may be run. -/
def AllRunnable (F : List Token) (known : Blocks) : Prop :=
  ∀ key body, known.lookup key = some body → AllFit (Fits F) body

theorem AllRunnable.cons {known : Blocks} (h : AllRunnable F known) {key : Int × Int}
    {body : List Statement} (hb : AllFit (Fits F) body) : AllRunnable F ((key, body) :: known) := by
  intro key' body' hl
  rw [List.lookup_cons] at hl
  split at hl
  · cases hl
    exact hb
  · exact h key' body' hl

theorem Keyed.ofTokens_extended {key : Int × Int} {R : List Token} (hk : Keyed F key R)
    (hF : ForestOf source strict F) (h : Contains source' source 0) :
    ofTokens source' strict R = ofTokens source strict R := by
  have hread := ofTokens_shiftAll h hF (fun t ht => hk.reading.inForest ht)
  rw [Token.shiftAll_zero] at hread
  rw [hread]
  cases ofTokens source strict R with
  | ok body => exact congrArg Except.ok (Statement.shiftAll_zero body)
  | error f => exact congrArg Except.error f.shift_zero

theorem recallBlock_extended {key : Int × Int} {R : List Token} {known : Blocks}
    (hk : Keyed F key R) (hO : Ordered F) (hF : ForestOf source strict F)
    (h : Contains source' source 0) (hr : AllRunnable F known) (remembers : Bool) :
    SameResult Eq
      (fun x y => x.1 = y.1 ∧ AllFit (Fits F) x.1 ∧ x.2 = y.2 ∧ AllRunnable F x.2)
      (recallBlock remembers known key (ofTokens source strict R))
      (recallBlock remembers known key (ofTokens source' strict R)) := by
  rw [hk.ofTokens_extended hF h]
  simp only [recallBlock]
  split
  · next body hl =>
    refine .ok ⟨rfl, ?_, rfl, hr⟩
    cases remembers with
    | true => exact hr key body hl
    | false => cases hl
  · cases hb : ofTokens source strict R with
    | error f => exact .error rfl
    | ok body =>
      have hfits := ofTokens_fits hO hk.reading hb
      exact .ok ⟨rfl, hfits, rfl, hr.cons hfits⟩

end Blocks

/-- A run beside the same run with the source that begins in the same way. -/
def Simulation.ofExtended (setup : Setup α) {source : String} {F : List Token} (hO : Ordered F)
    (hF : ForestOf setup.source setup.strict F) (h : Contains source setup.source 0) :
    Simulation setup
      { setup with source := source, remembers := setup.remembers, watches := setup.watches } :=
  .overForest setup source setup.remembers
    (fun known known' => known = known' ∧ AllRunnable F known) hO
    (by
      rintro key tokens known _ hk ⟨rfl, hr⟩
      exact recallBlock_extended hk hO hF h hr setup.remembers)

theorem Program.parse_forest {source : String} {strict : Bool} {p : Program}
    (h : Program.parse source strict = .ok p) :
    ∃ F, Ordered F ∧ ForestOf source strict F ∧ AllFit (Fits F) p.body ∧ p.source = source := by
  obtain ⟨F, hF, hread⟩ := Program.parse_ok h
  have hO := groupAll_ordered (scan_ordered source) hF
  have hfits := ofTokens_fits hO ⟨F, .here F, .refl F⟩ hread.ofTokens_eq
  exact ⟨F, hO, groupAll_forestOf hF, hfits, Program.parse_source h⟩

/-- The statements of a script run alike with more source behind them. -/
theorem Program.run_extended {source rest : String} {p : Program} (s : NumberSystem α)
    (o : Options) (h : Program.parse source o.strict = .ok p) (fuel : Nat) (inputs : List String) :
    (⟨source ++ rest, p.body⟩ : Program).run s o fuel inputs = p.run s o fuel inputs := by
  obtain ⟨F, hO, hF, hbody, hsource⟩ := Program.parse_forest h
  let S := @Simulation.ofExtended _ (p.setup s o) (source ++ rest) _ hO
    (by rw [show (p.setup s o).source = source from hsource]; exact hF)
    (by rw [show (p.setup s o).source = source from hsource]; exact .ofAppend source rest)
  let start := Machine.start s (s.resources o.seed inputs)
  have hm : S.Related start start :=
    ⟨start_frames_related _ _ _ _, .nil, ⟨rfl, fun _ _ hl => nomatch hl⟩, rfl, rfl, rfl⟩
  have he := (S.simulates_program (.inl (rfl : fuel = fuel)) hbody).ends start start hm
  rcases he.outcome_eq rfl rfl rfl (fun _ => id) o.debugLevel with
    hh | ⟨_, _, _, ⟨hl, _⟩ | ⟨hl, _⟩ | ⟨hl, _⟩⟩
  · exact hh.symm
  · exact hl.elim
  · exact hl.elim
  · exact hl.elim

namespace Eval

section Steps

variable (setup : Setup α) (parts : Parts α) (fuel calls : Nat) (scope : Scope) (top report : Bool)

omit setup parts fuel calls scope top report in
theorem bind_flow (x : Run α (Bool × Flow α)) (onward : Bool → Option α → Run α (Flow α))
    (last : Option α) (m : Machine α) :
    (x >>= fun v => match v with
      | (matched, .finished none) => onward matched last
      | (matched, .finished (some v)) => onward matched (some v)
      | (_, flow) => pure flow) m =
    match x m with
    | .ok (matched, .finished none) m' => onward matched last m'
    | .ok (matched, .finished (some v)) m' => onward matched (some v) m'
    | .ok (_, flow) m' => .ok flow m'
    | .error e m' => .error e m' := by
  rw [Run.bind_eq]
  cases x m with
  | error e m' => rfl
  | ok v m' =>
    obtain ⟨matched, flow⟩ := v
    rcases flow with (_ | v) | v | _ <;> rfl

theorem steps_cons (s : Statement) (rest : List Statement) (matched : Bool) (last : Option α)
    (m : Machine α) :
    steps setup parts fuel calls scope top report (s :: rest) matched last m =
      match Run.watched setup scope (step setup parts fuel calls scope top report matched s)
        (if top then { m with statement := s.source } else m) with
      | .ok (matched, .finished none) m' =>
        steps setup parts fuel calls scope top report rest matched last m'
      | .ok (matched, .finished (some v)) m' =>
        steps setup parts fuel calls scope top report rest matched (some v) m'
      | .ok (_, flow) m' => .ok flow m'
      | .error e m' => .error e m' := by
  cases top with
  | false => exact bind_flow _ _ last m
  | true => exact bind_flow _ _ last { m with statement := s.source }

/-- More statements are reached only from the end of those before them. -/
theorem steps_append (A B : List Statement) (matched : Bool) (last : Option α) (m : Machine α) :
    match steps setup parts fuel calls scope top report A matched last m with
    | .ok (.finished last') m' => ∃ matched',
        steps setup parts fuel calls scope top report (A ++ B) matched last m =
          steps setup parts fuel calls scope top report B matched' last' m'
    | r => steps setup parts fuel calls scope top report (A ++ B) matched last m = r := by
  induction A generalizing matched last m with
  | nil => exact ⟨matched, rfl⟩
  | cons s A ih =>
    rw [List.cons_append, steps_cons, steps_cons]
    cases Run.watched setup scope (step setup parts fuel calls scope top report matched s)
      (if top then { m with statement := s.source } else m) with
    | error e m' => rfl
    | ok v m' =>
      obtain ⟨matched', flow⟩ := v
      rcases flow with (_ | v) | v | _
      · exact ih matched' last m'
      · exact ih matched' (some v) m'
      · rfl
      · rfl

/-- Records are only added. -/
theorem steps_grows (B : List Statement) (matched : Bool) (last : Option α) (m : Machine α) :
    m.records.toList <+: (Run.stateOf (steps setup ⟨expression setup fuel, block setup fuel⟩ fuel
      calls scope top report B matched last m)).records.toList := by
  let S := Simulation.ofResources setup setup.watches Eq (fun _ => False) Eq False True False.elim
    (Simulation.repeats_same setup) (Simulation.builtins_same setup)
    (Simulation.factorial_same setup)
  have hfuel : S.Fuels fuel fuel := .inl rfl
  have hlast : Option.Rel S.same last last := by
    cases last with
    | none => exact .none
    | some v => exact .some rfl
  exact (S.simulates_steps (S.partsRelated hfuel) hfuel calls scope top report B
    (Statement.allFit_of_all (fun _ => trivial) B) matched hlast).grows trivial m

end Steps

theorem program_succ (setup : Setup α) (fuel : Nat) (body : List Statement) (m : Machine α) :
    program setup (fuel + 1) body m =
      match steps setup ⟨expression setup fuel, block setup fuel⟩ fuel setup.callLimit
        Machine.globals true true body false none m with
      | .ok _ m' => .ok () m'
      | .error e m' => .error e m' := by
  show (block setup (fuel + 1) setup.callLimit Machine.globals body true true >>=
    fun _ => pure ()) m = _
  rw [block, blockWith, Run.bind_eq]
  cases steps setup ⟨expression setup fuel, block setup fuel⟩ fuel setup.callLimit Machine.globals
    true true body false none m <;> rfl

end Eval

/-- A run that stopped does not get to statements that stand behind it, and one that came to its end
keeps its records. -/
theorem Program.run_append {source : String} {A B : List Statement} (s : NumberSystem α)
    (o : Options) (fuel : Nat) (inputs : List String) {x : Outcome α}
    (hx : (⟨source, A⟩ : Program).run s o fuel inputs = .ok x) :
    (x.status ≠ .ok → (⟨source, A ++ B⟩ : Program).run s o fuel inputs = .ok x) ∧
      ∀ y, (⟨source, A ++ B⟩ : Program).run s o fuel inputs = .ok y → x.records <+: y.records := by
  let setup := (⟨source, A⟩ : Program).setup s o
  let start := Machine.start s (s.resources o.seed inputs)
  have hrun : ∀ body : List Statement, (⟨source, body⟩ : Program).run s o fuel inputs =
      Outcome.ofResult o.debugLevel (Eval.program setup fuel body start) := fun _ => rfl
  rw [hrun] at hx
  simp only [hrun]
  cases fuel with
  | zero => cases hx
  | succ fuel =>
    have happend := Eval.steps_append setup ⟨Eval.expression setup fuel, Eval.block setup fuel⟩
      fuel setup.callLimit Machine.globals true true A B false none start
    rw [Eval.program_succ] at hx
    simp only [Eval.program_succ]
    -- how the statements of the first part ended
    cases hA : Eval.steps setup ⟨Eval.expression setup fuel, Eval.block setup fuel⟩ fuel
        setup.callLimit Machine.globals true true A false none start with
    | error e m =>
      rw [hA] at happend hx
      dsimp only at happend hx
      rw [happend]
      refine ⟨fun _ => hx, fun y hy => ?_⟩
      cases hx.symm.trans hy
      exact List.prefix_rfl
    | ok flow m =>
      rw [hA] at happend hx
      have hok : x = m.outcome o.debugLevel .ok := (Except.ok.inj hx).symm
      subst hok
      refine ⟨fun hne => (hne rfl).elim, fun y hy => ?_⟩
      rcases flow with last | v | _
      · obtain ⟨matched, hB⟩ := happend
        have hgrows := Eval.steps_grows setup fuel setup.callLimit Machine.globals true true B
          matched last m
        rw [hB] at hy
        rw [records_of_ofResult hy]
        generalize Eval.steps _ _ _ _ _ _ _ B matched last m = r at hgrows ⊢
        cases r with
        | ok _ n => exact hgrows
        | error e n => exact hgrows
      · rw [show _ = _ from happend] at hy
        cases hy
        exact List.prefix_rfl
      · rw [show _ = _ from happend] at hy
        cases hy
        exact List.prefix_rfl

/-- Lines that are added never change what the lines before them did. What was recorded stays at the
beginning of the records, and a run that ended with a fault or for want of input ends so again, with
the same fault or prompt and the same records. -/
theorem Session.added_lines_keep_results (s : NumberSystem α) (o : Options) (inputs : List String)
    {a b : String} {p q : Program} (hp : Program.parse a o.strict = .ok p)
    (hq : Program.parse b o.strict = .ok q) (hend : Token.endsInBackslash (Token.scan a) = false)
    {x : Outcome α} (hx : (Session.mk a o none inputs).Ends s (.ok x)) :
    (∀ y, (Session.mk (a ++ "\n" ++ b) o none inputs).Ends s (.ok y) → x.records <+: y.records) ∧
      (x.status ≠ .ok → (Session.mk (a ++ "\n" ++ b) o none inputs).Ends s (.ok x)) := by
  obtain ⟨F, hF, hread⟩ := readsTo_joined hp hq hend
  have hjoined := Program.parse_of_readsTo hF hread
  -- with enough fuel for the first lines, the first lines of both sources end alike
  have hfirst : ∀ fuel, (Session.mk a o none inputs).runWith s fuel = .ok x →
      (⟨a ++ "\n" ++ b, p.body⟩ : Program).run s o fuel inputs = .ok x := by
    intro fuel hr
    have hrun : p.run s o fuel inputs = .ok x := by simpa only [runWith, hp] using hr
    rw [← hrun, String.append_assoc]
    exact Program.run_extended s o hp fuel inputs
  have hwhole : ∀ fuel, (Session.mk (a ++ "\n" ++ b) o none inputs).runWith s fuel =
      (⟨a ++ "\n" ++ b, p.body ++ shiftAll (a.length + 1) q.body⟩ : Program).run s o fuel
        inputs := by
    intro fuel
    simp only [runWith, hjoined]
  obtain ⟨fuel, hr, hfuel⟩ := hx
  constructor
  · rintro y ⟨fuel', hr', hfuel'⟩
    have hleft := runWith_mono s (Nat.le_max_left fuel fuel') _ (hr ▸ hfuel)
    have hright := runWith_mono s (Nat.le_max_right fuel fuel') _ (hr' ▸ hfuel')
    rw [hr] at hleft
    rw [hr', hwhole] at hright
    exact (Program.run_append s o _ inputs (hfirst _ hleft)).2 y hright
  · intro hne
    refine ⟨fuel, ?_, hfuel⟩
    rw [hwhole]
    exact (Program.run_append s o fuel inputs (hfirst fuel hr)).1 hne

/-- The last of these lines stops inside a block of its expression. -/
def stopping : Session :=
  ⟨"x = 3\nprint first\nx + \x7bx; y\x7d", {}, none, []⟩

theorem stopping_stops_again :
    ∃ x, stopping.Ends (Bignumber.system 20) (.ok x) ∧
      x.status = .error ⟨26, "Undefined variable.", 1⟩ ∧
      (Session.mk (stopping.source ++ "\n" ++ "y = 4\ny") {} none []).Ends (Bignumber.system 20)
        (.ok x) := by
  have hstatus : status? (stopping.runWith (Bignumber.system 20) 9) =
      some (.error ⟨26, "Undefined variable.", 1⟩) := by decide +kernel
  have hfirst : (Program.parse stopping.source false).isOk = true := by decide +kernel
  have hsecond : (Program.parse "y = 4\ny" false).isOk = true := by decide +kernel
  obtain ⟨x, hx, hxs⟩ := Session.ends_of_status (Bignumber.system 20) stopping 9 hstatus
  cases hp : Program.parse stopping.source false with
  | error f =>
    rw [hp] at hfirst
    cases hfirst
  | ok p =>
    cases hq : Program.parse "y = 4\ny" false with
    | error f =>
      rw [hq] at hsecond
      cases hsecond
    | ok q =>
      have hkept := Session.added_lines_keep_results (Bignumber.system 20) {} [] hp hq
        (by decide +kernel) hx
      exact ⟨x, hx, hxs, hkept.2 (by rw [hxs]; nofun)⟩

end Abacus
