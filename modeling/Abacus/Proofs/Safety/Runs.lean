import Abacus.Proofs.Replay
import Abacus.Proofs.Safety.Orderly
import Abacus.Proofs.Safety.Systems

/-! Every run of a script that could be read. With a number system that serves, it ends with a
result, waits for a text or stops with a fault inside the source; nothing else can go wrong. -/

namespace Abacus

open Conduct

variable {α : Type} {n : Nat}

/-- A run has a result, and a fault that it ends with is in the source. -/
def EndsInOrder (n : Nat) (r : Except RunError (Outcome α)) : Prop :=
  ∃ o, r = .ok o ∧ ∀ f, o.status = .error f → Within n f.offset

theorem endsInOrder_of_stops {r : EStateM.Result Stop (Machine α) Unit} (d : Int)
    (h : ∀ e m, r = .error e m → e.InOrder n) :
    LacksFuel (Outcome.ofResult d r) ∨ EndsInOrder n (Outcome.ofResult d r) := by
  match r with
  | .ok _ m => exact .inr ⟨_, rfl, nofun⟩
  | .error (.input prompt) m => exact .inr ⟨_, rfl, nofun⟩
  | .error (.fault f) m =>
    refine .inr ⟨_, rfl, ?_⟩
    rintro _ ⟨⟩
    exact h _ m rfl
  | .error (.defect d') m =>
    obtain rfl : d' = .outOfFuel := h _ m rfl
    exact .inl ⟨_, rfl⟩

theorem Program.runIn_inOrder {setup : Setup α} (hs : setup.system.Serves n)
    (hshows : setup.Shows) {p : Program} (hp : ∀ s ∈ p.body, s.Anchored n) (fuel : Nat) (seed : Int)
    (inputs : List String) :
    LacksFuel (p.runIn setup fuel seed inputs) ∨
      EndsInOrder n (p.runIn setup fuel seed inputs) :=
  have hfit : (Plan.orderly hs hshows).fitBlock fuel p.body := hp
  endsInOrder_of_stops setup.debugLevel
    (fun _ _ => (Plan.orderly hs hshows).program_stops hfit)

/-- A part of a chain of conditions. -/
def Statement.isBranch : Statement → Bool
  | .ifThen .. | .elseIf .. | .otherwise .. => true
  | _ => false

/-- Runs a statement of a block as `step` does, but with `plain` in the place of `statement`. -/
def Eval.stepWith (plain : Statement → Run α (Flow α)) (setup : Setup α) (parts : Parts α)
    (calls : Nat) (scope : Scope) (top report matched : Bool) (s : Statement) :
    Run α (Bool × Flow α) :=
  match s with
  | .ifThen _ keyword tokens body source =>
    branch setup parts calls scope top report s keyword tokens source body
  | .elseIf _ keyword tokens body source =>
    if matched then pure (matched, .finished none)
    else branch setup parts calls scope top report s keyword tokens source body
  | .otherwise _ _ body =>
    if matched then pure (matched, .finished none)
    else lastBranch setup parts calls scope top report s body
  | s => do
    let flow ← plain s
    return (matched, flow)

theorem Eval.stepWith_eq_step {plain : Statement → Run α (Flow α)} {setup : Setup α}
    {parts : Parts α} {fuel calls : Nat} {scope : Scope} {top report : Bool}
    (h : ∀ s, s.isBranch = false → plain s = statement setup parts fuel calls scope top report s)
    (matched : Bool) (s : Statement) :
    stepWith plain setup parts calls scope top report matched s =
      step setup parts fuel calls scope top report matched s := by
  cases s with
  | ifThen => rfl
  | elseIf => rfl
  | otherwise => rfl
  | _ => exact congrArg (· >>= fun flow => pure (matched, flow)) (h _ rfl)

/-- A run of a script that could be read has a result, with a fault inside the source if with any,
so that no literal was without a number, no operator without a precedence and no value missing. What
is written for those who debug must have a text, which some systems do not give. In
every expression each operator finds its two values and one value is left; and whatever `statement`
would do with a part of a chain of conditions, it is not asked to. -/
theorem Program.run_in_order {s : NumberSystem α} {source : String} {o : Options} {p : Program}
    (hs : s.Serves source.length) (hp : Program.parse source o.strict = .ok p)
    (hshows : (p.setup s o).Shows) (fuel : Nat) (inputs : List String)
    (hf : ¬ LacksFuel (p.run s o fuel inputs)) :
    (∃ outcome, p.run s o fuel inputs = .ok outcome ∧
      ∀ f, outcome.status = .error f → 0 ≤ f.offset ∧ f.offset ≤ source.length) ∧
    (∀ (first : α) values ops,
      let items := Postfix.ofInfix first values ops
      Postfix.Supplied 0 items 1 ∧
        ∀ stack, Postfix.evaluateFrom (Eval.applyOperator (p.setup s o)) items [] = .ok stack →
          ∃ v, stack = [v]) ∧
    ∀ parts turns calls scope top report (plain : Statement → Run α (Flow α)),
      (∀ t, t.isBranch = false →
        plain t = Eval.statement (p.setup s o) parts turns calls scope top report t) →
      ∀ matched t, Eval.stepWith plain (p.setup s o) parts calls scope top report matched t =
        Eval.step (p.setup s o) parts turns calls scope top report matched t := by
  have hserves : (p.setup s o).system.Serves source.length := hs
  refine ⟨?_, fun first values ops => ?_, ?_⟩
  · rcases Program.runIn_inOrder hserves hshows (Program.parse_anchored hp) fuel o.seed inputs with
      hl | hend
    · exact absurd hl hf
    · exact hend
  · have hsupplied := Postfix.ofInfix_supplied first values ops
    refine ⟨hsupplied, fun stack hstack => ?_⟩
    have hone : stack.length = 1 := hsupplied.length_evaluateFrom rfl hstack
    exact List.length_eq_one_iff.mp hone
  · intro parts turns calls scope top report plain hplain matched t
    exact Eval.stepWith_eq_step hplain matched t

/-- A script that divides by a value of its function. -/
def dividing : String :=
  "f(x) = 3! - 2 x ^ 2\nrepeat 2 times with i \x7bprint i\n1 / (f(i) / 2 + i - 3)\x7d"

theorem dividing_stops :
    ∃ p outcome f, Program.parse dividing false = .ok p ∧
      p.run (Fraction.system 20 (some 4300)) {} 20 [] = .ok outcome ∧ outcome.status = .error f ∧
        0 ≤ f.offset ∧ f.offset ≤ dividing.length := by
  have hrun : (match Program.parse dividing false with
      | .ok p => status? (p.run (Fraction.system 20 (some 4300)) {} 20 [])
      | .error _ => none) = some (.error ⟨53, "Division by zero", 1⟩) := by decide +kernel
  cases hp : Program.parse dividing false with
  | error f =>
    rw [hp] at hrun
    cases hrun
  | ok p =>
    rw [hp] at hrun
    obtain ⟨outcome, hok, hstatus⟩ := status?_eq_some hrun
    have hserves : (Fraction.system 20 (some 4300)).Serves dividing.length :=
      Fraction.system_serves 20 (by decide +kernel)
    have hshows : (p.setup (Fraction.system 20 (some 4300)) {}).Shows :=
      .inl (show (0 : Int) < 2 by decide)
    have hf : ¬ LacksFuel (p.run (Fraction.system 20 (some 4300)) {} 20 []) := by
      rw [hok]
      exact fun ⟨_, h⟩ => nomatch h
    obtain ⟨⟨outcome', hok', hin⟩, _⟩ := Program.run_in_order (o := {}) hserves hp hshows 20 [] hf
    cases hok.symm.trans hok'
    exact ⟨p, outcome, _, rfl, hok, hstatus, hin _ hstatus⟩

end Abacus
