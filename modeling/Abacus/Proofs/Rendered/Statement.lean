import Abacus.Proofs.Cache
import Abacus.Proofs.Reading.Program
import Abacus.Proofs.Rendered.Expression

/-! Statements and blocks of two renderings, and from them whole scripts: they show the same values
in the same records, and stop for the same reason. -/

namespace Abacus.Rendering

open Token Eval

variable {α : Type} {R : Rendering} {p q : Parts α} {s : NumberSystem α} {o : Options}
  {T T' : List Token} {S S' : Statement} {B B' : List Statement}

section Assignments

variable {name name' : Token}

theorem checkName_like (h : name.value = name'.value) :
    R.Simulates Eq (checkName (R.left s o) name : Run α Unit) (checkName (R.right s o) name') := by
  by_cases hlong : (R.strict && name'.value.length != 1) = true
  · have hfails : (checkName (R.left s o) name : Run α Unit) =
        Run.failAt name "Expected a one-character variable name in strict mode." :=
      if_pos (h ▸ hlong)
    have hfails' : (checkName (R.right s o) name' : Run α Unit) =
        Run.failAt name' "Expected a one-character variable name in strict mode." := if_pos hlong
    rw [hfails, hfails']
    exact .failAt _ _ _ _
  · have hpasses : (checkName (R.left s o) name : Run α Unit) = pure () := if_neg (h ▸ hlong)
    have hpasses' : (checkName (R.right s o) name' : Run α Unit) = pure () := if_neg hlong
    rw [hpasses, hpasses']
    exact .done ()

/-- The frame where a name was found, and its binding. -/
def SameFound (R : Rendering) (x y : Option (Nat × Binding α)) : Prop :=
  Option.Rel (fun x y => x.1 = y.1 ∧ R.Alike x.2 y.2) x y

theorem checkAssign_like (scope : Scope) (h : name.value = name'.value) (constant : Bool)
    (text text' : String) {x y : Option (Nat × Binding α)} (hf : R.SameFound x y) :
    R.Simulates Eq (checkAssign scope name constant text x)
      (checkAssign scope name' constant text' y) := by
  cases hf with
  | none => exact .done ()
  | @some x y hh =>
    obtain ⟨owner, b⟩ := x
    obtain ⟨_, c⟩ := y
    obtain ⟨rfl, hb⟩ := hh
    have hc : b.isConstant = c.isConstant := hb.isConstant_eq
    simp only [checkAssign, hc, h]
    split
    · split <;> exact .failAt _ _ _ _
    · split
      · exact .failAt _ _ _ _
      · exact .done ()

theorem recordIf_like (top : Bool) (hk : S.kind = S'.kind) {out out' : List (Output α)}
    (ho : out.map Output.value? = out'.map Output.value?) :
    R.Simulates Eq (if top then Run.record S out else pure ())
      (if top then Run.record S' out' else pure ()) := by
  cases top with
  | false => exact .done ()
  | true => exact record_like hk ho

theorem assign_like (hp : R.PartsAlike p q) (calls : Nat) (scope : Scope) (top : Bool)
    (hk : S.kind = S'.kind) (h : name.value = name'.value) (hv : R.Runs T T')
    (fresh constant : Bool) (text text' : String) :
    R.Simulates Eq (assign (R.left s o) p calls scope top S name T fresh constant text)
      (assign (R.right s o) q calls scope top S' name' T' fresh constant text') := by
  unfold assign
  refine (checkName_like h).bind (fun _ _ _ => ?_)
  rw [← h]
  refine (find_like scope name.value).bind (fun x y hf => ?_)
  refine (checkAssign_like scope h constant text text' hf).bind (fun _ _ _ => ?_)
  refine (hp.expression calls scope _ _ hv).bind ?_
  rintro v _ rfl
  have hlast : R.Simulates Eq
      (do
        Run.debugText (R.left s o) 2 (fun _ =>
          (s.format v).map ("declare " ++ name.value ++ " = " ++ ·))
        if top then Run.record S [.label name.value, .label "is set to", .value v])
      (do
        Run.debugText (R.right s o) 2 (fun _ =>
          (s.format v).map ("declare " ++ name.value ++ " = " ++ ·))
        if top then Run.record S' [.label name.value, .label "is set to", .value v]) :=
    (debugText_like rfl 2 _).bind (fun _ _ _ => recordIf_like top hk rfl)
  have hin : R.Simulates Eq (Run.declareIn scope name.value (.number v constant))
      (Run.declareIn scope name.value (.number v constant)) :=
    declareIn_like scope name.value (.number v constant)
  cases hf with
  | none => exact hin.bind (fun _ _ _ => hlast)
  | @some x y hh =>
    obtain ⟨owner, b⟩ := x
    obtain ⟨_, c⟩ := y
    obtain ⟨rfl, _⟩ := hh
    cases fresh with
    | true => exact hin.bind (fun _ _ _ => hlast)
    | false =>
      have hat : R.Simulates Eq (Run.declare owner name.value (.number v false))
          (Run.declare owner name.value (.number v false)) :=
        declare_like owner name.value (.number v false)
      exact hat.bind (fun _ _ _ => hlast)

theorem define_like (scope : Scope) (top : Bool) (hk : S.kind = S'.kind)
    (h : name.value = name'.value) (parameters : List String) (hv : R.Runs T T')
    (text text' : String) :
    R.Simulates Eq (define (R.left s o) scope top S name parameters T text : Run α Unit)
      (define (R.right s o) scope top S' name' parameters T' text') := by
  unfold define
  refine (checkName_like h).bind (fun _ _ _ => ?_)
  rw [← h]
  refine (find_like scope name.value).bind (fun x y hf => ?_)
  have hfunction : R.Alike (.function ⟨name.value, parameters, T, scope⟩ : Binding α)
      (.function ⟨name.value, parameters, T', scope⟩) := .function hv
  cases hf with
  | none =>
    exact (declareIn_like scope name.value hfunction).bind
      (fun _ _ _ =>
        (debug_like _ _ 2 _ _).bind (fun _ _ _ => recordIf_like top hk rfl))
  | @some x y hh =>
    obtain ⟨owner, b⟩ := x
    obtain ⟨_, c⟩ := y
    obtain ⟨rfl, hb⟩ := hh
    have hc : b.isConstant = c.isConstant := hb.isConstant_eq
    simp only [Option.any_some, hc]
    split
    · exact .failAt _ _ _ _
    · exact (declare_like owner name.value hfunction).bind
        (fun _ _ _ =>
        (debug_like _ _ 2 _ _).bind (fun _ _ _ => recordIf_like top hk rfl))

end Assignments

section Blocks

theorem condition_like (hp : R.PartsAlike p q) (calls : Nat) (scope : Scope)
    (keyword keyword' : Token) (hT : R.Runs T T') (text text' : String) :
    R.Simulates Eq (condition (R.left s o) p calls scope S keyword T text)
      (condition (R.right s o) q calls scope S' keyword' T' text') := by
  refine (hp.expression calls scope _ _ hT).bind ?_
  rintro v _ rfl
  exact (debug_like _ _ 3 _ _).bind (fun _ _ _ => .done _)

theorem inChild_like (hp : R.PartsAlike p q) (calls : Nat) (scope : Scope) (report : Bool)
    (hB : List.Forall₂ R.Says B B') :
    R.Simulates Eq (inChild p calls scope report B) (inChild q calls scope report B') := by
  refine (child_like scope).bind ?_
  rintro inner _ rfl
  exact hp.block calls inner false report hB

theorem loop_like (hp : R.PartsAlike p q) (calls : Nat) (scope : Scope) (report : Bool)
    (hB : List.Forall₂ R.Says B B') (fuel : Nat) :
    R.Simulates Eq (Eval.loop p calls scope report B fuel)
      (Eval.loop q calls scope report B' fuel) := by
  induction fuel with
  | zero => exact .stop (.defect _)
  | succ fuel ih =>
    refine (inChild_like hp calls scope report hB).bind ?_
    rintro flow _ rfl
    cases flow with
    | finished last => exact ih
    | returned v => exact .done _
    | left => exact .done _

theorem loopUntil_like (hp : R.PartsAlike p q) (calls : Nat) (scope : Scope) (report : Bool)
    (hB : List.Forall₂ R.Says B B') {holds holds' : Run α Bool} (hh : R.Simulates Eq holds holds')
    (fuel : Nat) :
    R.Simulates Eq (loopUntil p calls scope report B holds fuel)
      (loopUntil q calls scope report B' holds' fuel) := by
  induction fuel with
  | zero => exact .stop (.defect _)
  | succ fuel ih =>
    refine hh.bind ?_
    rintro stop _ rfl
    split
    · exact .done _
    · refine (inChild_like hp calls scope report hB).bind ?_
      rintro flow _ rfl
      cases flow with
      | finished last => exact ih
      | returned v => exact .done _
      | left => exact .done _

/-- Counters with one name, or none on both sides. -/
def SameCounter (c c' : Option Token) : Prop :=
  Option.Rel (fun t t' => t.value = t'.value) c c'

theorem turnScope_like (scope : Scope) {c c' : Option Token} (hc : SameCounter c c') (turn : Nat) :
    R.Simulates Eq (turnScope (R.left s o) scope c turn : Run α Scope)
      (turnScope (R.right s o) scope c' turn) := by
  cases hc with
  | none => exact .done scope
  | @some t t' h =>
    simp only [turnScope, left, right, h]
    refine (child_like scope).bind ?_
    rintro outer _ rfl
    have hnumber : R.Alike (.number (s.fromInt turn) true : Binding α)
        (.number (s.fromInt turn) true) := .number _ _
    exact (declareIn_like outer t'.value hnumber).bind (fun _ _ _ => .done outer)

theorem turns_like (hp : R.PartsAlike p q) (calls : Nat) (scope : Scope) (report : Bool)
    {c c' : Option Token} (hc : SameCounter c c') (count : Nat) (hB : List.Forall₂ R.Says B B')
    (remaining turn : Nat) :
    R.Simulates Eq (turns (R.left s o) p calls scope report c count B remaining turn)
      (turns (R.right s o) q calls scope report c' count B' remaining turn) := by
  induction remaining generalizing turn with
  | zero => exact .done _
  | succ remaining ih =>
    refine (debugText_like rfl 3 _).bind (fun _ _ _ => ?_)
    refine (turnScope_like scope hc (turn + 1)).bind ?_
    rintro outer _ rfl
    refine (inChild_like hp calls outer report hB).bind ?_
    rintro flow _ rfl
    cases flow with
    | finished last => exact ih (turn + 1)
    | returned v => exact .done _
    | left => exact .done _

theorem checkCounter_like (scope : Scope) {c c' : Option Token} (hc : SameCounter c c') :
    R.Simulates Eq (checkCounter (R.left s o) scope c : Run α Unit)
      (checkCounter (R.right s o) scope c') := by
  cases hc with
  | none => exact .done ()
  | @some t t' h =>
    simp only [checkCounter]
    refine (checkName_like h).bind (fun _ _ _ => ?_)
    rw [h]
    refine (find_like scope t'.value).bind (fun x y hf => ?_)
    cases hf with
    | none => exact .done ()
    | @some x y hh =>
      have hconstant : x.2.isConstant = y.2.isConstant := hh.2.isConstant_eq
      simp only [Option.any_some, hconstant]
      split
      · exact .failAt _ _ _ _
      · exact .done ()

theorem counted_like (hp : R.PartsAlike p q) (calls : Nat) (scope : Scope) (top report : Bool)
    (hk : S.kind = S'.kind) (keyword keyword' : Token) (hT : R.Runs T T') {c c' : Option Token}
    (hc : SameCounter c c') (hB : List.Forall₂ R.Says B B') :
    R.Simulates Eq (counted (R.left s o) p calls scope top report S keyword T c B)
      (counted (R.right s o) q calls scope top report S' keyword' T' c' B') := by
  refine (hp.expression calls scope _ _ hT).bind ?_
  rintro v _ rfl
  refine when_like top (record_like hk rfl) ?_
  refine (Simulates.ofResult keyword keyword' (s.toCount v)).bind ?_
  rintro count _ rfl
  refine (checkCounter_like scope hc).bind (fun _ _ _ => ?_)
  exact turns_like hp calls scope report hc count.toNat hB count.toNat 0

end Blocks

section Statements

/-- Labels are no values. -/
theorem label_values (text text' : String) :
    [Output.label text].map (@Output.value? α) = [Output.label text'].map Output.value? :=
  rfl

theorem labels_values (text text' more more' : String) :
    [Output.label text, .label more].map (@Output.value? α) =
      [Output.label text', .label more'].map Output.value? :=
  rfl

theorem statement_like (hp : R.PartsAlike p q) (fuel calls : Nat) (scope : Scope)
    (top report : Bool) (h : R.Says S S') :
    R.Simulates Eq (statement (R.left s o) p fuel calls scope top report S)
      (statement (R.right s o) q fuel calls scope top report S') := by
  have hkind := h.kind_eq
  refine (debug_like _ _ 1 _ _).bind (fun _ _ _ => ?_)
  cases h with
  | assign hn hv =>
    exact (assign_like hp calls scope top hkind hn hv _ _ _ _).bind (fun _ _ _ => .done _)
  | define hn hv =>
    exact (define_like scope top hkind hn _ hv _ _).bind (fun _ _ _ => .done _)
  | inline hv =>
    refine (hp.expression calls scope _ _ hv).bind ?_
    rintro v _ rfl
    exact when_like report (record_like hkind rfl) (.done _)
  | loop hB => exact when_like top (record_like hkind rfl) (loop_like hp calls scope report hB fuel)
  | repeatUntil hc hB =>
    refine when_like top (record_like hkind (labels_values _ _ _ _)) ?_
    exact loopUntil_like hp calls scope report hB (condition_like hp calls scope _ _ hc _ _) fuel
  | repeatTimes hc hB => exact counted_like hp calls scope top report hkind _ _ hc .none hB
  | repeatWith hc hn hB => exact counted_like hp calls scope top report hkind _ _ hc (.some hn) hB
  | giveBack he hv =>
    dsimp only
    rw [he]
    split
    · exact .done _
    · refine (hp.expression calls scope _ _ hv).bind ?_
      rintro v _ rfl
      exact .done _
  | leave => exact .done _
  | print => exact (record_like hkind (label_values _ _)).bind (fun _ _ _ => .done _)
  | throw => exact .fail _ _ _ _ _ _
  | ifThen => exact .done _
  | elseIf => exact .done _
  | otherwise => exact .done _

theorem branch_like (hp : R.PartsAlike p q) (calls : Nat) (scope : Scope) (top report : Bool)
    (hk : S.kind = S'.kind) (keyword keyword' : Token) (hT : R.Runs T T') (text text' : String)
    (hB : List.Forall₂ R.Says B B') :
    R.Simulates Eq (branch (R.left s o) p calls scope top report S keyword T text B)
      (branch (R.right s o) q calls scope top report S' keyword' T' text' B') := by
  refine (debug_like _ _ 1 _ _).bind (fun _ _ _ => ?_)
  refine (condition_like hp calls scope keyword keyword' hT text text').bind ?_
  rintro chosen _ rfl
  split
  · refine when_like top (record_like hk (labels_values _ _ _ _)) ?_
    refine (inChild_like hp calls scope report hB).bind ?_
    rintro flow _ rfl
    exact .done _
  · exact .done _

theorem lastBranch_like (hp : R.PartsAlike p q) (calls : Nat) (scope : Scope) (top report : Bool)
    (hk : S.kind = S'.kind) (hB : List.Forall₂ R.Says B B') :
    R.Simulates Eq (lastBranch (R.left s o) p calls scope top report S B)
      (lastBranch (R.right s o) q calls scope top report S' B') := by
  refine (debug_like _ _ 1 _ _).bind (fun _ _ _ => ?_)
  refine when_like top (record_like hk rfl) ?_
  refine (inChild_like hp calls scope report hB).bind ?_
  rintro flow _ rfl
  exact .done _

theorem step_like (hp : R.PartsAlike p q) (fuel calls : Nat) (scope : Scope)
    (top report matched : Bool) (h : R.Says S S') :
    R.Simulates Eq (Eval.step (R.left s o) p fuel calls scope top report matched S)
      (Eval.step (R.right s o) q fuel calls scope top report matched S') := by
  have hkind := h.kind_eq
  have hother : R.Simulates Eq
      (do return (matched, ← statement (R.left s o) p fuel calls scope top report S))
      (do return (matched, ← statement (R.right s o) q fuel calls scope top report S')) := by
    refine (statement_like hp fuel calls scope top report h).bind ?_
    rintro flow _ rfl
    exact .done _
  cases h with
  | ifThen hc hB => exact branch_like hp calls scope top report hkind _ _ hc _ _ hB
  | elseIf hc hB =>
    dsimp only [Eval.step]
    split
    · exact .done _
    · exact branch_like hp calls scope top report hkind _ _ hc _ _ hB
  | otherwise hB =>
    dsimp only [Eval.step]
    split
    · exact .done _
    · exact lastBranch_like hp calls scope top report hkind hB
  | _ => exact hother

theorem steps_like (hp : R.PartsAlike p q) (fuel calls : Nat) (scope : Scope) (top report : Bool)
    (h : List.Forall₂ R.Says B B') (matched : Bool) (last : Option α) :
    R.Simulates Eq (steps (R.left s o) p fuel calls scope top report B matched last)
      (steps (R.right s o) q fuel calls scope top report B' matched last) := by
  induction h generalizing matched last with
  | nil => exact .done _
  | @cons S S' B B' hS _ ih =>
    have hstep : R.Simulates Eq
        (Run.watched (R.left s o) scope
          (Eval.step (R.left s o) p fuel calls scope top report matched S))
        (Run.watched (R.right s o) scope
          (Eval.step (R.right s o) q fuel calls scope top report matched S')) :=
      step_like hp fuel calls scope top report matched hS
    unfold steps
    dsimp only
    refine when_like top (setStatement_like _ _) ?_
    refine hstep.bind ?_
    rintro ⟨chosen, flow⟩ _ rfl
    cases flow with
    | finished value =>
      cases value with
      | none => exact ih chosen last
      | some v => exact ih chosen (some v)
    | returned v => exact .done _
    | left => exact .done _

end Statements

section Scripts

theorem partsAlike (hr : R.Reads) (s : NumberSystem α) (o : Options) (fuel : Nat) :
    R.PartsAlike ⟨Eval.expression (R.left s o) fuel, Eval.block (R.left s o) fuel⟩
      ⟨Eval.expression (R.right s o) fuel, Eval.block (R.right s o) fuel⟩ := by
  induction fuel with
  | zero =>
    constructor
    · intro calls scope T T' i i' _
      simp only [Eval.expression]
      exact .stop (.defect _)
    · intro calls scope B B' top report _
      simp only [Eval.block]
      exact .stop (.defect _)
  | succ fuel ih =>
    constructor
    · intro calls scope T T' i i' hT
      simp only [Eval.expression]
      exact expressionWith_like hr ih calls scope i i' hT
    · intro calls scope B B' top report hB
      simp only [Eval.block]
      exact steps_like ih fuel calls scope top report hB false none

theorem program_like (hr : R.Reads) (s : NumberSystem α) (o : Options) (fuel : Nat)
    (h : List.Forall₂ R.Says B B') :
    R.Simulates Eq (Eval.program (R.left s o) fuel B) (Eval.program (R.right s o) fuel B') :=
  ((partsAlike hr s o fuel).block o.callLimit Machine.globals true true h).bind
    (fun _ _ _ => .done _)

theorem start_mirrors (s : NumberSystem α) (r : Resources α) :
    R.Mirrors (Machine.start s r) (Machine.start s r) where
  frames := by
    refine ⟨rfl, fun id name => ?_⟩
    cases hx : ((Machine.start s r).frames.frame id).lookup name with
    | none => exact .none
    | some b =>
      rw [Likeness.start_frame] at hx
      split at hx
      · exact .some (.of_constant (Likeness.constant_of_root (Frames.mem_of_lookup hx)))
      · cases hx
  records := .nil
  resources := rfl

end Scripts

end Abacus.Rendering

namespace Abacus

variable {α : Type}

/-- What a run leaves behind, without texts and places. -/
structure Effect (α : Type) where
  status : String
  kinds : List Statement.Kind
  values : List (List (Option α))

def Outcome.effect (x : Outcome α) : Effect α :=
  ⟨x.status.label, x.records.map Record.kind, x.records.map Record.values⟩

def RunError.defect? : RunError → Option Defect
  | .options _ => none
  | .defect d _ => some d

/-- The effect of a run, or what is wrong with it. -/
def effect (r : Except RunError (Outcome α)) : Except (Option Defect) (Effect α) :=
  match r with
  | .ok x => .ok x.effect
  | .error e => .error e.defect?

theorem lacksFuel_iff_effect (r : Except RunError (Outcome α)) :
    LacksFuel r ↔ effect r = .error (some .outOfFuel) := by
  rcases r with (e | ⟨d, log⟩) | x
  · simp [LacksFuel, effect, RunError.defect?]
  · simp [LacksFuel, effect, RunError.defect?]
  · simp [LacksFuel, effect]

/-- Running what was read from a source, blocks being read afresh every time. -/
def Statement.runRead (s : NumberSystem α) (o : Options) (fuel : Nat) (inputs : List String)
    (source : String) : Except Fault (List Statement) → Except RunError (Outcome α)
  | .error f => .ok ⟨.error f, [], none⟩
  | .ok body =>
    (⟨source, body⟩ : Program).runIn ((⟨source, body⟩ : Program).setup s o).forgetful fuel o.seed
      inputs

namespace Rendering

variable {R : Rendering}

theorem Ends.effect_eq {x y : EStateM.Result Stop (Machine α) Unit} (h : R.Ends Eq x y) (d : Int) :
    effect (Outcome.ofResult d x) = effect (Outcome.ofResult d y) := by
  have hrecords : ∀ {xs ys : List (Record α)}, List.Forall₂ SameRecord xs ys →
      xs.map Record.kind = ys.map Record.kind ∧ xs.map Record.values = ys.map Record.values := by
    intro xs ys hxy
    induction hxy with
    | nil => exact ⟨rfl, rfl⟩
    | cons hr _ ih => exact ⟨by simp [hr.kind, ih.1], by simp [hr.values, ih.2]⟩
  cases h with
  | ok _ hm =>
    obtain ⟨hkinds, hvalues⟩ := hrecords hm.records
    simp [effect, Outcome.ofResult, Outcome.effect, Machine.outcome, Status.label, hkinds, hvalues]
  | error he hr =>
    obtain ⟨hkinds, hvalues⟩ := hrecords hr
    cases he with
    | defect d => rfl
    | _ =>
      simp [effect, Outcome.ofResult, Outcome.effect, Machine.outcome, Status.label, hkinds, hvalues]

/-- What does the same has the same effect. -/
theorem effect_runRead (hr : R.Reads) (s : NumberSystem α) (o : Options) (ho : o.strict = R.strict)
    (fuel : Nat) (inputs : List String) {x y : Except Fault (List Statement)}
    (h : SameAnswer (List.Forall₂ R.Says) x y) :
    effect (Statement.runRead s o fuel inputs R.source x) =
      effect (Statement.runRead s o fuel inputs R.source' y) := by
  cases h with
  | error _ => rfl
  | @ok B B' hB =>
    have hends := program_like hr s o fuel hB _ _
      (start_mirrors s (s.resources o.seed inputs))
    simp only [Statement.runRead, Program.runIn, Program.setup, Setup.forgetful, ho]
    exact hends.effect_eq o.debugLevel

end Rendering

/-- A session without a program runs what is read from its source. -/
theorem Session.runWith_eq_runRead (s : NumberSystem α) (o : Options) (fuel : Nat)
    (source : String) (inputs : List String) :
    (Session.mk source o none inputs).runWith s fuel = Statement.runRead s o fuel inputs source
      ((Program.parse source o.strict).map Program.body) := by
  cases hp : Program.parse source o.strict with
  | error f => simp only [Session.runWith, hp, Except.map, Statement.runRead]
  | ok p =>
    obtain ⟨F, hF, hbody⟩ := Program.parse_fits hp
    have hmemory : p.runIn (p.setup s o).forgetful fuel o.seed inputs = p.run s o fuel inputs :=
      Program.runIn_forgetful rfl hF hbody fuel o.seed inputs
    obtain rfl := Program.parse_source hp
    simp only [Session.runWith, hp, Except.map, Statement.runRead]
    exact hmemory.symm

end Abacus
