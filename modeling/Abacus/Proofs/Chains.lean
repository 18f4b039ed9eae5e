import Abacus.Proofs.Alike.Heads
import Abacus.Proofs.Reading.Kinds
import Abacus.Proofs.Safety.Runs

/-! Chains of conditions. A block is a flat list in which every `else` belongs to the condition
right before it, so that it is a list of clauses: chains, and statements that are no part of one. To
run the list is to run the clauses, where of each chain only one block is run. -/

namespace Abacus

open Token Statement Run

/-- A condition of a chain with the block that belongs to it. -/
structure Arm where
  origin : Origin
  keyword : Token
  condition : List Token
  body : List Statement
  source : String

/-- The block of a chain for when none of its conditions holds. -/
structure LastArm where
  origin : Origin
  keyword : Token
  body : List Statement

def Arm.first (a : Arm) : Statement :=
  .ifThen a.origin a.keyword a.condition a.body a.source

def Arm.further (a : Arm) : Statement :=
  .elseIf a.origin a.keyword a.condition a.body a.source

def LastArm.statement (a : LastArm) : Statement :=
  .otherwise a.origin a.keyword a.body

/-- What follows the first condition of a chain. -/
structure ChainTail where
  others : List Arm
  last? : Option LastArm

def ChainTail.statements (t : ChainTail) : List Statement :=
  t.others.map Arm.further ++ t.last?.toList.map LastArm.statement

/-- A chain of conditions, or a statement that is no part of one. -/
inductive Clause where
  | plain (s : Statement) (h : s.isBranch = false)
  | chain (first : Arm) (tail : ChainTail)

def Clause.statements : Clause → List Statement
  | .plain s _ => [s]
  | .chain first tail => first.first :: tail.statements

abbrev Clause.flatten (cs : List Clause) : List Statement :=
  cs.flatMap Clause.statements

/-- The statement goes on with the chain before it. -/
def Statement.continues : Statement → Bool
  | .elseIf .. | .otherwise .. => true
  | _ => false

section Reading

/-- Every `else` of the list has a condition right before it; `after` tells whether one is before
the list. -/
inductive Linked : Bool → List Statement → Prop where
  | nil {after : Bool} : Linked after []
  | cons {after : Bool} {s : Statement} {rest : List Statement}
      (h : s.continues = true → after = true) (hrest : Linked s.isCondition rest) :
      Linked after (s :: rest)

theorem ReadsTo.linked {source : String} {strict after : Bool} {T : List Token}
    {body : List Statement} (h : ReadsTo source strict after T (.ok body)) : Linked after body := by
  induction h using ReadsTo.ok_induction with
  | done => exact .nil
  | skip _ _ ih => exact ih
  | @cons after t rest h inner others _ hh _ _ _ iho =>
    refine .cons (fun hc => ?_) iho
    have hasks := head_asks hh inner
    cases hs : h.finish inner with
    | elseIf =>
      rw [hs] at hasks
      exact hasks
    | otherwise =>
      rw [hs] at hasks
      exact hasks
    | _ =>
      rw [hs] at hc
      cases hc

/-- The block of a statement that was read was read in the same way, with nothing before it. -/
theorem ReadsTo.inner {source : String} {strict after : Bool} {T : List Token}
    {body inner : List Statement} (h : ReadsTo source strict after T (.ok body)) {s : Statement}
    (hs : s ∈ body) (hb : s.body? = some inner) :
    ∃ L, ReadsTo source strict false L (.ok inner) := by
  induction h using ReadsTo.ok_induction with
  | done => cases hs
  | skip _ _ ih => exact ih hs
  | @cons after t rest h read others _ hh hi _ _ iho =>
    rcases List.mem_cons.mp hs with rfl | hs
    · obtain ⟨used, _, hused⟩ := head_takes hh
      rcases hused.block with ⟨_, hnone⟩ | ⟨_, _, _, _, _, _, hsome⟩
      · cases (hnone read).symm.trans hb
      · cases (hsome read).1.symm.trans hb
        exact ⟨_, hi⟩
    · exact iho hs

theorem ReadsTo.nested_linked {source : String} {strict : Bool} {T : List Token}
    {body block : List Statement} (h : ReadsTo source strict false T (.ok body))
    (hn : Nested body block) : Linked false block := by
  induction hn generalizing T with
  | here => exact h.linked
  | into hs hb _ ih =>
    obtain ⟨L, hL⟩ := h.inner hs hb
    exact ih hL

theorem Linked.before {after : Bool} {body : List Statement} (h : Linked after body)
    {front back : List Statement} {s : Statement} (hbody : body = front ++ s :: back)
    (hs : s.continues = true) :
    (front = [] ∧ after = true) ∨ ∃ before c, front = before ++ [c] ∧ c.isCondition = true := by
  induction h generalizing front with
  | nil => simp at hbody
  | @cons after u rest hu _ ih =>
    cases front with
    | nil =>
      cases hbody
      exact .inl ⟨rfl, hu hs⟩
    | cons f front =>
      cases hbody
      rcases ih rfl with ⟨rfl, hc⟩ | ⟨before, c, rfl, hc⟩
      · exact .inr ⟨[], u, rfl, hc⟩
      · exact .inr ⟨u :: before, c, rfl, hc⟩

/-- Puts a statement before clauses and before what goes on with a chain that it may start. -/
def attach : Statement → ChainTail × List Clause → Option (ChainTail × List Clause)
  | .ifThen o k c b source, (tail, cs) =>
    some (⟨[], none⟩, .chain ⟨o, k, c, b, source⟩ tail :: cs)
  | .elseIf o k c b source, (⟨others, last?⟩, cs) =>
    some (⟨⟨o, k, c, b, source⟩ :: others, last?⟩, cs)
  | .otherwise o k b, (⟨[], none⟩, cs) => some (⟨[], some ⟨o, k, b⟩⟩, cs)
  | s, (⟨[], none⟩, cs) =>
    if h : s.isBranch = false then some (⟨[], none⟩, .plain s h :: cs) else none
  | _, _ => none

/-- The clauses of a list, behind what goes on with a chain before it. -/
def clauses? : List Statement → Option (ChainTail × List Clause)
  | [] => some (⟨[], none⟩, [])
  | s :: rest => (clauses? rest).bind (attach s)

theorem attach_plain {s : Statement} (h : s.isBranch = false) (cs : List Clause) :
    attach s (⟨[], none⟩, cs) = some (⟨[], none⟩, .plain s h :: cs) := by
  cases s <;> first | rfl | cases h

theorem clauses?_tail {cs : List Clause}
    (h : clauses? (Clause.flatten cs) = some (⟨[], none⟩, cs)) (others : List Arm)
    (last? : Option LastArm) :
    clauses? (ChainTail.statements ⟨others, last?⟩ ++ Clause.flatten cs) =
      some (⟨others, last?⟩, cs) := by
  induction others with
  | nil =>
    cases last? with
    | none => exact h
    | some l => exact congrArg (·.bind (attach l.statement)) h
  | cons a others ih => exact congrArg (·.bind (attach a.further)) ih

theorem clauses?_flatten (cs : List Clause) :
    clauses? (Clause.flatten cs) = some (⟨[], none⟩, cs) := by
  induction cs with
  | nil => rfl
  | cons c cs ih =>
    cases c with
    | plain s h => exact (congrArg (·.bind (attach s)) ih).trans (attach_plain h cs)
    | chain first tail =>
      exact congrArg (·.bind (attach first.first)) (clauses?_tail ih tail.others tail.last?)

/-- The clauses of a list are determined by it. -/
theorem flatten_injective {cs cs' : List Clause} (h : Clause.flatten cs = Clause.flatten cs') :
    cs = cs' := by
  have hcs := clauses?_flatten cs
  rw [h, clauses?_flatten cs'] at hcs
  exact (Prod.mk.inj (Option.some.inj hcs)).2.symm

theorem Linked.clauses {after : Bool} {body : List Statement} (h : Linked after body) :
    ∃ (t : ChainTail) (cs : List Clause), body = t.statements ++ Clause.flatten cs ∧
      (after = false → t = ⟨[], none⟩) := by
  induction h with
  | nil => exact ⟨⟨[], none⟩, [], rfl, fun _ => rfl⟩
  | @cons after s rest hs _ ih =>
    obtain ⟨⟨others, last?⟩, cs, rfl, hnone⟩ := ih
    cases s with
    | ifThen o k c b source =>
      exact ⟨⟨[], none⟩, .chain ⟨o, k, c, b, source⟩ ⟨others, last?⟩ :: cs, rfl, fun _ => rfl⟩
    | elseIf o k c b source =>
      refine ⟨⟨⟨o, k, c, b, source⟩ :: others, last?⟩, cs, rfl, fun ha => ?_⟩
      cases (hs rfl).symm.trans ha
    | otherwise o k b =>
      cases hnone rfl
      refine ⟨⟨[], some ⟨o, k, b⟩⟩, cs, rfl, fun ha => ?_⟩
      cases (hs rfl).symm.trans ha
    | _ =>
      cases hnone rfl
      exact ⟨⟨[], none⟩, .plain _ rfl :: cs, rfl, fun _ => rfl⟩

theorem Linked.existsUnique {body : List Statement} (h : Linked false body) :
    ∃! cs, Clause.flatten cs = body := by
  obtain ⟨t, cs, rfl, ht⟩ := h.clauses
  obtain rfl := ht rfl
  exact ⟨cs, rfl, fun cs' h' => flatten_injective h'⟩

end Reading

namespace Eval

variable {α : Type}

section Structured

variable (setup : Setup α) (parts : Parts α) (fuel calls : Nat) (scope : Scope) (top report : Bool)

/-- Notes which statement of the script is running. -/
def announce (s : Statement) : Run α Unit :=
  if top then modify (fun m => { m with statement := s.source }) else pure ()

/-- Asks whether the condition of an arm holds, which stands in the statement `s`. -/
def askArm (s : Statement) (a : Arm) : Run α Bool := do
  Run.debug setup 1 (fun _ => s.kind.label ++ ": " ++ s.source)
  condition setup parts calls scope s a.keyword a.condition a.source

/-- Runs the block of the arm that was chosen in a scope of its own. -/
def runArm (s : Statement) (a : Arm) : Run α (Flow α) := do
  if top then Run.record s [.label "the code will be executed if", .label a.source]
  inChild parts calls scope report a.body

/-- Runs the block for when no condition holds in a scope of its own. -/
def runOtherwise (l : LastArm) : Run α (Flow α) := do
  Run.debug setup 1 (fun _ => l.statement.kind.label ++ ": " ++ l.statement.source)
  if top then Run.record l.statement [.label "the code will be executed otherwise"]
  inChild parts calls scope report l.body

def runLast : Option LastArm → Run α (Flow α)
  | none => return .finished none
  | some l => do
    announce top l.statement
    runOtherwise setup parts calls scope top report l

/-- Runs the block of the first arm whose condition holds, or the last block if there is none.
Behind the arm that is chosen nothing is evaluated. -/
def runArms (last? : Option LastArm) : List (Statement × Arm) → Run α (Flow α)
  | [] => runLast setup parts calls scope top report last?
  | (s, a) :: rest => do
    announce top s
    if ← askArm setup parts calls scope s a then runArm parts calls scope top report s a
    else runArms last? rest

def runClause : Clause → Run α (Flow α)
  | .plain s _ => do
    announce top s
    statement setup parts fuel calls scope top report s
  | .chain first tail =>
    runArms setup parts calls scope top report tail.last?
      ((first.first, first) :: tail.others.map (fun a => (a.further, a)))

/-- Runs clauses one after the other; `last` is the last value so far. -/
def runClauses : List Clause → Option α → Run α (Flow α)
  | [], last => return .finished last
  | c :: rest, last => do
    match ← runClause setup parts fuel calls scope top report c with
    | .finished none => runClauses rest last
    | .finished (some v) => runClauses rest (some v)
    | flow => return flow

end Structured

/-- A block does what its clauses do. Only the text of the statement that is running may be another
one at the end: a part of a chain that is passed over is noted too. -/
inductive Agrees (top : Bool) :
    EStateM.Result Stop (Machine α) (Flow α) → EStateM.Result Stop (Machine α) (Flow α) → Prop where
  | same (r : EStateM.Result Stop (Machine α) (Flow α)) : Agrees top r r
  | passed (h : top = true) (last : Option α) (m : Machine α) (text : String) :
      Agrees top (.ok (.finished last) { m with statement := text }) (.ok (.finished last) m)

theorem Agrees.bind {γ : Type} {top : Bool} {x : Run α γ} {f g : γ → Run α (Flow α)}
    (h : ∀ v m, Agrees top (f v m) (g v m)) (m : Machine α) :
    Agrees top ((x >>= f) m) ((x >>= g) m) := by
  cases hx : x m with
  | ok v m' =>
    rw [bind_ok hx, bind_ok hx]
    exact h v m'
  | error e m' =>
    rw [bind_error hx, bind_error hx]
    exact .same _

section Agreement

variable {setup : Setup α} {parts : Parts α} {fuel calls : Nat} {scope : Scope} {top report : Bool}

/-- The text of the statement that is running may be another one, if it is noted. -/
def Noted (top : Bool) (m : Machine α) (text : String) : Prop :=
  top = false → text = m.statement

theorem announce_ok {m : Machine α} {text : String} (h : Noted top m text) (s : Statement) :
    ∃ m', announce top s { m with statement := text } = .ok () m' ∧
      announce top s m = .ok () m' := by
  cases top with
  | true => exact ⟨{ m with statement := s.source }, rfl, rfl⟩
  | false =>
    cases h rfl
    exact ⟨m, rfl, rfl⟩

/-- What happens after a statement of a list. -/
def onward (setup : Setup α) (parts : Parts α) (fuel calls : Nat) (scope : Scope)
    (top report : Bool) (rest : List Statement) (last : Option α) :
    Bool × Flow α → Run α (Flow α)
  | (matched, .finished none) => steps setup parts fuel calls scope top report rest matched last
  | (matched, .finished (some v)) =>
    steps setup parts fuel calls scope top report rest matched (some v)
  | (_, flow) => pure flow

theorem steps_announced (hw : setup.watches = false) (s : Statement) (rest : List Statement)
    (matched : Bool) (last : Option α) :
    steps setup parts fuel calls scope top report (s :: rest) matched last = (do
      announce top s
      let r ← step setup parts fuel calls scope top report matched s
      onward setup parts fuel calls scope top report rest last r) := by
  have hwatched : Run.watched setup scope (step setup parts fuel calls scope top report matched s) =
      step setup parts fuel calls scope top report matched s := by
    simp [Run.watched, hw]
  unfold steps announce
  rw [hwatched]
  cases top <;> rfl

/-- A part of a chain is tried if it is the first one or none before it was chosen. -/
def Tried (matched : Bool) (s : Statement) (a : Arm) : Prop :=
  s = a.first ∨ s = a.further ∧ matched = false

theorem step_tried {matched : Bool} {s : Statement} {a : Arm} (h : Tried matched s a) :
    step setup parts fuel calls scope top report matched s = (do
      if ← askArm setup parts calls scope s a then
        return (true, ← runArm parts calls scope top report s a)
      else return (false, .finished none)) := by
  have hbranch : step setup parts fuel calls scope top report matched s =
      branch setup parts calls scope top report s a.keyword a.condition a.source a.body := by
    rcases h with rfl | ⟨rfl, rfl⟩ <;> rfl
  rw [hbranch]
  unfold branch askArm runArm
  cases top <;> simp only [bind_assoc, if_true, Bool.false_eq_true, if_false]

/-- A part of a chain behind the chosen one is passed over. -/
theorem steps_passed (hw : setup.watches = false) {others : List Statement}
    (ho : ∀ s ∈ others, s.continues = true) (rest : List Statement) (last : Option α)
    {m : Machine α} {text : String} (ht : Noted top m text) :
    ∃ text', Noted top m text' ∧
      steps setup parts fuel calls scope top report (others ++ rest) true last
          { m with statement := text } =
        steps setup parts fuel calls scope top report rest true last
          { m with statement := text' } := by
  induction others generalizing text with
  | nil => exact ⟨text, ht, rfl⟩
  | cons s others ih =>
    obtain ⟨hs, hothers⟩ := List.forall_mem_cons.mp ho
    have hstep : step setup parts fuel calls scope top report true s =
        pure (true, .finished none) := by
      cases s <;> first | rfl | cases hs
    have hpassed : ∃ text', Noted top m text' ∧
        steps setup parts fuel calls scope top report (s :: others ++ rest) true last
            { m with statement := text } =
          steps setup parts fuel calls scope top report (others ++ rest) true last
            { m with statement := text' } := by
      rw [List.cons_append, steps_announced hw, hstep]
      cases top with
      | true => exact ⟨s.source, nofun, rfl⟩
      | false => exact ⟨text, ht, rfl⟩
    obtain ⟨text', ht', heq⟩ := hpassed
    obtain ⟨text'', ht'', heq'⟩ := ih hothers ht'
    exact ⟨text'', ht'', heq.trans heq'⟩

/-- What happens after a clause. -/
def behind (setup : Setup α) (parts : Parts α) (fuel calls : Nat) (scope : Scope)
    (top report : Bool) (cs : List Clause) (last : Option α) : Flow α → Run α (Flow α)
  | .finished none => runClauses setup parts fuel calls scope top report cs last
  | .finished (some v) => runClauses setup parts fuel calls scope top report cs (some v)
  | flow => pure flow

theorem runClauses_cons (c : Clause) (cs : List Clause) (last : Option α) :
    runClauses setup parts fuel calls scope top report (c :: cs) last =
      runClause setup parts fuel calls scope top report c >>=
        behind setup parts fuel calls scope top report cs last :=
  rfl

/-- The list `rest` does what the clauses `cs` do, whatever comes before them. -/
def Continues (setup : Setup α) (parts : Parts α) (fuel calls : Nat) (scope : Scope)
    (top report : Bool) (rest : List Statement) (cs : List Clause) : Prop :=
  ∀ matched last m text, Noted top m text →
    Agrees top
      (steps setup parts fuel calls scope top report rest matched last
        { m with statement := text })
      (runClauses setup parts fuel calls scope top report cs last m)

theorem Continues.here {rest : List Statement} {cs : List Clause}
    (h : Continues setup parts fuel calls scope top report rest cs) (matched : Bool)
    (last : Option α) (m : Machine α) :
    Agrees top (steps setup parts fuel calls scope top report rest matched last m)
      (runClauses setup parts fuel calls scope top report cs last m) :=
  h matched last m m.statement (fun _ => rfl)

/-- After the block of an arm the other parts of its chain are passed over. -/
theorem Continues.chosen (hw : setup.watches = false) {rest : List Statement} {cs : List Clause}
    (h : Continues setup parts fuel calls scope top report rest cs) {others : List Statement}
    (ho : ∀ s ∈ others, s.continues = true) (last : Option α) (flow : Flow α) (m : Machine α) :
    Agrees top
      (onward setup parts fuel calls scope top report (others ++ rest) last (true, flow) m)
      (behind setup parts fuel calls scope top report cs last flow m) := by
  have hpassed : ∀ last, Agrees top
      (steps setup parts fuel calls scope top report (others ++ rest) true last m)
      (runClauses setup parts fuel calls scope top report cs last m) := by
    intro last
    have hnoted : Noted top m m.statement := fun _ => rfl
    obtain ⟨text, ht, heq⟩ := steps_passed hw ho rest last hnoted
    rw [heq]
    exact h true last m text ht
  match flow with
  | .finished none => exact hpassed last
  | .finished (some v) => exact hpassed (some v)
  | .returned v => exact .same _
  | .left => exact .same _

theorem Continues.last (hw : setup.watches = false) {rest : List Statement} {cs : List Clause}
    (h : Continues setup parts fuel calls scope top report rest cs) (last? : Option LastArm)
    (last : Option α) (m : Machine α) :
    Agrees top
      (steps setup parts fuel calls scope top report (ChainTail.statements ⟨[], last?⟩ ++ rest)
        false last m)
      ((runLast setup parts calls scope top report last? >>=
        behind setup parts fuel calls scope top report cs last) m) := by
  cases last? with
  | none => exact h.here false last m
  | some l =>
    have hstep : step setup parts fuel calls scope top report false l.statement = (do
        return (true, ← runOtherwise setup parts calls scope top report l)) := by
      show lastBranch setup parts calls scope top report l.statement l.body = _
      unfold lastBranch runOtherwise
      cases top <;> simp only [bind_assoc, if_true, Bool.false_eq_true, if_false]
    show Agrees top
      (steps setup parts fuel calls scope top report (l.statement :: rest) false last m) _
    rw [steps_announced hw, hstep]
    simp only [runLast, bind_assoc, pure_bind]
    refine Agrees.bind (fun _ => Agrees.bind (fun flow m' => ?_)) m
    have hnone : ∀ s ∈ ([] : List Statement), s.continues = true := by simp
    exact h.chosen hw hnone last flow m'

theorem ChainTail.continues {t : ChainTail} : ∀ s ∈ t.statements, s.continues = true := by
  intro s hs
  rcases List.mem_append.mp hs with hs | hs
  · obtain ⟨a, _, rfl⟩ := List.mem_map.mp hs
    rfl
  · obtain ⟨l, _, rfl⟩ := List.mem_map.mp hs
    rfl

/-- The induction is on the parts that are left: either the condition of the first one holds, or the
next one is tried in its place. -/
theorem Continues.arms (hw : setup.watches = false) {rest : List Statement} {cs : List Clause}
    (h : Continues setup parts fuel calls scope top report rest cs) (last? : Option LastArm)
    (others : List Arm) {matched : Bool} {s : Statement} {a : Arm} (ha : Tried matched s a)
    (last : Option α) {m : Machine α} {text : String} (ht : Noted top m text) :
    Agrees top
      (steps setup parts fuel calls scope top report
        (s :: (ChainTail.statements ⟨others, last?⟩ ++ rest)) matched last
        { m with statement := text })
      ((runArms setup parts calls scope top report last?
          ((s, a) :: others.map (fun a => (a.further, a))) >>=
        behind setup parts fuel calls scope top report cs last) m) := by
  induction others generalizing matched s a m text with
  | nil =>
    obtain ⟨m', hflat, hchain⟩ := announce_ok ht s
    rw [steps_announced hw, step_tried ha, bind_ok hflat]
    simp only [runArms, List.map_nil, bind_assoc]
    rw [bind_ok hchain]
    refine Agrees.bind (fun holds m'' => ?_) m'
    cases holds with
    | true =>
      simp only [if_true, bind_assoc, pure_bind]
      exact Agrees.bind (fun flow m => h.chosen hw ChainTail.continues last flow m) m''
    | false => exact h.last hw last? last m''
  | cons b others ih =>
    obtain ⟨m', hflat, hchain⟩ := announce_ok ht s
    rw [steps_announced hw, step_tried ha, bind_ok hflat]
    unfold runArms
    simp only [List.map_cons, bind_assoc]
    rw [bind_ok hchain]
    refine Agrees.bind (fun holds m'' => ?_) m'
    cases holds with
    | true =>
      simp only [if_true, bind_assoc, pure_bind]
      exact Agrees.bind (fun flow m => h.chosen hw ChainTail.continues last flow m) m''
    | false => exact ih (.inr ⟨rfl, rfl⟩) (fun _ => rfl)

theorem Continues.clauses (hw : setup.watches = false) (cs : List Clause) :
    Continues setup parts fuel calls scope top report (Clause.flatten cs) cs := by
  induction cs with
  | nil =>
    intro matched last m text ht
    cases htop : top with
    | true => exact .passed rfl last m text
    | false =>
      cases ht htop
      exact .same _
  | cons c cs ih =>
    intro matched last m text ht
    cases c with
    | plain s hs =>
      have hstep : step setup parts fuel calls scope top report matched s = (do
          let flow ← statement setup parts fuel calls scope top report s
          return (matched, flow)) := by
        cases s <;> first | rfl | cases hs
      obtain ⟨m', hflat, hclause⟩ := announce_ok ht s
      show Agrees top (steps setup parts fuel calls scope top report (s :: Clause.flatten cs)
        matched last { m with statement := text }) _
      rw [steps_announced hw, hstep, bind_ok hflat, runClauses_cons]
      simp only [runClause, bind_assoc, pure_bind]
      rw [bind_ok hclause]
      refine Agrees.bind (fun flow m'' => ?_) m'
      match flow with
      | .finished none => exact ih.here matched last m''
      | .finished (some v) => exact ih.here matched (some v) m''
      | .returned v => exact .same _
      | .left => exact .same _
    | chain first tail =>
      rw [runClauses_cons]
      exact ih.arms hw tail.last? tail.others (.inl rfl) last ht

end Agreement

end Eval

/-- A block that was read is a list of clauses in one way only, as every `else` of it stands right
behind a condition. To run it is to run the clauses: of each chain the conditions are evaluated up
to the first one that holds, and only the block that belongs to it is run. -/
theorem chains_structured {α : Type} (source : String) (strict : Bool) (tokens : List Token)
    (body block : List Statement) (h : Statement.ofTokens source strict tokens = .ok body)
    (hblock : Nested body block) :
    (∃! cs, Clause.flatten cs = block) ∧
    (∀ front s back, block = front ++ s :: back → s.continues = true →
      ∃ before c, front = before ++ [c] ∧ c.isCondition = true) ∧
    ∀ cs, Clause.flatten cs = block →
      ∀ (setup : Setup α) fuel calls scope top report m, setup.watches = false →
        Eval.Agrees top (Eval.block setup (fuel + 1) calls scope block top report m)
          (Eval.runClauses setup ⟨Eval.expression setup fuel, Eval.block setup fuel⟩ fuel calls
            scope top report cs none m) := by
  have hread : ReadsTo source strict false tokens (.ok body) :=
    h ▸ ofTokens_readsTo source strict tokens
  have hlinked := hread.nested_linked hblock
  refine ⟨hlinked.existsUnique, fun front s back heq hs => ?_, ?_⟩
  · rcases hlinked.before heq hs with ⟨_, hafter⟩ | hbefore
    · cases hafter
    · exact hbefore
  · rintro cs rfl setup fuel calls scope top report m hw
    exact (Eval.Continues.clauses hw cs).here false none m

/-- A script with two chains, one behind the other. -/
def sorting : String :=
  "x = 2\nif x == 1 \x7bprint a\x7d else if x == 2 \x7bprint b\x7d else \x7bprint c\x7d\n" ++
    "if x \x7bprint d\x7d"

theorem sorting_structured :
    ∃ p, Program.parse sorting false = .ok p ∧ ∃ cs, Clause.flatten cs = p.body ∧
      cs.length = 3 ∧
      let setup := p.setup (Bignumber.system 20) {}
      let start := Machine.start setup.system (setup.system.resources 0 [])
      Eval.Agrees true (Eval.block setup 9 setup.callLimit Machine.globals p.body true true start)
        (Eval.runClauses setup ⟨Eval.expression setup 8, Eval.block setup 8⟩ 8 setup.callLimit
          Machine.globals true true cs none start) := by
  have hread : (match Program.parse sorting false with
      | .ok p => (clauses? p.body).map (fun r => r.2.length)
      | .error _ => none) = some 3 := by decide +kernel
  cases hp : Program.parse sorting false with
  | error f =>
    rw [hp] at hread
    cases hread
  | ok p =>
    rw [hp] at hread
    dsimp only at hread
    obtain ⟨F, _, hF⟩ := Program.parse_ok hp
    obtain ⟨⟨cs, hcs, _⟩, _, hrun⟩ := chains_structured sorting false F p.body p.body hF.ofTokens_eq
      (.here p.body)
    have hlength : cs.length = 3 := by
      rw [← hcs, clauses?_flatten] at hread
      exact Option.some.inj hread
    exact ⟨p, rfl, cs, hcs, hlength,
      hrun cs hcs (p.setup (Bignumber.system 20) {}) 8 _ _ true true _ rfl⟩

end Abacus
