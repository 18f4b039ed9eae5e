import Abacus.Proofs.Simulation.Expression

/-! Statements and blocks of the two runs, and from them whole scripts. The two runs may have
different amounts of fuel if the left one may be the first to lack it. -/

namespace Abacus.Simulation

open Eval

variable {α β : Type} {a : Setup α} {b : Setup β} {S : Simulation a b} {p : Parts α} {q : Parts β}

theorem simulates_checkName (name : Token) :
    S.Simulates (Rel.eq S Unit) (checkName a name) (checkName b name) := by
  unfold checkName
  rw [← S.strict_eq]
  split
  · exact .failAt _ _
  · exact .pure rfl

theorem simulates_checkAssign (scope : Scope) (name : Token) (constant : Bool)
    (valueSource : String) {x : Option (Nat × Binding α)} {y : Option (Nat × Binding β)}
    (h : ((Rel.eq S Nat).prod (Rel.binding S)).option.rel x y) :
    S.Simulates (Rel.eq S Unit) (checkAssign scope name constant valueSource x)
      (checkAssign scope name constant valueSource y) := by
  cases h with
  | none => exact .pure rfl
  | @some x y hh =>
    obtain ⟨owner, bx⟩ := x
    obtain ⟨_, cy⟩ := y
    obtain ⟨rfl, hb⟩ := hh
    have hc : bx.isConstant = cy.isConstant := hb.isConstant_eq
    unfold checkAssign
    dsimp only
    rw [hc]
    split
    · split <;> exact .failAt _ _
    · split
      · exact .failAt _ _
      · exact .pure rfl

theorem simulates_recordIf (top : Bool) (s : Statement) {x : List (Output α)} {y : List (Output β)}
    (h : List.Forall₂ (Output.Related S.same) x y) :
    S.Simulates (Rel.eq S Unit) (if top then Run.record s x else pure ())
      (if top then Run.record s y else pure ()) := by
  split
  · exact S.record s h
  · exact .pure rfl

theorem labels_related (same : α → β → Prop) (texts : List String) :
    List.Forall₂ (Output.Related same) (texts.map .label) (texts.map .label) := by
  rw [List.forall₂_map_left_iff, List.forall₂_map_right_iff, List.forall₂_same]
  exact fun text _ => .label text

theorem debugValue (S : Simulation a b) (before : String) {v : α} {w : β} (h : S.same v w) :
    S.Simulates (Rel.eq S Unit)
      (Run.debugText a 2 (fun _ => (a.system.format v).map (before ++ ·)))
      (Run.debugText b 2 (fun _ => (b.system.format w).map (before ++ ·))) := by
  refine S.debugText 2 (fun hlevel => (S.line_format hlevel v w before h).mono .unshown)
    (fun hshows hlevel => ?_)
  obtain ⟨text, ht⟩ := hshows.format hlevel v
  exact ⟨before ++ text, by rw [ht]; rfl⟩

theorem debugTurn (S : Simulation a b) (turn count : Nat) :
    S.Simulates (Rel.eq S Unit) (Run.debugText a 3 (fun _ => turnLine a turn count))
      (Run.debugText b 3 (fun _ => turnLine b turn count)) := by
  have hline : turnLine b turn count = turnLine a turn count := by
    rw [turnLine, turnLine, S.digitLimit_eq]
  refine S.debugText 3 (fun _ => ?_) (fun hshows hlevel => hshows.turnLine hlevel turn count)
  rw [hline]
  cases turnLine a turn count with
  | ok text => exact .ok (S.line_refl text)
  | error f => exact .error (.defect _)

theorem simulates_assign (hp : PartsRelated S p q) (calls : Nat) (scope : Scope) (top : Bool)
    (s : Statement) (name : Token) {value : List Token} (h : S.fit value) (fresh constant : Bool)
    (valueSource : String) :
    S.Simulates (Rel.eq S Unit) (assign a p calls scope top s name value fresh constant valueSource)
      (assign b q calls scope top s name value fresh constant valueSource) := by
  unfold assign
  refine (simulates_checkName name).bind (fun _ _ _ => ?_)
  refine (S.find scope name.value).bind ?_
  intro x y hx
  refine (simulates_checkAssign scope name constant valueSource hx).bind (fun _ _ _ => ?_)
  refine (hp.expression calls scope value name.stop h).bind ?_
  intro v w hv
  have hlast : ∀ (u : Unit) (u' : Unit), u = u' → S.Simulates (Rel.eq S Unit)
      (do
        Run.debugText a 2 (fun _ =>
          (a.system.format v).map ("declare " ++ name.value ++ " = " ++ ·))
        if top then Run.record s [.label name.value, .label "is set to", .value v] else pure ())
      (do
        Run.debugText b 2 (fun _ =>
          (b.system.format w).map ("declare " ++ name.value ++ " = " ++ ·))
        if top then Run.record s [.label name.value, .label "is set to", .value w] else pure ()) :=
    fun _ _ _ => (S.debugValue _ hv).bind (fun _ _ _ =>
      simulates_recordIf top s (.cons (.label _) (.cons (.label _) (.cons (.value hv) .nil))))
  cases hx with
  | none => exact (S.declareIn scope name.value (.number hv constant)).bind hlast
  | @some x y hh =>
    obtain ⟨owner, bx⟩ := x
    obtain ⟨_, cy⟩ := y
    obtain ⟨rfl, hb⟩ := hh
    cases fresh with
    | true => exact (S.declareIn scope name.value (.number hv constant)).bind hlast
    | false => exact (S.declare owner name.value (.number hv false)).bind hlast

theorem simulates_define (scope : Scope) (top : Bool) (s : Statement) (name : Token)
    (parameters : List String) {value : List Token} (h : S.fit value) (valueSource : String) :
    S.Simulates (Rel.eq S Unit) (define a scope top s name parameters value valueSource)
      (define b scope top s name parameters value valueSource) := by
  unfold define
  refine (simulates_checkName name).bind (fun _ _ _ => ?_)
  refine (S.find scope name.value).bind ?_
  intro x y hx
  have hf : Binding.Related S.same S.known S.fit (.function ⟨name.value, parameters, value, scope⟩)
      (.function ⟨name.value, parameters, value, scope⟩) := .function h
  have hlast : ∀ (u : Unit) (u' : Unit), u = u' → S.Simulates (Rel.eq S Unit) _ _ :=
    fun _ _ _ => (S.debugSame 2 (fun _ => "define function " ++
      (name.value ++ "(" ++ ", ".intercalate parameters ++ ")"))).bind (fun _ _ _ =>
        simulates_recordIf top s (labels_related S.same
          [name.value ++ "(" ++ ", ".intercalate parameters ++ ")", "is set to", valueSource]))
  cases hx with
  | none => exact (S.declareIn scope name.value hf).bind hlast
  | @some x y hh =>
    obtain ⟨owner, bx⟩ := x
    obtain ⟨_, cy⟩ := y
    obtain ⟨rfl, hb⟩ := hh
    have hc : bx.isConstant = cy.isConstant := hb.isConstant_eq
    simp only [Option.any_some, hc]
    split
    · exact .failAt _ _
    · exact (S.declare owner name.value hf).bind hlast

theorem simulates_condition (hp : PartsRelated S p q) (calls : Nat) (scope : Scope) (s : Statement)
    (keyword : Token) {tokens : List Token} (h : S.fit tokens) (conditionSource : String) :
    S.Simulates (Rel.eq S Bool) (condition a p calls scope s keyword tokens conditionSource)
      (condition b q calls scope s keyword tokens conditionSource) := by
  refine (hp.expression calls scope tokens keyword.stop h).bind ?_
  intro v w hv
  dsimp only
  rw [S.isTrue v w hv]
  exact (S.debugSame 3 _).bind (fun _ _ _ => .pure rfl)

theorem simulates_inChild (hp : PartsRelated S p q) (calls : Nat) (scope : Scope) (report : Bool)
    {body : List Statement} (h : Statement.AllFit S.fit body) :
    S.Simulates (Rel.flow S) (inChild p calls scope report body)
      (inChild q calls scope report body) := by
  refine (S.child scope).bind ?_
  rintro inner _ rfl
  exact hp.block calls inner body false report h

/-- Amounts of fuel that the two runs may have. -/
def Fuels (S : Simulation a b) (fuel fuel' : Nat) : Prop :=
  fuel = fuel' ∨ (S.lessFuel ∧ fuel ≤ fuel')

theorem Fuels.succ {fuel fuel' : Nat} (h : S.Fuels (fuel + 1) fuel') :
    ∃ k, fuel' = k + 1 ∧ S.Fuels fuel k := by
  rcases h with rfl | ⟨hl, hle⟩
  · exact ⟨fuel, rfl, .inl rfl⟩
  · exact ⟨fuel' - 1, by omega, .inr ⟨hl, by omega⟩⟩

theorem simulates_outOfFuel {γ δ : Type} {R : S.Rel γ δ} {fuel' : Nat} (h : S.Fuels 0 fuel')
    {y : Run β δ} (hy : fuel' = 0 → y = throw (.defect .outOfFuel)) :
    S.Simulates R (throw (.defect .outOfFuel)) y := by
  rcases h with h | ⟨hl, _⟩
  · exact hy h.symm ▸ .throw (.defect _)
  · exact ⟨fun _ _ _ => .ahead (.inl ⟨hl, rfl⟩), fun hi => (S.not_both hl hi).elim⟩

theorem simulates_loop (hp : PartsRelated S p q) (calls : Nat) (scope : Scope) (report : Bool)
    {body : List Statement} (h : Statement.AllFit S.fit body) {fuel fuel' : Nat}
    (hfuel : S.Fuels fuel fuel') :
    S.Simulates (Rel.flow S) (loop p calls scope report body fuel)
      (loop q calls scope report body fuel') := by
  induction fuel generalizing fuel' with
  | zero => exact simulates_outOfFuel hfuel (fun hz => by rw [hz]; rfl)
  | succ fuel ih =>
    obtain ⟨k, rfl, hk⟩ := hfuel.succ
    refine (simulates_inChild hp calls scope report h).bind ?_
    intro x y hx
    cases hx with
    | nothing => exact ih hk
    | finished _ => exact ih hk
    | returned hv => exact .pure (.returned hv)
    | left => exact .pure .nothing

theorem simulates_loopUntil (hp : PartsRelated S p q) (calls : Nat) (scope : Scope) (report : Bool)
    {body : List Statement} (h : Statement.AllFit S.fit body) {holds : Run α Bool}
    {holds' : Run β Bool} (hh : S.Simulates (Rel.eq S Bool) holds holds') {fuel fuel' : Nat}
    (hfuel : S.Fuels fuel fuel') :
    S.Simulates (Rel.flow S) (loopUntil p calls scope report body holds fuel)
      (loopUntil q calls scope report body holds' fuel') := by
  induction fuel generalizing fuel' with
  | zero => exact simulates_outOfFuel hfuel (fun hz => by rw [hz]; rfl)
  | succ fuel ih =>
    obtain ⟨k, rfl, hk⟩ := hfuel.succ
    refine hh.bind ?_
    rintro c _ rfl
    split
    · exact .pure .nothing
    · refine (simulates_inChild hp calls scope report h).bind ?_
      intro x y hx
      cases hx with
      | nothing => exact ih hk
      | finished _ => exact ih hk
      | returned hv => exact .pure (.returned hv)
      | left => exact .pure .nothing

theorem simulates_turnScope (scope : Scope) (counter : Option Token) (turn : Nat) :
    S.Simulates (Rel.eq S Scope) (turnScope a scope counter turn)
      (turnScope b scope counter turn) := by
  cases counter with
  | none => exact .pure rfl
  | some name =>
    refine (S.child scope).bind ?_
    rintro outer _ rfl
    refine (S.declareIn outer name.value (.number (S.fromInt turn) true)).bind ?_
    exact fun _ _ _ => .pure rfl

theorem simulates_turns (hp : PartsRelated S p q) (calls : Nat) (scope : Scope) (report : Bool)
    (counter : Option Token) (count : Nat) {body : List Statement}
    (h : Statement.AllFit S.fit body) (remaining turn : Nat) :
    S.Simulates (Rel.flow S) (turns a p calls scope report counter count body remaining turn)
      (turns b q calls scope report counter count body remaining turn) := by
  induction remaining generalizing turn with
  | zero => exact .pure .nothing
  | succ remaining ih =>
    refine (S.debugTurn (turn + 1) count).bind (fun _ _ _ => ?_)
    refine (simulates_turnScope scope counter (turn + 1)).bind ?_
    rintro outer _ rfl
    refine (simulates_inChild hp calls outer report h).bind ?_
    intro x y hx
    cases hx with
    | nothing => exact ih (turn + 1)
    | finished _ => exact ih (turn + 1)
    | returned hv => exact .pure (.returned hv)
    | left => exact .pure .nothing

theorem simulates_checkCounter (scope : Scope) (counter : Option Token) :
    S.Simulates (Rel.eq S Unit) (checkCounter a scope counter) (checkCounter b scope counter) := by
  cases counter with
  | none => exact .pure rfl
  | some name =>
    refine (simulates_checkName name).bind (fun _ _ _ => ?_)
    refine (S.find scope name.value).bind ?_
    intro x y hx
    cases hx with
    | none => exact .pure rfl
    | @some x y hh =>
      have hc : x.2.isConstant = y.2.isConstant := hh.2.isConstant_eq
      simp only [Option.any_some, hc]
      split
      · exact .failAt _ _
      · exact .pure rfl

theorem simulates_counted (hp : PartsRelated S p q) (calls : Nat) (scope : Scope)
    (top report : Bool) (s : Statement) (keyword : Token) {amount : List Token}
    (ha : S.fit amount) (counter : Option Token) {body : List Statement}
    (h : Statement.AllFit S.fit body) :
    S.Simulates (Rel.flow S) (counted a p calls scope top report s keyword amount counter body)
      (counted b q calls scope top report s keyword amount counter body) := by
  refine (hp.expression calls scope amount keyword.stop ha).bind ?_
  intro v w hv
  have hrest : ∀ (u : Unit) (u' : Unit), u = u' → S.Simulates (Rel.flow S)
      (do
        let count ← Run.ofResult keyword (a.system.toCount v)
        checkCounter a scope counter
        turns a p calls scope report counter count.toNat body count.toNat 0)
      (do
        let count ← Run.ofResult keyword (b.system.toCount w)
        checkCounter b scope counter
        turns b q calls scope report counter count.toNat body count.toNat 0) := by
    intro _ _ _
    refine (Simulates.ofResult (R := Rel.eq S Int) keyword (S.toCount v w hv)).bind ?_
    rintro count _ rfl
    refine (simulates_checkCounter scope counter).bind (fun _ _ _ => ?_)
    exact simulates_turns hp calls scope report counter count.toNat h count.toNat 0
  dsimp only
  split
  · exact (S.record s (.cons (.label _) (.cons (.value hv) (.cons (.label _) .nil)))).bind hrest
  · exact hrest () () rfl

theorem simulates_afterRecord {γ δ : Type} {R : S.Rel γ δ} (top : Bool) (s : Statement)
    (texts : List String) {x : Run α γ} {y : Run β δ} (h : S.Simulates R x y) :
    S.Simulates R (if top then do Run.record s (texts.map .label); x else x)
      (if top then do Run.record s (texts.map .label); y else y) := by
  split
  · exact (S.record s (labels_related S.same texts)).bind (fun _ _ _ => h)
  · exact h

theorem simulates_statement (hp : PartsRelated S p q) {fuel fuel' : Nat}
    (hfuel : S.Fuels fuel fuel') (calls : Nat) (scope : Scope) (top report : Bool)
    (s : Statement) (h : s.Fit S.fit) :
    S.Simulates (Rel.flow S) (statement a p fuel calls scope top report s)
      (statement b q fuel' calls scope top report s) := by
  refine (S.debugSame 1 _).bind (fun _ _ _ => ?_)
  cases s with
  | assign origin name value fresh constant valueSource =>
    refine (simulates_assign hp calls scope top _ name h fresh constant valueSource).bind ?_
    exact fun _ _ _ => .pure .nothing
  | define origin name parameters value valueSource =>
    refine (simulates_define scope top _ name parameters h valueSource).bind ?_
    exact fun _ _ _ => .pure .nothing
  | inline origin value =>
    refine (hp.expression calls scope value origin.index h).bind ?_
    intro v w hv
    dsimp only
    split
    · exact (S.record _ (.cons (.value hv) .nil)).bind (fun _ _ _ => .pure (.finished hv))
    · exact .pure (.finished hv)
  | loop origin keyword body =>
    exact simulates_afterRecord top _ ["loop"] (simulates_loop hp calls scope report h hfuel)
  | repeatUntil origin keyword tokens body conditionSource =>
    exact simulates_afterRecord top _ ["a repeat loop will continue until", conditionSource]
      (simulates_loopUntil hp calls scope report h.2
        (simulates_condition hp calls scope _ keyword h.1 conditionSource) hfuel)
  | repeatTimes origin keyword amount body amountSource =>
    exact simulates_counted hp calls scope top report _ keyword h.1 none h.2
  | repeatWith origin keyword amount counter body amountSource =>
    exact simulates_counted hp calls scope top report _ keyword h.1 (some counter) h.2
  | giveBack origin keyword value =>
    dsimp only
    split
    · exact .pure (.returned S.zero)
    · refine (hp.expression calls scope value keyword.stop h).bind ?_
      exact fun _ _ hv => .pure (.returned hv)
  | leave origin keyword => exact .pure .left
  | print origin keyword text =>
    exact (S.record _ (.cons (.label text) .nil)).bind (fun _ _ _ => .pure .nothing)
  | throw origin keyword text => exact .fail _ _ _
  | ifThen origin keyword condition body conditionSource => exact .pure .nothing
  | elseIf origin keyword condition body conditionSource => exact .pure .nothing
  | otherwise origin keyword body => exact .pure .nothing

def Rel.chosen (S : Simulation a b) : S.Rel (Bool × Flow α) (Bool × Flow β) :=
  (Rel.eq S Bool).prod (Rel.flow S)

theorem simulates_branch (hp : PartsRelated S p q) (calls : Nat) (scope : Scope)
    (top report : Bool) (s : Statement) (keyword : Token) {tokens : List Token}
    (ht : S.fit tokens) (conditionSource : String) {body : List Statement}
    (h : Statement.AllFit S.fit body) :
    S.Simulates (Rel.chosen S)
      (branch a p calls scope top report s keyword tokens conditionSource body)
      (branch b q calls scope top report s keyword tokens conditionSource body) := by
  refine (S.debugSame 1 _).bind (fun _ _ _ => ?_)
  refine (simulates_condition hp calls scope s keyword ht conditionSource).bind ?_
  rintro c _ rfl
  split
  · refine simulates_afterRecord top s ["the code will be executed if", conditionSource] ?_
    refine (simulates_inChild hp calls scope report h).bind ?_
    exact fun _ _ hx => .pure ⟨rfl, hx⟩
  · exact .pure ⟨rfl, .nothing⟩

theorem simulates_lastBranch (hp : PartsRelated S p q) (calls : Nat) (scope : Scope)
    (top report : Bool) (s : Statement) {body : List Statement}
    (h : Statement.AllFit S.fit body) :
    S.Simulates (Rel.chosen S) (lastBranch a p calls scope top report s body)
      (lastBranch b q calls scope top report s body) := by
  refine (S.debugSame 1 _).bind (fun _ _ _ => ?_)
  refine simulates_afterRecord top s ["the code will be executed otherwise"] ?_
  refine (simulates_inChild hp calls scope report h).bind ?_
  exact fun _ _ hx => .pure ⟨rfl, hx⟩

theorem simulates_step (hp : PartsRelated S p q) {fuel fuel' : Nat} (hfuel : S.Fuels fuel fuel')
    (calls : Nat) (scope : Scope) (top report matched : Bool) (s : Statement) (h : s.Fit S.fit) :
    S.Simulates (Rel.chosen S) (step a p fuel calls scope top report matched s)
      (step b q fuel' calls scope top report matched s) := by
  have hother : S.Simulates (Rel.chosen S)
      (do
        let flow ← statement a p fuel calls scope top report s
        return (matched, flow))
      (do
        let flow ← statement b q fuel' calls scope top report s
        return (matched, flow)) := by
    refine (simulates_statement hp hfuel calls scope top report s h).bind ?_
    exact fun _ _ hx => .pure ⟨rfl, hx⟩
  cases s with
  | ifThen origin keyword tokens body source =>
    exact simulates_branch hp calls scope top report _ keyword h.1 source h.2
  | elseIf origin keyword tokens body source =>
    dsimp only [step]
    split
    · exact .pure ⟨rfl, .nothing⟩
    · exact simulates_branch hp calls scope top report _ keyword h.1 source h.2
  | otherwise origin keyword body =>
    dsimp only [step]
    split
    · exact .pure ⟨rfl, .nothing⟩
    · exact simulates_lastBranch hp calls scope top report _ h
  | _ => exact hother

theorem simulates_steps (hp : PartsRelated S p q) {fuel fuel' : Nat} (hfuel : S.Fuels fuel fuel')
    (calls : Nat) (scope : Scope) (top report : Bool) (statements : List Statement)
    (h : Statement.AllFit S.fit statements) (matched : Bool) {last : Option α} {last' : Option β}
    (hl : Option.Rel S.same last last') :
    S.Simulates (Rel.flow S) (steps a p fuel calls scope top report statements matched last)
      (steps b q fuel' calls scope top report statements matched last') := by
  induction statements generalizing matched last last' with
  | nil =>
    cases hl with
    | none => exact .pure .nothing
    | some hv => exact .pure (.finished hv)
  | cons s rest ih =>
    have hstep := S.watched scope (simulates_step hp hfuel calls scope top report matched s h.1)
    unfold steps
    dsimp only
    split
    on_goal 1 => refine (S.setStatement s.source).bind (fun _ _ _ => ?_)
    all_goals
      refine hstep.bind ?_
      rintro ⟨c, x⟩ ⟨_, y⟩ ⟨rfl, hx⟩
      cases hx with
      | nothing => exact ih h.2 c hl
      | finished hv => exact ih h.2 c (.some hv)
      | returned hv => exact .pure (.returned hv)
      | left => exact .pure .left

theorem partsRelated (S : Simulation a b) {fuel fuel' : Nat} (hfuel : S.Fuels fuel fuel') :
    PartsRelated S ⟨expression a fuel, Eval.block a fuel⟩
      ⟨expression b fuel', Eval.block b fuel'⟩ := by
  induction fuel generalizing fuel' with
  | zero =>
    constructor
    · intro calls scope tokens offset _
      simp only [expression]
      exact simulates_outOfFuel hfuel (fun hz => by rw [hz]; simp only [expression])
    · intro calls scope body top report _
      simp only [Eval.block]
      exact simulates_outOfFuel hfuel (fun hz => by rw [hz]; simp only [Eval.block])
  | succ fuel ih =>
    obtain ⟨k, rfl, hk⟩ := hfuel.succ
    constructor
    · intro calls scope tokens offset h
      simp only [expression]
      exact S.watched scope (simulates_expressionWith (ih hk) calls scope h offset)
    · intro calls scope body top report h
      simp only [Eval.block]
      exact simulates_steps (ih hk) hk calls scope top report body h false .none

theorem simulates_program (S : Simulation a b) {fuel fuel' : Nat} (hfuel : S.Fuels fuel fuel')
    {body : List Statement} (h : Statement.AllFit S.fit body) :
    S.Simulates (Rel.eq S Unit) (program a fuel body) (program b fuel' body) := by
  unfold program
  rw [← S.callLimit_eq]
  refine ((S.partsRelated hfuel).block a.callLimit Machine.globals body true true h).bind ?_
  exact fun _ _ _ => .pure rfl

end Abacus.Simulation
