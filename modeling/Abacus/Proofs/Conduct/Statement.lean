import Abacus.Proofs.Conduct.Expression

/-! Statements keep to a conduct, and so do whole scripts. A statement binds at most one name, in the
scope in which it runs, and only a statement of the script itself makes a record of its own. -/

namespace Abacus.Conduct

open Eval Run

variable {α γ : Type} {setup : Setup α} {C : Conduct setup} {fit : List Token → Prop}
  {fitBlock : List Statement → Prop} {p : Parts α} {w : C.World} {a : Additions} {scope : Scope}
  {report : Bool} {pre post : C.World → Memory α → Prop} {P : C.World → γ → Prop}

/-- A statement that is made of parts that fit. A loop without a count may lack fuel. -/
structure StatementFits (C : Conduct setup) (fit : List Token → Prop)
    (fitBlock : List Statement → Prop) (s : Statement) : Prop where
  origin : C.Place s.origin.index
  parts : ∀ t ∈ s.parts, C.Place t.index ∧ C.Place t.stop
  runs : ∀ R ∈ s.runs, fit R
  block : ∀ body, s.body? = some body → fitBlock body
  function : s.kind = .define → ∀ R ∈ s.runs, C.body R
  endless : s.kind = .loop ∨ s.kind = .repeatUntil → C.stops.may (.defect .outOfFuel)

/-- What is reported about a statement: the statement itself if it is one of the script. -/
def reported (top : Bool) (s : Statement) : List Statement :=
  if top then [s] else []

theorem flatMap_reported (top : Bool) (body : List Statement) :
    body.flatMap (reported top) = if top then body else [] := by
  unfold reported
  cases top <;> simp

section Names

theorem checkName_cases (setup : Setup α) (name : Token) (m : Machine α) :
    checkName setup name m = .ok () m ∨
      ∃ message, checkName setup name m = .error (.fault (name.fault message)) m := by
  unfold checkName
  split
  · exact .inr ⟨_, rfl⟩
  · exact .inl rfl

theorem checkAssign_cases (scope : Scope) (name : Token) (constant : Bool) (valueSource : String)
    (found : Option (Nat × Binding α)) (m : Machine α) :
    (checkAssign scope name constant valueSource found m = .ok () m ∧
      ∀ id b, found = some (id, b) → b.isConstant = false ∧
        (scope.head? = some id → constant = false)) ∨
      ∃ message, checkAssign scope name constant valueSource found m =
        .error (.fault (name.fault message)) m := by
  match found with
  | none => exact .inl ⟨rfl, by simp⟩
  | some (owner, b) =>
    unfold checkAssign
    dsimp only
    split
    · split <;> exact .inr ⟨_, rfl⟩
    · next hb =>
      split
      · exact .inr ⟨_, rfl⟩
      · next hc =>
        refine .inl ⟨rfl, ?_⟩
        rintro _ _ ⟨⟩
        refine ⟨by simpa using hb, fun hh => ?_⟩
        simpa [hh] using hc

/-- What an assignment says once the name is bound. -/
def sayAssigned (setup : Setup α) (top : Bool) (s : Statement) (name : Token) (v : α) :
    Run α Unit := do
  Run.debugText setup 2 (fun _ =>
    (setup.system.format v).map ("declare " ++ name.value ++ " = " ++ ·))
  if top then Run.record s [.label name.value, .label "is set to", .value v]

/-- How an assignment goes: it is refused, or its value cannot be had, or the name is bound. What was
found before the evaluation decides where it is bound after it. -/
theorem assign_cases (setup : Setup α) (calls : Nat) (scope : Scope) (top : Bool) (s : Statement)
    (name : Token) (value : List Token) (fresh constant : Bool) (valueSource : String)
    (m : Machine α) :
    let x := assign setup p calls scope top s name value fresh constant valueSource
    let y := p.expression calls scope value name.stop
    (∃ message, x m = .error (.fault (name.fault message)) m) ∨
      (∀ id b, m.frames.find scope name.value = some (id, b) → b.isConstant = false) ∧
      ((∃ e m', y m = .error e m' ∧ x m = .error e m') ∨
        ∃ v m' c f, y m = .ok v m' ∧
          m.frames.Placed scope name.value (.number v c) m'.frames f ∧
          x m = sayAssigned setup top s name v { m' with frames := f }) := by
  intro x y
  rcases checkName_cases setup name m with hn | ⟨message, hn⟩
  case inr => exact .inl ⟨message, bind_error hn⟩
  have hfind : Run.find scope name.value m = .ok (m.frames.find scope name.value) m := rfl
  rcases checkAssign_cases scope name constant valueSource (m.frames.find scope name.value) m with
    ⟨ha, hfound⟩ | ⟨message, ha⟩
  case inr => exact .inl ⟨message, (bind_ok hn).trans ((bind_ok hfind).trans (bind_error ha))⟩
  have hchecked : x m = _ := (bind_ok hn).trans ((bind_ok hfind).trans (bind_ok ha))
  refine .inr ⟨fun id b hb => (hfound id b hb).1, ?_⟩
  cases hy : y m with
  | error e m' => exact .inl ⟨e, m', rfl, hchecked.trans (bind_error hy)⟩
  | ok v m' =>
    have hrun : x m = _ := hchecked.trans (bind_ok hy)
    have hown := Frames.Placed.ofOwn (b := .number v constant) hfound m'.frames
    right
    cases hf : m.frames.find scope name.value with
    | none =>
      rw [hf] at hrun
      exact ⟨v, m', constant, _, rfl, hown, hrun⟩
    | some found =>
      obtain ⟨owner, b⟩ := found
      rw [hf] at hrun
      cases fresh with
      | true => exact ⟨v, m', constant, _, rfl, hown, hrun⟩
      | false => exact ⟨v, m', false, _, rfl, .ofFound hf (hfound owner b hf).1 rfl m'.frames, hrun⟩

/-- What a definition says once the function is bound. -/
def sayDefined (setup : Setup α) (top : Bool) (s : Statement) (signature valueSource : String) :
    Run α Unit := do
  Run.debug setup 2 (fun _ => "define function " ++ signature)
  if top then Run.record s [.label signature, .label "is set to", .label valueSource]

theorem define_cases (setup : Setup α) (scope : Scope) (top : Bool) (s : Statement) (name : Token)
    (parameters : List String) (value : List Token) (valueSource : String) (m : Machine α) :
    let x := define setup scope top s name parameters value valueSource
    let function : Binding α := .function ⟨name.value, parameters, value, scope⟩
    (∃ message, x m = .error (.fault (name.fault message)) m) ∨
      (∀ id b, m.frames.find scope name.value = some (id, b) → b.isConstant = false) ∧
      ∃ f, m.frames.Placed scope name.value function m.frames f ∧
        x m = sayDefined setup top s (name.value ++ "(" ++ ", ".intercalate parameters ++ ")")
          valueSource { m with frames := f } := by
  intro x function
  rcases checkName_cases setup name m with hn | ⟨message, hn⟩
  case inr => exact .inl ⟨message, bind_error hn⟩
  have hfind : Run.find scope name.value m = .ok (m.frames.find scope name.value) m := rfl
  have hrun : x m = _ := (bind_ok hn).trans (bind_ok hfind)
  cases hf : m.frames.find scope name.value with
  | none =>
    rw [hf] at hrun
    have hplaced : m.frames.Placed scope name.value function m.frames _ :=
      .ofOwn (fun id c hfc => by simp [hf] at hfc) m.frames
    exact .inr ⟨nofun, _, hplaced, hrun⟩
  | some found =>
    obtain ⟨owner, b⟩ := found
    rw [hf] at hrun
    cases hc : b.isConstant with
    | true =>
      simp only [Option.any_some, hc, if_true] at hrun
      exact .inl ⟨_, hrun⟩
    | false =>
      simp only [Option.any_some, hc] at hrun
      refine .inr ⟨?_, _, .ofFound hf hc rfl m.frames, hrun⟩
      rintro _ _ ⟨⟩
      exact hc

end Names

section Binding

theorem leads_recordIf (top : Bool) {s : Statement} (hk : s.kind ≠ .inline)
    (output : List (Output α)) :
    C.Leads pre pre w ⟨scope, 0, report, reported top s⟩ Anything
      (if top then Run.record s output else pure ()) := by
  cases top with
  | false => exact .done ()
  | true => exact leads_record output (fun _ => List.mem_singleton_self s) (fun _ => hk)

theorem leads_sayAssigned (top : Bool) {s : Statement} (hk : s.kind ≠ .inline) (name : Token)
    (v : α) :
    C.Leads pre pre w ⟨scope, 0, report, reported top s⟩ Anything
      (sayAssigned setup top s name v) := by
  refine (leads_debugText 2 (fun hshows hlevel => ?_)).bind
    (fun _ _ _ _ => leads_recordIf top hk _)
  obtain ⟨text, htext⟩ := hshows.format hlevel v
  exact ⟨_, by rw [htext]; rfl⟩

theorem leads_sayDefined (top : Bool) {s : Statement} (hk : s.kind ≠ .inline)
    (signature valueSource : String) :
    C.Leads pre pre w ⟨scope, 0, report, reported top s⟩ Anything
      (sayDefined setup top s signature valueSource) :=
  (leads_debug 2 _).bind (fun _ _ _ _ => leads_recordIf top hk _)

/-- What was begun, evaluated and bound ends where a statement may end. -/
theorem leaves_of_placed {w₀ w₁ : C.World} {m m' : Machine α} {name : String} {b : Binding α}
    {f : Frames (Binding α)} {reported : List Statement} {rest : Run α Unit}
    (hm : C.begun w₀ m.memory) (hbefore : C.Before w₀ w₁) (hinv : C.inv w₁ m'.memory)
    (hmoves : C.moves.rel (.quiet scope) m m') (hs : C.made w₀ scope)
    (hfound : ∀ id c, m.frames.find scope name = some (id, c) → c.isConstant = false)
    (hplaced : m.frames.Placed scope name b m'.frames f)
    (hb : ∀ g, b = .function g → g.scope = scope ∧ C.body g.body)
    (hrest : ∀ w, C.Leads C.ended C.ended w ⟨scope, 0, report, reported⟩ Anything rest) :
    C.Ends C.ended w₀ ⟨scope, 1, report, reported⟩ Anything m (rest { m' with frames := f }) := by
  obtain ⟨w₂, hbefore₂, hended⟩ := C.placed hm hbefore hinv hmoves hs hfound hplaced hb
  obtain ⟨hmoves₂, w₃, hbefore₃, hend⟩ := hrest w₂ w₂ { m' with frames := f } (C.refl w₂) hended
  have hnow : m.frames.Placed scope name b m'.frames
    ({ m' with frames := f } : Machine α).frames := hplaced
  have hsum : Additions.Sum ⟨scope, 1, false, []⟩ ⟨scope, 0, report, reported⟩
      ⟨scope, 1, report, reported⟩ := ⟨rfl, rfl, Nat.le_refl _, nofun, id, .refl _⟩
  exact ⟨C.moves.trans hsum (C.moves.placed hmoves hnow rfl) hmoves₂, w₃,
    C.trans hbefore (C.trans hbefore₂ hbefore₃), hend⟩

theorem assign_leaves (hp : PartsObey C fit fitBlock p) (calls : Nat) (hs : C.made w scope)
    (top : Bool) {s : Statement} (hk : s.kind ≠ .inline) {name : Token}
    (hn : C.Place name.index ∧ C.Place name.stop) {value : List Token} (hv : fit value)
    (fresh constant : Bool) (valueSource : String) :
    C.Leaves w ⟨scope, 1, report, reported top s⟩
      (assign setup p calls scope top s name value fresh constant valueSource) := by
  intro w₀ m hw hm
  have hexpression := hp.expression w calls scope value name.stop hs hv hn.2 w₀ m hw
    (C.begun_inv hm)
  rcases assign_cases (p := p) setup calls scope top s name value fresh constant valueSource m with
    ⟨message, hx⟩ | ⟨hfound, ⟨e, m', hy, hx⟩ | ⟨v, m', c, f, hy, hplaced, hx⟩⟩
  · rw [hx]
    exact ⟨C.moves.same rfl rfl, w₀, C.refl w₀, C.inv_ended (C.begun_inv hm), hn.1 _ _⟩
  · rw [hy] at hexpression
    rw [hx]
    obtain ⟨hmoves, w₁, hbefore, hinv, hmay⟩ := hexpression
    have hsum : Additions.Sum (.quiet scope) (.quiet scope) ⟨scope, 1, report, reported top s⟩ :=
      ⟨rfl, rfl, Nat.zero_le 1, nofun, nofun, List.nil_sublist _⟩
    exact ⟨C.moves.trans hsum hmoves (C.moves.same rfl rfl), w₁, hbefore, C.inv_ended hinv, hmay⟩
  · rw [hy] at hexpression
    rw [hx]
    obtain ⟨hmoves, w₁, hbefore, hinv, _⟩ := hexpression
    exact leaves_of_placed hm hbefore hinv hmoves (C.made_mono hw hs) hfound hplaced nofun
      (fun _ => leads_sayAssigned top hk name v)

theorem define_leaves (hs : C.made w scope) (top : Bool) {s : Statement} (hk : s.kind ≠ .inline)
    {name : Token} (hn : C.Place name.index) (parameters : List String) {value : List Token}
    (hv : C.body value) (valueSource : String) :
    C.Leaves w ⟨scope, 1, report, reported top s⟩
      (define setup scope top s name parameters value valueSource) := by
  intro w₀ m hw hm
  rcases define_cases setup scope top s name parameters value valueSource m with
    ⟨message, hx⟩ | ⟨hfound, f, hplaced, hx⟩
  · rw [hx]
    exact ⟨C.moves.same rfl rfl, w₀, C.refl w₀, C.inv_ended (C.begun_inv hm), hn _ _⟩
  · rw [hx]
    refine leaves_of_placed hm (C.refl w₀) (C.begun_inv hm) (C.moves.same rfl rfl)
      (C.made_mono hw hs) hfound hplaced ?_ (fun _ => leads_sayDefined top hk _ valueSource)
    rintro _ ⟨⟩
    exact ⟨rfl, hv⟩

end Binding

section Bodies

variable {body : List Statement}

theorem condition_obeys (hp : PartsObey C fit fitBlock p) (calls : Nat) (hs : C.made w scope)
    (s : Statement) {keyword : Token} (hk : C.Place keyword.stop) {tokens : List Token}
    (ht : fit tokens) (conditionSource : String) :
    C.Obeys w (.quiet scope) Anything
      (condition setup p calls scope s keyword tokens conditionSource) := by
  refine (hp.expression w calls scope tokens keyword.stop hs ht hk).bind (fun v _ _ _ => ?_)
  exact (leads_debug 3 _).bind (fun _ _ _ _ => .done _)

theorem inChild_obeys (hp : PartsObey C fit fitBlock p) (calls : Nat) (hs : C.made w scope)
    (own : Scope) (report : Bool) (hb : fitBlock body) :
    C.Obeys w ⟨own, 0, report, []⟩ Anything (inChild p calls scope report body) :=
  (child_makes scope).bind hs nofun body.length
    (fun inner w' _ hinner => hp.block w' calls inner body report hinner hb)

theorem loop_obeys (hp : PartsObey C fit fitBlock p) (hl : C.stops.may (.defect .outOfFuel))
    (calls : Nat) (hs : C.made w scope) (report : Bool) (hb : fitBlock body) (fuel : Nat) :
    C.Obeys w ⟨scope, 0, report, []⟩ Anything (loop p calls scope report body fuel) := by
  induction fuel generalizing w with
  | zero => exact .throw hl
  | succ fuel ih =>
    refine (inChild_obeys hp calls hs scope report hb).bindNext (fun flow w' hw _ => ?_)
    cases flow with
    | left => exact .done _
    | returned v => exact .done _
    | finished _ => exact ih (C.made_mono hw hs)

theorem loopUntil_obeys (hp : PartsObey C fit fitBlock p) (hl : C.stops.may (.defect .outOfFuel))
    (calls : Nat) (hs : C.made w scope) (report : Bool) (hb : fitBlock body) {holds : Run α Bool}
    (hh : C.Obeys w (.quiet scope) Anything holds) (fuel : Nat) :
    C.Obeys w ⟨scope, 0, report, []⟩ Anything
      (loopUntil p calls scope report body holds fuel) := by
  induction fuel generalizing w with
  | zero => exact .throw hl
  | succ fuel ih =>
    refine hh.bind (fun b w₁ hw₁ _ => ?_)
    cases b with
    | true => exact .done _
    | false =>
      refine (inChild_obeys hp calls (C.made_mono hw₁ hs) scope report hb).bindNext
        (fun flow w₂ hw₂ _ => ?_)
      cases flow with
      | left => exact .done _
      | returned v => exact .done _
      | finished _ => exact ih (C.made_mono (C.trans hw₁ hw₂) hs) (hh.later (C.trans hw₁ hw₂))

/-- The name of a counter may be bound around the block. -/
def CounterFits (C : Conduct setup) (w : C.World) (scope : Scope) (counter : Option Token) : Prop :=
  ∀ name ∈ counter, C.free w scope name.value

theorem turn_obeys (hp : PartsObey C fit fitBlock p) (calls : Nat) (hs : C.made w scope)
    (report : Bool) {counter : Option Token} (hc : CounterFits C w scope counter) (turn : Nat)
    (hb : fitBlock body) :
    C.Obeys w ⟨scope, 0, report, []⟩ Anything (do
      let outer ← turnScope setup scope counter turn
      inChild p calls outer report body) := by
  cases counter with
  | none => exact inChild_obeys hp calls hs scope report hb
  | some name =>
    refine (child_bindAll_makes scope [name.value]
      [.number (setup.system.fromInt turn) true]).bind hs ?_ 0
      (fun outer w' _ houter => inChild_obeys hp calls houter outer report hb)
    rintro ⟨n, b⟩ ⟨hname, hvalue⟩
    obtain rfl : n = name.value := List.mem_singleton.mp hname
    obtain rfl : b = _ := List.mem_singleton.mp hvalue
    exact .counter (hc name rfl) _

/-- The turns are counted, so that fuel is only needed for the block. -/
theorem turns_obeys (hp : PartsObey C fit fitBlock p) (calls : Nat) (hs : C.made w scope)
    (report : Bool) {counter : Option Token} (hc : CounterFits C w scope counter) (count : Nat)
    (hb : fitBlock body) (left turn : Nat) :
    C.Obeys w ⟨scope, 0, report, []⟩ Anything
      (turns setup p calls scope report counter count body left turn) := by
  induction left generalizing w turn with
  | zero => exact .done _
  | succ left ih =>
    refine (leads_debugText 3 (fun hshows hlevel => hshows.turnLine hlevel _ _)).bind
      (fun _ w₁ hw₁ _ => ?_)
    have hcounter : CounterFits C w₁ scope counter := fun name hn => C.free_mono hw₁ (hc name hn)
    rw [← bind_assoc]
    refine (turn_obeys hp calls (C.made_mono hw₁ hs) report hcounter (turn + 1) hb).bindNext
      (fun flow w₂ hw₂ _ => ?_)
    cases flow with
    | left => exact .done _
    | returned v => exact .done _
    | finished _ =>
      exact ih (C.made_mono (C.trans hw₁ hw₂) hs)
        (fun name hn => C.free_mono hw₂ (hcounter name hn)) _

theorem checkName_obeys {name : Token} (hn : C.Place name.index) :
    C.Obeys w a Anything (checkName setup name : Run α Unit) := by
  unfold checkName
  split
  · exact .failAt hn _
  · exact .done ()

theorem checkCounter_obeys (hs : C.made w scope) {counter : Option Token}
    (hc : ∀ name ∈ counter, C.Place name.index) :
    C.Obeys w a (fun w' _ => CounterFits C w' scope counter)
      (checkCounter setup scope counter : Run α Unit) := by
  cases counter with
  | none => exact .pure (fun _ _ => nofun)
  | some name =>
    refine (checkName_obeys (hc name rfl)).bind (fun _ w₁ hw₁ _ => ?_)
    refine (obeys_find (C.made_mono hw₁ hs) name.value).bind (fun found w₂ _ hfound => ?_)
    split
    · exact .failAt (hc name rfl) _
    · next hvariable =>
      refine .pure (fun w₃ hw₃ => ?_)
      rintro _ ⟨⟩
      refine C.free_mono hw₃ (hfound ?_)
      rintro id b rfl
      simpa using hvariable

theorem afterRecord_obeys {x : Run α γ} (top : Bool) {s : Statement} (hk : s.kind ≠ .inline)
    (output : List (Output α)) (hx : C.Obeys w ⟨scope, 0, report, []⟩ P x) :
    C.Obeys w ⟨scope, 0, report, reported top s⟩ P (do
      if top then Run.record s output
      x) := by
  have hsum : Additions.Sum ⟨scope, 0, report, reported top s⟩ ⟨scope, 0, report, []⟩
      ⟨scope, 0, report, reported top s⟩ :=
    ⟨rfl, rfl, Nat.le_refl _, id, id, (List.append_nil _).symm ▸ .refl _⟩
  have hrecord : C.Obeys w ⟨scope, 0, report, reported top s⟩ Anything
      (if top then Run.record s output else pure ()) := leads_recordIf top hk output
  cases top with
  | false => exact hx
  | true => exact hrecord.bindAdd (fun _ _ h => h) (fun _ _ hw _ => hx.later hw) hsum

theorem counted_obeys (hp : PartsObey C fit fitBlock p) (calls : Nat) (hs : C.made w scope)
    (top report : Bool) {s : Statement} (hk : s.kind ≠ .inline) {keyword : Token}
    (hkeyword : C.Place keyword.index ∧ C.Place keyword.stop) {amount : List Token}
    (ha : fit amount) {counter : Option Token} (hc : ∀ name ∈ counter, C.Place name.index)
    (hb : fitBlock body) :
    C.Obeys w ⟨scope, 0, report, reported top s⟩ Anything
      (Eval.counted setup p calls scope top report s keyword amount counter body) := by
  refine (hp.expression w calls scope amount keyword.stop hs ha hkeyword.2).bind
    (fun v w₁ hw₁ _ => ?_)
  refine afterRecord_obeys top hk _ ?_
  refine Leads.bind (.ofResult hkeyword.1 _) (fun count w₂ hw₂ _ => ?_)
  have hs₂ := C.made_mono (C.trans hw₁ hw₂) hs
  refine (checkCounter_obeys hs₂ hc).bind (fun _ w₃ hw₃ hcounter => ?_)
  exact turns_obeys hp calls (C.made_mono hw₃ hs₂) report hcounter _ hb _ 0

end Bodies

section Statements

variable {s : Statement}

theorem Leads.widen {reported : List Statement} {x : Run α γ}
    (hx : C.Leads pre post w ⟨scope, 0, report, reported⟩ P x) :
    C.Leads pre post w ⟨scope, 1, report, reported⟩ P x :=
  hx.mono ⟨rfl, rfl, Nat.zero_le 1, id, nofun, (List.append_nil _).symm ▸ .refl _⟩

theorem StatementFits.place (hs : StatementFits C fit fitBlock s) {t : Token} {rest : List Token}
    (h : s.parts = t :: rest) : C.Place t.index ∧ C.Place t.stop :=
  hs.parts t (h ▸ List.mem_cons_self)

theorem statement_leaves (hp : PartsObey C fit fitBlock p) (fuel calls : Nat)
    (hmade : C.made w scope) (top report : Bool) (hs : StatementFits C fit fitBlock s) :
    C.Leaves w ⟨scope, 1, report, reported top s⟩
      (statement setup p fuel calls scope top report s) := by
  refine (leads_debug 1 _).bindAdd (fun _ _ h => C.inv_ended (C.begun_inv h))
    (fun _ w₁ hw₁ _ => ?_) (Additions.sum_quiet_left _)
  have hmade₁ := C.made_mono hw₁ hmade
  cases s with
  | assign origin name value fresh constant valueSource =>
    exact (assign_leaves hp calls hmade₁ top (by simp [Statement.kind]) (hs.place rfl)
      (hs.runs _ List.mem_cons_self) fresh constant valueSource).bindEnd (fun _ _ _ _ => .done _)
  | define origin name parameters value valueSource =>
    exact (define_leaves hmade₁ top (by simp [Statement.kind]) (hs.place rfl).1 parameters
      (hs.function rfl _ List.mem_cons_self) valueSource).bindEnd (fun _ _ _ _ => .done _)
  | inline origin value =>
    refine Leads.leaves ?_
    refine (hp.expression w₁ calls scope value origin.index hmade₁
      (hs.runs _ List.mem_cons_self) hs.origin).bind (fun v _ _ _ => ?_)
    cases report with
    | false => exact .done _
    | true =>
      exact (leads_record _ (by simp [Statement.kind]) (by simp)).bindEnd (fun _ _ _ _ => .done _)
  | loop origin keyword body =>
    exact (afterRecord_obeys top (by simp [Statement.kind]) _ (loop_obeys hp (hs.endless (.inl rfl))
      calls hmade₁ report (hs.block _ rfl) fuel)).widen.leaves
  | repeatUntil origin keyword tokens body source =>
    have hcondition := condition_obeys hp calls hmade₁
      (.repeatUntil origin keyword tokens body source) (hs.place rfl).2
      (hs.runs _ List.mem_cons_self) source
    exact (afterRecord_obeys top (by simp [Statement.kind]) _ (loopUntil_obeys hp
      (hs.endless (.inr rfl)) calls hmade₁ report (hs.block _ rfl) hcondition fuel)).widen.leaves
  | repeatTimes origin keyword amount body source =>
    exact (counted_obeys hp calls hmade₁ top report (by simp [Statement.kind]) (hs.place rfl)
      (hs.runs _ List.mem_cons_self) (by simp) (hs.block _ rfl)).widen.leaves
  | repeatWith origin keyword amount counter body source =>
    refine (counted_obeys hp calls hmade₁ top report (by simp [Statement.kind]) (hs.place rfl)
      (hs.runs _ List.mem_cons_self) ?_ (hs.block _ rfl)).widen.leaves
    rintro _ ⟨⟩
    exact (hs.parts counter (List.mem_cons_of_mem _ List.mem_cons_self)).1
  | giveBack origin keyword value =>
    refine Leads.leaves ?_
    dsimp only
    split
    · exact .done _
    · exact (hp.expression w₁ calls scope value keyword.stop hmade₁
        (hs.runs _ List.mem_cons_self) (hs.place rfl).2).bind (fun _ _ _ _ => .done _)
  | leave origin keyword => exact (Leads.done _).leaves
  | print origin keyword text =>
    exact ((leads_record _ (by simp [Statement.kind]) (by simp [Statement.kind])).bindEnd
      (fun _ _ _ _ => .done _)).leaves
  | throw origin keyword text => exact (Leads.fail hs.origin _ _).leaves
  | ifThen origin keyword tokens body source => exact (Leads.done _).leaves
  | elseIf origin keyword tokens body source => exact (Leads.done _).leaves
  | otherwise origin keyword body => exact (Leads.done _).leaves

theorem branch_obeys (hp : PartsObey C fit fitBlock p) (calls : Nat) (hmade : C.made w scope)
    (top report : Bool) (hk : s.kind ≠ .inline) {keyword : Token} (hkeyword : C.Place keyword.stop)
    {tokens : List Token} (ht : fit tokens) (conditionSource : String) {body : List Statement}
    (hb : fitBlock body) :
    C.Obeys w ⟨scope, 0, report, reported top s⟩ Anything
      (branch setup p calls scope top report s keyword tokens conditionSource body) := by
  refine (leads_debug 1 _).bind (fun _ w₁ hw₁ _ => ?_)
  have hmade₁ := C.made_mono hw₁ hmade
  refine (condition_obeys hp calls hmade₁ s hkeyword ht conditionSource).bind (fun b w₂ hw₂ _ => ?_)
  cases b with
  | true =>
    refine afterRecord_obeys top hk _ ?_
    exact (inChild_obeys hp calls (C.made_mono hw₂ hmade₁) scope report hb).bindEnd
      (fun _ _ _ _ => .done _)
  | false => exact .done _

theorem lastBranch_obeys (hp : PartsObey C fit fitBlock p) (calls : Nat) (hmade : C.made w scope)
    (top report : Bool) (hk : s.kind ≠ .inline) {body : List Statement} (hb : fitBlock body) :
    C.Obeys w ⟨scope, 0, report, reported top s⟩ Anything
      (lastBranch setup p calls scope top report s body) := by
  refine (leads_debug 1 _).bind (fun _ w₁ hw₁ _ => ?_)
  refine afterRecord_obeys top hk _ ?_
  exact (inChild_obeys hp calls (C.made_mono hw₁ hmade) scope report hb).bindEnd
    (fun _ _ _ _ => .done _)

theorem step_leaves (hp : PartsObey C fit fitBlock p) (fuel calls : Nat) (hmade : C.made w scope)
    (top report matched : Bool) (hs : StatementFits C fit fitBlock s) :
    C.Leaves w ⟨scope, 1, report, reported top s⟩
      (step setup p fuel calls scope top report matched s) := by
  have hplain : C.Leaves w ⟨scope, 1, report, reported top s⟩ (do
      let flow ← statement setup p fuel calls scope top report s
      return (matched, flow)) :=
    (statement_leaves hp fuel calls hmade top report hs).bindEnd (fun _ _ _ _ => .done _)
  cases s with
  | ifThen origin keyword tokens body source =>
    exact (branch_obeys hp calls hmade top report (by simp [Statement.kind]) (hs.place rfl).2
      (hs.runs _ List.mem_cons_self) source (hs.block _ rfl)).widen.leaves
  | elseIf origin keyword tokens body source =>
    dsimp only [step]
    split
    · exact (Leads.done _).leaves
    · exact (branch_obeys hp calls hmade top report (by simp [Statement.kind]) (hs.place rfl).2
        (hs.runs _ List.mem_cons_self) source (hs.block _ rfl)).widen.leaves
  | otherwise origin keyword body =>
    dsimp only [step]
    split
    · exact (Leads.done _).leaves
    · exact (lastBranch_obeys hp calls hmade top report (by simp [Statement.kind])
        (hs.block _ rfl)).widen.leaves
  | _ => exact hplain

theorem afterStatement_obeys {x : Run α γ} (top : Bool) (text : String)
    (hx : C.Obeys w a P x) :
    C.Obeys w a P (do
      if top then modify (fun m => { m with statement := text })
      x) := by
  dsimp only
  split
  · exact (leads_setStatement text).bind (fun _ _ hw _ => hx.later hw)
  · exact hx

/-- Each statement of a block adds at most one name and what is reported about it. -/
theorem steps_obeys (hp : PartsObey C fit fitBlock p) (fuel calls : Nat) (hmade : C.made w scope)
    (top report : Bool) {statements : List Statement}
    (hs : ∀ s ∈ statements, StatementFits C fit fitBlock s) (matched : Bool) (last : Option α) :
    C.Obeys w ⟨scope, statements.length, report, statements.flatMap (reported top)⟩ Anything
      (steps setup p fuel calls scope top report statements matched last) := by
  induction statements generalizing w matched last with
  | nil => exact .done _
  | cons s rest ih =>
    obtain ⟨hfirst, hrest⟩ := List.forall_mem_cons.mp hs
    have hstep : C.Obeys w ⟨scope, 1, report, reported top s⟩ Anything
        (Run.watched setup scope (step setup p fuel calls scope top report matched s)) :=
      (step_leaves hp fuel calls hmade top report matched hfirst).watched hmade
    have hsum : Additions.Sum ⟨scope, 1, report, reported top s⟩
        ⟨scope, rest.length, report, rest.flatMap (reported top)⟩
        ⟨scope, (s :: rest).length, report, (s :: rest).flatMap (reported top)⟩ :=
      ⟨rfl, rfl, by simp [Nat.add_comm], id, id, List.flatMap_cons ▸ .refl _⟩
    unfold steps
    refine afterStatement_obeys top s.source ?_
    refine hstep.bindAdd (fun _ _ h => h) (fun r w₁ hw₁ _ => ?_) hsum
    have hmade₁ := C.made_mono hw₁ hmade
    obtain ⟨matched, flow⟩ := r
    cases flow with
    | finished value =>
      cases value with
      | none => exact ih hmade₁ hrest matched last
      | some v => exact ih hmade₁ hrest matched (some v)
    | returned v => exact .done _
    | left => exact .done _

end Statements

/-- Which token runs and blocks may be evaluated with so much fuel. -/
structure Plan (C : Conduct setup) where
  fit : Nat → List Token → Prop
  fitBlock : Nat → List Statement → Prop
  lacks : ∀ tokens, fit 0 tokens → C.stops.may (.defect .outOfFuel)
  lacksBlock : ∀ body, fitBlock 0 body → C.stops.may (.defect .outOfFuel)
  run : ∀ fuel tokens, fit (fuel + 1) tokens → Evaluable C (fit fuel) (fitBlock fuel) tokens
  block : ∀ fuel body, fitBlock (fuel + 1) body →
    ∀ s ∈ body, StatementFits C (fit fuel) (fitBlock fuel) s
  functions : ∀ fuel tokens, C.body tokens → fit fuel tokens

namespace Plan

variable (W : Plan C)

theorem block_succ {fuel : Nat}
    (hp : PartsObey C (W.fit fuel) (W.fitBlock fuel) ⟨expression setup fuel, Eval.block setup fuel⟩)
    (calls : Nat) (hmade : C.made w scope) {body : List Statement} (top report : Bool)
    (hb : W.fitBlock (fuel + 1) body) :
    C.Obeys w ⟨scope, body.length, report, body.flatMap (reported top)⟩ Anything
      (Eval.block setup (fuel + 1) calls scope body top report) := by
  simp only [Eval.block]
  exact steps_obeys hp fuel calls hmade top report (W.block fuel body hb) false none

theorem partsObey (fuel : Nat) : PartsObey C (W.fit fuel) (W.fitBlock fuel)
    ⟨expression setup fuel, Eval.block setup fuel⟩ := by
  induction fuel with
  | zero =>
    refine ⟨?_, ?_, W.functions 0⟩
    · intro w calls scope tokens offset _ ht _
      simp only [expression]
      exact .throw (W.lacks tokens ht)
    · intro w calls scope body report _ hb
      simp only [Eval.block]
      exact .throw (W.lacksBlock body hb)
  | succ fuel ih =>
    refine ⟨?_, ?_, W.functions (fuel + 1)⟩
    · intro w calls scope tokens offset hmade ht ho
      simp only [expression]
      exact (expressionWith_obeys ih calls hmade ho (W.run fuel tokens ht)).leaves.watched hmade
    · intro w calls scope body report hmade hb
      have hblock := W.block_succ ih calls hmade false report hb
      rwa [flatMap_reported] at hblock

theorem program_obeys {fuel : Nat} {body : List Statement} (hmade : C.made w Machine.globals)
    (hb : W.fitBlock fuel body) :
    C.Obeys w ⟨Machine.globals, body.length, true, body⟩ Anything (program setup fuel body) := by
  have hblock : C.Obeys w ⟨Machine.globals, body.length, true, body⟩ Anything
      (Eval.block setup fuel setup.callLimit Machine.globals body true true) := by
    cases fuel with
    | zero =>
      simp only [Eval.block]
      exact .throw (W.lacksBlock body hb)
    | succ fuel =>
      have hsucc := W.block_succ (W.partsObey fuel) setup.callLimit hmade true true hb
      rwa [flatMap_reported] at hsucc
  exact hblock.bindEnd (fun _ _ _ _ => .done ())

end Plan

end Abacus.Conduct
