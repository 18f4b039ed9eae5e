import Abacus.Proofs.Literals
import Abacus.Proofs.Replay
import Mathlib.Algebra.Group.Equiv.Basic
import Mathlib.Algebra.Ring.Rat

/-! Scripts know numbers only through the interface of their number system. So two systems whose
operations send related numbers to related numbers run every script alike: what is shown differs in
the numbers only, and these are related. -/

namespace Abacus

variable {α β : Type}

/-- Failures that a script cannot tell apart. -/
structure Failure.Alike (f g : Failure) : Prop where
  message : f.message = g.message
  waits : f = .inputRequired ↔ g = .inputRequired

theorem Failure.Alike.refl (f : Failure) : f.Alike f :=
  ⟨rfl, Iff.rfl⟩

/-- A script may run a built-in function on that many arguments. Those of `!` are not counted. -/
def Builtin.Takes (x : Builtin α) (count : Nat) : Prop :=
  x.arity.all (· = count) ∨ x.name = "fac" ∧ count = 1

/-- Functions that send related numbers to related numbers, where `T` ties together what they draw
on. -/
structure Builtin.Alike (R : α → β → Prop) (T : Resources α → Resources β → Prop)
    (x : Builtin α) (y : Builtin β) : Prop where
  arity : x.arity = y.arity
  run : ∀ vs ws r t, x.Takes vs.length → List.Forall₂ R vs ws → T r t →
    Draws False R Failure.Alike T (x.run vs r) (y.run ws t)

/-- Number systems with the same names whose operations send related numbers to related numbers, or
fail alike. The numerals of a source are among the texts that both read alike. -/
structure NumberSystem.Alike (a : NumberSystem α) (b : NumberSystem β) (R : α → β → Prop)
    (T : Resources α → Resources β → Prop) (literal : String → Prop) : Prop where
  zero : R a.zero b.zero
  numeral : ∀ text, Numeral text → literal text
  parse : ∀ text, literal text → SameResult Failure.Alike R (a.parse text) (b.parse text)
  fromInt : ∀ n, R (a.fromInt n) (b.fromInt n)
  isTrue : ∀ v w, R v w → a.isTrue v = b.isTrue w
  toCount : ∀ v w, R v w → SameResult Failure.Alike Eq (a.toCount v) (b.toCount w)
  basic : ∀ v w v' w' op, R v w → R v' w' →
    SameResult Failure.Alike R (a.basic v op v') (b.basic w op w')
  constants : ∀ name, Option.Rel R (a.constants.lookup name) (b.constants.lookup name)
  builtins : ∀ name, Option.Rel (Builtin.Alike R T) (a.builtin? name) (b.builtin? name)

inductive Defect.Alike : Defect → Defect → Prop where
  | refl (d : Defect) : Alike d d
  | literal {f g : Failure} (h : f.Alike g) : Alike (.literal f) (.literal g)
  | unshown {f g : Failure} (h : f.Alike g) : Alike (.unshown f) (.unshown g)

/-- Results with the same status, and so with the same fault or prompt, and the same records but for
their numbers. -/
inductive SameEnding (R : α → β → Prop) :
    Except RunError (Outcome α) → Except RunError (Outcome β) → Prop where
  | shown {o : Outcome α} {o' : Outcome β} (status : o.status = o'.status)
      (records : List.Forall₂ (Record.Related R) o.records o'.records) :
      SameEnding R (.ok o) (.ok o')
  | defect {d d' : Defect} {log log' : Option (List String)} (h : d.Alike d') :
      SameEnding R (.error (.defect d log)) (.error (.defect d' log'))

theorem NumberSystem.builtin?_name {s : NumberSystem α} {name : String} {x : Builtin α}
    (h : s.builtin? name = some x) : x.name = name := by
  simpa using List.find?_some h

section Runs

variable {a : NumberSystem α} {b : NumberSystem β} {R : α → β → Prop}
  {T : Resources α → Resources β → Prop} {literal : String → Prop}

/-- The texts of numbers are asked for at no level below the second. From there on, related numbers
must have texts alike. -/
def ShownAlike (a : NumberSystem α) (b : NumberSystem β) (R : α → β → Prop) (o : Options) : Prop :=
  o.debugLevel < 2 ∨
    ∀ v w, R v w → SameResult Failure.Alike (fun _ _ => True) (a.format v) (b.format w)

/-- A program beside the same program over an alike number system. -/
def Simulation.ofAlike (h : a.Alike b R T literal) (o : Options) (hshown : ShownAlike a b R o)
    (p : Program) : Simulation (p.setup a o) (p.setup b o) where
  same := R
  fails := Failure.Alike
  resources := T
  blocks known known' := known = known' ∧ ∀ key body, known.lookup key = some body →
    Statement.AllFit (ReadsOnly literal) body
  line _ _ := True
  log _ _ := True
  known name arity := ∃ x, a.builtin? name = some x ∧ x.arity = arity
  literal := literal
  fit := ReadsOnly literal
  keyed _ := ReadsOnly literal
  lessFuel := False
  lessInput := False
  lessShown := False
  not_both := Simulation.never_both
  strict_eq := rfl
  callLimit_eq := rfl
  digitLimit_eq := rfl
  level_le := Int.le_refl _
  levels := .inl rfl
  zero := h.zero
  literal_zero := h.numeral _ numeral_zero
  parse := h.parse
  fromInt := h.fromInt
  isTrue := h.isTrue
  toCount := h.toCount
  basic := h.basic
  message _ _ hf := hf.message
  inputRequired _ _ hf := hf.waits
  builtins := by
    rintro name _ ⟨x, hx, rfl⟩
    have hb := h.builtins name
    simp only [Program.setup]
    rw [hx] at hb ⊢
    generalize b.builtin? name = y at hb ⊢
    cases hb with
    | some hxy => exact .some (fun vs ws r t hc hv hr => .inl (hxy.run vs ws r t (.inl hc) hv hr))
  factorial := by
    have hb := h.builtins "fac"
    have hname := fun x => @NumberSystem.builtin?_name α a "fac" x
    simp only [Program.setup]
    generalize a.builtin? "fac" = x at hb hname ⊢
    generalize b.builtin? "fac" = y at hb ⊢
    cases hb with
    | none => exact .none
    | some hxy =>
      refine .some (fun v w r t hv hr => ?_)
      exact hxy.run [v] [w] r t (.inr ⟨hname _ rfl, rfl⟩) (.cons hv .nil) hr
  line_refl _ := trivial
  line_format hlevel v w before hv := by
    rcases hshown with hlow | hformat
    · exact absurd hlevel (Int.not_le.mpr hlow)
    · exact (hformat v w hv).map (fun _ => trivial)
  debug _ _ _ _ _ _ _ := trivial
  recalled := by
    rintro key tokens known _ hk ⟨rfl, hknown⟩
    have hread : ∀ body, Statement.ofTokens p.source o.strict tokens = .ok body →
        Statement.AllFit (ReadsOnly literal) body :=
      fun body => ofTokens_reads (h.numeral _ numeral_one) hk
    simp only [Program.setup, recallBlock, if_true]
    cases hl : known.lookup key with
    | some body => exact .ok ⟨rfl, hknown key body hl, rfl, hknown⟩
    | none =>
      cases hb : Statement.ofTokens p.source o.strict tokens with
      | error f => exact .error rfl
      | ok body =>
        refine .ok ⟨rfl, hread body hb, rfl, fun key' body' hl' => ?_⟩
        rw [List.lookup_cons] at hl'
        split at hl'
        · cases hl'
          exact hread body hb
        · exact hknown key' body' hl'
  fit_block tokens first rest ht hf _ := by
    rw [← hf]
    exact ht.subset (fun _ hm => (List.mem_filter.mp hm).1)
  fit_tokens tokens first rest isFunction ht hf _ := by
    have hrun : ReadsOnly literal (first :: rest) := by
      rw [← hf]
      exact ht.subset (fun _ hm => (List.mem_filter.mp hm).1)
    intro t hm
    split at hm
    · exact (splitWords_reads hrun t hm).fit
    · exact (hrun t hm).fit
  total := False.elim
  known_all := False.elim
  literal_all := False.elim
  fit_all := False.elim
  keyed_all := False.elim

theorem Simulation.Ends.sameEnding {x : Setup α} {y : Setup β} {S : Simulation x y}
    (hf : S.fails = Failure.Alike) (hfuel : ¬ S.lessFuel) (hinput : ¬ S.lessInput)
    (hshown : ¬ S.lessShown) (hrefuses : ∀ g, ¬ S.refuses g) (d d' : Int)
    {r : EStateM.Result Stop (Machine α) Unit} {t : EStateM.Result Stop (Machine β) Unit}
    (h : S.Ends (Rel.eq S Unit) r t) :
    SameEnding S.same (Outcome.ofResult d r) (Outcome.ofResult d' t) := by
  cases h with
  | ok _ hm => exact .shown rfl hm.records
  | @error e e' m n he hm =>
    cases he with
    | fault f => exact .shown rfl hm.records
    | input _ prompt => exact .shown rfl hm.records
    | defect d => exact .defect (.refl d)
    | literal hfg =>
      rw [hf] at hfg
      exact .defect (.literal hfg)
    | unshown hfg =>
      rw [hf] at hfg
      exact .defect (.unshown hfg)
  | ahead ha =>
    rcases ha with ⟨hl, _⟩ | ⟨hl, _⟩ | ⟨hl, _⟩
    · exact (hfuel hl).elim
    · exact (hshown hl).elim
    · exact (hinput hl).elim
  | refused h =>
    obtain ⟨g, hg, _⟩ := h
    exact (hrefuses g hg).elim

theorem Program.run_alike (h : a.Alike b R T literal) (o : Options) (hshown : ShownAlike a b R o)
    (p : Program) (hp : p.Reads literal) (fuel : Nat) (inputs : List String)
    (hr : T (a.resources o.seed inputs) (b.resources o.seed inputs)) :
    SameEnding R (p.run a o fuel inputs) (p.run b o fuel inputs) := by
  let S := Simulation.ofAlike h o hshown p
  have hframes : Frames.Related (Binding.Related R S.known S.fit)
      (Machine.start a (a.resources o.seed inputs)).frames
      (Machine.start b (b.resources o.seed inputs)).frames := by
    refine start_related h.constants (fun name => ?_) _ _
    have hb := h.builtins name
    have hknown : ∀ x, a.builtin? name = some x → S.known name x.arity := fun x hx => ⟨x, hx, rfl⟩
    generalize a.builtin? name = x at hb hknown ⊢
    generalize b.builtin? name = y at hb ⊢
    cases hb with
    | none => exact .none
    | some hxy => exact .some ⟨hxy.arity, hknown _ rfl⟩
  have hm : S.Related (Machine.start a (a.resources o.seed inputs))
      (Machine.start b (b.resources o.seed inputs)) :=
    ⟨hframes, .nil, ⟨rfl, nofun⟩, rfl, trivial, hr⟩
  have hfuel : S.Fuels fuel fuel := .inl rfl
  exact ((S.simulates_program hfuel hp).ends _ _ hm).sameEnding rfl id id id (fun _ => id) _ _

theorem SameEnding.lacksFuel_iff {r : Except RunError (Outcome α)}
    {t : Except RunError (Outcome β)} (h : SameEnding R r t) : LacksFuel r ↔ LacksFuel t := by
  cases h with
  | shown => simp [LacksFuel]
  | defect hd => cases hd <;> simp [LacksFuel]

namespace Session

theorem runWith_alike (h : a.Alike b R T literal) (session : Session)
    (hshown : ShownAlike a b R session.options)
    (hp : ∀ p, session.program = some p → p.Reads literal)
    (hr : T (a.resources session.options.seed session.inputs)
      (b.resources session.options.seed session.inputs)) (fuel : Nat) :
    SameEnding R (session.runWith a fuel) (session.runWith b fuel) := by
  unfold runWith
  cases hs : session.program with
  | some p => exact p.run_alike h session.options hshown (hp p hs) fuel session.inputs hr
  | none =>
    dsimp only
    cases hread : Program.parse session.source session.options.strict with
    | error f => exact .shown rfl .nil
    | ok p =>
      exact p.run_alike h session.options hshown (Program.parse_reads h.numeral hread) fuel
        session.inputs hr

/-- A session ends over one of two alike number systems if it ends over the other, and then in the
same way. -/
theorem parametric (h : a.Alike b R T literal) (session : Session)
    (hshown : ShownAlike a b R session.options)
    (hp : ∀ p, session.program = some p → p.Reads literal)
    (hr : T (a.resources session.options.seed session.inputs)
      (b.resources session.options.seed session.inputs)) :
    ((∃ r, session.Ends a r) ↔ ∃ t, session.Ends b t) ∧
      ∀ r t, session.Ends a r → session.Ends b t → SameEnding R r t := by
  have hfuel := session.runWith_alike h hshown hp hr
  refine ⟨⟨?_, ?_⟩, ?_⟩
  · rintro ⟨_, fuel, rfl, hl⟩
    exact ⟨_, fuel, rfl, fun hl' => hl ((hfuel fuel).lacksFuel_iff.mpr hl')⟩
  · rintro ⟨_, fuel, rfl, hl⟩
    exact ⟨_, fuel, rfl, fun hl' => hl ((hfuel fuel).lacksFuel_iff.mp hl')⟩
  · rintro _ t ⟨fuel, rfl, hl⟩ ht
    have hsame := hfuel fuel
    have hends : session.Ends b (session.runWith b fuel) :=
      ⟨fuel, rfl, fun hl' => hl (hsame.lacksFuel_iff.mpr hl')⟩
    rw [ht.unique hends]
    exact hsame

end Session

end Runs

section Carried

/-- What functions draw on, with its numbers in another form. -/
def Resources.carried (e : α → β) (r : Resources α) : Resources β :=
  ⟨r.generator, r.factorials.map (fun (n, v) => (n, e v)), r.inputs⟩

def Builtin.carried (e : α ≃ β) (x : Builtin α) : Builtin β where
  name := x.name
  arity := x.arity
  run ws t :=
    match x.run (ws.map e.symm) (t.carried e.symm) with
    | .ok v r => .ok (e v) (r.carried e)
    | .error f r => .error f (r.carried e)

/-- A number system with its numbers in another form. -/
def NumberSystem.carried (e : α ≃ β) (s : NumberSystem α) : NumberSystem β where
  zero := e s.zero
  one := e s.one
  parse text := (s.parse text).map e
  format w := s.format (e.symm w)
  fromInt n := e (s.fromInt n)
  isTrue w := s.isTrue (e.symm w)
  isInteger w := s.isInteger (e.symm w)
  toCount w := s.toCount (e.symm w)
  compare w w' := s.compare (e.symm w) (e.symm w')
  basic w op w' := (s.basic (e.symm w) op (e.symm w')).map e
  constants := s.constants.map (fun (name, v) => (name, e v))
  builtins := s.builtins.map (Builtin.carried e)

theorem SameResult.ofMap (e : α → β) (x : Except Failure α) :
    SameResult Failure.Alike (fun v w => w = e v) x (x.map e) := by
  cases x with
  | ok v => exact .ok rfl
  | error f => exact .error (.refl f)

theorem Resources.carried_carried (e : α ≃ β) (r : Resources α) :
    (r.carried e).carried e.symm = r := by
  obtain ⟨generator, factorials, inputs⟩ := r
  simp [carried, Function.comp_def]

theorem Builtin.carried_alike (e : α ≃ β) (x : Builtin α) :
    Builtin.Alike (fun v w => w = e v) (fun r t => t = r.carried e) x (x.carried e) where
  arity := rfl
  run := by
    rintro vs ws r _ - hv rfl
    have hw : ws.map e.symm = vs := by
      induction hv with
      | nil => rfl
      | cons h _ ih => simp [h, ih]
    simp only [carried, hw, Resources.carried_carried]
    cases x.run vs r with
    | ok v r => exact .ok rfl rfl
    | error f r => exact .error (.refl f) rfl

/-- A script cannot tell in which form its numbers are. -/
theorem NumberSystem.carried_alike (e : α ≃ β) (s : NumberSystem α) :
    s.Alike (s.carried e) (fun v w => w = e v) (fun r t => t = r.carried e) (fun _ => True) where
  zero := rfl
  numeral _ _ := trivial
  parse text _ := .ofMap e (s.parse text)
  fromInt _ := rfl
  isTrue v _ h := by simp [carried, h]
  toCount v _ h := by
    simp only [carried, h, e.symm_apply_apply]
    cases s.toCount v with
    | ok n => exact .ok rfl
    | error f => exact .error (.refl f)
  basic v _ v' _ op h h' := by
    simp only [carried, h, h', e.symm_apply_apply]
    exact .ofMap e (s.basic v op v')
  constants name := by
    simp only [carried]
    induction s.constants with
    | nil => exact .none
    | cons entry rest ih =>
      obtain ⟨n, v⟩ := entry
      simp only [List.map_cons, List.lookup_cons]
      cases name == n with
      | true => exact .some rfl
      | false => exact ih
  builtins name := by
    have hfind : (s.carried e).builtin? name = (s.builtin? name).map (Builtin.carried e) :=
      List.find?_map
    rw [hfind]
    cases s.builtin? name with
    | none => exact .none
    | some x => exact .some (x.carried_alike e)

/-- A script that counts, calls and asks. -/
def tallying : Session :=
  ⟨"f(x) = x * 2 - 1/2\nrepeat 2 times with i \x7bprint i\nf(i)\x7d\ny = input()", {}, none, ["3/4"]⟩

/-- Fractions with the opposite sign. -/
def mirrored : NumberSystem Rat :=
  (Fraction.system 20 none).carried (Equiv.neg Rat)

theorem tallying_mirrored :
    ∃ o o', tallying.Ends (Fraction.system 20 none) (.ok o) ∧ tallying.Ends mirrored (.ok o') ∧
      o.status = .ok ∧ o'.status = .ok ∧
      List.Forall₂ (Record.Related (fun v w => w = -v)) o.records o'.records := by
  have halike := (Fraction.system 20 none).carried_alike (Equiv.neg Rat)
  have hboth := tallying.parametric halike (.inl (by decide)) (fun _ hp => nomatch hp) rfl
  have hstatus : status? (tallying.runWith (Fraction.system 20 none) 12) = some .ok := by
    decide +kernel
  obtain ⟨o, ho, hok⟩ := Session.ends_of_status (Fraction.system 20 none) tallying 12 hstatus
  obtain ⟨t, ht⟩ := hboth.1.mp ⟨_, ho⟩
  cases hboth.2 _ t ho ht with
  | @shown _ o' hs hrecords => exact ⟨o, o', ho, ht, hok, hs ▸ hok, hrecords⟩

end Carried

end Abacus
