import Abacus.Proofs.Simulation.Statement
import Abacus.Session

/-! Two runs over one number system, where related numbers are equal numbers. What both leave behind
is then the same, unless the left run lacked something. -/

namespace Abacus

variable {α γ : Type}

theorem SameResult.refl {ε : Type} (x : Except ε γ) : SameResult Eq Eq x x := by
  cases x with
  | ok v => exact .ok rfl
  | error e => exact .error rfl

theorem Draws.refl (may : Prop) (x : EStateM.Result Failure (Resources α) α) :
    Draws may Eq Eq Eq x x := by
  cases x with
  | ok v r => exact .ok rfl rfl
  | error f r => exact .error rfl rfl

theorem forall₂_eq {R : γ → γ → Prop} (hr : ∀ v w, R v w → v = w) {vs ws : List γ}
    (h : List.Forall₂ R vs ws) : vs = ws := by
  induction h with
  | nil => rfl
  | cons hv _ ih => rw [hr _ _ hv, ih]

theorem Record.Related.eq {r t : Record α} (h : Record.Related Eq r t) : r = t := by
  obtain ⟨kind, source, output⟩ := r
  obtain ⟨_, _, output'⟩ := t
  obtain ⟨rfl, rfl, ho⟩ := h
  have he : output = output' := forall₂_eq (fun _ _ hh => by cases hh <;> simp_all) ho
  rw [he]

/-- For equal arguments a number system gives results that count as the same. Of failures `fails`
says which ones do. -/
structure NumberSystem.Repeats (s : NumberSystem α) (fails : Failure → Failure → Prop) : Prop where
  eq : ∀ f g, fails f g → f = g
  parse : ∀ text, SameResult fails Eq (s.parse text) (s.parse text)
  format : ∀ v, SameResult fails Eq (s.format v) (s.format v)
  toCount : ∀ v, SameResult fails Eq (s.toCount v) (s.toCount v)
  basic : ∀ v op w, SameResult fails Eq (s.basic v op w) (s.basic v op w)

namespace Simulation

/-- Two runs that differ in the source of their blocks, in what they remember and note, and in what
built-in functions draw on. -/
def overOneSystem (a : Setup α) (source : String) (remembers watches : Bool)
    (fails : Failure → Failure → Prop) (refuses : Failure → Prop)
    (resources : Resources α → Resources α → Prop) (blocks : Blocks → Blocks → Prop)
    (fit : List Token → Prop) (keyed : Int × Int → List Token → Prop) (lessFuel lessInput : Prop)
    (not_both : lessFuel → ¬ lessInput) (repeats : a.system.Repeats fails)
    (builtins : ∀ x ∈ a.system.builtins, ∀ vs r t, resources r t →
      Draws lessInput Eq fails resources (x.run vs r) (x.run vs t) ∨
        Declined refuses (x.run vs r) (x.run vs t))
    (factorial : ∀ x, a.system.builtin? "fac" = some x → ∀ v r t, resources r t →
      Draws False Eq fails resources (x.run [v] r) (x.run [v] t))
    (recalled : ∀ key tokens known known', keyed key tokens → blocks known known' →
      SameResult Eq (fun x y => x.1 = y.1 ∧ Statement.AllFit fit x.1 ∧ blocks x.2 y.2)
        (recallBlock a.remembers known key (Statement.ofTokens a.source a.strict tokens))
        (recallBlock remembers known' key (Statement.ofTokens source a.strict tokens)))
    (fit_block : ∀ tokens first rest, fit tokens →
      tokens.filter (fun t => !t.isNewline) = first :: rest → Eval.startsBlock first →
      keyed (first.index, Token.stopOf (first :: rest) first.stop) (first :: rest))
    (fit_tokens : ∀ tokens first rest isFunction, fit tokens →
      tokens.filter (fun t => !t.isNewline) = first :: rest → ¬ Eval.startsBlock first →
      ∀ t ∈ if a.strict then Token.splitWords isFunction (first :: rest) else first :: rest,
        t.PartsFit fit keyed)
    (fit_all : lessInput → ∀ tokens, fit tokens)
    (keyed_all : lessInput → ∀ key tokens, keyed key tokens) :
    Simulation a { a with source := source, remembers := remembers, watches := watches } where
  same := Eq
  fails := fails
  resources := resources
  blocks := blocks
  line := Eq
  log := Eq
  known _ _ := True
  literal _ := True
  fit := fit
  keyed := keyed
  lessFuel := lessFuel
  lessInput := lessInput
  lessShown := False
  refuses := refuses
  not_both := not_both
  strict_eq := rfl
  callLimit_eq := rfl
  digitLimit_eq := rfl
  level_le := Int.le_refl _
  levels := .inl rfl
  zero := rfl
  literal_zero := trivial
  parse text _ := repeats.parse text
  fromInt _ := rfl
  isTrue _ _ h := h ▸ rfl
  toCount v _ h := h ▸ repeats.toCount v
  basic v _ v' _ op h h' := h ▸ h' ▸ repeats.basic v op v'
  message f g h := repeats.eq f g h ▸ rfl
  inputRequired f g h := repeats.eq f g h ▸ Iff.rfl
  builtins name _ _ := by
    cases hx : a.system.builtin? name with
    | none => exact .none
    | some x =>
      refine .some (fun vs ws r t _ hv hr => ?_)
      obtain rfl := forall₂_eq (fun _ _ h => h) hv
      exact builtins x (List.mem_of_find?_eq_some hx) vs r t hr
  factorial := by
    cases hx : a.system.builtin? "fac" with
    | none => exact .none
    | some x =>
      refine .some (fun v w r t hv hr => ?_)
      obtain rfl := hv
      exact factorial x hx v r t hr
  line_refl _ := rfl
  line_format _ v _ _ h := h ▸ (repeats.format v).map (congrArg _)
  debug _ _ _ _ _ hs hl := hs ▸ hl ▸ rfl
  recalled := recalled
  fit_block := fit_block
  fit_tokens tokens first rest isFunction h hf hb t ht :=
    ⟨fun _ => trivial, fit_tokens tokens first rest isFunction h hf hb t ht⟩
  total _ w := ⟨w, rfl⟩
  known_all _ _ _ := trivial
  literal_all _ _ := trivial
  fit_all := fit_all
  keyed_all := keyed_all

theorem never_both : False → ¬ False :=
  False.elim

theorem repeats_same (a : Setup α) : a.system.Repeats Eq where
  eq _ _ h := h
  parse _ := .refl _
  format _ := .refl _
  toCount _ := .refl _
  basic _ _ _ := .refl _

theorem builtins_same (a : Setup α) {may : Prop} :
    ∀ x ∈ a.system.builtins, ∀ vs r t, r = t →
      Draws may Eq Eq Eq (x.run vs r) (x.run vs t) ∨
        Declined (fun _ => False) (x.run vs r) (x.run vs t) := by
  rintro x _ vs r _ rfl
  exact .inl (.refl _ _)

theorem factorial_same (a : Setup α) : ∀ x, a.system.builtin? "fac" = some x → ∀ v r t, r = t →
    Draws False Eq Eq Eq (x.run [v] r) (x.run [v] t) := by
  rintro x _ v r _ rfl
  exact .refl _ _

/-- Two runs of any script, hand-made trees included, that remember alike. -/
def ofResources (a : Setup α) (watches : Bool) (fails : Failure → Failure → Prop)
    (refuses : Failure → Prop) (resources : Resources α → Resources α → Prop)
    (lessFuel lessInput : Prop) (not_both : lessFuel → ¬ lessInput)
    (repeats : a.system.Repeats fails)
    (builtins : ∀ x ∈ a.system.builtins, ∀ vs r t, resources r t →
      Draws lessInput Eq fails resources (x.run vs r) (x.run vs t) ∨
        Declined refuses (x.run vs r) (x.run vs t))
    (factorial : ∀ x, a.system.builtin? "fac" = some x → ∀ v r t, resources r t →
      Draws False Eq fails resources (x.run [v] r) (x.run [v] t)) :
    Simulation a { a with remembers := a.remembers, watches := watches } :=
  overOneSystem a a.source a.remembers watches fails refuses resources Eq (fun _ => True)
    (fun _ _ => True) lessFuel lessInput not_both repeats builtins factorial
    (by
      rintro key tokens known _ _ rfl
      generalize recallBlock _ _ _ _ = x
      cases x with
      | ok v => exact .ok ⟨rfl, Statement.allFit_of_all (fun _ => trivial) _, rfl⟩
      | error e => exact .error rfl)
    (fun _ _ _ _ _ _ => trivial)
    (fun _ _ _ _ _ _ _ t _ => Token.partsFit_of_all (fun _ => trivial) (fun _ _ => trivial) t)
    (fun _ _ => trivial) (fun _ _ _ => trivial)

/-- What two runs leave behind is the same unless the left one lacked something. -/
theorem Ends.outcome_eq {a b : Setup α} {S : Simulation a b} (hv : S.same = Eq)
    (hf : S.fails = Eq) (hl : S.log = Eq) (hr : ∀ g, ¬ S.refuses g) (d : Int)
    {r t : EStateM.Result Stop (Machine α) Unit} (h : S.Ends (Rel.eq S Unit) r t) :
    Outcome.ofResult d r = Outcome.ofResult d t ∨
      ∃ e m, r = .error e m ∧ S.Ahead e m (Run.stateOf t) := by
  have hrecords : ∀ m n, S.Related m n → m.records = n.records := by
    intro m n hm
    have hr := hm.records
    rw [hv] at hr
    exact Array.toList_inj.mp (forall₂_eq (fun _ _ hh => hh.eq) hr)
  have hlog : ∀ m n, S.Related m n → m.log = n.log := fun m n hm => hl ▸ hm.log
  cases h with
  | @ok v w m n _ hm =>
    left
    simp only [Outcome.ofResult, Machine.outcome, Machine.lines?, hrecords m n hm, hlog m n hm]
  | @error e e' m n he hm =>
    left
    have hee : e = e' := by
      cases he with
      | fault | input | defect => rfl
      | literal hh | unshown hh =>
        rw [hf] at hh
        rw [hh]
    subst hee
    cases e <;>
      simp only [Outcome.ofResult, Machine.outcome, Machine.lines?, hrecords m n hm, hlog m n hm]
  | ahead ha => exact .inr ⟨_, _, rfl, ha⟩
  | refused h =>
    obtain ⟨g, hg, _⟩ := h
    exact (hr g hg).elim

end Simulation

end Abacus
