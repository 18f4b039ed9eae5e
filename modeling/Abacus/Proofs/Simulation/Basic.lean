import Abacus.Eval.Statement
import Abacus.Proofs.Machine
import Abacus.Proofs.Simulation.Related

/-! Two runs of one script side by side. A `Simulation` says what the two have in common and what is
asked of number systems, blocks and token runs for that; `Simulates` carries it through the steps of
a computation. The left run may be the first to lack fuel, input or the text of a line, if the
simulation says so; where it lacks input, the right one may fail as well. -/

namespace Abacus

variable {α β γ δ ε ζ : Type}

inductive SameResult (E : ε → ζ → Prop) (R : γ → δ → Prop) : Except ε γ → Except ζ δ → Prop where
  | ok {v : γ} {w : δ} (h : R v w) : SameResult E R (.ok v) (.ok w)
  | error {e : ε} {e' : ζ} (h : E e e') : SameResult E R (.error e) (.error e')

theorem SameResult.mono {E E' : ε → ζ → Prop} {R : γ → δ → Prop} {x : Except ε γ} {y : Except ζ δ}
    (h : SameResult E R x y) (hE : ∀ {e e'}, E e e' → E' e e') : SameResult E' R x y := by
  cases h with
  | ok hv => exact .ok hv
  | error he => exact .error (hE he)

theorem SameResult.mapError {ε' ζ' : Type} {E : ε → ζ → Prop} {E' : ε' → ζ' → Prop}
    {R : γ → δ → Prop} {x : Except ε γ} {y : Except ζ δ} (h : SameResult E R x y)
    {f : ε → ε'} {g : ζ → ζ'} (hf : ∀ {e e'}, E e e' → E' (f e) (g e')) :
    SameResult E' R (x.mapError f) (y.mapError g) := by
  cases h with
  | ok hv => exact .ok hv
  | error he => exact .error (hf he)

theorem SameResult.map {γ' δ' : Type} {E : ε → ζ → Prop} {R : γ → δ → Prop} {R' : γ' → δ' → Prop}
    {x : Except ε γ} {y : Except ζ δ} (h : SameResult E R x y) {f : γ → γ'} {g : δ → δ'}
    (hf : ∀ {v w}, R v w → R' (f v) (g w)) : SameResult E R' (x.map f) (y.map g) := by
  cases h with
  | ok hv => exact .ok (hf hv)
  | error he => exact .error he

/-- The runs of tokens that a statement evaluates, at once or when its function is called. -/
def Statement.runs : Statement → List (List Token)
  | .assign _ _ value _ _ _ => [value]
  | .define _ _ _ value _ => [value]
  | .inline _ value => [value]
  | .ifThen _ _ condition _ _ => [condition]
  | .elseIf _ _ condition _ _ => [condition]
  | .repeatUntil _ _ condition _ _ => [condition]
  | .repeatTimes _ _ amount _ _ => [amount]
  | .repeatWith _ _ amount _ _ _ => [amount]
  | .giveBack _ _ value => [value]
  | _ => []

mutual

/-- Every token run of a statement, also inside its block, may be evaluated. -/
def Statement.Fit (fit : List Token → Prop) : Statement → Prop
  | .assign _ _ value _ _ _ => fit value
  | .define _ _ _ value _ => fit value
  | .inline _ value => fit value
  | .ifThen _ _ condition body _ => fit condition ∧ Statement.AllFit fit body
  | .elseIf _ _ condition body _ => fit condition ∧ Statement.AllFit fit body
  | .otherwise _ _ body => Statement.AllFit fit body
  | .loop _ _ body => Statement.AllFit fit body
  | .repeatUntil _ _ condition body _ => fit condition ∧ Statement.AllFit fit body
  | .repeatTimes _ _ amount body _ => fit amount ∧ Statement.AllFit fit body
  | .repeatWith _ _ amount _ body _ => fit amount ∧ Statement.AllFit fit body
  | .giveBack _ _ value => fit value
  | .leave _ _ => True
  | .print _ _ _ => True
  | .throw _ _ _ => True

def Statement.AllFit (fit : List Token → Prop) : List Statement → Prop
  | [] => True
  | s :: rest => s.Fit fit ∧ Statement.AllFit fit rest

end

mutual

theorem Statement.fit_of_all {fit : List Token → Prop} (h : ∀ tokens, fit tokens) :
    ∀ s : Statement, s.Fit fit
  | .assign _ _ _ _ _ _ | .define _ _ _ _ _ | .inline _ _ | .giveBack _ _ _ => h _
  | .ifThen _ _ _ body _ | .elseIf _ _ _ body _ | .repeatUntil _ _ _ body _
  | .repeatTimes _ _ _ body _ | .repeatWith _ _ _ _ body _ =>
    ⟨h _, Statement.allFit_of_all h body⟩
  | .otherwise _ _ body | .loop _ _ body => Statement.allFit_of_all h body
  | .leave _ _ | .print _ _ _ | .throw _ _ _ => trivial

theorem Statement.allFit_of_all {fit : List Token → Prop} (h : ∀ tokens, fit tokens) :
    ∀ body : List Statement, Statement.AllFit fit body
  | [] => trivial
  | s :: rest => ⟨Statement.fit_of_all h s, Statement.allFit_of_all h rest⟩

end

def Token.IsNumber (t : Token) : Prop :=
  t.kind = .integer ∨ t.kind = .float

/-- The token runs inside a token may be evaluated; blocks are named by their place. -/
def Token.PartsFit (fit : List Token → Prop) (keyed : Int × Int → List Token → Prop) :
    Token → Prop
  | .leaf _ _ _ _ => True
  | .group _ _ index stop children opener _ =>
    if opener.value = "(" then fit children else keyed (index, stop) children
  | .call _ _ _ _ _ arguments =>
    ∀ runs, Token.splitArguments arguments.closerIndex arguments.children = .ok runs →
      ∀ run ∈ runs, fit run

theorem Token.partsFit_of_all {fit : List Token → Prop} {keyed : Int × Int → List Token → Prop}
    (hf : ∀ tokens, fit tokens) (hk : ∀ key tokens, keyed key tokens) (t : Token) :
    t.PartsFit fit keyed := by
  cases t with
  | leaf kind value index stop => trivial
  | group kind value index stop children opener closer =>
    simp only [Token.PartsFit]
    split
    · exact hf _
    · exact hk _ _
  | call kind value index stop name arguments => exact fun _ _ run _ => hf run

/-- A token may be evaluated: it is a number to be read, or its parts may be evaluated. -/
structure Token.Fit (literal : String → Prop) (fit : List Token → Prop)
    (keyed : Int × Int → List Token → Prop) (t : Token) : Prop where
  number : t.IsNumber → literal t.value
  parts : t.PartsFit fit keyed

/-- What two runs of a built-in function have in common. With `may` the left one may lack input. -/
inductive Draws (may : Prop) (same : α → β → Prop) (fails : Failure → Failure → Prop)
    (resources : Resources α → Resources β → Prop) :
    EStateM.Result Failure (Resources α) α → EStateM.Result Failure (Resources β) β → Prop where
  | ok {v : α} {w : β} {r : Resources α} {t : Resources β} (h : same v w) (hr : resources r t) :
      Draws may same fails resources (.ok v r) (.ok w t)
  | error {f g : Failure} {r : Resources α} {t : Resources β} (h : fails f g) (hr : resources r t) :
      Draws may same fails resources (.error f r) (.error g t)
  | lacking (h : may) {r : Resources α} (t : EStateM.Result Failure (Resources β) β) :
      Draws may same fails resources (.error .inputRequired r) t

/-- Where the left run of a built-in function lacks input, the right one fails in one of the ways that
`refuses` names. -/
inductive Declined (refuses : Failure → Prop) :
    EStateM.Result Failure (Resources α) α → EStateM.Result Failure (Resources β) β → Prop where
  | intro {g : Failure} (h : refuses g) (hg : g ≠ .inputRequired) (r : Resources α)
      (t : Resources β) : Declined refuses (.error .inputRequired r) (.error g t)

/-- No line for those who debug lacks a text: the lines that can are not written, or every value and
every integer has one. -/
def Setup.Shows (setup : Setup α) : Prop :=
  setup.debugLevel < 2 ∨
    ((∀ v, ∃ text, setup.system.format v = .ok text) ∧ setup.digitLimit = none)

namespace Setup.Shows

variable {setup : Setup α}

theorem format (h : setup.Shows) (hlevel : 2 ≤ setup.debugLevel) (v : α) :
    ∃ text, setup.system.format v = .ok text := by
  rcases h with hlow | ⟨hformat, _⟩
  · omega
  · exact hformat v

theorem turnLine (h : setup.Shows) (hlevel : 3 ≤ setup.debugLevel) (turn count : Nat) :
    ∃ text, Eval.turnLine setup turn count = .ok text := by
  rcases h with hlow | ⟨_, hlimit⟩
  · omega
  · rw [Eval.turnLine, hlimit]
    exact ⟨_, rfl⟩

end Setup.Shows

/-- What a run under `a` and a run under `b` have in common at all times. -/
structure Simulation (a : Setup α) (b : Setup β) where
  same : α → β → Prop
  fails : Failure → Failure → Prop
  resources : Resources α → Resources β → Prop
  blocks : Blocks → Blocks → Prop
  line : String → String → Prop
  log : Array String → Array String → Prop
  /-- The built-in functions that are bound. -/
  known : String → Option Nat → Prop
  /-- The texts that may be read as numbers. -/
  literal : String → Prop
  /-- The token runs that may be evaluated. -/
  fit : List Token → Prop
  /-- The token runs that may be read as the block from a place. -/
  keyed : Int × Int → List Token → Prop
  /-- Whether the left run may be the first to lack fuel. -/
  lessFuel : Prop
  /-- Whether the left run may be the first to lack input. -/
  lessInput : Prop
  /-- Whether the left run may be the first to lack the text of a line. -/
  lessShown : Prop
  /-- How the right run may fail where the left one lacks input. -/
  refuses : Failure → Prop := fun _ => False
  not_both : lessFuel → ¬ lessInput
  strict_eq : a.strict = b.strict
  callLimit_eq : a.callLimit = b.callLimit
  digitLimit_eq : a.digitLimit = b.digitLimit
  level_le : b.debugLevel ≤ a.debugLevel
  levels : a.debugLevel = b.debugLevel ∨ lessShown ∨ a.Shows
  zero : same a.system.zero b.system.zero
  literal_zero : literal "0"
  parse : ∀ text, literal text →
    SameResult fails same (a.system.parse text) (b.system.parse text)
  fromInt : ∀ n, same (a.system.fromInt n) (b.system.fromInt n)
  isTrue : ∀ v w, same v w → a.system.isTrue v = b.system.isTrue w
  toCount : ∀ v w, same v w → SameResult fails Eq (a.system.toCount v) (b.system.toCount w)
  basic : ∀ v w v' w' op, same v w → same v' w' →
    SameResult fails same (a.system.basic v op v') (b.system.basic w op w')
  message : ∀ f g, fails f g → f.message = g.message
  inputRequired : ∀ f g, fails f g → (f = .inputRequired ↔ g = .inputRequired)
  builtins : ∀ name arity, known name arity → Option.Rel (fun x y => ∀ vs ws r t,
    arity.all (· = vs.length) → List.Forall₂ same vs ws → resources r t →
      Draws lessInput same fails resources (x.run vs r) (y.run ws t) ∨
        Declined refuses (x.run vs r) (y.run ws t))
    (a.system.builtin? name) (b.system.builtin? name)
  /-- The left run never lacks input for a factorial alone. -/
  factorial : Option.Rel (fun x y => ∀ v w r t, same v w → resources r t →
      Draws False same fails resources (x.run [v] r) (y.run [w] t))
    (a.system.builtin? "fac") (b.system.builtin? "fac")
  line_refl : ∀ text, line text text
  line_format : 2 ≤ a.debugLevel → ∀ v w before, same v w → SameResult fails line
    ((a.system.format v).map (before ++ ·)) ((b.system.format w).map (before ++ ·))
  debug : ∀ level s t l k, line s t → log l k →
    log (if level ≤ a.debugLevel then l.push s else l) (if level ≤ b.debugLevel then k.push t else k)
  recalled : ∀ key tokens known known', keyed key tokens → blocks known known' →
    SameResult Eq (fun x y => x.1 = y.1 ∧ Statement.AllFit fit x.1 ∧ blocks x.2 y.2)
      (recallBlock a.remembers known key (Statement.ofTokens a.source a.strict tokens))
      (recallBlock b.remembers known' key (Statement.ofTokens b.source b.strict tokens))
  fit_block : ∀ tokens first rest, fit tokens →
    tokens.filter (fun t => !t.isNewline) = first :: rest → Eval.startsBlock first →
    keyed (first.index, Token.stopOf (first :: rest) first.stop) (first :: rest)
  fit_tokens : ∀ tokens first rest isFunction, fit tokens →
    tokens.filter (fun t => !t.isNewline) = first :: rest → ¬ Eval.startsBlock first →
    ∀ t ∈ if a.strict then Token.splitWords isFunction (first :: rest) else first :: rest,
      t.Fit literal fit keyed
  /-- Who lacks input can be in any state that the other is in. -/
  total : lessInput → ∀ w, ∃ v, same v w
  known_all : lessInput → ∀ name arity, known name arity
  literal_all : lessInput → ∀ text, literal text
  fit_all : lessInput → ∀ tokens, fit tokens
  keyed_all : lessInput → ∀ key tokens, keyed key tokens

namespace Simulation

variable {a : Setup α} {b : Setup β}

structure Related (S : Simulation a b) (m : Machine α) (n : Machine β) : Prop where
  frames : Frames.Related (Binding.Related S.same S.known S.fit) m.frames n.frames
  records : List.Forall₂ (Record.Related S.same) m.records.toList n.records.toList
  blocks : S.blocks m.blocks n.blocks
  statement : m.statement = n.statement
  log : S.log m.log n.log
  resources : S.resources m.resources n.resources

inductive Stops (S : Simulation a b) : Stop → Stop → Prop where
  | fault (f : Fault) : Stops S (.fault f) (.fault f)
  | input (h : S.fails .inputRequired .inputRequired) (prompt : String) :
      Stops S (.input prompt) (.input prompt)
  | defect (d : Defect) : Stops S (.defect d) (.defect d)
  | literal {f g : Failure} (h : S.fails f g) : Stops S (.defect (.literal f)) (.defect (.literal g))
  | unshown {f g : Failure} (h : S.fails f g) : Stops S (.defect (.unshown f)) (.defect (.unshown g))

/-- The left run stopped because it lacks something, and the right one has gone on since then. -/
def Ahead (S : Simulation a b) (e : Stop) (m : Machine α) (n : Machine β) : Prop :=
  (S.lessFuel ∧ e = .defect .outOfFuel) ∨ (S.lessShown ∧ ∃ f, e = .defect (.unshown f)) ∨
    (S.lessInput ∧ (∃ prompt, e = .input prompt) ∧
      ∃ done, List.Forall₂ (Record.Related S.same) m.records.toList done ∧ done <+: n.records.toList)

/-- The right run may have failed with the fault where the left one lacked input. -/
def Refuses (S : Simulation a b) (f : Fault) : Prop :=
  ∃ g, S.refuses g ∧ f.message = Text.capitalized g.message

/-- A relation between results. If the left run may lack input, every result on the right has one
on the left. -/
structure Rel (S : Simulation a b) (γ δ : Type) where
  rel : γ → δ → Prop
  total : S.lessInput → ∀ w, ∃ v, rel v w

inductive Ends (S : Simulation a b) (R : S.Rel γ δ) :
    EStateM.Result Stop (Machine α) γ → EStateM.Result Stop (Machine β) δ → Prop where
  | ok {v : γ} {w : δ} {m : Machine α} {n : Machine β} (hv : R.rel v w) (h : S.Related m n) :
      Ends S R (.ok v m) (.ok w n)
  | error {e e' : Stop} {m : Machine α} {n : Machine β} (he : S.Stops e e') (h : S.Related m n) :
      Ends S R (.error e m) (.error e' n)
  | ahead {e : Stop} {m : Machine α} {r : EStateM.Result Stop (Machine β) δ}
      (h : S.Ahead e m (Run.stateOf r)) : Ends S R (.error e m) r
  | refused {f : Fault} (h : S.Refuses f) (prompt : String) (m : Machine α) (n : Machine β) :
      Ends S R (.error (.input prompt) m) (.error (.fault f) n)

/-- From related states the two computations end alike, and the right one only adds records. -/
structure Simulates (S : Simulation a b) (R : S.Rel γ δ) (x : Run α γ) (y : Run β δ) : Prop where
  ends : ∀ m n, S.Related m n → S.Ends R (x m) (y n)
  grows : S.lessInput → ∀ n, n.records.toList <+: (Run.stateOf (y n)).records.toList

theorem Ahead.mono {S : Simulation a b} {e : Stop} {m : Machine α} {n n' : Machine β}
    (h : S.Ahead e m n) (hn : S.lessInput → n.records.toList <+: n'.records.toList) :
    S.Ahead e m n' := by
  rcases h with h | h | ⟨hl, hp, done, hd, hpre⟩
  · exact .inl h
  · exact .inr (.inl h)
  · exact .inr (.inr ⟨hl, hp, done, hd, hpre.trans (hn hl)⟩)

namespace Rel

variable (S : Simulation a b)

def eq (γ : Type) : S.Rel γ γ where
  rel := Eq
  total := fun _ w => ⟨w, rfl⟩

/-- Equal results with a property that all of them have if the left run may lack input. -/
def only (P : γ → Prop) (h : S.lessInput → ∀ v, P v) : S.Rel γ γ where
  rel v w := v = w ∧ P v
  total := fun hl w => ⟨w, rfl, h hl w⟩

def value : S.Rel α β where
  rel := S.same
  total := S.total

def flow : S.Rel (Flow α) (Flow β) where
  rel := Flow.Related S.same
  total := fun hl => Flow.Related.total (S.total hl)

def binding : S.Rel (Binding α) (Binding β) where
  rel := Binding.Related S.same S.known S.fit
  total := fun hl => Binding.Related.total (S.total hl) (S.known_all hl) (S.fit_all hl)

variable {S}

def list (R : S.Rel γ δ) : S.Rel (List γ) (List δ) where
  rel := List.Forall₂ R.rel
  total := fun hl => forall₂_total (R.total hl)

def option (R : S.Rel γ δ) : S.Rel (Option γ) (Option δ) where
  rel := Option.Rel R.rel
  total := by
    intro hl w
    cases w with
    | none => exact ⟨_, .none⟩
    | some w =>
      obtain ⟨v, h⟩ := R.total hl w
      exact ⟨_, .some h⟩

def prod (R : S.Rel γ δ) (T : S.Rel ε ζ) : S.Rel (γ × ε) (δ × ζ) where
  rel x y := R.rel x.1 y.1 ∧ T.rel x.2 y.2
  total := by
    intro hl w
    obtain ⟨v, hv⟩ := R.total hl w.1
    obtain ⟨u, hu⟩ := T.total hl w.2
    exact ⟨(v, u), hv, hu⟩

end Rel

end Simulation

end Abacus
