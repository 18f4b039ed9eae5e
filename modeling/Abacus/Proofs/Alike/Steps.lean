import Abacus.Proofs.Alike.Heads
import Abacus.Proofs.Scoping.Frames
import Abacus.Proofs.Simulation.Steps

/-! Runs of two scripts that correspond. A `Realm` says which token runs and statements the left
script evaluates and, where calls are loose, what it uses its names for: then whether a name is
bound to a function never changes, so it does not matter when that is asked. -/

namespace Abacus

open Token

/-- What a script uses a name for. -/
inductive Role where
  | variable
  | function
  | parameter
  deriving DecidableEq

/-- What may be bound to a name with the given use. -/
def Role.Suits {α : Type} (role : Option Role) (b : Binding α) : Prop :=
  match role with
  | some .variable => b.isFunction = false
  | some .function => b.isFunction = true
  | _ => True

namespace Statement

/-- The names that a statement binds, each with its use. -/
def uses : Statement → List (String × Role)
  | .assign _ name _ _ _ _ => [(name.value, .variable)]
  | .define _ name parameters _ _ =>
    (name.value, .function) :: parameters.map (fun p => (p, .parameter))
  | .repeatWith _ _ _ counter _ _ => [(counter.value, .variable)]
  | _ => []

end Statement

/-- A run of tokens that is evaluated token by token, not as a block. -/
def Token.Direct (T : List Token) : Prop :=
  ∀ first rest, T.filter (fun t => !t.isNewline) = first :: rest → Eval.startsBlock first = false

namespace Likeness

open Statement

structure Realm (L : Likeness) where
  role : String → Option Role
  /-- The runs of tokens that are evaluated. -/
  fit : List Token → Prop
  /-- The lists of statements that are run. -/
  holds : List Statement → Prop
  strict_eq : L.strict = false
  spot_zero : L.spot 0 0
  starts_inj : ∀ {i i' j j'}, L.starts i i' → L.starts j j' → (i = j ↔ i' = j')
  stops_inj : ∀ {i i' j j'}, L.stops i i' → L.stops j j' → (i = j ↔ i' = j')
  short : ∀ {t t' : Token}, L.loose → L.words t t' → t.isName = true → role t.value ≠ none →
    t.value.length = 1
  tail : ∀ {s B}, holds (s :: B) → holds B
  runs : ∀ {s B}, holds (s :: B) → ∀ T ∈ s.runs, fit T
  body : ∀ {s B inner}, holds (s :: B) → s.body? = some inner → holds inner
  uses : ∀ {s B}, L.loose → holds (s :: B) → ∀ x ∈ s.uses, role x.1 = some x.2
  bracket : ∀ {T kind value index stop children opener closer}, fit T → Direct T →
    .group kind value index stop children opener closer ∈ T → opener.value = "(" → fit children
  braces : ∀ {T kind value index stop children opener closer B}, fit T → Direct T →
    .group kind value index stop children opener closer ∈ T → opener.value ≠ "(" →
    ofTokens L.source L.strict children = .ok B → holds B
  argument : ∀ {T kind value index stop name arguments R}, fit T → Direct T →
    .call kind value index stop name arguments ∈ T →
    splitArguments arguments.closerIndex arguments.children = .ok R → ∀ run ∈ R, fit run
  block : ∀ {T first rest B}, fit T → T.filter (fun t => !t.isNewline) = first :: rest →
    Eval.startsBlock first = true → ofTokens L.source L.strict (first :: rest) = .ok B → holds B

variable {α γ δ ε ζ : Type} {L : Likeness}

/-- Frames after an evaluation in which only the frame `own` may get new names. Where calls are
loose, a name that is bound to a function stays so, and one that is not stays so too. -/
structure Steady (L : Likeness) (own : Option Nat) (f g : Frames (Binding α)) : Prop where
  size : f.frames.size ≤ g.frames.size
  entries : L.loose → ∀ id < f.frames.size, ∀ name,
    own = some id ∧ (f.frame id).lookup name = none ∨
      ((g.frame id).lookup name).map Binding.isFunction =
        ((f.frame id).lookup name).map Binding.isFunction

namespace Steady

variable {own : Option Nat} {f g h : Frames (Binding α)}

theorem refl (own : Option Nat) (f : Frames (Binding α)) : L.Steady own f f :=
  ⟨Nat.le_refl _, fun _ _ _ _ => .inr rfl⟩

theorem trans (hf : L.Steady own f g) (hg : L.Steady own g h) : L.Steady own f h where
  size := hf.size.trans hg.size
  entries hl id hi name := by
    rcases hf.entries hl id hi name with hnew | hsame
    · exact .inl hnew
    · rcases hg.entries hl id (hi.trans_le hf.size) name with ⟨hown, hnone⟩ | hsame'
      · refine .inl ⟨hown, ?_⟩
        rw [hnone] at hsame
        exact Option.map_eq_none_iff.mp hsame.symm
      · exact .inr (hsame'.trans hsame)

theorem owned (hf : L.Steady none f g) (own : Option Nat) : L.Steady own f g where
  size := hf.size
  entries hl id hi name := by
    rcases hf.entries hl id hi name with ⟨hown, _⟩ | hsame
    · cases hown
    · exact .inr hsame

/-- Frames that were made for an evaluation do not concern those around it. -/
theorem ofNew (hf : L.Steady none f g) (hg : L.Steady (some f.frames.size) g h) :
    L.Steady none f h where
  size := hf.size.trans hg.size
  entries hl id hi name := by
    rcases hf.entries hl id hi name with ⟨hown, _⟩ | hsame
    · cases hown
    · rcases hg.entries hl id (hi.trans_le hf.size) name with ⟨hown, _⟩ | hsame'
      · cases hown
        exact absurd hi (Nat.lt_irrefl _)
      · exact .inr (hsame'.trans hsame)

theorem ofFrames (hs : f.frames.size ≤ g.frames.size)
    (h : ∀ id < f.frames.size, g.frame id = f.frame id) : L.Steady own f g where
  size := hs
  entries _ id hi _ := .inr (by rw [h id hi])

theorem child (f : Frames (Binding α)) (scope : Scope) : L.Steady none f (f.child scope).1 :=
  ofFrames (by simp [Frames.child]) (fun id _ => Frames.frame_child f scope id)

theorem declare {id : Nat} {name : String} {b : Binding α}
    (h : L.loose → own = some id ∧ (f.frame id).lookup name = none ∨
      ∃ c, (f.frame id).lookup name = some c ∧ c.isFunction = b.isFunction) :
    L.Steady own f (f.declare id name b) where
  size := by simp
  entries hl i hi other := by
    rw [Frames.lookup_declare]
    split
    · next hown =>
      obtain ⟨rfl, _, rfl⟩ := hown
      rcases h hl with hnew | ⟨c, hc, hsame⟩
      · exact .inl hnew
      · exact .inr (by simp [hc, hsame])
    · exact .inr rfl

theorem holds (hf : L.Steady own f g) {ids : List Nat} (hi : f.Holds ids) : g.Holds ids :=
  hi.mono hf.size

/-- A name that is bound stays bound. -/
theorem bound (hf : L.Steady own f g) (hl : L.loose) {id : Nat} {name : String} {b : Binding α}
    (h : (f.frame id).lookup name = some b) : (g.frame id).lookup name ≠ none := by
  have hsize := Frames.size_of_mem (Frames.mem_of_lookup h)
  rcases hf.entries hl id hsize name with ⟨_, hnone⟩ | hsame
  · rw [h] at hnone
    cases hnone
  · intro hnone
    rw [hnone, h] at hsame
    cases hsame

/-- A name in sight stays a function, or stays none. -/
theorem isFunction_eq (hl : L.loose) (hf : L.Steady none f g) {scope : Scope}
    (hs : f.Holds scope) (name : String) :
    (g.get scope name).any Binding.isFunction = (f.get scope name).any Binding.isFunction := by
  induction scope with
  | nil => rfl
  | cons id outer ih =>
    have hout := ih (fun i hi => hs i (List.mem_cons_of_mem _ hi))
    rcases hf.entries hl id (hs id List.mem_cons_self) name with ⟨hown, _⟩ | hsame
    · cases hown
    · simp only [Frames.get, Frames.find] at hout ⊢
      cases hx : (f.frame id).lookup name with
      | none =>
        rw [hx] at hsame
        rw [Option.map_eq_none_iff.mp hsame]
        exact hout
      | some b =>
        rw [hx] at hsame
        obtain ⟨c, hc, hcb⟩ := Option.map_eq_some_iff.mp hsame
        rw [hc]
        simpa using hcb

end Steady

namespace Realm

variable (D : L.Realm)

/-- Bindings of the two runs. A function of the left one may be called. -/
inductive Alike : Binding α → Binding α → Prop where
  | number (v : α) (constant : Bool) : Alike (.number v constant) (.number v constant)
  | builtin (name : String) (arity : Option Nat) : Alike (.builtin name arity) (.builtin name arity)
  | function {name : String} {parameters : List String} {body body' : List Token} {scope : Scope}
      (hb : L.Tokens body body') (hf : D.fit body)
      (hp : L.loose → ∀ p ∈ parameters, D.role p = some .parameter) :
      Alike (.function ⟨name, parameters, body, scope⟩) (.function ⟨name, parameters, body', scope⟩)

variable {D}

theorem Alike.isFunction_eq {b c : Binding α} (h : D.Alike b c) : b.isFunction = c.isFunction := by
  cases h <;> rfl

theorem Alike.isConstant_eq {b c : Binding α} (h : D.Alike b c) : b.isConstant = c.isConstant := by
  cases h <;> rfl

end Realm

inductive OutputAlike (L : Likeness) : Output α → Output α → Prop where
  | label {text text' : String} (h : L.Text text text') : OutputAlike L (.label text) (.label text')
  | value (v : α) : OutputAlike L (.value v) (.value v)

structure RecordAlike (L : Likeness) (r t : Record α) : Prop where
  kind : r.kind = t.kind
  source : L.Text r.source t.source
  output : List.Forall₂ L.OutputAlike r.output t.output

inductive Stops (L : Likeness) : Stop → Stop → Prop where
  | fault {f g : Fault} (h : L.faults f g) : Stops L (.fault f) (.fault g)
  | input {prompt prompt' : String} (h : L.Text prompt prompt') :
      Stops L (.input prompt) (.input prompt')
  | defect (d : Defect) : Stops L (.defect d) (.defect d)

theorem Stops.ofFailure {L : Likeness} {i i' k k' : Int}
    (h : ∀ message, L.Blames ⟨i, message, k⟩ ⟨i', message, k'⟩) (f : Failure) :
    L.Stops (Stop.ofFailure i k f) (Stop.ofFailure i' k' f) := by
  by_cases hf : f = .inputRequired
  · subst hf
    exact .input (fun _ => rfl)
  · rw [Stop.ofFailure_eq hf, Stop.ofFailure_eq hf]
    exact .fault (h _).faults

theorem Stops.ofLiteral {L : Likeness} (f : Failure) :
    L.Stops (Stop.ofLiteral f) (Stop.ofLiteral f) := by
  by_cases hf : f = .inputRequired
  · subst hf
    exact .input (fun _ => rfl)
  · rw [Stop.ofLiteral_eq hf]
    exact .defect _

/-- Blocks that were read at corresponding places. -/
structure BlockAlike (D : L.Realm) (x y : (Int × Int) × List Statement) : Prop where
  starts : L.starts x.1.1 y.1.1
  stops : L.stops x.1.2 y.1.2
  body : L.Statements x.2 y.2
  holds : D.holds x.2

/-- States of the two runs. -/
structure Mirrors (D : L.Realm) (m n : Machine α) : Prop where
  frames : Frames.Related D.Alike m.frames n.frames
  typed : L.loose → ∀ id name b, (m.frames.frame id).lookup name = some b →
    Role.Suits (D.role name) b
  closed : ∀ id, ∀ e ∈ m.frames.frame id, m.frames.Holds e.2.scope
  records : List.Forall₂ L.RecordAlike m.records.toList n.records.toList
  blocks : List.Forall₂ (L.BlockAlike D) m.blocks n.blocks
  statement : L.Text m.statement n.statement
  resources : m.resources = n.resources

/-- What the results of two computations have in common, and the frames that the left one refers
to. -/
structure Shape (γ δ : Type) where
  rel : γ → δ → Prop
  out : γ → List Nat

def Shape.same (γ : Type) : Shape γ γ :=
  ⟨Eq, fun _ => []⟩

inductive Ends (D : L.Realm) (own : Option Nat) (f : Frames (Binding α)) (S : Shape γ δ) :
    EStateM.Result Stop (Machine α) γ → EStateM.Result Stop (Machine α) δ → Prop where
  | ok {v : γ} {w : δ} {m n : Machine α} (hv : S.rel v w) (ho : m.frames.Holds (S.out v))
      (hm : L.Mirrors D m n) (hs : L.Steady own f m.frames) : Ends D own f S (.ok v m) (.ok w n)
  | error {e e' : Stop} {m n : Machine α} (he : L.Stops e e')
      (hr : List.Forall₂ L.RecordAlike m.records.toList n.records.toList) :
      Ends D own f S (.error e m) (.error e' n)
  | lost {e : Stop} {m : Machine α} (h : L.lax) (r : EStateM.Result Stop (Machine α) δ) :
      Ends D own f S (.error e m) r

/-- From states that correspond, with the frames `ids` in being, two computations end alike. -/
def Simulates (D : L.Realm) (own : Option Nat) (ids : List Nat) (S : Shape γ δ) (x : Run α γ)
    (y : Run α δ) : Prop :=
  ∀ m n, L.Mirrors D m n → m.frames.Holds ids → L.Ends D own m.frames S (x m) (y n)

section Rules

variable {D : L.Realm} {own : Option Nat} {ids ids' : List Nat} {S : Shape γ δ} {U : Shape ε ζ}
  {f g : Frames (Binding α)} {x : Run α γ} {y : Run α δ}

theorem Ends.mono {r : EStateM.Result Stop (Machine α) γ} {s : EStateM.Result Stop (Machine α) δ}
    (h : L.Ends D own g S r s) (hf : L.Steady own f g) : L.Ends D own f S r s := by
  cases h with
  | ok hv ho hm hs => exact .ok hv ho hm (hf.trans hs)
  | error he hr => exact .error he hr
  | lost h => exact .lost h _

theorem Ends.bind {m n : Machine α} (h : L.Ends D own f S (x m) (y n)) {k : γ → Run α ε}
    {l : δ → Run α ζ}
    (hk : ∀ v w m' n', S.rel v w → m'.frames.Holds (S.out v) → L.Mirrors D m' n' →
      L.Steady own f m'.frames → L.Ends D own f U (k v m') (l w n')) :
    L.Ends D own f U ((x >>= k) m) ((y >>= l) n) := by
  rw [Run.bind_eq, Run.bind_eq]
  generalize x m = r at h ⊢
  generalize y n = s at h ⊢
  cases h with
  | ok hv ho hm hs => exact hk _ _ _ _ hv ho hm hs
  | error he hr => exact .error he hr
  | lost h => exact .lost h _

theorem Ends.andThen {m n : Machine α} (h : L.Ends D own f S (x m) (y n)) (hi : f.Holds ids)
    {k : γ → Run α ε} {l : δ → Run α ζ}
    (hk : ∀ v w, S.rel v w → L.Simulates D own (S.out v ++ ids) U (k v) (l w)) :
    L.Ends D own f U ((x >>= k) m) ((y >>= l) n) := by
  refine h.bind (fun v w m' n' hv ho hm' hs => ?_)
  exact (hk v w hv m' n' hm' (ho.append (hs.holds hi))).mono hs

namespace Simulates

theorem bind (hx : L.Simulates D own ids S x y) {k : γ → Run α ε} {l : δ → Run α ζ}
    (hk : ∀ v w, S.rel v w → L.Simulates D own (S.out v ++ ids) U (k v) (l w)) :
    L.Simulates D own ids U (x >>= k) (y >>= l) :=
  fun m n hm hi => (hx m n hm hi).andThen hi hk

theorem weaken (hx : L.Simulates D own ids S x y) (hi : ids ⊆ ids') :
    L.Simulates D own ids' S x y :=
  fun m n hm hi' => hx m n hm (hi'.subset hi)

/-- What adds no names anywhere may stand where some are added. -/
theorem owned (hx : L.Simulates D none ids S x y) (own : Option Nat) :
    L.Simulates D own ids S x y := by
  intro m n hm hi
  have h := hx m n hm hi
  generalize x m = r at h ⊢
  generalize y n = s at h ⊢
  cases h with
  | ok hv ho hm' hs => exact .ok hv ho hm' (hs.owned own)
  | error he hr => exact .error he hr
  | lost h => exact .lost h _

theorem pure {v : γ} {w : δ} (h : S.rel v w) (ho : S.out v ⊆ ids) :
    L.Simulates D own ids S (Pure.pure v : Run α γ) (Pure.pure w) :=
  fun _ _ hm hi => .ok h (hi.subset ho) hm (.refl _ _)

theorem done (v : γ) : L.Simulates D own ids (.same γ) (Pure.pure v : Run α γ) (Pure.pure v) :=
  .pure rfl (List.nil_subset _)

theorem throw {e e' : Stop} (h : L.Stops e e') :
    L.Simulates D own ids S (throw e : Run α γ) (throw e') :=
  fun _ _ hm _ => .error h hm.records

theorem fail {i i' : Int} (h : L.spot i i') (message : String) {k k' : Int}
    (hk : L.verbatim → k = k') :
    L.Simulates D own ids S (Run.fail i message k : Run α γ) (Run.fail i' message k') :=
  .throw (.fault (L.plain h hk))

theorem failAt {t t' : Token} {message : String}
    (h : L.Blames (t.fault message) (t'.fault message)) :
    L.Simulates D own ids S (Run.failAt t message : Run α γ) (Run.failAt t' message) :=
  .throw (.fault h.faults)

/-- Nobody asks for the right side where the left one fails. -/
theorem lost (hl : L.lax) (h : ∀ m, ∃ e m', x m = .error e m') (y : Run α δ) :
    L.Simulates D own ids S x y := by
  intro m n _ _
  obtain ⟨e, m', he⟩ := h m
  rw [he]
  exact .lost hl _

theorem ofExcept {a : Except Fault γ} {b : Except Fault δ} (h : L.Agree S.rel a b)
    (ho : ∀ v, S.out v = []) :
    L.Simulates D own ids S (Run.ofExcept a : Run α γ) (Run.ofExcept b) := by
  cases h with
  | ok hv => exact .pure hv (by simp [ho])
  | error he => exact .throw (.fault he.faults)
  | lost hl b => exact .lost hl (fun m => ⟨_, m, rfl⟩) _

theorem orStop {a b : Except Stop γ} (h : SameResult L.Stops Eq a b) :
    L.Simulates D own ids (.same γ) (Run.orStop a : Run α γ) (Run.orStop b) := by
  cases h with
  | ok hv => exact hv ▸ .done _
  | error he => exact .throw he

theorem ofResult {t t' : Token}
    (h : ∀ message, L.Blames (t.fault message) (t'.fault message)) (r : Except Failure γ) :
    L.Simulates D own ids (.same γ) (Run.ofResult t r : Run α γ) (Run.ofResult t' r) := by
  refine .orStop ?_
  cases r with
  | ok v => exact .ok rfl
  | error f => exact .error (.ofFailure h f)

/-- A step that leaves the frames as they are. -/
theorem ofModify {k l : Machine α → Machine α}
    (h : ∀ m n, L.Mirrors D m n → L.Mirrors D (k m) (l n)) (hf : ∀ m, (k m).frames = m.frames) :
    L.Simulates D own ids (.same Unit) (modify k) (modify l) := by
  intro m n hm _
  refine .ok rfl (Frames.holds_nil _) (h m n hm) ?_
  rw [hf m]
  exact .refl _ _

end Simulates

end Rules

section Access

variable {D : L.Realm} {own : Option Nat} {ids : List Nat} {scope : Scope} {m n : Machine α}

theorem Mirrors.get (h : L.Mirrors D m n) (scope : Scope) (name : String) :
    Option.Rel D.Alike (m.frames.get scope name) (n.frames.get scope name) :=
  h.frames.get scope name

theorem Mirrors.isFunction_eq (h : L.Mirrors D m n) (scope : Scope) :
    (fun name => (n.frames.get scope name).any Binding.isFunction) =
      fun name => (m.frames.get scope name).any Binding.isFunction := by
  funext name
  have hg := h.get scope name
  generalize m.frames.get scope name = x at hg ⊢
  generalize n.frames.get scope name = y at hg ⊢
  cases hg with
  | none => rfl
  | some hb => exact hb.isFunction_eq.symm

theorem Mirrors.declare (h : L.Mirrors D m n) (id : Nat) {name : String} {b c : Binding α}
    (hb : D.Alike b c) (hr : L.loose → Role.Suits (D.role name) b)
    (hc : m.frames.Holds b.scope) :
    L.Mirrors D { m with frames := m.frames.declare id name b }
      { n with frames := n.frames.declare id name c } where
  frames := h.frames.declare id name hb
  typed hl i other d hd := by
    rw [Frames.lookup_declare] at hd
    split at hd
    · next ho =>
      cases hd
      exact ho.2.2 ▸ hr hl
    · exact h.typed hl i other d hd
  closed i e he := by
    have hsize : m.frames.frames.size ≤ (m.frames.declare id name b).frames.size := by simp
    rcases Frames.mem_declare he with he | rfl
    · exact (h.closed i e he).mono hsize
    · exact hc.mono hsize
  records := h.records
  blocks := h.blocks
  statement := h.statement
  resources := h.resources

theorem Mirrors.child (h : L.Mirrors D m n) (scope : Scope) :
    L.Mirrors D { m with frames := (m.frames.child scope).1 }
      { n with frames := (n.frames.child scope).1 } where
  frames := h.frames.child scope
  typed hl id name b hb := by
    rw [Frames.frame_child] at hb
    exact h.typed hl id name b hb
  closed id e he := by
    rw [Frames.frame_child] at he
    exact (h.closed id e he).mono (by simp [Frames.child])
  records := h.records
  blocks := h.blocks
  statement := h.statement
  resources := h.resources

theorem Mirrors.scope_of_get (h : L.Mirrors D m n) {name : String} {b : Binding α}
    (hb : m.frames.get scope name = some b) : m.frames.Holds b.scope := by
  obtain ⟨id, hmem⟩ := Frames.mem_of_get hb
  exact h.closed id (name, b) hmem

def Realm.binding (D : L.Realm) : Shape (Binding α) (Binding α) :=
  ⟨D.Alike, Binding.scope⟩

def Realm.looked (D : L.Realm) : Shape (Option (Binding α)) (Option (Binding α)) :=
  ⟨Option.Rel D.Alike, fun b => (b.map Binding.scope).getD []⟩

theorem lookup_like (name : String) :
    L.Simulates D own ids D.looked (Run.lookup scope name : Run α _) (Run.lookup scope name) := by
  intro m n hm _
  refine .ok (hm.get scope name) ?_ hm (.refl _ _)
  show m.frames.Holds (((m.frames.get scope name).map Binding.scope).getD [])
  cases hb : m.frames.get scope name with
  | none => exact fun _ hh => nomatch hh
  | some b => exact hm.scope_of_get hb

theorem record_like {s s' : Statement} {out out' : List (Output α)} (hk : s.kind = s'.kind)
    (hs : L.Text s.source s'.source) (ho : List.Forall₂ L.OutputAlike out out') :
    L.Simulates D own ids (.same Unit) (Run.record s out) (Run.record s' out') := by
  refine .ofModify (fun m n hm => { hm with records := ?_ }) (fun _ => rfl)
  simp only [Array.toList_push]
  exact List.rel_append hm.records (.cons ⟨hk, hs, ho⟩ .nil)

theorem setStatement_like {text text' : String} (h : L.Text text text') :
    L.Simulates D own ids (.same Unit) (modify (fun m => { m with statement := text }) : Run α Unit)
      (modify (fun m => { m with statement := text' })) :=
  .ofModify (fun _ _ hm => { hm with statement := h }) (fun _ => rfl)

/-- Lines for those who debug are not compared. -/
theorem debug_like (a b : Setup α) (level : Int) (line line' : Unit → String) :
    L.Simulates D own ids (.same Unit) (Run.debug a level line) (Run.debug b level line') := by
  rw [Run.debug_eq, Run.debug_eq]
  exact .ofModify (fun _ _ hm => { hm with }) (fun _ => rfl)

/-- A line that one run has no text for the other one has no text for either. -/
theorem debugText_like {a b : Setup α} (h : a.debugLevel = b.debugLevel) (level : Int)
    (line : Unit → Except Failure String) :
    L.Simulates D own ids (.same Unit) (Run.debugText a level line)
      (Run.debugText b level line) := by
  unfold Run.debugText
  rw [h]
  split
  · split
    · exact debug_like a b level _ _
    · exact .throw (.defect _)
  · exact .done ()

/-- Two computations that make a scope inside `scope` and bind names in it. -/
def Opens (D : L.Realm) (scope : Scope) (ids : List Nat) (x y : Run α Scope) : Prop :=
  ∀ m n, L.Mirrors D m n → m.frames.Holds ids → ∃ m' n',
    x m = .ok (m.frames.frames.size :: scope) m' ∧ y n = .ok (m.frames.frames.size :: scope) n' ∧
      L.Mirrors D m' n' ∧ L.Steady none m.frames m'.frames ∧
      m'.frames.frames.size = m.frames.frames.size + 1

theorem Opens.bind {S : Shape γ δ} {x y : Run α Scope} (hx : L.Opens D scope ids x y)
    {k : Scope → Run α γ} {l : Scope → Run α δ}
    (hk : ∀ id, L.Simulates D (some id) (id :: ids) S (k (id :: scope)) (l (id :: scope))) :
    L.Simulates D none ids S (x >>= k) (y >>= l) := by
  intro m n hm hi
  obtain ⟨m', n', hxm, hyn, hm', hsteady, hsize⟩ := hx m n hm hi
  have hids : m'.frames.Holds (m.frames.frames.size :: ids) := by
    intro id hid
    rcases List.mem_cons.mp hid with rfl | hid
    · omega
    · exact hsteady.holds hi id hid
  have h := hk m.frames.frames.size m' n' hm' hids
  rw [Run.bind_ok hxm, Run.bind_ok hyn]
  generalize k _ m' = r at h ⊢
  generalize l _ n' = s at h ⊢
  cases h with
  | ok hv ho hm'' hs'' => exact .ok hv ho hm'' (hsteady.ofNew hs'')
  | error he hr => exact .error he hr
  | lost h => exact .lost h _

theorem child_opens (scope : Scope) :
    L.Opens D scope ids (Run.child scope : Run α Scope) (Run.child scope) := by
  intro m n hm _
  refine ⟨_, _, rfl, ?_, hm.child scope, .child m.frames scope, by simp⟩
  show EStateM.Result.ok (n.frames.frames.size :: scope) _ = _
  rw [hm.frames.size]
  rfl

/-- Blocks that are remembered are found at corresponding places. -/
theorem lookup_blocks {known known' : List ((Int × Int) × List Statement)}
    (h : List.Forall₂ (L.BlockAlike D) known known') {key key' : Int × Int}
    (hi : L.starts key.1 key'.1) (hj : L.stops key.2 key'.2) :
    Option.Rel (fun B B' => L.Statements B B' ∧ D.holds B) (known.lookup key)
      (known'.lookup key') := by
  induction h with
  | nil => exact .none
  | @cons x y known known' hxy _ ih =>
    have hsame : key = x.1 ↔ key' = y.1 := by
      rw [Prod.ext_iff, Prod.ext_iff, D.starts_inj hi hxy.starts, D.stops_inj hj hxy.stops]
    obtain ⟨place, B⟩ := x
    obtain ⟨place', B'⟩ := y
    simp only [List.lookup_cons]
    by_cases hk : key = place
    · rw [beq_iff_eq.mpr hk, beq_iff_eq.mpr (hsame.mp hk)]
      exact .some ⟨hxy.body, hxy.holds⟩
    · rw [beq_eq_false_iff_ne.mpr hk, beq_eq_false_iff_ne.mpr (fun hh => hk (hsame.mpr hh))]
      exact ih

def Realm.statements (D : L.Realm) : Shape (List Statement) (List Statement) :=
  ⟨fun B B' => L.Statements B B' ∧ D.holds B, fun _ => []⟩

theorem block_like {a b : Setup α} (ha : a.remembers = true) (hb : b.remembers = true)
    {key key' : Int × Int} (hi : L.starts key.1 key'.1) (hj : L.stops key.2 key'.2)
    {T T' : List Token} (hT : L.Tokens T T')
    (hB : ∀ B, ofTokens L.source L.strict T = .ok B → D.holds B) :
    L.Simulates D own ids D.statements
      (Run.block a key (ofTokens L.source L.strict T))
      (Run.block b key' (ofTokens L.source' L.strict' T')) := by
  intro m n hm _
  have hknown := lookup_blocks hm.blocks hi hj
  have hread := ofTokens_like hT
  rw [Run.block_eq, Run.block_eq]
  simp only [recallBlock, ha, hb, if_true]
  generalize m.blocks.lookup key = x at hknown ⊢
  generalize n.blocks.lookup key' = y at hknown ⊢
  cases hknown with
  | some h => exact .ok h (Frames.holds_nil _) { hm with } (.refl _ _)
  | none =>
    generalize hx : ofTokens L.source L.strict T = x at hread hB ⊢
    generalize ofTokens L.source' L.strict' T' = y at hread ⊢
    cases hread with
    | ok h =>
      have hheld := hB _ rfl
      exact .ok ⟨h, hheld⟩ (Frames.holds_nil _)
        { hm with blocks := .cons ⟨hi, hj, h, hheld⟩ hm.blocks } (.refl _ _)
    | error h => exact .error (.fault h.faults) hm.records
    | lost h => exact .lost h _

end Access

end Likeness

end Abacus
