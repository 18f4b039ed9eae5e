import Abacus.Proofs.Alike.Expression
import Abacus.Session

/-! Statements and blocks of two runs that correspond, and from them whole scripts. -/

namespace Abacus.Likeness

open Token Eval

variable {α : Type} {L : Likeness} {D : L.Realm} {p q : Parts α} {s : NumberSystem α} {o : Options}
  {own : Option Nat} {ids : List Nat} {scope : Scope} {T T' : List Token} {m n : Machine α}
  {stmt stmt' : Statement} {B B' : List Statement}

/-- The use of a name that a binding suits. -/
def roleOf (b : Binding α) : Role :=
  if b.isFunction then .function else .variable

theorem suits_roleOf {b c : Binding α} :
    Role.Suits (some (roleOf b)) c ↔ c.isFunction = b.isFunction := by
  cases hb : b.isFunction <;> simp [Role.Suits, roleOf, hb]

/-- A name keeps its use when it is bound. -/
theorem declareAt_like {id : Nat} {name : String} {b c : Binding α} (hm : L.Mirrors D m n)
    (hb : D.Alike b c) (hr : L.loose → D.role name = some (roleOf b))
    (hc : m.frames.Holds b.scope)
    (hown : L.loose → own = some id ∨ (m.frames.frame id).lookup name ≠ none) :
    L.Ends D own m.frames (.same Unit) (Run.declare id name b m) (Run.declare id name c n) := by
  refine .ok rfl (Frames.holds_nil _) (hm.declare id hb ?_ hc) (.declare fun hl => ?_)
  · intro hl
    rw [hr hl]
    exact suits_roleOf.mpr rfl
  · cases hx : (m.frames.frame id).lookup name with
    | none =>
      rcases hown hl with ho | ho
      · exact .inl ⟨ho, rfl⟩
      · exact absurd hx ho
    | some e =>
      have hsuits := hm.typed hl id name e hx
      rw [hr hl] at hsuits
      exact .inr ⟨e, rfl, suits_roleOf.mp hsuits⟩

theorem declareIn_like {name : String} {b c : Binding α} (hm : L.Mirrors D m n)
    (hb : D.Alike b c) (hr : L.loose → D.role name = some (roleOf b))
    (hc : m.frames.Holds b.scope) :
    L.Ends D scope.head? m.frames (.same Unit) (Run.declareIn scope name b m)
      (Run.declareIn scope name c n) := by
  cases scope with
  | nil => exact .ok rfl (Frames.holds_nil _) hm (.refl _ _)
  | cons id outer => exact declareAt_like hm hb hr hc (fun _ => .inl rfl)

theorem checkName_like {name name' : Token} (hn : L.Leaf name name')
    (hm : L.loose → name.isName = true) (hr : L.loose → D.role name.value ≠ none) :
    L.Simulates D own ids (.same Unit) (checkName (L.left s o) name : Run α Unit)
      (checkName (L.right s o) name') := by
  have hleft : (checkName (L.left s o) name : Run α Unit) = pure () := by
    simp [checkName, left, D.strict_eq]
  have hright : (checkName (L.right s o) name' : Run α Unit) = pure () := by
    by_cases hl : L.loose
    · have hshort := D.short hl (hn.words_of_kind (kind_of_isName (hm hl))) (hm hl) (hr hl)
      rw [hn.value_eq] at hshort
      simp [checkName, hshort]
    · simp [checkName, right, ← L.same_mode hl, D.strict_eq]
  rw [hleft, hright]
  exact .done ()

def Found (D : L.Realm) (x y : Option (Nat × Binding α)) : Prop :=
  Option.Rel (fun x y => x.1 = y.1 ∧ D.Alike x.2 y.2) x y

/-- What follows may rely on the place where the name was found. -/
theorem find_bind {γ δ : Type} {name : String} {S : Shape γ δ}
    {k : Option (Nat × Binding α) → Run α γ} {l : Option (Nat × Binding α) → Run α δ}
    (hk : ∀ m n x y, L.Mirrors D m n → m.frames.Holds ids → L.Found D x y →
      (∀ id b, x = some (id, b) → (m.frames.frame id).lookup name = some b) →
      L.Ends D own m.frames S (k x m) (l y n)) :
    L.Simulates D own ids S (Run.find scope name >>= k) (Run.find scope name >>= l) := by
  intro m n hm hids
  have hplace : ∀ id b, m.frames.find scope name = some (id, b) →
      (m.frames.frame id).lookup name = some b := fun _ _ hb => (Frames.nearest_of_find hb).2
  exact hk m n _ _ hm hids (hm.frames.find scope name) hplace

theorem checkAssign_like {name name' : Token} (hn : L.Leaf name name') (hm : name.isName = true)
    (constant : Bool) {text text' : String} (hx : L.Text text text')
    {x y : Option (Nat × Binding α)} (h : L.Found D x y) :
    L.Simulates D own ids (.same Unit) (checkAssign scope name constant text x)
      (checkAssign scope name' constant text' y) := by
  cases h with
  | none => exact .done ()
  | @some x y hh =>
    obtain ⟨owner, b⟩ := x
    obtain ⟨_, c⟩ := y
    obtain ⟨rfl, hb⟩ := hh
    have hc : b.isConstant = c.isConstant := hb.isConstant_eq
    unfold checkAssign
    dsimp only
    rw [hc]
    split
    · by_cases hpi : name.value = "π"
      · have hpi' : name'.value = "π" := hn.value_eq ▸ hpi
        rw [if_pos hpi, if_pos hpi']
        exact .throw (.fault (L.refused (hn.words_of_kind (kind_of_isName hm)) hm hpi hpi'
          hn.spot_index hx))
      · have hpi' : name'.value ≠ "π" := fun hh => hpi (hn.value_eq.trans hh)
        rw [if_neg hpi, if_neg hpi']
        exact .failAt (hn.fault_like _)
    · split
      · exact .failAt (hn.fault_like _)
      · exact .done ()

theorem recordIf_like (top : Bool) (hk : stmt.kind = stmt'.kind)
    (hs : L.Text stmt.source stmt'.source) {out out' : List (Output α)}
    (ho : List.Forall₂ L.OutputAlike out out') :
    L.Simulates D own ids (.same Unit) (if top then Run.record stmt out else pure ())
      (if top then Run.record stmt' out' else pure ()) := by
  split
  · exact record_like hk hs ho
  · exact .done ()

theorem evalAssign_like (hp : PartsAlike D p q) (calls : Nat) (top : Bool)
    (hk : stmt.kind = stmt'.kind) (hs : L.Text stmt.source stmt'.source) {name name' : Token}
    (hn : L.Leaf name name') (hm : name.isName = true) {value value' : List Token}
    (hv : L.Tokens value value') (hf : D.fit value)
    (hr : L.loose → D.role name.value = some .variable) (fresh constant : Bool)
    {text text' : String} (hx : L.Text text text') :
    L.Simulates D scope.head? scope (.same Unit)
      (assign (L.left s o) p calls scope top stmt name value fresh constant text)
      (assign (L.right s o) q calls scope top stmt' name' value' fresh constant text') := by
  have hrole : L.loose → D.role name.value ≠ none := fun hl => by simp [hr hl]
  refine (checkName_like hn (fun _ => hm) hrole).bind (fun _ _ _ => ?_)
  rw [← hn.value_eq]
  refine find_bind (fun m n x y hm' hids hfind hplace => ?_)
  have hcheck : L.Ends D scope.head? m.frames (.same Unit)
      (checkAssign scope name constant text x m) (checkAssign scope name' constant text' y n) :=
    checkAssign_like hn hm constant hx hfind m n hm' hids
  refine hcheck.bind ?_
  intro _ _ m₁ n₁ _ _ hm₁ hs₁
  have hvalue : L.Ends D scope.head? m.frames (.same α)
      (p.expression calls scope value name.stop m₁)
      (q.expression calls scope value' name'.stop n₁) :=
    ((hp.expression calls scope hv hf hn.spot_stop).owned _ m₁ n₁ hm₁ (hs₁.holds hids)).mono hs₁
  refine hvalue.bind ?_
  rintro v _ m₂ n₂ rfl _ hm₂ hs₂
  have houtput : List.Forall₂ L.OutputAlike [.label name.value, .label "is set to", .value v]
      [.label name.value, .label "is set to", .value v] :=
    .cons (.label (fun _ => rfl)) (.cons (.label (fun _ => rfl)) (.cons (.value v) .nil))
  have hlast : L.Simulates D scope.head? scope (.same Unit)
      (do
        Run.debugText (L.left s o) 2 (fun _ =>
          (s.format v).map ("declare " ++ name.value ++ " = " ++ ·))
        if top then Run.record stmt [.label name.value, .label "is set to", .value v] else pure ())
      (do
        Run.debugText (L.right s o) 2 (fun _ =>
          (s.format v).map ("declare " ++ name.value ++ " = " ++ ·))
        if top then Run.record stmt' [.label name.value, .label "is set to", .value v]
        else pure ()) :=
    (debugText_like rfl 2 _).bind (fun _ _ _ => recordIf_like top hk hs houtput)
  have hin : L.Ends D scope.head? m.frames (.same Unit)
      (Run.declareIn scope name.value (.number v constant) m₂)
      (Run.declareIn scope name.value (.number v constant) n₂) :=
    (declareIn_like hm₂ (.number v constant) hr (Frames.holds_nil _)).mono hs₂
  cases hfind with
  | none => exact hin.andThen hids (fun _ _ _ => hlast)
  | @some x y hh =>
    obtain ⟨owner, b⟩ := x
    obtain ⟨_, c⟩ := y
    obtain ⟨rfl, hb⟩ := hh
    cases fresh with
    | true => exact hin.andThen hids (fun _ _ _ => hlast)
    | false =>
      have hlookup := hplace owner b rfl
      have hstill : L.loose → scope.head? = some owner ∨
          (m₂.frames.frame owner).lookup name.value ≠ none :=
        fun hl => .inr (hs₂.bound hl hlookup)
      have hat : L.Ends D scope.head? m.frames (.same Unit)
          (Run.declare owner name.value (.number v false) m₂)
          (Run.declare owner name.value (.number v false) n₂) :=
        (declareAt_like hm₂ (.number v false) hr (Frames.holds_nil _) hstill).mono hs₂
      exact hat.andThen hids (fun _ _ _ => hlast)

theorem evalDefine_like (top : Bool) (hk : stmt.kind = stmt'.kind)
    (hs : L.Text stmt.source stmt'.source) {name name' : Token} (hn : L.Leaf name name')
    (hm : L.loose → name.isName = true) {parameters : List String} {value value' : List Token}
    (hv : L.Tokens value value') (hf : D.fit value)
    (hr : L.loose → D.role name.value = some .function)
    (hrp : L.loose → ∀ p ∈ parameters, D.role p = some .parameter) {text text' : String}
    (hx : L.Text text text') :
    L.Simulates D scope.head? scope (.same Unit)
      (define (L.left s o) scope top stmt name parameters value text : Run α Unit)
      (define (L.right s o) scope top stmt' name' parameters value' text') := by
  have hrole : L.loose → D.role name.value ≠ none := fun hl => by simp [hr hl]
  refine (checkName_like hn hm hrole).bind (fun _ _ _ => ?_)
  rw [← hn.value_eq]
  refine find_bind (fun m n x y hm' hids hfind hplace => ?_)
  have hfunction : D.Alike (.function ⟨name.value, parameters, value, scope⟩ : Binding α)
      (.function ⟨name.value, parameters, value', scope⟩) := .function hv hf hrp
  have hlast : ∀ signature : String, L.Simulates D scope.head? scope (.same Unit)
      (do
        Run.debug (L.left s o) 2 (fun _ => "define function " ++ signature)
        if top then Run.record stmt [.label signature, .label "is set to", .label text]
        else pure ())
      (do
        Run.debug (L.right s o) 2 (fun _ => "define function " ++ signature)
        if top then Run.record stmt' [.label signature, .label "is set to", .label text']
        else pure ()) := by
    intro signature
    refine (debug_like _ _ 2 _ _).bind (fun _ _ _ => recordIf_like top hk hs ?_)
    exact .cons (.label (fun _ => rfl)) (.cons (.label (fun _ => rfl)) (.cons (.label hx) .nil))
  cases hfind with
  | none =>
    exact (declareIn_like hm' hfunction hr hids).andThen hids (fun _ _ _ => hlast _)
  | @some x y hh =>
    obtain ⟨owner, b⟩ := x
    obtain ⟨_, c⟩ := y
    obtain ⟨rfl, hb⟩ := hh
    have hc : b.isConstant = c.isConstant := hb.isConstant_eq
    simp only [Option.any_some, hc]
    split
    · exact .error (.fault (hn.fault_like _).faults) hm'.records
    · have hbound : L.loose → scope.head? = some owner ∨
          (m.frames.frame owner).lookup name.value ≠ none :=
        fun _ => .inr (by simp [hplace owner b rfl])
      exact (declareAt_like hm' hfunction hr hids hbound).andThen hids (fun _ _ _ => hlast _)

theorem condition_like (hp : PartsAlike D p q) (calls : Nat) {keyword keyword' : Token}
    (hk : L.Leaf keyword keyword') (hT : L.Tokens T T') (hf : D.fit T) (text text' : String) :
    L.Simulates D none scope (.same Bool)
      (condition (L.left s o) p calls scope stmt keyword T text)
      (condition (L.right s o) q calls scope stmt' keyword' T' text') := by
  refine (hp.expression calls scope hT hf hk.spot_stop).bind ?_
  rintro v _ rfl
  exact (debug_like _ _ 3 _ _).bind (fun _ _ _ => .done _)

theorem inChild_like (hp : PartsAlike D p q) (calls : Nat) (report : Bool)
    (hB : L.Statements B B') (hheld : D.holds B) :
    L.Simulates D none scope (.same (Flow α)) (inChild p calls scope report B)
      (inChild q calls scope report B') :=
  (child_opens scope).bind (fun id => hp.block calls (id :: scope) false report hB hheld)

theorem loop_like (hp : PartsAlike D p q) (calls : Nat) (report : Bool)
    (hB : L.Statements B B') (hheld : D.holds B) (fuel : Nat) :
    L.Simulates D none scope (.same (Flow α)) (Eval.loop p calls scope report B fuel)
      (Eval.loop q calls scope report B' fuel) := by
  induction fuel with
  | zero => exact .throw (.defect _)
  | succ fuel ih =>
    refine (inChild_like hp calls report hB hheld).bind ?_
    rintro x _ rfl
    cases x with
    | finished last => exact ih
    | returned v => exact .done _
    | left => exact .done _

theorem loopUntil_like (hp : PartsAlike D p q) (calls : Nat) (report : Bool)
    (hB : L.Statements B B') (hheld : D.holds B) {until' until'' : Run α Bool}
    (hu : L.Simulates D none scope (.same Bool) until' until'') (fuel : Nat) :
    L.Simulates D none scope (.same (Flow α)) (loopUntil p calls scope report B until' fuel)
      (loopUntil q calls scope report B' until'' fuel) := by
  induction fuel with
  | zero => exact .throw (.defect _)
  | succ fuel ih =>
    refine hu.bind ?_
    rintro stop _ rfl
    split
    · exact .done _
    · refine (inChild_like hp calls report hB hheld).bind ?_
      rintro x _ rfl
      cases x with
      | finished last => exact ih
      | returned v => exact .done _
      | left => exact .done _

/-- Counters of repetitions. -/
structure Counters (D : L.Realm) (c c' : Option Token) : Prop where
  leaf : Option.Rel L.Leaf c c'
  name : ∀ t ∈ c, t.isName = true
  role : L.loose → ∀ t ∈ c, D.role t.value = some .variable

theorem turnScope_opens {t t' : Token} (h : L.Leaf t t')
    (hr : L.loose → D.role t.value = some .variable) (turn : Nat) :
    L.Opens D scope ids (turnScope (L.left s o) scope (some t) turn)
      (turnScope (L.right s o) scope (some t') turn) := by
  intro m n hm _
  have hchild := hm.child scope
  have hsuits : L.loose →
      Role.Suits (D.role t.value) (.number (s.fromInt turn) true : Binding α) := by
    intro hl
    rw [hr hl]
    rfl
  have hdeclared := hchild.declare m.frames.frames.size (.number (s.fromInt turn) true) hsuits
    (Frames.holds_nil _)
  have hsize : ((m.frames.child scope).1.declare m.frames.frames.size t.value
      (.number (s.fromInt turn) true)).frames.size = m.frames.frames.size + 1 := by
    simp [Frames.child]
  have hframe : ∀ id < m.frames.frames.size, ((m.frames.child scope).1.declare
      m.frames.frames.size t.value (.number (s.fromInt turn) true)).frame id =
        m.frames.frame id := by
    intro id hid
    rw [Frames.frame_declare, if_neg (fun hh => Nat.ne_of_lt hid hh.1.symm)]
    exact Frames.frame_child m.frames scope id
  refine ⟨_, _, rfl, ?_, hdeclared, .ofFrames (hsize ▸ Nat.le_succ _) hframe, hsize⟩
  rw [hm.frames.size, h.value_eq]
  rfl

/-- What happens in the scope of a turn, and then in those after it. -/
theorem turn_like (hp : PartsAlike D p q) (calls : Nat) (report : Bool) (hB : L.Statements B B')
    (hheld : D.holds B) {x y : Run α (Flow α)}
    (hxy : L.Simulates D own scope (.same (Flow α)) x y) :
    L.Simulates D own scope (.same (Flow α))
      (do
        match ← inChild p calls scope report B with
        | .left => return .finished none
        | .returned v => return .returned v
        | .finished _ => x)
      (do
        match ← inChild q calls scope report B' with
        | .left => return .finished none
        | .returned v => return .returned v
        | .finished _ => y) := by
  refine ((inChild_like hp calls report hB hheld).owned own).bind ?_
  rintro flow _ rfl
  cases flow with
  | finished last => exact hxy
  | returned v => exact .done _
  | left => exact .done _

theorem turns_like (hp : PartsAlike D p q) (calls : Nat) (report : Bool) {c c' : Option Token}
    (hc : L.Counters D c c') (count : Nat) (hB : L.Statements B B') (hheld : D.holds B)
    (remaining turn : Nat) :
    L.Simulates D none scope (.same (Flow α))
      (turns (L.left s o) p calls scope report c count B remaining turn)
      (turns (L.right s o) q calls scope report c' count B' remaining turn) := by
  induction remaining generalizing turn with
  | zero => exact .done _
  | succ remaining ih =>
    have hnext := fun own => (ih (turn + 1)).owned own
    refine (debugText_like rfl 3 _).bind (fun _ _ _ => ?_)
    obtain ⟨hleaf, hname, hrole⟩ := hc
    cases hleaf with
    | none => exact turn_like hp calls report hB hheld (hnext none)
    | @some t t' h =>
      refine (turnScope_opens h (fun hl => hrole hl t rfl) (turn + 1)).bind (fun id => ?_)
      exact turn_like hp calls report hB hheld
        ((hnext (some id)).weaken (List.subset_cons_self _ _))

theorem checkCounter_like {c c' : Option Token} (hc : L.Counters D c c') :
    L.Simulates D own ids (.same Unit) (checkCounter (L.left s o) scope c : Run α Unit)
      (checkCounter (L.right s o) scope c') := by
  obtain ⟨hleaf, hname, hrole⟩ := hc
  cases hleaf with
  | none => exact .done ()
  | @some t t' h =>
    have hr : L.loose → D.role t.value ≠ none := fun hl => by simp [hrole hl t rfl]
    refine (checkName_like h (fun _ => hname t rfl) hr).bind (fun _ _ _ => ?_)
    rw [← h.value_eq]
    refine find_bind (fun m n x y hm hids hfind _ => ?_)
    cases hfind with
    | none => exact .ok rfl (Frames.holds_nil _) hm (.refl _ _)
    | @some x y hh =>
      have hconstant : x.2.isConstant = y.2.isConstant := hh.2.isConstant_eq
      simp only [Option.any_some, hconstant]
      split
      · exact .error (.fault (h.fault_like _).faults) hm.records
      · exact .ok rfl (Frames.holds_nil _) hm (.refl _ _)

theorem counted_like (hp : PartsAlike D p q) (calls : Nat) (top report : Bool)
    (hk : stmt.kind = stmt'.kind) (hs : L.Text stmt.source stmt'.source) {t t' : Token}
    (ht : L.Leaf t t') (hT : L.Tokens T T') (hf : D.fit T) {c c' : Option Token}
    (hc : L.Counters D c c') (hB : L.Statements B B') (hheld : D.holds B) :
    L.Simulates D none scope (.same (Flow α))
      (counted (L.left s o) p calls scope top report stmt t T c B)
      (counted (L.right s o) q calls scope top report stmt' t' T' c' B') := by
  refine (hp.expression calls scope hT hf ht.spot_stop).bind ?_
  rintro v _ rfl
  have hrest : L.Simulates D none scope (.same (Flow α))
      (do
        let count ← Run.ofResult t (s.toCount v)
        checkCounter (L.left s o) scope c
        turns (L.left s o) p calls scope report c count.toNat B count.toNat 0)
      (do
        let count ← Run.ofResult t' (s.toCount v)
        checkCounter (L.right s o) scope c'
        turns (L.right s o) q calls scope report c' count.toNat B' count.toNat 0) := by
    refine (Simulates.ofResult ht.fault_like (s.toCount v)).bind ?_
    rintro count _ rfl
    refine (checkCounter_like hc).bind (fun _ _ _ => ?_)
    exact turns_like hp calls report hc count.toNat hB hheld count.toNat 0
  dsimp only
  split
  · refine (record_like hk hs ?_).bind (fun _ _ _ => hrest)
    exact .cons (.label (fun _ => rfl)) (.cons (.value v) (.cons (.label (fun _ => rfl)) .nil))
  · exact hrest

namespace Statements

theorem uncons {B'' : List Statement} (h : L.Statements (stmt :: B) B'') :
    ∃ stmt' B', B'' = stmt' :: B' ∧ L.Statements [stmt] [stmt'] ∧ L.Statements B B' := by
  cases h with
  | assign ho hn hm hv hx hB => exact ⟨_, _, rfl, .assign ho hn hm hv hx .nil, hB⟩
  | define ho hn hm hv hx hB => exact ⟨_, _, rfl, .define ho hn hm hv hx .nil, hB⟩
  | inline ho hv hB => exact ⟨_, _, rfl, .inline ho hv .nil, hB⟩
  | ifThen ho hk hc hb hx hB => exact ⟨_, _, rfl, .ifThen ho hk hc hb hx .nil, hB⟩
  | elseIf ho hk hc hb hx hB => exact ⟨_, _, rfl, .elseIf ho hk hc hb hx .nil, hB⟩
  | otherwise ho hk hb hB => exact ⟨_, _, rfl, .otherwise ho hk hb .nil, hB⟩
  | loop ho hk hb hB => exact ⟨_, _, rfl, .loop ho hk hb .nil, hB⟩
  | repeatUntil ho hk hc hb hx hB => exact ⟨_, _, rfl, .repeatUntil ho hk hc hb hx .nil, hB⟩
  | repeatTimes ho hk hc hb hx hB => exact ⟨_, _, rfl, .repeatTimes ho hk hc hb hx .nil, hB⟩
  | repeatWith ho hk hc hn hm hb hx hB =>
    exact ⟨_, _, rfl, .repeatWith ho hk hc hn hm hb hx .nil, hB⟩
  | giveBack ho hk hv hB => exact ⟨_, _, rfl, .giveBack ho hk hv .nil, hB⟩
  | leave ho hk hB => exact ⟨_, _, rfl, .leave ho hk .nil, hB⟩
  | print ho hk hx hB => exact ⟨_, _, rfl, .print ho hk hx .nil, hB⟩
  | throw ho hk hx hf hB => exact ⟨_, _, rfl, .throw ho hk hx hf .nil, hB⟩

theorem kind_eq (h : L.Statements [stmt] [stmt']) : stmt.kind = stmt'.kind := by
  cases h <;> rfl

theorem source_like (h : L.Statements [stmt] [stmt']) : L.Text stmt.source stmt'.source := by
  cases h <;> exact Span.source ‹_›

end Statements

theorem afterRecord_like {γ δ : Type} {S : Shape γ δ} (top : Bool) (hk : stmt.kind = stmt'.kind)
    (hs : L.Text stmt.source stmt'.source) {out out' : List (Output α)}
    (ho : List.Forall₂ L.OutputAlike out out') {x : Run α γ} {y : Run α δ}
    (h : L.Simulates D own ids S x y) :
    L.Simulates D own ids S (if top then do Run.record stmt out; x else x)
      (if top then do Run.record stmt' out'; y else y) := by
  split
  · exact (record_like hk hs ho).bind (fun _ _ _ => h)
  · exact h

theorem statement_like (hp : PartsAlike D p q) (fuel calls : Nat) (top report : Bool)
    (h : L.Statements [stmt] [stmt']) (hheld : D.holds (stmt :: B)) :
    L.Simulates D scope.head? scope (.same (Flow α))
      (statement (L.left s o) p fuel calls scope top report stmt)
      (statement (L.right s o) q fuel calls scope top report stmt') := by
  have hkind := h.kind_eq
  have hsource := h.source_like
  have hruns := D.runs hheld
  have hbody : ∀ inner, stmt.body? = some inner → D.holds inner := fun _ => D.body hheld
  have huses := fun hl => D.uses hl hheld
  refine (debug_like _ _ 1 _ _).bind (fun _ _ _ => ?_)
  cases h with
  | assign ho hn hm hv hx _ =>
    have hr := fun hl => huses hl _ List.mem_cons_self
    refine (evalAssign_like hp calls top hkind hsource hn hm hv (hruns _ List.mem_cons_self) hr _ _
      hx).bind ?_
    exact fun _ _ _ => .done _
  | define ho hn hm hv hx _ =>
    have hr := fun hl => huses hl _ List.mem_cons_self
    have hrp : L.loose → ∀ p ∈ _, D.role p = some .parameter := fun hl p hp =>
      huses hl (p, .parameter) (List.mem_cons_of_mem _ (List.mem_map_of_mem hp))
    have hfit := hruns _ List.mem_cons_self
    refine (evalDefine_like top hkind hsource hn hm hv hfit hr hrp hx).bind ?_
    exact fun _ _ _ => .done _
  | inline ho hv _ =>
    refine ((hp.expression calls scope hv (hruns _ List.mem_cons_self) ho.index).owned _).bind ?_
    rintro v _ rfl
    dsimp only
    split
    · refine (record_like hkind hsource (.cons (.value v) .nil)).bind ?_
      exact fun _ _ _ => .done _
    · exact .done _
  | loop ho hk hb _ =>
    refine afterRecord_like top hkind hsource (.cons (.label (fun _ => rfl)) .nil) ?_
    exact (loop_like hp calls report hb (hbody _ rfl) fuel).owned _
  | repeatUntil ho hk hc hb hx _ =>
    have houtput : List.Forall₂ (L.OutputAlike (α := α))
        [.label "a repeat loop will continue until", .label _]
        [.label "a repeat loop will continue until", .label _] :=
      .cons (.label (fun _ => rfl)) (.cons (.label hx) .nil)
    refine afterRecord_like top hkind hsource houtput ?_
    exact (loopUntil_like hp calls report hb (hbody _ rfl)
      (condition_like hp calls hk hc (hruns _ List.mem_cons_self) _ _) fuel).owned _
  | repeatTimes ho hk hc hb hx _ =>
    have hnone : L.Counters D none none :=
      ⟨.none, fun _ hh => (nomatch hh), fun _ _ hh => (nomatch hh)⟩
    exact (counted_like hp calls top report hkind hsource hk hc (hruns _ List.mem_cons_self) hnone
      hb (hbody _ rfl)).owned _
  | @repeatWith _ _ _ _ _ _ t t' _ _ _ _ _ _ ho hk hc hn hm hb hx _ =>
    have hcounter : L.Counters D (some t) (some t') := by
      refine ⟨.some hn, ?_, ?_⟩
      · rintro _ ⟨⟩
        exact hm
      · rintro hl _ ⟨⟩
        exact huses hl _ List.mem_cons_self
    exact (counted_like hp calls top report hkind hsource hk hc (hruns _ List.mem_cons_self)
      hcounter hb (hbody _ rfl)).owned _
  | giveBack ho hk hv _ =>
    dsimp only
    rw [hv.isEmpty_eq]
    split
    · exact .done _
    · have hvalue := hp.expression calls scope hv (hruns _ List.mem_cons_self) hk.spot_stop
      refine (hvalue.owned _).bind ?_
      rintro v _ rfl
      exact .done _
  | leave ho hk _ => exact .done _
  | print ho hk hx _ =>
    refine (record_like hkind hsource (.cons (.label hx) .nil)).bind ?_
    exact fun _ _ _ => .done _
  | throw ho hk hx hf _ => exact .throw (.fault hf)
  | ifThen _ _ _ _ _ _ => exact .done _
  | elseIf _ _ _ _ _ _ => exact .done _
  | otherwise _ _ _ _ => exact .done _

theorem branch_like (hp : PartsAlike D p q) (calls : Nat) (top report : Bool)
    (hk : stmt.kind = stmt'.kind) (hs : L.Text stmt.source stmt'.source) {t t' : Token}
    (ht : L.Leaf t t') (hT : L.Tokens T T') (hf : D.fit T) {text text' : String}
    (hx : L.Text text text') (hB : L.Statements B B') (hheld : D.holds B) :
    L.Simulates D none scope (.same (Bool × Flow α))
      (branch (L.left s o) p calls scope top report stmt t T text B)
      (branch (L.right s o) q calls scope top report stmt' t' T' text' B') := by
  refine (debug_like _ _ 1 _ _).bind (fun _ _ _ => ?_)
  refine (condition_like hp calls ht hT hf text text').bind ?_
  rintro chosen _ rfl
  have hchild : L.Simulates D none scope (.same (Bool × Flow α))
      (do return (true, ← inChild p calls scope report B))
      (do return (true, ← inChild q calls scope report B')) := by
    refine (inChild_like hp calls report hB hheld).bind ?_
    rintro x _ rfl
    exact .done _
  split
  · refine afterRecord_like top hk hs ?_ hchild
    exact .cons (.label (fun _ => rfl)) (.cons (.label hx) .nil)
  · exact .done _

theorem lastBranch_like (hp : PartsAlike D p q) (calls : Nat) (top report : Bool)
    (hk : stmt.kind = stmt'.kind) (hs : L.Text stmt.source stmt'.source)
    (hB : L.Statements B B') (hheld : D.holds B) :
    L.Simulates D none scope (.same (Bool × Flow α))
      (lastBranch (L.left s o) p calls scope top report stmt B)
      (lastBranch (L.right s o) q calls scope top report stmt' B') := by
  refine (debug_like _ _ 1 _ _).bind (fun _ _ _ => ?_)
  refine afterRecord_like top hk hs (.cons (.label (fun _ => rfl)) .nil) ?_
  refine (inChild_like hp calls report hB hheld).bind ?_
  rintro x _ rfl
  exact .done _

theorem step_like (hp : PartsAlike D p q) (fuel calls : Nat) (top report matched : Bool)
    (h : L.Statements [stmt] [stmt']) (hheld : D.holds (stmt :: B)) :
    L.Simulates D scope.head? scope (.same (Bool × Flow α))
      (Eval.step (L.left s o) p fuel calls scope top report matched stmt)
      (Eval.step (L.right s o) q fuel calls scope top report matched stmt') := by
  have hkind := h.kind_eq
  have hsource := h.source_like
  have hruns := D.runs hheld
  have hbody : ∀ inner, stmt.body? = some inner → D.holds inner := fun _ => D.body hheld
  have hother : L.Simulates D scope.head? scope (.same (Bool × Flow α))
      (do return (matched, ← statement (L.left s o) p fuel calls scope top report stmt))
      (do return (matched, ← statement (L.right s o) q fuel calls scope top report stmt')) := by
    refine (statement_like hp fuel calls top report h hheld).bind ?_
    rintro x _ rfl
    exact .done _
  cases h with
  | ifThen ho hk hc hb hx _ =>
    exact (branch_like hp calls top report hkind hsource hk hc (hruns _ List.mem_cons_self) hx hb
      (hbody _ rfl)).owned _
  | elseIf ho hk hc hb hx _ =>
    dsimp only [Eval.step]
    split
    · exact .done _
    · exact (branch_like hp calls top report hkind hsource hk hc (hruns _ List.mem_cons_self) hx hb
        (hbody _ rfl)).owned _
  | otherwise ho hk hb _ =>
    dsimp only [Eval.step]
    split
    · exact .done _
    · exact (lastBranch_like hp calls top report hkind hsource hb (hbody _ rfl)).owned _
  | _ => exact hother

theorem steps_like (hp : PartsAlike D p q) (fuel calls : Nat) (top report : Bool)
    (h : L.Statements B B') (hheld : D.holds B) (matched : Bool) (last : Option α) :
    L.Simulates D scope.head? scope (.same (Flow α))
      (steps (L.left s o) p fuel calls scope top report B matched last)
      (steps (L.right s o) q fuel calls scope top report B' matched last) := by
  induction B generalizing B' matched last with
  | nil =>
    cases h
    exact .done _
  | cons stmt B ih =>
    obtain ⟨stmt', B', rfl, hstmt, hB⟩ := h.uncons
    have hstep : L.Simulates D scope.head? scope (.same (Bool × Flow α))
        (Run.watched (L.left s o) scope
          (Eval.step (L.left s o) p fuel calls scope top report matched stmt))
        (Run.watched (L.right s o) scope
          (Eval.step (L.right s o) q fuel calls scope top report matched stmt')) :=
      step_like hp fuel calls top report matched hstmt hheld
    unfold steps
    dsimp only
    split
    on_goal 1 => refine (setStatement_like hstmt.source_like).bind (fun _ _ _ => ?_)
    all_goals
      refine hstep.bind ?_
      rintro ⟨c, x⟩ _ rfl
      match x with
      | .finished none => exact ih hB (D.tail hheld) c last
      | .finished (some v) => exact ih hB (D.tail hheld) c (some v)
      | .returned v => exact .done _
      | .left => exact .done _

theorem partsAlike (D : L.Realm) (s : NumberSystem α) (o : Options) (fuel : Nat) :
    PartsAlike D ⟨Eval.expression (L.left s o) fuel, Eval.block (L.left s o) fuel⟩
      ⟨Eval.expression (L.right s o) fuel, Eval.block (L.right s o) fuel⟩ := by
  induction fuel with
  | zero =>
    constructor
    · intro calls scope T T' i i' _ _ _
      simp only [Eval.expression]
      exact .throw (.defect _)
    · intro calls scope B B' top report _ _
      simp only [Eval.block]
      exact .throw (.defect _)
  | succ fuel ih =>
    constructor
    · intro calls scope T T' i i' hT hf hi
      simp only [Eval.expression]
      exact expressionWith_like ih calls hT hf hi
    · intro calls scope B B' top report hB hheld
      simp only [Eval.block]
      exact steps_like ih fuel calls top report hB hheld false none

/-- Scripts that correspond run alike. -/
theorem program_like (D : L.Realm) (s : NumberSystem α) (o : Options) (fuel : Nat)
    (h : L.Statements B B') (hheld : D.holds B) :
    L.Simulates D (some 1) Machine.globals (.same Unit) (Eval.program (L.left s o) fuel B)
      (Eval.program (L.right s o) fuel B') := by
  refine ((partsAlike D s o fuel).block o.callLimit Machine.globals true true h hheld).bind ?_
  exact fun _ _ _ => .done _

theorem constant_of_root {e : String × Binding α} (h : e ∈ Machine.rootFrame s) :
    e.2.isConstant = true :=
  root_bindings (P := fun b => b.isConstant = true) (fun _ => rfl) (fun _ _ => rfl) h

theorem Realm.Alike.ofConstant {b : Binding α} (h : b.isConstant = true) : D.Alike b b := by
  cases b with
  | number v constant => exact .number v constant
  | builtin name arity => exact .builtin name arity
  | function f => cases h

theorem start_frame (s : NumberSystem α) (r : Resources α) (id : Nat) :
    (Machine.start s r).frames.frame id = if id = 0 then Machine.rootFrame s else [] := by
  match id with
  | 0 => rfl
  | 1 => rfl
  | _ + 2 => rfl

/-- Runs begin alike if no name of the number system is used otherwise. -/
theorem start_mirrors (s : NumberSystem α) (r : Resources α)
    (hr : L.loose → ∀ name b, (Machine.rootFrame s).lookup name = some b →
      Role.Suits (D.role name) b) :
    L.Mirrors D (Machine.start s r) (Machine.start s r) where
  frames := by
    refine ⟨rfl, fun id name => ?_⟩
    rw [start_frame]
    split
    · cases hx : (Machine.rootFrame s).lookup name with
      | none => exact .none
      | some b => exact .some (.ofConstant (constant_of_root (Frames.mem_of_lookup hx)))
    · exact .none
  typed hl id name b hb := by
    rw [start_frame] at hb
    split at hb
    · exact hr hl name b hb
    · cases hb
  closed id e he := by
    rw [start_frame] at he
    split at he
    · have hconstant := constant_of_root he
      obtain ⟨name, b⟩ := e
      cases b with
      | function f => cases hconstant
      | _ => exact fun _ hh => nomatch hh
    · cases he
  records := .nil
  blocks := .nil
  statement := fun _ => rfl
  resources := rfl

inductive StatusAlike (L : Likeness) : Status → Status → Prop where
  | ok : StatusAlike L .ok .ok
  | error {f g : Fault} (h : L.faults f g) : StatusAlike L (.error f) (.error g)
  | needsInput {prompt prompt' : String} (h : L.Text prompt prompt') :
      StatusAlike L (.needsInput prompt) (.needsInput prompt')

/-- Results of runs that correspond. -/
inductive Results (L : Likeness) :
    Except RunError (Outcome α) → Except RunError (Outcome α) → Prop where
  | ok {x y : Outcome α} (hs : L.StatusAlike x.status y.status)
      (hr : List.Forall₂ L.RecordAlike x.records y.records) : Results L (.ok x) (.ok y)
  | defect (e : Defect) (log log' : Option (List String)) :
      Results L (.error (.defect e log)) (.error (.defect e log'))
  | lost {x : Except RunError (Outcome α)} (hl : L.lax) (hx : ∀ o, x = .ok o → o.status ≠ .ok)
      (y : Except RunError (Outcome α)) : Results L x y

theorem Ends.results {f : Frames (Binding α)}
    {x y : EStateM.Result Stop (Machine α) Unit} (h : L.Ends D own f (.same Unit) x y) (d : Int) :
    L.Results (Outcome.ofResult d x) (Outcome.ofResult d y) := by
  cases h with
  | ok _ _ hm _ => exact .ok .ok hm.records
  | error he hr =>
    cases he with
    | fault hf => exact .ok (.error hf) hr
    | input hp => exact .ok (.needsInput hp) hr
    | defect e => exact .defect e _ _
  | @lost e m hl =>
    refine .lost hl (fun o ho => ?_) _
    cases e with
    | defect e => cases ho
    | _ =>
      cases ho
      simp [Machine.outcome]

theorem program_results (D : L.Realm) (s : NumberSystem α) (o : Options) (fuel : Nat)
    (h : L.Statements B B') (hheld : D.holds B)
    (hr : L.loose → ∀ name b, (Machine.rootFrame s).lookup name = some b →
      Role.Suits (D.role name) b) (seed : Int) (inputs : List String) :
    L.Results ((⟨L.source, B⟩ : Program).runIn (L.left s o) fuel seed inputs)
      ((⟨L.source', B'⟩ : Program).runIn (L.right s o) fuel seed inputs) := by
  have hids : (Machine.start s (s.resources seed inputs)).frames.Holds Machine.globals := by
    intro id hid
    have hle : id ≤ 1 := by
      simp only [Machine.globals, List.mem_cons, List.not_mem_nil, or_false] at hid
      omega
    exact Nat.lt_succ_of_le hle
  exact (program_like D s o fuel h hheld _ _ (start_mirrors s _ hr) hids).results o.debugLevel

end Abacus.Likeness
