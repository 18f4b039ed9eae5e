import Abacus.Eval.Statement
import Abacus.Proofs.Layout
import Abacus.Proofs.Rendered.Runs

/-! Computations of two renderings, step by step. Blocks inside expressions are read afresh every
time. Faults and prompts may differ in their texts and places. -/

namespace Abacus.Rendering

open Token Statement

variable {α γ δ ε ζ : Type} {R : Rendering}

inductive Alike (R : Rendering) : Binding α → Binding α → Prop where
  | number (v : α) (constant : Bool) : Alike R (.number v constant) (.number v constant)
  | builtin (name : String) (arity : Option Nat) : Alike R (.builtin name arity) (.builtin name arity)
  | function {name : String} {parameters : List String} {body body' : List Token} {scope : Scope}
      (hb : R.Runs body body') :
      Alike R (.function ⟨name, parameters, body, scope⟩) (.function ⟨name, parameters, body', scope⟩)

namespace Alike

variable {b c : Binding α}

theorem isFunction_eq (h : R.Alike b c) : b.isFunction = c.isFunction := by
  cases h <;> rfl

theorem isConstant_eq (h : R.Alike b c) : b.isConstant = c.isConstant := by
  cases h <;> rfl

theorem of_constant (h : b.isConstant = true) : R.Alike b b := by
  cases b with
  | number v constant => exact .number v constant
  | builtin name arity => exact .builtin name arity
  | function f => cases h

end Alike

/-- Records that show the same values. -/
structure SameRecord (r t : Record α) : Prop where
  kind : r.kind = t.kind
  values : r.values = t.values

theorem SameRecord.of_values {s s' : Statement} {out out' : List (Output α)}
    (hk : s.kind = s'.kind) (ho : out.map Output.value? = out'.map Output.value?) :
    SameRecord ⟨s.kind, s.source, out⟩ ⟨s'.kind, s'.source, out'⟩ :=
  ⟨hk, ho⟩

/-- States that differ in texts and in the blocks that were read. -/
structure Mirrors (R : Rendering) (m n : Machine α) : Prop where
  frames : Frames.Related R.Alike m.frames n.frames
  records : List.Forall₂ SameRecord m.records.toList n.records.toList
  resources : m.resources = n.resources

inductive Stops : Stop → Stop → Prop where
  | fault (f g : Fault) : Stops (.fault f) (.fault g)
  | input (prompt prompt' : String) : Stops (.input prompt) (.input prompt')
  | defect (d : Defect) : Stops (.defect d) (.defect d)

theorem Stops.ofFailure (i i' k k' : Int) (f : Failure) :
    Stops (Stop.ofFailure i k f) (Stop.ofFailure i' k' f) := by
  cases f <;> constructor

theorem Stops.ofLiteral (f : Failure) : Stops (Stop.ofLiteral f) (Stop.ofLiteral f) := by
  cases f <;> constructor

inductive Ends (R : Rendering) (S : γ → δ → Prop) :
    EStateM.Result Stop (Machine α) γ → EStateM.Result Stop (Machine α) δ → Prop where
  | ok {v : γ} {w : δ} {m n : Machine α} (hv : S v w) (hm : R.Mirrors m n) :
      Ends R S (.ok v m) (.ok w n)
  | error {e e' : Stop} {m n : Machine α} (he : Stops e e')
      (hr : List.Forall₂ SameRecord m.records.toList n.records.toList) :
      Ends R S (.error e m) (.error e' n)

/-- From states that correspond two computations end alike. -/
def Simulates (R : Rendering) (S : γ → δ → Prop) (x : Run α γ) (y : Run α δ) : Prop :=
  ∀ m n, R.Mirrors m n → R.Ends S (x m) (y n)

namespace Simulates

variable {S : γ → δ → Prop} {U : ε → ζ → Prop} {x : Run α γ} {y : Run α δ}

theorem bind (hx : R.Simulates S x y) {k : γ → Run α ε} {l : δ → Run α ζ}
    (hk : ∀ v w, S v w → R.Simulates U (k v) (l w)) : R.Simulates U (x >>= k) (y >>= l) := by
  intro m n hm
  have h := hx m n hm
  rw [Run.bind_eq, Run.bind_eq]
  generalize x m = r at h ⊢
  generalize y n = s at h ⊢
  cases h with
  | ok hv hm => exact hk _ _ hv _ _ hm
  | error he hr => exact .error he hr

theorem pure {v : γ} {w : δ} (h : S v w) :
    R.Simulates S (Pure.pure v : Run α γ) (Pure.pure w) :=
  fun _ _ hm => .ok h hm

theorem done (v : γ) : R.Simulates Eq (Pure.pure v : Run α γ) (Pure.pure v) :=
  .pure rfl

theorem stop {e e' : Stop} (h : Stops e e') :
    R.Simulates S (throw e : Run α γ) (throw e') :=
  fun _ _ hm => .error h hm.records

theorem fail (i i' : Int) (message message' : String) (k k' : Int) :
    R.Simulates S (Run.fail i message k : Run α γ) (Run.fail i' message' k') :=
  .stop (.fault _ _)

theorem failAt (t t' : Token) (message message' : String) :
    R.Simulates S (Run.failAt t message : Run α γ) (Run.failAt t' message') :=
  .fail _ _ _ _ _ _

theorem ofExcept {a : Except Fault γ} {b : Except Fault δ} (h : SameAnswer S a b) :
    R.Simulates S (Run.ofExcept a : Run α γ) (Run.ofExcept b) := by
  cases h with
  | ok hv => exact .pure hv
  | error _ => exact .stop (.fault _ _)

theorem orStop {a : Except Stop γ} {b : Except Stop δ} (h : SameResult Stops S a b) :
    R.Simulates S (Run.orStop a : Run α γ) (Run.orStop b) := by
  cases h with
  | ok hv => exact .pure hv
  | error he => exact .stop he

theorem ofResult (t t' : Token) (r : Except Failure γ) :
    R.Simulates Eq (Run.ofResult t r : Run α γ) (Run.ofResult t' r) := by
  refine .orStop ?_
  cases r with
  | ok v => exact .ok rfl
  | error f => exact .error (.ofFailure _ _ _ _ f)

theorem ofModify {k l : Machine α → Machine α}
    (h : ∀ m n, R.Mirrors m n → R.Mirrors (k m) (l n)) :
    R.Simulates Eq (modify k : Run α Unit) (modify l) :=
  fun m n hm => .ok rfl (h m n hm)

end Simulates

section Access

variable {m n : Machine α}

theorem Mirrors.isFunction_eq (h : R.Mirrors m n) (scope : Scope) :
    (fun name => (n.frames.get scope name).any Binding.isFunction) =
      fun name => (m.frames.get scope name).any Binding.isFunction := by
  funext name
  have hg := h.frames.get scope name
  generalize m.frames.get scope name = x at hg ⊢
  generalize n.frames.get scope name = y at hg ⊢
  cases hg with
  | none => rfl
  | some hb => exact hb.isFunction_eq.symm

theorem lookup_like (scope : Scope) (name : String) :
    R.Simulates (Option.Rel R.Alike) (Run.lookup scope name : Run α _) (Run.lookup scope name) :=
  fun _ _ hm => .ok (hm.frames.get scope name) hm

theorem find_like (scope : Scope) (name : String) :
    R.Simulates (Option.Rel (fun x y => x.1 = y.1 ∧ R.Alike x.2 y.2))
      (Run.find scope name : Run α _) (Run.find scope name) :=
  fun _ _ hm => .ok (hm.frames.find scope name) hm

theorem child_like (scope : Scope) :
    R.Simulates Eq (Run.child scope : Run α Scope) (Run.child scope) := by
  intro m n hm
  refine .ok ?_ { hm with frames := hm.frames.child scope }
  show m.frames.frames.size :: scope = n.frames.frames.size :: scope
  rw [hm.frames.size]

theorem declare_like (owner : Nat) (name : String) {b c : Binding α} (hb : R.Alike b c) :
    R.Simulates Eq (Run.declare owner name b) (Run.declare owner name c) :=
  .ofModify (fun _ _ hm => { hm with frames := hm.frames.declare owner name hb })

theorem declareIn_like (scope : Scope) (name : String) {b c : Binding α} (hb : R.Alike b c) :
    R.Simulates Eq (Run.declareIn scope name b) (Run.declareIn scope name c) :=
  .ofModify (fun _ _ hm => { hm with frames := hm.frames.declareIn scope name hb })

theorem record_like {s s' : Statement} {out out' : List (Output α)} (hk : s.kind = s'.kind)
    (ho : out.map Output.value? = out'.map Output.value?) :
    R.Simulates Eq (Run.record s out) (Run.record s' out') := by
  refine .ofModify (fun m n hm => { hm with records := ?_ })
  simp only [Array.toList_push]
  exact List.rel_append hm.records (.cons (.of_values hk ho) .nil)

theorem setStatement_like (text text' : String) :
    R.Simulates Eq (modify (fun m => { m with statement := text }) : Run α Unit)
      (modify (fun m => { m with statement := text' })) :=
  .ofModify (fun _ _ hm => { hm with })

/-- Lines for those who debug are not compared. -/
theorem debug_like (a b : Setup α) (level : Int) (line line' : Unit → String) :
    R.Simulates Eq (Run.debug a level line) (Run.debug b level line') := by
  rw [Run.debug_eq, Run.debug_eq]
  exact .ofModify (fun _ _ hm => { hm with })

/-- A line that one run has no text for the other one has no text for either. -/
theorem debugText_like {a b : Setup α} (h : a.debugLevel = b.debugLevel) (level : Int)
    (line : Unit → Except Failure String) :
    R.Simulates Eq (Run.debugText a level line) (Run.debugText b level line) := by
  unfold Run.debugText
  rw [h]
  split
  · split
    · exact debug_like a b level _ _
    · exact .stop (.defect _)
  · exact .done ()

theorem block_like {a b : Setup α} (ha : a.remembers = false) (hb : b.remembers = false)
    (key key' : Int × Int) {x y : Except Fault (List Statement)}
    (h : SameAnswer (List.Forall₂ R.Says) x y) :
    R.Simulates (List.Forall₂ R.Says) (Run.block a key x) (Run.block b key' y) := by
  intro m n hm
  rw [Run.block_eq, Run.block_eq, ha, hb]
  cases h with
  | ok hB => exact .ok hB { hm with }
  | error _ => exact .error (.fault _ _) hm.records

/-- What is done before something, or left out on both sides. -/
theorem when_like {S : γ → δ → Prop} (top : Bool) {x y : Run α Unit} (hx : R.Simulates Eq x y)
    {k : Run α γ} {l : Run α δ} (hk : R.Simulates S k l) :
    R.Simulates S (if top then do x; k else k) (if top then do y; l else l) := by
  cases top with
  | false => exact hk
  | true => exact hx.bind (fun _ _ _ => hk)

end Access

end Abacus.Rendering
