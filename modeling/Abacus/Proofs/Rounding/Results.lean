import Abacus.Proofs.Exact.Products
import Abacus.Proofs.Replay
import Abacus.Proofs.Rounding.Precision
import Mathlib.Logic.Relation

/-! What the operators and the built-in functions of decimal numbers with a precision give, after
any calls. Rounding to an integer does not round to the precision. -/

namespace Abacus

namespace Decimal

open Number

/-- The factorials that are kept have at most `p` digits. -/
def KeptWithin (p : Nat) (r : Resources Decimal) : Prop :=
  ∀ e ∈ r.factorials, Within p e.2

/-- A function that gives what `Q` says, and keeps factorials with `p` digits at most. -/
def Gives (p : Nat) (Q : Decimal → Prop) (run : EStateM Failure (Resources Decimal) Decimal) : Prop :=
  ∀ r, KeptWithin p r → match run r with
    | .ok v r' => Q v ∧ KeptWithin p r'
    | .error _ r' => KeptWithin p r'

variable {p : Nat} {Q : Decimal → Prop}

theorem Gives.liftResult {x : Except Failure Decimal} (h : ∀ v, x = .ok v → Q v) :
    Gives p Q (Arithmetic.liftResult x) := by
  intro r hr
  cases x with
  | ok v => exact ⟨h v rfl, hr⟩
  | error f => exact hr

theorem unary_gives (name : String) {f : Decimal → Except Failure Decimal}
    (h : ∀ x v, f x = .ok v → Q v) (args : List Decimal) :
    Gives p Q ((Arithmetic.unary name f).run args) := by
  match args with
  | [] => exact fun r hr => hr
  | x :: _ => exact .liftResult (h x)

theorem binary_gives (name : String) {f : Decimal → Decimal → Except Failure Decimal}
    (h : ∀ x y v, f x y = .ok v → Q v) (args : List Decimal) :
    Gives p Q ((Arithmetic.binary name f).run args) := by
  match args with
  | [] => exact fun r hr => hr
  | [_] => exact fun r hr => hr
  | x :: y :: _ => exact .liftResult (h x y)

theorem variadic_gives (name : String) {f : List Decimal → Except Failure Decimal}
    (h : ∀ xs v, f xs = .ok v → Q v) (args : List Decimal) :
    Gives p Q ((Arithmetic.variadic name f).run args) :=
  .liftResult (h args)

theorem extendFactorials_within (hp : 0 < p) (steps k : Nat) {value : Decimal}
    {known : List (Nat × Decimal)} (hvalue : Within p value) (hknown : ∀ e ∈ known, Within p e.2) :
    Within p ((arithmetic p).extendFactorials steps k value known).1 ∧
      ∀ e ∈ ((arithmetic p).extendFactorials steps k value known).2, Within p e.2 := by
  induction steps generalizing k value known with
  | zero => exact ⟨hvalue, hknown⟩
  | succ steps ih =>
    have hnext := multiply_within hp value (ofInt (k + 1))
    exact ih (k + 1) hnext (List.forall_mem_cons.mpr ⟨hnext, hknown⟩)

theorem lookup_within {known : List (Nat × Decimal)} (h : ∀ e ∈ known, Within p e.2) {n : Nat}
    {v : Decimal} (hv : known.lookup n = some v) : Within p v := by
  obtain ⟨before, after, rfl, -⟩ := List.lookup_eq_some_iff.mp hv
  exact h (n, v) (List.mem_append_right before List.mem_cons_self)

theorem factorialOf_within (hp : 0 < p) (n : Nat) {known : List (Nat × Decimal)}
    (h : ∀ e ∈ known, Within p e.2) :
    Within p ((arithmetic p).factorialOf n known).1 ∧
      ∀ e ∈ ((arithmetic p).factorialOf n known).2, Within p e.2 := by
  unfold Arithmetic.factorialOf
  split
  · next v hv => exact ⟨lookup_within h hv, h⟩
  · refine extendFactorials_within hp _ _ ?_ h
    cases hk : known.lookup ((known.filter (·.1 < n)).foldl (fun m e => max m e.1) 0) with
    | none => exact .finite_one hp _ _
    | some v => exact lookup_within h hk

theorem factorial_gives (hp : 0 < p) (x : Decimal) :
    Gives p (Within p) ((arithmetic p).factorial x) := by
  intro r hr
  rcases (arithmetic p).factorial_cases x with ⟨f, hf⟩ | ⟨n, hn⟩
  · rw [hf]
    exact hr
  · rw [hn]
    exact factorialOf_within hp n hr

theorem random_within (hp : 0 < p) (g : Generator) :
    ∃ v g', random p g = .ok v g' ∧ Within p v := by
  unfold random
  dsimp only
  rw [draw_ok]
  exact ⟨_, _, rfl, scaled_within hp _⟩

theorem drawRandom_gives (hp : 0 < p) : Gives p (Within p) (arithmetic p).drawRandom := by
  intro r hr
  obtain ⟨v, g', hrandom, hv⟩ := random_within hp r.generator
  have hdraw := Arithmetic.drawRandom_eq (arithmetic p) r
  rw [show (arithmetic p).random = random p from rfl, hrandom] at hdraw
  rw [hdraw]
  exact ⟨hv, hr⟩

theorem readInput_gives : Gives p (fun _ => True) (arithmetic p).readInput := by
  rintro ⟨generator, factorials, inputs⟩ hr
  cases inputs with
  | nil => exact hr
  | cons text rest =>
    rw [Arithmetic.readInput_cons]
    cases (arithmetic p).parse (Text.trimmed text) with
    | ok x => exact ⟨trivial, hr⟩
    | error f => exact hr

/-- The functions whose results are operands, or integers that are not rounded. -/
def unrounded : List String :=
  ["min", "max", "input", "round", "ceil", "floor"]

def IsRounded (p : Nat) (name : String) (v : Decimal) : Prop :=
  name ∉ unrounded → Within p v

theorem IsRounded.exempt {name : String} (h : name ∈ unrounded) (v : Decimal) :
    IsRounded p name v :=
  fun hname => absurd h hname

theorem Gives.mono {R : Decimal → Prop} (hQ : ∀ v, Q v → R v)
    {run : EStateM Failure (Resources Decimal) Decimal} (h : Gives p Q run) : Gives p R run := by
  intro r hr
  have hrun := h r hr
  generalize run r = result at hrun ⊢
  cases result with
  | ok v r' => exact ⟨hQ v hrun.1, hrun.2⟩
  | error f r' => exact hrun

theorem sign_within (hp : 0 < p) {x v : Decimal} (h : (arithmetic p).sign x = .ok v) :
    Within p v := by
  change Arithmetic.orderedSign (fun x y => .ok (x.order? y)) zero ofInt x = .ok v at h
  unfold Arithmetic.orderedSign at h
  simp only [bind, Except.bind] at h
  split at h
  · cases h
  · cases h
    exact .finite_one hp _ _
  · cases h
    exact .finite_zero hp _ _
  · cases h
    exact .finite_one hp _ _

theorem modulo_within (hp : 0 < p) {x y v : Decimal} (h : (arithmetic p).modulo x y = .ok v) :
    Within p v := by
  change (do
    let r ← Except.ok (remainder p x y)
    if isZero r then return r
    else
      let s ← Except.ok (r.order? zero)
      let t ← Except.ok (y.order? zero)
      return if s == t then r else add p r y) = .ok v at h
  simp only [bind, Except.bind, pure, Except.pure] at h
  split at h
  · cases h
    exact remainder_within hp x y
  · cases h
    split
    · exact remainder_within hp x y
    · exact add_within hp _ y

theorem foldl_add_within (hp : 0 < p) (xs : List Decimal) {total : Decimal}
    (h : Within p total) : Within p (xs.foldl (add p) total) := by
  induction xs generalizing total with
  | nil => exact h
  | cons x xs ih => exact ih (add_within hp total x)

theorem shared_gives (hp : 0 < p) {b : Builtin Decimal} (hb : b ∈ (arithmetic p).shared)
    (args : List Decimal) : Gives p (IsRounded p b.name) (b.run args) := by
  have hrounded : ∀ {name : String} {v : Decimal}, Within p v → IsRounded p name v :=
    fun h _ => h
  simp only [Arithmetic.shared, List.mem_cons, List.not_mem_nil, or_false] at hb
  rcases hb with rfl | rfl | rfl | rfl | rfl | rfl | rfl | rfl | rfl | rfl | rfl | rfl | rfl | rfl
  · exact unary_gives _ (fun x v h => Except.ok.inj h ▸ hrounded (round_within hp _)) args
  · exact unary_gives _ (fun _ v _ => .exempt (show "round" ∈ unrounded by decide) v) args
  · exact unary_gives _ (fun _ v _ => .exempt (show "ceil" ∈ unrounded by decide) v) args
  · exact unary_gives _ (fun _ v _ => .exempt (show "floor" ∈ unrounded by decide) v) args
  · exact unary_gives _ (fun _ _ h => hrounded (sign_within hp h)) args
  · exact unary_gives _ (fun x v h => Except.ok.inj h ▸ hrounded (sqrt_within hp x)) args
  · exact unary_gives _ (fun x v h => hrounded (cubeRoot_within hp x h)) args
  · exact variadic_gives _ (fun _ v _ => .exempt (show "min" ∈ unrounded by decide) v) args
  · exact variadic_gives _ (fun _ v _ => .exempt (show "max" ∈ unrounded by decide) v) args
  · exact variadic_gives _ (fun xs v h =>
      Except.ok.inj h ▸ hrounded (foldl_add_within hp xs (.finite_zero hp _ _))) args
  · exact (drawRandom_gives hp).mono (fun _ => hrounded)
  · cases args with
    | nil => exact fun r hr => hr
    | cons x _ => exact (factorial_gives hp x).mono (fun _ => hrounded)
  · exact binary_gives _ (fun _ _ _ h => hrounded (modulo_within hp h)) args
  · exact readInput_gives.mono (fun v _ => .exempt (show "input" ∈ unrounded by decide) v)

theorem builtin_gives (hp : 0 < p) {b : Builtin Decimal} (hb : b ∈ (system p).builtins)
    (args : List Decimal) : Gives p (IsRounded p b.name) (b.run args) := by
  have hrounded : ∀ {name : String} {v : Decimal}, Within p v → IsRounded p name v :=
    fun h _ => h
  rcases List.mem_append.mp hb with hshared | hown
  · exact shared_gives hp hshared args
  · simp only [List.cons_append, List.nil_append, List.mem_cons, List.mem_append, List.mem_map,
      List.not_mem_nil, or_false] at hown
    rcases hown with rfl | rfl | rfl | ⟨⟨name, f⟩, -, rfl⟩ | rfl
    · exact unary_gives _ (fun x v h => Except.ok.inj h ▸ hrounded (exp_within hp x)) args
    · exact unary_gives _ (fun x v h => Except.ok.inj h ▸ hrounded (ln_within hp x)) args
    · exact unary_gives _ (fun x v h => Except.ok.inj h ▸ hrounded (log10_within hp x)) args
    · exact unary_gives _ (fun x v h => hrounded (ofBinary_within hp _ h)) args
    · exact variadic_gives _ (fun xs v h => Except.ok.inj h ▸ hrounded (hypot_within hp xs)) args

theorem boolean_within (hp : 0 < p) (b : Bool) : Within p ((arithmetic p).boolean b) := by
  cases b with
  | false => exact .finite_zero hp _ _
  | true => exact .finite_one hp _ _

theorem basic_within (hp : 0 < p) {x y v : Decimal} {op : String}
    (h : (system p).basic x op y = .ok v) : Within p v := by
  change (arithmetic p).basic x op y = .ok v at h
  unfold Arithmetic.basic at h
  dsimp only at h
  split at h
  · exact Except.ok.inj h ▸ add_within hp x y
  · exact Except.ok.inj h ▸ add_within hp x _
  · exact Except.ok.inj h ▸ multiply_within hp x y
  · exact Except.ok.inj h ▸ divide_within hp x y
  · exact Except.ok.inj h ▸ remainder_within hp x y
  · exact Except.ok.inj h ▸ powerOf_within hp x y
  · exact Except.ok.inj h ▸ boolean_within hp _
  · exact Except.ok.inj h ▸ boolean_within hp _
  · exact Except.ok.inj h ▸ boolean_within hp _
  · exact Except.ok.inj h ▸ boolean_within hp _
  · exact Except.ok.inj h ▸ boolean_within hp _
  · exact Except.ok.inj h ▸ boolean_within hp _
  · cases h

/-- One call of a built-in function, successful or not. -/
def Calls (p : Nat) (r r' : Resources Decimal) : Prop :=
  ∃ b ∈ (system p).builtins, ∃ args,
    (∃ v, b.run args r = .ok v r') ∨ ∃ f, b.run args r = .error f r'

theorem Calls.keptWithin (hp : 0 < p) {r r' : Resources Decimal} (h : Calls p r r')
    (hr : KeptWithin p r) : KeptWithin p r' := by
  obtain ⟨b, hb, args, ⟨v, hv⟩ | ⟨f, hf⟩⟩ := h
  · have hgives := builtin_gives hp hb args r hr
    rw [hv] at hgives
    exact hgives.2
  · have hgives := builtin_gives hp hb args r hr
    rw [hf] at hgives
    exact hgives

/-- What a backend has left after any calls. -/
def Reached (p : Nat) (seed : Int) (inputs : List String) : Resources Decimal → Prop :=
  Relation.ReflTransGen (Calls p) ((system p).resources seed inputs)

theorem Reached.keptWithin (hp : 0 < p) {seed : Int} {inputs : List String} {r : Resources Decimal}
    (h : Reached p seed inputs r) : KeptWithin p r := by
  induction h with
  | refl => exact List.forall_mem_singleton.mpr (.finite_one hp _ _)
  | tail _ hcall ih => exact hcall.keptWithin hp ih

/-- Operators round what they give, and so do all functions but those that give an operand back or
round to an integer. These have no more digits than their operand, and give an integer without
fractional digits back as it is. -/
theorem results_within (seed : Int) (inputs : List String) (hp : 0 < p) :
    (∀ x op y v, (system p).basic x op y = .ok v → Within p v) ∧
    (∀ r, Reached p seed inputs r → ∀ b ∈ (system p).builtins, b.name ∉ unrounded →
      ∀ args v r', b.run args r = .ok v r' → Within p v) ∧
    ∀ name ∈ ["round", "ceil", "floor"], ∃ b, (system p).builtin? name = some b ∧
      ∀ x r, ∃ v, b.run [x] r = .ok v r ∧ (∀ n, Within n x → Within n v) ∧
        ∀ s c e, x = .finite s c e → 0 ≤ e → v = x := by
  refine ⟨fun _ _ _ _ => basic_within hp, fun r hr b hb hname args v r' hrun => ?_, ?_⟩
  · have hgives := builtin_gives hp hb args r (hr.keptWithin hp)
    rw [hrun] at hgives
    exact hgives.1 hname
  · have hinteger : ∀ (mode : Rounding) (x : Decimal) (r : Resources Decimal), ∃ v,
        (Arithmetic.liftResult (.ok (x.toIntegral mode)) :
          EStateM Failure (Resources Decimal) Decimal) r = .ok v r ∧
        (∀ n, Within n x → Within n v) ∧ ∀ s c e, x = .finite s c e → 0 ≤ e → v = x := by
      refine fun mode x r => ⟨_, rfl, fun n => toIntegral_within mode, ?_⟩
      rintro s c e rfl he
      exact if_pos he
    intro name hname
    simp only [List.mem_cons, List.not_mem_nil, or_false] at hname
    rcases hname with rfl | rfl | rfl
    · exact ⟨_, rfl, hinteger .halfUp⟩
    · exact ⟨_, rfl, hinteger .ceiling⟩
    · exact ⟨_, rfl, hinteger .floor⟩

/-- With three digits `12345 * 7` has three, and the floor of `1234.5` has four. -/
theorem product_within :
    (∃ v, (system 3).basic (ofNat 12345) "*" (ofNat 7) = .ok v ∧ Within 3 v) ∧
      ∃ b v, (system 3).builtin? "floor" = some b ∧
        b.run [.finite false 12345 (-1)] ((system 3).resources 0 []) =
          .ok v ((system 3).resources 0 []) ∧ Within 5 v := by
  obtain ⟨hbasic, -, hinteger⟩ := results_within 0 [] (show 0 < 3 by decide)
  obtain ⟨b, hb, hfloor⟩ := hinteger "floor" (by decide)
  obtain ⟨v, hv, hdigits, -⟩ := hfloor (.finite false 12345 (-1)) ((system 3).resources 0 [])
  exact ⟨⟨_, rfl, hbasic (ofNat 12345) "*" (ofNat 7) _ rfl⟩, b, v, hb, hv,
    hdigits 5 (.finite (by decide) _ _)⟩

/-- With three digits, the integer next to 12345 has five. -/
theorem integer_not_within :
    ∃ b v, (system 3).builtin? "round" = some b ∧
      b.run [ofNat 12345] ((system 3).resources 0 []) = .ok v ((system 3).resources 0 []) ∧
      v.isFinite = true ∧ ¬ Within 3 v := by
  refine ⟨_, _, rfl, rfl, rfl, fun h => ?_⟩
  exact absurd h.digits (by decide)

end Decimal

end Abacus
