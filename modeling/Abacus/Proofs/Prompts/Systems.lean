import Abacus.Proofs.Replay

/-! Built-in functions with one more text behind those that they may read. Of all that the four number
systems do, only `input` asks for a text, and a text that is no number makes it fail. The empty text
is a number in none of them. -/

namespace Abacus

variable {α β : Type}

/-- A result, or a failure for another reason than the want of a text. -/
def Definite (x : Except Failure β) : Prop :=
  ∀ f, x = .error f → f ≠ .inputRequired

namespace Definite

theorem ok (v : β) : Definite (.ok v : Except Failure β) :=
  nofun

theorem error {f : Failure} (h : f ≠ .inputRequired) : Definite (.error f : Except Failure β) := by
  rintro _ ⟨⟩
  exact h

theorem bind {γ : Type} {x : Except Failure β} {g : β → Except Failure γ} (hx : Definite x)
    (hg : ∀ v, Definite (g v)) : Definite (x >>= g) := by
  cases x with
  | ok v => exact hg v
  | error f => exact .error (hx f rfl)

theorem map {γ : Type} {x : Except Failure β} (hx : Definite x) (g : β → γ) :
    Definite (x.map g) := by
  cases x with
  | ok v => exact .ok _
  | error f => exact .error (hx f rfl)

theorem mapError {ε : Type} (x : Except ε β) {g : ε → Failure} (hg : ∀ e, g e ≠ .inputRequired) :
    Definite (x.mapError g) := by
  cases x with
  | ok v => exact .ok v
  | error e => exact .error (hg e)

end Definite

theorem readDigits_definite (limit : Option Nat) (ds : List Char) :
    Definite (readDigits limit ds) := by
  unfold readDigits
  split
  · split
    · exact .error nofun
    · exact .ok _
  · exact .ok _

theorem integerText_definite (limit : Option Nat) (n : Int) : Definite (integerText limit n) := by
  unfold integerText
  split
  · split
    · exact .error nofun
    · exact .ok _
  · exact .ok _

/-- A run of a built-in function never lacks a text. -/
def NeverAsks (x : EStateM Failure (Resources α) α) : Prop :=
  ∀ r r', x r ≠ .error .inputRequired r'

namespace NeverAsks

theorem liftResult {x : Except Failure α} (h : Definite x) :
    NeverAsks (Arithmetic.liftResult x : EStateM Failure (Resources α) α) := by
  intro r r' hx
  cases x with
  | ok v => cases hx
  | error f =>
    cases hx
    exact h _ rfl rfl

theorem throw {f : Failure} (h : f ≠ .inputRequired) :
    NeverAsks (throw f : EStateM Failure (Resources α) α) := by
  rintro r r' ⟨⟩
  exact h rfl

theorem unary (name : String) {f : α → Except Failure α} (h : ∀ x, Definite (f x))
    (args : List α) : NeverAsks ((Arithmetic.unary name f).run args) := by
  match args with
  | [] => exact .throw nofun
  | x :: _ => exact .liftResult (h x)

theorem binary (name : String) {f : α → α → Except Failure α} (h : ∀ x y, Definite (f x y))
    (args : List α) : NeverAsks ((Arithmetic.binary name f).run args) := by
  match args with
  | [] => exact .throw nofun
  | [_] => exact .throw nofun
  | x :: y :: _ => exact .liftResult (h x y)

theorem variadic (name : String) {f : List α → Except Failure α} (h : ∀ xs, Definite (f xs))
    (args : List α) : NeverAsks ((Arithmetic.variadic name f).run args) :=
  .liftResult (h args)

end NeverAsks

namespace Arithmetic

/-- None of the operations asks for a text. -/
structure Definite (a : Arithmetic α) : Prop where
  parse : ∀ text, Abacus.Definite (a.parse text)
  format : ∀ x, Abacus.Definite (a.format x)
  toCount : ∀ x, Abacus.Definite (a.toCount x)
  divide : ∀ x y, Abacus.Definite (a.divide x y)
  remainder : ∀ x y, Abacus.Definite (a.remainder x y)
  power : ∀ x y, Abacus.Definite (a.power x y)
  compare : ∀ x y, Abacus.Definite (a.compare x y)
  sign : ∀ x, Abacus.Definite (a.sign x)
  sqrt : ∀ x, Abacus.Definite (a.sqrt x)
  cbrt : ∀ x, Abacus.Definite (a.cbrt x)
  random : ∀ g f g', a.random g = .error f g' → f ≠ .inputRequired

namespace Definite

variable {a : Arithmetic α} (ha : a.Definite)

include ha

theorem basic (x : α) (op : String) (y : α) : Abacus.Definite (a.basic x op y) := by
  have hrelation : ∀ holds : Ordering → Bool, Abacus.Definite (do
      let order ← a.compare x y
      return a.boolean (order.any holds)) := fun _ => (ha.compare x y).bind (fun _ => .ok _)
  unfold Arithmetic.basic
  dsimp only
  split
  · exact .ok _
  · exact .ok _
  · exact .ok _
  · exact ha.divide x y
  · exact ha.remainder x y
  · exact ha.power x y
  · exact .ok _
  · exact .ok _
  · exact hrelation _
  · exact hrelation _
  · exact hrelation _
  · exact hrelation _
  · exact .error nofun

theorem extreme (name : String) (better : Ordering → Bool) (xs : List α) :
    Abacus.Definite (a.extreme name better xs) := by
  cases xs with
  | nil => exact .error nofun
  | cons x rest =>
    rw [Arithmetic.extreme]
    induction rest generalizing x with
    | nil => exact .ok x
    | cons y rest ih =>
      refine (ha.compare y x).bind (fun order => ?_)
      cases order with
      | none => exact .error nofun
      | some order => exact ih _

theorem modulo (x y : α) : Abacus.Definite (a.modulo x y) := by
  refine (ha.remainder x y).bind (fun r => ?_)
  split
  · exact .ok _
  · exact (ha.compare _ _).bind (fun _ => (ha.compare _ _).bind (fun _ => .ok _))

theorem factorial (x : α) : NeverAsks (a.factorial x) := by
  intro r r' h
  unfold Arithmetic.factorial at h
  cases hi : a.isInteger x with
  | false =>
    rw [hi] at h
    cases h
  | true =>
    rw [hi] at h
    dsimp only [Bool.not_true] at h
    have hcompare := ha.compare x a.zero
    have hcount := ha.toCount x
    generalize a.compare x a.zero = order at hcompare h
    generalize a.toCount x = count at hcount h
    rcases order with f | (_ | _ | _ | _)
    · cases h
      exact hcompare _ rfl rfl
    · cases count with
      | ok n => cases h
      | error f =>
        cases h
        exact hcount _ rfl rfl
    · cases h
    all_goals
      cases count with
      | ok n => cases h
      | error f =>
        cases h
        exact hcount _ rfl rfl

theorem drawRandom : NeverAsks a.drawRandom := by
  intro r r' h
  rw [Arithmetic.drawRandom_eq] at h
  cases hr : a.random r.generator with
  | ok x g =>
    rw [hr] at h
    cases h
  | error f g =>
    rw [hr] at h
    cases h
    exact ha.random _ _ _ hr rfl

theorem fac (args : List α) : NeverAsks (a.fac.run args) := by
  cases args with
  | nil => exact .throw nofun
  | cons x _ => exact ha.factorial x

/-- All shared functions but `input` need no text. -/
theorem shared : ∀ b ∈ a.shared, ∀ args, b.run args = a.readInput ∨ NeverAsks (b.run args) := by
  simp only [Arithmetic.shared, List.forall_mem_cons]
  exact ⟨fun _ => .inr (.unary "abs" (fun _ => .ok _) _),
    fun _ => .inr (.unary "round" (fun _ => .ok _) _),
    fun _ => .inr (.unary "ceil" (fun _ => .ok _) _),
    fun _ => .inr (.unary "floor" (fun _ => .ok _) _), fun _ => .inr (.unary "sign" ha.sign _),
    fun _ => .inr (.unary "sqrt" ha.sqrt _), fun _ => .inr (.unary "cbrt" ha.cbrt _),
    fun _ => .inr (.variadic "min" (ha.extreme _ _) _),
    fun _ => .inr (.variadic "max" (ha.extreme _ _) _),
    fun _ => .inr (.variadic "sum" (fun _ => .ok _) _), fun _ => .inr ha.drawRandom,
    fun _ => .inr (ha.fac _), fun _ => .inr (.binary "mod" ha.modulo _), fun _ => .inl trivial,
    fun _ hx => (List.not_mem_nil hx).elim⟩

end Definite

theorem orderedSign_definite {compare : α → α → Except Failure (Option Ordering)}
    (h : ∀ x y, Abacus.Definite (compare x y)) (zero : α) (fromInt : Int → α) (x : α) :
    Abacus.Definite (orderedSign compare zero fromInt x) := by
  refine (h x zero).bind (fun order => ?_)
  rcases order with _ | _ | _ | _
  · exact .error nofun
  · exact .ok _
  · exact .ok _
  · exact .ok _

end Arithmetic

/-- The same failure, for another reason than the want of a text. -/
def Failure.Same (f g : Failure) : Prop :=
  f = g ∧ f ≠ .inputRequired

/-- What becomes of a run of a built-in function if `text` stands behind the texts to be read: it is
the same, or it fails where it lacked a text. -/
def Declines (text : String) (x : EStateM Failure (Resources α) α) : Prop :=
  ∀ r, Draws False Eq Failure.Same (fun r t => t = r.feed [text]) (x r) (x (r.feed [text])) ∨
    Declined (· = .invalidInput (Text.trimmed text)) (x r) (x (r.feed [text]))

theorem ReadsInOrder.draws {may : Prop} {x : EStateM Failure (Resources α) α}
    (h : ReadsInOrder may x) (hx : NeverAsks x) (text : String) (r : Resources α) :
    Draws False Eq Failure.Same (fun r t => t = r.feed [text]) (x r) (x (r.feed [text])) := by
  have hd := h [text] r
  have hr := hx r
  generalize x r = u at hd hr ⊢
  generalize x (r.feed [text]) = w at hd ⊢
  cases hd with
  | ok hv ht => exact .ok hv ht
  | @error f g r t hf ht =>
    refine .error ⟨hf, ?_⟩ ht
    rintro rfl
    exact hr r rfl
  | @lacking _ r _ => exact absurd rfl (hr r)

theorem Arithmetic.readInput_declines (a : Arithmetic α) {text : String} {f : Failure}
    (h : a.parse (Text.trimmed text) = .error f) : Declines text a.readInput := by
  rintro ⟨generator, factorials, inputs⟩
  cases inputs with
  | nil =>
    have hfeed : (⟨generator, factorials, []⟩ : Resources α).feed [text] =
        ⟨generator, factorials, [text]⟩ := rfl
    have hnil : a.readInput ⟨generator, factorials, []⟩ =
        .error .inputRequired ⟨generator, factorials, []⟩ := rfl
    rw [hfeed, hnil, Arithmetic.readInput_cons, h]
    right
    constructor
    · rfl
    · nofun
  | cons first rest =>
    have hfeed : (⟨generator, factorials, first :: rest⟩ : Resources α).feed [text] =
        ⟨generator, factorials, first :: (rest ++ [text])⟩ := rfl
    rw [hfeed, Arithmetic.readInput_cons, Arithmetic.readInput_cons]
    cases a.parse (Text.trimmed first) with
    | ok x => exact .inl (.ok rfl rfl)
    | error f => exact .inl (.error ⟨rfl, nofun⟩ rfl)

/-- A number system in which a text is no number, and in which nothing but `input` asks for texts. -/
structure NumberSystem.Rejects (s : NumberSystem α) (text : String) : Prop where
  parse : ∀ text, Definite (s.parse text)
  format : ∀ v, Definite (s.format v)
  toCount : ∀ v, Definite (s.toCount v)
  basic : ∀ v op w, Definite (s.basic v op w)
  builtins : ∀ b ∈ s.builtins, ∀ args, Declines text (b.run args)
  factorial : ∀ b, s.builtin? "fac" = some b → ∀ v r,
    Draws False Eq Failure.Same (fun r t => t = r.feed [text]) (b.run [v] r)
      (b.run [v] (r.feed [text]))

theorem Arithmetic.Definite.system {a : Arithmetic α} (ha : a.Definite) {text : String}
    {f : Failure} (hparse : a.parse (Text.trimmed text) = .error f) {constants : List (String × α)}
    {own : List (Builtin α)} (hs : (a.system constants own).Sequential)
    (hown : ∀ b ∈ own, ∀ args, NeverAsks (b.run args)) :
    (a.system constants own).Rejects text where
  parse := ha.parse
  format := ha.format
  toCount := ha.toCount
  basic := ha.basic
  builtins b hb args := by
    have hcases : b.run args = a.readInput ∨ NeverAsks (b.run args) := by
      rcases List.mem_append.mp hb with hb | hb
      · exact ha.shared b hb args
      · exact .inr (hown b hb args)
    rcases hcases with hinput | hnever
    · rw [hinput]
      exact a.readInput_declines hparse
    · exact fun r => .inl ((hs.builtins b hb args).draws hnever text r)
  factorial b hb v r := by
    have hf : (a.system constants own).builtin? "fac" = some a.fac := rfl
    obtain rfl := Option.some.inj (hb.symm.trans hf)
    exact (hs.factorial _ hb v).draws (ha.fac [v]) text r

theorem trimmed_empty : Text.trimmed "" = "" := by
  decide +kernel

namespace Bignumber

theorem parse_definite (text : String) : Definite (parse text) :=
  .mapError _ (fun e => by cases e <;> nofun)

theorem working_definite (digits : Int) : Definite (working digits) := by
  unfold working
  split
  · exact .ok _
  · exact .error nofun

theorem toCount_definite (x : Decimal) : Definite (toCount x) := by
  unfold toCount
  split
  · exact .ok _
  · exact .error nofun

theorem divide_definite (places : Int) (x y : Decimal) : Definite (divide places x y) := by
  unfold divide
  split
  · exact .ok _
  · exact (working_definite _).bind (fun _ => .ok _)

theorem power_definite (places : Int) (x y : Decimal) : Definite (power places x y) := by
  have hreal : Definite (powerReal places x y) := by
    refine (working_definite _).bind (fun _ => ?_)
    dsimp only
    split
    · exact (working_definite _).bind (fun _ => .ok _)
    · exact .ok _
  unfold power
  split
  · exact .ok _
  · split
    · split
      · exact .ok _
      · split
        · exact divide_definite _ _ _
        · exact .ok _
    · exact hreal

theorem definite (places : Int) : (arithmetic places).Definite where
  parse := parse_definite
  format _ := .ok _
  toCount := toCount_definite
  divide := divide_definite places
  remainder _ _ := .ok _
  power := power_definite places
  compare _ _ := .ok _
  sign := Arithmetic.orderedSign_definite (fun _ _ => .ok _) _ _
  sqrt x := by
    change Definite (sqrt places x)
    unfold sqrt
    split
    · exact (working_definite _).bind (fun _ => .ok _)
    · exact .ok _
  cbrt x := by
    change Definite (cbrt places x)
    unfold cbrt
    split
    · exact .ok _
    · exact (working_definite _).bind (fun _ => .ok _)
  random g f g' h := by
    change random places g = .error f g' at h
    unfold random at h
    split at h
    · cases h
      split <;> nofun
    · dsimp only at h
      cases (draw_ok _ _ g).symm.trans h

theorem parse_empty (places : Int) : (arithmetic places).parse "" = .error .malformedDecimal :=
  rfl

theorem system_rejects (places : Int) : (system places).Rejects "" := by
  refine (definite places).system (trimmed_empty ▸ parse_empty places)
    (system_sequential places) ?_
  simp only [List.forall_mem_cons]
  exact ⟨.unary "isFinite" (fun _ => .ok _), .unary "isNaN" (fun _ => .ok _),
    fun _ hx => (List.not_mem_nil hx).elim⟩

end Bignumber

namespace Fraction

theorem readBody_definite (limit : Option Nat) (text : String) (cs : List Char) :
    Definite (readBody limit text cs) := by
  unfold readBody
  dsimp only
  split
  · split
    · exact .error nofun
    · exact .error nofun
    · refine (readDigits_definite _ _).bind (fun n => (readDigits_definite _ _).bind (fun d => ?_))
      split
      · exact .error nofun
      · exact .ok _
  · split
    · split
      · exact .error nofun
      · exact (readDigits_definite _ _).bind (fun _ => (readDigits_definite _ _).bind (fun _ =>
          (readDigits_definite _ _).bind (fun _ => .ok _)))
    · split
      · exact .error nofun
      · exact (readDigits_definite _ _).bind (fun _ => (readDigits_definite _ _).bind (fun _ =>
          (readDigits_definite _ _).bind (fun _ => .ok _)))

theorem parse_definite (limit : Option Nat) (text : String) : Definite (parse limit text) := by
  have hbody := readBody_definite limit text
    (Decimal.splitSign ((Text.trim text.toList).map Text.plainDigit)).2
  unfold parse
  dsimp only
  split
  · exact .ok _
  · exact .error nofun
  · next hf => exact .error (hbody _ hf)

theorem format_definite (limit : Option Nat) (x : Rat) : Definite (format limit x) := by
  refine (integerText_definite _ _).bind (fun n => ?_)
  split
  · exact .ok _
  · exact (integerText_definite _ _).bind (fun _ => .ok _)

theorem divide_definite (x y : Rat) : Definite (divide x y) := by
  unfold divide
  split
  · exact .error nofun
  · exact .ok _

theorem power_definite (x y : Rat) : Definite (power x y) := by
  have hroot : ∀ (x : Rat) (p q : Nat), Definite (powerRoot x p q) := by
    intro x p q
    unfold powerRoot
    split
    · exact .ok _
    · exact .error nofun
  unfold power
  split
  · split
    · exact .error nofun
    · exact .ok _
  · split
    · exact (hroot _ _ _).bind (fun _ => divide_definite _ _)
    · exact hroot _ _ _

theorem definite (digits : Int) (limit : Option Nat) : (arithmetic digits limit).Definite where
  parse := parse_definite limit
  format := format_definite limit
  toCount _ := .ok _
  divide := divide_definite
  remainder x y := by
    change Definite (remainder x y)
    unfold remainder
    split
    · exact .error nofun
    · exact .ok _
  power := power_definite
  compare _ _ := .ok _
  sign := Arithmetic.orderedSign_definite (fun _ _ => .ok _) 0 (fun n => (n : Rat))
  sqrt x := power_definite x _
  cbrt x := power_definite x _
  random g f g' h := by
    change random digits g = .error f g' at h
    unfold random at h
    split at h
    · cases h
      split <;> nofun
    · dsimp only at h
      cases (draw_ok _ _ g).symm.trans h

theorem parse_empty (digits : Int) (limit : Option Nat) :
    (arithmetic digits limit).parse "" = .error (.malformedFraction "") :=
  rfl

theorem system_rejects (digits : Int) (limit : Option Nat) : (system digits limit).Rejects "" := by
  refine (definite digits limit).system (trimmed_empty ▸ parse_empty digits limit)
    (system_sequential digits limit) ?_
  simp only [List.forall_mem_cons]
  exact ⟨.binary "gcd" (fun _ _ => .ok _), .binary "lcm" (fun _ _ => .ok _),
    .unary "inverse" (divide_definite 1), fun _ hx => (List.not_mem_nil hx).elim⟩

end Fraction

namespace Decimal

theorem lifted_definite (precision : Nat) (f : Binary.Precision → Binary → Binary) (x : Decimal) :
    Definite (lifted precision f x) := by
  unfold lifted ofBinary
  dsimp only
  split
  · exact .ok _
  · exact .ok _
  · exact (Definite.mapError _ (fun e => by cases e <;> nofun)).map _

theorem definite (precision : Nat) : (arithmetic precision).Definite where
  parse := Bignumber.parse_definite
  format _ := .ok _
  toCount := Bignumber.toCount_definite
  divide _ _ := .ok _
  remainder _ _ := .ok _
  power _ _ := .ok _
  compare _ _ := .ok _
  sign := Arithmetic.orderedSign_definite (fun _ _ => .ok _) _ _
  sqrt _ := .ok _
  cbrt x := by
    change Definite (cubeRoot precision x)
    unfold cubeRoot
    split
    · exact (lifted_definite _ _ _).map _
    · exact lifted_definite _ _ _
  random g f g' h := by
    change random precision g = .error f g' at h
    unfold random at h
    dsimp only at h
    cases (draw_ok _ _ g).symm.trans h

theorem parse_empty (precision : Nat) :
    (arithmetic precision).parse "" = .error .malformedDecimal :=
  rfl

theorem system_rejects (precision : Nat) : (system precision).Rejects "" := by
  refine (definite precision).system (trimmed_empty ▸ parse_empty precision)
    (system_sequential precision) ?_
  simp only [List.forall_mem_append, List.forall_mem_cons]
  refine ⟨⟨⟨.unary "exp" (fun _ => .ok _), .unary "ln" (fun _ => .ok _),
    .unary "log" (fun _ => .ok _), fun _ hx => (List.not_mem_nil hx).elim⟩, fun b hb => ?_⟩,
    .variadic "hypot" (fun _ => .ok _), fun _ hx => (List.not_mem_nil hx).elim⟩
  obtain ⟨⟨name, f⟩, _, rfl⟩ := List.mem_map.mp hb
  exact .unary name (lifted_definite precision f)

end Decimal

namespace Complex

theorem real_definite (what : String) (z : Complex) : Definite (real what z) := by
  unfold real
  split
  · exact .ok _
  · exact .error nofun

theorem compare_definite (z w : Complex) : Definite (compare z w) :=
  (real_definite _ z).bind (fun _ => (real_definite _ w).bind (fun _ => .ok _))

theorem partText_definite (limit : Option Nat) (digits : Int) (x : Binary) :
    Definite (partText limit digits x) := by
  have hcheck : ∀ cs, Definite (checkExponent limit cs) := by
    intro cs
    unfold checkExponent
    split
    · split
      · exact .error nofun
      · exact .ok _
    · exact .ok _
  unfold partText
  split
  · exact .ok _
  · exact .ok _
  · split
    · exact .error nofun
    · refine (hcheck _).bind (fun _ => ?_)
      split
      · exact .ok _
      · exact .ok _

theorem text_definite (limit : Option Nat) (p : Binary.Precision) (digits : Int) (z : Complex) :
    Definite (text limit p digits z) := by
  unfold text
  dsimp only
  split
  · exact partText_definite _ _ _
  · split
    · refine (Definite.ok "").bind (fun _ => ?_)
      split
      · exact .ok _
      · exact (partText_definite _ _ _).bind (fun _ => .ok _)
    · refine (partText_definite _ _ _).bind (fun _ => ?_)
      split
      · exact .ok _
      · exact (partText_definite _ _ _).bind (fun _ => .ok _)

theorem parse_definite (limit : Option Nat) (p : Binary.Precision) (text : String) :
    Definite ((ofText limit p text).mapError failureOf) :=
  .mapError _ (fun e => by cases e <;> nofun)

theorem definite (precision : Int) (limit : Option Nat) :
    (arithmetic precision limit).Definite where
  parse text := by
    dsimp only [arithmetic]
    exact parse_definite limit _ text
  format z := by
    dsimp only [arithmetic]
    exact text_definite limit _ precision z
  toCount z := by
    refine (real_definite _ z).bind (fun x => ?_)
    split
    · exact .ok _
    · exact .error nofun
  divide z w := by
    change Definite (divide _ z w)
    unfold divide
    split
    · exact .error nofun
    · exact .ok _
  remainder z w := by
    refine (real_definite _ z).bind (fun x => (real_definite _ w).bind (fun y => ?_))
    split
    · exact .error nofun
    · exact .ok _
  power z w := by
    change Definite (power _ z w)
    unfold power
    split
    · exact .error nofun
    · exact .ok _
  compare := compare_definite
  sign _ := .ok _
  sqrt _ := .ok _
  cbrt _ := .ok _
  random g f g' h := by
    change random (.nearest (Binary.bitsFor precision)) g = .error f g' at h
    unfold random at h
    dsimp only at h
    cases (draw_ok _ _ g).symm.trans h

theorem parse_empty (precision : Int) (limit : Option Nat) :
    (arithmetic precision limit).parse "" = .error .malformedComplex := by
  cases limit <;> rfl

theorem system_rejects (precision : Int) (limit : Option Nat) :
    (system precision limit).Rejects "" := by
  refine (definite precision limit).system (trimmed_empty ▸ parse_empty precision limit)
    (system_sequential precision limit) ?_
  simp only [List.forall_mem_append, List.forall_mem_cons]
  refine ⟨fun b hb => ?_, .variadic "hypot" (fun _ => .ok _), .unary "isReal" (fun _ => .ok _),
    fun _ hx => (List.not_mem_nil hx).elim⟩
  obtain ⟨⟨name, f⟩, _, rfl⟩ := List.mem_map.mp hb
  exact .unary name (fun _ => .ok _)

end Complex

/-- The empty text is a number in none of the systems. -/
theorem Options.pick_rejects {o : Options} {any : AnySystem} (h : o.pick = .ok any) :
    any.system.Rejects "" := by
  rcases Options.pick_cases h with rfl | rfl | rfl | rfl
  · exact Bignumber.system_rejects _
  · exact Fraction.system_rejects _ _
  · exact Decimal.system_rejects _
  · exact Complex.system_rejects _ _

end Abacus
