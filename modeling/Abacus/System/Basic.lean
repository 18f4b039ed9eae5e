import Abacus.Number.Digits
import Abacus.Random
import Abacus.Text.Integer
import Abacus.Text.Printable

/-! Number systems. Scripts compute through this interface alone, so they run in the same way over
every kind of number. -/

namespace Abacus

inductive Failure where
  | divisionByZero
  | notRational
  | realOnly (what : String)
  | infiniteCount
  | unorderedSign
  | noArguments (name : String)
  | unordered (name : String)
  | noFactorial
  | unknownOperator (op : String)
  | invalidInput (text : String)
  | malformedDecimal
  | decimalOutOfRange
  | tooManyDigits
  | malformedFraction (text : String)
  | zeroDenominator (numerator : Int)
  | quotientByZero
  | malformedComplex
  | misplacedUnderscore (text : String)
  | noRange
  | emptyRange
  | missingArgument
  | inputRequired
  | unreadableInteger (limit digits : Nat)
  | unwritableInteger (limit : Nat)
  | noSuchDigit
  deriving DecidableEq

/-- What the host says if an integer has more decimal digits than it converts. -/
def conversionMessage (limit : Nat) (more : String) : String :=
  "Exceeds the limit (" ++ toString limit ++ " digits) for integer string conversion" ++ more ++
    "; use sys.set_int_max_str_digits() to increase the limit"

def Failure.message : Failure → String
  | .divisionByZero => "Division by zero"
  | .notRational => "The result is not a rational number"
  | .realOnly what => what ++ " is only defined for real numbers"
  | .infiniteCount => "Expected a finite repeat amount."
  | .unorderedSign => "sign expects an ordered number"
  | .noArguments name => name ++ " expects at least one argument"
  | .unordered name => name ++ " expects ordered numbers"
  | .noFactorial => "fac expects a non-negative integer"
  | .unknownOperator op => "Unknown operator: " ++ op
  | .invalidInput text => "Invalid input value: " ++ Text.quoted text
  | .malformedDecimal => "[<class 'decimal.ConversionSyntax'>]"
  | .decimalOutOfRange => "[<class 'decimal.InvalidOperation'>]"
  | .tooManyDigits => "valid range for prec is [1, MAX_PREC]"
  | .malformedFraction text => "Invalid literal for Fraction: " ++ Text.quoted text
  | .zeroDenominator n => "Fraction(" ++ toString n ++ ", 0)"
  | .quotientByZero => ""
  | .malformedComplex => "complex() arg is a malformed string"
  | .misplacedUnderscore text => "could not convert string to complex: " ++ Text.quoted text
  | .noRange => "non-integer arg 1 for randrange()"
  | .emptyRange => "empty range for randrange()"
  | .missingArgument => "list index out of range"
  | .inputRequired => ""
  | .unreadableInteger limit digits =>
    conversionMessage limit (": value has " ++ toString digits ++ " digits")
  | .unwritableInteger limit => conversionMessage limit ""
  | .noSuchDigit => "string index out of range"

/-- The number that a run of digits spells, if the host reads so many of them. -/
def readDigits (limit : Option Nat) (ds : List Char) : Except Failure Nat :=
  match limit with
  | some k =>
    if k < ds.length then .error (.unreadableInteger k ds.length) else .ok (Text.natOfDigits ds)
  | none => .ok (Text.natOfDigits ds)

/-- The text of an integer, if the host writes so many digits. -/
def integerText (limit : Option Nat) (n : Int) : Except Failure String :=
  match limit with
  | some k =>
    if k < Number.digitCount n.natAbs then .error (.unwritableInteger k) else .ok (toString n)
  | none => .ok (toString n)

/-- What built-in functions draw on during one run: random numbers, the factorials found so far,
and the texts still to be given to `input`. -/
structure Resources (α : Type) where
  generator : Generator
  factorials : List (Nat × α)
  inputs : List String

/-- A built-in function. Without an arity it takes any number of arguments. -/
structure Builtin (α : Type) where
  name : String
  arity : Option Nat
  run : List α → EStateM Failure (Resources α) α

structure NumberSystem (α : Type) where
  zero : α
  one : α
  parse : String → Except Failure α
  format : α → Except Failure String
  fromInt : Int → α
  isTrue : α → Bool
  isInteger : α → Bool
  toCount : α → Except Failure Int
  compare : α → α → Except Failure (Option Ordering)
  basic : α → String → α → Except Failure α
  constants : List (String × α)
  builtins : List (Builtin α)

/-- Directions of rounding to an integer; a half is rounded away from zero. -/
inductive Direction where
  | nearest
  | up
  | down
  deriving DecidableEq

/-- The operations that tell one number system from another. -/
structure Arithmetic (α : Type) where
  zero : α
  one : α
  parse : String → Except Failure α
  format : α → Except Failure String
  fromInt : Int → α
  isZero : α → Bool
  isInteger : α → Bool
  toCount : α → Except Failure Int
  add : α → α → α
  subtract : α → α → α
  multiply : α → α → α
  divide : α → α → Except Failure α
  remainder : α → α → Except Failure α
  power : α → α → Except Failure α
  compare : α → α → Except Failure (Option Ordering)
  equals : α → α → Bool
  absolute : α → α
  toInteger : Direction → α → α
  sign : α → Except Failure α
  sqrt : α → Except Failure α
  cbrt : α → Except Failure α
  random : EStateM Failure Generator α

namespace Arithmetic

variable {α : Type}

def boolean (a : Arithmetic α) (b : Bool) : α :=
  if b then a.one else a.zero

/-- Applies a binary operator; comparisons give one or zero, and zero if there is no order. -/
def basic (a : Arithmetic α) (x : α) (op : String) (y : α) : Except Failure α :=
  let relation (holds : Ordering → Bool) : Except Failure α := do
    let order ← a.compare x y
    return a.boolean (order.any holds)
  match op with
  | "+" => .ok (a.add x y)
  | "-" => .ok (a.subtract x y)
  | "*" => .ok (a.multiply x y)
  | "/" => a.divide x y
  | "%" => a.remainder x y
  | "^" => a.power x y
  | "==" => .ok (a.boolean (a.equals x y))
  | "!=" => .ok (a.boolean (!a.equals x y))
  | ">" => relation Ordering.isGT
  | "<" => relation Ordering.isLT
  | ">=" => relation Ordering.isGE
  | "<=" => relation Ordering.isLE
  | _ => .error (.unknownOperator op)

/-- The first of the arguments that no other one is better than. -/
def extremeFrom (a : Arithmetic α) (name : String) (better : Ordering → Bool) :
    α → List α → Except Failure α
  | best, [] => .ok best
  | best, x :: rest => do
    match ← a.compare x best with
    | none => .error (.unordered name)
    | some order => extremeFrom a name better (if better order then x else best) rest

def extreme (a : Arithmetic α) (name : String) (better : Ordering → Bool) :
    List α → Except Failure α
  | [] => .error (.noArguments name)
  | x :: rest => a.extremeFrom name better x rest

def total (a : Arithmetic α) (xs : List α) : α :=
  xs.foldl a.add a.zero

def orderedSign (compare : α → α → Except Failure (Option Ordering)) (zero : α)
    (fromInt : Int → α) (x : α) : Except Failure α := do
  match ← compare x zero with
  | none => .error .unorderedSign
  | some .lt => return fromInt (-1)
  | some .eq => return fromInt 0
  | some .gt => return fromInt 1

/-- The remainder that takes the sign of the divisor. -/
def modulo (a : Arithmetic α) (x y : α) : Except Failure α := do
  let r ← a.remainder x y
  if a.isZero r then return r
  else
    let s ← a.compare r a.zero
    let t ← a.compare y a.zero
    return if s == t then r else a.add r y

/-- The factorials from `k` on for `steps` more numbers; `known` holds those found so far. -/
def extendFactorials (a : Arithmetic α) :
    Nat → Nat → α → List (Nat × α) → α × List (Nat × α)
  | 0, _, value, known => (value, known)
  | steps + 1, k, value, known =>
    let next := a.multiply value (a.fromInt (k + 1))
    extendFactorials a steps (k + 1) next ((k + 1, next) :: known)

/-- The factorial of `n`, continued from the largest one known below it. -/
def factorialOf (a : Arithmetic α) (n : Nat) (known : List (Nat × α)) : α × List (Nat × α) :=
  match known.lookup n with
  | some value => (value, known)
  | none =>
    let k := (known.filter (·.1 < n)).foldl (fun m e => max m e.1) 0
    a.extendFactorials (n - k) k ((known.lookup k).getD a.one) known

def factorial (a : Arithmetic α) (x : α) : EStateM Failure (Resources α) α := do
  if !a.isInteger x then throw .noFactorial
  match a.compare x a.zero with
  | .error f => throw f
  | .ok (some .lt) => throw .noFactorial
  | .ok _ =>
    match a.toCount x with
    | .error f => throw f
    | .ok n =>
      let r ← get
      let (value, known) := a.factorialOf n.toNat r.factorials
      set { r with factorials := known }
      return value

def readInput (a : Arithmetic α) : EStateM Failure (Resources α) α := do
  let r ← get
  match r.inputs with
  | [] => throw .inputRequired
  | text :: rest =>
    set { r with inputs := rest }
    let text := Text.trimmed text
    match a.parse text with
    | .ok x => return x
    | .error _ => throw (.invalidInput text)

def drawRandom (a : Arithmetic α) : EStateM Failure (Resources α) α := do
  let r ← get
  match a.random.run r.generator with
  | .ok x g =>
    set { r with generator := g }
    return x
  | .error f _ => throw f

def liftResult {β : Type} : Except Failure β → EStateM Failure (Resources α) β
  | .ok x => pure x
  | .error f => throw f

def unary (name : String) (f : α → Except Failure α) : Builtin α :=
  ⟨name, some 1, fun
    | x :: _ => liftResult (f x)
    | [] => throw .missingArgument⟩

def binary (name : String) (f : α → α → Except Failure α) : Builtin α :=
  ⟨name, some 2, fun
    | x :: y :: _ => liftResult (f x y)
    | _ => throw .missingArgument⟩

def variadic (name : String) (f : List α → Except Failure α) : Builtin α :=
  ⟨name, none, fun xs => liftResult (f xs)⟩

def fac (a : Arithmetic α) : Builtin α :=
  ⟨"fac", some 1, fun
    | x :: _ => a.factorial x
    | [] => throw .missingArgument⟩

def shared (a : Arithmetic α) : List (Builtin α) :=
  [unary "abs" (fun x => .ok (a.absolute x)),
    unary "round" (fun x => .ok (a.toInteger .nearest x)),
    unary "ceil" (fun x => .ok (a.toInteger .up x)),
    unary "floor" (fun x => .ok (a.toInteger .down x)),
    unary "sign" a.sign,
    unary "sqrt" a.sqrt,
    unary "cbrt" a.cbrt,
    variadic "min" (a.extreme "min" Ordering.isLT),
    variadic "max" (a.extreme "max" Ordering.isGT),
    variadic "sum" (fun xs => .ok (a.total xs)),
    ⟨"random", some 0, fun _ => a.drawRandom⟩,
    a.fac,
    binary "mod" a.modulo,
    ⟨"input", some 0, fun _ => a.readInput⟩]

/-- The number system with the shared functions and those of its own. -/
def system (a : Arithmetic α) (constants : List (String × α)) (own : List (Builtin α)) :
    NumberSystem α where
  zero := a.zero
  one := a.one
  parse := a.parse
  format := a.format
  fromInt := a.fromInt
  isTrue := fun x => !a.isZero x
  isInteger := a.isInteger
  toCount := a.toCount
  compare := a.compare
  basic := a.basic
  constants := constants
  builtins := a.shared ++ own

end Arithmetic

namespace NumberSystem

variable {α : Type}

def builtin? (s : NumberSystem α) (name : String) : Option (Builtin α) :=
  s.builtins.find? (fun b => b.name == name)

def resources (s : NumberSystem α) (seed : Int) (inputs : List String) : Resources α :=
  ⟨.ofSeed seed, [(0, s.one)], inputs⟩

end NumberSystem

end Abacus
