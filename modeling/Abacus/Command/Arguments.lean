import Abacus.Command.Word

/-! What the words of a command line ask for. -/

namespace Abacus.Command

structure Arguments where
  verbosity : Nat := 0
  emit : Option String := none
  tree : Option String := none
  system : String := "bignumber"
  strict : Bool := false
  precision : Int := 20
  places : Int := 20
  seed : Option Int := none
  program : Option String := none

/-- What is known while the words are read: the words left over are kept in reverse. -/
structure Reading where
  arguments : Arguments := {}
  hasProgram : Bool := false
  extras : List String := []
  wantsHelp : Bool := false

namespace Reading

def extra (r : Reading) (text : String) : Reading :=
  { r with extras := text :: r.extras }

def withProgram (r : Reading) (text : String) : Reading :=
  { r with arguments := { r.arguments with program := some text }, hasProgram := true }

def intValue (flag : Flag) (value : String) : Except UsageError Int :=
  match Text.int? 10 value.toList with
  | some n => .ok n
  | none => .error (.invalidInt flag value)

/-- Takes an option with its value, which is empty for an option without one. -/
def apply (r : Reading) (flag : Flag) (value : String) : Except UsageError Reading :=
  let a := r.arguments
  match flag with
  | .help => .ok { r with wantsHelp := true }
  | .verbose => .ok { r with arguments := { a with verbosity := a.verbosity + 1 } }
  | .strict => .ok { r with arguments := { a with strict := true } }
  | .emitTree =>
    if a.tree.isSome then .error (.conflict .emitTree .tree)
    else .ok { r with arguments := { a with emit := some value } }
  | .tree =>
    if a.emit.isSome then .error (.conflict .tree .emitTree)
    else .ok { r with arguments := { a with tree := some value } }
  | .system =>
    if value ∈ systemChoices then .ok { r with arguments := { a with system := value } }
    else .error (.invalidChoice .system value)
  | .precision => do
    let n ← intValue flag value
    return { r with arguments := { a with precision := n } }
  | .places => do
    let n ← intValue flag value
    return { r with arguments := { a with places := n } }
  | .seed => do
    let n ← intValue flag value
    return { r with arguments := { a with seed := some n } }

/-- Options of one letter that are run together: the flags, and what is left over if a letter is no
option. -/
def runTogether (flag : Flag) : List Char → Except UsageError (List Flag × Option String)
  | [] => .ok ([flag], none)
  | c :: rest =>
    if c = '-' then .error (.ignoredValue flag (String.ofList (c :: rest)))
    else match Flag.ofSpelling? (String.ofList ['-', c]) with
      | none => .ok ([flag], some (String.ofList ('-' :: c :: rest)))
      | some next =>
        if rest.head? = some '=' then .error (.ignoredValue next (String.ofList (rest.drop 1)))
        else do
          let (flags, left) ← runTogether next rest
          return (flag :: flags, left)

/-- Takes options without values, one after the other, and stops at a call for help. -/
def applyAll (r : Reading) : List Flag → Except UsageError Reading
  | [] => .ok r
  | flag :: rest => do
    let r ← r.apply flag ""
    if r.wantsHelp then return r else r.applyAll rest

def applyAttached (r : Reading) (flag : Flag) (spelling : String) (a : Attached) :
    Except UsageError Reading := do
  if flag.takesValue then r.apply flag a.value
  else if spelling.startsWith "--" || a.value = "" || a.afterEquals then
    throw (.ignoredValue flag a.value)
  else
    let (flags, left) ← runTogether flag a.value.toList
    let r := match left with
      | some text => r.extra text
      | none => r
    r.applyAll flags

/-- Reads the words from left to right. The first argument is the program; a separator right before
or after it has no further meaning. -/
def words (r : Reading) : List Word → Except UsageError Reading
  | [] => .ok r
  | .unknown text :: rest => (r.extra text).words rest
  | .argument text :: .separator :: rest =>
    if r.hasProgram then ((r.extra text).extra "--").words rest
    else (r.withProgram text).words rest
  | .argument text :: rest =>
    if r.hasProgram then (r.extra text).words rest else (r.withProgram text).words rest
  | .separator :: .argument text :: rest =>
    if r.hasProgram then ((r.extra "--").extra text).words rest
    else (r.withProgram text).words rest
  | .separator :: rest => if r.hasProgram then (r.extra "--").words rest else r.words rest
  | .option flag spelling (some a) :: rest => do
    let r ← r.applyAttached flag spelling a
    if r.wantsHelp then return r else r.words rest
  | .option flag _ none :: .argument text :: rest => do
    if flag.takesValue then (← r.apply flag text).words rest
    else
      let r ← r.apply flag ""
      if r.wantsHelp then return r else r.words (.argument text :: rest)
  | .option flag _ none :: rest => do
    if flag.takesValue then throw (.missingValue flag)
    else
      let r ← r.apply flag ""
      if r.wantsHelp then return r else r.words rest

end Reading

/-- The meaning of a command line: a call for help, or arguments. -/
inductive Request where
  | help
  | run (arguments : Arguments)

def Request.parse (args : List String) : Except UsageError Request := do
  let words ← classifyAll args
  let r ← ({} : Reading).words words
  if r.wantsHelp then return .help
  else if r.extras ≠ [] then throw (.unrecognized r.extras.reverse)
  else return .run r.arguments

def Arguments.options (a : Arguments) (freshSeed : Int) : Options :=
  { system := a.system, strict := a.strict, precision := a.precision, places := a.places,
    seed := a.seed.getD freshSeed, debugLevel := a.verbosity }

end Abacus.Command
