import Abacus.Command.Option

/-! The words of a command line. An option may be cut short as long as only one option starts like
that, and may carry its value after an equals sign; options of one letter may be run together.
After `--` every word is an argument. -/

namespace Abacus.Command

structure Attached where
  afterEquals : Bool
  value : String
  deriving DecidableEq

inductive Word where
  | argument (text : String)
  | separator
  | option (flag : Flag) (spelling : String) (attached : Option Attached)
  | unknown (text : String)
  deriving DecidableEq

/-- The characters before the first equals sign, and those after it. -/
def splitEquals (cs : List Char) : String × Option String :=
  let front := cs.takeWhile (· ≠ '=')
  (String.ofList front, match cs.dropWhile (· ≠ '=') with
    | _ :: rest => some (String.ofList rest)
    | [] => none)

/-- The options that a word can mean when it is none of them in full. -/
def candidates (cs : List Char) : List (Flag × String × Option Attached) :=
  match cs with
  | '-' :: '-' :: _ =>
    let (front, value) := splitEquals cs
    (Flag.spellings.filter (fun e => e.1.startsWith front)).map
      (fun e => (e.2, e.1, value.map (Attached.mk true)))
  | _ =>
    Flag.spellings.filterMap (fun e =>
      if e.1.toList = cs.take 2 then
        some (e.2, e.1, some ⟨false, String.ofList (cs.drop 2)⟩)
      else if e.1.startsWith (String.ofList cs) then some (e.2, e.1, none)
      else none)

/-- Digits after a minus, with or without a point before the last of them. -/
def isNegativeNumber : List Char → Bool
  | '-' :: cs =>
    let isDigit (c : Char) : Bool := (Text.digitValue? c).isSome
    match cs.dropWhile isDigit with
    | [] => cs ≠ []
    | '.' :: rest => rest ≠ [] && rest.all isDigit
    | _ => false
  | _ => false

/-- A word that starts with a minus and is no option in full. -/
def classifyOther (text : String) (cs : List Char) : Except UsageError Word :=
  match candidates cs with
  | [(flag, spelling, attached)] => .ok (.option flag spelling attached)
  | [] =>
    .ok (if isNegativeNumber cs || cs.contains ' ' then .argument text else .unknown text)
  | found => .error (.ambiguous text (found.map (fun e => e.2.1)))

def classify (text : String) : Except UsageError Word :=
  match text.toList with
  | [] => .ok (.argument text)
  | c :: rest =>
    if c ≠ '-' then .ok (.argument text)
    else match Flag.ofSpelling? text with
      | some flag => .ok (.option flag text none)
      | none =>
        if rest = [] then .ok (.argument text)
        else
          let (front, value) := splitEquals (c :: rest)
          match Flag.ofSpelling? front, value with
          | some flag, some value => .ok (.option flag front (some ⟨true, value⟩))
          | _, _ => classifyOther text (c :: rest)

def classifyAll : List String → Except UsageError (List Word)
  | [] => .ok []
  | text :: rest =>
    if text = "--" then .ok (.separator :: rest.map Word.argument)
    else do
      let word ← classify text
      let words ← classifyAll rest
      return word :: words

end Abacus.Command
