import Abacus.Session

/-! The options of the command line and the texts that describe them. -/

namespace Abacus.Command

inductive Flag where
  | help
  | verbose
  | emitTree
  | tree
  | system
  | strict
  | precision
  | places
  | seed
  deriving DecidableEq

namespace Flag

/-- The ways to write the options, in the order in which they are looked up. -/
def spellings : List (String × Flag) :=
  [("-h", .help), ("--help", .help), ("-v", .verbose), ("--emit-ast", .emitTree),
    ("--ast", .tree), ("--backend", .system), ("--strict", .strict),
    ("--precision", .precision), ("--places", .places), ("--seed", .seed)]

def ofSpelling? (s : String) : Option Flag :=
  spellings.lookup s

def name (f : Flag) : String :=
  "/".intercalate ((spellings.filter (fun e => e.2 == f)).map Prod.fst)

def takesValue : Flag → Bool
  | .help | .verbose | .strict => false
  | _ => true

end Flag

/-- The number systems that can be chosen, in the order of their names. -/
def systemChoices : List String :=
  (SystemName.all.map SystemName.name).mergeSort

inductive UsageError where
  | ambiguous (word : String) (candidates : List String)
  | missingValue (flag : Flag)
  | ignoredValue (flag : Flag) (value : String)
  | invalidChoice (flag : Flag) (value : String)
  | invalidInt (flag : Flag) (value : String)
  | conflict (flag other : Flag)
  | unrecognized (words : List String)
  | missingProgram
  deriving DecidableEq

def UsageError.message : UsageError → String
  | .ambiguous word candidates =>
    "ambiguous option: " ++ word ++ " could match " ++ ", ".intercalate candidates
  | .missingValue f => "argument " ++ f.name ++ ": expected one argument"
  | .ignoredValue f value =>
    "argument " ++ f.name ++ ": ignored explicit argument " ++ Text.quoted value
  | .invalidChoice f value =>
    "argument " ++ f.name ++ ": invalid choice: " ++ Text.quoted value ++ " (choose from " ++
      ", ".intercalate (systemChoices.map Text.quoted) ++ ")"
  | .invalidInt f value => "argument " ++ f.name ++ ": invalid int value: " ++ Text.quoted value
  | .conflict f other => "argument " ++ f.name ++ ": not allowed with argument " ++ other.name
  | .unrecognized words => "unrecognized arguments: " ++ " ".intercalate words
  | .missingProgram => "missing program file; or use --emit-ast/--ast"

def shownChoices : String :=
  "\x7b" ++ ",".intercalate systemChoices ++ "\x7d"

def usage : String :=
  "usage: reckon [-h] [-v] [--emit-ast PROGRAM_FILE | --ast AST_JSON_FILE]\n" ++
  "              [--backend " ++ shownChoices ++ "] [--strict]\n" ++
  "              [--precision PRECISION] [--places PLACES] [--seed SEED]\n" ++
  "              [program]\n"

def helpText : String :=
  usage ++
  "\nreckon numeric scripting language\n" ++
  "\npositional arguments:\n" ++
  "  program               program file to execute\n" ++
  "\noptions:\n" ++
  "  -h, --help            show this help message and exit\n" ++
  "  -v                    increase debug verbosity (can be repeated)\n" ++
  "  --emit-ast PROGRAM_FILE\n" ++
  "                        emit AST JSON for the given program\n" ++
  "  --ast AST_JSON_FILE   execute AST from a JSON file\n" ++
  "  --backend " ++ shownChoices ++ "\n" ++
  "                        numeric backend\n" ++
  "  --strict              enable strict mode\n" ++
  "  --precision PRECISION\n" ++
  "                        significant digits (decimal, complex)\n" ++
  "  --places PLACES       decimal places of quotients (bignumber)\n" ++
  "  --seed SEED           seed for random()\n"

/-- What is shown for an error, before the program gives up. -/
def UsageError.report (e : UsageError) : String :=
  usage ++ "reckon: error: " ++ e.message ++ "\n"

end Abacus.Command
