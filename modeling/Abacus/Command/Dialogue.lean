import Abacus.Command.Arguments
import Abacus.Json.Print
import Abacus.Json.Read
import Abacus.Statement.Json
import Abacus.Text.Lines

/-! What the command line does: it shows help, writes the tree of a program to a file, or runs a
program and asks for the numbers that it needs. -/

namespace Abacus.Command

/-- A path without empty steps and without steps that stay where they are. -/
def plainPath (path : String) : String :=
  let cs := path.toList
  let steps := (Text.splitAt '/' cs).filter (fun step => step ≠ [] && step ≠ ['.'])
  let front := if cs.head? = some '/' then "/" else ""
  let body := "/".intercalate (steps.map String.ofList)
  if front = "" ∧ body = "" then "." else front ++ body

/-- Why a command breaks off without a result of its own. -/
inductive Crash where
  | json (e : Json.ReadError)
  | load (e : LoadError)
  | tooDeep
  | notAProgram
  | run (e : RunError)
  | unshown (f : Failure)

inductive Exit where
  | code (n : Nat)
  | crash (c : Crash)

/-- What a command leaves behind: the files are those that it writes. -/
structure Result where
  exit : Exit := .code 0
  out : String := ""
  err : String := ""
  files : List (String × String) := []

/-- A command goes on with each line that it is given, and ends with a result. -/
inductive Dialogue where
  | finished (result : Result)
  | asking (prompt : String) (next : String → Dialogue)

namespace Dialogue

/-- Answers with the lines of a text, and with empty ones after its end. The prompts stand in front
of the output. -/
def play : Dialogue → List String → String → Result
  | .finished r, _, shown => { r with out := shown ++ r.out }
  | .asking prompt next, lines, shown =>
    play (next (lines.headD "")) lines.tail (shown ++ prompt)

end Dialogue

def logFile : String := "debug.txt"

def promptFor (prompt : String) : String :=
  if prompt = "" then "input: " else "input (" ++ prompt ++ "): "

def unlines (lines : List String) : String :=
  String.join (lines.map (· ++ "\n"))

def resultOf (source : String) (r : Report) (files : List (String × String)) : Result :=
  match r.lines with
  | .error f => { exit := .crash (.unshown f), files := files }
  | .ok lines =>
    let out := unlines lines
    match r.status with
    | .error f =>
      { exit := .code 1, out := out, err := f.format source.toList ++ "\n", files := files }
    | _ => { out := out, files := files }

def logFiles : Option (List String) → List (String × String)
  | some lines => [(logFile, unlines lines)]
  | none => []

/-- Runs a session again with each line that it asks for; the log of the last run is kept. The fuel
bounds the number of lines. -/
def execute (stepFuel : Nat) : Nat → Session → Dialogue
  | 0, _ => .finished { exit := .crash (.run (.defect .outOfFuel none)) }
  | fuel + 1, session =>
    match session.run stepFuel with
    | .error e => .finished { exit := .crash (.run e), files := logFiles e.log }
    | .ok r =>
      match r.status with
      | .needsInput prompt =>
        .asking (promptFor prompt) (fun text => execute stepFuel fuel (session.resume text))
      | _ =>
        .finished (resultOf session.source r (logFiles r.log))

def failed (message : String) : Dialogue :=
  .finished { exit := .code 1, err := message ++ "\n" }

def notFound (path : String) : Dialogue :=
  failed ("Error: file " ++ plainPath path ++ " not found")

def crash (c : Crash) (files : List (String × String)) : Dialogue :=
  .finished { exit := .crash c, files := files }

/-- The file of the tree is made before the tree is. -/
def emitTree (strict : Bool) (path source : String) : Dialogue :=
  match Program.read hostFrames source strict with
  | .error (.fault f) => failed (f.format source.toList)
  | .error .tooDeep => crash .tooDeep []
  | .ok p =>
    let target := plainPath path ++ ".ast.json"
    match (Node.ofProgram p).encode hostFrames with
    | .error e => crash (.load e) [(target, "")]
    | .ok j => .finished { out := target ++ "\n", files := [(target, j.pretty)] }

def runTree (stepFuel fuel : Nat) (options : Options) (text : String) : Dialogue :=
  match Json.read text with
  | .error e => crash (.json e) []
  | .ok j =>
    match Node.decode hostFrames j with
    | .error e => crash (.load e) []
    | .ok n =>
      match n.program? with
      | none => crash .notAProgram []
      | some p => execute stepFuel fuel ⟨p.source, options, some p, []⟩

def given? (word : Option String) : Option String :=
  word.filter (· ≠ "")

def Arguments.inputFile? (a : Arguments) : Option String :=
  given? a.emit <|> given? a.tree <|> given? a.program

/-- Carries out what the arguments ask for; `read` gives the text of a file. -/
def Arguments.start (a : Arguments) (read : String → Option String) (freshSeed : Int)
    (stepFuel fuel : Nat) : Dialogue :=
  let options := a.options freshSeed
  let withFile (path : String) (go : String → Dialogue) : Dialogue :=
    match read (plainPath path) with
    | some text => go (String.ofList (Text.unifyNewlines text.toList))
    | none => notFound path
  match given? a.emit, given? a.tree, given? a.program with
  | some path, _, _ => withFile path (emitTree a.strict path)
  | none, some path, _ => withFile path (runTree stepFuel fuel options)
  | none, none, some path =>
    withFile path (fun source => execute stepFuel fuel ⟨source, options, none, []⟩)
  | none, none, none =>
    .finished { exit := .code 2, err := UsageError.missingProgram.report }

def start (args : List String) (read : String → Option String) (freshSeed : Int)
    (stepFuel fuel : Nat) : Dialogue :=
  match Request.parse args with
  | .error e => .finished { exit := .code 2, err := e.report }
  | .ok .help => .finished { out := helpText }
  | .ok (.run a) => a.start read freshSeed stepFuel fuel

end Abacus.Command
