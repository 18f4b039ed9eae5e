import Abacus.Command.Dialogue

/-! The command line program. -/

namespace Abacus.Command

/-- A number of steps and of lines that no run reaches. -/
def unbounded : Nat := 1152921504606846976

/-- Holds a dialogue over the standard streams. An end of input counts as an empty line. -/
def converse : Dialogue → IO Result
  | .finished r => pure r
  | .asking prompt next => do
    IO.print prompt
    (← IO.getStdout).flush
    let line ← (← IO.getStdin).getLine
    converse (next (if line.endsWith "\n" then (line.dropEnd 1).toString else line))

def readFile? (path : String) : IO (Option String) :=
  try
    return some (← IO.FS.readFile path)
  catch _ =>
    return none

def Crash.message : Crash → String
  | .json e => e.message
  | .load (.notAnObject) => "Invalid AST object"
  | .load (.unknownType shown) => "Unknown AST node type: " ++ shown
  | .load (.missing field) => "missing field " ++ Text.quoted field
  | .load (.mistyped field) => "invalid field " ++ Text.quoted field
  | .load (.tooDeep) | .tooDeep => "nested too deep"
  | .notAProgram => "not a program"
  | .run (.options e) => e.message
  | .run (.defect (.literal f) _) => f.message
  | .run (.defect (.operator value) _) => "unknown operator " ++ Text.quoted value
  | .run (.defect .noOperand _) => "missing operand"
  | .run (.defect .outOfFuel _) => "out of fuel"
  | .run (.defect (.unshown f) _) => f.message
  | .unshown f => f.message

/-- Shows a result, writes its files and gives the exit code. -/
def conclude (r : Result) : IO UInt32 := do
  for (path, text) in r.files do
    IO.FS.writeFile path text
  IO.print r.out
  IO.eprint r.err
  match r.exit with
  | .code n => return UInt32.ofNat n
  | .crash c =>
    IO.eprintln ("Error: " ++ c.message)
    return 1

end Abacus.Command

open Abacus.Command in
def main (args : List String) : IO UInt32 := do
  let path? := match Request.parse args with
    | .ok (.run a) => a.inputFile?
    | _ => none
  let text ← match path? with
    | some path => readFile? (plainPath path)
    | none => pure none
  let seed ← IO.rand 0 4294967295
  conclude (← converse (start args (fun _ => text) seed unbounded unbounded))
