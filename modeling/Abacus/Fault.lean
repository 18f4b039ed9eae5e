import Abacus.Text.Lines

/-! A fatal error of a script, anchored in its source, and the five-line window that shows it. -/

namespace Abacus

/-- `length` characters from `offset` on are to blame. -/
structure Fault where
  offset : Int
  message : String
  length : Int
  deriving DecidableEq

/-- One line of the window: its number from 1, its text and the columns to highlight. -/
structure ContextRow where
  number : Nat
  text : List Char
  start : Nat
  stop : Nat
  deriving DecidableEq

namespace Fault

/-- The offset moved into the source, ends included. -/
def anchor (f : Fault) (source : List Char) : Nat :=
  min f.offset.toNat source.length

/-- The number of the line, from 0, that holds the anchor. -/
def line (f : Fault) (source : List Char) : Nat :=
  (source.take (f.anchor source)).count '\n'

/-- The distance of the anchor from the beginning of its line. -/
def column (f : Fault) (source : List Char) : Nat :=
  ((source.take (f.anchor source)).reverse.takeWhile (· ≠ '\n')).length

def row (f : Fault) (source : List Char) (l : Nat) (text : List Char) : ContextRow :=
  if l = f.line source then
    let start := f.column source
    ⟨l + 1, text, start, min text.length (start + f.length.toNat)⟩
  else ⟨l + 1, text, 0, 0⟩

/-- The lines within two of the anchor's line. -/
def context (f : Fault) (source : List Char) : List ContextRow :=
  let first := f.line source - 2
  (((Text.linesOf source).drop first).take (f.line source + 3 - first)).zipIdx first
    |>.map (fun (text, l) => f.row source l text)

def padded (width : Nat) (n : Nat) : List Char :=
  let ds := Nat.toDigits 10 n
  List.replicate (width - ds.length) ' ' ++ ds

def showRow (f : Fault) (source : List Char) (width : Nat) (r : ContextRow) : List (List Char) :=
  if r.number = f.line source + 1 then
    ["> ".toList ++ padded width r.number ++ " | ".toList ++ r.text,
      "  ".toList ++ List.replicate width ' ' ++ " | ".toList ++ List.replicate r.start ' ' ++
        List.replicate (max (r.stop - r.start) 1) '^']
  else ["  ".toList ++ padded width r.number ++ " | ".toList ++ r.text]

/-- The window with a caret line under the blamed text, and the message below. -/
def format (f : Fault) (source : List Char) : String :=
  let rows := f.context source
  let width := match rows.getLast? with
    | some r => (Nat.toDigits 10 r.number).length
    | none => 1
  let shown := rows.flatMap (f.showRow source width) ++ [("Error: " ++ f.message).toList]
  String.ofList (['\n'].intercalate shown)

def summary (f : Fault) : String :=
  "ReckonError: " ++ f.message ++ " (at offset " ++ toString f.offset ++ ")"

end Fault

end Abacus
