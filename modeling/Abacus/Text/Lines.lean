/-! Parts of a text between two offsets, and its lines. Offsets count characters; a negative offset
counts from the end, and an offset outside the text is moved to its nearer end. -/

namespace Abacus.Text

/-- The position that an offset names in a text of the given length. -/
def position (length : Nat) (offset : Int) : Nat :=
  if offset < 0 then (length + offset).toNat else min offset.toNat length

def sliceChars (cs : List Char) (start stop : Int) : List Char :=
  let a := position cs.length start
  let b := position cs.length stop
  (cs.drop a).take (b - a)

def slice (s : String) (start stop : Int) : String :=
  String.ofList (sliceChars s.toList start stop)

/-- Splits a text at every newline; the empty text has one empty line. -/
def linesOf : List Char → List (List Char)
  | [] => [[]]
  | c :: cs =>
    if c = '\n' then [] :: linesOf cs
    else match linesOf cs with
      | [] => [[c]]
      | line :: rest => (c :: line) :: rest

def capitalized (s : String) : String :=
  match s.toList with
  | [] => ""
  | c :: cs => String.ofList (c.toUpper :: cs)

/-- Makes every line end a newline: a carriage return is one, with a newline after it or without. -/
def unifyNewlines : List Char → List Char
  | [] => []
  | '\r' :: '\n' :: rest => '\n' :: unifyNewlines rest
  | c :: rest => (if c = '\r' then '\n' else c) :: unifyNewlines rest

/-- The lines of a text; the last one need not end with a newline. -/
def inputLines (cs : List Char) : List (List Char) :=
  let lines := linesOf cs
  if lines.getLast? = some [] then lines.dropLast else lines

end Abacus.Text
