import Abacus.Json.Basic
import Abacus.Text.Printable

/-! The text of a JSON value, on one line or with every item on a line of its own. -/

namespace Abacus.Json

def escapedChar (c : Char) : List Char :=
  if c = '"' then ['\\', '"']
  else if c = '\\' then ['\\', '\\']
  else if c = '\n' then ['\\', 'n']
  else if c = '\r' then ['\\', 'r']
  else if c = '\t' then ['\\', 't']
  else if c.toNat = 8 then ['\\', 'b']
  else if c.toNat = 12 then ['\\', 'f']
  else if c.toNat < 32 then '\\' :: 'u' :: Text.hex 4 c.toNat
  else [c]

def quote (s : String) : List Char :=
  '"' :: s.toList.flatMap escapedChar ++ ['"']

def newline (depth : Nat) : List Char :=
  '\n' :: List.replicate (2 * depth) ' '

mutual

def compactChars : Json → List Char
  | .null => "null".toList
  | .bool b => if b then "true".toList else "false".toList
  | .int n => (toString n).toList
  | .decimal text => text.toList
  | .string s => quote s
  | .array items => '[' :: (compactItems items ++ [']'])
  | .object fields => '{' :: (compactFields fields ++ ['}'])

def compactItems : List Json → List Char
  | [] => []
  | [j] => compactChars j
  | j :: rest => compactChars j ++ ',' :: ' ' :: compactItems rest

def compactFields : List (String × Json) → List Char
  | [] => []
  | [(name, j)] => quote name ++ ':' :: ' ' :: compactChars j
  | (name, j) :: rest =>
    quote name ++ ':' :: ' ' :: (compactChars j ++ ',' :: ' ' :: compactFields rest)

end

def compact (j : Json) : String :=
  String.ofList j.compactChars

mutual

/-- The value with every item and field on a line of its own, two blanks deeper than the brackets
around it. -/
def indented (depth : Nat) : Json → List Char
  | .null => "null".toList
  | .bool b => if b then "true".toList else "false".toList
  | .int n => (toString n).toList
  | .decimal text => text.toList
  | .string s => quote s
  | .array [] => ['[', ']']
  | .array (j :: rest) =>
    '[' :: (newline (depth + 1) ++ indented (depth + 1) j ++
      (indentedItems (depth + 1) rest ++ (newline depth ++ [']'])))
  | .object [] => ['{', '}']
  | .object ((name, j) :: rest) =>
    '{' :: (newline (depth + 1) ++ quote name ++ ':' :: ' ' :: (indented (depth + 1) j ++
      (indentedFields (depth + 1) rest ++ (newline depth ++ ['}']))))

def indentedItems (depth : Nat) : List Json → List Char
  | [] => []
  | j :: rest => ',' :: (newline depth ++ (indented depth j ++ indentedItems depth rest))

def indentedFields (depth : Nat) : List (String × Json) → List Char
  | [] => []
  | (name, j) :: rest =>
    ',' :: (newline depth ++ (quote name ++ ':' :: ' ' ::
      (indented depth j ++ indentedFields depth rest)))

end

def pretty (j : Json) : String :=
  String.ofList (j.indented 0)

end Abacus.Json
