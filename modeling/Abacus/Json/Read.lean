import Abacus.Json.Basic
import Abacus.Text.Integer

/-! Reading JSON text. A text that is no JSON value is refused with the reason and the place. -/

namespace Abacus.Json

inductive Reason where
  | byteOrderMark
  | value
  | propertyName
  | colon
  | comma
  | unterminated
  | controlCharacter
  | escape
  | unicodeEscape
  | extraData
  deriving DecidableEq

def Reason.message : Reason → String
  | .byteOrderMark => "Unexpected UTF-8 BOM (decode using utf-8-sig)"
  | .value => "Expecting value"
  | .propertyName => "Expecting property name enclosed in double quotes"
  | .colon => "Expecting ':' delimiter"
  | .comma => "Expecting ',' delimiter"
  | .unterminated => "Unterminated string starting at"
  | .controlCharacter => "Invalid control character at"
  | .escape => "Invalid \\escape"
  | .unicodeEscape => "Invalid \\uXXXX escape"
  | .extraData => "Extra data"

/-- A reason and the text that was still unread at the place it is about. -/
structure Refusal where
  reason : Reason
  unread : List Char

def skipBlanks (cs : List Char) : List Char :=
  cs.dropWhile (fun c => c ∈ [' ', '\t', '\n', '\r'])

def hexValue? (c : Char) : Option Nat :=
  if c.isDigit then some (c.toNat - 48)
  else if 'a' ≤ c ∧ c ≤ 'f' then some (c.toNat - 87)
  else if 'A' ≤ c ∧ c ≤ 'F' then some (c.toNat - 55)
  else none

def unit? (a b c d : Char) : Option Nat := do
  let w ← hexValue? a
  let x ← hexValue? b
  let y ← hexValue? c
  let z ← hexValue? d
  return ((w * 16 + x) * 16 + y) * 16 + z

def isHighUnit (n : Nat) : Bool :=
  0xd800 ≤ n && n < 0xdc00

def isLowUnit (n : Nat) : Bool :=
  0xdc00 ≤ n && n < 0xe000

/-- Joins code units in pairs. A unit that is half of a pair and stands alone has no character
and becomes the replacement character. -/
def joinUnits : List Nat → List Char
  | [] => []
  | [n] => [if isHighUnit n || isLowUnit n then Char.ofNat 0xfffd else Char.ofNat n]
  | m :: n :: rest =>
    if isHighUnit m && isLowUnit n then
      Char.ofNat (0x10000 + (m - 0xd800) * 0x400 + (n - 0xdc00)) :: joinUnits rest
    else
      (if isHighUnit m || isLowUnit m then Char.ofNat 0xfffd else Char.ofNat m) ::
        joinUnits (n :: rest)

def escapeValue? (c : Char) : Option Char :=
  match c with
  | '"' => some '"'
  | '\\' => some '\\'
  | '/' => some '/'
  | 'b' => some (Char.ofNat 8)
  | 'f' => some (Char.ofNat 12)
  | 'n' => some '\n'
  | 'r' => some '\r'
  | 't' => some '\t'
  | _ => none

/-- The code unit of the escape whose characters after the backslash stand first in `cs`. -/
def readEscape (cs : List Char) : Except Reason (Nat × List Char) :=
  match cs with
  | 'u' :: a :: b :: c :: d :: rest =>
    match unit? a b c d with
    | some n => .ok (n, rest)
    | none => .error .unicodeEscape
  | 'u' :: _ => .error .unicodeEscape
  | c :: rest =>
    match escapeValue? c with
    | some d => .ok (d.toNat, rest)
    | none => .error .escape
  | [] => .error .unterminated

/-- Reads the rest of a string whose opening quote stands first in `opening`; `acc` holds the code
units read of it in reverse. -/
def readString (opening : List Char) :
    Nat → List Nat → List Char → Except Refusal (String × List Char)
  | 0, _, _ => .error ⟨.unterminated, opening⟩
  | _, _, [] => .error ⟨.unterminated, opening⟩
  | fuel + 1, acc, c :: rest =>
    if c = '"' then .ok (String.ofList (joinUnits acc.reverse), rest)
    else if c = '\\' then
      match readEscape rest with
      | .ok (n, rest) => readString opening fuel (n :: acc) rest
      | .error .unterminated => .error ⟨.unterminated, opening⟩
      | .error .unicodeEscape => .error ⟨.unicodeEscape, rest.drop 1⟩
      | .error reason => .error ⟨reason, c :: rest⟩
    else if c.toNat < 32 then .error ⟨.controlCharacter, c :: rest⟩
    else readString opening fuel (c.toNat :: acc) rest

/-- The digits after a sign: no leading zero unless it is the only digit. -/
def wholePart (cs : List Char) : Option (List Char × List Char) :=
  match cs with
  | '0' :: rest => some (['0'], rest)
  | c :: _ => if c.isDigit then some (cs.takeWhile Char.isDigit, cs.dropWhile Char.isDigit) else none
  | [] => none

def fractionPart (cs : List Char) : List Char × List Char :=
  match cs with
  | '.' :: rest =>
    if rest.head?.any Char.isDigit then
      ('.' :: rest.takeWhile Char.isDigit, rest.dropWhile Char.isDigit)
    else ([], cs)
  | _ => ([], cs)

def exponentPart (cs : List Char) : List Char × List Char :=
  let (mark, rest) := cs.span (fun c => c = 'e' ∨ c = 'E')
  let (sign, digits) := match rest with
    | '+' :: ds => (['+'], ds)
    | '-' :: ds => (['-'], ds)
    | ds => ([], ds)
  if mark.length = 1 ∧ digits.head?.any Char.isDigit then
    (mark ++ sign ++ digits.takeWhile Char.isDigit, digits.dropWhile Char.isDigit)
  else ([], cs)

def readNumber? (cs : List Char) : Option (Json × List Char) := do
  let (sign, body) := match cs with
    | '-' :: rest => (['-'], rest)
    | rest => ([], rest)
  let (whole, rest) ← wholePart body
  let (fraction, rest) := fractionPart rest
  let (exponent, rest) := exponentPart rest
  if fraction.isEmpty && exponent.isEmpty then
    let n : Int := Text.natOfDigits whole
    return (.int (if sign.isEmpty then n else -n), rest)
  else return (.decimal (String.ofList (sign ++ whole ++ fraction ++ exponent)), rest)

/-- The text behind `word`, if it starts with `word`. -/
def after? (word : String) (cs : List Char) : Option (List Char) :=
  if word.toList.isPrefixOf cs then some (cs.drop word.length) else none

def literals : List (String × Json) :=
  [("null", .null), ("true", .bool true), ("false", .bool false), ("NaN", .decimal "NaN"),
    ("Infinity", .decimal "Infinity"), ("-Infinity", .decimal "-Infinity")]

def readLiteral? (cs : List Char) : Option (Json × List Char) :=
  literals.findSome? (fun (word, j) => (after? word cs).map (j, ·))

mutual

/-- Reads one value; the fuel bounds the number of values and separators read. -/
def readValue : Nat → List Char → Except Refusal (Json × List Char)
  | 0, cs => .error ⟨.value, cs⟩
  | fuel + 1, cs =>
    match cs with
    | '"' :: rest =>
      match readString cs cs.length [] rest with
      | .ok (s, rest) => .ok (.string s, rest)
      | .error e => .error e
    | '[' :: rest =>
      match skipBlanks rest with
      | ']' :: rest => .ok (.array [], rest)
      | rest => readItems fuel [] rest
    | '{' :: rest =>
      match skipBlanks rest with
      | '}' :: rest => .ok (.object [], rest)
      | rest => readFields fuel [] rest
    | _ =>
      match readLiteral? cs with
      | some r => .ok r
      | none =>
        match readNumber? cs with
        | some r => .ok r
        | none => .error ⟨.value, cs⟩

def readItems : Nat → List Json → List Char → Except Refusal (Json × List Char)
  | 0, _, cs => .error ⟨.value, cs⟩
  | fuel + 1, acc, cs =>
    match readValue fuel cs with
    | .error e => .error e
    | .ok (j, rest) =>
      match skipBlanks rest with
      | ']' :: rest => .ok (.array (j :: acc).reverse, rest)
      | ',' :: rest => readItems fuel (j :: acc) (skipBlanks rest)
      | rest => .error ⟨.comma, rest⟩

def readFields : Nat → List (String × Json) → List Char → Except Refusal (Json × List Char)
  | 0, _, cs => .error ⟨.value, cs⟩
  | fuel + 1, acc, cs =>
    match cs with
    | '"' :: rest =>
      match readString cs cs.length [] rest with
      | .error e => .error e
      | .ok (name, rest) =>
        match skipBlanks rest with
        | ':' :: rest =>
          match readValue fuel (skipBlanks rest) with
          | .error e => .error e
          | .ok (j, rest) =>
            match skipBlanks rest with
            | '}' :: rest => .ok (.object (setField acc name j), rest)
            | ',' :: rest => readFields fuel (setField acc name j) (skipBlanks rest)
            | rest => .error ⟨.comma, rest⟩
        | rest => .error ⟨.colon, rest⟩
    | rest => .error ⟨.propertyName, rest⟩

end

structure ReadError where
  reason : Reason
  offset : Nat
  line : Nat
  column : Nat

def ReadError.ofRefusal (cs : List Char) (r : Refusal) : ReadError :=
  let offset := cs.length - r.unread.length
  let before := cs.take offset
  ⟨r.reason, offset, before.count '\n' + 1, (before.reverse.takeWhile (· ≠ '\n')).length + 1⟩

def ReadError.message (e : ReadError) : String :=
  e.reason.message ++ ": line " ++ toString e.line ++ " column " ++ toString e.column ++
    " (char " ++ toString e.offset ++ ")"

def read (s : String) : Except ReadError Json :=
  let cs := s.toList
  let result : Except Refusal Json :=
    if cs.head? = some (Char.ofNat 0xfeff) then .error ⟨.byteOrderMark, cs⟩
    else match readValue (2 * cs.length + 1) (skipBlanks cs) with
      | .error e => .error e
      | .ok (j, rest) =>
        match skipBlanks rest with
        | [] => .ok j
        | rest => .error ⟨.extraData, rest⟩
  match result with
  | .ok j => .ok j
  | .error r => .error (.ofRefusal cs r)

end Abacus.Json
