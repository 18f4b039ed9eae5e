import Abacus.Token.Basic
import Abacus.Text.Integer

/-! Scanning: the flat list of tokens of a source. Every character that is not blank and not in a
comment ends up in a token, so scanning never fails. -/

namespace Abacus.Token

def isOperatorChar (c : Char) : Bool :=
  c ∈ ['+', '-', '*', '/', '%', '^', '<', '>', '!']

def isSymbolChar (c : Char) : Bool :=
  c ∈ ['=', '(', ')', '[', ']', '{', '}', '.', ',', '\n', ';', '\\']

/-- The characters that become a two-character operator before `=`. -/
def isComparisonChar (c : Char) : Bool :=
  c ∈ ['<', '>', '=', '!']

def isWordChar (c : Char) : Bool :=
  !(Text.isBlank c || isOperatorChar c || isSymbolChar c || c == '#')

/-- The characters of one lexeme and its kind; nothing for a blank or a comment. -/
structure Lexeme where
  kind : Option Kind
  text : List Char
  deriving DecidableEq

/-- The longest lexeme that starts with `c` and goes on in `cs`. -/
def Lexeme.first (c : Char) (cs : List Char) : Lexeme :=
  if c = '#' then ⟨none, c :: cs.takeWhile (· ≠ '\n')⟩
  else if c ≠ '\n' ∧ Text.isBlank c then
    ⟨none, c :: cs.takeWhile (fun d => d ≠ '\n' ∧ Text.isBlank d)⟩
  else if isComparisonChar c ∧ cs.head? = some '=' then ⟨some .operator, [c, '=']⟩
  else if isOperatorChar c then ⟨some .operator, [c]⟩
  else if isSymbolChar c then ⟨some .symbol, [c]⟩
  else if c.isDigit then ⟨some .integer, c :: cs.takeWhile Char.isDigit⟩
  else ⟨some .word, c :: cs.takeWhile isWordChar⟩

/-- The lexemes of a text; `skip` characters still belong to the lexeme before. -/
def lexemesFrom : Nat → List Char → List Lexeme
  | _, [] => []
  | skip + 1, _ :: cs => lexemesFrom skip cs
  | 0, c :: cs =>
    let lexeme := Lexeme.first c cs
    lexeme :: lexemesFrom (lexeme.text.length - 1) cs

def lexemes (cs : List Char) : List Lexeme :=
  lexemesFrom 0 cs

/-- Lexemes as tokens, the first of them at `offset`. -/
def place : Nat → List Lexeme → List Token
  | _, [] => []
  | offset, ⟨kind, text⟩ :: rest =>
    let stop := offset + text.length
    match kind with
    | none => place stop rest
    | some kind => .leaf kind (String.ofList text) offset stop :: place stop rest

/-- Adds a token to those before it, which stand in reverse. A digit run after a dot becomes one
number with it, and with the digit run before the dot if there is one. -/
def attach (before : List Token) (t : Token) : List Token :=
  if t.kind = .integer then
    match before with
    | dot :: whole :: rest =>
      if dot.value = "." then
        if whole.kind = .integer then
          .leaf .float (whole.value ++ "." ++ t.value) whole.index t.stop :: rest
        else .leaf .float ("0." ++ t.value) dot.index t.stop :: whole :: rest
      else t :: before
    | [dot] =>
      if dot.value = "." then [.leaf .float ("0." ++ t.value) dot.index t.stop]
      else t :: before
    | [] => [t]
  else t :: before

def scan (source : String) : List Token :=
  ((place 0 (lexemes source.toList)).foldl attach []).reverse

end Abacus.Token
