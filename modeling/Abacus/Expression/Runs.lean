import Abacus.Fault
import Abacus.Token.Basic

/-! Token runs inside an expression: the arguments of a call, with a comma between each two, and the
words of strict mode. There a word of several letters is a product of one-letter words, unless it
names a function and its arguments follow at once. -/

namespace Abacus.Token

def closerIndex : Token → Int
  | .group _ _ _ _ _ _ closer => closer.index
  | t => t.stop

/-- Splits at commas; `current` holds the tokens since the last one, in reverse. -/
def splitFrom (closer : Int) : List Token → List Token → Except Fault (List (List Token))
  | current, [] =>
    if current.isEmpty then .error ⟨closer, "Unexpected end of the call argument.", 1⟩
    else .ok [current.reverse]
  | current, t :: rest =>
    if t.isSymbol "," then
      if current.isEmpty then .error ⟨t.index, "Unexpected comma.", 1⟩
      else (splitFrom closer [] rest).map (current.reverse :: ·)
    else splitFrom closer (t :: current) rest

/-- The arguments in the tokens of a bracket that closes at `closer`. -/
def splitArguments (closer : Int) (children : List Token) : Except Fault (List (List Token)) :=
  match children.filter (fun t => !t.isNewline) with
  | [] => .ok []
  | tokens => splitFrom closer [] tokens

/-- One-letter words for the letters of a word that starts at `index`. -/
def letters (index : Int) : List Char → List Token
  | [] => []
  | c :: rest => .leaf .word (String.ofList [c]) index (index + 1) :: letters (index + 1) rest

/-- Whether a parenthesized group starts where the token stops. -/
def touches (t : Token) (following : Option Token) : Bool :=
  following.any (fun g => g.isParenthesized && t.stop == g.index)

/-- Splits the words of several letters that do not call a function. -/
def splitLong (isFunction : String → Bool) : List Token → List Token
  | [] => []
  | t :: rest =>
    if t.kind ≠ .word ∨ t.value.length = 1 ∨ t.value ∈ keywords then
      t :: splitLong isFunction rest
    else if t.touches rest.head? && isFunction t.value then t :: splitLong isFunction rest
    else letters t.index t.value.toList ++ splitLong isFunction rest

/-- Adds a token to those before it, which stand in reverse; a group that follows the name of a
function at once becomes a call. -/
def fuseOnto (isFunction : String → Bool) (before : List Token) (t : Token) : List Token :=
  match before with
  | name :: rest =>
    if t.isParenthesized && name.kind == .word && name.stop == t.index && isFunction name.value then
      fuse name t :: rest
    else t :: before
  | [] => [t]

def splitWords (isFunction : String → Bool) (tokens : List Token) : List Token :=
  ((splitLong isFunction tokens).foldl (fuseOnto isFunction) []).reverse

end Abacus.Token
