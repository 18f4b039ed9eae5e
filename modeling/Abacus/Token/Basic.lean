import Abacus.Text.Lines

/-! Tokens: the pieces of a script, with bracketed regions as trees. Every token knows the offsets
where it starts and stops. -/

namespace Abacus

def Kind.names : List String :=
  ["symbol", "operator", "integer", "float", "word", "group", "call_function"]

/-- What a token is. A tree made by hand may hold kinds that no script produces. -/
inductive Kind where
  | symbol
  | operator
  | integer
  | float
  | word
  | group
  | call
  | other (name : String) (unknown : name ∉ Kind.names)
  deriving DecidableEq

def Kind.name : Kind → String
  | .symbol => "symbol"
  | .operator => "operator"
  | .integer => "integer"
  | .float => "float"
  | .word => "word"
  | .group => "group"
  | .call => "call_function"
  | .other name _ => name

def Kind.ofName (name : String) : Kind :=
  if h : name ∈ Kind.names then
    if name = "symbol" then .symbol
    else if name = "operator" then .operator
    else if name = "integer" then .integer
    else if name = "float" then .float
    else if name = "word" then .word
    else if name = "group" then .group
    else .call
  else .other name h

/-- A token covers the offsets from `index` up to but not including `stop`. The kind is a label
only: what a token holds is told by its constructor. -/
inductive Token where
  | leaf (kind : Kind) (value : String) (index stop : Int)
  | group (kind : Kind) (value : String) (index stop : Int)
      (children : List Token) (opener closer : Token)
  | call (kind : Kind) (value : String) (index stop : Int) (name arguments : Token)
  deriving BEq

namespace Token

def kind : Token → Kind
  | .leaf kind .. => kind
  | .group kind .. => kind
  | .call kind .. => kind

def value : Token → String
  | .leaf _ value .. => value
  | .group _ value .. => value
  | .call _ value .. => value

def index : Token → Int
  | .leaf _ _ index _ => index
  | .group _ _ index .. => index
  | .call _ _ index .. => index

def stop : Token → Int
  | .leaf _ _ _ stop => stop
  | .group _ _ _ stop .. => stop
  | .call _ _ _ stop .. => stop

def length (t : Token) : Int :=
  t.value.length

def is (t : Token) (kind : Kind) (value : String) : Bool :=
  t.kind == kind && t.value == value

def isSymbol (t : Token) (value : String) : Bool :=
  t.is .symbol value

def isNewline (t : Token) : Bool :=
  t.isSymbol "\n"

def isTerminator (t : Token) : Bool :=
  t.isSymbol "\n" || t.isSymbol ";"

def keywords : List String :=
  ["let", "const", "return", "if", "else", "print", "throw", "break", "repeat", "until", "times",
    "with", "loop"]

def isName (t : Token) : Bool :=
  t.kind == .word && !keywords.contains t.value

/-- The children of a group with the given opening bracket. -/
def inside? (bracket : String) : Token → Option (List Token)
  | .group _ _ _ _ children opener _ => if opener.value = bracket then some children else none
  | _ => none

def isBlock (t : Token) : Bool :=
  (t.inside? "\x7b").isSome

def isParenthesized (t : Token) : Bool :=
  (t.inside? "(").isSome

def isValue (t : Token) : Bool :=
  match t.kind with
  | .call | .integer | .float | .word | .group => true
  | _ => false

/-- A word and the parenthesized group after it make a call. -/
def fuse (name arguments : Token) : Token :=
  .call .call (name.value ++ arguments.value) name.index arguments.stop name arguments

def sourceOf (source : String) (tokens : List Token) : String :=
  match tokens.head?, tokens.getLast? with
  | some first, some last => Text.slice source first.index last.stop
  | _, _ => ""

end Token

end Abacus
