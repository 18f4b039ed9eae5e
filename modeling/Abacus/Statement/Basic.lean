import Abacus.Token.Basic

/-! Statements of a script. An expression inside a statement stays a run of tokens; its value is
found when the statement runs. -/

namespace Abacus

/-- The text a statement was made from and where it stands. -/
structure Origin where
  source : String
  index : Int
  stop : Int
  deriving DecidableEq

inductive Statement where
  | assign (origin : Origin) (name : Token) (value : List Token) (fresh constant : Bool)
      (valueSource : String)
  | define (origin : Origin) (name : Token) (parameters : List String) (value : List Token)
      (valueSource : String)
  | inline (origin : Origin) (value : List Token)
  | ifThen (origin : Origin) (keyword : Token) (condition : List Token) (body : List Statement)
      (conditionSource : String)
  | elseIf (origin : Origin) (keyword : Token) (condition : List Token) (body : List Statement)
      (conditionSource : String)
  | otherwise (origin : Origin) (keyword : Token) (body : List Statement)
  | loop (origin : Origin) (keyword : Token) (body : List Statement)
  | repeatUntil (origin : Origin) (keyword : Token) (condition : List Token)
      (body : List Statement) (conditionSource : String)
  | repeatTimes (origin : Origin) (keyword : Token) (amount : List Token)
      (body : List Statement) (amountSource : String)
  | repeatWith (origin : Origin) (keyword : Token) (amount : List Token) (counter : Token)
      (body : List Statement) (amountSource : String)
  | giveBack (origin : Origin) (keyword : Token) (value : List Token)
  | leave (origin : Origin) (keyword : Token)
  | print (origin : Origin) (keyword : Token) (text : String)
  | throw (origin : Origin) (keyword : Token) (text : String)
  deriving BEq

inductive Statement.Kind where
  | assign
  | define
  | inline
  | ifThen
  | elseIf
  | otherwise
  | loop
  | repeatUntil
  | repeatTimes
  | repeatWith
  | giveBack
  | leave
  | print
  | throw
  deriving DecidableEq

/-- The name under which results report a kind of statement. -/
def Statement.Kind.label : Statement.Kind → String
  | .assign => "set_variable"
  | .define => "set_function"
  | .inline => "inline_execution"
  | .ifThen => "if"
  | .elseIf => "elseif"
  | .otherwise => "else"
  | .loop => "loop"
  | .repeatUntil => "repeat_until"
  | .repeatTimes => "repeat_times"
  | .repeatWith => "repeat_times_with"
  | .giveBack => "return"
  | .leave => "break"
  | .print => "print"
  | .throw => "throw"

namespace Statement

def kind : Statement → Kind
  | .assign .. => .assign
  | .define .. => .define
  | .inline .. => .inline
  | .ifThen .. => .ifThen
  | .elseIf .. => .elseIf
  | .otherwise .. => .otherwise
  | .loop .. => .loop
  | .repeatUntil .. => .repeatUntil
  | .repeatTimes .. => .repeatTimes
  | .repeatWith .. => .repeatWith
  | .giveBack .. => .giveBack
  | .leave .. => .leave
  | .print .. => .print
  | .throw .. => .throw

def origin : Statement → Origin
  | .assign o .. => o
  | .define o .. => o
  | .inline o .. => o
  | .ifThen o .. => o
  | .elseIf o .. => o
  | .otherwise o .. => o
  | .loop o .. => o
  | .repeatUntil o .. => o
  | .repeatTimes o .. => o
  | .repeatWith o .. => o
  | .giveBack o .. => o
  | .leave o .. => o
  | .print o .. => o
  | .throw o .. => o

def source (s : Statement) : String :=
  s.origin.source

/-- The statements of the block of a statement that has one. -/
def body? : Statement → Option (List Statement)
  | .ifThen _ _ _ body _ => some body
  | .elseIf _ _ _ body _ => some body
  | .otherwise _ _ body => some body
  | .loop _ _ body => some body
  | .repeatUntil _ _ _ body _ => some body
  | .repeatTimes _ _ _ body _ => some body
  | .repeatWith _ _ _ _ body _ => some body
  | _ => none

end Statement

/-- The calls that the stack of the host has room for when a script is read or written. -/
def hostFrames : Nat := 1000

/-- A script: its statements and the source they came from. -/
structure Program where
  source : String
  body : List Statement
  deriving BEq

end Abacus
