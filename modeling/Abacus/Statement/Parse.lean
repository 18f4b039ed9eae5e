import Abacus.Statement.Basic
import Abacus.Token.Group
import Abacus.Token.Scan

/-! Statements of a grouped token list. A simple statement ends at a newline or a semicolon; a
backslash takes one such end away. Blocks are read from the groups that hold them. -/

namespace Abacus

namespace Token

mutual

def weight : Token → Nat
  | .leaf .. => 1
  | .group _ _ _ _ children _ _ => 1 + weightAll children
  | .call .. => 1

def weightAll : List Token → Nat
  | [] => 0
  | t :: rest => weight t + weightAll rest

end

/-- The tokens up to the end of the line and the rest from there on. Each of the `pending`
backslashes since the last other token takes one end away. -/
def lineFrom : Nat → List Token → List Token × List Token
  | _, [] => ([], [])
  | pending, t :: rest =>
    if t.isTerminator then
      match pending with
      | 0 => ([], t :: rest)
      | pending + 1 => lineFrom pending rest
    else if t.isSymbol "\\" then lineFrom (pending + 1) rest
    else
      let (line, rest) := lineFrom 0 rest
      (t :: line, rest)

def line (tokens : List Token) : List Token × List Token :=
  lineFrom 0 tokens

/-- The tokens up to the first block of the line, that block and the rest behind it. -/
def blockFrom : Nat → List Token → Option (List Token × Token × List Token)
  | _, [] => none
  | pending, t :: rest =>
    if t.isBlock then some ([], t, rest)
    else if t.isTerminator then
      match pending with
      | 0 => none
      | pending + 1 => blockFrom pending rest
    else if t.isSymbol "\\" then blockFrom (pending + 1) rest
    else (blockFrom 0 rest).map (fun (line, block, rest) => (t :: line, block, rest))

/-- The tokens before the word `times` and the rest behind it, all on one line. -/
def amountFrom : List Token → Option (List Token × List Token)
  | [] => none
  | t :: rest =>
    if t.isTerminator || t.isBlock then none
    else if t.is .word "times" then some ([], rest)
    else (amountFrom rest).map (fun (amount, rest) => (t :: amount, rest))

def children : Token → List Token
  | .group _ _ _ _ children _ _ => children
  | _ => []

def stopOf (tokens : List Token) (default : Int) : Int :=
  (tokens.getLast?.map Token.stop).getD default

def fault (t : Token) (message : String) : Fault :=
  ⟨t.index, message, t.length⟩

end Token

namespace Statement

/-- The first statement of a token list with its block still unread: the tokens of the block, the
statement as a function of its block, and the tokens behind it. -/
structure Head where
  inner : List Token
  finish : List Statement → Statement
  rest : List Token

def Head.simple (s : Statement) (rest : List Token) : Head :=
  ⟨[], fun _ => s, rest⟩

def originOf (source : String) (first : Token) (stop : Int) : Origin :=
  ⟨Text.slice source first.index stop, first.index, stop⟩

def compoundOperators : List String :=
  ["+", "-", "*", "/", "%", "^"]

/-- `name += 1` at the end of a line may be written `name++`, and `name -= 1` as `name--`. -/
def stepHead (source : String) (name op second : Token) (rest : List Token) : Head :=
  let one := Token.leaf .integer "1" second.index second.stop
  .simple (.assign (originOf source name second.stop) name [name, op, one] false false
    (name.value ++ " " ++ op.value ++ " 1")) rest

/-- `name op= value` assigns `name op (value)`. -/
def compoundHead (source : String) (name op equals : Token) (rest : List Token) : Head :=
  let (value, rest) := Token.line rest
  let stop := Token.stopOf value equals.stop
  let inner := Token.sourceOf source value
  let start := (value.head?.map Token.index).getD equals.stop
  let group := Token.group .group ("(" ++ inner ++ ")") start stop value
    (.leaf .symbol "(" start start) (.leaf .symbol ")" stop stop)
  .simple (.assign (originOf source name stop) name [name, op, group] false false
    (name.value ++ " " ++ op.value ++ " (" ++ inner ++ ")")) rest

/-- A compound assignment to `name`, if one starts here. -/
def compound? (source : String) (name : Token) : List Token → Option Head
  | op :: second :: rest =>
    if op.kind = .operator ∧ op.value ∈ compoundOperators then
      if (op.value = "+" ∨ op.value = "-") ∧ second.kind = .operator ∧ second.value = op.value then
        if rest.head?.all Token.isTerminator then some (stepHead source name op second rest)
        else none
      else if second.isSymbol "=" then some (compoundHead source name op second rest)
      else none
    else none
  | _ => none

def assignHead (source : String) (first name equals : Token) (fresh constant : Bool)
    (rest : List Token) : Head :=
  let (value, rest) := Token.line rest
  .simple (.assign (originOf source first (Token.stopOf value equals.stop)) name value fresh
    constant (Token.sourceOf source value)) rest

/-- The declaration after `let` or `const`. -/
def declareHead (source : String) (keyword : Token) (constant : Bool) :
    List Token → Except Fault Head
  | [] => .error (keyword.fault "Expected a variable name.")
  | name :: rest =>
    if name.isName then
      match rest with
      | equals :: rest =>
        if equals.isSymbol "=" then .ok (assignHead source keyword name equals true constant rest)
        else .error (name.fault "Expected '=' after the variable name.")
      | [] => .error (name.fault "Expected '=' after the variable name.")
    else .error (name.fault "Expected a variable name.")

def parameterName (strict : Bool) (t : Token) : Except Fault String :=
  if t.isName then
    if strict && t.value.length != 1 then
      .error (t.fault "Expected a one-character variable name in strict mode.")
    else .ok t.value
  else .error (t.fault "Expected a variable name for the function parameter.")

def parameterNames (strict : Bool) : List Token → Except Fault (List String)
  | [] => .ok []
  | [t] => do
    let name ← parameterName strict t
    return [name]
  | t :: comma :: rest => do
    let name ← parameterName strict t
    if comma.value = "," then
      match rest with
      | [] => .error (comma.fault "Expected a variable name for the function parameter.")
      | _ =>
        let names ← parameterNames strict rest
        return name :: names
    else .error (comma.fault "Expected a comma between the parameters of the function.")

/-- The definition of the function that `name(arguments)` calls. -/
def defineHead (source : String) (strict : Bool) (call name arguments equals : Token)
    (rest : List Token) : Except Fault Head := do
  let parameters ← parameterNames strict (arguments.children.filter (fun t => !t.isTerminator))
  let (value, rest) := Token.line rest
  return .simple (.define (originOf source call (Token.stopOf value equals.stop)) name parameters
    value (Token.sourceOf source value)) rest

/-- A definition whose call is not yet fused, as strict mode leaves it. -/
def looseDefine? (source : String) (strict : Bool) (t : Token) :
    List Token → Option (Except Fault Head)
  | arguments :: equals :: rest =>
    if strict && t.isName && arguments.isParenthesized && equals.isSymbol "=" then
      some (defineHead source strict (Token.fuse t arguments) t arguments equals rest)
    else none
  | _ => none

/-- A definition, if one starts here. -/
def define? (source : String) (strict : Bool) (t : Token) (rest : List Token) :
    Option (Except Fault Head) :=
  match t, rest with
  | .call _ _ _ _ name arguments, equals :: rest =>
    if equals.isSymbol "=" then some (defineHead source strict t name arguments equals rest)
    else looseDefine? source strict t (equals :: rest)
  | _, _ => looseDefine? source strict t rest

/-- The condition and the block of a statement that has both. -/
def conditionHead (source : String) (keyword : Token) (what : String)
    (make : Origin → List Token → List Statement → String → Statement) (rest : List Token) :
    Except Fault Head :=
  match Token.blockFrom 0 rest with
  | none => .error (keyword.fault ("Expected a '\x7b' block after the " ++ what ++ "."))
  | some (condition, block, rest) =>
    if condition.isEmpty then .error (keyword.fault ("Expected a condition for the " ++ what ++ "."))
    else
      let origin := originOf source keyword block.stop
      .ok ⟨block.children,
        fun body => make origin condition body (Token.sourceOf source condition), rest⟩

def blockHead (source : String) (keyword : Token) (what : String)
    (make : Origin → List Statement → Statement) : List Token → Except Fault Head
  | [] => .error (keyword.fault ("Expected a '\x7b' block after " ++ what ++ "."))
  | block :: rest =>
    if block.isBlock then
      .ok ⟨block.children, make (originOf source keyword block.stop), rest⟩
    else .error (keyword.fault ("Expected a '\x7b' block after " ++ what ++ "."))

/-- An `else` continues the condition right before it. -/
def elseHead (source : String) (afterCondition : Bool) (keyword : Token) (rest : List Token) :
    Except Fault Head :=
  if afterCondition then
    match rest with
    | [] => blockHead source keyword "else" (fun o body => .otherwise o keyword body) []
    | t :: after =>
      if t.is .word "if" then
        conditionHead source keyword "else if statement" (fun o c b s => .elseIf o keyword c b s)
          after
      else blockHead source keyword "else" (fun o body => .otherwise o keyword body) rest
  else .error (keyword.fault "Expected an if statement before else.")

/-- What follows `repeat amount times with`. -/
def counterHead (source : String) (keyword withWord : Token) (amount : List Token) :
    List Token → Except Fault Head
  | [] => .error (withWord.fault "Expected a variable name after 'with'.")
  | counter :: rest =>
    if counter.isName then
      blockHead source keyword "the repeat loop"
        (fun o body => .repeatWith o keyword amount counter body (Token.sourceOf source amount)) rest
    else .error (counter.fault "Expected a variable name after 'with'.")

def timesHead (source : String) (keyword : Token) (rest : List Token) : Except Fault Head :=
  match Token.amountFrom rest with
  | none => .error (keyword.fault "Expected 'times' after the repeat amount.")
  | some (amount, rest) =>
    if amount.isEmpty then .error (keyword.fault "Expected a repeat amount.")
    else
      let plain := blockHead source keyword "the repeat loop"
        (fun o body => .repeatTimes o keyword amount body (Token.sourceOf source amount)) rest
      match rest with
      | t :: after =>
        if t.is .word "with" then counterHead source keyword t amount after else plain
      | [] => plain

def repeatHead (source : String) (keyword : Token) (rest : List Token) : Except Fault Head :=
  match rest with
  | t :: after =>
    if t.is .word "until" then
      conditionHead source keyword "repeat until loop" (fun o c b s => .repeatUntil o keyword c b s)
        after
    else timesHead source keyword rest
  | [] => timesHead source keyword rest

def returnHead (source : String) (keyword : Token) (rest : List Token) : Head :=
  let (value, rest) := Token.line rest
  .simple (.giveBack (originOf source keyword (Token.stopOf value keyword.stop)) keyword value) rest

/-- A statement whose operand is the raw text of its line. -/
def textHead (source : String) (keyword : Token) (make : Origin → String → Statement)
    (rest : List Token) : Head :=
  let (value, rest) := Token.line rest
  .simple (make (originOf source keyword (Token.stopOf value keyword.stop))
    (Token.sourceOf source value)) rest

def declare? (source : String) (t : Token) (rest : List Token) : Option (Except Fault Head) :=
  if t.is .word "let" then some (declareHead source t false rest)
  else if t.is .word "const" then some (declareHead source t true rest)
  else none

/-- The statement that another keyword starts, if it starts one. -/
def keywordHead? (source : String) (afterCondition : Bool) (t : Token) (rest : List Token) :
    Option (Except Fault Head) :=
  if t.kind = .word then
    match t.value with
    | "if" =>
      some (conditionHead source t "if statement" (fun o c b s => .ifThen o t c b s) rest)
    | "else" => some (elseHead source afterCondition t rest)
    | "repeat" => some (repeatHead source t rest)
    | "loop" => some (blockHead source t "loop" (fun o body => .loop o t body) rest)
    | "return" => some (.ok (returnHead source t rest))
    | "break" => some (.ok (.simple (.leave (originOf source t t.stop) t) rest))
    | "print" => some (.ok (textHead source t (fun o text => .print o t text) rest))
    | "throw" => some (.ok (textHead source t (fun o text => .throw o t text) rest))
    | _ => none
  else none

def assign? (source : String) (t : Token) (rest : List Token) : Option Head :=
  if t.isName then
    match compound? source t rest with
    | some head => some head
    | none =>
      match rest with
      | equals :: rest =>
        if equals.isSymbol "=" then some (assignHead source t t equals false false rest) else none
      | [] => none
  else none

/-- A line that starts with a value is an expression to evaluate. -/
def inlineHead (source : String) (t : Token) (rest : List Token) : Except Fault Head :=
  if t.isValue then
    let (value, rest) := Token.line rest
    .ok (.simple (.inline (originOf source t (Token.stopOf value t.stop)) (t :: value)) rest)
  else .error (t.fault "Unexpected symbol.")

/-- The head of the statement that starts with `t`, which ends no line. -/
def head (source : String) (strict afterCondition : Bool) (t : Token) (rest : List Token) :
    Except Fault Head :=
  let found := ((assign? source t rest).map Except.ok) <|> declare? source t rest <|>
    define? source strict t rest <|> keywordHead? source afterCondition t rest
  found.getD (inlineHead source t rest)

/-- An `else` may follow. -/
def isCondition : Statement → Bool
  | .ifThen .. | .elseIf .. => true
  | _ => false

/-- Reads statements; the fuel bounds the number of tokens at every depth. -/
def readFrom (source : String) (strict : Bool) :
    Nat → Bool → List Token → Except Fault (List Statement)
  | 0, _, _ => .ok []
  | _ + 1, _, [] => .ok []
  | fuel + 1, afterCondition, t :: rest =>
    if t.isTerminator then readFrom source strict fuel afterCondition rest
    else do
      let head ← head source strict afterCondition t rest
      let body ← readFrom source strict fuel false head.inner
      let statement := head.finish body
      let others ← readFrom source strict fuel statement.isCondition head.rest
      return statement :: others

def ofTokens (source : String) (strict : Bool) (tokens : List Token) :
    Except Fault (List Statement) :=
  readFrom source strict (Token.weightAll tokens) false tokens

end Statement

/-- Reads a source as a host does whose stack is deep enough. -/
def Program.parse (source : String) (strict : Bool) : Except Fault Program := do
  let tokens ← Token.groupAll source strict (Token.scan source)
  let body ← Statement.ofTokens source strict tokens
  return ⟨source, body⟩

/-- Why a source is not read: a fault in it, or blocks nested deeper than the host's stack. -/
inductive ReadError where
  | fault (f : Fault)
  | tooDeep
  deriving DecidableEq

namespace Statement

/-- Reads a block with one level less than there are; an empty one takes none. -/
def blockWithin (read : Nat → List Token → Except ReadError (List Statement)) :
    Nat → List Token → Except ReadError (List Statement)
  | _, [] => .ok []
  | 0, _ :: _ => .error .tooDeep
  | levels + 1, inner => read levels inner

/-- Reads statements as `readFrom` does, with at most `levels` blocks open one inside the other. -/
def readWithin (source : String) (strict : Bool) :
    Nat → Nat → Bool → List Token → Except ReadError (List Statement)
  | 0, _, _, _ => .ok []
  | _ + 1, _, _, [] => .ok []
  | fuel + 1, levels, afterCondition, t :: rest =>
    if t.isTerminator then readWithin source strict fuel levels afterCondition rest
    else do
      let head ← (head source strict afterCondition t rest).mapError .fault
      let body ← blockWithin (fun levels => readWithin source strict fuel levels false) levels
        head.inner
      let statement := head.finish body
      let others ← readWithin source strict fuel levels statement.isCondition head.rest
      return statement :: others

/-- The calls of the host that are open for one block. -/
def framesPerBlock : Nat := 4

end Statement

/-- Reads a source on a host whose stack has room for so many calls. -/
def Program.read (frames : Nat) (source : String) (strict : Bool) : Except ReadError Program := do
  let tokens ← (Token.groupAll source strict (Token.scan source)).mapError .fault
  let body ← Statement.readWithin source strict (Token.weightAll tokens)
    (frames / Statement.framesPerBlock) false tokens
  return ⟨source, body⟩

end Abacus
