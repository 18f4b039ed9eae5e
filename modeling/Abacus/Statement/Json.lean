import Abacus.Json.Basic
import Abacus.Statement.Basic

/-! Tokens and statements as JSON objects, written and read. The fields are written in a fixed
order and read by name; fields that may be missing have a default. A host whose stack has room for
so many calls opens one for every object and for every list that it is in. -/

namespace Abacus

inductive LoadError where
  | notAnObject
  | unknownType (shown : String)
  | missing (field : String)
  | mistyped (field : String)
  | tooDeep
  deriving DecidableEq

namespace Json

def depth : Json → Nat
  | .array items => depthItems items + 1
  | .object fields => depthFields fields + 1
  | _ => 0
where
  depthItems : List Json → Nat
    | [] => 0
    | j :: rest => max (depth j) (depthItems rest)
  depthFields : List (String × Json) → Nat
    | [] => 0
    | (_, j) :: rest => max (depth j) (depthFields rest)

abbrev Fields := List (String × Json)

def field (o : Fields) (name : String) : Except LoadError Json :=
  match lookup o name with
  | some j => .ok j
  | none => .error (.missing name)

def stringField (o : Fields) (name : String) : Except LoadError String := do
  match ← field o name with
  | .string s => return s
  | _ => throw (.mistyped name)

def intField (o : Fields) (name : String) : Except LoadError Int := do
  match ← field o name with
  | .int n => return n
  | _ => throw (.mistyped name)

def arrayField (o : Fields) (name : String) : Except LoadError (List Json) := do
  match ← field o name with
  | .array items => return items
  | _ => throw (.mistyped name)

def textOr (o : Fields) (name default : String) : Except LoadError String :=
  match lookup o name with
  | none => .ok default
  | some (.string s) => .ok s
  | some _ => .error (.mistyped name)

/-- A flag that may be missing; any value can stand for a flag. -/
def flag (o : Fields) (name : String) : Bool :=
  match lookup o name with
  | none => false
  | some j => j.truth

def nameOf : Json → Except LoadError String
  | .string s => .ok s
  | _ => .error (.mistyped "parameters")

end Json

namespace Token

mutual

def toJson : Token → Json
  | .leaf kind value index stop => .object (basics kind value index stop)
  | .group kind value index stop children opener closer =>
    .object (basics kind value index stop ++
      [("children", .array (toJsonAll children)), ("opener", toJson opener),
        ("closer", toJson closer)])
  | .call kind value index stop name arguments =>
    .object (basics kind value index stop ++
      [("name", toJson name), ("arguments", toJson arguments)])

def toJsonAll : List Token → List Json
  | [] => []
  | t :: rest => toJson t :: toJsonAll rest

def basics (kind : Kind) (value : String) (index stop : Int) : Json.Fields :=
  [("kind", .string kind.name), ("value", .string value), ("index", .int index),
    ("end", .int stop)]

end

/-- A token from its fields, given how an object and a list inside it are read. -/
def ofFields (read : Json → Except LoadError Token)
    (readAll : List Json → Except LoadError (List Token)) (o : Json.Fields) :
    Except LoadError Token := do
  let kind := Kind.ofName (← Json.stringField o "kind")
  let value ← Json.stringField o "value"
  let index ← Json.intField o "index"
  let stop ← Json.intField o "end"
  if (Json.lookup o "arguments").isSome then
    let name ← read (← Json.field o "name")
    let arguments ← read (← Json.field o "arguments")
    return .call kind value index stop name arguments
  else if (Json.lookup o "children").isSome then
    let children ← readAll (← Json.arrayField o "children")
    let opener ← read (← Json.field o "opener")
    let closer ← read (← Json.field o "closer")
    return .group kind value index stop children opener closer
  else return .leaf kind value index stop

/-- Reads a token with room for `frames` calls. -/
def decode : Nat → Json → Except LoadError Token
  | 0, _ => .error .tooDeep
  | 1, .object o => ofFields (fun _ => .error .tooDeep) (fun _ => .error .tooDeep) o
  | frames + 2, .object o =>
    ofFields (decode (frames + 1)) (fun items => items.mapM (decode frames)) o
  | _ + 1, _ => .error (.mistyped "token")

def decodeAll : Nat → List Json → Except LoadError (List Token)
  | 0, _ => .error .tooDeep
  | frames + 1, items => items.mapM (decode frames)

end Token

namespace Statement

def Kind.typeName : Statement.Kind → String
  | .assign => "SetVariable"
  | .define => "SetFunction"
  | .inline => "InlineExecution"
  | .ifThen => "IfStmt"
  | .elseIf => "ElseIfStmt"
  | .otherwise => "ElseStmt"
  | .loop => "LoopStmt"
  | .repeatUntil => "RepeatUntil"
  | .repeatTimes => "RepeatTimes"
  | .repeatWith => "RepeatTimesWith"
  | .giveBack => "ReturnStmt"
  | .leave => "BreakStmt"
  | .print => "PrintStmt"
  | .throw => "ThrowStmt"

def Kind.all : List Statement.Kind :=
  [.assign, .define, .inline, .ifThen, .elseIf, .otherwise, .loop, .repeatUntil, .repeatTimes,
    .repeatWith, .giveBack, .leave, .print, .throw]

def Kind.ofTypeName? (name : String) : Option Statement.Kind :=
  Kind.all.find? (fun k => k.typeName == name)

end Statement

/-- What an object of a tree stands for: a statement, or a program, which may also stand in the
block of a statement. -/
inductive Node where
  | program (source : String) (body : List Node)
  | assign (origin : Origin) (name : Token) (value : List Token) (fresh constant : Bool)
      (valueSource : String)
  | define (origin : Origin) (name : Token) (parameters : List String) (value : List Token)
      (valueSource : String)
  | inline (origin : Origin) (value : List Token)
  | ifThen (origin : Origin) (keyword : Token) (condition : List Token) (body : List Node)
      (conditionSource : String)
  | elseIf (origin : Origin) (keyword : Token) (condition : List Token) (body : List Node)
      (conditionSource : String)
  | otherwise (origin : Origin) (keyword : Token) (body : List Node)
  | loop (origin : Origin) (keyword : Token) (body : List Node)
  | repeatUntil (origin : Origin) (keyword : Token) (condition : List Token) (body : List Node)
      (conditionSource : String)
  | repeatTimes (origin : Origin) (keyword : Token) (amount : List Token) (body : List Node)
      (amountSource : String)
  | repeatWith (origin : Origin) (keyword : Token) (amount : List Token) (counter : Token)
      (body : List Node) (amountSource : String)
  | giveBack (origin : Origin) (keyword : Token) (value : List Token)
  | leave (origin : Origin) (keyword : Token)
  | print (origin : Origin) (keyword : Token) (text : String)
  | throw (origin : Origin) (keyword : Token) (text : String)
  deriving BEq

namespace Node

mutual

def ofStatement : Statement → Node
  | .assign o name value fresh constant source => .assign o name value fresh constant source
  | .define o name parameters value source => .define o name parameters value source
  | .inline o value => .inline o value
  | .ifThen o keyword condition body source =>
    .ifThen o keyword condition (ofStatements body) source
  | .elseIf o keyword condition body source =>
    .elseIf o keyword condition (ofStatements body) source
  | .otherwise o keyword body => .otherwise o keyword (ofStatements body)
  | .loop o keyword body => .loop o keyword (ofStatements body)
  | .repeatUntil o keyword condition body source =>
    .repeatUntil o keyword condition (ofStatements body) source
  | .repeatTimes o keyword amount body source =>
    .repeatTimes o keyword amount (ofStatements body) source
  | .repeatWith o keyword amount counter body source =>
    .repeatWith o keyword amount counter (ofStatements body) source
  | .giveBack o keyword value => .giveBack o keyword value
  | .leave o keyword => .leave o keyword
  | .print o keyword text => .print o keyword text
  | .throw o keyword text => .throw o keyword text

def ofStatements : List Statement → List Node
  | [] => []
  | s :: rest => ofStatement s :: ofStatements rest

end

def ofProgram (p : Program) : Node :=
  .program p.source (ofStatements p.body)

mutual

/-- The statement that a node stands for; a program stands for none. -/
def statement? : Node → Option Statement
  | .program .. => none
  | .assign o name value fresh constant source => some (.assign o name value fresh constant source)
  | .define o name parameters value source => some (.define o name parameters value source)
  | .inline o value => some (.inline o value)
  | .ifThen o keyword condition body source =>
    (statements? body).map (.ifThen o keyword condition · source)
  | .elseIf o keyword condition body source =>
    (statements? body).map (.elseIf o keyword condition · source)
  | .otherwise o keyword body => (statements? body).map (.otherwise o keyword)
  | .loop o keyword body => (statements? body).map (.loop o keyword)
  | .repeatUntil o keyword condition body source =>
    (statements? body).map (.repeatUntil o keyword condition · source)
  | .repeatTimes o keyword amount body source =>
    (statements? body).map (.repeatTimes o keyword amount · source)
  | .repeatWith o keyword amount counter body source =>
    (statements? body).map (.repeatWith o keyword amount counter · source)
  | .giveBack o keyword value => some (.giveBack o keyword value)
  | .leave o keyword => some (.leave o keyword)
  | .print o keyword text => some (.print o keyword text)
  | .throw o keyword text => some (.throw o keyword text)

def statements? : List Node → Option (List Statement)
  | [] => some []
  | n :: rest => do
    let s ← statement? n
    let others ← statements? rest
    return s :: others

end

/-- The script that a node stands for: a statement with a block stands for its block. -/
def program? : Node → Option Program
  | .program source body => (statements? body).map (⟨source, ·⟩)
  | n => do
    let s ← n.statement?
    let body ← s.body?
    return ⟨s.source, body⟩

def header (kind : Statement.Kind) (o : Origin) : Json.Fields :=
  [("type", .string kind.typeName), ("source", .string o.source), ("index", .int o.index),
    ("end", .int o.stop)]

/-- The fields of a statement with a condition and a block. -/
def conditional (keyword : Token) (condition : List Token) (body : List Json)
    (conditionSource : String) : Json.Fields :=
  [("keyword", keyword.toJson), ("condition", .array (Token.toJsonAll condition)),
    ("body", .array body), ("condition_source", .string conditionSource)]

/-- The fields of a counted loop. -/
def counted (keyword : Token) (amount : List Token) (body : List Json) (amountSource : String) :
    Json.Fields :=
  [("keyword", keyword.toJson), ("amount", .array (Token.toJsonAll amount)),
    ("body", .array body), ("amount_source", .string amountSource)]

mutual

def toJson : Node → Json
  | .program source body =>
    .object [("type", .string "Program"), ("source", .string source),
      ("body", .array (toJsonAll body))]
  | .assign o name value fresh constant valueSource =>
    .object (header .assign o ++
      [("name", name.toJson), ("value", .array (Token.toJsonAll value)), ("new", .bool fresh),
        ("constant", .bool constant), ("value_source", .string valueSource)])
  | .define o name parameters value valueSource =>
    .object (header .define o ++
      [("name", name.toJson), ("parameters", .array (parameters.map Json.string)),
        ("value", .array (Token.toJsonAll value)), ("value_source", .string valueSource)])
  | .inline o value => .object (header .inline o ++ [("value", .array (Token.toJsonAll value))])
  | .ifThen o keyword condition body conditionSource =>
    .object (header .ifThen o ++
      conditional keyword condition (toJsonAll body) conditionSource)
  | .elseIf o keyword condition body conditionSource =>
    .object (header .elseIf o ++
      conditional keyword condition (toJsonAll body) conditionSource)
  | .otherwise o keyword body =>
    .object (header .otherwise o ++
      [("keyword", keyword.toJson), ("body", .array (toJsonAll body))])
  | .loop o keyword body =>
    .object (header .loop o ++
      [("keyword", keyword.toJson), ("body", .array (toJsonAll body))])
  | .repeatUntil o keyword condition body conditionSource =>
    .object (header .repeatUntil o ++
      conditional keyword condition (toJsonAll body) conditionSource)
  | .repeatTimes o keyword amount body amountSource =>
    .object (header .repeatTimes o ++ counted keyword amount (toJsonAll body) amountSource)
  | .repeatWith o keyword amount counter body amountSource =>
    .object (header .repeatWith o ++ (counted keyword amount (toJsonAll body) amountSource ++
      [("variable", counter.toJson)]))
  | .giveBack o keyword value =>
    .object (header .giveBack o ++
      [("keyword", keyword.toJson), ("value", .array (Token.toJsonAll value))])
  | .leave o keyword => .object (header .leave o ++ [("keyword", keyword.toJson)])
  | .print o keyword text =>
    .object (header .print o ++ [("keyword", keyword.toJson), ("text", .string text)])
  | .throw o keyword text =>
    .object (header .throw o ++ [("keyword", keyword.toJson), ("text", .string text)])

def toJsonAll : List Node → List Json
  | [] => []
  | n :: rest => toJson n :: toJsonAll rest

end

/-- Writes a node with room for `frames` calls. -/
def encode (frames : Nat) (n : Node) : Except LoadError Json :=
  if n.toJson.depth ≤ frames then .ok n.toJson else .error .tooDeep

/-- How a message shows the type of an object that has none of the known types. -/
def shownType : Option Json → String
  | none => "None"
  | some .null => "None"
  | some (.bool b) => if b then "True" else "False"
  | some (.int n) => toString n
  | some (.decimal text) => text
  | some (.string s) => s
  | some (.array _) => "[]"
  | some (.object _) => "\x7b\x7d"

def kindOf (o : Json.Fields) : Except LoadError Statement.Kind :=
  match Json.lookup o "type" with
  | some (.string name) =>
    match Statement.Kind.ofTypeName? name with
    | some kind => .ok kind
    | none => .error (.unknownType name)
  | other => .error (.unknownType (shownType other))

def isProgram (o : Json.Fields) : Bool :=
  match Json.lookup o "type" with
  | some (.string name) => name == "Program"
  | _ => false

section
variable (token : Json → Except LoadError Token)
  (tokens : List Json → Except LoadError (List Token))
  (nodes : List Json → Except LoadError (List Node))

/-- Reads a statement, given how the tokens and the blocks inside it are read. -/
def ofStatementFields (o : Json.Fields) : Except LoadError Node := do
  let source ← Json.stringField o "source"
  let index ← Json.intField o "index"
  let stop ← Json.intField o "end"
  let origin : Origin := ⟨source, index, stop⟩
  let one (name : String) : Except LoadError Token := do token (← Json.field o name)
  let run (name : String) : Except LoadError (List Token) := do tokens (← Json.arrayField o name)
  let body : Except LoadError (List Node) := do nodes (← Json.arrayField o "body")
  match ← kindOf o with
  | .assign =>
    let name ← one "name"
    let value ← run "value"
    return .assign origin name value (Json.flag o "new") (Json.flag o "constant")
      (← Json.textOr o "value_source" "")
  | .define =>
    let name ← one "name"
    let parameters ← (← Json.arrayField o "parameters").mapM Json.nameOf
    let value ← run "value"
    return .define origin name parameters value (← Json.textOr o "value_source" "")
  | .inline => return .inline origin (← run "value")
  | .ifThen =>
    let keyword ← one "keyword"
    let condition ← run "condition"
    return .ifThen origin keyword condition (← body) (← Json.textOr o "condition_source" "")
  | .elseIf =>
    let keyword ← one "keyword"
    let condition ← run "condition"
    return .elseIf origin keyword condition (← body) (← Json.textOr o "condition_source" "")
  | .otherwise =>
    let keyword ← one "keyword"
    return .otherwise origin keyword (← body)
  | .loop =>
    let keyword ← one "keyword"
    return .loop origin keyword (← body)
  | .repeatUntil =>
    let keyword ← one "keyword"
    let condition ← run "condition"
    return .repeatUntil origin keyword condition (← body) (← Json.textOr o "condition_source" "")
  | .repeatTimes =>
    let keyword ← one "keyword"
    let amount ← run "amount"
    return .repeatTimes origin keyword amount (← body) (← Json.textOr o "amount_source" "")
  | .repeatWith =>
    let keyword ← one "keyword"
    let amount ← run "amount"
    let counter ← one "variable"
    return .repeatWith origin keyword amount counter (← body)
      (← Json.textOr o "amount_source" "")
  | .giveBack =>
    let keyword ← one "keyword"
    return .giveBack origin keyword (← run "value")
  | .leave => return .leave origin (← one "keyword")
  | .print =>
    let keyword ← one "keyword"
    return .print origin keyword (← Json.stringField o "text")
  | .throw =>
    let keyword ← one "keyword"
    return .throw origin keyword (← Json.stringField o "text")

def ofFields (o : Json.Fields) : Except LoadError Node :=
  if isProgram o then do
    let source ← Json.stringField o "source"
    return .program source (← nodes (← Json.arrayField o "body"))
  else ofStatementFields token tokens nodes o

end

/-- Reads a node with room for `frames` calls. -/
def decode : Nat → Json → Except LoadError Node
  | 0, _ => .error .tooDeep
  | 1, .object o =>
    ofFields (Token.decode 0) (Token.decodeAll 0) (fun _ => .error .tooDeep) o
  | frames + 2, .object o =>
    ofFields (Token.decode (frames + 1)) (Token.decodeAll (frames + 1))
      (fun items => items.mapM (decode frames)) o
  | _ + 1, _ => .error .notAnObject

def decodeAll : Nat → List Json → Except LoadError (List Node)
  | 0, _ => .error .tooDeep
  | frames + 1, items => items.mapM (decode frames)

end Node

end Abacus
