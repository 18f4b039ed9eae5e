/-! Values of the JSON data format. The fields of an object keep the order in which they were first
written. -/

namespace Abacus

/-- A number with a point or an exponent keeps its spelling. -/
inductive Json where
  | null
  | bool (b : Bool)
  | int (n : Int)
  | decimal (text : String)
  | string (s : String)
  | array (items : List Json)
  | object (fields : List (String × Json))
  deriving BEq

namespace Json

def lookup (fields : List (String × Json)) (name : String) : Option Json :=
  (fields.find? (fun f => f.1 == name)).map (·.2)

/-- Sets a field; a field that is already there keeps its place. -/
def setField (fields : List (String × Json)) (name : String) (v : Json) : List (String × Json) :=
  if fields.any (fun f => f.1 == name) then
    fields.map (fun f => if f.1 == name then (name, v) else f)
  else fields ++ [(name, v)]

def get? (j : Json) (name : String) : Option Json :=
  match j with
  | .object fields => lookup fields name
  | _ => none

/-- A spelled number is zero when its digits before the exponent are. -/
def isZeroText (text : String) : Bool :=
  (text.toList.takeWhile (fun c => c ≠ 'e' ∧ c ≠ 'E')).all (fun c => c ∈ ['-', '.', '0'])

/-- Zero, nothing, and whatever is empty count as false. -/
def truth : Json → Bool
  | .null => false
  | .bool b => b
  | .int n => n ≠ 0
  | .decimal text => !isZeroText text
  | .string s => s ≠ ""
  | .array items => !items.isEmpty
  | .object fields => !fields.isEmpty

end Json

end Abacus
