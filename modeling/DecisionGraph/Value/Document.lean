import DecisionGraph.Json
import DecisionGraph.Value

namespace DecisionGraph.Value

def int64? (n : Int) : Option Int64 :=
  if Int64.minValue.toInt ≤ n && n ≤ Int64.maxValue.toInt then some (Int64.ofInt n) else none

def floatOfInt (n : Int) : Float :=
  if n < 0 then -n.natAbs.toUInt64.toFloat else n.toNat.toUInt64.toFloat

mutual
/-- The value of a document. A later member replaces an earlier one of the same name; an integer
beyond 64 signed bits is a float; a part without a value is null. -/
def ofJson : Json → Value
  | .null => null
  | .bool b => boolean b
  | .integer n => ((int64? n).map integer).getD (float (floatOfInt n))
  | .float x => float x
  | .string s => string s
  | .array items => list (ofJsonItems items)
  | .object members => context (ofJsonMembers .nil members)
  | .unrepresentable => null
def ofJsonItems : List Json → List Value
  | [] => []
  | j :: js => ofJson j :: ofJsonItems js
def ofJsonMembers (found : Bindings Value) : List (String × Json) → Bindings Value
  | [] => found
  | (n, j) :: ms => ofJsonMembers (found.insert n (ofJson j)) ms
end

def jsonOfFloat (x : Float) : Json := if x.isNaN || x.isInf then .null else .float x

mutual
/-- The tagged form; functions have none. -/
def tagged? : Value → Option Json
  | null => some (.string "Null")
  | boolean b => some (.object [("Boolean", .bool b)])
  | integer n => some (.object [("Integer", .integer n.toInt)])
  | float x => some (.object [("Float", jsonOfFloat x)])
  | string s => some (.object [("String", .string s)])
  | list items => (taggedItems? items).map fun js => .object [("List", .array js)]
  | context es => (taggedEntries? es).map fun ms => .object [("Context", .object ms)]
  | function _ => none
def taggedItems? : List Value → Option (List Json)
  | [] => some []
  | v :: vs => do some ((← v.tagged?) :: (← taggedItems? vs))
def taggedEntries? : Bindings Value → Option (List (String × Json))
  | .nil => some []
  | .cons n v r => do some ((n, ← v.tagged?) :: (← taggedEntries? r))
end

def noTaggedForm : String := "the enum variant Value::Function cannot be serialized"

mutual
/-- Reads the tagged form. An object has exactly one member, the tag; a float may be written as
an integer, an integer not as a float. -/
def ofTagged? : Json → Option Value
  | .string tag => if tag = "Null" then some null else none
  | .object [(tag, .null)] => if tag = "Null" then some null else none
  | .object [(tag, .bool b)] => if tag = "Boolean" then some (boolean b) else none
  | .object [(tag, .integer n)] =>
    if tag = "Integer" then (int64? n).map integer
    else if tag = "Float" then some (float (floatOfInt n)) else none
  | .object [(tag, .float x)] => if tag = "Float" then some (float x) else none
  | .object [(tag, .string s)] => if tag = "String" then some (string s) else none
  | .object [(tag, .array items)] =>
    if tag = "List" then (ofTaggedItems? items).map list else none
  | .object [(tag, .object members)] =>
    if tag = "Context" then (ofTaggedMembers? .nil members).map context else none
  | _ => none
def ofTaggedItems? : List Json → Option (List Value)
  | [] => some []
  | j :: js => do some ((← ofTagged? j) :: (← ofTaggedItems? js))
def ofTaggedMembers? (found : Bindings Value) : List (String × Json) → Option (Bindings Value)
  | [] => some found
  | (n, j) :: ms => do ofTaggedMembers? (found.insert n (← ofTagged? j)) ms
end

end DecisionGraph.Value
