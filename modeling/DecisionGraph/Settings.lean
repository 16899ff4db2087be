import DecisionGraph.Fault
import DecisionGraph.Json.Reader

namespace DecisionGraph

/-- How a node of an imported model is checked for a value before its scope is entered. -/
inductive ImportLookup where
  /-- The context bound under the name of the import may hold the value already. -/
  | aliasContext
  /-- Outside its own scope there never is a value. -/
  | alwaysDescend
deriving DecidableEq, Inhabited

namespace ImportLookup

def all : List ImportLookup := [aliasContext, alwaysDescend]

def text : ImportLookup → String
  | aliasContext => "alias_context"
  | alwaysDescend => "always_descend"

def ofText? (s : String) : Option ImportLookup := all.find? fun x => x.text == s

/-- A text, or an object with the text as its only name and nothing under it. -/
def ofJson? : Json → Option ImportLookup
  | .string s => ofText? s
  | .object [(s, .null)] => ofText? s
  | _ => none

end ImportLookup

structure Settings where
  /-- Turns type checks on, whatever the model says. -/
  typeCheck : Bool
  /-- How deep evaluations of nodes may nest in one request. -/
  maxDepth : Nat
  importLookup : ImportLookup
deriving DecidableEq, Inhabited

inductive Setting where
  | typeCheck (enabled : Bool)
  | maxDepth (depth : Nat)
  | importLookup (lookup : ImportLookup)
deriving DecidableEq, Inhabited

namespace Settings

def default : Settings := ⟨false, 256, .aliasContext⟩

def apply (s : Settings) : Setting → Settings
  | .typeCheck enabled => { s with typeCheck := enabled }
  | .maxDepth depth => { s with maxDepth := depth }
  | .importLookup lookup => { s with importLookup := lookup }

def typeCheckFor (s : Settings) (modelFlag : Bool) : Bool := s.typeCheck || modelFlag

def toJson (s : Settings) : Json :=
  .object [
    ("runtime_type_check", .bool s.typeCheck),
    ("max_evaluation_depth", .integer s.maxDepth),
    ("import_value_lookup", .string s.importLookup.text)]

def boolOf? : Json → Option Bool
  | .bool b => some b
  | _ => none

def depthOf? : Json → Option Nat
  | .integer n => if 0 ≤ n then some n.toNat else none
  | _ => none

def field? {α : Type} (read : Json → Option α) (default : α) : List Json → Option α
  | [] => some default
  | [j] => read j
  | _ => none

def ofFields? (typeCheck maxDepth importLookup : List Json) : Option Settings := do
  some ⟨← field? boolOf? default.typeCheck typeCheck, ← field? depthOf? default.maxDepth maxDepth,
    ← field? ImportLookup.ofJson? default.importLookup importLookup⟩

def valuesOf (members : List (String × Json)) (name : String) : List Json :=
  (members.filter fun m => m.1 == name).map Prod.snd

def ofJson? : Json → Option Settings
  | .object members => ofFields? (valuesOf members "runtime_type_check")
      (valuesOf members "max_evaluation_depth") (valuesOf members "import_value_lookup")
  | .array items =>
    if items.length ≤ 3 then
      ofFields? (items.take 1) ((items.drop 1).take 1) ((items.drop 2).take 1)
    else none
  | _ => none

def ofText (text : String) : Except SettingsError Settings :=
  match (Json.parse? text).bind ofJson? with
  | some s => .ok s
  | none => .error (.malformed "no settings in this JSON form")

/-- The settings in a file, whose text is missing if it cannot be read. -/
def ofFile : Option String → Except SettingsError Settings
  | some text => ofText text
  | none => .error (.unreadable "no such file")

end Settings

end DecisionGraph
