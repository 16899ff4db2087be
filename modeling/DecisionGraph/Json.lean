namespace DecisionGraph

inductive Json where
  | null
  | bool (b : Bool)
  | integer (n : Int)
  | float (x : Float)
  | string (s : String)
  | array (items : List Json)
  | object (members : List (String × Json))
  /-- Follows the grammar but has no value: a number beyond binary64, a string with half a
  surrogate pair, a nesting beyond the limit. -/
  | unrepresentable

namespace Json

instance : Inhabited Json := ⟨null⟩

mutual
def representable : Json → Bool
  | array items => representableItems items
  | object members => representableMembers members
  | unrepresentable => false
  | _ => true
def representableItems : List Json → Bool
  | [] => true
  | j :: js => j.representable && representableItems js
def representableMembers : List (String × Json) → Bool
  | [] => true
  | (_, j) :: ms => j.representable && representableMembers ms
end

/-- The last member of that name. -/
def member? (j : Json) (name : String) : Option Json :=
  match j with
  | object members => members.foldl (fun found m => if m.1 = name then some m.2 else found) none
  | _ => none

end Json

end DecisionGraph
