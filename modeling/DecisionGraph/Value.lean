import DecisionGraph.Bindings
import DecisionGraph.Decimal.Numeral
import DecisionGraph.Diagnostic
import DecisionGraph.Fault

namespace DecisionGraph

/-- A step of an expression that reads or changes its surroundings. -/
inductive Effect where
  | get (name : String)
  | nested (outer name : String)
  | defined (name : String)
  | scope
  | push (name ns : String)
  | pop
  | status (id : String)
  | messages
  | report (severity : Severity) (source : Option String) (cause : Option EvalError) (d : Diagnostic)
  | count (label : String)
  | listen (label : String)
  | unlisten (label : String)

/-- A request that an expression starts: on a registered model, or on its own. -/
structure Inquiry where
  ns : Option String
  model : String
  names : List String

mutual
inductive Value where
  | null
  | boolean (b : Bool)
  | integer (n : Int64)
  | float (x : Float)
  | string (s : String)
  | list (items : List Value)
  | context (entries : Bindings Value)
  | function (f : FunctionValue)

structure FunctionValue where
  name : String
  parameters : List String
  body : Expr
  /-- Tells the functions apart that were created separately. -/
  origin : Nat

inductive Expr where
  | const (v : Value)
  | argument (i : Nat)
  | fail (e : EvalError)
  | failure
  | sum (terms : List Expr)
  | product (factors : List Expr)
  | atLeast (left right : Expr)
  | negation (e : Expr)
  | list (items : List Expr)
  | context (entries : List (String × Expr))
  | display (e : Expr)
  | kind (e : Expr)
  | sequence (steps : List Expr)
  | attempt (e : Expr)
  | call (callee : Expr) (arguments : List Expr)
  | perform (step : Effect)
  | assign (name : String) (e : Expr)
  /-- On a copy of the current context. -/
  | inquire (inquiry : Inquiry)
  /-- On the context that the expression gives. -/
  | inquireIn (inquiry : Inquiry) (e : Expr)
end

namespace Value

instance : Inhabited Value := ⟨null⟩

def isNull : Value → Bool
  | null => true
  | _ => false

def number? : Value → Option Float
  | integer n => some n.toFloat
  | float x => some x
  | _ => none

def isNumber (v : Value) : Bool := v.number?.isSome

def boolean? : Value → Option Bool
  | boolean b => some b
  | _ => none

def string? : Value → Option String
  | string s => some s
  | _ => none

def entries? : Value → Option (Bindings Value)
  | context es => some es
  | _ => none

theorem entries?_eq_some {v : Value} {b : Bindings Value} : v.entries? = some b ↔ v = .context b := by
  cases v <;> simp [entries?]

def function? : Value → Option FunctionValue
  | function f => some f
  | _ => none

def kind : Value → String
  | null => "null"
  | boolean _ => "boolean"
  | integer _ => "number"
  | float _ => "number"
  | string _ => "string"
  | list _ => "list"
  | context _ => "context"
  | function _ => "function"

mutual
def display : Value → String
  | null => "null"
  | boolean b => if b then "true" else "false"
  | integer n => toString n.toInt
  | float x => Decimal.ofFloat x
  | string s => s
  | list items => "[" ++ ", ".intercalate (displayItems items) ++ "]"
  | context es => "\x7b" ++ ", ".intercalate (displayEntries es) ++ "\x7d"
  | function f => "function " ++ f.name
def displayItems : List Value → List String
  | [] => []
  | v :: vs => v.display :: displayItems vs
def displayEntries : Bindings Value → List String
  | .nil => []
  | .cons n v r => (n ++ ": " ++ v.display) :: displayEntries r
end

mutual
/-- Equality of values: an integer never equals a float, floats compare as numbers, functions by
name and creation. -/
def same : Value → Value → Bool
  | null, null => true
  | boolean a, boolean b => a == b
  | integer a, integer b => a == b
  | float a, float b => a == b
  | string a, string b => a == b
  | list a, list b => sameItems a b
  | context a, context b => sameEntries a b
  | function f, function g => f.name == g.name && f.origin == g.origin
  | _, _ => false
def sameItems : List Value → List Value → Bool
  | [], [] => true
  | v :: vs, w :: ws => v.same w && sameItems vs ws
  | _, _ => false
def sameEntries : Bindings Value → Bindings Value → Bool
  | .nil, .nil => true
  | .cons m v r, .cons n w s => m == n && v.same w && sameEntries r s
  | _, _ => false
end

instance : BEq Value := ⟨same⟩

end Value

end DecisionGraph
