import DecisionGraph.Value

namespace DecisionGraph

inductive Halt where
  | error (e : EvalError)
  | failure
deriving Inhabited

/-- What an expression can ask of and do to its surroundings. -/
structure Surroundings (S : Type) where
  perform : Effect → S → Except EvalError Value × S
  assign : String → Value → S → Except EvalError Value × S
  /-- On the context that is given, or on a copy of the current one. -/
  inquire : Inquiry → Option Value → S → Except EvalError Value × S

abbrev Run (S α : Type) := ExceptT Halt (StateM S) α

namespace Run

variable {S α : Type}

def error (e : EvalError) : Run S α := throw (.error e)

def ofExcept : Except EvalError α → Run S α
  | .ok a => pure a
  | .error e => error e

def lift (f : S → Except EvalError α × S) : Run S α := do
  let (r, s) := f (← get)
  set s
  ofExcept r

def number (v : Value) : Run S Float :=
  match v.number? with
  | some x => pure x
  | none => error (.invalidArgument v.display)

end Run

abbrev Invoke := FunctionValue → List Value → Except EvalError Value

namespace Expr

variable {S : Type}

mutual
def run (u : Surroundings S) (invoke : Invoke) (args : List Value) : Expr → Run S Value
  | const v => pure v
  | argument i => pure (args[i]?.getD .null)
  | fail e => Run.error e
  | failure => throw .failure
  | sum terms => return .float (← runNumbers u invoke args (· + ·) 0.0 terms)
  | product factors => return .float (← runNumbers u invoke args (· * ·) 1.0 factors)
  | atLeast left right => do
    let v ← run u invoke args left
    let w ← run u invoke args right
    let x ← Run.number v
    let y ← Run.number w
    return .boolean (y ≤ x)
  | negation e => do
    let v ← run u invoke args e
    match v.boolean? with
    | some b => return .boolean (!b)
    | none => Run.error (.invalidArgument v.display)
  | list items => return .list (← runItems u invoke args items)
  | context entries => return .context (← runEntries u invoke args .nil entries)
  | display e => return .string (← run u invoke args e).display
  | kind e => return .string (← run u invoke args e).kind
  | sequence steps => runSteps u invoke args .null steps
  | attempt e => fun s =>
    match run u invoke args e s with
    | (.error (.error err), s) => (.ok (.string err.text), s)
    | r => r
  | call callee arguments => do
    let v ← run u invoke args callee
    let vs ← runItems u invoke args arguments
    match v.function? with
    | some f => Run.ofExcept (invoke f vs)
    | none => Run.error (.invalidArgument v.display)
  | perform step => Run.lift (u.perform step)
  | assign name e => do
    let v ← run u invoke args e
    Run.lift (u.assign name v)
  | inquire inquiry => Run.lift (u.inquire inquiry none)
  | inquireIn inquiry e => do
    let v ← run u invoke args e
    Run.lift (u.inquire inquiry (some v))
def runItems (u : Surroundings S) (invoke : Invoke) (args : List Value) :
    List Expr → Run S (List Value)
  | [] => pure []
  | e :: es => do
    let v ← run u invoke args e
    let vs ← runItems u invoke args es
    return v :: vs
def runEntries (u : Surroundings S) (invoke : Invoke) (args : List Value)
    (found : Bindings Value) : List (String × Expr) → Run S (Bindings Value)
  | [] => pure found
  | (n, e) :: es => do
    let v ← run u invoke args e
    runEntries u invoke args (found.insert n v) es
def runSteps (u : Surroundings S) (invoke : Invoke) (args : List Value) (last : Value) :
    List Expr → Run S Value
  | [] => pure last
  | e :: es => do
    let v ← run u invoke args e
    runSteps u invoke args v es
/-- Folds numbers; each operand is checked right after it is evaluated. -/
def runNumbers (u : Surroundings S) (invoke : Invoke) (args : List Value)
    (op : Float → Float → Float) (total : Float) : List Expr → Run S Float
  | [] => pure total
  | e :: es => do
    let v ← run u invoke args e
    let x ← Run.number v
    runNumbers u invoke args op (op total x) es
end

end Expr

namespace Effect

def name : Effect → String
  | get _ => "get"
  | nested .. => "nested"
  | defined _ => "defined"
  | scope => "scope"
  | push .. => "push"
  | pop => "pop"
  | status _ => "status"
  | messages => "messages"
  | report .. => "report"
  | count _ => "count"
  | listen _ => "listen"
  | unlisten _ => "unlisten"

end Effect

/-- There is nothing around the body of a function. -/
def Surroundings.none : Surroundings Unit :=
  let refuse := fun (op : String) (s : Unit) => (.error (.failed ("no context for " ++ op)), s)
  { perform := fun e => refuse e.name
    assign := fun _ _ => refuse "set"
    inquire := fun _ _ => refuse "request" }

namespace FunctionValue

/-- Calls of functions inside function bodies nest at most that deep; no run that ends comes near
it. -/
def callLimit : Nat := UInt64.size

/-- Calls a function when `room` more calls may nest. -/
def invokeWithin : Nat → Invoke
  | 0, _, _ => .error (.failed "function calls nest too deep")
  | room + 1, f, args =>
    match (f.body.run .none (invokeWithin room) args ()).1 with
    | .ok v => .ok v
    | .error (.error e) => .error e
    | .error .failure => .error (.failed "failure in a function body")

def invoke : Invoke := invokeWithin callLimit

end FunctionValue

end DecisionGraph
