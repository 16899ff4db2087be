import DecisionGraph.Value

namespace DecisionGraph

inductive Status where
  | notEvaluated
  | evaluating
  | succeeded
  | failed
  | skipped
deriving DecidableEq, Inhabited

namespace Status

def all : List Status := [notEvaluated, evaluating, succeeded, failed, skipped]

def text : Status → String
  | notEvaluated => "NOT_EVALUATED"
  | evaluating => "EVALUATING"
  | succeeded => "SUCCEEDED"
  | failed => "FAILED"
  | skipped => "SKIPPED"

def ofText? (s : String) : Option Status := all.find? fun x => x.text == s

/-- A decision with this status is not entered again in the same request. -/
def blocksReentry : Status → Bool
  | evaluating => true
  | failed => true
  | skipped => true
  | _ => false

def isTerminal : Status → Bool
  | succeeded => true
  | failed => true
  | skipped => true
  | _ => false

end Status

def hasErrors (messages : List Message) : Bool := messages.any fun m => m.severity == .error

structure Outcome where
  id : String
  name : String
  status : Status
  result : Option Value
  messages : List Message
deriving Inhabited

namespace Outcome

def new (id name : String) : Outcome := ⟨id, name, .notEvaluated, none, []⟩

def reportFailure (o : Outcome) (m : Message) (status : Status) : Outcome :=
  { o with messages := o.messages ++ [m], status }

def succeed (o : Outcome) (v : Value) : Outcome :=
  { o with result := some v, status := .succeeded }

def hasErrors (o : Outcome) : Bool := DecisionGraph.hasErrors o.messages

end Outcome

end DecisionGraph
