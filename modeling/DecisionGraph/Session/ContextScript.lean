import DecisionGraph.Context
import DecisionGraph.Json.Reader

namespace DecisionGraph

inductive ContextStep where
  | set (name : String) (v : Value)
  | get (name : String)
  | defined (name : String)
  | push (name ns : String)
  | pop
  | json (text : String)
  | entries (b : Bindings Value)
  | save (label : String)
  | load (label : String)
  | compare (label : String)
  | allEntries

inductive ContextReply where
  | nothing
  | slot (v : Option Value)
  | truth (b : Bool)
  | frame (f : Option Frame)
  | value (v : Value)
  | malformed
  | refused (e : EvalError)

structure ContextScript where
  current : Context
  saved : Bindings Context

namespace ContextScript

def start : ContextScript := ⟨.empty, .nil⟩

/-- Takes the context from a document; any error leaves the context as it was. -/
def readJson (s : ContextScript) (text : String) : ContextReply × ContextScript :=
  match Json.ofText? text with
  | none => (.malformed, s)
  | some j =>
    match Context.ofJson j with
    | .ok c => (.nothing, { s with current := c })
    | .error e => (.refused e, s)

def run (s : ContextScript) : ContextStep → ContextReply × ContextScript
  | .set name v =>
    let (old, current) := s.current.exchange name v
    (.slot old, { s with current })
  | .get name => (.slot (s.current.get? name), s)
  | .defined name => (.truth (s.current.isDefined name), s)
  | .push name ns => (.nothing, { s with current := s.current.push ⟨name, ns⟩ })
  | .pop => (.frame s.current.frames.getLast?, { s with current := s.current.pop })
  | .json text => s.readJson text
  | .entries b => (.nothing, { s with current := .ofEntries b })
  | .save label => (.nothing, { s with saved := s.saved.insert label s.current })
  | .load label => (.nothing, { s with current := (s.saved.find? label).getD s.current })
  | .compare label => (.truth ((s.saved.find? label).any (· == s.current)), s)
  | .allEntries => (.value (.context s.current.entries), s)

/-- The replies to the steps, each with the context after it. -/
def runAll (s : ContextScript) : List ContextStep → List (ContextReply × Context)
  | [] => []
  | step :: steps =>
    let (reply, s) := s.run step
    (reply, s.current) :: s.runAll steps

def contextOf (steps : List ContextStep) : Context :=
  (steps.foldl (fun s step => (s.run step).2) start).current

end ContextScript

end DecisionGraph
