import DecisionGraph.Model.Node
import DecisionGraph.Outcome

namespace DecisionGraph

/-- The node that an event is about. -/
structure Subject where
  id : String
  name : String
  ns : String
deriving DecidableEq, Inhabited

def NodeInfo.subject (info : NodeInfo) : Subject := ⟨info.id, info.name, info.ns⟩

inductive Phase where
  | before
  | after
deriving DecidableEq, Inhabited

inductive Event where
  | decision (phase : Phase) (node : Subject) (outcome : Option Outcome)
  | knowledge (phase : Phase) (node : Subject)
deriving Inhabited

namespace Event

def node : Event → Subject
  | decision _ s _ => s
  | knowledge _ s => s

def hook : Event → String
  | decision .before .. => "before"
  | decision .after .. => "after"
  | knowledge .before _ => "before_bkm"
  | knowledge .after _ => "after_bkm"

end Event

end DecisionGraph
