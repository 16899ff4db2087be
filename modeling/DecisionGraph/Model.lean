import DecisionGraph.Model.Node

namespace DecisionGraph

/-- A model owns every node that it can reach, those of imported models included, in one arena;
imported nodes keep the namespace of their own model. -/
structure Model (L : Type) where
  id : String
  ns : String
  name : String
  typeCheck : Bool
  nodes : Array (Node L)
  imports : ImportTable

namespace Model

variable {L : Type}

def node? (m : Model L) (id : Nat) : Option (Node L) := m.nodes[id]?

/-- The node belongs to the model's own namespace. -/
def owns (m : Model L) (n : Node L) : Bool := n.info.ns == m.ns

def decisions (m : Model L) : List (Node L) := m.nodes.toList.filter Node.isDecision

def localDecisions (m : Model L) : List (Node L) := m.decisions.filter m.owns

def inputs (m : Model L) : List (Node L) := m.nodes.toList.filter Node.isInput

def knowledge (m : Model L) : List (Node L) := m.nodes.toList.filter Node.isKnowledge

def nodeByName? (m : Model L) (name : String) : Option (Nat × Node L) :=
  (m.nodes.toList.findIdx? fun n => m.owns n && n.info.name == name).bind fun i =>
    (m.node? i).map (i, ·)

/-- The first decision that fits, the model's own before imported ones. -/
def decisionWhere? (m : Model L) (p : NodeInfo → Bool) : Option (Node L) :=
  (m.localDecisions.find? fun n => p n.info).or (m.decisions.find? fun n => p n.info)

def decisionByName? (m : Model L) (name : String) : Option (Node L) :=
  m.decisionWhere? fun i => i.name == name

def decisionById? (m : Model L) (id : String) : Option (Node L) :=
  m.decisionWhere? fun i => i.id == id

/-- The key of a node in a request: its id, which imported nodes qualify by their namespace. -/
def key (m : Model L) (info : NodeInfo) : String :=
  if info.ns = m.ns then info.id else info.ns ++ "#" ++ info.id

end Model

end DecisionGraph
