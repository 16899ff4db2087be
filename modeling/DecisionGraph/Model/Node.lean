import DecisionGraph.ValueType

namespace DecisionGraph

/-- An imported model and the name under which its importer sees it. -/
structure Import where
  ns : String
  model : String
  name : String
deriving DecidableEq, Inhabited

/-- The imports of one model, at most one for each imported model. -/
structure ImportTable where
  imports : List Import
deriving DecidableEq, Inhabited

namespace ImportTable

def empty : ImportTable := ⟨[]⟩

def nameFor? (t : ImportTable) (ns model : String) : Option String :=
  (t.imports.find? fun i => i.ns == ns && i.model == model).map Import.name

def containsName (t : ImportTable) (name : String) : Bool := t.imports.any fun i => i.name == name

/-- A second import of the same model takes the place of the first. -/
def insert (t : ImportTable) (i : Import) : ImportTable :=
  ⟨t.imports.filter (fun j => !(j.ns == i.ns && j.model == i.model)) ++ [i]⟩

def size (t : ImportTable) : Nat := t.imports.length

end ImportTable

/-- What every node has: its identity, and its dependencies as positions in the arena. -/
structure NodeInfo where
  id : String
  name : String
  ns : String
  model : String
  dependencies : Bindings Nat
  imports : ImportTable

namespace NodeInfo

def importName? (info : NodeInfo) (ns model : String) : Option String :=
  info.imports.nameFor? ns model

/-- How diagnostics call the node: by its id if it has no name. -/
def identifier (info : NodeInfo) : String := if info.name = "" then info.id else info.name

end NodeInfo

inductive Role (L : Type) where
  | decision (result : DeclaredType) (logic : Option L)
  | knowledge (logic : Option L)
  | input (type : DeclaredType)

namespace Role

variable {L : Type}

def name : Role L → String
  | decision .. => "Decision"
  | knowledge _ => "BusinessKnowledgeModel"
  | input _ => "InputData"

def logic? : Role L → Option L
  | decision _ l => l
  | knowledge l => l
  | input _ => none

def type? : Role L → Option DeclaredType
  | decision t _ => some t
  | knowledge _ => none
  | input t => some t

end Role

structure Node (L : Type) where
  info : NodeInfo
  role : Role L

namespace Node

variable {L : Type}

def isDecision (n : Node L) : Bool :=
  match n.role with
  | .decision .. => true
  | _ => false

def isKnowledge (n : Node L) : Bool :=
  match n.role with
  | .knowledge _ => true
  | _ => false

def isInput (n : Node L) : Bool :=
  match n.role with
  | .input _ => true
  | _ => false

end Node

end DecisionGraph
