import DecisionGraph.Model.Builder

namespace DecisionGraph

/-- Steps on a builder, which a refusal breaks off. -/
abbrev Edit (L α : Type) := ExceptT ModelError (StateM (Builder L)) α

namespace Edit

variable {L α : Type}

/-- The answer of an edit and the builder as the edit leaves it, refused or not. -/
def apply (e : Edit L α) (b : Builder L) : Except ModelError α × Builder L := e.run.run b

def node (id : Nat) : Edit L (Node L) := do
  match (← get).nodes[id]? with
  | some n => pure n
  | none => throw (.unknownNode id)

def write (id : Nat) (n : Node L) : Edit L Unit := modify (·.replace id n)

def setId (id : String) : Edit L Unit := modify (·.setId id)

def setTypeCheck (enabled : Bool) : Edit L Unit := modify (·.setTypeCheck enabled)

def addNode (id name : String) (role : Role L) : Edit L Nat := modifyGet (·.addNode id name role)

def setLogic (id : Nat) (logic : L) : Edit L Unit := do
  let n ← node id
  match n.role with
  | .decision t _ => write id { n with role := .decision t (some logic) }
  | .knowledge _ => write id { n with role := .knowledge (some logic) }
  | .input _ => throw (.evaluatorNotAllowed n.info.name)

def setNodeId (id : Nat) (newId : String) : Edit L Unit := do
  let n ← node id
  write id { n with info := { n.info with id := newId } }

def dependsOn (id dependency : Nat) : Edit L Unit := do
  let d ← node dependency
  let name := (← get).dependencyName d.info
  let n ← node id
  if n.isInput then throw (.invalidDependency n.info.name name)
  else
    let dependencies := n.info.dependencies.insert name dependency
    write id { n with info := { n.info with dependencies } }

/-- Copies one node of a model and keeps its new position if the model owns the node. -/
def copyNode (m : Model L) (offset : Nat) (names : Bindings Nat) (e : Node L × Nat) :
    Edit L (Bindings Nat) := do
  modify fun b => { b with nodes := b.nodes.push (Builder.shifted offset e.1) }
  pure (if m.owns e.1 then names.insert e.1.info.name e.2 else names)

def addImport (name : String) (m : Model L) : Edit L Unit := do
  if (← get).imported.contains name then throw (.duplicateImport name)
  else
    let offset := (← get).nodes.size
    let names ← (m.nodes.toList.zipIdx offset).foldlM (copyNode m offset) .nil
    modify fun b => { b with imports := b.imports.insert ⟨m.ns, m.name, name⟩ }
    modify fun b => { b with imported := b.imported.insert name names }

end Edit

end DecisionGraph
