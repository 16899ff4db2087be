import DecisionGraph.Model

namespace DecisionGraph

structure Builder (L : Type) where
  id : Option String
  ns : String
  name : String
  typeCheck : Bool
  nodes : Array (Node L)
  imports : ImportTable
  /-- For each import name, the positions of the imported model's own nodes by their names. -/
  imported : Bindings (Bindings Nat)

namespace Builder

variable {L : Type}

def new (ns name : String) : Builder L := ⟨none, ns, name, false, #[], .empty, .nil⟩

def setId (b : Builder L) (id : String) : Builder L := { b with id := some id }

def setTypeCheck (b : Builder L) (enabled : Bool) : Builder L := { b with typeCheck := enabled }

def addNode (b : Builder L) (id name : String) (role : Role L) : Nat × Builder L :=
  (b.nodes.size, { b with nodes := b.nodes.push ⟨⟨id, name, b.ns, b.name, .nil, .empty⟩, role⟩ })

def node? (b : Builder L) (id : Nat) : Except ModelError (Node L) :=
  match b.nodes[id]? with
  | some n => .ok n
  | none => .error (.unknownNode id)

def replace (b : Builder L) (id : Nat) (n : Node L) : Builder L :=
  { b with nodes := b.nodes.setIfInBounds id n }

def setLogic (b : Builder L) (id : Nat) (logic : L) : Except ModelError (Builder L) := do
  let n ← b.node? id
  match n.role with
  | .decision t _ => .ok (b.replace id { n with role := .decision t (some logic) })
  | .knowledge _ => .ok (b.replace id { n with role := .knowledge (some logic) })
  | .input _ => .error (.evaluatorNotAllowed n.info.name)

def setNodeId (b : Builder L) (id : Nat) (newId : String) : Except ModelError (Builder L) := do
  let n ← b.node? id
  .ok (b.replace id { n with info := { n.info with id := newId } })

/-- The name under which a dependency is declared: its own, qualified by the import name if
another model owns it and the builder imports that model. -/
def dependencyName (b : Builder L) (info : NodeInfo) : String :=
  if info.ns = b.ns then info.name
  else match b.imports.nameFor? info.ns info.model with
    | some name => name ++ "." ++ info.name
    | none => info.name

def dependsOn (b : Builder L) (id dependency : Nat) : Except ModelError (Builder L) := do
  let d ← b.node? dependency
  let name := b.dependencyName d.info
  let n ← b.node? id
  if n.isInput then .error (.invalidDependency n.info.name name)
  else
    let dependencies := n.info.dependencies.insert name dependency
    .ok (b.replace id { n with info := { n.info with dependencies } })

/-- A node as it stands in an arena that has `offset` more nodes in front of it. -/
def shifted (offset : Nat) (n : Node L) : Node L :=
  { n with info := { n.info with dependencies := n.info.dependencies.map (· + offset) } }

def ownNames (offset : Nat) (m : Model L) : Bindings Nat :=
  .ofList ((m.nodes.toList.zipIdx offset).filterMap fun (n, i) =>
    if m.owns n then some (n.info.name, i) else none)

/-- Copies the nodes of a model behind the builder's own and makes them known under a name. -/
def addImport (b : Builder L) (name : String) (m : Model L) : Except ModelError (Builder L) :=
  if b.imported.contains name then .error (.duplicateImport name)
  else
    let offset := b.nodes.size
    .ok { b with
      nodes := b.nodes ++ m.nodes.map (shifted offset)
      imports := b.imports.insert ⟨m.ns, m.name, name⟩
      imported := b.imported.insert name (ownNames offset m) }

def imported? (b : Builder L) (name node : String) : Option Nat :=
  (b.imported.find? name).bind fun names => names.find? node

def find? (b : Builder L) (ns name : String) : Option Nat :=
  b.nodes.toList.findIdx? fun n => n.info.ns == ns && n.info.name == name

def ownNodeNames (b : Builder L) : List String :=
  (b.nodes.toList.filter fun n => n.info.ns == b.ns).map fun n => n.info.name

def firstRepeated? (seen : List String) : List String → Option String
  | [] => none
  | n :: ns => if seen.contains n then some n else firstRepeated? (n :: seen) ns

/-- The nodes in the builder's namespace answer from its import table. -/
def withImports (b : Builder L) (n : Node L) : Node L :=
  if n.info.ns = b.ns then { n with info := { n.info with imports := b.imports } } else n

def build (b : Builder L) (freshId : String) : Except ModelError (Model L) :=
  match firstRepeated? [] b.ownNodeNames with
  | some name => .error (.duplicateNode b.ns name)
  | none => .ok
    { id := b.id.getD freshId
      ns := b.ns
      name := b.name
      typeCheck := b.typeCheck
      nodes := b.nodes.map b.withImports
      imports := b.imports }

end Builder

end DecisionGraph
