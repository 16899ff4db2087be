import DecisionGraph.Interpreter
import DecisionGraph.Model.Builder.Edit
import DecisionGraph.Session.ContextScript
import DecisionGraph.Uuid

namespace DecisionGraph

inductive ModelQuery where
  | decisionName (name : String)
  | decisionId (id : String)
  | nodeName (name : String)
  | node (label : String)
  | importName (name : String)

inductive Command where
  | newBuilder (builder ns name : String)
  | setModelId (builder id : String)
  | setTypeCheck (builder : String) (enabled : Bool)
  | addNode (builder name label : String) (role : Role Expr)
  | setLogic (builder node : String) (logic : Expr)
  | setNodeId (builder node id : String)
  | dependsOn (builder node dependency : String)
  | addImport (builder model name : String)
  | imported (builder importName node label : String)
  | findNode (builder ns name label : String)
  | build (builder label : String)
  | describe (model : String)
  | lookup (model : String) (query : ModelQuery)
  | importNameFor (model ns name : String) (node : Option String)
  | configure (text : String)
  | configureFile (text : Option String)
  | change (setting : Setting)
  | policy (model : String)
  | listen (label : String) (reactions : List Reaction)
  | unlisten (label : String)
  | listenSilently
  | countListeners
  | register (model : String)
  | models
  | findModelByName (ns name : String)
  | findModelById (ns id : String)
  | evaluate (model : String) (selection : Selection) (context : List ContextStep)
  | runLogic (model node : String) (context : List ContextStep)

inductive Reply where
  | done
  | truth (b : Bool)
  | count (n : Nat)
  | position (n : Option Nat)
  | text (s : Option String)
  | model (m : Option (Model Expr))
  | description (m : Model Expr)
  | models (ms : List (Model Expr))
  | info (i : Option NodeInfo)
  | placed (n : Option (Nat × NodeInfo))
  | kind (n : Option (NodeInfo × Bool))
  | settings (s : Settings)
  | settingsError (e : SettingsError)
  | modelError (e : ModelError)
  | result (p : Progress World)
  /-- The answer of the logic, if the node has any. -/
  | answer (a : Option (Except EvalError Answer)) (p : Progress World)

structure Session where
  runtime : Runtime Expr
  world : World
  builders : Bindings (Builder Expr)
  nodes : Bindings Nat
  built : Bindings (Model Expr)
  ids : Nat

namespace Session

def start : Session := ⟨.new .default, .empty, .nil, .nil, .nil, 0⟩

def storeBuilder (s : Session) (label : String) (b : Builder Expr) : Session :=
  { s with builders := s.builders.insert label b }

def storeNode (s : Session) (label : String) (position : Nat) : Session :=
  { s with nodes := s.nodes.insert label position }

def tryBuilder (s : Session) (label : String) (e : Edit Expr Unit) : Option (Reply × Session) := do
  let b ← s.builders.find? label
  let (answer, b) := e.apply b
  some (match answer with
    | .ok () => .done
    | .error e => .modelError e, s.storeBuilder label b)

def place (s : Session) (label : String) (position : Option Nat) : Reply × Session :=
  (.position position, match position with
    | some n => s.storeNode label n
    | none => s)

def addNode (s : Session) (builder name label : String) (role : Role Expr) :
    Option (Reply × Session) := do
  let b ← s.builders.find? builder
  let (n, b) := b.addNode ("_" ++ Uuid.ofNat s.ids) name role
  some (({ s with ids := s.ids + 1 }.storeBuilder builder b).place label (some n))

def build (s : Session) (builder label : String) : Option (Reply × Session) := do
  let b ← s.builders.find? builder
  let rest := { s with builders := s.builders.erase builder, ids := s.ids + 1 }
  some (match b.build (Uuid.ofNat s.ids) with
    | .ok m => (.model (some m), { rest with built := s.built.insert label m })
    | .error e => (.modelError e, rest))

def labelled? (s : Session) (m : Model Expr) (label : String) : Option (Node Expr) :=
  (s.nodes.find? label).bind m.node?

def lookup (s : Session) (m : Model Expr) : ModelQuery → Reply
  | .decisionName name => .info ((m.decisionByName? name).map Node.info)
  | .decisionId id => .info ((m.decisionById? id).map Node.info)
  | .nodeName name => .placed ((m.nodeByName? name).map fun (i, n) => (i, n.info))
  | .node label => .kind ((s.labelled? m label).map fun n => (n.info, n.isDecision))
  | .importName name => .truth (m.imports.containsName name)

/-- The import table of a node of the model, or of the model itself; a node that the model does
not have imports nothing. -/
def importTable (s : Session) (m : Model Expr) : Option String → ImportTable
  | none => m.imports
  | some label => ((s.labelled? m label).map fun n => n.info.imports).getD .empty

def configure (s : Session) : Except SettingsError Settings → Reply × Session
  | .ok settings =>
    (.settings settings, { s with runtime := .new settings, world := s.world.deafened })
  | .error e => (.settingsError e, s)

/-- A model that is refused loses its label. -/
def register (s : Session) (label : String) : Option (Reply × Session) := do
  let m ← s.built.find? label
  some (match s.runtime.registry.register m with
    | .ok registry => (.model (some m), { s with runtime := { s.runtime with registry } })
    | .error e => (.modelError e, { s with built := s.built.erase label }))

def request (s : Session) (m : Model Expr) (selection : Selection) (context : Context) :
    Progress World :=
  (s.runtime.request s.runtime.host m).run selection context s.world.cleared

/-- Runs the logic of a node on the result of a request for nothing. -/
def runLogic (s : Session) (label node : String) (context : Context) :
    Option (Reply × Session) := do
  let m ← s.built.find? label
  let p := s.request m (.names []) context
  match (s.labelled? m node).bind fun n => n.role.logic? with
  | none => some (.answer none p, { s with world := p.world })
  | some logic =>
    let (a, e, w) := s.runtime.host.answer m logic p.evaluation p.world
    some (.answer (some a) ⟨e, w⟩, { s with world := w })

def run (s : Session) : Command → Option (Reply × Session)
  | .newBuilder builder ns name => some (.done, s.storeBuilder builder (.new ns name))
  | .setModelId builder id => s.tryBuilder builder (.setId id)
  | .setTypeCheck builder enabled => s.tryBuilder builder (.setTypeCheck enabled)
  | .addNode builder name label role => s.addNode builder name label role
  | .setLogic builder node logic => do
    let n ← s.nodes.find? node
    s.tryBuilder builder (.setLogic n logic)
  | .setNodeId builder node id => do
    let n ← s.nodes.find? node
    s.tryBuilder builder (.setNodeId n id)
  | .dependsOn builder node dependency => do
    let n ← s.nodes.find? node
    let d ← s.nodes.find? dependency
    s.tryBuilder builder (.dependsOn n d)
  | .addImport builder model name => do
    let m ← s.built.find? model
    s.tryBuilder builder (.addImport name m)
  | .imported builder importName node label => do
    let b ← s.builders.find? builder
    some (s.place label (b.imported? importName node))
  | .findNode builder ns name label => do
    let b ← s.builders.find? builder
    some (s.place label (b.find? ns name))
  | .build builder label => s.build builder label
  | .describe model => do
    let m ← s.built.find? model
    some (.description m, s)
  | .lookup model query => do
    let m ← s.built.find? model
    some (s.lookup m query, s)
  | .importNameFor model ns name node => do
    let m ← s.built.find? model
    some (.text ((s.importTable m node).nameFor? ns name), s)
  | .configure text => some (s.configure (Settings.ofText text))
  | .configureFile text => some (s.configure (Settings.ofFile text))
  | .change setting =>
    let runtime := s.runtime.apply setting
    some (.settings runtime.settings, { s with runtime })
  | .policy model => do
    let m ← s.built.find? model
    some (.truth (s.runtime.typeCheckFor m), s)
  | .listen label reactions =>
    let (started, world) := s.world.listen label reactions
    some (.truth started, { s with world })
  | .unlisten label =>
    let (found, world) := s.world.unlisten label
    some (.truth found, { s with world })
  | .listenSilently => some (.done, { s with world := s.world.listenSilently })
  | .countListeners => some (.count s.world.listeners.size, s)
  | .register model => s.register model
  | .models => some (.models s.runtime.registry.models, s)
  | .findModelByName ns name => some (.model (s.runtime.registry.model? ns name), s)
  | .findModelById ns id => some (.model (s.runtime.registry.modelById? ns id), s)
  | .evaluate model selection context => do
    let m ← s.built.find? model
    let p := s.request m selection (ContextScript.contextOf context)
    some (.result p, { s with world := p.world })
  | .runLogic model node context => s.runLogic model node (ContextScript.contextOf context)

/-- The replies to the commands, up to the first that has none. -/
def runAll (s : Session) : List Command → List (Option Reply)
  | [] => []
  | c :: cs =>
    match s.run c with
    | some (reply, s) => some reply :: s.runAll cs
    | none => [none]

end Session

end DecisionGraph
