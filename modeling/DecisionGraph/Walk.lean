import DecisionGraph.Host
import DecisionGraph.Settings

namespace DecisionGraph

/-- What stays fixed during a request. -/
structure Request (L σ : Type) where
  model : Model L
  host : Host L σ
  typeCheck : Bool
  maxDepth : Nat
  importLookup : ImportLookup

/-- How the walk to a dependency came out. -/
inductive Resolution where
  | resolved
  | decisionFailed
  | notFound
  | knowledgeCycle
deriving DecidableEq, Inhabited

def Resolution.ofDecision (ok : Bool) : Resolution := if ok then .resolved else .decisionFailed

/-- The way from the current scope to a dependency. -/
inductive Passage where
  | here
  | through (name : String)
  | closed
deriving DecidableEq, Inhabited

abbrev Visit (L σ : Type) := Node L → Progress σ → Resolution × Progress σ

namespace Model

variable {L : Type}

def scopeNs (m : Model L) (c : Context) : String := c.ns?.getD m.ns

/-- The value of a node as `caller` sees it: in the current scope for a node of the scope's own
namespace, else in the context under the caller's import name for the node's model. -/
def visible? (m : Model L) (c : Context) (caller node : NodeInfo) : Option Value :=
  if node.ns = m.scopeNs c then c.get? node.name
  else do
    let name ← caller.importName? node.ns node.model
    let bindings ← (← c.get? name).entries?
    bindings.find? node.name

def passage (m : Model L) (c : Context) (caller dependency : NodeInfo) : Passage :=
  if dependency.ns = m.scopeNs c then .here
  else match caller.importName? dependency.ns dependency.model with
    | some name => .through name
    | none => .closed

end Model

/-- A list of one value stands for the value, unless the type is a collection. -/
def DeclaredType.unwrap (t : DeclaredType) : Value → Value
  | .list [v] => if t.isCollection then .list [v] else v
  | v => v

namespace Request

variable {L σ : Type}

def watch (r : Request L σ) (m : Moment L) (p : Progress σ) : Progress σ :=
  { p with world := r.host.observe m p.evaluation p.world }

def notify (r : Request L σ) (e : Event) (p : Progress σ) : Progress σ :=
  { p with world := r.host.notify e p.world }

@[simp] theorem evaluation_watch (r : Request L σ) (m : Moment L) (p : Progress σ) :
    (r.watch m p).evaluation = p.evaluation := rfl

@[simp] theorem evaluation_notify (r : Request L σ) (e : Event) (p : Progress σ) :
    (r.notify e p).evaluation = p.evaluation := rfl

def key (r : Request L σ) (n : Node L) : String := r.model.key n.info

/-- The node has a value as `caller` sees it, and the settings let that count. -/
def isDefined (r : Request L σ) (c : Context) (caller node : NodeInfo) : Bool :=
  if node.ns ≠ r.model.scopeNs c ∧ r.importLookup = .alwaysDescend then false
  else (r.model.visible? c caller node).isSome

def callLogic (r : Request L σ) (n : Node L) (logic : L) (p : Progress σ) :
    Except EvalError Answer × Progress σ :=
  let p := r.watch (.calling n) p
  let (a, e, w) := r.host.answer r.model logic p.evaluation p.world
  (a, ⟨e, w⟩)

/-- Reports a problem with a dependency of `owner`. A decision is skipped for it. -/
def reportUnresolved (r : Request L σ) (owner : Node L) (dependency source : String)
    (d : Diagnostic) (p : Progress σ) : Progress σ :=
  let m := Message.of .error d (some source) none
  let p := if owner.isDecision then p.update (·.fail (r.key owner) m .skipped)
    else p.update (·.report m)
  r.watch (.unresolved owner dependency) p

/-- Checks the value of an input against the input's type. A broken type is reported but does
not make the dependency unresolved. -/
def checkInput (r : Request L σ) (owner dependency : Node L) (name : String) (p : Progress σ) :
    Bool × Progress σ :=
  match r.typeCheck, dependency.role with
  | true, .input type =>
    let v := (r.model.visible? p.context owner.info dependency.info).getD .null
    let p := r.watch (.examined owner dependency v) p
    match type.check v with
    | .ok true => (true, p)
    | .ok false =>
      (false, r.reportUnresolved owner name dependency.info.id
        (.dependencyWrongType owner.info.identifier dependency.info.identifier (clip v.display)
          type.name) p)
    | .error e =>
      (true, p.update (·.report (.of .error
        (.errorCheckingAllowedValues dependency.info.identifier e.text)
        (some dependency.info.id) (some e.text))))
  | _, _ => (true, p)

/-- Walks to a dependency in its own scope and closes every frame that the walk has opened. -/
def descend (inner : Visit L σ) (dependency : Node L) : Passage → Progress σ →
    Resolution × Progress σ
  | .through name, p =>
    -- The depth is kept and not the frame: logic may have left frames open above it.
    let depth := p.context.depth
    let (res, p) := inner dependency
      (p.update (·.onContext (·.push ⟨name, dependency.info.ns⟩)))
    (res, p.update (·.onContext (·.closeTo depth)))
  -- Within the namespace no frame opens; a closed way never gets here.
  | _, p => inner dependency p

def complaint (owner dependency : NodeInfo) : Resolution → Option Diagnostic
  | .resolved => none
  | .decisionFailed =>
    some (.unableToEvaluateRequiredDecision owner.identifier dependency.identifier)
  | .notFound => some (.requiredDependencyNotFound dependency.identifier owner.identifier)
  | .knowledgeCycle => some (.bkmDependencyCycle owner.identifier dependency.identifier)

/-- Makes the value of a dependency available, if it is not yet. -/
def provide (r : Request L σ) (inner : Visit L σ) (owner dependency : Node L) (name : String)
    (p : Progress σ) : Bool × Progress σ :=
  if r.isDefined p.context owner.info dependency.info then (true, p)
  else
    match r.model.passage p.context owner.info dependency.info with
    | .closed =>
      (false, r.reportUnresolved owner name owner.info.id
        (.importNotFoundForNode dependency.info.ns dependency.info.model owner.info.identifier) p)
    | way =>
      let (res, p) := descend inner dependency way p
      match complaint owner.info dependency.info res with
      | none => (true, p)
      | some d => (false, r.reportUnresolved owner name owner.info.id d p)

/-- A business knowledge model gives up at its first unresolved dependency; a decision goes on,
so that every problem is reported. -/
def resolveOne (r : Request L σ) (inner : Visit L σ) (owner : Node L) (name : String) (id : Nat)
    (p : Progress σ) : Bool × Progress σ :=
  match r.model.node? id with
  | none =>
    (false, r.reportUnresolved owner name owner.info.id
      (.requiredDependencyNotFound name owner.info.identifier) p)
  | some dependency =>
    let (fits, p) := r.checkInput owner dependency name p
    -- A decision looks for the value of an input even if the value breaks the type.
    if !fits && owner.isKnowledge then (false, p)
    else
      let (found, p) := r.provide inner owner dependency name p
      (fits && found, p)

def resolveList (r : Request L σ) (inner : Visit L σ) (owner : Node L) :
    List (String × Nat) → Progress σ → Bool × Progress σ
  | [], p => (true, p)
  | (name, id) :: rest, p =>
    let (ok, p) := r.resolveOne inner owner name id p
    if !ok && owner.isKnowledge then (false, p)
    else
      let (allOk, p) := r.resolveList inner owner rest p
      (ok && allOk, p)

def resolve (r : Request L σ) (inner : Visit L σ) (owner : Node L) (p : Progress σ) :
    Bool × Progress σ :=
  r.resolveList inner owner owner.info.dependencies.toList p

/-- Binds the value of a decision, if its type lets it. -/
def bindResult (r : Request L σ) (n : Node L) (type : DeclaredType) (value : Value)
    (p : Progress σ) : Bool × Progress σ :=
  let key := r.key n
  let v := type.unwrap value
  match if r.typeCheck then type.check v else .ok true with
  | .ok true =>
    let p := p.update fun e => (e.onContext (·.set n.info.name v)).onLedger
      (·.modify key (·.succeed v))
    (true, r.watch (.bound n) p)
  | .ok false =>
    (false, p.update (·.fail key (.of .error
      (.resultWrongType n.info.identifier type.name (clip v.display))
      (some n.info.id) none) .failed))
  | .error e =>
    (false, p.update (·.fail key (.of .error
      (.errorCheckingAllowedValues n.info.identifier e.text)
      (some n.info.id) (some e.text)) .failed))

def runDecision (r : Request L σ) (inner : Visit L σ) (n : Node L) (type : DeclaredType)
    (logic : Option L) (p : Progress σ) : Bool × Progress σ :=
  let key := r.key n
  let (ready, p) := r.resolve inner n p
  if !ready then (false, p.update (·.onLedger (·.setStatus key .skipped)))
  else
    match logic with
    | none =>
      (false, p.update (·.fail key (.of .warn (.missingExpressionForDecision n.info.identifier)
        (some n.info.id) none) .skipped))
    | some logic =>
      let (a, p) := r.callLogic n logic p
      match a with
      | .ok (.success v) => r.bindResult n type v p
      | .ok .failure => (false, p.update (·.onLedger (·.setStatus key .failed)))
      | .error e =>
        (false, p.update (·.fail key (.of .error
          (.errorEvaluatingDecision n.info.identifier e.text)
          (some n.info.id) (some e.text)) .failed))

/-- Tells the listeners that were there at the start of the end as well. -/
def announced (r : Request L σ) (before : Event) (after : Ledger → Event)
    (run : Progress σ → Bool × Progress σ) (p : Progress σ) : Bool × Progress σ :=
  if r.host.listening p.world then
    let (ok, p) := run (r.notify before p)
    (ok, r.notify (after p.ledger) p)
  else run p

/-- Visits a decision; `inner` is missing when no further level may be opened. -/
def visitDecision (r : Request L σ) (inner : Option (Visit L σ)) (n : Node L)
    (type : DeclaredType) (logic : Option L) (p : Progress σ) : Resolution × Progress σ :=
  let key := r.key n
  if r.isDefined p.context n.info n.info then (.resolved, p)
  else if (p.ledger.status key).blocksReentry then (.decisionFailed, p)
  else
    -- Decisions of imported models get their outcomes here, the model's own have them already.
    let p := p.update (·.onLedger (·.ensure key n.info.name))
    match inner with
    | none =>
      (.decisionFailed, p.update (·.fail key (.of .error
        (.evaluationDepthExceeded n.info.identifier r.maxDepth) (some n.info.id) none) .failed))
    | some inner =>
      let p := r.watch (.entered n) (p.update (·.onLedger (·.setStatus key .evaluating)))
      let (ok, p) := r.announced (.decision .before n.info.subject none)
        (fun l => .decision .after n.info.subject (l.find? key))
        (fun p => let (ok, p) := r.runDecision inner n type logic p; (ok, r.watch (.left n) p)) p
      (.ofDecision ok, p)

def runKnowledge (r : Request L σ) (inner : Visit L σ) (n : Node L) (logic : L)
    (p : Progress σ) : Progress σ :=
  let key := r.key n
  -- From here to its end the node is active, so that a way back to it is reported as a cycle.
  let p := r.watch (.entered n) (p.update (·.enter key))
  let (ready, p) := r.resolve inner n p
  let p :=
    if !ready then p
    else
      let (a, p) := r.callLogic n logic p
      match a with
      | .ok (.success (.function f)) =>
        r.watch (.bound n) (p.update (·.onContext (·.set n.info.name (.function f))))
      | .ok (.success v) =>
        p.update (·.report (.of .error (.errorEvaluatingBkm n.info.identifier
          ("expected a function value, found " ++ v.kind)) (some n.info.id) none))
      | .ok .failure => p
      | .error e =>
        p.update (·.report (.of .error (.errorEvaluatingBkm n.info.identifier e.text)
          (some n.info.id) (some e.text)))
  r.watch (.left n) (p.update (·.leave key))

/-- Visits a business knowledge model. It counts as resolved whether or not it yields a
function, unless it is in progress already. -/
def visitKnowledge (r : Request L σ) (inner : Option (Visit L σ)) (n : Node L)
    (logic : Option L) (p : Progress σ) : Resolution × Progress σ :=
  if p.evaluation.isActive (r.key n) then (.knowledgeCycle, p)
  else if r.isDefined p.context n.info n.info then (.resolved, p)
  else match logic, inner with
    | none, _ =>
      (.resolved, p.update (·.report (.of .warn (.missingExpressionForBkm n.info.identifier)
        (some n.info.id) none)))
    | some _, none =>
      (.resolved, p.update (·.report (.of .error
        (.evaluationDepthExceeded n.info.identifier r.maxDepth) (some n.info.id) none)))
    | some logic, some inner =>
      let (_, p) := r.announced (.knowledge .before n.info.subject)
        (fun _ => .knowledge .after n.info.subject)
        (fun p => (true, r.runKnowledge inner n logic p)) p
      (.resolved, p)

/-- Visits a node; an input that is asked for in this way has no value. -/
def visitNode (r : Request L σ) (inner : Option (Visit L σ)) : Visit L σ := fun n p =>
  match n.role with
  | .decision type logic => r.visitDecision inner n type logic p
  | .knowledge logic => r.visitKnowledge inner n logic p
  | .input _ => (.notFound, p)

/-- Visits a node when `room` more levels may be opened. -/
def visit (r : Request L σ) : Nat → Visit L σ
  | 0 => r.visitNode none
  | room + 1 => r.visitNode (some (r.visit room))

end Request

end DecisionGraph
