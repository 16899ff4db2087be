import DecisionGraph.Request

namespace DecisionGraph

/-- How a part of a request ends. Either it returns, or a panic of node logic unwinds it. What was
done until then is done in both cases. -/
inductive Trial (σ α : Type) where
  | returned (a : α) (p : Progress σ)
  | unwound (p : Progress σ)

namespace Trial

variable {σ α β : Type}

def ofPair (x : α × Progress σ) : Trial σ α := .returned x.1 x.2

def progress : Trial σ α → Progress σ
  | returned _ p => p
  | unwound p => p

def andThen (t : Trial σ α) (f : α → Progress σ → Trial σ β) : Trial σ β :=
  match t with
  | returned a p => f a p
  | unwound p => .unwound p

def andDo (t : Trial σ α) (f : α → Progress σ → β × Progress σ) : Trial σ β :=
  t.andThen fun a p => .ofPair (f a p)

/-- What a guard does when it is dropped, on either way out. -/
def atExit (f : Progress σ → Progress σ) : Trial σ α → Trial σ α
  | returned a p => .returned a (f p)
  | unwound p => .unwound (f p)

end Trial

/-- A request whose node logic may panic, in the state that the host has left when it would answer.
-/
structure PanickyRequest (L σ : Type) extends Request L σ where
  panics : L → Evaluation → σ → Bool

/-- What the answer of a decision's logic comes to. -/
def Request.conclude {L σ : Type} (r : Request L σ) (n : Node L) (type : DeclaredType)
    (a : Except EvalError Answer) (p : Progress σ) : Bool × Progress σ :=
  match a with
  | .ok (.success v) => r.bindResult n type v p
  | .ok .failure => (false, p.update (·.onLedger (·.setStatus (r.key n) .failed)))
  | .error e =>
    (false, p.update (·.fail (r.key n) (.of .error
      (.errorEvaluatingDecision n.info.identifier e.text)
      (some n.info.id) (some e.text)) .failed))

def Request.learn {L σ : Type} (r : Request L σ) (n : Node L) (a : Except EvalError Answer)
    (p : Progress σ) : Progress σ :=
  match a with
  | .ok (.success (.function f)) =>
    r.watch (.bound n) (p.update (·.onContext (·.set n.info.name (.function f))))
  | .ok (.success v) =>
    p.update (·.report (.of .error (.errorEvaluatingBkm n.info.identifier
      ("expected a function value, found " ++ v.kind)) (some n.info.id) none))
  | .ok .failure => p
  | .error e =>
    p.update (·.report (.of .error (.errorEvaluatingBkm n.info.identifier e.text)
      (some n.info.id) (some e.text)))

abbrev TriedVisit (L σ : Type) := Node L → Progress σ → Trial σ Resolution

namespace PanickyRequest

variable {L σ : Type}

def callLogic (r : PanickyRequest L σ) (n : Node L) (logic : L) (p : Progress σ) :
    Trial σ (Except EvalError Answer) :=
  let x := r.toRequest.callLogic n logic p
  if r.panics logic p.evaluation (r.watch (.calling n) p).world then .unwound x.2 else .ofPair x

/-- The frames that the walk has opened are closed by a guard, a panic notwithstanding. -/
def descend (inner : TriedVisit L σ) (dependency : Node L) : Passage → Progress σ →
    Trial σ Resolution
  | .through name, p =>
    let depth := p.context.depth
    (inner dependency (p.update (·.onContext (·.push ⟨name, dependency.info.ns⟩)))).atExit
      (·.update (·.onContext (·.closeTo depth)))
  | _, p => inner dependency p

def provide (r : PanickyRequest L σ) (inner : TriedVisit L σ) (owner dependency : Node L)
    (name : String) (p : Progress σ) : Trial σ Bool :=
  if r.isDefined p.context owner.info dependency.info then .returned true p
  else
    match r.model.passage p.context owner.info dependency.info with
    | .closed =>
      .returned false (r.reportUnresolved owner name owner.info.id
        (.importNotFoundForNode dependency.info.ns dependency.info.model owner.info.identifier) p)
    | way =>
      (descend inner dependency way p).andDo fun res p =>
        match Request.complaint owner.info dependency.info res with
        | none => (true, p)
        | some d => (false, r.reportUnresolved owner name owner.info.id d p)

def resolveOne (r : PanickyRequest L σ) (inner : TriedVisit L σ) (owner : Node L)
    (name : String) (id : Nat) (p : Progress σ) : Trial σ Bool :=
  match r.model.node? id with
  | none =>
    .returned false (r.reportUnresolved owner name owner.info.id
      (.requiredDependencyNotFound name owner.info.identifier) p)
  | some dependency =>
    let (fits, p) := r.checkInput owner dependency name p
    if !fits && owner.isKnowledge then .returned false p
    else (r.provide inner owner dependency name p).andDo fun found p => (fits && found, p)

def resolveList (r : PanickyRequest L σ) (inner : TriedVisit L σ) (owner : Node L) :
    List (String × Nat) → Progress σ → Trial σ Bool
  | [], p => .returned true p
  | (name, id) :: rest, p =>
    (r.resolveOne inner owner name id p).andThen fun ok p =>
      if !ok && owner.isKnowledge then .returned false p
      else (r.resolveList inner owner rest p).andDo fun allOk p => (ok && allOk, p)

def resolve (r : PanickyRequest L σ) (inner : TriedVisit L σ) (owner : Node L)
    (p : Progress σ) : Trial σ Bool :=
  r.resolveList inner owner owner.info.dependencies.toList p

def runDecision (r : PanickyRequest L σ) (inner : TriedVisit L σ) (n : Node L)
    (type : DeclaredType) (logic : Option L) (p : Progress σ) : Trial σ Bool :=
  let key := r.key n
  (r.resolve inner n p).andThen fun ready p =>
    if !ready then .returned false (p.update (·.onLedger (·.setStatus key .skipped)))
    else
      match logic with
      | none =>
        .returned false (p.update (·.fail key
          (.of .warn (.missingExpressionForDecision n.info.identifier) (some n.info.id) none)
          .skipped))
      | some logic =>
        (r.callLogic n logic p).andDo (r.conclude n type)

/-- The events of a decision: the last one is sent by a guard, whose drop tells the listeners of the
outcome as it is then. -/
def guarded {α : Type} (r : PanickyRequest L σ) (before : Event) (after : Ledger → Event)
    (run : Progress σ → Trial σ α) (p : Progress σ) : Trial σ α :=
  if r.host.listening p.world then
    (run (r.notify before p)).atExit fun p => r.notify (after p.ledger) p
  else run p

/-- The events of a business knowledge model: the last one is sent by a plain call, which a panic
does not reach. -/
def announced {α : Type} (r : PanickyRequest L σ) (before after : Event)
    (run : Progress σ → Trial σ α) (p : Progress σ) : Trial σ α :=
  if r.host.listening p.world then
    (run (r.notify before p)).andDo fun a p => (a, r.notify after p)
  else run p

def visitDecision (r : PanickyRequest L σ) (inner : Option (TriedVisit L σ)) (n : Node L)
    (type : DeclaredType) (logic : Option L) (p : Progress σ) : Trial σ Resolution :=
  let key := r.key n
  if r.isDefined p.context n.info n.info then .returned .resolved p
  else if (p.ledger.status key).blocksReentry then .returned .decisionFailed p
  else
    let p := p.update (·.onLedger (·.ensure key n.info.name))
    match inner with
    | none =>
      .returned .decisionFailed (p.update (·.fail key (.of .error
        (.evaluationDepthExceeded n.info.identifier r.maxDepth) (some n.info.id) none) .failed))
    | some inner =>
      let p := r.watch (.entered n) (p.update (·.onLedger (·.setStatus key .evaluating)))
      (r.guarded (.decision .before n.info.subject none)
        (fun l => .decision .after n.info.subject (l.find? key))
        (fun p => (r.runDecision inner n type logic p).andDo fun ok p => (ok, r.watch (.left n) p))
        p).andDo fun ok p => (.ofDecision ok, p)

def provideFunction (r : PanickyRequest L σ) (inner : TriedVisit L σ) (n : Node L) (logic : L)
    (p : Progress σ) : Trial σ Unit :=
  (r.resolve inner n p).andThen fun ready p =>
    if !ready then .returned () p
    else (r.callLogic n logic p).andDo fun a p => ((), r.learn n a p)

/-- A panic leaves the node active: its mark goes with the request that the panic ends. -/
def runKnowledge (r : PanickyRequest L σ) (inner : TriedVisit L σ) (n : Node L) (logic : L)
    (p : Progress σ) : Trial σ Unit :=
  let key := r.key n
  let p := r.watch (.entered n) (p.update (·.enter key))
  (r.provideFunction inner n logic p).andDo fun _ p =>
    ((), r.watch (.left n) (p.update (·.leave key)))

def visitKnowledge (r : PanickyRequest L σ) (inner : Option (TriedVisit L σ)) (n : Node L)
    (logic : Option L) (p : Progress σ) : Trial σ Resolution :=
  if p.evaluation.isActive (r.key n) then .returned .knowledgeCycle p
  else if r.isDefined p.context n.info n.info then .returned .resolved p
  else match logic, inner with
    | none, _ =>
      .returned .resolved (p.update (·.report (.of .warn
        (.missingExpressionForBkm n.info.identifier) (some n.info.id) none)))
    | some _, none =>
      .returned .resolved (p.update (·.report (.of .error
        (.evaluationDepthExceeded n.info.identifier r.maxDepth) (some n.info.id) none)))
    | some logic, some inner =>
      (r.announced (.knowledge .before n.info.subject) (.knowledge .after n.info.subject)
        (r.runKnowledge inner n logic) p).andDo fun _ p => (.resolved, p)

def visitNode (r : PanickyRequest L σ) (inner : Option (TriedVisit L σ)) : TriedVisit L σ :=
  fun n p =>
    match n.role with
    | .decision type logic => r.visitDecision inner n type logic p
    | .knowledge logic => r.visitKnowledge inner n logic p
    | .input _ => .returned .notFound p

def visit (r : PanickyRequest L σ) : Nat → TriedVisit L σ
  | 0 => r.visitNode none
  | room + 1 => r.visitNode (some (r.visit room))

def each {α : Type} (f : α → Progress σ → Trial σ Unit) :
    List α → Progress σ → Trial σ Unit
  | [], p => .returned () p
  | a :: rest, p => (f a p).andThen fun _ p => each f rest p

def evaluate (r : PanickyRequest L σ) (n : Node L) (p : Progress σ) : Trial σ Unit :=
  (r.visit r.maxDepth n p).andDo fun _ p => ((), p)

def evaluateAll (r : PanickyRequest L σ) (context : Context) (world : σ) : Trial σ Unit :=
  each r.evaluate r.model.localDecisions (r.start context world)

def evaluateSelected (r : PanickyRequest L σ) (select : String → NodeInfo → Bool)
    (missing : String → Diagnostic) (keys : List String) (context : Context) (world : σ) :
    Trial σ Unit :=
  each (fun k p =>
    match r.model.localDecisions.find? fun d => select k d.info with
    | some d => r.evaluate d p
    | none => .returned () (p.update (·.report (.of .error (missing k) none none))))
    keys (r.start context world)

def run (r : PanickyRequest L σ) (s : Selection) (context : Context) (world : σ) :
    Trial σ Unit :=
  match s with
  | .all => r.evaluateAll context world
  | .names names =>
    r.evaluateSelected (fun k i => i.name == k) .decisionNotFoundForName names context world
  | .ids ids => r.evaluateSelected (fun k i => i.id == k) .decisionNotFoundForId ids context world

end PanickyRequest

end DecisionGraph
