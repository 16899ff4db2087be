import DecisionGraph.Logic
import DecisionGraph.Request
import DecisionGraph.World

namespace DecisionGraph

/-- What the logic of a node has around it. -/
structure Scene where
  evaluation : Evaluation
  world : World

namespace Scene

def ofText? (s : Option String) : Value := (s.map Value.string).getD .null

def perform (step : Effect) (s : Scene) : Except EvalError Value × Scene :=
  let c := s.evaluation.context
  let onContext := fun f => { s with evaluation := s.evaluation.onContext f }
  match step with
  | .get name =>
    match c.get? name with
    | some v => (.ok v, s)
    | none => (.error (.variableNotFound name), s)
  | .nested outer name =>
    match ((c.get? outer).bind Value.entries?).bind fun b => b.find? name with
    | some v => (.ok v, s)
    | none => (.error (.variableNotFound (outer ++ "." ++ name)), s)
  | .defined name => (.ok (.boolean (c.isDefined name)), s)
  | .scope => (.ok (.list [ofText? c.ns?, .integer (.ofNat c.depth)]), s)
  | .push name ns => (.ok .null, onContext (·.push ⟨name, ns⟩))
  | .pop =>
    match c.frames.getLast? with
    | some f => (.ok (.list [.string f.name, .string f.ns]), onContext Context.pop)
    | none => (.ok .null, s)
  | .status id =>
    (.ok (ofText? ((s.evaluation.ledger.byId? id).map fun o => o.status.text)), s)
  | .messages => (.ok (.integer (.ofNat s.evaluation.messages.length)), s)
  | .report severity source cause d =>
    (.ok .null, { s with evaluation :=
      s.evaluation.report (.of severity d source (cause.map EvalError.text)) })
  | .count label =>
    let (n, world) := s.world.count label
    (.ok (.integer (.ofNat n)), { s with world })
  | .listen label =>
    let (started, world) := s.world.listen label []
    (.ok (.boolean started), { s with world })
  | .unlisten label =>
    let (found, world) := s.world.unlisten label
    (.ok (.boolean found), { s with world })

def assign (name : String) (v : Value) (s : Scene) : Except EvalError Value × Scene :=
  let (old, context) := s.evaluation.context.exchange name v
  (.ok (old.getD .null), { s with evaluation := { s.evaluation with context } })

def summary (o : Outcome) : Value :=
  .list [.string o.id, .string o.status.text, o.result.getD .null,
    .integer (.ofNat o.messages.length)]

end Scene

namespace Runtime

/-- Requests started by node logic nest at most that deep; no run that ends comes near it. -/
def inquiryLimit : Nat := UInt64.size

/-- The model that an inquiry names: a registered one, or the request's own. -/
def inquiredModel? (r : Runtime Expr) (own : Model Expr) (q : Inquiry) : Option (Model Expr) :=
  match q.ns with
  | none => some own
  | some ns => r.registry.model? ns q.model

/-- The context of an inquiry: the entries of the given value, or a copy of the current one. -/
def inquiredContext (current : Context) : Option Value → Context
  | none => current
  | some v => .ofEntries (v.entries?.getD .nil)

def inquire (r : Runtime Expr) (host : Host Expr World) (own : Model Expr) (q : Inquiry)
    (given : Option Value) (s : Scene) : Except EvalError Value × Scene :=
  match r.inquiredModel? own q with
  | none => (.error (.failed "no such model"), s)
  | some m =>
    let p := (r.request host m).evaluateByName q.names
      (inquiredContext s.evaluation.context given) s.world
    (.ok (.list (p.ledger.outcomes.map Scene.summary)), { s with world := p.world })

def refuseInquiry (_ : Inquiry) (_ : Option Value) (s : Scene) :
    Except EvalError Value × Scene :=
  (.error (.failed "requests nest too deep"), s)

def runLogic (inquire : Inquiry → Option Value → Scene → Except EvalError Value × Scene)
    (logic : Expr) (e : Evaluation) (w : World) : Except EvalError Answer × Evaluation × World :=
  let u : Surroundings Scene := ⟨Scene.perform, Scene.assign, inquire⟩
  let (a, s) := logic.run u FunctionValue.invoke [] ⟨e, w⟩
  let answer := match a with
    | .ok v => .ok (.success v)
    | .error (.error err) => .error err
    | .error .failure => .ok .failure
  (answer, s.evaluation, s.world)

/-- A host that tells the listeners of the world and runs logic in the given way. -/
def hostOf (answer : Model Expr → Expr → Evaluation → World →
    Except EvalError Answer × Evaluation × World) : Host Expr World :=
  ⟨fun w => !w.listeners.isEmpty, World.deliver, answer, fun _ _ w => w⟩

/-- Runs the logic of a node of a model when `room` more requests may nest in it. -/
def answerWithin (r : Runtime Expr) : Nat → Model Expr → Expr → Evaluation → World →
    Except EvalError Answer × Evaluation × World
  | 0, _, logic, e, w => runLogic refuseInquiry logic e w
  | room + 1, m, logic, e, w =>
    runLogic (r.inquire (hostOf (r.answerWithin room)) m) logic e w

def host (r : Runtime Expr) : Host Expr World := hostOf (r.answerWithin inquiryLimit)

end Runtime

end DecisionGraph
