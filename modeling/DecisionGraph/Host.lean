import DecisionGraph.Evaluation
import DecisionGraph.Event
import DecisionGraph.Model

namespace DecisionGraph

/-- What node logic answers if it does not err. -/
inductive Answer where
  | success (v : Value)
  /-- The logic has reported its own diagnostics. -/
  | failure
deriving Inhabited

def Answer.isSuccess : Answer → Bool
  | .success _ => true
  | .failure => false

/-- The points of an evaluation that a host may watch. -/
inductive Moment (L : Type) where
  | entered (node : Node L)
  /-- The type of an input is checked against the value that it has for its dependent. -/
  | examined (owner dependency : Node L) (value : Value)
  | unresolved (owner : Node L) (dependency : String)
  | calling (node : Node L)
  | bound (node : Node L)
  | left (node : Node L)

structure Host (L σ : Type) where
  /-- Whether there is anyone to tell. -/
  listening : σ → Bool
  notify : Event → σ → σ
  /-- Runs the logic of a node of the model. -/
  answer : Model L → L → Evaluation → σ → Except EvalError Answer × Evaluation × σ
  /-- Is told of every moment of an evaluation, which it cannot change. -/
  observe : Moment L → Evaluation → σ → σ

/-- How far a request has come: its own state and the host's world. -/
structure Progress (σ : Type) where
  evaluation : Evaluation
  world : σ

namespace Progress

variable {σ : Type}

def context (p : Progress σ) : Context := p.evaluation.context

def ledger (p : Progress σ) : Ledger := p.evaluation.ledger

def update (f : Evaluation → Evaluation) (p : Progress σ) : Progress σ :=
  { p with evaluation := f p.evaluation }

@[simp] theorem context_eq (p : Progress σ) : p.context = p.evaluation.context := rfl

@[simp] theorem ledger_eq (p : Progress σ) : p.ledger = p.evaluation.ledger := rfl

@[simp] theorem evaluation_update (f : Evaluation → Evaluation) (p : Progress σ) :
    (p.update f).evaluation = f p.evaluation := rfl

@[simp] theorem world_update (f : Evaluation → Evaluation) (p : Progress σ) :
    (p.update f).world = p.world := rfl

end Progress

end DecisionGraph
