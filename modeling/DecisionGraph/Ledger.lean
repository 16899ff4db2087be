import DecisionGraph.Outcome

namespace DecisionGraph

/-- The outcomes of a request in the order in which their decisions were first met, with an index
from the decision's key to the position of its outcome. -/
structure Ledger where
  outcomes : List Outcome
  positions : Bindings Nat

namespace Ledger

def empty : Ledger := ⟨[], .nil⟩

instance : Inhabited Ledger := ⟨empty⟩

def find? (l : Ledger) (key : String) : Option Outcome :=
  (l.positions.find? key).bind fun i => l.outcomes[i]?

def modify (l : Ledger) (key : String) (f : Outcome → Outcome) : Ledger :=
  match l.positions.find? key with
  | some i => { l with outcomes := l.outcomes.modify i f }
  | none => l

/-- Opens an outcome for a key that has none. -/
def ensure (l : Ledger) (key name : String) : Ledger :=
  match l.positions.find? key with
  | some _ => l
  -- The position of the new outcome is the length of the list before it.
  | none => ⟨l.outcomes ++ [.new key name], l.positions.insert key l.outcomes.length⟩

/-- The status under a key; a key without an outcome was not evaluated. -/
def status (l : Ledger) (key : String) : Status :=
  ((l.find? key).map Outcome.status).getD .notEvaluated

def setStatus (l : Ledger) (key : String) (status : Status) : Ledger :=
  l.modify key fun o => { o with status }

def byId? (l : Ledger) (id : String) : Option Outcome := l.outcomes.find? fun o => o.id == id

def byName? (l : Ledger) (name : String) : Option Outcome :=
  l.outcomes.find? fun o => o.name == name

end Ledger

end DecisionGraph
