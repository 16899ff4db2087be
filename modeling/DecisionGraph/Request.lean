import DecisionGraph.Registry
import DecisionGraph.Walk

namespace DecisionGraph

inductive Selection where
  | all
  | names (names : List String)
  | ids (ids : List String)

/-- The models and the settings that requests run with. -/
structure Runtime (L : Type) where
  registry : Registry L
  settings : Settings

namespace Runtime

variable {L σ : Type}

def new (settings : Settings) : Runtime L := ⟨.empty, settings⟩

def apply (r : Runtime L) (s : Setting) : Runtime L := { r with settings := r.settings.apply s }

def typeCheckFor (r : Runtime L) (m : Model L) : Bool := r.settings.typeCheckFor m.typeCheck

def request (r : Runtime L) (host : Host L σ) (m : Model L) : Request L σ :=
  ⟨m, host, r.typeCheckFor m, r.settings.maxDepth, r.settings.importLookup⟩

end Runtime

namespace Model

variable {L : Type}

/-- A ledger with an outcome for each of the model's own decisions. -/
def freshLedger (m : Model L) : Ledger :=
  m.localDecisions.foldl (fun l d => l.ensure d.info.id d.info.name) .empty

end Model

namespace Request

variable {L σ : Type}

def start (r : Request L σ) (context : Context) (world : σ) : Progress σ :=
  ⟨{ Evaluation.start context with ledger := r.model.freshLedger }, world⟩

def evaluate (r : Request L σ) (n : Node L) (p : Progress σ) : Progress σ :=
  (r.visit r.maxDepth n p).2

def evaluateAll (r : Request L σ) (context : Context) (world : σ) : Progress σ :=
  r.model.localDecisions.foldl (fun p d => r.evaluate d p) (r.start context world)

/-- Evaluates the model's own decisions that the keys select, in the order of the keys. -/
def evaluateSelected (r : Request L σ) (select : String → NodeInfo → Bool)
    (missing : String → Diagnostic) (keys : List String) (context : Context) (world : σ) :
    Progress σ :=
  keys.foldl (fun p k =>
    match r.model.localDecisions.find? fun d => select k d.info with
    | some d => r.evaluate d p
    | none => p.update (·.report (.of .error (missing k) none none))) (r.start context world)

def evaluateByName (r : Request L σ) (names : List String) (context : Context) (world : σ) :
    Progress σ :=
  r.evaluateSelected (fun k i => i.name == k) .decisionNotFoundForName names context world

def evaluateById (r : Request L σ) (ids : List String) (context : Context) (world : σ) :
    Progress σ :=
  r.evaluateSelected (fun k i => i.id == k) .decisionNotFoundForId ids context world

def run (r : Request L σ) (s : Selection) (context : Context) (world : σ) : Progress σ :=
  match s with
  | .all => r.evaluateAll context world
  | .names names => r.evaluateByName names context world
  | .ids ids => r.evaluateById ids context world

end Request

end DecisionGraph
