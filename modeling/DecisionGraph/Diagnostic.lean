namespace DecisionGraph

inductive Severity where
  | info
  | warn
  | error
deriving DecidableEq, Inhabited

namespace Severity

def all : List Severity := [info, warn, error]

def rank : Severity → Nat
  | info => 0
  | warn => 1
  | error => 2

def text : Severity → String
  | info => "INFO"
  | warn => "WARN"
  | error => "ERROR"

def tag : Severity → String
  | info => "Info"
  | warn => "Warn"
  | error => "Error"

def ofText? (s : String) : Option Severity := all.find? fun x => x.text == s

end Severity

inductive Diagnostic where
  | decisionNotFoundForName (name : String)
  | decisionNotFoundForId (id : String)
  | missingExpressionForDecision (decision : String)
  | missingExpressionForBkm (bkm : String)
  | dependencyWrongType (node dependency value typeName : String)
  | resultWrongType (node typeName value : String)
  | errorCheckingAllowedValues (node reason : String)
  | requiredDependencyNotFound (dependency node : String)
  | unableToEvaluateRequiredDecision (node dependency : String)
  | importNotFoundForNode (ns model node : String)
  | errorEvaluatingDecision (decision reason : String)
  | errorEvaluatingBkm (bkm reason : String)
  | bkmDependencyCycle (node bkm : String)
  | evaluationDepthExceeded (node : String) (limit : Nat)
deriving DecidableEq, Inhabited

namespace Diagnostic

def code : Diagnostic → String
  | decisionNotFoundForName _ => "DecisionNotFoundForName"
  | decisionNotFoundForId _ => "DecisionNotFoundForId"
  | missingExpressionForDecision _ => "MissingExpressionForDecision"
  | missingExpressionForBkm _ => "MissingExpressionForBkm"
  | dependencyWrongType .. => "DependencyWrongType"
  | resultWrongType .. => "ResultWrongType"
  | errorCheckingAllowedValues .. => "ErrorCheckingAllowedValues"
  | requiredDependencyNotFound .. => "RequiredDependencyNotFound"
  | unableToEvaluateRequiredDecision .. => "UnableToEvaluateDecisionRequiredDependency"
  | importNotFoundForNode .. => "ImportNotFoundForNode"
  | errorEvaluatingDecision .. => "ErrorEvaluatingDecision"
  | errorEvaluatingBkm .. => "ErrorEvaluatingBkm"
  | bkmDependencyCycle .. => "BkmDependencyCycle"
  | evaluationDepthExceeded .. => "EvaluationDepthExceeded"

def text : Diagnostic → String
  | decisionNotFoundForName name => "Unable to find decision with name '" ++ name ++ "'"
  | decisionNotFoundForId id => "Unable to find decision with id '" ++ id ++ "'"
  | missingExpressionForDecision decision =>
    "Missing expression for decision '" ++ decision ++ "'. Skipping evaluation."
  | missingExpressionForBkm bkm =>
    "Missing expression for business knowledge model '" ++ bkm ++ "'. Skipping evaluation."
  | dependencyWrongType node dependency value typeName =>
    "Error while evaluating node '" ++ node ++ "': the dependency '" ++ dependency ++
      "' was resolved to value '" ++ value ++ "' which is not allowed by the declared type (" ++
      typeName ++ ")"
  | resultWrongType node typeName value =>
    "Error while evaluating node '" ++ node ++ "': the declared result type is '" ++ typeName ++
      "' but the actual value '" ++ value ++ "' is not an instance of that type"
  | errorCheckingAllowedValues node reason =>
    "Error checking allowed values for node '" ++ node ++ "': " ++ reason
  | requiredDependencyNotFound dependency node =>
    "Required dependency '" ++ dependency ++ "' not found on node '" ++ node ++ "'"
  | unableToEvaluateRequiredDecision node dependency =>
    "Unable to evaluate node '" ++ node ++ "' as it requires decision '" ++ dependency ++ "'"
  | importNotFoundForNode ns model node =>
    "Import of '" ++ ns ++ "#" ++ model ++ "' required by node '" ++ node ++ "' has no alias"
  | errorEvaluatingDecision decision reason =>
    "Error evaluating decision '" ++ decision ++ "': " ++ reason
  | errorEvaluatingBkm bkm reason =>
    "Error evaluating business knowledge model '" ++ bkm ++ "': " ++ reason
  | bkmDependencyCycle node bkm =>
    "Business knowledge model '" ++ bkm ++ "' required by node '" ++ node ++
      "' is already being evaluated"
  | evaluationDepthExceeded node limit =>
    "Evaluation depth limit of " ++ toString limit ++ " exceeded at node '" ++ node ++ "'"

end Diagnostic

structure Message where
  severity : Severity
  code : String
  text : String
  /-- The id of the node that the message is about. -/
  source : Option String
  cause : Option String
deriving DecidableEq, Inhabited

namespace Message

def of (severity : Severity) (d : Diagnostic) (source cause : Option String) : Message :=
  ⟨severity, d.code, d.text, source, cause⟩

def render (m : Message) : String := m.severity.text ++ " " ++ m.code ++ ": " ++ m.text

end Message

def clipLength : Nat := 50

/-- A text as it is quoted in a diagnostic, at most fifty characters of it. -/
def clip (text : String) : String :=
  let cs := text.toList
  if clipLength < cs.length then String.ofList (cs.take clipLength) ++ "..." else text

end DecisionGraph
