namespace DecisionGraph

inductive EvalError where
  | failed (message : String)
  | variableNotFound (name : String)
  | invalidArgument (message : String)
  | invalidInput (message : String)
deriving DecidableEq, Inhabited

namespace EvalError

def kind : EvalError → String
  | failed _ => "Failed"
  | variableNotFound _ => "VariableNotFound"
  | invalidArgument _ => "InvalidArgument"
  | invalidInput _ => "InvalidInput"

def text : EvalError → String
  | failed m => "Evaluation failed: " ++ m
  | variableNotFound n => "Variable not found: " ++ n
  | invalidArgument m => "Invalid argument: " ++ m
  | invalidInput m => "Invalid input: " ++ m

end EvalError

inductive ModelError where
  | duplicateNode (ns name : String)
  | unknownNode (id : Nat)
  | duplicateImport (name : String)
  | evaluatorNotAllowed (node : String)
  | invalidDependency (node dependency : String)
  | duplicateModel (ns name : String)
deriving DecidableEq, Inhabited

namespace ModelError

def kind : ModelError → String
  | duplicateNode .. => "DuplicateNode"
  | unknownNode _ => "UnknownNode"
  | duplicateImport _ => "DuplicateImport"
  | evaluatorNotAllowed _ => "EvaluatorNotAllowed"
  | invalidDependency .. => "InvalidDependency"
  | duplicateModel .. => "DuplicateModel"

def text : ModelError → String
  | duplicateNode ns name => "Duplicate node '" ++ name ++ "' in model " ++ ns
  | unknownNode id => "Unknown node id " ++ toString id
  | duplicateImport name => "Import alias '" ++ name ++ "' is already in use"
  | evaluatorNotAllowed node => "Node '" ++ node ++ "' cannot carry an evaluator"
  | invalidDependency node dependency =>
    "Node '" ++ node ++ "' cannot declare dependency '" ++ dependency ++ "'"
  | duplicateModel ns name => "Model '" ++ name ++ "' already registered in namespace " ++ ns

end ModelError

/-- A type whose own definition does not allow a check. -/
structure TypeError where
  typeName : String
  message : String
deriving DecidableEq, Inhabited

namespace TypeError

def kind (_ : TypeError) : String := "InvalidConstraint"

def text (e : TypeError) : String :=
  "Invalid type constraint on " ++ e.typeName ++ ": " ++ e.message

end TypeError

inductive SettingsError where
  | unreadable (reason : String)
  | malformed (reason : String)
deriving DecidableEq, Inhabited

namespace SettingsError

def kind : SettingsError → String
  | unreadable _ => "Io"
  | malformed _ => "Parse"

def text : SettingsError → String
  | unreadable r => "Failed to open config file: " ++ r
  | malformed r => "Failed to parse config: " ++ r

end SettingsError

inductive Fault where
  | model (e : ModelError)
  | eval (e : EvalError)
  | typeCheck (e : TypeError)
  | settings (e : SettingsError)
  | internal (message : String)
deriving DecidableEq, Inhabited

namespace Fault

def kind : Fault → String
  | model _ => "Model"
  | eval _ => "Eval"
  | typeCheck _ => "TypeCheck"
  | settings _ => "Config"
  | internal _ => "Internal"

def text : Fault → String
  | model e => "Model error: " ++ e.text
  | eval e => "Eval error: " ++ e.text
  | typeCheck e => "Type check error: " ++ e.text
  | settings e => "Config error: " ++ e.text
  | internal m => "Internal error: " ++ m

end Fault

end DecisionGraph
