import DecisionGraph.Json.Writer
import DecisionGraph.Outcome.Document
import DecisionGraph.Session
import DecisionGraph.Session.ListenerScript
import DecisionGraph.Session.RegistryScript
import DecisionGraph.Proofs.Checks
import DecisionGraph.Proofs.Cycles
import DecisionGraph.Proofs.Embedding
import DecisionGraph.Proofs.Guards
import DecisionGraph.Proofs.Headroom
import DecisionGraph.Proofs.Panics
import DecisionGraph.Proofs.Keys
import DecisionGraph.Proofs.Limits
import DecisionGraph.Proofs.Lookups
import DecisionGraph.Proofs.Memo
import DecisionGraph.Proofs.Once
import DecisionGraph.Proofs.Results
import DecisionGraph.Proofs.Scopes
import DecisionGraph.Proofs.Selecting
import DecisionGraph.Proofs.Standing
import DecisionGraph.Proofs.Statuses
import DecisionGraph.Proofs.Transparency
import DecisionGraph.Proofs.Reports
import DecisionGraph.Proofs.Survival
import DecisionGraph.Proofs.Assembly
import DecisionGraph.Proofs.Declarations
import DecisionGraph.Proofs.Integrity
import DecisionGraph.Proofs.Paths
import DecisionGraph.Proofs.TypeChecks
import DecisionGraph.Proofs.Singletons
import DecisionGraph.Proofs.Documents
import DecisionGraph.Proofs.Registrations
import DecisionGraph.Proofs.Delivery
import DecisionGraph.Proofs.Enrolment
import DecisionGraph.Proofs.Conduct
