import DecisionGraph.Event
import DecisionGraph.Listeners.Conduct

namespace DecisionGraph

inductive ListenerStep where
  | add (label : String) (silent : Bool)
  | remove (label : String)
  | fire (e : Event)
  | share (copy : String)
  | create (handle : String)

inductive ListenerReply where
  | nothing
  | added (n : Nat)
  | removed (found : Bool)

/-- A listener that writes down what it receives under its label, unless it is silent. -/
structure Scribe where
  label : String
  silent : Bool
deriving DecidableEq, Inhabited

abbrev Delivery := String × Event

structure ListenerScript where
  /-- The memory is what the listeners have written down at the last event. -/
  site : Site Scribe Event (List Delivery)
  labels : Bindings Nat

namespace ListenerScript

def start : ListenerScript := ⟨(Site.start []).create "main", .nil⟩

def hooks (b : Scribe) (e : Event) : Conduct Scribe Event (List Delivery) :=
  if b.silent then .done else .remember (· ++ [(b.label, e)]) fun _ => .done

def inOrder : Arrangement Scribe := fun _ entries => entries

def fire (s : ListenerScript) (handle : String) (e : Event) : ListenerScript :=
  { s with site := { s.site with memory := [] }.fire inOrder (Conduct.react inOrder hooks 1) handle e }

def written (s : ListenerScript) : List Delivery :=
  s.site.memory.mergeSort fun d d' => !decide (d'.1 < d.1)

def run (s : ListenerScript) (handle : String) :
    ListenerStep → ListenerReply × List Delivery × ListenerScript
  | .add label silent =>
    (.added s.site.next, [],
      ⟨s.site.add handle ⟨label, silent⟩, s.labels.insert label s.site.next⟩)
  | .remove label =>
    match s.labels.find? label with
    | none => (.removed false, [], s)
    | some n =>
      let (found, site) := s.site.remove handle n
      (.removed found, [], { s with site })
  | .fire e =>
    let s := s.fire handle e
    (.nothing, s.written, s)
  | .share copy => (.nothing, [], { s with site := s.site.share handle copy })
  | .create new => (.nothing, [], { s with site := s.site.create new })

/-- The replies to the steps, each with the deliveries and the set that the step went to. -/
def runAll (s : ListenerScript) :
    List (String × ListenerStep) → List (ListenerReply × List Delivery × Listeners Scribe)
  | [] => []
  | (handle, step) :: steps =>
    let (reply, written, s') := s.run handle step
    (reply, written, (s.site.sets.followed? s'.site.sets handle).getD .empty) :: s'.runAll steps

end ListenerScript

end DecisionGraph
