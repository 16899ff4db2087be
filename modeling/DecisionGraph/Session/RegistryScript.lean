import DecisionGraph.Model.Builder
import DecisionGraph.Registry.Calls
import DecisionGraph.Uuid

namespace DecisionGraph

inductive RegistryStep where
  | register (ns name : String) (id : Option String)
  | model (ns name : String)
  | modelById (ns id : String)
  | unregister (ns name : String)
  | share (copy : String)
  | create (handle : String)

abbrev RegistryReply := Registry.Reply Empty

structure RegistryScript where
  registries : Shared (Registry Empty)
  ids : Nat

namespace RegistryScript

def start : RegistryScript := ⟨.create .empty "main" .empty, 0⟩

def perform (s : RegistryScript) (handle : String) (c : Registry.Call Empty) :
    RegistryReply × RegistryScript :=
  let (reply, registries) := Registry.perform s.registries handle c
  (reply, { s with registries })

def register (s : RegistryScript) (handle ns name : String) (id : Option String) :
    RegistryReply × RegistryScript :=
  let b : Builder Empty := { Builder.new ns name with id }
  match b.build (Uuid.ofNat s.ids) with
  | .error e => (.refused e, s)
  | .ok m => { s with ids := s.ids + 1 }.perform handle (.register m)

def run (s : RegistryScript) (handle : String) : RegistryStep → RegistryReply × RegistryScript
  | .register ns name id => s.register handle ns name id
  | .model ns name => s.perform handle (.model ns name)
  | .modelById ns id => s.perform handle (.modelById ns id)
  | .unregister ns name => s.perform handle (.unregister ns name)
  | .share copy => s.perform handle (.share copy)
  | .create new => s.perform handle (.create new)

/-- The replies to the steps, each with the registry that the step went to. -/
def runAll (s : RegistryScript) :
    List (String × RegistryStep) → List (RegistryReply × Registry Empty)
  | [] => []
  | (handle, step) :: steps =>
    let (reply, s') := s.run handle step
    (reply, (s.registries.followed? s'.registries handle).getD .empty) :: s'.runAll steps

end RegistryScript

end DecisionGraph
