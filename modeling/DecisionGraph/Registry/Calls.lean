import DecisionGraph.Registry
import DecisionGraph.Shared

namespace DecisionGraph.Registry

variable {L : Type}

inductive Call (L : Type) where
  | register (m : Model L)
  | model (ns name : String)
  | modelById (ns id : String)
  | unregister (ns name : String)
  | share (copy : String)
  | create (handle : String)

inductive Reply (L : Type) where
  | nothing
  | model (m : Option (Model L))
  | refused (e : ModelError)

/-- The registry that a handle leads to. -/
def behind (s : Shared (Registry L)) (handle : String) : Registry L := (s.get? handle).getD .empty

def perform (s : Shared (Registry L)) (handle : String) : Call L → Reply L × Shared (Registry L)
  | .register m =>
    match (behind s handle).register m with
    | .error e => (.refused e, s)
    | .ok r => (.model (some m), s.set handle r)
  | .model ns name => (.model ((behind s handle).model? ns name), s)
  | .modelById ns id => (.model ((behind s handle).modelById? ns id), s)
  | .unregister ns name =>
    match (behind s handle).unregister ns name with
    | some (m, r) => (.model (some m), s.set handle r)
    | none => (.model none, s)
  | .share copy => (.nothing, s.share handle copy)
  | .create new => (.nothing, s.create new .empty)

end DecisionGraph.Registry
