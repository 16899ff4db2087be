import DecisionGraph.Model

namespace DecisionGraph

structure Registry (L : Type) where
  byNs : Bindings (List (Model L))

namespace Registry

variable {L : Type}

def empty : Registry L := ⟨.nil⟩

instance : Inhabited (Registry L) := ⟨empty⟩

def inNs (r : Registry L) (ns : String) : List (Model L) := (r.byNs.find? ns).getD []

def models (r : Registry L) : List (Model L) := r.byNs.values.flatten

/-- How many models there are, counted by namespace. -/
def size (r : Registry L) : Nat := r.byNs.values.foldl (fun n models => n + models.length) 0

def isEmpty (r : Registry L) : Bool := r.size == 0

def model? (r : Registry L) (ns name : String) : Option (Model L) :=
  (r.inNs ns).find? fun m => m.name == name

def modelById? (r : Registry L) (ns id : String) : Option (Model L) :=
  (r.inNs ns).find? fun m => m.id == id

def register (r : Registry L) (m : Model L) : Except ModelError (Registry L) :=
  match r.model? m.ns m.name with
  | some _ => .error (.duplicateModel m.ns m.name)
  | none => .ok ⟨r.byNs.insert m.ns (r.inNs m.ns ++ [m])⟩

/-- Removes the model of that name and gives it back. -/
def unregister (r : Registry L) (ns name : String) : Option (Model L × Registry L) :=
  (r.model? ns name).map fun m =>
    (m, ⟨r.byNs.insert ns ((r.inNs ns).eraseP fun m => m.name == name)⟩)

end Registry

end DecisionGraph
