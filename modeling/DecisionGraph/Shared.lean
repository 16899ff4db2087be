import DecisionGraph.Bindings

namespace DecisionGraph

structure Shared (α : Type) where
  handles : Bindings Nat
  states : List α

namespace Shared

variable {α : Type}

def empty : Shared α := ⟨.nil, []⟩

/-- A handle on a new state; an older handle of that name is forgotten. -/
def create (s : Shared α) (handle : String) (state : α) : Shared α :=
  ⟨s.handles.insert handle s.states.length, s.states ++ [state]⟩

/-- Another handle on the state of the first; nothing if there is no such state. -/
def share (s : Shared α) (handle copy : String) : Shared α :=
  match s.handles.find? handle with
  | some family => { s with handles := s.handles.insert copy family }
  | none => s

def get? (s : Shared α) (handle : String) : Option α :=
  (s.handles.find? handle).bind fun family => s.states[family]?

/-- The state that a handle of `s` leads to, as it is in `later`, where the handle may have been
given away. -/
def followed? (s later : Shared α) (handle : String) : Option α :=
  (s.handles.find? handle).bind fun family => later.states[family]?

def set (s : Shared α) (handle : String) (state : α) : Shared α :=
  match s.handles.find? handle with
  | some family => { s with states := s.states.set family state }
  | none => s

end Shared

end DecisionGraph
