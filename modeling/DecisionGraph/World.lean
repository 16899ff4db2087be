import DecisionGraph.Event
import DecisionGraph.Listeners

namespace DecisionGraph

/-- What a listener does, besides keeping the event, when a hook is called for a node name. -/
structure Reaction where
  hook : String
  node : String
  starts : Bool
  label : String
deriving DecidableEq, Inhabited

inductive Listener where
  | silent
  | keeping (label : String) (reactions : List Reaction)
deriving Inhabited

structure World where
  listeners : Listeners Listener
  next : Nat
  /-- The number of the listener that was last started under a label. -/
  labels : Bindings Nat
  received : Bindings (List Event)
  counters : Bindings Nat
deriving Inhabited

namespace World

def empty : World := ⟨.empty, 0, .nil, .nil, .nil⟩

def listen (label : String) (reactions : List Reaction) (w : World) : Bool × World :=
  if w.labels.contains label then (false, w)
  else
    (true, { w with
      listeners := w.listeners.add w.next (.keeping label reactions)
      next := w.next + 1
      labels := w.labels.insert label w.next })

/-- Frees a label; whether its listener was still there. -/
def unlisten (label : String) (w : World) : Bool × World :=
  match w.labels.find? label with
  | none => (false, w)
  | some n =>
    let (found, listeners) := w.listeners.remove n
    (found, { w with listeners, labels := w.labels.erase label })

def listenSilently (w : World) : World :=
  { w with listeners := w.listeners.add w.next .silent, next := w.next + 1 }

def keep (label : String) (e : Event) (w : World) : World :=
  { w with received := w.received.insert label ((w.received.find? label).getD [] ++ [e]) }

def act (e : Event) (w : World) (r : Reaction) : World :=
  if r.hook == e.hook && r.node == e.node.name then
    if r.starts then (w.listen r.label []).2 else (w.unlisten r.label).2
  else w

def react (l : Listener) (e : Event) (w : World) : World :=
  match l with
  | .silent => w
  | .keeping label reactions => reactions.foldl (act e) (w.keep label e)

def deliver (e : Event) (w : World) : World := w.listeners.fire react e w

def count (label : String) (w : World) : Nat × World :=
  let n := (w.counters.find? label).getD 0 + 1
  (n, { w with counters := w.counters.insert label n })

/-- A world that keeps its listeners and has received and counted nothing. -/
def cleared (w : World) : World := { w with received := .nil, counters := .nil }

def deafened (w : World) : World := { w with listeners := .empty, labels := .nil }

end World

end DecisionGraph
