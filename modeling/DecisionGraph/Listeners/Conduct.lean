import DecisionGraph.Listeners
import DecisionGraph.Shared

namespace DecisionGraph

/-- What a hook does, or whoever uses the sets from outside. -/
inductive Conduct (β ε μ : Type) where
  | done
  | add (handle : String) (b : β) (next : Nat → Conduct β ε μ)
  | remove (handle : String) (n : Nat) (next : Bool → Conduct β ε μ)
  | look (handle : String) (next : Listeners β → Conduct β ε μ)
  | fire (handle : String) (e : ε) (next : Conduct β ε μ)
  | share (handle copy : String) (next : Conduct β ε μ)
  | create (handle : String) (next : Conduct β ε μ)
  | remember (write : μ → μ) (next : μ → Conduct β ε μ)

/-- What happens to the sets, each known by the family of its handles, and in deliveries, each known
by its number. -/
inductive Incident (β ε : Type) where
  | added (family : Option Nat) (n : Nat) (b : β)
  | removed (family : Option Nat) (n : Nat) (found : Bool)
  | looked (family : Option Nat) (seen : Listeners β)
  | began (family : Option Nat) (k : Nat) (e : ε)
  | delivered (k : Nat) (b : β) (e : ε)
  | ended (k : Nat)

structure Site (β ε μ : Type) where
  sets : Shared (Listeners β)
  next : Nat
  fires : Nat
  memory : μ
  log : List (Incident β ε)

/-- In which order a set lists its listeners, after each number of incidents. -/
abbrev Arrangement (β : Type) := Nat → List (Nat × β) → List (Nat × β)

variable {β ε μ : Type}

namespace Site

def start (memory : μ) : Site β ε μ := ⟨.empty, 0, 0, memory, []⟩

def family? (s : Site β ε μ) (handle : String) : Option Nat := s.sets.handles.find? handle

def listeners (s : Site β ε μ) (handle : String) : Listeners β := (s.sets.get? handle).getD .empty

def listed (arrange : Arrangement β) (s : Site β ε μ) (handle : String) : Listeners β :=
  ⟨arrange s.log.length (s.listeners handle).entries⟩

def note (s : Site β ε μ) (i : Incident β ε) : Site β ε μ := { s with log := s.log ++ [i] }

def add (s : Site β ε μ) (handle : String) (b : β) : Site β ε μ :=
  { s.note (.added (s.family? handle) s.next b) with
    sets := s.sets.set handle ((s.listeners handle).add s.next b)
    next := s.next + 1 }

def remove (s : Site β ε μ) (handle : String) (n : Nat) : Bool × Site β ε μ :=
  let (found, l) := (s.listeners handle).remove n
  (found, { s.note (.removed (s.family? handle) n found) with sets := s.sets.set handle l })

def look (arrange : Arrangement β) (s : Site β ε μ) (handle : String) :
    Listeners β × Site β ε μ :=
  let seen := s.listed arrange handle
  (seen, s.note (.looked (s.family? handle) seen))

def share (s : Site β ε μ) (handle copy : String) : Site β ε μ :=
  { s with sets := s.sets.share handle copy }

def create (s : Site β ε μ) (handle : String) : Site β ε μ :=
  { s with sets := s.sets.create handle .empty }

def fire (arrange : Arrangement β) (react : Nat → β → ε → Site β ε μ → Site β ε μ)
    (s : Site β ε μ) (handle : String) (e : ε) : Site β ε μ :=
  let begun := { s.note (.began (s.family? handle) s.fires e) with fires := s.fires + 1 }
  ((s.listed arrange handle).fire (react s.fires) e begun).note (.ended s.fires)

end Site

namespace Conduct

/-- Runs a conduct, where a delivery of a number makes a listener react. -/
def perform (arrange : Arrangement β) (react : Nat → β → ε → Site β ε μ → Site β ε μ) :
    Conduct β ε μ → Site β ε μ → Site β ε μ
  | done, s => s
  | add handle b next, s => (next s.next).perform arrange react (s.add handle b)
  | remove handle n next, s =>
    (next (s.remove handle n).1).perform arrange react (s.remove handle n).2
  | look handle next, s =>
    (next (s.look arrange handle).1).perform arrange react (s.look arrange handle).2
  | fire handle e next, s => next.perform arrange react (s.fire arrange react handle e)
  | share handle copy next, s => next.perform arrange react (s.share handle copy)
  | create handle next, s => next.perform arrange react (s.create handle)
  | remember write next, s =>
    (next (write s.memory)).perform arrange react { s with memory := write s.memory }

/-- A listener receives an event and does what its hook says. Deliveries may be nested as deep as
there is room; beyond that hooks do nothing. -/
def react (arrange : Arrangement β) (hooks : β → ε → Conduct β ε μ) :
    Nat → Nat → β → ε → Site β ε μ → Site β ε μ
  | 0, k, b, e, s => s.note (.delivered k b e)
  | room + 1, k, b, e, s =>
    (hooks b e).perform arrange (react arrange hooks room) (s.note (.delivered k b e))

end Conduct

end DecisionGraph
