namespace DecisionGraph

structure Listeners (β : Type) where
  /-- In the order of registration. -/
  entries : List (Nat × β)

namespace Listeners

variable {β σ ε : Type}

def empty : Listeners β := ⟨[]⟩

instance : Inhabited (Listeners β) := ⟨empty⟩

def add (l : Listeners β) (n : Nat) (b : β) : Listeners β := ⟨l.entries ++ [(n, b)]⟩

def contains (l : Listeners β) (n : Nat) : Bool := l.entries.any fun e => e.1 == n

/-- Whether there was a listener to remove. -/
def remove (l : Listeners β) (n : Nat) : Bool × Listeners β :=
  (l.contains n, ⟨l.entries.filter fun e => e.1 != n⟩)

def all (l : Listeners β) : List β := l.entries.map Prod.snd

def size (l : Listeners β) : Nat := l.entries.length

def isEmpty (l : Listeners β) : Bool := l.entries.isEmpty

/-- Delivers an event. Each reaction may change the surroundings, this set included; the
receivers are those that were registered at the start. -/
def fire (l : Listeners β) (react : β → ε → σ → σ) (event : ε) (s : σ) : σ :=
  l.all.foldl (fun s b => react b event s) s

end Listeners

end DecisionGraph
