import DecisionGraph.Context
import DecisionGraph.Ledger

namespace DecisionGraph

structure Evaluation where
  context : Context
  ledger : Ledger
  messages : List Message
  /-- The keys of the business knowledge models whose evaluation has begun and not ended. -/
  active : List String
deriving Inhabited

namespace Evaluation

def start (context : Context) : Evaluation := ⟨context, .empty, [], []⟩

def hasErrors (e : Evaluation) : Bool := DecisionGraph.hasErrors e.messages

def onContext (f : Context → Context) (e : Evaluation) : Evaluation :=
  { e with context := f e.context }

def onLedger (f : Ledger → Ledger) (e : Evaluation) : Evaluation := { e with ledger := f e.ledger }

def report (m : Message) (e : Evaluation) : Evaluation := { e with messages := e.messages ++ [m] }

/-- Reports a message that also goes to the outcome under a key, which gets a status for it. -/
def fail (key : String) (m : Message) (status : Status) (e : Evaluation) : Evaluation :=
  (e.report m).onLedger fun l => l.modify key fun o => o.reportFailure m status

def enter (key : String) (e : Evaluation) : Evaluation :=
  if e.active.contains key then e else { e with active := e.active ++ [key] }

def leave (key : String) (e : Evaluation) : Evaluation :=
  { e with active := e.active.filter (· != key) }

def isActive (e : Evaluation) (key : String) : Bool := e.active.contains key

section fields

variable (e : Evaluation) (f : Context → Context) (g : Ledger → Ledger) (m : Message) (s : Status)
  (key : String)

@[simp] theorem context_onContext : (e.onContext f).context = f e.context := rfl

@[simp] theorem ledger_onContext : (e.onContext f).ledger = e.ledger := rfl

@[simp] theorem messages_onContext : (e.onContext f).messages = e.messages := rfl

@[simp] theorem active_onContext : (e.onContext f).active = e.active := rfl

@[simp] theorem context_onLedger : (e.onLedger g).context = e.context := rfl

@[simp] theorem ledger_onLedger : (e.onLedger g).ledger = g e.ledger := rfl

@[simp] theorem messages_onLedger : (e.onLedger g).messages = e.messages := rfl

@[simp] theorem active_onLedger : (e.onLedger g).active = e.active := rfl

@[simp] theorem context_report : (e.report m).context = e.context := rfl

@[simp] theorem ledger_report : (e.report m).ledger = e.ledger := rfl

@[simp] theorem messages_report : (e.report m).messages = e.messages ++ [m] := rfl

@[simp] theorem active_report : (e.report m).active = e.active := rfl

@[simp] theorem context_fail : (e.fail key m s).context = e.context := rfl

@[simp] theorem ledger_fail :
    (e.fail key m s).ledger = e.ledger.modify key fun o => o.reportFailure m s := rfl

@[simp] theorem messages_fail : (e.fail key m s).messages = e.messages ++ [m] := rfl

@[simp] theorem active_fail : (e.fail key m s).active = e.active := rfl

@[simp] theorem context_enter : (e.enter key).context = e.context := by
  unfold enter
  split <;> rfl

@[simp] theorem ledger_enter : (e.enter key).ledger = e.ledger := by
  unfold enter
  split <;> rfl

@[simp] theorem messages_enter : (e.enter key).messages = e.messages := by
  unfold enter
  split <;> rfl

@[simp] theorem context_leave : (e.leave key).context = e.context := rfl

@[simp] theorem ledger_leave : (e.leave key).ledger = e.ledger := rfl

@[simp] theorem messages_leave : (e.leave key).messages = e.messages := rfl

theorem isActive_enter (x : String) :
    (e.enter key).isActive x = (e.isActive x || key == x) := by
  unfold enter isActive
  split
  next h =>
    by_cases hx : key = x
    · subst hx
      simpa using h
    · simp [hx]
  next h =>
    by_cases hx : key = x
    · simp [hx]
    · simp [hx, Ne.symm hx]

theorem isActive_leave (x : String) :
    (e.leave key).isActive x = (e.isActive x && key != x) := by
  unfold leave isActive
  by_cases hx : key = x
  · simp [hx]
  · simp [hx, Ne.symm hx]

/-- A key that was not active is active exactly between its entry and its end. -/
theorem active_leave_enter {e d : Evaluation} {key : String} (h : e.isActive key = false)
    (hd : d.active = (e.enter key).active) : (d.leave key).active = e.active := by
  have hk : key ∉ e.active := by simpa [isActive] using h
  have he : (e.enter key).active = e.active ++ [key] := by simp [enter, hk]
  have hf : e.active.filter (· != key) = e.active :=
    List.filter_eq_self.mpr fun k hm => by
      simpa using fun h : k = key => hk (h ▸ hm)
  simp [leave, hd, he, hf]

end fields

end Evaluation

end DecisionGraph
