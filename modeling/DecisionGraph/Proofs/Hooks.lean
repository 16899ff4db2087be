import DecisionGraph.Interpreter
import DecisionGraph.Proofs.Chronicle
import DecisionGraph.Proofs.Formulas

namespace DecisionGraph

variable {L σ : Type}

/-- Words of events in which each beginning has its end, of the same kind and about the same node,
and in which they nest `k` deep at most. A decision begins without an outcome and ends with one that
says how. -/
inductive Bracketed : Nat → List Event → Prop where
  | nil (k : Nat) : Bracketed k []
  | decision {k : Nat} {s : Subject} {o : Outcome} {inner l : List Event} :
      o.status.isTerminal → Bracketed k inner → Bracketed (k + 1) l →
      Bracketed (k + 1) (.decision .before s none :: (inner ++ .decision .after s (some o) :: l))
  | knowledge {k : Nat} {s : Subject} {inner l : List Event} :
      Bracketed k inner → Bracketed (k + 1) l →
      Bracketed (k + 1) (.knowledge .before s :: (inner ++ .knowledge .after s :: l))

theorem Request.Chronicled.bracketed {r : Request L σ} {k : Nat} {l : List (Mark L)}
    (h : r.Chronicled k l) : Bracketed k (l.flatMap Mark.events) := by
  induction h with
  | nil k => exact .nil k
  | answered _ ih => exact ih
  | seen _ _ ih => exact ih
  | decision _ _ hs _ _ hi ih =>
    simpa [Mark.events] using Bracketed.decision hs hi ih
  | knowledge _ _ _ hi ih =>
    simpa [Mark.events] using Bracketed.knowledge hi ih

/-- While its world is of this kind, a host tells a listener every event at once, and nothing that
it does besides changes that or what the listener has heard. -/
structure Host.Steady (h : Host L σ) (kind : σ → Prop) (heard : σ → List Event) : Prop where
  listening : ∀ w, kind w → h.listening w = true
  notify : ∀ e w, kind w → kind (h.notify e w) ∧ heard (h.notify e w) = heard w ++ [e]
  answer : ∀ m l e w, kind w →
    kind (h.answer m l e w).2.2 ∧ heard (h.answer m l e w).2.2 = heard w
  observe : ∀ m e w, kind w → kind (h.observe m e w) ∧ heard (h.observe m e w) = heard w

namespace Request

variable {r : Request L σ} {kind : σ → Prop} {heard : σ → List Event}
  {p : Progress (σ × List (Entry L σ))}

def Heeded (r : Request L σ) (kind : σ → Prop) (heard : σ → List Event)
    (p : Progress (σ × List (Entry L σ))) : Prop :=
  kind p.world.1 ∧ ∀ x ∈ p.world.2, r.host.listening x.after = true ∧ x.DeliversTo heard

namespace Heeded

variable (hs : r.host.Steady kind heard)

include hs

theorem call {q : Progress (σ × List (Entry L σ))} {m : Mark L} (h : r.Heeded kind heard p)
    (hq : q.world.2 = p.world.2 ++ [⟨m, p.world.1, q.world.1⟩])
    (hk : kind q.world.1 ∧ heard q.world.1 = heard p.world.1 ++ m.events) :
    r.Heeded kind heard q := by
  refine ⟨hk.1, ?_⟩
  rw [hq, List.forall_mem_append, List.forall_mem_singleton]
  exact ⟨h.2, hs.listening _ hk.1, hk.2⟩

theorem watch (h : r.Heeded kind heard p) (m : Moment L) :
    r.Heeded kind heard (r.chronicling.watch m p) := by
  obtain ⟨hk, hh⟩ := hs.observe m p.evaluation p.world.1 h.1
  exact call (m := .seen ⟨m, p.evaluation⟩) hs h rfl ⟨hk, hh.trans (List.append_nil _).symm⟩

theorem notify (h : r.Heeded kind heard p) (e : Event) :
    r.Heeded kind heard (r.chronicling.notify e p) :=
  call (m := .told e) hs h rfl (hs.notify e p.world.1 h.1)

theorem callLogic (h : r.Heeded kind heard p) (n : Node L) (l : L) :
    r.Heeded kind heard (r.chronicling.callLogic n l p).2 := by
  have hw := watch hs h (.calling n)
  obtain ⟨hk, hh⟩ := hs.answer r.model l p.evaluation (r.chronicling.watch (.calling n) p).world.1
    hw.1
  exact call (m := .answered) hs hw rfl ⟨hk, hh.trans (List.append_nil _).symm⟩

end Heeded

/-- On a steady host someone listens throughout, and the listener is told every event. -/
theorem inStep_heeded (hs : r.host.Steady kind heard) :
    r.chronicling.InStep r.host fun p q => q = p.map Prod.fst ∧ r.Heeded kind heard p :=
  have hmap := inStep_map (r := r.chronicling) r.host.chronicling_projects
  { context := fun h => hmap.context h.1
    ledger := fun h => hmap.ledger h.1
    active := fun h => hmap.active h.1
    listening := fun h => hmap.listening h.1
    report := fun m h => ⟨hmap.report m h.1, h.2⟩
    onContext := fun f h => ⟨hmap.onContext f h.1, h.2⟩
    onLedger := fun f h => ⟨hmap.onLedger f h.1, h.2⟩
    enter := fun k h => ⟨hmap.enter k h.1, h.2⟩
    leave := fun k h => ⟨hmap.leave k h.1, h.2⟩
    watch := fun m h => ⟨hmap.watch m h.1, h.2.watch hs m⟩
    notify := fun e h => ⟨hmap.notify e h.1, h.2.notify hs e⟩
    callLogic := fun n l h =>
      ⟨(hmap.callLogic n l h.1).1, (hmap.callLogic n l h.1).2, h.2.callLogic hs n l⟩ }

/-- If someone listens at the start of a request and after each call of its host, then the calls are
in good order: the events about a node stand next to the moments at which its evaluation begins and
ends, and the last one carries the outcome that a decision then has. A listener who is told all of
it, and nothing else, has heard a word of brackets that nest no deeper than the limit allows. Visits
that do not open their node call for nothing. -/
theorem hooks_bracketed (hk : r.host.KeepsLedger) (s : Selection) (c : Context) (w : σ)
    (hw : r.host.listening w = true) (heard : σ → List Event)
    (hx : ∀ x ∈ r.chronicle s c w, r.host.listening x.after = true ∧ x.DeliversTo heard) :
    r.Chronicled r.maxDepth ((r.chronicle s c w).map Entry.mark) ∧
    (∃ word, heard (r.run s c w).world = heard w ++ word ∧
      word = (r.chronicle s c w).flatMap Entry.events ∧ Bracketed r.maxDepth word) ∧
    ∀ room n p, r.chronicling.Unopened room n p →
      (r.chronicling.visit room n p).2.world = p.world := by
  obtain ⟨new, ⟨hnew, hpath⟩, hgood⟩ := adds_run hk s c w
  obtain rfl : r.chronicle s c w = new := hnew
  have hworld : (r.chronicling.run s c (w, [])).world.1 = (r.run s c w).world :=
    congrArg Progress.world (run_chronicling r s c w)
  have hc := hgood hw fun x hmem => (hx x hmem).1
  refine ⟨hc, ⟨_, ?_, rfl, ?_⟩, fun room n p h => world_visit_of_unopened h⟩
  · rw [← hworld]
    exact hpath.heard fun x hmem => (hx x hmem).2
  · have hb := hc.bracketed
    rwa [List.flatMap_map] at hb

end Request

namespace World

def heardBy (label : String) (w : World) : List Event := (w.received.find? label).getD []

/-- A listener that keeps nothing under the label and does nothing but keep. -/
def PlainElse (label : String) (l : Listener) : Prop :=
  l = .silent ∨ ∃ other, l = .keeping other [] ∧ other ≠ label

theorem fire_of_plainElse {label : String} {ls : List Listener}
    (h : ∀ l ∈ ls, PlainElse label l) (e : Event) (w : World) :
    (ls.foldl (fun w l => react l e w) w).listeners = w.listeners ∧
      (ls.foldl (fun w l => react l e w) w).heardBy label = w.heardBy label := by
  induction ls generalizing w with
  | nil => exact ⟨rfl, rfl⟩
  | cons l ls ih =>
    obtain ⟨hl, hh⟩ := ih (fun l hl => h l (List.mem_cons_of_mem _ hl)) (react l e w)
    rw [List.foldl_cons, hl, hh]
    rcases h l List.mem_cons_self with rfl | ⟨other, rfl, hne⟩
    · exact ⟨rfl, rfl⟩
    · refine ⟨rfl, ?_⟩
      simp [react, keep, heardBy, Bindings.find?_insert, hne]

theorem deliver_of_plain {label : String} {before after : List Listener}
    (h : ∀ l ∈ before ++ after, PlainElse label l) {w : World}
    (hw : w.listeners.all = before ++ .keeping label [] :: after) (e : Event) :
    (w.deliver e).listeners = w.listeners ∧
      (w.deliver e).heardBy label = w.heardBy label ++ [e] := by
  obtain ⟨hb, ha⟩ := List.forall_mem_append.mp h
  obtain ⟨hlb, hhb⟩ := fire_of_plainElse hb e w
  obtain ⟨hla, hha⟩ := fire_of_plainElse ha e
    ((before.foldl (fun w l => react l e w) w).keep label e)
  unfold deliver Listeners.fire
  rw [hw, List.foldl_append, List.foldl_cons]
  refine ⟨hla.trans hlb, hha.trans ?_⟩
  rw [← hhb]
  simp [keep, heardBy]

/-- With the listeners of the world, any host that runs logic without touching the world is steady
for a listener under a label of its own, as long as no listener does anything but keep. -/
theorem steady {answer : Model L → L → Evaluation → World →
      Except EvalError Answer × Evaluation × World} (ha : ∀ m l e w, (answer m l e w).2.2 = w)
    {label : String} {before after : List Listener}
    (h : ∀ l ∈ before ++ after, PlainElse label l) :
    Host.Steady ⟨fun w => !w.listeners.isEmpty, deliver, answer, fun _ _ w => w⟩
      (fun w => w.listeners.all = before ++ .keeping label [] :: after) (heardBy label) where
  listening w hw := by
    have hne : w.listeners.entries ≠ [] := fun he => by
      rw [Listeners.all, he] at hw
      simp at hw
    simpa [Listeners.isEmpty] using hne
  notify e w hw := by
    obtain ⟨hl, hh⟩ := deliver_of_plain h hw e
    exact ⟨hl ▸ hw, hh⟩
  answer m l e w hw := by
    rw [ha]
    exact ⟨hw, rfl⟩
  observe _ _ _ hw := ⟨hw, rfl⟩

def audited : World := ((World.empty.listen "audit" []).2.listen "trace" []).2

end World

def Host.gathering : Host Formula World :=
  ⟨fun w => !w.listeners.isEmpty, World.deliver, fun _ f e w => (f e.context.bindings, e, w),
    fun _ _ w => w⟩

end DecisionGraph
