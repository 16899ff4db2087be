import DecisionGraph.Proofs.Formulas
import DecisionGraph.Proofs.Importing
import DecisionGraph.Proofs.Law
import DecisionGraph.Proofs.Ledger
import Mathlib.Data.Finset.Card

namespace DecisionGraph

variable {L σ : Type}

/-- An outcome without the key and the name that it goes by. -/
def Outcome.bare (o : Outcome) : Outcome := { o with id := "", name := "" }

namespace Ledger

/-- The status, the result and the messages under a key. -/
def said (l : Ledger) (key : String) : Outcome :=
  ((l.find? key).map Outcome.bare).getD (.new "" "")

variable {l : Ledger}

theorem status_said (l : Ledger) (key : String) : (l.said key).status = l.status key := by
  unfold said status
  cases l.find? key <;> rfl

theorem said_ensure (hl : l.Indexed) (k name key : String) :
    (l.ensure k name).said key = l.said key := by
  unfold said
  rw [find?_ensure hl]
  split_ifs with h
  · cases l.find? key <;> rfl
  · rfl

theorem said_modify (hl : l.Indexed) {k : String} (hk : (l.find? k).isSome)
    {f : Outcome → Outcome} (hf : ∀ o, (f o).bare = f o.bare) (key : String) :
    (l.modify k f).said key = if k = key then f (l.said key) else l.said key := by
  unfold said
  rw [find?_modify hl]
  split_ifs with h
  · subst h
    obtain ⟨o, ho⟩ := Option.isSome_iff_exists.mp hk
    simp [ho, hf]
  · rfl

end Ledger

def Importer.shiftMoment (m : Importer L) : Moment L → Moment L
  | .entered n => .entered (m.shift n)
  | .examined n d v => .examined (m.shift n) (m.shift d) v
  | .unresolved n name => .unresolved (m.shift n) name
  | .calling n => .calling (m.shift n)
  | .bound n => .bound (m.shift n)
  | .left n => .left (m.shift n)

/-- Logic reads nothing but the bindings in scope, and leaves the state of the request alone. -/
structure Host.Local (h : Host L σ) : Prop where
  quiet : h.Quiet
  answer : ∀ m m' l e e' w w', e.context.bindings = e'.context.bindings →
    (h.answer m l e w).1 = (h.answer m' l e' w').1

theorem Host.functions_local : functions.Local :=
  ⟨functions_quiet, fun _ _ l _ _ _ _ h => congrArg l h⟩

namespace Request

/-- The same request on an importer of its model. -/
def via (r : Request L σ) (m : Importer L) : Request L σ := { r with model := m.model }

/-- The nodes at the positions `S` are in progress: they cannot be entered again. -/
def Holds (r : Request L σ) (S : Finset Nat) (e : Evaluation) : Prop :=
  ∀ j ∈ S, ∀ k, r.model.node? j = some k →
    (k.isDecision → (e.ledger.status (r.key k)).blocksReentry) ∧
    (k.isKnowledge → e.isActive (r.key k))

/-- The request on the importer has got to `q` as the one on the library has got to `p`, with the
nodes at `S` in progress. -/
structure Mirrors (r : Request L σ) (m : Importer L) (S : Finset Nat)
    (p q : Progress (σ × List (Sighting L))) : Prop where
  context : Context.Below m.name r.model.ns p.context q.context
  indexed : p.ledger.Indexed
  indexed' : q.ledger.Indexed
  said : ∀ n ∈ r.model.nodes, q.ledger.said (m.model.key n.info) = p.ledger.said (r.key n)
  messages : q.evaluation.messages = p.evaluation.messages
  active : ∀ n ∈ r.model.nodes,
    q.evaluation.isActive (m.model.key n.info) = p.evaluation.isActive (r.key n)
  moments : q.record.map Sighting.moment =
    .entered m.top :: p.record.map fun t => m.shiftMoment t.moment
  holds : r.Holds S p.evaluation

namespace Mirrors

variable {r : Request L σ} {m : Importer L} {S T : Finset Nat}
  {p q p' q' : Progress (σ × List (Sighting L))} {n : Node L} {i : Nat}

theorem of_eq (h : r.Mirrors m S p q) (hp : p'.evaluation = p.evaluation)
    (hpr : p'.record = p.record) (hq : q'.evaluation = q.evaluation)
    (hqr : q'.record = q.record) : r.Mirrors m S p' q' := by
  obtain ⟨hc, hi, hi', hs, hm, ha, hmo, hh⟩ := h
  simp only [Progress.context_eq, Progress.ledger_eq] at hc hi hi' hs
  constructor <;> simp only [Progress.context_eq, Progress.ledger_eq, hp, hq, hpr, hqr] <;>
    assumption

theorem watch (h : r.Mirrors m S p q) (t : Moment L) :
    r.Mirrors m S (r.recording.watch t p) ((r.via m).recording.watch (m.shiftMoment t) q) :=
  { h with
    moments := by
      rw [record_watch, record_watch, List.map_append, List.map_append, h.moments]
      rfl }

theorem report (h : r.Mirrors m S p q) (g : Message) :
    r.Mirrors m S (p.update (·.report g)) (q.update (·.report g)) :=
  { h with
    messages := by
      simp only [Progress.evaluation_update, Evaluation.messages_report, h.messages] }

theorem status_eq (h : r.Mirrors m S p q) (hn : n ∈ r.model.nodes) :
    q.ledger.status (m.model.key n.info) = p.ledger.status (r.key n) := by
  rw [← Ledger.status_said, ← Ledger.status_said, h.said n hn]

theorem ensure (h : r.Mirrors m S p q) (key key' name : String) :
    r.Mirrors m S (p.update (·.onLedger (·.ensure key name)))
      (q.update (·.onLedger (·.ensure key' name))) :=
  { h with
    indexed := h.indexed.ensure key name
    indexed' := h.indexed'.ensure key' name
    said := by
      intro n hn
      have hl : (p.ledger.ensure key name).said (r.key n) = p.ledger.said (r.key n) :=
        Ledger.said_ensure h.indexed ..
      have hl' : (q.ledger.ensure key' name).said (m.model.key n.info) =
          q.ledger.said (m.model.key n.info) := Ledger.said_ensure h.indexed' ..
      exact hl'.trans ((h.said n hn).trans hl.symm)
    holds := by
      intro j hj k hk
      obtain ⟨hd, ha⟩ := h.holds j hj k hk
      refine ⟨fun hkd => ?_, ha⟩
      have hst : (p.ledger.ensure key name).status (r.key k) = p.ledger.status (r.key k) :=
        Ledger.status_ensure h.indexed ..
      exact (congrArg (Status.blocksReentry · = true) hst).mpr (hd hkd) }

theorem modify (h : r.Mirrors m S p q) (hc : m.Copies r.model) (hn : n ∈ r.model.nodes)
    (hp : (p.ledger.find? (r.key n)).isSome) (hq : (q.ledger.find? (m.model.key n.info)).isSome)
    {f : Outcome → Outcome} (hid : ∀ o, (f o).id = o.id) (hf : ∀ o, (f o).bare = f o.bare)
    (hT : T ⊆ S) (hb : (∀ o, (f o).status.blocksReentry) ∨
      ∀ j ∈ T, ∀ k, r.model.node? j = some k → k.isDecision → r.key n ≠ r.key k) :
    r.Mirrors m T (p.update (·.onLedger (·.modify (r.key n) f)))
      (q.update (·.onLedger (·.modify (m.model.key n.info) f))) :=
  { h with
    indexed := h.indexed.modify _ hid
    indexed' := h.indexed'.modify _ hid
    said := by
      intro k hk
      have hl : (p.update (·.onLedger (·.modify (r.key n) f))).ledger.said (r.key k) = _ :=
        Ledger.said_modify h.indexed hp hf (r.key k)
      have hl' : (q.update (·.onLedger (·.modify (m.model.key n.info) f))).ledger.said
          (m.model.key k.info) = _ := Ledger.said_modify h.indexed' hq hf (m.model.key k.info)
      rw [hl, hl', h.said k hk, if_congr (hc.keys n hn k hk) rfl rfl]
      rfl
    holds := by
      intro j hj k hk
      obtain ⟨hd, ha⟩ := h.holds j (hT hj) k hk
      refine ⟨fun hkd => ?_, ha⟩
      have hst : ((p.ledger.modify (r.key n) f).status (r.key k)).blocksReentry := by
        -- Two nodes of the library may share a key, and with it their outcome.
        by_cases he : r.key n = r.key k
        · rcases hb with hb | hb
          · obtain ⟨o, ho⟩ := Option.isSome_iff_exists.mp hp
            rw [← he, Ledger.status, Ledger.find?_modify h.indexed, if_pos rfl, ho]
            exact hb o
          · exact absurd he (hb j hj k hk hkd)
        · have hsame := Ledger.find?_modify h.indexed (r.key n) (r.key k) f
          rw [if_neg he] at hsame
          rw [Ledger.status_eq_of_find? hsame]
          exact hd hkd
      exact hst }

theorem isSome (h : r.Mirrors m S p q) (hn : n ∈ r.model.nodes)
    (hs : p.ledger.status (r.key n) ≠ .notEvaluated) :
    (p.ledger.find? (r.key n)).isSome ∧ (q.ledger.find? (m.model.key n.info)).isSome := by
  refine ⟨Ledger.find?_isSome_of_status hs, Ledger.find?_isSome_of_status ?_⟩
  rwa [h.status_eq hn]

theorem set (h : r.Mirrors m S p q) (name : String) (v : Value) :
    r.Mirrors m S (p.update (·.onContext (·.set name v)))
      (q.update (·.onContext (·.set name v))) :=
  { h with context := h.context.set name v }

theorem push (h : r.Mirrors m S p q) (f : Frame) :
    r.Mirrors m S (p.update (·.onContext (·.push f))) (q.update (·.onContext (·.push f))) :=
  { h with context := h.context.push f }

theorem closeTo (h : r.Mirrors m S p q) (depth : Nat) :
    r.Mirrors m S (p.update (·.onContext (·.closeTo depth)))
      (q.update (·.onContext (·.closeTo (depth + 1)))) :=
  { h with context := h.context.closeTo depth }

theorem enter (h : r.Mirrors m S p q) (hc : m.Copies r.model) (hn : n ∈ r.model.nodes) :
    r.Mirrors m S (p.update (·.enter (r.key n))) (q.update (·.enter (m.model.key n.info))) := by
  obtain ⟨hctx, hi, hi', hs, hm, ha, hmo, hh⟩ := h
  simp only [Progress.context_eq, Progress.ledger_eq] at hctx hi hi' hs
  constructor <;> simp only [Progress.context_eq, Progress.ledger_eq, Progress.evaluation_update,
    Evaluation.context_enter, Evaluation.ledger_enter, Evaluation.messages_enter, record_update]
  case active =>
    intro k hk
    have hkey : (m.model.key n.info == m.model.key k.info) = (r.key n == r.key k) := by
      rw [Bool.eq_iff_iff, beq_iff_eq, beq_iff_eq]
      exact hc.keys n hn k hk
    rw [Evaluation.isActive_enter, Evaluation.isActive_enter, ha k hk, hkey]
  case holds =>
    intro j hj k hk
    obtain ⟨hkd, hka⟩ := hh j hj k hk
    refine ⟨fun hd => ?_, fun hd => ?_⟩
    · rw [Evaluation.ledger_enter]
      exact hkd hd
    · rw [Evaluation.isActive_enter, hka hd, Bool.true_or]
  all_goals assumption

theorem leave (h : r.Mirrors m S p q) (hc : m.Copies r.model) (hn : n ∈ r.model.nodes)
    (hT : T ⊆ S)
    (hb : ∀ j ∈ T, ∀ k, r.model.node? j = some k → k.isKnowledge → r.key n ≠ r.key k) :
    r.Mirrors m T (p.update (·.leave (r.key n))) (q.update (·.leave (m.model.key n.info))) :=
  { h with
    active := by
      intro k hk
      have hkey : (m.model.key n.info != m.model.key k.info) = (r.key n != r.key k) := by
        rw [Bool.eq_iff_iff, bne_iff_ne, bne_iff_ne]
        exact not_congr (hc.keys n hn k hk)
      rw [Progress.evaluation_update, Progress.evaluation_update, Evaluation.isActive_leave,
        Evaluation.isActive_leave, h.active k hk, hkey]
    holds := by
      intro j hj k hk
      obtain ⟨hd, ha⟩ := h.holds j (hT hj) k hk
      refine ⟨hd, ?_⟩
      intro hka
      rw [Progress.evaluation_update, Evaluation.isActive_leave, ha hka, Bool.true_and]
      exact bne_iff_ne.mpr (hb j hj k hk hka) }

theorem hold (h : r.Mirrors m S p q) (hi : r.model.node? i = some n)
    (hd : n.isDecision → (p.ledger.status (r.key n)).blocksReentry)
    (ha : n.isKnowledge → p.evaluation.isActive (r.key n)) : r.Mirrors m (insert i S) p q :=
  { h with
    holds := by
      intro j hj k hk
      rcases Finset.mem_insert.mp hj with rfl | hj
      · obtain rfl := Option.some.inj (hi.symm.trans hk)
        exact ⟨hd, ha⟩
      · exact h.holds j hj k hk }

theorem opening_decision (h : r.Mirrors m S p q) (hc : m.Copies r.model)
    (hi : r.model.node? i = some n) (hn : n.isDecision) :
    r.Mirrors m (insert i S) (r.recording.opening n p)
      ((r.via m).recording.opening (m.shift n) q) := by
  have hmem : n ∈ r.model.nodes := Array.mem_of_getElem? hi
  have he := h.ensure (r.key n) (m.model.key n.info) n.info.name
  have hp := Ledger.isSome_find?_ensure h.indexed (r.key n) n.info.name
  have hq := Ledger.isSome_find?_ensure h.indexed' (m.model.key n.info) n.info.name
  have hm := he.modify hc hmem hp hq (f := fun o => { o with status := .evaluating })
    (fun _ => rfl) (fun _ => rfl) (Finset.Subset.refl S) (.inl fun _ => rfl)
  have hst : ((p.ledger.ensure (r.key n) n.info.name).setStatus (r.key n) .evaluating).status
      (r.key n) = .evaluating := Ledger.status_modify_self he.indexed hp fun _ => rfl
  have hk : ¬n.isKnowledge := fun hk => Node.not_isDecision hk hn
  have hh := hm.hold hi (fun _ => (congrArg (Status.blocksReentry · = true) hst).mpr rfl)
    fun hkn => absurd hkn hk
  rw [opening_of_decision hn r.recording, opening_of_decision (n := m.shift n) hn]
  exact hh.watch (.entered n)

theorem opening_knowledge (h : r.Mirrors m S p q) (hc : m.Copies r.model)
    (hi : r.model.node? i = some n) (hn : n.isKnowledge) :
    r.Mirrors m (insert i S) (r.recording.opening n p)
      ((r.via m).recording.opening (m.shift n) q) := by
  have he := h.enter hc (Array.mem_of_getElem? hi)
  have ha : (p.evaluation.enter (r.key n)).isActive (r.key n) := by
    rw [Evaluation.isActive_enter, beq_self_eq_true, Bool.or_true]
  have hh := he.hold hi (fun hd => absurd hd (Node.not_isDecision hn)) fun _ => ha
  rw [opening_of_knowledge hn r.recording, opening_of_knowledge (n := m.shift n) hn]
  exact hh.watch (.entered n)

theorem callLogic (h : r.Mirrors m S p q) (hl : r.host.Local) (l : L) :
    ((r.via m).recording.callLogic (m.shift n) l q).1 = (r.recording.callLogic n l p).1 ∧
      r.Mirrors m S (r.recording.callLogic n l p).2
        ((r.via m).recording.callLogic (m.shift n) l q).2 := by
  have hw := h.watch (.calling n)
  refine ⟨hl.answer _ _ l _ _ _ _ h.context.bindings, hw.of_eq ?_ ?_ ?_ ?_⟩
  · exact hl.quiet _ _ _ _
  · rw [record_callLogic, record_watch]
  · exact hl.quiet _ _ _ _
  · rw [record_callLogic, record_watch]
    rfl

theorem evaluated_of_holds (h : r.Mirrors m S p q) (hiS : i ∈ S) (hi : r.model.node? i = some n)
    (hn : n.isDecision) : p.ledger.status (r.key n) ≠ .notEvaluated := by
  intro hs
  have hb := (h.holds i hiS n hi).1 hn
  rw [← Progress.ledger_eq, hs] at hb
  cases hb

theorem lose (h : r.Mirrors m S p q) (hc : m.Copies r.model) (hn : n ∈ r.model.nodes)
    (hs : p.ledger.status (r.key n) ≠ .notEvaluated) (g : Option Message) {s : Status} (hT : T ⊆ S)
    (hb : s.blocksReentry) : r.Mirrors m T (p.update (·.lose (r.key n) g s))
      (q.update (·.lose (m.model.key n.info) g s)) := by
  cases g with
  | none =>
    obtain ⟨hp, hq⟩ := h.isSome hn hs
    exact h.modify hc hn hp hq (fun _ => rfl) (fun _ => rfl) hT (.inl fun _ => hb)
  | some g =>
    obtain ⟨hp, hq⟩ := (h.report g).isSome hn hs
    exact (h.report g).modify hc hn hp hq (fun _ => rfl) (fun _ => rfl) hT (.inl fun _ => hb)

theorem succeed (h : r.Mirrors m S p q) (hc : m.Copies r.model) (hn : n ∈ r.model.nodes)
    (hs : p.ledger.status (r.key n) ≠ .notEvaluated) (v : Value) (hT : T ⊆ S)
    (hb : ∀ j ∈ T, ∀ k, r.model.node? j = some k → k.isDecision → r.key n ≠ r.key k) :
    r.Mirrors m T
      (p.update fun e => (e.onContext (·.set n.info.name v)).onLedger
        (·.modify (r.key n) (·.succeed v)))
      (q.update fun e => (e.onContext (·.set n.info.name v)).onLedger
        (·.modify (m.model.key n.info) (·.succeed v))) := by
  have hset := h.set n.info.name v
  obtain ⟨hp, hq⟩ := hset.isSome hn hs
  exact hset.modify hc hn hp hq (fun _ => rfl) (fun _ => rfl) hT (.inr hb)

theorem reportUnresolved (h : r.Mirrors m S p q) (hc : m.Copies r.model) (hiS : i ∈ S)
    (hi : r.model.node? i = some n) (name source : String) (g : Diagnostic) :
    r.Mirrors m S (r.recording.reportUnresolved n name source g p)
      ((r.via m).recording.reportUnresolved (m.shift n) name source g q) := by
  cases hn : n.isDecision with
  | true =>
    have hp : r.recording.reportUnresolved n name source g p = r.recording.watch
        (.unresolved n name) (p.update (·.lose (r.key n)
          (some (.of .error g (some source) none)) .skipped)) := by
      rw [Request.reportUnresolved, if_pos hn]
      rfl
    have hq : (r.via m).recording.reportUnresolved (m.shift n) name source g q =
        (r.via m).recording.watch (.unresolved (m.shift n) name)
          (q.update (·.lose (m.model.key n.info)
            (some (.of .error g (some source) none)) .skipped)) := by
      rw [Request.reportUnresolved, if_pos (show (m.shift n).isDecision = true from hn)]
      rfl
    rw [hp, hq]
    exact (h.lose hc (Array.mem_of_getElem? hi) (h.evaluated_of_holds hiS hi hn) _
      (Finset.Subset.refl S) rfl).watch (.unresolved n name)
  | false =>
    have hp : r.recording.reportUnresolved n name source g p = r.recording.watch
        (.unresolved n name) (p.update (·.report (.of .error g (some source) none))) := by
      rw [Request.reportUnresolved, if_neg (Bool.eq_false_iff.mp hn)]
    have hq : (r.via m).recording.reportUnresolved (m.shift n) name source g q =
        (r.via m).recording.watch (.unresolved (m.shift n) name)
          (q.update (·.report (.of .error g (some source) none))) := by
      rw [Request.reportUnresolved,
        if_neg (show ¬(m.shift n).isDecision = true from Bool.eq_false_iff.mp hn)]
    rw [hp, hq]
    exact (h.report _).watch (.unresolved n name)

end Mirrors

end Request

end DecisionGraph
