import DecisionGraph.Proofs.Projection

namespace DecisionGraph

variable {L σ : Type}

structure Sighting (L : Type) where
  moment : Moment L
  evaluation : Evaluation

def Host.recording (h : Host L σ) : Host L (σ × List (Sighting L)) where
  listening w := h.listening w.1
  notify e w := (h.notify e w.1, w.2)
  answer m l e w := ((h.answer m l e w.1).1, (h.answer m l e w.1).2.1,
    ((h.answer m l e w.1).2.2, w.2))
  observe m e w := (h.observe m e w.1, w.2 ++ [⟨m, e⟩])

/-- Logic leaves the state of the request unchanged. -/
def Host.Quiet (h : Host L σ) : Prop := ∀ m l e w, (h.answer m l e w).2.1 = e

/-- Logic leaves the open import scopes as it found them. -/
def Host.KeepsScope (h : Host L σ) : Prop :=
  ∀ m l e w, (h.answer m l e w).2.1.context.frames = e.context.frames

def Host.KeepsLedger (h : Host L σ) : Prop :=
  ∀ m l e w, (h.answer m l e w).2.1.ledger = e.ledger

def Host.KeepsActive (h : Host L σ) : Prop :=
  ∀ m l e w, (h.answer m l e w).2.1.active = e.active

theorem Host.Quiet.keepsScope {h : Host L σ} (hq : h.Quiet) : h.KeepsScope :=
  fun m l e w => congrArg (·.context.frames) (hq m l e w)

theorem Host.Quiet.keepsLedger {h : Host L σ} (hq : h.Quiet) : h.KeepsLedger :=
  fun m l e w => congrArg Evaluation.ledger (hq m l e w)

theorem Host.Quiet.keepsActive {h : Host L σ} (hq : h.Quiet) : h.KeepsActive :=
  fun m l e w => congrArg Evaluation.active (hq m l e w)

theorem Host.recording_projects (h : Host L σ) : h.recording.Projects Prod.fst h :=
  ⟨fun _ => rfl, fun _ _ => rfl, fun _ _ _ _ => rfl, fun _ _ _ => rfl⟩

theorem Host.Quiet.recording {h : Host L σ} (hq : h.Quiet) : h.recording.Quiet :=
  fun m l e w => hq m l e w.1

theorem Host.KeepsLedger.recording {h : Host L σ} (hk : h.KeepsLedger) :
    h.recording.KeepsLedger :=
  fun m l e w => hk m l e w.1

/-- The evaluation of a node in progress, with all its own sightings so far. -/
structure Activity (L : Type) where
  node : Node L
  seen : List (Sighting L)

/-- What a sighting does to the activities in progress, the innermost of which comes first. -/
def Sighting.advance (acts : List (Activity L)) (s : Sighting L) : List (Activity L) :=
  match s.moment, acts with
  | .entered n, acts => ⟨n, []⟩ :: acts
  | .left _, acts => acts.tail
  | _, [] => []
  | _, a :: rest => ⟨a.node, a.seen ++ [s]⟩ :: rest

/-- The activities that are in progress after a record. -/
def activities (l : List (Sighting L)) : List (Activity L) := l.foldl Sighting.advance []

/-- The nodes whose evaluation is in progress after a record, the innermost first. -/
def chain (l : List (Sighting L)) : List (Node L) := (activities l).map Activity.node

@[simp] theorem activities_concat (l : List (Sighting L)) (s : Sighting L) :
    activities (l ++ [s]) = s.advance (activities l) := by
  simp [activities]

/-- Each sighting of a record has a property that may depend on the record before it. -/
def Throughout (P : List (Sighting L) → Sighting L → Prop) (l : List (Sighting L)) : Prop :=
  ∀ before t after, l = before ++ t :: after → P before t

theorem Throughout.nil {P : List (Sighting L) → Sighting L → Prop} : Throughout P [] := by
  intro before t after hl
  simp at hl

theorem eq_of_concat {α : Type} {l before after : List α} {t u : α}
    (h : l ++ [u] = before ++ t :: after) :
    after = [] ∧ l = before ∧ u = t ∨ ∃ rest, after = rest ++ [u] ∧ l = before ++ t :: rest := by
  rcases List.eq_nil_or_concat after with rfl | ⟨rest, v, rfl⟩
  · obtain ⟨rfl, hu⟩ := List.append_inj' h rfl
    exact .inl ⟨rfl, rfl, List.singleton_inj.mp hu⟩
  · have hr : l ++ [u] = (before ++ t :: rest) ++ [v] := by simp [h]
    obtain ⟨hl, hu⟩ := List.append_inj' hr rfl
    exact .inr ⟨rest, by rw [List.singleton_inj.mp hu, List.concat_eq_append], hl⟩

theorem Throughout.concat {P : List (Sighting L) → Sighting L → Prop} {l : List (Sighting L)}
    {t : Sighting L} (h : Throughout P l) (ht : P l t) : Throughout P (l ++ [t]) := by
  intro before u after hl
  rcases eq_of_concat hl with ⟨-, rfl, rfl⟩ | ⟨rest, -, hr⟩
  · exact ht
  · exact h before u rest hr

theorem Throughout.getElem {P : List (Sighting L) → Sighting L → Prop} {l : List (Sighting L)}
    (h : Throughout P l) {i : Nat} (hi : i < l.length) : P (l.take i) l[i] := by
  have hl : l = l.take i ++ l[i] :: l.drop (i + 1) := by
    rw [← List.drop_eq_getElem_cons hi, List.take_append_drop]
  exact h _ _ _ hl

theorem Throughout.pairwise {P : List (Sighting L) → Sighting L → Prop}
    {R : Sighting L → Sighting L → Prop} {l : List (Sighting L)} (h : Throughout P l)
    (hr : ∀ before t u, t ∈ before → P before u → R t u) : l.Pairwise R := by
  refine List.pairwise_iff_getElem.mpr fun i j hi hj hij => ?_
  exact hr (l.take j) _ _ (List.mem_take_iff_getElem.mpr ⟨i, by omega, rfl⟩) (h.getElem hj)

def Moment.isInner : Moment L → Bool
  | entered _ => false
  | left _ => false
  | _ => true

def Moment.node : Moment L → Node L
  | entered n => n
  | examined n _ _ => n
  | unresolved n _ => n
  | calling n => n
  | bound n => n
  | left n => n

theorem activities_concat_inner {l : List (Sighting L)} {t : Sighting L}
    (ht : t.moment.isInner = true) {a : Activity L} {rest : List (Activity L)}
    (hl : activities l = a :: rest) :
    activities (l ++ [t]) = ⟨a.node, a.seen ++ [t]⟩ :: rest := by
  rw [activities_concat, hl]
  unfold Sighting.advance
  cases hm : t.moment with
  | entered n => simp [hm, Moment.isInner] at ht
  | left n => simp [hm, Moment.isInner] at ht
  | _ => rfl

theorem chain_concat_inner {l : List (Sighting L)} {t : Sighting L}
    (ht : t.moment.isInner = true) : chain (l ++ [t]) = chain l := by
  unfold chain
  cases hl : activities l with
  | nil =>
    rw [activities_concat, hl]
    unfold Sighting.advance
    cases hm : t.moment with
    | entered n => simp [hm, Moment.isInner] at ht
    | _ => rfl
  | cons a rest => rw [activities_concat_inner ht hl]; rfl

@[simp] theorem chain_concat_entered (l : List (Sighting L)) (n : Node L) (e : Evaluation) :
    chain (l ++ [⟨.entered n, e⟩]) = n :: chain l := by
  simp [chain, Sighting.advance]

@[simp] theorem chain_concat_left (l : List (Sighting L)) (n : Node L) (e : Evaluation) :
    chain (l ++ [⟨.left n, e⟩]) = (chain l).tail := by
  simp [chain, Sighting.advance]

namespace Request

theorem evaluation_callLogic {r : Request L σ} (hq : r.host.Quiet) (n : Node L) (l : L)
    (p : Progress σ) : (r.callLogic n l p).2.evaluation = p.evaluation := hq _ _ _ _

theorem ledger_callLogic {r : Request L σ} (hk : r.host.KeepsLedger) (n : Node L) (l : L)
    (p : Progress σ) : (r.callLogic n l p).2.ledger = p.ledger := hk _ _ _ _

def recording (r : Request L σ) : Request L (σ × List (Sighting L)) := r.onHost r.host.recording

/-- The record of a whole request. -/
def record (r : Request L σ) (s : Selection) (c : Context) (w : σ) : List (Sighting L) :=
  (r.recording.run s c (w, [])).world.2

/-- Keeping a record changes nothing in a request. -/
theorem run_recording (r : Request L σ) (s : Selection) (c : Context) (w : σ) :
    (r.recording.run s c (w, [])).map Prod.fst = r.run s c w :=
  (run_map (r := r.recording) r.host.recording_projects s c (w, [])).symm

end Request

def Progress.record (p : Progress (σ × List (Sighting L))) : List (Sighting L) := p.world.2

section record

variable (r : Request L σ) (p : Progress (σ × List (Sighting L)))

@[simp] theorem record_update (f : Evaluation → Evaluation) : (p.update f).record = p.record := rfl

@[simp] theorem record_watch (m : Moment L) :
    (r.recording.watch m p).record = p.record ++ [⟨m, p.evaluation⟩] := rfl

theorem record_callLogic (n : Node L) (l : L) :
    (r.recording.callLogic n l p).2.record = p.record ++ [⟨.calling n, p.evaluation⟩] := rfl

theorem record_reportUnresolved (n : Node L) (name source : String) (d : Diagnostic) :
    (r.recording.reportUnresolved n name source d p).record =
      p.record ++ [⟨.unresolved n name,
        (r.recording.reportUnresolved n name source d p).evaluation⟩] := by
  unfold Request.reportUnresolved
  split <;> rfl

theorem record_opening (n : Node L) :
    (r.recording.opening n p).record =
      p.record ++ [⟨.entered n, (r.recording.opening n p).evaluation⟩] := by
  unfold Request.opening
  split <;> rfl

theorem announced_record (before : Event) (after : Ledger → Event)
    (run : Progress (σ × List (Sighting L)) → Bool × Progress (σ × List (Sighting L))) :
    ∃ q, q.evaluation = p.evaluation ∧ q.record = p.record ∧
      (r.recording.announced before after run p).1 = (run q).1 ∧
      (r.recording.announced before after run p).2.evaluation = (run q).2.evaluation ∧
      (r.recording.announced before after run p).2.record = (run q).2.record := by
  rw [Request.announced_eq]
  split
  · exact ⟨r.recording.notify before p, rfl, rfl, rfl, rfl, rfl⟩
  · exact ⟨p, rfl, rfl, rfl, rfl, rfl⟩

end record

end DecisionGraph
