import DecisionGraph.Proofs.Ledger
import DecisionGraph.Proofs.Law
import DecisionGraph.Proofs.Record

namespace DecisionGraph

variable {L σ : Type}

theorem Model.indexed_freshLedger (m : Model L) : m.freshLedger.Indexed := by
  unfold freshLedger
  exact List.foldlRecOn _ _ Ledger.indexed_empty fun l hl d _ => hl.ensure d.info.id d.info.name

theorem Model.listed_freshLedger (m : Model L) : m.freshLedger.Listed := by
  unfold freshLedger
  exact List.foldlRecOn _ _ Ledger.listed_empty fun l hl d _ => hl.ensure d.info.id d.info.name

theorem Model.mem_outcomes_freshLedger (m : Model L) :
    ∀ o ∈ m.freshLedger.outcomes, ∃ d ∈ m.localDecisions, o = .new d.info.id d.info.name := by
  unfold freshLedger
  refine List.foldlRecOn (motive := fun l : Ledger => ∀ o ∈ l.outcomes,
    ∃ d ∈ m.localDecisions, o = .new d.info.id d.info.name) _ _ ?_ ?_
  · exact fun o ho => nomatch ho
  · intro l hl d hd o ho
    rcases Ledger.mem_outcomes_ensure ho with ho | rfl
    · exact hl o ho
    · exact ⟨d, hd, rfl⟩

theorem Model.status_freshLedger (m : Model L) (k : String) :
    m.freshLedger.status k = .notEvaluated := by
  cases hk : m.freshLedger.find? k with
  | none => rw [Ledger.status, hk, Option.map_none, Option.getD_none]
  | some o =>
    obtain ⟨d, -, rfl⟩ := m.mem_outcomes_freshLedger o (Ledger.mem_of_find? hk)
    rw [Ledger.status_of_find? hk, Outcome.new]

theorem Model.find?_freshLedger {m : Model L} {n : Node L} (h : n ∈ m.localDecisions) :
    ∃ o, m.freshLedger.find? n.info.id = some o ∧ o.status = .notEvaluated ∧ o.result = none := by
  -- Along the list, an outcome that is open already stays open, and still says nothing.
  have hfold : ∀ (ds : List (Node L)) (l : Ledger), l.Indexed →
      (∀ k o, l.find? k = some o → o.status = .notEvaluated ∧ o.result = none) →
      (∀ k o, (ds.foldl (fun l d => l.ensure d.info.id d.info.name) l).find? k = some o →
        o.status = .notEvaluated ∧ o.result = none) ∧
      ∀ k, (l.find? k).isSome ∨ (∃ d ∈ ds, d.info.id = k) →
        ((ds.foldl (fun l d => l.ensure d.info.id d.info.name) l).find? k).isSome := by
    intro ds
    induction ds with
    | nil => exact fun l _ hl => ⟨hl, fun k hk => by simpa using hk⟩
    | cons d ds ih =>
      intro l hi hl
      have hfind := Ledger.find?_ensure hi d.info.id
      obtain ⟨hnew, hsome⟩ := ih (l.ensure d.info.id d.info.name) (hi.ensure _ _) (by
        intro k o ho
        rw [hfind] at ho
        split at ho
        · obtain rfl := Option.some.inj ho
          cases hk : l.find? k with
          | none => exact ⟨rfl, rfl⟩
          | some o => exact hl k o hk
        · exact hl k o ho)
      refine ⟨hnew, fun k hk => hsome k ?_⟩
      by_cases hd : d.info.id = k
      · exact .inl (by rw [hfind, if_pos hd]; rfl)
      · rcases hk with hk | ⟨d', hd', hk⟩
        · exact .inl (by rwa [hfind, if_neg hd])
        · rcases List.mem_cons.mp hd' with rfl | hd'
          · exact absurd hk hd
          · exact .inr ⟨d', hd', hk⟩
  obtain ⟨hnew, hsome⟩ := hfold m.localDecisions .empty Ledger.indexed_empty fun k o ho => by
    simp [Ledger.find?, Ledger.empty, Bindings.find?] at ho
  obtain ⟨o, ho⟩ := Option.isSome_iff_exists.mp (hsome n.info.id (.inr ⟨n, h, rfl⟩))
  exact ⟨o, ho, hnew _ o ho⟩

namespace Request

variable {r : Request L σ} {n : Node L} {b : Bool} {p q : Progress σ}

/-- The key under which the evaluation of a node changes the ledger by itself. -/
def ownKey? (r : Request L σ) (n : Node L) : Option String :=
  if n.isDecision then some (r.key n) else none

theorem ownKey?_of_decision (hn : n.isDecision) : r.ownKey? n = some (r.key n) := if_pos hn

theorem of_ownKey? {k : String} (h : r.ownKey? n = some k) : n.isDecision ∧ r.key n = k := by
  unfold ownKey? at h
  split at h
  next hn => exact ⟨hn, Option.some.inj h⟩
  next => cases h

/-- What happens to the ledger during the evaluation of `n`. -/
structure Advances (r : Request L σ) (n : Node L) (b : Bool) (l l' : Ledger) : Prop where
  indexed : l'.Indexed
  keeps : l.Keeps (r.ownKey? n) l'
  status : n.isDecision → l.status (r.key n) = .evaluating ∨ l.status (r.key n) = .skipped →
    l'.status (r.key n) = if b then l.status (r.key n) else .skipped

theorem Advances.refl {l : Ledger} (hl : l.Indexed) : r.Advances n true l l :=
  ⟨hl, .refl _ l, fun _ _ => rfl⟩

theorem Advances.trans {a b : Bool} {l l' l'' : Ledger} (h : r.Advances n a l l')
    (h' : r.Advances n b l' l'') : r.Advances n (a && b) l l'' := by
  refine ⟨h'.indexed, h.keeps.trans h'.keeps, ?_⟩
  intro hn hs
  have hm := h.status hn hs
  cases a with
  | true =>
    rw [if_pos rfl] at hm
    rw [h'.status hn (by rwa [hm]), hm]
    rfl
  | false =>
    rw [if_neg (by simp)] at hm
    rw [h'.status hn (.inr hm), hm]
    cases b <;> rfl

theorem Advances.isSome {l l' : Ledger} (h : r.Advances n b l l') (hn : n.isDecision)
    (hs : l.status (r.key n) = .evaluating) : (l'.find? (r.key n)).isSome := by
  refine Ledger.find?_isSome_of_status ?_
  rw [h.status hn (.inl hs), hs]
  split <;> decide

def Ongoing (r : Request L σ) (n : Node L) (l : Ledger) : Prop :=
  n.isDecision → l.status (r.key n) = .evaluating ∨ l.status (r.key n) = .skipped

theorem Advances.ongoing {l l' : Ledger} (h : r.Advances n b l l') (hn : r.Ongoing n l) :
    r.Ongoing n l' := by
  intro hd
  rw [h.status hd (hn hd)]
  split
  · exact hn hd
  · exact .inr rfl

/-- What blocks its decision does so as long as a node is in progress. -/
theorem Advances.blocksReentry {l l' : Ledger} (h : r.Advances n b l l') (hn : r.Ongoing n l)
    {k : String} (hk : (l.status k).blocksReentry) : (l'.status k).blocksReentry := by
  by_cases ho : r.ownKey? n = some k
  · obtain ⟨hd, rfl⟩ := of_ownKey? ho
    rcases h.ongoing hn hd with hs | hs <;> rw [hs] <;> rfl
  · rwa [Ledger.status_eq_of_find? (h.keeps _ ho hk)]

theorem Advances.of_keeps {l l' : Ledger} (hl : l'.Indexed) (h : l.Keeps none l') :
    r.Advances n true l l' := by
  refine ⟨hl, h.of_none, ?_⟩
  intro _ hs
  have hb : (l.status (r.key n)).blocksReentry := by
    rcases hs with hs | hs <;> rw [hs] <;> rfl
  exact Ledger.status_eq_of_find? (h _ (by simp) hb)

theorem advances_reportUnresolved (hl : p.ledger.Indexed) (name source : String)
    (d : Diagnostic) :
    r.Advances n false p.ledger (r.reportUnresolved n name source d p).ledger := by
  unfold reportUnresolved
  dsimp only
  cases hn : n.isDecision with
  | true =>
    refine ⟨hl.modify _ fun _ => rfl, ?_, fun _ hs => ?_⟩
    · rw [ownKey?_of_decision hn]
      exact (Ledger.Keeps.refl _ _).modify hl _
    · exact Ledger.status_modify_self hl (Ledger.find?_isSome_of_ongoing hs) fun _ => rfl
  | false => exact ⟨hl, .refl _ _, fun h => by simp [hn] at h⟩

theorem advances_opening (hl : p.ledger.Indexed) :
    (r.opening n p).ledger.Indexed ∧ p.ledger.Keeps (r.ownKey? n) (r.opening n p).ledger ∧
      (n.isDecision → (r.opening n p).ledger.status (r.key n) = .evaluating) := by
  unfold opening
  cases hn : n.isDecision with
  | true =>
    have he := hl.ensure (r.key n) n.info.name
    have hk := Ledger.isSome_find?_ensure hl (r.key n) n.info.name
    rw [ownKey?_of_decision hn]
    refine ⟨he.setStatus _ _, ((Ledger.Keeps.refl _ _).ensure hl _).modify he _, ?_⟩
    intro _
    exact Ledger.status_modify_self he hk fun _ => rfl
  | false =>
    refine ⟨by simpa using hl, ?_, fun h => by cases h⟩
    simpa using Ledger.Keeps.refl _ p.ledger

/-- At the end of a decision its outcome changes once more, which it may as it did not block. -/
theorem keeps_close (hn : n.isDecision) (hb : (p.ledger.status (r.key n)).blocksReentry = false)
    (hl : p.ledger.Indexed) (h : r.Advances n b (r.opening n p).ledger q.ledger)
    (f : Outcome → Outcome) : p.ledger.Keeps none (q.ledger.modify (r.key n) f) := by
  obtain ⟨-, hk, -⟩ := advances_opening (r := r) (n := n) hl
  have hk' := hk.trans h.keeps
  rw [ownKey?_of_decision hn] at hk'
  exact (hk'.modify h.indexed f).close hb

theorem keeps_knowledge (hn : n.isKnowledge) (hl : p.ledger.Indexed)
    (h : r.Advances n b (r.opening n p).ledger q.ledger) : p.ledger.Keeps none q.ledger := by
  have ho : r.ownKey? n = none := if_neg (Node.not_isDecision hn)
  obtain ⟨-, hk, -⟩ := advances_opening (r := r) (n := n) hl
  have hk' := hk.trans h.keeps
  rwa [ho] at hk'

/-- Visits change no outcome that blocks its decision. -/
theorem lawful_ledger (hk : r.host.KeepsLedger) :
    r.Lawful
      (fun _ p x => p.ledger.Indexed → x.2.ledger.Indexed ∧ p.ledger.Keeps none x.2.ledger)
      (fun n b p q => p.ledger.Indexed → r.Advances n b p.ledger q.ledger)
      (fun n p q => p.ledger.Indexed → r.Advances n true p.ledger q.ledger) where
  refl _ _ hl := .refl hl
  trans h h' hl := (h hl).trans (h' (h hl).indexed)
  unresolved _ _ _ _ _ _ _ hl := advances_reportUnresolved hl _ _ _
  fits _ _ _ _ _ _ _ _ hl := .refl hl
  misfit n d _ p _ _ _ _ _ _ _ _ _ hl :=
    advances_reportUnresolved (p := r.watch (.examined n d (r.found n d p)) p) hl _ _ _
  report _ _ _ hl := .refl hl
  notify _ _ _ hl := .refl hl
  here _ _ _ _ _ _ _ hx hl := .of_keeps (hx hl).1 (hx hl).2
  through _ _ _ _ _ _ _ _ _ hx hl := .of_keeps (hx hl).1 (hx hl).2
  call n logic room p q _ _ _ h hl := by
    rw [ledger_callLogic hk]
    exact h hl
  complained _ _ _ _ h hl := h hl
  stay _ _ _ _ hl := ⟨hl, .refl _ _⟩
  told _ _ _ _ _ h hl := h hl
  tooDeep n p d _ _ hb hl := by
    have he := hl.ensure (r.key n) n.info.name
    refine ⟨he.modify _ fun _ => rfl, ?_⟩
    exact (((Ledger.Keeps.refl _ _).ensure hl _).modify he _).close hb
  skipped n p b q m hn _ hb h hl := by
    have ha := h (advances_opening hl).1
    cases m <;> exact ⟨ha.indexed.modify _ fun _ => rfl, keeps_close hn hb hl ha _⟩
  failed n p q m hn _ hb h hl := by
    have ha := h (advances_opening hl).1
    cases m <;> exact ⟨ha.indexed.modify _ fun _ => rfl, keeps_close hn hb hl ha _⟩
  kept n p q v hn _ hb h hl := by
    have ha := h (advances_opening hl).1
    exact ⟨ha.indexed.modify _ fun _ => rfl, keeps_close hn hb hl ha _⟩
  reported _ _ _ _ hl := ⟨hl, .refl _ _⟩
  heard _ _ _ _ _ h hl := h hl
  abandoned n p b q hn _ _ h hl := by
    have ha := h (advances_opening hl).1
    exact ⟨ha.indexed, keeps_knowledge hn hl ha⟩
  ended n p q hn _ _ h hl := by
    have ha := h (advances_opening hl).1
    exact ⟨ha.indexed, keeps_knowledge hn hl ha⟩
  given n p q f hn _ _ h hl := by
    have ha := h (advances_opening hl).1
    exact ⟨ha.indexed, keeps_knowledge hn hl ha⟩

@[simp] theorem active_reportUnresolved (name source : String) (d : Diagnostic) :
    (r.reportUnresolved n name source d p).evaluation.active = p.evaluation.active := by
  unfold reportUnresolved
  split <;> simp

theorem lawful_active (ha : r.host.KeepsActive) :
    r.Lawful (fun _ p x => x.2.evaluation.active = p.evaluation.active)
      (fun _ _ p q => q.evaluation.active = p.evaluation.active)
      (fun _ p q => q.evaluation.active = p.evaluation.active) where
  refl _ _ := rfl
  trans h h' := h'.trans h
  unresolved _ _ _ _ _ _ _ := by simp
  fits _ _ _ _ _ _ _ _ := rfl
  misfit _ _ _ _ _ _ _ _ _ _ _ _ _ := by simp
  report _ _ _ := rfl
  notify _ _ _ := rfl
  here _ _ _ _ _ _ _ h := h
  through _ _ _ _ _ _ _ _ _ h := h
  call _ _ _ _ _ _ _ _ h := (ha _ _ _ _).trans h
  complained _ _ _ _ h := h
  stay _ _ _ _ := rfl
  told _ _ _ _ _ h := h
  tooDeep _ _ _ _ _ _ := rfl
  skipped n p b q m hn _ _ h := by
    rw [opening_of_decision hn] at h
    cases m <;> simpa [Evaluation.lose] using h
  failed n p q m hn _ _ h := by
    rw [opening_of_decision hn] at h
    cases m <;> simpa [Evaluation.lose] using h
  kept n p q v hn _ _ h := by
    rw [opening_of_decision hn] at h
    simpa using h
  reported _ _ _ _ := rfl
  heard _ _ _ _ _ h := h
  abandoned n p b q hn hact _ h := by
    rw [opening_of_knowledge hn] at h
    exact Evaluation.active_leave_enter hact h
  ended n p q hn hact _ h := by
    rw [opening_of_knowledge hn] at h
    exact Evaluation.active_leave_enter hact h
  given n p q f hn hact _ h := by
    rw [opening_of_knowledge hn] at h
    exact Evaluation.active_leave_enter hact h

section outcome

variable {type : DeclaredType} {logic : Option L} {room : Nat}

/-- A decision has succeeded if it has got a value, and otherwise is not entered again. -/
def Concluded (r : Request L σ) (n : Node L) (ok : Bool) (e : Evaluation) : Prop :=
  if ok then e.ledger.status (r.key n) = .succeeded
  else (e.ledger.status (r.key n)).blocksReentry

theorem concluded_lose (hl : p.ledger.Indexed) (hk : (p.ledger.find? (r.key n)).isSome)
    (g : Option Message) {s : Status} (hs : s.blocksReentry) :
    r.Concluded n false (p.update (·.lose (r.key n) g s)).evaluation := by
  have hst : (p.update (·.lose (r.key n) g s)).evaluation.ledger.status (r.key n) = s := by
    cases g <;> exact Ledger.status_modify_self hl hk fun _ => rfl
  unfold Concluded
  rw [if_neg (by simp), hst]
  exact hs

theorem concluded_bindResult (hl : p.ledger.Indexed) (hk : (p.ledger.find? (r.key n)).isSome)
    (v : Value) :
    r.Concluded n (r.bindResult n type v p).1 (r.bindResult n type v p).2.evaluation := by
  rw [bindResult_eq]
  cases r.objection? n type v with
  | none =>
    unfold Concluded
    exact Ledger.status_modify_self hl hk fun _ => rfl
  | some m => exact concluded_lose hl hk (some m) (s := .failed) rfl

theorem concluded_runDecision (hk : r.host.KeepsLedger) (hn : n.isDecision) (hl : p.ledger.Indexed)
    (hs : p.ledger.status (r.key n) = .evaluating) :
    r.Concluded n (r.runDecision (r.visit room) n type logic p).1
      (r.runDecision (r.visit room) n type logic p).2.evaluation := by
  have hres := (lawful_ledger hk).resolve (fun d p => (lawful_ledger hk).visit room d p) n p hl
  have hsome := hres.isSome hn hs
  unfold runDecision
  dsimp only
  split
  · exact concluded_lose hres.indexed hsome none rfl
  · cases logic with
    | none => exact concluded_lose hres.indexed hsome (some _) rfl
    | some l =>
      have he := ledger_callLogic hk n l (r.resolve (r.visit room) n p).2
      have hl' := he.symm ▸ hres.indexed
      have hsome' := he.symm ▸ hsome
      dsimp only
      split
      · exact concluded_bindResult hl' hsome' _
      · exact concluded_lose hl' hsome' none rfl
      · exact concluded_lose hl' hsome' (some _) rfl

theorem Concluded.resolved_iff {ok : Bool} {e : Evaluation} (h : r.Concluded n ok e) :
    Resolution.ofDecision ok = .resolved ↔ e.ledger.status (r.key n) = .succeeded := by
  unfold Concluded at h
  cases ok with
  | true =>
    rw [if_pos rfl] at h
    exact iff_of_true rfl h
  | false =>
    rw [if_neg (by simp)] at h
    apply iff_of_false (by simp [Resolution.ofDecision])
    intro hs
    rw [hs] at h
    cases h

/-- A visit of a decision without a value leaves it with one, or barred. -/
theorem concluded_visit (room : Nat) (hk : r.host.KeepsLedger)
    (hr : n.role = .decision type logic) (hl : p.ledger.Indexed)
    (hu : r.isDefined p.context n.info n.info = false) :
    ∃ ok, (r.visit room n p).1 = .ofDecision ok ∧
      r.Concluded n ok (r.visit room n p).2.evaluation := by
  have hn := Node.isDecision_of_role hr
  rw [visit_eq, visitNode_decision hr]
  cases hb : (p.ledger.status (r.key n)).blocksReentry with
  | true =>
    have hc : r.Concluded n false p.evaluation := by
      unfold Concluded
      exact hb
    rw [visitDecision_of_blocked hu hb]
    exact ⟨false, rfl, hc⟩
  | false =>
    cases room with
    -- Without room the decision fails at once, in an outcome that is opened for it.
    | zero =>
      have he := hl.ensure (r.key n) n.info.name
      have hsome := Ledger.isSome_find?_ensure hl (r.key n) n.info.name
      have hc := concluded_lose (r := r)
        (p := p.update (·.onLedger (·.ensure (r.key n) n.info.name))) he hsome
        (some (.of .error (.evaluationDepthExceeded n.info.identifier r.maxDepth)
          (some n.info.id) none)) (s := .failed) rfl
      rw [below, visitDecision_none hu hb]
      exact ⟨false, rfl, hc⟩
    | succ room =>
      obtain ⟨hi, -, hs⟩ := advances_opening (r := r) (n := n) hl
      have hc : r.Concluded n (r.decide (r.visit room) n type logic (r.opening n p)).1
          (r.decide (r.visit room) n type logic (r.opening n p)).2.evaluation := by
        apply announced_rec (Q := r.Concluded n) _ _ _
        intro q hqp
        have hlq : q.ledger.Indexed := by rwa [Progress.ledger_eq, hqp]
        have hsq : q.ledger.status (r.key n) = .evaluating := by
          rw [Progress.ledger_eq, hqp]
          exact hs hn
        exact concluded_runDecision hk hn hlq hsq
      rw [below, visitDecision_some hr hu hb]
      exact ⟨_, rfl, hc⟩

/-- A visit finds a decision resolved if it had a value or has succeeded. -/
theorem resolved_iff (hk : r.host.KeepsLedger) (hr : n.role = .decision type logic)
    (hl : p.ledger.Indexed) : (r.visit room n p).1 = .resolved ↔
      r.isDefined p.context n.info n.info = true ∨
        (r.visit room n p).2.ledger.status (r.key n) = .succeeded := by
  cases hu : r.isDefined p.context n.info n.info with
  | true => simp [visit_of_defined hr hu]
  | false =>
    obtain ⟨ok, hres, hc⟩ := concluded_visit room hk hr hl hu
    rw [or_iff_right Bool.false_ne_true, hres]
    exact hc.resolved_iff

end outcome

end Request

end DecisionGraph
