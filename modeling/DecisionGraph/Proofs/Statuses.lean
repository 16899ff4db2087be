import DecisionGraph.Proofs.Formulas
import DecisionGraph.Proofs.Frozen

namespace DecisionGraph

variable {L σ : Type}

/-- What may become of a status in the course of a request. -/
def Status.LeadsTo (a b : Status) : Prop :=
  a = b ∨ a ≠ .failed ∧ a ≠ .skipped ∧ b ≠ .notEvaluated

namespace Status.LeadsTo

variable {a b c : Status}

instance : Decidable (a.LeadsTo b) := inferInstanceAs (Decidable (_ ∨ _))

theorem refl (a : Status) : a.LeadsTo a := .inl rfl

theorem trans (h : a.LeadsTo b) (h' : b.LeadsTo c) : a.LeadsTo c := by
  rcases h with rfl | ⟨hf, hs, hb⟩
  · exact h'
  · rcases h' with rfl | ⟨-, -, hc⟩
    · exact .inr ⟨hf, hs, hb⟩
    · exact .inr ⟨hf, hs, hc⟩

theorem eq_skipped (h : LeadsTo .skipped b) : b = .skipped := by
  rcases h with rfl | ⟨-, hs, -⟩
  · rfl
  · exact absurd rfl hs

theorem eq_notEvaluated (h : a.LeadsTo .notEvaluated) : a = .notEvaluated := by
  rcases h with rfl | ⟨-, -, hb⟩
  · rfl
  · exact absurd rfl hb

theorem of_not_blocksReentry (ha : a.blocksReentry = false) (hb : b ≠ .notEvaluated) :
    a.LeadsTo b := by
  refine .inr ⟨?_, ?_, hb⟩ <;> rintro rfl <;> cases ha

end Status.LeadsTo

namespace Request

variable {r : Request L σ} {t : Sighting L} {l : List (Sighting L)} {led : Ledger}
  {key k : String} {o : Outcome} {n : Node L}

/-- The sighting shows an outcome that will not change any more: a decision has failed, or was
skipped and has just been left. -/
def Seals (r : Request L σ) (t : Sighting L) (k : String) (o : Outcome) : Prop :=
  t.evaluation.ledger.find? k = some o ∧ (o.status = .failed ∨
    o.status = .skipped ∧ ∃ n, t.moment = .left n ∧ n.isDecision ∧ r.key n = k)

theorem Seals.status (h : r.Seals t k o) : o.status = .failed ∨ o.status = .skipped :=
  h.2.imp_right And.left

/-- The ledger has moved on from what was seen of it, and has kept what was settled. -/
structure MovedOn (r : Request L σ) (l : List (Sighting L)) (led : Ledger) : Prop where
  leads : ∀ t ∈ l, ∀ k, (t.evaluation.ledger.status k).LeadsTo (led.status k)
  settled : ∀ t ∈ l, ∀ k o, r.Seals t k o → led.find? k = some o

/-- A decision has the status that goes with the moment. -/
def Marked (r : Request L σ) (t : Sighting L) : Prop :=
  match t.moment with
  | .entered n => n.isDecision → t.evaluation.ledger.status (r.key n) = .evaluating
  | .unresolved n _ => n.isDecision → t.evaluation.ledger.status (r.key n) = .skipped
  | _ => True

/-- The keys of the decisions in progress are these, and they are those that are evaluating or
were skipped without having ended. -/
structure Ruled (r : Request L σ) (busy : List String) (p : Progress (σ × List (Sighting L))) :
    Prop where
  indexed : p.ledger.Indexed
  listed : p.ledger.Listed
  nodup : busy.Nodup
  ongoing : ∀ k ∈ busy, p.ledger.status k = .evaluating ∨ p.ledger.status k = .skipped
  evaluating : ∀ k, p.ledger.status k = .evaluating → k ∈ busy
  blank : ∀ o ∈ p.ledger.outcomes, o.status = .notEvaluated → o.result = none ∧ o.messages = []
  movedOn : r.MovedOn p.record p.ledger
  free : ∀ t ∈ p.record, ∀ k o, r.Seals t k o → k ∉ busy
  throughout : Throughout (fun before t => r.MovedOn before t.evaluation.ledger ∧ r.Marked t)
    p.record

namespace Ruled

variable {busy : List String} {p q : Progress (σ × List (Sighting L))}

theorem still (h : r.Ruled busy p) (hr : q.record = p.record) (hl : q.ledger = p.ledger) :
    r.Ruled busy q :=
  ⟨hl ▸ h.indexed, hl ▸ h.listed, h.nodup, hl ▸ h.ongoing, hl ▸ h.evaluating, hl ▸ h.blank,
    by rw [hr, hl]; exact h.movedOn, hr ▸ h.free, hr ▸ h.throughout⟩

theorem sight (h : r.Ruled busy p) (ht : t.evaluation.ledger = p.ledger) (hm : r.Marked t)
    (hleft : ∀ n, t.moment = .left n → n.isDecision → r.key n ∉ busy)
    (hr : q.record = p.record ++ [t]) (hl : q.ledger = p.ledger) : r.Ruled busy q := by
  have hfree : ∀ k o, r.Seals t k o → k ∉ busy := by
    rintro k o ⟨hfind, hs⟩ hk
    rcases hs with hf | ⟨-, n, hn, hd, rfl⟩
    · rw [ht] at hfind
      have hst := Ledger.status_of_find? hfind
      rcases h.ongoing k hk with he | he <;> rw [hst, hf] at he <;> cases he
    · exact hleft n hn hd hk
  refine ⟨hl ▸ h.indexed, hl ▸ h.listed, h.nodup, hl ▸ h.ongoing, hl ▸ h.evaluating,
    hl ▸ h.blank, ?_, ?_, ?_⟩
  · rw [hr, hl]
    constructor <;> simp only [List.forall_mem_append, List.forall_mem_singleton]
    · exact ⟨h.movedOn.leads, fun k => by rw [ht]; exact .refl _⟩
    · exact ⟨h.movedOn.settled, fun k o hs => ht ▸ hs.1⟩
  · rw [hr]
    simp only [List.forall_mem_append, List.forall_mem_singleton]
    exact ⟨h.free, hfree⟩
  · rw [hr]
    exact h.throughout.concat ⟨ht ▸ h.movedOn, hm⟩

theorem watch (h : r.Ruled busy p) {m : Moment L} (hm : ∀ e, r.Marked ⟨m, e⟩)
    (hleft : ∀ n, m = .left n → n.isDecision → r.key n ∉ busy) :
    r.Ruled busy (r.recording.watch m p) :=
  h.sight (t := ⟨m, p.evaluation⟩) rfl (hm _) hleft (record_watch r p m) rfl

/-- What was settled is not touched by a decision that is in progress or may begin. -/
theorem ne_of_seals (h : r.Ruled busy p)
    (hown : key ∈ busy ∨ (p.ledger.status key).blocksReentry = false) (ht : t ∈ p.record)
    (hs : r.Seals t k o) : key ≠ k := by
  rintro rfl
  rcases hown with hb | hb
  · exact h.free t ht key o hs hb
  · have hst := Ledger.status_of_find? (h.movedOn.settled t ht key o hs)
    rcases hs.status with hf | hf <;> rw [hst, hf] at hb <;> cases hb

/-- What one act does: the outcome of one key gets a status, which the key may have next. -/
theorem modify {busy' : List String} (h : r.Ruled busy p) (hr : q.record = p.record)
    {f : Outcome → Outcome} (hl : q.ledger = p.ledger.modify key f)
    (hid : ∀ o, (f o).id = o.id) {s : Status} (hst : ∀ o, (f o).status = s)
    (hk : (p.ledger.find? key).isSome) (hs : s ≠ .notEvaluated)
    (hlead : (p.ledger.status key).LeadsTo s)
    (hown : key ∈ busy ∨ (p.ledger.status key).blocksReentry = false) (hn : busy'.Nodup)
    (hb : ∀ k, key ≠ k → (k ∈ busy' ↔ k ∈ busy))
    (hbusy : key ∈ busy' → s = .evaluating ∨ s = .skipped)
    (hev : s = .evaluating → key ∈ busy') : r.Ruled busy' q := by
  have hself : q.ledger.status key = s := by
    rw [hl]
    exact Ledger.status_modify_self h.indexed hk hst
  have hother : ∀ k, key ≠ k → q.ledger.status k = p.ledger.status k := by
    intro k hne
    rw [hl, Ledger.status_modify_of_ne h.indexed hne]
  refine ⟨hl ▸ h.indexed.modify _ hid, hl ▸ h.listed.modify _ hid, hn, ?_, ?_, ?_, ⟨?_, ?_⟩, ?_,
    hr ▸ h.throughout⟩
  · intro k hk
    by_cases hne : key = k
    · subst hne
      rw [hself]
      exact hbusy hk
    · rw [hother k hne]
      exact h.ongoing k ((hb k hne).mp hk)
  · intro k hke
    by_cases hne : key = k
    · subst hne
      exact hev (hself.symm.trans hke)
    · rw [hother k hne] at hke
      exact (hb k hne).mpr (h.evaluating k hke)
  · intro o ho hne
    rw [hl] at ho
    rcases Ledger.mem_outcomes_modify ho with ho | ⟨o', -, rfl⟩
    · exact h.blank o ho hne
    · exact absurd ((hst o').symm.trans hne) hs
  · intro t ht k
    rw [hr] at ht
    by_cases hne : key = k
    · subst hne
      rw [hself]
      exact (h.movedOn.leads t ht key).trans hlead
    · rw [hother k hne]
      exact h.movedOn.leads t ht k
  · intro t ht k o hset
    rw [hr] at ht
    rw [hl, Ledger.find?_modify h.indexed, if_neg (h.ne_of_seals hown ht hset)]
    exact h.movedOn.settled t ht k o hset
  · intro t ht k o hset hk
    rw [hr] at ht
    exact h.free t ht k o hset ((hb k (h.ne_of_seals hown ht hset)).mp hk)

theorem ensure (h : r.Ruled busy p) (key name : String) :
    r.Ruled busy (p.update (·.onLedger (·.ensure key name))) := by
  have hst (k : String) : (p.update (·.onLedger (·.ensure key name))).ledger.status k =
      p.ledger.status k := Ledger.status_ensure h.indexed key name k
  refine ⟨h.indexed.ensure _ _, h.listed.ensure _ _, h.nodup, ?_, ?_, ?_, ⟨?_, ?_⟩, h.free,
    h.throughout⟩
  · simpa only [hst] using h.ongoing
  · simpa only [hst] using h.evaluating
  · intro o ho hne
    rcases Ledger.mem_outcomes_ensure ho with ho | rfl
    · exact h.blank o ho hne
    · exact ⟨rfl, rfl⟩
  · intro t ht k
    rw [hst]
    exact h.movedOn.leads t ht k
  · intro t ht k o hset
    have hfind := h.movedOn.settled t ht k o hset
    refine (Ledger.find?_ensure h.indexed key k name).trans ?_
    split
    next hk => rw [hk, hfind, Option.getD_some]
    next => exact hfind

theorem not_busy (h : r.Ruled busy p) (hb : (p.ledger.status key).blocksReentry = false) :
    key ∉ busy := by
  intro hk
  rcases h.ongoing key hk with hs | hs <;> rw [hs] at hb <;> cases hb

theorem begin_decision (h : r.Ruled busy p) (hn : n.isDecision)
    (hb : (p.ledger.status (r.key n)).blocksReentry = false) :
    r.Ruled (r.key n :: busy) (r.recording.opening n p) := by
  have he := h.ensure (r.key n) n.info.name
  rw [← Ledger.status_ensure h.indexed (r.key n) n.info.name (r.key n)] at hb
  have hnot := he.not_busy hb
  have hm : r.Ruled (r.key n :: busy)
      ((p.update (·.onLedger (·.ensure (r.key n) n.info.name))).update
        (·.onLedger (·.setStatus (r.key n) .evaluating))) :=
    he.modify rfl rfl (fun _ => rfl) (s := .evaluating) (fun _ => rfl)
      (Ledger.isSome_find?_ensure h.indexed _ _) (by decide)
      (.of_not_blocksReentry hb (by decide)) (.inr hb) (List.nodup_cons.mpr ⟨hnot, h.nodup⟩)
      (fun k hne => by simp [Ne.symm hne]) (fun _ => .inl rfl) (fun _ => List.mem_cons_self)
  rw [opening_of_decision hn]
  refine hm.sight (t := ⟨.entered n, _⟩) rfl (fun _ => ?_) (by simp) rfl rfl
  exact Ledger.status_modify_self he.indexed (Ledger.isSome_find?_ensure h.indexed _ _)
    fun _ => rfl

theorem reject (h : r.Ruled busy p) (n : Node L) (m : Message)
    (hb : (p.ledger.status (r.key n)).blocksReentry = false) :
    r.Ruled busy ((p.update (·.onLedger (·.ensure (r.key n) n.info.name))).update
      (·.fail (r.key n) m .failed)) := by
  have he := h.ensure (r.key n) n.info.name
  rw [← Ledger.status_ensure h.indexed (r.key n) n.info.name (r.key n)] at hb
  have hnot := he.not_busy hb
  exact he.modify rfl rfl (fun _ => rfl) (s := .failed) (fun _ => rfl)
    (Ledger.isSome_find?_ensure h.indexed _ _) (by decide)
    (.of_not_blocksReentry hb (by decide)) (.inr hb) h.nodup (fun _ _ => Iff.rfl)
    (fun hk => absurd hk hnot) (fun hs => by cases hs)

theorem skip (h : r.Ruled busy p) (hk : key ∈ busy) (m : Message) :
    r.Ruled busy (p.update (·.fail key m .skipped)) := by
  have hs := h.ongoing key hk
  have hlead : (p.ledger.status key).LeadsTo .skipped := by
    rcases hs with hs | hs <;> rw [hs] <;> decide
  exact h.modify rfl rfl (fun _ => rfl) (s := .skipped) (fun _ => rfl)
    (Ledger.find?_isSome_of_ongoing hs) (by decide) hlead (.inl hk) h.nodup (fun _ _ => Iff.rfl)
    (fun _ => .inr rfl) (fun he => by cases he)

theorem reportUnresolved (h : r.Ruled busy p) (hn : n.isDecision → r.key n ∈ busy)
    (name source : String) (d : Diagnostic) :
    r.Ruled busy (r.recording.reportUnresolved n name source d p) := by
  unfold Request.reportUnresolved
  dsimp only
  split
  next hd =>
    have hsome := Ledger.find?_isSome_of_ongoing (h.ongoing _ (hn hd))
    refine (h.skip (hn hd) (.of .error d (some source) none)).sight (t := ⟨.unresolved n name, _⟩)
      rfl (fun _ => ?_) (by simp) rfl rfl
    exact Ledger.status_modify_self h.indexed hsome fun _ => rfl
  next hd =>
    have hs : r.Ruled busy (p.update (·.report (.of .error d (some source) none))) :=
      h.still rfl rfl
    exact hs.watch (fun _ hd' => absurd hd' hd) (by simp)

theorem close {above : List String} (h : r.Ruled (key :: above) p) (hr : q.record = p.record)
    {f : Outcome → Outcome} (hl : q.ledger = p.ledger.modify key f) (hid : ∀ o, (f o).id = o.id)
    {s : Status} (hst : ∀ o, (f o).status = s) (hs : s.isTerminal)
    (hlead : (p.ledger.status key).LeadsTo s) : r.Ruled above q := by
  obtain ⟨hnot, hn⟩ := List.nodup_cons.mp h.nodup
  have hk := Ledger.find?_isSome_of_ongoing (h.ongoing key List.mem_cons_self)
  refine h.modify hr hl hid hst hk ?_ hlead (.inl List.mem_cons_self) hn
    (fun k hne => by simp [Ne.symm hne]) (fun hk => absurd hk hnot) ?_
  · rintro rfl
    cases hs
  · rintro rfl
    cases hs

end Ruled

def busyWith (r : Request L σ) (n : Node L) (above : List String) : List String :=
  if n.isDecision then r.key n :: above else above

theorem busyWith_of_decision (hn : n.isDecision) (above : List String) :
    r.busyWith n above = r.key n :: above := if_pos hn

theorem busyWith_of_knowledge (hn : n.isKnowledge) (above : List String) :
    r.busyWith n above = above := if_neg (Node.not_isDecision hn)

namespace Ruled

variable {above : List String} {p q : Progress (σ × List (Sighting L))}

theorem opening (h : r.Ruled above p)
    (hb : n.isDecision → (p.ledger.status (r.key n)).blocksReentry = false) :
    r.Ruled (r.busyWith n above) (r.recording.opening n p) := by
  unfold busyWith
  split
  next hn => exact h.begin_decision hn (hb hn)
  next hn =>
    have hs : r.Ruled above (p.update (·.enter (r.key n))) := h.still rfl (by simp)
    unfold Request.opening
    rw [if_neg hn]
    exact hs.watch (fun _ hd => absurd hd hn) (by simp)

theorem reportUnresolved_inside (h : r.Ruled (r.busyWith n above) p) (name source : String)
    (d : Diagnostic) :
    r.Ruled (r.busyWith n above) (r.recording.reportUnresolved n name source d p) :=
  h.reportUnresolved (fun hn => by
    rw [busyWith_of_decision hn]
    exact List.mem_cons_self) name source d

theorem lose (h : r.Ruled (r.busyWith n above) q) (hn : n.isDecision) (m : Option Message)
    {s : Status} (hs : s.isTerminal) (hlead : (q.ledger.status (r.key n)).LeadsTo s) :
    r.Ruled above (r.recording.watch (.left n) (q.update (·.lose (r.key n) m s))) := by
  rw [busyWith_of_decision hn] at h
  have hnot := (List.nodup_cons.mp h.nodup).1
  have hc : r.Ruled above (q.update (·.lose (r.key n) m s)) := by
    cases m <;> exact h.close rfl rfl (fun _ => rfl) (fun _ => rfl) hs hlead
  refine hc.watch (fun _ => trivial) fun k hk _ => ?_
  rwa [← Moment.left.inj hk]

theorem keep (h : r.Ruled (r.busyWith n above) q) (hn : n.isDecision)
    (hs : q.ledger.status (r.key n) = .evaluating) (v : Value) :
    r.Ruled above (r.recording.watch (.left n) (r.recording.watch (.bound n) (q.update fun e =>
      (e.onContext (·.set n.info.name v)).onLedger (·.modify (r.key n) (·.succeed v))))) := by
  rw [busyWith_of_decision hn] at h
  have hnot := (List.nodup_cons.mp h.nodup).1
  have hc : r.Ruled above (q.update fun e =>
      (e.onContext (·.set n.info.name v)).onLedger (·.modify (r.key n) (·.succeed v))) :=
    h.close rfl rfl (fun _ => rfl) (s := .succeeded) (fun _ => rfl) rfl (by rw [hs]; decide)
  refine (hc.watch (m := .bound n) (fun _ => trivial) (by simp)).watch (fun _ => trivial)
    fun k hk _ => ?_
  rwa [← Moment.left.inj hk]

theorem leave_knowledge (h : r.Ruled (r.busyWith n above) q) (hn : n.isKnowledge) :
    r.Ruled above (r.recording.watch (.left n) (q.update (·.leave (r.key n)))) := by
  rw [busyWith_of_knowledge hn] at h
  have hs : r.Ruled above (q.update (·.leave (r.key n))) := h.still rfl rfl
  refine hs.watch (fun _ => trivial) fun k hk hd => ?_
  rw [← Moment.left.inj hk] at hd
  exact absurd hd (Node.not_isDecision hn)

end Ruled

/-- A visit keeps the rules of the statuses, whatever is in progress around it. -/
def Rules (r : Request L σ) (_ : Node L) (p : Progress (σ × List (Sighting L)))
    (x : Resolution × Progress (σ × List (Sighting L))) : Prop :=
  (p.ledger.Indexed → x.2.ledger.Indexed ∧ p.ledger.Keeps none x.2.ledger) ∧
    ∀ busy, r.Ruled busy p → r.Ruled busy x.2

def RulesOn (r : Request L σ) (n : Node L) (b : Bool) (p q : Progress (σ × List (Sighting L))) :
    Prop :=
  (p.ledger.Indexed → r.recording.Advances n b p.ledger q.ledger) ∧
    ∀ above, r.Ruled (r.busyWith n above) p → r.Ruled (r.busyWith n above) q

variable {p q : Progress (σ × List (Sighting L))}

theorem RulesOn.opened {b : Bool} (h : r.RulesOn n b (r.recording.opening n p) q)
    {busy : List String} (hp : r.Ruled busy p)
    (hb : n.isDecision → (p.ledger.status (r.key n)).blocksReentry = false) :
    r.Ruled (r.busyWith n busy) q ∧
      (n.isDecision → q.ledger.status (r.key n) = if b then .evaluating else .skipped) := by
  obtain ⟨hi, -, hs⟩ := advances_opening (r := r.recording) (n := n) hp.indexed
  refine ⟨h.2 busy (hp.opening hb), fun hn => ?_⟩
  have hst := (h.1 hi).status hn (.inl (hs hn))
  rwa [hs hn] at hst

theorem lawful_rules (hk : r.host.KeepsLedger) :
    r.recording.Lawful r.Rules r.RulesOn (fun n => r.RulesOn n true) := by
  have h := lawful_ledger (r := r.recording) hk.recording
  exact {
    refl n p := ⟨h.refl n p, fun _ hp => hp⟩
    trans hp hs := ⟨h.trans hp.1 hs.1, fun above hq => hs.2 above (hp.2 above hq)⟩
    unresolved n name id source d p he := ⟨h.unresolved n name id source d p he,
      fun _ hp => hp.reportUnresolved_inside name source d⟩
    fits n d type p ht hd hr hc := ⟨h.fits n d type p ht hd hr hc,
      fun _ hp => hp.watch (fun _ => trivial) (by simp)⟩
    misfit n d type p name id source g ht he hd hr hc := by
      refine ⟨h.misfit n d type p name id source g ht he hd hr hc, fun above hp => ?_⟩
      have hw : r.Ruled (r.busyWith n above)
          (r.recording.watch (.examined n d (r.recording.found n d p)) p) :=
        hp.watch (fun _ => trivial) (by simp)
      exact hw.reportUnresolved_inside name source g
    report n m p := ⟨h.report n m p, fun _ hp => hp.still rfl rfl⟩
    notify n e p := ⟨h.notify n e p, fun _ hp => hp.still rfl rfl⟩
    here n d p x hd hu hs hx := ⟨h.here n d p x hd hu hs hx.1, fun _ hp => hx.2 _ hp⟩
    through n d p a x hd hu hs ha hx := by
      refine ⟨h.through n d p a x hd hu hs ha hx.1, fun above hp => ?_⟩
      have hpush : r.Ruled (r.busyWith n above)
          (p.update (·.onContext (·.push ⟨a, d.info.ns⟩))) := hp.still rfl rfl
      exact (hx.2 _ hpush).still rfl rfl
    call n logic room p q hl hpq hok hres := by
      refine ⟨h.call n logic room p q hl hpq.1 hok hres.1, fun above hp => ?_⟩
      have hw := (hres.2 above hp).watch (m := .calling n) (fun _ => trivial) (by simp)
      exact hw.still rfl (hk _ _ _ _)
    complained n p q m hs := ⟨h.complained n p q m hs.1,
      fun above hp => (hs.2 above hp).still rfl rfl⟩
    stay n p res hres := ⟨h.stay n p res hres, fun _ hp => hp⟩
    told n p res q e hs := ⟨h.told n p res q e hs.1, fun busy hp => (hs.2 busy hp).still rfl rfl⟩
    tooDeep n p d hn hu hb := ⟨h.tooDeep n p d hn hu hb, fun _ hp => hp.reject n _ hb⟩
    skipped n p b q m hn hu hb hs := by
      refine ⟨h.skipped n p b q m hn hu hb hs.1, fun busy hp => ?_⟩
      obtain ⟨hq, hst⟩ := hs.opened hp fun _ => hb
      refine hq.lose hn m rfl ?_
      rw [hst hn]
      cases b <;> decide
    failed n p q m hn hu hb hs := by
      refine ⟨h.failed n p q m hn hu hb hs.1, fun busy hp => ?_⟩
      obtain ⟨hq, hst⟩ := hs.opened hp fun _ => hb
      refine hq.lose hn m rfl ?_
      rw [hst hn]
      decide
    kept n p q v hn hu hb hs := by
      refine ⟨h.kept n p q v hn hu hb hs.1, fun busy hp => ?_⟩
      obtain ⟨hq, hst⟩ := hs.opened hp fun _ => hb
      exact hq.keep hn (hst hn) v
    reported n p m hn := ⟨h.reported n p m hn, fun _ hp => hp.still rfl rfl⟩
    heard n p e x hn hx := ⟨h.heard n p e x hn hx.1, fun busy hp => hx.2 busy (hp.still rfl rfl)⟩
    abandoned n p b q hn ha hu hs := by
      refine ⟨h.abandoned n p b q hn ha hu hs.1, fun busy hp => ?_⟩
      exact (hs.opened hp fun hd => absurd hd (Node.not_isDecision hn)).1.leave_knowledge hn
    ended n p q hn ha hu hs := by
      refine ⟨h.ended n p q hn ha hu hs.1, fun busy hp => ?_⟩
      exact (hs.opened hp fun hd => absurd hd (Node.not_isDecision hn)).1.leave_knowledge hn
    given n p q f hn ha hu hs := by
      refine ⟨h.given n p q f hn ha hu hs.1, fun busy hp => ?_⟩
      obtain ⟨hq, -⟩ := hs.opened hp fun hd => absurd hd (Node.not_isDecision hn)
      have hset : r.Ruled (r.busyWith n busy)
          (q.update (·.onContext (·.set n.info.name (.function f)))) := hq.still rfl rfl
      exact (hset.watch (m := .bound n) (fun _ => trivial) (by simp)).leave_knowledge hn }

theorem ruled_start (c : Context) (w : σ) : r.Ruled [] (r.recording.start c (w, [])) := by
  refine ⟨r.model.indexed_freshLedger, r.model.listed_freshLedger, .nil, by simp, ?_, ?_,
    ⟨fun t ht => absurd ht List.not_mem_nil, fun t ht => absurd ht List.not_mem_nil⟩,
    fun t ht => absurd ht List.not_mem_nil, .nil⟩
  · intro k hk
    have hfresh : r.model.freshLedger.status k = .evaluating := hk
    rw [r.model.status_freshLedger] at hfresh
    cases hfresh
  · intro o ho _
    obtain ⟨d, -, rfl⟩ := r.model.mem_outcomes_freshLedger o ho
    exact ⟨rfl, rfl⟩

theorem ruled_run (hk : r.host.KeepsLedger) (s : Selection) (c : Context) (w : σ) :
    r.Ruled [] (r.recording.run s c (w, [])) :=
  run_induction (ruled_start c w)
    (fun n p _ hp => ((lawful_rules hk).visit r.maxDepth n p).2 [] hp)
    fun _ _ hp => hp.still rfl rfl

theorem keeps_errands (hk : r.host.KeepsLedger) (es : List (Errand L)) (p : Progress σ)
    (hl : p.ledger.Indexed) :
    (es.foldl r.serve p).ledger.Indexed ∧ p.ledger.Keeps none (es.foldl r.serve p).ledger := by
  refine List.foldlRecOn (motive := fun q : Progress σ => q.ledger.Indexed ∧
    p.ledger.Keeps none q.ledger) es r.serve ⟨hl, .refl _ _⟩ ?_
  rintro q ⟨hq, hpq⟩ (n | d) -
  · obtain ⟨hi, hkeeps⟩ := (lawful_ledger hk).visit r.maxDepth n q hq
    exact ⟨hi, hpq.trans hkeeps⟩
  · exact ⟨hq, hpq⟩

theorem ledger_run_recording (s : Selection) (c : Context) (w : σ) :
    (r.recording.run s c (w, [])).ledger = (r.run s c w).ledger :=
  congrArg Progress.ledger (run_recording r s c w)

/-- What was seen at a moment of a request holds of every later moment and of its end. -/
theorem movedOn_run (hk : r.host.KeepsLedger) {s : Selection} {c : Context} {w : σ}
    {before after : List (Sighting L)} (hl : r.record s c w = before ++ t :: after) :
    r.Marked t ∧ (∀ u ∈ after, r.MovedOn [t] u.evaluation.ledger) ∧
      r.MovedOn [t] (r.run s c w).ledger := by
  have h := ruled_run (r := r) hk s c w
  have hsub {l : List (Sighting L)} {led : Ledger} (hf : r.MovedOn l led) (ht : t ∈ l) :
      r.MovedOn [t] led :=
    ⟨fun u hu => List.mem_singleton.mp hu ▸ hf.leads t ht,
      fun u hu => List.mem_singleton.mp hu ▸ hf.settled t ht⟩
  refine ⟨(h.throughout before t after hl).2, fun u hu => ?_, ?_⟩
  · obtain ⟨mid, rest, rfl⟩ := List.append_of_mem hu
    have hf := (h.throughout (before ++ t :: mid) u rest (by simp [← hl, Progress.record, record])).1
    exact hsub hf (by simp)
  · have ht : t ∈ r.record s c w := by simp [hl]
    rw [← ledger_run_recording]
    exact hsub h.movedOn ht

/-- No decision is evaluating when a request ends. An outcome is final once its decision was seen to
have failed, or was skipped and left; the errands of a request and all visits leave such outcomes as
they are, those of decisions that were too deep included. From its first unresolved dependency on, a
decision is skipped. A decision that was not evaluated in the end has an outcome that says nothing,
and was never entered. -/
theorem statuses_absorbed (hk : r.host.KeepsLedger) (s : Selection) (c : Context) (w : σ) :
    (∀ o ∈ (r.run s c w).ledger.outcomes, o.status ≠ .evaluating) ∧
    (∀ before t after k o, r.record s c w = before ++ t :: after → r.Seals t k o →
      (∀ u ∈ after, u.evaluation.ledger.find? k = some o) ∧
        (r.run s c w).ledger.find? k = some o) ∧
    (∀ done next rest k o, r.model.errands s = done ++ next ++ rest →
      (done.foldl r.serve (r.start c w)).ledger.find? k = some o →
      o.status = .failed ∨ o.status = .skipped →
      ((done ++ next).foldl r.serve (r.start c w)).ledger.find? k = some o) ∧
    (∀ room n p k o, p.ledger.Indexed → p.ledger.find? k = some o →
      o.status = .failed ∨ o.status = .skipped → (r.visit room n p).2.ledger.find? k = some o) ∧
    (∀ before t after n name, r.record s c w = before ++ t :: after →
      t.moment = .unresolved n name → n.isDecision →
      (∀ u ∈ t :: after, u.evaluation.ledger.status (r.key n) = .skipped) ∧
        (r.run s c w).ledger.status (r.key n) = .skipped) ∧
    (∀ o ∈ (r.run s c w).ledger.outcomes, o.status = .notEvaluated →
      o.result = none ∧ o.messages = [] ∧
        ∀ t ∈ r.record s c w, ∀ n, t.moment = .entered n → n.isDecision → r.key n ≠ o.id) := by
  have h := ruled_run (r := r) hk s c w
  have hl := ledger_run_recording (r := r) s c w
  have hlost {led : Ledger} {k : String} {o : Outcome} (hf : led.find? k = some o)
      (ho : o.status = .failed ∨ o.status = .skipped) : (led.status k).blocksReentry := by
    rw [Ledger.status_of_find? hf]
    rcases ho with ho | ho <;> rw [ho] <;> rfl
  refine ⟨fun o ho hs => ?_, fun before t after k o hrec hset => ?_,
    fun done next rest k o _ hf ho => ?_, fun room n p k o hi hf ho => ?_,
    fun before t after n name hrec hm hn => ?_, fun o ho hs => ?_⟩
  · rw [← hl] at ho
    have hst := (Ledger.status_of_find? (h.listed.find? ho)).trans hs
    exact absurd (h.evaluating o.id hst) List.not_mem_nil
  · obtain ⟨-, hafter, hend⟩ := movedOn_run hk hrec
    exact ⟨fun u hu => (hafter u hu).settled t List.mem_cons_self k o hset,
      hend.settled t List.mem_cons_self k o hset⟩
  · obtain ⟨hi, -⟩ := keeps_errands hk done (r.start c w) r.model.indexed_freshLedger
    obtain ⟨-, hkeeps⟩ := keeps_errands hk next _ hi
    rw [List.foldl_append, hkeeps k (by simp) (hlost hf ho), hf]
  · obtain ⟨-, hkeeps⟩ := (lawful_ledger hk).visit room n p hi
    rw [hkeeps k (by simp) (hlost hf ho), hf]
  · obtain ⟨hmark, hafter, hend⟩ := movedOn_run hk hrec
    have hst : t.evaluation.ledger.status (r.key n) = .skipped := by
      unfold Marked at hmark
      rw [hm] at hmark
      exact hmark hn
    have hlater {led : Ledger} (hf : r.MovedOn [t] led) : led.status (r.key n) = .skipped := by
      have hlead := hf.leads t List.mem_cons_self (r.key n)
      rw [hst] at hlead
      exact hlead.eq_skipped
    exact ⟨List.forall_mem_cons.mpr ⟨hst, fun u hu => hlater (hafter u hu)⟩, hlater hend⟩
  · rw [← hl] at ho
    obtain ⟨hres, hmsg⟩ := h.blank o ho hs
    refine ⟨hres, hmsg, fun t ht n hm hn hkey => ?_⟩
    obtain ⟨before, after, hrec⟩ := List.append_of_mem ht
    have hmark := (h.throughout before t after hrec).2
    unfold Marked at hmark
    rw [hm] at hmark
    have hlead := h.movedOn.leads t ht (r.key n)
    rw [hmark hn, hkey, Ledger.status_of_find? (h.listed.find? ho), hs] at hlead
    cases hlead.eq_notEvaluated

/-- The price needs the discount, which needs the price: the discount is skipped for that, and
stays so, and nothing is evaluating in the end. -/
theorem statuses_absorbed_circular : Host.functions.KeepsLedger ∧
    (∀ o ∈ (Formula.circularRequest.run .all .empty ()).ledger.outcomes,
      o.status ≠ .evaluating) ∧
    ∃ t, Formula.circularRecord[2]? = some t ∧ t.moment = .unresolved Formula.discount "price" ∧
      (Formula.circularRequest.run .all .empty ()).ledger.status "2" = .skipped := by
  have hk : Host.functions.KeepsLedger := Host.functions_quiet.keepsLedger
  obtain ⟨hdone, -, -, -, hskip, -⟩ := statuses_absorbed (r := Formula.circularRequest) hk .all
    .empty ()
  obtain ⟨t, ht, hm⟩ : ∃ t, Formula.circularRecord[2]? = some t ∧
      t.moment = .unresolved Formula.discount "price" := ⟨_, rfl, rfl⟩
  refine ⟨hk, hdone, t, ht, hm, ?_⟩
  obtain ⟨before, after, hrec⟩ := List.append_of_mem (List.mem_of_getElem? ht)
  exact (hskip before t after Formula.discount "price" hrec hm rfl).2

end Request

end DecisionGraph
