import DecisionGraph.Proofs.Formulas
import DecisionGraph.Proofs.Frozen

namespace DecisionGraph

variable {L σ : Type}

namespace Request

variable {r : Request L σ} {l : List (Sighting L)} {t : Sighting L} {k key : String}
  {led : Ledger} {o : Outcome} {n : Node L}

/-- A decision with this key has got a value. -/
def HasBound (r : Request L σ) (k : String) (l : List (Sighting L)) : Prop :=
  ∃ t ∈ l, ∃ n, t.moment = .bound n ∧ n.isDecision ∧ r.key n = k

/-- A decision with this key was entered after one had got a value. -/
def Reopened (r : Request L σ) (k : String) (l : List (Sighting L)) : Prop :=
  ∃ before t after n, l = before ++ t :: after ∧ r.HasBound k before ∧
    t.moment = .entered n ∧ n.isDecision ∧ r.key n = k

/-- The outcome under a key tells what has happened so far: it has a result if a decision with the
key has got a value, and has another status than success only if one was entered again, or was
rejected for its depth. -/
structure Accounted (r : Request L σ) (l : List (Sighting L)) (k : String) (o : Outcome) :
    Prop where
  present : o.status = .succeeded → o.result.isSome
  bound : o.result.isSome ↔ r.HasBound k l
  lost : o.result.isSome → o.status ≠ .succeeded →
    r.Reopened k l ∨ o.status = .failed ∧ ∃ x ∈ o.messages, x.isDepth

/-- All outcomes tell what has happened so far. -/
structure Truthful (r : Request L σ) (l : List (Sighting L)) (led : Ledger) : Prop where
  indexed : led.Indexed
  listed : led.Listed
  unopened : ∀ k, led.find? k = none → ¬r.HasBound k l
  opened : ∀ k o, led.find? k = some o → r.Accounted l k o

theorem hasBound_concat : r.HasBound k (l ++ [t]) ↔
    r.HasBound k l ∨ ∃ n, t.moment = .bound n ∧ n.isDecision ∧ r.key n = k := by
  constructor
  · rintro ⟨u, hu, n, hn⟩
    rcases List.mem_append.mp hu with hu | hu
    · exact .inl ⟨u, hu, n, hn⟩
    · exact .inr ⟨n, List.mem_singleton.mp hu ▸ hn⟩
  · rintro (⟨u, hu, hn⟩ | hn)
    · exact ⟨u, List.mem_append_left _ hu, hn⟩
    · exact ⟨t, List.mem_append_right _ List.mem_cons_self, hn⟩

theorem Reopened.concat (h : r.Reopened k l) (t : Sighting L) : r.Reopened k (l ++ [t]) := by
  obtain ⟨before, u, after, n, rfl, hn⟩ := h
  exact ⟨before, u, after ++ [t], n, by simp, hn⟩

theorem hasBound_concat_of_ne (h : ∀ n, t.moment = .bound n → n.isDecision → r.key n ≠ k) :
    r.HasBound k (l ++ [t]) ↔ r.HasBound k l := by
  rw [hasBound_concat, or_iff_left]
  rintro ⟨n, hm, hn, hk⟩
  exact h n hm hn hk

theorem Accounted.concat (h : r.Accounted l k o)
    (ht : ∀ n, t.moment = .bound n → n.isDecision → r.key n ≠ k) : r.Accounted (l ++ [t]) k o :=
  ⟨h.present, h.bound.trans (hasBound_concat_of_ne ht).symm, fun hr hs =>
    (h.lost hr hs).imp_left fun hre => hre.concat t⟩

namespace Truthful

theorem concat (h : r.Truthful l led) (ht : ∀ n, t.moment = .bound n → ¬n.isDecision) :
    r.Truthful (l ++ [t]) led := by
  have hne (k : String) (n : Node L) (hm : t.moment = .bound n) (hn : n.isDecision) :
      r.key n ≠ k := absurd hn (ht n hm)
  refine ⟨h.indexed, h.listed, fun k hk => ?_, fun k o ho => (h.opened k o ho).concat (hne k)⟩
  rw [hasBound_concat_of_ne (hne k)]
  exact h.unopened k hk

theorem modify (h : r.Truthful l led) (hk : (led.find? k).isSome) {f : Outcome → Outcome}
    (hf : ∀ o, (f o).id = o.id) {l' : List (Sighting L)} (hl : l' = l ∨ ∃ t, l' = l ++ [t] ∧
      ∀ n, t.moment = .bound n → n.isDecision → r.key n = k)
    (ho : ∀ o, led.find? k = some o → r.Accounted l k o → r.Accounted l' k (f o)) :
    r.Truthful l' (led.modify k f) := by
  have hother : ∀ key, k ≠ key → (r.HasBound key l' ↔ r.HasBound key l) ∧
      ∀ o, r.Accounted l key o → r.Accounted l' key o := by
    intro key hne
    rcases hl with rfl | ⟨t, rfl, ht⟩
    · exact ⟨Iff.rfl, fun _ ha => ha⟩
    · have hb : ∀ n, t.moment = .bound n → n.isDecision → r.key n ≠ key :=
        fun n hm hn he => hne ((ht n hm hn).symm.trans he)
      exact ⟨hasBound_concat_of_ne hb, fun _ ha => ha.concat hb⟩
  refine ⟨h.indexed.modify _ hf, h.listed.modify _ hf, ?_, ?_⟩
  · intro key hnone
    rw [Ledger.find?_modify h.indexed] at hnone
    split_ifs at hnone with he
    · subst he
      rw [Option.map_eq_none_iff] at hnone
      simp [hnone] at hk
    · rw [(hother key he).1]
      exact h.unopened key hnone
  · intro key o' ho'
    rw [Ledger.find?_modify h.indexed] at ho'
    split_ifs at ho' with he
    · subst he
      obtain ⟨o, hfind, rfl⟩ := Option.map_eq_some_iff.mp ho'
      exact ho o hfind (h.opened k o hfind)
    · exact (hother key he).2 o' (h.opened key o' ho')

theorem ensure (h : r.Truthful l led) (k name : String) : r.Truthful l (led.ensure k name) := by
  refine ⟨h.indexed.ensure _ _, h.listed.ensure _ _, ?_, ?_⟩
  · intro key hnone
    rw [Ledger.find?_ensure h.indexed] at hnone
    split_ifs at hnone with he
    exact h.unopened key hnone
  · intro key o ho
    rw [Ledger.find?_ensure h.indexed] at ho
    split_ifs at ho with he
    · subst he
      cases hk : led.find? k with
      | some o' =>
        rw [hk] at ho
        exact Option.some.inj ho ▸ h.opened k o' hk
      | none =>
        rw [hk] at ho
        obtain rfl := Option.some.inj ho
        refine ⟨by simp [Outcome.new], iff_of_false (by simp [Outcome.new]) (h.unopened k hk), ?_⟩
        simp [Outcome.new]
    · exact h.opened key o ho

theorem enter (h : r.Truthful l led) (hn : n.isDecision) (name : String) (e : Evaluation) :
    r.Truthful (l ++ [⟨.entered n, e⟩])
      ((led.ensure (r.key n) name).setStatus (r.key n) .evaluating) := by
  have hs := Ledger.isSome_find?_ensure h.indexed (r.key n) name
  refine (h.ensure (r.key n) name).modify (f := fun o => { o with status := .evaluating }) hs
    (fun _ => rfl) (.inr ⟨_, rfl, by simp⟩) fun o _ ha => ?_
  refine ⟨by simp, ha.bound.trans (hasBound_concat_of_ne (by simp)).symm, fun hr _ => ?_⟩
  exact .inl ⟨l, ⟨.entered n, e⟩, [], n, rfl, ha.bound.mp hr, rfl, hn, rfl⟩

theorem lose (h : r.Truthful l led)
    (hs : led.status k = .evaluating ∨ led.status k = .skipped) {f : Outcome → Outcome}
    (hid : ∀ o, (f o).id = o.id) (hres : ∀ o, (f o).result = o.result)
    (hst : ∀ o, (f o).status ≠ .succeeded) : r.Truthful l (led.modify k f) := by
  refine h.modify (Ledger.find?_isSome_of_ongoing hs) hid (.inl rfl) fun o ho ha => ?_
  have hso : o.status = .evaluating ∨ o.status = .skipped := by simpa [Ledger.status, ho] using hs
  refine ⟨fun hf => absurd hf (hst o), hres o ▸ ha.bound, fun hr _ => .inl ?_⟩
  rw [hres o] at hr
  rcases ha.lost hr (by rcases hso with hso | hso <;> rw [hso] <;> decide) with hre | ⟨hf, -⟩
  · exact hre
  · rcases hso with hso | hso <;> rw [hso] at hf <;> cases hf

theorem keep (h : r.Truthful l led) (hn : n.isDecision) (hk : (led.find? (r.key n)).isSome)
    (v : Value) (e : Evaluation) : r.Truthful (l ++ [⟨.bound n, e⟩])
      (led.modify (r.key n) (·.succeed v)) := by
  refine h.modify (f := (·.succeed v)) hk (fun _ => rfl) (.inr ⟨_, rfl, fun d hm _ => ?_⟩)
    fun o _ ha => ?_
  · rw [← Moment.bound.inj hm]
  · refine ⟨fun _ => rfl, iff_of_true rfl ?_, fun _ hs => absurd rfl hs⟩
    exact hasBound_concat.mpr (.inr ⟨n, rfl, hn, rfl⟩)

theorem keep_knowledge (h : r.Truthful l led) (hn : n.isKnowledge) (e : Evaluation) :
    r.Truthful (l ++ [⟨.bound n, e⟩]) led :=
  h.concat fun d hm => by
    rw [← Moment.bound.inj hm]
    exact Node.not_isDecision hn

theorem reject (h : r.Truthful l led) (k name : String) {m : Message} (hm : m.isDepth) :
    r.Truthful l ((led.ensure k name).modify k (·.reportFailure m .failed)) := by
  have hs := Ledger.isSome_find?_ensure h.indexed k name
  refine (h.ensure k name).modify (f := (·.reportFailure m .failed)) hs (fun _ => rfl) (.inl rfl)
    fun o _ ha => ?_
  exact ⟨by simp [Outcome.reportFailure], ha.bound, fun _ _ =>
    .inr ⟨rfl, m, List.mem_append_right _ List.mem_cons_self, hm⟩⟩

end Truthful

variable {p q : Progress (σ × List (Sighting L))}

theorem Truthful.reportUnresolved (h : r.Truthful p.record p.ledger) (hn : r.Ongoing n p.ledger)
    (name source : String) (d : Diagnostic) :
    r.Truthful (r.recording.reportUnresolved n name source d p).record
      (r.recording.reportUnresolved n name source d p).ledger := by
  rw [record_reportUnresolved]
  refine concat ?_ (by simp)
  unfold Request.reportUnresolved
  dsimp only
  split
  next hd => exact h.lose (hn hd) (fun _ => rfl) (fun _ => rfl) (by simp [Outcome.reportFailure])
  next => exact h

theorem Truthful.opening (h : r.Truthful p.record p.ledger) (n : Node L) :
    r.Truthful (r.recording.opening n p).record (r.recording.opening n p).ledger := by
  rw [record_opening, Progress.ledger_eq, ledger_opening]
  split
  next hn => exact h.enter hn _ _
  next => exact h.concat (by simp)

def Tells (r : Request L σ) (_ : Node L) (p : Progress (σ × List (Sighting L)))
    (x : Resolution × Progress (σ × List (Sighting L))) : Prop :=
  (p.ledger.Indexed → x.2.ledger.Indexed ∧ p.ledger.Keeps none x.2.ledger) ∧
    (r.Truthful p.record p.ledger → r.Truthful x.2.record x.2.ledger)

def TellsOn (r : Request L σ) (n : Node L) (b : Bool) (p q : Progress (σ × List (Sighting L))) :
    Prop :=
  (p.ledger.Indexed → r.recording.Advances n b p.ledger q.ledger) ∧
    (r.Ongoing n p.ledger → r.Truthful p.record p.ledger → r.Truthful q.record q.ledger)

theorem TellsOn.opened {b : Bool} (h : r.TellsOn n b (r.recording.opening n p) q)
    (ht : r.Truthful p.record p.ledger) : r.Truthful q.record q.ledger ∧ r.Ongoing n q.ledger := by
  obtain ⟨hi, -, hs⟩ := advances_opening (r := r.recording) (n := n) ht.indexed
  have hn : r.Ongoing n (r.recording.opening n p).ledger := fun hd => .inl (hs hd)
  exact ⟨h.2 hn (ht.opening n), (h.1 hi).ongoing hn⟩

theorem TellsOn.lost {b : Bool} (h : r.TellsOn n b (r.recording.opening n p) q)
    (ht : r.Truthful p.record p.ledger) (hn : n.isDecision) (m : Option Message) {s : Status}
    (hs : s ≠ .succeeded) :
    r.Truthful (r.recording.watch (.left n) (q.update (·.lose (r.key n) m s))).record
      (r.recording.watch (.left n) (q.update (·.lose (r.key n) m s))).ledger := by
  obtain ⟨htq, hnq⟩ := h.opened ht
  rw [record_watch]
  apply Truthful.concat _ (by simp)
  cases m with
  | none => exact htq.lose (hnq hn) (fun _ => rfl) (fun _ => rfl) fun _ => hs
  | some m => exact htq.lose (hnq hn) (fun _ => rfl) (fun _ => rfl) fun _ => hs

theorem lifts_tells (hk : r.host.KeepsLedger) :
    r.recording.Lifts r.Tells r.Tells r.TellsOn (fun n => r.TellsOn n true) := by
  have h := (lawful_ledger (r := r.recording) hk.recording).lifts
  exact {
    stay n p res hres := ⟨h.stay n p res hres, id⟩
    blank n p hn := ⟨h.blank n p hn, id⟩
    refl n p := ⟨h.refl n p, fun _ ht => ht⟩
    trans hp hs := ⟨h.trans hp.1 hs.1, fun hn ht =>
      hs.2 ((hp.1 ht.indexed).ongoing hn) (hp.2 hn ht)⟩
    unresolved n name id source d p he hd :=
      ⟨h.unresolved n name id source d p he hd, fun hn ht => ht.reportUnresolved hn name source d⟩
    fits n d type p ht hd hr hc := ⟨h.fits n d type p ht hd hr hc, fun _ ht => ht.concat (by simp)⟩
    misfit n d type p name id source g ht he hd hr hc hg := by
      refine ⟨h.misfit n d type p name id source g ht he hd hr hc hg, fun hn ht => ?_⟩
      have hw : r.Truthful (r.recording.watch (.examined n d (r.recording.found n d p)) p).record
          (r.recording.watch (.examined n d (r.recording.found n d p)) p).ledger :=
        ht.concat (by simp)
      exact hw.reportUnresolved hn name source g
    report n m p hm := ⟨h.report n m p hm, fun _ ht => ht⟩
    notify n e p := ⟨h.notify n e p, fun _ ht => ht⟩
    here n d p x hd hu hs hx := ⟨h.here n d p x hd hu hs hx.1, fun _ ht => hx.2 ht⟩
    through n d p a x hd hu hs ha hx :=
      ⟨h.through n d p a x hd hu hs ha hx.1, fun _ ht => hx.2 ht⟩
    call n logic room p q hl hpq hok hres := by
      refine ⟨h.call n logic room p q hl hpq.1 hok hres.1, fun hn ht => ?_⟩
      rw [record_callLogic, ledger_callLogic (r := r.recording) hk.recording]
      exact (hres.2 hn ht).concat (by simp)
    complained n p q m hm hs := ⟨h.complained n p q m hm hs.1, hs.2⟩
    told n p res q e hs := ⟨h.told n p res q e hs.1, hs.2⟩
    skipped n p b q m hn hu hb hs hm hx := ⟨h.skipped n p b q m hn hu hb hs.1 hm hx, fun ht =>
      hs.lost ht hn m (by simp)⟩
    failed n p q m hn hu hb hs hx hg := ⟨h.failed n p q m hn hu hb hs.1 hx hg, fun ht =>
      hs.lost ht hn m (by simp)⟩
    kept n p q v hn hu hb hs := by
      refine ⟨h.kept n p q v hn hu hb hs.1, fun ht => ?_⟩
      obtain ⟨htq, hnq⟩ := hs.opened ht
      rw [record_watch]
      exact (htq.keep hn (Ledger.find?_isSome_of_ongoing (hnq hn)) v _).concat (by simp)
    heard n p e x hn hx := ⟨h.heard n p e x hn hx.1, hx.2⟩
    abandoned n p b q hn ha hu hs := ⟨h.abandoned n p b q hn ha hu hs.1, fun ht =>
      (hs.opened ht).1.concat (by simp)⟩
    ended n p q hn ha hu hs := ⟨h.ended n p q hn ha hu hs.1, fun ht =>
      (hs.opened ht).1.concat (by simp)⟩
    given n p q f hn ha hu hs := ⟨h.given n p q f hn ha hu hs.1, fun ht =>
      ((hs.opened ht).1.keep_knowledge hn _).concat (by simp)⟩ }

theorem floor_tells (hk : r.host.KeepsLedger) : r.recording.Floor r.Tells := by
  have h := (lawful_ledger (r := r.recording) hk.recording).floor
  exact {
    stay n p res hres := ⟨h.stay n p res hres, id⟩
    blank n p hn := ⟨h.blank n p hn, id⟩
    tooDeep n p hn hu hb := ⟨h.tooDeep n p hn hu hb, fun ht => ht.reject _ _ (by
      simp [Diagnostic.isDepth])⟩
    overrun n p hn ha hu := ⟨h.overrun n p hn ha hu, id⟩ }

theorem truthful_start (m : Model L) : r.Truthful [] m.freshLedger := by
  refine ⟨m.indexed_freshLedger, m.listed_freshLedger, fun k _ hb => ?_, fun k o ho => ?_⟩
  · obtain ⟨t, ht, -⟩ := hb
    cases ht
  · obtain ⟨d, -, rfl⟩ := m.mem_outcomes_freshLedger o (Ledger.mem_of_find? ho)
    refine ⟨by simp [Outcome.new], iff_of_false (by simp [Outcome.new]) ?_, by simp [Outcome.new]⟩
    rintro ⟨t, ht, -⟩
    cases ht

theorem truthful_run (hk : r.host.KeepsLedger) (s : Selection) (c : Context) (w : σ) :
    r.Truthful (r.record s c w) (r.run s c w).ledger := by
  have hrun : r.Truthful (r.recording.run s c (w, [])).record
      (r.recording.run s c (w, [])).ledger := by
    refine run_induction (P := fun p => r.Truthful p.record p.ledger) ?_ ?_ fun _ _ h => h
    · exact truthful_start r.model
    · exact fun n p _ h => (visit_of_level (floor_tells hk) (lifts_tells hk) r.maxDepth n p).2 h
  rwa [← run_recording r s c w]

/-- At the end of a request an outcome that says success has a result, and there are results for
those decisions that have got a value in the course of it. If such a decision has no success in
the end, then it was entered again after it had got the value, or was rejected for its depth. -/
theorem results_remain (hk : r.host.KeepsLedger) (s : Selection) (c : Context) (w : σ) :
    ∀ o ∈ (r.run s c w).ledger.outcomes,
      (o.status = .succeeded → o.result.isSome) ∧
      (o.result.isSome ↔ r.HasBound o.id (r.record s c w)) ∧
      (o.result.isSome → o.status ≠ .succeeded → r.Reopened o.id (r.record s c w) ∨
        o.status = .failed ∧ ∃ x ∈ o.messages, x.isDepth) := by
  intro o ho
  have h := truthful_run (r := r) hk s c w
  have ha := h.opened o.id o (h.listed.find? ho)
  exact ⟨ha.present, ha.bound, ha.lost⟩

/-- The desk asks for the total twice, through the prices and through the orders, where there is
no amount: the total is skipped in the end, and its result is that of the first time. -/
theorem results_remain_desk : Host.functions.KeepsLedger ∧
    ∃ o ∈ (Formula.deskRequest.run .all Formula.ordersInput ()).ledger.outcomes,
      o.id = "urn:prices#3" ∧ o.status = .skipped ∧ o.result.isSome ∧
      Formula.deskRequest.Reopened "urn:prices#3"
        (Formula.deskRequest.record .all Formula.ordersInput ()) := by
  have hk : Host.functions.KeepsLedger := Host.functions_quiet.keepsLedger
  obtain ⟨o, ho, hid, hs, hr⟩ :
      ∃ o, (Formula.deskRequest.run .all Formula.ordersInput ()).ledger.outcomes[2]? = some o ∧
        o.id = "urn:prices#3" ∧ o.status = .skipped ∧ o.result.isSome := ⟨_, rfl, rfl, rfl, rfl⟩
  obtain ⟨-, -, hlost⟩ := results_remain (r := Formula.deskRequest) hk .all Formula.ordersInput () o
    (List.mem_of_getElem? ho)
  refine ⟨hk, o, List.mem_of_getElem? ho, hid, hs, hr, ?_⟩
  rcases hlost hr (by rw [hs]; decide) with hre | ⟨hf, -⟩
  · exact hid ▸ hre
  · rw [hs] at hf
    cases hf

/-- Results and success do not always go together, not even in a model that was built. -/
theorem result_without_success : Formula.desk.Built ∧ Host.functions.Quiet ∧
    ¬∀ o ∈ (Formula.deskRequest.run .all Formula.ordersInput ()).ledger.outcomes,
      o.result.isSome ↔ o.status = .succeeded := by
  refine ⟨Formula.desk_built, Host.functions_quiet, fun h => ?_⟩
  obtain ⟨o, ho, hs, hr⟩ :
      ∃ o, (Formula.deskRequest.run .all Formula.ordersInput ()).ledger.outcomes[2]? = some o ∧
        o.status = .skipped ∧ o.result.isSome := ⟨_, rfl, rfl, rfl⟩
  have hsucc := (h o (List.mem_of_getElem? ho)).mp hr
  rw [hs] at hsucc
  cases hsucc

end Request

end DecisionGraph
