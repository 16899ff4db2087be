import DecisionGraph.Proofs.Findings
import DecisionGraph.Proofs.Formulas
import DecisionGraph.Proofs.Frozen
import DecisionGraph.Proofs.Growth

namespace DecisionGraph

variable {L σ : Type}

namespace Request

variable {r : Request L σ} {n d : Node L} {b : Bool} {seen : List (Sighting L)} {t : Sighting L}
  {p q s : Progress (σ × List (Sighting L))}

/-- What is in place when the logic of `n` is about to run. -/
structure Ready (r : Request L σ) (n : Node L) (seen : List (Sighting L)) (t : Sighting L) :
    Prop where
  served : ∀ e ∈ n.info.dependencies.toList, ∃ d, r.model.node? e.2 = some d ∧
    r.Served n d t.evaluation.context
  findings : r.Findings n true seen
  examined : r.typeCheck = true → ∀ d ∈ r.model.requirements n, ∀ type, d.role = .input type →
    ∃ u ∈ seen, ∃ v, u.moment = .examined n d v

/-- Logic runs when its node is ready. A decision that has had a problem with a dependency ends
without having run its logic, and is skipped. -/
def Guards (r : Request L σ) (before : List (Sighting L)) (t : Sighting L) : Prop :=
  match t.moment with
  | .calling n => ∃ seen above, activities before = ⟨n, seen⟩ :: above ∧ r.Ready n seen t
  | .left n => n.isDecision → ∃ seen above, activities before = ⟨n, seen⟩ :: above ∧
      (seen.any Sighting.isUnresolved → r.Findings n false seen ∧
        t.evaluation.ledger.status (r.key n) = .skipped)
  | _ => True

/-- Decisions that were left as skipped are skipped still. -/
def Lasts (r : Request L σ) (l : List (Sighting L)) (ledger : Ledger) : Prop :=
  ∀ t ∈ l, ∀ n, t.moment = .left n → t.evaluation.ledger.status (r.key n) = .skipped →
    ledger.status (r.key n) = .skipped

namespace Lasts

variable {l : List (Sighting L)} {led led' : Ledger}

theorem concat (h : r.Lasts l led) (ht : t.evaluation.ledger = led) : r.Lasts (l ++ [t]) led := by
  intro u hu n hm hs
  rcases List.mem_append.mp hu with hu | hu
  · exact h u hu n hm hs
  · rw [List.mem_singleton.mp hu, ht] at hs
    exact hs

theorem of_keeps (h : r.Lasts l led) (hk : led.Keeps (r.ownKey? n) led')
    (hown : n.isDecision → led.status (r.key n) = .skipped → led'.status (r.key n) = .skipped) :
    r.Lasts l led' := by
  intro u hu k hm hs
  have hl := h u hu k hm hs
  -- The key may be that of the node in progress, which alone may change it.
  by_cases ho : r.ownKey? n = some (r.key k)
  · obtain ⟨hn, hkey⟩ := of_ownKey? ho
    rw [← hkey] at hl ⊢
    exact hown hn hl
  · have hb : (led.status (r.key k)).blocksReentry := by rw [hl]; rfl
    rw [Ledger.status_eq_of_find? (hk _ ho hb), hl]

theorem of_none (h : r.Lasts l led) (hk : led.Keeps none led') : r.Lasts l led' := by
  intro u hu k hm hs
  have hl := h u hu k hm hs
  have hb : (led.status (r.key k)).blocksReentry := by rw [hl]; rfl
  rw [Ledger.status_eq_of_find? (hk _ (by simp) hb), hl]

theorem advances (h : r.Lasts l led) (ha : r.Advances n b led led') : r.Lasts l led' := by
  apply h.of_keeps ha.keeps
  intro hn hs
  rw [ha.status hn (.inr hs), hs]
  cases b <;> rfl

end Lasts

/-- All is well so far. -/
structure Guarded (r : Request L σ) (p : Progress (σ × List (Sighting L))) : Prop where
  indexed : p.ledger.Indexed
  throughout : Throughout r.Guards p.record
  lasts : r.Lasts p.record p.ledger

namespace Guarded

theorem still (h : r.Guarded p) (hr : q.record = p.record) (hl : q.ledger = p.ledger) :
    r.Guarded q :=
  ⟨hl ▸ h.indexed, hr ▸ h.throughout, by rw [hr, hl]; exact h.lasts⟩

theorem watch (h : r.Guarded p) {m : Moment L} (hm : r.Guards p.record ⟨m, p.evaluation⟩) :
    r.Guarded (r.recording.watch m p) :=
  ⟨h.indexed, h.throughout.concat hm, h.lasts.concat rfl⟩

theorem reportUnresolved (h : r.Guarded p) (name source : String) (g : Diagnostic) :
    r.Guarded (r.recording.reportUnresolved n name source g p) := by
  have ha : r.Advances n false p.ledger
      (r.recording.reportUnresolved n name source g p).ledger := by
    obtain ⟨hi, hk, hs⟩ :=
      advances_reportUnresolved (r := r.recording) (n := n) h.indexed name source g
    exact ⟨hi, hk, hs⟩
  refine ⟨ha.indexed, ?_, ?_⟩
  · rw [record_reportUnresolved]
    exact h.throughout.concat trivial
  · rw [record_reportUnresolved]
    exact (h.lasts.advances ha).concat rfl

theorem opening (h : r.Guarded p)
    (hb : n.isDecision → (p.ledger.status (r.key n)).blocksReentry = false) :
    r.Guarded (r.recording.opening n p) := by
  obtain ⟨hi, hk, -⟩ := advances_opening (r := r.recording) (n := n) h.indexed
  refine ⟨hi, ?_, ?_⟩
  · rw [record_opening]
    exact h.throughout.concat trivial
  · rw [record_opening]
    refine (h.lasts.of_keeps hk fun hn hs => ?_).concat rfl
    have hb := hb hn
    rw [hs] at hb
    cases hb

theorem opening_knowledge (h : r.Guarded p) (hn : n.isKnowledge) :
    r.Guarded (r.recording.opening n p) :=
  h.opening fun hd => absurd hd (Node.not_isDecision hn)

theorem conclude (h : r.Guarded q) (hn : n.isDecision) (hr : s.record = q.record)
    {f : Outcome → Outcome} (hl : s.ledger = q.ledger.modify (r.key n) f)
    (hf : ∀ o, (f o).id = o.id)
    (hs : q.ledger.status (r.key n) = .evaluating ∨ ∀ o, (f o).status = .skipped) :
    r.Guarded s := by
  have hkeeps : q.ledger.Keeps (r.ownKey? n) s.ledger := by
    rw [hl, ownKey?_of_decision hn]
    exact (Ledger.Keeps.refl _ _).modify h.indexed f
  refine ⟨hl ▸ h.indexed.modify _ hf, hr ▸ h.throughout, ?_⟩
  rw [hr]
  apply h.lasts.of_keeps hkeeps
  intro _ hsk
  rcases hs with hs | hs
  · rw [hs] at hsk
    cases hsk
  · rw [hl]
    exact Ledger.status_modify_self h.indexed
      (Ledger.find?_isSome_of_status (by rw [hsk]; decide)) hs

theorem leave_knowledge (h : r.Guarded q) (hn : n.isKnowledge) (hr : s.record = q.record)
    (hl : s.ledger = q.ledger) : r.Guarded (r.recording.watch (.left n) s) :=
  (h.still hr hl).watch fun hd => absurd hd (Node.not_isDecision hn)

theorem lose (h : r.Guarded q) (hn : n.isDecision) (m : Option Message) {st : Status}
    (hs : q.ledger.status (r.key n) = .evaluating ∨ st = .skipped) :
    r.Guarded (q.update (·.lose (r.key n) m st)) := by
  cases m with
  | none => exact h.conclude hn rfl rfl (fun _ => rfl) (hs.imp_right fun hst _ => hst)
  | some m => exact h.conclude hn rfl rfl (fun _ => rfl) (hs.imp_right fun hst _ => hst)

end Guarded

section guards

variable {above : List (Activity L)}

theorem guards_left_skipped {e : Evaluation} {l : List (Sighting L)}
    (hseen : activities l = ⟨n, seen⟩ :: above) (hfind : r.Findings n b seen)
    (hs : e.ledger.status (r.key n) = .skipped) : r.Guards l ⟨.left n, e⟩ := by
  refine fun _ => ⟨seen, above, hseen, fun hu => ⟨?_, hs⟩⟩
  cases b with
  | false => exact hfind
  | true => simp [hfind.unresolved] at hu

theorem guards_left_called {e : Evaluation} {l : List (Sighting L)}
    (hseen : activities l = ⟨n, seen⟩ :: above)
    (hu : seen.any Sighting.isUnresolved = false) : r.Guards l ⟨.left n, e⟩ :=
  fun _ => ⟨seen, above, hseen, fun hu' => absurd hu' (by simp [hu])⟩

theorem Guarded.leave_bound (h : r.Guarded p) (hseen : activities p.record = ⟨n, seen⟩ :: above)
    (hu : seen.any Sighting.isUnresolved = false) :
    r.Guarded (r.recording.watch (.left n) (r.recording.watch (.bound n) p)) := by
  have hb := h.watch (m := .bound n) trivial
  have hs := activities_concat_inner (t := ⟨.bound n, p.evaluation⟩) rfl hseen
  have hu' : (seen ++ [(⟨.bound n, p.evaluation⟩ : Sighting L)]).any Sighting.isUnresolved =
      false := by
    rw [List.any_append, hu]
    rfl
  exact hb.watch (guards_left_called hs hu')

end guards

/-- A node is ready once its dependencies came out resolved. -/
theorem ready_of_resolve (hq : r.host.Quiet) {room : Nat}
    {before : List (Sighting L)} {above : List (Activity L)}
    (hbefore : activities q.record = ⟨n, before⟩ :: above)
    (hok : (r.recording.resolve (r.recording.visit room) n q).1 = true)
    (hseen : activities (r.recording.resolve (r.recording.visit room) n q).2.record =
      ⟨n, seen⟩ :: above) (hf : r.Findings n true seen) :
    r.Ready n seen
      ⟨.calling n, (r.recording.resolve (r.recording.visit room) n q).2.evaluation⟩ := by
  refine ⟨served_of_resolve (r := r.recording) hq.recording hok, hf, ?_⟩
  intro ht d hd type hr
  obtain ⟨e, he, hid⟩ := List.mem_filterMap.mp hd
  obtain ⟨seen', above', hs, hx⟩ :=
    examined_of_resolveList (fun _ he => he) hbefore ht hok e he d type hid hr
  obtain ⟨hs, -⟩ := List.cons.inj (hseen.symm.trans hs)
  rw [(Activity.mk.inj hs).2]
  exact hx

theorem status_of_advances (hn : n.isDecision) (hi : p.ledger.Indexed)
    (h : r.recording.Advances n b (r.recording.opening n p).ledger q.ledger) :
    q.ledger.status (r.key n) = if b then .evaluating else .skipped := by
  obtain ⟨-, -, ho⟩ := advances_opening (r := r.recording) (n := n) hi
  have hs := h.status hn (.inl (ho hn))
  rwa [ho hn] at hs

/-- What a decision in progress has behind it since its evaluation was opened. -/
theorem Guarded.since_opening (hg : r.Guarded p) (hn : n.isDecision)
    (hb : (p.ledger.status (r.key n)).blocksReentry = false) {P : List (Sighting L) → Prop}
    (hs : ((∃ new, Sees n new (r.recording.opening n p) q ∧ P new) ∧
      ((r.recording.opening n p).ledger.Indexed →
        r.recording.Advances n b (r.recording.opening n p).ledger q.ledger)) ∧
      (r.Guarded (r.recording.opening n p) → r.Guarded q)) :
    r.Guarded q ∧ q.ledger.status (r.key n) = (if b then .evaluating else .skipped) ∧
      ∃ seen above, activities q.record = ⟨n, seen⟩ :: above ∧ P seen := by
  obtain ⟨⟨⟨seen, hsees, hseen⟩, hadv⟩, hguard⟩ := hs
  have hgo := hg.opening fun _ => hb
  exact ⟨hguard hgo, status_of_advances hn hg.indexed (hadv hgo.indexed), seen, _,
    hsees _ _ (activities_opening r n p), hseen⟩

/-- Visits keep the guard. -/
theorem lawful_guards (hq : r.host.Quiet) :
    r.recording.Lawful
      (fun _ p x => (activities x.2.record = activities p.record ∧ (p.ledger.Indexed →
        x.2.ledger.Indexed ∧ p.ledger.Keeps none x.2.ledger)) ∧ (r.Guarded p → r.Guarded x.2))
      (fun n b p q => ((∃ new, Sees n new p q ∧ r.Findings n b new) ∧
        (p.ledger.Indexed → r.recording.Advances n b p.ledger q.ledger)) ∧
        (r.Guarded p → r.Guarded q))
      (fun n p q => ((∃ new, Sees n new p q ∧ new.any Sighting.isUnresolved = false) ∧
        (p.ledger.Indexed → r.recording.Advances n true p.ledger q.ledger)) ∧
        (r.Guarded p → r.Guarded q)) := by
  -- The guard needs the findings and the ledger at every act, so the three laws go together.
  have h := lawful_findings (r := r).and (lawful_ledger hq.keepsLedger.recording)
  exact {
    refl n p := ⟨h.refl n p, fun hg => hg⟩
    trans hp hs := ⟨h.trans hp.1 hs.1, fun hg => hs.2 (hp.2 hg)⟩
    unresolved n name id source d p he :=
      ⟨h.unresolved n name id source d p he, fun hg => hg.reportUnresolved name source d⟩
    fits n d type p ht hd hr hc :=
      ⟨h.fits n d type p ht hd hr hc, fun hg => hg.watch (m := .examined n d _) trivial⟩
    misfit n d type p name id source g ht he hd hr hc :=
      ⟨h.misfit n d type p name id source g ht he hd hr hc, fun hg =>
        (hg.watch (m := .examined n d _) trivial).reportUnresolved name source g⟩
    report n m p := ⟨h.report n m p, fun hg => hg.still rfl rfl⟩
    notify n e p := ⟨h.notify n e p, fun hg => hg.still rfl rfl⟩
    here n d p x hd hu hs hx := ⟨h.here n d p x hd hu hs hx.1, hx.2⟩
    through n d p a x hd hu hs ha hx :=
      ⟨h.through n d p a x hd hu hs ha hx.1, fun hg => (hx.2 (hg.still rfl rfl)).still rfl rfl⟩
    call n l room p q hl hpq hok hres := by
      refine ⟨h.call n l room p q hl hpq.1 hok hres.1, ?_⟩
      intro hg
      obtain ⟨before, hb, -⟩ := hpq.1.1
      obtain ⟨seen, hs, hf⟩ := hres.1.1
      have hseen := hs _ _ (activities_opening r n p)
      have hready := ready_of_resolve hq (hb _ _ (activities_opening r n p)) hok hseen hf
      -- The logic leaves the ledger alone, so that what has lasted so far lasts.
      have he := evaluation_callLogic (r := r.recording) hq.recording n l
        (r.recording.resolve (r.recording.visit room) n q).2
      have hw := (hres.2 hg).watch (m := .calling n) ⟨_, _, hseen, hready⟩
      exact hw.still rfl (congrArg Evaluation.ledger he)
    complained n p q m hs := ⟨h.complained n p q m hs.1, fun hg => (hs.2 hg).still rfl rfl⟩
    stay n p res hres := ⟨h.stay n p res hres, fun hg => hg⟩
    told n p res q e hs := ⟨h.told n p res q e hs.1, fun hg => (hs.2 hg).still rfl rfl⟩
    tooDeep n p d hn hu hb := by
      refine ⟨h.tooDeep n p d hn hu hb, ?_⟩
      intro hg
      obtain ⟨hi, hk⟩ := (h.tooDeep n p d hn hu hb).2 hg.indexed
      exact ⟨hi, hg.throughout, hg.lasts.of_none hk⟩
    skipped n p b q m hn hu hb hs := by
      refine ⟨h.skipped n p b q m hn hu hb hs.1, ?_⟩
      intro hg
      obtain ⟨hgq, hstatus, seen, above, hseen, hf⟩ := hg.since_opening hn hb hs
      have hk : (q.ledger.find? (r.key n)).isSome :=
        Ledger.find?_isSome_of_status (by rw [hstatus]; cases b <;> decide)
      have hlost : (q.update (·.lose (r.key n) m .skipped)).ledger.status (r.key n) =
          .skipped := by
        cases m <;> exact Ledger.status_modify_self hgq.indexed hk fun _ => rfl
      exact (hgq.lose hn m (.inr rfl)).watch (guards_left_skipped hseen hf hlost)
    failed n p q m hn hu hb hs := by
      refine ⟨h.failed n p q m hn hu hb hs.1, ?_⟩
      intro hg
      obtain ⟨hgq, hstatus, seen, above, hseen, hres⟩ := hg.since_opening hn hb hs
      exact (hgq.lose hn m (.inl hstatus)).watch (guards_left_called hseen hres)
    kept n p q v hn hu hb hs := by
      refine ⟨h.kept n p q v hn hu hb hs.1, ?_⟩
      intro hg
      obtain ⟨hgq, hstatus, seen, above, hseen, hres⟩ := hg.since_opening hn hb hs
      have hgk : r.Guarded (q.update fun e => (e.onContext (·.set n.info.name v)).onLedger
          (·.modify (r.key n) (·.succeed v))) :=
        hgq.conclude hn rfl rfl (fun _ => rfl) (.inl hstatus)
      exact hgk.leave_bound hseen hres
    reported n p m hn := ⟨h.reported n p m hn, fun hg => hg.still rfl rfl⟩
    heard n p e x hn hx := ⟨h.heard n p e x hn hx.1, fun hg => hx.2 (hg.still rfl rfl)⟩
    abandoned n p b q hn ha hu hs := ⟨h.abandoned n p b q hn ha hu hs.1, fun hg =>
      (hs.2 (hg.opening_knowledge hn)).leave_knowledge hn rfl rfl⟩
    ended n p q hn ha hu hs := ⟨h.ended n p q hn ha hu hs.1, fun hg =>
      (hs.2 (hg.opening_knowledge hn)).leave_knowledge hn rfl rfl⟩
    given n p q f hn ha hu hs := ⟨h.given n p q f hn ha hu hs.1, fun hg => by
      have hgq := hs.2 (hg.opening_knowledge hn)
      have hgs : r.Guarded (q.update (·.onContext (·.set n.info.name (.function f)))) :=
        hgq.still rfl rfl
      have hgb := hgs.watch (m := .bound n) trivial
      exact hgb.leave_knowledge hn rfl rfl⟩ }

/-- A request keeps the guard, and ends with no node in progress. -/
theorem guarded_run (hq : r.host.Quiet) (s : Selection) (c : Context) (w : σ) :
    r.Guarded (r.recording.run s c (w, [])) ∧ activities (r.record s c w) = [] := by
  refine run_induction (P := fun p => r.Guarded p ∧ activities p.record = []) ?_ ?_ ?_
  · exact ⟨⟨r.model.indexed_freshLedger, .nil, fun t ht => nomatch ht⟩, rfl⟩
  · rintro n p - ⟨hg, ha⟩
    obtain ⟨⟨hv, -⟩, hg'⟩ := (lawful_guards hq).visit r.maxDepth n p
    exact ⟨hg' hg, hv.trans ha⟩
  · rintro d p ⟨hg, ha⟩
    exact ⟨hg.still rfl rfl, ha⟩

/-- Whenever logic runs, each decision and each input among its node's dependencies has a value
that the node can see, and when types are checked each of its inputs has been examined and none
was found to break its type. A decision with an unresolved dependency does not run its logic, and
is skipped then and at the end of the request. -/
theorem guarded_invocation (hq : r.host.Quiet) (s : Selection) (c : Context) (w : σ) :
    (∀ before t after n, r.record s c w = before ++ t :: after → t.moment = .calling n →
      ∃ seen above, activities before = ⟨n, seen⟩ :: above ∧ r.Ready n seen t) ∧
    (∀ before t after n, r.record s c w = before ++ t :: after → t.moment = .left n →
      n.isDecision → ∃ seen above, activities before = ⟨n, seen⟩ :: above ∧
        (seen.any Sighting.isUnresolved → seen.any Sighting.isCalling = false ∧
          t.evaluation.ledger.status (r.key n) = .skipped ∧
          (r.run s c w).ledger.status (r.key n) = .skipped)) ∧
    activities (r.record s c w) = [] := by
  obtain ⟨hg, ha⟩ := guarded_run hq s c w
  refine ⟨?_, ?_, ha⟩
  · intro before t after n hl hm
    have ht := hg.throughout before t after hl
    unfold Guards at ht
    rw [hm] at ht
    exact ht
  · intro before t after n hl hm hn
    have ht := hg.throughout before t after hl
    unfold Guards at ht
    rw [hm] at ht
    obtain ⟨seen, above, hseen, hs⟩ := ht hn
    refine ⟨seen, above, hseen, ?_⟩
    intro hu
    obtain ⟨hf, hst⟩ := hs hu
    have hmem : t ∈ r.record s c w := by rw [hl]; simp
    have hend := hg.lasts t hmem n hm hst
    rw [← run_recording]
    exact ⟨hf.not_calling, hst, hend⟩

/-- When orders are due, the net price is ready for its logic: the amount was examined. Of two
prices that need each other, the second one lacks the first, and is skipped without a call. -/
theorem guarded_invocation_orders :
    (∃ before t after seen above,
      Formula.ordersRecord = before ++ t :: after ∧ t.moment = .calling Formula.net ∧
      activities before = ⟨Formula.net, seen⟩ :: above ∧
      Formula.ordersRequest.Ready Formula.net seen t) ∧
    ∃ before t after seen above,
      Formula.circularRecord = before ++ t :: after ∧ t.moment = .left Formula.discount ∧
      activities before = ⟨Formula.discount, seen⟩ :: above ∧
      seen.map Sighting.moment = [.unresolved Formula.discount "price"] ∧
      seen.any Sighting.isCalling = false ∧
      (Formula.circularRequest.run .all .empty ()).ledger.status
        (Formula.circularRequest.key Formula.discount) = .skipped := by
  constructor
  · have hl : Formula.ordersRecord = Formula.ordersRecord.take 4 ++
        Formula.ordersRecord[4] :: Formula.ordersRecord.drop 5 := rfl
    obtain ⟨hcalled, -⟩ := guarded_invocation (r := Formula.ordersRequest)
      Host.functions_quiet .all Formula.ordersInput ()
    obtain ⟨seen, above, ha, hr⟩ := hcalled _ _ _ Formula.net hl rfl
    exact ⟨_, _, _, seen, above, hl, rfl, ha, hr⟩
  · have hl : Formula.circularRecord = Formula.circularRecord.take 3 ++
        Formula.circularRecord[3] :: Formula.circularRecord.drop 4 := rfl
    obtain ⟨-, hleft, -⟩ := guarded_invocation (r := Formula.circularRequest)
      Host.functions_quiet .all .empty ()
    obtain ⟨seen, above, ha, hskipped⟩ := hleft _ _ _ Formula.discount hl rfl rfl
    obtain ⟨rest, hnow⟩ : ∃ rest, activities (Formula.circularRecord.take 3) =
      ⟨Formula.discount, [Formula.circularRecord[2]]⟩ :: rest := ⟨_, rfl⟩
    obtain ⟨hseen, -⟩ := List.cons.inj (ha.symm.trans hnow)
    obtain rfl : seen = [Formula.circularRecord[2]] := congrArg Activity.seen hseen
    obtain ⟨hfree, -, hend⟩ := hskipped rfl
    exact ⟨_, _, _, _, above, hl, rfl, ha, rfl, hfree, hend⟩

end Request

end DecisionGraph
