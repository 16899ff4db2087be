import DecisionGraph.Proofs.Chronicle
import DecisionGraph.Proofs.Unmarked

namespace DecisionGraph

variable {L σ : Type}

namespace Request

variable {r : Request L σ} {n d : Node L} {k : String} {o : Outcome}
  {messages messages' : List Message} {l l' : List (Entry L σ)}

/-- The logic of a decision with this key was called, and answered that it has failed. -/
def GaveUp (r : Request L σ) (k : String) (l : List (Entry L σ)) : Prop :=
  ∃ before x y after n logic e, l = before ++ x :: y :: after ∧ x.mark = .seen ⟨.calling n, e⟩ ∧
    y.mark = .answered ∧ n.isDecision ∧ r.key n = k ∧ n.role.logic? = some logic ∧
    (r.host.answer r.model logic e y.before).1 = .ok .failure

theorem GaveUp.mono (h : r.GaveUp k l) (hl : l <+: l') : r.GaveUp k l' := by
  obtain ⟨before, x, y, after, n, logic, e, rfl, hx⟩ := h
  obtain ⟨new, rfl⟩ := hl
  exact ⟨before, x, y, after ++ new, n, logic, e, by simp, hx⟩

/-- The outcome under a key fits the messages of its request and the chronicle of it so far. -/
structure Matched (r : Request L σ) (messages : List Message) (l : List (Entry L σ)) (k : String)
    (o : Outcome) : Prop where
  among : o.messages.Sublist messages
  unhappy : o.messages ≠ [] → o.status = .failed ∨ o.status = .skipped
  skipped : o.status = .skipped → o.messages ≠ []
  failed : o.status = .failed → o.messages = [] → r.GaveUp k l

namespace Matched

theorem mono (h : r.Matched messages l k o) (hm : messages <+: messages') (hl : l <+: l') :
    r.Matched messages' l' k o :=
  ⟨h.among.trans hm.sublist, h.unhappy, h.skipped, fun hs he => (h.failed hs he).mono hl⟩

theorem silent (h : r.Matched messages l k o) (hf : o.status ≠ .failed)
    (hs : o.status ≠ .skipped) : o.messages = [] := by
  by_contra hne
  rcases h.unhappy hne with he | he
  · exact hf he
  · exact hs he

theorem new (name : String) : r.Matched messages l k (.new k name) :=
  ⟨List.nil_sublist _, fun h => absurd rfl h, nofun, nofun⟩

theorem report (h : r.Matched messages l k o) (m : Message) {s : Status}
    (hs : s = .failed ∨ s = .skipped) :
    r.Matched (messages ++ [m]) l k (o.reportFailure m s) := by
  have hne : (o.reportFailure m s).messages ≠ [] := List.append_ne_nil_of_right_ne_nil _ (by simp)
  exact ⟨h.among.append (.refl [m]), fun _ => hs, fun _ => hne, fun _ he => absurd he hne⟩

/-- An outcome that says nothing may get another status than that of a skipped decision. -/
theorem settle (h : r.Matched messages l k o) (hf : o.status ≠ .failed)
    (hs : o.status ≠ .skipped) {o' : Outcome} (hm : o'.messages = o.messages)
    (hs' : o'.status ≠ .skipped) (hg : o'.status = .failed → r.GaveUp k l) :
    r.Matched messages l k o' := by
  have he : o'.messages = [] := hm.trans (h.silent hf hs)
  exact ⟨he ▸ List.nil_sublist _, fun hne => absurd he hne, fun h => absurd h hs',
    fun hf _ => hg hf⟩

end Matched

variable {p q s : Progress (σ × List (Entry L σ))}

/-- All outcomes fit the messages and the chronicle. -/
structure Reported (r : Request L σ) (p : Progress (σ × List (Entry L σ))) : Prop where
  indexed : p.ledger.Indexed
  listed : p.ledger.Listed
  matched : ∀ k o, p.ledger.find? k = some o → r.Matched p.evaluation.messages p.world.2 k o

structure Onward (p q : Progress (σ × List (Entry L σ))) : Prop where
  messages : p.Precedes q
  chronicle : p.world.2 <+: q.world.2

theorem Onward.of_eq (hm : q.evaluation.messages = p.evaluation.messages)
    (hw : q.world = p.world) : Onward p q :=
  ⟨.of_eq hm, by rw [hw]⟩

namespace Reported

/-- What leaves the ledger alone leaves its outcomes fitting. -/
theorem still (h : r.Reported p) (hq : Onward p q) (hl : q.ledger = p.ledger) : r.Reported q :=
  ⟨hl ▸ h.indexed, hl ▸ h.listed, fun k o ho =>
    (h.matched k o (hl ▸ ho)).mono hq.messages hq.chronicle⟩

theorem watch (h : r.Reported p) (m : Moment L) : r.Reported (r.chronicling.watch m p) :=
  h.still ⟨.of_eq rfl, _, rfl⟩ rfl

theorem notify (h : r.Reported p) (e : Event) : r.Reported (r.chronicling.notify e p) :=
  h.still ⟨.of_eq rfl, _, rfl⟩ rfl

theorem modify (h : r.Reported p) {f : Outcome → Outcome} (hf : ∀ o, (f o).id = o.id)
    (hq : Onward p q) (hl : q.ledger = p.ledger.modify k f)
    (ho : ∀ o, p.ledger.find? k = some o →
      r.Matched q.evaluation.messages q.world.2 k (f o)) : r.Reported q := by
  refine ⟨hl ▸ h.indexed.modify k hf, hl ▸ h.listed.modify k hf, fun key o' ho' => ?_⟩
  rw [hl, Ledger.find?_modify h.indexed] at ho'
  split_ifs at ho' with he
  · subst he
    obtain ⟨o, hfind, rfl⟩ := Option.map_eq_some_iff.mp ho'
    exact ho o hfind
  · exact (h.matched key o' ho').mono hq.messages hq.chronicle

theorem ensure (h : r.Reported p) (k name : String) :
    r.Reported (p.update (·.onLedger (·.ensure k name))) := by
  refine ⟨h.indexed.ensure k name, h.listed.ensure k name, fun key o ho => ?_⟩
  have ho' : (p.ledger.ensure k name).find? key = some o := ho
  rw [Ledger.find?_ensure h.indexed] at ho'
  split_ifs at ho' with he
  · subst he
    cases hk : p.ledger.find? k with
    | some o' =>
      rw [hk] at ho'
      exact Option.some.inj ho' ▸ h.matched k o' hk
    | none =>
      rw [hk] at ho'
      exact Option.some.inj ho' ▸ Matched.new name
  · exact h.matched key o ho'

theorem fail (h : r.Reported p) (k : String) (m : Message) {s : Status}
    (hs : s = .failed ∨ s = .skipped) : r.Reported (p.update (·.fail k m s)) :=
  h.modify (f := (·.reportFailure m s)) (fun _ => rfl) ⟨.of_append rfl, List.prefix_rfl⟩ rfl
    fun o ho => (h.matched k o ho).report m hs

theorem settle (h : r.Reported p) (hf : p.ledger.status k ≠ .failed)
    (hs : p.ledger.status k ≠ .skipped) {f : Outcome → Outcome} (hid : ∀ o, (f o).id = o.id)
    (hm : ∀ o, (f o).messages = o.messages) (hs' : ∀ o, (f o).status ≠ .skipped)
    (hg : ∀ o, (f o).status = .failed → r.GaveUp k p.world.2)
    (hmq : q.evaluation.messages = p.evaluation.messages) (hw : q.world = p.world)
    (hl : q.ledger = p.ledger.modify k f) : r.Reported q := by
  refine h.modify hid (.of_eq hmq hw) hl fun o ho => ?_
  rw [Ledger.status_of_find? ho] at hf hs
  rw [hmq, hw]
  exact (h.matched k o ho).settle hf hs (hm o) (hs' o) (hg o)

theorem skip (h : r.Reported p) (hk : p.ledger.status k = .skipped) :
    r.Reported (p.update (·.onLedger (·.setStatus k .skipped))) := by
  refine h.modify (f := fun o => { o with status := .skipped }) (fun _ => rfl) (.of_eq rfl rfl) rfl
    fun o ho => ?_
  have hst : o.status = .skipped := (Ledger.status_of_find? ho).symm.trans hk
  have hm := h.matched k o ho
  exact ⟨hm.among, fun _ => .inr rfl, fun _ => hm.skipped hst, nofun⟩

theorem reportUnresolved (h : r.Reported p) (n : Node L) (name source : String) (g : Diagnostic) :
    r.Reported (r.chronicling.reportUnresolved n name source g p) := by
  unfold Request.reportUnresolved
  split
  · exact (h.fail (r.key n) _ (.inr rfl)).watch _
  · exact (h.still (q := p.update _) ⟨.of_append rfl, List.prefix_rfl⟩ rfl).watch _

theorem callLogic (h : r.Reported p) (hk : r.host.KeepsLedger) (ha : r.host.Appends) (n : Node L)
    (logic : L) : r.Reported (r.chronicling.callLogic n logic p).2 :=
  (h.watch (.calling n)).still ⟨ha _ _ _ _, _, rfl⟩
    (ledger_callLogic (r := r.chronicling) hk.chronicling n logic p)

theorem opening (h : r.Reported p)
    (hb : n.isDecision → (p.ledger.status (r.key n)).blocksReentry = false) :
    r.Reported (r.chronicling.opening n p) := by
  cases hn : n.isDecision with
  | true =>
    have he := h.ensure (r.key n) n.info.name
    have hst : (p.ledger.ensure (r.key n) n.info.name).status (r.key n) =
        p.ledger.status (r.key n) := Ledger.status_ensure h.indexed _ _ _
    have hfree (st : Status) (hbar : st.blocksReentry = true) :
        (p.ledger.ensure (r.key n) n.info.name).status (r.key n) ≠ st := by
      rintro rfl
      rw [hst, hb hn] at hbar
      cases hbar
    have hbegun := he.settle (k := r.key n) (f := fun o => { o with status := .evaluating })
      (q := (p.update (·.onLedger (·.ensure (r.key n) n.info.name))).update
        (·.onLedger (·.setStatus (r.key n) .evaluating)))
      (hfree .failed rfl) (hfree .skipped rfl) (fun _ => rfl) (fun _ => rfl) nofun nofun rfl rfl rfl
    rw [opening_of_decision hn]
    exact hbegun.watch _
  | false =>
    have henter : r.Reported (p.update (·.enter (r.key n))) :=
      h.still (.of_eq (Evaluation.messages_enter ..) rfl) (Evaluation.ledger_enter ..)
    have hn' : ¬n.isDecision := by simp [hn]
    rw [Request.opening, if_neg hn']
    exact henter.watch _

end Reported

def Accords (r : Request L σ) (_ : Node L) (p : Progress (σ × List (Entry L σ)))
    (x : Resolution × Progress (σ × List (Entry L σ))) : Prop :=
  (p.ledger.Indexed → x.2.ledger.Indexed ∧ p.ledger.Keeps none x.2.ledger) ∧
    (r.Reported p → r.Reported x.2)

def AccordsOn (r : Request L σ) (n : Node L) (b : Bool)
    (p q : Progress (σ × List (Entry L σ))) : Prop :=
  (p.ledger.Indexed → r.chronicling.Advances n b p.ledger q.ledger) ∧ (r.Reported p → r.Reported q)

theorem AccordsOn.opened {b : Bool} (h : r.AccordsOn n b (r.chronicling.opening n p) q)
    (hp : r.Reported p) (hb : n.isDecision → (p.ledger.status (r.key n)).blocksReentry = false) :
    r.Reported q ∧
      (n.isDecision → q.ledger.status (r.key n) = if b then .evaluating else .skipped) := by
  obtain ⟨hi, -, hs⟩ := advances_opening (r := r.chronicling) (n := n) hp.indexed
  refine ⟨h.2 (hp.opening hb), fun hn => ?_⟩
  have hst := (h.1 hi).status hn (.inl (hs hn))
  rwa [hs hn] at hst

theorem gaveUp_of_callLogic {logic : L} (hn : n.isDecision) (hr : n.role.logic? = some logic)
    (h : r.chronicling.callLogic n logic p = (.ok .failure, q)) : r.GaveUp (r.key n) q.world.2 := by
  obtain ⟨ha, rfl⟩ := Prod.mk.inj h
  exact ⟨p.world.2, _, _, [], n, logic, p.evaluation, List.append_assoc .., rfl, rfl, hn, rfl, hr,
    ha⟩

theorem lifts_accords (hk : r.host.KeepsLedger) (ha : r.host.Appends) :
    r.chronicling.Lifts r.Accords r.Accords r.AccordsOn (fun n => r.AccordsOn n true) := by
  have h := (lawful_ledger (r := r.chronicling) hk.chronicling).lifts
  exact {
    stay n p res hres := ⟨h.stay n p res hres, id⟩
    blank n p hn := ⟨h.blank n p hn, fun hp => hp.still ⟨.of_append rfl, List.prefix_rfl⟩ rfl⟩
    refl n p := ⟨h.refl n p, id⟩
    trans hp hs := ⟨h.trans hp.1 hs.1, fun ht => hs.2 (hp.2 ht)⟩
    unresolved n name id source d p he hd :=
      ⟨h.unresolved n name id source d p he hd, fun hp => hp.reportUnresolved n name source d⟩
    fits n d type p ht hd hr hc := ⟨h.fits n d type p ht hd hr hc, fun hp => hp.watch _⟩
    misfit n d type p name id source g ht he hd hr hc hg :=
      ⟨h.misfit n d type p name id source g ht he hd hr hc hg, fun hp =>
        (hp.watch _).reportUnresolved n name source g⟩
    report n m p hm :=
      ⟨h.report n m p hm, fun hp => hp.still ⟨.of_append rfl, List.prefix_rfl⟩ rfl⟩
    notify n e p := ⟨h.notify n e p, fun hp => hp.notify e⟩
    here n d p x hd hu hs hx := ⟨h.here n d p x hd hu hs hx.1, hx.2⟩
    through n d p a x hd hu hs hi hx := ⟨h.through n d p a x hd hu hs hi hx.1, fun hp =>
      (hx.2 (hp.still (.of_eq rfl rfl) rfl)).still (.of_eq rfl rfl) rfl⟩
    call n logic room p q hl hpq hok hres :=
      ⟨h.call n logic room p q hl hpq.1 hok hres.1, fun hp =>
        (hres.2 hp).callLogic hk ha n logic⟩
    complained n p q m hm hs := ⟨h.complained n p q m hm hs.1, fun hp =>
      (hs.2 hp).still ⟨.of_append rfl, List.prefix_rfl⟩ rfl⟩
    told n p res q e hs := ⟨h.told n p res q e hs.1, fun hp => (hs.2 hp).notify e⟩
    skipped n p b q m hn hu hb hs hm hx := by
      refine ⟨h.skipped n p b q m hn hu hb hs.1 hm hx, fun hp => ?_⟩
      obtain ⟨hq, hst⟩ := hs.opened hp fun _ => hb
      cases m with
      | none =>
        -- Without a message of its own it was skipped for a dependency, of which it was said.
        rw [hm rfl] at hst
        exact (hq.skip (hst hn)).watch _
      | some m => exact (hq.fail (r.key n) m (.inr rfl)).watch _
    failed n p q m hn hu hb hs hx hg := by
      refine ⟨h.failed n p q m hn hu hb hs.1 hx hg, fun hp => ?_⟩
      obtain ⟨hq, hst⟩ := hs.opened hp fun _ => hb
      cases m with
      | none =>
        obtain ⟨logic, s, hl, hcall⟩ := hg rfl
        have hgave := gaveUp_of_callLogic hn hl hcall
        have hrun : q.ledger.status (r.key n) = .evaluating := hst hn
        have hfailed := hq.settle (k := r.key n) (f := fun o => { o with status := .failed })
          (q := q.update (·.lose (r.key n) none .failed)) (by rw [hrun]; decide)
          (by rw [hrun]; decide) (fun _ => rfl) (fun _ => rfl) nofun (fun _ _ => hgave) rfl rfl rfl
        exact hfailed.watch _
      | some m => exact (hq.fail (r.key n) m (.inl rfl)).watch _
    kept n p q v hn hu hb hs := by
      refine ⟨h.kept n p q v hn hu hb hs.1, fun hp => ?_⟩
      obtain ⟨hq, hst⟩ := hs.opened hp fun _ => hb
      have hrun : q.ledger.status (r.key n) = .evaluating := hst hn
      have hkept := hq.settle (k := r.key n) (f := (·.succeed v))
        (q := q.update fun e => (e.onContext (·.set n.info.name v)).onLedger
          (·.modify (r.key n) (·.succeed v))) (by rw [hrun]; decide) (by rw [hrun]; decide)
        (fun _ => rfl) (fun _ => rfl) nofun nofun rfl rfl rfl
      exact (hkept.watch _).watch _
    heard n p e x hn hx := ⟨h.heard n p e x hn hx.1, fun hp => hx.2 (hp.notify e)⟩
    abandoned n p b q hn hact hu hs := by
      refine ⟨h.abandoned n p b q hn hact hu hs.1, fun hp => ?_⟩
      obtain ⟨hq, -⟩ := hs.opened hp fun hd => absurd hd (Node.not_isDecision hn)
      exact (hq.still (q := q.update _) (.of_eq rfl rfl) rfl).watch _
    ended n p q hn hact hu hs := by
      refine ⟨h.ended n p q hn hact hu hs.1, fun hp => ?_⟩
      obtain ⟨hq, -⟩ := hs.opened hp fun hd => absurd hd (Node.not_isDecision hn)
      exact (hq.still (q := q.update _) (.of_eq rfl rfl) rfl).watch _
    given n p q f hn hact hu hs := by
      refine ⟨h.given n p q f hn hact hu hs.1, fun hp => ?_⟩
      obtain ⟨hq, -⟩ := hs.opened hp fun hd => absurd hd (Node.not_isDecision hn)
      have hset : r.Reported (q.update (·.onContext (·.set n.info.name (.function f)))) :=
        hq.still (.of_eq rfl rfl) rfl
      have hgiven : r.Reported ((r.chronicling.watch (.bound n) (q.update
          (·.onContext (·.set n.info.name (.function f))))).update (·.leave (r.key n))) :=
        (hset.watch (.bound n)).still (.of_eq rfl rfl) rfl
      exact hgiven.watch _ }

theorem floor_accords (hk : r.host.KeepsLedger) : r.chronicling.Floor r.Accords := by
  have h := (lawful_ledger (r := r.chronicling) hk.chronicling).floor
  exact {
    stay n p res hres := ⟨h.stay n p res hres, id⟩
    blank n p hn := ⟨h.blank n p hn, fun hp => hp.still ⟨.of_append rfl, List.prefix_rfl⟩ rfl⟩
    tooDeep n p hn hu hb := ⟨h.tooDeep n p hn hu hb, fun hp =>
      (hp.ensure (r.key n) n.info.name).fail (r.key n) _ (.inl rfl)⟩
    overrun n p hn hact hu := ⟨h.overrun n p hn hact hu, fun hp =>
      hp.still ⟨.of_append rfl, List.prefix_rfl⟩ rfl⟩ }

theorem reported_run (hk : r.host.KeepsLedger) (ha : r.host.Appends) (s : Selection) (c : Context)
    (w : σ) : r.Reported (r.chronicling.run s c (w, [])) := by
  refine run_induction (P := r.Reported) ?_ ?_ ?_
  · refine ⟨r.model.indexed_freshLedger, r.model.listed_freshLedger, fun k o ho => ?_⟩
    obtain ⟨d, -, rfl⟩ := r.model.mem_outcomes_freshLedger o (Ledger.mem_of_find? ho)
    exact ⟨List.nil_sublist _, fun h => absurd rfl h, nofun, nofun⟩
  · exact fun n p _ hp =>
      (visit_of_level (floor_accords hk) (lifts_accords hk ha) r.maxDepth n p).2 hp
  · exact fun d p hp => hp.still ⟨.of_append rfl, List.prefix_rfl⟩ rfl

/-- What the outcomes of a request say stands among its messages, in the same order. An outcome that
says something is that of a decision that has failed or was skipped, one that was skipped does say
something, and one that has failed does so as well unless its logic answered that it has failed. -/
theorem problems_reported (hk : r.host.KeepsLedger) (ha : r.host.Appends) (s : Selection)
    (c : Context) (w : σ) :
    ∀ o ∈ (r.run s c w).ledger.outcomes,
      o.messages.Sublist (r.run s c w).evaluation.messages ∧
      (o.messages ≠ [] → o.status = .failed ∨ o.status = .skipped) ∧
      (o.status = .skipped → o.messages ≠ []) ∧
      (o.status = .failed → o.messages = [] → r.GaveUp o.id (r.chronicle s c w)) := by
  have h := reported_run hk ha s c w
  rw [← run_chronicling r s c w]
  intro o ho
  have hm := h.matched o.id o (h.listed.find? ho)
  exact ⟨hm.among, hm.unhappy, hm.skipped, hm.failed⟩

end Request

namespace Formula

def marketRequest : Request Formula Unit := ⟨market, .functions, true, 2, .alwaysDescend⟩

end Formula

namespace Request

/-- The offer gives up and says nothing, so that the deal, which needs it, is skipped and says so.
-/
theorem problems_reported_market : Host.functions.KeepsLedger ∧ Host.functions.Appends ∧
    ∃ offer deal, (Formula.marketRequest.run .all .empty ()).ledger.outcomes = [offer, deal] ∧
      offer.status = .failed ∧ offer.messages = [] ∧
      Formula.marketRequest.GaveUp offer.id (Formula.marketRequest.chronicle .all .empty ()) ∧
      deal.status = .skipped ∧ deal.messages ≠ [] ∧
      deal.messages.Sublist (Formula.marketRequest.run .all .empty ()).evaluation.messages := by
  have hk := Host.functions_quiet.keepsLedger
  have ha := Host.functions_quiet.appends
  obtain ⟨offer, deal, hl, hf, he, hs⟩ :
      ∃ offer deal, (Formula.marketRequest.run .all .empty ()).ledger.outcomes = [offer, deal] ∧
        offer.status = .failed ∧ offer.messages = [] ∧ deal.status = .skipped :=
    ⟨_, _, rfl, rfl, rfl, rfl⟩
  have h := problems_reported (r := Formula.marketRequest) hk ha .all .empty ()
  rw [hl] at h
  obtain ⟨-, -, -, hgave⟩ := h offer List.mem_cons_self
  obtain ⟨hsub, -, hskip, -⟩ := h deal (List.mem_cons_of_mem _ List.mem_cons_self)
  exact ⟨hk, ha, offer, deal, hl, hf, he, hgave hf he, hs, hskip hs, hsub⟩

end Request

end DecisionGraph
