import DecisionGraph.Proofs.Once
import DecisionGraph.Proofs.Results
import Mathlib.Logic.Relation

namespace DecisionGraph

open Relation (TransGen)

variable {L σ : Type}

theorem Evaluation.result?_lose {e : Evaluation} (hl : e.ledger.Indexed) (key : String)
    (m : Option Message) (s : Status) (k : String) :
    (e.lose key m s).ledger.result? k = e.ledger.result? k := by
  cases m with
  | none => exact Ledger.result?_setStatus hl key k s
  | some m => exact Ledger.result?_modify (f := (·.reportFailure m s)) hl (fun _ => rfl) k

theorem Evaluation.indexed_lose {e : Evaluation} (hl : e.ledger.Indexed) (key : String)
    (m : Option Message) (s : Status) : (e.lose key m s).ledger.Indexed := by
  cases m with
  | none => exact hl.modify key fun _ => rfl
  | some m => exact hl.modify key fun _ => rfl

/-- The name in the root scope under which or below which a value has just been bound. -/
def Sighting.root? (t : Sighting L) : Option String :=
  match t.moment with
  | .bound n => (t.path ++ [n.info.name]).head?
  | _ => none

theorem Sighting.find?_of_root?_ne {n : Node L} {e e' : Evaluation} {v : Value} {x : String}
    (he : e'.context = e.context.set n.info.name v)
    (hx : (⟨.bound n, e'⟩ : Sighting L).root? ≠ some x) :
    e'.context.entries.find? x = e.context.entries.find? x := by
  have hpath : e'.context.path = e.context.path := by rw [he, Context.path, Context.frames_set]; rfl
  unfold root? path at hx
  rw [he]
  exact Context.find?_set_of_ne v (by simpa [hpath] using hx)

namespace Model

variable {m : Model L} {s : Selection} {n d : Node L} {above l : List (Node L)} {c : Context}

/-- No node of another namespace needs `d`, not even through others. -/
def Inland (m : Model L) (d : Node L) : Prop :=
  ∀ n ∈ m.nodes, TransGen (fun a b => b ∈ m.requirements a) n d → m.owns n

/-- If imported nodes need imported nodes only, all others are inland. -/
theorem inland_of_requirements (h : ∀ n ∈ m.nodes, ¬m.owns n → ∀ k ∈ m.requirements n, ¬m.owns k)
    (hd : m.owns d) : m.Inland d := by
  intro n hn hnd
  by_contra ho
  have hfar (k : Node L) (hk : TransGen (fun a b => b ∈ m.requirements a) n k) :
      k ∈ m.nodes ∧ ¬m.owns k := by
    induction hk with
    | single hk => exact ⟨mem_nodes_of_mem_requirements hk, h n hn ho _ hk⟩
    | tail _ hk ih => exact ⟨mem_nodes_of_mem_requirements hk, h _ ih.1 ih.2 _ hk⟩
  exact (hfar d hnd).2 hd

theorem Placed.needs (h : m.Placed s n above c) :
    ∀ k ∈ above, TransGen (fun a b => b ∈ m.requirements a) k n := by
  let needed (d k : Node L) : Prop := TransGen (fun a b => b ∈ m.requirements a) k d
  have htrans : IsTrans (Node L) needed := ⟨fun _ _ _ hab hbc => hbc.trans hab⟩
  have hchain : (n :: above).IsChain needed := h.path.imp fun _ _ hd => .single hd
  exact fun k hk => List.rel_of_pairwise_cons hchain.pairwise hk

/-- No frame is open where an inland node is evaluated. -/
theorem Placed.frames_of_inland (h : m.Placed s n above c) (hn : m.Inland n) (ho : m.owns n) :
    c.frames = [] := by
  have howned : ∀ k ∈ n :: above, m.owns k := List.forall_mem_cons.mpr
    ⟨ho, fun k hk => hn k (h.mem_nodes k (List.mem_cons_of_mem _ hk)) (h.needs k hk)⟩
  exact Option.some.inj (h.frames.symm.trans (framesAlong_of_owned howned))

end Model

namespace Request

variable {r : Request L σ} {l : List (Sighting L)} {t : Sighting L} {e e' : Evaluation}
  {n : Node L} {b : Bool} {p q : Progress (σ × List (Sighting L))}

/-- What `t` showed of the root scope and of the results holds still, except where something was
bound after it. -/
structure Stands (r : Request L σ) (e : Evaluation) (t : Sighting L) (after : List (Sighting L)) :
    Prop where
  entry : ∀ x, (∀ u ∈ after, u.root? ≠ some x) →
    e.context.entries.find? x = t.evaluation.context.entries.find? x
  result : ∀ k, ¬r.HasBound k after → e.ledger.result? k = t.evaluation.ledger.result? k

/-- A decision that is sighted with a value has it as its result. -/
def Agreed (r : Request L σ) (t : Sighting L) : Prop :=
  ∀ n, t.moment = .bound n → n.isDecision → ∃ v,
    t.evaluation.context.get? n.info.name = some v ∧
      t.evaluation.ledger.result? (r.key n) = some v

structure Lasting (r : Request L σ) (l : List (Sighting L)) (e : Evaluation) : Prop where
  indexed : e.ledger.Indexed
  stands : ∀ before t after, l = before ++ t :: after → r.Stands e t after
  agreed : ∀ t ∈ l, r.Agreed t

namespace Lasting

theorem start (hl : e.ledger.Indexed) : r.Lasting [] e :=
  ⟨hl, fun _ _ _ h => by simp at h, by simp⟩

theorem still (h : r.Lasting l e) (hl : e'.ledger.Indexed)
    (hc : e'.context.entries = e.context.entries)
    (hr : ∀ k, e'.ledger.result? k = e.ledger.result? k) : r.Lasting l e' := by
  refine ⟨hl, fun before t after hs => ?_, h.agreed⟩
  obtain ⟨hx, hk⟩ := h.stands before t after hs
  exact ⟨fun x ha => hc ▸ hx x ha, fun k ha => (hr k).trans (hk k ha)⟩

theorem concat (h : r.Lasting l e) (hl : t.evaluation.ledger.Indexed)
    (hx : ∀ x, t.root? ≠ some x →
      t.evaluation.context.entries.find? x = e.context.entries.find? x)
    (hk : ∀ k, (∀ n, t.moment = .bound n → n.isDecision → r.key n ≠ k) →
      t.evaluation.ledger.result? k = e.ledger.result? k)
    (ht : r.Agreed t) : r.Lasting (l ++ [t]) t.evaluation := by
  refine ⟨hl, fun before u after hs => ?_, List.forall_mem_append.mpr ⟨h.agreed, by simpa using ht⟩⟩
  rcases eq_of_concat hs with ⟨rfl, -, rfl⟩ | ⟨rest, rfl, hr⟩
  · exact ⟨fun _ _ => rfl, fun _ _ => rfl⟩
  · obtain ⟨hentry, hresult⟩ := h.stands before u rest hr
    refine ⟨fun x ha => ?_, fun k ha => ?_⟩
    · obtain ⟨hrest, hlast⟩ := List.forall_mem_append.mp ha
      exact (hx x (hlast t List.mem_cons_self)).trans (hentry x hrest)
    · rw [hasBound_concat, not_or] at ha
      exact (hk k fun n hm hn he => ha.2 ⟨n, hm, hn, he⟩).trans (hresult k ha.1)

theorem sight (h : r.Lasting l e) {m : Moment L} (hm : ∀ n, m ≠ .bound n) :
    r.Lasting (l ++ [⟨m, e⟩]) e :=
  h.concat (t := ⟨m, e⟩) h.indexed (fun _ _ => rfl) (fun _ _ => rfl)
    fun n hb => absurd hb (hm n)

theorem keep (h : r.Lasting l e) (hn : n.isDecision) (hs : (e.ledger.find? (r.key n)).isSome)
    (v : Value) (he : e' = (e.onContext (·.set n.info.name v)).onLedger
      (·.modify (r.key n) (·.succeed v))) : r.Lasting (l ++ [⟨.bound n, e'⟩]) e' := by
  subst he
  refine h.concat (t := ⟨.bound n, _⟩) (h.indexed.modify _ fun _ => rfl)
    (fun x => Sighting.find?_of_root?_ne rfl) (fun k hk => ?_) fun k hm _ => ?_
  · exact Ledger.result?_modify_of_ne h.indexed (hk n rfl hn) _
  · rw [← Moment.bound.inj hm]
    exact ⟨v, by simp, Ledger.result?_succeed h.indexed hs v⟩

theorem give (h : r.Lasting l e) (hn : n.isKnowledge) (v : Value)
    (he : e' = e.onContext (·.set n.info.name v)) : r.Lasting (l ++ [⟨.bound n, e'⟩]) e' := by
  subst he
  refine h.concat (t := ⟨.bound n, _⟩) h.indexed (fun x => Sighting.find?_of_root?_ne rfl)
    (fun _ _ => rfl) fun k hm hk => ?_
  rw [← Moment.bound.inj hm] at hk
  exact absurd hk (Node.not_isDecision hn)

theorem reportUnresolved (h : r.Lasting p.record p.evaluation) (n : Node L) (name source : String)
    (d : Diagnostic) : r.Lasting (r.recording.reportUnresolved n name source d p).record
      (r.recording.reportUnresolved n name source d p).evaluation := by
  rw [record_reportUnresolved]
  refine sight (h.still (advances_reportUnresolved h.indexed ..).indexed ?_ fun k => ?_) (by simp)
  · rw [context_reportUnresolved]
  · rw [ledger_reportUnresolved]
    split
    · refine Ledger.result?_modify h.indexed ?_ k
      exact fun _ => rfl
    · rfl

theorem opening (h : r.Lasting p.record p.evaluation) (n : Node L) :
    r.Lasting (r.recording.opening n p).record (r.recording.opening n p).evaluation := by
  rw [record_opening]
  refine sight (h.still (advances_opening h.indexed).1 ?_ fun k => ?_) (by simp)
  · rw [context_opening]
  · rw [ledger_opening]
    split
    · rw [Ledger.result?_setStatus (h.indexed.ensure _ _), Ledger.result?_ensure h.indexed]
    · rfl

theorem lose (h : r.Lasting q.record q.evaluation) (m : Option Message) (s : Status) :
    r.Lasting (r.recording.watch (.left n) (q.update (·.lose (r.key n) m s))).record
      (r.recording.watch (.left n) (q.update (·.lose (r.key n) m s))).evaluation := by
  have hl : r.Lasting q.record (q.update (·.lose (r.key n) m s)).evaluation :=
    h.still (Evaluation.indexed_lose h.indexed (r.key n) m s) (by cases m <;> rfl)
      (Evaluation.result?_lose h.indexed (r.key n) m s)
  exact hl.sight (by simp)

theorem depart (h : r.Lasting q.record q.evaluation) (n : Node L) :
    r.Lasting (r.recording.watch (.left n) (q.update (·.leave (r.key n)))).record
      (r.recording.watch (.left n) (q.update (·.leave (r.key n)))).evaluation := by
  have hl : r.Lasting q.record (q.update (·.leave (r.key n))).evaluation :=
    h.still h.indexed rfl fun _ => rfl
  exact hl.sight (by simp)

end Lasting

def Endures (r : Request L σ) (_ : Node L) (p : Progress (σ × List (Sighting L)))
    (x : Resolution × Progress (σ × List (Sighting L))) : Prop :=
  (p.ledger.Indexed → x.2.ledger.Indexed ∧ p.ledger.Keeps none x.2.ledger) ∧
    (r.Lasting p.record p.evaluation → r.Lasting x.2.record x.2.evaluation)

def EnduresOn (r : Request L σ) (n : Node L) (b : Bool) (p q : Progress (σ × List (Sighting L))) :
    Prop :=
  (p.ledger.Indexed → r.recording.Advances n b p.ledger q.ledger) ∧
    (r.Lasting p.record p.evaluation → r.Lasting q.record q.evaluation)

theorem EnduresOn.opened (h : r.EnduresOn n b (r.recording.opening n p) q)
    (hp : r.Lasting p.record p.evaluation) :
    r.Lasting q.record q.evaluation ∧
      (n.isDecision → (q.ledger.find? (r.key n)).isSome) := by
  obtain ⟨hi, -, hs⟩ := advances_opening (r := r.recording) (n := n) hp.indexed
  exact ⟨h.2 (hp.opening n), fun hn => (h.1 hi).isSome hn (hs hn)⟩

theorem lawful_lasting (hq : r.host.Quiet) :
    r.recording.Lawful r.Endures r.EnduresOn (fun n => r.EnduresOn n true) := by
  have h := lawful_ledger (r := r.recording) hq.recording.keepsLedger
  exact {
    refl n p := ⟨h.refl n p, id⟩
    trans hp hs := ⟨h.trans hp.1 hs.1, fun hl => hs.2 (hp.2 hl)⟩
    unresolved n name id source d p he :=
      ⟨h.unresolved n name id source d p he, fun hl => hl.reportUnresolved n name source d⟩
    fits n d type p ht hd hr hc := ⟨h.fits n d type p ht hd hr hc, fun hl => hl.sight (by simp)⟩
    misfit n d type p name id source g ht he hd hr hc := by
      refine ⟨h.misfit n d type p name id source g ht he hd hr hc, fun hl => ?_⟩
      have hw : r.Lasting (r.recording.watch (.examined n d (r.recording.found n d p)) p).record
          (r.recording.watch (.examined n d (r.recording.found n d p)) p).evaluation :=
        hl.sight (by simp)
      exact hw.reportUnresolved n name source g
    report n m p := ⟨h.report n m p, fun hl => hl.still hl.indexed rfl fun _ => rfl⟩
    notify n e p := ⟨h.notify n e p, id⟩
    here n d p x hd hu hs hx := ⟨h.here n d p x hd hu hs hx.1, hx.2⟩
    through n d p a x hd hu hs ha hx := by
      refine ⟨h.through n d p a x hd hu hs ha hx.1, fun hl => ?_⟩
      -- Frames come and go, the entries stay.
      have hx' := hx.2 (hl.still hl.indexed rfl fun _ => rfl)
      exact hx'.still hx'.indexed rfl fun _ => rfl
    call n logic room p q hl hpq hok hres := by
      refine ⟨h.call n logic room p q hl hpq.1 hok hres.1, fun hp => ?_⟩
      rw [record_callLogic, evaluation_callLogic (r := r.recording) hq.recording]
      exact (hres.2 hp).sight (by simp)
    complained n p q m hs := ⟨h.complained n p q m hs.1, fun hp =>
      (hs.2 hp).still (hs.2 hp).indexed rfl fun _ => rfl⟩
    stay n p res hres := ⟨h.stay n p res hres, id⟩
    told n p res q e hs := ⟨h.told n p res q e hs.1, hs.2⟩
    tooDeep n p d hn hu hb := by
      refine ⟨h.tooDeep n p d hn hu hb, fun hp => ?_⟩
      have hi := hp.indexed.ensure (r.key n) n.info.name
      refine hp.still (hi.modify _ fun _ => rfl) rfl fun k => ?_
      exact (Ledger.result?_modify (f := (·.reportFailure _ .failed)) hi (fun _ => rfl) k).trans
        (Ledger.result?_ensure hp.indexed _ _ k)
    skipped n p b q m hn hu hb hs := by
      refine ⟨h.skipped n p b q m hn hu hb hs.1, fun hp => ?_⟩
      exact (hs.opened hp).1.lose m .skipped
    failed n p q m hn hu hb hs := by
      refine ⟨h.failed n p q m hn hu hb hs.1, fun hp => ?_⟩
      exact (hs.opened hp).1.lose m .failed
    kept n p q v hn hu hb hs := by
      refine ⟨h.kept n p q v hn hu hb hs.1, fun hp => ?_⟩
      obtain ⟨hq, hk⟩ := hs.opened hp
      exact (hq.keep hn (hk hn) v rfl).sight (by simp)
    reported n p m hn := ⟨h.reported n p m hn, fun hp => hp.still hp.indexed rfl fun _ => rfl⟩
    heard n p e x hn hx := ⟨h.heard n p e x hn hx.1, hx.2⟩
    abandoned n p b q hn ha hu hs := by
      refine ⟨h.abandoned n p b q hn ha hu hs.1, fun hp => ?_⟩
      exact (hs.opened hp).1.depart n
    ended n p q hn ha hu hs := by
      refine ⟨h.ended n p q hn ha hu hs.1, fun hp => ?_⟩
      exact (hs.opened hp).1.depart n
    given n p q f hn ha hu hs := by
      refine ⟨h.given n p q f hn ha hu hs.1, fun hp => ?_⟩
      obtain ⟨hq, -⟩ := hs.opened hp
      have hg : r.Lasting (r.recording.watch (.bound n)
            (q.update (·.onContext (·.set n.info.name (.function f))))).record
          (q.update (·.onContext (·.set n.info.name (.function f)))).evaluation :=
        hq.give hn (.function f) rfl
      exact hg.depart n }

theorem lasting_run (hq : r.host.Quiet) (s : Selection) (c : Context) (w : σ) :
    r.Lasting (r.record s c w) (r.run s c w).evaluation := by
  have hrun : r.Lasting (r.recording.run s c (w, [])).record
      (r.recording.run s c (w, [])).evaluation := by
    refine run_induction (P := fun p => r.Lasting p.record p.evaluation) ?_ ?_ fun d p hp => ?_
    · exact .start r.model.indexed_freshLedger
    · exact fun n p _ hp => ((lawful_lasting hq).visit r.maxDepth n p).2 hp
    · exact hp.still hp.indexed rfl fun _ => rfl
  rwa [← run_recording r s c w]

theorem HasBound.last {k : String} (h : r.HasBound k l) :
    ∃ before t after n, l = before ++ t :: after ∧ t.moment = .bound n ∧ n.isDecision ∧
      r.key n = k ∧ ¬r.HasBound k after := by
  induction l with
  | nil =>
    obtain ⟨t, ht, -⟩ := h
    cases ht
  | cons u l ih =>
    by_cases hl : r.HasBound k l
    · obtain ⟨before, t, after, n, rfl, hn⟩ := ih hl
      exact ⟨u :: before, t, after, n, rfl, hn⟩
    · obtain ⟨t, ht, n, hm, hn, hk⟩ := h
      rcases List.mem_cons.mp ht with rfl | ht
      · exact ⟨[], t, l, n, rfl, hm, hn, hk, hl⟩
      · exact absurd ⟨t, ht, n, hm, hn, hk⟩ hl

variable {s : Selection} {c : Context} {w : σ} {d : Node L}

theorem placed_of_mem (hk : r.host.KeepsScope) (hc : c.frames = []) (ht : t ∈ r.record s c w)
    (hm : t.moment = .bound n) : ∃ above, r.model.Placed s n above t.evaluation.context := by
  obtain ⟨before, after, hl⟩ := List.append_of_mem ht
  have hf := fitting_record (r := r) hk s hc w before t after hl
  unfold Model.Fitting at hf
  rw [hm] at hf
  obtain ⟨above, -, hp⟩ := hf
  exact ⟨above, hp⟩

theorem root?_ne (hb : r.model.Built) (hk : r.host.KeepsScope) (hc : c.frames = [])
    (hd : d ∈ r.model.localDecisions) (ht : t ∈ r.record s c w) (hne : t.moment ≠ .bound d)
    (hpath : ∀ n, t.moment = .bound n → t.path.head? ≠ some d.info.name) :
    t.root? ≠ some d.info.name := by
  unfold Sighting.root?
  split
  next n hm =>
    obtain ⟨above, hp⟩ := placed_of_mem hk hc ht hm
    cases hf : t.path with
    | cons a path => simpa [hf] using hpath n hm
    | nil =>
      have hroot : t.evaluation.context.frames = [] := List.map_eq_nil_iff.mp hf
      have ho : r.model.owns n := by
        simpa [Model.owns] using hp.scope.trans (Model.scopeNs_of_root hroot)
      have hdo := (List.mem_filter.mp hd).2
      intro hname
      have hnd : n = d := hb.eq_of_name (hp.mem_nodes n List.mem_cons_self)
        (Model.mem_nodes_of_mem_localDecisions hd) ho hdo (by simpa using hname)
      exact hne (hnd ▸ hm)
  next => simp

/-- A local decision that has succeeded was bound, and after the last time nothing was bound under
its key. -/
theorem last_binding (hids : (r.model.localDecisions.map fun n => n.info.id).Nodup)
    (hq : r.host.Quiet) (hc : c.frames = []) (hd : d ∈ r.model.localDecisions)
    (hkey : ∀ n ∈ r.model.nodes, n.isDecision → r.key n = r.key d → r.model.owns n)
    {o : Outcome} (ho : (r.run s c w).ledger.find? (r.key d) = some o)
    (hs : o.status = .succeeded) : ∃ before t after, r.record s c w = before ++ t :: after ∧
      t.moment = .bound d ∧ d.isDecision ∧ ¬r.HasBound (r.key d) after := by
  have htold := (truthful_run (r := r) hq.keepsLedger s c w).opened _ o ho
  obtain ⟨before, t, after, n, hl, hm, hn, hk, hlast⟩ := (htold.bound.mp (htold.present hs)).last
  have ht : t ∈ r.record s c w := hl ▸ List.mem_append_right _ List.mem_cons_self
  obtain ⟨above, hp⟩ := placed_of_mem hq.keepsScope hc ht hm
  have hmem := hp.mem_nodes n List.mem_cons_self
  have hns : n.info.ns = r.model.ns := beq_iff_eq.mp (hkey n hmem hn hk)
  have hid : n.info.id = d.info.id := by
    have hdns := Model.ns_of_mem_localDecisions hd
    rwa [key, key, Model.key_of_owned hns, Model.key_of_owned hdns] at hk
  obtain rfl : n = d :=
    List.inj_on_of_nodup_map hids (Model.mem_localDecisions hmem hn hns) hd hid
  exact ⟨before, t, after, hl, hm, hn, hlast⟩

/-- A local decision that has succeeded has a result, which its last binding gave. The result is
bound in the root scope at the end if the decision does not go by the name of an import and no
imported node needs it. It is so as well whenever that last binding was in the root scope, unless
something was bound later in a scope below the name of the decision. -/
theorem results_stand (hb : r.model.Built)
    (hids : (r.model.localDecisions.map fun n => n.info.id).Nodup) (hq : r.host.Quiet)
    (hc : c.frames = []) (hd : d ∈ r.model.localDecisions)
    (hkey : ∀ n ∈ r.model.nodes, n.isDecision → r.key n = r.key d → r.model.owns n)
    {o : Outcome} (ho : (r.run s c w).ledger.find? (r.key d) = some o)
    (hs : o.status = .succeeded) : ∃ v, o.result = some v ∧
      (¬r.model.imports.containsName d.info.name → r.model.Inland d →
        (r.run s c w).context.get? d.info.name = some v) ∧
      ∃ before t after, r.record s c w = before ++ t :: after ∧ t.moment = .bound d ∧
        (∀ u ∈ after, u.moment ≠ .bound d) ∧ t.evaluation.context.get? d.info.name = some v ∧
        (t.path = [] → (∀ u ∈ after, ∀ n, u.moment = .bound n →
            u.path.head? ≠ some d.info.name) →
          (r.run s c w).context.get? d.info.name = some v) := by
  have hk := hq.keepsScope
  obtain ⟨before, t, after, hl, hm, hdd, hlast⟩ := last_binding hids hq hc hd hkey ho hs
  have hafter : ∀ u ∈ after, u.moment ≠ .bound d :=
    fun u hu hum => hlast ⟨u, hu, d, hum, hdd, rfl⟩
  have hmem : ∀ u ∈ t :: after, u ∈ r.record s c w :=
    fun u hu => hl ▸ List.mem_append_right before hu
  -- The result and the root scope are still as `t` shows them.
  have hlasting := lasting_run (r := r) hq s c w
  obtain ⟨hentry, hresult⟩ := hlasting.stands before t after hl
  obtain ⟨v, hv, hgiven⟩ := hlasting.agreed t (hmem t List.mem_cons_self) d hm hdd
  have hov : o.result = some v := by
    have hres : (r.run s c w).ledger.result? (r.key d) = some v := (hresult _ hlast).trans hgiven
    rwa [Ledger.result?, ho] at hres
  have hroot : t.path = [] → (∀ u ∈ after, ∀ n, u.moment = .bound n →
      u.path.head? ≠ some d.info.name) → (r.run s c w).context.get? d.info.name = some v := by
    intro hpath hfree
    have hend : (r.run s c w).context.frames = [] := (frames_run hk s c w).trans hc
    have hx : ∀ u ∈ after, u.root? ≠ some d.info.name := fun u hu =>
      root?_ne hb hk hc hd (hmem u (List.mem_cons_of_mem t hu)) (hafter u hu) (hfree u hu)
    rw [Context.get?_of_root (List.map_eq_nil_iff.mp hpath)] at hv
    rw [Context.get?_of_root hend]
    exact (hentry _ hx).trans hv
  refine ⟨v, hov, fun halias hinland => hroot ?_ fun u hu n hum hhead => halias ?_,
    before, t, after, hl, hm, hafter, hv, hroot⟩
  · obtain ⟨above, hp⟩ := placed_of_mem hk hc (hmem t List.mem_cons_self) hm
    exact List.map_eq_nil_iff.mpr (hp.frames_of_inland hinland (List.mem_filter.mp hd).2)
  · obtain ⟨above, hp⟩ := placed_of_mem hk hc (hmem u (List.mem_cons_of_mem t hu)) hum
    exact hp.containsName_of_path hb hhead

/-- What is due by the orders stands in the root scope, since the prices need no orders and the
orders import them under another name. -/
theorem results_stand_orders : Formula.orders.Built ∧ Host.functions.Quiet ∧
    ¬Formula.orders.imports.containsName "due" ∧ Formula.orders.Inland Formula.due ∧
    ∃ o, (Formula.ordersRequest.run .all Formula.ordersInput ()).ledger.find? "1" = some o ∧
      o.status = .succeeded ∧ o.result = some (.boolean true) ∧
      (Formula.ordersRequest.run .all Formula.ordersInput ()).context.get? "due" =
        some (.boolean true) := by
  have halias : ¬Formula.orders.imports.containsName "due" := by decide
  have hinland : Formula.orders.Inland Formula.due :=
    Model.inland_of_requirements (by decide) (by decide)
  obtain ⟨o, ho, hs, hv⟩ : ∃ o,
      (Formula.ordersRequest.run .all Formula.ordersInput ()).ledger.find? "1" = some o ∧
        o.status = .succeeded ∧ o.result = some (.boolean true) := ⟨_, rfl, rfl, rfl⟩
  obtain ⟨v, hov, hroot, -⟩ := results_stand (r := Formula.ordersRequest) (d := Formula.due)
    Formula.orders_built (by decide) Host.functions_quiet (c := Formula.ordersInput) rfl
    (List.mem_singleton.mpr rfl) (by decide) ho hs
  refine ⟨Formula.orders_built, Host.functions_quiet, halias, hinland, o, ho, hs, hv, ?_⟩
  rw [hv] at hov
  exact (hroot halias hinland).trans hov.symm

/-- Every local decision that has succeeded has its result in the root scope. -/
def ResultsStand (r : Request L σ) (s : Selection) (c : Context) (w : σ) : Prop :=
  ∀ d ∈ r.model.localDecisions, ∀ o v, (r.run s c w).ledger.find? (r.key d) = some o →
    o.status = .succeeded → o.result = some v →
      (r.run s c w).context.get? d.info.name = some v

end Request

namespace Formula

def kioskInput : Context := .ofEntries (.cons "taxed" (.boolean true) .nil)

theorem rates_built : rates.Built :=
  ⟨((Builder.new "urn:rates" "rates").addNode "1" "rate"
    (.decision any (some (defined "rate")))).2, "rates", .addNode _ _ _ (.new _ _),
    Builder.build_eq rfl "rates"⟩

theorem kiosk_built : kiosk.Built := by
  let b (own : List (Node Formula)) : Builder Formula :=
    ⟨none, "urn:kiosk", "kiosk", false, (rates.nodes.toList ++ own).toArray, kioskImports,
      Bindings.nil.insert "vat" (Builder.ownNames 0 rates)⟩
  obtain ⟨lib, freshId, hlib, hbuild⟩ := rates_built
  have himport : (Builder.new "urn:kiosk" "kiosk").addImport "vat" rates = .ok (b []) :=
    Builder.addImport_eq rfl rates
  have hb : (b [bare vat, bare gross]).Made :=
    .addNode "2" "gross" gross.role (.addNode "1" "vat" vat.role
      (.addImport (.new _ _) hlib hbuild himport))
  have h₁ : (b [bare vat, bare gross]).dependsOn 2 0 = .ok (b [bare vat, unlinked gross]) := rfl
  exact ⟨_, "kiosk", hb.dependsOn h₁, Builder.build_eq rfl "kiosk"⟩

def billingImports : ImportTable := ⟨[⟨"urn:orders", "orders", "o"⟩]⟩

def billed (n : Node Formula) : Node Formula :=
  { n with info := { n.info with imports := billingImports } }

def bill : Node Formula :=
  ⟨⟨"4", "bill", "urn:prices", "billing", .cons "o.due" 3 .nil, billingImports⟩,
    .decision any (some (copyBelow "o" "due"))⟩

def billing : Model Formula where
  id := "billing"
  ns := "urn:prices"
  name := "billing"
  typeCheck := false
  nodes := (prices.nodes.toList.map billed ++ [due, bill]).toArray
  imports := billingImports

def billingRequest : Request Formula Unit := ⟨billing, .functions, true, 9, .alwaysDescend⟩

def billingInput : Context := .ofEntries (.cons "amount" (.boolean true) (.cons "o" (.context
  (.cons "p" (.context (.cons "amount" (.boolean false) .nil)) .nil)) .nil))

theorem billing_built : billing.Built := by
  let b (own : List (Node Formula)) : Builder Formula :=
    ⟨none, "urn:prices", "billing", false, (orders.nodes.toList ++ own).toArray, billingImports,
      Bindings.nil.insert "o" (Builder.ownNames 0 orders)⟩
  obtain ⟨lib, freshId, hlib, hbuild⟩ := orders_built
  have himport : (Builder.new "urn:prices" "billing").addImport "o" orders = .ok (b []) :=
    Builder.addImport_eq rfl orders
  have hb : (b [bare bill]).Made :=
    .addNode "4" "bill" bill.role (.addImport (.new _ _) hlib hbuild himport)
  have h₁ : (b [bare bill]).dependsOn 4 3 = .ok (b [unlinked bill]) := rfl
  exact ⟨_, "billing", hb.dependsOn h₁, Builder.build_eq rfl "billing"⟩

end Formula

namespace Request

/-- The kiosk has a decision `vat` and imports the rates as `vat`: their rate is bound below the
name, and the value of the decision gives way. The bills are in the namespace of the prices, which
the orders import: the net price, which has a value in the root scope, gets another one and with it
its result where the orders have their prices. -/
theorem results_replaced : Host.functions.Quiet ∧
    (Formula.kiosk.Built ∧ (Formula.kiosk.localDecisions.map fun n => n.info.id).Nodup ∧
      Formula.kioskInput.frames = [] ∧
      ¬Formula.kioskRequest.ResultsStand .all Formula.kioskInput ()) ∧
    (Formula.billing.Built ∧ (Formula.billing.localDecisions.map fun n => n.info.id).Nodup ∧
      Formula.billingInput.frames = [] ∧
      ¬Formula.billingRequest.ResultsStand .all Formula.billingInput ()) := by
  refine ⟨Host.functions_quiet, ⟨Formula.kiosk_built, by decide, rfl, fun h => ?_⟩,
    Formula.billing_built, by decide, rfl, fun h => ?_⟩
  · obtain ⟨o, ho, hs, hv, hget⟩ : ∃ o,
        (Formula.kioskRequest.run .all Formula.kioskInput ()).ledger.find? "1" = some o ∧
          o.status = .succeeded ∧ o.result = some (.boolean true) ∧
          (Formula.kioskRequest.run .all Formula.kioskInput ()).context.get? "vat" =
            some (.context (.cons "rate" (.boolean false) .nil)) := ⟨_, rfl, rfl, rfl, rfl⟩
    have hvat := h Formula.vat List.mem_cons_self o _ ho hs hv
    rw [show Formula.vat.info.name = "vat" from rfl, hget] at hvat
    cases hvat
  · obtain ⟨o, ho, hs, hv, hget⟩ : ∃ o,
        (Formula.billingRequest.run .all Formula.billingInput ()).ledger.find? "2" = some o ∧
          o.status = .succeeded ∧ o.result = some (.boolean false) ∧
          (Formula.billingRequest.run .all Formula.billingInput ()).context.get? "net" =
            some (.boolean true) := ⟨_, rfl, rfl, rfl, rfl⟩
    have hnet := h (Formula.billed Formula.net) List.mem_cons_self o _ ho hs hv
    rw [show (Formula.billed Formula.net).info.name = "net" from rfl, hget] at hnet
    cases hnet

end Request

end DecisionGraph
