import DecisionGraph.Proofs.Frozen
import DecisionGraph.Proofs.Growth
import DecisionGraph.Proofs.Scopes

namespace DecisionGraph

variable {L σ : Type}

namespace Model

/-- A name under which some node sees another model. -/
def IsAlias (m : Model L) (a : String) : Prop := ∃ n ∈ m.nodes, n.info.imports.containsName a

/-- No decision and no business knowledge model goes by the name of an import. -/
def AliasesApart (m : Model L) : Prop :=
  ∀ n ∈ m.nodes, n.isDecision ∨ n.isKnowledge → ¬m.IsAlias n.info.name

theorem isAlias_of_importName? {m : Model L} {n : Node L} (hn : n ∈ m.nodes) {ns model a : String}
    (h : n.info.importName? ns model = some a) : m.IsAlias a := by
  obtain ⟨i, hi, rfl⟩ := Option.map_eq_some_iff.mp h
  exact ⟨n, hn, List.any_eq_true.mpr ⟨i, List.mem_of_find?_eq_some hi, by simp⟩⟩

end Model

/-- The name has a value below the path, whatever the current scope is. -/
def Context.Binds (c : Context) (path : List String) (name : String) : Prop :=
  (c.entries.lookup? path name).isSome

theorem Context.Binds.set {c : Context} {path : List String} {x name : String}
    (h : c.Binds path x) (hn : name ∉ path) (v : Value) : (c.set name v).Binds path x := by
  refine Bindings.isSome_lookup?_exchangeAt v (fun hp => hn ?_) h
  exact hp.subset (List.mem_append_right _ List.mem_cons_self)

/-- The decision under the key has failed or was skipped. -/
def Ledger.Lost (l : Ledger) (k : String) : Prop := l.status k = .failed ∨ l.status k = .skipped

theorem Ledger.Lost.blocksReentry {l : Ledger} {k : String} (h : l.Lost k) :
    (l.status k).blocksReentry := by
  rcases h with h | h <;> rw [h] <;> rfl

theorem Ledger.Lost.of_find? {l l' : Ledger} {k : String} (h : l.Lost k)
    (he : l'.find? k = l.find? k) : l'.Lost k := by
  unfold Lost
  rwa [status_eq_of_find? he]

theorem Ledger.Lost.of_keeps {l l' : Ledger} {k : String} (h : l.Lost k)
    (hk : l.Keeps none l') : l'.Lost k :=
  h.of_find? (hk k (by simp) h.blocksReentry)

theorem Ledger.lost_modify {l : Ledger} (hl : l.Indexed) {key k : String}
    (hk : (l.find? key).isSome) {f : Outcome → Outcome} {s : Status}
    (hf : ∀ o, (f o).status = s) (hs : s = .failed ∨ s = .skipped) (h : l.Lost k ∨ k = key) :
    (l.modify key f).Lost k := by
  unfold Lost
  by_cases he : key = k
  · rwa [← he, status_modify_self hl hk hf]
  · rw [status_modify_of_ne hl he]
    exact h.resolve_right (Ne.symm he)

def Sighting.path (t : Sighting L) : List String := t.evaluation.context.path

namespace Request

variable {r : Request L σ}

/-- The sighting repeats nothing: a decision that is lost is not entered or called any more, no
logic of a decision is called in a scope where it was called before, and no function is bound where
it was bound before. -/
def Single (r : Request L σ) (before : List (Sighting L)) (t : Sighting L) : Prop :=
  match t.moment with
  | .entered n => n.isDecision → ∀ u ∈ before, ¬u.evaluation.ledger.Lost (r.key n)
  | .calling n => n.isDecision → ∀ u ∈ before, ¬u.evaluation.ledger.Lost (r.key n) ∧
      ∀ k, u.moment = .calling k → k.isDecision → k.info.subject = n.info.subject →
        u.path ≠ t.path
  | .bound n => n.isKnowledge → ∀ u ∈ before, ∀ k, u.moment = .bound k → k.isKnowledge →
      k.info.subject = n.info.subject → u.path ≠ t.path
  | _ => True

/-- Nothing was repeated, and all that was done so far shows: where the logic of a decision has run,
it has a value, unless it is lost; and where a function was bound, there is one. -/
structure Solo (r : Request L σ) (l : List (Sighting L)) (c : Context) (led : Ledger) : Prop where
  aliased : ∀ a ∈ c.path, r.model.IsAlias a
  sighted : ∀ t ∈ l, ∀ a ∈ t.path, r.model.IsAlias a
  lasts : ∀ t ∈ l, ∀ k, t.evaluation.ledger.Lost k → led.Lost k
  called : ∀ t ∈ l, ∀ n, t.moment = .calling n → n.isDecision →
    c.Binds t.path n.info.name ∨ led.Lost (r.key n)
  bound : ∀ t ∈ l, ∀ n, t.moment = .bound n → n.isKnowledge → c.Binds t.path n.info.name
  single : Throughout r.Single l

namespace Solo

variable {l : List (Sighting L)} {c c' : Context} {led led' : Ledger} {t : Sighting L}

theorem start (hc : c.frames = []) (led : Ledger) : r.Solo [] c led := by
  refine ⟨fun a ha => ?_, by simp, by simp, by simp, by simp, .nil⟩
  simp [Context.path, hc] at ha

theorem concat (h : r.Solo l c led) (hp : ∀ a ∈ t.path, r.model.IsAlias a)
    (hl : ∀ k, t.evaluation.ledger.Lost k → led.Lost k) (ht : r.Single l t)
    (hcalled : ∀ n, t.moment = .calling n → n.isDecision →
      c.Binds t.path n.info.name ∨ led.Lost (r.key n))
    (hbound : ∀ n, t.moment = .bound n → n.isKnowledge → c.Binds t.path n.info.name) :
    r.Solo (l ++ [t]) c led := by
  refine ⟨h.aliased, ?_, ?_, ?_, ?_, h.single.concat ht⟩ <;>
    simp only [List.forall_mem_append, List.forall_mem_singleton]
  · exact ⟨h.sighted, hp⟩
  · exact ⟨h.lasts, hl⟩
  · exact ⟨h.called, hcalled⟩
  · exact ⟨h.bound, hbound⟩

theorem sight (h : r.Solo l c led) {m : Moment L} {e : Evaluation} (hc : e.context = c)
    (hl : e.ledger = led) (hd : ∀ n, m = .entered n ∨ m = .calling n → ¬n.isDecision)
    (hk : ∀ n, m = .bound n → ¬n.isKnowledge) : r.Solo (l ++ [⟨m, e⟩]) c led := by
  have hp : (⟨m, e⟩ : Sighting L).path = c.path := by rw [Sighting.path, hc]
  refine h.concat (hp ▸ h.aliased) (fun k hlost => hl ▸ hlost) ?_
    (fun n hm hdn => absurd hdn (hd n (.inr hm))) fun n hm hkn => absurd hkn (hk n hm)
  unfold Single
  cases m with
  | entered n => exact fun hdn => absurd hdn (hd n (.inl rfl))
  | calling n => exact fun hdn => absurd hdn (hd n (.inr rfl))
  | bound n => exact fun hkn => absurd hkn (hk n rfl)
  | _ => trivial

/-- Within the same entries the scope does not matter, as long as imports lead to it. -/
theorem rescope (h : r.Solo l c led) (he : c'.entries = c.entries)
    (hp : ∀ a ∈ c'.path, r.model.IsAlias a) : r.Solo l c' led := by
  refine ⟨hp, h.sighted, h.lasts, ?_, ?_, h.single⟩
  · unfold Context.Binds
    rw [he]
    exact h.called
  · unfold Context.Binds
    rw [he]
    exact h.bound

theorem set (h : r.Solo l c led) {name : String} (hn : ¬r.model.IsAlias name) (v : Value) :
    r.Solo l (c.set name v) led := by
  -- All paths lead through imports, so the new binding hides nothing on any of them.
  have hpath : ∀ t ∈ l, name ∉ t.path := fun t ht hm => hn (h.sighted t ht name hm)
  refine ⟨h.aliased, h.sighted, h.lasts, fun t ht n hm hd => ?_, fun t ht n hm hk => ?_, h.single⟩
  · exact (h.called t ht n hm hd).imp_left fun hb => hb.set (hpath t ht) v
  · exact (h.bound t ht n hm hk).set (hpath t ht) v

theorem mono (h : r.Solo l c led) (hl : ∀ k, led.Lost k → led'.Lost k) : r.Solo l c led' :=
  ⟨h.aliased, h.sighted, fun t ht k hk => hl k (h.lasts t ht k hk),
    fun t ht n hm hd => (h.called t ht n hm hd).imp_right (hl _), h.bound, h.single⟩

end Solo

/-- Something new since a state of the request: a decision that was not barred then, or a business
knowledge model that was not active. -/
def Novel (r : Request L σ) (e : Evaluation) (t : Sighting L) : Prop :=
  (∀ n, t.moment = .calling n → n.isDecision →
    (e.ledger.status (r.key n)).blocksReentry = false) ∧
  ∀ n, t.moment = .bound n → n.isKnowledge → e.isActive (r.key n) = false

/-- All that was sighted since then is new. -/
def Extends (r : Request L σ) (p q : Progress (σ × List (Sighting L))) : Prop :=
  ∃ new, q.record = p.record ++ new ∧ ∀ t ∈ new, r.Novel p.evaluation t

variable {p q s : Progress (σ × List (Sighting L))} {n : Node L} {b : Bool}

theorem Extends.still (h : q.record = p.record) : r.Extends p q := ⟨[], by simp [h], by simp⟩

theorem Extends.append (h : r.Extends p q) {new : List (Sighting L)}
    (hs : s.record = q.record ++ new) (hn : ∀ t ∈ new, r.Novel p.evaluation t) :
    r.Extends p s := by
  obtain ⟨old, hq, hold⟩ := h
  refine ⟨old ++ new, by rw [hs, hq, List.append_assoc], ?_⟩
  exact List.forall_mem_append.mpr ⟨hold, hn⟩

theorem Extends.sight (h : r.Extends p q) {m : Moment L} {e : Evaluation}
    (hs : s.record = q.record ++ [⟨m, e⟩]) (hc : ∀ n, m = .calling n → ¬n.isDecision)
    (hb : ∀ n, m = .bound n → ¬n.isKnowledge) : r.Extends p s := by
  refine h.append hs (List.forall_mem_singleton.mpr ⟨fun n hm hd => ?_, fun n hm hn => ?_⟩)
  · exact absurd hd (hc n hm)
  · exact absurd hn (hb n hm)

theorem Extends.watch (h : r.Extends p q) {m : Moment L} (hc : ∀ n, m = .calling n → ¬n.isDecision)
    (hb : ∀ n, m = .bound n → ¬n.isKnowledge) : r.Extends p (r.recording.watch m q) :=
  h.sight (record_watch r q m) hc hb

theorem Extends.leave (h : r.Extends p q) (n : Node L) (f : Evaluation → Evaluation) :
    r.Extends p (r.recording.watch (.left n) (q.update f)) :=
  h.sight (record_watch r (q.update f) (.left n)) (by simp) (by simp)

theorem Extends.trans (h : r.Extends p q)
    (hb : ∀ k, (p.ledger.status k).blocksReentry → (q.ledger.status k).blocksReentry)
    (ha : ∀ k, p.evaluation.isActive k → q.evaluation.isActive k) (h' : r.Extends q s) :
    r.Extends p s := by
  obtain ⟨new, hs, hnew⟩ := h'
  refine h.append hs fun t ht => ?_
  obtain ⟨hc, hk⟩ := hnew t ht
  refine ⟨fun n hm hd => ?_, fun n hm hn => ?_⟩
  · have hf := hc n hm hd
    rw [Bool.eq_false_iff] at hf ⊢
    exact fun hp => hf (hb _ hp)
  · have hf := hk n hm hn
    rw [Bool.eq_false_iff] at hf ⊢
    exact fun hp => hf (ha _ hp)

theorem Advances.lost {r : Request L σ} {l l' : Ledger} (h : r.Advances n b l l')
    (hn : r.Ongoing n l) {k : String} (hk : l.Lost k) : l'.Lost k := by
  by_cases ho : r.ownKey? n = some k
  · obtain ⟨hd, rfl⟩ := of_ownKey? ho
    have hs := h.status hd (hn hd)
    split at hs
    · exact hk.imp hs.trans hs.trans
    · exact .inr hs
  · exact hk.of_find? (h.keeps _ ho hk.blocksReentry)

def SoloAt (r : Request L σ) (p : Progress (σ × List (Sighting L))) : Prop :=
  r.Solo p.record p.context p.ledger

namespace SoloAt

theorem watch (h : r.SoloAt p) {m : Moment L}
    (hd : ∀ n, m = .entered n ∨ m = .calling n → ¬n.isDecision)
    (hk : ∀ n, m = .bound n → ¬n.isKnowledge) : r.SoloAt (r.recording.watch m p) :=
  Solo.sight h rfl rfl hd hk

theorem leave (h : r.SoloAt p) (n : Node L) : r.SoloAt (r.recording.watch (.left n) p) :=
  h.watch (by simp) (by simp)

theorem reportUnresolved (h : r.SoloAt p) (hl : p.ledger.Indexed) (hn : r.Ongoing n p.ledger)
    (name source : String) (d : Diagnostic) :
    r.SoloAt (r.recording.reportUnresolved n name source d p) := by
  have ha := advances_reportUnresolved (r := r.recording) (n := n) hl name source d
  have hc : (r.recording.reportUnresolved n name source d p).context = p.context := by simp
  unfold SoloAt
  rw [record_reportUnresolved, hc]
  exact (h.mono fun k hk => ha.lost hn hk).sight hc rfl (by simp) (by simp)

theorem bars_opening (hl : p.ledger.Indexed)
    (hb : n.isDecision → (p.ledger.status (r.key n)).blocksReentry = false) {k : String}
    (hk : (p.ledger.status k).blocksReentry) :
    (r.recording.opening n p).ledger.find? k = p.ledger.find? k := by
  obtain ⟨-, hkeeps, -⟩ := advances_opening (r := r.recording) (n := n) hl
  refine hkeeps k (fun ho => ?_) hk
  obtain ⟨hd, rfl⟩ := of_ownKey? ho
  have hbd := hb hd
  rw [show (p.ledger.status (r.key n)).blocksReentry = true from hk] at hbd
  cases hbd

theorem opening (h : r.SoloAt p) (hl : p.ledger.Indexed)
    (hb : n.isDecision → (p.ledger.status (r.key n)).blocksReentry = false) :
    r.SoloAt (r.recording.opening n p) := by
  have hlost (k : String) (hk : p.ledger.Lost k) : (r.recording.opening n p).ledger.Lost k :=
    hk.of_find? (bars_opening hl hb hk.blocksReentry)
  have hc : (r.recording.opening n p).context = p.context := by simp
  unfold SoloAt
  rw [record_opening, hc]
  refine (h.mono hlost).concat ?_ (fun _ hk => hk) (fun hd u hu hk => ?_) (by simp) (by simp)
  · rw [Sighting.path, ← Progress.context_eq, hc]
    exact h.aliased
  · have hbd := hb hd
    rw [(h.lasts u hu _ hk).blocksReentry] at hbd
    cases hbd

theorem not_binds (hs : n.info.ns = r.model.scopeNs p.context)
    (hu : r.isDefined p.context n.info n.info = false) :
    ¬p.context.Binds p.context.path n.info.name := by
  intro hb
  have hget : (p.context.get? n.info.name).isSome := hb
  rw [get?_of_undefined (r := r.recording) hu hs] at hget
  cases hget

end SoloAt

theorem key_of_subject {k n : Node L} (h : k.info.subject = n.info.subject) :
    r.key k = r.key n := by
  have hid : k.info.id = n.info.id := congrArg Subject.id h
  have hns : k.info.ns = n.info.ns := congrArg Subject.ns h
  simp only [key, Model.key, hid, hns]

/-- What was sighted until now was so before `n` was opened, or then, or is new since then. -/
theorem Extends.mem_cases (h : r.Extends (r.recording.opening n p) q) {u : Sighting L}
    (hu : u ∈ q.record) : u ∈ p.record ∨ u.moment = .entered n ∨
      r.Novel (r.recording.opening n p).evaluation u := by
  obtain ⟨new, hq, hnew⟩ := h
  rw [hq, record_opening] at hu
  rcases List.mem_append.mp hu with hu | hu
  · refine (List.mem_append.mp hu).imp_right fun hu => .inl ?_
    rw [List.mem_singleton.mp hu]
  · exact .inr (.inr (hnew u hu))

/-- Before a decision was opened its logic may have run in other scopes; since then it has not. -/
theorem single_calling (h : r.SoloAt p) (hl : p.ledger.Indexed) (hn : n.isDecision)
    (hs : n.info.ns = r.model.scopeNs p.context) (hu : r.isDefined p.context n.info n.info = false)
    (hb : (p.ledger.status (r.key n)).blocksReentry = false) (hq : r.SoloAt q)
    (hx : r.Extends (r.recording.opening n p) q) (hp : q.context.path = p.context.path)
    (hst : q.ledger.status (r.key n) = .evaluating) :
    r.Single q.record ⟨.calling n, q.evaluation⟩ := by
  intro _ u hmem
  refine ⟨fun hlost => ?_, fun k hm hk hsub => ?_⟩
  · rcases hq.lasts u hmem _ hlost with hf | hf <;> rw [hst] at hf <;> cases hf
  have hkey := key_of_subject (r := r) hsub
  -- An earlier call in this scope would have left a value or a bar, a later one met the bar of `n`.
  rcases hx.mem_cases hmem with hmem | hmu | ⟨hc, -⟩
  · show u.path ≠ q.context.path
    rw [hp]
    intro he
    rcases h.called u hmem k hm hk with hbinds | hlost
    · rw [he, show k.info.name = n.info.name from congrArg Subject.name hsub] at hbinds
      exact SoloAt.not_binds hs hu hbinds
    · rw [hkey] at hlost
      rw [hlost.blocksReentry] at hb
      cases hb
  · rw [hmu] at hm
    cases hm
  · obtain ⟨-, -, hown⟩ := advances_opening (r := r.recording) (n := n) hl
    have hev : (r.recording.opening n p).ledger.status (r.key n) = .evaluating := hown hn
    have hnot := hc k hm hk
    rw [hkey, ← Progress.ledger_eq, hev] at hnot
    cases hnot

/-- Before a business knowledge model was opened it may have been bound in other scopes; since then
it was not. -/
theorem single_bound (h : r.SoloAt p) (hn : n.isKnowledge)
    (hs : n.info.ns = r.model.scopeNs p.context) (hu : r.isDefined p.context n.info n.info = false)
    (hx : r.Extends (r.recording.opening n p) q) {e : Evaluation}
    (hp : e.context.path = p.context.path) : r.Single q.record ⟨.bound n, e⟩ := by
  intro _ u hmem k hm hk hsub
  rcases hx.mem_cases hmem with hmem | hmu | ⟨-, hf⟩
  · show u.path ≠ e.context.path
    rw [hp]
    intro he
    have hbinds := h.bound u hmem k hm hk
    rw [he, show k.info.name = n.info.name from congrArg Subject.name hsub] at hbinds
    exact SoloAt.not_binds hs hu hbinds
  · rw [hmu] at hm
    cases hm
  · have hnot := hf k hm hk
    rw [key_of_subject hsub, opening_of_knowledge hn] at hnot
    have hact : (p.evaluation.enter (r.key n)).isActive (r.key n) = false := hnot
    simp [Evaluation.isActive_enter] at hact

/-- Since the opening of `n` nothing was repeated until its logic was called, and the call has left
the context and the ledger as they were. -/
structure Asked (r : Request L σ) (n : Node L) (o q s : Progress (σ × List (Sighting L))) :
    Prop where
  record : s.record = q.record ++ [⟨.calling n, q.evaluation⟩]
  context : s.context = q.context
  ledger : s.ledger = q.ledger
  solo : r.SoloAt q
  extends_opening : r.Extends o q

/-- The node is new in its scope and not barred, and since it was opened the scope has stayed. -/
structure Opened (r : Request L σ) (n : Node L) (b : Bool)
    (p q : Progress (σ × List (Sighting L))) : Prop where
  owned : n.info.ns = r.model.scopeNs p.context
  unbound : r.isDefined p.context n.info n.info = false
  indexed : p.ledger.Indexed
  advances : r.recording.Advances n b (r.recording.opening n p).ledger q.ledger
  frames : q.context.frames = p.context.frames

namespace Opened

theorem path (h : r.Opened n b p q) : q.context.path = p.context.path :=
  congrArg (List.map Frame.name) h.frames

/-- A decision that is still without an unresolved dependency is evaluating. -/
theorem status (h : r.Opened n true p q) (hn : n.isDecision) :
    q.ledger.status (r.key n) = .evaluating := by
  obtain ⟨-, -, hown⟩ := advances_opening (r := r.recording) (n := n) h.indexed
  have hev : (r.recording.opening n p).ledger.status (r.key n) = .evaluating := hown hn
  have hst := h.advances.status hn (.inl hev)
  rwa [if_pos rfl, show r.recording.key n = r.key n from rfl, hev] at hst

theorem isSome (h : r.Opened n b p q) (hn : n.isDecision) :
    (q.ledger.find? (r.key n)).isSome := by
  obtain ⟨-, -, hown⟩ := advances_opening (r := r.recording) (n := n) h.indexed
  exact h.advances.isSome hn (hown hn)

end Opened

theorem Extends.of_opening (hx : r.Extends (r.recording.opening n p) q) (hl : p.ledger.Indexed)
    (hb : n.isDecision → (p.ledger.status (r.key n)).blocksReentry = false) :
    r.Extends p q := by
  have ho : r.Extends p (r.recording.opening n p) :=
    (Extends.still rfl).sight (record_opening r p n) (by simp) (by simp)
  refine ho.trans (fun k hk => ?_) (fun k hk => ?_) hx
  · rwa [Ledger.status_eq_of_find? (SoloAt.bars_opening hl hb hk)]
  · unfold opening
    split
    · exact hk
    · simp [Evaluation.isActive_enter, hk]

theorem Asked.extends {s : Progress (σ × List (Sighting L))}
    (h : r.Asked n (r.recording.opening n p) q s) (hl : p.ledger.Indexed)
    (hb : n.isDecision → (p.ledger.status (r.key n)).blocksReentry = false) :
    r.Extends p s := by
  refine (h.extends_opening.of_opening hl hb).append h.record
    (List.forall_mem_singleton.mpr ⟨fun k hm hd => ?_, by simp⟩)
  rw [← Moment.calling.inj hm] at hd ⊢
  exact hb hd

namespace SoloAt

variable {s : Progress (σ × List (Sighting L))}

theorem skip (h : r.SoloAt q) (ho : r.Opened n b p q) (hn : n.isDecision) (m : Option Message) :
    r.SoloAt (q.update (·.lose (r.key n) m .skipped)) := by
  have hq : r.Solo (q.update (·.lose (r.key n) m .skipped)).record
      (q.update (·.lose (r.key n) m .skipped)).context q.ledger := by
    cases m <;> exact h
  refine hq.mono fun k hk => ?_
  cases m <;> exact Ledger.lost_modify ho.advances.indexed (ho.isSome hn) (fun _ => rfl)
    (.inr rfl) (.inl hk)

theorem single_asked (h : r.SoloAt p) (ho : r.Opened n true p s) (hn : n.isDecision)
    (hb : (p.ledger.status (r.key n)).blocksReentry = false)
    (ha : r.Asked n (r.recording.opening n p) q s) :
    r.Single q.record ⟨.calling n, q.evaluation⟩ := by
  refine single_calling h ho.indexed hn ho.owned ho.unbound hb ha.solo ha.extends_opening ?_ ?_
  · rw [← ha.context, ho.path]
  · rw [← ha.ledger, ho.status hn]

theorem fail (h : r.SoloAt p) (ho : r.Opened n true p s) (hn : n.isDecision)
    (hb : (p.ledger.status (r.key n)).blocksReentry = false)
    (ha : r.Asked n (r.recording.opening n p) q s) (m : Option Message) :
    r.SoloAt (s.update (·.lose (r.key n) m .failed)) := by
  have hlost (k : String) (hk : q.ledger.Lost k ∨ k = r.key n) :
      (s.update (·.lose (r.key n) m .failed)).ledger.Lost k := by
    rw [← ha.ledger] at hk
    cases m <;> exact Ledger.lost_modify ho.advances.indexed (ho.isSome hn) (fun _ => rfl)
      (.inl rfl) hk
  have hc : (s.update (·.lose (r.key n) m .failed)).context = q.context := by
    rw [← ha.context]
    cases m <;> rfl
  unfold SoloAt
  rw [record_update, ha.record, hc]
  refine (ha.solo.mono fun k hk => hlost k (.inl hk)).concat ha.solo.aliased
    (fun k hk => hlost k (.inl hk)) (h.single_asked ho hn hb ha) (fun k hm _ => ?_) (by simp)
  rw [← Moment.calling.inj hm]
  exact .inr (hlost _ (.inr rfl))

theorem keep (h : r.SoloAt p) (ho : r.Opened n true p s) (hn : n.isDecision)
    (hb : (p.ledger.status (r.key n)).blocksReentry = false)
    (ha : r.Asked n (r.recording.opening n p) q s) (hname : ¬r.model.IsAlias n.info.name)
    (v : Value) : r.SoloAt (s.update fun e =>
      (e.onContext (·.set n.info.name v)).onLedger (·.modify (r.key n) (·.succeed v))) := by
  -- What is lost is another decision, since this one is evaluating.
  have hlost (k : String) (hk : q.ledger.Lost k) :
      (s.ledger.modify (r.key n) (·.succeed v)).Lost k := by
    rw [← ha.ledger] at hk
    have hne : r.key n ≠ k := by
      rintro rfl
      rcases hk with hk | hk <;> rw [ho.status hn] at hk <;> cases hk
    exact hk.imp (Ledger.status_modify_of_ne ho.advances.indexed hne _).trans
      (Ledger.status_modify_of_ne ho.advances.indexed hne _).trans
  have hc : (s.update fun e => (e.onContext (·.set n.info.name v)).onLedger
      (·.modify (r.key n) (·.succeed v))).context = q.context.set n.info.name v := by
    rw [← ha.context]
    rfl
  unfold SoloAt
  rw [record_update, ha.record, hc]
  refine ((ha.solo.set hname v).mono hlost).concat ha.solo.aliased hlost
    (h.single_asked ho hn hb ha) (fun k hm _ => .inl ?_) (by simp)
  rw [← Moment.calling.inj hm]
  have hget : ((q.context.set n.info.name v).get? n.info.name).isSome := by simp
  exact hget

theorem of_asked (ha : r.Asked n (r.recording.opening n p) q s) (hn : n.isKnowledge) :
    r.SoloAt s := by
  unfold SoloAt
  rw [ha.record, ha.context, ha.ledger]
  refine ha.solo.sight rfl rfl (fun k hm => ?_) (by simp)
  rcases hm with hm | hm <;> cases hm
  exact Node.not_isDecision hn

theorem give (h : r.SoloAt p) (ho : r.Opened n true p s) (hn : n.isKnowledge)
    (ha : r.Asked n (r.recording.opening n p) q s) (hname : ¬r.model.IsAlias n.info.name)
    (v : Value) : r.SoloAt (r.recording.watch (.bound n)
      (s.update (·.onContext (·.set n.info.name v)))) := by
  have hs := of_asked ha hn
  have hx : r.Extends (r.recording.opening n p) s :=
    ha.extends_opening.sight ha.record (fun k hm => by
      rw [← Moment.calling.inj hm]
      exact Node.not_isDecision hn) (by simp)
  refine (hs.set hname v).concat hs.aliased (fun _ hk => hk)
    (single_bound h hn ho.owned ho.unbound hx ho.path) (by simp) fun k hm _ => ?_
  rw [← Moment.bound.inj hm]
  have hget : ((s.context.set n.info.name v).get? n.info.name).isSome := by simp
  exact hget

end SoloAt

/-- What a visit leaves alone, and that in the scope of its node it repeats nothing. -/
def Visited (r : Request L σ) (n : Node L) (p : Progress (σ × List (Sighting L)))
    (x : Resolution × Progress (σ × List (Sighting L))) : Prop :=
  (((p.ledger.Indexed → x.2.ledger.Indexed ∧ p.ledger.Keeps none x.2.ledger) ∧
    x.2.context.frames = p.context.frames) ∧ x.2.evaluation.active = p.evaluation.active) ∧
    (n ∈ r.model.nodes → n.info.ns = r.model.scopeNs p.context → p.ledger.Indexed →
      r.SoloAt p → r.SoloAt x.2 ∧ r.Extends p x.2)

def Prepared (r : Request L σ) (n : Node L) (b : Bool)
    (p q : Progress (σ × List (Sighting L))) : Prop :=
  (((p.ledger.Indexed → r.recording.Advances n b p.ledger q.ledger) ∧
    q.context.frames = p.context.frames) ∧ q.evaluation.active = p.evaluation.active) ∧
    (n ∈ r.model.nodes → p.ledger.Indexed → r.Ongoing n p.ledger →
      r.SoloAt p → r.SoloAt q ∧ r.Extends p q)

/-- Up to the call of its logic the evaluation of `n` repeats nothing. -/
def Called (r : Request L σ) (n : Node L) (p s : Progress (σ × List (Sighting L))) : Prop :=
  (((p.ledger.Indexed → r.recording.Advances n true p.ledger s.ledger) ∧
    s.context.frames = p.context.frames) ∧ s.evaluation.active = p.evaluation.active) ∧
    (n ∈ r.model.nodes → p.ledger.Indexed → r.Ongoing n p.ledger →
      r.SoloAt p → ∃ q, r.Asked n p q s)

section opened

variable (hs : n.info.ns = r.model.scopeNs p.context)
  (hu : r.isDefined p.context n.info n.info = false) (hl : p.ledger.Indexed)
  (hb : n.isDecision → (p.ledger.status (r.key n)).blocksReentry = false)
  (hmem : n ∈ r.model.nodes) (hp : r.SoloAt p)

include hs hu hl hb hmem hp

theorem Prepared.opened (h : r.Prepared n b (r.recording.opening n p) q) :
    r.Opened n b p q ∧ r.SoloAt q ∧ r.Extends p q := by
  obtain ⟨hi, -, hown⟩ := advances_opening (r := r.recording) (n := n) hl
  obtain ⟨⟨⟨ha, hf⟩, -⟩, hsolo⟩ := h
  obtain ⟨hq, hx⟩ := hsolo hmem hi (fun hd => .inl (hown hd)) (hp.opening hl hb)
  rw [Progress.context_eq (r.recording.opening n p), context_opening] at hf
  exact ⟨⟨hs, hu, hl, ha hi, hf⟩, hq, hx.of_opening hl hb⟩

theorem Called.opened (h : r.Called n (r.recording.opening n p) s) :
    r.Opened n true p s ∧ ∃ q, r.Asked n (r.recording.opening n p) q s := by
  obtain ⟨hi, -, hown⟩ := advances_opening (r := r.recording) (n := n) hl
  obtain ⟨⟨⟨ha, hf⟩, -⟩, hsolo⟩ := h
  rw [Progress.context_eq (r.recording.opening n p), context_opening] at hf
  exact ⟨⟨hs, hu, hl, ha hi, hf⟩, hsolo hmem hi (fun hd => .inl (hown hd)) (hp.opening hl hb)⟩

end opened

/-- No visit repeats anything. -/
theorem lawful_solo (hq : r.host.Quiet) (hapart : r.model.AliasesApart) :
    r.recording.Lawful r.Visited r.Prepared r.Called := by
  have h := ((lawful_ledger (r := r.recording) hq.recording.keepsLedger).and
    (lawful_frames hq.recording.keepsScope)).and (lawful_active hq.recording.keepsActive)
  exact {
    refl n p := ⟨h.refl n p, fun _ _ _ hp => ⟨hp, .still rfl⟩⟩
    trans := by
      rintro n a b p q s ⟨hbase, hpq⟩ ⟨hbase', hqs⟩
      refine ⟨h.trans hbase hbase', fun hmem hi hn hp => ?_⟩
      obtain ⟨hq, hx⟩ := hpq hmem hi hn hp
      have ha := hbase.1.1 hi
      obtain ⟨hs, hx'⟩ := hqs hmem ha.indexed (ha.ongoing hn) hq
      refine ⟨hs, hx.trans (fun k hk => ha.blocksReentry hn hk) (fun k hk => ?_) hx'⟩
      rwa [Evaluation.isActive, hbase.2]
    unresolved n name id source d p he := ⟨h.unresolved n name id source d p he,
      fun _ hi hn hp => ⟨hp.reportUnresolved hi hn name source d,
        (Extends.still rfl).sight (record_reportUnresolved r p n name source d) (by simp)
          (by simp)⟩⟩
    fits n d type p ht hd hr hc := ⟨h.fits n d type p ht hd hr hc,
      fun _ _ _ hp => ⟨hp.watch (by simp) (by simp), (Extends.still rfl).watch (by simp) (by simp)⟩⟩
    misfit n d type p name id source g ht he hd hr hc := by
      refine ⟨h.misfit n d type p name id source g ht he hd hr hc, fun _ hi hn hp => ?_⟩
      have hw : r.SoloAt (r.recording.watch (.examined n d (r.recording.found n d p)) p) :=
        hp.watch (by simp) (by simp)
      exact ⟨hw.reportUnresolved hi hn name source g,
        ((Extends.still rfl).watch (by simp) (by simp)).sight
          (record_reportUnresolved r _ n name source g) (by simp) (by simp)⟩
    report n m p := ⟨h.report n m p, fun _ _ _ hp => ⟨hp, .still rfl⟩⟩
    notify n e p := ⟨h.notify n e p, fun _ _ _ hp => ⟨hp, .still rfl⟩⟩
    here n d p x hd hu hs hx := ⟨h.here n d p x hd hu hs hx.1, fun _ hi _ hp =>
      hx.2 (Model.mem_nodes_of_mem_requirements hd) hs hi hp⟩
    through n d p a x hd hu hs ha hx := by
      refine ⟨h.through n d p a x hd hu hs ha hx.1, fun hmem hi _ hp => ?_⟩
      -- Inside, the path is longer by the import's own name; afterwards it is what it was.
      have halias : ∀ b ∈ (p.context.push ⟨a, d.info.ns⟩).path, r.model.IsAlias b := by
        simp only [Context.path, Context.frames_push, List.map_append, List.forall_mem_append]
        exact ⟨hp.aliased, by simpa using Model.isAlias_of_importName? hmem ha⟩
      obtain ⟨hx', hext⟩ := hx.2 (Model.mem_nodes_of_mem_requirements hd)
        (Model.scopeNs_push r.model p.context ⟨a, d.info.ns⟩).symm hi
        (Solo.rescope hp rfl halias)
      refine ⟨Solo.rescope hx' rfl ?_, hext⟩
      have hf : (x.2.context.closeTo p.context.depth).frames = p.context.frames :=
        Context.frames_closeTo hx.1.1.2
      have hpath : (x.2.context.closeTo p.context.depth).path = p.context.path :=
        congrArg (List.map Frame.name) hf
      exact hpath ▸ hp.aliased
    call n logic room p q hl hpq hok hres := by
      refine ⟨h.call n logic room p q hl hpq.1 hok hres.1, fun hmem hi hn hp => ?_⟩
      obtain ⟨hs, hx⟩ := hres.2 hmem hi hn hp
      have he := evaluation_callLogic (r := r.recording) hq.recording n logic
        (r.recording.resolve (r.recording.visit room) n q).2
      exact ⟨_, record_callLogic r _ n logic, congrArg Evaluation.context he,
        congrArg Evaluation.ledger he, hs, hx⟩
    complained n p q m hs := ⟨h.complained n p q m hs.1, fun hmem hi hn hp => by
      obtain ⟨o, ha⟩ := hs.2 hmem hi hn hp
      exact ⟨o, ha.record, ha.context, ha.ledger, ha.solo, ha.extends_opening⟩⟩
    stay n p res hres := ⟨h.stay n p res hres, fun _ _ _ hp => ⟨hp, .still rfl⟩⟩
    told n p res q e hs := ⟨h.told n p res q e hs.1, hs.2⟩
    tooDeep n p d hn hu hb := by
      refine ⟨h.tooDeep n p d hn hu hb, fun _ _ hi hp => ⟨?_, .still rfl⟩⟩
      have hk := ((h.tooDeep n p d hn hu hb).1.1 hi).2
      exact Solo.mono hp fun k hlost => hlost.of_keeps hk
    skipped n p b q m hn hu hb hs := by
      refine ⟨h.skipped n p b q m hn hu hb hs.1, fun hmem hns hi hp => ?_⟩
      obtain ⟨ho, hq, hx⟩ := hs.opened hns hu hi (fun _ => hb) hmem hp
      exact ⟨(hq.skip ho hn m).leave n, hx.leave n _⟩
    failed n p q m hn hu hb hs := by
      refine ⟨h.failed n p q m hn hu hb hs.1, fun hmem hns hi hp => ?_⟩
      obtain ⟨ho, o, ha⟩ := hs.opened hns hu hi (fun _ => hb) hmem hp
      exact ⟨(hp.fail ho hn hb ha m).leave n, (ha.extends hi fun _ => hb).leave n _⟩
    kept n p q v hn hu hb hs := by
      refine ⟨h.kept n p q v hn hu hb hs.1, fun hmem hns hi hp => ?_⟩
      obtain ⟨ho, o, ha⟩ := hs.opened hns hu hi (fun _ => hb) hmem hp
      have hk : ∀ k, Moment.bound n = .bound k → ¬k.isKnowledge := fun k hm => by
        rw [← Moment.bound.inj hm]
        exact Node.not_isKnowledge hn
      refine ⟨?_, ?_⟩
      · have hv := hp.keep ho hn hb ha (hapart n hmem (.inl hn)) v
        exact (hv.watch (by simp) hk).leave n
      · have hx : r.Extends p (q.update fun e => (e.onContext (·.set n.info.name v)).onLedger
            (·.modify (r.key n) (·.succeed v))) := ha.extends hi fun _ => hb
        exact (hx.watch (by simp) hk).watch (by simp) (by simp)
    reported n p m hn := ⟨h.reported n p m hn, fun _ _ _ hp => ⟨hp, .still rfl⟩⟩
    heard n p e x hn hx := ⟨h.heard n p e x hn hx.1, hx.2⟩
    abandoned n p b q hn ha hu hs := by
      refine ⟨h.abandoned n p b q hn ha hu hs.1, fun hmem hns hi hp => ?_⟩
      have hd := Node.not_isDecision hn
      obtain ⟨-, hq, hx⟩ := hs.opened hns hu hi (fun h => absurd h hd) hmem hp
      exact ⟨SoloAt.leave (p := q.update (·.leave (r.key n))) hq n, hx.leave n _⟩
    ended n p q hn ha hu hs := by
      refine ⟨h.ended n p q hn ha hu hs.1, fun hmem hns hi hp => ?_⟩
      have hd := Node.not_isDecision hn
      obtain ⟨-, o, ha⟩ := hs.opened hns hu hi (fun h => absurd h hd) hmem hp
      have hq : r.SoloAt q := .of_asked ha hn
      exact ⟨SoloAt.leave (p := q.update (·.leave (r.key n))) hq n,
        (ha.extends hi fun h => absurd h hd).leave n _⟩
    given n p q f hn ha hu hs := by
      refine ⟨h.given n p q f hn ha hu hs.1, fun hmem hns hi hp => ?_⟩
      have hd := Node.not_isDecision hn
      obtain ⟨ho, o, hasked⟩ := hs.opened hns hu hi (fun h => absurd h hd) hmem hp
      refine ⟨?_, ?_⟩
      · have hg := hp.give ho hn hasked (hapart n hmem (.inr hn)) (.function f)
        exact SoloAt.leave (p := (r.recording.watch (.bound n)
          (q.update (·.onContext (·.set n.info.name (.function f))))).update
            (·.leave (r.key n))) hg n
      · have hx : r.Extends p (r.recording.watch (.bound n)
            (q.update (·.onContext (·.set n.info.name (.function f))))) := by
          refine (hasked.extends hi fun h => absurd h hd).append (record_watch r _ _)
            (List.forall_mem_singleton.mpr ⟨by simp, fun k hm _ => ?_⟩)
          rw [← Moment.bound.inj hm]
          exact ha
        exact hx.leave n _ }

theorem solo_run (hq : r.host.Quiet) (hapart : r.model.AliasesApart) (s : Selection) {c : Context}
    (hc : c.frames = []) (w : σ) : Throughout r.Single (r.record s c w) := by
  have hrun : r.SoloAt (r.recording.run s c (w, [])) ∧
      (r.recording.run s c (w, [])).ledger.Indexed ∧
      (r.recording.run s c (w, [])).context.frames = [] := by
    refine run_induction (P := fun p => r.SoloAt p ∧ p.ledger.Indexed ∧ p.context.frames = [])
      ⟨?_, r.model.indexed_freshLedger, hc⟩ ?_ fun d p hp => hp
    · exact Solo.start hc r.model.freshLedger
    · rintro n p hn ⟨hp, hi, hf⟩
      have hlocal := Model.mem_localDecisions_of_mem_errands hn
      have hs : n.info.ns = r.model.scopeNs p.context :=
        (Model.ns_of_mem_localDecisions hlocal).trans (Model.scopeNs_of_root hf).symm
      obtain ⟨⟨⟨hl, hframes⟩, -⟩, hv⟩ := (lawful_solo hq hapart).visit r.maxDepth n p
      exact ⟨(hv (Model.mem_nodes_of_mem_localDecisions hlocal) hs hi hp).1, (hl hi).1,
        hframes.trans hf⟩
  exact hrun.1.single

/-- In each scope the logic of a decision is called once at most, and a business knowledge model
is bound once at most; scopes are told apart by the names that lead to them. A decision that has
failed or was skipped, in whatever scope, is neither entered nor called any more in any scope. -/
theorem evaluated_once (hq : r.host.Quiet) (hapart : r.model.AliasesApart) (s : Selection)
    {c : Context} (hc : c.frames = []) (w : σ) : (r.record s c w).Pairwise fun t u =>
    (∀ n k, t.moment = .calling n → u.moment = .calling k → n.isDecision → k.isDecision →
      n.info.subject = k.info.subject → t.path ≠ u.path) ∧
    (∀ n k, t.moment = .bound n → u.moment = .bound k → n.isKnowledge → k.isKnowledge →
      n.info.subject = k.info.subject → t.path ≠ u.path) ∧
    (∀ n, n.isDecision → t.evaluation.ledger.Lost (r.key n) →
      u.moment ≠ .entered n ∧ u.moment ≠ .calling n) := by
  refine (solo_run hq hapart s hc w).pairwise fun before t u ht hu => ⟨?_, ?_, ?_⟩
  · intro n k hm hk hn hkd hsub
    unfold Single at hu
    rw [hk] at hu
    exact (hu hkd t ht).2 n hm hn hsub
  · intro n k hm hk hn hkk hsub
    unfold Single at hu
    rw [hk] at hu
    exact hu hkk t ht n hm hn hsub
  · intro n hn hlost
    unfold Single at hu
    refine ⟨fun hm => ?_, fun hm => ?_⟩
    · rw [hm] at hu
      exact hu hn t ht hlost
    · rw [hm] at hu
      exact (hu hn t ht).1 hlost

/-- The desk gets to the prices in two ways. The logic of their total is called on each of them, in
two scopes. -/
theorem evaluated_once_desk : Host.functions.Quiet ∧ Formula.desk.AliasesApart ∧
    Formula.deskInput.frames = [] ∧
    ∃ t u : Sighting Formula,
      (Formula.deskRequest.record .all Formula.deskInput ())[7]? = some t ∧
      (Formula.deskRequest.record .all Formula.deskInput ())[21]? = some u ∧
      t.moment = .calling Formula.total ∧
      u.moment = .calling (Builder.shifted 3 Formula.total) ∧
      t.path = ["p"] ∧ u.path = ["o", "p"] ∧ t.path ≠ u.path := by
  have hapart : Formula.desk.AliasesApart := by
    unfold Model.AliasesApart Model.IsAlias
    decide
  obtain ⟨t, u, ht, hu, htm, hum, htp, hup⟩ :
      ∃ t u : Sighting Formula,
        (Formula.deskRequest.record .all Formula.deskInput ())[7]? = some t ∧
        (Formula.deskRequest.record .all Formula.deskInput ())[21]? = some u ∧
        t.moment = .calling Formula.total ∧
        u.moment = .calling (Builder.shifted 3 Formula.total) ∧
        t.path = ["p"] ∧ u.path = ["o", "p"] := ⟨_, _, rfl, rfl, rfl, rfl, rfl, rfl⟩
  refine ⟨Host.functions_quiet, hapart, rfl, t, u, ht, hu, htm, hum, htp, hup, ?_⟩
  have h := evaluated_once (r := Formula.deskRequest) Host.functions_quiet hapart .all
    (c := Formula.deskInput) rfl ()
  obtain ⟨h7, rfl⟩ := List.getElem?_eq_some_iff.mp ht
  obtain ⟨h21, rfl⟩ := List.getElem?_eq_some_iff.mp hu
  obtain ⟨hcalled, -⟩ := List.pairwise_iff_getElem.mp h 7 21 h7 h21 (by decide)
  exact hcalled _ _ htm hum rfl rfl rfl

end Request

end DecisionGraph
