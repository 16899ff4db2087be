import DecisionGraph.Proofs.Growth
import DecisionGraph.Proofs.Once

namespace DecisionGraph

variable {L σ : Type}

/-- Something was bound in an import scope that was opened at a slot, or further inside. -/
def ScopeBound (l : List (Sighting L)) (slot : List String) : Prop :=
  ∃ t ∈ l, ∃ n, t.moment = .bound n ∧ slot <+: t.path

/-- A value is still there, or a context stands in its place. If the value was no context, then
something was bound there. -/
def Value.Spared (l : List (Sighting L)) (slot : List String) (v v' : Value) : Prop :=
  v' = v ∨ v'.entries?.isSome ∧ (v.entries?.isSome ∨ ScopeBound l slot)

/-- Each binding of the input is spared. -/
def Context.Spares (c d : Context) (l : List (Sighting L)) : Prop :=
  ∀ path name v, c.entries.lookup? path name = some v →
    ∃ v', d.entries.lookup? path name = some v' ∧ v.Spared l (path ++ [name]) v'

variable {c d e : Context} {l : List (Sighting L)} {slot : List String} {v v' : Value}

theorem ScopeBound.concat (h : ScopeBound l slot) (t : Sighting L) : ScopeBound (l ++ [t]) slot := by
  obtain ⟨u, hu, hn⟩ := h
  exact ⟨u, List.mem_append_left _ hu, hn⟩

theorem Value.Spared.concat (h : v.Spared l slot v') (t : Sighting L) :
    v.Spared (l ++ [t]) slot v' :=
  h.imp_right fun hc => hc.imp_right fun hs => hs.imp_right fun hb => hb.concat t

namespace Context.Spares

theorem refl (c : Context) : c.Spares c l := fun _ _ v h => ⟨v, h, .inl rfl⟩

theorem rescope (h : c.Spares d l) (he : e.entries = d.entries) : c.Spares e l := by
  intro path name v hv
  rw [he]
  exact h path name v hv

theorem concat (h : c.Spares d l) (t : Sighting L) : c.Spares d (l ++ [t]) := by
  intro path name v hv
  obtain ⟨v', hd, hs⟩ := h path name v hv
  exact ⟨v', hd, hs.concat t⟩

/-- What the input does not bind can be bound. A binding that is sighted explains the contexts that
it leaves on its way. -/
theorem set (h : c.Spares d l) {name : String} (hfree : c.entries.lookup? d.path name = none)
    (v : Value) {t : Sighting L} {n : Node L} (ht : t.moment = .bound n) (hp : t.path = d.path) :
    c.Spares (d.set name v) (l ++ [t]) := by
  intro path x u hu
  obtain ⟨u', hd, hs⟩ := h path x u hu
  by_cases hway : path ++ [x] <+: d.path
  · obtain ⟨inner, hi⟩ := Bindings.lookup?_exchangeAt_of_way name (b := d.entries) v hway
    have hbound : ScopeBound (l ++ [t]) (path ++ [x]) :=
      ⟨t, List.mem_append_right _ List.mem_cons_self, n, ht, hp ▸ hway⟩
    exact ⟨.context inner, hi, .inr ⟨rfl, .inr hbound⟩⟩
  · -- Nothing of the input lies at the new binding or below it.
    have hbelow : ¬d.path ++ [name] <+: path ++ [x] := by
      intro hb
      rcases List.prefix_concat_iff.mp hb with he | hq
      · obtain ⟨rfl, hx⟩ := List.append_inj' he rfl
        obtain rfl : name = x := by simpa using hx
        rw [hfree] at hu
        cases hu
      · rw [Bindings.lookup?_below hfree hq x] at hu
        cases hu
    refine ⟨u', ?_, hs.concat t⟩
    rw [entries_set, Bindings.lookup?_exchangeAt_of_apart v hway hbelow]
    exact hd

theorem lookup?_eq_none (h : c.Spares d l) {path : List String} {name : String}
    (hd : d.entries.lookup? path name = none) : c.entries.lookup? path name = none := by
  cases hc : c.entries.lookup? path name with
  | none => rfl
  | some v =>
    obtain ⟨v', hv', -⟩ := h path name v hc
    rw [hd] at hv'
    cases hv'

end Context.Spares

namespace Request

variable {r : Request L σ} {n : Node L} {p q : Progress (σ × List (Sighting L))}

/-- The input is spared, and no node was entered that has a value in it. -/
structure Survives (c : Context) (p : Progress (σ × List (Sighting L))) : Prop where
  spares : c.Spares p.context p.record
  entered : ∀ t ∈ p.record, ∀ n, t.moment = .entered n →
    c.entries.lookup? t.path n.info.name = none

namespace Survives

theorem still (h : Survives c p) (hr : q.record = p.record)
    (he : q.context.entries = p.context.entries) : Survives c q :=
  ⟨hr ▸ h.spares.rescope he, hr ▸ h.entered⟩

theorem sight (h : Survives c p) {m : Moment L} {e : Evaluation} (hm : ∀ n, m ≠ .entered n)
    (hr : q.record = p.record ++ [⟨m, e⟩]) (he : q.context.entries = p.context.entries) :
    Survives c q := by
  refine ⟨hr ▸ (h.spares.rescope he).concat _, ?_⟩
  rw [hr, List.forall_mem_append, List.forall_mem_singleton]
  exact ⟨h.entered, fun n hn => absurd hn (hm n)⟩

theorem watch (h : Survives c p) {m : Moment L} (hm : ∀ n, m ≠ .entered n) :
    Survives c (r.recording.watch m p) :=
  h.sight hm rfl rfl

theorem reportUnresolved (h : Survives c p) (n : Node L) (name source : String) (g : Diagnostic) :
    Survives c (r.recording.reportUnresolved n name source g p) :=
  h.sight (m := .unresolved n name) nofun (record_reportUnresolved r p n name source g) (by simp)

theorem opening (h : Survives c p) (hfree : p.context.get? n.info.name = none) :
    Survives c (r.recording.opening n p) := by
  have he : (r.recording.opening n p).evaluation.context = p.context := context_opening ..
  have hrec := record_opening r p n
  refine ⟨hrec ▸ (h.spares.rescope (congrArg Context.entries he)).concat _, ?_⟩
  rw [hrec, List.forall_mem_append, List.forall_mem_singleton]
  refine ⟨h.entered, fun d hd => ?_⟩
  rw [Sighting.path, he, ← Moment.entered.inj hd]
  exact h.spares.lookup?_eq_none hfree

theorem bind (h : Survives c q) (hc : c.entries.lookup? q.context.path n.info.name = none)
    (v : Value) {f : Evaluation → Evaluation}
    (hf : (f q.evaluation).context = q.context.set n.info.name v) :
    Survives c (r.recording.watch (.bound n) (q.update f)) := by
  have hpath : (f q.evaluation).context.path = q.context.path := by rw [hf]; rfl
  constructor
  · rw [record_watch, Progress.context_eq, evaluation_watch, Progress.evaluation_update, hf]
    exact h.spares.set hc v rfl hpath
  · rw [record_watch, List.forall_mem_append, List.forall_mem_singleton]
    exact ⟨h.entered, nofun⟩

end Survives

/-- On the way from one point of a request to another the input survives, and in the end the open
scopes are those of the beginning. -/
structure Protects (c : Context) (p q : Progress (σ × List (Sighting L))) : Prop where
  frames : q.context.frames = p.context.frames
  survives : Survives c p → Survives c q

namespace Protects

variable {s : Progress (σ × List (Sighting L))}

theorem refl (c : Context) (p : Progress (σ × List (Sighting L))) : Protects c p p := ⟨rfl, id⟩

theorem trans (h : Protects c p q) (h' : Protects c q s) : Protects c p s :=
  ⟨h'.frames.trans h.frames, fun hp => h'.survives (h.survives hp)⟩

theorem still (hr : q.record = p.record) (hc : q.context = p.context) : Protects c p q :=
  ⟨congrArg Context.frames hc, fun hp => hp.still hr (congrArg Context.entries hc)⟩

theorem watch {m : Moment L} (hm : ∀ n, m ≠ .entered n) :
    Protects c p (r.recording.watch m p) :=
  ⟨rfl, fun hp => hp.watch hm⟩

theorem callLogic (hq : r.host.Quiet) (n : Node L) (logic : L) :
    Protects c p (r.recording.callLogic n logic p).2 := by
  have he : (r.recording.callLogic n logic p).2.context = p.context :=
    congrArg Evaluation.context (evaluation_callLogic (r := r.recording) hq.recording n logic p)
  exact ⟨congrArg Context.frames he, fun hp => hp.sight (m := .calling n) nofun
    (record_callLogic r p n logic) (congrArg Context.entries he)⟩

variable (hfree : p.context.get? n.info.name = none)

include hfree

theorem opened (h : Protects c (r.recording.opening n p) q) : Protects c p q := by
  have he : (r.recording.opening n p).context = p.context := context_opening ..
  exact ⟨h.frames.trans (congrArg Context.frames he), fun hp => h.survives (hp.opening hfree)⟩

theorem leave (h : Protects c (r.recording.opening n p) q) {f : Evaluation → Evaluation}
    (hf : (f q.evaluation).context = q.context) :
    Protects c p (r.recording.watch (.left n) (q.update f)) :=
  ((h.opened hfree).trans (.still (q := q.update f) rfl hf)).trans (.watch nofun)

/-- Before it ends the node is bound. The input has no value there, as the node had none when it was
opened. -/
theorem bind (h : Protects c (r.recording.opening n p) q) (v : Value) {f : Evaluation → Evaluation}
    (hf : (f q.evaluation).context = q.context.set n.info.name v) :
    Protects c p (r.recording.watch (.bound n) (q.update f)) := by
  have hq := h.opened hfree
  have hpath : q.context.path = p.context.path := congrArg (List.map Frame.name) hq.frames
  refine ⟨(congrArg Context.frames hf).trans hq.frames, fun hp => ?_⟩
  have hinput : c.entries.lookup? q.context.path n.info.name = none := by
    rw [hpath]
    exact hp.spares.lookup?_eq_none hfree
  exact (hq.survives hp).bind hinput v hf

end Protects

theorem lawful_survival (hq : r.host.Quiet) (c : Context) :
    r.recording.Lawful
      (fun n p x => n.info.ns = r.model.scopeNs p.context → Protects c p x.2)
      (fun _ _ p q => Protects c p q) (fun _ p q => Protects c p q) where
  refl _ p := .refl c p
  trans h h' := h.trans h'
  unresolved n name _ source d p _ := ⟨by simp, fun hp => hp.reportUnresolved n name source d⟩
  fits _ _ _ _ _ _ _ _ := .watch nofun
  misfit n d _ p name _ source g _ _ _ _ _ :=
    ⟨by simp, fun hp => (hp.watch (m := .examined n d (r.recording.found n d p))
      nofun).reportUnresolved n name source g⟩
  report _ _ _ := .still rfl rfl
  notify _ _ _ := .still rfl rfl
  here _ _ _ _ _ _ hs hx := hx hs
  through n d p a x _ _ _ _ hx := by
    have h := hx (Model.scopeNs_push r.model p.context ⟨a, d.info.ns⟩).symm
    exact ⟨Context.frames_closeTo h.frames, fun hp =>
      (h.survives (hp.still rfl rfl)).still rfl rfl⟩
  call n logic _ _ _ _ _ _ h := h.trans (.callLogic hq n logic)
  complained _ _ _ _ h := h.trans (.still rfl rfl)
  stay _ p _ _ _ := .refl c p
  told _ _ _ _ _ h hs := (h hs).trans (.still rfl rfl)
  tooDeep _ _ _ _ _ _ _ := .still rfl rfl
  skipped n p b q m _ hu _ h hs := h.leave (get?_of_undefined hu hs) (by cases m <;> rfl)
  failed n p q m _ hu _ h hs := h.leave (get?_of_undefined hu hs) (by cases m <;> rfl)
  kept n p q v _ hu _ h hs :=
    (h.bind (get?_of_undefined hu hs) v rfl).trans (.watch nofun)
  reported _ _ _ _ _ := .still rfl rfl
  heard _ p e _ _ h hs := by
    have hn : Protects c p (r.recording.notify e p) := .still rfl rfl
    exact hn.trans (h hs)
  abandoned n p b q _ _ hu h hs := h.leave (get?_of_undefined hu hs) rfl
  ended n p q _ _ hu h hs := h.leave (get?_of_undefined hu hs) rfl
  given n p q f _ _ hu h hs := by
    have hbound : Protects c p (r.recording.watch (.bound n)
        (q.update (·.onContext (·.set n.info.name (.function f))))) :=
      h.bind (get?_of_undefined hu hs) (.function f) rfl
    have hleft := hbound.trans (.still (q := (r.recording.watch (.bound n)
      (q.update (·.onContext (·.set n.info.name (.function f))))).update (·.leave (r.key n)))
        rfl rfl)
    exact hleft.trans (.watch nofun)

theorem survives_run (hq : r.host.Quiet) (s : Selection) {c : Context} (hc : c.frames = [])
    (w : σ) : Survives c (r.recording.run s c (w, [])) := by
  have hrun : (r.recording.run s c (w, [])).context.frames = [] ∧
      Survives c (r.recording.run s c (w, [])) := by
    refine run_induction (P := fun p => p.context.frames = [] ∧ Survives c p) ?_ ?_ ?_
    · exact ⟨hc, .refl c, nofun⟩
    · rintro n p hn ⟨hf, hp⟩
      -- Between the errands no scope is open, and the model's own decisions are at home there.
      have ho := Model.ns_of_mem_localDecisions (Model.mem_localDecisions_of_mem_errands hn)
      have hv := (lawful_survival hq c).visit r.maxDepth n p
        (ho.trans (Model.scopeNs_of_root hf).symm)
      exact ⟨hv.frames.trans hf, hv.survives hp⟩
    · exact fun _ _ hp => ⟨hp.1, hp.2.still rfl rfl⟩
  exact hrun.2

/-- In the end of a request all paths that its input binds are bound. Contexts are contexts still,
and other values are the same as before, except for those in whose place an import scope was opened
in which something was bound: there is a context there. No node was evaluated in a scope in which
the input has a value for it. -/
theorem inputs_survive (hq : r.host.Quiet) (s : Selection) {c : Context} (hc : c.frames = [])
    (w : σ) :
    (∀ path name v, c.entries.lookup? path name = some v →
      ∃ v', (r.run s c w).context.entries.lookup? path name = some v' ∧
        (v.entries?.isSome → v'.entries?.isSome) ∧
        (v.entries? = none → v' = v ∨ v'.entries?.isSome ∧
          ∃ t ∈ r.record s c w, ∃ n, t.moment = .bound n ∧ path ++ [name] <+: t.path)) ∧
    (∀ t ∈ r.record s c w, ∀ n, t.moment = .entered n →
      c.entries.lookup? t.path n.info.name = none) := by
  have h := survives_run hq s hc w
  refine ⟨fun path name v hv => ?_, h.entered⟩
  obtain ⟨v', hv', hs⟩ := h.spares path name v hv
  rw [← run_recording]
  refine ⟨v', hv', fun hcontext => ?_, fun hplain => ?_⟩
  · rcases hs with rfl | ⟨hi, -⟩
    · exact hcontext
    · exact hi
  · refine hs.imp_right fun ⟨hi, hwhy⟩ => ⟨hi, hwhy.resolve_left ?_⟩
    simp [hplain]

end Request

namespace Formula

def plainVatInput : Context :=
  .ofEntries (.cons "taxed" (.boolean true) (.cons "vat" (.boolean true) .nil))

end Formula

namespace Request

/-- The kiosk is given a plain value under the name by which it imports the rates. It asks for a
rate, so that the value gives way to the scope of the rates. What is given beside it stays as it is.
-/
theorem inputs_survive_kiosk : Host.functions.Quiet ∧ Formula.plainVatInput.frames = [] ∧
    (Formula.kioskRequest.run .all Formula.plainVatInput ()).context.entries.lookup? [] "taxed" =
      some (.boolean true) ∧
    (Formula.kioskRequest.run .all Formula.plainVatInput ()).context.entries.lookup? ["vat"] "rate" =
      some (.boolean false) ∧
    ∃ t ∈ Formula.kioskRequest.record .all Formula.plainVatInput (), ∃ n,
      t.moment = .bound n ∧ ["vat"] <+: t.path := by
  have hq := Host.functions_quiet
  obtain ⟨h, -⟩ := inputs_survive (r := Formula.kioskRequest) hq .all (c := Formula.plainVatInput)
    rfl ()
  obtain ⟨v, hv, -, hplain⟩ := h [] "vat" (.boolean true) rfl
  have hnow : (Formula.kioskRequest.run .all Formula.plainVatInput ()).context.entries.lookup? []
      "vat" = some (.context (.cons "rate" (.boolean false) .nil)) := rfl
  obtain rfl := Option.some.inj (hv.symm.trans hnow)
  rcases hplain rfl with he | ⟨-, hbound⟩
  · cases he
  · exact ⟨hq, rfl, rfl, rfl, hbound⟩

end Request

end DecisionGraph
