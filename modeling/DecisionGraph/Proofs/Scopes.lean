import DecisionGraph.Proofs.Formulas
import DecisionGraph.Proofs.Law
import Mathlib.Data.List.Chain

namespace DecisionGraph

variable {L σ : Type}

/-- The frame that the step to a dependency opens: none within a namespace, else one under the
dependent's import name for the model of the dependency. -/
def NodeInfo.crossing? (n d : NodeInfo) : Option (List Frame) :=
  if d.ns = n.ns then some [] else (n.importName? d.ns d.model).map fun a => [⟨a, d.ns⟩]

/-- The frames that the steps along a chain open, from the outermost to the innermost; the
innermost node of the chain comes first. -/
def framesAlong : List (Node L) → Option (List Frame)
  | d :: n :: rest => do return (← framesAlong (n :: rest)) ++ (← n.info.crossing? d.info)
  | _ => some []

/-- The chain from `n` through the nodes above it leads up to a requested decision along declared
dependencies. Its crossings have opened the frames of the context, and no others, and the current
scope belongs to the namespace of `n`. -/
structure Model.Placed (m : Model L) (s : Selection) (n : Node L) (above : List (Node L))
    (c : Context) : Prop where
  path : (n :: above).IsChain fun d n => d ∈ m.requirements n
  requested : ∃ d, (n :: above).getLast? = some d ∧ .evaluate d ∈ m.errands s
  frames : framesAlong (n :: above) = some c.frames
  scope : n.info.ns = m.scopeNs c

/-- A sighting after a record is about the innermost node in progress, which is in its place. -/
def Model.Fitting (m : Model L) (s : Selection) (before : List (Sighting L)) (t : Sighting L) :
    Prop :=
  match t.moment with
  | .entered n => m.Placed s n (chain before) t.evaluation.context
  | moment => ∃ above, chain before = moment.node :: above ∧
      m.Placed s moment.node above t.evaluation.context

theorem Context.scopeNs_of_frames {m : Model L} {c d : Context} (h : d.frames = c.frames) :
    m.scopeNs d = m.scopeNs c := by
  simp only [Model.scopeNs, ns?, h]

namespace Model

variable {m : Model L} {s : Selection} {n d : Node L} {above l : List (Node L)} {c : Context}

theorem Placed.of_frames {c' : Context} (h : m.Placed s n above c) (hf : c'.frames = c.frames) :
    m.Placed s n above c' :=
  ⟨h.path, h.requested, hf ▸ h.frames, h.scope.trans (Context.scopeNs_of_frames hf).symm⟩

theorem Placed.frames_eq {c' : Context} (h : m.Placed s n above c) (h' : m.Placed s n above c') :
    c'.frames = c.frames :=
  Option.some.inj (h'.frames.symm.trans h.frames)

theorem Placed.here (h : m.Placed s n above c) (hd : d ∈ m.requirements n)
    (hs : d.info.ns = m.scopeNs c) : m.Placed s d (n :: above) c := by
  refine ⟨.cons_cons hd h.path, ?_, ?_, hs⟩
  · simpa using h.requested
  · have hc : n.info.crossing? d.info = some [] := if_pos (hs.trans h.scope.symm)
    simp [framesAlong, h.frames, hc]

/-- A step into another namespace opens the frame of the dependent's import. -/
theorem Placed.through (h : m.Placed s n above c) (hd : d ∈ m.requirements n)
    (hs : d.info.ns ≠ m.scopeNs c) {a : String}
    (ha : n.info.importName? d.info.ns d.info.model = some a) :
    m.Placed s d (n :: above) (c.push ⟨a, d.info.ns⟩) := by
  refine ⟨.cons_cons hd h.path, ?_, ?_, ?_⟩
  · simpa using h.requested
  · have hc : n.info.crossing? d.info = some [⟨a, d.info.ns⟩] := by
      have hne : d.info.ns ≠ n.info.ns := fun he => hs (he.trans h.scope)
      simp [NodeInfo.crossing?, hne, ha]
    simp [framesAlong, h.frames, hc]
  · simp [scopeNs, Context.ns?]

theorem mem_nodes_of_chain (hl : l.IsChain fun d n => d ∈ m.requirements n)
    (hlast : ∀ d ∈ l.getLast?, d ∈ m.nodes) : ∀ k ∈ l, k ∈ m.nodes := by
  induction l with
  | nil => simp
  | cons d l ih =>
    cases l with
    | nil => simpa using hlast
    | cons n rest =>
      obtain ⟨hd, hrest⟩ := List.isChain_cons_cons.mp hl
      rw [List.getLast?_cons_cons] at hlast
      exact List.forall_mem_cons.mpr ⟨mem_nodes_of_mem_requirements hd, ih hrest hlast⟩

theorem framesAlong_of_owned (h : ∀ k ∈ l, m.owns k) : framesAlong l = some [] := by
  induction l with
  | nil => rfl
  | cons d l ih =>
    cases l with
    | nil => rfl
    | cons n rest =>
      obtain ⟨hd, hrest⟩ := List.forall_mem_cons.mp h
      have hns : d.info.ns = n.info.ns := by
        have hn := hrest n List.mem_cons_self
        simp only [owns, beq_iff_eq] at hd hn
        exact hd.trans hn.symm
      simp [framesAlong, ih hrest, NodeInfo.crossing?, hns]

theorem framesAlong_cons_cons {f : List Frame} (h : framesAlong (d :: n :: above) = some f) :
    ∃ before last, framesAlong (n :: above) = some before ∧
      n.info.crossing? d.info = some last ∧ f = before ++ last := by
  rw [framesAlong] at h
  cases hb : framesAlong (n :: above) with
  | none => simp [hb] at h
  | some before =>
    cases hl : n.info.crossing? d.info with
    | none => simp [hb, hl] at h
    | some last => exact ⟨before, last, rfl, rfl, by simpa [hb, hl, eq_comm] using h⟩

/-- As long as no frame is open, the way has not left the model's own namespace. -/
theorem owns_of_framesAlong (hlast : ∀ k ∈ (d :: above).getLast?, m.owns k)
    (h : framesAlong (d :: above) = some []) : m.owns d := by
  induction above generalizing d with
  | nil => exact hlast d rfl
  | cons n above ih =>
    obtain ⟨before, last, hb, hc, hf⟩ := framesAlong_cons_cons h
    obtain ⟨rfl, rfl⟩ := List.append_eq_nil_iff.mp hf.symm
    rw [List.getLast?_cons_cons] at hlast
    have hns : d.info.ns = n.info.ns := by
      by_contra hne
      simp [NodeInfo.crossing?, hne] at hc
    have hn := ih hlast hb
    simp only [owns, beq_iff_eq] at hn ⊢
    exact hns.trans hn

theorem containsName_of_framesAlong (hm : m.Built) (hl : ∀ k ∈ l, k ∈ m.nodes)
    (hlast : ∀ k ∈ l.getLast?, m.owns k) {f : Frame} {rest : List Frame}
    (h : framesAlong l = some (f :: rest)) : m.imports.containsName f.name := by
  induction l generalizing rest with
  | nil => cases h
  | cons d l ih =>
    cases l with
    | nil => cases h
    | cons n above =>
      obtain ⟨before, last, hb, hc, hf⟩ := framesAlong_cons_cons h
      rw [List.getLast?_cons_cons] at hlast
      obtain ⟨-, hmem⟩ := List.forall_mem_cons.mp hl
      cases before with
      | cons g gs =>
        obtain ⟨rfl, -⟩ := List.cons.inj hf
        exact ih hmem hlast hb
      | nil =>
        -- The step from `n` leaves the namespace, and `n` has the model's own table.
        obtain rfl : last = f :: rest := hf.symm
        have himports := hm.imports_eq (hmem n List.mem_cons_self) (owns_of_framesAlong hlast hb)
        unfold NodeInfo.crossing? at hc
        split at hc
        · cases hc
        · obtain ⟨a, ha, hfa⟩ := Option.map_eq_some_iff.mp hc
          obtain ⟨i, hi, hia⟩ := Option.map_eq_some_iff.mp ha
          rw [himports] at hi
          refine List.any_eq_true.mpr ⟨i, List.mem_of_find?_eq_some hi, ?_⟩
          rw [hia, ← (List.cons.inj hfa).1]
          exact beq_self_eq_true a

theorem Placed.owns_last (h : m.Placed s n above c) : ∀ k ∈ (n :: above).getLast?, m.owns k := by
  obtain ⟨d, hd, he⟩ := h.requested
  intro k hk
  rw [hd] at hk
  obtain rfl := Option.some.inj hk
  exact (List.mem_filter.mp (mem_localDecisions_of_mem_errands he)).2

theorem Placed.mem_nodes (h : m.Placed s n above c) : ∀ k ∈ n :: above, k ∈ m.nodes := by
  obtain ⟨d, hd, he⟩ := h.requested
  refine mem_nodes_of_chain h.path fun k hk => ?_
  rw [hd] at hk
  obtain rfl := Option.some.inj hk
  exact mem_nodes_of_mem_localDecisions (mem_localDecisions_of_mem_errands he)

theorem Placed.containsName_of_path (h : m.Placed s n above c) (hm : m.Built) {a : String}
    (ha : c.path.head? = some a) : m.imports.containsName a := by
  cases hf : c.frames with
  | nil => simp [Context.path, hf] at ha
  | cons f rest =>
    obtain rfl : f.name = a := by simpa [Context.path, hf] using ha
    exact containsName_of_framesAlong hm h.mem_nodes h.owns_last (h.frames.trans (by rw [hf]))

end Model

namespace Request

variable {r : Request L σ}

theorem lawful_frames (hk : r.host.KeepsScope) :
    r.Lawful (fun _ p x => x.2.context.frames = p.context.frames)
      (fun _ _ p q => q.context.frames = p.context.frames)
      (fun _ p q => q.context.frames = p.context.frames) where
  refl _ _ := rfl
  trans h h' := h'.trans h
  unresolved _ _ _ _ _ _ _ := by simp
  fits _ _ _ _ _ _ _ _ := rfl
  misfit _ _ _ _ _ _ _ _ _ _ _ _ _ := by simp
  report _ _ _ := rfl
  notify _ _ _ := rfl
  here _ _ _ _ _ _ _ h := h
  through _ _ _ _ _ _ _ _ _ h := Context.frames_closeTo h
  call _ _ _ _ _ _ _ _ h := (hk _ _ _ _).trans h
  complained _ _ _ _ h := h
  stay _ _ _ _ := rfl
  told _ _ _ _ _ h := h
  tooDeep _ _ _ _ _ _ := rfl
  skipped _ _ _ _ m _ _ _ h := by cases m <;> simpa [Evaluation.lose] using h
  failed _ _ _ m _ _ _ h := by cases m <;> simpa [Evaluation.lose] using h
  kept _ _ _ _ _ _ _ h := by simpa using h
  reported _ _ _ _ := rfl
  heard _ _ _ _ _ h := h
  abandoned _ _ _ _ _ _ _ h := by simpa using h
  ended _ _ _ _ _ _ h := by simpa using h
  given _ _ _ _ _ _ _ h := by simpa using h

theorem frames_visit (hk : r.host.KeepsScope) (room : Nat) (n : Node L) (p : Progress σ) :
    (r.visit room n p).2.context.frames = p.context.frames :=
  (lawful_frames hk).visit room n p

theorem frames_run (hk : r.host.KeepsScope) (s : Selection) (c : Context) (w : σ) :
    (r.run s c w).context.frames = c.frames :=
  run_induction (P := fun p => p.context.frames = c.frames) rfl
    (fun n p _ hp => (frames_visit hk _ n p).trans hp) fun _ _ hp => hp

variable {s : Selection}

/-- The evaluation of `n` is in progress below the nodes `above`, and all was in order so far. -/
structure Running (r : Request L σ) (s : Selection) (n : Node L) (above : List (Node L))
    (p : Progress (σ × List (Sighting L))) : Prop where
  ordered : Throughout (r.model.Fitting s) p.record
  nodes : chain p.record = n :: above
  placed : r.model.Placed s n above p.context

/-- A visit of `n` begins or has ended below the nodes `above`, and all was in order so far. -/
structure Waiting (r : Request L σ) (s : Selection) (n : Node L) (above : List (Node L))
    (p : Progress (σ × List (Sighting L))) : Prop where
  ordered : Throughout (r.model.Fitting s) p.record
  nodes : chain p.record = above
  placed : r.model.Placed s n above p.context

variable {n d : Node L} {above : List (Node L)} {p q : Progress (σ × List (Sighting L))}

theorem Running.still (h : r.Running s n above p) (hr : q.record = p.record)
    (hf : q.context.frames = p.context.frames) : r.Running s n above q :=
  ⟨hr ▸ h.ordered, hr ▸ h.nodes, h.placed.of_frames hf⟩

theorem Running.sight {m : Moment L} {e : Evaluation} (h : r.Running s n above p)
    (hn : m.node = n) (hm : m.isInner = true) (hr : q.record = p.record ++ [⟨m, e⟩])
    (he : e.context.frames = p.context.frames)
    (hf : q.context.frames = p.context.frames) : r.Running s n above q := by
  have hfit : r.model.Fitting s p.record ⟨m, e⟩ := by
    have hp : ∃ above, chain p.record = m.node :: above ∧
        r.model.Placed s m.node above e.context := by
      rw [hn]
      exact ⟨above, h.nodes, h.placed.of_frames he⟩
    cases m with
    | entered n => cases hm
    | _ => exact hp
  refine ⟨hr ▸ h.ordered.concat hfit, ?_, h.placed.of_frames hf⟩
  rw [hr, chain_concat_inner hm, h.nodes]

theorem Waiting.open (h : r.Waiting s n above p) :
    r.Running s n above (r.recording.opening n p) := by
  have hf : (r.recording.opening n p).context.frames = p.context.frames := by simp
  have hp := h.placed.of_frames hf
  refine ⟨?_, ?_, hp⟩
  · rw [record_opening]
    apply h.ordered.concat
    unfold Model.Fitting
    rw [h.nodes]
    exact hp
  · rw [record_opening, chain_concat_entered, h.nodes]

theorem Running.leave (h : r.Running s n above p) {q : Progress (σ × List (Sighting L))}
    (hr : q.record = p.record) (hf : q.context.frames = p.context.frames) :
    r.Waiting s n above (r.recording.watch (.left n) q) := by
  have hp := h.placed.of_frames hf
  refine ⟨?_, ?_, hp⟩
  · rw [record_watch, hr]
    exact h.ordered.concat ⟨above, h.nodes, hp⟩
  · rw [record_watch, chain_concat_left, hr, h.nodes, List.tail_cons]

theorem Running.report_unresolved (h : r.Running s n above p) (name source : String)
    (g : Diagnostic) :
    r.Running s n above (r.recording.reportUnresolved n name source g p) :=
  h.sight rfl rfl (record_reportUnresolved r p n name source g) (by simp) (by simp)

/-- Every visit keeps the record in order. -/
theorem lawful_order (hk : r.host.KeepsScope) (s : Selection) :
    r.recording.Lawful (fun n p x => ∀ above, r.Waiting s n above p → r.Waiting s n above x.2)
      (fun n _ p q => ∀ above, r.Running s n above p → r.Running s n above q)
      (fun n p q => ∀ above, r.Running s n above p → r.Running s n above q) where
  refl _ _ _ h := h
  trans h h' above hp := h' above (h above hp)
  unresolved _ name _ source d _ _ _ h := h.report_unresolved name source d
  fits _ _ _ _ _ _ _ _ _ h := h.sight rfl rfl rfl rfl rfl
  misfit n d type p name id source g _ _ _ _ _ above h := by
    have hs : r.Running s n above
        (r.recording.watch (.examined n d (r.recording.found n d p)) p) :=
      h.sight rfl rfl rfl rfl rfl
    exact hs.report_unresolved name source g
  report _ _ _ _ h := h.still rfl rfl
  notify _ _ _ _ h := h.still rfl rfl
  here n d p x hd hu hs hx above h := by
    have hp := h.placed.here hd hs
    -- The visit returns with the frames that it began with, which are those of `n`.
    have hw := hx (n :: above) ⟨h.ordered, h.nodes, hp⟩
    exact ⟨hw.ordered, hw.nodes, h.placed.of_frames (hp.frames_eq hw.placed)⟩
  through n d p a x hd hu hs ha hx above h := by
    have hp := h.placed.through hd hs ha
    have hw := hx (n :: above) ⟨h.ordered, h.nodes, hp⟩
    exact ⟨hw.ordered, hw.nodes,
      h.placed.of_frames (Context.frames_closeTo (hp.frames_eq hw.placed))⟩
  call n logic room p q _ _ _ h above hp :=
    (h above hp).sight rfl rfl (record_callLogic r _ n logic) rfl (hk _ _ _ _)
  complained _ _ _ _ h above hp := (h above hp).still rfl rfl
  stay _ _ _ _ _ h := h
  told _ _ _ _ _ h above hp := ⟨(h above hp).ordered, (h above hp).nodes, (h above hp).placed⟩
  tooDeep _ _ _ _ _ _ _ h := ⟨h.ordered, h.nodes, h.placed⟩
  skipped _ _ _ _ m _ _ _ h above hp := (h above hp.open).leave rfl (by cases m <;> rfl)
  failed _ _ _ m _ _ _ h above hp := (h above hp.open).leave rfl (by cases m <;> rfl)
  kept n p q v _ _ _ h above hp := by
    have hq := (h above hp.open).sight (m := .bound n)
      (q := r.recording.watch (.bound n) (q.update fun e =>
        (e.onContext (·.set n.info.name v)).onLedger (·.modify (r.key n) (·.succeed v))))
      rfl rfl rfl rfl rfl
    exact hq.leave rfl rfl
  reported _ _ _ _ _ h := ⟨h.ordered, h.nodes, h.placed⟩
  heard _ _ _ _ _ h above hp := h above ⟨hp.ordered, hp.nodes, hp.placed⟩
  abandoned _ _ _ _ _ _ _ h above hp := (h above hp.open).leave rfl rfl
  ended _ _ _ _ _ _ h above hp := (h above hp.open).leave rfl rfl
  given n p q f _ _ _ h above hp := by
    have hq := (h above hp.open).sight (m := .bound n)
      (q := r.recording.watch (.bound n)
        (q.update (·.onContext (·.set n.info.name (.function f))))) rfl rfl rfl rfl rfl
    exact hq.leave rfl rfl

theorem fitting_record (hk : r.host.KeepsScope) (s : Selection) {c : Context} (hc : c.frames = [])
    (w : σ) : Throughout (r.model.Fitting s) (r.record s c w) := by
  -- Between the errands no node is in progress and no frame is open.
  have hrun : Throughout (r.model.Fitting s) (r.record s c w) ∧ chain (r.record s c w) = [] ∧
      (r.recording.run s c (w, [])).context.frames = [] := by
    refine run_induction (P := fun p => Throughout (r.model.Fitting s) p.record ∧
      chain p.record = [] ∧ p.context.frames = []) ⟨.nil, rfl, hc⟩ ?_ fun d p hp => hp
    · rintro n p hn ⟨hl, ha, hf⟩
      have hw : r.Waiting s n [] p := by
        refine ⟨hl, ha, .singleton _, ⟨n, rfl, hn⟩, ?_, ?_⟩
        · simp [framesAlong, ← hf]
        · have ho := Model.ns_of_mem_localDecisions (Model.mem_localDecisions_of_mem_errands hn)
          exact ho.trans (Model.scopeNs_of_root hf).symm
      have hv := (lawful_order hk s).visit r.maxDepth n p [] hw
      exact ⟨hv.ordered, hv.nodes, (hw.placed.frames_eq hv.placed).trans hf⟩
  exact hrun.1

/-- The nodes that were entered had no value then, as they see it themselves. -/
def Vacant (r : Request L σ) (l : List (Sighting L)) : Prop :=
  ∀ t ∈ l, ∀ n, t.moment = .entered n → r.isDefined t.evaluation.context n.info n.info = false

theorem Vacant.concat {l : List (Sighting L)} {m : Moment L} {e : Evaluation} (h : r.Vacant l)
    (hm : ∀ n, m = .entered n → r.isDefined e.context n.info n.info = false) :
    r.Vacant (l ++ [⟨m, e⟩]) := by
  intro t ht
  rcases List.mem_append.mp ht with ht | ht
  · exact h t ht
  · rw [List.mem_singleton.mp ht]
    exact hm

theorem Vacant.reportUnresolved (h : r.Vacant p.record) (n : Node L) (name source : String)
    (g : Diagnostic) : r.Vacant (r.recording.reportUnresolved n name source g p).record := by
  rw [record_reportUnresolved]
  exact h.concat nofun

theorem Vacant.opening (h : r.Vacant p.record) (hu : r.isDefined p.context n.info n.info = false) :
    r.Vacant (r.recording.opening n p).record := by
  rw [record_opening]
  refine h.concat fun d hd => ?_
  rw [← Moment.entered.inj hd, context_opening]
  exact hu

theorem lawful_vacant : r.recording.Lawful
    (fun _ p x => r.Vacant p.record → r.Vacant x.2.record)
    (fun _ _ p q => r.Vacant p.record → r.Vacant q.record)
    (fun _ p q => r.Vacant p.record → r.Vacant q.record) where
  refl _ _ h := h
  trans h h' hp := h' (h hp)
  unresolved n name _ source d _ _ h := h.reportUnresolved n name source d
  fits _ _ _ _ _ _ _ _ h := h.concat nofun
  misfit n d _ p name _ source g _ _ _ _ _ h :=
    (h.concat nofun : r.Vacant (r.recording.watch (.examined n d
      (r.recording.found n d p)) p).record).reportUnresolved n name source g
  report _ _ _ h := h
  notify _ _ _ h := h
  here _ _ _ _ _ _ _ h := h
  through _ _ _ _ _ _ _ _ _ h := h
  call n logic _ _ _ _ _ _ h hp := by
    rw [record_callLogic]
    exact (h hp).concat nofun
  complained _ _ _ _ h := h
  stay _ _ _ _ h := h
  told _ _ _ _ _ h := h
  tooDeep _ _ _ _ _ _ h := h
  skipped _ _ _ _ _ _ hu _ h hp := (h (hp.opening hu)).concat nofun
  failed _ _ _ _ _ hu _ h hp := (h (hp.opening hu)).concat nofun
  kept n _ _ _ _ hu _ h hp := ((h (hp.opening hu)).concat (m := .bound n) nofun).concat nofun
  reported _ _ _ _ h := h
  heard _ _ _ _ _ h := h
  abandoned _ _ _ _ _ _ hu h hp := (h (hp.opening hu)).concat nofun
  ended _ _ _ _ _ hu h hp := (h (hp.opening hu)).concat nofun
  given n _ _ _ _ _ hu h hp := ((h (hp.opening hu)).concat (m := .bound n) nofun).concat nofun

theorem vacant_record (s : Selection) (c : Context) (w : σ) : r.Vacant (r.record s c w) :=
  run_induction (r := r.recording) (P := fun p => r.Vacant p.record) nofun
    (fun n p _ hp => lawful_vacant.visit r.maxDepth n p hp) fun _ _ hp => hp

theorem free_of_entered (hk : r.host.KeepsScope) {c : Context} (hc : c.frames = []) {w : σ}
    {t : Sighting L} (ht : t ∈ r.record s c w) (hm : t.moment = .entered n) :
    t.evaluation.context.get? n.info.name = none := by
  obtain ⟨before, after, hl⟩ := List.append_of_mem ht
  have hfit := fitting_record (r := r) hk s hc w before t after hl
  unfold Model.Fitting at hfit
  rw [hm] at hfit
  have hu := vacant_record s c w t ht n hm
  rw [isDefined_of_here hfit.scope] at hu
  exact Option.not_isSome_iff_eq_none.mp (Bool.eq_false_iff.mp hu)

/-- Wherever logic runs, the current scope is that of its node, and the open frames are those of
the steps that lead to it, each under the import name that the dependent has for the model; no
step without an import name is taken. Every visit ends in the scope in which it began, and so does
the request. -/
theorem scope_discipline (hk : r.host.KeepsScope) (s : Selection) {c : Context}
    (hc : c.frames = []) (w : σ) :
    (∀ before t after n, r.record s c w = before ++ t :: after → t.moment = .calling n →
      ∃ above, chain before = n :: above ∧ r.model.Placed s n above t.evaluation.context) ∧
    (∀ before t after n, r.record s c w = before ++ t :: after → t.moment = .entered n →
      r.model.Placed s n (chain before) t.evaluation.context) ∧
    (∀ room n p, (r.visit room n p).2.context.frames = p.context.frames) ∧
    (r.run s c w).context.depth = 0 := by
  have ho := fitting_record (r := r) hk s hc w
  refine ⟨?_, ?_, frames_visit hk, ?_⟩
  · intro before t after n hl hm
    have ht := ho before t after hl
    unfold Model.Fitting at ht
    rw [hm] at ht
    exact ht
  · intro before t after n hl hm
    have ht := ho before t after hl
    unfold Model.Fitting at ht
    rw [hm] at ht
    exact ht
  · simp only [Context.depth, frames_run hk, hc, List.length_nil]

/-- When orders are due, the logic of the imported total runs in the scope of the prices. -/
theorem scope_discipline_orders : ∃ before t after above,
    Formula.ordersRecord = before ++ t :: after ∧ t.moment = .calling Formula.total ∧
    chain before = Formula.total :: above ∧
    Formula.orders.Placed .all Formula.total above t.evaluation.context ∧
    t.evaluation.context.frames = [⟨"p", "urn:prices"⟩] := by
  have hl : Formula.ordersRecord = Formula.ordersRecord.take 7 ++
      Formula.ordersRecord[7] :: Formula.ordersRecord.drop 8 := rfl
  obtain ⟨hcalled, -⟩ := scope_discipline (r := Formula.ordersRequest)
    Host.functions_quiet.keepsScope .all (c := Formula.ordersInput) rfl ()
  obtain ⟨above, ha, hp⟩ := hcalled _ _ _ Formula.total hl rfl
  exact ⟨_, _, _, above, hl, rfl, ha, hp, rfl⟩

end Request

end DecisionGraph
