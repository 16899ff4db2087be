import DecisionGraph.Proofs.Law
import DecisionGraph.Proofs.Record

namespace DecisionGraph

variable {L σ : Type}

/-- The scope is the same, and whatever was bound anywhere is bound still. -/
structure Context.Grows (c d : Context) : Prop where
  frames : d.frames = c.frames
  keeps : ∀ path name, (c.entries.lookup? path name).isSome →
    (d.entries.lookup? path name).isSome

namespace Context.Grows

variable {c d e : Context} {name : String}

theorem refl (c : Context) : c.Grows c := ⟨rfl, fun _ _ h => h⟩

theorem trans (h : c.Grows d) (h' : d.Grows e) : c.Grows e :=
  ⟨h'.frames.trans h.frames, fun path name hc => h'.keeps path name (h.keeps path name hc)⟩

theorem set (h : c.Grows d) (hfree : c.get? name = none) (v : Value) :
    c.Grows (d.set name v) := by
  refine ⟨h.frames, ?_⟩
  intro path x hc
  have hp : d.path = c.path := congrArg (List.map Frame.name) h.frames
  -- Nothing was bound below the name at first, so the binding cannot hide what was bound then.
  have hq : ¬d.path ++ [name] <+: path := by
    intro hq
    rw [hp] at hq
    have hn : c.entries.lookup? path x = none := Bindings.lookup?_below hfree hq x
    simp [hn] at hc
  exact Bindings.isSome_lookup?_exchangeAt v hq (h.keeps path x hc)

theorem closeTo {f : Frame} (h : (c.push f).Grows d) : c.Grows (d.closeTo c.depth) :=
  ⟨frames_closeTo h.frames, fun path name hc => h.keeps path name hc⟩

theorem path (h : c.Grows d) : d.path = c.path := congrArg (List.map Frame.name) h.frames

theorem scopeNs (h : c.Grows d) {m : Model L} : m.scopeNs d = m.scopeNs c := by
  simp only [Model.scopeNs, ns?, h.frames]

theorem get? (h : c.Grows d) (hc : (c.get? name).isSome) : (d.get? name).isSome := by
  have hk := h.keeps c.path name hc
  simpa [Context.get?, h.path] using hk

end Context.Grows

namespace Model

variable {m : Model L} {c d : Context} {n k : NodeInfo}

theorem isSome_visible?_of_grows (h : c.Grows d) (hc : (m.visible? c n k).isSome) :
    (m.visible? d n k).isSome := by
  have hns : m.scopeNs d = m.scopeNs c := h.scopeNs
  by_cases hs : k.ns = m.scopeNs c
  · rw [visible?_of_here hs] at hc
    rw [visible?_of_here (hs.trans hns.symm)]
    exact h.get? hc
  · have hs' : k.ns ≠ m.scopeNs d := fun he => hs (he.trans hns)
    cases ha : n.importName? k.ns k.model with
    | none => simp [visible?_of_closed hs ha] at hc
    | some a =>
      rw [visible?_of_import hs ha] at hc
      rw [visible?_of_import hs' ha, h.path]
      exact h.keeps _ _ hc

theorem scopeNs_push (m : Model L) (c : Context) (f : Frame) : m.scopeNs (c.push f) = f.ns := by
  simp [scopeNs, Context.ns?]

/-- What is bound inside an import scope is visible under the import name when it is closed. -/
theorem visible?_closeTo (hs : k.ns ≠ m.scopeNs c) {a : String}
    (ha : n.importName? k.ns k.model = some a) (hg : (c.push ⟨a, k.ns⟩).Grows d) :
    m.visible? (d.closeTo c.depth) n k = d.get? k.name := by
  have hp : (c.push ⟨a, k.ns⟩).path = c.path ++ [a] := by simp [Context.path]
  have hns : k.ns ≠ m.scopeNs (d.closeTo c.depth) := fun he => hs (he.trans hg.closeTo.scopeNs)
  rw [visible?_of_import hns ha, hg.closeTo.path, Context.get?, hg.path, hp]
  rfl

end Model

namespace Request

variable {r : Request L σ} {n d : Node L} {p : Progress σ} {name : String}

theorem get?_of_undefined (hu : r.isDefined p.context n.info n.info = false)
    (hs : n.info.ns = r.model.scopeNs p.context) : p.context.get? n.info.name = none := by
  rw [isDefined_of_here hs] at hu
  exact Option.isSome_eq_false_iff.mp hu |> Option.isNone_iff_eq_none.mp

/-- Whatever a visit in its own scope does, no binding is lost, and a decision that came out
resolved is bound. -/
theorem lawful_growth (hq : r.host.Quiet) :
    r.Lawful
      (fun n p x => n.info.ns = r.model.scopeNs p.context → p.context.Grows x.2.context ∧
        (x.1 = .resolved → n.isDecision → (x.2.context.get? n.info.name).isSome))
      (fun _ _ p q => p.context.Grows q.context) (fun _ p q => p.context.Grows q.context) where
  refl _ p := .refl _
  trans h h' := h.trans h'
  unresolved _ _ _ _ _ p _ := by
    rw [Progress.context_eq, Progress.context_eq, context_reportUnresolved]
    exact .refl _
  fits _ _ _ p _ _ _ _ := .refl _
  misfit _ _ _ p _ _ _ _ _ _ _ _ _ := by
    rw [Progress.context_eq, Progress.context_eq, context_reportUnresolved]
    exact .refl _
  report _ _ _ := .refl _
  notify _ _ _ := .refl _
  here _ _ _ _ _ _ hs hx := (hx hs).1
  through _ d p a _ _ _ _ _ hx := by
    have hs : d.info.ns = r.model.scopeNs (p.context.push ⟨a, d.info.ns⟩) :=
      (Model.scopeNs_push r.model p.context ⟨a, d.info.ns⟩).symm
    exact (hx hs).1.closeTo
  call n logic room p q _ _ _ h := by
    rw [Progress.context_eq (r.callLogic _ _ _).2, evaluation_callLogic hq]
    exact h
  complained _ _ _ _ h := h
  stay n p res h hs := by
    refine ⟨.refl _, ?_⟩
    intro hr hn
    have hv := isSome_visible?_of_defined (h hr hn)
    rwa [Model.visible?_of_here hs] at hv
  told _ _ _ _ _ h := h
  tooDeep _ _ _ _ _ _ _ := ⟨.refl _, fun h => by cases h⟩
  skipped n p b q m _ _ _ h _ := by
    refine ⟨?_, fun h => by cases h⟩
    cases m <;> simpa [Evaluation.lose] using h
  failed n p q m _ _ _ h _ := by
    refine ⟨?_, fun h => by cases h⟩
    cases m <;> simpa [Evaluation.lose] using h
  kept n p q v _ hu _ h hs := by
    have hfree := get?_of_undefined hu hs
    have hg : p.context.Grows q.context := by simpa using h
    exact ⟨hg.set hfree v, fun _ _ => by simp⟩
  reported n p m hn _ := ⟨.refl _, fun _ hd => absurd hd (Node.not_isDecision hn)⟩
  heard _ _ _ _ _ h := h
  abandoned n p b q hn _ _ h _ := by
    refine ⟨?_, fun _ hd => absurd hd (Node.not_isDecision hn)⟩
    simpa using h
  ended n p q hn _ _ h _ := by
    refine ⟨?_, fun _ hd => absurd hd (Node.not_isDecision hn)⟩
    simpa using h
  given n p q f hn _ hu h hs := by
    refine ⟨?_, fun _ hd => absurd hd (Node.not_isDecision hn)⟩
    have hfree := get?_of_undefined hu hs
    have hg : p.context.Grows q.context := by simpa using h
    exact hg.set hfree (.function f)

theorem grows_visit (hq : r.host.Quiet) (room : Nat) (n : Node L) (p : Progress σ)
    (hs : n.info.ns = r.model.scopeNs p.context) :
    p.context.Grows (r.visit room n p).2.context :=
  ((lawful_growth hq).visit room n p hs).1

/-- A dependency with a value that its dependent can see; business knowledge models need none. -/
def Served (r : Request L σ) (n d : Node L) (c : Context) : Prop :=
  d.isKnowledge ∨ (r.model.visible? c n.info d.info).isSome

theorem Served.of_grows {c c' : Context} (h : r.Served n d c) (hg : c.Grows c') :
    r.Served n d c' :=
  h.imp_right (Model.isSome_visible?_of_grows hg)

theorem bound_of_visit (hq : r.host.Quiet) {room : Nat}
    (hs : d.info.ns = r.model.scopeNs p.context) (h : (r.visit room d p).1 = .resolved) :
    d.isKnowledge ∨ ((r.visit room d p).2.context.get? d.info.name).isSome := by
  cases hr : d.role with
  | decision type logic =>
    exact .inr (((lawful_growth hq).visit room d p hs).2 h (Node.isDecision_of_role hr))
  | knowledge logic => exact .inl (Node.isKnowledge_of_role hr)
  | input type => simp [visit_input hr] at h

theorem served_of_provide (hq : r.host.Quiet) {room : Nat}
    (h : (r.provide (r.visit room) n d name p).1 = true) :
    r.Served n d (r.provide (r.visit room) n d name p).2.context := by
  cases hu : r.isDefined p.context n.info d.info with
  | true =>
    rw [provide_of_defined hu]
    exact .inr (isSome_visible?_of_defined hu)
  | false =>
    cases hw : r.model.passage p.context n.info d.info with
    | closed => simp [provide_of_closed hu hw] at h
    | here =>
      rw [provide_of_open hu (by rw [hw]; simp), hw, descend_here] at h ⊢
      obtain ⟨hres, hp⟩ := settle_of_true h
      have hs := Model.passage_eq_here.mp hw
      have hg := grows_visit hq room d p hs
      have hs' : d.info.ns = r.model.scopeNs (r.visit room d p).2.context :=
        hs.trans hg.scopeNs.symm
      rw [hp]
      apply (bound_of_visit hq hs hres).imp_right
      intro hb
      rwa [Model.visible?_of_here hs']
    | through a =>
      rw [provide_of_open hu (by rw [hw]; simp), hw, descend_through] at h ⊢
      obtain ⟨hres, hp⟩ := settle_of_true h
      obtain ⟨hs, ha⟩ := Model.passage_eq_through.mp hw
      have hs' : d.info.ns = r.model.scopeNs (p.context.push ⟨a, d.info.ns⟩) :=
        (Model.scopeNs_push r.model p.context ⟨a, d.info.ns⟩).symm
      have hg := grows_visit hq room d (p.update (·.onContext (·.push ⟨a, d.info.ns⟩))) hs'
      rw [hp]
      apply (bound_of_visit hq hs' hres).imp_right
      intro hb
      rwa [← Model.visible?_closeTo hs ha hg] at hb

theorem served_of_resolveList (hq : r.host.Quiet) {room : Nat} {deps : List (String × Nat)}
    (hdeps : ∀ e ∈ deps, e ∈ n.info.dependencies.toList)
    (h : (r.resolveList (r.visit room) n deps p).1 = true) :
    ∀ e ∈ deps, ∃ d, r.model.node? e.2 = some d ∧
      r.Served n d (r.resolveList (r.visit room) n deps p).2.context := by
  -- The induction follows the list; growth carries what was made available over the rest of it.
  have hv := (lawful_growth hq).visit room
  induction deps generalizing p with
  | nil => simp
  | cons e deps ih =>
    obtain ⟨name, id⟩ := e
    obtain ⟨hone, hrest, hend⟩ := resolveList_of_true h
    obtain ⟨d, hd, -, hprov, hp⟩ := resolveOne_of_true hone
    have hds : ∀ e ∈ deps, e ∈ n.info.dependencies.toList :=
      fun e he => hdeps e (List.mem_cons_of_mem _ he)
    have hg := (lawful_growth hq).resolveList hv deps
      (r.resolveOne (r.visit room) n name id p).2 hds
    rw [hend]
    intro e he
    rcases List.mem_cons.mp he with rfl | he
    · exact ⟨d, hd, (hp ▸ served_of_provide hq hprov).of_grows hg⟩
    · exact ih hds hrest e he

/-- After all dependencies of a node came out resolved, each of them is there to be seen. -/
theorem served_of_resolve (hq : r.host.Quiet) {room : Nat}
    (h : (r.resolve (r.visit room) n p).1 = true) :
    ∀ e ∈ n.info.dependencies.toList, ∃ d, r.model.node? e.2 = some d ∧
      r.Served n d (r.resolve (r.visit room) n p).2.context :=
  served_of_resolveList hq (fun _ he => he) h

end Request

end DecisionGraph
