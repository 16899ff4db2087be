import DecisionGraph.Proofs.Law
import DecisionGraph.Proofs.Record

namespace DecisionGraph

variable {L σ : Type}

def Sighting.isUnresolved (t : Sighting L) : Bool :=
  match t.moment with
  | .unresolved .. => true
  | _ => false

def Sighting.isCalling (t : Sighting L) : Bool :=
  match t.moment with
  | .calling _ => true
  | _ => false

namespace Request

variable {r : Request L σ} {n d : Node L}

/-- Inputs were examined with the values that they had for `n`, and problems were reported. There
was none if `b` holds, and then every value had its input's type. -/
structure Findings (r : Request L σ) (n : Node L) (b : Bool) (seen : List (Sighting L)) : Prop where
  own : ∀ t ∈ seen, (∃ name, t.moment = .unresolved n name) ∨
    ∃ d type, d ∈ r.model.requirements n ∧ d.role = .input type ∧ t.moment =
      .examined n d ((r.model.visible? t.evaluation.context n.info d.info).getD .null)
  unresolved : seen.any Sighting.isUnresolved = !b
  fits : b = true → ∀ t ∈ seen, ∀ d v type, t.moment = .examined n d v → d.role = .input type →
    type.check v ≠ .ok false

namespace Findings

theorem nil : r.Findings n true [] := ⟨by simp, rfl, by simp⟩

theorem append {a b : Bool} {seen new : List (Sighting L)} (h : r.Findings n a seen)
    (h' : r.Findings n b new) : r.Findings n (a && b) (seen ++ new) := by
  refine ⟨?_, ?_, ?_⟩
  · intro t ht
    rcases List.mem_append.mp ht with ht | ht
    · exact h.own t ht
    · exact h'.own t ht
  · rw [List.any_append, h.unresolved, h'.unresolved, Bool.not_and]
  · intro hab t ht
    obtain ⟨ha, hb⟩ := Bool.and_eq_true_iff.mp hab
    rcases List.mem_append.mp ht with ht | ht
    · exact h.fits ha t ht
    · exact h'.fits hb t ht

theorem of_unresolved (name : String) (e : Evaluation) :
    r.Findings n false [⟨.unresolved n name, e⟩] :=
  ⟨by simp, rfl, fun h => by cases h⟩

theorem of_examined {type : DeclaredType} {e : Evaluation} {v : Value}
    (hd : d ∈ r.model.requirements n) (hr : d.role = .input type)
    (hv : v = (r.model.visible? e.context n.info d.info).getD .null)
    (hc : type.check v ≠ .ok false) : r.Findings n true [⟨.examined n d v, e⟩] := by
  refine ⟨fun t ht => .inr ⟨d, type, hd, hr, ?_⟩, rfl, fun _ t ht d' v' type' hm hr' => ?_⟩
  · rw [List.mem_singleton.mp ht, hv]
  · rw [List.mem_singleton.mp ht] at hm
    obtain ⟨-, rfl, rfl⟩ := Moment.examined.inj hm
    rw [hr] at hr'
    rwa [← Role.input.inj hr']

theorem of_misfit {type : DeclaredType} {e : Evaluation} {v : Value} (name : String)
    (e' : Evaluation) (hd : d ∈ r.model.requirements n) (hr : d.role = .input type)
    (hv : v = (r.model.visible? e.context n.info d.info).getD .null) :
    r.Findings n false [⟨.examined n d v, e⟩, ⟨.unresolved n name, e'⟩] := by
  refine ⟨fun t ht => ?_, rfl, fun h => by cases h⟩
  rcases List.mem_cons.mp ht with rfl | ht
  · exact .inr ⟨d, type, hd, hr, by rw [hv]⟩
  · rw [List.mem_singleton.mp ht]
    exact .inl ⟨name, rfl⟩

theorem not_calling {b : Bool} {seen : List (Sighting L)} (h : r.Findings n b seen) :
    seen.any Sighting.isCalling = false := by
  rw [List.any_eq_false]
  intro t ht
  unfold Sighting.isCalling
  rcases h.own t ht with ⟨name, hm⟩ | ⟨d, type, -, -, hm⟩ <;> simp [hm]

end Findings

/-- The sightings between two points are sightings of the node in progress. -/
def Sees (n : Node L) (new : List (Sighting L)) (p q : Progress (σ × List (Sighting L))) : Prop :=
  ∀ seen above, activities p.record = ⟨n, seen⟩ :: above →
    activities q.record = ⟨n, seen ++ new⟩ :: above

section sees

variable {p q s : Progress (σ × List (Sighting L))} {new new' : List (Sighting L)}

theorem Sees.still (h : q.record = p.record) : Sees n [] p q := by
  intro seen above hp
  rw [h, hp, List.append_nil]

theorem Sees.trans (h : Sees n new p q) (h' : Sees n new' q s) : Sees n (new ++ new') p s := by
  intro seen above hp
  rw [h' _ _ (h seen above hp), List.append_assoc]

theorem Sees.sight {t : Sighting L} (ht : t.moment.isInner = true)
    (h : q.record = p.record ++ [t]) : Sees n [t] p q := by
  intro seen above hp
  rw [h, activities_concat_inner ht hp]

/-- Activities that begin and end in between leave no trace. -/
theorem Sees.of_activities (h : activities q.record = activities p.record) : Sees n [] p q := by
  intro seen above hp
  rw [h, hp, List.append_nil]

theorem activities_opening (r : Request L σ) (n : Node L) (p : Progress (σ × List (Sighting L))) :
    activities (r.recording.opening n p).record = ⟨n, []⟩ :: activities p.record := by
  rw [record_opening, activities_concat]
  rfl

theorem activities_left (h : Sees n new (r.recording.opening n p) q)
    {s : Progress (σ × List (Sighting L))} (hs : s.record = q.record) :
    activities (r.recording.watch (.left n) s).record = activities p.record := by
  have hq := h _ _ (activities_opening r n p)
  rw [record_watch, activities_concat, hs, hq]
  rfl

end sees

/-- Visits leave the activities in progress as they were, and what is seen of the node in progress
tells whether its dependencies were resolved. -/
theorem lawful_findings :
    r.recording.Lawful (fun _ p x => activities x.2.record = activities p.record)
      (fun n b p q => ∃ new, Sees n new p q ∧ r.Findings n b new)
      (fun n p q => ∃ new, Sees n new p q ∧ new.any Sighting.isUnresolved = false) where
  refl _ _ := ⟨[], .still rfl, .nil⟩
  trans := by
    rintro n a b p q s ⟨new, h, hf⟩ ⟨new', h', hf'⟩
    exact ⟨new ++ new', h.trans h', hf.append hf'⟩
  unresolved n name _ source d p _ :=
    ⟨_, .sight rfl (record_reportUnresolved r p n name source d), .of_unresolved name _⟩
  fits n d type p _ hd hr hc := ⟨_, .sight rfl rfl, .of_examined hd hr rfl hc⟩
  misfit n d type p name id source g _ he hd hr _ :=
    ⟨_, (Sees.sight (q := r.recording.watch (.examined n d (r.recording.found n d p)) p) rfl
      rfl).trans (.sight rfl (record_reportUnresolved r _ n name source g)),
      .of_misfit name _ (Model.mem_requirements he hd) hr rfl⟩
  report _ _ _ := ⟨[], .still rfl, .nil⟩
  notify _ _ _ := ⟨[], .still rfl, .nil⟩
  here _ _ _ _ _ _ _ hx := ⟨[], .of_activities hx, .nil⟩
  through _ _ _ _ _ _ _ _ _ hx := ⟨[], .of_activities hx, .nil⟩
  call n l room p q _ _ _ h := by
    obtain ⟨new, hs, hf⟩ := h
    refine ⟨_, hs.trans (.sight rfl (record_callLogic r _ n l)), ?_⟩
    rw [List.any_append, hf.unresolved]
    rfl
  complained _ _ _ _ h := h
  stay _ _ _ _ := rfl
  told _ _ _ _ _ h := h
  tooDeep _ _ _ _ _ _ := rfl
  skipped n p b q m _ _ _ h := by
    obtain ⟨new, hs, -⟩ := h
    exact activities_left hs rfl
  failed n p q m _ _ _ h := by
    obtain ⟨new, hs, -⟩ := h
    exact activities_left hs rfl
  kept n p q v _ _ _ h := by
    obtain ⟨new, hs, -⟩ := h
    exact activities_left (hs.trans (.sight rfl rfl)) rfl
  reported _ _ _ _ := rfl
  heard _ _ _ _ _ h := h
  abandoned n p b q _ _ _ h := by
    obtain ⟨new, hs, -⟩ := h
    exact activities_left hs rfl
  ended n p q _ _ _ h := by
    obtain ⟨new, hs, -⟩ := h
    exact activities_left hs rfl
  given n p q f _ _ _ h := by
    obtain ⟨new, hs, -⟩ := h
    exact activities_left (hs.trans (.sight rfl rfl)) rfl

def Examined (n d : Node L) (l : List (Sighting L)) : Prop :=
  ∃ seen above, activities l = ⟨n, seen⟩ :: above ∧ ∃ t ∈ seen, ∃ v, t.moment = .examined n d v

theorem Examined.of_sees {new : List (Sighting L)} {p q : Progress (σ × List (Sighting L))}
    (h : Examined n d p.record) (hs : Sees n new p q) : Examined n d q.record := by
  obtain ⟨seen, above, hp, t, ht, v, hm⟩ := h
  exact ⟨seen ++ new, above, hs _ _ hp, t, List.mem_append_left _ ht, v, hm⟩

theorem examined_of_checkInput {type : DeclaredType} (name : String)
    {p : Progress (σ × List (Sighting L))} {seen : List (Sighting L)}
    {above : List (Activity L)} (hp : activities p.record = ⟨n, seen⟩ :: above)
    (ht : r.typeCheck = true) (hr : d.role = .input type)
    (h : (r.recording.checkInput n d name p).1 = true) :
    Examined n d (r.recording.checkInput n d name p).2.record := by
  have hx : Examined n d
      (r.recording.watch (.examined n d (r.recording.found n d p)) p).record := by
    refine ⟨_, above, Sees.sight (q := r.recording.watch _ p) rfl rfl _ _ hp, _,
      List.mem_append_right _ List.mem_cons_self, _, rfl⟩
  rw [checkInput_of_input (r := r.recording) ht hr] at h ⊢
  cases hc : type.check (r.recording.found n d p) with
  | error e => exact hx
  | ok fits =>
    cases fits with
    | true => exact hx
    | false => simp [hc] at h

/-- When types are checked, a node whose dependencies all came out resolved has examined each of
its inputs. -/
theorem examined_of_resolveList {room : Nat} {deps : List (String × Nat)}
    {p : Progress (σ × List (Sighting L))} (hdeps : ∀ e ∈ deps, e ∈ n.info.dependencies.toList)
    {seen : List (Sighting L)} {above : List (Activity L)}
    (hp : activities p.record = ⟨n, seen⟩ :: above) (ht : r.typeCheck = true)
    (h : (r.recording.resolveList (r.recording.visit room) n deps p).1 = true) :
    ∀ e ∈ deps, ∀ d type, r.model.node? e.2 = some d → d.role = .input type →
      Examined n d (r.recording.resolveList (r.recording.visit room) n deps p).2.record := by
  -- The induction follows the list; what was examined stays in the record of later dependencies.
  have hv := (lawful_findings (r := r)).visit room
  induction deps generalizing p seen with
  | nil => simp
  | cons e deps ih =>
    obtain ⟨name, id⟩ := e
    obtain ⟨hone, hrest, hend⟩ := resolveList_of_true h
    obtain ⟨d, hd, hcheck, -, hprov⟩ := resolveOne_of_true hone
    have he : (name, id) ∈ n.info.dependencies.toList := hdeps _ List.mem_cons_self
    have hds : ∀ e ∈ deps, e ∈ n.info.dependencies.toList :=
      fun e he => hdeps e (List.mem_cons_of_mem _ he)
    obtain ⟨new, hs, -⟩ := lawful_findings.resolveOne hv p he
    obtain ⟨new', hs', -⟩ := lawful_findings.resolveList hv deps
      (r.recording.resolveOne (r.recording.visit room) n name id p).2 hds
    rw [hend]
    intro e hmem d' type hd' hr
    rcases List.mem_cons.mp hmem with rfl | hmem
    · obtain rfl := Option.some.inj (hd.symm.trans hd')
      have hx := examined_of_checkInput name hp ht hr hcheck
      obtain ⟨new'', hs'', -⟩ := lawful_findings.provide hv
        (r.recording.checkInput n d name p).2 he hd
      refine Examined.of_sees ?_ hs'
      rw [hprov]
      exact hx.of_sees hs''
    · exact ih hds (hs _ _ hp) hrest e hmem d' type hd' hr

end Request

end DecisionGraph
