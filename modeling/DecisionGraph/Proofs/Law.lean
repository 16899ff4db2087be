import DecisionGraph.Proofs.Equations

namespace DecisionGraph

variable {L σ : Type}

def Diagnostic.isDepth : Diagnostic → Bool
  | .evaluationDepthExceeded .. => true
  | _ => false

def Message.isDepth (m : Message) : Bool := m.code == "EvaluationDepthExceeded"

@[simp] theorem Message.isDepth_of (severity : Severity) (d : Diagnostic)
    (source cause : Option String) : (Message.of severity d source cause).isDepth = d.isDepth := by
  cases d <;> rfl

theorem isDepth_complaint {n d : NodeInfo} {res : Resolution} {g : Diagnostic}
    (h : Request.complaint n d res = some g) : g.isDepth = false := by
  cases res with
  | resolved => cases h
  | decisionFailed => exact Option.some.inj h ▸ rfl
  | notFound => exact Option.some.inj h ▸ rfl
  | knowledgeCycle => exact Option.some.inj h ▸ rfl

theorem isDepth_of_objection? {r : Request L σ} {n : Node L} {type : DeclaredType} {v : Value}
    {m : Message} (h : r.objection? n type v = some m) : m.isDepth = false := by
  unfold Request.objection? at h
  split at h
  · cases h
  · exact Option.some.inj h ▸ rfl
  · exact Option.some.inj h ▸ rfl

theorem Model.isDepth_of_mem_errandsFor {m : Model L} {select : String → NodeInfo → Bool}
    {missing : String → Diagnostic} (hm : ∀ k, (missing k).isDepth = false) {keys : List String}
    {d : Diagnostic} (h : .miss d ∈ m.errandsFor select missing keys) : d.isDepth = false := by
  obtain ⟨k, -, hk⟩ := List.mem_map.mp h
  split at hk
  · cases hk
  · rw [← Errand.miss.inj hk]
    exact hm k

theorem Model.isDepth_of_mem_errands {m : Model L} {s : Selection} {d : Diagnostic}
    (h : .miss d ∈ m.errands s) : d.isDepth = false := by
  cases s with
  | all => simp [errands] at h
  | names names =>
    rw [errands] at h
    exact isDepth_of_mem_errandsFor (fun _ => rfl) h
  | ids ids =>
    rw [errands] at h
    exact isDepth_of_mem_errandsFor (fun _ => rfl) h

/-- A decision gets the status of one that has no value, with a message if there is any. -/
def Evaluation.lose (key : String) (m : Option Message) (s : Status) (e : Evaluation) :
    Evaluation :=
  match m with
  | some m => e.fail key m s
  | none => e.onLedger (·.setStatus key s)

namespace Request

variable (r : Request L σ)

/-- What a visit may do that does not open its node. -/
structure Passes (whole : Node L → Progress σ → Resolution × Progress σ → Prop) : Prop where
  stay : ∀ n p res, (res = .resolved → n.isDecision → r.isDefined p.context n.info n.info) →
    whole n p (res, p)
  blank : ∀ n p, n.isKnowledge → whole n p (.resolved, p.update (·.report (.of .warn
    (.missingExpressionForBkm n.info.identifier) (some n.info.id) none)))

/-- What a visit may do when no further level may be opened. -/
structure Floor (whole : Node L → Progress σ → Resolution × Progress σ → Prop) : Prop
    extends r.Passes whole where
  tooDeep : ∀ n p, n.isDecision → r.isDefined p.context n.info n.info = false →
    (p.ledger.status (r.key n)).blocksReentry = false →
    whole n p (.decisionFailed, (p.update (·.onLedger (·.ensure (r.key n) n.info.name))).update
      (·.fail (r.key n) (.of .error (.evaluationDepthExceeded n.info.identifier r.maxDepth)
        (some n.info.id) none) .failed))
  overrun : ∀ n p, n.isKnowledge → p.evaluation.isActive (r.key n) = false →
    r.isDefined p.context n.info n.info = false →
    whole n p (.resolved, p.update (·.report (.of .error
      (.evaluationDepthExceeded n.info.identifier r.maxDepth) (some n.info.id) none)))

/-- A law of a level, given the law of the level below. `below` and `whole` relate the start of a
visit to its outcome, on the level below and on this one. `inside n b` relates two points of the
evaluation of `n` before its logic runs; `b` tells that no dependency came out unresolved in
between. `called n` relates the opening of `n` to a point after its logic ran. Only if that has
answered that it failed does a decision fail without a message. -/
structure Lifts (below whole : Node L → Progress σ → Resolution × Progress σ → Prop)
    (inside : Node L → Bool → Progress σ → Progress σ → Prop)
    (called : Node L → Progress σ → Progress σ → Prop) : Prop extends r.Passes whole where
  refl : ∀ n p, inside n true p p
  trans : ∀ {n a b p q s}, inside n a p q → inside n b q s → inside n (a && b) p s
  unresolved : ∀ n name id source d p, (name, id) ∈ n.info.dependencies.toList →
    d.isDepth = false → inside n false p (r.reportUnresolved n name source d p)
  fits : ∀ n d type p, r.typeCheck = true → d ∈ r.model.requirements n → d.role = .input type →
    type.check (r.found n d p) ≠ .ok false →
    inside n true p (r.watch (.examined n d (r.found n d p)) p)
  misfit : ∀ n d type p name id source g, r.typeCheck = true →
    (name, id) ∈ n.info.dependencies.toList → r.model.node? id = some d → d.role = .input type →
    type.check (r.found n d p) = .ok false → g.isDepth = false →
    inside n false p
      (r.reportUnresolved n name source g (r.watch (.examined n d (r.found n d p)) p))
  report : ∀ n m p, m.isDepth = false → inside n true p (p.update (·.report m))
  notify : ∀ n e p, inside n true p (r.notify e p)
  here : ∀ n d p x, d ∈ r.model.requirements n → r.isDefined p.context n.info d.info = false →
    d.info.ns = r.model.scopeNs p.context → below d p x → inside n true p x.2
  through : ∀ n d p name x, d ∈ r.model.requirements n →
    r.isDefined p.context n.info d.info = false → d.info.ns ≠ r.model.scopeNs p.context →
    n.info.importName? d.info.ns d.info.model = some name →
    below d (p.update (·.onContext (·.push ⟨name, d.info.ns⟩))) x →
    inside n true p (x.2.update (·.onContext (·.closeTo p.context.depth)))
  call : ∀ n logic room p q, n.role.logic? = some logic →
    inside n true (r.opening n p) q → (r.resolve (r.visit room) n q).1 = true →
    inside n true (r.opening n p) (r.resolve (r.visit room) n q).2 →
    called n (r.opening n p) (r.callLogic n logic (r.resolve (r.visit room) n q).2).2
  complained : ∀ n p q m, m.isDepth = false → called n p q → called n p (q.update (·.report m))
  told : ∀ n p res q e, whole n p (res, q) → whole n p (res, r.notify e q)
  skipped : ∀ n p b q m, n.isDecision → r.isDefined p.context n.info n.info = false →
    (p.ledger.status (r.key n)).blocksReentry = false → inside n b (r.opening n p) q →
    (m = none → b = false) → (∀ x ∈ m, x.isDepth = false) →
    whole n p (.decisionFailed, r.watch (.left n) (q.update (·.lose (r.key n) m .skipped)))
  failed : ∀ n p q m, n.isDecision → r.isDefined p.context n.info n.info = false →
    (p.ledger.status (r.key n)).blocksReentry = false → called n (r.opening n p) q →
    (∀ x ∈ m, x.isDepth = false) →
    (m = none → ∃ logic s, n.role.logic? = some logic ∧
      r.callLogic n logic s = (.ok .failure, q)) →
    whole n p (.decisionFailed, r.watch (.left n) (q.update (·.lose (r.key n) m .failed)))
  kept : ∀ n p q v, n.isDecision → r.isDefined p.context n.info n.info = false →
    (p.ledger.status (r.key n)).blocksReentry = false → called n (r.opening n p) q →
    whole n p (.resolved, r.watch (.left n) (r.watch (.bound n) (q.update fun e =>
      (e.onContext (·.set n.info.name v)).onLedger (·.modify (r.key n) (·.succeed v)))))
  heard : ∀ n p e x, n.isKnowledge → whole n (r.notify e p) x → whole n p x
  abandoned : ∀ n p b q, n.isKnowledge → p.evaluation.isActive (r.key n) = false →
    r.isDefined p.context n.info n.info = false → inside n b (r.opening n p) q →
    whole n p (.resolved, r.watch (.left n) (q.update (·.leave (r.key n))))
  ended : ∀ n p q, n.isKnowledge → p.evaluation.isActive (r.key n) = false →
    r.isDefined p.context n.info n.info = false → called n (r.opening n p) q →
    whole n p (.resolved, r.watch (.left n) (q.update (·.leave (r.key n))))
  given : ∀ n p q f, n.isKnowledge → p.evaluation.isActive (r.key n) = false →
    r.isDefined p.context n.info n.info = false → called n (r.opening n p) q →
    whole n p (.resolved, r.watch (.left n) ((r.watch (.bound n)
      (q.update (·.onContext (·.set n.info.name (.function f))))).update (·.leave (r.key n))))

structure Lawful (whole : Node L → Progress σ → Resolution × Progress σ → Prop)
    (inside : Node L → Bool → Progress σ → Progress σ → Prop)
    (called : Node L → Progress σ → Progress σ → Prop) : Prop where
  refl : ∀ n p, inside n true p p
  trans : ∀ {n a b p q s}, inside n a p q → inside n b q s → inside n (a && b) p s
  unresolved : ∀ n name id source d p, (name, id) ∈ n.info.dependencies.toList →
    inside n false p (r.reportUnresolved n name source d p)
  fits : ∀ n d type p, r.typeCheck = true → d ∈ r.model.requirements n → d.role = .input type →
    type.check (r.found n d p) ≠ .ok false →
    inside n true p (r.watch (.examined n d (r.found n d p)) p)
  misfit : ∀ n d type p name id source g, r.typeCheck = true →
    (name, id) ∈ n.info.dependencies.toList → r.model.node? id = some d → d.role = .input type →
    type.check (r.found n d p) = .ok false →
    inside n false p
      (r.reportUnresolved n name source g (r.watch (.examined n d (r.found n d p)) p))
  report : ∀ n m p, inside n true p (p.update (·.report m))
  notify : ∀ n e p, inside n true p (r.notify e p)
  here : ∀ n d p x, d ∈ r.model.requirements n → r.isDefined p.context n.info d.info = false →
    d.info.ns = r.model.scopeNs p.context → whole d p x → inside n true p x.2
  through : ∀ n d p name x, d ∈ r.model.requirements n →
    r.isDefined p.context n.info d.info = false → d.info.ns ≠ r.model.scopeNs p.context →
    n.info.importName? d.info.ns d.info.model = some name →
    whole d (p.update (·.onContext (·.push ⟨name, d.info.ns⟩))) x →
    inside n true p (x.2.update (·.onContext (·.closeTo p.context.depth)))
  call : ∀ n logic room p q, n.role.logic? = some logic →
    inside n true (r.opening n p) q → (r.resolve (r.visit room) n q).1 = true →
    inside n true (r.opening n p) (r.resolve (r.visit room) n q).2 →
    called n (r.opening n p) (r.callLogic n logic (r.resolve (r.visit room) n q).2).2
  complained : ∀ n p q m, called n p q → called n p (q.update (·.report m))
  stay : ∀ n p res, (res = .resolved → n.isDecision → r.isDefined p.context n.info n.info) →
    whole n p (res, p)
  told : ∀ n p res q e, whole n p (res, q) → whole n p (res, r.notify e q)
  tooDeep : ∀ n p d, n.isDecision → r.isDefined p.context n.info n.info = false →
    (p.ledger.status (r.key n)).blocksReentry = false →
    whole n p (.decisionFailed, (p.update (·.onLedger (·.ensure (r.key n) n.info.name))).update
      (·.fail (r.key n) (.of .error d (some n.info.id) none) .failed))
  skipped : ∀ n p b q m, n.isDecision → r.isDefined p.context n.info n.info = false →
    (p.ledger.status (r.key n)).blocksReentry = false → inside n b (r.opening n p) q →
    whole n p (.decisionFailed, r.watch (.left n) (q.update (·.lose (r.key n) m .skipped)))
  failed : ∀ n p q m, n.isDecision → r.isDefined p.context n.info n.info = false →
    (p.ledger.status (r.key n)).blocksReentry = false → called n (r.opening n p) q →
    whole n p (.decisionFailed, r.watch (.left n) (q.update (·.lose (r.key n) m .failed)))
  kept : ∀ n p q v, n.isDecision → r.isDefined p.context n.info n.info = false →
    (p.ledger.status (r.key n)).blocksReentry = false → called n (r.opening n p) q →
    whole n p (.resolved, r.watch (.left n) (r.watch (.bound n) (q.update fun e =>
      (e.onContext (·.set n.info.name v)).onLedger (·.modify (r.key n) (·.succeed v)))))
  reported : ∀ n p m, n.isKnowledge → whole n p (.resolved, p.update (·.report m))
  heard : ∀ n p e x, n.isKnowledge → whole n (r.notify e p) x → whole n p x
  abandoned : ∀ n p b q, n.isKnowledge → p.evaluation.isActive (r.key n) = false →
    r.isDefined p.context n.info n.info = false → inside n b (r.opening n p) q →
    whole n p (.resolved, r.watch (.left n) (q.update (·.leave (r.key n))))
  ended : ∀ n p q, n.isKnowledge → p.evaluation.isActive (r.key n) = false →
    r.isDefined p.context n.info n.info = false → called n (r.opening n p) q →
    whole n p (.resolved, r.watch (.left n) (q.update (·.leave (r.key n))))
  given : ∀ n p q f, n.isKnowledge → p.evaluation.isActive (r.key n) = false →
    r.isDefined p.context n.info n.info = false → called n (r.opening n p) q →
    whole n p (.resolved, r.watch (.left n) ((r.watch (.bound n)
      (q.update (·.onContext (·.set n.info.name (.function f))))).update (·.leave (r.key n))))

variable {r}

theorem Lawful.and {whole whole' : Node L → Progress σ → Resolution × Progress σ → Prop}
    {inside inside' : Node L → Bool → Progress σ → Progress σ → Prop}
    {called called' : Node L → Progress σ → Progress σ → Prop}
    (h : r.Lawful whole inside called) (h' : r.Lawful whole' inside' called') :
    r.Lawful (fun n p x => whole n p x ∧ whole' n p x)
      (fun n b p q => inside n b p q ∧ inside' n b p q)
      (fun n p q => called n p q ∧ called' n p q) where
  refl n p := ⟨h.refl n p, h'.refl n p⟩
  trans hp hq := ⟨h.trans hp.1 hq.1, h'.trans hp.2 hq.2⟩
  unresolved n name id source d p he :=
    ⟨h.unresolved n name id source d p he, h'.unresolved n name id source d p he⟩
  fits n d type p ht hm hr hc := ⟨h.fits n d type p ht hm hr hc, h'.fits n d type p ht hm hr hc⟩
  misfit n d type p name id source g ht he hd hr hc :=
    ⟨h.misfit n d type p name id source g ht he hd hr hc,
      h'.misfit n d type p name id source g ht he hd hr hc⟩
  report n m p := ⟨h.report n m p, h'.report n m p⟩
  notify n e p := ⟨h.notify n e p, h'.notify n e p⟩
  here n d p x hm hu hs hx := ⟨h.here n d p x hm hu hs hx.1, h'.here n d p x hm hu hs hx.2⟩
  through n d p a x hm hu hs ha hx :=
    ⟨h.through n d p a x hm hu hs ha hx.1, h'.through n d p a x hm hu hs ha hx.2⟩
  call n logic room p q hl hq hr hres :=
    ⟨h.call n logic room p q hl hq.1 hr hres.1, h'.call n logic room p q hl hq.2 hr hres.2⟩
  complained n p q m hq := ⟨h.complained n p q m hq.1, h'.complained n p q m hq.2⟩
  stay n p res hres := ⟨h.stay n p res hres, h'.stay n p res hres⟩
  told n p res q e hq := ⟨h.told n p res q e hq.1, h'.told n p res q e hq.2⟩
  tooDeep n p d hn hu hb := ⟨h.tooDeep n p d hn hu hb, h'.tooDeep n p d hn hu hb⟩
  skipped n p b q m hn hu hb hq :=
    ⟨h.skipped n p b q m hn hu hb hq.1, h'.skipped n p b q m hn hu hb hq.2⟩
  failed n p q m hn hu hb hq := ⟨h.failed n p q m hn hu hb hq.1, h'.failed n p q m hn hu hb hq.2⟩
  kept n p q v hn hu hb hq := ⟨h.kept n p q v hn hu hb hq.1, h'.kept n p q v hn hu hb hq.2⟩
  reported n p m hn := ⟨h.reported n p m hn, h'.reported n p m hn⟩
  heard n p e x hn hx := ⟨h.heard n p e x hn hx.1, h'.heard n p e x hn hx.2⟩
  abandoned n p b q hn ha hu hq :=
    ⟨h.abandoned n p b q hn ha hu hq.1, h'.abandoned n p b q hn ha hu hq.2⟩
  ended n p q hn ha hu hq := ⟨h.ended n p q hn ha hu hq.1, h'.ended n p q hn ha hu hq.2⟩
  given n p q f hn ha hu hq := ⟨h.given n p q f hn ha hu hq.1, h'.given n p q f hn ha hu hq.2⟩

theorem Lawful.floor {whole : Node L → Progress σ → Resolution × Progress σ → Prop}
    {inside : Node L → Bool → Progress σ → Progress σ → Prop}
    {called : Node L → Progress σ → Progress σ → Prop} (h : r.Lawful whole inside called) :
    r.Floor whole where
  stay := h.stay
  blank n p := h.reported n p _
  tooDeep n p := h.tooDeep n p _
  overrun n p hn _ _ := h.reported n p _ hn

theorem Lawful.lifts {whole : Node L → Progress σ → Resolution × Progress σ → Prop}
    {inside : Node L → Bool → Progress σ → Progress σ → Prop}
    {called : Node L → Progress σ → Progress σ → Prop} (h : r.Lawful whole inside called) :
    r.Lifts whole whole inside called where
  toPasses := h.floor.toPasses
  refl := h.refl
  trans := h.trans
  unresolved n name id source d p he _ := h.unresolved n name id source d p he
  fits := h.fits
  misfit n d type p name id source g ht he hd hr hc _ :=
    h.misfit n d type p name id source g ht he hd hr hc
  report n m p _ := h.report n m p
  notify := h.notify
  here := h.here
  through := h.through
  call := h.call
  complained n p q m _ := h.complained n p q m
  told := h.told
  skipped n p b q m hn hu hb hq _ _ := h.skipped n p b q m hn hu hb hq
  failed n p q m hn hu hb hq _ _ := h.failed n p q m hn hu hb hq
  kept := h.kept
  heard := h.heard
  abandoned := h.abandoned
  ended := h.ended
  given := h.given

namespace Lifts

variable {below whole : Node L → Progress σ → Resolution × Progress σ → Prop}
  {inside : Node L → Bool → Progress σ → Progress σ → Prop}
  {called : Node L → Progress σ → Progress σ → Prop} (h : r.Lifts below whole inside called)
  {inner : Visit L σ} (hi : ∀ d p, below d p (inner d p))

include h

theorem checkInput {n d : Node L} {name : String} {id : Nat} (p : Progress σ)
    (he : (name, id) ∈ n.info.dependencies.toList) (hd : r.model.node? id = some d) :
    inside n (r.checkInput n d name p).1 p (r.checkInput n d name p).2 := by
  by_cases hx : r.typeCheck = true ∧ ∃ type, d.role = .input type
  · obtain ⟨ht, type, hr⟩ := hx
    have hf := h.fits n d type p ht (Model.mem_requirements he hd) hr
    rw [checkInput_of_input ht hr]
    cases hc : type.check (r.found n d p) with
    | error e =>
      have hfit := hf fun hf => by rw [hc] at hf; cases hf
      exact h.trans hfit (h.report n _ _ (by simp [Diagnostic.isDepth]))
    | ok fits =>
      cases fits with
      | true => exact hf fun hf => by rw [hc] at hf; cases hf
      | false => exact h.misfit n d type p name id _ _ ht he hd hr hc rfl
  · rw [checkInput_of_not hx]
    exact h.refl n p

theorem settle {n d : Node L} {name : String} {id : Nat} {p : Progress σ}
    {x : Resolution × Progress σ} (he : (name, id) ∈ n.info.dependencies.toList)
    (hx : inside n true p x.2) :
    inside n (r.settle n d name x).1 p (r.settle n d name x).2 := by
  unfold Request.settle
  cases hg : complaint n.info d.info x.1 with
  | none => exact hx
  | some g => exact h.trans hx (h.unresolved n name id n.info.id g x.2 he (isDepth_complaint hg))

include hi

theorem provide {n d : Node L} {name : String} {id : Nat} (p : Progress σ)
    (he : (name, id) ∈ n.info.dependencies.toList) (hd : r.model.node? id = some d) :
    inside n (r.provide inner n d name p).1 p (r.provide inner n d name p).2 := by
  have hm := Model.mem_requirements he hd
  cases hu : r.isDefined p.context n.info d.info with
  | true =>
    rw [provide_of_defined hu]
    exact h.refl n p
  | false =>
    cases hw : r.model.passage p.context n.info d.info with
    | closed =>
      rw [provide_of_closed hu hw]
      exact h.unresolved n name id n.info.id _ p he rfl
    | here =>
      rw [provide_of_open hu (by rw [hw]; simp), hw]
      exact h.settle he (h.here n d p _ hm hu (Model.passage_eq_here.mp hw) (hi d p))
    | through a =>
      rw [provide_of_open hu (by rw [hw]; simp), hw]
      obtain ⟨hs, ha⟩ := Model.passage_eq_through.mp hw
      exact h.settle he (h.through n d p a _ hm hu hs ha (hi d _))

theorem resolveOne {n : Node L} {name : String} {id : Nat} (p : Progress σ)
    (he : (name, id) ∈ n.info.dependencies.toList) :
    inside n (r.resolveOne inner n name id p).1 p (r.resolveOne inner n name id p).2 := by
  cases hd : r.model.node? id with
  | none =>
    unfold Request.resolveOne
    rw [hd]
    exact h.unresolved n name id _ _ p he rfl
  | some d =>
    have hc := h.checkInput p he hd
    have hp := h.provide hi (r.checkInput n d name p).2 he hd
    rw [resolveOne_of_some hd]
    split
    -- A business knowledge model stops at an input of the wrong type.
    next hs =>
      have hx : (r.checkInput n d name p).1 = false := by
        simpa using (Bool.and_eq_true_iff.mp hs).1
      rwa [hx] at hc
    next => exact h.trans hc hp

theorem resolveList {n : Node L} (deps : List (String × Nat)) (p : Progress σ)
    (hs : ∀ e ∈ deps, e ∈ n.info.dependencies.toList) :
    inside n (r.resolveList inner n deps p).1 p (r.resolveList inner n deps p).2 := by
  induction deps generalizing p with
  | nil => exact h.refl n p
  | cons e deps ih =>
    obtain ⟨name, id⟩ := e
    have hone := h.resolveOne hi p (hs _ List.mem_cons_self)
    have hrest := ih (r.resolveOne inner n name id p).2 fun e he => hs e (List.mem_cons_of_mem _ he)
    rw [resolveList_cons]
    split
    -- It stops at its first unresolved dependency as well, and leaves the rest untried.
    next hk =>
      have hx : (r.resolveOne inner n name id p).1 = false := by
        simpa using (Bool.and_eq_true_iff.mp hk).1
      rwa [hx] at hone
    next => exact h.trans hone hrest

theorem resolve (n : Node L) (p : Progress σ) :
    inside n (r.resolve inner n p).1 p (r.resolve inner n p).2 :=
  h.resolveList hi _ p fun _ he => he

omit hi

section visits

variable {room : Nat} (hv : ∀ d p, below d p (r.visit room d p)) {n : Node L}

theorem bindResult {type : DeclaredType} {p q : Progress σ} (hn : n.isDecision)
    (hu : r.isDefined p.context n.info n.info = false)
    (hb : (p.ledger.status (r.key n)).blocksReentry = false)
    (hq : called n (r.opening n p) q) (v : Value) :
    whole n p (.ofDecision (r.bindResult n type v q).1,
      r.watch (.left n) (r.bindResult n type v q).2) := by
  rw [bindResult_eq]
  cases hm : r.objection? n type v with
  | none => exact h.kept n p q _ hn hu hb hq
  | some m =>
    exact h.failed n p q (some m) hn hu hb hq (by simp [isDepth_of_objection? hm]) nofun

include hv

theorem runDecision {type : DeclaredType} {logic : Option L} {p q : Progress σ}
    (hr : n.role = .decision type logic) (hu : r.isDefined p.context n.info n.info = false)
    (hb : (p.ledger.status (r.key n)).blocksReentry = false)
    (hq : inside n true (r.opening n p) q) :
    whole n p (.ofDecision (r.runDecision (r.visit room) n type logic q).1,
      r.watch (.left n) (r.runDecision (r.visit room) n type logic q).2) := by
  have hn := Node.isDecision_of_role hr
  have hres := h.trans hq (h.resolve hv n q)
  unfold Request.runDecision
  dsimp only
  split
  next hready =>
    have hready : (r.resolve (r.visit room) n q).1 = false := by simpa using hready
    exact h.skipped n p _ _ none hn hu hb hres (fun _ => hready) (by simp)
  next hready =>
    have hready : (r.resolve (r.visit room) n q).1 = true := by simpa using hready
    rw [hready] at hres
    cases logic with
    | none =>
      exact h.skipped n p _ _ (some _) hn hu hb hres (by simp) (by simp [Diagnostic.isDepth])
    | some logic =>
      have hcall := h.call n logic room p q (by simp [hr, Role.logic?]) hq hready hres
      dsimp only
      split
      · exact h.bindResult hn hu hb hcall _
      next hanswer =>
        exact h.failed n p _ none hn hu hb hcall (by simp) fun _ =>
          ⟨logic, _, by simp [hr, Role.logic?], Prod.ext hanswer rfl⟩
      · exact h.failed n p _ (some _) hn hu hb hcall (by simp [Diagnostic.isDepth]) nofun

theorem runKnowledge {logic : L} {p : Progress σ} (hr : n.role = .knowledge (some logic))
    (ha : p.evaluation.isActive (r.key n) = false)
    (hu : r.isDefined p.context n.info n.info = false) :
    whole n p (.resolved, r.runKnowledge (r.visit room) n logic p) := by
  have hn := Node.isKnowledge_of_role hr
  have ho := opening_of_knowledge hn r p
  have hres := h.resolve hv n (r.opening n p)
  unfold Request.runKnowledge
  dsimp only
  rw [← ho]
  split
  next => exact h.abandoned n p _ _ hn ha hu hres
  next hready =>
    have hready : (r.resolve (r.visit room) n (r.opening n p)).1 = true := by simpa using hready
    rw [hready] at hres
    have hcall := h.call n logic room p _ (by simp [hr, Role.logic?]) (h.refl n _) hready hres
    have hsaid (reason : String) (cause : Option String) :=
      h.ended n p _ hn ha hu (h.complained n _ _
        (.of .error (.errorEvaluatingBkm n.info.identifier reason) (some n.info.id) cause)
        (by simp [Diagnostic.isDepth]) hcall)
    split
    · exact h.given n p _ _ hn ha hu hcall
    · exact hsaid _ _
    · exact h.ended n p _ hn ha hu hcall
    · exact hsaid _ _

/-- The cases are those of the code: a visit stays with what it finds, or opens the decision. -/
theorem visitDecision {type : DeclaredType} {logic : Option L} (p : Progress σ)
    (hr : n.role = .decision type logic) :
    whole n p (r.visitDecision (some (r.visit room)) n type logic p) := by
  cases hu : r.isDefined p.context n.info n.info with
  | true =>
    rw [visitDecision_of_defined hu]
    exact h.stay n p _ fun _ _ => hu
  | false =>
    cases hb : (p.ledger.status (r.key n)).blocksReentry with
    | true =>
      rw [visitDecision_of_blocked hu hb]
      exact h.stay n p _ (by simp)
    | false =>
      rw [visitDecision_some hr hu hb, decide, announced_eq]
      split
      · exact h.told _ _ _ _ _ (h.runDecision hv hr hu hb (h.notify n _ _))
      · exact h.runDecision hv hr hu hb (h.refl n _)

theorem visitKnowledge {logic : Option L} (p : Progress σ) (hr : n.role = .knowledge logic) :
    whole n p (r.visitKnowledge (some (r.visit room)) n logic p) := by
  have hn := Node.isKnowledge_of_role hr
  have hd := Node.not_isDecision hn
  cases ha : p.evaluation.isActive (r.key n) with
  | true =>
    rw [visitKnowledge_of_active ha]
    exact h.stay n p _ fun _ hd' => absurd hd' hd
  | false =>
    cases hu : r.isDefined p.context n.info n.info with
    | true =>
      rw [visitKnowledge_of_defined ha hu]
      exact h.stay n p _ fun _ hd' => absurd hd' hd
    | false =>
      cases logic with
      | none =>
        rw [visitKnowledge_of_missing ha hu]
        exact h.blank n p hn
      | some logic =>
        rw [visitKnowledge_some ha hu, inform, announced_eq]
        split
        · exact h.heard n p _ _ hn (h.told _ _ _ _ _ (h.runKnowledge hv hr ha hu))
        · exact h.runKnowledge hv hr ha hu

theorem visit_succ (n : Node L) (p : Progress σ) : whole n p (r.visit (room + 1) n p) := by
  rw [Request.visit_succ]
  cases hr : n.role with
  | decision type logic =>
    rw [visitNode_decision hr]
    exact h.visitDecision hv p hr
  | knowledge logic =>
    rw [visitNode_knowledge hr]
    exact h.visitKnowledge hv p hr
  | input type =>
    rw [visitNode_input hr]
    exact h.stay n p _ (by simp)

end visits

end Lifts

theorem Floor.visit_zero {whole : Node L → Progress σ → Resolution × Progress σ → Prop}
    (h : r.Floor whole) (n : Node L) (p : Progress σ) : whole n p (r.visit 0 n p) := by
  rw [visit_eq]
  cases hr : n.role with
  | decision type logic =>
    rw [visitNode_decision hr]
    cases hu : r.isDefined p.context n.info n.info with
    | true =>
      rw [visitDecision_of_defined hu]
      exact h.stay n p _ fun _ _ => hu
    | false =>
      cases hb : (p.ledger.status (r.key n)).blocksReentry with
      | true =>
        rw [visitDecision_of_blocked hu hb]
        exact h.stay n p _ (by simp)
      | false =>
        rw [below, visitDecision_none hu hb]
        exact h.tooDeep n p (Node.isDecision_of_role hr) hu hb
  | knowledge logic =>
    have hn := Node.isKnowledge_of_role hr
    have hd := Node.not_isDecision hn
    rw [visitNode_knowledge hr]
    cases ha : p.evaluation.isActive (r.key n) with
    | true =>
      rw [visitKnowledge_of_active ha]
      exact h.stay n p _ fun _ hd' => absurd hd' hd
    | false =>
      cases hu : r.isDefined p.context n.info n.info with
      | true =>
        rw [visitKnowledge_of_defined ha hu]
        exact h.stay n p _ fun _ hd' => absurd hd' hd
      | false =>
        cases logic with
        | none =>
          rw [visitKnowledge_of_missing ha hu]
          exact h.blank n p hn
        | some logic =>
          rw [below, visitKnowledge_none ha hu]
          exact h.overrun n p hn ha hu
  | input type =>
    rw [visitNode_input hr]
    exact h.stay n p _ (by simp)

/-- If the law holds on the floor and is lifted from each level to the next, it holds on all. -/
theorem visit_of_levels {whole : Nat → Node L → Progress σ → Resolution × Progress σ → Prop}
    {inside : Nat → Node L → Bool → Progress σ → Progress σ → Prop}
    {called : Nat → Node L → Progress σ → Progress σ → Prop} (floor : r.Floor (whole 0))
    (lifts : ∀ k, r.Lifts (whole k) (whole (k + 1)) (inside k) (called k)) (room : Nat)
    (n : Node L) (p : Progress σ) : whole room n p (r.visit room n p) := by
  induction room generalizing n p with
  | zero => exact floor.visit_zero n p
  | succ room ih => exact (lifts room).visit_succ ih n p

/-- The same with one law for all levels. -/
theorem visit_of_level {whole : Node L → Progress σ → Resolution × Progress σ → Prop}
    {inside : Node L → Bool → Progress σ → Progress σ → Prop}
    {called : Node L → Progress σ → Progress σ → Prop} (floor : r.Floor whole)
    (lifts : r.Lifts whole whole inside called) (room : Nat) (n : Node L) (p : Progress σ) :
    whole n p (r.visit room n p) :=
  @visit_of_levels _ _ r (fun _ => whole) (fun _ => inside) (fun _ => called) floor
    (fun _ => lifts) room n p

namespace Lawful

variable {whole : Node L → Progress σ → Resolution × Progress σ → Prop}
  {inside : Node L → Bool → Progress σ → Progress σ → Prop}
  {called : Node L → Progress σ → Progress σ → Prop} (h : r.Lawful whole inside called)

include h

/-- A law of the single acts is a law of all visits. -/
theorem visit (room : Nat) (n : Node L) (p : Progress σ) : whole n p (r.visit room n p) :=
  visit_of_level h.floor h.lifts room n p

variable {inner : Visit L σ} (hi : ∀ d p, whole d p (inner d p)) {n : Node L}

include hi

theorem provide {d : Node L} {name : String} {id : Nat} (p : Progress σ)
    (he : (name, id) ∈ n.info.dependencies.toList) (hd : r.model.node? id = some d) :
    inside n (r.provide inner n d name p).1 p (r.provide inner n d name p).2 :=
  h.lifts.provide hi p he hd

theorem resolveOne {name : String} {id : Nat} (p : Progress σ)
    (he : (name, id) ∈ n.info.dependencies.toList) :
    inside n (r.resolveOne inner n name id p).1 p (r.resolveOne inner n name id p).2 :=
  h.lifts.resolveOne hi p he

theorem resolveList (deps : List (String × Nat)) (p : Progress σ)
    (hs : ∀ e ∈ deps, e ∈ n.info.dependencies.toList) :
    inside n (r.resolveList inner n deps p).1 p (r.resolveList inner n deps p).2 :=
  h.lifts.resolveList hi deps p hs

theorem resolve (n : Node L) (p : Progress σ) :
    inside n (r.resolve inner n p).1 p (r.resolve inner n p).2 :=
  h.lifts.resolve hi n p

end Lawful

end Request

end DecisionGraph
