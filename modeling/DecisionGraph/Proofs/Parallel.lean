import DecisionGraph.Proofs.Equations

namespace DecisionGraph

variable {L σ τ : Type}

/-- The same request on another host. -/
def Request.onHost (r : Request L τ) (h : Host L σ) : Request L σ :=
  ⟨r.model, h, r.typeCheck, r.maxDepth, r.importLookup⟩

/-- The same comes out on both sides, and the sides are related afterwards. -/
def Both (R : Progress τ → Progress σ → Prop) {α : Type} (x : α × Progress τ)
    (y : α × Progress σ) : Prop :=
  y.1 = x.1 ∧ R x.2 y.2

namespace Request

/-- Related sides look the same to a walk, and stay related over each of its acts. -/
structure InStep (r : Request L τ) (h : Host L σ) (R : Progress τ → Progress σ → Prop) :
    Prop where
  context : ∀ {p q}, R p q → q.context = p.context
  ledger : ∀ {p q}, R p q → q.ledger = p.ledger
  active : ∀ {p q}, R p q → q.evaluation.active = p.evaluation.active
  listening : ∀ {p q}, R p q → h.listening q.world = r.host.listening p.world
  report : ∀ {p q} m, R p q → R (p.update (·.report m)) (q.update (·.report m))
  onContext : ∀ {p q} f, R p q → R (p.update (·.onContext f)) (q.update (·.onContext f))
  onLedger : ∀ {p q} f, R p q → R (p.update (·.onLedger f)) (q.update (·.onLedger f))
  enter : ∀ {p q} k, R p q → R (p.update (·.enter k)) (q.update (·.enter k))
  leave : ∀ {p q} k, R p q → R (p.update (·.leave k)) (q.update (·.leave k))
  watch : ∀ {p q} m, R p q → R (r.watch m p) ((r.onHost h).watch m q)
  notify : ∀ {p q} e, R p q → R (r.notify e p) ((r.onHost h).notify e q)
  callLogic : ∀ {p q} n l, R p q → Both R (r.callLogic n l p) ((r.onHost h).callLogic n l q)

namespace InStep

variable {r : Request L τ} {h : Host L σ} {R : Progress τ → Progress σ → Prop}
  {p : Progress τ} {q : Progress σ} {n d : Node L} {name : String}

section acts

variable (hs : r.InStep h R)

include hs

theorem fail (hp : R p q) (k : String) (m : Message) (s : Status) :
    R (p.update (·.fail k m s)) (q.update (·.fail k m s)) :=
  hs.onLedger _ (hs.report m hp)

theorem isDefined (hp : R p q) (n d : NodeInfo) :
    (r.onHost h).isDefined q.context n d = r.isDefined p.context n d := by
  rw [hs.context hp]
  rfl

theorem passage (hp : R p q) (n d : NodeInfo) :
    (r.onHost h).model.passage q.context n d = r.model.passage p.context n d := by
  rw [hs.context hp]
  rfl

theorem found (hp : R p q) (n d : Node L) : (r.onHost h).found n d q = r.found n d p := by
  unfold Request.found
  rw [hs.context hp]
  rfl

theorem status (hp : R p q) (n : Node L) :
    q.ledger.status ((r.onHost h).key n) = p.ledger.status (r.key n) := by
  rw [hs.ledger hp]
  rfl

theorem isActive (hp : R p q) (n : Node L) :
    q.evaluation.isActive ((r.onHost h).key n) = p.evaluation.isActive (r.key n) := by
  unfold Evaluation.isActive
  rw [hs.active hp]
  rfl

theorem reportUnresolved (hp : R p q) (n : Node L) (name source : String) (g : Diagnostic) :
    R (r.reportUnresolved n name source g p)
      ((r.onHost h).reportUnresolved n name source g q) := by
  unfold Request.reportUnresolved
  dsimp only
  split
  · exact hs.watch _ (hs.fail hp ..)
  · exact hs.watch _ (hs.report _ hp)

theorem settle {x : Resolution × Progress τ} {y : Resolution × Progress σ} (hx : Both R x y)
    (n d : Node L) (name : String) :
    Both R (r.settle n d name x) ((r.onHost h).settle n d name y) := by
  obtain ⟨hres, hp⟩ := hx
  unfold Request.settle
  rw [hres]
  cases complaint n.info d.info x.1 with
  | none => exact ⟨rfl, hp⟩
  | some g => exact ⟨rfl, hs.reportUnresolved hp ..⟩

theorem checkInput (hp : R p q) (n d : Node L) (name : String) :
    Both R (r.checkInput n d name p) ((r.onHost h).checkInput n d name q) := by
  by_cases hx : r.typeCheck = true ∧ ∃ type, d.role = .input type
  · obtain ⟨ht, type, hr⟩ := hx
    have hw := hs.watch (.examined n d (r.found n d p)) hp
    rw [checkInput_of_input ht hr, checkInput_of_input (r := r.onHost h) ht hr, hs.found hp]
    cases type.check (r.found n d p) with
    | error e => exact ⟨rfl, hs.report _ hw⟩
    | ok fits =>
      cases fits with
      | true => exact ⟨rfl, hw⟩
      | false => exact ⟨rfl, hs.reportUnresolved hw ..⟩
  · rw [checkInput_of_not hx, checkInput_of_not (r := r.onHost h) hx]
    exact ⟨rfl, hp⟩

theorem bindResult (hp : R p q) (n : Node L) (type : DeclaredType) (v : Value) :
    Both R (r.bindResult n type v p) ((r.onHost h).bindResult n type v q) := by
  have hsame : (r.onHost h).objection? n type v = r.objection? n type v := rfl
  rw [bindResult_eq, bindResult_eq, hsame]
  cases r.objection? n type v with
  | none => exact ⟨rfl, hs.watch _ (hs.onLedger (·.modify (r.key n) (·.succeed (type.unwrap v)))
      (hs.onContext (·.set n.info.name (type.unwrap v)) hp))⟩
  | some m => exact ⟨rfl, hs.fail hp ..⟩

theorem announced {run : Progress τ → Bool × Progress τ} {run' : Progress σ → Bool × Progress σ}
    (hr : ∀ p q, R p q → Both R (run p) (run' q)) (hp : R p q) (before : Event)
    (after : Ledger → Event) :
    Both R (r.announced before after run p) ((r.onHost h).announced before after run' q) := by
  have hl : (r.onHost h).host.listening q.world = r.host.listening p.world := hs.listening hp
  rw [announced_eq, announced_eq, hl]
  split
  · obtain ⟨hok, hend⟩ := hr _ _ (hs.notify before hp)
    rw [hs.ledger hend]
    exact ⟨hok, hs.notify _ hend⟩
  · exact hr p q hp

theorem opening (hp : R p q) (n : Node L) : R (r.opening n p) ((r.onHost h).opening n q) := by
  unfold Request.opening
  split
  · exact hs.watch _ (hs.onLedger _ (hs.onLedger _ hp))
  · exact hs.watch _ (hs.enter _ hp)

end acts

section inner

variable (hs : r.InStep h R) {inner : Visit L τ} {inner' : Visit L σ}
  (hi : ∀ d p q, R p q → Both R (inner d p) (inner' d q))

include hs hi

theorem descend (hp : R p q) (d : Node L) (w : Passage) :
    Both R (Request.descend inner d w p) (Request.descend inner' d w q) := by
  cases w with
  | here => exact hi d p q hp
  | closed => exact hi d p q hp
  | through a =>
    obtain ⟨hres, hend⟩ := hi d _ _ (hs.onContext (·.push ⟨a, d.info.ns⟩) hp)
    rw [descend_through, descend_through, hs.context hp]
    exact ⟨hres, hs.onContext _ hend⟩

theorem provide (hp : R p q) (n d : Node L) (name : String) :
    Both R (r.provide inner n d name p) ((r.onHost h).provide inner' n d name q) := by
  have hu := hs.isDefined hp n.info d.info
  have hw := hs.passage hp n.info d.info
  cases hdef : r.isDefined p.context n.info d.info with
  | true =>
    rw [provide_of_defined hdef, provide_of_defined (hu.trans hdef)]
    exact ⟨rfl, hp⟩
  | false =>
    by_cases hclosed : r.model.passage p.context n.info d.info = .closed
    · rw [provide_of_closed hdef hclosed, provide_of_closed (hu.trans hdef) (hw.trans hclosed)]
      exact ⟨rfl, hs.reportUnresolved hp ..⟩
    · rw [provide_of_open hdef hclosed, provide_of_open (hu.trans hdef) (by rwa [hw]), hw]
      exact hs.settle (hs.descend hi hp d _) n d name

theorem resolveOne (hp : R p q) (n : Node L) (name : String) (id : Nat) :
    Both R (r.resolveOne inner n name id p) ((r.onHost h).resolveOne inner' n name id q) := by
  cases hd : r.model.node? id with
  | none =>
    have hd' : (r.onHost h).model.node? id = none := hd
    unfold Request.resolveOne
    rw [hd, hd']
    exact ⟨rfl, hs.reportUnresolved hp ..⟩
  | some d =>
    obtain ⟨hfits, hcheck⟩ := hs.checkInput hp n d name
    obtain ⟨hok, hprov⟩ := hs.provide hi hcheck n d name
    rw [resolveOne_of_some hd, resolveOne_of_some (r := r.onHost h) hd, hfits, hok]
    split
    · exact ⟨rfl, hcheck⟩
    · exact ⟨rfl, hprov⟩

theorem resolveList (hp : R p q) (n : Node L) (deps : List (String × Nat)) :
    Both R (r.resolveList inner n deps p) ((r.onHost h).resolveList inner' n deps q) := by
  induction deps generalizing p q with
  | nil => exact ⟨rfl, hp⟩
  | cons e deps ih =>
    obtain ⟨name, id⟩ := e
    obtain ⟨hok, hone⟩ := hs.resolveOne hi hp n name id
    obtain ⟨hall, hrest⟩ := ih hone
    rw [resolveList_cons, resolveList_cons, hok, hall]
    split
    · exact ⟨rfl, hone⟩
    · exact ⟨rfl, hrest⟩

theorem resolve (hp : R p q) (n : Node L) :
    Both R (r.resolve inner n p) ((r.onHost h).resolve inner' n q) :=
  hs.resolveList hi hp n _

theorem runDecision (hp : R p q) (n : Node L) (type : DeclaredType) (logic : Option L) :
    Both R (r.runDecision inner n type logic p)
      ((r.onHost h).runDecision inner' n type logic q) := by
  obtain ⟨hready, hres⟩ := hs.resolve hi hp n
  unfold Request.runDecision
  dsimp only
  rw [hready]
  split
  · exact ⟨rfl, hs.onLedger _ hres⟩
  · cases logic with
    | none => exact ⟨rfl, hs.fail hres ..⟩
    | some l =>
      obtain ⟨hanswer, hcall⟩ := hs.callLogic n l hres
      dsimp only
      rw [hanswer]
      split
      · exact hs.bindResult hcall ..
      · exact ⟨rfl, hs.onLedger _ hcall⟩
      · exact ⟨rfl, hs.fail hcall ..⟩

theorem decide (hp : R p q) (n : Node L) (type : DeclaredType) (logic : Option L) :
    Both R (r.decide inner n type logic p) ((r.onHost h).decide inner' n type logic q) := by
  refine hs.announced (fun p q hp => ?_) hp _ _
  obtain ⟨hok, hend⟩ := hs.runDecision hi hp n type logic
  exact ⟨hok, hs.watch _ hend⟩

theorem runKnowledge (hp : R p q) (n : Node L) (l : L) :
    R (r.runKnowledge inner n l p) ((r.onHost h).runKnowledge inner' n l q) := by
  have hend {p : Progress τ} {q : Progress σ} (hp : R p q) :
      R (r.watch (.left n) (p.update (·.leave (r.key n))))
        ((r.onHost h).watch (.left n) (q.update (·.leave (r.key n)))) :=
    hs.watch _ (hs.leave _ hp)
  obtain ⟨hready, hres⟩ := hs.resolve hi (hs.watch (.entered n) (hs.enter (r.key n) hp)) n
  have hkey : (r.onHost h).key n = r.key n := rfl
  unfold Request.runKnowledge
  dsimp only
  rw [hkey, hready]
  split
  · exact hend hres
  · obtain ⟨hanswer, hcall⟩ := hs.callLogic n l hres
    rw [hanswer]
    split
    · exact hend (hs.watch _ (hs.onContext _ hcall))
    · exact hend (hs.report _ hcall)
    · exact hend hcall
    · exact hend (hs.report _ hcall)

theorem inform (hp : R p q) (n : Node L) (l : L) :
    R (r.inform inner n l p) ((r.onHost h).inform inner' n l q) :=
  (hs.announced (fun _ _ hp => ⟨rfl, hs.runKnowledge hi hp n l⟩) hp _ _).2

end inner

section below

variable (hs : r.InStep h R) {room : Nat}
  (hv : ∀ k, room = k + 1 → ∀ n p q, R p q → Both R (r.visit k n p) ((r.onHost h).visit k n q))

include hs hv

theorem visitDecision {type : DeclaredType} {logic : Option L}
    (hr : n.role = .decision type logic) (hp : R p q) :
    Both R (r.visitDecision (r.below room) n type logic p)
      ((r.onHost h).visitDecision ((r.onHost h).below room) n type logic q) := by
  have hu := hs.isDefined hp n.info n.info
  have hst := congrArg Status.blocksReentry (hs.status hp n)
  cases hdef : r.isDefined p.context n.info n.info with
  | true =>
    rw [visitDecision_of_defined hdef, visitDecision_of_defined (hu.trans hdef)]
    exact ⟨rfl, hp⟩
  | false =>
    cases hb : (p.ledger.status (r.key n)).blocksReentry with
    | true =>
      rw [visitDecision_of_blocked hdef hb,
        visitDecision_of_blocked (hu.trans hdef) (hst.trans hb)]
      exact ⟨rfl, hp⟩
    | false =>
      cases room with
      | zero =>
        rw [Request.below, Request.below, visitDecision_none hdef hb,
          visitDecision_none (hu.trans hdef) (hst.trans hb)]
        exact ⟨rfl, hs.fail (hs.onLedger _ hp) ..⟩
      | succ room =>
        obtain ⟨hok, hend⟩ := hs.decide (hv room rfl) (hs.opening hp n) n type logic
        rw [Request.below, Request.below, visitDecision_some hr hdef hb,
          visitDecision_some hr (hu.trans hdef) (hst.trans hb)]
        exact ⟨congrArg Resolution.ofDecision hok, hend⟩

theorem visitKnowledge (hp : R p q) (n : Node L) (logic : Option L) :
    Both R (r.visitKnowledge (r.below room) n logic p)
      ((r.onHost h).visitKnowledge ((r.onHost h).below room) n logic q) := by
  have hu := hs.isDefined hp n.info n.info
  have hac := hs.isActive hp n
  cases ha : p.evaluation.isActive (r.key n) with
  | true =>
    rw [visitKnowledge_of_active ha, visitKnowledge_of_active (hac.trans ha)]
    exact ⟨rfl, hp⟩
  | false =>
    cases hdef : r.isDefined p.context n.info n.info with
    | true =>
      rw [visitKnowledge_of_defined ha hdef,
        visitKnowledge_of_defined (hac.trans ha) (hu.trans hdef)]
      exact ⟨rfl, hp⟩
    | false =>
      cases logic with
      | none =>
        rw [visitKnowledge_of_missing ha hdef,
          visitKnowledge_of_missing (hac.trans ha) (hu.trans hdef)]
        exact ⟨rfl, hs.report _ hp⟩
      | some l =>
        cases room with
        | zero =>
          rw [Request.below, Request.below, visitKnowledge_none ha hdef,
            visitKnowledge_none (hac.trans ha) (hu.trans hdef)]
          exact ⟨rfl, hs.report _ hp⟩
        | succ room =>
          rw [Request.below, Request.below, visitKnowledge_some ha hdef,
            visitKnowledge_some (hac.trans ha) (hu.trans hdef)]
          exact ⟨rfl, hs.inform (hv room rfl) hp n l⟩

theorem visitNode (hp : R p q) (n : Node L) :
    Both R (r.visit room n p) ((r.onHost h).visit room n q) := by
  rw [visit_eq, visit_eq]
  cases hr : n.role with
  | decision type logic =>
    rw [visitNode_decision hr, visitNode_decision hr]
    exact hs.visitDecision hv hr hp
  | knowledge logic =>
    rw [visitNode_knowledge hr, visitNode_knowledge hr]
    exact hs.visitKnowledge hv hp n logic
  | input type =>
    rw [visitNode_input hr, visitNode_input hr]
    exact ⟨rfl, hp⟩

end below

variable (hs : r.InStep h R)

include hs

theorem visit (room : Nat) (n : Node L) (hp : R p q) :
    Both R (r.visit room n p) ((r.onHost h).visit room n q) := by
  induction room generalizing n p q with
  -- The two have room for the same levels, and run out of it together.
  | zero =>
    refine hs.visitNode (fun k hk => ?_) hp n
    cases hk
  | succ room ih =>
    refine hs.visitNode (fun k hk => ?_) hp n
    cases hk
    exact fun n p q hp => ih n hp

theorem serve (e : Errand L) (hp : R p q) : R (r.serve p e) ((r.onHost h).serve q e) := by
  cases e with
  | evaluate n => exact (hs.visit r.maxDepth n hp).2
  | miss d => exact hs.report _ hp

theorem run (s : Selection) {c : Context} {w : τ} {w' : σ}
    (hp : R (r.start c w) ((r.onHost h).start c w')) :
    R (r.run s c w) ((r.onHost h).run s c w') := by
  have hm : (r.onHost h).model.errands s = r.model.errands s := rfl
  rw [run_eq, run_eq, hm]
  generalize r.start c w = p at hp ⊢
  generalize (r.onHost h).start c w' = q at hp ⊢
  induction r.model.errands s generalizing p q with
  | nil => exact hp
  | cons e es ih => exact ih _ _ (hs.serve e hp)

end InStep

end Request

end DecisionGraph
