import DecisionGraph.Unwinding
import DecisionGraph.Proofs.Chronicle

namespace DecisionGraph

variable {L σ τ : Type}

namespace Trial

variable {α β : Type}

/-- Both end in the same way and at related points. -/
inductive Paired (R : Progress τ → Progress σ → Prop) : Trial τ α → Trial σ α → Prop where
  | returned {a : α} {p : Progress τ} {q : Progress σ} :
      R p q → Paired R (.returned a p) (.returned a q)
  | unwound {p : Progress τ} {q : Progress σ} : R p q → Paired R (.unwound p) (.unwound q)

namespace Paired

variable {R : Progress τ → Progress σ → Prop} {t : Trial τ α} {u : Trial σ α}

theorem ofPair {x : α × Progress τ} {y : α × Progress σ} (h : Both R x y) :
    Paired R (.ofPair x) (.ofPair y) := by
  obtain ⟨ha, hp⟩ := h
  unfold Trial.ofPair
  rw [ha]
  exact .returned hp

theorem andThen {f : α → Progress τ → Trial τ β} {g : α → Progress σ → Trial σ β}
    (h : Paired R t u) (hf : ∀ a p q, R p q → Paired R (f a p) (g a q)) :
    Paired R (t.andThen f) (u.andThen g) := by
  cases h with
  | returned hp => exact hf _ _ _ hp
  | unwound hp => exact .unwound hp

theorem andDo {f : α → Progress τ → β × Progress τ} {g : α → Progress σ → β × Progress σ}
    (h : Paired R t u) (hf : ∀ a p q, R p q → Both R (f a p) (g a q)) :
    Paired R (t.andDo f) (u.andDo g) :=
  h.andThen fun a p q hp => .ofPair (hf a p q hp)

theorem atExit {f : Progress τ → Progress τ} {g : Progress σ → Progress σ} (h : Paired R t u)
    (hf : ∀ p q, R p q → R (f p) (g q)) : Paired R (t.atExit f) (u.atExit g) := by
  cases h with
  | returned hp => exact .returned (hf _ _ hp)
  | unwound hp => exact .unwound (hf _ _ hp)

theorem progress (h : Paired R t u) : R t.progress u.progress := by
  cases h with
  | returned hp => exact hp
  | unwound hp => exact hp

end Paired

/-- What returns has the result `x`, and a panic leads to a point of this kind. -/
def Follows (x : α × Progress σ) (U : Progress σ → Prop) : Trial σ α → Prop
  | returned a p => (a, p) = x
  | unwound p => U p

namespace Follows

variable {x : α × Progress σ} {y : β × Progress σ} {U V : Progress σ → Prop} {t : Trial σ α}

theorem ofPair : (Trial.ofPair x).Follows x U := rfl

theorem mono (h : t.Follows x U) (hV : ∀ q, U q → V q) : t.Follows x V := by
  cases t with
  | returned a p => exact h
  | unwound p => exact hV p h

theorem andThen {f : α → Progress σ → Trial σ β} (h : t.Follows x U)
    (hf : (f x.1 x.2).Follows y U) : (t.andThen f).Follows y U := by
  cases t with
  | returned a p =>
    obtain rfl : (a, p) = x := h
    exact hf
  | unwound p => exact h

theorem andDo {f : α → Progress σ → β × Progress σ} (h : t.Follows x U) (hf : f x.1 x.2 = y) :
    (t.andDo f).Follows y U :=
  h.andThen (hf ▸ ofPair)

theorem ite {c : Prop} [Decidable c] {x y : α × Progress σ} {t u : Trial σ α}
    (h : c → t.Follows x U) (h' : ¬c → u.Follows y U) :
    (if c then t else u).Follows (if c then x else y) U := by
  split
  next hc => exact h hc
  next hc => exact h' hc

theorem atExit {f : Progress σ → Progress σ} {y : α × Progress σ}
    (h : t.Follows x fun q => U (f q)) (hf : (x.1, f x.2) = y) : (t.atExit f).Follows y U := by
  subst hf
  cases t with
  | returned a p =>
    obtain rfl : (a, p) = x := h
    rfl
  | unwound p => exact h

end Follows

end Trial

def Request.provideFunction (r : Request L σ) (inner : Visit L σ) (n : Node L) (l : L)
    (p : Progress σ) : Progress σ :=
  let x := r.resolve inner n p
  let y := r.callLogic n l x.2
  if !x.1 then x.2 else r.learn n y.1 y.2

theorem Request.runKnowledge_eq (r : Request L σ) (inner : Visit L σ) {n : Node L}
    (hn : n.isKnowledge) (l : L) (p : Progress σ) :
    r.runKnowledge inner n l p = r.watch (.left n)
      ((r.provideFunction inner n l (r.opening n p)).update (·.leave (r.key n))) := by
  rw [opening_of_knowledge hn]
  rfl

namespace PanickyRequest

section equations

variable {r : PanickyRequest L σ} {inner : TriedVisit L σ} {n d : Node L} {name : String}
  {p : Progress σ}

theorem provide_of_defined (h : r.isDefined p.context n.info d.info = true) :
    r.provide inner n d name p = .returned true p := by
  unfold provide
  rw [if_pos h]

theorem provide_of_closed (h : r.isDefined p.context n.info d.info = false)
    (hw : r.model.passage p.context n.info d.info = .closed) :
    r.provide inner n d name p = .returned false (r.reportUnresolved n name n.info.id
      (.importNotFoundForNode d.info.ns d.info.model n.info.identifier) p) := by
  unfold provide
  rw [if_neg (Bool.eq_false_iff.mp h), hw]

theorem provide_of_open (h : r.isDefined p.context n.info d.info = false)
    (hw : r.model.passage p.context n.info d.info ≠ .closed) :
    r.provide inner n d name p =
      (descend inner d (r.model.passage p.context n.info d.info) p).andDo fun res q =>
        r.settle n d name (res, q) := by
  unfold provide
  rw [if_neg (Bool.eq_false_iff.mp h)]
  cases hp : r.model.passage p.context n.info d.info with
  | closed => exact absurd hp hw
  | here => rfl
  | through a => rfl

theorem descend_through (inner : TriedVisit L σ) (d : Node L) (a : String) (p : Progress σ) :
    descend inner d (.through a) p =
      (inner d (p.update (·.onContext (·.push ⟨a, d.info.ns⟩)))).atExit
        (·.update (·.onContext (·.closeTo p.context.depth))) := rfl

theorem resolveOne_of_some {id : Nat} (hd : r.model.node? id = some d) :
    r.resolveOne inner n name id p =
      if !(r.checkInput n d name p).1 && n.isKnowledge then
        .returned false (r.checkInput n d name p).2
      else (r.provide inner n d name (r.checkInput n d name p).2).andDo fun found q =>
        ((r.checkInput n d name p).1 && found, q) := by
  simp only [resolveOne, hd]

/-- The evaluation of a decision from its first event to its last. -/
def decide (r : PanickyRequest L σ) (inner : TriedVisit L σ) (n : Node L) (type : DeclaredType)
    (logic : Option L) (p : Progress σ) : Trial σ Bool :=
  r.guarded (.decision .before n.info.subject none)
    (fun l => .decision .after n.info.subject (l.find? (r.key n)))
    (fun q => (r.runDecision inner n type logic q).andDo fun ok q => (ok, r.watch (.left n) q)) p

def inform (r : PanickyRequest L σ) (inner : TriedVisit L σ) (n : Node L) (l : L)
    (p : Progress σ) : Trial σ Unit :=
  r.announced (.knowledge .before n.info.subject) (.knowledge .after n.info.subject)
    (r.runKnowledge inner n l) p

theorem visitNode_decision {inner : Option (TriedVisit L σ)} {type : DeclaredType}
    {logic : Option L} (hr : n.role = .decision type logic) :
    r.visitNode inner n p = r.visitDecision inner n type logic p := by
  simp only [visitNode, hr]

theorem visitNode_knowledge {inner : Option (TriedVisit L σ)} {logic : Option L}
    (hr : n.role = .knowledge logic) :
    r.visitNode inner n p = r.visitKnowledge inner n logic p := by
  simp only [visitNode, hr]

theorem visit_decision {type : DeclaredType} {logic : Option L} {room : Nat}
    (hr : n.role = .decision type logic) (hu : r.isDefined p.context n.info n.info = false)
    (hb : (p.ledger.status (r.key n)).blocksReentry = false) :
    r.visit (room + 1) n p =
      (r.decide (r.visit room) n type logic (r.opening n p)).andDo fun ok q =>
        (.ofDecision ok, q) := by
  have hn := Node.isDecision_of_role hr
  rw [visit, visitNode_decision hr]
  unfold visitDecision Request.opening decide
  rw [if_neg (Bool.eq_false_iff.mp hu), if_neg (Bool.eq_false_iff.mp hb), if_pos hn]

theorem visit_knowledge {l : L} {room : Nat} (hr : n.role = .knowledge (some l))
    (ha : p.evaluation.isActive (r.key n) = false)
    (hu : r.isDefined p.context n.info n.info = false) :
    r.visit (room + 1) n p =
      (r.inform (r.visit room) n l p).andDo fun _ q => (.resolved, q) := by
  rw [visit, visitNode_knowledge hr]
  unfold visitKnowledge inform
  rw [if_neg (Bool.eq_false_iff.mp ha), if_neg (Bool.eq_false_iff.mp hu)]

def below (r : PanickyRequest L σ) : Nat → Option (TriedVisit L σ)
  | 0 => none
  | room + 1 => some (r.visit room)

theorem visit_eq (r : PanickyRequest L σ) (room : Nat) :
    r.visit room = r.visitNode (r.below room) := by
  cases room <;> rfl

/-- A visit that does not open its node has nothing that could panic. -/
theorem visit_of_unopened {room : Nat} (h : r.toRequest.Unopened room n p) :
    r.visit room n p = .ofPair (r.toRequest.visit room n p) := by
  unfold Request.Unopened at h
  rw [visit_eq, Request.visit_eq]
  cases hr : n.role with
  | decision type logic =>
    simp only [hr] at h
    rw [visitNode_decision hr, Request.visitNode_decision hr]
    unfold visitDecision Request.visitDecision
    by_cases hu : r.isDefined p.context n.info n.info = true
    · rw [if_pos hu, if_pos hu]
      rfl
    by_cases hb : (p.ledger.status (r.key n)).blocksReentry = true
    · rw [if_neg hu, if_neg hu, if_pos hb, if_pos hb]
      rfl
    obtain rfl := (h.resolve_left hu).resolve_left hb
    rw [if_neg hu, if_neg hu, if_neg hb, if_neg hb]
    rfl
  | knowledge logic =>
    simp only [hr] at h
    rw [visitNode_knowledge hr, Request.visitNode_knowledge hr]
    unfold visitKnowledge Request.visitKnowledge
    by_cases ha : p.evaluation.isActive (r.key n) = true
    · rw [if_pos ha, if_pos ha]
      rfl
    by_cases hu : r.isDefined p.context n.info n.info = true
    · rw [if_neg ha, if_neg ha, if_pos hu, if_pos hu]
      rfl
    rw [if_neg ha, if_neg ha, if_neg hu, if_neg hu]
    cases logic with
    | none => rfl
    | some l =>
      obtain rfl := ((h.resolve_left ha).resolve_left hu).resolve_left (by simp)
      rfl
  | input type =>
    simp only [visitNode, Request.visitNode, hr]
    rfl

def serve (r : PanickyRequest L σ) : Errand L → Progress σ → Trial σ Unit
  | .evaluate n, p => r.evaluate n p
  | .miss d, p => .returned () (p.update (·.report (.of .error d none none)))

theorem each_map {α β : Type} (f : β → Progress σ → Trial σ Unit) (g : α → β) (l : List α)
    (p : Progress σ) : each f (l.map g) p = each (fun a => f (g a)) l p := by
  induction l generalizing p with
  | nil => rfl
  | cons a l ih =>
    rw [List.map_cons, each, each]
    exact congrArg _ (funext fun _ => funext ih)

theorem run_eq (r : PanickyRequest L σ) (s : Selection) (c : Context) (w : σ) :
    r.run s c w = each r.serve (r.model.errands s) (r.start c w) := by
  have hselected (select : String → NodeInfo → Bool) (missing : String → Diagnostic)
      (keys : List String) : r.evaluateSelected select missing keys c w =
      each r.serve (r.model.errandsFor select missing keys) (r.start c w) := by
    rw [Model.errandsFor, each_map]
    unfold evaluateSelected
    congr 1
    funext k p
    cases r.model.localDecisions.find? fun d => select k d.info <;> rfl
  cases s with
  | all =>
    rw [Model.errands, each_map]
    rfl
  | names names =>
    rw [Model.errands, ← hselected]
    rfl
  | ids ids =>
    rw [Model.errands, ← hselected]
    rfl

end equations

/-- The same request on another host, with logic that panics there in these states. -/
def onHost (r : PanickyRequest L τ) (h : Host L σ) (panics : L → Evaluation → σ → Bool) :
    PanickyRequest L σ :=
  ⟨r.toRequest.onHost h, panics⟩

/-- Related sides also panic together. -/
structure InStep (r : PanickyRequest L τ) (h : Host L σ) (panics : L → Evaluation → σ → Bool)
    (R : Progress τ → Progress σ → Prop) : Prop extends r.toRequest.InStep h R where
  panics_eq : ∀ {p q} l, R p q → panics l q.evaluation q.world = r.panics l p.evaluation p.world

namespace InStep

variable {r : PanickyRequest L τ} {h : Host L σ} {panics : L → Evaluation → σ → Bool}
  {R : Progress τ → Progress σ → Prop} {p : Progress τ} {q : Progress σ} {n d : Node L}
  {name : String}

section acts

variable (hs : r.InStep h panics R)

include hs

theorem callsLogic (hp : R p q) (n : Node L) (l : L) :
    (r.callLogic n l p).Paired R ((r.onHost h panics).callLogic n l q) := by
  have hcall := hs.callLogic n l hp
  have hpanic : (r.onHost h panics).panics l q.evaluation
      ((r.onHost h panics).watch (.calling n) q).world =
      r.panics l p.evaluation (r.watch (.calling n) p).world :=
    hs.panics_eq l (hs.watch (.calling n) hp)
  unfold PanickyRequest.callLogic
  dsimp only
  rw [hpanic]
  split
  · exact .unwound hcall.2
  · exact .ofPair hcall

theorem guarded {α : Type} {run : Progress τ → Trial τ α} {run' : Progress σ → Trial σ α}
    (hr : ∀ p q, R p q → (run p).Paired R (run' q)) (hp : R p q) (before : Event)
    (after : Ledger → Event) :
    (r.guarded before after run p).Paired R ((r.onHost h panics).guarded before after run' q) := by
  have hl : (r.onHost h panics).host.listening q.world = r.host.listening p.world :=
    hs.listening hp
  unfold PanickyRequest.guarded
  rw [hl]
  split
  · refine (hr _ _ (hs.notify before hp)).atExit fun p q hp => ?_
    rw [hs.ledger hp]
    exact hs.notify _ hp
  · exact hr p q hp

theorem announced {α : Type} {run : Progress τ → Trial τ α} {run' : Progress σ → Trial σ α}
    (hr : ∀ p q, R p q → (run p).Paired R (run' q)) (hp : R p q) (before after : Event) :
    (r.announced before after run p).Paired R
      ((r.onHost h panics).announced before after run' q) := by
  have hl : (r.onHost h panics).host.listening q.world = r.host.listening p.world :=
    hs.listening hp
  unfold PanickyRequest.announced
  rw [hl]
  split
  · exact (hr _ _ (hs.notify before hp)).andDo fun a p q hp => ⟨rfl, hs.notify after hp⟩
  · exact hr p q hp

end acts

section inner

variable (hs : r.InStep h panics R) {inner : TriedVisit L τ} {inner' : TriedVisit L σ}
  (hi : ∀ d p q, R p q → (inner d p).Paired R (inner' d q))

include hs hi

theorem descend (hp : R p q) (d : Node L) (w : Passage) :
    (PanickyRequest.descend inner d w p).Paired R (PanickyRequest.descend inner' d w q) := by
  cases w with
  | here => exact hi d p q hp
  | closed => exact hi d p q hp
  | through a =>
    rw [descend_through, descend_through, hs.context hp]
    exact (hi d _ _ (hs.onContext (·.push ⟨a, d.info.ns⟩) hp)).atExit fun _ _ => hs.onContext _

theorem provide (hp : R p q) (n d : Node L) (name : String) :
    (r.provide inner n d name p).Paired R ((r.onHost h panics).provide inner' n d name q) := by
  have hu := hs.isDefined hp n.info d.info
  have hw := hs.passage hp n.info d.info
  cases hdef : r.isDefined p.context n.info d.info with
  | true =>
    rw [provide_of_defined hdef, provide_of_defined (hu.trans hdef)]
    exact .returned hp
  | false =>
    by_cases hclosed : r.model.passage p.context n.info d.info = .closed
    · rw [provide_of_closed hdef hclosed, provide_of_closed (hu.trans hdef) (hw.trans hclosed)]
      exact .returned (hs.reportUnresolved hp ..)
    · have hopen := fun hc => hclosed (hw.symm.trans hc)
      rw [provide_of_open hdef hclosed, provide_of_open (hu.trans hdef) hopen]
      refine Trial.Paired.andDo (hw ▸ hs.descend hi hp d _) fun res p q hp => ?_
      exact hs.settle ⟨rfl, hp⟩ n d name

theorem resolveOne (hp : R p q) (n : Node L) (name : String) (id : Nat) :
    (r.resolveOne inner n name id p).Paired R
      ((r.onHost h panics).resolveOne inner' n name id q) := by
  cases hd : r.model.node? id with
  | none =>
    have hd' : (r.onHost h panics).model.node? id = none := hd
    unfold PanickyRequest.resolveOne
    rw [hd, hd']
    exact .returned (hs.reportUnresolved hp ..)
  | some d =>
    obtain ⟨hfits, hcheck⟩ : Both R (r.checkInput n d name p)
      ((r.onHost h panics).checkInput n d name q) := hs.checkInput hp n d name
    rw [resolveOne_of_some hd, resolveOne_of_some (r := r.onHost h panics) hd, hfits]
    split
    · exact .returned hcheck
    · exact (hs.provide hi hcheck n d name).andDo fun _ _ _ hp => ⟨rfl, hp⟩

theorem resolveList (hp : R p q) (n : Node L) (deps : List (String × Nat)) :
    (r.resolveList inner n deps p).Paired R
      ((r.onHost h panics).resolveList inner' n deps q) := by
  induction deps generalizing p q with
  | nil => exact .returned hp
  | cons e deps ih =>
    obtain ⟨name, id⟩ := e
    refine (hs.resolveOne hi hp n name id).andThen fun ok p q hp => ?_
    split
    · exact .returned hp
    · exact (ih hp).andDo fun _ _ _ hp => ⟨rfl, hp⟩

theorem runDecision (hp : R p q) (n : Node L) (type : DeclaredType) (logic : Option L) :
    (r.runDecision inner n type logic p).Paired R
      ((r.onHost h panics).runDecision inner' n type logic q) := by
  refine (hs.resolveList hi hp n n.info.dependencies.toList).andThen fun ready p q hp => ?_
  split
  · exact .returned (hs.onLedger _ hp)
  · cases logic with
    | none => exact .returned (hs.fail hp ..)
    | some l =>
      refine (hs.callsLogic hp n l).andDo fun a p q hp => ?_
      unfold Request.conclude
      split
      · exact hs.bindResult hp ..
      · exact ⟨rfl, hs.onLedger _ hp⟩
      · exact ⟨rfl, hs.fail hp ..⟩

theorem decide (hp : R p q) (n : Node L) (type : DeclaredType) (logic : Option L) :
    (r.decide inner n type logic p).Paired R
      ((r.onHost h panics).decide inner' n type logic q) :=
  hs.guarded (fun _ _ hp => (hs.runDecision hi hp n type logic).andDo fun _ _ _ hp =>
    ⟨rfl, hs.watch _ hp⟩) hp _ _

theorem runKnowledge (hp : R p q) (n : Node L) (l : L) :
    (r.runKnowledge inner n l p).Paired R ((r.onHost h panics).runKnowledge inner' n l q) := by
  have hopen := hs.watch (.entered n) (hs.enter (r.key n) hp)
  have hres := hs.resolveList hi hopen n n.info.dependencies.toList
  refine (hres.andThen fun ready p q hp => ?_).andDo fun _ _ _ hp =>
    ⟨rfl, hs.watch _ (hs.leave _ hp)⟩
  split
  · exact .returned hp
  · refine (hs.callsLogic hp n l).andDo fun a p q hp => ?_
    unfold Request.learn
    split
    · exact ⟨rfl, hs.watch _ (hs.onContext _ hp)⟩
    · exact ⟨rfl, hs.report _ hp⟩
    · exact ⟨rfl, hp⟩
    · exact ⟨rfl, hs.report _ hp⟩

theorem inform (hp : R p q) (n : Node L) (l : L) :
    (r.inform inner n l p).Paired R ((r.onHost h panics).inform inner' n l q) :=
  hs.announced (fun _ _ hp => hs.runKnowledge hi hp n l) hp _ _

end inner

variable (hs : r.InStep h panics R)

include hs

theorem unopened_iff {room : Nat} (hp : R p q) :
    (r.onHost h panics).Unopened room n q ↔ r.Unopened room n p := by
  have hu : (r.onHost h panics).isDefined q.context n.info n.info =
    r.isDefined p.context n.info n.info := hs.isDefined hp n.info n.info
  have hst : q.ledger.status ((r.onHost h panics).key n) = p.ledger.status (r.key n) :=
    hs.status hp n
  have ha : q.evaluation.isActive ((r.onHost h panics).key n) =
    p.evaluation.isActive (r.key n) := hs.isActive hp n
  unfold Request.Unopened
  rw [hu, hst, ha]

theorem visits (room : Nat) (n : Node L) (hp : R p q) :
    (r.visit room n p).Paired R ((r.onHost h panics).visit room n q) := by
  induction room generalizing n p q with
  | zero =>
    have hun : r.Unopened 0 n p := Request.unopened_zero
    rw [visit_of_unopened hun, visit_of_unopened ((hs.unopened_iff hp).mpr hun)]
    exact .ofPair (hs.visit 0 n hp)
  | succ room ih =>
    by_cases hun : r.Unopened (room + 1) n p
    · rw [visit_of_unopened hun, visit_of_unopened ((hs.unopened_iff hp).mpr hun)]
      exact .ofPair (hs.visit (room + 1) n hp)
    have hu := hs.isDefined hp n.info n.info
    rcases Request.opened_cases hun with ⟨type, logic, hr, hdef, hb⟩ | ⟨l, hr, ha, hdef⟩
    · have hst := congrArg Status.blocksReentry (hs.status hp n)
      rw [visit_decision hr hdef hb,
        visit_decision (r := r.onHost h panics) hr (hu.trans hdef) (hst.trans hb)]
      exact (hs.decide (fun d p q hp => ih d hp) (hs.opening hp n) n type logic).andDo
        fun _ _ _ hp => ⟨rfl, hp⟩
    · rw [visit_knowledge hr ha hdef,
        visit_knowledge (r := r.onHost h panics) hr ((hs.isActive hp n).trans ha) (hu.trans hdef)]
      exact (hs.inform (fun d p q hp => ih d hp) hp n l).andDo fun _ _ _ hp => ⟨rfl, hp⟩

theorem serves (e : Errand L) (hp : R p q) :
    (r.serve e p).Paired R ((r.onHost h panics).serve e q) := by
  cases e with
  | evaluate n => exact (hs.visits r.maxDepth n hp).andDo fun _ _ _ hp => ⟨rfl, hp⟩
  | miss d => exact .returned (hs.report _ hp)

theorem runs (s : Selection) {c : Context} {w : τ} {w' : σ}
    (hp : R (r.start c w) ((r.onHost h panics).start c w')) :
    (r.run s c w).Paired R ((r.onHost h panics).run s c w') := by
  have hm : (r.onHost h panics).model.errands s = r.model.errands s := rfl
  rw [run_eq, run_eq, hm]
  generalize r.start c w = p at hp ⊢
  generalize (r.onHost h panics).start c w' = q at hp ⊢
  induction r.model.errands s generalizing p q with
  | nil => exact .returned hp
  | cons e es ih => exact (hs.serves e hp).andThen fun _ _ _ hp => ih _ _ hp

end InStep

end PanickyRequest

end DecisionGraph
