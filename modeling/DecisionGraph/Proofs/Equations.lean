import DecisionGraph.Request

namespace DecisionGraph

variable {L σ : Type}

theorem Node.role_of_isDecision {n : Node L} (h : n.isDecision) :
    ∃ type logic, n.role = .decision type logic := by
  unfold isDecision at h
  cases hr : n.role with
  | decision type logic => exact ⟨type, logic, rfl⟩
  | knowledge logic => simp [hr] at h
  | input type => simp [hr] at h

theorem Node.isDecision_of_role {n : Node L} {type : DeclaredType} {logic : Option L}
    (h : n.role = .decision type logic) : n.isDecision := by
  simp [isDecision, h]

theorem Node.isKnowledge_of_role {n : Node L} {logic : Option L} (h : n.role = .knowledge logic) :
    n.isKnowledge := by
  simp [isKnowledge, h]

theorem Node.not_isDecision {n : Node L} (h : n.isKnowledge) : ¬n.isDecision := by
  unfold isKnowledge at h
  unfold isDecision
  cases hr : n.role with
  | knowledge l => simp
  | decision t l => simp [hr] at h
  | input t => simp [hr] at h

theorem Node.not_isKnowledge {n : Node L} (h : n.isDecision) : ¬n.isKnowledge :=
  fun hk => not_isDecision hk h

namespace Model

def requirements (m : Model L) (n : Node L) : List (Node L) :=
  n.info.dependencies.toList.filterMap fun e => m.node? e.2

theorem lt_of_node? {m : Model L} {i : Nat} {n : Node L} (h : m.node? i = some n) :
    i < m.nodes.size :=
  (Array.getElem?_eq_some_iff.mp h).1

theorem node?_of_lt {m : Model L} {i : Nat} (h : i < m.nodes.size) : ∃ n, m.node? i = some n :=
  ⟨m.nodes[i], Array.getElem?_eq_getElem h⟩

theorem mem_requirements {m : Model L} {n d : Node L} {name : String} {id : Nat}
    (he : (name, id) ∈ n.info.dependencies.toList) (hd : m.node? id = some d) :
    d ∈ m.requirements n :=
  List.mem_filterMap.mpr ⟨(name, id), he, hd⟩

theorem mem_nodes_of_mem_requirements {m : Model L} {n d : Node L} (h : d ∈ m.requirements n) :
    d ∈ m.nodes := by
  obtain ⟨e, -, hd⟩ := List.mem_filterMap.mp h
  exact Array.mem_of_getElem? hd

variable {m : Model L} {c : Context} {n k : NodeInfo}

theorem visible?_of_here (hs : k.ns = m.scopeNs c) : m.visible? c n k = c.get? k.name := by
  unfold visible?
  rw [if_pos hs]

theorem visible?_of_import (hs : k.ns ≠ m.scopeNs c) {a : String}
    (ha : n.importName? k.ns k.model = some a) :
    m.visible? c n k = c.entries.lookup? (c.path ++ [a]) k.name := by
  unfold visible?
  rw [if_neg hs, ha, Bindings.lookup?_concat]
  simp only [Option.bind_eq_bind, Option.bind_some, Option.bind_assoc, Context.get?]

theorem visible?_of_closed (hs : k.ns ≠ m.scopeNs c) (ha : n.importName? k.ns k.model = none) :
    m.visible? c n k = none := by
  unfold visible?
  rw [if_neg hs, ha]
  rfl

theorem scopeNs_of_root (hc : c.frames = []) : m.scopeNs c = m.ns := by
  rw [scopeNs, Context.ns?, hc]
  rfl

theorem passage_eq_here : m.passage c n k = .here ↔ k.ns = m.scopeNs c := by
  unfold passage
  split
  next h => simp [h]
  next h => split <;> simp [h]

theorem passage_eq_through {a : String} :
    m.passage c n k = .through a ↔ k.ns ≠ m.scopeNs c ∧ n.importName? k.ns k.model = some a := by
  unfold passage
  split
  next h => simp [h]
  next h => split <;> simp_all

end Model

namespace Request

/-- The evaluation of a node begins: a decision gets the status for that, a business knowledge
model joins the active ones. -/
def opening (r : Request L σ) (n : Node L) (p : Progress σ) : Progress σ :=
  r.watch (.entered n)
    (if n.isDecision then
      (p.update (·.onLedger (·.ensure (r.key n) n.info.name))).update
        (·.onLedger (·.setStatus (r.key n) .evaluating))
    else p.update (·.enter (r.key n)))

theorem isDefined_of_here {r : Request L σ} {c : Context} {n d : NodeInfo}
    (hs : d.ns = r.model.scopeNs c) : r.isDefined c n d = (c.get? d.name).isSome := by
  unfold isDefined
  rw [if_neg fun h => h.1 hs, Model.visible?_of_here hs]

theorem isSome_visible?_of_defined {r : Request L σ} {c : Context} {n d : NodeInfo}
    (hu : r.isDefined c n d = true) : (r.model.visible? c n d).isSome := by
  unfold isDefined at hu
  split at hu
  · cases hu
  · exact hu

theorem opening_of_decision {n : Node L} (hn : n.isDecision) (r : Request L σ)
    (p : Progress σ) : r.opening n p = r.watch (.entered n)
      ((p.update (·.onLedger (·.ensure (r.key n) n.info.name))).update
        (·.onLedger (·.setStatus (r.key n) .evaluating))) := by
  rw [opening, if_pos hn]

theorem opening_of_knowledge {n : Node L} (hn : n.isKnowledge) (r : Request L σ)
    (p : Progress σ) : r.opening n p = r.watch (.entered n) (p.update (·.enter (r.key n))) := by
  rw [opening, if_neg (Node.not_isDecision hn)]

/-- The value of a dependency as its dependent finds it, null if there is none. -/
def found (r : Request L σ) (n d : Node L) (p : Progress σ) : Value :=
  (r.model.visible? p.context n.info d.info).getD .null

@[simp] theorem context_opening (r : Request L σ) (n : Node L) (p : Progress σ) :
    (r.opening n p).evaluation.context = p.evaluation.context := by
  unfold opening
  split <;> simp

@[simp] theorem context_reportUnresolved (r : Request L σ) (n : Node L) (name source : String)
    (d : Diagnostic) (p : Progress σ) :
    (r.reportUnresolved n name source d p).evaluation.context = p.evaluation.context := by
  unfold reportUnresolved
  split <;> simp

theorem ledger_opening (r : Request L σ) (n : Node L) (p : Progress σ) :
    (r.opening n p).evaluation.ledger = if n.isDecision then
      (p.evaluation.ledger.ensure (r.key n) n.info.name).setStatus (r.key n) .evaluating
    else p.evaluation.ledger := by
  unfold opening
  split <;> simp

theorem ledger_reportUnresolved (r : Request L σ) (n : Node L) (name source : String)
    (d : Diagnostic) (p : Progress σ) :
    (r.reportUnresolved n name source d p).evaluation.ledger = if n.isDecision then
      p.evaluation.ledger.modify (r.key n)
        (·.reportFailure (.of .error d (some source) none) .skipped)
    else p.evaluation.ledger := by
  unfold reportUnresolved
  split <;> simp

/-- The visit of a dependency has ended: it counts as resolved or is reported. -/
def settle (r : Request L σ) (n d : Node L) (name : String) (x : Resolution × Progress σ) :
    Bool × Progress σ :=
  match complaint n.info d.info x.1 with
  | none => (true, x.2)
  | some g => (false, r.reportUnresolved n name n.info.id g x.2)

variable {r : Request L σ} {inner : Visit L σ} {n d : Node L} {name : String} {p : Progress σ}

theorem checkInput_of_input {type : DeclaredType} (ht : r.typeCheck = true)
    (hr : d.role = .input type) :
    r.checkInput n d name p =
      match type.check (r.found n d p) with
      | .ok true => (true, r.watch (.examined n d (r.found n d p)) p)
      | .ok false =>
        (false, r.reportUnresolved n name d.info.id
          (.dependencyWrongType n.info.identifier d.info.identifier
            (clip (r.found n d p).display) type.name)
          (r.watch (.examined n d (r.found n d p)) p))
      | .error e =>
        (true, (r.watch (.examined n d (r.found n d p)) p).update (·.report (.of .error
          (.errorCheckingAllowedValues d.info.identifier e.text) (some d.info.id)
          (some e.text)))) := by
  unfold checkInput
  simp only [ht, hr]
  rfl

theorem checkInput_of_not (h : ¬(r.typeCheck = true ∧ ∃ type, d.role = .input type)) :
    r.checkInput n d name p = (true, p) := by
  unfold checkInput
  split
  next type ht hr => exact absurd ⟨ht, type, hr⟩ h
  next => rfl

theorem provide_of_defined (h : r.isDefined p.context n.info d.info = true) :
    r.provide inner n d name p = (true, p) := by
  unfold provide
  rw [if_pos h]

theorem provide_of_closed (h : r.isDefined p.context n.info d.info = false)
    (hw : r.model.passage p.context n.info d.info = .closed) :
    r.provide inner n d name p = (false, r.reportUnresolved n name n.info.id
      (.importNotFoundForNode d.info.ns d.info.model n.info.identifier) p) := by
  unfold provide
  rw [if_neg (Bool.eq_false_iff.mp h), hw]

theorem descend_here (inner : Visit L σ) (d : Node L) (p : Progress σ) :
    descend inner d .here p = inner d p := rfl

theorem descend_through (inner : Visit L σ) (d : Node L) (a : String) (p : Progress σ) :
    descend inner d (.through a) p =
      ((inner d (p.update (·.onContext (·.push ⟨a, d.info.ns⟩)))).1,
        (inner d (p.update (·.onContext (·.push ⟨a, d.info.ns⟩)))).2.update
          (·.onContext (·.closeTo p.context.depth))) := rfl

theorem provide_of_open (h : r.isDefined p.context n.info d.info = false)
    (hw : r.model.passage p.context n.info d.info ≠ .closed) :
    r.provide inner n d name p =
      r.settle n d name (descend inner d (r.model.passage p.context n.info d.info) p) := by
  unfold provide
  rw [if_neg (Bool.eq_false_iff.mp h)]
  cases hp : r.model.passage p.context n.info d.info with
  | closed => exact absurd hp hw
  | here => rfl
  | through a => rfl

theorem settle_of_true {x : Resolution × Progress σ} (h : (r.settle n d name x).1 = true) :
    x.1 = .resolved ∧ (r.settle n d name x).2 = x.2 := by
  unfold settle at h ⊢
  cases hx : x.1 with
  | resolved => exact ⟨rfl, by simp [complaint]⟩
  | decisionFailed => simp [hx, complaint] at h
  | notFound => simp [hx, complaint] at h
  | knowledgeCycle => simp [hx, complaint] at h

theorem resolveOne_of_some {id : Nat} (hd : r.model.node? id = some d) :
    r.resolveOne inner n name id p =
      if !(r.checkInput n d name p).1 && n.isKnowledge then (false, (r.checkInput n d name p).2)
      else
        ((r.checkInput n d name p).1 && (r.provide inner n d name (r.checkInput n d name p).2).1,
          (r.provide inner n d name (r.checkInput n d name p).2).2) := by
  simp only [resolveOne, hd]

theorem resolveList_cons (inner : Visit L σ) (n : Node L) (name : String) (id : Nat)
    (deps : List (String × Nat)) (p : Progress σ) :
    r.resolveList inner n ((name, id) :: deps) p =
      if !(r.resolveOne inner n name id p).1 && n.isKnowledge then
        (false, (r.resolveOne inner n name id p).2)
      else
        ((r.resolveOne inner n name id p).1 &&
          (r.resolveList inner n deps (r.resolveOne inner n name id p).2).1,
          (r.resolveList inner n deps (r.resolveOne inner n name id p).2).2) := rfl

/-- A dependency that is resolved exists, passes its check and is provided. -/
theorem resolveOne_of_true {id : Nat} (h : (r.resolveOne inner n name id p).1 = true) :
    ∃ d, r.model.node? id = some d ∧ (r.checkInput n d name p).1 = true ∧
      (r.provide inner n d name (r.checkInput n d name p).2).1 = true ∧
      (r.resolveOne inner n name id p).2 =
        (r.provide inner n d name (r.checkInput n d name p).2).2 := by
  cases hd : r.model.node? id with
  | none => simp [resolveOne, hd] at h
  | some d =>
    rw [resolveOne_of_some hd] at h ⊢
    split at h
    · cases h
    next hk =>
      obtain ⟨hc, hp⟩ := Bool.and_eq_true_iff.mp h
      exact ⟨d, rfl, hc, hp, by rw [if_neg hk]⟩

theorem resolveList_of_true {id : Nat} {deps : List (String × Nat)}
    (h : (r.resolveList inner n ((name, id) :: deps) p).1 = true) :
    (r.resolveOne inner n name id p).1 = true ∧
      (r.resolveList inner n deps (r.resolveOne inner n name id p).2).1 = true ∧
      (r.resolveList inner n ((name, id) :: deps) p).2 =
        (r.resolveList inner n deps (r.resolveOne inner n name id p).2).2 := by
  rw [resolveList_cons] at h ⊢
  split at h
  · cases h
  next hk =>
    obtain ⟨hone, hrest⟩ := Bool.and_eq_true_iff.mp h
    exact ⟨hone, hrest, by rw [if_neg hk]⟩

theorem announced_eq (before : Event) (after : Ledger → Event)
    (run : Progress σ → Bool × Progress σ) (p : Progress σ) :
    r.announced before after run p =
      if r.host.listening p.world then
        ((run (r.notify before p)).1,
          r.notify (after (run (r.notify before p)).2.ledger) (run (r.notify before p)).2)
      else run p := rfl

/-- Events change nothing of an evaluation. -/
theorem announced_rec {Q : Bool → Evaluation → Prop} (before : Event) (after : Ledger → Event)
    (run : Progress σ → Bool × Progress σ) {p : Progress σ}
    (h : ∀ q, q.evaluation = p.evaluation → Q (run q).1 (run q).2.evaluation) :
    Q (r.announced before after run p).1 (r.announced before after run p).2.evaluation := by
  rw [announced_eq]
  split
  · exact h (r.notify before p) rfl
  · exact h p rfl

def objection? (r : Request L σ) (n : Node L) (type : DeclaredType) (v : Value) : Option Message :=
  match if r.typeCheck then type.check (type.unwrap v) else .ok true with
  | .ok true => none
  | .ok false => some (.of .error (.resultWrongType n.info.identifier type.name
      (clip (type.unwrap v).display)) (some n.info.id) none)
  | .error e => some (.of .error (.errorCheckingAllowedValues n.info.identifier e.text)
      (some n.info.id) (some e.text))

theorem bindResult_eq (type : DeclaredType) (v : Value) (p : Progress σ) :
    r.bindResult n type v p = match r.objection? n type v with
      | none => (true, r.watch (.bound n) (p.update fun e =>
          (e.onContext (·.set n.info.name (type.unwrap v))).onLedger
            (·.modify (r.key n) (·.succeed (type.unwrap v)))))
      | some m => (false, p.update (·.fail (r.key n) m .failed)) := by
  unfold bindResult objection?
  dsimp only
  cases (if r.typeCheck = true then type.check (type.unwrap v) else Except.ok true) with
  | error e => rfl
  | ok fits => cases fits <;> rfl

/-- An objection comes from a check that does not accept the value. -/
theorem objection?_eq_none_iff {type : DeclaredType} {v : Value} :
    r.objection? n type v = none ↔ (r.typeCheck = true → type.check (type.unwrap v) = .ok true) := by
  unfold objection?
  cases r.typeCheck with
  | false => simp
  | true =>
    simp only [if_true]
    cases type.check (type.unwrap v) with
    | error e => simp
    | ok fits => cases fits <;> simp

theorem source_of_objection? {type : DeclaredType} {v : Value} {m : Message}
    (h : r.objection? n type v = some m) : m.source = some n.info.id := by
  unfold objection? at h
  split at h
  · cases h
  · exact Option.some.inj h ▸ rfl
  · exact Option.some.inj h ▸ rfl

section decision

variable {type : DeclaredType} {logic : Option L}

theorem visitDecision_of_defined {inner : Option (Visit L σ)}
    (hu : r.isDefined p.context n.info n.info = true) :
    r.visitDecision inner n type logic p = (.resolved, p) := by
  unfold visitDecision
  rw [if_pos hu]

theorem visitDecision_of_blocked {inner : Option (Visit L σ)}
    (hu : r.isDefined p.context n.info n.info = false)
    (hb : (p.ledger.status (r.key n)).blocksReentry = true) :
    r.visitDecision inner n type logic p = (.decisionFailed, p) := by
  unfold visitDecision
  rw [if_neg (Bool.eq_false_iff.mp hu), if_pos hb]

theorem visitDecision_none (hu : r.isDefined p.context n.info n.info = false)
    (hb : (p.ledger.status (r.key n)).blocksReentry = false) :
    r.visitDecision none n type logic p = (.decisionFailed,
      (p.update (·.onLedger (·.ensure (r.key n) n.info.name))).update (·.fail (r.key n)
        (.of .error (.evaluationDepthExceeded n.info.identifier r.maxDepth) (some n.info.id) none)
        .failed)) := by
  unfold visitDecision
  rw [if_neg (Bool.eq_false_iff.mp hu), if_neg (Bool.eq_false_iff.mp hb)]

/-- The evaluation of a decision from its first event to its last. -/
def decide (r : Request L σ) (inner : Visit L σ) (n : Node L) (type : DeclaredType)
    (logic : Option L) (p : Progress σ) : Bool × Progress σ :=
  r.announced (.decision .before n.info.subject none)
    (fun l => .decision .after n.info.subject (l.find? (r.key n)))
    (fun q => ((r.runDecision inner n type logic q).1,
      r.watch (.left n) (r.runDecision inner n type logic q).2)) p

theorem visitDecision_some (hr : n.role = .decision type logic)
    (hu : r.isDefined p.context n.info n.info = false)
    (hb : (p.ledger.status (r.key n)).blocksReentry = false) :
    r.visitDecision (some inner) n type logic p =
      (.ofDecision (r.decide inner n type logic (r.opening n p)).1,
        (r.decide inner n type logic (r.opening n p)).2) := by
  have hn := Node.isDecision_of_role hr
  unfold visitDecision opening decide
  rw [if_neg (Bool.eq_false_iff.mp hu), if_neg (Bool.eq_false_iff.mp hb), if_pos hn]

end decision

section knowledge

variable {logic : Option L}

theorem visitKnowledge_of_active {inner : Option (Visit L σ)}
    (ha : p.evaluation.isActive (r.key n) = true) :
    r.visitKnowledge inner n logic p = (.knowledgeCycle, p) := by
  unfold visitKnowledge
  rw [if_pos ha]

theorem visitKnowledge_of_defined {inner : Option (Visit L σ)}
    (ha : p.evaluation.isActive (r.key n) = false)
    (hu : r.isDefined p.context n.info n.info = true) :
    r.visitKnowledge inner n logic p = (.resolved, p) := by
  unfold visitKnowledge
  rw [if_neg (Bool.eq_false_iff.mp ha), if_pos hu]

theorem visitKnowledge_of_missing {inner : Option (Visit L σ)}
    (ha : p.evaluation.isActive (r.key n) = false)
    (hu : r.isDefined p.context n.info n.info = false) :
    r.visitKnowledge inner n none p = (.resolved, p.update (·.report (.of .warn
      (.missingExpressionForBkm n.info.identifier) (some n.info.id) none))) := by
  unfold visitKnowledge
  rw [if_neg (Bool.eq_false_iff.mp ha), if_neg (Bool.eq_false_iff.mp hu)]

theorem visitKnowledge_none {l : L} (ha : p.evaluation.isActive (r.key n) = false)
    (hu : r.isDefined p.context n.info n.info = false) :
    r.visitKnowledge none n (some l) p = (.resolved, p.update (·.report (.of .error
      (.evaluationDepthExceeded n.info.identifier r.maxDepth) (some n.info.id) none))) := by
  unfold visitKnowledge
  rw [if_neg (Bool.eq_false_iff.mp ha), if_neg (Bool.eq_false_iff.mp hu)]

/-- The evaluation of a business knowledge model from its first event to its last. -/
def inform (r : Request L σ) (inner : Visit L σ) (n : Node L) (l : L) (p : Progress σ) :
    Progress σ :=
  (r.announced (.knowledge .before n.info.subject) (fun _ => .knowledge .after n.info.subject)
    (fun q => (true, r.runKnowledge inner n l q)) p).2

theorem visitKnowledge_some {l : L} (ha : p.evaluation.isActive (r.key n) = false)
    (hu : r.isDefined p.context n.info n.info = false) :
    r.visitKnowledge (some inner) n (some l) p = (.resolved, r.inform inner n l p) := by
  unfold visitKnowledge inform
  rw [if_neg (Bool.eq_false_iff.mp ha), if_neg (Bool.eq_false_iff.mp hu)]

end knowledge

section visits

variable {inner : Option (Visit L σ)}

theorem visitNode_decision {type : DeclaredType} {logic : Option L}
    (hr : n.role = .decision type logic) :
    r.visitNode inner n p = r.visitDecision inner n type logic p := by
  simp only [visitNode, hr]

theorem visitNode_knowledge {logic : Option L} (hr : n.role = .knowledge logic) :
    r.visitNode inner n p = r.visitKnowledge inner n logic p := by
  simp only [visitNode, hr]

theorem visitNode_input {type : DeclaredType} (hr : n.role = .input type) :
    r.visitNode inner n p = (.notFound, p) := by
  simp only [visitNode, hr]

end visits

theorem visit_succ (room : Nat) : r.visit (room + 1) = r.visitNode (some (r.visit room)) := rfl

/-- The visits of the next level, if it may be opened. -/
def below (r : Request L σ) : Nat → Option (Visit L σ)
  | 0 => none
  | room + 1 => some (r.visit room)

theorem visit_eq (r : Request L σ) (room : Nat) : r.visit room = r.visitNode (r.below room) := by
  cases room <;> rfl

section congruence

variable {r' : Request L σ} {inner inner' : Visit L σ}

/-- A dependency is provided the same if it is visited the same in the scope that the way leads to.
-/
theorem provide_congr (here : d.info.ns = r.model.scopeNs p.context → inner d p = inner' d p)
    (through : ∀ a, inner d (p.update (·.onContext (·.push ⟨a, d.info.ns⟩))) =
      inner' d (p.update (·.onContext (·.push ⟨a, d.info.ns⟩)))) :
    r.provide inner n d name p = r.provide inner' n d name p := by
  cases hu : r.isDefined p.context n.info d.info with
  | true => rw [provide_of_defined hu, provide_of_defined hu]
  | false =>
    cases hw : r.model.passage p.context n.info d.info with
    | closed => rw [provide_of_closed hu hw, provide_of_closed hu hw]
    | here =>
      have hopen : r.model.passage p.context n.info d.info ≠ .closed := by rw [hw]; simp
      rw [provide_of_open hu hopen, provide_of_open hu hopen, hw, descend_here, descend_here,
        here (Model.passage_eq_here.mp hw)]
    | through a =>
      have hopen : r.model.passage p.context n.info d.info ≠ .closed := by rw [hw]; simp
      rw [provide_of_open hu hopen, provide_of_open hu hopen, hw, descend_through,
        descend_through, through a]

theorem decide_congr {type : DeclaredType} {logic : Option L} (model : r'.model = r.model)
    (host : r'.host = r.host)
    (h : ∀ q, q = p ∨ q = r.notify (.decision .before n.info.subject none) p →
      r'.runDecision inner' n type logic q = r.runDecision inner n type logic q) :
    r'.decide inner' n type logic p = r.decide inner n type logic p := by
  have hnotify : r'.notify = r.notify := by unfold notify; rw [host]
  have hwatch : r'.watch = r.watch := by unfold watch; rw [host]
  have hkey : r'.key n = r.key n := by unfold key; rw [model]
  rw [decide, decide, announced_eq, announced_eq, host, hnotify, hwatch, hkey, h p (.inl rfl),
    h _ (.inr rfl)]

theorem inform_congr {l : L} (host : r'.host = r.host)
    (h : ∀ q, q = p ∨ q = r.notify (.knowledge .before n.info.subject) p →
      r'.runKnowledge inner' n l q = r.runKnowledge inner n l q) :
    r'.inform inner' n l p = r.inform inner n l p := by
  have hnotify : r'.notify = r.notify := by unfold notify; rw [host]
  rw [inform, inform, announced_eq, announced_eq, host, hnotify, h p (.inl rfl), h _ (.inr rfl)]

variable (hkey : r'.key n = r.key n)
  (hdef : r'.isDefined p.context n.info n.info = r.isDefined p.context n.info n.info)

include hkey hdef

/-- Visits are the same if they agree on what is defined, and if what they do with a node that they
open is the same. -/
theorem visitNode_congr
    (hdecide : ∀ type logic, n.role = .decision type logic →
      r.isDefined p.context n.info n.info = false →
      (p.ledger.status (r.key n)).blocksReentry = false →
      r'.decide inner' n type logic (r'.opening n p) = r.decide inner n type logic (r.opening n p))
    (hinform : ∀ l, n.role = .knowledge (some l) → p.evaluation.isActive (r.key n) = false →
      r.isDefined p.context n.info n.info = false → r'.inform inner' n l p = r.inform inner n l p) :
    r'.visitNode (some inner') n p = r.visitNode (some inner) n p := by
  cases hr : n.role with
  | decision type logic =>
    rw [visitNode_decision hr, visitNode_decision hr]
    cases hu : r.isDefined p.context n.info n.info with
    | true => rw [visitDecision_of_defined hu, visitDecision_of_defined (hdef.trans hu)]
    | false =>
      cases hb : (p.ledger.status (r.key n)).blocksReentry with
      | true => rw [visitDecision_of_blocked hu hb, visitDecision_of_blocked (hdef.trans hu)
          (hkey ▸ hb)]
      | false => rw [visitDecision_some hr hu hb, visitDecision_some hr (hdef.trans hu)
          (hkey ▸ hb), hdecide type logic hr hu hb]
  | knowledge logic =>
    rw [visitNode_knowledge hr, visitNode_knowledge hr]
    cases ha : p.evaluation.isActive (r.key n) with
    | true => rw [visitKnowledge_of_active ha, visitKnowledge_of_active (hkey ▸ ha)]
    | false =>
      cases hu : r.isDefined p.context n.info n.info with
      | true => rw [visitKnowledge_of_defined ha hu, visitKnowledge_of_defined (hkey ▸ ha)
          (hdef.trans hu)]
      | false =>
        cases logic with
        | none => rw [visitKnowledge_of_missing ha hu, visitKnowledge_of_missing (hkey ▸ ha)
            (hdef.trans hu)]
        | some l => rw [visitKnowledge_some ha hu, visitKnowledge_some (hkey ▸ ha)
            (hdef.trans hu), hinform l hr ha hu]
  | input type => rw [visitNode_input hr, visitNode_input hr]

theorem visit_zero_congr (limit : r'.maxDepth = r.maxDepth) :
    r'.visit 0 n p = r.visit 0 n p := by
  rw [visit, visit]
  cases hr : n.role with
  | decision type logic =>
    rw [visitNode_decision hr, visitNode_decision hr, visitDecision, visitDecision, hkey, hdef,
      limit]
  | knowledge logic =>
    rw [visitNode_knowledge hr, visitNode_knowledge hr]
    cases logic with
    | none => rw [visitKnowledge, visitKnowledge, hkey, hdef]
    | some l => rw [visitKnowledge, visitKnowledge, hkey, hdef, limit]
  | input type => rw [visitNode_input hr, visitNode_input hr]

end congruence

theorem visit_input {type : DeclaredType} (hr : n.role = .input type) (room : Nat) :
    r.visit room n p = (.notFound, p) := by
  cases room with
  | zero => exact visitNode_input hr
  | succ room => exact visitNode_input hr

/-- A visit leaves alone what it finds of a decision that has its value. -/
theorem visit_of_defined {type : DeclaredType} {logic : Option L}
    (hr : n.role = .decision type logic) (h : r.isDefined p.context n.info n.info = true)
    (room : Nat) : r.visit room n p = (.resolved, p) := by
  rw [visit_eq, visitNode_decision hr, visitDecision_of_defined h]

end Request

/-- What a request does for a key: it evaluates a decision, or says that there is none. -/
inductive Errand (L : Type) where
  | evaluate (n : Node L)
  | miss (d : Diagnostic)

namespace Model

variable (m : Model L)

def errandsFor (select : String → NodeInfo → Bool) (missing : String → Diagnostic)
    (keys : List String) : List (Errand L) :=
  keys.map fun k =>
    match m.localDecisions.find? fun d => select k d.info with
    | some d => .evaluate d
    | none => .miss (missing k)

def errands : Selection → List (Errand L)
  | .all => m.localDecisions.map .evaluate
  | .names names => m.errandsFor (fun k i => i.name == k) .decisionNotFoundForName names
  | .ids ids => m.errandsFor (fun k i => i.id == k) .decisionNotFoundForId ids

theorem mem_nodes_of_mem_localDecisions {m : Model L} {n : Node L} (h : n ∈ m.localDecisions) :
    n ∈ m.nodes :=
  Array.mem_toList_iff.mp (List.mem_filter.mp (List.mem_filter.mp h).1).1

theorem mem_localDecisions {m : Model L} {n : Node L} (hn : n ∈ m.nodes) (hd : n.isDecision)
    (hs : n.info.ns = m.ns) : n ∈ m.localDecisions := by
  refine List.mem_filter.mpr ⟨List.mem_filter.mpr ⟨Array.mem_toList_iff.mpr hn, hd⟩, ?_⟩
  simpa [owns] using hs

theorem key_of_owned {m : Model L} {n : NodeInfo} (h : n.ns = m.ns) : m.key n = n.id := by
  rw [key, if_pos h]

theorem ns_of_mem_localDecisions {m : Model L} {n : Node L} (h : n ∈ m.localDecisions) :
    n.info.ns = m.ns := by
  simpa [owns] using (List.mem_filter.mp h).2

theorem isDecision_of_mem_localDecisions {m : Model L} {n : Node L} (h : n ∈ m.localDecisions) :
    n.isDecision :=
  (List.mem_filter.mp (List.mem_filter.mp h).1).2

theorem mem_localDecisions_of_mem_errandsFor {m : Model L} {select : String → NodeInfo → Bool}
    {missing : String → Diagnostic} {keys : List String} {n : Node L}
    (h : .evaluate n ∈ m.errandsFor select missing keys) : n ∈ m.localDecisions := by
  obtain ⟨k, -, hk⟩ := List.mem_map.mp h
  split at hk
  next d hd =>
    obtain rfl := Errand.evaluate.inj hk
    exact List.mem_of_find?_eq_some hd
  next => cases hk

theorem mem_localDecisions_of_mem_errands {m : Model L} {s : Selection} {n : Node L}
    (h : .evaluate n ∈ m.errands s) : n ∈ m.localDecisions := by
  cases s with
  | all => simpa [errands] using h
  | names names =>
    rw [errands] at h
    exact mem_localDecisions_of_mem_errandsFor h
  | ids ids =>
    rw [errands] at h
    exact mem_localDecisions_of_mem_errandsFor h

end Model

namespace Request

variable {r : Request L σ}

def serve (r : Request L σ) (p : Progress σ) : Errand L → Progress σ
  | .evaluate n => r.evaluate n p
  | .miss d => p.update (·.report (.of .error d none none))

theorem evaluateSelected_eq (select : String → NodeInfo → Bool) (missing : String → Diagnostic)
    (keys : List String) (c : Context) (w : σ) :
    r.evaluateSelected select missing keys c w =
      (r.model.errandsFor select missing keys).foldl r.serve (r.start c w) := by
  rw [Model.errandsFor, List.foldl_map]
  unfold evaluateSelected
  congr 1
  funext p k
  cases r.model.localDecisions.find? fun d => select k d.info <;> rfl

theorem run_eq (s : Selection) (c : Context) (w : σ) :
    r.run s c w = (r.model.errands s).foldl r.serve (r.start c w) := by
  cases s with
  | all =>
    rw [Model.errands, List.foldl_map]
    rfl
  | names names =>
    rw [Model.errands, ← evaluateSelected_eq]
    rfl
  | ids ids =>
    rw [Model.errands, ← evaluateSelected_eq]
    rfl

/-- What holds at the start of a request and survives its errands holds at its end. -/
theorem serve_induction {P : Progress σ → Prop} {s : Selection} {c : Context} {w : σ}
    (start : P (r.start c w))
    (serve : ∀ e p, e ∈ r.model.errands s → P p → P (r.serve p e)) : P (r.run s c w) := by
  rw [run_eq]
  exact List.foldlRecOn _ _ start fun p hp e he => serve e p he hp

/-- Requests on one model that do the same for each errand do the same, if what their errands take
for granted holds at the start and survives each errand. -/
theorem run_congr {r' : Request L σ} {P : Progress σ → Prop} {s : Selection} {c : Context} {w : σ}
    (model : r'.model = r.model) (start : P (r.start c w))
    (serve : ∀ e p, e ∈ r.model.errands s → P p → P (r.serve p e))
    (same : ∀ e p, e ∈ r.model.errands s → P p → r'.serve p e = r.serve p e) :
    r'.run s c w = r.run s c w := by
  have hstart : r'.start c w = r.start c w := by rw [Request.start, Request.start, model]
  rw [run_eq, run_eq, model, hstart]
  generalize r.start c w = p at start
  generalize r.model.errands s = es at serve same
  induction es generalizing p with
  | nil => rfl
  | cons e es ih =>
    rw [List.foldl_cons, List.foldl_cons, same e p List.mem_cons_self start]
    exact ih _ (serve e p List.mem_cons_self start)
      (fun e p he => serve e p (List.mem_cons_of_mem _ he))
      fun e p he => same e p (List.mem_cons_of_mem _ he)

theorem run_induction {P : Progress σ → Prop} {s : Selection} {c : Context} {w : σ}
    (start : P (r.start c w))
    (evaluate : ∀ n p, .evaluate n ∈ r.model.errands s → P p → P (r.evaluate n p))
    (miss : ∀ d p, P p → P (p.update (·.report (.of .error d none none)))) :
    P (r.run s c w) := by
  apply serve_induction start
  rintro (n | d) p he hp
  · exact evaluate n p he hp
  · exact miss d p hp

end Request

end DecisionGraph
