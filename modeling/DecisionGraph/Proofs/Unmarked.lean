import DecisionGraph.Proofs.Limits

namespace DecisionGraph

variable {L σ : Type}

/-- Logic adds to the messages and takes none back. -/
def Host.Appends (h : Host L σ) : Prop :=
  ∀ m l e w, e.messages <+: (h.answer m l e w).2.1.messages

theorem Host.Quiet.appends {h : Host L σ} (hq : h.Quiet) : h.Appends := fun m l e w => by
  rw [hq]

namespace Progress

variable {p q s : Progress σ} {marked : Message → Bool}

def Precedes (p q : Progress σ) : Prop := p.evaluation.messages <+: q.evaluation.messages

theorem Precedes.of_eq (h : q.evaluation.messages = p.evaluation.messages) : p.Precedes q := by
  rw [Precedes, h]

theorem Precedes.of_append {new : List Message}
    (h : q.evaluation.messages = p.evaluation.messages ++ new) : p.Precedes q :=
  ⟨new, h.symm⟩

theorem Precedes.refl (p : Progress σ) : p.Precedes p := .of_eq rfl

theorem Precedes.trans (h : p.Precedes q) (h' : q.Precedes s) : p.Precedes s :=
  List.IsPrefix.trans h h'

theorem Precedes.lose (h : p.Precedes q) (key : String) (m : Option Message) (st : Status) :
    p.Precedes (q.update (·.lose key m st)) := by
  cases m with
  | none => exact h
  | some m => exact h.trans (.of_append rfl)

/-- No message is marked. -/
def Unmarked (marked : Message → Bool) (p : Progress σ) : Prop :=
  ∀ m ∈ p.evaluation.messages, marked m = false

theorem Unmarked.of_precedes (h : q.Unmarked marked) (hp : p.Precedes q) : p.Unmarked marked :=
  fun m hm => h m (hp.subset hm)

end Progress

namespace Request

variable {r : Request L σ} {inner inner' : Visit L σ} {marked : Message → Bool} {n d : Node L}
  {p : Progress σ} {name : String}

theorem precedes_reportUnresolved (n : Node L) (name source : String) (d : Diagnostic)
    (p : Progress σ) : p.Precedes (r.reportUnresolved n name source d p) := by
  unfold reportUnresolved
  split <;> exact .of_append rfl

theorem precedes_opening (n : Node L) (p : Progress σ) : p.Precedes (r.opening n p) := by
  unfold opening
  split
  · exact .of_eq rfl
  · exact .of_eq (Evaluation.messages_enter ..)

theorem precedes_callLogic (ha : r.host.Appends) (n : Node L) (l : L) (p : Progress σ) :
    p.Precedes (r.callLogic n l p).2 :=
  ha _ _ _ _

theorem lawful_messages (ha : r.host.Appends) :
    r.Lawful (fun _ p x => p.Precedes x.2) (fun _ _ p q => p.Precedes q)
      (fun _ p q => p.Precedes q) where
  refl _ p := .refl p
  trans h h' := h.trans h'
  unresolved n name _ source d p _ := precedes_reportUnresolved n name source d p
  fits _ _ _ _ _ _ _ _ := .of_eq rfl
  misfit n d _ p name _ source g _ _ _ _ _ :=
    precedes_reportUnresolved n name source g (r.watch (.examined n d (r.found n d p)) p)
  report _ _ _ := .of_append rfl
  notify _ _ _ := .of_eq rfl
  here _ _ _ _ _ _ _ h := h
  through _ _ _ _ _ _ _ _ _ h := h
  call n logic _ _ _ _ _ _ h := h.trans (precedes_callLogic ha n logic _)
  complained _ _ _ _ h := h.trans (.of_append rfl)
  stay _ p _ _ := .refl p
  told _ _ _ _ _ h := h
  tooDeep _ _ _ _ _ _ := .of_append rfl
  skipped n p _ _ m _ _ _ h := ((precedes_opening n p).trans h).lose _ m _
  failed n p _ m _ _ _ h := ((precedes_opening n p).trans h).lose _ m _
  kept n p _ _ _ _ _ h := (precedes_opening n p).trans h
  reported _ _ _ _ := .of_append rfl
  heard _ _ _ _ _ h := h
  abandoned n p _ _ _ _ _ h := (precedes_opening n p).trans h
  ended n p _ _ _ _ h := (precedes_opening n p).trans h
  given n p _ _ _ _ _ h := (precedes_opening n p).trans h

def checking (r : Request L σ) (b : Bool) : Request L σ := { r with typeCheck := b }

/-- Where nothing marked is said, checks make no difference to inputs and results. -/
structure Lenient (r : Request L σ) (marked : Message → Bool) (b : Bool) : Prop where
  input : ∀ n d name p, (r.checkInput n d name p).2.Unmarked marked →
    (r.checking b).checkInput n d name p = r.checkInput n d name p
  result : ∀ n type v p, (r.bindResult n type v p).2.Unmarked marked →
    (r.checking b).bindResult n type v p = r.bindResult n type v p

/-- The second walk does what the first one does, where that says nothing marked. -/
def Agrees (marked : Message → Bool) (inner inner' : Visit L σ) : Prop :=
  ∀ d p, (inner d p).2.Unmarked marked → inner' d p = inner d p

theorem precedes_settle (n d : Node L) (name : String) (x : Resolution × Progress σ) :
    x.2.Precedes (r.settle n d name x).2 := by
  unfold settle
  cases complaint n.info d.info x.1 with
  | none => exact .refl _
  | some g => exact precedes_reportUnresolved ..

theorem precedes_bindResult (n : Node L) (type : DeclaredType) (v : Value) (p : Progress σ) :
    p.Precedes (r.bindResult n type v p).2 := by
  rw [bindResult_eq]
  cases r.objection? n type v with
  | none => exact .of_eq rfl
  | some m => exact .of_append rfl

theorem precedes_runDecision (ha : r.host.Appends) (type : DeclaredType) (logic : Option L) :
    (r.resolve inner n p).2.Precedes (r.runDecision inner n type logic p).2 := by
  unfold runDecision
  dsimp only
  split
  · exact .of_eq rfl
  · cases logic with
    | none => exact .of_append rfl
    | some l =>
      have hcall := precedes_callLogic ha n l (r.resolve inner n p).2
      dsimp only
      split
      · exact hcall.trans (precedes_bindResult ..)
      · exact hcall
      · exact hcall.trans (.of_append rfl)

theorem precedes_runKnowledge (ha : r.host.Appends) (hn : n.isKnowledge) (l : L) :
    (r.resolve inner n (r.opening n p)).2.Precedes (r.runKnowledge inner n l p) := by
  rw [opening_of_knowledge hn]
  unfold runKnowledge
  dsimp only
  split
  · exact .of_eq rfl
  · have hcall := precedes_callLogic ha n l
      (r.resolve inner n (r.watch (.entered n) (p.update (·.enter (r.key n))))).2
    split
    · exact hcall
    · exact hcall.trans (.of_append rfl)
    · exact hcall
    · exact hcall.trans (.of_append rfl)

theorem announced_agrees {before : Event} {after : Ledger → Event}
    {run run' : Progress σ → Bool × Progress σ}
    (hrun : ∀ q, (run q).2.Unmarked marked → run' q = run q)
    (h : (r.announced before after run p).2.Unmarked marked) :
    r.announced before after run' p = r.announced before after run p := by
  rw [announced_eq] at h
  rw [announced_eq, announced_eq]
  split at h
  next hl => rw [if_pos hl, if_pos hl, hrun _ h]
  next hl => rw [if_neg hl, if_neg hl, hrun _ h]

section walks

variable {b : Bool} (hi : Agrees marked inner inner')

include hi

theorem provide_agrees (h : (r.provide inner n d name p).2.Unmarked marked) :
    (r.checking b).provide inner' n d name p = r.provide inner n d name p := by
  have hsame : (r.checking b).provide inner' n d name p = r.provide inner' n d name p := rfl
  rw [hsame]
  cases hu : r.isDefined p.context n.info d.info with
  | true => rw [provide_of_defined hu, provide_of_defined hu]
  | false =>
    cases hw : r.model.passage p.context n.info d.info with
    | closed => rw [provide_of_closed hu hw, provide_of_closed hu hw]
    | here =>
      have hopen : r.model.passage p.context n.info d.info ≠ .closed := by rw [hw]; simp
      rw [provide_of_open hu hopen, hw, descend_here] at h
      rw [provide_of_open hu hopen, provide_of_open hu hopen, hw, descend_here, descend_here,
        hi d p (h.of_precedes (precedes_settle ..))]
    | through a =>
      have hopen : r.model.passage p.context n.info d.info ≠ .closed := by rw [hw]; simp
      rw [provide_of_open hu hopen, hw, descend_through] at h
      have hx : (inner d (p.update (·.onContext (·.push ⟨a, d.info.ns⟩)))).2.Unmarked marked := by
        have hs := h.of_precedes (precedes_settle ..)
        exact hs
      rw [provide_of_open hu hopen, provide_of_open hu hopen, hw, descend_through,
        descend_through, hi d _ hx]

variable (hl : r.Lenient marked b) (ha : r.host.Appends)
  (hg : ∀ (d : Node L) (p : Progress σ), p.Precedes (inner d p).2)

include hl ha hg

theorem resolveOne_agrees {id : Nat} (he : (name, id) ∈ n.info.dependencies.toList)
    (h : (r.resolveOne inner n name id p).2.Unmarked marked) :
    (r.checking b).resolveOne inner' n name id p = r.resolveOne inner n name id p := by
  cases hd : r.model.node? id with
  | none =>
    have hd' : (r.checking b).model.node? id = none := hd
    simp only [resolveOne, hd, hd']
    rfl
  | some d =>
    have hd' : (r.checking b).model.node? id = some d := hd
    rw [resolveOne_of_some hd] at h
    rw [resolveOne_of_some hd, resolveOne_of_some hd']
    split at h
    next hk =>
      rw [hl.input n d name p h, if_pos hk, if_pos hk]
    next hk =>
      have hprov := (lawful_messages ha).provide hg (r.checkInput n d name p).2 he hd
      rw [hl.input n d name p (h.of_precedes hprov), if_neg hk, if_neg hk, provide_agrees hi h]

theorem resolveList_agrees (deps : List (String × Nat))
    (hs : ∀ e ∈ deps, e ∈ n.info.dependencies.toList)
    (h : (r.resolveList inner n deps p).2.Unmarked marked) :
    (r.checking b).resolveList inner' n deps p = r.resolveList inner n deps p := by
  induction deps generalizing p with
  | nil => rfl
  | cons e deps ih =>
    obtain ⟨name, id⟩ := e
    have he : (name, id) ∈ n.info.dependencies.toList := hs _ List.mem_cons_self
    have hds : ∀ e ∈ deps, e ∈ n.info.dependencies.toList :=
      fun e he => hs e (List.mem_cons_of_mem _ he)
    rw [resolveList_cons] at h
    rw [resolveList_cons, resolveList_cons]
    split at h
    next hk => rw [resolveOne_agrees hi hl ha hg he h, if_pos hk, if_pos hk]
    next hk =>
      have hrest := (lawful_messages ha).resolveList hg deps
        (r.resolveOne inner n name id p).2 hds
      rw [resolveOne_agrees hi hl ha hg he (h.of_precedes hrest), if_neg hk, if_neg hk, ih hds h]

theorem resolve_agrees (h : (r.resolve inner n p).2.Unmarked marked) :
    (r.checking b).resolve inner' n p = r.resolve inner n p :=
  resolveList_agrees hi hl ha hg _ (fun _ he => he) h

theorem runDecision_agrees {type : DeclaredType} {logic : Option L}
    (h : (r.runDecision inner n type logic p).2.Unmarked marked) :
    (r.checking b).runDecision inner' n type logic p = r.runDecision inner n type logic p := by
  have hres := resolve_agrees hi hl ha hg (h.of_precedes (precedes_runDecision ha type logic))
  unfold runDecision at h ⊢
  rw [hres]
  dsimp only at h ⊢
  split at h
  next hk => rw [if_pos hk, if_pos hk]; rfl
  next hk =>
    rw [if_neg hk, if_neg hk]
    cases logic with
    | none => rfl
    | some l =>
      have hcall : (r.checking b).callLogic n l = r.callLogic n l := rfl
      dsimp only at h ⊢
      rw [hcall]
      split at h
      · exact hl.result n type _ _ h
      · rfl
      · rfl

theorem decide_agrees {type : DeclaredType} {logic : Option L}
    (h : (r.decide inner n type logic p).2.Unmarked marked) :
    (r.checking b).decide inner' n type logic p = r.decide inner n type logic p := by
  have hsame : (r.checking b).decide inner' n type logic p =
      r.announced (.decision .before n.info.subject none)
        (fun l => .decision .after n.info.subject (l.find? (r.key n)))
        (fun q => (((r.checking b).runDecision inner' n type logic q).1,
          r.watch (.left n) ((r.checking b).runDecision inner' n type logic q).2)) p := rfl
  rw [hsame]
  refine announced_agrees (fun q hq => ?_) h
  have hrun : (r.runDecision inner n type logic q).2.Unmarked marked := hq
  rw [runDecision_agrees hi hl ha hg hrun]

theorem runKnowledge_agrees (hn : n.isKnowledge) {l : L}
    (h : (r.runKnowledge inner n l p).Unmarked marked) :
    (r.checking b).runKnowledge inner' n l p = r.runKnowledge inner n l p := by
  have hres := resolve_agrees hi hl ha hg (h.of_precedes (precedes_runKnowledge ha hn l))
  rw [opening_of_knowledge hn] at hres
  have hres' : (r.checking b).resolve inner' n ((r.checking b).watch (.entered n)
      (p.update (·.enter ((r.checking b).key n)))) =
        r.resolve inner n (r.watch (.entered n) (p.update (·.enter (r.key n)))) := hres
  simp only [runKnowledge, hres']
  rfl

theorem inform_agrees (hn : n.isKnowledge) {l : L}
    (h : (r.inform inner n l p).Unmarked marked) :
    (r.checking b).inform inner' n l p = r.inform inner n l p := by
  have hsame : (r.checking b).inform inner' n l p =
      (r.announced (.knowledge .before n.info.subject) (fun _ => .knowledge .after n.info.subject)
        (fun q => (true, (r.checking b).runKnowledge inner' n l q)) p).2 := rfl
  rw [hsame]
  refine congrArg Prod.snd (announced_agrees (fun q hq => ?_) h)
  have hrun : (r.runKnowledge inner n l q).Unmarked marked := hq
  rw [runKnowledge_agrees hi hl ha hg hn hrun]

/-- What the walks of the level below agree on, those of this level agree on as well. -/
theorem visitNode_agrees :
    Agrees marked (r.visitNode (some inner)) ((r.checking b).visitNode (some inner')) := by
  intro n p h
  refine visitNode_congr rfl rfl (fun type logic hr hu hb => ?_) fun l hr hact hu => ?_
  · rw [visitNode_decision hr, visitDecision_some hr hu hb] at h
    exact decide_agrees hi hl ha hg h
  · rw [visitNode_knowledge hr, visitKnowledge_some hact hu] at h
    exact inform_agrees hi hl ha hg (Node.isKnowledge_of_role hr) h

end walks

theorem visit_agrees {b : Bool} (hl : r.Lenient marked b) (ha : r.host.Appends) (room : Nat) :
    Agrees marked (r.visit room) ((r.checking b).visit room) := by
  induction room with
  -- Without a further level to open, nothing is checked.
  | zero => exact fun n p _ => visit_zero_congr rfl rfl rfl
  | succ room ih => exact visitNode_agrees ih hl ha ((lawful_messages ha).visit room)

theorem precedes_serve (ha : r.host.Appends) (p : Progress σ) (e : Errand L) :
    p.Precedes (r.serve p e) := by
  cases e with
  | evaluate n => exact (lawful_messages ha).visit r.maxDepth n p
  | miss d => exact .of_append rfl

theorem precedes_errands (ha : r.host.Appends) (es : List (Errand L)) (p : Progress σ) :
    p.Precedes (es.foldl r.serve p) :=
  List.foldlRecOn (motive := fun q => p.Precedes q) es r.serve (.refl p)
    fun q hq e _ => hq.trans (precedes_serve ha q e)

theorem errands_agree {r' : Request L σ} (ha : r.host.Appends)
    (hs : ∀ p e, (r.serve p e).Unmarked marked → r'.serve p e = r.serve p e)
    (es : List (Errand L)) (h : (es.foldl r.serve p).Unmarked marked) :
    es.foldl r'.serve p = es.foldl r.serve p := by
  induction es generalizing p with
  | nil => rfl
  | cons e es ih =>
    rw [List.foldl_cons] at h
    rw [List.foldl_cons, List.foldl_cons, hs p e (h.of_precedes (precedes_errands ha es _)), ih h]

end Request

end DecisionGraph
