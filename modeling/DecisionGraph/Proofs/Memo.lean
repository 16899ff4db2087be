import DecisionGraph.Proofs.Resolving

namespace DecisionGraph

variable {L σ : Type}

open Relation (TransGen ReflTransGen)

namespace Request

variable {r : Request L σ} {c : Context} {w : σ} {R : Set Nat} {A : List Nat} {i j : Nat}
  {n : Node L} {p : Progress σ}

section node

variable (hm : r.model.Plain) (hn : r.model.node? i = some n) {inner : Visit L σ}

include hm hn

/-- Logic is asked with the values of the dependencies, and gives the value of the node. -/
theorem yield_callLogic (hh : r.Functional) {l : L} (hl : n.role.logic? = some l)
    (hc : c.get? n.info.name = none) (hadm : r.admitsAll (r.value c w) n = true)
    (hR : ∀ j, r.model.Needs i j → j ∈ R) (h : r.Settled c w R A p.evaluation) :
    r.yield n.role (r.callLogic n l p).1 = r.value c w i := by
  have hanswer : (r.callLogic n l p).1 =
      (r.host.answer r.model l (.start (.ofEntries (r.model.given (r.value c w) n))) w).1 := by
    apply hh.answer i n l hn hl _ _ _ _
    intro d hd
    obtain ⟨e, he, hid⟩ := List.mem_filterMap.mp hd
    have hgiven := find?_given hm (r.value c w) he hid
    have hset := h.stored.settled e.2 d hid (hR e.2 ⟨n, hn, e.1, he⟩)
    exact hset.trans hgiven.symm
  rw [hanswer, value_of_free hm hn hc, valueFrom, hl, Option.bind_some, if_pos hadm]

omit hm in
theorem mem_tried_of_admitsAll {val : Nat → Option Value} (hadm : r.admitsAll val n = true)
    {j : Nat} (h : r.model.Needs i j) : j ∈ r.tried val n n.info.dependencies.toList := by
  obtain ⟨k, hk, name, he⟩ := h
  obtain rfl := Option.some.inj (hn.symm.trans hk)
  have hall : ∀ deps : List (String × Nat), (∀ e ∈ deps, r.admits val e.2 = true) →
      ∀ e ∈ deps, e.2 ∈ r.tried val n deps := by
    intro deps hdeps
    induction deps with
    | nil => simp
    | cons d deps ih =>
      intro e he
      rw [tried, hdeps d List.mem_cons_self]
      rcases List.mem_cons.mp he with rfl | he
      · exact List.mem_cons_self
      · exact List.mem_cons_of_mem _ (ih (fun e he => hdeps e (List.mem_cons_of_mem _ he)) e he)
  exact hall _ (List.all_eq_true.mp hadm) _ he

theorem settled_lose (hd : n.isDecision) (hc : c.get? n.info.name = none) (hi : i ∉ R)
    (hval : r.value c w i = none) {s : Status} (hs : s = r.verdict c w i n) (m : Option Message)
    (h : r.Settled c w R (i :: A) p.evaluation) :
    r.Settled c w (R ∪ {i}) A (p.update (·.lose (r.key n) m s)).evaluation := by
  have hget : p.evaluation.context.get? n.info.name = none :=
    (h.stored.get?_of_not_mem hm hn hi).trans hc
  have hstored := h.stored.add hm hn h.stored.frames (hget.trans hval.symm) fun _ _ => rfl
  have hengaged := h.engaged.of_decision hn hd
  have hres : r.resultOf c w i n = none := by simp [resultOf, hc, hval]
  rw [key_of_plain hm hn]
  cases m with
  | none =>
    exact ⟨hstored, h.tallied.conclude hm hn hd hi (fun _ => rfl) (fun _ => hs)
      fun o ho => ho.trans hres.symm, hengaged⟩
  | some m =>
    exact ⟨hstored, h.tallied.conclude hm hn hd hi (fun _ => rfl) (fun _ => hs)
      fun o ho => ho.trans hres.symm, hengaged⟩

theorem settled_succeed (hd : n.isDecision) (hc : c.get? n.info.name = none) (hi : i ∉ R)
    {v : Value} (hval : r.value c w i = some v) (h : r.Settled c w R (i :: A) p.evaluation) :
    r.Settled c w (R ∪ {i}) A (p.update fun e => (e.onContext (·.set n.info.name v)).onLedger
      (·.modify (r.key n) (·.succeed v))).evaluation := by
  have hset := Context.get?_set_of_root h.stored.frames n.info.name v
  have hstored : r.Stored c w (R ∪ {i}) (p.evaluation.context.set n.info.name v) :=
    h.stored.add hm hn h.stored.frames (by rw [hset, if_pos rfl, hval]) fun x hx => by
      rw [hset, if_neg hx]
  have hs : r.verdict c w i n = .succeeded := by simp [verdict, hc, hval]
  have hr : r.resultOf c w i n = some v := by simp [resultOf, hc, hval]
  rw [key_of_plain hm hn]
  exact ⟨hstored, h.tallied.conclude hm hn hd hi (fun _ => rfl) (fun _ => hs.symm)
    fun _ _ => hr.symm, h.engaged.of_decision hn hd⟩

omit hm in
theorem union_spread (hc : c.get? n.info.name = none)
    (hr : n.isDecision ∨ ∃ l, n.role = .knowledge (some l)) :
    R ∪ r.spread c w [i] =
      (R ∪ r.spread c w (r.tried (r.value c w) n n.info.dependencies.toList)) ∪ {i} := by
  have hopened : r.opened (r.value c w) n =
      r.tried (r.value c w) n n.info.dependencies.toList := by
    unfold opened
    rcases hr with hd | ⟨l, hl⟩
    · cases hr : n.role with
      | decision type logic => rfl
      | knowledge logic => simp [Node.isDecision, hr] at hd
      | input type => simp [Node.isDecision, hr] at hd
    · rw [hl]
  have ho (j : Nat) : r.Opens c w i j ↔
      j ∈ r.tried (r.value c w) n n.info.dependencies.toList := by
    rw [← hopened]
    constructor
    · rintro ⟨k, hk, -, hj⟩
      rwa [Option.some.inj (hn.symm.trans hk)]
    · exact fun hj => ⟨n, hn, hc, hj⟩
  rw [spread_of_opens ho, Set.union_assoc]

theorem not_mem_union_tried (hi : i ∉ R) :
    i ∉ R ∪ r.spread c w (r.tried (r.value c w) n n.info.dependencies.toList) := by
  rintro (hR | hs)
  · exact hi hR
  · refine not_mem_spread hm.acyclic (fun k hk => ?_) hs
    obtain ⟨name, he⟩ := mem_of_mem_tried hk
    exact ⟨n, hn, name, he⟩

/-- The value that logic has answered is bound if its type lets it, as the node's value. -/
theorem bindResult_settled {type : DeclaredType} {logic : Option L}
    (hr : n.role = .decision type logic) (hc : c.get? n.info.name = none) (hi : i ∉ R) (v : Value)
    (hval : r.yield n.role (.ok (.success v)) = r.value c w i)
    (hs : r.value c w i = none → .failed = r.verdict c w i n)
    (h : r.Settled c w R (i :: A) p.evaluation) :
    (r.bindResult n type v p).1 = (r.value c w i).isSome ∧
      r.Settled c w (R ∪ {i}) A (r.bindResult n type v p).2.evaluation := by
  have hd := Node.isDecision_of_role hr
  rw [hr, yield_decision n] at hval
  rw [bindResult_eq]
  cases hg : r.objection? n type v with
  | none =>
    rw [hg] at hval
    rw [← hval]
    exact ⟨rfl, settled_succeed hm hn hd hc hi hval.symm h⟩
  | some g =>
    rw [hg] at hval
    rw [← hval]
    exact ⟨rfl, settled_lose hm hn hd hc hi hval.symm (hs hval.symm) (some g) h⟩

theorem runDecision_settled (hh : r.Functional) {type : DeclaredType} {logic : Option L}
    (hr : n.role = .decision type logic) (hc : c.get? n.info.name = none) (hi : i ∉ R)
    (hv : ∀ j, r.model.Needs i j → r.Settles c w inner j)
    (hA : ∀ a ∈ A, TransGen r.model.Needs a i) (hcl : r.Closed c w R)
    (h : r.Settled c w R (i :: A) p.evaluation) :
    (r.runDecision inner n type logic p).1 = (r.value c w i).isSome ∧
      r.Settled c w (R ∪ r.spread c w [i]) A (r.runDecision inner n type logic p).2.evaluation := by
  have hd := Node.isDecision_of_role hr
  have hl : n.role.logic? = logic := by simp [hr, Role.logic?]
  have hA' : ∀ a ∈ i :: A, a = i ∨ TransGen r.model.Needs a i := by
    intro a ha
    exact (List.mem_cons.mp ha).imp_right (hA a)
  obtain ⟨hready, hset⟩ := resolve_settled hm hn hv hA' hcl (fun _ => ⟨hi, List.mem_cons_self⟩) h
  have hi' := not_mem_union_tried (c := c) (w := w) hm hn hi
  rw [union_spread hn hc (.inl hd)]
  unfold runDecision
  dsimp only
  rw [hready]
  cases hadm : r.admitsAll (r.value c w) n with
  | false =>
    have hval : r.value c w i = none := by
      rw [value_of_free hm hn hc, valueFrom, hl, hadm]
      cases logic <;> rfl
    have hs : Status.skipped = r.verdict c w i n := by simp [verdict, hc, hval, hadm]
    have hlose := settled_lose hm hn hd hc hi' hval hs none hset
    rw [hval]
    exact ⟨rfl, hlose⟩
  | true =>
    cases logic with
    | none =>
      have hval : r.value c w i = none := by
        rw [value_of_free hm hn hc, valueFrom, hl]
        rfl
      have hs : Status.skipped = r.verdict c w i n := by simp [verdict, hc, hval, hl]
      rw [hval]
      exact ⟨rfl, settled_lose hm hn hd hc hi' hval hs (some _) hset⟩
    | some l =>
      have hcall := yield_callLogic hm hn hh hl hc hadm
        (fun j hj => .inr ⟨j, mem_tried_of_admitsAll hn hadm hj, .refl⟩) hset
      have he : (r.callLogic n l (r.resolve inner n p).2).2.evaluation =
          (r.resolve inner n p).2.evaluation := hh.quiet _ _ _ _
      rw [← he] at hset
      have hfail (hval : r.value c w i = none) : Status.failed = r.verdict c w i n := by
        simp [verdict, hc, hval, hl, hadm]
      dsimp only
      cases ha : (r.callLogic n l (r.resolve inner n p).2).1 with
      | error e =>
        rw [ha, yield_error] at hcall
        rw [← hcall]
        exact ⟨rfl, settled_lose hm hn hd hc hi' hcall.symm (hfail hcall.symm) (some _) hset⟩
      | ok a =>
        rw [ha] at hcall
        cases a with
        | failure =>
          rw [yield_failure] at hcall
          rw [← hcall]
          exact ⟨rfl, settled_lose hm hn hd hc hi' hcall.symm (hfail hcall.symm) none hset⟩
        | success v => exact bindResult_settled hm hn hr hc hi' v hcall hfail hset

theorem settled_opening_decision (hd : n.isDecision) (hi : i ∉ R)
    (h : r.Settled c w R A p.evaluation) :
    r.Settled c w R (i :: A) (r.opening n p).evaluation := by
  obtain ⟨o, ho, -, -⟩ := h.tallied.outcomes i n hn hd
  have he : p.ledger.ensure n.info.id n.info.name = p.ledger :=
    Ledger.ensure_of_isSome (by rw [Progress.ledger_eq, ho]; rfl) _
  have ht := h.tallied.begin.mark hm hn hd hi List.mem_cons_self
    (f := fun o => { o with status := .evaluating }) (fun _ => rfl) fun _ => rfl
  rw [opening_of_decision hd, key_of_plain hm hn]
  refine ⟨h.stored, ?_, h.engaged.cons⟩
  rw [← Progress.ledger_eq, ← he] at ht
  exact ht

/-- A decision that has no value is not entered again. -/
theorem blocksReentry_of_settled (hd : n.isDecision) (hi : i ∈ R) (hc : c.get? n.info.name = none)
    (hval : r.value c w i = none) (h : r.Settled c w R A p.evaluation) :
    (p.ledger.status (r.key n)).blocksReentry = true := by
  obtain ⟨o, ho, hin, -⟩ := h.tallied.outcomes i n hn hd
  rw [key_of_plain hm hn, Ledger.status, Progress.ledger_eq, ho, Option.map_some, Option.getD_some,
    (hin hi).1]
  unfold verdict
  rw [hc, hval]
  simp only [Option.isSome_none, Bool.false_eq_true, if_false]
  split <;> rfl

theorem status_of_unreached (hd : n.isDecision) (hi : i ∉ R) (hA : i ∉ A)
    (h : r.Settled c w R A p.evaluation) :
    p.ledger.status (r.key n) = .notEvaluated := by
  obtain ⟨o, ho, -, hout⟩ := h.tallied.outcomes i n hn hd
  rw [key_of_plain hm hn, Ledger.status, Progress.ledger_eq, ho, Option.map_some, Option.getD_some]
  exact (hout hi).2 hA

theorem free_of_free (h : r.Settled c w R A p.evaluation)
    (hg : p.evaluation.context.get? n.info.name = none) :
    c.get? n.info.name = none ∧ (i ∈ R → r.value c w i = none) := by
  by_cases hi : i ∈ R
  · have hval := (h.stored.settled i n hn hi).symm.trans hg
    refine ⟨?_, fun _ => hval⟩
    cases hc : c.get? n.info.name with
    | none => rfl
    | some v => simp [value_of_bound hm hn hc] at hval
  · exact ⟨(h.stored.get?_of_not_mem hm hn hi).symm.trans hg, fun hx => absurd hx hi⟩

theorem visitDecision_settled (hh : r.Functional) {type : DeclaredType} {logic : Option L}
    (hr : n.role = .decision type logic)
    (hv : ∀ j, r.model.Needs i j → r.Settles c w inner j)
    (hA : ∀ a ∈ A, TransGen r.model.Needs a i) (hcl : r.Closed c w R)
    (h : r.Settled c w R A p.evaluation) :
    (r.visitDecision (some inner) n type logic p).1 = .ofDecision (r.value c w i).isSome ∧
      r.Settled c w (R ∪ r.spread c w [i]) A
        (r.visitDecision (some inner) n type logic p).2.evaluation := by
  have hd := Node.isDecision_of_role hr
  have hnA : i ∉ A := fun hi => hm.acyclic i (hA i hi)
  cases hu : r.isDefined p.context n.info n.info with
  | true =>
    have hdef := isDefined_of_root (n := n) hm h.stored.frames hn
    rw [hu, Progress.context_eq] at hdef
    obtain ⟨hval, hset⟩ := h.add_bound hm hn hcl hnA hdef.symm
    rw [visitDecision_of_defined hu, hval]
    exact ⟨rfl, hset⟩
  | false =>
    have hg := free_of_undefined hm h.stored.frames hn hu
    obtain ⟨hc, hval⟩ := free_of_free hm hn h hg
    -- A settled decision without a value is blocked by its outcome; another one is entered.
    by_cases hi : i ∈ R
    · rw [visitDecision_of_blocked hu (blocksReentry_of_settled hm hn hd hi hc (hval hi) h),
        hval hi, hcl.union_eq hi]
      exact ⟨rfl, h⟩
    · have hb : (p.ledger.status (r.key n)).blocksReentry = false := by
        rw [status_of_unreached hm hn hd hi hnA h]
        rfl
      rw [visitDecision_some hr hu hb]
      have ho := settled_opening_decision hm hn hd hi h
      have hrun := announced_rec (r := r) (p := r.opening n p)
        (Q := fun b e => b = (r.value c w i).isSome ∧ r.Settled c w (R ∪ r.spread c w [i]) A e)
        (.decision .before n.info.subject none)
        (fun l => .decision .after n.info.subject (l.find? (r.key n)))
        (fun q => ((r.runDecision inner n type logic q).1,
          r.watch (.left n) (r.runDecision inner n type logic q).2))
        fun q hq => runDecision_settled hm hn hh hr hc hi hv hA hcl (hq ▸ ho)
      unfold decide
      rw [hrun.1]
      exact ⟨rfl, hrun.2⟩

theorem settled_leave (hk : n.isKnowledge) {e : Evaluation} (h : r.Settled c w R (i :: A) e)
    (e' : Evaluation) (hf : e'.context.frames = [])
    (hi : e'.context.get? n.info.name = r.value c w i)
    (ho : ∀ x, n.info.name ≠ x → e'.context.get? x = e.context.get? x)
    (hl : e'.ledger = e.ledger) (ha : e'.active = e.active) :
    r.Settled c w (R ∪ {i}) A (e'.leave (r.key n)) := by
  have hnd := Node.not_isDecision hk
  refine ⟨h.stored.add hm hn hf hi ho, ?_, ?_⟩
  · have ht := (h.tallied.of_knowledge hn hk).add hn fun hd => absurd hd hnd
    rwa [← hl] at ht
  · intro k hx
    obtain ⟨hmem, hne⟩ := List.mem_filter.mp hx
    rw [ha] at hmem
    obtain ⟨a, haA, m, hmn, hmk, hid⟩ := h.engaged k hmem
    rcases List.mem_cons.mp haA with rfl | haA
    · obtain rfl := Option.some.inj (hmn.symm.trans hn)
      rw [key_of_plain hm hn, ← hid] at hne
      simp at hne
    · exact ⟨a, haA, m, hmn, hmk, hid⟩

theorem settled_opening_knowledge (hk : n.isKnowledge) (h : r.Settled c w R A p.evaluation) :
    r.Settled c w R (i :: A) (r.opening n p).evaluation := by
  have he : (r.opening n p).evaluation = p.evaluation.enter (r.key n) := by
    unfold opening
    rw [if_neg (Node.not_isDecision hk)]
    rfl
  rw [he]
  refine ⟨?_, ?_, ?_⟩
  · rw [Evaluation.context_enter]
    exact h.stored
  · rw [Evaluation.ledger_enter]
    exact h.tallied.begin
  · intro k hx
    have hx : k = r.key n ∨ k ∈ p.evaluation.active := by
      unfold Evaluation.enter at hx
      split at hx
      · exact .inr hx
      · rcases List.mem_append.mp hx with hx | hx
        · exact .inr hx
        · exact .inl (List.mem_singleton.mp hx)
    rcases hx with rfl | hx
    · exact ⟨i, List.mem_cons_self, n, hn, hk, (key_of_plain hm hn).symm⟩
    · exact h.engaged.cons k hx

theorem settled_abandon (hk : n.isKnowledge) (hval : r.value c w i = none) {e e' : Evaluation}
    (h : r.Settled c w R (i :: A) e) (hg : e.context.get? n.info.name = none)
    (hc : e'.context = e.context) (hl : e'.ledger = e.ledger) (ha : e'.active = e.active) :
    r.Settled c w (R ∪ {i}) A (e'.leave (r.key n)) := by
  apply settled_leave hm hn hk h e' _ _ _ hl ha
  · rw [hc]
    exact h.stored.frames
  · rw [hc, hval]
    exact hg
  · intro x _
    rw [hc]

theorem settled_give (hk : n.isKnowledge) {f : FunctionValue}
    (hval : r.value c w i = some (.function f)) {e : Evaluation}
    (h : r.Settled c w R (i :: A) e) :
    r.Settled c w (R ∪ {i}) A
      ((e.onContext (·.set n.info.name (.function f))).leave (r.key n)) := by
  have hset := Context.get?_set_of_root h.stored.frames n.info.name (.function f)
  apply settled_leave hm hn hk h (e.onContext (·.set n.info.name (.function f)))
    h.stored.frames _ _ rfl rfl
  · rw [Evaluation.context_onContext, hset, if_pos rfl, hval]
  · intro x hx
    rw [Evaluation.context_onContext, hset, if_neg hx]

theorem free_of_resolved (h : r.Settled c w R A p.evaluation)
    (hg : p.evaluation.context.get? n.info.name = none) {e : Evaluation}
    (hset : r.Settled c w
      (R ∪ r.spread c w (r.tried (r.value c w) n n.info.dependencies.toList)) (i :: A) e) :
    e.context.get? n.info.name = none := by
  obtain ⟨hc, hval⟩ := free_of_free hm hn h hg
  by_cases hi : i ∈ R
  · rw [hset.stored.settled i n hn (.inl hi), hval hi]
  · rw [hset.stored.get?_of_not_mem hm hn (not_mem_union_tried hm hn hi), hc]

theorem runKnowledge_settled (hh : r.Functional) {l : L} (hr : n.role = .knowledge (some l))
    (hv : ∀ j, r.model.Needs i j → r.Settles c w inner j)
    (hA : ∀ a ∈ A, TransGen r.model.Needs a i) (hcl : r.Closed c w R)
    (hg : p.evaluation.context.get? n.info.name = none)
    (h : r.Settled c w R A p.evaluation) :
    r.Settled c w (R ∪ r.spread c w [i]) A (r.runKnowledge inner n l p).evaluation := by
  have hk := Node.isKnowledge_of_role hr
  have hl : n.role.logic? = some l := by simp [hr, Role.logic?]
  obtain ⟨hc, -⟩ := free_of_free hm hn h hg
  have hA' : ∀ a ∈ i :: A, a = i ∨ TransGen r.model.Needs a i := by
    intro a ha
    exact (List.mem_cons.mp ha).imp_right (hA a)
  have hopen := settled_opening_knowledge hm hn hk h
  obtain ⟨hready, hset⟩ := resolve_settled hm hn hv hA' hcl
    (fun hd => absurd hd (Node.not_isDecision hk)) hopen
  have hfree := free_of_resolved hm hn h hg hset
  rw [union_spread hn hc (.inr ⟨l, hr⟩)]
  unfold runKnowledge
  dsimp only
  rw [← opening_of_knowledge hk r p, hready]
  cases hadm : r.admitsAll (r.value c w) n with
  | false =>
    have hval : r.value c w i = none := by
      rw [value_of_free hm hn hc, valueFrom, hl, hadm]
      rfl
    exact settled_abandon hm hn hk hval hset hfree rfl rfl rfl
  | true =>
    have hcall := yield_callLogic hm hn hh hl hc hadm
      (fun j hj => .inr ⟨j, mem_tried_of_admitsAll hn hadm hj, .refl⟩) hset
    have he : (r.callLogic n l (r.resolve inner n (r.opening n p)).2).2.evaluation =
        (r.resolve inner n (r.opening n p)).2.evaluation := hh.quiet _ _ _ _
    rw [← he] at hset hfree
    cases ha : (r.callLogic n l (r.resolve inner n (r.opening n p)).2).1 with
    | error e =>
      rw [ha, yield_error] at hcall
      exact settled_abandon hm hn hk hcall.symm hset hfree rfl rfl rfl
    | ok a =>
      rw [ha] at hcall
      cases a with
      | failure =>
        rw [yield_failure] at hcall
        exact settled_abandon hm hn hk hcall.symm hset hfree rfl rfl rfl
      | success v =>
        rw [hr] at hcall
        cases v with
        | function f => exact settled_give hm hn hk hcall.symm hset
        | _ => exact settled_abandon hm hn hk hcall.symm hset hfree rfl rfl rfl

theorem visitKnowledge_settled (hh : r.Functional) {logic : Option L}
    (hr : n.role = .knowledge logic)
    (hv : ∀ j, r.model.Needs i j → r.Settles c w inner j)
    (hA : ∀ a ∈ A, TransGen r.model.Needs a i) (hcl : r.Closed c w R)
    (h : r.Settled c w R A p.evaluation) :
    (r.visitKnowledge (some inner) n logic p).1 = .resolved ∧
      r.Settled c w (R ∪ r.spread c w [i]) A
        (r.visitKnowledge (some inner) n logic p).2.evaluation := by
  have hk := Node.isKnowledge_of_role hr
  have hnA : i ∉ A := fun hi => hm.acyclic i (hA i hi)
  have hact : p.evaluation.isActive (r.key n) = false := by
    rw [key_of_plain hm hn, Evaluation.isActive, ← Bool.not_eq_true, List.contains_iff_mem]
    intro hx
    -- An active one with this id would be in progress, and would need this one.
    obtain ⟨a, ha, m, hmn, hmk, hid⟩ := h.engaged _ hx
    exact hm.apart a i m n (hA a ha) hmn hn hmk hk hid
  cases hu : r.isDefined p.context n.info n.info with
  | true =>
    have hdef := isDefined_of_root (n := n) hm h.stored.frames hn
    rw [hu, Progress.context_eq] at hdef
    rw [visitKnowledge_of_defined hact hu]
    exact ⟨rfl, (h.add_bound hm hn hcl hnA hdef.symm).2⟩
  | false =>
    have hg := free_of_undefined hm h.stored.frames hn hu
    obtain ⟨hc, -⟩ := free_of_free hm hn h hg
    cases logic with
    | none =>
      have hval : r.value c w i = none := by
        rw [value_of_free hm hn hc, valueFrom, hr]
        rfl
      have hspread : r.spread c w [i] = {i} :=
        spread_of_opened_nil hn (by simp only [opened, hr])
      rw [visitKnowledge_of_missing hact hu, hspread]
      refine ⟨rfl, h.stored.add hm hn h.stored.frames (hg.trans hval.symm) fun _ _ => rfl, ?_,
        h.engaged⟩
      exact h.tallied.add hn fun hd => absurd hd (Node.not_isDecision hk)
    | some l =>
      rw [visitKnowledge_some hact hu]
      refine ⟨rfl, ?_⟩
      exact announced_rec (Q := fun _ e => r.Settled c w (R ∪ r.spread c w [i]) A e)
        (.knowledge .before n.info.subject) (fun _ => .knowledge .after n.info.subject)
        (fun q => (true, r.runKnowledge inner n l q))
        fun q hq => runKnowledge_settled hm hn hh hr hv hA hcl (hq ▸ hg) (hq ▸ h)

end node

/-- With room for whatever a node needs, a visit settles it. -/
theorem visit_settled (hm : r.model.Plain) (hh : r.Functional) {room : Nat}
    (hroom : r.model.rank i < room) : r.Settles c w (r.visit room) i := by
  induction room generalizing i with
  | zero => omega
  | succ room ih =>
    intro n R A p hn hcl hA h
    -- The rank falls along each dependency, so the room suffices all the way down.
    have hv : ∀ j, r.model.Needs i j → r.Settles c w (r.visit room) j := by
      intro j hj
      have hlt := Model.rank_lt_of_needs hm.acyclic hm.inRange hj
      exact ih (by omega)
    rw [visit_succ]
    unfold resolution
    cases hr : n.role with
    | decision type logic =>
      rw [visitNode_decision hr]
      exact visitDecision_settled hm hn hh hr hv hA hcl h
    | knowledge logic =>
      rw [visitNode_knowledge hr]
      exact visitKnowledge_settled hm hn hh hr hv hA hcl h
    | input type =>
      rw [visitNode_input hr]
      exact ⟨rfl, h.add_input hm hn hr⟩

theorem start_settled (hm : r.model.Plain) (hc : c.frames = []) :
    r.Settled c w ∅ [] (r.start c w).evaluation := by
  refine ⟨⟨hc, fun _ _ _ h => h.elim, fun _ _ => rfl⟩, ⟨r.model.indexed_freshLedger, ?_⟩, ?_⟩
  · intro i n hn hd
    obtain ⟨o, ho, hs, hr⟩ := Model.find?_freshLedger
      (Model.mem_localDecisions (Array.mem_of_getElem? hn) hd (hm.owns i n hn))
    exact ⟨o, ho, fun h => h.elim, fun _ => ⟨hr, fun _ => hs⟩⟩
  · intro k hk
    cases hk

def errandSpread (r : Request L σ) (c : Context) (w : σ) (es : List (Errand L)) : Set Nat :=
  {j | ∃ i n, r.model.node? i = some n ∧ .evaluate n ∈ es ∧ ReflTransGen (r.Opens c w) i j}

theorem errandSpread_evaluate (hm : r.model.Plain) (hn : r.model.node? i = some n)
    (es : List (Errand L)) : r.errandSpread c w (.evaluate n :: es) =
      r.spread c w [i] ∪ r.errandSpread c w es := by
  ext j
  constructor
  · rintro ⟨k, m, hk, hmem, hj⟩
    rcases List.mem_cons.mp hmem with he | hmem
    · obtain rfl := Errand.evaluate.inj he
      obtain rfl := hm.names k i m m hk hn rfl
      exact .inl ⟨k, List.mem_singleton_self k, hj⟩
    · exact .inr ⟨k, m, hk, hmem, hj⟩
  · rintro (⟨k, hk, hj⟩ | ⟨k, m, hk, hmem, hj⟩)
    · rw [List.mem_singleton.mp hk] at hj
      exact ⟨i, n, hn, List.mem_cons_self, hj⟩
    · exact ⟨k, m, hk, List.mem_cons_of_mem _ hmem, hj⟩

theorem errandSpread_miss (d : Diagnostic) (es : List (Errand L)) :
    r.errandSpread c w (.miss d :: es) = r.errandSpread c w es := by
  ext j
  simp [errandSpread]

/-- Errands settle the decisions that they are about, one after the other. -/
theorem serve_settled (hm : r.model.Plain) (hh : r.Functional)
    (hdepth : r.model.nodes.size ≤ r.maxDepth) {es : List (Errand L)}
    (hes : ∀ n, .evaluate n ∈ es → n ∈ r.model.localDecisions) (hcl : r.Closed c w R)
    (h : r.Settled c w R [] p.evaluation) :
    r.Settled c w (R ∪ r.errandSpread c w es) [] (es.foldl r.serve p).evaluation := by
  induction es generalizing R p with
  | nil =>
    have he : r.errandSpread c w [] = ∅ := by
      ext j
      simp [errandSpread]
    rw [he, Set.union_empty]
    exact h
  | cons e es ih =>
    have hes' : ∀ n, .evaluate n ∈ es → n ∈ r.model.localDecisions :=
      fun n hn => hes n (List.mem_cons_of_mem _ hn)
    cases e with
    | miss d =>
      rw [errandSpread_miss]
      exact ih (p := r.serve p (.miss d)) hes' hcl (h.of_eq rfl rfl rfl)
    | evaluate n =>
      have hmem := (List.mem_filter.mp (List.mem_filter.mp (hes n List.mem_cons_self)).1).1
      obtain ⟨i, hn⟩ := List.mem_iff_getElem?.mp hmem
      have hn : r.model.node? i = some n := by simpa [Model.node?] using hn
      have hrank := Model.rank_lt_size hm.acyclic (Model.lt_of_node? hn)
      obtain ⟨-, hset⟩ := visit_settled hm hh (c := c) (w := w)
        (show r.model.rank i < r.maxDepth by omega) n R [] p hn hcl (fun a ha => by cases ha) h
      rw [errandSpread_evaluate hm hn, ← Set.union_assoc]
      exact ih (p := r.serve p (.evaluate n)) hes' (hcl.union [i]) hset

/-- A request settles exactly what it reaches. -/
theorem run_settled (hm : r.model.Plain) (hh : r.Functional)
    (hdepth : r.model.nodes.size ≤ r.maxDepth) (hc : c.frames = []) (s : Selection) (w : σ) :
    r.Settled c w {j | r.Reached s c w j} [] (r.run s c w).evaluation := by
  have hreach : {j | r.Reached s c w j} = ∅ ∪ r.errandSpread c w (r.model.errands s) := by
    ext j
    constructor
    · rintro ⟨i, ⟨n, hn, he⟩, hj⟩
      exact .inr ⟨i, n, hn, he, hj⟩
    · rintro (h | ⟨i, n, hn, he, hj⟩)
      · exact h.elim
      · exact ⟨i, ⟨n, hn, he⟩, hj⟩
  rw [run_eq, hreach]
  exact serve_settled hm hh hdepth (fun n hn => Model.mem_localDecisions_of_mem_errands hn)
    (fun i hi => hi.elim) (start_settled hm hc)

/-- Memoised evaluation is plain recursion. A request binds every node that it reaches to the
node's value and leaves all other names as the input has them; the ledger has the verdict on each
decision that is reached. In all of this only the set of the requested decisions counts. -/
theorem memoised_evaluation (hb : r.model.Built) (hown : ∀ n ∈ r.model.nodes, r.model.owns n)
    (hids : (r.model.decisions.map fun n => n.info.id).Nodup) (hac : r.model.Acyclic)
    (hap : r.model.KnowledgeApart) (hdepth : r.model.nodes.size ≤ r.maxDepth)
    (hh : r.Functional) (hc : c.frames = []) (s : Selection) (w : σ) :
    (∀ i n, r.model.node? i = some n → r.Reached s c w i →
      (r.run s c w).context.get? n.info.name = r.value c w i) ∧
    (∀ x, (∀ i n, r.model.node? i = some n → r.Reached s c w i → n.info.name ≠ x) →
      (r.run s c w).context.get? x = c.get? x) ∧
    (∀ i n, r.model.node? i = some n → n.isDecision →
      ∃ o, (r.run s c w).ledger.find? n.info.id = some o ∧
        (r.Reached s c w i → o.status = r.verdict c w i n ∧ o.result = r.resultOf c w i n) ∧
        (¬r.Reached s c w i → o.status = .notEvaluated ∧ o.result = none)) ∧
    (∀ s', (∀ i, r.Requested s i ↔ r.Requested s' i) →
      (∀ x, (r.run s c w).context.get? x = (r.run s' c w).context.get? x) ∧
      ∀ n ∈ r.model.decisions, ∃ o o', (r.run s c w).ledger.find? n.info.id = some o ∧
        (r.run s' c w).ledger.find? n.info.id = some o' ∧ o.status = o'.status ∧
        o.result = o'.result) := by
  have hm := hb.plain hown hids hac hap
  have h (s : Selection) := run_settled hm hh hdepth hc s w
  refine ⟨(h s).stored.settled, (h s).stored.others, ?_, fun s' hss => ?_⟩
  · intro i n hn hd
    obtain ⟨o, ho, hin, hout⟩ := (h s).tallied.outcomes i n hn hd
    exact ⟨o, ho, hin, fun hi => ⟨(hout hi).2 List.not_mem_nil, (hout hi).1⟩⟩
  · have hreach : {j | r.Reached s c w j} = {j | r.Reached s' c w j} := by
      ext j
      exact exists_congr fun i => and_congr_left' (hss i)
    have h' := h s'
    rw [← hreach] at h'
    refine ⟨(h s).stored.get?_eq h'.stored, fun n hn => ?_⟩
    obtain ⟨hmem, hd⟩ := List.mem_filter.mp hn
    obtain ⟨i, hi⟩ := List.mem_iff_getElem?.mp hmem
    have hi : r.model.node? i = some n := by simpa [Model.node?] using hi
    exact (h s).tallied.outcome_eq h'.tallied hi hd

/-- The total of the prices is found as it is by plain recursion. -/
theorem memoised_evaluation_prices :
    (Formula.pricesRequest.run .all Formula.pricesInput ()).context.get? "total" =
      Formula.pricesRequest.value Formula.pricesInput () 2 ∧
    Formula.pricesRequest.value Formula.pricesInput () 2 = some (.boolean true) := by
  have hmem : .evaluate Formula.total ∈ Formula.prices.errands .all :=
    List.mem_map_of_mem (List.mem_cons_of_mem _ List.mem_cons_self)
  have hreached : Formula.pricesRequest.Reached .all Formula.pricesInput () 2 :=
    ⟨2, ⟨Formula.total, rfl, hmem⟩, .refl⟩
  have hapart : Formula.prices.KnowledgeApart := by
    intro i j n k _ hn _ hnk _
    have hlt : i < 3 := Model.lt_of_node? hn
    match i, hlt with
    | 0, _ =>
      obtain rfl := Option.some.inj hn
      cases hnk
    | 1, _ =>
      obtain rfl := Option.some.inj hn
      cases hnk
    | 2, _ =>
      obtain rfl := Option.some.inj hn
      cases hnk
  obtain ⟨hsettled, -⟩ := memoised_evaluation (r := Formula.pricesRequest)
    (c := Formula.pricesInput) Formula.prices_built (by decide) (by decide)
    (Model.acyclic_of_order id (by decide)) hapart (by decide) Formula.pricesRequest_functional rfl
    .all ()
  exact ⟨hsettled 2 Formula.total rfl hreached, rfl⟩

end Request

namespace Formula

theorem shared_built : shared.Built := by
  let b : Builder Formula := ((((Builder.new "urn:shared" "shared").addNode "1" "inner"
    (.knowledge (some (function "inner")))).2.addNode "2" "outer"
    (.knowledge (some (function "outer")))).2.addNode "3" "asks"
    (.decision any (some (defined "outer")))).2
  have hb : b.Made := .addNode _ _ _ (.addNode _ _ _ (.addNode _ _ _ (.new _ _)))
  have hsteps : ∃ b₁ b₂ b₃, b.setNodeId 1 "1" = .ok b₁ ∧ b₁.dependsOn 1 0 = .ok b₂ ∧
      b₂.dependsOn 2 1 = .ok b₃ ∧ Builder.firstRepeated? [] b₃.ownNodeNames = none ∧
      shared = ⟨b₃.id.getD "shared", b₃.ns, b₃.name, b₃.typeCheck,
        (b₃.nodes.toList.map b₃.withImports).toArray, b₃.imports⟩ :=
    ⟨_, _, _, rfl, rfl, rfl, rfl, rfl⟩
  obtain ⟨b₁, b₂, b₃, h₁, h₂, h₃, hnames, hm⟩ := hsteps
  refine ⟨b₃, "shared", ((hb.setNodeId h₁).dependsOn h₂).dependsOn h₃, ?_⟩
  rw [hm]
  exact Builder.build_eq hnames "shared"

end Formula

namespace Request

/-- That functions which need each other have ids of their own cannot be left out. -/
theorem memoised_evaluation_shared :
    Formula.shared.Built ∧ (∀ n ∈ Formula.shared.nodes, Formula.shared.owns n) ∧
    (Formula.shared.decisions.map fun n => n.info.id).Nodup ∧ Formula.shared.Acyclic ∧
    Formula.shared.nodes.size ≤ Formula.sharedRequest.maxDepth ∧
    Formula.sharedRequest.Functional ∧ Formula.sharedRequest.Reached .all .empty () 2 ∧
    (Formula.sharedRequest.run .all .empty ()).context.get? "asks" ≠
      Formula.sharedRequest.value .empty () 2 := by
  have hmem : .evaluate Formula.asks ∈ Formula.shared.errands .all :=
    List.mem_map_of_mem List.mem_cons_self
  have hrun : (Formula.sharedRequest.run .all .empty ()).context.get? "asks" =
      some (.boolean false) := rfl
  have hvalue : Formula.sharedRequest.value .empty () 2 = some (.boolean true) := rfl
  refine ⟨Formula.shared_built, by decide, by decide, Model.acyclic_of_order id (by decide),
    by decide, Formula.sharedRequest_functional, ⟨2, ⟨Formula.asks, rfl, hmem⟩, .refl⟩, ?_⟩
  rw [hrun, hvalue]
  simp

end Request

end DecisionGraph
