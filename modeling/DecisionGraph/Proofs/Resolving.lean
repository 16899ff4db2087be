import DecisionGraph.Proofs.Settling

namespace DecisionGraph

variable {L σ : Type}

open Relation (TransGen)

namespace Request

variable {r : Request L σ} {c : Context} {w : σ} {R : Set Nat} {A : List Nat} {i j : Nat}
  {n d : Node L} {p : Progress σ}

section root

variable (hm : r.model.Plain) (hf : p.context.frames = []) (hd : r.model.node? j = some d)

include hm hf hd

theorem isDefined_of_root : r.isDefined p.context n.info d.info =
    (p.context.get? d.info.name).isSome := by
  have hs : d.info.ns = r.model.scopeNs p.context :=
    (hm.owns j d hd).trans (Model.scopeNs_of_root hf).symm
  exact isDefined_of_here hs

theorem free_of_undefined (hu : r.isDefined p.context n.info d.info = false) :
    p.evaluation.context.get? d.info.name = none := by
  have hdef := isDefined_of_root (n := n) hm hf hd
  rw [hu, Progress.context_eq] at hdef
  exact Option.isNone_iff_eq_none.mp (Option.isSome_eq_false_iff.mp hdef.symm)

theorem passage_of_root : r.model.passage p.context n.info d.info = .here :=
  Model.passage_eq_here.mpr ((hm.owns j d hd).trans (Model.scopeNs_of_root hf).symm)

theorem found_of_root : r.found n d p = (p.context.get? d.info.name).getD .null := by
  have hs : d.info.ns = r.model.scopeNs p.context :=
    (hm.owns j d hd).trans (Model.scopeNs_of_root hf).symm
  rw [found, Model.visible?_of_here hs]

omit hf in
theorem key_of_plain : r.key d = d.info.id := Model.key_of_owned (hm.owns j d hd)

end root

def resolution (r : Request L σ) (c : Context) (w : σ) (i : Nat) (n : Node L) : Resolution :=
  match n.role with
  | .decision .. => .ofDecision (r.value c w i).isSome
  | .knowledge _ => .resolved
  | .input _ => .notFound

/-- A dependency counts as provided: a decision and an input if they have a value. -/
def provides (r : Request L σ) (c : Context) (w : σ) (i : Nat) (n : Node L) : Bool :=
  n.isKnowledge || (r.value c w i).isSome

def misfits (r : Request L σ) (c : Context) (w : σ) (i : Nat) (n : Node L) : Bool :=
  match n.role with
  | .input type => r.typeCheck && type.refuses ((r.value c w i).getD .null)
  | _ => false

/-- Visits of the node settle it and whatever it leads to. -/
def Settles (r : Request L σ) (c : Context) (w : σ) (visit : Visit L σ) (i : Nat) : Prop :=
  ∀ n R A p, r.model.node? i = some n → r.Closed c w R → (∀ a ∈ A, TransGen r.model.Needs a i) →
    r.Settled c w R A p.evaluation →
    (visit n p).1 = r.resolution c w i n ∧
      r.Settled c w (R ∪ r.spread c w [i]) A (visit n p).2.evaluation

section dependency

variable (hm : r.model.Plain) (hn : r.model.node? i = some n) (hd : r.model.node? j = some d)
  (hi : n.isDecision → i ∉ R ∧ i ∈ A)

include hm hn hi

theorem settled_reportUnresolved (h : r.Settled c w R A p.evaluation) (source : String)
    (g : Diagnostic) :
    r.Settled c w R A (r.reportUnresolved n name source g p).evaluation := by
  unfold reportUnresolved
  cases hx : n.isDecision with
  | false => exact h.of_eq rfl rfl rfl
  | true =>
    obtain ⟨hR, hA⟩ := hi hx
    refine ⟨h.stored, ?_, h.engaged⟩
    have ht := h.tallied.mark hm hn hx hR hA (f := fun o => o.reportFailure
      (.of .error g (some source) none) .skipped) (fun _ => rfl) fun _ => rfl
    rw [← key_of_plain hm hn] at ht
    exact ht

include hd

theorem checkInput_settled (name : String) (h : r.Settled c w R A p.evaluation) :
    (r.checkInput n d name p).1 = !r.misfits c w j d ∧
      r.Settled c w R A (r.checkInput n d name p).2.evaluation := by
  by_cases hx : r.typeCheck = true ∧ ∃ type, d.role = .input type
  · obtain ⟨ht, type, hr⟩ := hx
    have hv : r.found n d p = (r.value c w j).getD .null := by
      rw [found_of_root hm h.stored.frames hd, Progress.context_eq, h.stored.get?_input hm hd hr]
    have hmis : r.misfits c w j d = type.refuses (r.found n d p) := by
      simp [misfits, hr, ht, hv]
    rw [checkInput_of_input ht hr, hmis, DeclaredType.refuses]
    cases type.check (r.found n d p) with
    | error e => exact ⟨rfl, h.of_eq rfl rfl rfl⟩
    | ok fits =>
      cases fits with
      | true => exact ⟨rfl, h⟩
      | false => exact ⟨rfl, settled_reportUnresolved hm hn hi (p := r.watch _ p) h _ _⟩
  · have hmis : r.misfits c w j d = false := by
      unfold misfits
      split
      next type hr => simpa using fun ht => absurd ⟨ht, type, hr⟩ hx
      next => rfl
    rw [checkInput_of_not hx, hmis]
    exact ⟨rfl, h⟩

omit hm hn hi in
theorem admits_eq : r.admits (r.value c w) j = (!r.misfits c w j d && r.provides c w j d) := by
  unfold admits misfits provides
  rw [hd]
  dsimp only
  cases hr : d.role with
  | decision type logic => simp [Node.isKnowledge, hr]
  | knowledge logic => simp [Node.isKnowledge, hr]
  | input type =>
    cases r.value c w j with
    | none => simp [Node.isKnowledge, hr]
    | some v => simp [Node.isKnowledge, hr]

variable {inner : Visit L σ} (hv : r.Settles c w inner j) (hcl : r.Closed c w R)
  (hA : ∀ a ∈ A, TransGen r.model.Needs a j)
  (hi' : n.isDecision → i ∉ R ∪ r.spread c w [j] ∧ i ∈ A)

include hv hcl hA hi'

omit hi in
theorem provide_settled (name : String) (h : r.Settled c w R A p.evaluation) :
    (r.provide inner n d name p).1 = r.provides c w j d ∧
      r.Settled c w (R ∪ r.spread c w [j]) A (r.provide inner n d name p).2.evaluation := by
  have hju : j ∉ A := fun hj => hm.acyclic j (hA j hj)
  cases hu : r.isDefined p.context n.info d.info with
  | true =>
    have hdef := isDefined_of_root (n := n) hm h.stored.frames hd
    rw [hu, Progress.context_eq] at hdef
    obtain ⟨hval, hset⟩ := h.add_bound hm hd hcl hju hdef.symm
    rw [provide_of_defined hu]
    exact ⟨by simp [provides, hval], hset⟩
  | false =>
    have hw := passage_of_root (n := n) hm h.stored.frames hd
    obtain ⟨hres, hset⟩ := hv d R A p hd hcl hA h
    rw [provide_of_open hu (by rw [hw]; simp), hw, descend_here]
    unfold settle
    rw [hres]
    unfold resolution
    cases hr : d.role with
    | knowledge logic => exact ⟨by simp [provides, Node.isKnowledge, hr, complaint], hset⟩
    | decision type logic =>
      cases hval : (r.value c w j).isSome with
      | true =>
        simp only [Resolution.ofDecision, complaint, if_true]
        exact ⟨by simp [provides, hval], hset⟩
      | false =>
        simp only [Resolution.ofDecision, complaint, Bool.false_eq_true, if_false]
        refine ⟨by simp [provides, hval, Node.isKnowledge, hr], ?_⟩
        exact settled_reportUnresolved hm hn hi' hset _ _
    | input type =>
      have hval : r.value c w j = none := by
        rw [← h.stored.get?_input hm hd hr]
        exact free_of_undefined hm h.stored.frames hd hu
      refine ⟨by simp [provides, hval, Node.isKnowledge, hr, complaint], ?_⟩
      exact settled_reportUnresolved hm hn hi' hset _ _

theorem resolveOne_settled (name : String) (h : r.Settled c w R A p.evaluation) :
    (r.resolveOne inner n name j p).1 = r.admits (r.value c w) j ∧
      r.Settled c w (R ∪ r.spread c w [j]) A (r.resolveOne inner n name j p).2.evaluation := by
  obtain ⟨hfit, hset⟩ := checkInput_settled hm hn hd hi name h
  obtain ⟨hprov, hset'⟩ := provide_settled hm hn hd hv hcl hA hi' name hset
  rw [resolveOne_of_some hd, admits_eq hd, hprov, hfit]
  cases hmis : r.misfits c w j d with
  | false => exact ⟨rfl, hset'⟩
  | true =>
    cases hk : n.isKnowledge with
    | false => exact ⟨rfl, hset'⟩
    | true =>
      have hr : ∃ type, d.role = .input type := by
        unfold misfits at hmis
        split at hmis
        next type hr => exact ⟨type, hr⟩
        next => cases hmis
      obtain ⟨type, hr⟩ := hr
      exact ⟨rfl, hset.add_input hm hd hr⟩

end dependency

section node

variable (hm : r.model.Plain) (hn : r.model.node? i = some n) {inner : Visit L σ}

include hm hn

/-- Resolving dependencies settles those that are tried, and fails at one that does not admit. -/
theorem resolveList_settled {deps : List (String × Nat)}
    (hdeps : ∀ e ∈ deps, e ∈ n.info.dependencies.toList)
    (hv : ∀ e ∈ deps, r.Settles c w inner e.2)
    (hA : ∀ e ∈ deps, ∀ a ∈ A, TransGen r.model.Needs a e.2) (hcl : r.Closed c w R)
    (hi : n.isDecision → i ∉ R ∧ i ∈ A) (h : r.Settled c w R A p.evaluation) :
    (r.resolveList inner n deps p).1 = (deps.all fun e => r.admits (r.value c w) e.2) ∧
      r.Settled c w (R ∪ r.spread c w (r.tried (r.value c w) n deps)) A
        (r.resolveList inner n deps p).2.evaluation := by
  induction deps generalizing R p with
  | nil =>
    rw [tried, spread_nil, Set.union_empty]
    exact ⟨rfl, h⟩
  | cons e deps ih =>
    obtain ⟨name, j⟩ := e
    have hneeds : r.model.Needs i j := ⟨n, hn, name, hdeps _ List.mem_cons_self⟩
    obtain ⟨d, hd⟩ := Model.node?_of_lt (hneeds.lt_of_inRange hm.inRange)
    have hi' : n.isDecision → i ∉ R ∪ r.spread c w [j] ∧ i ∈ A := by
      intro hx
      refine ⟨?_, (hi hx).2⟩
      rintro (hR | hs)
      · exact (hi hx).1 hR
      · exact not_mem_spread hm.acyclic (by simpa using hneeds) hs
    obtain ⟨hone, hset⟩ := resolveOne_settled hm hn hd hi
      (hv _ List.mem_cons_self) hcl (hA _ List.mem_cons_self) hi' name h
    obtain ⟨hrest, hset'⟩ := ih (fun e he => hdeps e (List.mem_cons_of_mem _ he))
      (fun e he => hv e (List.mem_cons_of_mem _ he))
      (fun e he => hA e (List.mem_cons_of_mem _ he)) (hcl.union [j]) hi' hset
    rw [resolveList_cons, hone, tried, List.all_cons]
    dsimp only
    -- Recursion tries the rest in the same cases as the walk does.
    cases hx : !r.admits (r.value c w) j && n.isKnowledge with
    | true =>
      have hadm : r.admits (r.value c w) j = false := by simpa using (Bool.and_eq_true_iff.mp hx).1
      simp only [if_true, hadm, Bool.false_and, true_and]
      exact hset
    | false =>
      simp only [Bool.false_eq_true, if_false]
      rw [hrest, spread_cons, ← Set.union_assoc]
      exact ⟨rfl, hset'⟩

theorem resolve_settled (hv : ∀ j, r.model.Needs i j → r.Settles c w inner j)
    (hA : ∀ a ∈ A, a = i ∨ TransGen r.model.Needs a i) (hcl : r.Closed c w R)
    (hi : n.isDecision → i ∉ R ∧ i ∈ A) (h : r.Settled c w R A p.evaluation) :
    (r.resolve inner n p).1 = r.admitsAll (r.value c w) n ∧
      r.Settled c w (R ∪ r.spread c w (r.tried (r.value c w) n n.info.dependencies.toList)) A
        (r.resolve inner n p).2.evaluation := by
  have hneeds : ∀ e ∈ n.info.dependencies.toList, r.model.Needs i e.2 :=
    fun e he => ⟨n, hn, e.1, he⟩
  refine resolveList_settled hm hn (fun _ he => he) (fun e he => hv _ (hneeds e he)) ?_ hcl hi h
  intro e he a ha
  rcases hA a ha with rfl | ha
  · exact .single (hneeds e he)
  · exact ha.tail (hneeds e he)

end node

end Request

end DecisionGraph
