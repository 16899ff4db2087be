import DecisionGraph.Proofs.Mirror

namespace DecisionGraph

variable {L σ : Type}

namespace Request

/-- The same comes out on both sides, and the one progress mirrors the other. -/
def Alike (r : Request L σ) (m : Importer L) (S : Finset Nat) {α : Type}
    (x y : α × Progress (σ × List (Sighting L))) : Prop :=
  y.1 = x.1 ∧ r.Mirrors m S x.2 y.2

variable {r : Request L σ} {m : Importer L} {S : Finset Nat}
  {p q : Progress (σ × List (Sighting L))} {n d : Node L} {i : Nat} {name : String}

theorem Mirrors.found (h : r.Mirrors m S p q) (n d : Node L) :
    (r.via m).recording.found (m.shift n) (m.shift d) q = r.recording.found n d p := by
  have hv : m.model.visible? q.context (m.shift n).info (m.shift d).info =
      r.model.visible? p.context n.info d.info := h.context.visible? n.info d.info
  exact congrArg (Option.getD · .null) hv

theorem Mirrors.isDefined (h : r.Mirrors m S p q) (n d : Node L) :
    (r.via m).recording.isDefined q.context (m.shift n).info (m.shift d).info =
      r.recording.isDefined p.context n.info d.info := by
  have hv : m.model.visible? q.context (m.shift n).info (m.shift d).info =
      r.model.visible? p.context n.info d.info := h.context.visible? n.info d.info
  have hs : m.model.scopeNs q.context = r.model.scopeNs p.context := h.context.scopeNs
  show (if d.info.ns ≠ m.model.scopeNs q.context ∧ r.importLookup = .alwaysDescend then false
    else (m.model.visible? q.context (m.shift n).info (m.shift d).info).isSome) = _
  rw [hv, hs]
  rfl

theorem Mirrors.passage (h : r.Mirrors m S p q) (n d : Node L) :
    (r.via m).recording.model.passage q.context (m.shift n).info (m.shift d).info =
      r.recording.model.passage p.context n.info d.info :=
  h.context.passage n.info d.info

theorem complaint_shift (n d : Node L) (x : Resolution) :
    complaint (m.shift n).info (m.shift d).info x = complaint n.info d.info x := by
  cases x <;> rfl

section owner

variable (hc : m.Copies r.model) (hiS : i ∈ S) (hi : r.model.node? i = some n)

include hc hiS hi

theorem checkInput_alike (h : r.Mirrors m S p q) (d : Node L) (name : String) :
    r.Alike m S (r.recording.checkInput n d name p)
      ((r.via m).recording.checkInput (m.shift n) (m.shift d) name q) := by
  by_cases hx : r.typeCheck = true ∧ ∃ type, d.role = .input type
  · obtain ⟨ht, type, hr⟩ := hx
    have hw := h.watch (.examined n d (r.recording.found n d p))
    rw [checkInput_of_input (r := r.recording) ht hr,
      checkInput_of_input (r := (r.via m).recording) (d := m.shift d) ht hr, h.found]
    cases type.check (r.recording.found n d p) with
    | error e => exact ⟨rfl, hw.report _⟩
    | ok fits =>
      cases fits with
      | true => exact ⟨rfl, hw⟩
      | false => exact ⟨rfl, hw.reportUnresolved hc hiS hi name _ _⟩
  · rw [checkInput_of_not (r := r.recording) hx,
      checkInput_of_not (r := (r.via m).recording) (d := m.shift d) hx]
    exact ⟨rfl, h⟩

theorem settle_alike {x y : Resolution × Progress (σ × List (Sighting L))} (h : r.Alike m S x y)
    (d : Node L) (name : String) :
    r.Alike m S (r.recording.settle n d name x)
      ((r.via m).recording.settle (m.shift n) (m.shift d) name y) := by
  obtain ⟨hxy, h⟩ := h
  unfold settle
  rw [hxy, complaint_shift]
  cases complaint n.info d.info x.1 with
  | none => exact ⟨rfl, h⟩
  | some g => exact ⟨rfl, h.reportUnresolved hc hiS hi name _ g⟩

section inner

variable {inner inner' : Visit L (σ × List (Sighting L))}
  (hv : ∀ j d p q, r.model.node? j = some d → r.Mirrors m S p q →
    r.Alike m S (inner d p) (inner' (m.shift d) q))
  {j : Nat} (hj : r.model.node? j = some d)

include hv hj

omit hc hiS hi in
theorem descend_alike (h : r.Mirrors m S p q) (way : Passage) :
    r.Alike m S (descend inner d way p) (descend inner' (m.shift d) way q) := by
  cases way with
  | here => exact hv j d p q hj h
  | closed => exact hv j d p q hj h
  | through a =>
    obtain ⟨hres, hin⟩ := hv j d _ _ hj (h.push ⟨a, d.info.ns⟩)
    rw [descend_through, descend_through, h.context.depth]
    exact ⟨hres, hin.closeTo p.context.depth⟩

theorem provide_alike (h : r.Mirrors m S p q) (name : String) :
    r.Alike m S (r.recording.provide inner n d name p)
      ((r.via m).recording.provide inner' (m.shift n) (m.shift d) name q) := by
  have hu := h.isDefined n d
  have hw := h.passage n d
  cases hdef : r.recording.isDefined p.context n.info d.info with
  | true =>
    rw [provide_of_defined hdef, provide_of_defined (hu.trans hdef)]
    exact ⟨rfl, h⟩
  | false =>
    by_cases hclosed : r.recording.model.passage p.context n.info d.info = .closed
    · rw [provide_of_closed hdef hclosed,
        provide_of_closed (hu.trans hdef) (hw.trans hclosed)]
      exact ⟨rfl, h.reportUnresolved hc hiS hi name _ _⟩
    · rw [provide_of_open hdef hclosed, provide_of_open (hu.trans hdef) (by rwa [hw]), hw]
      exact settle_alike hc hiS hi (descend_alike hv hj h _) d name

theorem resolveOne_alike (h : r.Mirrors m S p q) (name : String) :
    r.Alike m S (r.recording.resolveOne inner n name j p)
      ((r.via m).recording.resolveOne inner' (m.shift n) name (j + m.offset) q) := by
  obtain ⟨hfits, hcheck⟩ := checkInput_alike hc hiS hi h d name
  obtain ⟨hok, hprov⟩ := provide_alike hc hiS hi hv hj hcheck name
  have hkn : (m.shift n).isKnowledge = n.isKnowledge := rfl
  rw [resolveOne_of_some (r := r.recording) hj,
    resolveOne_of_some (r := (r.via m).recording) (hc.copied j d hj), hfits, hok, hkn]
  split
  · exact ⟨rfl, hcheck⟩
  · exact ⟨rfl, hprov⟩

omit hj

theorem resolveList_alike {deps : List (String × Nat)}
    (hdeps : ∀ e ∈ deps, ∃ d, r.model.node? e.2 = some d) (h : r.Mirrors m S p q) :
    r.Alike m S (r.recording.resolveList inner n deps p)
      ((r.via m).recording.resolveList inner' (m.shift n)
        (deps.map fun e => (e.1, e.2 + m.offset)) q) := by
  induction deps generalizing p q with
  | nil => exact ⟨rfl, h⟩
  | cons e deps ih =>
    obtain ⟨name, j⟩ := e
    obtain ⟨d, hj⟩ := hdeps _ List.mem_cons_self
    obtain ⟨hok, hone⟩ := resolveOne_alike hc hiS hi hv hj h name
    obtain ⟨hall, hrest⟩ := ih (fun e he => hdeps e (List.mem_cons_of_mem _ he)) hone
    have hkn : (m.shift n).isKnowledge = n.isKnowledge := rfl
    rw [List.map_cons, resolveList_cons, resolveList_cons, hok, hall, hkn]
    split
    · exact ⟨rfl, hone⟩
    · exact ⟨rfl, hrest⟩

theorem resolve_alike (h : r.Mirrors m S p q) :
    r.Alike m S (r.recording.resolve inner n p)
      ((r.via m).recording.resolve inner' (m.shift n) q) := by
  have hdeps : ∀ e ∈ n.info.dependencies.toList, ∃ d, r.model.node? e.2 = some d :=
    fun e he => Model.node?_of_lt (hc.inRange n (Array.mem_of_getElem? hi) e he)
  have htoList : (m.shift n).info.dependencies.toList =
      n.info.dependencies.toList.map fun e => (e.1, e.2 + m.offset) := Bindings.toList_map ..
  unfold resolve
  rw [htoList]
  exact resolveList_alike hc hiS hi hv hdeps h

end inner

end owner

section decision

variable {type : DeclaredType} {inner inner' : Visit L (σ × List (Sighting L))}

theorem bindResult_alike (hc : m.Copies r.model) (hn : n ∈ r.model.nodes)
    (hfree : ∀ j ∈ S, ∀ k, r.model.node? j = some k → k.isDecision → r.key n ≠ r.key k)
    (hs : p.ledger.status (r.key n) ≠ .notEvaluated) (h : r.Mirrors m (insert i S) p q)
    (v : Value) :
    r.Alike m S (r.recording.bindResult n type v p)
      ((r.via m).recording.bindResult (m.shift n) type v q) := by
  have hS : S ⊆ insert i S := Finset.subset_insert i S
  have hsame : (r.via m).recording.objection? (m.shift n) type v = r.objection? n type v := rfl
  have hsame' : r.recording.objection? n type v = r.objection? n type v := rfl
  rw [bindResult_eq, bindResult_eq, hsame, hsame']
  cases r.objection? n type v with
  | none => exact ⟨rfl, (h.succeed hc hn hs _ hS hfree).watch (.bound n)⟩
  | some g => exact ⟨rfl, h.lose hc hn hs (some g) (s := .failed) hS rfl⟩

/-- The evaluation of a decision runs alike, if no node that stays in progress has its key. -/
theorem runDecision_alike (hc : m.Copies r.model) (hl : r.host.Local)
    (hi : r.model.node? i = some n) {logic : Option L} (hr : n.role = .decision type logic)
    (hfree : ∀ j ∈ S, ∀ k, r.model.node? j = some k → k.isDecision → r.key n ≠ r.key k)
    (hv : ∀ j d p q, r.model.node? j = some d → r.Mirrors m (insert i S) p q →
      r.Alike m (insert i S) (inner d p) (inner' (m.shift d) q))
    (h : r.Mirrors m (insert i S) p q) :
    r.Alike m S (r.recording.runDecision inner n type logic p)
      ((r.via m).recording.runDecision inner' (m.shift n) type logic q) := by
  have hn := Node.isDecision_of_role hr
  have hmem : n ∈ r.model.nodes := Array.mem_of_getElem? hi
  have hS : S ⊆ insert i S := Finset.subset_insert i S
  have hiS : i ∈ insert i S := Finset.mem_insert_self i S
  obtain ⟨hready, hres⟩ := resolve_alike hc hiS hi hv h
  have hs := hres.evaluated_of_holds hiS hi hn
  unfold runDecision
  dsimp only
  rw [hready]
  split
  · exact ⟨rfl, hres.lose hc hmem hs none hS rfl⟩
  · cases logic with
    | none => exact ⟨rfl, hres.lose hc hmem hs (some _) hS rfl⟩
    | some logic =>
      obtain ⟨hanswer, hcall⟩ := hres.callLogic hl (n := n) logic
      have hs' := hcall.evaluated_of_holds hiS hi hn
      dsimp only
      rw [hanswer]
      split
      · exact bindResult_alike hc hmem hfree hs' hcall _
      · exact ⟨rfl, hcall.lose hc hmem hs' none hS rfl⟩
      · exact ⟨rfl, hcall.lose hc hmem hs' (some _) hS rfl⟩

end decision

section visits

theorem announced_alike {T : Finset Nat} {before before' : Event} {after after' : Ledger → Event}
    {run run' : Progress (σ × List (Sighting L)) → Bool × Progress (σ × List (Sighting L))}
    (hrun : ∀ p q, r.Mirrors m T p q → r.Alike m S (run p) (run' q)) (h : r.Mirrors m T p q) :
    r.Alike m S (r.recording.announced before after run p)
      ((r.via m).recording.announced before' after' run' q) := by
  obtain ⟨p', hpe, hpr, hok, he, hrec⟩ := announced_record r p before after run
  obtain ⟨q', hqe, hqr, hok', he', hrec'⟩ := announced_record (r.via m) q before' after' run'
  obtain ⟨hres, hend⟩ := hrun p' q' (h.of_eq hpe hpr hqe hqr)
  exact ⟨hok'.trans (hres.trans hok.symm), hend.of_eq he hrec he' hrec'⟩

variable {inner inner' : Visit L (σ × List (Sighting L))}

theorem runKnowledge_mirrors (hc : m.Copies r.model) (hl : r.host.Local)
    (hi : r.model.node? i = some n) {logic : L} (hn : n.isKnowledge)
    (hfree : ∀ j ∈ S, ∀ k, r.model.node? j = some k → k.isKnowledge → r.key n ≠ r.key k)
    (hv : ∀ j d p q, r.model.node? j = some d → r.Mirrors m (insert i S) p q →
      r.Alike m (insert i S) (inner d p) (inner' (m.shift d) q))
    (h : r.Mirrors m S p q) :
    r.Mirrors m S (r.recording.runKnowledge inner n logic p)
      ((r.via m).recording.runKnowledge inner' (m.shift n) logic q) := by
  have hmem : n ∈ r.model.nodes := Array.mem_of_getElem? hi
  have hiS : i ∈ insert i S := Finset.mem_insert_self i S
  have hend {p q : Progress (σ × List (Sighting L))} (h : r.Mirrors m (insert i S) p q) :
      r.Mirrors m S (r.recording.watch (.left n) (p.update (·.leave (r.key n))))
        ((r.via m).recording.watch (.left (m.shift n))
          (q.update (·.leave (m.model.key n.info)))) :=
    (h.leave hc hmem (Finset.subset_insert i S) hfree).watch (.left n)
  obtain ⟨hready, hres⟩ := resolve_alike hc hiS hi hv (h.opening_knowledge hc hi hn)
  unfold runKnowledge
  dsimp only
  rw [← opening_of_knowledge hn r.recording, ← opening_of_knowledge (n := m.shift n) hn, hready]
  split
  · exact hend hres
  · obtain ⟨hanswer, hcall⟩ := hres.callLogic hl (n := n) logic
    rw [hanswer]
    split
    · exact hend ((hcall.set n.info.name _).watch (.bound n))
    · exact hend (hcall.report _)
    · exact hend hcall
    · exact hend (hcall.report _)

section node

variable {inner inner' : Option (Visit L (σ × List (Sighting L)))} (hc : m.Copies r.model)
  (hl : r.host.Local) (hi : r.model.node? i = some n)
  (hinner : i ∉ S → ∃ v v', inner = some v ∧ inner' = some v' ∧
    ∀ j d p q, r.model.node? j = some d → r.Mirrors m (insert i S) p q →
      r.Alike m (insert i S) (v d p) (v' (m.shift d) q))

include hc hl hi hinner

theorem visitDecision_alike {type : DeclaredType} {logic : Option L}
    (hr : n.role = .decision type logic) (h : r.Mirrors m S p q) :
    r.Alike m S (r.recording.visitDecision inner n type logic p)
      ((r.via m).recording.visitDecision inner' (m.shift n) type logic q) := by
  have hn := Node.isDecision_of_role hr
  have hu := h.isDefined n n
  have hst : q.ledger.status ((r.via m).recording.key (m.shift n)) = p.ledger.status (r.key n) :=
    h.status_eq (n := n) (Array.mem_of_getElem? hi)
  cases hdef : r.recording.isDefined p.context n.info n.info with
  | true =>
    rw [visitDecision_of_defined hdef, visitDecision_of_defined (hu.trans hdef)]
    exact ⟨rfl, h⟩
  | false =>
    cases hb : (p.ledger.status (r.key n)).blocksReentry with
    | true =>
      rw [visitDecision_of_blocked hdef hb,
        visitDecision_of_blocked (hu.trans hdef) (by rw [hst, hb])]
      exact ⟨rfl, h⟩
    | false =>
      -- A node in progress blocks its own entry, so this one is not in `S` yet.
      have hfresh : i ∉ S := fun hiS =>
        Bool.false_ne_true (hb.symm.trans ((h.holds i hiS n hi).1 hn))
      have hfree : ∀ j ∈ S, ∀ k, r.model.node? j = some k → k.isDecision → r.key n ≠ r.key k := by
        intro j hj k hk hkd he
        have hbk := (h.holds j hj k hk).1 hkd
        rw [← he] at hbk
        exact Bool.false_ne_true (hb.symm.trans hbk)
      obtain ⟨v, v', rfl, rfl, hv⟩ := hinner hfresh
      have hrun : ∀ p q, r.Mirrors m (insert i S) p q → r.Alike m S
          ((r.recording.runDecision v n type logic p).1,
            r.recording.watch (.left n) (r.recording.runDecision v n type logic p).2)
          (((r.via m).recording.runDecision v' (m.shift n) type logic q).1,
            (r.via m).recording.watch (.left (m.shift n))
              ((r.via m).recording.runDecision v' (m.shift n) type logic q).2) := by
        intro p q h
        obtain ⟨hok, hend⟩ := runDecision_alike hc hl hi hr hfree hv h
        exact ⟨hok, hend.watch (.left n)⟩
      obtain ⟨hok, hend⟩ := announced_alike hrun (h.opening_decision hc hi hn)
      rw [visitDecision_some hr hdef hb, visitDecision_some (n := m.shift n) hr (hu.trans hdef)
        (by rw [hst, hb])]
      exact ⟨congrArg Resolution.ofDecision hok, hend⟩

theorem visitKnowledge_alike {logic : Option L} (hr : n.role = .knowledge logic)
    (h : r.Mirrors m S p q) :
    r.Alike m S (r.recording.visitKnowledge inner n logic p)
      ((r.via m).recording.visitKnowledge inner' (m.shift n) logic q) := by
  have hn := Node.isKnowledge_of_role hr
  have hu := h.isDefined n n
  have hac : q.evaluation.isActive ((r.via m).recording.key (m.shift n)) =
      p.evaluation.isActive (r.key n) := h.active n (Array.mem_of_getElem? hi)
  cases ha : p.evaluation.isActive (r.key n) with
  | true =>
    rw [visitKnowledge_of_active ha, visitKnowledge_of_active (hac.trans ha)]
    exact ⟨rfl, h⟩
  | false =>
    cases hdef : r.recording.isDefined p.context n.info n.info with
    | true =>
      rw [visitKnowledge_of_defined ha hdef,
        visitKnowledge_of_defined (hac.trans ha) (hu.trans hdef)]
      exact ⟨rfl, h⟩
    | false =>
      cases logic with
      | none =>
        rw [visitKnowledge_of_missing ha hdef,
          visitKnowledge_of_missing (hac.trans ha) (hu.trans hdef)]
        exact ⟨rfl, h.report _⟩
      | some logic =>
        have hfresh : i ∉ S := fun hiS =>
          Bool.false_ne_true (ha.symm.trans ((h.holds i hiS n hi).2 hn))
        have hfree : ∀ j ∈ S, ∀ k, r.model.node? j = some k → k.isKnowledge →
            r.key n ≠ r.key k := by
          intro j hj k hk hkn he
          have hak := (h.holds j hj k hk).2 hkn
          rw [← he] at hak
          exact Bool.false_ne_true (ha.symm.trans hak)
        obtain ⟨v, v', rfl, rfl, hv⟩ := hinner hfresh
        have hrun : ∀ p q, r.Mirrors m S p q → r.Alike m S
            (true, r.recording.runKnowledge v n logic p)
            (true, (r.via m).recording.runKnowledge v' (m.shift n) logic q) :=
          fun p q h => ⟨rfl, runKnowledge_mirrors hc hl hi hn hfree hv h⟩
        obtain ⟨-, hend⟩ := announced_alike hrun h
        rw [visitKnowledge_some ha hdef,
          visitKnowledge_some (hac.trans ha) (hu.trans hdef)]
        exact ⟨rfl, hend⟩

theorem visitNode_alike (h : r.Mirrors m S p q) :
    r.Alike m S (r.recording.visitNode inner n p)
      ((r.via m).recording.visitNode inner' (m.shift n) q) := by
  cases hr : n.role with
  | decision type logic =>
    rw [visitNode_decision hr, visitNode_decision (n := m.shift n) hr]
    exact visitDecision_alike hc hl hi hinner hr h
  | knowledge logic =>
    rw [visitNode_knowledge hr, visitNode_knowledge (n := m.shift n) hr]
    exact visitKnowledge_alike hc hl hi hinner hr h
  | input type =>
    rw [visitNode_input hr, visitNode_input (n := m.shift n) hr]
    exact ⟨rfl, h⟩

end node

/-- A visit runs alike. The limits of depth play no part if there is room for all nodes that are
not in progress. -/
theorem visit_alike (hc : m.Copies r.model) (hl : r.host.Local) (room room' : Nat)
    (hS : ∀ j ∈ S, j < r.model.nodes.size) (hroom : r.model.nodes.size ≤ room + S.card)
    (hroom' : r.model.nodes.size ≤ room' + S.card) (hi : r.model.node? i = some n)
    (h : r.Mirrors m S p q) :
    r.Alike m S (r.recording.visit room n p)
      ((r.via m).recording.visit room' (m.shift n) q) := by
  -- Each level adds a position to `S`, of which there are as many as the library has nodes.
  have hcard {S : Finset Nat} {i : Nat} (hS : ∀ j ∈ S, j < r.model.nodes.size)
      (hi : i < r.model.nodes.size) (hiS : i ∉ S) : S.card < r.model.nodes.size := by
    have hsub : insert i S ⊆ Finset.range r.model.nodes.size := by
      intro j hj
      rcases Finset.mem_insert.mp hj with rfl | hj
      · exact Finset.mem_range.mpr hi
      · exact Finset.mem_range.mpr (hS j hj)
    have hle := Finset.card_le_card hsub
    rw [Finset.card_insert_of_notMem hiS, Finset.card_range] at hle
    omega
  induction room generalizing room' S i n p q with
  | zero =>
    rw [visit_eq, visit_eq]
    refine visitNode_alike hc hl hi (fun hiS => ?_) h
    have hlt := hcard hS (Model.lt_of_node? hi) hiS
    omega
  | succ room ih =>
    rw [visit_eq, visit_eq]
    refine visitNode_alike hc hl hi (fun hiS => ?_) h
    have hlt := hcard hS (Model.lt_of_node? hi) hiS
    have hcd := Finset.card_insert_of_notMem hiS
    obtain ⟨room', rfl⟩ := Nat.exists_eq_succ_of_ne_zero (n := room') (by omega)
    refine ⟨_, _, rfl, rfl, ?_⟩
    intro j d p q hj h
    refine ih room' (fun k hk => ?_) (by omega) (by omega) hj h
    rcases Finset.mem_insert.mp hk with rfl | hk
    · exact Model.lt_of_node? hi
    · exact hS k hk

end visits

end Request

end DecisionGraph
