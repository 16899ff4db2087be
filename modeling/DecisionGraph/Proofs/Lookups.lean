import DecisionGraph.Proofs.Growth
import DecisionGraph.Proofs.Scopes

namespace DecisionGraph

variable {L σ : Type}

/-- Across namespaces only decisions are needed. -/
def Model.LinksDecisions (m : Model L) : Prop :=
  ∀ n ∈ m.nodes, ∀ d ∈ m.requirements n, d.info.ns ≠ n.info.ns → d.isDecision

instance (m : Model L) : Decidable m.LinksDecisions :=
  inferInstanceAs (Decidable (∀ n ∈ m.nodes, ∀ d ∈ m.requirements n,
    d.info.ns ≠ n.info.ns → d.isDecision))

namespace Request

def withLookup (r : Request L σ) (lookup : ImportLookup) : Request L σ :=
  { r with importLookup := lookup }

variable {r : Request L σ} {n d : Node L} {p : Progress σ} {name : String}

theorem isDefined_of_invisible (hv : r.model.visible? p.context n.info d.info = none) :
    r.isDefined p.context n.info d.info = false := by
  unfold isDefined
  rw [hv, Option.isSome_none, ite_self]

/-- Whatever the lookup, nothing is done for an imported decision that its dependent can see: if a
scope is opened for it, then its value is found there. -/
theorem provide_of_visible (hd : d.isDecision)
    (hv : (r.model.visible? p.context n.info d.info).isSome) (room : Nat) :
    r.provide (r.visit room) n d name p = (true, p) := by
  cases hu : r.isDefined p.context n.info d.info with
  | true => exact provide_of_defined hu
  | false =>
    cases hw : r.model.passage p.context n.info d.info with
    | here =>
      have hs := Model.passage_eq_here.mp hw
      rw [isDefined_of_here hs, ← Model.visible?_of_here hs, hv] at hu
      cases hu
    | closed =>
      unfold Model.passage at hw
      split at hw
      · cases hw
      next hs =>
        split at hw
        · cases hw
        next ha =>
          rw [Model.visible?_of_closed hs ha] at hv
          cases hv
    | through a =>
      obtain ⟨hs, ha⟩ := Model.passage_eq_through.mp hw
      obtain ⟨type, logic, hr⟩ := Node.role_of_isDecision hd
      have hdef : r.isDefined (p.context.push ⟨a, d.info.ns⟩) d.info d.info = true := by
        rw [isDefined_of_here (Model.scopeNs_push r.model p.context ⟨a, d.info.ns⟩).symm]
        rw [Model.visible?_of_import hs ha] at hv
        simpa [Context.get?, Context.path] using hv
      rw [provide_of_open hu (by rw [hw]; simp), hw, descend_through, visit_of_defined hr hdef]
      simp [settle, complaint, Progress.update, Evaluation.onContext]

section lookups

variable {inner inner' : Visit L σ} (lookup : ImportLookup)

theorem isDefined_withLookup (hs : d.info.ns = r.model.scopeNs p.context) :
    (r.withLookup lookup).isDefined p.context n.info d.info =
      r.isDefined p.context n.info d.info := by
  have hs' : d.info.ns = (r.withLookup lookup).model.scopeNs p.context := hs
  rw [isDefined_of_here hs, isDefined_of_here hs']

/-- The visits do the same with nodes in their own scopes. -/
def SameAtHome (r : Request L σ) (inner inner' : Visit L σ) : Prop :=
  ∀ n p, n ∈ r.model.nodes → n.info.ns = r.model.scopeNs p.context → inner' n p = inner n p

theorem provide_of_invisible (hi : r.SameAtHome inner inner') (hd : d ∈ r.model.nodes)
    (hv : r.model.visible? p.context n.info d.info = none) :
    (r.withLookup lookup).provide inner' n d name p = r.provide inner n d name p := by
  have hu : r.isDefined p.context n.info d.info = false := isDefined_of_invisible hv
  have hu' : (r.withLookup lookup).isDefined p.context n.info d.info = false :=
    isDefined_of_invisible hv
  have hsame : (r.withLookup lookup).provide inner' n d name p = r.provide inner' n d name p := by
    rw [provide, provide, hu, hu']
    rfl
  rw [hsame]
  refine provide_congr (hi d p hd) fun a => hi d _ hd ?_
  exact (Model.scopeNs_push r.model p.context ⟨a, d.info.ns⟩).symm

variable {room : Nat} (hi : r.SameAtHome (r.visit room) ((r.withLookup lookup).visit room))
  (hm : r.model.LinksDecisions) (hn : n ∈ r.model.nodes)

include hi hm hn

theorem provide_withLookup (hd : d ∈ r.model.requirements n)
    (hs : n.info.ns = r.model.scopeNs p.context) :
    (r.withLookup lookup).provide ((r.withLookup lookup).visit room) n d name p =
      r.provide (r.visit room) n d name p := by
  cases hv : r.model.visible? p.context n.info d.info with
  | none => exact provide_of_invisible lookup hi (Model.mem_nodes_of_mem_requirements hd) hv
  | some v =>
    have hsome : (r.model.visible? p.context n.info d.info).isSome := by rw [hv, Option.isSome_some]
    by_cases hhere : d.info.ns = r.model.scopeNs p.context
    · have hu : r.isDefined p.context n.info d.info = true := by
        rwa [isDefined_of_here hhere, ← Model.visible?_of_here hhere]
      have hu' := (isDefined_withLookup (n := n) lookup hhere).trans hu
      rw [provide_of_defined hu, provide_of_defined hu']
    · have hdec : d.isDecision := hm n hn d hd fun he => hhere (he.trans hs)
      have hfound : r.provide (r.visit room) n d name p = (true, p) :=
        provide_of_visible hdec hsome room
      rw [hfound]
      exact provide_of_visible (r := r.withLookup lookup) hdec hsome room

variable (hk : r.host.KeepsScope)

include hk

theorem resolveOne_withLookup {id : Nat} (he : (name, id) ∈ n.info.dependencies.toList)
    (hs : n.info.ns = r.model.scopeNs p.context) :
    (r.withLookup lookup).resolveOne ((r.withLookup lookup).visit room) n name id p =
      r.resolveOne (r.visit room) n name id p := by
  cases hd : r.model.node? id with
  | none =>
    have hd' : (r.withLookup lookup).model.node? id = none := hd
    simp only [resolveOne, hd, hd']
    rfl
  | some d =>
    have hd' : (r.withLookup lookup).model.node? id = some d := hd
    have hcheck : (r.withLookup lookup).checkInput n d name p = r.checkInput n d name p := rfl
    have hframes := (lawful_frames hk).lifts.checkInput p he hd
    have hs' := hs.trans (Context.scopeNs_of_frames (m := r.model) hframes).symm
    rw [resolveOne_of_some hd, resolveOne_of_some hd', hcheck,
      provide_withLookup lookup hi hm hn (Model.mem_requirements he hd) hs']

theorem resolveList_withLookup (deps : List (String × Nat))
    (hdeps : ∀ e ∈ deps, e ∈ n.info.dependencies.toList)
    (hs : n.info.ns = r.model.scopeNs p.context) :
    (r.withLookup lookup).resolveList ((r.withLookup lookup).visit room) n deps p =
      r.resolveList (r.visit room) n deps p := by
  -- The induction follows the list; each dependency leaves the scope as it was.
  induction deps generalizing p with
  | nil => rfl
  | cons e deps ih =>
    obtain ⟨name, id⟩ := e
    have he : (name, id) ∈ n.info.dependencies.toList := hdeps _ List.mem_cons_self
    have hframes := (lawful_frames hk).resolveOne (frames_visit hk room) p he
    have hrest := ih (fun e he => hdeps e (List.mem_cons_of_mem _ he))
      (hs.trans (Context.scopeNs_of_frames (m := r.model) hframes).symm)
    rw [resolveList_cons, resolveList_cons, resolveOne_withLookup lookup hi hm hn hk he hs, hrest]

theorem resolve_withLookup {q : Progress σ} (hs : n.info.ns = r.model.scopeNs p.context)
    (hf : q.context.frames = p.context.frames) :
    (r.withLookup lookup).resolve ((r.withLookup lookup).visit room) n q =
      r.resolve (r.visit room) n q :=
  resolveList_withLookup lookup hi hm hn hk _ (fun _ he => he)
    (hs.trans (Context.scopeNs_of_frames hf).symm)

theorem runDecision_withLookup {type : DeclaredType} {logic : Option L} {q : Progress σ}
    (hs : n.info.ns = r.model.scopeNs p.context) (hf : q.context.frames = p.context.frames) :
    (r.withLookup lookup).runDecision ((r.withLookup lookup).visit room) n type logic q =
      r.runDecision (r.visit room) n type logic q := by
  simp only [runDecision, resolve_withLookup lookup hi hm hn hk hs hf]
  rfl

theorem runKnowledge_withLookup {l : L} {q : Progress σ}
    (hs : n.info.ns = r.model.scopeNs p.context) (hf : q.context.frames = p.context.frames) :
    (r.withLookup lookup).runKnowledge ((r.withLookup lookup).visit room) n l q =
      r.runKnowledge (r.visit room) n l q := by
  have hentered : (r.withLookup lookup).watch (.entered n)
      (q.update (·.enter ((r.withLookup lookup).key n))) =
        r.watch (.entered n) (q.update (·.enter (r.key n))) := rfl
  have hres := resolve_withLookup lookup hi hm hn hk hs
    (q := r.watch (.entered n) (q.update (·.enter (r.key n)))) (by simpa using hf)
  simp only [runKnowledge, hentered, hres]
  rfl

/-- What the visits of the level below do alike, those of this level do alike as well. -/
theorem visit_succ_withLookup (hs : n.info.ns = r.model.scopeNs p.context) :
    (r.withLookup lookup).visit (room + 1) n p = r.visit (room + 1) n p := by
  rw [visit_succ, visit_succ]
  refine visitNode_congr rfl (isDefined_withLookup lookup hs) (fun type logic _ _ _ => ?_)
    fun l _ _ _ => ?_
  · refine decide_congr (p := r.opening n p) rfl rfl fun q hq => ?_
    exact runDecision_withLookup lookup hi hm hn hk hs (by rcases hq with rfl | rfl <;> simp)
  · refine inform_congr rfl fun q hq => ?_
    exact runKnowledge_withLookup lookup hi hm hn hk hs (by rcases hq with rfl | rfl <;> simp)

end lookups

theorem visit_withLookup (hm : r.model.LinksDecisions) (hk : r.host.KeepsScope)
    (lookup : ImportLookup) (room : Nat) :
    r.SameAtHome (r.visit room) ((r.withLookup lookup).visit room) := by
  induction room with
  | zero => exact fun n p _ hs => visit_zero_congr rfl (isDefined_withLookup lookup hs) rfl
  | succ room ih => exact fun n p hn hs => visit_succ_withLookup lookup ih hm hn hk hs

theorem run_withLookup (hm : r.model.LinksDecisions) (hk : r.host.KeepsScope)
    (lookup : ImportLookup) (s : Selection) {c : Context} (hc : c.frames = []) (w : σ) :
    (r.withLookup lookup).run s c w = r.run s c w := by
  -- Between the errands no scope is open, and all that is asked for belongs to the model.
  refine run_congr (P := fun p => p.context.frames = []) rfl hc ?_ ?_
  · rintro (n | g) p - hp
    · exact (frames_visit hk r.maxDepth n p).trans hp
    · exact hp
  · rintro (n | g) p he hp
    · have hlocal := Model.mem_localDecisions_of_mem_errands he
      have hs : n.info.ns = r.model.scopeNs p.context :=
        (Model.ns_of_mem_localDecisions hlocal).trans (Model.scopeNs_of_root hp).symm
      exact congrArg Prod.snd (visit_withLookup hm hk lookup r.maxDepth n p
        (Model.mem_nodes_of_mem_localDecisions hlocal) hs)
    · rfl

/-- If only decisions are needed across namespaces, then a request ends the same and tells the same
whether imported values are looked for before their scopes are opened or within them. In neither
case is a node evaluated whose name is bound in its scope. -/
theorem lookups_agree (hm : r.model.LinksDecisions) (hk : r.host.KeepsScope) (s : Selection)
    {c : Context} (hc : c.frames = []) (w : σ) :
    (r.withLookup .alwaysDescend).run s c w = (r.withLookup .aliasContext).run s c w ∧
    (∀ lookup, ∀ t ∈ (r.withLookup lookup).record s c w, ∀ n, t.moment = .entered n →
      t.evaluation.context.get? n.info.name = none) := by
  refine ⟨?_, fun lookup t ht n hn => free_of_entered (r := r.withLookup lookup) hk hc ht hn⟩
  rw [run_withLookup hm hk .alwaysDescend s hc w, run_withLookup hm hk .aliasContext s hc w]

end Request

namespace Formula

def pricedInput : Context :=
  .ofEntries (.cons "p" (.context (.cons "total" (.boolean true) .nil)) .nil)

end Formula

namespace Request

/-- What is due when the total of the prices is given. The total is not evaluated either way, so
that there are only the two events of what is due, which stands in the outcomes. -/
theorem lookups_agree_orders :
    Formula.orders.LinksDecisions ∧ Host.telling.KeepsScope ∧ Formula.pricedInput.frames = [] ∧
    ((Request.mk Formula.orders Host.telling true 4 .alwaysDescend).withLookup
        .alwaysDescend).run .all Formula.pricedInput [] =
      ((Request.mk Formula.orders Host.telling true 4 .alwaysDescend).withLookup
        .aliasContext).run .all Formula.pricedInput [] ∧
    ((Request.mk Formula.orders Host.telling true 4 .alwaysDescend).run .all
      Formula.pricedInput []).world.length = 2 ∧
    ((Request.mk Formula.orders Host.telling true 4 .alwaysDescend).run .all
      Formula.pricedInput []).ledger.status "1" = .succeeded := by
  have hm : Formula.orders.LinksDecisions := by decide
  have hk := Host.telling_quiet.keepsScope
  exact ⟨hm, hk, rfl, (lookups_agree (r := ⟨Formula.orders, Host.telling, true, 4, .alwaysDescend⟩)
    hm hk .all rfl []).1, rfl, rfl⟩

end Request

end DecisionGraph
