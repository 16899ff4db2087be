import DecisionGraph.Proofs.Frozen

namespace DecisionGraph

variable {L σ : Type}

/-- What a host was called for. -/
inductive Mark (L : Type) where
  | told (e : Event)
  | seen (t : Sighting L)
  | answered

def Mark.events : Mark L → List Event
  | told e => [e]
  | _ => []

/-- A call of a host, with its worlds before and after it. -/
structure Entry (L σ : Type) where
  mark : Mark L
  before : σ
  after : σ

namespace Entry

def events (x : Entry L σ) : List Event := x.mark.events

/-- What a listener has heard grows by what is told in the call, and by nothing else. -/
def DeliversTo (heard : σ → List Event) (x : Entry L σ) : Prop :=
  heard x.after = heard x.before ++ x.events

/-- The calls lead from one world to another. -/
def Path : σ → List (Entry L σ) → σ → Prop
  | w, [], w' => w' = w
  | w, x :: l, w' => x.before = w ∧ Path x.after l w'

variable {w w' w'' : σ} {l l' : List (Entry L σ)}

theorem Path.append (h : Path w l w') (h' : Path w' l' w'') : Path w (l ++ l') w'' := by
  induction l generalizing w with
  | nil => exact h ▸ h'
  | cons x l ih => exact ⟨h.1, ih h.2⟩

theorem Path.last {P : σ → Prop} (h : Path w l w') (hw : P w) (hl : ∀ x ∈ l, P x.after) :
    P w' := by
  induction l generalizing w with
  | nil => exact h ▸ hw
  | cons x l ih =>
    exact ih h.2 (hl x List.mem_cons_self) fun y hy => hl y (List.mem_cons_of_mem _ hy)

theorem Path.heard {heard : σ → List Event} (h : Path w l w') (hl : ∀ x ∈ l, x.DeliversTo heard) :
    heard w' = heard w ++ l.flatMap events := by
  induction l generalizing w with
  | nil => rw [h, List.flatMap_nil, List.append_nil]
  | cons x l ih =>
    have hx := hl x List.mem_cons_self
    rw [ih h.2 fun y hy => hl y (List.mem_cons_of_mem _ hy), hx, h.1, List.flatMap_cons,
      List.append_assoc]

end Entry

def Host.chronicling (h : Host L σ) : Host L (σ × List (Entry L σ)) where
  listening w := h.listening w.1
  notify e w := (h.notify e w.1, w.2 ++ [⟨.told e, w.1, h.notify e w.1⟩])
  answer m l e w := ((h.answer m l e w.1).1, (h.answer m l e w.1).2.1,
    ((h.answer m l e w.1).2.2, w.2 ++ [⟨.answered, w.1, (h.answer m l e w.1).2.2⟩]))
  observe m e w := (h.observe m e w.1, w.2 ++ [⟨.seen ⟨m, e⟩, w.1, h.observe m e w.1⟩])

theorem Host.chronicling_projects (h : Host L σ) : h.chronicling.Projects Prod.fst h :=
  ⟨fun _ => rfl, fun _ _ => rfl, fun _ _ _ _ => rfl, fun _ _ _ => rfl⟩

theorem Host.Quiet.chronicling {h : Host L σ} (hq : h.Quiet) : h.chronicling.Quiet :=
  fun m l e w => hq m l e w.1

theorem Host.KeepsLedger.chronicling {h : Host L σ} (hk : h.KeepsLedger) :
    h.chronicling.KeepsLedger :=
  fun m l e w => hk m l e w.1

theorem Ledger.exists_terminal {l : Ledger} (hl : l.Indexed) {k : String}
    (hk : (l.find? k).isSome) {f : Outcome → Outcome} (hf : ∀ o, (f o).status.isTerminal) :
    ∃ o, (l.modify k f).find? k = some o ∧ o.status.isTerminal := by
  obtain ⟨o, ho⟩ := Option.isSome_iff_exists.mp hk
  refine ⟨f o, ?_, hf o⟩
  rw [find?_modify hl, if_pos rfl, ho, Option.map_some]

namespace Request

def chronicling (r : Request L σ) : Request L (σ × List (Entry L σ)) :=
  r.onHost r.host.chronicling

def chronicle (r : Request L σ) (s : Selection) (c : Context) (w : σ) : List (Entry L σ) :=
  (r.chronicling.run s c (w, [])).world.2

/-- Keeping a chronicle changes nothing in a request. -/
theorem run_chronicling (r : Request L σ) (s : Selection) (c : Context) (w : σ) :
    (r.chronicling.run s c (w, [])).map Prod.fst = r.run s c w :=
  (run_map (r := r.chronicling) r.host.chronicling_projects s c (w, [])).symm

/-- A chronicle in good order, with brackets of evaluations that nest `k` deep at most. The events
about a node stand next to the moments at which its evaluation begins and ends. The last one about a
decision carries the outcome that the decision has at that moment, which says how it has ended. -/
inductive Chronicled (r : Request L σ) : Nat → List (Mark L) → Prop where
  | nil (k : Nat) : Chronicled r k []
  | answered {k : Nat} {l : List (Mark L)} : Chronicled r k l → Chronicled r k (.answered :: l)
  | seen {k : Nat} {t : Sighting L} {l : List (Mark L)} : t.moment.isInner = true →
      Chronicled r k l → Chronicled r k (.seen t :: l)
  | decision {k : Nat} {n : Node L} {d e : Evaluation} {o : Outcome} {inner l : List (Mark L)} :
      n.isDecision → e.ledger.find? (r.key n) = some o → o.status.isTerminal →
      Chronicled r k inner → Chronicled r (k + 1) l →
      Chronicled r (k + 1) (.seen ⟨.entered n, d⟩ ::
        .told (.decision .before n.info.subject none) :: (inner ++ .seen ⟨.left n, e⟩ ::
          .told (.decision .after n.info.subject (some o)) :: l))
  | knowledge {k : Nat} {n : Node L} {d e : Evaluation} {inner l : List (Mark L)} :
      n.isKnowledge → Chronicled r k inner → Chronicled r (k + 1) l →
      Chronicled r (k + 1) (.told (.knowledge .before n.info.subject) ::
        .seen ⟨.entered n, d⟩ :: (inner ++ .seen ⟨.left n, e⟩ ::
          .told (.knowledge .after n.info.subject) :: l))

namespace Chronicled

variable {r : Request L σ} {k : Nat} {l l' : List (Mark L)}

theorem append (h : r.Chronicled k l) (h' : r.Chronicled k l') : r.Chronicled k (l ++ l') := by
  induction h with
  | nil => exact h'
  | answered _ ih => exact .answered (ih h')
  | seen ht _ ih => exact .seen ht (ih h')
  | decision hn ho hs hi _ _ ih =>
    simpa only [List.cons_append, List.append_assoc] using .decision hn ho hs hi (ih h')
  | knowledge hn hi _ _ ih =>
    simpa only [List.cons_append, List.append_assoc] using .knowledge hn hi (ih h')

end Chronicled

variable {r : Request L σ} {k : Nat} {p q s : Progress (σ × List (Entry L σ))}
  {new new' : List (Entry L σ)} {n d : Node L} {name : String}

/-- The host is called so on the way from one point of a request to another. -/
def Calls (p : Progress (σ × List (Entry L σ))) (new : List (Entry L σ))
    (q : Progress (σ × List (Entry L σ))) : Prop :=
  q.world.2 = p.world.2 ++ new ∧ Entry.Path p.world.1 new q.world.1

theorem Calls.of_world (h : q.world = p.world) : Calls p [] q := by
  refine ⟨?_, congrArg Prod.fst h⟩
  rw [h, List.append_nil]

theorem Calls.append (h : Calls p new q) (h' : Calls q new' s) : Calls p (new ++ new') s := by
  refine ⟨?_, h.2.append h'.2⟩
  rw [h'.1, h.1, List.append_assoc]

theorem calls_watch (r : Request L σ) (m : Moment L) (p : Progress (σ × List (Entry L σ))) :
    Calls p [⟨.seen ⟨m, p.evaluation⟩, p.world.1, (r.chronicling.watch m p).world.1⟩]
      (r.chronicling.watch m p) :=
  ⟨rfl, rfl, rfl⟩

theorem calls_notify (r : Request L σ) (e : Event) (p : Progress (σ × List (Entry L σ))) :
    Calls p [⟨.told e, p.world.1, (r.chronicling.notify e p).world.1⟩]
      (r.chronicling.notify e p) :=
  ⟨rfl, rfl, rfl⟩

theorem calls_opening (r : Request L σ) (n : Node L) (p : Progress (σ × List (Entry L σ))) :
    Calls p [⟨.seen ⟨.entered n, (r.chronicling.opening n p).evaluation⟩, p.world.1,
      (r.chronicling.opening n p).world.1⟩] (r.chronicling.opening n p) := by
  unfold opening
  split <;> exact ⟨rfl, rfl, rfl⟩

/-- Someone listens after each of the calls. -/
def Attended (r : Request L σ) (new : List (Entry L σ)) : Prop :=
  ∀ x ∈ new, r.host.listening x.after = true

theorem Attended.listening (h : r.Attended new) (hc : Calls p new q)
    (hp : r.host.listening p.world.1 = true) : r.host.listening q.world.1 = true :=
  hc.2.last (P := fun w => r.host.listening w = true) hp h

theorem Attended.split {new new' : List (Entry L σ)} (h : r.Attended (new ++ new')) :
    r.Attended new ∧ r.Attended new' := List.forall_mem_append.mp h

/-- The calls on the way are in good order, as long as someone listens. -/
def Adds (r : Request L σ) (k : Nat) (p q : Progress (σ × List (Entry L σ))) : Prop :=
  ∃ new, Calls p new q ∧ (r.host.listening p.world.1 = true → r.Attended new →
    r.Chronicled k (new.map Entry.mark))

namespace Adds

theorem of_world (h : q.world = p.world) : r.Adds k p q :=
  ⟨[], .of_world h, fun _ _ => .nil k⟩

theorem trans (h : r.Adds k p q) (h' : r.Adds k q s) : r.Adds k p s := by
  obtain ⟨new, hc, hnew⟩ := h
  obtain ⟨new', hc', hnew'⟩ := h'
  refine ⟨new ++ new', hc.append hc', fun hp ha => ?_⟩
  obtain ⟨ha, ha'⟩ := ha.split
  rw [List.map_append]
  exact (hnew hp ha).append (hnew' (ha.listening hc hp) ha')

theorem update (h : r.Adds k p q) (f : Evaluation → Evaluation) : r.Adds k p (q.update f) :=
  h.trans (.of_world rfl)

theorem watch (h : r.Adds k p q) {m : Moment L} (hm : m.isInner = true) :
    r.Adds k p (r.chronicling.watch m q) :=
  h.trans ⟨_, calls_watch r m q, fun _ _ => .seen hm (.nil k)⟩

theorem reportUnresolved (h : r.Adds k p q) (n : Node L) (name source : String)
    (d : Diagnostic) : r.Adds k p (r.chronicling.reportUnresolved n name source d q) := by
  unfold Request.reportUnresolved
  split
  · exact (h.update _).watch rfl
  · exact (h.update _).watch rfl

theorem callLogic (h : r.Adds k p q) (n : Node L) (l : L) :
    r.Adds k p (r.chronicling.callLogic n l q).2 :=
  (h.watch (m := .calling n) rfl).trans
    ⟨[⟨.answered, _, _⟩], ⟨rfl, rfl, rfl⟩, fun _ _ => .answered (.nil k)⟩

theorem checkInput (h : r.Adds k p q) (n d : Node L) (name : String) :
    r.Adds k p (r.chronicling.checkInput n d name q).2 := by
  by_cases hx : r.chronicling.typeCheck = true ∧ ∃ type, d.role = .input type
  · obtain ⟨ht, type, hr⟩ := hx
    have hw := h.watch (m := .examined n d (r.chronicling.found n d q)) rfl
    rw [checkInput_of_input ht hr]
    cases type.check (r.chronicling.found n d q) with
    | error e => exact hw.update _
    | ok fits =>
      cases fits with
      | true => exact hw
      | false => exact hw.reportUnresolved ..
  · rw [checkInput_of_not hx]
    exact h

theorem settle {x : Resolution × Progress (σ × List (Entry L σ))} (h : r.Adds k p x.2)
    (n d : Node L) (name : String) : r.Adds k p (r.chronicling.settle n d name x).2 := by
  unfold Request.settle
  cases complaint n.info d.info x.1 with
  | none => exact h
  | some g => exact h.reportUnresolved ..

theorem bindResult (h : r.Adds k p q) (n : Node L) (type : DeclaredType) (v : Value) :
    r.Adds k p (r.chronicling.bindResult n type v q).2 := by
  rw [bindResult_eq]
  cases r.chronicling.objection? n type v with
  | none => exact (h.update _).watch rfl
  | some m => exact h.update _

end Adds

section levels

variable (hk : r.host.KeepsLedger) {room : Nat}
  (hv : ∀ (d : Node L) (p : Progress (σ × List (Entry L σ))), p.ledger.Indexed →
    r.Adds room p (r.chronicling.visit room d p).2)

include hv

theorem adds_provide (hl : p.ledger.Indexed) :
    r.Adds room p (r.chronicling.provide (r.chronicling.visit room) n d name p).2 := by
  cases hu : r.chronicling.isDefined p.context n.info d.info with
  | true =>
    rw [provide_of_defined hu]
    exact .of_world rfl
  | false =>
    cases hw : r.chronicling.model.passage p.context n.info d.info with
    | closed =>
      rw [provide_of_closed hu hw]
      exact (Adds.of_world rfl).reportUnresolved ..
    | here =>
      rw [provide_of_open hu (by rw [hw]; simp), hw, descend_here]
      exact (hv d p hl).settle n d name
    | through a =>
      have hpush : r.Adds room p (p.update (·.onContext (·.push ⟨a, d.info.ns⟩))) := .of_world rfl
      rw [provide_of_open hu (by rw [hw]; simp), hw, descend_through]
      exact ((hpush.trans (hv d _ hl)).update _).settle (x := (_, _)) n d name

include hk

theorem adds_resolveOne {id : Nat} (he : (name, id) ∈ n.info.dependencies.toList)
    (hl : p.ledger.Indexed) :
    r.Adds room p (r.chronicling.resolveOne (r.chronicling.visit room) n name id p).2 := by
  cases hd : r.chronicling.model.node? id with
  | none =>
    unfold resolveOne
    rw [hd]
    exact (Adds.of_world rfl).reportUnresolved ..
  | some d =>
    have hc : r.Adds room p (r.chronicling.checkInput n d name p).2 :=
      (Adds.of_world rfl).checkInput n d name
    have hi := ((lawful_ledger hk.chronicling).lifts.checkInput p he hd hl).indexed
    rw [resolveOne_of_some hd]
    split
    · exact hc
    · exact hc.trans (adds_provide hv hi)

theorem adds_resolveList (deps : List (String × Nat))
    (hs : ∀ e ∈ deps, e ∈ n.info.dependencies.toList) (hl : p.ledger.Indexed) :
    r.Adds room p (r.chronicling.resolveList (r.chronicling.visit room) n deps p).2 := by
  have hlaw := lawful_ledger (r := r.chronicling) hk.chronicling
  induction deps generalizing p with
  | nil => exact .of_world rfl
  | cons e deps ih =>
    obtain ⟨name, id⟩ := e
    have he : (name, id) ∈ n.info.dependencies.toList := hs _ List.mem_cons_self
    have hone := adds_resolveOne hk hv he hl
    have hi := (hlaw.resolveOne (fun d p => hlaw.visit room d p) p he hl).indexed
    rw [resolveList_cons]
    split
    · exact hone
    · exact hone.trans (ih (fun e he => hs e (List.mem_cons_of_mem _ he)) hi)

theorem adds_resolve (hl : p.ledger.Indexed) :
    r.Adds room p (r.chronicling.resolve (r.chronicling.visit room) n p).2 :=
  adds_resolveList hk hv _ (fun _ he => he) hl

theorem adds_runDecision {type : DeclaredType} {logic : Option L} (hl : p.ledger.Indexed) :
    r.Adds room p
      (r.chronicling.runDecision (r.chronicling.visit room) n type logic p).2 := by
  have hres := adds_resolve hk hv (n := n) hl
  unfold runDecision
  dsimp only
  split
  · exact hres.update _
  · cases logic with
    | none => exact hres.update _
    | some l =>
      have hcall := hres.callLogic n l
      dsimp only
      split
      · exact hcall.bindResult ..
      · exact hcall.update _
      · exact hcall.update _

omit hk hv

theorem exists_outcome_runDecision {r : Request L σ} (hk : r.host.KeepsLedger) {p : Progress σ}
    {type : DeclaredType} {logic : Option L} (hn : n.isDecision) (hl : p.ledger.Indexed)
    (hs : p.ledger.status (r.key n) = .evaluating) :
    ∃ o, (r.runDecision (r.visit room) n type logic p).2.ledger.find? (r.key n) = some o ∧
      o.status.isTerminal := by
  have hlaw := lawful_ledger hk
  have hres := hlaw.resolve (fun d p => hlaw.visit room d p) n p hl
  have hsome := hres.isSome hn hs
  unfold runDecision
  dsimp only
  split
  · exact Ledger.exists_terminal hres.indexed hsome fun _ => rfl
  · cases logic with
    | none => exact Ledger.exists_terminal hres.indexed hsome fun _ => rfl
    | some l =>
      have he := ledger_callLogic hk n l (r.resolve (r.visit room) n p).2
      have hended {f : Outcome → Outcome} (hf : ∀ o, (f o).status.isTerminal) :=
        Ledger.exists_terminal (he ▸ hres.indexed) (he ▸ hsome) hf
      dsimp only
      split
      · rw [bindResult_eq]
        cases r.objection? n type _ <;> exact hended fun _ => rfl
      · exact hended fun _ => rfl
      · exact hended fun _ => rfl

end levels

theorem exists_announced (before : Event) (after : Ledger → Event)
    (run : Progress (σ × List (Entry L σ)) → Bool × Progress (σ × List (Entry L σ)))
    (G : List (Mark L) → Ledger → Prop)
    (h : ∀ q, q.evaluation = p.evaluation → ∃ new, Calls q new (run q).2 ∧
      (r.host.listening q.world.1 = true → r.Attended new →
        G (new.map Entry.mark) (run q).2.ledger)) :
    ∃ new, Calls p new (r.chronicling.announced before after run p).2 ∧
      (r.host.listening p.world.1 = true → r.Attended new →
        ∃ inner led, new.map Entry.mark = .told before :: (inner ++ [.told (after led)]) ∧
          G inner led) := by
  rw [announced_eq]
  split
  next hl =>
    have hbefore := calls_notify r before p
    obtain ⟨new, hc, hnew⟩ := h (r.chronicling.notify before p) rfl
    have hafter := calls_notify r (after (run (r.chronicling.notify before p)).2.ledger)
      (run (r.chronicling.notify before p)).2
    refine ⟨_, hbefore.append (hc.append hafter), fun hp ha => ?_⟩
    obtain ⟨hb, hrest⟩ := ha.split
    obtain ⟨hin, -⟩ := hrest.split
    refine ⟨new.map Entry.mark, _, ?_, hnew (hb.listening hbefore hp) hin⟩
    simp
  next hl =>
    -- If no one listens there is no event, which is not what the chronicle is read for.
    obtain ⟨new, hc, -⟩ := h p rfl
    exact ⟨new, hc, fun hp => absurd hp hl⟩

/-- Around the evaluation of a decision stands a bracket. -/
theorem adds_decide {type : DeclaredType} {logic : Option L}
    {inner : Visit L (σ × List (Entry L σ))} (hn : n.isDecision)
    (h : ∀ q, q.evaluation = (r.chronicling.opening n p).evaluation →
      r.Adds k q (r.chronicling.runDecision inner n type logic q).2 ∧
      ∃ o, (r.chronicling.runDecision inner n type logic q).2.ledger.find? (r.key n) = some o ∧
        o.status.isTerminal) :
    r.Adds (k + 1) p
      (r.chronicling.decide inner n type logic (r.chronicling.opening n p)).2 := by
  have hopen := calls_opening r n p
  obtain ⟨new, hc, hnew⟩ := exists_announced (r := r) (p := r.chronicling.opening n p)
    (.decision .before n.info.subject none)
    (fun l => .decision .after n.info.subject (l.find? (r.key n)))
    (fun q => ((r.chronicling.runDecision inner n type logic q).1,
      r.chronicling.watch (.left n) (r.chronicling.runDecision inner n type logic q).2))
    (fun l led => ∃ u e o, l = u ++ [.seen ⟨.left n, e⟩] ∧ r.Chronicled k u ∧
      led = e.ledger ∧ e.ledger.find? (r.key n) = some o ∧ o.status.isTerminal)
    fun q hq => by
      obtain ⟨⟨new, hc, hnew⟩, o, ho, hs⟩ := h q hq
      refine ⟨_, hc.append (calls_watch r (.left n) _), fun hl ha => ?_⟩
      obtain ⟨ha, -⟩ := ha.split
      exact ⟨_, _, o, List.map_append .., hnew hl ha, rfl, ho, hs⟩
  refine ⟨_, hopen.append hc, fun hp ha => ?_⟩
  obtain ⟨ho, ha⟩ := ha.split
  obtain ⟨l, led, hm, u, e, o, rfl, hu, rfl, hfind, hs⟩ := hnew (ho.listening hopen hp) ha
  rw [List.map_append, hm, hfind, List.append_assoc]
  exact .decision hn hfind hs hu (.nil _)

/-- A bracket stands around the evaluation of a business knowledge model as well. -/
theorem adds_inform {l : L} {inner : Visit L (σ × List (Entry L σ))} (hn : n.isKnowledge)
    (h : ∀ q, q.evaluation = p.evaluation → ∃ s,
      r.Adds k (r.chronicling.opening n q) s ∧
      r.chronicling.runKnowledge inner n l q = r.chronicling.watch (.left n) s) :
    r.Adds (k + 1) p (r.chronicling.inform inner n l p) := by
  obtain ⟨new, hc, hnew⟩ := exists_announced (r := r) (p := p)
    (.knowledge .before n.info.subject) (fun _ => .knowledge .after n.info.subject)
    (fun q => (true, r.chronicling.runKnowledge inner n l q))
    (fun l _ => ∃ d u e, l = .seen ⟨.entered n, d⟩ :: (u ++ [.seen ⟨.left n, e⟩]) ∧
      r.Chronicled k u)
    fun q hq => by
      obtain ⟨s, ⟨new, hc, hnew⟩, hrun⟩ := h q hq
      have hopen := calls_opening r n q
      refine ⟨_, hrun ▸ hopen.append (hc.append (calls_watch r (.left n) s)), fun hl ha => ?_⟩
      obtain ⟨ho, ha⟩ := ha.split
      obtain ⟨ha, -⟩ := ha.split
      refine ⟨(r.chronicling.opening n q).evaluation, new.map Entry.mark, s.evaluation, ?_,
        hnew (ho.listening hopen hl) ha⟩
      simp
  refine ⟨new, hc, fun hp ha => ?_⟩
  obtain ⟨l, led, hm, d, u, e, rfl, hu⟩ := hnew hp ha
  rw [hm, List.cons_append, List.append_assoc]
  exact .knowledge hn hu (.nil _)

/-- Between its events a business knowledge model is entered first and left last. -/
theorem exists_runKnowledge (hk : r.host.KeepsLedger) {room : Nat}
    (hv : ∀ (d : Node L) (p : Progress (σ × List (Entry L σ))), p.ledger.Indexed →
      r.Adds room p (r.chronicling.visit room d p).2)
    {l : L} (hn : n.isKnowledge) (hl : p.ledger.Indexed) :
    ∃ s, r.Adds room (r.chronicling.opening n p) s ∧
      r.chronicling.runKnowledge (r.chronicling.visit room) n l p =
        r.chronicling.watch (.left n) s := by
  have hi := (advances_opening (r := r.chronicling) (n := n) hl).1
  have hres := adds_resolve hk hv (n := n) hi
  unfold runKnowledge
  dsimp only
  rw [← opening_of_knowledge hn]
  split
  · exact ⟨_, hres.update _, rfl⟩
  · have hcall := hres.callLogic n l
    split
    · exact ⟨_, ((hcall.update _).watch rfl).update _, rfl⟩
    · exact ⟨_, (hcall.update _).update _, rfl⟩
    · exact ⟨_, hcall.update _, rfl⟩
    · exact ⟨_, (hcall.update _).update _, rfl⟩

/-- The visit finds that it is not to open the node: it is visible or barred or too deep, or it has
no logic to bind. -/
def Unopened {τ : Type} (r : Request L τ) (room : Nat) (n : Node L) (p : Progress τ) : Prop :=
  match n.role with
  | .decision .. => r.isDefined p.context n.info n.info = true ∨
      (p.ledger.status (r.key n)).blocksReentry = true ∨ room = 0
  | .knowledge logic => p.evaluation.isActive (r.key n) = true ∨
      r.isDefined p.context n.info n.info = true ∨ logic = none ∨ room = 0
  | .input _ => True

theorem unopened_zero {τ : Type} {r : Request L τ} {p : Progress τ} : r.Unopened 0 n p := by
  unfold Unopened
  cases n.role <;> simp

theorem opened_cases {τ : Type} {r : Request L τ} {room : Nat} {p : Progress τ}
    (h : ¬r.Unopened room n p) :
    (∃ type logic, n.role = .decision type logic ∧
      r.isDefined p.context n.info n.info = false ∧
      (p.ledger.status (r.key n)).blocksReentry = false) ∨
    ∃ l, n.role = .knowledge (some l) ∧ p.evaluation.isActive (r.key n) = false ∧
      r.isDefined p.context n.info n.info = false := by
  unfold Unopened at h
  cases hr : n.role with
  | decision type logic =>
    simp only [hr, not_or, Bool.not_eq_true] at h
    exact .inl ⟨type, logic, rfl, h.1, h.2.1⟩
  | knowledge logic =>
    cases logic with
    | none => simp [hr] at h
    | some l =>
      simp only [hr, not_or, Bool.not_eq_true] at h
      exact .inr ⟨l, rfl, h.1, h.2.1⟩
  | input type => simp [hr] at h

/-- A node that is not opened goes unnoticed. -/
theorem world_visit_of_unopened {τ : Type} {r : Request L τ} {room : Nat} {p : Progress τ}
    (h : r.Unopened room n p) : (r.visit room n p).2.world = p.world := by
  unfold Unopened at h
  rw [visit_eq]
  cases hr : n.role with
  | decision type logic =>
    simp only [hr] at h
    rw [visitNode_decision hr]
    cases hu : r.isDefined p.context n.info n.info with
    | true => rw [visitDecision_of_defined hu]
    | false =>
      cases hb : (p.ledger.status (r.key n)).blocksReentry with
      | true => rw [visitDecision_of_blocked hu hb]
      | false =>
        obtain rfl := (h.resolve_left (by rw [hu]; simp)).resolve_left (by rw [hb]; simp)
        rw [below, visitDecision_none hu hb]
        rfl
  | knowledge logic =>
    simp only [hr] at h
    rw [visitNode_knowledge hr]
    cases ha : p.evaluation.isActive (r.key n) with
    | true => rw [visitKnowledge_of_active ha]
    | false =>
      cases hu : r.isDefined p.context n.info n.info with
      | true => rw [visitKnowledge_of_defined ha hu]
      | false =>
        cases logic with
        | none => rw [visitKnowledge_of_missing ha hu]; rfl
        | some l =>
          obtain rfl := ((h.resolve_left (by rw [ha]; simp)).resolve_left
            (by rw [hu]; simp)).resolve_left (by simp)
          rw [below, visitKnowledge_none ha hu]
          rfl
  | input type => rw [visitNode_input hr]

/-- On every level the calls of a visit are in good order. The cases are those of the code: what is
not opened goes unnoticed, and around what is opened stands a bracket. -/
theorem adds_visit (hk : r.host.KeepsLedger) (room : Nat) (n : Node L)
    (p : Progress (σ × List (Entry L σ))) (hl : p.ledger.Indexed) :
    r.Adds room p (r.chronicling.visit room n p).2 := by
  induction room generalizing n p with
  | zero => exact .of_world (world_visit_of_unopened unopened_zero)
  | succ room ih =>
    by_cases hun : r.chronicling.Unopened (room + 1) n p
    · exact .of_world (world_visit_of_unopened hun)
    rw [visit_succ]
    rcases opened_cases hun with ⟨type, logic, hr, hu, hb⟩ | ⟨l, hr, ha, hu⟩
    · have hn := Node.isDecision_of_role hr
      rw [visitNode_decision hr, visitDecision_some hr hu hb]
      refine adds_decide hn fun q hq => ?_
      obtain ⟨hi, -, hs⟩ := advances_opening (r := r.chronicling) (n := n) hl
      rw [Progress.ledger_eq, ← hq] at hi hs
      exact ⟨adds_runDecision hk ih hi, exists_outcome_runDecision hk.chronicling hn hi (hs hn)⟩
    · have hn := Node.isKnowledge_of_role hr
      rw [visitNode_knowledge hr, visitKnowledge_some ha hu]
      refine adds_inform hn fun q hq => ?_
      rw [Progress.ledger_eq, ← hq] at hl
      exact exists_runKnowledge hk ih hn hl

theorem adds_run (hk : r.host.KeepsLedger) (s : Selection) (c : Context) (w : σ) :
    r.Adds r.maxDepth (r.chronicling.start c (w, [])) (r.chronicling.run s c (w, [])) := by
  have hrun : (r.chronicling.run s c (w, [])).ledger.Indexed ∧
      r.Adds r.maxDepth (r.chronicling.start c (w, [])) (r.chronicling.run s c (w, [])) := by
    refine run_induction (P := fun p => p.ledger.Indexed ∧
      r.Adds r.maxDepth (r.chronicling.start c (w, [])) p) ?_ ?_ ?_
    · exact ⟨r.model.indexed_freshLedger, .of_world rfl⟩
    · rintro n p - ⟨hl, hp⟩
      exact ⟨((lawful_ledger hk.chronicling).visit r.maxDepth n p hl).1,
        hp.trans (adds_visit hk r.maxDepth n p hl)⟩
    · exact fun d p hp => ⟨hp.1, hp.2.update _⟩
  exact hrun.2

end Request

end DecisionGraph
