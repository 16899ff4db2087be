import DecisionGraph.Proofs.Hooks
import DecisionGraph.Proofs.Unwinding

namespace DecisionGraph

variable {L σ : Type}

theorem Bracketed.append {k : Nat} {l l' : List Event} (h : Bracketed k l) (h' : Bracketed k l') :
    Bracketed k (l ++ l') := by
  induction h with
  | nil => exact h'
  | decision ho hi _ _ ih =>
    simpa only [List.cons_append, List.append_assoc] using Bracketed.decision ho hi (ih h')
  | knowledge hi _ _ ih =>
    simpa only [List.cons_append, List.append_assoc] using Bracketed.knowledge hi (ih h')

namespace PanickyRequest

/-- What the listeners are told of a node that a panic leaves, around what they were told meanwhile.
A decision ends with the outcome that it has then, which says that it is still being evaluated, or
that a dependency was found unresolved. A business knowledge model does not end. -/
inductive Leaves (r : PanickyRequest L σ) (l : Ledger) (n : Node L) (inner : List Event) :
    List Event → Prop where
  | decision {o : Outcome} : n.isDecision → l.find? (r.key n) = some o →
      o.status = .evaluating ∨ o.status = .skipped →
      Leaves r l n inner (.decision .before n.info.subject none ::
        (inner ++ [.decision .after n.info.subject (some o)]))
  | knowledge : n.isKnowledge → Leaves r l n inner (.knowledge .before n.info.subject :: inner)

/-- The logic of a node panics, while the node is being evaluated with all dependencies resolved. -/
def Panics (r : PanickyRequest L σ) (l : Ledger) (n : Node L) : Prop :=
  (∃ logic e w, n.role.logic? = some logic ∧ r.panics logic e w = true) ∧
    (n.isDecision → l.status (r.key n) = .evaluating)

/-- Words of events that a panic cuts short in the evaluation of one of these nodes. Either the
node's own logic panics, or that of a node that it requires, directly or through others. -/
inductive Torn (r : PanickyRequest L σ) (l : Ledger) : List (Node L) → Nat → List Event → Prop where
  | own {ds : List (Node L)} {n : Node L} {k : Nat} {done inner last : List Event} : n ∈ ds →
      r.Panics l n → Bracketed (k + 1) done → Bracketed k inner → r.Leaves l n inner last →
      Torn r l ds (k + 1) (done ++ last)
  | within {ds : List (Node L)} {n : Node L} {k : Nat} {done inner last : List Event} : n ∈ ds →
      Bracketed (k + 1) done → Torn r l (r.model.requirements n) k inner →
      r.Leaves l n inner last → Torn r l ds (k + 1) (done ++ last)

/-- What the listeners are told within the evaluation of a node that a panic leaves. -/
def Broken (r : PanickyRequest L σ) (l : Ledger) (n : Node L) (k : Nat) (word : List Event) :
    Prop :=
  (r.Panics l n ∧ Bracketed k word) ∨ r.Torn l (r.model.requirements n) k word

section words

variable {r : PanickyRequest L σ} {l : Ledger} {n : Node L} {ds ds' : List (Node L)} {k : Nat}
  {done word inner : List Event}

theorem Torn.prepend (hd : Bracketed k done) (h : r.Torn l ds k word) :
    r.Torn l ds k (done ++ word) := by
  cases h with
  | own hn hp hdone hi hlast =>
    rw [← List.append_assoc]
    exact .own hn hp (hd.append hdone) hi hlast
  | within hn hdone hi hlast =>
    rw [← List.append_assoc]
    exact .within hn (hd.append hdone) hi hlast

theorem Torn.mono (hds : ∀ n ∈ ds, n ∈ ds') (h : r.Torn l ds k word) : r.Torn l ds' k word := by
  cases h with
  | own hn hp hdone hi hlast => exact .own (hds _ hn) hp hdone hi hlast
  | within hn hdone hi hlast => exact .within (hds _ hn) hdone hi hlast

theorem Broken.prepend (hd : Bracketed k done) (h : r.Broken l n k word) :
    r.Broken l n k (done ++ word) := by
  rcases h with ⟨hp, hw⟩ | h
  · exact .inl ⟨hp, hd.append hw⟩
  · exact .inr (h.prepend hd)

theorem Broken.torn (h : r.Broken l n k inner) (hw : r.Leaves l n inner word) :
    r.Torn l [n] (k + 1) word := by
  rcases h with ⟨hp, hi⟩ | h
  · exact .own List.mem_cons_self hp (.nil _) hi hw
  · exact .within List.mem_cons_self (.nil _) h hw

/-- The event is the end of a decision that it calls unfinished. -/
def Unfinished (e : Event) : Prop :=
  ∃ s o, e = .decision .after s (some o) ∧ o.status.isTerminal = false

def isKnowledge (phase : Phase) : Event → Bool
  | .knowledge p _ => p == phase
  | .decision .. => false

/-- How many events tell that a business knowledge model begins, or that one has ended. -/
def count (phase : Phase) (word : List Event) : Nat := word.countP (isKnowledge phase)

theorem count_append (phase : Phase) (u v : List Event) :
    count phase (u ++ v) = count phase u + count phase v := List.countP_append

theorem count_of_bracketed (h : Bracketed k word) : count .before word = count .after word := by
  induction h with
  | nil => rfl
  | decision _ _ _ hi ih =>
    simp only [count] at hi ih
    simp [count, isKnowledge, hi, ih]
  | knowledge _ _ hi ih =>
    simp only [count] at hi ih
    simp [count, isKnowledge, hi, ih, Nat.add_assoc]

theorem not_unfinished_of_bracketed (h : Bracketed k word) : ∀ e ∈ word, ¬Unfinished e := by
  induction h with
  | nil => simp
  | decision ho _ _ hi ih =>
    simp only [List.forall_mem_cons, List.forall_mem_append]
    refine ⟨by rintro ⟨_, _, ⟨⟩, _⟩, hi, ?_, ih⟩
    rintro ⟨_, _, ⟨⟩, hs⟩
    exact Bool.false_ne_true (hs.symm.trans ho)
  | knowledge _ _ hi ih =>
    simp only [List.forall_mem_cons, List.forall_mem_append]
    exact ⟨by rintro ⟨_, _, ⟨⟩, _⟩, hi, by rintro ⟨_, _, ⟨⟩, _⟩, ih⟩

theorem Leaves.count (h : r.Leaves l n inner word) :
    count .before word = count .before inner + (if n.isKnowledge then 1 else 0) ∧
      count .after word = count .after inner := by
  cases h with
  | decision hn =>
    simp [PanickyRequest.count, isKnowledge, Node.not_isKnowledge hn]
  | knowledge hn => simp [PanickyRequest.count, isKnowledge, hn]

theorem Leaves.mem (h : r.Leaves l n inner word) {e : Event} (he : e ∈ inner) : e ∈ word := by
  cases h with
  | decision => exact List.mem_cons_of_mem _ (List.mem_append_left _ he)
  | knowledge => exact List.mem_cons_of_mem _ he

theorem Leaves.unfinished (h : r.Leaves l n inner word) (hp : r.Panics l n) :
    (∃ e ∈ word, Unfinished e) ∨ n.isKnowledge := by
  cases h with
  | @decision o hn hfind =>
    have hs := hp.2 hn
    rw [Ledger.status_of_find? hfind] at hs
    exact .inl ⟨.decision .after n.info.subject (some o), by simp, _, _, rfl, by rw [hs]; rfl⟩
  | knowledge hn => exact .inr hn

theorem Torn.unfinished (h : r.Torn l ds k word) : count .after word ≤ count .before word ∧
    ((∃ e ∈ word, Unfinished e) ∨ count .after word < count .before word) := by
  induction h with
  | own hn hp hdone hi hlast =>
    obtain ⟨hbefore, hafter⟩ := hlast.count
    rw [count_append, count_append, count_of_bracketed hdone, hbefore, hafter,
      count_of_bracketed hi]
    refine ⟨by omega, (hlast.unfinished hp).imp ?_ fun hk => ?_⟩
    · exact fun ⟨e, he, hu⟩ => ⟨e, List.mem_append_right _ he, hu⟩
    · rw [if_pos hk]
      omega
  | within hn hdone hi hlast ih =>
    obtain ⟨hle, hor⟩ := ih
    obtain ⟨hbefore, hafter⟩ := hlast.count
    rw [count_append, count_append, count_of_bracketed hdone, hbefore, hafter]
    refine ⟨by omega, hor.imp ?_ fun hlt => by omega⟩
    exact fun ⟨e, he, hu⟩ => ⟨e, List.mem_append_right _ (hlast.mem he), hu⟩

/-- No panic leaves the listeners with a word of brackets. -/
theorem Torn.not_bracketed (h : r.Torn l ds k word) (m : Nat) : ¬Bracketed m word := by
  intro hb
  rcases h.unfinished.2 with ⟨e, he, hu⟩ | hlt
  · exact not_unfinished_of_bracketed hb e he hu
  · exact Nat.ne_of_lt hlt (count_of_bracketed hb).symm

end words

def chronicling (r : PanickyRequest L σ) : PanickyRequest L (σ × List (Entry L σ)) :=
  r.onHost r.host.chronicling fun l e w => r.panics l e w.1

def chronicle (r : PanickyRequest L σ) (s : Selection) (c : Context) (w : σ) :
    List (Entry L σ) :=
  (r.chronicling.run s c (w, [])).progress.world.2

/-- The events on the way from one point to another are of this kind, as long as someone listens. -/
def Sends (r : Request L σ) (p q : Progress (σ × List (Entry L σ))) (P : List Event → Prop) :
    Prop :=
  ∃ new, Request.Calls p new q ∧ (r.host.listening p.world.1 = true → r.Attended new →
    P (new.flatMap Entry.events))

section sends

variable {r : Request L σ} {p q s : Progress (σ × List (Entry L σ))} {P Q S : List Event → Prop}

theorem sends_of_adds {k : Nat} (h : r.Adds k p q) : Sends r p q (Bracketed k) := by
  obtain ⟨new, hc, hnew⟩ := h
  refine ⟨new, hc, fun hp ha => ?_⟩
  have hb := (hnew hp ha).bracketed
  rwa [List.flatMap_map] at hb

theorem Sends.mono (h : Sends r p q P) (hQ : ∀ word, P word → Q word) : Sends r p q Q := by
  obtain ⟨new, hc, hnew⟩ := h
  exact ⟨new, hc, fun hp ha => hQ _ (hnew hp ha)⟩

theorem Sends.append (h : Sends r p q P) (h' : Sends r q s Q)
    (hS : ∀ u v, r.host.listening q.world.1 = true → P u → Q v → S (u ++ v)) :
    Sends r p s S := by
  obtain ⟨new, hc, hnew⟩ := h
  obtain ⟨new', hc', hnew'⟩ := h'
  refine ⟨new ++ new', hc.append hc', fun hp ha => ?_⟩
  obtain ⟨ha, ha'⟩ := ha.split
  have hq := ha.listening hc hp
  rw [List.flatMap_append]
  exact hS _ _ hq (hnew hp ha) (hnew' hq ha')

end sends

/-- A panic leads from a point within the evaluation of a node to one at which it leaves the node.
-/
def Escapes (r : PanickyRequest L σ) (n : Node L) (k : Nat)
    (p q : Progress (σ × List (Entry L σ))) : Prop :=
  (∃ b, r.toRequest.chronicling.Advances n b p.ledger q.ledger) ∧
    Sends r.toRequest p q (r.Broken q.ledger n k)

/-- A panic leads from the start of a visit to its end. -/
def Tears (r : PanickyRequest L σ) (n : Node L) (k : Nat)
    (p q : Progress (σ × List (Entry L σ))) : Prop :=
  q.ledger.Indexed ∧ p.ledger.Keeps none q.ledger ∧
    Sends r.toRequest p q (r.Torn q.ledger [n] k)

variable {r : PanickyRequest L σ} {n d : Node L} {k : Nat} {name : String}
  {p p' q : Progress (σ × List (Entry L σ))}

theorem Escapes.after {b : Bool} (ha : r.toRequest.Adds k p p')
    (hl : r.toRequest.chronicling.Advances n b p.ledger p'.ledger) (h : r.Escapes n k p' q) :
    r.Escapes n k p q := by
  obtain ⟨⟨b', hl'⟩, hw⟩ := h
  exact ⟨⟨_, hl.trans hl'⟩, (sends_of_adds ha).append hw fun _ _ _ hu hv => hv.prepend hu⟩

theorem Tears.escapes (h : r.Tears d k p q) (hd : d ∈ r.model.requirements n) :
    r.Escapes n k p q := by
  obtain ⟨hi, hk, hw⟩ := h
  refine ⟨⟨true, .of_keeps hi hk⟩, hw.mono fun word ht => .inr (ht.mono fun m hm => ?_)⟩
  obtain rfl := List.mem_singleton.mp hm
  exact hd

theorem leaves_of_ongoing {l : Ledger} {inner : List Event} (hn : n.isDecision)
    (ho : r.toRequest.Ongoing n l) :
    r.Leaves l n inner (.decision .before n.info.subject none ::
      (inner ++ [.decision .after n.info.subject (l.find? (r.key n))])) := by
  obtain ⟨o, hfind⟩ := Option.isSome_iff_exists.mp (Ledger.find?_isSome_of_ongoing (ho hn))
  have hs := ho hn
  rw [Ledger.status_of_find? hfind] at hs
  rw [hfind]
  exact .decision hn hfind hs

section levels

variable (hk : r.host.KeepsLedger) {room : Nat}

include hk

theorem follows_callLogic {l : L} (hl : n.role.logic? = some l) (hi : p.ledger.Indexed)
    (hs : n.isDecision → p.ledger.status (r.key n) = .evaluating) :
    (r.chronicling.callLogic n l p).Follows (r.toRequest.chronicling.callLogic n l p)
      (r.Escapes n k p) := by
  unfold callLogic
  dsimp only
  split
  next hpanic =>
    have hsame := Request.ledger_callLogic (r := r.toRequest.chronicling) hk.chronicling n l p
    have hkeeps : r.toRequest.chronicling.Advances n true p.ledger
        (r.toRequest.chronicling.callLogic n l p).2.ledger := by
      rw [hsame]
      exact .refl hi
    have hcalls : r.toRequest.Adds k p (r.toRequest.chronicling.callLogic n l p).2 :=
      (Request.Adds.of_world rfl).callLogic n l
    have hpanics : r.Panics (r.toRequest.chronicling.callLogic n l p).2.ledger n :=
      ⟨⟨l, _, _, hl, hpanic⟩, hsame ▸ hs⟩
    exact ⟨⟨true, hkeeps⟩, (sends_of_adds hcalls).mono fun word hw => .inl ⟨hpanics, hw⟩⟩
  next => rfl

variable (hv : ∀ (d : Node L) (p : Progress (σ × List (Entry L σ))), p.ledger.Indexed →
  (r.chronicling.visit room d p).Follows (r.toRequest.chronicling.visit room d p)
    (r.Tears d room p))

omit hk

include hv

theorem follows_descend (hm : d ∈ r.model.requirements n) (hi : p.ledger.Indexed) (w : Passage) :
    (descend (r.chronicling.visit room) d w p).Follows
      (Request.descend (r.toRequest.chronicling.visit room) d w p) (r.Escapes n room p) := by
  cases w with
  | here => exact (hv d p hi).mono fun q hq => hq.escapes hm
  | closed => exact (hv d p hi).mono fun q hq => hq.escapes hm
  | through a =>
    rw [descend_through, Request.descend_through]
    have hvisit := hv d (p.update (·.onContext (·.push ⟨a, d.info.ns⟩))) hi
    -- The frames that are opened and closed are no part of the ledger, nor of the world.
    exact Trial.Follows.atExit (hvisit.mono fun q hq => hq.escapes hm) rfl

theorem follows_provide (hm : d ∈ r.model.requirements n) (hi : p.ledger.Indexed) :
    (r.chronicling.provide (r.chronicling.visit room) n d name p).Follows
      (r.toRequest.chronicling.provide (r.toRequest.chronicling.visit room) n d name p)
      (r.Escapes n room p) := by
  cases hu : r.toRequest.chronicling.isDefined p.context n.info d.info with
  | true =>
    rw [provide_of_defined (r := r.chronicling) hu, Request.provide_of_defined hu]
    rfl
  | false =>
    by_cases hw : r.toRequest.chronicling.model.passage p.context n.info d.info = .closed
    · rw [provide_of_closed (r := r.chronicling) hu hw, Request.provide_of_closed hu hw]
      rfl
    · rw [provide_of_open (r := r.chronicling) hu hw, Request.provide_of_open hu hw]
      exact (follows_descend hv hm hi _).andDo rfl

include hk

theorem follows_resolveOne {id : Nat} (he : (name, id) ∈ n.info.dependencies.toList)
    (hi : p.ledger.Indexed) :
    (r.chronicling.resolveOne (r.chronicling.visit room) n name id p).Follows
      (r.toRequest.chronicling.resolveOne (r.toRequest.chronicling.visit room) n name id p)
      (r.Escapes n room p) := by
  cases hd : r.toRequest.chronicling.model.node? id with
  | none =>
    have hd' : r.chronicling.model.node? id = none := hd
    unfold resolveOne Request.resolveOne
    rw [hd, hd']
    rfl
  | some d =>
    have hm : d ∈ r.model.requirements n := Model.mem_requirements he hd
    have hc : r.toRequest.Adds room p (r.toRequest.chronicling.checkInput n d name p).2 :=
      (Request.Adds.of_world rfl).checkInput n d name
    have ha := (Request.lawful_ledger hk.chronicling).lifts.checkInput p he hd hi
    rw [resolveOne_of_some (r := r.chronicling) hd, Request.resolveOne_of_some hd]
    refine Trial.Follows.ite (fun _ => rfl) fun _ => Trial.Follows.andDo ?_ rfl
    exact Trial.Follows.mono (follows_provide hv hm ha.indexed) fun q hq => hq.after hc ha

theorem follows_resolveList (deps : List (String × Nat))
    (hs : ∀ e ∈ deps, e ∈ n.info.dependencies.toList) (hi : p.ledger.Indexed) :
    (r.chronicling.resolveList (r.chronicling.visit room) n deps p).Follows
      (r.toRequest.chronicling.resolveList (r.toRequest.chronicling.visit room) n deps p)
      (r.Escapes n room p) := by
  have hlaw := Request.lawful_ledger (r := r.toRequest.chronicling) hk.chronicling
  induction deps generalizing p with
  | nil => rfl
  | cons e deps ih =>
    obtain ⟨name, id⟩ := e
    have he : (name, id) ∈ n.info.dependencies.toList := hs _ List.mem_cons_self
    have hone := Request.adds_resolveOne hk (Request.adds_visit hk room) he hi
    have ha := hlaw.resolveOne (fun d p => hlaw.visit room d p) p he hi
    have hrest := ih (fun e he => hs e (List.mem_cons_of_mem _ he)) ha.indexed
    refine (follows_resolveOne hk hv he hi).andThen ?_
    rw [Request.resolveList_cons]
    refine Trial.Follows.ite (fun _ => rfl) fun _ => Trial.Follows.andDo ?_ rfl
    exact Trial.Follows.mono hrest fun q hq => hq.after hone ha

theorem follows_resolve (n : Node L) (hi : p.ledger.Indexed) :
    (r.chronicling.resolve (r.chronicling.visit room) n p).Follows
      (r.toRequest.chronicling.resolve (r.toRequest.chronicling.visit room) n p)
      (r.Escapes n room p) :=
  follows_resolveList hk hv _ (fun _ he => he) hi

theorem follows_runDecision {type : DeclaredType} {logic : Option L}
    (hr : n.role = .decision type logic) (hi : p.ledger.Indexed)
    (hs : p.ledger.status (r.key n) = .evaluating) :
    (r.chronicling.runDecision (r.chronicling.visit room) n type logic p).Follows
      (r.toRequest.chronicling.runDecision (r.toRequest.chronicling.visit room) n type logic p)
      (r.Escapes n room p) := by
  have hlaw := Request.lawful_ledger (r := r.toRequest.chronicling) hk.chronicling
  have hres := Request.adds_resolve hk (Request.adds_visit hk room) (n := n) hi
  have ha := hlaw.resolve (fun d p => hlaw.visit room d p) n p hi
  refine (follows_resolve hk hv n hi).andThen ?_
  refine Trial.Follows.ite (fun _ => rfl) fun hready => ?_
  cases logic with
  | none => rfl
  | some l =>
    have hl : n.role.logic? = some l := by rw [hr, Role.logic?]
    -- No dependency came out unresolved, so that the decision is not skipped.
    have hready : (r.toRequest.chronicling.resolve _ n p).1 = true :=
      (Bool.not_eq_false _).mp fun h => hready (congrArg not h)
    have hstill (hn : n.isDecision) := (ha.status hn (.inl hs)).trans ((if_pos hready).trans hs)
    exact Trial.Follows.andDo (Trial.Follows.mono (follows_callLogic hk hl ha.indexed hstill)
      fun q hq => hq.after hres ha) rfl

omit hk hv

/-- A panic leaves a node that was opened in progress, and no outcome that blocked is changed. -/
theorem keeps_of_opened {b : Bool} (hn : n.isDecision ∨ n.isKnowledge)
    (hb : n.isDecision → (p.ledger.status (r.key n)).blocksReentry = false) (hi : p.ledger.Indexed)
    (ha : r.toRequest.chronicling.Advances n b (r.toRequest.chronicling.opening n p).ledger
      q.ledger) :
    p.ledger.Keeps none q.ledger ∧ r.toRequest.Ongoing n q.ledger := by
  obtain ⟨-, hopen, hs⟩ := Request.advances_opening (r := r.toRequest.chronicling) (n := n) hi
  refine ⟨?_, ha.ongoing fun hd => .inl (hs hd)⟩
  rcases hn with hn | hn
  · have hkeeps := hopen.trans ha.keeps
    rw [Request.ownKey?_of_decision hn] at hkeeps
    exact hkeeps.close (hb hn)
  · exact Request.keeps_knowledge hn hi ha

include hk hv

/-- The guard of a decision sends its last event on the way of a panic as well. -/
theorem follows_decide {type : DeclaredType} {logic : Option L}
    (hr : n.role = .decision type logic) (hi : p.ledger.Indexed)
    (hb : (p.ledger.status (r.key n)).blocksReentry = false) :
    (r.chronicling.decide (r.chronicling.visit room) n type logic
        (r.toRequest.chronicling.opening n p)).Follows
      (r.toRequest.chronicling.decide (r.toRequest.chronicling.visit room) n type logic
        (r.toRequest.chronicling.opening n p)) (r.Tears n (room + 1) p) := by
  have hn := Node.isDecision_of_role hr
  have hopen := Request.calls_opening r.toRequest n p
  obtain ⟨hio, -, hs⟩ := Request.advances_opening (r := r.toRequest.chronicling) (n := n) hi
  refine Trial.Follows.ite (fun hl => ?_) fun hl => ?_
  · have hrun := follows_runDecision hk hv hr (p := r.toRequest.chronicling.notify
      (.decision .before n.info.subject none) (r.toRequest.chronicling.opening n p)) hio (hs hn)
    refine Trial.Follows.atExit (Trial.Follows.andDo (hrun.mono fun q hq => ?_) rfl) rfl
    obtain ⟨⟨b, ha⟩, new, hc, hnew⟩ := hq
    obtain ⟨hkeeps, hon⟩ := keeps_of_opened (.inl hn) (fun _ => hb) hi ha
    have hbefore := Request.calls_notify r.toRequest (.decision .before n.info.subject none)
      (r.toRequest.chronicling.opening n p)
    have hafter := Request.calls_notify r.toRequest
      (.decision .after n.info.subject (q.ledger.find? (r.key n))) q
    refine ⟨ha.indexed, hkeeps, _, hopen.append (hbefore.append (hc.append hafter)),
      fun hp hall => ?_⟩
    obtain ⟨-, hall⟩ := hall.split
    obtain ⟨htold, hall⟩ := hall.split
    obtain ⟨hin, -⟩ := hall.split
    have hbroken := hnew (htold.listening hbefore hl) hin
    simpa [Entry.events, Mark.events] using hbroken.torn (leaves_of_ongoing hn hon)
  · refine Trial.Follows.andDo (Trial.Follows.mono (follows_runDecision hk hv hr hio (hs hn))
      fun q hq => ?_) rfl
    obtain ⟨⟨b, ha⟩, new, hc, -⟩ := hq
    obtain ⟨hkeeps, -⟩ := keeps_of_opened (.inl hn) (fun _ => hb) hi ha
    refine ⟨ha.indexed, hkeeps, _, hopen.append hc, fun hp hall => ?_⟩
    obtain ⟨hopened, -⟩ := hall.split
    exact absurd (hopened.listening hopen hp) hl

theorem follows_provideFunction {l : L} (hr : n.role = .knowledge (some l))
    (hi : p.ledger.Indexed) :
    (r.chronicling.provideFunction (r.chronicling.visit room) n l p).Follows
      ((), r.toRequest.chronicling.provideFunction (r.toRequest.chronicling.visit room) n l p)
      (r.Escapes n room p) := by
  have hl : n.role.logic? = some l := by rw [hr, Role.logic?]
  have hnot {s : Prop} (hd : n.isDecision) : s :=
    absurd hd (Node.not_isDecision (Node.isKnowledge_of_role hr))
  have hlaw := Request.lawful_ledger (r := r.toRequest.chronicling) hk.chronicling
  have hres := Request.adds_resolve hk (Request.adds_visit hk room) (n := n) hi
  have ha := hlaw.resolve (fun d p => hlaw.visit room d p) n p hi
  refine (follows_resolve hk hv n hi).andThen ?_
  unfold Request.provideFunction
  dsimp only
  rw [apply_ite (Prod.mk ())]
  refine Trial.Follows.ite (fun _ => rfl) fun _ => ?_
  exact Trial.Follows.andDo (Trial.Follows.mono (follows_callLogic hk hl ha.indexed hnot)
    fun q hq => hq.after hres ha) rfl

/-- The last event of a business knowledge model is not sent on the way of a panic. -/
theorem follows_inform {l : L} (hr : n.role = .knowledge (some l)) (hi : p.ledger.Indexed) :
    (r.chronicling.inform (r.chronicling.visit room) n l p).Follows
      ((), r.toRequest.chronicling.inform (r.toRequest.chronicling.visit room) n l p)
      (r.Tears n (room + 1) p) := by
  have hn := Node.isKnowledge_of_role hr
  have hb : n.isDecision → (p.ledger.status (r.key n)).blocksReentry = false :=
    fun hd => absurd hd (Node.not_isDecision hn)
  -- The listeners change nothing of the evaluation, from which the node is opened.
  have hrun (p' : Progress (σ × List (Entry L σ))) (he : p'.evaluation = p.evaluation) :
      (r.chronicling.runKnowledge (r.chronicling.visit room) n l p').Follows
        ((), r.toRequest.chronicling.runKnowledge (r.toRequest.chronicling.visit room) n l p')
        (r.Escapes n room (r.toRequest.chronicling.opening n p')) := by
    have hi' : p'.ledger.Indexed := by rwa [Progress.ledger_eq, he]
    obtain ⟨hio, -, -⟩ := Request.advances_opening (r := r.toRequest.chronicling) (n := n) hi'
    rw [Request.runKnowledge_eq _ _ hn]
    rw [Request.opening_of_knowledge hn] at hio ⊢
    exact (follows_provideFunction hk hv hr hio).andDo rfl
  unfold inform announced Request.inform
  rw [Request.announced_eq]
  by_cases hl : r.toRequest.chronicling.host.listening p.world = true
  · have hl' : r.chronicling.host.listening p.world = true := hl
    rw [if_pos hl, if_pos hl']
    refine Trial.Follows.andDo (Trial.Follows.mono (hrun (r.toRequest.chronicling.notify
      (.knowledge .before n.info.subject) p) rfl) fun q hq => ?_) rfl
    obtain ⟨⟨b, ha⟩, new, hc, hnew⟩ := hq
    obtain ⟨hkeeps, -⟩ := keeps_of_opened (p := r.toRequest.chronicling.notify
      (.knowledge .before n.info.subject) p) (.inr hn) hb hi ha
    have hbefore := Request.calls_notify r.toRequest (.knowledge .before n.info.subject) p
    have hopen := Request.calls_opening r.toRequest n
      (r.toRequest.chronicling.notify (.knowledge .before n.info.subject) p)
    refine ⟨ha.indexed, hkeeps, _, hbefore.append (hopen.append hc), fun hp hall => ?_⟩
    obtain ⟨htold, hall⟩ := hall.split
    obtain ⟨hopened, hin⟩ := hall.split
    have hbroken := hnew (hopened.listening hopen (htold.listening hbefore hp)) hin
    simpa [Entry.events, Mark.events] using hbroken.torn (.knowledge hn)
  · have hl' : ¬r.chronicling.host.listening p.world = true := hl
    rw [if_neg hl, if_neg hl']
    refine Trial.Follows.mono (hrun p rfl) fun q hq => ?_
    obtain ⟨⟨b, ha⟩, new, hc, -⟩ := hq
    obtain ⟨hkeeps, -⟩ := keeps_of_opened (.inr hn) hb hi ha
    have hopen := Request.calls_opening r.toRequest n p
    exact ⟨ha.indexed, hkeeps, _, hopen.append hc, fun hp => absurd hp hl⟩

end levels

/-- On every level a visit comes out as if nothing could panic, or a panic tears it. -/
theorem follows_visit (hk : r.host.KeepsLedger) (room : Nat) (n : Node L)
    (p : Progress (σ × List (Entry L σ))) (hi : p.ledger.Indexed) :
    (r.chronicling.visit room n p).Follows (r.toRequest.chronicling.visit room n p)
      (r.Tears n room p) := by
  induction room generalizing n p with
  | zero =>
    rw [visit_of_unopened (r := r.chronicling) Request.unopened_zero]
    rfl
  | succ room ih =>
    by_cases hun : r.toRequest.chronicling.Unopened (room + 1) n p
    · rw [visit_of_unopened (r := r.chronicling) hun]
      rfl
    rcases Request.opened_cases hun with ⟨type, logic, hr, hu, hb⟩ | ⟨l, hr, ha, hu⟩
    · rw [visit_decision (r := r.chronicling) hr hu hb, Request.visit_succ,
        Request.visitNode_decision hr, Request.visitDecision_some hr hu hb]
      exact (follows_decide hk ih hr hi hb).andDo rfl
    · rw [visit_knowledge (r := r.chronicling) hr ha hu, Request.visit_succ,
        Request.visitNode_knowledge hr, Request.visitKnowledge_some ha hu]
      exact (follows_inform hk ih hr hi).andDo rfl

theorem follows_serve (hk : r.host.KeepsLedger) {e : Errand L}
    (he : ∀ n, e = .evaluate n → n ∈ r.model.localDecisions) (hi : p.ledger.Indexed) :
    (r.chronicling.serve e p).Follows ((), r.toRequest.chronicling.serve p e) fun q =>
      Sends r.toRequest p q (r.Torn q.ledger r.model.localDecisions r.maxDepth) := by
  cases e with
  | evaluate n =>
    refine Trial.Follows.andDo (Trial.Follows.mono (follows_visit hk r.maxDepth n p hi)
      fun q hq => hq.2.2.mono fun word hw => hw.mono fun m hm => ?_) rfl
    rw [List.mem_singleton.mp hm]
    exact he n rfl
  | miss d => rfl

theorem adds_serve (hk : r.host.KeepsLedger) (e : Errand L) (hi : p.ledger.Indexed) :
    (r.toRequest.chronicling.serve p e).ledger.Indexed ∧
      r.toRequest.Adds r.maxDepth p (r.toRequest.chronicling.serve p e) := by
  cases e with
  | evaluate n =>
    exact ⟨((Request.lawful_ledger (r := r.toRequest.chronicling) hk.chronicling).visit
      r.maxDepth n p hi).1, Request.adds_visit hk r.maxDepth n p hi⟩
  | miss d => exact ⟨hi, .of_world rfl⟩

/-- A request comes out as if nothing could panic, or a panic tears it in one of the model's own
decisions. -/
theorem follows_run (hk : r.host.KeepsLedger) (s : Selection) (c : Context) (w : σ) :
    (r.chronicling.run s c (w, [])).Follows ((), r.toRequest.chronicling.run s c (w, []))
      fun q => Sends r.toRequest (r.toRequest.chronicling.start c (w, [])) q
        (r.Torn q.ledger r.model.localDecisions r.maxDepth) := by
  have hes : ∀ e ∈ r.model.errands s, ∀ n, e = .evaluate n → n ∈ r.model.localDecisions :=
    fun e he n hn => Model.mem_localDecisions_of_mem_errands (hn ▸ he)
  have hmodel : r.chronicling.model.errands s = r.model.errands s := rfl
  have hmodel' : r.toRequest.chronicling.model.errands s = r.model.errands s := rfl
  have hstart : (r.toRequest.chronicling.start c (w, [])).ledger.Indexed :=
    r.model.indexed_freshLedger
  rw [run_eq, Request.run_eq, hmodel, hmodel']
  change Trial.Follows _ _ (each r.chronicling.serve (r.model.errands s)
    (r.toRequest.chronicling.start c (w, [])))
  generalize r.toRequest.chronicling.start c (w, []) = p at hstart ⊢
  generalize r.model.errands s = es at hes ⊢
  induction es generalizing p with
  | nil => rfl
  | cons e es ih =>
    obtain ⟨hi, hadds⟩ := adds_serve hk e hstart
    refine (follows_serve hk (hes e List.mem_cons_self) hstart).andThen ?_
    exact Trial.Follows.mono (ih _ hi fun e he => hes e (List.mem_cons_of_mem _ he))
      fun q hq => (sends_of_adds hadds).append hq fun _ _ _ hu hv => hv.prepend hu

theorem inStep_chronicling (r : PanickyRequest L σ) :
    r.chronicling.InStep r.host r.panics fun p q => q = p.map Prod.fst where
  toInStep := Request.inStep_map (r := r.toRequest.chronicling) r.host.chronicling_projects
  panics_eq l hq := by
    subst hq
    rfl

theorem paired_run (r : PanickyRequest L σ) (s : Selection) (c : Context) (w : σ) :
    (r.chronicling.run s c (w, [])).Paired (fun p q => q = p.map Prod.fst) (r.run s c w) :=
  r.inStep_chronicling.runs s rfl

/-- On a steady host someone listens throughout a request, and the listener is told every event. -/
theorem heeded_run {kind : σ → Prop} {heard : σ → List Event} (hs : r.host.Steady kind heard)
    {w : σ} (hw : kind w) (s : Selection) (c : Context) :
    ∀ x ∈ r.chronicle s c w, r.host.listening x.after = true ∧ x.DeliversTo heard := by
  have hstep : r.chronicling.InStep r.host r.panics
      fun p q => q = p.map Prod.fst ∧ r.Heeded kind heard p :=
    { Request.inStep_heeded hs with panics_eq := fun l hq => r.inStep_chronicling.panics_eq l hq.1 }
  have hstart : r.Heeded kind heard (r.toRequest.chronicling.start c (w, [])) :=
    ⟨hw, fun x hx => absurd hx List.not_mem_nil⟩
  exact (hstep.runs s ⟨rfl, hstart⟩).progress.2.2

/-- If someone listens at the start of a request and after each call of its host, and a listener is
told all events and nothing else, then the word that it hears is that of the chronicle. If the
request returns, then it is the request that it would be without panics: the calls of its host are
in good order, and the word is one of brackets that nest no deeper than the limit allows. If a panic
ends it, the word is cut short: each decision in progress still ends, with the outcome of one that
is being evaluated, and each business knowledge model in progress does not end. Such a word is never
one of brackets. Visits that do not open their node call for nothing. -/
theorem hooks_bracketed_unless_torn (hk : r.host.KeepsLedger) (s : Selection) (c : Context) (w : σ)
    (hw : r.host.listening w = true) (heard : σ → List Event)
    (hx : ∀ x ∈ r.chronicle s c w, r.host.listening x.after = true ∧ x.DeliversTo heard) :
    (∃ word, heard (r.run s c w).progress.world = heard w ++ word ∧
      word = (r.chronicle s c w).flatMap Entry.events ∧
      (∀ p, r.run s c w = .returned () p → p = r.toRequest.run s c w ∧
        r.toRequest.Chronicled r.maxDepth ((r.chronicle s c w).map Entry.mark) ∧
        Bracketed r.maxDepth word) ∧
      ∀ p, r.run s c w = .unwound p → r.Torn p.ledger r.model.localDecisions r.maxDepth word ∧
        ∀ k, ¬Bracketed k word) ∧
    ∀ room n p, r.toRequest.chronicling.Unopened room n p →
      (r.chronicling.visit room n p).progress.world = p.world := by
  have hpair := r.paired_run s c w
  have hfollow := follows_run hk s c w
  refine ⟨?_, fun room n p h => ?_⟩
  · unfold chronicle at hx ⊢
    generalize r.run s c w = t at hpair ⊢
    generalize r.chronicling.run s c (w, []) = u at hpair hfollow hx ⊢
    cases hpair with
    | @returned _ q _ hq =>
      obtain rfl : q = r.toRequest.chronicling.run s c (w, []) := congrArg Prod.snd hfollow
      have hsame := hq.trans (Request.run_chronicling r.toRequest s c w)
      obtain ⟨hc, ⟨word, hword, hevents, hb⟩, -⟩ := Request.hooks_bracketed hk s c w hw heard hx
      rw [← hsame] at hword
      refine ⟨word, hword, hevents, fun p hp => ?_, fun p hp => (by cases hp)⟩
      cases hp
      exact ⟨hsame, hc, hb⟩
    | @unwound q _ hq =>
      obtain ⟨new, ⟨hnew, hpath⟩, hword⟩ := hfollow
      obtain rfl : q.world.2 = new := hnew
      have htorn := hword hw fun x hmem => (hx x hmem).1
      subst hq
      refine ⟨_, hpath.heard fun x hmem => (hx x hmem).2, rfl, fun p hp => (by cases hp),
        fun p hp => ?_⟩
      cases hp
      exact ⟨htorn, htorn.not_bracketed⟩
  · rw [visit_of_unopened (r := r.chronicling) h]
    exact Request.world_visit_of_unopened h

end PanickyRequest

namespace Formula

def rounding : Node Formula :=
  ⟨⟨"1", "rounding", "urn:fees", "fees", .nil, .empty⟩, .knowledge (some (function "rounding"))⟩

def fee : Node Formula :=
  ⟨⟨"2", "fee", "urn:fees", "fees", .cons "rounding" 0 .nil, .empty⟩,
    .decision any (some (defined "rounding"))⟩

def fees : Model Formula where
  id := "fees"
  ns := "urn:fees"
  name := "fees"
  typeCheck := false
  nodes := #[rounding, fee]
  imports := .empty

def feesRequest (panics : Bool) : PanickyRequest Formula World :=
  ⟨⟨fees, .gathering, true, 4, .alwaysDescend⟩, fun _ _ _ => panics⟩

def feeInProgress : Outcome := ⟨"2", "fee", .evaluating, none, []⟩

end Formula

namespace PanickyRequest

open Formula

/-- The logic of the function panics while the fee is being evaluated. A listener is told that the
fee has ended when it has not, and is never told that the function has. -/
theorem hooks_torn_fee : Host.gathering.KeepsLedger ∧
    Host.gathering.listening World.audited = true ∧
    ((feesRequest true).run .all .empty World.audited).progress.world.heardBy "trace" =
      [.decision .before fee.info.subject none, .knowledge .before rounding.info.subject,
        .decision .after fee.info.subject (some feeInProgress)] ∧
    ∀ k, ¬Bracketed k
      (((feesRequest true).run .all .empty World.audited).progress.world.heardBy "trace") := by
  have hword : ((feesRequest true).run .all .empty World.audited).progress.world.heardBy "trace" =
      [.decision .before fee.info.subject none, .knowledge .before rounding.info.subject,
        .decision .after fee.info.subject (some feeInProgress)] := rfl
  refine ⟨fun _ _ _ _ => rfl, rfl, hword, fun k hb => ?_⟩
  rw [hword] at hb
  exact not_unfinished_of_bracketed hb (.decision .after fee.info.subject (some feeInProgress))
    (by simp) ⟨_, _, rfl, rfl⟩

theorem steady_audited (panics : Bool) :
    ∀ x ∈ (feesRequest panics).chronicle .all .empty World.audited,
      Host.gathering.listening x.after = true ∧ x.DeliversTo (World.heardBy "trace") := by
  have hs : Host.gathering.Steady (fun w => w.listeners.all = [.keeping "audit" []] ++
      .keeping "trace" [] :: []) (World.heardBy "trace") :=
    World.steady (fun _ _ _ _ => rfl) fun l hl => by
      obtain rfl : l = .keeping "audit" [] := by simpa using hl
      exact .inr ⟨"audit", rfl, by decide⟩
  exact heeded_run (r := feesRequest panics) hs (w := World.audited) rfl .all .empty

/-- Without a panic the second of two listeners hears the brackets of the fee and of its function,
with one the word that is cut short. -/
theorem hooks_bracketed_unless_torn_fee :
    Host.gathering.KeepsLedger ∧ Host.gathering.listening World.audited = true ∧
    (∃ word, ((feesRequest false).run .all .empty World.audited).progress.world.heardBy "trace" =
      word ∧ word.length = 4 ∧ Bracketed 4 word) ∧
    ∃ p word, (feesRequest true).run .all .empty World.audited = .unwound p ∧
      p.world.heardBy "trace" = word ∧ word.length = 3 ∧
      (feesRequest true).Torn p.ledger [fee] 4 word := by
  have hk : Host.gathering.KeepsLedger := fun _ _ _ _ => rfl
  obtain ⟨⟨word, hword, -, hcalm, -⟩, -⟩ := hooks_bracketed_unless_torn (r := feesRequest false)
    hk .all .empty World.audited rfl (World.heardBy "trace") (steady_audited false)
  obtain ⟨⟨torn, htorn, -, -, hpanic⟩, -⟩ := hooks_bracketed_unless_torn (r := feesRequest true)
    hk .all .empty World.audited rfl (World.heardBy "trace") (steady_audited true)
  have hfour : (((feesRequest false).run .all .empty World.audited).progress.world.heardBy
    "trace").length = 4 := rfl
  have hthree : (((feesRequest true).run .all .empty World.audited).progress.world.heardBy
    "trace").length = 3 := rfl
  rw [hword] at hfour
  rw [htorn] at hthree
  exact ⟨hk, rfl, ⟨word, hword, hfour, (hcalm _ rfl).2.2⟩,
    ((feesRequest true).run .all .empty World.audited).progress, torn, rfl, htorn, hthree,
    (hpanic _ rfl).1⟩

end PanickyRequest

end DecisionGraph
