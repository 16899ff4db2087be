import DecisionGraph.Proofs.Formulas
import DecisionGraph.Proofs.Frozen
import DecisionGraph.Proofs.Growth
import DecisionGraph.Proofs.Meaning
import DecisionGraph.Proofs.Scopes

namespace DecisionGraph

variable {L σ : Type}

open Relation (TransGen)

namespace Model

def FreeDecision (m : Model L) (c : Context) (i : Nat) : Prop :=
  ∃ n, m.node? i = some n ∧ n.isDecision ∧ c.get? n.info.name = none

def FreeNeeds (m : Model L) (c : Context) (i j : Nat) : Prop :=
  m.Needs i j ∧ m.FreeDecision c i ∧ m.FreeDecision c j

/-- The decisions that need themselves, on whatever way through decisions whose names the context
does not bind. -/
def cyclic (m : Model L) (c : Context) : Set (Node L) :=
  {n | ∃ i, m.node? i = some n ∧ TransGen (m.FreeNeeds c) i i}

/-- Decisions of a model of one namespace, each of which needs another one of them. They share
their names with no other node, and their keys with no other decision. -/
structure Knot (m : Model L) (S : Set (Node L)) : Prop where
  owned : ∀ n ∈ m.nodes, n.info.ns = m.ns
  mem : ∀ n ∈ S, n ∈ m.nodes
  decision : ∀ n ∈ S, n.isDecision
  next : ∀ n ∈ S, ∃ d ∈ S, d ∈ m.requirements n
  name : ∀ n ∈ S, ∀ k ∈ m.nodes, k.info.name = n.info.name → k = n
  key : ∀ n ∈ S, ∀ k ∈ m.nodes, k.isDecision → m.key k.info = m.key n.info → k = n

variable {m : Model L} {c : Context}

theorem FreeNeeds.of_cycle {i : Nat} (h : TransGen (m.FreeNeeds c) i i) :
    ∃ j, m.FreeNeeds c i j ∧ TransGen (m.FreeNeeds c) j j := by
  obtain ⟨j, hij, hji⟩ := TransGen.head'_iff.mp h
  exact ⟨j, hij, TransGen.tail' hji hij⟩

theorem cyclic_free {n : Node L} (h : n ∈ m.cyclic c) :
    n ∈ m.nodes ∧ n.isDecision ∧ c.get? n.info.name = none := by
  obtain ⟨i, hn, hi⟩ := h
  obtain ⟨j, ⟨-, ⟨k, hk, hd, hg⟩, -⟩, -⟩ := FreeNeeds.of_cycle hi
  obtain rfl := Option.some.inj (hn.symm.trans hk)
  exact ⟨Array.mem_of_getElem? hn, hd, hg⟩

theorem cyclic_next {n : Node L} (h : n ∈ m.cyclic c) : ∃ d ∈ m.cyclic c, d ∈ m.requirements n := by
  obtain ⟨i, hn, hi⟩ := h
  obtain ⟨j, ⟨⟨k, hk, name, he⟩, -, d, hd, -⟩, hj⟩ := FreeNeeds.of_cycle hi
  obtain rfl := Option.some.inj (hn.symm.trans hk)
  exact ⟨d, ⟨j, hd, hj⟩, mem_requirements he hd⟩

theorem Built.knot (hb : m.Built) (hown : ∀ n ∈ m.nodes, m.owns n)
    (hids : (m.decisions.map fun n => n.info.id).Nodup) (c : Context) : m.Knot (m.cyclic c) := by
  have howned : ∀ n ∈ m.nodes, n.info.ns = m.ns := fun n hn => by simpa [owns] using hown n hn
  refine ⟨howned, fun n hn => (cyclic_free hn).1, fun n hn => (cyclic_free hn).2.1,
    fun n hn => cyclic_next hn, fun n hn k hk hx => ?_, fun n hn k hk hd hx => ?_⟩
  · have hmem := (cyclic_free hn).1
    exact hb.eq_of_name hk hmem (hown k hk) (hown n hmem) hx
  · obtain ⟨hmem, hnd, -⟩ := cyclic_free hn
    rw [key_of_owned (howned k hk), key_of_owned (howned n hmem)] at hx
    exact List.inj_on_of_nodup_map hids
      (List.mem_filter.mpr ⟨Array.mem_toList_iff.mpr hk, hd⟩)
      (List.mem_filter.mpr ⟨Array.mem_toList_iff.mpr hmem, hnd⟩) hx

end Model

namespace Request

variable {r : Request L σ} {S : Set (Node L)} {p q s : Progress (σ × List (Sighting L))}
  {n k : Node L} {b : Bool}

def depthMessage (r : Request L σ) (n : Node L) : Message :=
  .of .error (.evaluationDepthExceeded n.info.identifier r.maxDepth) (some n.info.id) none

/-- The decision was not entered, was skipped, or was rejected for its depth. -/
def Fruitless (r : Request L σ) (n : Node L) (l : List (Sighting L)) (o : Outcome) : Prop :=
  (o.status = .notEvaluated ∧ ∀ t ∈ l, t.moment ≠ .entered n) ∨ o.status = .skipped ∨
    (o.status = .failed ∧ r.depthMessage n ∈ o.messages)

/-- The decision is not in progress and has come to nothing so far. -/
def Dormant (r : Request L σ) (n : Node L) (p : Progress (σ × List (Sighting L))) : Prop :=
  ∃ o, p.ledger.find? (r.key n) = some o ∧ r.Fruitless n p.record o

namespace Dormant

theorem of_find? (h : r.Dormant k p) (hf : q.ledger.find? (r.key k) = p.ledger.find? (r.key k))
    (hr : q.record = p.record) : r.Dormant k q := by
  unfold Dormant
  rwa [hf, hr]

theorem watch (h : r.Dormant k p) {m : Moment L} (hm : m ≠ .entered k) :
    r.Dormant k (r.recording.watch m p) := by
  obtain ⟨o, ho, hf⟩ := h
  refine ⟨o, ho, hf.imp_left fun hnew => ⟨hnew.1, ?_⟩⟩
  rw [record_watch]
  exact List.forall_mem_append.mpr ⟨hnew.2, List.forall_mem_singleton.mpr hm⟩

theorem modify (h : r.Dormant k p) (hl : p.ledger.Indexed) (hne : r.key n ≠ r.key k)
    (f : Outcome → Outcome) (hq : q.ledger = p.ledger.modify (r.key n) f)
    (hr : q.record = p.record) : r.Dormant k q :=
  h.of_find? (by rw [hq, Ledger.find?_modify hl, if_neg hne]) hr

theorem lose (h : r.Dormant k p) (hl : p.ledger.Indexed) (hne : r.key n ≠ r.key k)
    (m : Option Message) (st : Status) : r.Dormant k (p.update (·.lose (r.key n) m st)) := by
  cases m <;> exact h.modify hl hne _ rfl rfl

theorem leave (h : r.Dormant k p) (n : Node L) :
    r.Dormant k (r.recording.watch (.left n) (p.update (·.leave (r.key n)))) :=
  watch (p := p.update (·.leave (r.key n))) h (by simp)

theorem reject (h : r.Dormant n p) (hl : p.ledger.Indexed) :
    r.Dormant n ((p.update (·.onLedger (·.ensure (r.key n) n.info.name))).update
      (·.fail (r.key n) (r.depthMessage n) .failed)) := by
  obtain ⟨o, ho, -⟩ := h
  have hens : p.ledger.ensure (r.key n) n.info.name = p.ledger :=
    Ledger.ensure_of_isSome (by rw [ho]; rfl) _
  have hfind : ((p.ledger.ensure (r.key n) n.info.name).modify (r.key n)
      (·.reportFailure (r.depthMessage n) .failed)).find? (r.key n) =
      some (o.reportFailure (r.depthMessage n) .failed) := by
    rw [hens, Ledger.find?_modify hl, if_pos rfl, ho, Option.map_some]
  exact ⟨_, hfind, .inr (.inr ⟨rfl, List.mem_append_right _ List.mem_cons_self⟩)⟩

end Dormant

theorem dormant_skip (hl : p.ledger.Indexed) (hk : (p.ledger.find? (r.key n)).isSome)
    (m : Option Message) : r.Dormant n (p.update (·.lose (r.key n) m .skipped)) := by
  obtain ⟨o, ho⟩ := Option.isSome_iff_exists.mp hk
  have hfind (f : Outcome → Outcome) :
      (p.ledger.modify (r.key n) f).find? (r.key n) = some (f o) := by
    rw [Ledger.find?_modify hl, if_pos rfl, ho, Option.map_some]
  cases m with
  | none => exact ⟨_, hfind _, .inr (.inl rfl)⟩
  | some m => exact ⟨_, hfind _, .inr (.inl rfl)⟩

def StayDormant (r : Request L σ) (S : Set (Node L))
    (p q : Progress (σ × List (Sighting L))) : Prop :=
  ∀ k ∈ S, r.Dormant k p → r.Dormant k q

theorem StayDormant.trans (h : r.StayDormant S p q) (h' : r.StayDormant S q s) :
    r.StayDormant S p s :=
  fun k hk hp => h' k hk (h k hk hp)

/-- None of the decisions is bound, and the logic of none was called. -/
structure Barren (r : Request L σ) (S : Set (Node L)) (p : Progress (σ × List (Sighting L))) :
    Prop where
  frames : p.context.frames = []
  indexed : p.ledger.Indexed
  unbound : ∀ n ∈ S, p.context.get? n.info.name = none
  uncalled : ∀ n ∈ S, ∀ t ∈ p.record, t.moment ≠ .calling n

namespace Barren

theorem of_eq (h : r.Barren S p) (hc : q.context = p.context) (hl : q.ledger.Indexed)
    (hr : q.record = p.record) : r.Barren S q := by
  exact ⟨hc ▸ h.frames, hl, hc ▸ h.unbound, hr ▸ h.uncalled⟩

theorem sight (h : r.Barren S p) {t : Sighting L} (hc : q.context = p.context)
    (hl : q.ledger.Indexed) (hr : q.record = p.record ++ [t])
    (ht : ∀ n ∈ S, t.moment ≠ .calling n) : r.Barren S q := by
  refine ⟨hc ▸ h.frames, hl, hc ▸ h.unbound, fun n hn => ?_⟩
  rw [hr]
  exact List.forall_mem_append.mpr ⟨h.uncalled n hn, List.forall_mem_singleton.mpr (ht n hn)⟩

theorem watch (h : r.Barren S p) {m : Moment L} (hm : ∀ n ∈ S, m ≠ .calling n) :
    r.Barren S (r.recording.watch m p) :=
  h.sight rfl h.indexed (record_watch r p m) hm

theorem set (h : r.Barren S p) {name : String} (hn : ∀ n ∈ S, name ≠ n.info.name) (v : Value)
    (hc : q.context = p.context.set name v) (hl : q.ledger.Indexed) (hr : q.record = p.record) :
    r.Barren S q := by
  refine ⟨by rw [hc, Context.frames_set, h.frames], hl, fun n hS => ?_, hr ▸ h.uncalled⟩
  rw [hc, Context.get?_set_of_root h.frames, if_neg (hn n hS)]
  exact h.unbound n hS

theorem reportUnresolved (h : r.Barren S p) (n : Node L) (name source : String) (d : Diagnostic) :
    r.Barren S (r.recording.reportUnresolved n name source d p) := by
  have ha := advances_reportUnresolved (r := r.recording) (n := n) h.indexed name source d
  exact h.sight (by simp) ha.indexed (record_reportUnresolved r p n name source d) (by simp)

theorem opening (h : r.Barren S p) (n : Node L) : r.Barren S (r.recording.opening n p) :=
  h.sight (by simp) (advances_opening h.indexed).1 (record_opening r p n) (by simp)

theorem lose (h : r.Barren S p) (n : Node L) (m : Option Message) (st : Status) :
    r.Barren S (p.update (·.lose (r.key n) m st)) := by
  cases m <;> exact h.of_eq rfl (h.indexed.modify _ fun _ => rfl) rfl

theorem leave (h : r.Barren S p) (n : Node L) :
    r.Barren S (r.recording.watch (.left n) (p.update (·.leave (r.key n)))) :=
  watch (p := p.update (·.leave (r.key n))) (h.of_eq rfl h.indexed rfl) (by simp)

end Barren

section knot

variable (hs : r.model.Knot S)

include hs

theorem key_ne_of_knot (hk : k ∈ S) (hmem : n ∈ r.model.nodes) (hn : n.isDecision) (hne : k ≠ n) :
    r.key n ≠ r.key k :=
  fun he => hne (hs.key k hk n hmem hn he).symm

theorem name_ne_of_knot (hmem : n ∈ r.model.nodes) (hn : n ∉ S) : ∀ k ∈ S,
    n.info.name ≠ k.info.name :=
  fun k hk he => hn (hs.name k hk n hmem he ▸ hk)

theorem Dormant.reportUnresolved (h : r.Dormant k p) (hl : p.ledger.Indexed) (hk : k ∈ S)
    (hmem : n ∈ r.model.nodes) (hne : k ≠ n) (name source : String) (d : Diagnostic) :
    r.Dormant k (r.recording.reportUnresolved n name source d p) := by
  unfold Request.reportUnresolved
  dsimp only
  refine Dormant.watch ?_ (by simp)
  split
  next hn =>
    have hkey := key_ne_of_knot hs hk hmem hn hne
    exact h.modify hl hkey (·.reportFailure _ .skipped) rfl rfl
  next => exact h

theorem Dormant.opening (h : r.Dormant k p) (hl : p.ledger.Indexed) (hk : k ∈ S)
    (hmem : n ∈ r.model.nodes) (hne : k ≠ n) : r.Dormant k (r.recording.opening n p) := by
  unfold Request.opening
  refine Dormant.watch ?_ (by simpa using hne.symm)
  split
  next hn =>
    have hkey := key_ne_of_knot hs hk hmem hn hne
    have he : r.Dormant k (p.update (·.onLedger (·.ensure (r.key n) n.info.name))) :=
      h.of_find? (by
        rw [Progress.ledger_eq]
        exact (Ledger.find?_ensure hl _ _ _).trans (if_neg hkey)) rfl
    exact he.modify (hl.ensure _ _) hkey _ rfl rfl
  next => exact h.of_find? (by simp) rfl

/-- If all that `n` needs came out resolved then `n` is not one of them. -/
theorem not_mem_of_resolve (hq : r.host.Quiet) {room : Nat}
    (hready : (r.recording.resolve (r.recording.visit room) n q).1 = true)
    (hb : r.Barren S (r.recording.resolve (r.recording.visit room) n q).2) : n ∉ S := by
  intro hn
  obtain ⟨d, hd, hreq⟩ := hs.next n hn
  obtain ⟨e, he, hde⟩ := List.mem_filterMap.mp hreq
  obtain ⟨d', hd', hserved⟩ := served_of_resolve hq.recording hready e he
  obtain rfl := Option.some.inj (hde.symm.trans hd')
  rcases hserved with hk | hv
  · exact Node.not_isKnowledge (hs.decision d hd) hk
  · have hns : d.info.ns = r.recording.model.scopeNs
        (r.recording.resolve (r.recording.visit room) n q).2.context :=
      (hs.owned d (hs.mem d hd)).trans (Model.scopeNs_of_root hb.frames).symm
    rw [Model.visible?_of_here hns, hb.unbound d hd] at hv
    cases hv

end knot

/-- The laws of the ledger, and that of the decisions of `S` none is bound or called, and those that
are dormant are so still. -/
def Bypasses (r : Request L σ) (S : Set (Node L)) (n : Node L)
    (p : Progress (σ × List (Sighting L))) (x : Resolution × Progress (σ × List (Sighting L))) :
    Prop :=
  (p.ledger.Indexed → x.2.ledger.Indexed ∧ p.ledger.Keeps none x.2.ledger) ∧
    (n ∈ r.model.nodes → r.Barren S p → r.Barren S x.2 ∧ r.StayDormant S p x.2)

/-- The same of a part of the evaluation of `n`, where `n` itself is not dormant. -/
def BypassesOn (r : Request L σ) (S : Set (Node L)) (n : Node L) (b : Bool)
    (p q : Progress (σ × List (Sighting L))) : Prop :=
  (p.ledger.Indexed → r.recording.Advances n b p.ledger q.ledger) ∧
    (n ∈ r.model.nodes → r.Barren S p → r.Barren S q ∧ r.StayDormant (S \ {n}) p q)

/-- The same after the logic of `n` was called, which is then none of the decisions. -/
def BypassesCall (r : Request L σ) (S : Set (Node L)) (n : Node L)
    (p q : Progress (σ × List (Sighting L))) : Prop :=
  (p.ledger.Indexed → r.recording.Advances n true p.ledger q.ledger) ∧
    (n ∈ r.model.nodes → r.Barren S p → r.Barren S q ∧ r.StayDormant S p q ∧ n ∉ S)

section opened

variable (hs : r.model.Knot S) (hmem : n ∈ r.model.nodes) (hp : r.Barren S p)

include hs hmem hp

theorem BypassesOn.opened (h : r.BypassesOn S n b (r.recording.opening n p) q) :
    r.Barren S q ∧ r.StayDormant (S \ {n}) p q ∧
      (n.isDecision → (q.ledger.find? (r.key n)).isSome) := by
  obtain ⟨hq, hi⟩ := h.2 hmem (hp.opening n)
  obtain ⟨hl, -, hown⟩ := advances_opening (r := r.recording) (n := n) hp.indexed
  exact ⟨hq, fun k hk hrest => hi k hk (hrest.opening hs hp.indexed hk.1 hmem hk.2),
    fun hn => (h.1 hl).isSome hn (hown hn)⟩

theorem BypassesCall.opened (h : r.BypassesCall S n (r.recording.opening n p) q) :
    r.Barren S q ∧ r.StayDormant S p q ∧ n ∉ S := by
  obtain ⟨hq, hi, hn⟩ := h.2 hmem (hp.opening n)
  refine ⟨hq, fun k hk hrest => hi k hk ?_, hn⟩
  exact hrest.opening hs hp.indexed hk hmem fun he => hn (he ▸ hk)

end opened

theorem lifts_bypasses (hq : r.host.Quiet) (hs : r.model.Knot S) :
    r.recording.Lifts (r.Bypasses S) (r.Bypasses S) (r.BypassesOn S) (r.BypassesCall S) := by
  have h := (lawful_ledger (r := r.recording) hq.recording.keepsLedger).lifts
  exact {
    stay n p res hres := ⟨h.stay n p res hres, fun _ hp => ⟨hp, fun _ _ hk => hk⟩⟩
    blank n p hn := ⟨h.blank n p hn, fun _ hp => ⟨hp.of_eq rfl hp.indexed rfl, fun _ _ hk => hk⟩⟩
    refl n p := ⟨h.refl n p, fun _ hp => ⟨hp, fun _ _ hk => hk⟩⟩
    trans hp hs := ⟨h.trans hp.1 hs.1, fun hmem hb => by
      obtain ⟨hq, hi⟩ := hp.2 hmem hb
      obtain ⟨hs, hi'⟩ := hs.2 hmem hq
      exact ⟨hs, hi.trans hi'⟩⟩
    unresolved n name id source d p he hd := ⟨h.unresolved n name id source d p he hd,
      fun hmem hp => ⟨hp.reportUnresolved n name source d, fun k hk hrest =>
        hrest.reportUnresolved hs hp.indexed hk.1 hmem hk.2 name source d⟩⟩
    fits n d type p ht hd hr hc := ⟨h.fits n d type p ht hd hr hc, fun _ hp =>
      ⟨hp.watch (by simp), fun _ _ hk => hk.watch (by simp)⟩⟩
    misfit n d type p name id source g ht he hd hr hc hg := by
      refine ⟨h.misfit n d type p name id source g ht he hd hr hc hg, fun hmem hp => ?_⟩
      have hw : r.Barren S (r.recording.watch (.examined n d (r.recording.found n d p)) p) :=
        hp.watch (by simp)
      refine ⟨hw.reportUnresolved n name source g, fun k hk hrest => ?_⟩
      have hrest' : r.Dormant k (r.recording.watch (.examined n d (r.recording.found n d p)) p) :=
        hrest.watch (by simp)
      exact hrest'.reportUnresolved hs hp.indexed hk.1 hmem hk.2 name source g
    report n m p hm := ⟨h.report n m p hm, fun _ hp =>
      ⟨hp.of_eq rfl hp.indexed rfl, fun _ _ hk => hk⟩⟩
    notify n e p := ⟨h.notify n e p, fun _ hp =>
      ⟨hp.of_eq rfl hp.indexed rfl, fun _ _ hk => hk⟩⟩
    here n d p x hd hu hns hx := ⟨h.here n d p x hd hu hns hx.1, fun _ hp => by
      obtain ⟨hx', hi⟩ := hx.2 (Model.mem_nodes_of_mem_requirements hd) hp
      exact ⟨hx', fun k hk => hi k hk.1⟩⟩
    -- There is one namespace, so no dependency is in another one.
    through n d p a x hd hu hns ha hx := ⟨h.through n d p a x hd hu hns ha hx.1, fun _ hp =>
      absurd ((hs.owned d (Model.mem_nodes_of_mem_requirements hd)).trans
        (Model.scopeNs_of_root hp.frames).symm) hns⟩
    call n logic room p q hl hpq hok hres := by
      refine ⟨h.call n logic room p q hl hpq.1 hok hres.1, fun hmem hp => ?_⟩
      obtain ⟨hb, hi⟩ := hres.2 hmem hp
      -- A member of `S` needs another one, which would have to be bound by now.
      have hn := not_mem_of_resolve hs hq hok hb
      have he := evaluation_callLogic (r := r.recording) hq.recording n logic
        (r.recording.resolve (r.recording.visit room) n q).2
      have hw := hb.watch (m := .calling n) fun k hk hm => hn (Moment.calling.inj hm ▸ hk)
      refine ⟨hw.of_eq (congrArg Evaluation.context he) ?_ rfl, fun k hk hrest => ?_, hn⟩
      · rw [Progress.ledger_eq, he]
        exact hb.indexed
      · have hne : k ≠ n := fun hkn => hn (hkn ▸ hk)
        have hkw : r.Dormant k (r.recording.watch (.calling n) _) :=
          (hi k ⟨hk, hne⟩ hrest).watch (by simp)
        exact hkw.of_find? (by rw [Progress.ledger_eq, he]; rfl) rfl
    complained n p q m hm hs := ⟨h.complained n p q m hm hs.1, fun hmem hp => by
      obtain ⟨hq, hi⟩ := hs.2 hmem hp
      exact ⟨hq.of_eq rfl hq.indexed rfl, hi⟩⟩
    told n p res q e hs := ⟨h.told n p res q e hs.1, fun hmem hp => by
      obtain ⟨hq, hi⟩ := hs.2 hmem hp
      exact ⟨hq.of_eq rfl hq.indexed rfl, hi⟩⟩
    skipped n p b q m hn hu hb hx hm hd := by
      refine ⟨h.skipped n p b q m hn hu hb hx.1 hm hd, fun hmem hp => ?_⟩
      obtain ⟨hq, hi, hsome⟩ := hx.opened hs hmem hp
      refine ⟨(hq.lose n m .skipped).watch (by simp), fun k hk hrest => Dormant.watch ?_ (by simp)⟩
      by_cases hkn : k = n
      · rw [hkn]
        exact dormant_skip hq.indexed (hsome hn) m
      · exact (hi k ⟨hk, hkn⟩ hrest).lose hq.indexed (key_ne_of_knot hs hk hmem hn hkn) m .skipped
    failed n p q m hn hu hb hx hd hg := by
      refine ⟨h.failed n p q m hn hu hb hx.1 hd hg, fun hmem hp => ?_⟩
      obtain ⟨hq, hi, hnS⟩ := hx.opened hs hmem hp
      refine ⟨(hq.lose n m .failed).watch (by simp), fun k hk hrest => Dormant.watch ?_ (by simp)⟩
      have hkn : k ≠ n := fun he => hnS (he ▸ hk)
      exact (hi k hk hrest).lose hq.indexed (key_ne_of_knot hs hk hmem hn hkn) m .failed
    kept n p q v hn hu hb hx := by
      refine ⟨h.kept n p q v hn hu hb hx.1, fun hmem hp => ?_⟩
      obtain ⟨hq, hi, hnS⟩ := hx.opened hs hmem hp
      have hset : r.Barren S (q.update fun e =>
          (e.onContext (·.set n.info.name v)).onLedger (·.modify (r.key n) (·.succeed v))) :=
        hq.set (name_ne_of_knot hs hmem hnS) v rfl (hq.indexed.modify _ fun _ => rfl) rfl
      refine ⟨(hset.watch (by simp)).watch (by simp), fun k hk hrest => ?_⟩
      have hkn : k ≠ n := fun he => hnS (he ▸ hk)
      have hkset : r.Dormant k (q.update fun e =>
          (e.onContext (·.set n.info.name v)).onLedger (·.modify (r.key n) (·.succeed v))) :=
        (hi k hk hrest).modify hq.indexed (key_ne_of_knot hs hk hmem hn hkn) _ rfl rfl
      exact (hkset.watch (by simp)).watch (by simp)
    heard n p e x hn hx := ⟨h.heard n p e x hn hx.1, fun hmem hp =>
      hx.2 hmem (hp.of_eq rfl hp.indexed rfl)⟩
    abandoned n p b q hn ha hu hx := by
      refine ⟨h.abandoned n p b q hn ha hu hx.1, fun hmem hp => ?_⟩
      obtain ⟨hq, hi, -⟩ := hx.opened hs hmem hp
      refine ⟨hq.leave n, fun k hk hrest => Dormant.leave (hi k ⟨hk, fun he => ?_⟩ hrest) n⟩
      exact Node.not_isKnowledge (hs.decision k hk) (he ▸ hn)
    ended n p q hn ha hu hx := by
      refine ⟨h.ended n p q hn ha hu hx.1, fun hmem hp => ?_⟩
      obtain ⟨hq, hi, -⟩ := hx.opened hs hmem hp
      exact ⟨hq.leave n, fun k hk hrest => (hi k hk hrest).leave n⟩
    given n p q f hn ha hu hx := by
      refine ⟨h.given n p q f hn ha hu hx.1, fun hmem hp => ?_⟩
      obtain ⟨hq, hi, hnS⟩ := hx.opened hs hmem hp
      have hset : r.Barren S (q.update (·.onContext (·.set n.info.name (.function f)))) :=
        hq.set (name_ne_of_knot hs hmem hnS) _ rfl hq.indexed rfl
      refine ⟨(hset.watch (by simp)).leave n, fun k hk hrest => ?_⟩
      have hkset : r.Dormant k (q.update (·.onContext (·.set n.info.name (.function f)))) :=
        hi k hk hrest
      exact (hkset.watch (by simp)).leave n }

theorem floor_bypasses (hq : r.host.Quiet) (hs : r.model.Knot S) :
    r.recording.Floor (r.Bypasses S) := by
  have h := (lawful_ledger (r := r.recording) hq.recording.keepsLedger).floor
  exact {
    stay n p res hres := ⟨h.stay n p res hres, fun _ hp => ⟨hp, fun _ _ hk => hk⟩⟩
    blank n p hn := ⟨h.blank n p hn, fun _ hp => ⟨hp.of_eq rfl hp.indexed rfl, fun _ _ hk => hk⟩⟩
    overrun n p hn ha hu := ⟨h.overrun n p hn ha hu, fun _ hp =>
      ⟨hp.of_eq rfl hp.indexed rfl, fun _ _ hk => hk⟩⟩
    tooDeep n p hn hu hb := by
      refine ⟨h.tooDeep n p hn hu hb, fun hmem hp => ?_⟩
      have he := hp.indexed.ensure (r.key n) n.info.name
      refine ⟨hp.of_eq rfl (he.modify _ fun _ => rfl) rfl, fun k hk hrest => ?_⟩
      by_cases hkn : k = n
      · rw [hkn] at hrest ⊢
        exact hrest.reject hp.indexed
      · have hne := key_ne_of_knot hs hk hmem hn hkn
        have hens : r.Dormant k (p.update (·.onLedger (·.ensure (r.key n) n.info.name))) :=
          hrest.of_find? ((Ledger.find?_ensure hp.indexed _ _ _).trans (if_neg hne)) rfl
        exact hens.modify he hne _ rfl rfl }

/-- A request binds none of the decisions and calls the logic of none, and in the end all of them
have come to nothing. -/
theorem barren_run (hq : r.host.Quiet) (hs : r.model.Knot S) {c : Context} (hc : c.frames = [])
    (hfree : ∀ n ∈ S, c.get? n.info.name = none) (s : Selection) (w : σ) :
    r.Barren S (r.recording.run s c (w, [])) ∧
      ∀ n ∈ S, r.Dormant n (r.recording.run s c (w, [])) := by
  refine run_induction (P := fun p => r.Barren S p ∧ ∀ n ∈ S, r.Dormant n p) ⟨?_, fun n hn => ?_⟩ ?_
    fun d p hp => ⟨hp.1.of_eq rfl hp.1.indexed rfl, hp.2⟩
  · exact ⟨hc, r.model.indexed_freshLedger, hfree, fun n hn t ht => by cases ht⟩
  · have hns := hs.owned n (hs.mem n hn)
    obtain ⟨o, ho, hst, -⟩ := Model.find?_freshLedger
      (Model.mem_localDecisions (hs.mem n hn) (hs.decision n hn) hns)
    refine ⟨o, ?_, .inl ⟨hst, fun t ht => by cases ht⟩⟩
    rw [key, Model.key_of_owned hns]
    exact ho
  · rintro n p hn ⟨hp, hrest⟩
    have hmem := Model.mem_nodes_of_mem_localDecisions (Model.mem_localDecisions_of_mem_errands hn)
    have hv := visit_of_level (floor_bypasses hq hs) (lifts_bypasses hq hs) r.maxDepth n p
    obtain ⟨hp', hi⟩ := hv.2 hmem hp
    exact ⟨hp', fun k hk => hi k hk (hrest k hk)⟩

/-- The logic of a decision that lies on a cycle of decisions that the input does not bind is never
called, and its name stays unbound. Its outcome says that it was never entered, that it was
skipped, or that it was rejected for its depth. -/
theorem cyclic_never_called (hb : r.model.Built) (hown : ∀ n ∈ r.model.nodes, r.model.owns n)
    (hids : (r.model.decisions.map fun n => n.info.id).Nodup) (hq : r.host.Quiet) {c : Context}
    (hc : c.frames = []) (s : Selection) (w : σ) {i : Nat} {n : Node L}
    (hn : r.model.node? i = some n) (hi : TransGen (r.model.FreeNeeds c) i i) :
    (∀ t ∈ r.record s c w, t.moment ≠ .calling n) ∧
    (r.run s c w).context.get? n.info.name = none ∧
    ∃ o, (r.run s c w).ledger.find? n.info.id = some o ∧
      ((o.status = .notEvaluated ∧ ∀ t ∈ r.record s c w, t.moment ≠ .entered n) ∨
        o.status = .skipped ∨
        (o.status = .failed ∧ .of .error (.evaluationDepthExceeded n.info.identifier r.maxDepth)
          (some n.info.id) none ∈ o.messages)) := by
  have hmem : n ∈ r.model.cyclic c := ⟨i, hn, hi⟩
  have hknot := hb.knot hown hids c
  obtain ⟨hbarren, hrest⟩ := barren_run hq hknot hc (fun n hn => (Model.cyclic_free hn).2.2) s w
  obtain ⟨o, ho, hf⟩ := hrest n hmem
  rw [← run_recording r s c w]
  refine ⟨hbarren.uncalled n hmem, hbarren.unbound n hmem, o, ?_, hf⟩
  rwa [key, Model.key_of_owned (hknot.owned n (Array.mem_of_getElem? hn))] at ho

end Request

namespace Formula

theorem circular_built : circular.Built := by
  let b (nodes : Array (Node Formula)) : Builder Formula :=
    ⟨none, "urn:circular", "circular", false, nodes, .empty, .nil⟩
  have hb : (b #[bare price, bare discount, bare rate, bare quote]).Made :=
    .addNode "4" "quote" quote.role (.addNode "3" "rate" rate.role
      (.addNode "2" "discount" discount.role (.addNode "1" "price" price.role (.new _ _))))
  have h₁ : (b #[bare price, bare discount, bare rate, bare quote]).dependsOn 0 1 =
    .ok (b #[price, bare discount, bare rate, bare quote]) := rfl
  have h₂ : (b #[price, bare discount, bare rate, bare quote]).dependsOn 1 0 =
    .ok (b #[price, discount, bare rate, bare quote]) := rfl
  have h₃ : (b #[price, discount, bare rate, bare quote]).dependsOn 2 3 =
    .ok (b #[price, discount, rate, bare quote]) := rfl
  have h₄ : (b #[price, discount, rate, bare quote]).dependsOn 3 2 =
    .ok (b #[price, discount, rate, quote]) := rfl
  exact ⟨_, "circular", (((hb.dependsOn h₁).dependsOn h₂).dependsOn h₃).dependsOn h₄,
    Builder.build_eq rfl "circular"⟩

end Formula

namespace Request

/-- The price needs the discount, which needs the price: it is entered, but never called. -/
theorem cyclic_never_called_circular :
    TransGen (Formula.circular.FreeNeeds .empty) 0 0 ∧
    (∃ t ∈ Formula.circularRecord, t.moment = .entered Formula.price) ∧
    (∀ t ∈ Formula.circularRecord, t.moment ≠ .calling Formula.price) ∧
    (Formula.circularRequest.run .all .empty ()).context.get? "price" = none := by
  have hprice : Formula.circular.FreeDecision .empty 0 := ⟨Formula.price, rfl, rfl, rfl⟩
  have hdiscount : Formula.circular.FreeDecision .empty 1 := ⟨Formula.discount, rfl, rfl, rfl⟩
  have hto : Formula.circular.FreeNeeds .empty 0 1 :=
    ⟨⟨Formula.price, rfl, "discount", List.mem_cons_self⟩, hprice, hdiscount⟩
  have hback : Formula.circular.FreeNeeds .empty 1 0 :=
    ⟨⟨Formula.discount, rfl, "price", List.mem_cons_self⟩, hdiscount, hprice⟩
  have hcycle : TransGen (Formula.circular.FreeNeeds .empty) 0 0 := .tail (.single hto) hback
  obtain ⟨huncalled, hunbound, -⟩ := cyclic_never_called (r := Formula.circularRequest)
    Formula.circular_built (by decide) (by decide) Host.functions_quiet (c := .empty) rfl .all ()
    (n := Formula.price) rfl hcycle
  have hentered : Formula.circularRecord[0]?.map Sighting.moment = some (.entered Formula.price) :=
    rfl
  obtain ⟨t, ht, hm⟩ := Option.map_eq_some_iff.mp hentered
  exact ⟨hcycle, ⟨t, List.mem_of_getElem? ht, hm⟩, huncalled, hunbound⟩

end Request

end DecisionGraph
