import DecisionGraph.Proofs.Frozen
import DecisionGraph.Proofs.Meaning
import Mathlib.Data.Set.Basic

namespace DecisionGraph

variable {L σ : Type}

open Relation (TransGen ReflTransGen)

/-- A model of one namespace whose names tell its nodes apart and whose ids tell its decisions
apart. No node needs itself, and no business knowledge model needs another one with its id. -/
structure Model.Plain (m : Model L) : Prop where
  owns : ∀ i n, m.node? i = some n → n.info.ns = m.ns
  names : ∀ i j n k, m.node? i = some n → m.node? j = some k → n.info.name = k.info.name → i = j
  ids : ∀ i j n k, m.node? i = some n → m.node? j = some k → n.isDecision → k.isDecision →
    n.info.id = k.info.id → i = j
  acyclic : m.Acyclic
  inRange : InRange m.nodes.size m.nodes
  apart : ∀ i j n k, TransGen m.Needs i j → m.node? i = some n → m.node? j = some k →
    n.isKnowledge → k.isKnowledge → n.info.id ≠ k.info.id

/-- No business knowledge model needs another one with its id. -/
def Model.KnowledgeApart (m : Model L) : Prop :=
  ∀ i j n k, TransGen m.Needs i j → m.node? i = some n → m.node? j = some k → n.isKnowledge →
    k.isKnowledge → n.info.id ≠ k.info.id

theorem Model.Built.plain {m : Model L} (h : m.Built) (hown : ∀ n ∈ m.nodes, m.owns n)
    (hids : (m.decisions.map fun n => n.info.id).Nodup) (hac : m.Acyclic)
    (hap : m.KnowledgeApart) : m.Plain where
  owns i n hn := by simpa [owns] using hown n (Array.mem_of_getElem? hn)
  names i j n k hn hk hx := pos_eq_of_nodup h.nodup_names hn hk
    (hown n (Array.mem_of_getElem? hn)) (hown k (Array.mem_of_getElem? hk)) hx
  ids i j n k hn hk hnd hkd hx := pos_eq_of_nodup hids hn hk hnd hkd hx
  acyclic := hac
  inRange := h.inRange
  apart := hap

namespace Request

/-- The bindings, when the nodes of `R` are settled. -/
structure Stored (r : Request L σ) (c : Context) (w : σ) (R : Set Nat) (d : Context) : Prop where
  frames : d.frames = []
  settled : ∀ i n, r.model.node? i = some n → i ∈ R → d.get? n.info.name = r.value c w i
  others : ∀ x, (∀ i n, r.model.node? i = some n → i ∈ R → n.info.name ≠ x) →
    d.get? x = c.get? x

/-- The ledger, when the decisions of `R` are settled and those of `A` are in progress. -/
structure Tallied (r : Request L σ) (c : Context) (w : σ) (R : Set Nat) (A : List Nat)
    (l : Ledger) : Prop where
  indexed : l.Indexed
  outcomes : ∀ i n, r.model.node? i = some n → n.isDecision → ∃ o, l.find? n.info.id = some o ∧
    (i ∈ R → o.status = r.verdict c w i n ∧ o.result = r.resultOf c w i n) ∧
    (i ∉ R → o.result = none ∧ (i ∉ A → o.status = .notEvaluated))

/-- The active business knowledge models are among those in progress. -/
def Engaged (r : Request L σ) (A : List Nat) (active : List String) : Prop :=
  ∀ k ∈ active, ∃ a ∈ A, ∃ n, r.model.node? a = some n ∧ n.isKnowledge ∧ n.info.id = k

/-- The nodes of `R` are settled, the nodes of `A` are in progress. -/
structure Settled (r : Request L σ) (c : Context) (w : σ) (R : Set Nat) (A : List Nat)
    (e : Evaluation) : Prop where
  stored : r.Stored c w R e.context
  tallied : r.Tallied c w R A e.ledger
  engaged : r.Engaged A e.active

/-- What is settled includes whatever its evaluation goes on to. -/
def Closed (r : Request L σ) (c : Context) (w : σ) (R : Set Nat) : Prop :=
  ∀ i ∈ R, ∀ j, r.Opens c w i j → j ∈ R

/-- The nodes that the evaluation of some nodes leads to. -/
def spread (r : Request L σ) (c : Context) (w : σ) (l : List Nat) : Set Nat :=
  {j | ∃ i ∈ l, ReflTransGen (r.Opens c w) i j}

section sets

variable {r : Request L σ} {c : Context} {w : σ} {R : Set Nat} {i j : Nat} {l : List Nat}

theorem spread_nil : r.spread c w [] = ∅ := by
  ext j
  simp [spread]

theorem spread_cons : r.spread c w (i :: l) = r.spread c w [i] ∪ r.spread c w l := by
  ext j
  simp [spread]

theorem mem_spread_self : i ∈ r.spread c w [i] := ⟨i, List.mem_singleton_self i, .refl⟩

theorem Closed.union (h : r.Closed c w R) (l : List Nat) : r.Closed c w (R ∪ r.spread c w l) := by
  rintro i (hi | ⟨k, hk, hi⟩) j hj
  · exact .inl (h i hi j hj)
  · exact .inr ⟨k, hk, hi.tail hj⟩

theorem Closed.union_eq (h : r.Closed c w R) (hi : i ∈ R) : R ∪ r.spread c w [i] = R := by
  apply Set.union_eq_left.mpr
  rintro j ⟨k, hk, hj⟩
  rw [List.mem_singleton.mp hk] at hj
  induction hj with
  | refl => exact hi
  | tail _ hs ih => exact h _ ih _ hs

/-- A node that opens others spreads to itself and to what these spread to. -/
theorem spread_of_opens (ho : ∀ j, r.Opens c w i j ↔ j ∈ l) :
    r.spread c w [i] = r.spread c w l ∪ {i} := by
  ext j
  constructor
  · rintro ⟨k, hk, hj⟩
    rw [List.mem_singleton.mp hk] at hj
    rcases hj.cases_head with rfl | ⟨k, hik, hkj⟩
    · exact .inr rfl
    · exact .inl ⟨k, (ho k).mp hik, hkj⟩
  · rintro (⟨k, hk, hj⟩ | rfl)
    · exact ⟨i, List.mem_singleton_self i, .head ((ho k).mpr hk) hj⟩
    · exact mem_spread_self

theorem spread_of_not_opens (ho : ∀ j, ¬r.Opens c w i j) : r.spread c w [i] = {i} := by
  rw [spread_of_opens (l := []), spread_nil, Set.empty_union]
  intro j
  exact iff_of_false (ho j) List.not_mem_nil

/-- A node does not come up again on the way from its dependencies. -/
theorem not_mem_spread (ha : r.model.Acyclic) (hl : ∀ k ∈ l, r.model.Needs i k) :
    i ∉ r.spread c w l := by
  rintro ⟨k, hk, hi⟩
  have hki : ReflTransGen r.model.Needs k i :=
    ReflTransGen.mono (fun _ _ h => Opens.needs h) _ _ hi
  exact ha i (.head' (hl k hk) hki)

end sets

section steps

variable {r : Request L σ} {c : Context} {w : σ} {R : Set Nat} {A : List Nat} {i : Nat}
  {n : Node L} {d : Context} {e : Evaluation} {l : Ledger}

/-- The settled nodes determine all bindings. -/
theorem Stored.get?_eq (h : r.Stored c w R d) {d' : Context} (h' : r.Stored c w R d')
    (x : String) : d.get? x = d'.get? x := by
  -- A name is that of a settled node, or it is as the input has it on both sides.
  by_cases hx : ∃ i n, r.model.node? i = some n ∧ i ∈ R ∧ n.info.name = x
  · obtain ⟨i, n, hn, hi, rfl⟩ := hx
    rw [h.settled i n hn hi, h'.settled i n hn hi]
  · have hno : ∀ i n, r.model.node? i = some n → i ∈ R → n.info.name ≠ x :=
      fun i n hn hi he => hx ⟨i, n, hn, hi, he⟩
    rw [h.others x hno, h'.others x hno]

theorem Tallied.outcome_eq {l' : Ledger} (h : r.Tallied c w R [] l) (h' : r.Tallied c w R [] l')
    (hn : r.model.node? i = some n) (hd : n.isDecision) :
    ∃ o o', l.find? n.info.id = some o ∧ l'.find? n.info.id = some o' ∧ o.status = o'.status ∧
      o.result = o'.result := by
  obtain ⟨o, ho, hin, hout⟩ := h.outcomes i n hn hd
  obtain ⟨o', ho', hin', hout'⟩ := h'.outcomes i n hn hd
  refine ⟨o, o', ho, ho', ?_⟩
  by_cases hi : i ∈ R
  · obtain ⟨hs, hr⟩ := hin hi
    obtain ⟨hs', hr'⟩ := hin' hi
    exact ⟨hs.trans hs'.symm, hr.trans hr'.symm⟩
  · obtain ⟨hr, hs⟩ := hout hi
    obtain ⟨hr', hs'⟩ := hout' hi
    exact ⟨(hs List.not_mem_nil).trans (hs' List.not_mem_nil).symm, hr.trans hr'.symm⟩

/-- A node is settled when its name reads as its value and no other name has changed. -/
theorem Stored.add (hm : r.model.Plain) (hn : r.model.node? i = some n) (h : r.Stored c w R d)
    {d' : Context} (hf : d'.frames = []) (hi : d'.get? n.info.name = r.value c w i)
    (ho : ∀ x, n.info.name ≠ x → d'.get? x = d.get? x) : r.Stored c w (R ∪ {i}) d' := by
  refine ⟨hf, ?_, ?_⟩
  · rintro j k hk (hj | rfl)
    · by_cases hx : n.info.name = k.info.name
      · obtain rfl := hm.names i j n k hn hk hx
        rw [← hx, hi]
      · rw [ho _ hx, h.settled j k hk hj]
    · rwa [← Option.some.inj (hn.symm.trans hk)]
  · intro x hx
    have hni : n.info.name ≠ x := hx i n hn (.inr rfl)
    rw [ho x hni]
    exact h.others x fun j k hk hj => hx j k hk (.inl hj)

theorem Tallied.conclude (hm : r.model.Plain) (hn : r.model.node? i = some n)
    (hd : n.isDecision) (h : r.Tallied c w R (i :: A) l) (hi : i ∉ R) {f : Outcome → Outcome}
    (hf : ∀ o, (f o).id = o.id) (hs : ∀ o, (f o).status = r.verdict c w i n)
    (hr : ∀ o, o.result = none → (f o).result = r.resultOf c w i n) :
    r.Tallied c w (R ∪ {i}) A (l.modify n.info.id f) := by
  refine ⟨h.indexed.modify _ hf, ?_⟩
  intro j k hk hkd
  obtain ⟨o, ho, hin, hout⟩ := h.outcomes j k hk hkd
  rw [Ledger.find?_modify h.indexed, ho]
  -- Only the outcome of the node itself changes, as decisions have ids of their own.
  by_cases hid : n.info.id = k.info.id
  · obtain rfl := hm.ids i j n k hn hk hd hkd hid
    obtain rfl := Option.some.inj (hn.symm.trans hk)
    rw [if_pos rfl]
    exact ⟨f o, rfl, fun _ => ⟨hs o, hr o (hout hi).1⟩, fun hx => absurd (.inr rfl) hx⟩
  · have hji : j ≠ i := by
      rintro rfl
      exact hid (by rw [Option.some.inj (hn.symm.trans hk)])
    rw [if_neg hid]
    refine ⟨o, rfl, ?_, ?_⟩
    · rintro (hj | hj)
      · exact hin hj
      · exact absurd hj hji
    · intro hx
      obtain ⟨hres, hst⟩ := hout fun hj => hx (.inl hj)
      refine ⟨hres, fun hja => hst ?_⟩
      rintro (_ | ⟨_, hj⟩)
      · exact hji rfl
      · exact hja hj

theorem Tallied.mark (hm : r.model.Plain) (hn : r.model.node? i = some n) (hd : n.isDecision)
    (h : r.Tallied c w R A l) (hi : i ∉ R) (hA : i ∈ A) {f : Outcome → Outcome}
    (hf : ∀ o, (f o).id = o.id) (hr : ∀ o, (f o).result = o.result) :
    r.Tallied c w R A (l.modify n.info.id f) := by
  refine ⟨h.indexed.modify _ hf, ?_⟩
  intro j k hk hkd
  obtain ⟨o, ho, hin, hout⟩ := h.outcomes j k hk hkd
  rw [Ledger.find?_modify h.indexed, ho]
  by_cases hid : n.info.id = k.info.id
  · obtain rfl := hm.ids i j n k hn hk hd hkd hid
    rw [if_pos hid]
    exact ⟨f o, rfl, fun hj => absurd hj hi,
      fun _ => ⟨(hr o).trans (hout hi).1, fun hx => absurd hA hx⟩⟩
  · rw [if_neg hid]
    exact ⟨o, rfl, hin, hout⟩

theorem Tallied.begin (h : r.Tallied c w R A l) : r.Tallied c w R (i :: A) l := by
  refine ⟨h.indexed, ?_⟩
  intro j k hk hkd
  obtain ⟨o, ho, hin, hout⟩ := h.outcomes j k hk hkd
  exact ⟨o, ho, hin, fun hj => ⟨(hout hj).1, fun hx => (hout hj).2 fun hA => hx (.tail _ hA)⟩⟩

theorem Tallied.add (hn : r.model.node? i = some n) (h : r.Tallied c w R A l)
    (hd : n.isDecision → (c.get? n.info.name).isSome ∧ i ∉ A) :
    r.Tallied c w (R ∪ {i}) A l := by
  refine ⟨h.indexed, ?_⟩
  intro j k hk hkd
  obtain ⟨o, ho, hin, hout⟩ := h.outcomes j k hk hkd
  refine ⟨o, ho, ?_, fun hj => hout fun hR => hj (.inl hR)⟩
  intro hj
  by_cases hR : j ∈ R
  · exact hin hR
  · rcases hj with hj | rfl
    · exact absurd hj hR
    · obtain rfl := Option.some.inj (hn.symm.trans hk)
      obtain ⟨hc, hA⟩ := hd hkd
      obtain ⟨hres, hst⟩ := hout hR
      simp only [verdict, resultOf, if_pos hc]
      exact ⟨hst hA, hres⟩

theorem Engaged.of_decision (hn : r.model.node? i = some n) (hd : n.isDecision)
    {active : List String} (h : r.Engaged (i :: A) active) : r.Engaged A active := by
  intro k hk
  obtain ⟨a, ha, m, hm, hmk, hid⟩ := h k hk
  rcases List.mem_cons.mp ha with rfl | ha
  · rw [Option.some.inj (hm.symm.trans hn)] at hmk
    exact absurd hd (Node.not_isDecision hmk)
  · exact ⟨a, ha, m, hm, hmk, hid⟩

theorem Engaged.cons {active : List String} (h : r.Engaged A active) :
    r.Engaged (i :: A) active := by
  intro k hk
  obtain ⟨a, ha, hm⟩ := h k hk
  exact ⟨a, List.mem_cons_of_mem _ ha, hm⟩

theorem Tallied.of_knowledge (hn : r.model.node? i = some n) (hk : n.isKnowledge)
    (h : r.Tallied c w R (i :: A) l) : r.Tallied c w R A l := by
  refine ⟨h.indexed, ?_⟩
  intro j k hkn hkd
  obtain ⟨o, ho, hin, hout⟩ := h.outcomes j k hkn hkd
  have hji : j ≠ i := by
    rintro rfl
    rw [Option.some.inj (hkn.symm.trans hn)] at hkd
    exact Node.not_isDecision hk hkd
  refine ⟨o, ho, hin, fun hR => ⟨(hout hR).1, fun hA => (hout hR).2 ?_⟩⟩
  rintro (_ | ⟨_, hj⟩)
  · exact hji rfl
  · exact hA hj

theorem Settled.of_eq (h : r.Settled c w R A e) {e' : Evaluation} (hc : e'.context = e.context)
    (hl : e'.ledger = e.ledger) (ha : e'.active = e.active) : r.Settled c w R A e' :=
  ⟨hc ▸ h.stored, hl ▸ h.tallied, ha ▸ h.engaged⟩

section plain

variable (hm : r.model.Plain) (hn : r.model.node? i = some n)

include hm hn

theorem value_of_bound {v : Value} (hc : c.get? n.info.name = some v) :
    r.value c w i = some v := by
  rw [value_eq hm.acyclic hm.inRange c w hn, hc]
  rfl

theorem value_of_free (hc : c.get? n.info.name = none) :
    r.value c w i = r.valueFrom w (r.value c w) n := by
  rw [value_eq hm.acyclic hm.inRange c w hn, hc, Option.none_or]

theorem value_input {type : DeclaredType} (hr : n.role = .input type) :
    r.value c w i = c.get? n.info.name := by
  rw [value_eq hm.acyclic hm.inRange c w hn]
  simp [valueFrom, hr, Role.logic?]

theorem Stored.get?_of_not_mem (h : r.Stored c w R d) (hi : i ∉ R) :
    d.get? n.info.name = c.get? n.info.name := by
  apply h.others _
  intro j k hk hj hx
  exact hi (hm.names j i k n hk hn hx ▸ hj)

omit hn in
theorem find?_given (val : Nat → Option Value) {name : String} {j : Nat} {k : Node L}
    (he : (name, j) ∈ n.info.dependencies.toList) (hk : r.model.node? j = some k) :
    (r.model.given val n).find? k.info.name = val j := by
  have hmem (v : Value) : (k.info.name, v) ∈ (n.info.dependencies.toList.filterMap fun e => do
      return ((← r.model.node? e.2).info.name, ← val e.2)) ↔ val j = some v := by
    rw [List.mem_filterMap]
    constructor
    · rintro ⟨e, -, hv⟩
      simp only [Option.pure_def, Option.bind_eq_bind, Option.bind_eq_some_iff] at hv
      obtain ⟨k', hk', v', hv', hx⟩ := hv
      obtain ⟨hname, rfl⟩ := Prod.mk.inj (Option.some.inj hx)
      rwa [hm.names j e.2 k k' hk hk' hname.symm]
    · intro hv
      exact ⟨(name, j), he, by simp [hk, hv]⟩
  unfold Model.given
  cases hv : val j with
  | none =>
    refine Bindings.find?_ofList_of_not_mem fun v hx => ?_
    rw [hmem, hv] at hx
    cases hx
  | some v =>
    refine Bindings.find?_ofList_of_mem ((hmem v).mpr hv) fun v' hx => ?_
    rw [hmem, hv] at hx
    exact (Option.some.inj hx).symm

theorem Stored.get?_of_bound (h : r.Stored c w R d) (hc : (c.get? n.info.name).isSome) :
    d.get? n.info.name = r.value c w i := by
  by_cases hi : i ∈ R
  · exact h.settled i n hn hi
  · obtain ⟨v, hv⟩ := Option.isSome_iff_exists.mp hc
    rw [h.get?_of_not_mem hm hn hi, hv, value_of_bound hm hn hv]

theorem Stored.get?_input (h : r.Stored c w R d) {type : DeclaredType}
    (hr : n.role = .input type) : d.get? n.info.name = r.value c w i := by
  by_cases hi : i ∈ R
  · exact h.settled i n hn hi
  · rw [h.get?_of_not_mem hm hn hi, value_input hm hn hr]

omit hm in
theorem spread_of_bound (hc : (c.get? n.info.name).isSome) : r.spread c w [i] = {i} := by
  apply spread_of_not_opens
  rintro j ⟨k, hk, hx, -⟩
  rw [Option.some.inj (hk.symm.trans hn)] at hx
  simp [hx] at hc

omit hm in
theorem spread_of_opened_nil (ho : r.opened (r.value c w) n = []) : r.spread c w [i] = {i} := by
  apply spread_of_not_opens
  rintro j ⟨k, hk, -, hj⟩
  rw [Option.some.inj (hk.symm.trans hn), ho] at hj
  cases hj

theorem Settled.add_input (h : r.Settled c w R A e) {type : DeclaredType}
    (hr : n.role = .input type) : r.Settled c w (R ∪ r.spread c w [i]) A e := by
  rw [spread_of_opened_nil hn (by simp only [opened, hr])]
  have hd : ¬n.isDecision := by simp [Node.isDecision, hr]
  exact ⟨h.stored.add hm hn h.stored.frames (h.stored.get?_input hm hn hr) fun _ _ => rfl,
    h.tallied.add hn fun hx => absurd hx hd, h.engaged⟩

theorem Settled.add_bound (hcl : r.Closed c w R) (h : r.Settled c w R A e) (hA : i ∉ A)
    (hb : (e.context.get? n.info.name).isSome) :
    (r.value c w i).isSome ∧ r.Settled c w (R ∪ r.spread c w [i]) A e := by
  by_cases hi : i ∈ R
  · rw [h.stored.settled i n hn hi] at hb
    rw [hcl.union_eq hi]
    exact ⟨hb, h⟩
  · rw [h.stored.get?_of_not_mem hm hn hi] at hb
    have hv := h.stored.get?_of_bound hm hn hb
    rw [spread_of_bound hn hb]
    refine ⟨?_, ?_, h.tallied.add hn fun _ => ⟨hb, hA⟩, h.engaged⟩
    · rw [← hv, h.stored.get?_of_not_mem hm hn hi]
      exact hb
    · exact h.stored.add hm hn h.stored.frames hv fun _ _ => rfl

end plain

end steps

end Request

end DecisionGraph
