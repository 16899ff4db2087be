import DecisionGraph.Proofs.Formulas
import Mathlib.Data.Finset.Card
import Mathlib.Logic.Relation

namespace DecisionGraph

variable {L σ : Type}

open Relation (TransGen)

namespace Bindings

variable {α : Type}

theorem find?_ofList_of_not_mem {l : List (String × α)} {n : String} (h : ∀ v, (n, v) ∉ l) :
    (ofList l).find? n = none := by
  cases hf : (ofList l).find? n with
  | none => rfl
  | some v => exact absurd (mem_of_find?_ofList hf) (h v)

theorem find?_ofList_of_mem {l : List (String × α)} {n : String} {v : α} (hv : (n, v) ∈ l)
    (h : ∀ w, (n, w) ∈ l → w = v) : (ofList l).find? n = some v := by
  obtain ⟨w, hw, hfind⟩ := exists_find?_ofList hv
  rw [hfind, h w hw]

end Bindings

namespace Model

variable {m : Model L} {i j : Nat} {n : Node L}

/-- The node at `i` declares the node at `j` as a dependency. -/
def Needs (m : Model L) (i j : Nat) : Prop :=
  ∃ n, m.node? i = some n ∧ ∃ name, (name, j) ∈ n.info.dependencies.toList

/-- No node needs itself, on whatever way. -/
def Acyclic (m : Model L) : Prop := ∀ i, ¬TransGen m.Needs i i

theorem Needs.lt_of_inRange (hr : InRange m.nodes.size m.nodes) (h : m.Needs i j) :
    j < m.nodes.size := by
  obtain ⟨n, hn, name, he⟩ := h
  exact hr n (Array.mem_of_getElem? hn) _ he

theorem acyclic_of_order (order : Nat → Nat)
    (h : (m.nodes.toList.zipIdx.all fun p =>
      p.1.info.dependencies.toList.all fun e => order e.2 < order p.2) = true) : m.Acyclic := by
  have hone {i j : Nat} (hij : m.Needs i j) : order j < order i := by
    obtain ⟨n, hn, name, he⟩ := hij
    have hmem : (n, i) ∈ m.nodes.toList.zipIdx :=
      List.mk_mem_zipIdx_iff_getElem?.mpr (by simpa [node?] using hn)
    have hall := List.all_eq_true.mp (List.all_eq_true.mp h _ hmem) _ he
    simpa using hall
  have htrans {i j : Nat} (hij : TransGen m.Needs i j) : order j < order i := by
    induction hij with
    | single hs => exact hone hs
    | tail _ hs ih => exact (hone hs).trans ih
  exact fun i hi => Nat.lt_irrefl _ (htrans hi)

open Classical in
/-- How many nodes a node needs. -/
noncomputable def rank (m : Model L) (i : Nat) : Nat :=
  {j ∈ Finset.range m.nodes.size | TransGen m.Needs i j}.card

theorem rank_lt_of_needs (ha : m.Acyclic) (hr : InRange m.nodes.size m.nodes)
    (h : m.Needs i j) : m.rank j < m.rank i := by
  classical
  unfold rank
  apply Finset.card_lt_card
  -- Whatever `j` needs `i` needs too, and besides `j`, which does not need itself.
  refine Finset.ssubset_iff_of_subset ?_ |>.mpr ⟨j, ?_, ?_⟩
  · intro k hk
    obtain ⟨hlt, hk⟩ := Finset.mem_filter.mp hk
    exact Finset.mem_filter.mpr ⟨hlt, .head h hk⟩
  · exact Finset.mem_filter.mpr ⟨Finset.mem_range.mpr (h.lt_of_inRange hr), .single h⟩
  · exact fun hj => ha j (Finset.mem_filter.mp hj).2

theorem rank_lt_size (ha : m.Acyclic) (hi : i < m.nodes.size) : m.rank i < m.nodes.size := by
  classical
  have hsub : {j ∈ Finset.range m.nodes.size | TransGen m.Needs i j} ⊆
      Finset.range m.nodes.size := Finset.filter_subset _ _
  have hss := (Finset.ssubset_iff_of_subset hsub).mpr
    ⟨i, Finset.mem_range.mpr hi, fun h => ha i (Finset.mem_filter.mp h).2⟩
  have hlt := Finset.card_lt_card hss
  rwa [Finset.card_range] at hlt

def given (m : Model L) (val : Nat → Option Value) (n : Node L) : Bindings Value :=
  .ofList (n.info.dependencies.toList.filterMap fun e => do
    return ((← m.node? e.2).info.name, ← val e.2))

end Model

/-- The value certainly breaks the type. -/
def DeclaredType.refuses (t : DeclaredType) (v : Value) : Bool :=
  match t.check v with
  | .ok false => true
  | _ => false

namespace Request

variable {r : Request L σ}

/-- The dependency at a position lets its dependent be evaluated. -/
def admits (r : Request L σ) (val : Nat → Option Value) (i : Nat) : Bool :=
  match r.model.node? i with
  | none => false
  | some d =>
    match d.role, val i with
    | .knowledge _, _ => true
    | .decision .., v => v.isSome
    | .input _, none => false
    | .input type, some v => !(r.typeCheck && type.refuses v)

/-- The value that a node gets from what its logic answers. -/
def yield (r : Request L σ) : Role L → Except EvalError Answer → Option Value
  | .decision type _, .ok (.success v) =>
    match if r.typeCheck then type.check (type.unwrap v) else .ok true with
    | .ok true => some (type.unwrap v)
    | _ => none
  | .knowledge _, .ok (.success (.function f)) => some (.function f)
  | _, _ => none

theorem yield_decision (n : Node L) (type : DeclaredType) (logic : Option L) (v : Value) :
    r.yield (.decision type logic) (.ok (.success v)) =
      match r.objection? n type v with
      | none => some (type.unwrap v)
      | some _ => none := by
  unfold yield objection?
  dsimp only
  cases (if r.typeCheck = true then type.check (type.unwrap v) else Except.ok true) with
  | error e => rfl
  | ok fits => cases fits <;> rfl

theorem yield_error (role : Role L) (e : EvalError) : r.yield role (.error e) = none := by
  cases role <;> rfl

theorem yield_failure (role : Role L) : r.yield role (.ok .failure) = none := by
  cases role <;> rfl

/-- All dependencies of the node let it be evaluated. -/
def admitsAll (r : Request L σ) (val : Nat → Option Value) (n : Node L) : Bool :=
  n.info.dependencies.toList.all fun e => r.admits val e.2

/-- The value of a node that the input does not bind, from the values of the other nodes. -/
def valueFrom (r : Request L σ) (w : σ) (val : Nat → Option Value) (n : Node L) :
    Option Value :=
  n.role.logic?.bind fun l =>
    if r.admitsAll val n then
      r.yield n.role
        (r.host.answer r.model l (.start (.ofEntries (r.model.given val n))) w).1
    else none

/-- The value of the node at a position, by recursion to a limited depth. -/
def valueWithin (r : Request L σ) (c : Context) (w : σ) : Nat → Nat → Option Value
  | 0, _ => none
  | depth + 1, i => (r.model.node? i).bind fun n =>
      (c.get? n.info.name).or (r.valueFrom w (r.valueWithin c w depth) n)

/-- The value of the node at a position. The depth is that of any graph without cycles. -/
def value (r : Request L σ) (c : Context) (w : σ) (i : Nat) : Option Value :=
  r.valueWithin c w r.model.nodes.size i

theorem valueFrom_congr {w : σ} {val val' : Nat → Option Value} {n : Node L}
    (h : ∀ e ∈ n.info.dependencies.toList, val e.2 = val' e.2) :
    r.valueFrom w val n = r.valueFrom w val' n := by
  have hgiven : r.model.given val n = r.model.given val' n := by
    unfold Model.given
    congr 1
    apply List.filterMap_congr
    intro e he
    rw [h e he]
  have hadmits : r.admitsAll val n = r.admitsAll val' n := by
    have hone : ∀ e ∈ n.info.dependencies.toList, r.admits val e.2 = r.admits val' e.2 := by
      intro e he
      unfold admits
      rw [h e he]
    unfold admitsAll
    rw [Bool.eq_iff_iff, List.all_eq_true, List.all_eq_true]
    exact forall₂_congr fun e he => by rw [hone e he]
  unfold valueFrom
  rw [hgiven, hadmits]

theorem valueWithin_eq (ha : r.model.Acyclic) (hr : InRange r.model.nodes.size r.model.nodes)
    (c : Context) (w : σ) {depth depth' i : Nat} (h : r.model.rank i < depth)
    (h' : r.model.rank i < depth') : r.valueWithin c w depth i = r.valueWithin c w depth' i := by
  induction depth generalizing depth' i with
  | zero => omega
  | succ depth ih =>
    cases depth' with
    | zero => omega
    | succ depth' =>
      -- The dependencies have lower ranks, so both depths suffice for them too.
      unfold valueWithin
      cases hn : r.model.node? i with
      | none => rfl
      | some n =>
        have hdeps : ∀ e ∈ n.info.dependencies.toList,
            r.valueWithin c w depth e.2 = r.valueWithin c w depth' e.2 := by
          intro e he
          have hlt := Model.rank_lt_of_needs ha hr ⟨n, hn, e.1, he⟩
          exact ih (by omega) (by omega)
        simp only [Option.bind_some, valueFrom_congr hdeps]

/-- The recursion that defines the value of a node. -/
theorem value_eq (ha : r.model.Acyclic) (hr : InRange r.model.nodes.size r.model.nodes)
    (c : Context) (w : σ) {i : Nat} {n : Node L} (hn : r.model.node? i = some n) :
    r.value c w i = (c.get? n.info.name).or (r.valueFrom w (r.value c w) n) := by
  have hi := Model.rank_lt_size ha (Model.lt_of_node? hn)
  have hstep : r.value c w i = r.valueWithin c w (r.model.nodes.size + 1) i :=
    valueWithin_eq ha hr c w hi (by omega)
  rw [hstep, valueWithin, hn, Option.bind_some]
  rfl

/-- What logic answers depends on the values bound to its node's dependencies, and on nothing
else. -/
structure Functional (r : Request L σ) : Prop where
  quiet : r.host.Quiet
  answer : ∀ i n l, r.model.node? i = some n → n.role.logic? = some l → ∀ e e' w w',
    (∀ d ∈ r.model.requirements n, e.context.get? d.info.name = e'.context.get? d.info.name) →
    (r.host.answer r.model l e w).1 = (r.host.answer r.model l e' w').1

/-- The dependencies that the evaluation of a node tries: all of them, but for a business
knowledge model none behind the first that does not let it be evaluated. -/
def tried (r : Request L σ) (val : Nat → Option Value) (n : Node L) :
    List (String × Nat) → List Nat
  | [] => []
  | e :: rest => e.2 ::
      if !r.admits val e.2 && n.isKnowledge then [] else r.tried val n rest

def opened (r : Request L σ) (val : Nat → Option Value) (n : Node L) : List Nat :=
  match n.role with
  | .decision .. => r.tried val n n.info.dependencies.toList
  | .knowledge (some _) => r.tried val n n.info.dependencies.toList
  | _ => []

/-- The evaluation of the node at `i` goes on to the node at `j`. -/
def Opens (r : Request L σ) (c : Context) (w : σ) (i j : Nat) : Prop :=
  ∃ n, r.model.node? i = some n ∧ c.get? n.info.name = none ∧ j ∈ r.opened (r.value c w) n

/-- The node at `i` is a requested decision. -/
def Requested (r : Request L σ) (s : Selection) (i : Nat) : Prop :=
  ∃ n, r.model.node? i = some n ∧ .evaluate n ∈ r.model.errands s

/-- The node at `j` is evaluated for a requested decision, directly or on the way. -/
def Reached (r : Request L σ) (s : Selection) (c : Context) (w : σ) (j : Nat) : Prop :=
  ∃ i, r.Requested s i ∧ Relation.ReflTransGen (r.Opens c w) i j

/-- The status of a decision after its evaluation; one that the input binds is not evaluated. -/
def verdict (r : Request L σ) (c : Context) (w : σ) (i : Nat) (n : Node L) : Status :=
  if (c.get? n.info.name).isSome then .notEvaluated
  else if (r.value c w i).isSome then .succeeded
  else if n.role.logic?.isSome && r.admitsAll (r.value c w) n then .failed
  else .skipped

/-- The result of a decision after its evaluation. -/
def resultOf (r : Request L σ) (c : Context) (w : σ) (i : Nat) (n : Node L) : Option Value :=
  if (c.get? n.info.name).isSome then none else r.value c w i

theorem mem_of_mem_tried {val : Nat → Option Value} {n : Node L} {deps : List (String × Nat)}
    {j : Nat} (h : j ∈ r.tried val n deps) : ∃ name, (name, j) ∈ deps := by
  induction deps with
  | nil => simp [tried] at h
  | cons e deps ih =>
    rw [tried] at h
    rcases List.mem_cons.mp h with rfl | h
    · exact ⟨e.1, List.mem_cons_self⟩
    · split at h
      · cases h
      · obtain ⟨name, hn⟩ := ih h
        exact ⟨name, List.mem_cons_of_mem _ hn⟩

theorem Opens.needs {c : Context} {w : σ} {i j : Nat} (h : r.Opens c w i j) :
    r.model.Needs i j := by
  obtain ⟨n, hn, -, hj⟩ := h
  refine ⟨n, hn, ?_⟩
  unfold opened at hj
  split at hj
  · exact mem_of_mem_tried hj
  · exact mem_of_mem_tried hj
  · cases hj

end Request

namespace Formula

theorem pricesRequest_functional : pricesRequest.Functional := by
  refine ⟨Host.functions_quiet, fun i n l hn hl e e' w w' h => ?_⟩
  have hlt : i < 3 := Model.lt_of_node? hn
  match i, hlt with
  | 0, _ =>
    obtain rfl := Option.some.inj hn
    cases hl
  | 1, _ =>
    obtain rfl := Option.some.inj hn
    obtain rfl := Option.some.inj hl
    exact answer_copy (h _ List.mem_cons_self) w w'
  | 2, _ =>
    obtain rfl := Option.some.inj hn
    obtain rfl := Option.some.inj hl
    exact answer_copy (h _ List.mem_cons_self) w w'

def asks : Node Formula :=
  ⟨⟨"3", "asks", "urn:shared", "shared", .cons "outer" 1 .nil, .empty⟩,
    .decision any (some (defined "outer"))⟩

/-- Two functions with one id, one of which needs the other, and a decision that asks for it. -/
def shared : Model Formula where
  id := "shared"
  ns := "urn:shared"
  name := "shared"
  typeCheck := false
  nodes := #[⟨⟨"1", "inner", "urn:shared", "shared", .nil, .empty⟩,
      .knowledge (some (function "inner"))⟩,
    ⟨⟨"1", "outer", "urn:shared", "shared", .cons "inner" 0 .nil, .empty⟩,
      .knowledge (some (function "outer"))⟩, asks]
  imports := .empty

def sharedRequest : Request Formula Unit := ⟨shared, .functions, true, 3, .alwaysDescend⟩

theorem sharedRequest_functional : sharedRequest.Functional := by
  refine ⟨Host.functions_quiet, fun i n l hn hl e e' w w' h => ?_⟩
  have hlt : i < 3 := Model.lt_of_node? hn
  match i, hlt with
  | 0, _ =>
    obtain rfl := Option.some.inj hn
    obtain rfl := Option.some.inj hl
    rfl
  | 1, _ =>
    obtain rfl := Option.some.inj hn
    obtain rfl := Option.some.inj hl
    rfl
  | 2, _ =>
    obtain rfl := Option.some.inj hn
    obtain rfl := Option.some.inj hl
    exact answer_defined (h _ List.mem_cons_self) w w'

end Formula

end DecisionGraph
