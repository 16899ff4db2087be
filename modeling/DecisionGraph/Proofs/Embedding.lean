import DecisionGraph.Proofs.Integrity
import DecisionGraph.Proofs.Meaning

namespace DecisionGraph

variable {L : Type}

open Relation (TransGen)

/-- The node behind `k` more nodes, where it answers from that import table. -/
structure Node.Copy (k : Nat) (table : ImportTable) (n n' : Node L) : Prop where
  role : n'.role = n.role
  id : n'.info.id = n.info.id
  name : n'.info.name = n.info.name
  ns : n'.info.ns = n.info.ns
  model : n'.info.model = n.info.model
  imports : n'.info.imports = table
  dependencies : n'.info.dependencies.toList = n.info.dependencies.toList.map fun e => (e.1, k + e.2)

namespace Node.Copy

variable {n n' : Node L} {k : Nat} {table : ImportTable}

theorem refl (n : Node L) : n.Copy 0 n.info.imports n :=
  ⟨rfl, rfl, rfl, rfl, rfl, rfl, by simp⟩

theorem shift (h : n.Copy k table n') (k' : Nat) :
    n.Copy (k' + k) table (Builder.shifted k' n') where
  role := h.role
  id := h.id
  name := h.name
  ns := h.ns
  model := h.model
  imports := h.imports
  dependencies := by
    rw [Builder.shifted, Bindings.toList_map, h.dependencies, List.map_map]
    apply List.map_congr_left
    intro e _
    show (e.1, k + e.2 + k') = (e.1, k' + k + e.2)
    rw [Nat.add_comm _ k', ← Nat.add_assoc]

theorem withImports (h : n.Copy k table n') (b : Builder L) :
    n.Copy k (if n.info.ns = b.ns then b.imports else table) (b.withImports n') where
  role := by
    rw [← h.role]
    unfold Builder.withImports
    split <;> rfl
  id := by
    rw [← h.id]
    unfold Builder.withImports
    split <;> rfl
  name := (b.name_withImports n').trans h.name
  ns := (b.ns_withImports n').trans h.ns
  model := (b.model_withImports n').trans h.model
  imports := by rw [b.imports_withImports, h.ns, h.imports]
  dependencies := by rw [b.dependencies_withImports, h.dependencies]

end Node.Copy

def Points (nodes : Array (Node L)) (i j : Nat) : Prop :=
  ∃ n, nodes[i]? = some n ∧ ∃ name, (name, j) ∈ n.info.dependencies.toList

/-- The graph of the model stands in an arena from the position `k` on. -/
structure Model.Embeds (m : Model L) (k : Nat) (table : Node L → ImportTable)
    (nodes : Array (Node L)) : Prop where
  node : ∀ i n, m.node? i = some n → ∃ n', nodes[k + i]? = some n' ∧ n.Copy k (table n) n'
  inside : ∀ i < m.nodes.size, ∀ j, Points nodes (k + i) j → k ≤ j ∧ j < k + m.nodes.size
  path : ∀ i < m.nodes.size, ∀ j,
    (TransGen (Points nodes) (k + i) (k + j) ↔ TransGen m.Needs i j)

namespace Model

variable {m : Model L} {k : Nat} {table : Node L → ImportTable} {nodes : Array (Node L)}

/-- The dependencies of the copies are the copies of the dependencies. -/
theorem points_iff
    (hnode : ∀ i n, m.node? i = some n → ∃ n', nodes[k + i]? = some n' ∧ n.Copy k (table n) n')
    {i : Nat} (hi : i < m.nodes.size) (j : Nat) :
    Points nodes (k + i) j ↔ ∃ j', j = k + j' ∧ m.Needs i j' := by
  obtain ⟨n, hn⟩ := node?_of_lt hi
  obtain ⟨n', hn', hcopy⟩ := hnode i n hn
  constructor
  · rintro ⟨x, hx, name, he⟩
    obtain rfl := Option.some.inj (hn'.symm.trans hx)
    rw [hcopy.dependencies] at he
    obtain ⟨e, hmem, heq⟩ := List.mem_map.mp he
    obtain ⟨rfl, rfl⟩ := Prod.mk.inj heq
    exact ⟨e.2, rfl, n, hn, e.1, hmem⟩
  · rintro ⟨j', rfl, x, hx, name, he⟩
    obtain rfl := Option.some.inj (hn.symm.trans hx)
    refine ⟨n', hn', name, ?_⟩
    rw [hcopy.dependencies]
    exact List.mem_map.mpr ⟨_, he, rfl⟩

/-- From a copy all paths lead to copies. -/
theorem exists_path_of_copies (hr : InRange m.nodes.size m.nodes)
    (hnode : ∀ i n, m.node? i = some n → ∃ n', nodes[k + i]? = some n' ∧ n.Copy k (table n) n')
    {i j : Nat} (hi : i < m.nodes.size) (h : TransGen (Points nodes) (k + i) j) :
    ∃ j', j = k + j' ∧ TransGen m.Needs i j' ∧ j' < m.nodes.size := by
  induction h with
  | single hp =>
    obtain ⟨j', rfl, hneeds⟩ := (points_iff hnode hi _).mp hp
    exact ⟨j', rfl, .single hneeds, hneeds.lt_of_inRange hr⟩
  | tail _ hp ih =>
    obtain ⟨j, rfl, hpath, hj⟩ := ih
    obtain ⟨j', rfl, hneeds⟩ := (points_iff hnode hj _).mp hp
    exact ⟨j', rfl, hpath.tail hneeds, hneeds.lt_of_inRange hr⟩

/-- If all nodes of a model are copied, so is its graph. -/
theorem embeds_of_copies (hr : InRange m.nodes.size m.nodes)
    (hnode : ∀ i n, m.node? i = some n → ∃ n', nodes[k + i]? = some n' ∧ n.Copy k (table n) n') :
    m.Embeds k table nodes where
  node := hnode
  inside := by
    intro i hi j hp
    obtain ⟨j', rfl, hneeds⟩ := (points_iff hnode hi j).mp hp
    have hj := hneeds.lt_of_inRange hr
    omega
  path := by
    intro i hi j
    constructor
    · intro h
      obtain ⟨j', hj, hpath, -⟩ := exists_path_of_copies hr hnode hi h
      obtain rfl : j = j' := by omega
      exact hpath
    · intro h
      refine h.lift (k + ·) fun a c hneeds => ?_
      have ha : a < m.nodes.size := by
        obtain ⟨x, hx, -⟩ := hneeds
        exact lt_of_node? hx
      exact (points_iff hnode ha _).mpr ⟨c, rfl, hneeds⟩

variable {name : String} {i j : Nat} {n : Node L}

theorem of_nodeByName? (h : m.nodeByName? name = some (i, n)) :
    m.node? i = some n ∧ m.owns n ∧ n.info.name = name := by
  obtain ⟨i', hidx, hnode⟩ := Option.bind_eq_some_iff.mp h
  obtain ⟨n', hn, heq⟩ := Option.map_eq_some_iff.mp hnode
  obtain ⟨rfl, rfl⟩ := Prod.mk.inj heq
  obtain ⟨_, hp, -⟩ := List.findIdx?_eq_some_iff_getElem.mp hidx
  obtain ⟨_, hget⟩ := Array.getElem?_eq_some_iff.mp hn
  rw [Array.getElem_toList, hget] at hp
  exact ⟨hn, by simpa using hp⟩

theorem exists_nodeByName? (hn : n ∈ m.nodes) (ho : m.owns n) :
    ∃ e, m.nodeByName? n.info.name = some e := by
  have hfits : m.nodes.toList.any fun k => m.owns k && k.info.name == n.info.name :=
    List.any_eq_true.mpr ⟨n, Array.mem_toList_iff.mpr hn, by simp [ho]⟩
  obtain ⟨i, hi⟩ := Option.isSome_iff_exists.mp (List.findIdx?_isSome.trans hfits)
  obtain ⟨hlt, -⟩ := List.findIdx?_eq_some_iff_getElem.mp hi
  obtain ⟨k, hk⟩ := node?_of_lt (m := m) (by simpa using hlt)
  exact ⟨(i, k), by rw [nodeByName?, hi, Option.bind_some, hk, Option.map_some]⟩

/-- In a built model a name belongs to one of its own nodes at most. -/
theorem Built.nodeByName?_eq_some_iff (h : m.Built) :
    m.nodeByName? name = some (j, n) ↔ m.node? j = some n ∧ m.owns n ∧ n.info.name = name := by
  constructor
  · exact of_nodeByName?
  · rintro ⟨hj, ho, rfl⟩
    obtain ⟨⟨i, k⟩, hx⟩ := exists_nodeByName? (Array.mem_of_getElem? hj) ho
    obtain ⟨hi, hko, hname⟩ := of_nodeByName? hx
    obtain rfl := pos_eq_of_nodup h.nodup_names hi hj hko ho hname
    rw [hx, Option.some.inj (hi.symm.trans hj)]

end Model

namespace Builder

variable {b b' : Builder L} {op : Operation L} {i : Nat} {n : Node L} {lib : Model L}
  {name : String}

theorem exists_copy_addImport {k : Nat} {table : ImportTable} (h : b.addImport name lib = .ok b')
    (hn : ∃ n', lib.node? (k + i) = some n' ∧ n.Copy k table n') :
    ∃ n', b'.nodes[b.nodes.size + k + i]? = some n' ∧ n.Copy (b.nodes.size + k) table n' := by
  obtain ⟨n', hn', hcopy⟩ := hn
  refine ⟨_, ?_, hcopy.shift b.nodes.size⟩
  rw [Nat.add_assoc]
  exact getElem?_addImport h hn'

theorem find?_ownNames (hlib : lib.Built) (offset : Nat) (node : String) :
    (ownNames offset lib).find? node = (lib.nodeByName? node).map fun e => offset + e.1 := by
  ext i
  rw [Option.map_eq_some_iff]
  constructor
  · intro h
    obtain ⟨j, n, rfl, hn, ho, hname⟩ := exists_node_of_ownNames h
    exact ⟨(j, n), hlib.nodeByName?_eq_some_iff.mpr ⟨hn, ho, hname⟩, rfl⟩
  · rintro ⟨⟨j, n⟩, hfound, rfl⟩
    obtain ⟨hn, ho, rfl⟩ := hlib.nodeByName?_eq_some_iff.mp hfound
    have hlist : (n, offset + j) ∈ lib.nodes.toList.zipIdx offset :=
      List.mk_add_mem_zipIdx_iff_getElem?.mpr (by simpa [Model.node?] using hn)
    obtain ⟨i, hi⟩ : ∃ i, (ownNames offset lib).find? n.info.name = some i := by
      refine (Bindings.exists_find?_ofList (v := offset + j) ?_).imp fun _ h => h.2
      exact List.mem_filterMap.mpr ⟨_, hlist, if_pos ho⟩
    obtain ⟨j', n', rfl, hn', ho', hname⟩ := exists_node_of_ownNames hi
    rw [Model.pos_eq_of_nodup hlib.nodup_names hn' hn ho' ho hname] at hi
    exact hi

def Operation.target? : Operation L → Option Nat
  | .setLogic node _ => some node
  | .setNodeId node _ => some node
  | .dependsOn node _ => some node
  | _ => none

theorem getElem?_after (h : b.nodes[i]? = some n) (hop : op.target? ≠ some i) :
    (b.after op).nodes[i]? = some n := by
  have hi : i < b.nodes.size := (Array.getElem?_eq_some_iff.mp h).1
  have hreplace {j : Nat} (k : Node L) (hj : some j ≠ some i) :
      (b.replace j k).nodes[i]? = some n := by
    rw [getElem?_replace h, if_neg fun he => hj (congrArg some he)]
  cases hb : b.perform op with
  | error e => rwa [after_of_error hb]
  | ok b' =>
    rw [after_of_ok hb]
    cases op with
    | setId id => exact Except.ok.inj hb ▸ h
    | setTypeCheck enabled => exact Except.ok.inj hb ▸ h
    | addNode id name role =>
      obtain rfl := Except.ok.inj hb
      exact (Array.getElem?_push_lt hi).trans ((Array.getElem?_eq_getElem hi).symm.trans h)
    | setLogic node logic =>
      obtain ⟨k, role, -, -, rfl⟩ := setLogic_eq_ok hb
      exact hreplace _ hop
    | setNodeId node id =>
      obtain ⟨k, -, rfl⟩ := setNodeId_eq_ok hb
      exact hreplace _ hop
    | dependsOn node dependency =>
      obtain ⟨d, k, -, -, -, rfl⟩ := dependsOn_eq_ok hb
      exact hreplace _ hop
    | addImport name m =>
      obtain rfl := addImport_eq_ok hb
      exact (Array.getElem?_append_left hi).trans h

theorem getElem?_afterAll {ops : List (Operation L)} (h : b.nodes[i]? = some n)
    (hops : ∀ op ∈ ops, op.target? ≠ some i) : (b.afterAll ops).nodes[i]? = some n := by
  induction ops generalizing b with
  | nil => exact h
  | cons op ops ih =>
    exact ih (getElem?_after h (hops op List.mem_cons_self))
      fun o ho => hops o (List.mem_cons_of_mem _ ho)

end Builder

/-- A model on the way of a copy, where the copies begin in it, and what its builder has done
after it had imported them. -/
structure Stage (L : Type) where
  model : Model L
  start : Nat
  later : List (Builder.Operation L)

/-- The builder of the stage has not changed the copy of the node at `i`. -/
def Stage.Spares (s : Stage L) (i : Nat) : Prop :=
  ∀ op ∈ s.later, op.target? ≠ some (s.start + i)

/-- The import table of a copy, when the outermost stage stands first. -/
def Node.tableVia (n : Node L) : List (Stage L) → ImportTable
  | [] => n.info.imports
  | s :: via => if n.info.ns = s.model.ns then s.model.imports else n.tableVia via

/-- Through a chain of imports the model has come into another one, where its nodes begin at a
position. -/
inductive Model.Nests (inner : Model L) : List (Stage L) → Nat → Model L → Prop where
  | self : Nests inner [] 0 inner
  | next {via : List (Stage L)} {k : Nat} {m m' : Model L} {b b' : Builder L} {name : String}
      {later : List (Builder.Operation L)} {freshId : String} : Nests inner via k m →
      b.addImport name m = .ok b' → (b'.afterAll later).build freshId = .ok m' →
      Nests inner (⟨m', b.nodes.size + k, later⟩ :: via) (b.nodes.size + k) m'

/-- A node that no builder on the way has changed is a copy, behind all that it was put behind. -/
theorem Model.Nests.exists_copy {inner m : Model L} {via : List (Stage L)} {k i : Nat} {n : Node L}
    (h : inner.Nests via k m) (hn : inner.node? i = some n) (hvia : ∀ s ∈ via, s.Spares i) :
    ∃ n', m.node? (k + i) = some n' ∧ n.Copy k (n.tableVia via) n' := by
  induction h with
  | self => exact ⟨n, by rwa [Nat.zero_add], .refl n⟩
  | @next via k m m' b b' name later freshId _ himport hbuild ih =>
    have hinner := ih fun s hs => hvia s (List.mem_cons_of_mem _ hs)
    obtain ⟨n', hn', hcopy⟩ := Builder.exists_copy_addImport himport hinner
    have hspared : ∀ op ∈ later, op.target? ≠ some (b.nodes.size + k + i) :=
      hvia _ List.mem_cons_self
    refine ⟨_, Builder.node?_of_build hbuild (Builder.getElem?_afterAll hn' hspared), ?_⟩
    obtain ⟨-, hns, -, -, himports⟩ := Builder.build_eq_ok hbuild
    rw [Node.tableVia, hns, himports]
    exact hcopy.withImports _

namespace Builder

variable {b b' : Builder L} {name : String} {lib : Model L}

/-- After an import the nodes that were there stand where they stood, and the graph of the imported
model stands behind them. So does the graph of every model that has come into the imported one
through imports, at the sum of the offsets, except for the copies that a builder on the way has
changed; a copy has the import table of the last model on the way that is in its namespace, or else
the one that it had. The nodes that the imported model owns are known by their names, whatever the
builder does then. -/
theorem import_embeds (hlib : lib.Built) (h : b.addImport name lib = .ok b') :
    (∀ i < b.nodes.size, b'.nodes[i]? = b.nodes[i]?) ∧
    b'.nodes.size = b.nodes.size + lib.nodes.size ∧
    lib.Embeds b.nodes.size (fun n => n.info.imports) b'.nodes ∧
    (∀ (inner : Model L) via k, inner.Nests via k lib →
      (∀ i n, inner.node? i = some n → (∀ s ∈ via, s.Spares i) →
        ∃ n', b'.nodes[b.nodes.size + k + i]? = some n' ∧
          n.Copy (b.nodes.size + k) (n.tableVia via) n') ∧
      (inner.Built → (∀ i < inner.nodes.size, ∀ s ∈ via, s.Spares i) →
        inner.Embeds (b.nodes.size + k) (fun n => n.tableVia via) b'.nodes)) ∧
    (∀ node, b'.imported? name node =
      (lib.nodeByName? node).map fun e => b.nodes.size + e.1) ∧
    ∀ later node, (b'.afterAll later).imported? name node = b'.imported? name node := by
  have hb' := addImport_eq_ok h
  have hnested {inner : Model L} {via : List (Stage L)} {k : Nat} (hin : inner.Nests via k lib)
      (i : Nat) (n : Node L) (hn : inner.node? i = some n) (hvia : ∀ s ∈ via, s.Spares i) :
      ∃ n', b'.nodes[b.nodes.size + k + i]? = some n' ∧
        n.Copy (b.nodes.size + k) (n.tableVia via) n' :=
    exists_copy_addImport h (hin.exists_copy hn hvia)
  have hnames : b'.imported.find? name = some (ownNames b.nodes.size lib) := by
    rw [hb']
    exact Bindings.find?_insert_self ..
  refine ⟨fun i hi => ?_, ?_, ?_, fun inner via k hin => ⟨hnested hin, fun hbuilt hvia => ?_⟩,
    fun node => ?_, fun later node => ?_⟩
  · rw [hb']
    exact Array.getElem?_append_left hi
  · rw [hb']
    simp
  · exact Model.embeds_of_copies hlib.inRange fun i n hn => hnested .self i n hn nofun
  · exact Model.embeds_of_copies hbuilt.inRange fun i n hn =>
      hnested hin i n hn (hvia i (Model.lt_of_node? hn))
  · rw [imported?, hnames, Option.bind_some, find?_ownNames hlib]
  · rw [imported?, imported?, hnames, imported_afterAll hnames]

def priced : Builder Formula :=
  ⟨none, "urn:desk", "desk", false, Formula.prices.nodes, Formula.orders.imports,
    Bindings.nil.insert "p" (ownNames 0 Formula.prices)⟩

def equipped : Builder Formula :=
  ⟨none, "urn:desk", "desk", false, Formula.imported.toArray, Formula.deskImports,
    priced.imported.insert "o" (ownNames 3 Formula.orders)⟩

def furnishing : List (Operation Formula) :=
  [.addNode "1" "early" Formula.early.role, .addNode "2" "late" Formula.late.role,
    .dependsOn 7 2, .dependsOn 8 6]

theorem orders_nests_desk :
    Formula.orders.Nests [⟨Formula.desk, 3, furnishing⟩] 3 Formula.desk := by
  have himport : priced.addImport "o" Formula.orders = .ok equipped := addImport_eq rfl _
  have hbuild : (equipped.afterAll furnishing).build "desk" = .ok Formula.desk := build_eq rfl "desk"
  exact .next .self himport hbuild

def hall : Builder Formula := ((new "urn:hall" "hall").addNode "1" "door" (.input Formula.any)).2

/-- When the hall imports the desk, what is due comes to stand behind the door, the prices of the
desk, and those of the orders. It still depends on the amount that the orders have. -/
theorem import_embeds_hall : Formula.desk.Built ∧ ∃ b', hall.addImport "d" Formula.desk = .ok b' ∧
    b'.nodes.size = 10 ∧
    (∃ n, b'.nodes[7]? = some n ∧ Formula.due.Copy 4 Formula.due.info.imports n) ∧
    TransGen (Points b'.nodes) 7 4 ∧
    b'.imported? "d" "late" = some 9 ∧ b'.imported? "d" "due" = none := by
  have himport : hall.addImport "d" Formula.desk = .ok _ := addImport_eq rfl _
  obtain ⟨-, hsize, -, hnested, hnames, -⟩ := import_embeds Formula.desk_built himport
  have hspared : ∀ i < 4, ∀ s ∈ [⟨Formula.desk, 3, furnishing⟩], Stage.Spares s i := by
    intro i hi s hs
    obtain rfl := List.mem_singleton.mp hs
    have h₇ : 7 ≠ 3 + i := by omega
    have h₈ : 8 ≠ 3 + i := by omega
    simp [Stage.Spares, furnishing, Operation.target?, h₇, h₈]
  obtain ⟨hcopy, hembeds⟩ := hnested _ _ _ orders_nests_desk
  have hgraph := hembeds Formula.orders_built hspared
  have hneeds : TransGen Formula.orders.Needs 3 0 := by
    have hdue : Formula.orders.Needs 3 2 := ⟨_, rfl, _, List.mem_cons_self⟩
    have htotal : Formula.orders.Needs 2 1 := ⟨_, rfl, _, List.mem_cons_self⟩
    have hnet : Formula.orders.Needs 1 0 := ⟨_, rfl, _, List.mem_cons_self⟩
    exact .head hdue (.head htotal (.single hnet))
  exact ⟨Formula.desk_built, _, himport, hsize, hgraph.node 3 Formula.due rfl,
    (hgraph.path 3 (by decide) 0).mpr hneeds, hnames "late", hnames "due"⟩

theorem annex_built : Formula.annex.Built := by
  have hops : ∀ op ∈ annexing, ∀ m ∈ op.imported, m = Formula.orders := by
    simp [annexing, Operation.imported]
  exact ⟨_, "annex", (Made.new "urn:orders" "annex").afterAll
    fun op ho m hm => hops op ho m hm ▸ Formula.orders_built, build_annexing⟩

theorem orders_nests_annex : Formula.orders.Nests
    [⟨Formula.annex, 0, [.addNode "2" "note" (.decision Formula.any none)]⟩] 0 Formula.annex := by
  have hbuild := build_annexing
  rw [annexing, afterAll_cons, after_addImport import_annexing] at hbuild
  exact .next .self import_annexing hbuild

/-- When the hall imports the annex, what is due comes to stand behind the door, and does not answer
as among the orders, although no builder on the way has changed it. -/
theorem nested_copy_retabled : Formula.orders.Built ∧ Formula.annex.Built ∧
    Formula.orders.Nests [⟨Formula.annex, 0, [.addNode "2" "note" (.decision Formula.any none)]⟩] 0
      Formula.annex ∧
    Formula.orders.node? 3 = some Formula.due ∧
    Formula.due.info.importName? "urn:prices" "prices" = some "p" ∧
    ∃ b', hall.addImport "x" Formula.annex = .ok b' ∧ ∃ n, b'.nodes[1 + 0 + 3]? = some n ∧
      n.info.name = "due" ∧ n.info.importName? "urn:prices" "prices" = none :=
  ⟨Formula.orders_built, annex_built, orders_nests_annex, rfl, rfl, _,
    addImport_eq rfl Formula.annex, _, rfl, rfl, rfl⟩

end Builder

end DecisionGraph
