import DecisionGraph.Proofs.Formulas

namespace DecisionGraph

variable {L : Type}

/-- What becomes of a node in its builder: its id and its logic may change, and it gets the
dependencies that are declared of it. -/
structure Node.Becomes (declared : List (String × Nat)) (n n' : Node L) : Prop where
  name : n'.info.name = n.info.name
  ns : n'.info.ns = n.info.ns
  model : n'.info.model = n.info.model
  imports : n'.info.imports = n.info.imports
  dependencies : n'.info.dependencies =
    declared.foldl (fun b e => b.insert e.1 e.2) n.info.dependencies

namespace Node.Becomes

variable {n n' n'' : Node L} {ds ds' : List (String × Nat)}

theorem refl (n : Node L) : n.Becomes [] n := ⟨rfl, rfl, rfl, rfl, rfl⟩

theorem trans (h : n.Becomes ds n') (h' : n'.Becomes ds' n'') : n.Becomes (ds ++ ds') n'' where
  name := h'.name.trans h.name
  ns := h'.ns.trans h.ns
  model := h'.model.trans h.model
  imports := h'.imports.trans h.imports
  dependencies := by rw [h'.dependencies, h.dependencies, List.foldl_append]

end Node.Becomes

namespace Builder

inductive Operation (L : Type) where
  | setId (id : String)
  | setTypeCheck (enabled : Bool)
  | addNode (id name : String) (role : Role L)
  | setLogic (node : Nat) (logic : L)
  | setNodeId (node : Nat) (id : String)
  | dependsOn (node dependency : Nat)
  | addImport (name : String) (m : Model L)

def perform (b : Builder L) : Operation L → Except ModelError (Builder L)
  | .setId id => .ok (b.setId id)
  | .setTypeCheck enabled => .ok (b.setTypeCheck enabled)
  | .addNode id name role => .ok (b.addNode id name role).2
  | .setLogic node logic => b.setLogic node logic
  | .setNodeId node id => b.setNodeId node id
  | .dependsOn node dependency => b.dependsOn node dependency
  | .addImport name m => b.addImport name m

/-- The builder after an operation, or after it was refused. -/
def after (b : Builder L) (op : Operation L) : Builder L :=
  match b.perform op with
  | .ok b' => b'
  | .error _ => b

def afterAll (b : Builder L) (ops : List (Operation L)) : Builder L := ops.foldl after b

/-- What an operation declares of the node at `i`: a dependency, under the name that it has got at
that time. -/
def declares (b : Builder L) (i : Nat) : Operation L → List (String × Nat)
  | .dependsOn node dependency =>
    match b.dependsOn node dependency, b.nodes[dependency]? with
    | .ok _, some d => if node = i then [(b.dependencyName d.info, dependency)] else []
    | _, _ => []
  | _ => []

def declared (b : Builder L) (i : Nat) : List (Operation L) → List (String × Nat)
  | [] => []
  | op :: ops => b.declares i op ++ (b.after op).declared i ops

variable {b b' : Builder L} {op : Operation L} {i : Nat} {n : Node L}

theorem after_of_ok (h : b.perform op = .ok b') : b.after op = b' := by
  rw [after, h]

theorem after_of_error {e : ModelError} (h : b.perform op = .error e) : b.after op = b := by
  rw [after, h]

theorem after_addImport {name : String} {m : Model L} (h : b.addImport name m = .ok b') :
    b.after (.addImport name m) = b' :=
  after_of_ok h

theorem after_dependsOn {node dependency : Nat} (h : b.dependsOn node dependency = .ok b') :
    b.after (.dependsOn node dependency) = b' :=
  after_of_ok h

@[simp] theorem afterAll_cons (b : Builder L) (op : Operation L) (ops : List (Operation L)) :
    b.afterAll (op :: ops) = (b.after op).afterAll ops := rfl

@[simp] theorem afterAll_append (b : Builder L) (ops ops' : List (Operation L)) :
    b.afterAll (ops ++ ops') = (b.afterAll ops).afterAll ops' :=
  List.foldl_append

theorem declared_append (b : Builder L) (i : Nat) (ops ops' : List (Operation L)) :
    b.declared i (ops ++ ops') = b.declared i ops ++ (b.afterAll ops).declared i ops' := by
  induction ops generalizing b with
  | nil => rfl
  | cons op ops ih => simp [declared, ih]

theorem getElem?_replace {j : Nat} {k : Node L} (h : b.nodes[i]? = some n) :
    (b.replace j k).nodes[i]? = some (if j = i then k else n) := by
  have hi : i < b.nodes.size := (Array.getElem?_eq_some_iff.mp h).1
  unfold replace
  dsimp only
  by_cases hj : j = i
  · rw [if_pos hj, hj, Array.getElem?_setIfInBounds_self_of_lt hi]
  · rw [if_neg hj, Array.getElem?_setIfInBounds_ne hj, h]

theorem declares_dependsOn {node dependency : Nat} {d : Node L}
    (h : b.dependsOn node dependency = .ok b') (hd : b.nodes[dependency]? = some d) :
    b.declares i (.dependsOn node dependency) =
      if node = i then [(b.dependencyName d.info, dependency)] else [] := by
  rw [declares, h, hd]

theorem becomes_replace {j : Nat} {k k' : Node L} (ds : List (String × Nat))
    (h : b.nodes[i]? = some n) (hk : b.node? j = .ok k) (hb : k.Becomes ds k') :
    ∃ n', (b.replace j k').nodes[i]? = some n' ∧ n.Becomes (if j = i then ds else []) n' := by
  refine ⟨_, getElem?_replace h, ?_⟩
  by_cases hj : j = i
  · have hkn : k = n := by
      have hki := node?_eq_ok hk
      rw [hj, h] at hki
      exact (Option.some.inj hki).symm
    rw [if_pos hj, if_pos hj, ← hkn]
    exact hb
  · rw [if_neg hj, if_neg hj]
    exact .refl n

/-- An operation lets every node be, but for what it declares of it. -/
theorem becomes_after (h : b.nodes[i]? = some n) (op : Operation L) :
    ∃ n', (b.after op).nodes[i]? = some n' ∧ n.Becomes (b.declares i op) n' := by
  have hi : i < b.nodes.size := (Array.getElem?_eq_some_iff.mp h).1
  cases hop : b.perform op with
  | error e =>
    have hnone : b.declares i op = [] := by
      cases op with
      | dependsOn node dependency =>
        have hd : b.dependsOn node dependency = .error e := hop
        rw [declares, hd]
      | _ => rfl
    rw [after_of_error hop, hnone]
    exact ⟨n, h, .refl n⟩
  | ok b' =>
    rw [after_of_ok hop]
    cases op with
    | setId id =>
      obtain rfl := Except.ok.inj hop
      exact ⟨n, h, .refl n⟩
    | setTypeCheck enabled =>
      obtain rfl := Except.ok.inj hop
      exact ⟨n, h, .refl n⟩
    | addNode id name role =>
      obtain rfl := Except.ok.inj hop
      exact ⟨n, (Array.getElem?_push_lt hi).trans ((Array.getElem?_eq_getElem hi).symm.trans h),
        .refl n⟩
    | setLogic node logic =>
      obtain ⟨k, role, hk, -, rfl⟩ := setLogic_eq_ok hop
      have hb : k.Becomes [] { k with role } := ⟨rfl, rfl, rfl, rfl, rfl⟩
      simpa [declares] using becomes_replace [] h hk hb
    | setNodeId node id =>
      obtain ⟨k, hk, rfl⟩ := setNodeId_eq_ok hop
      have hb : k.Becomes [] { k with info := { k.info with id } } := ⟨rfl, rfl, rfl, rfl, rfl⟩
      simpa [declares] using becomes_replace [] h hk hb
    | dependsOn node dependency =>
      obtain ⟨d, k, hd, hk, -, rfl⟩ := dependsOn_eq_ok hop
      rw [declares_dependsOn hop (node?_eq_ok hd)]
      exact becomes_replace [_] h hk ⟨rfl, rfl, rfl, rfl, rfl⟩
    | addImport name m =>
      obtain rfl := addImport_eq_ok hop
      exact ⟨n, (Array.getElem?_append_left hi).trans h, .refl n⟩

theorem becomes_afterAll (h : b.nodes[i]? = some n) (ops : List (Operation L)) :
    ∃ n', (b.afterAll ops).nodes[i]? = some n' ∧ n.Becomes (b.declared i ops) n' := by
  induction ops generalizing b n with
  | nil => exact ⟨n, h, .refl n⟩
  | cons op ops ih =>
    obtain ⟨n', h', hop⟩ := becomes_after h op
    obtain ⟨n'', h'', hops⟩ := ih h'
    exact ⟨n'', h'', hop.trans hops⟩

theorem owner_after (b : Builder L) (op : Operation L) :
    (b.after op).ns = b.ns ∧ (b.after op).name = b.name := by
  cases hop : b.perform op with
  | error e =>
    rw [after_of_error hop]
    exact ⟨rfl, rfl⟩
  | ok b' =>
    rw [after_of_ok hop]
    cases op with
    | setLogic node logic =>
      obtain ⟨k, role, -, -, rfl⟩ := setLogic_eq_ok hop
      exact ⟨rfl, rfl⟩
    | setNodeId node id =>
      obtain ⟨k, -, rfl⟩ := setNodeId_eq_ok hop
      exact ⟨rfl, rfl⟩
    | dependsOn node dependency =>
      obtain ⟨d, k, -, -, -, rfl⟩ := dependsOn_eq_ok hop
      exact ⟨rfl, rfl⟩
    | addImport name m =>
      obtain rfl := addImport_eq_ok hop
      exact ⟨rfl, rfl⟩
    | _ =>
      obtain rfl := Except.ok.inj hop
      exact ⟨rfl, rfl⟩

theorem owner_afterAll (b : Builder L) (ops : List (Operation L)) :
    (b.afterAll ops).ns = b.ns ∧ (b.afterAll ops).name = b.name := by
  induction ops generalizing b with
  | nil => exact ⟨rfl, rfl⟩
  | cons op ops ih =>
    obtain ⟨hns, hname⟩ := owner_after b op
    obtain ⟨hns', hname'⟩ := ih (b.after op)
    exact ⟨hns'.trans hns, hname'.trans hname⟩

/-- No node is ever taken away. -/
theorem size_le_afterAll (b : Builder L) (ops : List (Operation L)) :
    b.nodes.size ≤ (b.afterAll ops).nodes.size := by
  by_contra h
  have hlt : (b.afterAll ops).nodes.size < b.nodes.size := Nat.lt_of_not_le h
  obtain ⟨n', hn', -⟩ := becomes_afterAll (Array.getElem?_eq_getElem hlt) ops
  exact absurd (Array.getElem?_eq_some_iff.mp hn').1 (Nat.lt_irrefl _)

def Operation.imported : Operation L → List (Model L)
  | .addImport _ m => [m]
  | _ => []

theorem Made.after (h : b.Made) (hop : ∀ m ∈ op.imported, m.Built) : (b.after op).Made := by
  cases hb : b.perform op with
  | error e =>
    rw [after_of_error hb]
    exact h
  | ok b' =>
    rw [after_of_ok hb]
    cases op with
    | setId id => exact Except.ok.inj hb ▸ .setId id h
    | setTypeCheck enabled => exact Except.ok.inj hb ▸ .setTypeCheck enabled h
    | addNode id name role => exact Except.ok.inj hb ▸ .addNode id name role h
    | setLogic node logic => exact .setLogic h hb
    | setNodeId node id => exact .setNodeId h hb
    | dependsOn node dependency => exact .dependsOn h hb
    | addImport name m =>
      obtain ⟨lib, freshId, hlib, hbuild⟩ := hop m List.mem_cons_self
      exact .addImport h hlib hbuild hb

theorem Made.afterAll {ops : List (Operation L)} (h : b.Made)
    (hops : ∀ op ∈ ops, ∀ m ∈ op.imported, m.Built) : (b.afterAll ops).Made := by
  induction ops generalizing b with
  | nil => exact h
  | cons op ops ih =>
    exact ih (h.after (hops op List.mem_cons_self)) fun o ho => hops o (List.mem_cons_of_mem _ ho)

theorem declares_eq_nil (h : b.nodes.size ≤ i) (op : Operation L) : b.declares i op = [] := by
  cases op with
  | dependsOn node dependency =>
    cases hop : b.dependsOn node dependency with
    | error e => rw [declares, hop]
    | ok b' =>
      obtain ⟨d, k, hd, hk, -⟩ := dependsOn_eq_ok hop
      have hnode : node < b.nodes.size := (Array.getElem?_eq_some_iff.mp (node?_eq_ok hk)).1
      rw [declares_dependsOn hop (node?_eq_ok hd), if_neg (by omega)]
  | _ => rfl

theorem declared_eq_nil {ops : List (Operation L)} (h : (b.afterAll ops).nodes.size ≤ i) :
    b.declared i ops = [] := by
  induction ops generalizing b with
  | nil => rfl
  | cons op ops ih =>
    have hsize := Nat.le_trans (size_le_afterAll b (op :: ops)) h
    rw [declared, declares_eq_nil hsize, ih h, List.nil_append]

/-- A node that the builder makes belongs to the builder's model, and has the dependencies that were
ever declared of it. -/
theorem node_created (b : Builder L) (before later : List (Operation L)) (id name : String)
    (role : Role L) :
    ∃ n, (b.afterAll (before ++ .addNode id name role :: later)).nodes[
        (b.afterAll before).nodes.size]? = some n ∧
      n.info.name = name ∧ n.info.ns = b.ns ∧ n.info.model = b.name ∧
      n.info.dependencies = .ofList (b.declared (b.afterAll before).nodes.size
        (before ++ .addNode id name role :: later)) := by
  obtain ⟨hns, hname⟩ := owner_afterAll b before
  obtain ⟨n, hn, hbecomes⟩ := becomes_afterAll (b := (b.afterAll before).after (.addNode id name role))
    Array.getElem?_push_size later
  rw [afterAll_append, declared_append, declared_eq_nil (Nat.le_refl _)]
  exact ⟨n, hn, hbecomes.name, hbecomes.ns.trans hns, hbecomes.model.trans hname,
    hbecomes.dependencies⟩

theorem getElem?_addImport {name : String} {lib : Model L} (h : b.addImport name lib = .ok b')
    (hn : lib.node? i = some n) :
    b'.nodes[b.nodes.size + i]? = some (shifted b.nodes.size n) := by
  rw [addImport_eq_ok h]
  dsimp only
  rw [Array.getElem?_append_right (Nat.le_add_right _ _), Nat.add_sub_cancel_left,
    Array.getElem?_map, ← Model.node?, hn, Option.map_some]

/-- A node that the builder copies stands as far behind the first copy as it stood behind the first
node of its model. -/
theorem node_copied (b : Builder L) (before later : List (Operation L)) {name : String}
    {lib : Model L} (hlib : (b.afterAll before).addImport name lib = .ok b') {j : Nat}
    (hj : lib.node? j = some n) :
    ∃ n', (b.afterAll (before ++ .addImport name lib :: later)).nodes[
        (b.afterAll before).nodes.size + j]? = some n' ∧
      (shifted (b.afterAll before).nodes.size n).Becomes
        (b'.declared ((b.afterAll before).nodes.size + j) later) n' := by
  rw [afterAll_append, afterAll_cons, after_addImport hlib]
  exact becomes_afterAll (getElem?_addImport hlib hj) later

theorem node?_of_build {freshId : String} {m : Model L} (h : b.build freshId = .ok m)
    (hn : b.nodes[i]? = some n) : m.node? i = some (b.withImports n) := by
  obtain ⟨-, -, -, hnodes, -⟩ := build_eq_ok h
  rw [Model.node?, hnodes, Array.getElem?_map, hn, Option.map_some]

/-- A node that the builder has made answers from the import table of the built model. A copied node
answers from the table that it had in the model that it comes from, as long as its namespace is not
the one of the built model; otherwise it answers from the table of the built model as well. -/
theorem import_tables {ns model freshId : String} {ops : List (Operation L)} {m : Model L}
    (hm : ((new ns model).afterAll ops).build freshId = .ok m) :
    (∀ before id name role later, ops = before ++ .addNode id name role :: later →
      ∃ n, m.node? ((new ns model).afterAll before).nodes.size = some n ∧
        n.info.name = name ∧ n.info.imports = m.imports) ∧
    (∀ before name lib later b', ops = before ++ .addImport name lib :: later →
      ((new ns model).afterAll before).addImport name lib = .ok b' →
      ∀ j n, lib.node? j = some n →
        ∃ n', m.node? (((new ns model).afterAll before).nodes.size + j) = some n' ∧
          n'.info.name = n.info.name ∧ n'.info.ns = n.info.ns ∧ n'.info.model = n.info.model ∧
          n'.info.imports = if n.info.ns = ns then m.imports else n.info.imports) := by
  obtain ⟨-, -, -, -, himports⟩ := build_eq_ok hm
  obtain ⟨hns, -⟩ := owner_afterAll (new ns model) ops
  constructor
  · rintro before id name role later rfl
    obtain ⟨n, hn, hname, hown, -, -⟩ := node_created (new ns model) before later id name role
    refine ⟨_, node?_of_build hm hn, (name_withImports _ n).trans hname, ?_⟩
    rw [imports_withImports, if_pos (hown.trans hns.symm), himports]
  · rintro before name lib later b' rfl hlib j n hj
    obtain ⟨n', hn', hbecomes⟩ := node_copied (new ns model) before later hlib hj
    refine ⟨_, node?_of_build hm hn', (name_withImports _ n').trans hbecomes.name,
      (ns_withImports _ n').trans hbecomes.ns, (model_withImports _ n').trans hbecomes.model, ?_⟩
    rw [imports_withImports, hbecomes.ns, hbecomes.imports, hns, himports]
    rfl

end Builder

namespace Formula

def annexImports : ImportTable := ⟨[⟨"urn:orders", "orders", "o"⟩]⟩

def annexedDue : Node Formula := { due with info := { due.info with imports := annexImports } }

def note : Node Formula :=
  ⟨⟨"2", "note", "urn:orders", "annex", .nil, annexImports⟩, .decision any none⟩

/-- A model in the namespace of the orders, which it imports. -/
def annex : Model Formula where
  id := "annex"
  ns := "urn:orders"
  name := "annex"
  typeCheck := false
  nodes := (prices.nodes.toList ++ [annexedDue, note]).toArray
  imports := annexImports

end Formula

namespace Builder

def annexing : List (Operation Formula) :=
  [.addImport "o" Formula.orders, .addNode "2" "note" (.decision Formula.any none)]

theorem import_annexing : (new "urn:orders" "annex").addImport "o" Formula.orders =
    .ok ⟨none, "urn:orders", "annex", false, Formula.orders.nodes, Formula.annexImports,
      Bindings.nil.insert "o" (ownNames 0 Formula.orders)⟩ :=
  addImport_eq rfl Formula.orders

theorem build_annexing :
    ((new "urn:orders" "annex").afterAll annexing).build "annex" = .ok Formula.annex := by
  rw [annexing, afterAll_cons, after_addImport import_annexing]
  exact build_eq rfl "annex"

/-- The note answers from the table of the annex, and the copied total from the one that it has
among the orders. -/
theorem import_tables_annex :
    ((new "urn:orders" "annex").afterAll annexing).build "annex" = .ok Formula.annex ∧
    (∃ n, Formula.annex.node? 4 = some n ∧ n.info.name = "note" ∧
      n.info.imports = Formula.annexImports) ∧
    ∃ n, Formula.annex.node? 2 = some n ∧ n.info.name = "total" ∧ n.info.imports = .empty := by
  obtain ⟨hcreated, hcopied⟩ := import_tables build_annexing
  have hsize : ((new "urn:orders" "annex").afterAll
      [.addImport "o" Formula.orders]).nodes.size = 4 := by
    rw [afterAll_cons, after_addImport import_annexing]
    rfl
  obtain ⟨n, hn, hname, himports⟩ :=
    hcreated [.addImport "o" Formula.orders] "2" "note" (.decision Formula.any none) [] rfl
  obtain ⟨n', hn', hname', -, -, himports'⟩ :=
    hcopied [] "o" Formula.orders _ _ rfl import_annexing 2 Formula.total rfl
  rw [hsize] at hn
  exact ⟨build_annexing, ⟨n, hn, hname, himports⟩, n', hn', hname', himports'⟩

/-- What is due has no name for the prices in the annex, which it has among the orders. -/
theorem import_table_replaced : Formula.orders.Built ∧
    ((new "urn:orders" "annex").afterAll annexing).build "annex" = .ok Formula.annex ∧
    Formula.orders.node? 3 = some Formula.due ∧
    Formula.due.info.importName? "urn:prices" "prices" = some "p" ∧
    ∃ n, Formula.annex.node? 3 = some n ∧ n.info.name = "due" ∧
      n.info.importName? "urn:prices" "prices" = none :=
  ⟨Formula.orders_built, build_annexing, rfl, rfl, Formula.annexedDue, rfl, rfl, rfl⟩

end Builder

end DecisionGraph
