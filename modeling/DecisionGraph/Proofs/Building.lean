import DecisionGraph.Model.Builder
import Mathlib.Data.List.Nodup

namespace DecisionGraph

variable {L : Type}

theorem ImportTable.nameFor?_insert_self (t : ImportTable) (i : Import) :
    (t.insert i).nameFor? i.ns i.model = some i.name := by
  unfold insert nameFor?
  rw [List.find?_append, List.find?_eq_none.mpr]
  · simp
  · intro j hj
    obtain ⟨-, hj⟩ := List.mem_filter.mp hj
    rw [Bool.not_eq_true]
    rwa [Bool.not_eq_true'] at hj

/-- The states that a builder can come into. -/
inductive Builder.Made : Builder L → Prop where
  | new (ns name : String) : Made (.new ns name)
  | setId {b : Builder L} (id : String) : Made b → Made (b.setId id)
  | setTypeCheck {b : Builder L} (enabled : Bool) : Made b → Made (b.setTypeCheck enabled)
  | addNode {b : Builder L} (id name : String) (role : Role L) : Made b →
      Made (b.addNode id name role).2
  | setLogic {b b' : Builder L} {id : Nat} {logic : L} : Made b → b.setLogic id logic = .ok b' →
      Made b'
  | setNodeId {b b' : Builder L} {id : Nat} {newId : String} : Made b →
      b.setNodeId id newId = .ok b' → Made b'
  | dependsOn {b b' : Builder L} {id dependency : Nat} : Made b →
      b.dependsOn id dependency = .ok b' → Made b'
  | addImport {b b' lib : Builder L} {m : Model L} {freshId name : String} : Made b → Made lib →
      lib.build freshId = .ok m → b.addImport name m = .ok b' → Made b'

/-- The models that builders give. -/
def Model.Built (m : Model L) : Prop :=
  ∃ (b : Builder L) (freshId : String), b.Made ∧ b.build freshId = .ok m

def InRange (bound : Nat) (nodes : Array (Node L)) : Prop :=
  ∀ n ∈ nodes, ∀ e ∈ n.info.dependencies.toList, e.2 < bound

namespace InRange

variable {bound : Nat} {nodes nodes' : Array (Node L)} {n : Node L}

theorem mono {bound' : Nat} (h : InRange bound nodes) (hb : bound ≤ bound') :
    InRange bound' nodes :=
  fun n hn e he => Nat.lt_of_lt_of_le (h n hn e he) hb

theorem push (h : InRange bound nodes) (hn : n.info.dependencies = .nil) :
    InRange (bound + 1) (nodes.push n) := by
  intro k hk e he
  rcases Array.mem_push.mp hk with hk | rfl
  · exact Nat.lt_succ_of_lt (h k hk e he)
  · simp [hn, Bindings.toList] at he

theorem set (h : InRange bound nodes) {id : Nat}
    (hn : ∀ e ∈ n.info.dependencies.toList, e.2 < bound) :
    InRange bound (nodes.setIfInBounds id n) := by
  intro k hk e he
  rcases Array.mem_or_eq_of_mem_setIfInBounds hk with hk | rfl
  · exact h k hk e he
  · exact hn e he

theorem append (h : InRange bound nodes) (h' : InRange bound nodes') :
    InRange bound (nodes ++ nodes') := by
  intro k hk e he
  rcases Array.mem_append.mp hk with hk | hk
  · exact h k hk e he
  · exact h' k hk e he

theorem shifted (offset : Nat) (h : InRange bound nodes) :
    InRange (offset + bound) (nodes.map (Builder.shifted offset)) := by
  intro k hk e he
  obtain ⟨n, hn, rfl⟩ := Array.mem_map.mp hk
  rw [Builder.shifted, Bindings.toList_map] at he
  obtain ⟨e', he', rfl⟩ := List.mem_map.mp he
  have hlt := h n hn e' he'
  show e'.2 + offset < offset + bound
  omega

theorem withImports (b : Builder L) (h : InRange bound nodes) :
    InRange bound (nodes.map b.withImports) := by
  intro k hk e he
  obtain ⟨n, hn, rfl⟩ := Array.mem_map.mp hk
  apply h n hn e
  unfold Builder.withImports at he
  split at he <;> exact he

end InRange

namespace Builder

variable {b b' : Builder L}

theorem node?_eq_ok {id : Nat} {n : Node L} (h : b.node? id = .ok n) : b.nodes[id]? = some n := by
  unfold node? at h
  split at h
  next k hk =>
    rw [hk, Except.ok.inj h]
  next => cases h

theorem mem_of_node? {id : Nat} {n : Node L} (h : b.node? id = .ok n) : n ∈ b.nodes :=
  Array.mem_of_getElem? (node?_eq_ok h)

theorem build_eq_ok {freshId : String} {m : Model L} (h : b.build freshId = .ok m) :
    firstRepeated? [] b.ownNodeNames = none ∧ m.ns = b.ns ∧ m.name = b.name ∧
      m.nodes = b.nodes.map b.withImports ∧ m.imports = b.imports := by
  unfold build at h
  split at h
  · cases h
  next hr =>
    obtain rfl := Except.ok.inj h
    exact ⟨hr, rfl, rfl, rfl, rfl⟩

@[simp] theorem name_withImports (b : Builder L) (n : Node L) :
    (b.withImports n).info.name = n.info.name := by
  unfold withImports
  split <;> rfl

@[simp] theorem ns_withImports (b : Builder L) (n : Node L) :
    (b.withImports n).info.ns = n.info.ns := by
  unfold withImports
  split <;> rfl

@[simp] theorem model_withImports (b : Builder L) (n : Node L) :
    (b.withImports n).info.model = n.info.model := by
  unfold withImports
  split <;> rfl

theorem imports_withImports (b : Builder L) (n : Node L) : (b.withImports n).info.imports =
    if n.info.ns = b.ns then b.imports else n.info.imports := by
  unfold withImports
  split <;> rfl

@[simp] theorem dependencies_withImports (b : Builder L) (n : Node L) :
    (b.withImports n).info.dependencies = n.info.dependencies := by
  unfold withImports
  split <;> rfl

theorem build_eq (h : firstRepeated? [] b.ownNodeNames = none) (freshId : String) :
    b.build freshId = .ok ⟨b.id.getD freshId, b.ns, b.name, b.typeCheck,
      (b.nodes.toList.map b.withImports).toArray, b.imports⟩ := by
  have hn : (b.nodes.toList.map b.withImports).toArray = b.nodes.map b.withImports := by
    rw [← Array.toList_map]
  rw [build, h, hn]

theorem addImport_eq {name : String} (h : b.imported.contains name = false) (m : Model L) :
    b.addImport name m = .ok { b with
      nodes := (b.nodes.toList ++ m.nodes.toList.map (shifted b.nodes.size)).toArray
      imports := b.imports.insert ⟨m.ns, m.name, name⟩
      imported := b.imported.insert name (ownNames b.nodes.size m) } := by
  have hn : (b.nodes.toList ++ m.nodes.toList.map (shifted b.nodes.size)).toArray =
      b.nodes ++ m.nodes.map (shifted b.nodes.size) := by
    rw [← Array.toList_map, ← Array.toList_append]
  rw [addImport, if_neg (by simp [h]), hn]

theorem addImport_eq_ok {name : String} {m : Model L} (h : b.addImport name m = .ok b') :
    b' = { b with
      nodes := b.nodes ++ m.nodes.map (shifted b.nodes.size)
      imports := b.imports.insert ⟨m.ns, m.name, name⟩
      imported := b.imported.insert name (ownNames b.nodes.size m) } := by
  unfold addImport at h
  split at h
  · cases h
  · exact (Except.ok.inj h).symm

theorem setLogic_eq_ok {id : Nat} {logic : L} (h : b.setLogic id logic = .ok b') :
    ∃ n role, b.node? id = .ok n ∧ role.logic? = some logic ∧
      b' = b.replace id { n with role } := by
  unfold setLogic at h
  cases hn : b.node? id with
  | error e => simp [hn, bind, Except.bind] at h
  | ok n =>
    simp only [hn, bind, Except.bind] at h
    split at h
    · exact ⟨n, _, rfl, rfl, (Except.ok.inj h).symm⟩
    · exact ⟨n, _, rfl, rfl, (Except.ok.inj h).symm⟩
    · cases h

theorem setNodeId_eq_ok {id : Nat} {newId : String} (h : b.setNodeId id newId = .ok b') :
    ∃ n, b.node? id = .ok n ∧ b' = b.replace id { n with info := { n.info with id := newId } } := by
  unfold setNodeId at h
  cases hn : b.node? id with
  | error e => simp [hn, bind, Except.bind] at h
  | ok n =>
    simp only [hn, bind, Except.bind] at h
    exact ⟨n, rfl, (Except.ok.inj h).symm⟩

theorem dependsOn_eq_ok {id dependency : Nat} (h : b.dependsOn id dependency = .ok b') :
    ∃ d n, b.node? dependency = .ok d ∧ b.node? id = .ok n ∧ n.isInput = false ∧
      b' = b.replace id { n with info := { n.info with
        dependencies := n.info.dependencies.insert (b.dependencyName d.info) dependency } } := by
  unfold dependsOn at h
  cases hd : b.node? dependency with
  | error e => simp [hd, bind, Except.bind] at h
  | ok d =>
    cases hn : b.node? id with
    | error e => simp [hd, hn, bind, Except.bind] at h
    | ok n =>
      simp only [hd, hn, bind, Except.bind] at h
      split at h
      · cases h
      next hi => exact ⟨d, n, rfl, rfl, by simpa using hi, (Except.ok.inj h).symm⟩

@[simp] theorem size_replace (id : Nat) (n : Node L) :
    (b.replace id n).nodes.size = b.nodes.size := by
  simp [replace]

theorem Made.inRange (h : b.Made) : InRange b.nodes.size b.nodes := by
  induction h with
  | new ns name =>
    intro n hn
    simp [Builder.new] at hn
  | setId id _ ih => exact ih
  | setTypeCheck enabled _ ih => exact ih
  | addNode id name role _ ih =>
    unfold Builder.addNode
    dsimp only
    rw [Array.size_push]
    exact ih.push rfl
  | setLogic _ hb ih =>
    obtain ⟨n, role, hn, -, rfl⟩ := setLogic_eq_ok hb
    rw [size_replace]
    exact ih.set fun e he => ih n (mem_of_node? hn) e he
  | setNodeId _ hb ih =>
    obtain ⟨n, hn, rfl⟩ := setNodeId_eq_ok hb
    rw [size_replace]
    exact ih.set fun e he => ih n (mem_of_node? hn) e he
  | dependsOn _ hb ih =>
    obtain ⟨d, n, hd, hn, -, rfl⟩ := dependsOn_eq_ok hb
    rw [size_replace]
    apply ih.set
    intro e he
    rcases Bindings.mem_toList_insert he with rfl | he
    · exact (Array.getElem?_eq_some_iff.mp (node?_eq_ok hd)).1
    · exact ih n (mem_of_node? hn) e he
  -- An imported model was built itself, and its positions move up by what is there already.
  | @addImport b b' lib m freshId name _ _ hbuild hb ih ihlib =>
    obtain ⟨-, -, -, hnodes, -⟩ := build_eq_ok hbuild
    rw [addImport_eq_ok hb, hnodes]
    have hlib := (ihlib.withImports lib).shifted b.nodes.size
    have happ := (ih.mono (Nat.le_add_right _ lib.nodes.size)).append hlib
    simpa using happ

theorem mem_replace {i : Nat} {k n : Node L} (h : n ∈ (b.replace i k).nodes) : n ∈ b.nodes ∨ n = k :=
  Array.mem_or_eq_of_mem_setIfInBounds h

theorem isInput_withImports (b : Builder L) (n : Node L) :
    (b.withImports n).isInput = n.isInput := by
  unfold withImports
  split <;> rfl

/-- What holds of every new node, and is kept whatever is done to a node, holds of all nodes. -/
theorem Made.forall_nodes {P : Node L → Prop} (new : ∀ n, n.info.dependencies = .nil → P n)
    (edit : ∀ n k, n.info.dependencies = k.info.dependencies → (n.isInput → k.isInput) → P k → P n)
    (depend : ∀ n name i, n.isInput = false → P n → P { n with info := { n.info with
      dependencies := n.info.dependencies.insert name i } })
    (shift : ∀ offset n, P n → P (shifted offset n)) (h : b.Made) : ∀ n ∈ b.nodes, P n := by
  induction h with
  | new ns name => simp [Builder.new]
  | setId id _ ih => exact ih
  | setTypeCheck enabled _ ih => exact ih
  | addNode id name role _ ih =>
    intro n hn
    rcases Array.mem_push.mp hn with hn | rfl
    · exact ih n hn
    · exact new _ rfl
  | setLogic _ hb ih =>
    obtain ⟨k, role, hk, hrole, rfl⟩ := setLogic_eq_ok hb
    intro n hn
    rcases mem_replace hn with hn | rfl
    · exact ih n hn
    · refine edit _ k rfl (fun hi => ?_) (ih k (mem_of_node? hk))
      cases role <;> simp_all [Node.isInput, Role.logic?]
  | setNodeId _ hb ih =>
    obtain ⟨k, hk, rfl⟩ := setNodeId_eq_ok hb
    intro n hn
    rcases mem_replace hn with hn | rfl
    · exact ih n hn
    · exact edit _ k rfl (fun hi => hi) (ih k (mem_of_node? hk))
  | dependsOn _ hb ih =>
    obtain ⟨d, k, -, hk, hi, rfl⟩ := dependsOn_eq_ok hb
    intro n hn
    rcases mem_replace hn with hn | rfl
    · exact ih n hn
    · exact depend k _ _ hi (ih k (mem_of_node? hk))
  | @addImport b b' lib m freshId name _ _ hbuild hb ih ihlib =>
    obtain ⟨-, -, -, hnodes, -⟩ := build_eq_ok hbuild
    obtain rfl := addImport_eq_ok hb
    intro n hn
    rcases Array.mem_append.mp hn with hn | hn
    · exact ih n hn
    · obtain ⟨k, hk, rfl⟩ := Array.mem_map.mp hn
      rw [hnodes] at hk
      obtain ⟨l, hl, rfl⟩ := Array.mem_map.mp hk
      refine shift _ _ (edit _ l (lib.dependencies_withImports l) (fun hi => ?_) (ihlib l hl))
      rwa [← lib.isInput_withImports l]

theorem nodup_of_firstRepeated? {seen names : List String}
    (h : firstRepeated? seen names = none) : names.Nodup ∧ ∀ n ∈ names, n ∉ seen := by
  induction names generalizing seen with
  | nil => simp
  | cons n names ih =>
    unfold firstRepeated? at h
    split at h
    · cases h
    next hn =>
      obtain ⟨hnodup, hseen⟩ := ih h
      have hn : n ∉ seen := by simpa using hn
      have hnot : n ∉ names := fun hm => hseen n hm List.mem_cons_self
      refine ⟨List.nodup_cons.mpr ⟨hnot, hnodup⟩, ?_⟩
      intro k hk
      rcases List.mem_cons.mp hk with rfl | hk
      · exact hn
      · exact fun hs => hseen k hk (List.mem_cons_of_mem _ hs)

end Builder

namespace Model

variable {m : Model L}

/-- Each dependency of a built model is a node of it. -/
theorem Built.inRange (h : m.Built) : InRange m.nodes.size m.nodes := by
  obtain ⟨b, freshId, hb, hm⟩ := h
  obtain ⟨-, -, -, hnodes, -⟩ := Builder.build_eq_ok hm
  rw [hnodes, Array.size_map]
  exact hb.inRange.withImports b

theorem Built.sorted (h : m.Built) : ∀ n ∈ m.nodes, n.info.dependencies.Sorted := by
  obtain ⟨b, freshId, hb, hm⟩ := h
  obtain ⟨-, -, -, hnodes, -⟩ := Builder.build_eq_ok hm
  have hall := hb.forall_nodes (P := fun n => n.info.dependencies.Sorted)
    (fun n hn => by simp [hn, Bindings.Sorted, Bindings.names, Bindings.toList])
    (fun n k he _ hk => he ▸ hk) (fun n name i _ hn => hn.insert name i)
    (fun offset n hn => hn.map (· + offset))
  intro n hn
  rw [hnodes] at hn
  obtain ⟨k, hk, rfl⟩ := Array.mem_map.mp hn
  rw [b.dependencies_withImports]
  exact hall k hk

/-- No two nodes of the own namespace have the same name in what a builder gives. -/
theorem nodup_names_of_build {b : Builder L} {freshId : String} (hm : b.build freshId = .ok m) :
    ((m.nodes.toList.filter m.owns).map fun n => n.info.name).Nodup := by
  obtain ⟨hr, hns, -, hnodes, -⟩ := Builder.build_eq_ok hm
  have hnames := (Builder.nodup_of_firstRepeated? hr).1
  unfold Builder.ownNodeNames at hnames
  have howns : m.owns ∘ b.withImports = fun n => n.info.ns == b.ns := by
    funext n
    simp only [Function.comp, owns, hns, Builder.ns_withImports]
  have hmap : (fun n : Node L => n.info.name) ∘ b.withImports = fun n => n.info.name := by
    funext n
    exact b.name_withImports n
  rw [hnodes, Array.toList_map, List.filter_map, howns, List.map_map, hmap]
  exact hnames

theorem Built.nodup_names (h : m.Built) :
    ((m.nodes.toList.filter m.owns).map fun n => n.info.name).Nodup := by
  obtain ⟨b, freshId, -, hm⟩ := h
  exact nodup_names_of_build hm

/-- A quality that differs between the listed nodes tells their positions apart. -/
theorem pos_eq_of_nodup {p : Node L → Bool} {f : Node L → String}
    (h : ((m.nodes.toList.filter p).map f).Nodup) {i j : Nat} {n k : Node L}
    (hn : m.node? i = some n) (hk : m.node? j = some k) (hpn : p n) (hpk : p k)
    (hx : f n = f k) : i = j := by
  have hpair := List.pairwise_iff_getElem.mp (List.pairwise_filter.mp (List.pairwise_map.mp h))
  obtain ⟨hi, hni⟩ := Array.getElem?_eq_some_iff.mp hn
  obtain ⟨hj, hkj⟩ := Array.getElem?_eq_some_iff.mp hk
  rcases Nat.lt_trichotomy i j with hlt | heq | hgt
  · have hne := hpair i j hi hj hlt
    simp only [Array.getElem_toList, hni, hkj] at hne
    exact absurd hx (hne hpn hpk)
  · exact heq
  · have hne := hpair j i hj hi hgt
    simp only [Array.getElem_toList, hni, hkj] at hne
    exact absurd hx.symm (hne hpk hpn)

theorem Built.nodup_localDecisions (h : m.Built) :
    (m.localDecisions.map fun d => d.info.name).Nodup := by
  have hsub : m.decisions.Sublist m.nodes.toList := List.filter_sublist
  exact h.nodup_names.sublist ((hsub.filter m.owns).map _)

theorem Built.eq_of_name (h : m.Built) {n k : Node L} (hn : n ∈ m.nodes) (hk : k ∈ m.nodes)
    (hno : m.owns n) (hko : m.owns k) (hx : n.info.name = k.info.name) : n = k :=
  List.inj_on_of_nodup_map h.nodup_names
    (List.mem_filter.mpr ⟨Array.mem_toList_iff.mpr hn, hno⟩)
    (List.mem_filter.mpr ⟨Array.mem_toList_iff.mpr hk, hko⟩) hx

theorem Built.imports_eq (h : m.Built) {n : Node L} (hn : n ∈ m.nodes) (ho : m.owns n) :
    n.info.imports = m.imports := by
  obtain ⟨b, freshId, -, hm⟩ := h
  obtain ⟨-, hns, -, hnodes, himports⟩ := Builder.build_eq_ok hm
  rw [hnodes] at hn
  obtain ⟨k, -, rfl⟩ := Array.mem_map.mp hn
  have hk : k.info.ns = b.ns := by simpa [owns, hns] using ho
  simp [Builder.withImports, hk, himports]

end Model

end DecisionGraph
