import DecisionGraph.Proofs.Building
import DecisionGraph.Walk

namespace DecisionGraph

variable {L σ : Type}

/-- Nodes of different identity have different keys. -/
def Model.KeysApart (m : Model L) : Prop :=
  ∀ n ∈ m.nodes, ∀ k ∈ m.nodes, m.key n.info = m.key k.info →
    n.info.ns = k.info.ns ∧ n.info.id = k.info.id

instance (m : Model L) : Decidable m.KeysApart :=
  inferInstanceAs (Decidable (∀ n ∈ m.nodes, ∀ k ∈ m.nodes, m.key n.info = m.key k.info →
    n.info.ns = k.info.ns ∧ n.info.id = k.info.id))

theorem Model.key_congr {m : Model L} {n k : NodeInfo} (hns : n.ns = k.ns) (hid : n.id = k.id) :
    m.key n = m.key k := by
  unfold key
  rw [hns, hid]

/-- A model with one decision of its own and one import. -/
structure Importer (L : Type) where
  model : Model L
  name : String
  /-- Where the nodes of the import begin in the arena. -/
  offset : Nat
  top : Node L

namespace Importer

def shift (m : Importer L) (n : Node L) : Node L := Builder.shifted m.offset n

/-- All nodes of the importer but `top` are those of the library, which are foreign to it. The
decision `top` needs the node at position `i` of the library and nothing else. -/
structure ImportsOnly (m : Importer L) (lib : Model L) (i : Nat) : Prop where
  copied : ∀ j n, lib.node? j = some n → m.model.node? (j + m.offset) = some (m.shift n)
  only : ∀ n ∈ m.model.nodes, n = m.top ∨ ∃ k ∈ lib.nodes, n = m.shift k
  foreign : ∀ n ∈ lib.nodes, n.info.ns ≠ m.model.ns
  mem_top : m.top ∈ m.model.nodes
  isDecision : m.top.isDecision
  owned : m.top.info.ns = m.model.ns
  named : m.top.info.name ≠ m.name
  imports : m.top.info.imports.nameFor? lib.ns lib.name = some m.name
  requires : ∃ name, m.top.info.dependencies = .cons name (i + m.offset) .nil

/-- The library stands in the arena of the importer, where keys tell its nodes apart as they do in
the library itself. -/
structure Copies (m : Importer L) (lib : Model L) : Prop where
  copied : ∀ j n, lib.node? j = some n → m.model.node? (j + m.offset) = some (m.shift n)
  inRange : InRange lib.nodes.size lib.nodes
  keys : ∀ n ∈ lib.nodes, ∀ k ∈ lib.nodes,
    (m.model.key n.info = m.model.key k.info ↔ lib.key n.info = lib.key k.info)

namespace ImportsOnly

variable {m : Importer L} {lib : Model L} {i : Nat} {n : Node L}

theorem mem_shift (h : m.ImportsOnly lib i) (hn : n ∈ lib.nodes) : m.shift n ∈ m.model.nodes := by
  obtain ⟨j, hj⟩ := Array.mem_iff_getElem?.mp hn
  exact Array.mem_of_getElem? (h.copied j n hj)

theorem copies (h : m.ImportsOnly lib i) (hlib : lib.Built) (hkeys : lib.KeysApart)
    (hkeys' : m.model.KeysApart) : m.Copies lib := by
  refine ⟨h.copied, hlib.inRange, fun n hn k hk => ⟨fun he => ?_, fun he => ?_⟩⟩
  · obtain ⟨hns, hid⟩ := hkeys' _ (h.mem_shift hn) _ (h.mem_shift hk) he
    exact Model.key_congr hns hid
  · obtain ⟨hns, hid⟩ := hkeys n hn k hk he
    exact Model.key_congr hns hid

theorem key_top_ne (h : m.ImportsOnly lib i) (hkeys : m.model.KeysApart) (hn : n ∈ lib.nodes) :
    m.model.key m.top.info ≠ m.model.key n.info := by
  intro he
  obtain ⟨hns, -⟩ := hkeys _ h.mem_top _ (h.mem_shift hn) he
  exact h.foreign n hn (hns.symm.trans h.owned)

end ImportsOnly

end Importer

namespace Builder

/-- The builder holds one decision `t` of its own, before (`k`) or behind (`l`) the nodes of its one
import. -/
structure Importing (b : Builder L) (lib : Model L) (a : String) (i : Nat) (k l : List (Node L))
    (t : Node L) : Prop where
  nodes : b.nodes.toList = k ++ lib.nodes.toList.map (shifted k.length) ++ l
  only : k ++ l = [t]
  isDecision : t.isDecision
  owned : t.info.ns = b.ns
  named : t.info.name ≠ a
  imports : b.imports.nameFor? lib.ns lib.name = some a
  requires : ∃ name, t.info.dependencies = .cons name (i + k.length) .nil
  foreign : ∀ n ∈ lib.nodes, n.info.ns ≠ b.ns

variable {lib m : Model L} {ns name a id t freshId : String} {type : DeclaredType}
  {logic : Option L} {b b' : Builder L} {i : Nat}

def importing (id t ns name dependency : String) (type : DeclaredType) (logic : Option L)
    (i : Nat) : Node L :=
  ⟨⟨id, t, ns, name, .cons dependency i .nil, .empty⟩, .decision type logic⟩

theorem nameFor?_of_addImport (h : b.addImport a lib = .ok b') :
    b'.imports.nameFor? lib.ns lib.name = some a := by
  rw [addImport_eq_ok h]
  exact ImportTable.nameFor?_insert_self _ ⟨lib.ns, lib.name, a⟩

/-- A decision without dependencies gets its first one. -/
theorem importing_of_dependsOn {before after : List (Node L)}
    (hb : b.dependsOn before.length i = .ok b')
    (hnodes : b.nodes.toList =
      before ++ ⟨⟨id, t, ns, name, .nil, .empty⟩, .decision type logic⟩ :: after) :
    ∃ dependency, b'.nodes.toList =
        before ++ importing id t ns name dependency type logic i :: after ∧
      b'.ns = b.ns ∧ b'.imports = b.imports := by
  obtain ⟨d, n, -, hn, -, rfl⟩ := dependsOn_eq_ok hb
  have hget := node?_eq_ok hn
  rw [← Array.getElem?_toList, hnodes, List.getElem?_append_right (Nat.le_refl _),
    Nat.sub_self] at hget
  obtain rfl := Option.some.inj hget
  refine ⟨b.dependencyName d.info, ?_, rfl, rfl⟩
  rw [replace, Array.toList_setIfInBounds, hnodes, List.set_append_right _ _ (Nat.le_refl _),
    Nat.sub_self]
  rfl

/-- A decision is added behind the import. -/
theorem importing_of_import_first (hi : (new ns name).addImport a lib = .ok b)
    (hb : (b.addNode id t (.decision type logic)).2.dependsOn lib.nodes.size i = .ok b')
    (hname : t ≠ a) (hforeign : ∀ n ∈ lib.nodes, n.info.ns ≠ ns) :
    ∃ dependency, b'.Importing lib a i [] [importing id t ns name dependency type logic i]
      (importing id t ns name dependency type logic i) := by
  have hbe := addImport_eq_ok hi
  have hns : b.ns = ns := by rw [hbe]; rfl
  have hnodes : (b.addNode id t (.decision type logic)).2.nodes.toList =
      lib.nodes.toList.map (shifted 0) ++
        [⟨⟨id, t, ns, name, .nil, .empty⟩, .decision type logic⟩] := by
    rw [hbe]
    simp [new, addNode]
  have hlength : (lib.nodes.toList.map (shifted 0)).length = lib.nodes.size := by simp
  rw [← hlength] at hb
  obtain ⟨dependency, hnodes', hns', himports⟩ := importing_of_dependsOn hb hnodes
  have hnamed : b'.imports.nameFor? lib.ns lib.name = some a :=
    (congrArg (·.nameFor? lib.ns lib.name) himports).trans (nameFor?_of_addImport hi)
  exact ⟨dependency, hnodes', rfl, rfl, (hns'.trans hns).symm, hname, hnamed, ⟨_, rfl⟩,
    fun n hn => hns'.trans hns ▸ hforeign n hn⟩

/-- A decision is added before the import. -/
theorem importing_of_node_first
    (hi : ((new ns name).addNode id t (.decision type logic)).2.addImport a lib = .ok b)
    (hb : b.dependsOn 0 (i + 1) = .ok b') (hname : t ≠ a)
    (hforeign : ∀ n ∈ lib.nodes, n.info.ns ≠ ns) :
    ∃ dependency, b'.Importing lib a i [importing id t ns name dependency type logic (i + 1)] []
      (importing id t ns name dependency type logic (i + 1)) := by
  have hbe := addImport_eq_ok hi
  have hns : b.ns = ns := by rw [hbe]; rfl
  have hnodes : b.nodes.toList = [] ++
      ⟨⟨id, t, ns, name, .nil, .empty⟩, .decision type logic⟩ ::
        lib.nodes.toList.map (shifted 1) := by
    rw [hbe]
    simp [new, addNode]
  obtain ⟨dependency, hnodes', hns', himports⟩ := importing_of_dependsOn hb hnodes
  have hnamed : b'.imports.nameFor? lib.ns lib.name = some a :=
    (congrArg (·.nameFor? lib.ns lib.name) himports).trans (nameFor?_of_addImport hi)
  refine ⟨dependency, ?_, rfl, rfl, (hns'.trans hns).symm, hname, hnamed, ⟨_, rfl⟩,
    fun n hn => hns'.trans hns ▸ hforeign n hn⟩
  rw [hnodes', List.append_nil]
  rfl

/-- What such a builder builds is an importer. -/
theorem Importing.importsOnly {k l : List (Node L)} {t : Node L}
    (h : b.Importing lib a i k l t) (hm : b.build freshId = .ok m) :
    Importer.ImportsOnly ⟨m, a, k.length, b.withImports t⟩ lib i := by
  obtain ⟨-, hmns, -, hmnodes, -⟩ := build_eq_ok hm
  have htop : b.withImports t = { t with info := { t.info with imports := b.imports } } :=
    if_pos h.owned
  have hlib : (lib.nodes.toList.map (shifted k.length)).map b.withImports =
      lib.nodes.toList.map (shifted k.length) := by
    rw [List.map_map]
    apply List.map_congr_left
    intro n hn
    exact if_neg (h.foreign n (Array.mem_toList_iff.mp hn))
  have hlist : m.nodes.toList = k.map b.withImports ++
      lib.nodes.toList.map (shifted k.length) ++ l.map b.withImports := by
    rw [hmnodes, Array.toList_map, h.nodes, List.map_append, List.map_append, hlib]
  have hmem (n : Node L) : n ∈ k ∨ n ∈ l ↔ n = t := by
    rw [← List.mem_append, h.only, List.mem_singleton]
  -- The nodes of the library stand behind those of `k`, in their own order.
  refine ⟨fun j n hj => ?_, fun n hn => ?_, ?_, ?_, ?_, ?_, ?_, ?_, ?_⟩
  · have hj' : lib.nodes.toList[j]? = some n := by simpa [Model.node?] using hj
    have hlt : j < lib.nodes.toList.length := (List.getElem?_eq_some_iff.mp hj').1
    rw [Model.node?, ← Array.getElem?_toList, hlist, List.append_assoc,
      List.getElem?_append_right (by simp), List.getElem?_append_left (by simpa using hlt)]
    simp [hj', Importer.shift]
  · rw [← Array.mem_toList_iff, hlist] at hn
    rcases List.mem_append.mp hn with hn | hn
    · rcases List.mem_append.mp hn with hn | hn
      · obtain ⟨n', hn', rfl⟩ := List.mem_map.mp hn
        exact .inl (congrArg b.withImports ((hmem n').mp (.inl hn')))
      · obtain ⟨n', hn', rfl⟩ := List.mem_map.mp hn
        exact .inr ⟨n', Array.mem_toList_iff.mp hn', rfl⟩
    · obtain ⟨n', hn', rfl⟩ := List.mem_map.mp hn
      exact .inl (congrArg b.withImports ((hmem n').mp (.inr hn')))
  · exact hmns ▸ h.foreign
  · show b.withImports t ∈ m.nodes
    rw [hmnodes]
    refine Array.mem_map.mpr ⟨t, ?_, rfl⟩
    rw [← Array.mem_toList_iff, h.nodes]
    rcases (hmem t).mpr rfl with ht | ht <;> simp [ht]
  · rw [htop]
    exact h.isDecision
  · rw [htop]
    exact h.owned.trans hmns.symm
  · rw [htop]
    exact h.named
  · rw [htop]
    exact h.imports
  · rw [htop]
    exact h.requires

end Builder

/-- The context `d` has all of `c` below the name `a`, and is in the scope of it. -/
structure Context.Below (a ns : String) (c d : Context) : Prop where
  frames : d.frames = ⟨a, ns⟩ :: c.frames
  entries : d.entries.find? a = some (.context c.entries)

namespace Context.Below

variable {a ns : String} {c d : Context}

theorem path (h : Below a ns c d) : d.path = a :: c.path := by
  rw [Context.path, h.frames]
  rfl

theorem within? (h : Below a ns c d) : d.entries.within? d.path = c.entries.within? c.path := by
  rw [h.path, Bindings.within?, h.entries]
  rfl

theorem bindings (h : Below a ns c d) : d.bindings = c.bindings := by
  unfold Context.bindings
  rw [h.within?]

theorem get? (h : Below a ns c d) (name : String) : d.get? name = c.get? name := by
  rw [← find?_bindings, ← find?_bindings, h.bindings]

theorem set (h : Below a ns c d) (name : String) (v : Value) :
    Below a ns (c.set name v) (d.set name v) := by
  refine ⟨h.frames, ?_⟩
  have hd : (d.set name v).entries =
      d.entries.insert a (.context (c.entries.exchangeAt c.path name v).2) := by
    rw [entries_set, h.path, Bindings.exchangeAt, h.entries]
    rfl
  rw [hd, Bindings.find?_insert_self]
  rfl

theorem push (h : Below a ns c d) (f : Frame) : Below a ns (c.push f) (d.push f) :=
  ⟨by rw [frames_push, frames_push, h.frames, List.cons_append], h.entries⟩

theorem closeTo (h : Below a ns c d) (depth : Nat) :
    Below a ns (c.closeTo depth) (d.closeTo (depth + 1)) := by
  refine ⟨?_, h.entries⟩
  simp [Context.closeTo, h.frames]

theorem depth (h : Below a ns c d) : d.depth = c.depth + 1 := by
  simp [Context.depth, h.frames]

variable {m lib : Model L}

theorem scopeNs (h : Below a lib.ns c d) : m.scopeNs d = lib.scopeNs c := by
  unfold Model.scopeNs Context.ns?
  rw [h.frames]
  cases hc : c.frames with
  | nil => rfl
  | cons f fs => simp [List.getLast?_cons]

theorem visible? (h : Below a lib.ns c d) (n k : NodeInfo) :
    m.visible? d n k = lib.visible? c n k := by
  unfold Model.visible?
  simp only [h.scopeNs, h.get?]

theorem passage (h : Below a lib.ns c d) (n k : NodeInfo) :
    m.passage d n k = lib.passage c n k := by
  unfold Model.passage
  rw [h.scopeNs]

end Context.Below

end DecisionGraph
