import DecisionGraph.Proofs.Assembly

namespace DecisionGraph

variable {L : Type}

namespace Builder

variable {b b' : Builder L} {ops : List (Operation L)} {i d : Nat}

/-- In the course of the operations it is declared, with success, that the node at `i` requires the
one at `d`. -/
def Accepts (b : Builder L) (ops : List (Operation L)) (i d : Nat) : Prop :=
  ∃ before later b', ops = before ++ .dependsOn i d :: later ∧
    (b.afterAll before).dependsOn i d = .ok b'

theorem dependencyName_of_owned {info : NodeInfo} (h : info.ns = b.ns) :
    b.dependencyName info = info.name :=
  if_pos h

theorem mem_declares {op : Operation L} {name : String} :
    (name, d) ∈ b.declares i op ↔ ∃ b' k, op = .dependsOn i d ∧ b.dependsOn i d = .ok b' ∧
      b.nodes[d]? = some k ∧ name = b.dependencyName k.info := by
  constructor
  · intro h
    cases op with
    | dependsOn node dependency =>
      cases hop : b.dependsOn node dependency with
      | error e => simp [declares, hop] at h
      | ok b' =>
        obtain ⟨k, n, hk, -⟩ := dependsOn_eq_ok hop
        rw [declares_dependsOn hop (node?_eq_ok hk)] at h
        split at h
        next hi =>
          obtain ⟨rfl, rfl⟩ := Prod.mk.inj (List.mem_singleton.mp h)
          exact ⟨b', k, by rw [hi], hi ▸ hop, node?_eq_ok hk, rfl⟩
        next => cases h
    | _ => cases h
  · rintro ⟨b', k, rfl, hop, hk, rfl⟩
    rw [declares_dependsOn hop hk, if_pos rfl]
    exact List.mem_singleton_self _

/-- What is declared of a node is what was accepted for it, under the name that it had then. -/
theorem mem_declared {name : String} :
    (name, d) ∈ b.declared i ops ↔ ∃ before later b' k, ops = before ++ .dependsOn i d :: later ∧
      (b.afterAll before).dependsOn i d = .ok b' ∧ (b.afterAll before).nodes[d]? = some k ∧
      name = (b.afterAll before).dependencyName k.info := by
  induction ops generalizing b with
  | nil => simp [declared]
  | cons op ops ih =>
    rw [declared, List.mem_append, mem_declares, ih]
    constructor
    · rintro (⟨b', k, rfl, hop, hk, rfl⟩ | ⟨before, later, b', k, rfl, hop, hk, rfl⟩)
      · exact ⟨[], ops, b', k, rfl, hop, hk, rfl⟩
      · exact ⟨op :: before, later, b', k, rfl, hop, hk, rfl⟩
    · rintro ⟨before, later, b', k, hops, hop, hk, rfl⟩
      cases before with
      | nil =>
        obtain ⟨rfl, rfl⟩ := List.cons.inj hops
        exact .inl ⟨b', k, rfl, hop, hk, rfl⟩
      | cons op' before =>
        obtain ⟨rfl, rfl⟩ := List.cons.inj hops
        exact .inr ⟨before, later, b', k, rfl, hop, hk, rfl⟩

theorem accepts_iff : b.Accepts ops i d ↔ ∃ name, (name, d) ∈ b.declared i ops := by
  constructor
  · rintro ⟨before, later, b', hops, hop⟩
    obtain ⟨k, n, hk, -⟩ := dependsOn_eq_ok hop
    exact ⟨_, mem_declared.mpr ⟨before, later, b', k, hops, hop, node?_eq_ok hk, rfl⟩⟩
  · rintro ⟨name, h⟩
    obtain ⟨before, later, b', k, hops, hop, -⟩ := mem_declared.mp h
    exact ⟨before, later, b', hops, hop⟩

theorem exists_node_of_declared {name : String} (h : (name, d) ∈ b.declared i ops) :
    ∃ k, (b.afterAll ops).nodes[d]? = some k ∧ (k.info.ns = b.ns → k.info.name = name) := by
  obtain ⟨before, later, b', k, rfl, -, hk, rfl⟩ := mem_declared.mp h
  obtain ⟨k', hk', hbecomes⟩ := becomes_afterAll hk (.dependsOn i d :: later)
  rw [afterAll_append]
  refine ⟨k', hk', fun hns => ?_⟩
  have hown : k.info.ns = (b.afterAll before).ns :=
    hbecomes.ns.symm.trans (hns.trans (owner_afterAll b before).1.symm)
  rw [dependencyName_of_owned hown, hbecomes.name]

/-- Of two different dependencies that are declared under one name, one is not the model's own. -/
theorem foreign_of_declared {freshId name : String} {m : Model L} {d' : Nat}
    (hm : (b.afterAll ops).build freshId = .ok m) (h : (name, d) ∈ b.declared i ops)
    (h' : (name, d') ∈ b.declared i ops) (hne : d' ≠ d) :
    ∃ k k', m.node? d = some k ∧ m.node? d' = some k' ∧ ¬(m.owns k ∧ m.owns k') := by
  obtain ⟨k, hk, hname⟩ := exists_node_of_declared h
  obtain ⟨k', hk', hname'⟩ := exists_node_of_declared h'
  obtain ⟨-, hns, -⟩ := build_eq_ok hm
  have hbns : m.ns = b.ns := hns.trans (owner_afterAll b ops).1
  have hkm := node?_of_build hm hk
  have hkm' := node?_of_build hm hk'
  refine ⟨_, _, hkm, hkm', fun ⟨ho, ho'⟩ => hne ?_⟩
  have hown : k.info.ns = b.ns := by simpa [Model.owns, hbns] using ho
  have hown' : k'.info.ns = b.ns := by simpa [Model.owns, hbns] using ho'
  refine (Model.pos_eq_of_nodup (Model.nodup_names_of_build hm) hkm hkm' ho ho' ?_).symm
  rw [name_withImports, name_withImports, hname hown, hname' hown']

/-- The dependencies of a node that the builder has made are the last ones that were accepted under
each name. Nothing else is among them. What was accepted is among them as well, unless another node
was accepted under the same name, one of the two being of another namespace. -/
theorem dependencies_declared {ns model freshId id name : String} {role : Role L} {m : Model L}
    {before later : List (Operation L)}
    (hops : ops = before ++ .addNode id name role :: later)
    (hm : ((new ns model).afterAll ops).build freshId = .ok m)
    (hi : i = ((new ns model).afterAll before).nodes.size) :
    ∃ n, m.node? i = some n ∧ n.info.name = name ∧
      n.info.dependencies = .ofList ((new ns model).declared i ops) ∧
      (∀ d ∈ n.info.dependencies.values, (new ns model).Accepts ops i d) ∧
      ∀ d, (new ns model).Accepts ops i d → d ∈ n.info.dependencies.values ∨
        ∃ other d', (other, d) ∈ (new ns model).declared i ops ∧
          n.info.dependencies.find? other = some d' ∧ d' ≠ d ∧
          ∃ k k', m.node? d = some k ∧ m.node? d' = some k' ∧ ¬(m.owns k ∧ m.owns k') := by
  obtain ⟨n, hn, hname, -, -, hdeps⟩ := node_created (new ns model) before later id name role
  rw [← hops, ← hi] at hn hdeps
  have hdeps' : (withImports _ n).info.dependencies = .ofList ((new ns model).declared i ops) :=
    (dependencies_withImports ((new ns model).afterAll ops) n).trans hdeps
  refine ⟨_, node?_of_build hm hn, (name_withImports _ n).trans hname, hdeps', ?_, ?_⟩
  · intro d hd
    rw [hdeps'] at hd
    obtain ⟨e, he, rfl⟩ := List.mem_map.mp hd
    have hfind := (Bindings.mem_toList_iff (Bindings.sorted_ofList _)).mp he
    exact accepts_iff.mpr ⟨e.1, Bindings.mem_of_find?_ofList hfind⟩
  · intro d hd
    obtain ⟨other, hother⟩ := accepts_iff.mp hd
    obtain ⟨d', hd', hfind⟩ := Bindings.exists_find?_ofList hother
    rw [hdeps']
    by_cases hne : d' = d
    · subst hne
      have hmem := (Bindings.mem_toList_iff (Bindings.sorted_ofList _)).mpr hfind
      exact .inl (List.mem_map_of_mem (f := Prod.snd) hmem)
    · exact .inr ⟨other, d', hother, hfind, hne, foreign_of_declared hm hother hd' hne⟩

end Builder

namespace Formula

def sumsImports : ImportTable := ⟨[⟨"urn:prices", "prices", "b"⟩]⟩

def sum : Node Formula :=
  ⟨⟨"1", "sum", "urn:sums", "sums", .cons "b.total" 5 .nil, sumsImports⟩, .decision any none⟩

/-- A model that imports the prices twice. -/
def sums : Model Formula where
  id := "sums"
  ns := "urn:sums"
  name := "sums"
  typeCheck := false
  nodes := (prices.nodes.toList ++ prices.nodes.toList.map (Builder.shifted 3) ++ [sum]).toArray
  imports := sumsImports

def sumsRequest : Request Formula Unit := ⟨sums, .functions, true, 4, .alwaysDescend⟩

end Formula

namespace Builder

section sums

def copying : List (Operation Formula) :=
  [.addImport "a" Formula.prices, .addImport "b" Formula.prices]

def creating : List (Operation Formula) :=
  copying ++ [.addNode "1" "sum" (.decision Formula.any none)]

def summing : List (Operation Formula) := creating ++ [.dependsOn 6 2, .dependsOn 6 5]

def copied (own : List (Node Formula)) : Builder Formula :=
  ⟨none, "urn:sums", "sums", false,
    (Formula.prices.nodes.toList ++ Formula.prices.nodes.toList.map (shifted 3) ++ own).toArray,
    Formula.sumsImports,
    (Bindings.nil.insert "a" (ownNames 0 Formula.prices)).insert "b" (ownNames 3 Formula.prices)⟩

def summed (dependencies : Bindings Nat) : Node Formula :=
  { Formula.sum with info := { Formula.sum.info with dependencies, imports := .empty } }

theorem afterAll_copying : (new "urn:sums" "sums").afterAll copying = copied [] := by
  let b : Builder Formula := ⟨none, "urn:sums", "sums", false, Formula.prices.nodes,
    ⟨[⟨"urn:prices", "prices", "a"⟩]⟩, Bindings.nil.insert "a" (ownNames 0 Formula.prices)⟩
  have hfirst : (new "urn:sums" "sums").addImport "a" Formula.prices = .ok b :=
    addImport_eq rfl Formula.prices
  have hsecond : b.addImport "b" Formula.prices = .ok (copied []) :=
    addImport_eq rfl Formula.prices
  rw [copying, afterAll_cons, after_addImport hfirst, afterAll_cons, after_addImport hsecond]
  rfl

theorem afterAll_creating :
    (new "urn:sums" "sums").afterAll creating = copied [summed .nil] := by
  rw [creating, afterAll_append, afterAll_copying]
  rfl

theorem dependsOn_first : (copied [summed .nil]).dependsOn 6 2 =
    .ok (copied [summed (.cons "b.total" 2 .nil)]) := rfl

theorem dependsOn_second : (copied [summed (.cons "b.total" 2 .nil)]).dependsOn 6 5 =
    .ok (copied [summed (.cons "b.total" 5 .nil)]) := rfl

theorem afterAll_summing :
    (new "urn:sums" "sums").afterAll summing = copied [summed (.cons "b.total" 5 .nil)] := by
  rw [summing, afterAll_append, afterAll_creating, afterAll_cons, after_dependsOn dependsOn_first,
    afterAll_cons, after_dependsOn dependsOn_second]
  rfl

theorem build_summing :
    ((new "urn:sums" "sums").afterAll summing).build "sums" = .ok Formula.sums := by
  rw [afterAll_summing]
  exact build_eq rfl "sums"

theorem accepts_first : (new "urn:sums" "sums").Accepts summing 6 2 := by
  refine ⟨creating, [.dependsOn 6 5], copied [summed (.cons "b.total" 2 .nil)], rfl, ?_⟩
  rw [afterAll_creating]
  exact dependsOn_first

theorem accepts_second : (new "urn:sums" "sums").Accepts summing 6 5 := by
  refine ⟨creating ++ [.dependsOn 6 2], [], copied [summed (.cons "b.total" 5 .nil)],
    by simp [summing], ?_⟩
  rw [afterAll_append, afterAll_creating, afterAll_cons, after_dependsOn dependsOn_first]
  exact dependsOn_second

/-- The total of the first copy was accepted under a name that the total of the second one has got
since. -/
theorem dependencies_declared_sums :
    ((new "urn:sums" "sums").afterAll summing).build "sums" = .ok Formula.sums ∧
    6 = ((new "urn:sums" "sums").afterAll copying).nodes.size ∧
    Formula.sum.info.dependencies = .ofList ((new "urn:sums" "sums").declared 6 summing) ∧
    ∃ other d', (other, 2) ∈ (new "urn:sums" "sums").declared 6 summing ∧
      Formula.sum.info.dependencies.find? other = some d' ∧ d' ≠ 2 := by
  have hsize : 6 = ((new "urn:sums" "sums").afterAll copying).nodes.size := by
    rw [afterAll_copying]
    rfl
  have hops : summing = copying ++ .addNode "1" "sum" (.decision Formula.any none) ::
      [.dependsOn 6 2, .dependsOn 6 5] := rfl
  obtain ⟨n, hn, -, hdeps, -, hkept⟩ := dependencies_declared hops build_summing hsize
  obtain rfl : Formula.sum = n := Option.some.inj hn
  have hlost : 2 ∉ Formula.sum.info.dependencies.values := by decide
  obtain ⟨other, d', hother, hfind, hne, -⟩ := (hkept 2 accepts_first).resolve_left hlost
  exact ⟨build_summing, hsize, hdeps, other, d', hother, hfind, hne⟩

/-- It was accepted that the sum depends on the totals of both copies, and it depends on one. -/
theorem dependency_lost : Formula.prices.Built ∧
    ((new "urn:sums" "sums").afterAll summing).build "sums" = .ok Formula.sums ∧
    ((new "urn:sums" "sums").afterAll copying).nodes.size = 6 ∧
    (new "urn:sums" "sums").Accepts summing 6 2 ∧ (new "urn:sums" "sums").Accepts summing 6 5 ∧
    Formula.sums.node? 6 = some Formula.sum ∧ Formula.sum.info.dependencies.values = [5] := by
  refine ⟨Formula.prices_built, build_summing, ?_, accepts_first, accepts_second, rfl, rfl⟩
  rw [afterAll_copying]
  rfl

end sums

end Builder

end DecisionGraph
