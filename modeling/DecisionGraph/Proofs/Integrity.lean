import DecisionGraph.Proofs.Declarations
import DecisionGraph.Proofs.Edits
import DecisionGraph.Proofs.Law
import DecisionGraph.Proofs.Record

namespace DecisionGraph

variable {L σ : Type}

namespace Builder

variable {b b' : Builder L} {ops : List (Operation L)} {name node : String} {i : Nat} {lib : Model L}
  {names : Bindings Nat}

/-- The nodes of a builder depend on nodes of its arena, and inputs on none. -/
structure Intact (b : Builder L) : Prop where
  inRange : InRange b.nodes.size b.nodes
  inputs : ∀ n ∈ b.nodes, n.isInput → n.info.dependencies = .nil

theorem Made.inputs (h : b.Made) : ∀ n ∈ b.nodes, n.isInput → n.info.dependencies = .nil := by
  refine h.forall_nodes (P := fun n => n.isInput → n.info.dependencies = .nil) (fun n hn _ => hn)
    (fun n k he hi hk hn => he.trans (hk (hi hn))) (fun n name i hn _ hi => ?_) fun offset n hn hi => ?_
  · exact absurd (hn.symm.trans hi) Bool.false_ne_true
  · simp [shifted, hn hi, Bindings.map]

theorem Made.intact (h : b.Made) : b.Intact := ⟨h.inRange, h.inputs⟩

/-- In the course of the operations the model was imported, with success, under that name. -/
def Imports (b : Builder L) (ops : List (Operation L)) (name : String) (lib : Model L) : Prop :=
  ∃ before later b', ops = before ++ .addImport name lib :: later ∧
    (b.afterAll before).addImport name lib = .ok b'

theorem contains_of_addImport (h : b.addImport name lib = .ok b') :
    b.imported.contains name = false := by
  unfold addImport at h
  split at h
  · cases h
  next hfree => simpa using hfree

/-- Only an import makes nodes known, under its own name, which was free. -/
theorem imported_after_cases (b : Builder L) (op : Operation L) :
    (b.after op).imported = b.imported ∨ ∃ name lib b', op = .addImport name lib ∧
      b.addImport name lib = .ok b' ∧ b.imported.contains name = false ∧
      (b.after op).imported = b.imported.insert name (ownNames b.nodes.size lib) := by
  cases hop : b.perform op with
  | error e => exact .inl (by rw [after_of_error hop])
  | ok b' =>
    rw [after_of_ok hop]
    cases op with
    | setLogic node logic =>
      obtain ⟨k, role, -, -, rfl⟩ := setLogic_eq_ok hop
      exact .inl rfl
    | setNodeId node id =>
      obtain ⟨k, -, rfl⟩ := setNodeId_eq_ok hop
      exact .inl rfl
    | dependsOn node dependency =>
      obtain ⟨d, k, -, -, -, rfl⟩ := dependsOn_eq_ok hop
      exact .inl rfl
    | addImport name lib =>
      exact .inr ⟨name, lib, b', rfl, hop, contains_of_addImport hop, by rw [addImport_eq_ok hop]⟩
    | _ =>
      obtain rfl := Except.ok.inj hop
      exact .inl rfl

theorem imported_after (h : b.imported.find? name = some names) (op : Operation L) :
    (b.after op).imported.find? name = some names := by
  obtain hsame | ⟨other, lib, b', -, -, hfree, hnew⟩ := imported_after_cases b op
  · rwa [hsame]
  · have hne : other ≠ name := by
      rintro rfl
      simp [Bindings.contains, h] at hfree
    rwa [hnew, Bindings.find?_insert_of_ne _ _ hne]

theorem imported_afterAll (h : b.imported.find? name = some names) (ops : List (Operation L)) :
    (b.afterAll ops).imported.find? name = some names := by
  induction ops generalizing b with
  | nil => exact h
  | cons op ops ih => exact ih (imported_after h op)

/-- What is known under a name is known from the import of a model under that name. -/
theorem imports_of_imported (h : ((b.afterAll ops).imported.find? name).isSome) :
    (b.imported.find? name).isSome ∨ ∃ lib, b.Imports ops name lib := by
  induction ops generalizing b with
  | nil => exact .inl h
  | cons op ops ih =>
    rcases ih h with hname | ⟨lib, before, later, b', rfl, hlib⟩
    · obtain hsame | ⟨other, lib, b', rfl, hlib, -, hnew⟩ := imported_after_cases b op
      · exact .inl (hsame ▸ hname)
      · by_cases hne : other = name
        · exact .inr ⟨lib, [], ops, b', by rw [hne]; rfl, hne ▸ hlib⟩
        · rw [hnew, Bindings.find?_insert_of_ne _ _ hne] at hname
          exact .inl hname
    · exact .inr ⟨lib, op :: before, later, b', rfl, hlib⟩

theorem imported_of_imports (h : b.Imports ops name lib) : ∃ before later b',
    ops = before ++ .addImport name lib :: later ∧
    (b.afterAll before).addImport name lib = .ok b' ∧ (b.afterAll ops).imported.find? name =
      some (ownNames (b.afterAll before).nodes.size lib) := by
  obtain ⟨before, later, b', rfl, hlib⟩ := h
  refine ⟨before, later, b', rfl, hlib, ?_⟩
  rw [afterAll_append, afterAll_cons, after_addImport hlib]
  apply imported_afterAll
  rw [addImport_eq_ok hlib]
  exact Bindings.find?_insert_self ..

theorem exists_node_of_ownNames {offset : Nat} (h : (ownNames offset lib).find? node = some i) :
    ∃ j n, i = offset + j ∧ lib.node? j = some n ∧ lib.owns n ∧ n.info.name = node := by
  obtain ⟨⟨n, k⟩, hk, hown⟩ := List.mem_filterMap.mp (Bindings.mem_of_find?_ofList h)
  obtain ⟨hle, hn⟩ := List.mem_zipIdx_iff_le_and_getElem?_sub.mp hk
  simp at hown
  obtain ⟨ho, rfl, rfl⟩ := hown
  exact ⟨k - offset, n, by simp at hle; omega, by simpa [Model.node?] using hn, ho, rfl⟩

/-- What is known under the name of an import are nodes that the imported model owns. -/
theorem node_of_imported (h : b.Imports ops name lib)
    (hi : (b.afterAll ops).imported? name node = some i) : ∃ n, (b.afterAll ops).nodes[i]? = some n ∧
      n.info.name = node ∧ n.info.ns = lib.ns := by
  obtain ⟨before, later, b', rfl, hlib, hnames⟩ := imported_of_imports h
  rw [imported?, hnames] at hi
  obtain ⟨j, n, rfl, hj, ho, rfl⟩ := exists_node_of_ownNames hi
  obtain ⟨n', hn', hbecomes⟩ := node_copied b before later hlib hj
  refine ⟨n', hn', hbecomes.name, hbecomes.ns.trans ?_⟩
  simpa [Model.owns, shifted] using ho

theorem firstRepeated?_eq_none {seen names : List String} (h : names.Nodup)
    (hs : ∀ n ∈ names, n ∉ seen) : firstRepeated? seen names = none := by
  induction names generalizing seen with
  | nil => rfl
  | cons n names ih =>
    obtain ⟨hn, hnames⟩ := List.nodup_cons.mp h
    rw [firstRepeated?, if_neg (by simpa using hs n List.mem_cons_self)]
    refine ih hnames fun k hk hseen => ?_
    rcases List.mem_cons.mp hseen with rfl | hseen
    · exact hn hk
    · exact hs k (List.mem_cons_of_mem _ hk) hseen

/-- The builder gives its model exactly if its own nodes have different names. -/
theorem exists_build_iff (b : Builder L) (freshId : String) :
    (∃ m, b.build freshId = .ok m) ↔ b.ownNodeNames.Nodup := by
  constructor
  · rintro ⟨m, hm⟩
    exact (nodup_of_firstRepeated? (build_eq_ok hm).1).1
  · intro h
    exact ⟨_, build_eq (firstRepeated?_eq_none h (by simp)) freshId⟩

end Builder

def Model.Knows (m : Model L) (l : List (Sighting L)) : Prop := ∀ t ∈ l, t.moment.node ∈ m.nodes

theorem Model.Knows.concat {m : Model L} {l : List (Sighting L)} {t : Sighting L} (h : m.Knows l)
    (ht : t.moment.node ∈ m.nodes) : m.Knows (l ++ [t]) := by
  intro u hu
  rcases List.mem_append.mp hu with hu | hu
  · exact h u hu
  · exact List.mem_singleton.mp hu ▸ ht

namespace Request

variable {r : Request L σ}

/-- The evaluation of a node of the model adds sightings of nodes of the model only. -/
def AddsKnown (r : Request L σ) (n : Node L) (p q : Progress (σ × List (Sighting L))) : Prop :=
  n ∈ r.model.nodes → r.model.Knows p.record → r.model.Knows q.record

theorem AddsKnown.sight {n : Node L} {p q : Progress (σ × List (Sighting L))} {t : Sighting L}
    (hq : q.record = p.record ++ [t]) (ht : t.moment.node = n) : r.AddsKnown n p q := by
  intro hn hp
  rw [hq]
  exact hp.concat (ht ▸ hn)

theorem AddsKnown.trans {n : Node L} {p q s : Progress (σ × List (Sighting L))}
    (h : r.AddsKnown n p q) (h' : r.AddsKnown n q s) : r.AddsKnown n p s :=
  fun hn hp => h' hn (h hn hp)

theorem AddsKnown.opened {n : Node L} {p q : Progress (σ × List (Sighting L))}
    (h : r.AddsKnown n (r.recording.opening n p) q) : r.AddsKnown n p q :=
  .trans (.sight (record_opening r p n) rfl) h

/-- A walk that begins at a node of the model never leaves the model. -/
theorem lawful_known : r.recording.Lawful (fun n p x => r.AddsKnown n p x.2)
    (fun n _ p q => r.AddsKnown n p q) (fun n p q => r.AddsKnown n p q) where
  refl _ _ _ hp := hp
  trans h h' := h.trans h'
  unresolved n name _ source d p _ := .sight (record_reportUnresolved r p n name source d) rfl
  fits _ _ _ _ _ _ _ _ := .sight rfl rfl
  misfit n d _ p name _ source g _ _ _ _ _ :=
    .trans (.sight (q := r.recording.watch (.examined n d (r.recording.found n d p)) p) rfl rfl)
      (.sight (record_reportUnresolved r _ n name source g) rfl)
  report _ _ _ _ hp := hp
  notify _ _ _ _ hp := hp
  here _ _ _ _ hd _ _ hx _ hp := hx (Model.mem_nodes_of_mem_requirements hd) hp
  through _ _ _ _ _ hd _ _ _ hx _ hp := hx (Model.mem_nodes_of_mem_requirements hd) hp
  call n logic _ _ _ _ _ _ h := h.trans (.sight (record_callLogic r _ n logic) rfl)
  complained _ _ _ _ h := h
  stay _ _ _ _ _ hp := hp
  told _ _ _ _ _ h := h
  tooDeep _ _ _ _ _ _ _ hp := hp
  skipped _ _ _ _ _ _ _ _ h := h.opened.trans (.sight rfl rfl)
  failed _ _ _ _ _ _ _ h := h.opened.trans (.sight rfl rfl)
  kept _ _ _ _ _ _ _ h := h.opened.trans (.trans (.sight rfl rfl) (.sight rfl rfl))
  reported _ _ _ _ _ hp := hp
  heard _ _ _ _ _ h := h
  abandoned _ _ _ _ _ _ _ h := h.opened.trans (.sight rfl rfl)
  ended _ _ _ _ _ _ h := h.opened.trans (.sight rfl rfl)
  given _ _ _ _ _ _ _ h := h.opened.trans (.trans (.sight rfl rfl) (.sight rfl rfl))

theorem known_record (r : Request L σ) (s : Selection) (c : Context) (w : σ) :
    r.model.Knows (r.record s c w) := by
  refine run_induction (r := r.recording) (P := fun p => r.model.Knows p.record) ?_ ?_ ?_
  · simp [Model.Knows, Progress.record, Request.start]
  · intro n p hn hp
    exact lawful_known.visit _ n p
      (Model.mem_nodes_of_mem_localDecisions (Model.mem_localDecisions_of_mem_errands hn)) hp
  · exact fun _ _ hp => hp

end Request

theorem Model.Built.exists_dependency {m : Model L} (h : m.Built) {n : Node L} (hn : n ∈ m.nodes) :
    ∀ e ∈ n.info.dependencies.toList, ∃ d, m.node? e.2 = some d :=
  fun e he => Model.node?_of_lt (h.inRange n hn e he)

namespace Builder

/-- Whatever operations a builder has gone through, its nodes depend on nodes of its arena, inputs
on none, and what is known under the name of an import are the nodes of that name in the namespace
of the imported model. An operation that is refused has changed nothing. The builder gives its model
exactly if the names in its namespace are different, and then every request on the model finds the
nodes of all dependencies of the nodes that it gets to. -/
theorem operations_intact {ns model : String} {ops : List (Operation L)} {b : Builder L}
    (hops : ∀ op ∈ ops, ∀ m ∈ op.imported, m.Built) (hb : (new ns model).afterAll ops = b) :
    b.Intact ∧
    (∀ name node i, b.imported? name node = some i →
      (∃ lib, (new ns model).Imports ops name lib) ∧
      ∀ lib, (new ns model).Imports ops name lib →
        ∃ n, b.nodes[i]? = some n ∧ n.info.name = node ∧ n.info.ns = lib.ns) ∧
    (∀ op, (op.edit.apply b).2 = b.after op ∧
      ∀ e b', op.edit.apply b = (.error e, b') → b' = b) ∧
    ∀ freshId, ((∃ m, b.build freshId = .ok m) ↔ b.ownNodeNames.Nodup) ∧
      ∀ m, b.build freshId = .ok m → ∀ (σ : Type) (r : Request L σ), r.model = m →
        ∀ s c w, ∀ t ∈ r.record s c w, ∀ e ∈ t.moment.node.info.dependencies.toList,
          ∃ d, m.node? e.2 = some d := by
  have hmade : b.Made := hb ▸ (Made.new ns model).afterAll hops
  refine ⟨hmade.intact, ?_, ?_, fun freshId => ⟨exists_build_iff b freshId, ?_⟩⟩
  · intro name node i hi
    rw [← hb] at hi
    have hknown : (((new ns model).afterAll ops).imported.find? name).isSome := by
      rw [imported?] at hi
      obtain ⟨names, hnames, -⟩ := Option.bind_eq_some_iff.mp hi
      rw [hnames]
      rfl
    refine ⟨(imports_of_imported hknown).resolve_left (by simp [Builder.new, Bindings.find?]), ?_⟩
    intro lib hlib
    rw [← hb]
    exact node_of_imported hlib hi
  · exact fun op => ⟨snd_apply_edit b op, fun e b' => eq_of_apply_edit_error⟩
  · rintro m hm σ r rfl s c w t ht
    have hbuilt : r.model.Built := ⟨b, freshId, hmade, hm⟩
    exact hbuilt.exists_dependency (r.known_record s c w t ht)

theorem imports_prices : (new "urn:sums" "sums").Imports summing "a" Formula.prices :=
  ⟨[], _, _, rfl, addImport_eq rfl Formula.prices⟩

theorem sum_entered :
    ∃ t ∈ Formula.sumsRequest.record .all .empty (), t.moment = .entered Formula.sum := by
  have hl : Formula.sumsRequest.record .all .empty () =
    (Formula.sumsRequest.record .all .empty ())[0] ::
      (Formula.sumsRequest.record .all .empty ()).drop 1 := rfl
  rw [hl]
  exact ⟨_, List.mem_cons_self, rfl⟩

/-- The builder of the sums knows the total of the first copy. It refuses that the amount depends on
the sum, and a position that it does not have. -/
theorem operations_intact_sums :
    (∀ op ∈ summing, ∀ m ∈ op.imported, m.Built) ∧
    ∃ b, (new "urn:sums" "sums").afterAll summing = b ∧ b.Intact ∧
      (∃ n, b.nodes[2]? = some n ∧ n.info.name = "total" ∧ n.info.ns = "urn:prices") ∧
      (∃ b', (Operation.edit (.dependsOn 0 6)).apply b =
        (.error (.invalidDependency "amount" "sum"), b') ∧ b' = b) ∧
      (∃ b', (Operation.edit (.dependsOn 6 7)).apply b = (.error (.unknownNode 7), b') ∧ b' = b) ∧
      b.ownNodeNames.Nodup ∧
      ∃ t ∈ Formula.sumsRequest.record .all .empty (),
        t.moment = .entered Formula.sum ∧ ∃ d, Formula.sums.node? 5 = some d := by
  let b : Builder Formula := copied [summed (.cons "b.total" 5 .nil)]
  have hops : ∀ op ∈ summing, ∀ m ∈ op.imported, m.Built := by
    have hall : ∀ op ∈ summing, ∀ m ∈ op.imported, m = Formula.prices := by
      simp [summing, creating, copying, Operation.imported]
    exact fun op ho m hm => hall op ho m hm ▸ Formula.prices_built
  obtain ⟨hintact, hnames, hedits, hbuild⟩ := operations_intact hops afterAll_summing
  obtain ⟨hdistinct, hfound⟩ := hbuild "sums"
  have hm : b.build "sums" = .ok Formula.sums := build_eq rfl "sums"
  have hinput : (Operation.edit (.dependsOn 0 6)).apply b =
    (.error (.invalidDependency "amount" "sum"), b) := rfl
  have hunknown : (Operation.edit (.dependsOn 6 7)).apply b = (.error (.unknownNode 7), b) := rfl
  obtain ⟨t, ht, hentered⟩ := sum_entered
  have hdep := hfound _ hm Unit Formula.sumsRequest rfl .all .empty () t ht
  rw [hentered] at hdep
  exact ⟨hops, b, afterAll_summing, hintact, (hnames "a" "total" 2 rfl).2 _ imports_prices,
    ⟨b, hinput, (hedits _).2 _ _ hinput⟩, ⟨b, hunknown, (hedits _).2 _ _ hunknown⟩,
    hdistinct.mp ⟨_, hm⟩, t, ht, hentered, hdep ("b.total", 5) List.mem_cons_self⟩

end Builder

end DecisionGraph
