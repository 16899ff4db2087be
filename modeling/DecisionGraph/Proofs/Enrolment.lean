import DecisionGraph.Proofs.Formulas
import DecisionGraph.Proofs.Frozen

namespace DecisionGraph

variable {L σ : Type}

/-- What an outcome keeps for good. -/
def Outcome.tag (o : Outcome) : String × String := (o.id, o.name)

namespace Ledger

variable {l : Ledger} {k name : String} {f : Outcome → Outcome}

def ids (l : Ledger) : List String := l.outcomes.map Outcome.id

def tags (l : Ledger) : List (String × String) := l.outcomes.map Outcome.tag

theorem ids_eq_map_tags (l : Ledger) : l.ids = l.tags.map Prod.fst := by
  rw [tags, List.map_map]
  rfl

theorem tags_modify (hf : ∀ o, (f o).tag = o.tag) (k : String) : (l.modify k f).tags = l.tags := by
  unfold modify
  split
  next i hi =>
    refine List.ext_getElem? fun j => ?_
    rw [tags, tags, List.getElem?_map, List.getElem?_map, List.getElem?_modify]
    cases l.outcomes[j]? with
    | none => rfl
    | some o => by_cases hij : i = j <;> simp [hij, hf]
  next => rfl

theorem mem_ids (hi : l.Indexed) (hl : l.Listed) : k ∈ l.ids ↔ (l.positions.find? k).isSome := by
  constructor
  · intro hk
    obtain ⟨o, ho, rfl⟩ := List.mem_map.mp hk
    obtain ⟨i, hpos⟩ := List.mem_iff_getElem?.mp ho
    rw [hl i o hpos]
    rfl
  · intro hk
    obtain ⟨i, hpos⟩ := Option.isSome_iff_exists.mp hk
    obtain ⟨o, ho, rfl⟩ := hi k i hpos
    exact List.mem_map_of_mem (List.mem_of_getElem? ho)

theorem tags_ensure (hi : l.Indexed) (hl : l.Listed) (k name : String) :
    (l.ensure k name).tags = if k ∈ l.ids then l.tags else l.tags ++ [(k, name)] := by
  have hmem := mem_ids (k := k) hi hl
  unfold ensure
  cases hk : l.positions.find? k with
  | some i => rw [if_pos (hmem.mpr (by rw [hk]; rfl))]
  | none =>
    have hfree : k ∉ l.ids := fun h => by simp [hmem, hk] at h
    rw [if_neg hfree]
    exact List.map_append

theorem ids_ensure (hi : l.Indexed) (hl : l.Listed) (k name : String) :
    (l.ensure k name).ids = if k ∈ l.ids then l.ids else l.ids ++ [k] := by
  rw [ids_eq_map_tags, tags_ensure hi hl]
  split
  · exact l.ids_eq_map_tags.symm
  · rw [List.map_append, ← ids_eq_map_tags]
    rfl

theorem tags_prefix_ensure (hi : l.Indexed) (hl : l.Listed) (k name : String) :
    l.tags <+: (l.ensure k name).tags := by
  rw [tags_ensure hi hl]
  split
  · exact List.prefix_rfl
  · exact List.prefix_append ..

theorem byId?_eq_find? (hi : l.Indexed) (hl : l.Listed) (k : String) : l.byId? k = l.find? k := by
  cases hk : l.find? k with
  | none =>
    refine List.find?_eq_none.mpr fun o ho heq => ?_
    obtain rfl : o.id = k := beq_iff_eq.mp heq
    rw [hl.find? ho] at hk
    cases hk
  | some o =>
    obtain ⟨i, hpos, ho⟩ := Option.bind_eq_some_iff.mp hk
    obtain ⟨o', ho', rfl⟩ := hi k i hpos
    obtain rfl : o' = o := Option.some.inj (ho'.symm.trans ho)
    obtain ⟨w, hw⟩ := Option.isSome_iff_exists.mp
      (List.find?_isSome (p := fun w => w.id == o'.id).mpr ⟨o', List.mem_of_getElem? ho, by simp⟩)
    have hid : w.id = o'.id := by simpa using List.find?_some hw
    have hfind := hl.find? (List.mem_of_find?_eq_some hw)
    rw [hid, hk] at hfind
    rw [byId?, hw, hfind]

end Ledger

namespace Model

variable (m : Model L)

/-- The keys of the model's own decisions, in the order of the nodes. -/
def localKeys : List String := m.localDecisions.map fun d => d.info.id

/-- Every node lists its dependencies by name, each name once. -/
def Sorted : Prop := ∀ n ∈ m.nodes, n.info.dependencies.Sorted

end Model

namespace Request

/-- The decision that the request has come to at the depth limit when a dependency is reported: as
many nodes are in progress as may be, and the way to the decision is open. It was rejected there,
unless it had an outcome that blocked it. -/
def barred? (r : Request L σ) (depth : Nat) (c : Context) (n : Node L) (name : String) :
    Option (Node L) :=
  ((n.info.dependencies.find? name).bind r.model.node?).bind fun d =>
    if d.isDecision ∧ r.maxDepth ≤ depth ∧ r.model.passage c n.info d.info ≠ .closed then some d
    else none

/-- The key of the decision that a request has come to at a moment, which the record before it and
the context tell: the decision that is entered then, or the one that the depth limit has barred. -/
def arrival? (r : Request L σ) (before : List (Sighting L)) (t : Sighting L) : Option String :=
  match t.moment with
  | .entered n => if n.isDecision then some (r.key n) else none
  | .unresolved n name => (r.barred? (chain before).length t.evaluation.context n name).map r.key
  | _ => none

/-- The keys that a request has come to after a record, as often as it has. -/
def roll (r : Request L σ) (record : List (Sighting L)) : List String :=
  r.model.localKeys ++ record.zipIdx.filterMap fun x => r.arrival? (record.take x.2) x.1

/-- The keys that a request has outcomes for after a record: first those of the model's own
decisions, then the others in the order in which it came to them. -/
def enrolment (r : Request L σ) (record : List (Sighting L)) : List String :=
  (r.roll record).eraseDups

theorem roll_nil (r : Request L σ) : r.roll [] = r.model.localKeys := List.append_nil _

theorem roll_concat (r : Request L σ) (record : List (Sighting L)) (t : Sighting L) :
    r.roll (record ++ [t]) = r.roll record ++ (r.arrival? record t).toList := by
  have hfirst : record.zipIdx.filterMap (fun x => r.arrival? ((record ++ [t]).take x.2) x.1) =
      record.zipIdx.filterMap fun x => r.arrival? (record.take x.2) x.1 := by
    refine List.filterMap_congr fun x hx => ?_
    have hlt : x.2 < record.length :=
      (List.getElem?_eq_some_iff.mp (List.mem_zipIdx_iff_getElem?.mp hx)).1
    rw [List.take_append_of_le_length (Nat.le_of_lt hlt)]
  have hlast : [t].zipIdx (0 + record.length) = [(t, record.length)] := by
    rw [Nat.zero_add]
    rfl
  rw [roll, List.zipIdx_append, List.filterMap_append, hfirst, hlast, roll, List.append_assoc,
    List.filterMap_cons, List.take_left]
  cases r.arrival? record t <;> rfl

theorem barred?_eq {r : Request L σ} {n d : Node L} {name : String} {id : Nat}
    (hs : n.info.dependencies.Sorted) (he : (name, id) ∈ n.info.dependencies.toList)
    (hd : r.model.node? id = some d) (depth : Nat) (c : Context) :
    r.barred? depth c n name = if d.isDecision ∧ r.maxDepth ≤ depth ∧
      r.model.passage c n.info d.info ≠ .closed then some d else none := by
  rw [barred?, (Bindings.mem_toList_iff hs).mp he, Option.bind_some, hd, Option.bind_some]

end Request

theorem eraseDups_append_of_subset {A B : List String} (h : ∀ k ∈ B, k ∈ A) :
    (A ++ B).eraseDups = A.eraseDups := by
  have hnil : B.removeAll A = [] := List.filter_eq_nil_iff.mpr fun k hk => by simpa using h k hk
  rw [List.eraseDups_append, hnil]
  exact List.append_nil _

theorem eraseDups_concat (A : List String) (k : String) :
    (A ++ [k]).eraseDups = if k ∈ A.eraseDups then A.eraseDups else A.eraseDups ++ [k] := by
  by_cases hk : k ∈ A
  · rw [if_pos (List.mem_eraseDups.mpr hk), eraseDups_append_of_subset (by simpa using hk)]
  · rw [if_neg fun h => hk (List.mem_eraseDups.mp h), List.eraseDups_append]
    simp [List.removeAll, hk, List.eraseDups_cons]

namespace Ledger

theorem ids_ensure_of_eq {l : Ledger} (hi : l.Indexed) (hl : l.Listed) {keys : List String}
    (h : l.ids = keys.eraseDups) (k name : String) :
    (l.ensure k name).ids = (keys ++ [k]).eraseDups := by
  rw [ids_ensure hi hl, eraseDups_concat, h]

end Ledger

theorem Model.ids_freshLedger (m : Model L) : m.freshLedger.ids = m.localKeys.eraseDups := by
  have hfold : ∀ (ds : List (Node L)) (l : Ledger) (keys : List String), l.Indexed → l.Listed →
      l.ids = keys.eraseDups →
      (ds.foldl (fun l d => l.ensure d.info.id d.info.name) l).ids =
        (keys ++ ds.map fun d => d.info.id).eraseDups := by
    intro ds
    induction ds with
    | nil => exact fun l keys _ _ h => by simpa using h
    | cons d ds ih =>
      intro l keys hi hl h
      rw [List.foldl_cons, List.map_cons, List.append_cons]
      exact ih _ _ (hi.ensure _ _) (hl.ensure _ _) (Ledger.ids_ensure_of_eq hi hl h _ _)
  exact hfold m.localDecisions .empty [] Ledger.indexed_empty Ledger.listed_empty rfl

/-- The ledger has outcomes for the keys in their order, if the dependencies of the nodes are told
apart by their names. It has kept those that it had at the start of the request and at each sighting
so far. -/
structure Model.Enrols (m : Model L) (keys : List String) (record : List (Sighting L)) (l : Ledger) :
    Prop where
  indexed : l.Indexed
  listed : l.Listed
  ids : m.Sorted → l.ids = keys.eraseDups
  fresh : m.freshLedger.tags <+: l.tags
  since : ∀ t ∈ record, t.evaluation.ledger.tags <+: l.tags

namespace Request

variable {r : Request L σ} {late : Option String} {p q : Progress (σ × List (Sighting L))}
  {n d : Node L} {nodes above : List (Node L)} {name : String}

/-- These nodes are in progress. The outcomes are in the order in which the request came to their
decisions, now and at every sighting so far, but for a key that the record does not tell of yet. -/
structure Enrolled (r : Request L σ) (nodes : List (Node L)) (late : Option String)
    (p : Progress (σ × List (Sighting L))) : Prop where
  chained : chain p.record = nodes
  now : r.model.Enrols (r.roll p.record ++ late.toList) p.record p.ledger
  past : Throughout (fun before t =>
    r.model.Enrols (r.roll (before ++ [t])) before t.evaluation.ledger) p.record

namespace Enrolled

/-- With no late key, the outcomes are in the order of the record itself. -/
theorem enrols (h : r.Enrolled nodes none p) :
    r.model.Enrols (r.roll p.record) p.record p.ledger := by
  have hnow := h.now
  rwa [Option.toList_none, List.append_nil] at hnow

theorem of_eq (h : r.Enrolled nodes late p) (hl : q.ledger = p.ledger) (hr : q.record = p.record) :
    r.Enrolled nodes late q :=
  ⟨hr ▸ h.chained, by rw [hl, hr]; exact h.now, hr ▸ h.past⟩

theorem modify (h : r.Enrolled nodes late p) {k : String} {f : Outcome → Outcome}
    (hl : q.ledger = p.ledger.modify k f) (hf : ∀ o, (f o).tag = o.tag)
    (hr : q.record = p.record) : r.Enrolled nodes late q := by
  have htags : q.ledger.tags = p.ledger.tags := by rw [hl, Ledger.tags_modify hf]
  have hid : ∀ o, (f o).id = o.id := fun o => congrArg Prod.fst (hf o)
  refine ⟨hr ▸ h.chained, ⟨?_, ?_, fun hs => ?_, ?_, fun t ht => ?_⟩, hr ▸ h.past⟩
  · exact hl ▸ h.now.indexed.modify k hid
  · exact hl ▸ h.now.listed.modify k hid
  · rw [hr, ← h.now.ids hs, Ledger.ids_eq_map_tags, Ledger.ids_eq_map_tags, htags]
  · exact htags ▸ h.now.fresh
  · exact htags ▸ h.now.since t (hr ▸ ht)

theorem ensure (h : r.Enrolled nodes none p) (k name : String) :
    r.Enrolled nodes (some k) (p.update (·.onLedger (·.ensure k name))) := by
  have hpre := Ledger.tags_prefix_ensure h.now.indexed h.now.listed k name
  refine ⟨h.chained, ⟨h.now.indexed.ensure k name, h.now.listed.ensure k name, fun hs => ?_,
    h.now.fresh.trans hpre, fun t ht => (h.now.since t ht).trans hpre⟩, h.past⟩
  exact Ledger.ids_ensure_of_eq h.now.indexed h.now.listed (h.enrols.ids hs) k name

theorem absorb {k : String} (h : r.Enrolled nodes (some k) p) (hk : k ∈ r.model.localKeys) :
    r.Enrolled nodes none p := by
  refine ⟨h.chained, { h.now with ids := fun hs => ?_ }, h.past⟩
  rw [h.now.ids hs, Option.toList_some, Option.toList_none, List.append_nil]
  refine eraseDups_append_of_subset fun b hb => ?_
  rw [List.mem_singleton.mp hb]
  exact List.mem_append_left _ hk

theorem mem_roll (h : r.Enrolled nodes late p) (hs : r.model.Sorted) {k : String}
    (hk : k ∈ p.ledger.ids) : k ∈ r.roll p.record ++ late.toList := by
  rwa [h.now.ids hs, List.mem_eraseDups] at hk

/-- The record tells of the late key, or of no key that is new. -/
theorem watch (h : r.Enrolled nodes late p) {m : Moment L} {nodes' : List (Node L)}
    (hc : chain (p.record ++ [⟨m, p.evaluation⟩]) = nodes')
    (hm : r.model.Sorted → r.arrival? p.record ⟨m, p.evaluation⟩ = late ∨
      late = none ∧ ∀ k ∈ r.arrival? p.record ⟨m, p.evaluation⟩, k ∈ p.ledger.ids) :
    r.Enrolled nodes' none (r.recording.watch m p) := by
  have hids (hs : r.model.Sorted) :
      p.ledger.ids = (r.roll (p.record ++ [⟨m, p.evaluation⟩])).eraseDups := by
    rw [h.now.ids hs, roll_concat]
    rcases hm hs with heq | ⟨rfl, hknown⟩
    · rw [heq]
    · rw [Option.toList_none, List.append_nil]
      refine (eraseDups_append_of_subset fun k hk => ?_).symm
      have hmem := h.mem_roll hs (hknown k (Option.mem_toList.mp hk))
      rwa [Option.toList_none, List.append_nil] at hmem
  refine ⟨hc, ⟨h.now.indexed, h.now.listed, fun hs => ?_, h.now.fresh, fun t ht => ?_⟩, ?_⟩
  · rw [record_watch, Option.toList_none, List.append_nil]
    exact hids hs
  · rw [record_watch] at ht
    rcases List.mem_append.mp ht with ht | ht
    · exact h.now.since t ht
    · exact List.mem_singleton.mp ht ▸ List.prefix_rfl
  · rw [record_watch]
    exact h.past.concat { h.now with ids := hids }

/-- Most moments within an evaluation are about no decision that the request comes to. -/
theorem watch_of_none (h : r.Enrolled nodes none p) {m : Moment L} (hi : m.isInner = true)
    (hm : r.arrival? p.record ⟨m, p.evaluation⟩ = none) :
    r.Enrolled nodes none (r.recording.watch m p) :=
  h.watch ((chain_concat_inner hi).trans h.chained) fun _ => .inl hm

theorem left (h : r.Enrolled (n :: above) none p) :
    r.Enrolled above none (r.recording.watch (.left n) p) :=
  h.watch (by rw [chain_concat_left, h.chained, List.tail_cons]) fun _ => .inl rfl

theorem reportUnresolved (h : r.Enrolled nodes late p) (source : String) (g : Diagnostic)
    (hm : r.model.Sorted → (r.barred? nodes.length p.context n name).map r.key = late ∨
      late = none ∧ ∀ d ∈ r.barred? nodes.length p.context n name, r.key d ∈ p.ledger.ids) :
    r.Enrolled nodes none (r.recording.reportUnresolved n name source g p) := by
  have harrival (e : Evaluation) (he : e.context = p.context) :
      r.arrival? p.record ⟨.unresolved n name, e⟩ =
        (r.barred? nodes.length p.context n name).map r.key := by
    rw [arrival?, h.chained, he]
  have hwatch {q : Progress (σ × List (Sighting L))} (hq : r.Enrolled nodes late q)
      (hr : q.record = p.record) (he : q.context = p.context) (hi : q.ledger.ids = p.ledger.ids) :
      r.Enrolled nodes none (r.recording.watch (.unresolved n name) q) := by
    refine hq.watch ((chain_concat_inner rfl).trans hq.chained) fun hs => ?_
    rw [hr, harrival q.evaluation he, hi]
    refine (hm hs).imp_right fun hknown => ⟨hknown.1, fun k hk => ?_⟩
    obtain ⟨d, hd, rfl⟩ := Option.map_eq_some_iff.mp hk
    exact hknown.2 d hd
  unfold Request.reportUnresolved
  split
  · refine hwatch (h.modify rfl (fun _ => rfl) rfl) rfl rfl ?_
    have htags : (p.ledger.modify (r.key n) (·.reportFailure (.of .error g (some source) none)
        .skipped)).tags = p.ledger.tags := Ledger.tags_modify (by intro o; rfl) _
    rw [Ledger.ids_eq_map_tags, Ledger.ids_eq_map_tags]
    exact congrArg (List.map Prod.fst) htags
  · exact hwatch (h.of_eq rfl rfl) rfl rfl rfl

theorem callLogic (hk : r.host.KeepsLedger) (h : r.Enrolled nodes none p) (n : Node L) (l : L) :
    r.Enrolled nodes none (r.recording.callLogic n l p).2 :=
  (h.watch_of_none (m := .calling n) rfl rfl).of_eq (ledger_callLogic hk.recording n l p) rfl

theorem checkInput (h : r.Enrolled nodes none p) (hn : n ∈ r.model.nodes) {id : Nat}
    (he : (name, id) ∈ n.info.dependencies.toList) (hd : r.model.node? id = some d) :
    r.Enrolled nodes none (r.recording.checkInput n d name p).2 := by
  by_cases hx : r.recording.typeCheck = true ∧ ∃ type, d.role = .input type
  · obtain ⟨ht, type, hr⟩ := hx
    have hw := h.watch_of_none (m := .examined n d (r.recording.found n d p)) rfl rfl
    rw [checkInput_of_input ht hr]
    cases type.check (r.recording.found n d p) with
    | error e => exact hw.of_eq rfl rfl
    | ok fits =>
      cases fits with
      | true => exact hw
      | false =>
        refine hw.reportUnresolved _ _ fun hs => .inl ?_
        rw [barred?_eq (hs n hn) he hd, if_neg (by simp [Node.isDecision, hr])]
        rfl
  · rw [checkInput_of_not hx]
    exact h

theorem lose (h : r.Enrolled nodes none p) (k : String) (m : Option Message) (s : Status) :
    r.Enrolled nodes none (p.update (·.lose k m s)) := by
  cases m with
  | none => exact h.modify (f := fun o => { o with status := s }) rfl (fun _ => rfl) rfl
  | some m => exact h.modify rfl (fun _ => rfl) rfl

theorem bindResult (h : r.Enrolled nodes none p) (n : Node L) (type : DeclaredType) (v : Value) :
    r.Enrolled nodes none (r.recording.bindResult n type v p).2 := by
  rw [bindResult_eq]
  cases r.recording.objection? n type v with
  | none =>
    refine .watch_of_none ?_ rfl rfl
    exact h.modify rfl (fun _ => rfl) rfl
  | some m => exact h.lose (r.key n) (some m) .failed

theorem opening (h : r.Enrolled above none p) (n : Node L) :
    r.Enrolled (n :: above) none (r.recording.opening n p) := by
  have hc (e : Evaluation) : chain (p.record ++ [⟨.entered n, e⟩]) = n :: above := by
    rw [chain_concat_entered, h.chained]
  unfold Request.opening
  split
  next hn =>
    refine .watch (?_ : r.Enrolled above (some (r.key n)) _) (hc _) fun _ => .inl (if_pos hn)
    exact (h.ensure (r.key n) n.info.name).modify rfl (fun _ => rfl) rfl
  next hn =>
    refine (h.of_eq (q := p.update (·.enter (r.key n))) (by simp) rfl).watch (hc _) fun _ => ?_
    exact .inl (if_neg hn)

end Enrolled

/-- A visit of `d` has ended that began at `p`. If it came to the decision at the depth limit, it
has done nothing but reject it, which the record has not told of yet, or the decision has its
outcome. -/
def Met (r : Request L σ) (nodes : List (Node L)) (d : Node L)
    (p : Progress (σ × List (Sighting L))) (x : Resolution × Progress (σ × List (Sighting L))) :
    Prop :=
  ∃ late, r.Enrolled nodes late x.2 ∧
    (late = none → r.maxDepth ≤ nodes.length → d.isDecision → x.1 ≠ .resolved →
      r.key d ∈ x.2.ledger.ids) ∧
    ∀ k ∈ late, r.key d = k ∧ d.isDecision ∧ r.maxDepth ≤ nodes.length ∧ x.1 = .decisionFailed ∧
      x.2.context = p.context

theorem Enrolled.met {x : Resolution × Progress (σ × List (Sighting L))}
    (h : r.Enrolled nodes none x.2)
    (hd : r.maxDepth ≤ nodes.length → d.isDecision → x.1 ≠ .resolved → r.key d ∈ x.2.ledger.ids) :
    r.Met nodes d p x :=
  ⟨none, h, fun _ => hd, nofun⟩

theorem Met.settle {x : Resolution × Progress (σ × List (Sighting L))} (h : r.Met nodes d p x)
    (hn : n ∈ r.model.nodes) {id : Nat} (he : (name, id) ∈ n.info.dependencies.toList)
    (hd : r.model.node? id = some d) (hopen : r.model.passage p.context n.info d.info ≠ .closed) :
    r.Enrolled nodes none (r.recording.settle n d name x).2 := by
  obtain ⟨late, hx, hknown, hlate⟩ := h
  unfold Request.settle
  cases hg : complaint n.info d.info x.1 with
  | none =>
    -- A visit that could not open a decision is complained of.
    cases late with
    | none => exact hx
    | some k => simp [(hlate k rfl).2.2.2.1, complaint] at hg
  | some g =>
    refine hx.reportUnresolved _ g fun hs => ?_
    rw [barred?_eq (hs n hn) he hd]
    cases late with
    | none =>
      refine .inr ⟨rfl, fun k hk => ?_⟩
      obtain ⟨⟨hdec, hlimit, -⟩, hkd⟩ := Option.ite_none_right_eq_some.mp hk
      obtain rfl := Option.some.inj hkd
      exact hknown rfl hlimit hdec fun hres => by simp [hres, complaint] at hg
    | some k =>
      obtain ⟨rfl, hdec, hlimit, -, hcontext⟩ := hlate k rfl
      rw [hcontext, if_pos ⟨hdec, hlimit, hopen⟩]
      exact .inl rfl

section levels

-- The laws of a walk do not serve here: between the rejection of a decision and the report of it,
-- which is up to the dependent, the outcomes are ahead of the record.
variable {inner : Visit L (σ × List (Sighting L))} (hk : r.host.KeepsLedger)
  (hv : ∀ d ∈ r.model.nodes, ∀ p : Progress (σ × List (Sighting L)),
    r.Enrolled (n :: above) none p → r.Met (n :: above) d p (inner d p))
  (hn : n ∈ r.model.nodes)

include hv hn

theorem enrolled_provide {id : Nat} (he : (name, id) ∈ n.info.dependencies.toList)
    (hd : r.model.node? id = some d) (h : r.Enrolled (n :: above) none p) :
    r.Enrolled (n :: above) none (r.recording.provide inner n d name p).2 := by
  have hmem : d ∈ r.model.nodes := Array.mem_of_getElem? hd
  cases hu : r.recording.isDefined p.context n.info d.info with
  | true =>
    rw [provide_of_defined hu]
    exact h
  | false =>
    cases hw : r.recording.model.passage p.context n.info d.info with
    | closed =>
      rw [provide_of_closed hu hw]
      refine h.reportUnresolved _ _ fun hs => .inl ?_
      rw [barred?_eq (hs n hn) he hd, if_neg fun hbarred => hbarred.2.2 hw]
      rfl
    | here =>
      have hopen : r.model.passage p.context n.info d.info ≠ .closed := by
        rw [show r.model.passage p.context n.info d.info = .here from hw]
        exact nofun
      rw [provide_of_open hu hopen, hw, descend_here]
      exact (hv d hmem p h).settle hn he hd hopen
    | through a =>
      have hopen : r.model.passage p.context n.info d.info ≠ .closed := by
        rw [show r.model.passage p.context n.info d.info = .through a from hw]
        exact nofun
      rw [provide_of_open hu hopen, hw, descend_through]
      obtain ⟨late, hx, hknown, hlate⟩ :=
        hv d hmem (p.update (·.onContext (·.push ⟨a, d.info.ns⟩))) (h.of_eq rfl rfl)
      refine Met.settle (p := p) ⟨late, hx.of_eq rfl rfl, hknown, fun k hk => ?_⟩ hn he hd hopen
      obtain ⟨hkey, hdec, hlimit, hres, hcontext⟩ := hlate k hk
      refine ⟨hkey, hdec, hlimit, hres, ?_⟩
      exact (congrArg (·.closeTo p.context.depth) hcontext).trans (Context.closeTo_push ..)

theorem enrolled_resolveOne {id : Nat} (he : (name, id) ∈ n.info.dependencies.toList)
    (h : r.Enrolled (n :: above) none p) :
    r.Enrolled (n :: above) none (r.recording.resolveOne inner n name id p).2 := by
  cases hd : r.recording.model.node? id with
  | none =>
    unfold resolveOne
    rw [hd]
    refine h.reportUnresolved _ _ fun hs => .inl ?_
    rw [barred?, (Bindings.mem_toList_iff (hs n hn)).mp he, Option.bind_some,
      show r.model.node? id = none from hd]
    rfl
  | some d =>
    have hc := h.checkInput hn he hd
    rw [resolveOne_of_some hd]
    split
    · exact hc
    · exact enrolled_provide hv hn he hd hc

theorem enrolled_resolveList (deps : List (String × Nat))
    (hs : ∀ e ∈ deps, e ∈ n.info.dependencies.toList) (h : r.Enrolled (n :: above) none p) :
    r.Enrolled (n :: above) none (r.recording.resolveList inner n deps p).2 := by
  induction deps generalizing p with
  | nil => exact h
  | cons e deps ih =>
    obtain ⟨name, id⟩ := e
    have hone := enrolled_resolveOne hv hn (hs (name, id) List.mem_cons_self) h
    rw [resolveList_cons]
    split
    · exact hone
    · exact ih (fun e he => hs e (List.mem_cons_of_mem _ he)) hone

theorem enrolled_resolve (h : r.Enrolled (n :: above) none p) :
    r.Enrolled (n :: above) none (r.recording.resolve inner n p).2 :=
  enrolled_resolveList hv hn _ (fun _ he => he) h

include hk

theorem enrolled_runDecision (type : DeclaredType) (logic : Option L)
    (h : r.Enrolled (n :: above) none p) :
    r.Enrolled (n :: above) none (r.recording.runDecision inner n type logic p).2 := by
  have hres := enrolled_resolve hv hn h
  unfold runDecision
  dsimp only
  split
  · exact hres.lose _ none .skipped
  · cases logic with
    | none => exact hres.lose _ (some _) .skipped
    | some l =>
      have hcall := hres.callLogic hk n l
      dsimp only
      split
      · exact hcall.bindResult ..
      · exact hcall.lose _ none .failed
      · exact hcall.lose _ (some _) .failed

theorem enrolled_decide {type : DeclaredType} {logic : Option L}
    (h : r.Enrolled (n :: above) none p) :
    r.Enrolled above none (r.recording.decide inner n type logic p).2 := by
  obtain ⟨q, hq, hrec, -, he, hr⟩ := announced_record r p (.decision .before n.info.subject none)
    (fun l => .decision .after n.info.subject (l.find? (r.key n)))
    (fun q => ((r.recording.runDecision inner n type logic q).1,
      r.recording.watch (.left n)
        (r.recording.runDecision inner n type logic q).2))
  have hrun := enrolled_runDecision hk hv hn type logic
    (h.of_eq (q := q) (congrArg Evaluation.ledger hq) hrec)
  exact hrun.left.of_eq (congrArg Evaluation.ledger he) hr

theorem enrolled_runKnowledge {l : L} (hkn : n.isKnowledge) (h : r.Enrolled above none p) :
    r.Enrolled above none (r.recording.runKnowledge inner n l p) := by
  have hres := enrolled_resolve hv hn (h.opening n)
  unfold runKnowledge
  dsimp only
  rw [← opening_of_knowledge hkn]
  split
  · refine Enrolled.left ?_
    exact hres.of_eq rfl rfl
  · have hcall := hres.callLogic hk n l
    refine Enrolled.left ?_
    split
    · refine .of_eq (p := r.recording.watch (.bound n) _) (.watch_of_none ?_ rfl rfl) rfl rfl
      exact hcall.of_eq rfl rfl
    · exact hcall.of_eq rfl rfl
    · exact hcall.of_eq rfl rfl
    · exact hcall.of_eq rfl rfl

theorem enrolled_inform {l : L} (hkn : n.isKnowledge) (h : r.Enrolled above none p) :
    r.Enrolled above none (r.recording.inform inner n l p) := by
  obtain ⟨q, hq, hrec, -, he, hr⟩ := announced_record r p (.knowledge .before n.info.subject)
    (fun _ => .knowledge .after n.info.subject)
    (fun q => (true, r.recording.runKnowledge inner n l q))
  have hrun := enrolled_runKnowledge hk hv hn (l := l) hkn
    (h.of_eq (q := q) (congrArg Evaluation.ledger hq) hrec)
  exact hrun.of_eq (congrArg Evaluation.ledger he) hr

end levels

/-- A decision that may not be opened is rejected, and the record is yet to tell of it. -/
theorem met_tooDeep (h : r.Enrolled nodes none p) (hn : n.isDecision)
    (hlimit : r.maxDepth ≤ nodes.length) (m : Message) : r.Met nodes n p (.decisionFailed,
      (p.update (·.onLedger (·.ensure (r.key n) n.info.name))).update
        (·.fail (r.key n) m .failed)) := by
  refine ⟨some (r.key n), (h.ensure (r.key n) n.info.name).modify rfl (fun _ => rfl) rfl, nofun, ?_⟩
  rintro k ⟨⟩
  exact ⟨rfl, hn, hlimit, rfl, rfl⟩

theorem Enrolled.mem_ids_of_blocked (h : r.Enrolled nodes none p)
    (hb : (p.ledger.status (r.key n)).blocksReentry = true) : r.key n ∈ p.ledger.ids := by
  rw [Ledger.mem_ids h.now.indexed h.now.listed]
  have hsome := Ledger.find?_isSome_of_status (l := p.ledger) (k := r.key n) fun hs => by
    rw [hs] at hb
    cases hb
  obtain ⟨o, ho⟩ := Option.isSome_iff_exists.mp hsome
  obtain ⟨i, hi, -⟩ := Option.bind_eq_some_iff.mp ho
  rw [hi]
  rfl

/-- A visit keeps the order of the outcomes if those on the next level do. The cases are those of
the code. -/
theorem met_visitNode (hk : r.host.KeepsLedger) {below : Option (Visit L (σ × List (Sighting L)))}
    (hn : n ∈ r.model.nodes) (hlast : below = none → r.maxDepth ≤ above.length)
    (hv : ∀ inner ∈ below, above.length < r.maxDepth ∧
      ∀ d ∈ r.model.nodes, ∀ p : Progress (σ × List (Sighting L)), r.Enrolled (n :: above) none p →
        r.Met (n :: above) d p (inner d p)) (h : r.Enrolled above none p) :
    r.Met above n p (r.recording.visitNode below n p) := by
  cases hr : n.role with
  | decision type logic =>
    rw [visitNode_decision hr]
    cases hu : r.recording.isDefined p.context n.info n.info with
    | true =>
      rw [visitDecision_of_defined hu]
      exact h.met fun _ _ hres => absurd rfl hres
    | false =>
      cases hb : (p.ledger.status (r.recording.key n)).blocksReentry with
      | true =>
        rw [visitDecision_of_blocked hu hb]
        exact h.met fun _ _ _ => h.mem_ids_of_blocked hb
      | false =>
        cases below with
        | none =>
          rw [visitDecision_none hu hb]
          exact met_tooDeep h (Node.isDecision_of_role hr) (hlast rfl) _
        | some inner =>
          obtain ⟨hroom, hinner⟩ := hv inner rfl
          rw [visitDecision_some hr hu hb]
          exact (enrolled_decide hk hinner hn (h.opening n)).met fun hlimit =>
            absurd hroom (Nat.not_lt.mpr hlimit)
  | knowledge logic =>
    have hmet {x : Resolution × Progress (σ × List (Sighting L))} (hx : r.Enrolled above none x.2) :
        r.Met above n p x :=
      hx.met fun _ hdec => absurd hdec (by simp [Node.isDecision, hr])
    rw [visitNode_knowledge hr]
    cases ha : p.evaluation.isActive (r.recording.key n) with
    | true =>
      rw [visitKnowledge_of_active ha]
      exact hmet h
    | false =>
      cases hu : r.recording.isDefined p.context n.info n.info with
      | true =>
        rw [visitKnowledge_of_defined ha hu]
        exact hmet h
      | false =>
        cases logic with
        | none =>
          rw [visitKnowledge_of_missing ha hu]
          exact hmet (h.of_eq rfl rfl)
        | some l =>
          cases below with
          | none =>
            rw [visitKnowledge_none ha hu]
            exact hmet (h.of_eq rfl rfl)
          | some inner =>
            rw [visitKnowledge_some ha hu]
            exact hmet (enrolled_inform hk (hv inner rfl).2 hn (Node.isKnowledge_of_role hr) h)
  | input type =>
    rw [visitNode_input hr]
    exact h.met fun _ hdec => absurd hdec (by simp [Node.isDecision, hr])

theorem met_visit (hk : r.host.KeepsLedger) (room : Nat) (hn : n ∈ r.model.nodes)
    (hroom : above.length + room = r.maxDepth) (h : r.Enrolled above none p) :
    r.Met above n p (r.recording.visit room n p) := by
  induction room generalizing n above p with
  | zero => exact met_visitNode hk hn (fun _ => Nat.le_of_eq hroom.symm) nofun h
  | succ room ih =>
    refine met_visitNode hk hn nofun ?_ h
    rintro inner ⟨⟩
    exact ⟨by omega, fun d hd q hq => ih hd (by rw [List.length_cons]; omega) hq⟩

theorem enrolled_start (r : Request L σ) (c : Context) (w : σ) :
    r.Enrolled [] none (r.recording.start c (w, [])) := by
  have hids : r.model.freshLedger.ids = (r.roll [] ++ []).eraseDups := by
    rw [r.model.ids_freshLedger, roll_nil, List.append_nil]
  exact ⟨rfl, ⟨r.model.indexed_freshLedger, r.model.listed_freshLedger, fun _ => hids,
    List.prefix_rfl, nofun⟩, .nil⟩

/-- The decisions that a request asks for are the model's own, whose outcomes are there from the
start. -/
theorem enrolled_run (hk : r.host.KeepsLedger) (s : Selection) (c : Context) (w : σ) :
    r.Enrolled [] none (r.recording.run s c (w, [])) := by
  refine run_induction (r.enrolled_start c w) (fun n p he h => ?_) fun d p h => h.of_eq rfl rfl
  have hn : n ∈ r.model.localDecisions := Model.mem_localDecisions_of_mem_errands he
  obtain ⟨late, hvisit, -, hlate⟩ := met_visit hk r.maxDepth
    (Model.mem_nodes_of_mem_localDecisions hn) (Nat.zero_add _) h
  cases late with
  | none => exact hvisit
  | some k =>
    refine hvisit.absorb ?_
    rw [← (hlate k rfl).1, key, Model.key_of_owned (Model.ns_of_mem_localDecisions hn)]
    exact List.mem_map_of_mem hn

/-- The states of a request that can be seen: at its start, at its moments and at its return. -/
def states (r : Request L σ) (s : Selection) (c : Context) (w : σ) : List Evaluation :=
  (r.start c w).evaluation ::
    ((r.record s c w).map Sighting.evaluation ++ [(r.run s c w).evaluation])

theorem enrols_return (hk : r.host.KeepsLedger) (s : Selection) (c : Context) (w : σ) :
    r.model.Enrols (r.roll (r.record s c w)) (r.record s c w) (r.run s c w).ledger := by
  rw [← r.run_recording s c w]
  exact (r.enrolled_run hk s c w).enrols

theorem enrols_states (hk : r.host.KeepsLedger) {s : Selection} {c : Context} {w : σ} {i : Nat}
    {e : Evaluation} (he : (r.states s c w)[i]? = some e) :
    ∃ before, r.model.Enrols (r.roll ((r.record s c w).take i)) before e.ledger := by
  unfold states at he
  cases i with
  | zero =>
    obtain rfl := Option.some.inj he
    exact ⟨[], (r.enrolled_start c w).enrols⟩
  | succ i =>
    rw [List.getElem?_cons_succ] at he
    by_cases hi : i < (r.record s c w).length
    · rw [List.getElem?_append_left (by simpa using hi), List.getElem?_map,
        List.getElem?_eq_getElem hi] at he
      obtain rfl := Option.some.inj he
      rw [List.take_succ_eq_append_getElem hi]
      exact ⟨_, (r.enrolled_run hk s c w).past.getElem hi⟩
    · have hlen : (r.record s c w).length ≤ i := Nat.not_lt.mp hi
      obtain rfl : e = (r.run s c w).evaluation := by
        rw [List.getElem?_append_right (by simpa using hlen)] at he
        exact (List.mem_singleton.mp (List.mem_of_getElem? he))
      rw [List.take_of_length_le (Nat.le_succ_of_le hlen)]
      exact ⟨_, r.enrols_return hk s c w⟩

theorem pairwise_states (hk : r.host.KeepsLedger) (s : Selection) (c : Context) (w : σ) :
    (r.states s c w).Pairwise fun e e' => e.ledger.tags <+: e'.ledger.tags := by
  have hrun := r.enrolled_run hk s c w
  have hreturn := r.enrols_return hk s c w
  refine List.pairwise_cons.mpr ⟨fun e he => ?_, List.pairwise_append.mpr ⟨?_, ?_, ?_⟩⟩
  · obtain ⟨i, hi⟩ := List.mem_iff_getElem?.mp he
    obtain ⟨before, h⟩ := r.enrols_states hk (i := i + 1) hi
    exact h.fresh
  · rw [List.pairwise_map]
    exact hrun.past.pairwise fun before t u ht hu => hu.since t ht
  · exact List.pairwise_singleton ..
  · intro e he e' he'
    obtain ⟨t, ht, rfl⟩ := List.mem_map.mp he
    rw [List.mem_singleton.mp he']
    exact hreturn.since t ht

end Request

namespace Model

variable {m : Model L} {l : Ledger}

theorem mem_tags_freshLedger (hids : m.localKeys.Nodup) {t : String × String} :
    t ∈ m.freshLedger.tags ↔ ∃ d ∈ m.localDecisions, t = (d.info.id, d.info.name) := by
  have hof : ∀ t ∈ m.freshLedger.tags, ∃ d ∈ m.localDecisions, t = (d.info.id, d.info.name) := by
    intro t ht
    obtain ⟨o, ho, rfl⟩ := List.mem_map.mp ht
    obtain ⟨d, hd, rfl⟩ := m.mem_outcomes_freshLedger o ho
    exact ⟨d, hd, rfl⟩
  refine ⟨hof t, ?_⟩
  rintro ⟨d, hd, rfl⟩
  have hid : d.info.id ∈ m.freshLedger.tags.map Prod.fst := by
    rw [← Ledger.ids_eq_map_tags, m.ids_freshLedger, List.mem_eraseDups]
    exact List.mem_map_of_mem hd
  obtain ⟨t, ht, hkey⟩ := List.mem_map.mp hid
  obtain ⟨d', hd', rfl⟩ := hof t ht
  obtain rfl := List.inj_on_of_nodup_map hids hd' hd hkey
  exact ht

/-- The name of one of the model's own decisions is found where its key is found, whatever the names
of the other outcomes are. -/
theorem Enrols.byName? {keys : List String} {record : List (Sighting L)}
    (h : m.Enrols keys record l) (hnames : (m.localDecisions.map fun d => d.info.name).Nodup)
    (hids : m.localKeys.Nodup) {d : Node L} (hd : d ∈ m.localDecisions) :
    ∃ o, l.byName? d.info.name = some o ∧ l.find? (m.key d.info) = some o ∧
      o.tag = (d.info.id, d.info.name) := by
  obtain ⟨rest, hrest⟩ := h.fresh
  have hmem := (mem_tags_freshLedger hids).mpr ⟨d, hd, rfl⟩
  obtain ⟨t, ht⟩ := Option.isSome_iff_exists.mp (List.find?_isSome
    (p := fun t : String × String => t.2 == d.info.name).mpr ⟨_, hmem, beq_self_eq_true _⟩)
  have hfound : (l.byName? d.info.name).map Outcome.tag = some t := by
    have hfind : l.tags.find? (fun t => t.2 == d.info.name) = some t := by
      rw [← hrest, List.find?_append, ht, Option.some_or]
    rw [← hfind, Ledger.tags, List.find?_map]
    rfl
  obtain ⟨d', hd', rfl⟩ := (mem_tags_freshLedger hids).mp (List.mem_of_find?_eq_some ht)
  obtain rfl := List.inj_on_of_nodup_map hnames hd' hd (by simpa using List.find?_some ht)
  obtain ⟨o, ho, htag⟩ := Option.map_eq_some_iff.mp hfound
  refine ⟨o, ho, ?_, htag⟩
  have hid : o.id = d'.info.id := congrArg Prod.fst htag
  rw [key_of_owned (ns_of_mem_localDecisions hd), ← hid]
  exact h.listed.find? (List.mem_of_find?_eq_some ho)

end Model

/-- In every state of a request the index of its ledger and the list of its outcomes are one: a key
stands for a position exactly if the outcome there has it as its id, so an id is found where its key
is. Outcomes are never removed, moved or renamed. First there is one for each id of the model's own
decisions, then one for each further key that the request has come to so far, in the order in which
it did, and none besides. One of the model's own decisions is found by its id and by its name, as
long as those decisions have different ids. -/
theorem Request.outcomes_indexed_in_order {r : Request L σ} (hk : r.host.KeepsLedger) (s : Selection)
    (c : Context) (w : σ) :
    (∀ e ∈ r.states s c w, ∀ k i,
      e.ledger.positions.find? k = some i ↔ ∃ o, e.ledger.outcomes[i]? = some o ∧ o.id = k) ∧
    (∀ e ∈ r.states s c w, ∀ k, e.ledger.byId? k = e.ledger.find? k) ∧
    ((r.states s c w).Pairwise fun e e' => e.ledger.tags <+: e'.ledger.tags) ∧
    (r.model.Built → ∀ i e, (r.states s c w)[i]? = some e →
      e.ledger.ids = r.enrolment ((r.record s c w).take i)) ∧
    (r.model.Built → r.model.localKeys.Nodup → ∀ e ∈ r.states s c w, ∀ d ∈ r.model.localDecisions,
      ∃ o, e.ledger.find? (r.key d) = some o ∧ e.ledger.byId? d.info.id = some o ∧
        e.ledger.byName? d.info.name = some o ∧ o.id = d.info.id ∧ o.name = d.info.name) := by
  have henrols : ∀ e ∈ r.states s c w, ∃ keys before, r.model.Enrols keys before e.ledger := by
    intro e he
    obtain ⟨i, hi⟩ := List.mem_iff_getElem?.mp he
    obtain ⟨before, h⟩ := r.enrols_states hk hi
    exact ⟨_, before, h⟩
  refine ⟨fun e he k i => ?_, fun e he k => ?_, r.pairwise_states hk s c w, fun hm i e he => ?_,
    fun hm hids e he d hd => ?_⟩
  · obtain ⟨keys, before, h⟩ := henrols e he
    refine ⟨h.indexed k i, ?_⟩
    rintro ⟨o, ho, rfl⟩
    exact h.listed i o ho
  · obtain ⟨keys, before, h⟩ := henrols e he
    exact Ledger.byId?_eq_find? h.indexed h.listed k
  · obtain ⟨before, h⟩ := r.enrols_states hk he
    exact h.ids hm.sorted
  · obtain ⟨keys, before, h⟩ := henrols e he
    obtain ⟨o, hname, hfind, htag⟩ := h.byName? hm.nodup_localDecisions hids hd
    have hkey : r.key d = d.info.id := Model.key_of_owned (Model.ns_of_mem_localDecisions hd)
    refine ⟨o, hfind, ?_, hname, congrArg Prod.fst htag, congrArg Prod.snd htag⟩
    rw [Ledger.byId?_eq_find? h.indexed h.listed, ← hkey]
    exact hfind

namespace Formula

def outletImports : ImportTable := ⟨[⟨"urn:prices", "prices", "p"⟩]⟩

def outletTotal : Node Formula :=
  ⟨⟨"1", "total", "urn:outlet", "outlet", .cons "p.total" 2 .nil, outletImports⟩,
    .decision any (some (copyBelow "p" "total"))⟩

def outlet : Model Formula where
  id := "outlet"
  ns := "urn:outlet"
  name := "outlet"
  typeCheck := false
  nodes := prices.nodes.push outletTotal
  imports := outletImports

def outletRequest : Request Formula Unit := { pricesRequest with model := outlet, maxDepth := 2 }

theorem outlet_built : outlet.Built := by
  let b (nodes : Array (Node Formula)) : Builder Formula :=
    ⟨none, "urn:outlet", "outlet", false, nodes, outletImports,
      Bindings.nil.insert "p" (Builder.ownNames 0 prices)⟩
  obtain ⟨lib, freshId, hlib, hbuild⟩ := prices_built
  have himport : (Builder.new "urn:outlet" "outlet").addImport "p" prices = .ok (b prices.nodes) :=
    Builder.addImport_eq rfl prices
  have hb : (b (prices.nodes.push (bare outletTotal))).Made :=
    .addNode "1" "total" outletTotal.role (.addImport (.new _ _) hlib hbuild himport)
  have h₁ : (b (prices.nodes.push (bare outletTotal))).dependsOn 3 2 =
    .ok (b (prices.nodes.push (unlinked outletTotal))) := rfl
  exact ⟨_, "outlet", hb.dependsOn h₁, Builder.build_eq rfl "outlet"⟩

/-- The total of the outlet is found by its name, which the imported total has as well, and the net
price has its outcome although it is rejected at the depth limit. -/
theorem outcomes_indexed_in_order_outlet :
    (outletRequest.run .all ordersInput ()).ledger.ids = ["1", "urn:prices#3", "urn:prices#2"] ∧
    ∃ o, (outletRequest.run .all ordersInput ()).ledger.byName? "total" = some o ∧ o.id = "1" := by
  obtain ⟨-, -, -, hids, hown⟩ := Request.outcomes_indexed_in_order (r := outletRequest)
    Host.functions_quiet.keepsLedger .all ordersInput ()
  have hlast : (outletRequest.states .all ordersInput ())[7]? =
      some (outletRequest.run .all ordersInput ()).evaluation := rfl
  obtain ⟨o, -, -, hname, hid, -⟩ := hown outlet_built (by decide) _ (List.mem_of_getElem? hlast)
    outletTotal (List.mem_singleton_self _)
  exact ⟨(hids outlet_built _ _ hlast).trans rfl, o, hname, hid⟩

end Formula

end DecisionGraph
