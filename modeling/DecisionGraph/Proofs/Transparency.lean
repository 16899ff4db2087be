import DecisionGraph.Proofs.Alike
import DecisionGraph.Proofs.Frozen
import DecisionGraph.Proofs.Formulas

namespace DecisionGraph

variable {L σ : Type}

theorem Model.said_freshLedger (m : Model L) (key : String) :
    m.freshLedger.said key = .new "" "" := by
  have hfold : m.freshLedger.Indexed ∧ m.freshLedger.said key = .new "" "" := by
    unfold freshLedger
    refine List.foldlRecOn (motive := fun l : Ledger => l.Indexed ∧ l.said key = .new "" "") _ _
      ⟨Ledger.indexed_empty, rfl⟩ ?_
    rintro l ⟨hl, hs⟩ d -
    exact ⟨hl.ensure _ _, (Ledger.said_ensure hl _ _ key).trans hs⟩
  exact hfold.2

theorem Model.errands_name {m : Model L} {n : Node L} (hn : n ∈ m.localDecisions)
    (honly : ∀ k ∈ m.localDecisions, k.info.name = n.info.name → k = n) :
    m.errands (.names [n.info.name]) = [.evaluate n] := by
  rw [errands, errandsFor, List.map_singleton]
  cases hf : m.localDecisions.find? fun d => d.info.name == n.info.name with
  | none => simpa using List.find?_eq_none.mp hf n hn
  | some k =>
    have hk := honly k (List.mem_of_find?_eq_some hf) (by simpa using List.find?_some hf)
    rw [hk]

/-- The input of an importer that gives it bindings below the name of its import. -/
def Importer.input (m : Importer L) (C : Bindings Value) : Context :=
  .ofEntries (.cons m.name (.context C) .nil)

namespace Request

variable {r : Request L σ} {m : Importer L} {called called' : Prop} {i : Nat} {d : Node L}
  {x q q' : Progress (σ × List (Sighting L))} {C : Bindings Value}

/-- The importer is in its own scope again, and has all that the request on its library came to.
What there is besides is about its own decision, whose logic has run or not. -/
structure Follows (r : Request L σ) (m : Importer L) (called : Prop)
    (x q : Progress (σ × List (Sighting L))) : Prop where
  frames : q.context.frames = []
  entries : q.context.entries.find? m.name = some (.context x.context.entries)
  indexed : q.ledger.Indexed
  said : ∀ n ∈ r.model.nodes, q.ledger.said (m.model.key n.info) = x.ledger.said (r.key n)
  messages : ∃ own, q.evaluation.messages = x.evaluation.messages ++ own ∧
    ∀ g ∈ own, g.source = some m.top.info.id
  record : ∃ before own, q.record = before ++ own ∧
    before.map Sighting.moment =
      .entered m.top :: x.record.map (fun t => m.shiftMoment t.moment) ∧
    (∀ t ∈ own, t.moment.node = m.top ∧
      t.evaluation.context.get? m.name = some (.context x.context.entries)) ∧
    ((∃ t ∈ own, t.moment = .calling m.top) ↔ called)

namespace Follows

theorem of_iff (h : r.Follows m called x q) (hc : called' ↔ called) : r.Follows m called' x q :=
  propext hc ▸ h

theorem of_eq (h : r.Follows m called x q) (he : q'.evaluation = q.evaluation)
    (hr : q'.record = q.record) : r.Follows m called x q' := by
  obtain ⟨hf, hen, hi, hs, hm, hrec⟩ := h
  simp only [Progress.context_eq, Progress.ledger_eq] at hf hen hi hs
  constructor <;> simp only [Progress.context_eq, Progress.ledger_eq, he, hr] <;> assumption

theorem get? (h : r.Follows m called x q) :
    q.context.get? m.name = some (.context x.context.entries) := by
  rw [Context.get?, Context.path, h.frames]
  exact h.entries

theorem sight (h : r.Follows m called x q) {t : Moment L} (ht : t.node = m.top)
    (hc : called' ↔ called ∨ t = .calling m.top) :
    r.Follows m called' x ((r.via m).recording.watch t q) :=
  { h with
    record := by
      obtain ⟨before, own, hrec, hbefore, hown, hcalled⟩ := h.record
      refine ⟨before, own ++ [⟨t, q.evaluation⟩], ?_, hbefore, fun u hu => ?_, ?_⟩
      · rw [record_watch, hrec, List.append_assoc]
      · rcases List.mem_append.mp hu with hu | hu
        · exact hown u hu
        · obtain rfl := List.mem_singleton.mp hu
          exact ⟨ht, h.get?⟩
      · rw [hc, ← hcalled]
        simp only [List.mem_append, List.mem_singleton, or_and_right, exists_or, exists_eq_left] }

theorem report (h : r.Follows m called x q) {g : Message} (hg : g.source = some m.top.info.id) :
    r.Follows m called x (q.update (·.report g)) :=
  { h with
    messages := by
      obtain ⟨own, hm, hown⟩ := h.messages
      refine ⟨own ++ [g], ?_, fun g' hg' => ?_⟩
      · rw [Progress.evaluation_update, Evaluation.messages_report, hm, List.append_assoc]
      · rcases List.mem_append.mp hg' with hg' | hg'
        · exact hown g' hg'
        · rw [List.mem_singleton.mp hg', hg] }

section top

variable (hm : m.ImportsOnly r.model i) (hkeys : m.model.KeysApart)

include hm hkeys

theorem modify (h : r.Follows m called x q) {f : Outcome → Outcome} (hf : ∀ o, (f o).id = o.id) :
    r.Follows m called x (q.update (·.onLedger (·.modify (m.model.key m.top.info) f))) :=
  { h with
    indexed := h.indexed.modify _ hf
    said := by
      intro n hn
      have hne := hm.key_top_ne hkeys hn
      have hfind : (q.ledger.modify (m.model.key m.top.info) f).find? (m.model.key n.info) =
          q.ledger.find? (m.model.key n.info) := by
        rw [Ledger.find?_modify h.indexed, if_neg hne]
      rw [← h.said n hn]
      exact congrArg (fun o => (o.map Outcome.bare).getD (.new "" "")) hfind }

theorem lose (h : r.Follows m called x q) {g : Option Message}
    (hg : ∀ g' ∈ g, g'.source = some m.top.info.id) (s : Status) :
    r.Follows m called x (q.update (·.lose (m.model.key m.top.info) g s)) := by
  cases g with
  | none => exact h.modify hm hkeys fun _ => rfl
  | some g => exact (h.report (hg g rfl)).modify hm hkeys fun _ => rfl

theorem succeed (h : r.Follows m called x q) (v : Value) :
    r.Follows m called x (q.update fun e => (e.onContext (·.set m.top.info.name v)).onLedger
      (·.modify (m.model.key m.top.info) (·.succeed v))) := by
  have hset : r.Follows m called x (q.update (·.onContext (·.set m.top.info.name v))) :=
    { h with
      entries := by
        have hp : q.context.path = [] := by rw [Context.path, h.frames, List.map_nil]
        have he : (q.context.set m.top.info.name v).entries =
            q.context.entries.insert m.top.info.name v := by
          rw [Context.entries_set, hp]
          rfl
        have hfind := Bindings.find?_insert_of_ne q.context.entries v hm.named
        rw [← he] at hfind
        exact hfind.trans h.entries }
  exact hset.modify hm hkeys fun _ => rfl

theorem reportUnresolved (h : r.Follows m called x q) (name : String) (g : Diagnostic) :
    r.Follows m called x
      ((r.via m).recording.reportUnresolved m.top name m.top.info.id g q) := by
  have hlose := h.lose hm hkeys (g := some (.of .error g (some m.top.info.id) none))
    (by simp [Message.of]) .skipped
  rw [Request.reportUnresolved, if_pos hm.isDecision]
  exact hlose.sight rfl (by simp)

end top

end Follows

theorem Mirrors.follows {S : Finset Nat} (h : r.Mirrors m S x q) (hf : q'.context.frames = [])
    (he : q'.context.entries = q.context.entries) (hl : q'.ledger = q.ledger)
    (hm : q'.evaluation.messages = q.evaluation.messages) (hr : q'.record = q.record) :
    r.Follows m False x q' where
  frames := hf
  entries := by rw [he, h.context.entries]
  indexed := by rw [hl]; exact h.indexed'
  said := by rw [hl]; exact h.said
  messages := ⟨[], by rw [hm, h.messages, List.append_nil], by simp⟩
  record := ⟨q.record, [], by rw [hr, List.append_nil], h.moments, by simp, by simp⟩

section importer

variable (hm : m.ImportsOnly r.model i) (hi : r.model.node? i = some d) (hd : d.isDecision)
  (hns : d.info.ns = r.model.ns) (hmodel : d.info.model = r.model.name)

include hm hi in
theorem foreign_of_root (hf : q.context.frames = []) :
    (m.shift d).info.ns ≠ m.model.scopeNs q.context := by
  rw [Model.scopeNs_of_root hf]
  exact hm.foreign d (Array.mem_of_getElem? hi)

include hm hns hmodel in
theorem importName_top :
    m.top.info.importName? (m.shift d).info.ns (m.shift d).info.model = some m.name := by
  have him := hm.imports
  rw [← hns, ← hmodel] at him
  exact him

variable {visit inner : Visit L (σ × List (Sighting L))} {p : Progress (σ × List (Sighting L))}
  (hf : q.context.frames = [])
  (h : r.Mirrors m ∅ p (q.update (·.onContext (·.push ⟨m.name, r.model.ns⟩))))
  (hv : r.Alike m ∅ (visit d p)
    (inner (m.shift d) (q.update (·.onContext (·.push ⟨m.name, r.model.ns⟩)))))
  (hdef : r.recording.isDefined p.context d.info d.info = true → visit d p = (.resolved, p))

include hm hi hns hmodel hf h

/-- What the importer's decision sees of the imported one is bound in the library. -/
theorem isDefined_of_top
    (hu : (r.via m).recording.isDefined q.context m.top.info (m.shift d).info = true) :
    r.recording.isDefined p.context d.info d.info = true := by
  have hpf : p.context.frames = [] := by
    have hfr : q.context.frames ++ [⟨m.name, r.model.ns⟩] =
        ⟨m.name, r.model.ns⟩ :: p.context.frames := h.context.frames
    rw [hf] at hfr
    exact (List.cons.inj hfr).2.symm
  have hent : q.context.entries.find? m.name = some (.context p.context.entries) :=
    h.context.entries
  have hs := isSome_visible?_of_defined hu
  have hvis : m.model.visible? q.context m.top.info (m.shift d).info =
      q.context.entries.lookup? (q.context.path ++ [m.name]) d.info.name :=
    Model.visible?_of_import (foreign_of_root hm hi hf) (importName_top hm hns hmodel)
  have hq : q.context.path = [] := by rw [Context.path, hf, List.map_nil]
  have hp : p.context.path = [] := by rw [Context.path, hpf, List.map_nil]
  have hhere : d.info.ns = r.model.scopeNs p.context := hns.trans (Model.scopeNs_of_root hpf).symm
  have hget : (p.context.get? d.info.name).isSome := by
    have hs' : (m.model.visible? q.context m.top.info (m.shift d).info).isSome := hs
    rw [hvis, hq, List.nil_append, Bindings.lookup?_cons, hent] at hs'
    rw [Context.get?, hp]
    exact hs'
  exact (isDefined_of_here (r := r.recording) hhere).trans hget

include hv hdef

theorem provide_top (name : String) : ∃ q₂,
    (r.via m).recording.provide inner m.top (m.shift d) name q =
      (r.via m).recording.settle m.top (m.shift d) name ((visit d p).1, q₂) ∧
    r.Follows m False (visit d p).2 q₂ := by
  -- If the importer sees a value it makes no visit; the visit of the library then does nothing.
  cases hu : (r.via m).recording.isDefined q.context m.top.info (m.shift d).info with
  | true =>
    have hvisit := hdef (isDefined_of_top hm hi hns hmodel hf h hu)
    refine ⟨q, ?_, ?_⟩
    · rw [provide_of_defined hu, hvisit]
      rfl
    · rw [hvisit]
      exact h.follows hf rfl rfl rfl rfl
  | false =>
    obtain ⟨hres, hin⟩ := hv
    have hway : (r.via m).recording.model.passage q.context m.top.info (m.shift d).info =
        .through m.name :=
      Model.passage_eq_through.mpr ⟨foreign_of_root hm hi hf, importName_top hm hns hmodel⟩
    have hsns : (m.shift d).info.ns = r.model.ns := hns
    rw [provide_of_open hu (by rw [hway]; simp), hway, descend_through, hsns, hres]
    refine ⟨_, rfl, hin.follows ?_ rfl rfl rfl rfl⟩
    simp [Context.closeTo, Context.depth, show q.evaluation.context.frames = [] from hf]

include hd

/-- The importer's decision resolves its dependency exactly if the library does, and has only its
own complaint to add. -/
theorem resolve_top (hkeys : m.model.KeysApart) :
    (((r.via m).recording.resolve inner m.top q).1 = true ↔ (visit d p).1 = .resolved) ∧
    r.Follows m False (visit d p).2 ((r.via m).recording.resolve inner m.top q).2 := by
  obtain ⟨name, hdeps⟩ := hm.requires
  obtain ⟨q₂, hprov, hq₂⟩ := provide_top hm hi hns hmodel hf h hv hdef name
  have hinput :
      ¬((r.via m).recording.typeCheck = true ∧ ∃ type, (m.shift d).role = .input type) := by
    rintro ⟨-, type, hr⟩
    obtain ⟨type', logic, hr'⟩ := Node.role_of_isDecision (n := m.shift d) hd
    rw [hr] at hr'
    cases hr'
  have hres : (r.via m).recording.resolve inner m.top q =
      (r.via m).recording.settle m.top (m.shift d) name ((visit d p).1, q₂) := by
    have hnode : (r.via m).recording.model.node? (i + m.offset) = some (m.shift d) :=
      hm.copied i d hi
    have hkn : m.top.isKnowledge = false :=
      Bool.eq_false_iff.mpr fun hk => Node.not_isDecision hk hm.isDecision
    unfold resolve
    rw [hdeps, ← hprov]
    show (r.via m).recording.resolveList inner m.top [(name, i + m.offset)] q = _
    rw [resolveList_cons, resolveOne_of_some hnode, checkInput_of_not hinput, hkn]
    simp [resolveList]
  rw [hres]
  unfold settle
  cases hx : (visit d p).1 with
  | resolved => exact ⟨iff_of_true rfl rfl, hq₂⟩
  | _ => exact ⟨iff_of_false (by simp [complaint]) (by simp), hq₂.reportUnresolved hm hkeys _ _⟩

end importer

section top

variable (hm : m.ImportsOnly r.model i) (hkeys : m.model.KeysApart) (type : DeclaredType)
  {inner : Visit L (σ × List (Sighting L))}

include hm hkeys

theorem bindResult_follows (h : r.Follows m called x q) (v : Value) :
    r.Follows m called x ((r.via m).recording.bindResult m.top type v q).2 := by
  rw [bindResult_eq]
  cases hg : (r.via m).recording.objection? m.top type v with
  | none => exact (h.succeed hm hkeys _).sight rfl (by simp)
  | some g => exact h.lose hm hkeys (g := some g) (by simp [source_of_objection? hg]) .failed

/-- The logic of the importer's decision runs if the dependency was resolved; else the decision is
skipped. -/
theorem runDecision_follows (hl : r.host.Local) (logic : Option L)
    (hk : (((r.via m).recording.resolve inner m.top q).2.ledger.find?
      (m.model.key m.top.info)).isSome)
    (h : r.Follows m False x ((r.via m).recording.resolve inner m.top q).2) :
    r.Follows m (((r.via m).recording.resolve inner m.top q).1 = true ∧ logic.isSome) x
      ((r.via m).recording.runDecision inner m.top type logic q).2 ∧
    (((r.via m).recording.resolve inner m.top q).1 = false →
      ((r.via m).recording.runDecision inner m.top type logic q).2.ledger.status
        (m.model.key m.top.info) = .skipped) := by
  unfold runDecision
  dsimp only
  cases hready : ((r.via m).recording.resolve inner m.top q).1 with
  | false =>
    have hlose := h.lose hm hkeys (g := none) (by simp) .skipped
    refine ⟨?_, fun _ => ?_⟩
    · exact hlose.of_iff (by simp)
    · exact Ledger.status_modify_self h.indexed hk fun _ => rfl
  | true =>
    refine ⟨?_, fun hf => Bool.noConfusion hf⟩
    cases logic with
    | none =>
      have hlose := h.lose hm hkeys (g := some (.of .warn
        (.missingExpressionForDecision m.top.info.identifier) (some m.top.info.id) none))
        (by simp [Message.of]) .skipped
      exact hlose.of_iff (by simp)
    | some logic =>
      have hsight : r.Follows m True x ((r.via m).recording.watch (.calling m.top)
          ((r.via m).recording.resolve inner m.top q).2) := h.sight rfl (by simp)
      have hcall : r.Follows m True x ((r.via m).recording.callLogic m.top logic
          ((r.via m).recording.resolve inner m.top q).2).2 :=
        hsight.of_eq (hl.quiet _ _ _ _) rfl
      refine (?_ : r.Follows m True x _).of_iff (by simp)
      rw [if_neg (by simp)]
      dsimp only
      split
      · exact bindResult_follows hm hkeys type hcall _
      · exact hcall.lose hm hkeys (g := none) (by simp) .failed
      · exact hcall.lose hm hkeys (g := some _) (by simp [Message.of]) .failed

end top

theorem start_mirrors (hm : m.ImportsOnly r.model i) (hkeys : m.model.KeysApart)
    (w w' : σ) :
    r.Mirrors m ∅ (r.recording.start (.ofEntries C) (w, []))
      (((r.via m).recording.opening m.top ((r.via m).recording.start
        (m.input C) (w', []))).update
          (·.onContext (·.push ⟨m.name, r.model.ns⟩))) := by
  have hi := m.model.indexed_freshLedger
  have he := hi.ensure (m.model.key m.top.info) m.top.info.name
  rw [opening_of_decision hm.isDecision (r.via m).recording]
  refine ⟨⟨rfl, ?_⟩, r.model.indexed_freshLedger, he.setStatus _ _, fun n hn => ?_, rfl,
    fun n hn => rfl, rfl, fun j hj => absurd hj (Finset.notMem_empty j)⟩
  · exact if_pos rfl
  · have hne := hm.key_top_ne hkeys hn
    have hfind : ((m.model.freshLedger.ensure (m.model.key m.top.info) m.top.info.name).setStatus
        (m.model.key m.top.info) .evaluating).find? (m.model.key n.info) =
        m.model.freshLedger.find? (m.model.key n.info) :=
      Ledger.find?_modify_ensure_of_ne hi hne ..
    have hsaid := congrArg (fun o => (o.map Outcome.bare).getD (.new "" "")) hfind
    exact hsaid.trans ((m.model.said_freshLedger _).trans (r.model.said_freshLedger _).symm)

theorem evaluate_top (hm : m.ImportsOnly r.model i) {room : Nat} (hroom : r.maxDepth = room + 1)
    {type : DeclaredType} {logic : Option L} (hr : m.top.role = .decision type logic)
    {p : Progress (σ × List (Sighting L))} (hp : p.evaluation.context = m.input C)
    (hl : p.ledger = m.model.freshLedger) :
    (r.via m).recording.evaluate m.top p =
      ((r.via m).recording.decide ((r.via m).recording.visit room) m.top type logic
        ((r.via m).recording.opening m.top p)).2 := by
  have hu : (r.via m).recording.isDefined p.context m.top.info m.top.info = false := by
    have hs : m.top.info.ns = m.model.scopeNs (m.input C) :=
      hm.owned.trans (Model.scopeNs_of_root rfl).symm
    have hget : (m.input C).get? m.top.info.name = none := if_neg hm.named.symm
    rw [Progress.context_eq, hp, isDefined_of_here (r := (r.via m).recording) hs, hget]
    rfl
  have hb : (p.ledger.status (m.model.key m.top.info)).blocksReentry = false := by
    rw [hl, ← Ledger.status_said, Model.said_freshLedger]
    rfl
  have hdepth : (r.via m).recording.maxDepth = room + 1 := hroom
  rw [evaluate, hdepth, visit_succ, visitNode_decision hr, visitDecision_some hr hu hb]

theorem run_one {n : Node L} {s : Selection} (hs : r.model.errands s = [.evaluate n])
    (c : Context) (w : σ) : r.run s c w = r.evaluate n (r.start c w) := by
  rw [run_eq, hs]
  rfl

theorem errands_of_library (hlib : r.model.Built) (hi : r.model.node? i = some d)
    (hd : d.isDecision) (hns : d.info.ns = r.model.ns) :
    r.model.errands (.names [d.info.name]) = [.evaluate d] := by
  have hown : r.model.owns d = true := by simpa [Model.owns] using hns
  have hmem : d ∈ r.model.nodes := Array.mem_of_getElem? hi
  refine Model.errands_name (Model.mem_localDecisions hmem hd hns) fun k hk hname => ?_
  obtain ⟨hk, hkown⟩ := List.mem_filter.mp hk
  obtain ⟨hkmem, -⟩ := List.mem_filter.mp hk
  exact hlib.eq_of_name (Array.mem_toList_iff.mp hkmem) hmem hkown hown hname

theorem errands_of_importer (hm : m.ImportsOnly r.model i) :
    m.model.errands (.names [m.top.info.name]) = [.evaluate m.top] := by
  refine Model.errands_name (Model.mem_localDecisions hm.mem_top hm.isDecision hm.owned)
    fun k hk _ => ?_
  have hkns := Model.ns_of_mem_localDecisions hk
  obtain ⟨hk, -⟩ := List.mem_filter.mp hk
  obtain ⟨hkmem, -⟩ := List.mem_filter.mp hk
  rcases hm.only k (Array.mem_toList_iff.mp hkmem) with rfl | ⟨n, hn, rfl⟩
  · rfl
  · exact absurd hkns (hm.foreign n hn)

/-- The importer's decision keeps its place in the ledger while its dependency is resolved. -/
theorem isSome_top (hm : m.ImportsOnly r.model i) (hl : r.host.Local) (room : Nat)
    {p : Progress (σ × List (Sighting L))} (hp : p.ledger.Indexed)
    (hq : q.evaluation = ((r.via m).recording.opening m.top p).evaluation) :
    (((r.via m).recording.resolve ((r.via m).recording.visit room) m.top q).2.ledger.find?
      (m.model.key m.top.info)).isSome := by
  have hlaw := lawful_ledger (r := (r.via m).recording) hl.quiet.keepsLedger.recording
  obtain ⟨hidx, -, hstatus⟩ := advances_opening (r := (r.via m).recording) (n := m.top) hp
  have hidx' : q.ledger.Indexed := by rwa [Progress.ledger_eq, hq]
  have hstatus' : q.ledger.status (m.model.key m.top.info) = .evaluating := by
    rw [Progress.ledger_eq, hq]
    exact hstatus hm.isDecision
  have hadv := hlaw.resolve (fun d p => hlaw.visit room d p) m.top q hidx'
  exact hadv.isSome hm.isDecision hstatus'

section whole

variable (hlib : r.model.Built) (hm : m.ImportsOnly r.model i) (hi : r.model.node? i = some d)
  (hd : d.isDecision) (hns : d.info.ns = r.model.ns) (hmodel : d.info.model = r.model.name)
  (hkeys : r.model.KeysApart) (hkeys' : m.model.KeysApart) (hl : r.host.Local)
  (hdepth : r.model.nodes.size < r.maxDepth)

include hns hd hl in
theorem library_resolved_iff (C : Bindings Value) (w : σ) :
    (r.recording.visit r.maxDepth d (r.recording.start (.ofEntries C) (w, []))).1 = .resolved ↔
      (C.find? d.info.name).isSome ∨
        (r.recording.visit r.maxDepth d (r.recording.start (.ofEntries C) (w, []))).2.ledger.status
          (r.key d) = .succeeded := by
  obtain ⟨type, logic, hr⟩ := Node.role_of_isDecision hd
  have hhere : d.info.ns = r.model.scopeNs (.ofEntries C) :=
    hns.trans (Model.scopeNs_of_root rfl).symm
  have hbound : r.recording.isDefined (.ofEntries C) d.info d.info =
      (C.find? d.info.name).isSome := isDefined_of_here (r := r.recording) hhere
  rw [← hbound]
  exact resolved_iff (r := r.recording) hl.quiet.keepsLedger.recording hr r.model.indexed_freshLedger

include hlib hm hi hd hns hmodel hkeys hkeys' hl hdepth

/-- The importer resolves its dependency by the visit that the library itself makes. -/
theorem resolve_top_mirrors {room : Nat} (hroom : r.maxDepth = room + 1) (C : Bindings Value)
    (w w' : σ)
    (hqe : q.evaluation =
      ((r.via m).recording.opening m.top ((r.via m).recording.start (m.input C) (w', []))).evaluation)
    (hqr : q.record =
      ((r.via m).recording.opening m.top ((r.via m).recording.start (m.input C) (w', []))).record) :
    (((r.via m).recording.resolve ((r.via m).recording.visit room) m.top q).1 = true ↔
      (r.recording.visit r.maxDepth d (r.recording.start (.ofEntries C) (w, []))).1 = .resolved) ∧
    r.Follows m False
      (r.recording.visit r.maxDepth d (r.recording.start (.ofEntries C) (w, []))).2
      ((r.via m).recording.resolve ((r.via m).recording.visit room) m.top q).2 := by
  obtain ⟨type, logic, hr⟩ := Node.role_of_isDecision hd
  have hframes : q.context.frames = [] := by
    rw [Progress.context_eq, hqe, context_opening]
    rfl
  have hmir : r.Mirrors m ∅ (r.recording.start (.ofEntries C) (w, []))
      (q.update (·.onContext (·.push ⟨m.name, r.model.ns⟩))) := by
    refine (start_mirrors (C := C) hm hkeys' w w').of_eq rfl rfl ?_ hqr
    rw [Progress.evaluation_update, hqe, Progress.evaluation_update]
  -- The importer has opened one level for its own decision, so it has one less for the library's.
  have hvisit := visit_alike (hm.copies hlib hkeys hkeys') hl (S := ∅) r.maxDepth room
    (by simp) (by simpa using hdepth.le) (by rw [Finset.card_empty]; omega) hi hmir
  exact resolve_top hm hi hd hns hmodel hframes hmir hvisit
    (fun h => visit_of_defined hr h r.maxDepth) hkeys'

/-- The whole request for the importer's decision follows that for the imported one. -/
theorem run_follows {s s' : Selection} (hs : r.model.errands s = [.evaluate d])
    (hs' : m.model.errands s' = [.evaluate m.top]) (C : Bindings Value) (w w' : σ) :
    let x := r.recording.run s (.ofEntries C) (w, [])
    let y := (r.via m).recording.run s' (m.input C) (w', [])
    let resolved := (C.find? d.info.name).isSome ∨ x.ledger.status (r.key d) = .succeeded
    r.Follows m (resolved ∧ m.top.role.logic?.isSome) x y ∧
      (¬resolved → y.ledger.status (m.model.key m.top.info) = .skipped) := by
  intro x y resolved
  obtain ⟨room, hroom⟩ := Nat.exists_eq_succ_of_ne_zero (n := r.maxDepth) (by omega)
  obtain ⟨type, logic, hr⟩ := Node.role_of_isDecision hm.isDecision
  have hx : x = (r.recording.visit r.maxDepth d (r.recording.start (.ofEntries C) (w, []))).2 :=
    run_one (r := r.recording) hs ..
  have hy : y = ((r.via m).recording.decide ((r.via m).recording.visit room) m.top type logic
      ((r.via m).recording.opening m.top ((r.via m).recording.start (m.input C) (w', [])))).2 :=
    (run_one (r := (r.via m).recording) hs' ..).trans (evaluate_top hm hroom hr rfl rfl)
  -- `q` is where the evaluation of the importer's decision begins, after its listeners were told.
  obtain ⟨q, hqe, hqr, -, he, hrec⟩ := announced_record (r.via m)
    ((r.via m).recording.opening m.top ((r.via m).recording.start (m.input C) (w', [])))
    (.decision .before m.top.info.subject none)
    (fun l => .decision .after m.top.info.subject (l.find? ((r.via m).recording.key m.top)))
    (fun q => (((r.via m).recording.runDecision ((r.via m).recording.visit room) m.top type logic
        q).1, (r.via m).recording.watch (.left m.top)
      ((r.via m).recording.runDecision ((r.via m).recording.visit room) m.top type logic q).2))
  obtain ⟨hiff, hfol⟩ :=
    resolve_top_mirrors hlib hm hi hd hns hmodel hkeys hkeys' hl hdepth hroom C w w' hqe hqr
  have hk := isSome_top hm hl room
    (p := (r.via m).recording.start (m.input C) (w', [])) m.model.indexed_freshLedger hqe
  obtain ⟨hrun, hskip⟩ := runDecision_follows hm hkeys' type hl logic hk hfol
  have hresolved : ((r.via m).recording.resolve ((r.via m).recording.visit room) m.top q).1 = true ↔
      resolved := by
    rw [hiff, library_resolved_iff hd hns hl C w, ← hx]
  have hcalled : (resolved ∧ m.top.role.logic?.isSome) ↔
      (((r.via m).recording.resolve ((r.via m).recording.visit room) m.top q).1 = true ∧
        logic.isSome) ∨ Moment.left m.top = .calling m.top := by
    rw [hresolved, hr]
    simp [Role.logic?]
  have hend := hrun.sight (t := .left m.top) rfl hcalled
  constructor
  · rw [hx, hy]
    exact hend.of_eq he hrec
  · intro hn
    have hfalse := Bool.eq_false_iff.mpr fun h => hn (hresolved.mp h)
    have hledger := congrArg (fun e => e.ledger.status (m.model.key m.top.info)) he
    rw [hy]
    exact hledger.trans (hskip hfalse)

end whole

/-- An import is transparent. When the importer is asked for its decision, and the library for the
imported one, then below the name of the import the importer ends up with the bindings of the
library, and has the same to say of each of the library's nodes. The two records are the same but
for what is about the importer's own decision. The logic of that one runs if the imported decision
has a value, with all the bindings in place; else the decision is skipped. -/
theorem import_transparency (hlib : r.model.Built) (hm : m.ImportsOnly r.model i)
    (hi : r.model.node? i = some d) (hd : d.isDecision) (hns : d.info.ns = r.model.ns)
    (hmodel : d.info.model = r.model.name) (hkeys : r.model.KeysApart)
    (hkeys' : m.model.KeysApart) (hl : r.host.Local)
    (hdepth : r.model.nodes.size < r.maxDepth) {s s' : Selection}
    (hs : r.model.errands s = [.evaluate d]) (hs' : m.model.errands s' = [.evaluate m.top])
    (C : Bindings Value) (w w' : σ) :
    let x := r.run s (.ofEntries C) w
    let y := (r.via m).run s' (m.input C) w'
    let resolved := (C.find? d.info.name).isSome ∨ x.ledger.status (r.key d) = .succeeded
    y.context.get? m.name = some (.context x.context.entries) ∧
    (∀ n ∈ r.model.nodes, y.ledger.said (m.model.key n.info) = x.ledger.said (r.key n)) ∧
    (∃ own, y.evaluation.messages = x.evaluation.messages ++ own ∧
      ∀ g ∈ own, g.source = some m.top.info.id) ∧
    (∃ before own, (r.via m).record s' (m.input C) w' = before ++ own ∧
      before.map Sighting.moment = .entered m.top ::
        (r.record s (.ofEntries C) w).map (fun t => m.shiftMoment t.moment) ∧
      (∀ t ∈ own, t.moment.node = m.top ∧
        t.evaluation.context.get? m.name = some (.context x.context.entries)) ∧
      ((∃ t ∈ own, t.moment = .calling m.top) ↔ resolved ∧ m.top.role.logic?.isSome)) ∧
    (¬resolved → y.ledger.status (m.model.key m.top.info) = .skipped) := by
  intro x y resolved
  have hx : (r.recording.run s (.ofEntries C) (w, [])).evaluation = x.evaluation :=
    congrArg Progress.evaluation (r.run_recording _ _ w)
  have hy : ((r.via m).recording.run s' (m.input C) (w', [])).evaluation = y.evaluation :=
    congrArg Progress.evaluation ((r.via m).run_recording _ _ w')
  obtain ⟨h, hskip⟩ := run_follows hlib hm hi hd hns hmodel hkeys hkeys' hl hdepth hs hs' C w w'
  have hget := h.get?
  have hsaid := h.said
  have hmessages := h.messages
  have hrecord := h.record
  simp only [Progress.context_eq, Progress.ledger_eq, hx, hy] at hget hsaid hmessages hrecord hskip
  exact ⟨hget, hsaid, hmessages, hrecord, hskip⟩

end Request

namespace Formula

def owed : Node Formula :=
  ⟨⟨"1", "owed", "urn:stores", "stores", .cons "q.total" 3 .nil,
    ⟨[⟨"urn:prices", "prices", "q"⟩]⟩⟩, .decision any (some (copyBelow "q" "total"))⟩

def stores : Model Formula where
  id := "stores"
  ns := "urn:stores"
  name := "stores"
  typeCheck := false
  nodes := (owed :: prices.nodes.toList.map (Builder.shifted 1)).toArray
  imports := ⟨[⟨"urn:prices", "prices", "q"⟩]⟩

def storesRequest : Request Formula Unit := { pricesRequest with model := stores }

def storesInput : Context := .ofEntries (.cons "q" (.context pricesInput.entries) .nil)

def storing (own : Node Formula) : Builder Formula :=
  ⟨none, "urn:stores", "stores", false,
    (own :: prices.nodes.toList.map (Builder.shifted 1)).toArray, stores.imports,
    Bindings.nil.insert "q" (Builder.ownNames 1 prices)⟩

theorem addImport_storing : ((Builder.new "urn:stores" "stores").addNode "1" "owed"
    owed.role).2.addImport "q" prices = .ok (storing (bare owed)) :=
  Builder.addImport_eq rfl prices

theorem dependsOn_storing : (storing (bare owed)).dependsOn 0 3 = .ok (storing (unlinked owed)) :=
  rfl

theorem build_storing : (storing (unlinked owed)).build "stores" = .ok stores :=
  Builder.build_eq rfl "stores"

end Formula

namespace Request

/-- What the orders find below their import is what the prices come to by themselves, and so it is
with the stores, which import the prices after they have a node of their own. -/
theorem import_transparency_orders :
    ((Formula.ordersRequest.run (.names ["due"]) Formula.ordersInput ()).context.get? "p" =
      some (.context
        (Formula.pricesRequest.run (.names ["total"]) Formula.pricesInput ()).context.entries)) ∧
    ((Formula.storesRequest.run (.names ["owed"]) Formula.storesInput ()).context.get? "q" =
      some (.context
        (Formula.pricesRequest.run (.names ["total"]) Formula.pricesInput ()).context.entries)) ∧
    (Formula.pricesRequest.run (.names ["total"]) Formula.pricesInput ()).context.get? "total" =
      some (.boolean true) := by
  have hprices : Formula.prices.KeysApart := by decide
  have horders : Formula.orders.KeysApart := by decide
  have hstores : Formula.stores.KeysApart := by decide
  have htotal : Formula.prices.errands (.names ["total"]) = [.evaluate Formula.total] :=
    errands_of_library (r := Formula.pricesRequest) Formula.prices_built
      (show Formula.prices.node? 2 = some Formula.total from rfl) rfl rfl
  refine ⟨?_, ?_, rfl⟩
  · obtain ⟨dependency, himporting⟩ := Builder.importing_of_import_first
      Formula.addImport_ordering Formula.dependsOn_ordering (by decide) (by decide)
    have hm := himporting.importsOnly Formula.build_ordering
    obtain ⟨hget, -⟩ := import_transparency (r := Formula.pricesRequest) (d := Formula.total)
      Formula.prices_built hm rfl rfl rfl rfl hprices horders Host.functions_local (by decide)
      htotal (errands_of_importer (r := Formula.pricesRequest) hm) Formula.pricesInput.entries () ()
    exact hget
  · obtain ⟨dependency, himporting⟩ := Builder.importing_of_node_first
      Formula.addImport_storing Formula.dependsOn_storing (by decide) (by decide)
    have hm := himporting.importsOnly Formula.build_storing
    obtain ⟨hget, -⟩ := import_transparency (r := Formula.pricesRequest) (d := Formula.total)
      Formula.prices_built hm rfl rfl rfl rfl hprices hstores Host.functions_local (by decide)
      htotal (errands_of_importer (r := Formula.pricesRequest) hm) Formula.pricesInput.entries () ()
    exact hget

end Request

end DecisionGraph
