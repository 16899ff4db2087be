import DecisionGraph.Proofs.Formulas
import DecisionGraph.Proofs.Nesting

namespace DecisionGraph

variable {L σ : Type}

namespace Request

def withLimit (r : Request L σ) (limit : Nat) : Request L σ := { r with maxDepth := limit }

variable {r : Request L σ}

theorem recording_withLimit (r : Request L σ) (limit : Nat) :
    (r.withLimit limit).recording = r.recording.withLimit limit := rfl

theorem resolveList_withLimit (r : Request L σ) (limit : Nat) (inner : Visit L σ) (n : Node L)
    (deps : List (String × Nat)) (p : Progress σ) :
    (r.withLimit limit).resolveList inner n deps p = r.resolveList inner n deps p := by
  induction deps generalizing p with
  | nil => rfl
  | cons e deps ih =>
    have hone : (r.withLimit limit).resolveOne inner n e.1 e.2 p =
      r.resolveOne inner n e.1 e.2 p := rfl
    rw [resolveList_cons, resolveList_cons, hone, ih]

theorem visitNode_withLimit (r : Request L σ) (limit : Nat) (inner : Visit L σ) (n : Node L)
    (p : Progress σ) :
    (r.withLimit limit).visitNode (some inner) n p = r.visitNode (some inner) n p := by
  have hres (q : Progress σ) : (r.withLimit limit).resolve inner n q = r.resolve inner n q :=
    resolveList_withLimit r limit inner n _ q
  unfold visitNode
  cases n.role with
  | decision type logic =>
    simp only [visitDecision, runDecision, hres]
    rfl
  | knowledge logic =>
    cases logic with
    | none => rfl
    | some logic =>
      simp only [visitKnowledge, runKnowledge, hres]
      rfl
  | input type => rfl

/-- A visit without room goes as it does with room, unless it is about to open its node. Then it
says that the limit was exceeded. -/
theorem visit_zero_withLimit (r : Request L σ) (limit room : Nat) (n : Node L) (p : Progress σ) :
    r.visit 0 n p = (r.withLimit limit).visit room n p ∨
      r.Idle n p.evaluation ∧ ∃ x ∈ (r.visit 0 n p).2.evaluation.messages, x.isDepth = true := by
  rw [visit_eq, visit_eq]
  cases hr : n.role with
  | decision type logic =>
    rw [visitNode_decision hr, visitNode_decision hr]
    cases hu : r.isDefined p.context n.info n.info with
    | true =>
      have hu' : (r.withLimit limit).isDefined p.context n.info n.info = true := hu
      left
      rw [visitDecision_of_defined hu, visitDecision_of_defined hu']
    | false =>
      cases hb : (p.ledger.status (r.key n)).blocksReentry with
      | true =>
        have hu' : (r.withLimit limit).isDefined p.context n.info n.info = false := hu
        have hb' : (p.ledger.status ((r.withLimit limit).key n)).blocksReentry = true := hb
        left
        rw [visitDecision_of_blocked hu hb, visitDecision_of_blocked hu' hb']
      | false =>
        right
        rw [below, visitDecision_none hu hb]
        exact ⟨.inl ⟨Node.isDecision_of_role hr, hb⟩, _,
          List.mem_append_right _ List.mem_cons_self, by simp [Diagnostic.isDepth]⟩
  | knowledge logic =>
    rw [visitNode_knowledge hr, visitNode_knowledge hr]
    cases hact : p.evaluation.isActive (r.key n) with
    | true =>
      have hact' : p.evaluation.isActive ((r.withLimit limit).key n) = true := hact
      left
      rw [visitKnowledge_of_active hact, visitKnowledge_of_active hact']
    | false =>
      have hact' : p.evaluation.isActive ((r.withLimit limit).key n) = false := hact
      cases hu : r.isDefined p.context n.info n.info with
      | true =>
        have hu' : (r.withLimit limit).isDefined p.context n.info n.info = true := hu
        left
        rw [visitKnowledge_of_defined hact hu, visitKnowledge_of_defined hact' hu']
      | false =>
        have hu' : (r.withLimit limit).isDefined p.context n.info n.info = false := hu
        cases logic with
        | none =>
          left
          rw [visitKnowledge_of_missing hact hu, visitKnowledge_of_missing hact' hu']
        | some l =>
          right
          rw [below, visitKnowledge_none hact hu]
          exact ⟨.inr ⟨Node.isKnowledge_of_role hr, hact⟩, _,
            List.mem_append_right _ List.mem_cons_self, by simp [Diagnostic.isDepth]⟩
  | input type =>
    left
    rw [visitNode_input hr, visitNode_input hr]

section congruence

variable {inner inner' : Visit L σ} {n d : Node L} {name : String} {p : Progress σ}

theorem resolveOne_congr {id : Nat}
    (h : ∀ d, r.model.node? id = some d →
      r.provide inner n d name (r.checkInput n d name p).2 =
        r.provide inner' n d name (r.checkInput n d name p).2) :
    r.resolveOne inner n name id p = r.resolveOne inner' n name id p := by
  cases hd : r.model.node? id with
  | none => simp only [resolveOne, hd]
  | some d => rw [resolveOne_of_some hd, resolveOne_of_some hd, h d hd]

theorem runDecision_congr {type : DeclaredType} {logic : Option L}
    (h : r.resolve inner n p = r.resolve inner' n p) :
    r.runDecision inner n type logic p = r.runDecision inner' n type logic p := by
  simp only [runDecision, h]

theorem runKnowledge_congr {logic : L} (hn : n.isKnowledge)
    (h : r.resolve inner n (r.opening n p) = r.resolve inner' n (r.opening n p)) :
    r.runKnowledge inner n logic p = r.runKnowledge inner' n logic p := by
  rw [opening_of_knowledge hn] at h
  simp only [runKnowledge, h]

end congruence

section levels

variable (hl : r.host.KeepsLedger) (ha : r.host.KeepsActive) {k : Nat}
  {inner : Visit L (σ × List (Sighting L))} {n : Node L} {above : List (Node L)}
  {p : Progress (σ × List (Sighting L))}

/-- The visits of level `k` are these, as far as they are made in order. -/
def VisitsAs (r : Request L σ) (k : Nat) (inner : Visit L (σ × List (Sighting L))) : Prop :=
  ∀ d p above, d ∈ r.model.nodes → above.length + k = r.maxDepth → r.Nested above p →
    r.recording.visit k d p = inner d p

theorem provide_eq {d : Node L} {name : String} (hi : r.VisitsAs k inner) (hd : d ∈ r.model.nodes)
    (hk : above.length + (k + 1) = r.maxDepth) (hp : r.Nested (n :: above) p) :
    r.recording.provide (r.recording.visit k) n d name p =
      r.recording.provide inner n d name p := by
  have hk' : (n :: above).length + k = r.maxDepth := by
    rw [List.length_cons]
    omega
  refine provide_congr (fun _ => hi d p _ hd hk' hp) fun a => hi d _ _ hd hk' ?_
  exact hp.still rfl rfl rfl fun hc => hc.still rfl rfl

include hl ha

theorem resolveList_eq (hi : r.VisitsAs k inner) {deps : List (String × Nat)}
    (hdeps : ∀ e ∈ deps, e ∈ n.info.dependencies.toList)
    (hk : above.length + (k + 1) = r.maxDepth) (hp : r.Nested (n :: above) p) :
    r.recording.resolveList (r.recording.visit k) n deps p =
      r.recording.resolveList inner n deps p := by
  -- The induction follows the list; what is in order stays so over each dependency.
  have hlaw := lifts_nested hl ha k
  have hv := visit_of_levels (floor_nested hl) (lifts_nested hl ha) k
  induction deps generalizing p with
  | nil => rfl
  | cons e deps ih =>
    obtain ⟨name, id⟩ := e
    have he : (name, id) ∈ n.info.dependencies.toList := hdeps _ List.mem_cons_self
    have hone : r.recording.resolveOne (r.recording.visit k) n name id p =
        r.recording.resolveOne inner n name id p := by
      apply resolveOne_congr
      intro d hd
      have hc := hlaw.checkInput p he hd above hk hp
      exact provide_eq hi (Array.mem_of_getElem? hd) hk hc
    have hnext := hlaw.resolveOne hv p he above hk hp
    have hrest := ih (fun e he => hdeps e (List.mem_cons_of_mem _ he)) hnext
    rw [resolveList_cons, resolveList_cons, hrest, hone]

theorem resolve_eq (hi : r.VisitsAs k inner) (hk : above.length + (k + 1) = r.maxDepth)
    (hp : r.Nested (n :: above) p) :
    r.recording.resolve (r.recording.visit k) n p = r.recording.resolve inner n p :=
  resolveList_eq hl ha hi (fun _ he => he) hk hp

theorem visit_succ_eq (hi : r.VisitsAs k inner) (hn : n ∈ r.model.nodes)
    (hk : above.length + (k + 1) = r.maxDepth) (hp : r.Nested above p) :
    r.recording.visit (k + 1) n p = r.recording.visitNode (some inner) n p := by
  have hd : above.length < r.maxDepth := by omega
  rw [visit_succ]
  refine visitNode_congr rfl rfl (fun type logic hr _ hb => ?_) fun l hr hact _ => ?_
  · have hdn := Node.isDecision_of_role hr
    have hopen := hp.opening hn (.inl ⟨hdn, hb⟩) hd
    refine decide_congr rfl rfl fun q hq => ?_
    have hnq : r.Nested (n :: above) q := by
      rcases hq with rfl | rfl
      · exact hopen
      · exact hopen.still rfl rfl rfl id
    exact runDecision_congr (resolve_eq hl ha hi hk hnq)
  · have hkn := Node.isKnowledge_of_role hr
    refine inform_congr rfl fun q hq => ?_
    have hnq : r.Nested above q := by
      rcases hq with rfl | rfl
      · exact hp
      · exact hp.still rfl rfl rfl id
    have hactq : q.evaluation.isActive (r.key n) = false := by
      rcases hq with rfl | rfl <;> exact hact
    have hopen := hnq.opening hn (.inr ⟨hkn, hactq⟩) hd
    exact runKnowledge_congr hkn (resolve_eq hl ha hi hk hopen)

omit hl ha

/-- On the last level every node is in progress or has its value, if there is a level for each
key. -/
theorem visit_zero_eq (hkeys : r.model.keyCount ≤ r.maxDepth) (limit room : Nat)
    (hn : n ∈ r.model.nodes) (hk : above.length = r.maxDepth) (hp : r.Nested above p) :
    r.recording.visit 0 n p = (r.recording.withLimit limit).visit room n p := by
  have hidle : ¬r.Idle n p.evaluation := fun hi => by
    have hlt := hp.length_lt_keyCount hn hi
    omega
  exact (visit_zero_withLimit r.recording limit room n p).resolve_right fun h => hidle h.1

include hl ha

theorem visitsAs_withLimit (hkeys : r.model.keyCount ≤ r.maxDepth) (limit room : Nat) :
    r.VisitsAs k ((r.recording.withLimit limit).visit (k + room)) := by
  induction k with
  | zero => exact fun d p above hd hk hp => visit_zero_eq hkeys limit _ hd hk hp
  | succ k ih =>
    intro d p above hd hk hp
    rw [visit_succ_eq hl ha ih hd hk hp, Nat.succ_add, visit_succ, visitNode_withLimit]

theorem serve_withLimit_of_le (hkeys : r.model.keyCount ≤ r.maxDepth) {limit : Nat}
    (hle : r.maxDepth ≤ limit) {s : Selection} {e : Errand L} (he : e ∈ r.model.errands s)
    (hp : r.Nested [] p) :
    (r.recording.withLimit limit).serve p e = r.recording.serve p e := by
  cases e with
  | miss d => rfl
  | evaluate n =>
    have hm := Model.mem_nodes_of_mem_localDecisions (Model.mem_localDecisions_of_mem_errands he)
    have hv := visitsAs_withLimit hl ha hkeys limit (limit - r.maxDepth) n p [] hm
      (Nat.zero_add r.maxDepth) hp
    rw [Nat.add_sub_cancel' hle] at hv
    exact congrArg Prod.snd hv.symm

theorem run_recording_withLimit_of_le (hkeys : r.model.keyCount ≤ r.maxDepth) {limit : Nat}
    (hle : r.maxDepth ≤ limit) (s : Selection) (c : Context) (w : σ) :
    (r.recording.withLimit limit).run s c (w, []) = r.recording.run s c (w, []) :=
  run_congr rfl (nested_start c w) (fun _ _ he hp => hp.serve hl ha he)
    fun _ _ he hp => serve_withLimit_of_le hl ha hkeys hle he hp

/-- More levels than there are keys make no difference. -/
theorem run_withLimit_of_le (hkeys : r.model.keyCount ≤ r.maxDepth) {limit : Nat}
    (hle : r.maxDepth ≤ limit) (s : Selection) (c : Context) (w : σ) :
    (r.withLimit limit).run s c w = r.run s c w := by
  have hrun := run_recording_withLimit_of_le hl ha hkeys hle s c w
  rw [← run_recording, recording_withLimit, hrun, run_recording]

theorem run_withLimit (hkeys : r.model.keyCount ≤ r.maxDepth) {limit : Nat}
    (hlimit : r.model.keyCount ≤ limit) (s : Selection) (c : Context) (w : σ) :
    (r.withLimit limit).run s c w = r.run s c w := by
  rcases Nat.le_total r.maxDepth limit with hle | hle
  · exact run_withLimit_of_le hl ha hkeys hle s c w
  · exact (run_withLimit_of_le (r := r.withLimit limit) hl ha hlimit hle s c w).symm

/-- The nodes in progress always have keys of their own, and the active keys are those of the
business knowledge models among them. There are never more nodes in progress than the limit allows
and than there are keys, and in the end there are none. If the limit allows for all keys, then it
makes no difference what it is, and nothing is said of it but by logic. -/
theorem bounded_nesting (s : Selection) (c : Context) (w : σ) :
    (∀ before t after, r.record s c w = before ++ t :: after →
      (r.keysOf Node.isDecision (chain (before ++ [t]))).Nodup ∧
      (r.keysOf Node.isKnowledge (chain (before ++ [t]))).Nodup ∧
      t.evaluation.active = (r.keysOf Node.isKnowledge (chain (before ++ [t]))).reverse ∧
      (chain (before ++ [t])).length ≤ min r.maxDepth r.model.keyCount) ∧
    chain (r.record s c w) = [] ∧
    (r.run s c w).evaluation.active = [] ∧
    (r.model.keyCount ≤ r.maxDepth →
      (∀ limit, r.model.keyCount ≤ limit → (r.withLimit limit).run s c w = r.run s c w) ∧
      r.Clean (r.run s c w).evaluation) := by
  have hn := nested_run (r := r) hl ha s c w
  refine ⟨?_, hn.chained, ?_, ?_⟩
  · intro before t after hr
    have ht := hn.throughout before t after hr
    exact ⟨ht.decisions, ht.knowledge, ht.active, le_min ht.shallow ht.toApart.length_le⟩
  · rw [← run_recording]
    exact hn.tracked.active
  · intro hkeys
    refine ⟨fun limit hlimit => run_withLimit hl ha hkeys hlimit s c w, ?_⟩
    rw [← run_recording]
    exact hn.clean hkeys

end levels

/-- On two cycles: when the rate is worked out it is alone among the active keys, and a hundred
levels are as good as four. -/
theorem bounded_nesting_circular :
    (∃ before t after, Formula.circularRecord = before ++ t :: after ∧
      t.moment = .entered Formula.rate ∧ t.evaluation.active = ["3"] ∧
      (chain (before ++ [t])).length ≤ Formula.circular.keyCount) ∧
    Formula.circular.keyCount ≤ Formula.circularRequest.maxDepth ∧
    (Formula.circularRequest.withLimit 100).run .all .empty () =
      Formula.circularRequest.run .all .empty () := by
  have hl : Formula.circularRecord = Formula.circularRecord.take 7 ++
      Formula.circularRecord[7] :: Formula.circularRecord.drop 8 := rfl
  have hkeys : Formula.circular.keyCount = 4 := by decide
  have hle : Formula.circular.keyCount ≤ Formula.circularRequest.maxDepth := hkeys.le
  obtain ⟨hnested, -, -, hlimit⟩ := bounded_nesting (r := Formula.circularRequest)
    Host.functions_quiet.keepsLedger Host.functions_quiet.keepsActive .all .empty ()
  obtain ⟨-, -, -, hdepth⟩ := hnested _ _ _ hl
  refine ⟨⟨_, _, _, hl, rfl, rfl, hdepth.trans (min_le_right _ _)⟩, hle, ?_⟩
  have hhundred : Formula.circular.keyCount ≤ 100 := by
    rw [hkeys]
    decide
  exact (hlimit hle).1 100 hhundred

end Request

end DecisionGraph
