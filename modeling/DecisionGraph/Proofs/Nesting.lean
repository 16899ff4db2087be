import DecisionGraph.Proofs.Frozen
import Mathlib.Data.Finset.Card

namespace DecisionGraph

variable {L σ : Type}

namespace Model

variable (m : Model L)

/-- The different keys of the nodes of one kind. -/
def keys (kind : Node L → Bool) : Finset String :=
  ((m.nodes.toList.filter kind).map fun n => m.key n.info).toFinset

/-- How many keys the decisions and how many the business knowledge models have. -/
def keyCount : Nat := (m.keys Node.isDecision).card + (m.keys Node.isKnowledge).card

end Model

namespace Request

variable {r : Request L σ}

def keysOf (r : Request L σ) (kind : Node L → Bool) (nodes : List (Node L)) : List String :=
  (nodes.filter kind).map r.key

/-- Each of the nodes has a key of its own among those of its kind. -/
structure Apart (r : Request L σ) (nodes : List (Node L)) : Prop where
  arena : ∀ n ∈ nodes, n ∈ r.model.nodes ∧ (n.isDecision ∨ n.isKnowledge)
  decisions : (r.keysOf Node.isDecision nodes).Nodup
  knowledge : (r.keysOf Node.isKnowledge nodes).Nodup

/-- These nodes can be in progress together. The active keys are those of the business knowledge
models among them, from the outermost to the innermost. -/
structure Tracked (r : Request L σ) (nodes : List (Node L)) (active : List String) : Prop
    extends r.Apart nodes where
  active : active = (r.keysOf Node.isKnowledge nodes).reverse
  shallow : nodes.length ≤ r.maxDepth

/-- The node is not in progress, as far as the request can tell. -/
def Idle (r : Request L σ) (n : Node L) (e : Evaluation) : Prop :=
  n.isDecision ∧ (e.ledger.status (r.key n)).blocksReentry = false ∨
    n.isKnowledge ∧ e.isActive (r.key n) = false

/-- Logic has put the message among the others. -/
def Written (r : Request L σ) (x : Message) : Prop :=
  ∃ l e w, x ∉ e.messages ∧ x ∈ (r.host.answer r.model l e w).2.1.messages

/-- Only logic has said that a depth limit was exceeded, and not in an outcome. -/
structure Clean (r : Request L σ) (e : Evaluation) : Prop where
  outcomes : ∀ o ∈ e.ledger.outcomes, ∀ x ∈ o.messages, x.isDepth = false
  messages : ∀ x ∈ e.messages, x.isDepth → r.Written x

section keys

variable {kind : Node L → Bool} {n k : Node L} {nodes : List (Node L)}

theorem mem_keysOf {key : String} :
    key ∈ r.keysOf kind nodes ↔ ∃ n ∈ nodes, kind n ∧ r.key n = key := by
  simp [keysOf, and_assoc]

theorem keysOf_cons_of_pos (h : kind n) :
    r.keysOf kind (n :: nodes) = r.key n :: r.keysOf kind nodes := by
  simp [keysOf, h]

theorem keysOf_cons_of_neg (h : ¬kind n) : r.keysOf kind (n :: nodes) = r.keysOf kind nodes := by
  simp [keysOf, h]

theorem length_keysOf_le (ha : ∀ n ∈ nodes, n ∈ r.model.nodes)
    (hd : (r.keysOf kind nodes).Nodup) :
    (r.keysOf kind nodes).length ≤ (r.model.keys kind).card := by
  rw [← List.toFinset_card_of_nodup hd]
  apply Finset.card_le_card
  intro key hk
  obtain ⟨n, hn, hkind, rfl⟩ := mem_keysOf.mp (List.mem_toFinset.mp hk)
  have hm : n ∈ r.model.nodes.toList.filter kind :=
    List.mem_filter.mpr ⟨Array.mem_toList_iff.mpr (ha n hn), hkind⟩
  exact List.mem_toFinset.mpr (List.mem_map.mpr ⟨n, hm, rfl⟩)

theorem length_eq_of_kinds (h : ∀ n ∈ nodes, n.isDecision ∨ n.isKnowledge) : nodes.length =
    (r.keysOf Node.isDecision nodes).length + (r.keysOf Node.isKnowledge nodes).length := by
  induction nodes with
  | nil => rfl
  | cons n nodes ih =>
    have ih := ih fun k hk => h k (List.mem_cons_of_mem _ hk)
    rcases h n List.mem_cons_self with hn | hn
    · rw [keysOf_cons_of_pos hn, keysOf_cons_of_neg (Node.not_isKnowledge hn), List.length_cons,
        List.length_cons]
      omega
    · rw [keysOf_cons_of_pos hn, keysOf_cons_of_neg (Node.not_isDecision hn), List.length_cons,
        List.length_cons]
      omega

theorem Apart.length_le (h : r.Apart nodes) :
    nodes.length ≤ r.model.keyCount := by
  have hd := length_keysOf_le (fun n hn => (h.arena n hn).1) h.decisions
  have hk := length_keysOf_le (fun n hn => (h.arena n hn).1) h.knowledge
  rw [length_eq_of_kinds (r := r) fun n hn => (h.arena n hn).2]
  exact Nat.add_le_add hd hk

end keys

namespace Clean

variable {e e' : Evaluation} {m : Message} {key : String}

theorem still (h : r.Clean e) (hl : e'.ledger = e.ledger) (hm : e'.messages = e.messages) :
    r.Clean e' :=
  ⟨hl ▸ h.outcomes, hm ▸ h.messages⟩

theorem report (h : r.Clean e) (hm : m.isDepth = false) : r.Clean (e.report m) := by
  refine ⟨h.outcomes, ?_⟩
  intro x hx hd
  rcases List.mem_append.mp hx with hx | hx
  · exact h.messages x hx hd
  · rw [List.mem_singleton.mp hx, hm] at hd
    cases hd

theorem modify (h : r.Clean e) {f : Outcome → Outcome}
    (hf : ∀ o, ∀ x ∈ (f o).messages, x ∈ o.messages ∨ x.isDepth = false) :
    r.Clean (e.onLedger (·.modify key f)) := by
  refine ⟨?_, h.messages⟩
  intro o ho x hx
  rcases Ledger.mem_outcomes_modify ho with ho | ⟨o', ho', rfl⟩
  · exact h.outcomes o ho x hx
  · exact (hf o' x hx).elim (h.outcomes o' ho' x) id

theorem ensure (h : r.Clean e) (name : String) : r.Clean (e.onLedger (·.ensure key name)) := by
  refine ⟨?_, h.messages⟩
  intro o ho x hx
  rcases Ledger.mem_outcomes_ensure ho with ho | rfl
  · exact h.outcomes o ho x hx
  · cases hx

theorem fail (h : r.Clean e) (hm : m.isDepth = false) (s : Status) : r.Clean (e.fail key m s) := by
  apply (h.report hm).modify
  intro o x hx
  rcases List.mem_append.mp hx with hx | hx
  · exact .inl hx
  · rw [List.mem_singleton.mp hx]
    exact .inr hm

theorem lose (h : r.Clean e) {g : Option Message} (hg : ∀ x ∈ g, x.isDepth = false) (s : Status) :
    r.Clean (e.lose key g s) := by
  cases g with
  | none => exact h.modify fun o x hx => .inl hx
  | some m => exact h.fail (hg m rfl) s

theorem answer (h : r.Clean e) (hl : r.host.KeepsLedger) (l : L) (w : σ) :
    r.Clean (r.host.answer r.model l e w).2.1 := by
  refine ⟨?_, ?_⟩
  · rw [hl r.model l e w]
    exact h.outcomes
  · intro x hx hd
    by_cases hm : x ∈ e.messages
    · exact h.messages x hm hd
    · exact ⟨l, e, w, hm, hx⟩

end Clean

section tracked

variable {n : Node L} {nodes : List (Node L)} {active : List String}

/-- The key of the node is not taken by one of its kind. -/
def Fresh (r : Request L σ) (n : Node L) (nodes : List (Node L)) : Prop :=
  n.isDecision ∧ r.key n ∉ r.keysOf Node.isDecision nodes ∨
    n.isKnowledge ∧ r.key n ∉ r.keysOf Node.isKnowledge nodes

theorem Apart.cons (h : r.Apart nodes) (hm : n ∈ r.model.nodes) (hn : r.Fresh n nodes) :
    r.Apart (n :: nodes) := by
  obtain ⟨ha, hd, hk⟩ := h
  rcases hn with ⟨hn, hf⟩ | ⟨hn, hf⟩
  · refine ⟨List.forall_mem_cons.mpr ⟨⟨hm, .inl hn⟩, ha⟩, ?_, ?_⟩
    · rw [keysOf_cons_of_pos hn]
      exact List.nodup_cons.mpr ⟨hf, hd⟩
    · rwa [keysOf_cons_of_neg (Node.not_isKnowledge hn)]
  · refine ⟨List.forall_mem_cons.mpr ⟨⟨hm, .inr hn⟩, ha⟩, ?_, ?_⟩
    · rwa [keysOf_cons_of_neg (Node.not_isDecision hn)]
    · rw [keysOf_cons_of_pos hn]
      exact List.nodup_cons.mpr ⟨hf, hk⟩

theorem Apart.tail (h : r.Apart (n :: nodes)) : r.Apart nodes := by
  obtain ⟨ha, hd, hk⟩ := h
  have hs : nodes.Sublist (n :: nodes) := List.sublist_cons_self n nodes
  exact ⟨fun k hk => ha k (List.mem_cons_of_mem _ hk), hd.sublist ((hs.filter _).map _),
    hk.sublist ((hs.filter _).map _)⟩

theorem Tracked.tail_decision (h : r.Tracked (n :: nodes) active) (hn : n.isDecision) :
    r.Tracked nodes active := by
  have ha := h.active
  rw [keysOf_cons_of_neg (Node.not_isKnowledge hn)] at ha
  exact ⟨h.toApart.tail, ha, (Nat.le_succ _).trans h.shallow⟩

theorem Tracked.tail_knowledge (h : r.Tracked (n :: nodes) active) (hn : n.isKnowledge) :
    r.Tracked nodes (active.filter (· != r.key n)) := by
  have ha := h.active
  have hk := h.knowledge
  rw [keysOf_cons_of_pos hn] at ha hk
  have hnot := (List.nodup_cons.mp hk).1
  have hf : (r.keysOf Node.isKnowledge nodes).reverse.filter (· != r.key n) =
      (r.keysOf Node.isKnowledge nodes).reverse :=
    List.filter_eq_self.mpr fun k hm => by
      simpa using fun he : k = r.key n => hnot (he ▸ List.mem_reverse.mp hm)
  refine ⟨h.toApart.tail, ?_, (Nat.le_succ _).trans h.shallow⟩
  rw [ha, List.reverse_cons, List.filter_append, hf]
  simp

end tracked

/-- The nodes in progress are these, the innermost first. They are known to be in progress, and so
were the ones before them at every moment. -/
structure Nested (r : Request L σ) (nodes : List (Node L))
    (p : Progress (σ × List (Sighting L))) : Prop where
  chained : chain p.record = nodes
  indexed : p.ledger.Indexed
  tracked : r.Tracked nodes p.evaluation.active
  begun : ∀ n ∈ nodes, n.isDecision → (p.ledger.status (r.key n)).blocksReentry
  throughout : Throughout (fun before t => r.Tracked (chain (before ++ [t])) t.evaluation.active)
    p.record
  clean : r.model.keyCount ≤ r.maxDepth → r.Clean p.evaluation

namespace Nested

variable {p q s : Progress (σ × List (Sighting L))} {n : Node L} {nodes above : List (Node L)}

theorem still (h : r.Nested nodes p) (hr : q.record = p.record) (hl : q.ledger = p.ledger)
    (ha : q.evaluation.active = p.evaluation.active)
    (hc : r.Clean p.evaluation → r.Clean q.evaluation) : r.Nested nodes q :=
  ⟨hr ▸ h.chained, hl ▸ h.indexed, ha ▸ h.tracked, hl ▸ h.begun, hr ▸ h.throughout,
    fun hk => hc (h.clean hk)⟩

theorem watch (h : r.Nested nodes p) {m : Moment L} (hm : m.isInner = true) :
    r.Nested nodes (r.recording.watch m p) := by
  have hc : chain (r.recording.watch m p).record = nodes :=
    (chain_concat_inner (t := ⟨m, p.evaluation⟩) hm).trans h.chained
  refine ⟨hc, h.indexed, h.tracked, h.begun, ?_, h.clean⟩
  apply h.throughout.concat
  rw [← record_watch, hc]
  exact h.tracked

theorem skip (h : r.Nested nodes p) {m : Message} (hm : m.isDepth = false) (hn : n ∈ nodes)
    (hd : n.isDecision) : r.Nested nodes (p.update (·.fail (r.key n) m .skipped)) := by
  have hsome := Ledger.find?_isSome_of_status (l := p.ledger) (k := r.key n) (fun hs => by
    have hb := h.begun n hn hd
    rw [hs] at hb
    cases hb)
  refine ⟨h.chained, h.indexed.modify _ fun _ => rfl, h.tracked, ?_, h.throughout,
    fun hk => (h.clean hk).fail hm _⟩
  intro k hk hkd
  by_cases he : r.key n = r.key k
  · have hs : (p.update (·.fail (r.key n) m .skipped)).ledger.status (r.key n) = .skipped :=
      Ledger.status_modify_self h.indexed hsome fun _ => rfl
    rw [← he, hs]
    rfl
  · have hs : (p.update (·.fail (r.key n) m .skipped)).ledger.status (r.key k) =
        p.ledger.status (r.key k) := Ledger.status_modify_of_ne h.indexed he _
    rw [hs]
    exact h.begun k hk hkd

theorem reportUnresolved (h : r.Nested nodes p) (hn : n ∈ nodes) (name source : String)
    {d : Diagnostic} (hd : d.isDepth = false) :
    r.Nested nodes (r.recording.reportUnresolved n name source d p) := by
  unfold Request.reportUnresolved
  dsimp only
  split
  next hdn => exact (h.skip (by simpa using hd) hn hdn).watch rfl
  next =>
    have hs : r.Nested nodes (p.update (·.report (.of .error d (some source) none))) :=
      h.still rfl rfl rfl fun hcl => hcl.report (by simpa using hd)
    exact hs.watch rfl

theorem fresh (h : r.Nested nodes p) (hi : r.Idle n p.evaluation) : r.Fresh n nodes := by
  rcases hi with ⟨hn, hb⟩ | ⟨hn, ha⟩
  · refine .inl ⟨hn, fun hm => ?_⟩
    obtain ⟨k, hk, hkd, he⟩ := mem_keysOf.mp hm
    have hs := h.begun k hk hkd
    rw [he, Progress.ledger_eq, hb] at hs
    cases hs
  · refine .inr ⟨hn, fun hm => ?_⟩
    rw [Evaluation.isActive, h.tracked.active, List.contains_eq_mem, decide_eq_false_iff_not] at ha
    exact ha (List.mem_reverse.mpr hm)

/-- There is a key left for an idle node. -/
theorem length_lt_keyCount (h : r.Nested nodes p) (hm : n ∈ r.model.nodes)
    (hi : r.Idle n p.evaluation) : nodes.length < r.model.keyCount :=
  (h.tracked.toApart.cons hm (h.fresh hi)).length_le

theorem tracked_opening (h : r.Nested nodes p) (hm : n ∈ r.model.nodes)
    (hi : r.Idle n p.evaluation) (hd : nodes.length < r.maxDepth) :
    r.Tracked (n :: nodes) (r.recording.opening n p).evaluation.active := by
  refine ⟨h.tracked.toApart.cons hm (h.fresh hi), ?_, hd⟩
  rcases hi with ⟨hn, -⟩ | ⟨hn, ha⟩
  · rw [opening_of_decision hn, keysOf_cons_of_neg (Node.not_isKnowledge hn)]
    exact h.tracked.active
  · have hk : r.key n ∉ p.evaluation.active := by simpa [Evaluation.isActive] using ha
    have he : (p.evaluation.enter (r.key n)).active = p.evaluation.active ++ [r.key n] := by
      simp [Evaluation.enter, hk]
    rw [opening_of_knowledge hn, keysOf_cons_of_pos hn, List.reverse_cons, ← h.tracked.active]
    exact he

theorem clean_opening (hc : r.Clean p.evaluation) (n : Node L) :
    r.Clean (r.recording.opening n p).evaluation := by
  unfold Request.opening
  split
  · exact (hc.ensure n.info.name).modify fun o x hx => .inl hx
  · exact hc.still (by simp) (by simp)

theorem opening (h : r.Nested nodes p) (hm : n ∈ r.model.nodes) (hi : r.Idle n p.evaluation)
    (hd : nodes.length < r.maxDepth) : r.Nested (n :: nodes) (r.recording.opening n p) := by
  obtain ⟨hindexed, hkeeps, hown⟩ := advances_opening (r := r.recording) (n := n) h.indexed
  have ht := h.tracked_opening hm hi hd
  have hc : chain (r.recording.opening n p).record = n :: nodes := by
    rw [record_opening, chain_concat_entered, h.chained]
  refine ⟨hc, hindexed, ht, ?_, ?_, fun hk => clean_opening (h.clean hk) n⟩
  · intro k hk hkd
    by_cases he : r.recording.ownKey? n = some (r.key k)
    · obtain ⟨hn, hkey⟩ := of_ownKey? he
      rw [← hkey, hown hn]
      rfl
    · have hmem : k ∈ nodes := by
        rcases List.mem_cons.mp hk with rfl | hk
        · exact absurd (ownKey?_of_decision hkd) he
        · exact hk
      have hb := h.begun k hmem hkd
      rwa [Ledger.status_eq_of_find? (hkeeps _ he hb)]
  · rw [record_opening]
    apply h.throughout.concat
    rw [← record_opening, hc]
    exact ht

theorem leave_decision (h : r.Nested (n :: above) q) (hn : n.isDecision)
    (hr : chain s.record = n :: above)
    (ht : Throughout (fun before t => r.Tracked (chain (before ++ [t])) t.evaluation.active)
      s.record) {f : Outcome → Outcome} (hl : s.ledger = q.ledger.modify (r.key n) f)
    (hf : ∀ o, (f o).id = o.id)
    (ha : s.evaluation.active = q.evaluation.active)
    (hc : r.Clean q.evaluation → r.Clean s.evaluation) :
    r.Nested above (r.recording.watch (.left n) s) := by
  have hchain : chain (r.recording.watch (.left n) s).record = above := by
    rw [record_watch, chain_concat_left, hr, List.tail_cons]
  have htr : r.Tracked above s.evaluation.active := ha ▸ h.tracked.tail_decision hn
  refine ⟨hchain, hl ▸ h.indexed.modify _ hf, htr, ?_, ?_, fun hk => hc (h.clean hk)⟩
  · intro k hk hkd
    have hd := h.tracked.decisions
    rw [keysOf_cons_of_pos hn] at hd
    have hne : r.key n ≠ r.key k := fun he =>
      (List.nodup_cons.mp hd).1 (mem_keysOf.mpr ⟨k, hk, hkd, he.symm⟩)
    have hs : s.ledger.status (r.key k) = q.ledger.status (r.key k) := by
      rw [hl, Ledger.status_modify_of_ne h.indexed hne]
    show (s.ledger.status (r.key k)).blocksReentry
    rw [hs]
    exact h.begun k (List.mem_cons_of_mem _ hk) hkd
  · apply ht.concat
    rw [← record_watch, hchain]
    exact htr

theorem leave_knowledge (h : r.Nested (n :: above) q) (hn : n.isKnowledge) :
    r.Nested above (r.recording.watch (.left n) (q.update (·.leave (r.key n)))) := by
  have hchain : chain (r.recording.watch (.left n) (q.update (·.leave (r.key n)))).record =
      above := by
    rw [record_watch, chain_concat_left, record_update, h.chained, List.tail_cons]
  have htr := h.tracked.tail_knowledge hn
  refine ⟨hchain, h.indexed, htr, fun k hk => h.begun k (List.mem_cons_of_mem _ hk), ?_,
    fun hk => (h.clean hk).still rfl rfl⟩
  apply h.throughout.concat
  rw [← record_update q (·.leave (r.key n)), ← record_watch, hchain]
  exact htr

theorem lose (h : r.Nested (n :: above) q) (hn : n.isDecision) {m : Option Message}
    (hm : ∀ x ∈ m, x.isDepth = false) (st : Status) :
    r.Nested above (r.recording.watch (.left n) (q.update (·.lose (r.key n) m st))) := by
  cases m with
  | none =>
    exact h.leave_decision hn h.chained h.throughout rfl (fun _ => rfl) rfl fun hc => hc.lose hm st
  | some m =>
    exact h.leave_decision hn h.chained h.throughout rfl (fun _ => rfl) rfl fun hc => hc.lose hm st

theorem keep (h : r.Nested (n :: above) q) (hn : n.isDecision) (v : Value) :
    r.Nested above (r.recording.watch (.left n) (r.recording.watch (.bound n) (q.update fun e =>
      (e.onContext (·.set n.info.name v)).onLedger (·.modify (r.key n) (·.succeed v))))) := by
  have hchain : chain (q.record ++ [⟨.bound n, (q.update fun e =>
      (e.onContext (·.set n.info.name v)).onLedger
        (·.modify (r.key n) (·.succeed v))).evaluation⟩]) = n :: above :=
    (chain_concat_inner rfl).trans h.chained
  refine h.leave_decision hn hchain ?_ rfl (fun _ => rfl) rfl fun hc => ?_
  · apply h.throughout.concat
    rw [hchain]
    exact h.tracked
  · have hs : r.Clean (q.evaluation.onContext (·.set n.info.name v)) := hc.still rfl rfl
    exact hs.modify fun o x hx => .inl hx

end Nested

/-- Each level keeps the nodes in progress apart, as long as one level less is left for each of
them. -/
theorem lifts_nested (hl : r.host.KeepsLedger) (ha : r.host.KeepsActive) (k : Nat) :
    r.recording.Lifts
      (fun n p x => n ∈ r.model.nodes → ∀ above, above.length + k = r.maxDepth →
        r.Nested above p → r.Nested above x.2)
      (fun n p x => n ∈ r.model.nodes → ∀ above, above.length + (k + 1) = r.maxDepth →
        r.Nested above p → r.Nested above x.2)
      (fun n _ p q => ∀ above, above.length + (k + 1) = r.maxDepth →
        r.Nested (n :: above) p → r.Nested (n :: above) q)
      (fun n p q => ∀ above, above.length + (k + 1) = r.maxDepth →
        r.Nested (n :: above) p → r.Nested (n :: above) q) where
  stay _ _ _ _ _ _ _ h := h
  blank n p hn _ above _ h := h.still rfl rfl rfl fun hc => hc.report rfl
  refl _ _ _ _ h := h
  trans h h' above hd hp := h' above hd (h above hd hp)
  unresolved n name id source d p _ hg above _ h :=
    h.reportUnresolved List.mem_cons_self name source hg
  fits _ _ _ _ _ _ _ _ _ _ h := h.watch rfl
  misfit n d type p name id source g _ _ _ _ _ hg above _ h := by
    have hw := h.watch (m := .examined n d (r.recording.found n d p)) rfl
    exact hw.reportUnresolved List.mem_cons_self name source hg
  report n m p hm above _ h := h.still rfl rfl rfl fun hc => hc.report hm
  notify n e p above _ h := h.still rfl rfl rfl id
  here n d p x hd _ _ hx above hk h :=
    hx (Model.mem_nodes_of_mem_requirements hd) (n :: above) (by simp; omega) h
  through n d p a x hd _ _ _ hx above hk h := by
    have hpush : r.Nested (n :: above) (p.update (·.onContext (·.push ⟨a, d.info.ns⟩))) :=
      h.still rfl rfl rfl fun hc => hc.still rfl rfl
    have hv := hx (Model.mem_nodes_of_mem_requirements hd) (n :: above) (by simp; omega) hpush
    exact hv.still rfl rfl rfl fun hc => hc.still rfl rfl
  call n logic room p q _ _ _ h above hk hp := by
    have hw := (h above hk hp).watch (m := .calling n) rfl
    exact hw.still rfl (hl _ _ _ _) (ha _ _ _ _) fun hc => hc.answer hl logic _
  complained n p q m hm h above hk hp :=
    (h above hk hp).still rfl rfl rfl fun hc => hc.report hm
  told n p res q e h hn above hk hp := (h hn above hk hp).still rfl rfl rfl id
  skipped n p b q m hn _ hb h _ hm hmem above hk hp :=
    (h above hk (hp.opening hmem (.inl ⟨hn, hb⟩) (by omega))).lose hn hm .skipped
  failed n p q m hn _ hb h hm _ hmem above hk hp :=
    (h above hk (hp.opening hmem (.inl ⟨hn, hb⟩) (by omega))).lose hn hm .failed
  kept n p q v hn _ hb h hmem above hk hp :=
    (h above hk (hp.opening hmem (.inl ⟨hn, hb⟩) (by omega))).keep hn v
  heard n p e x _ h hmem above hk hp := h hmem above hk (hp.still rfl rfl rfl id)
  abandoned n p b q hn hact _ h hmem above hk hp :=
    (h above hk (hp.opening hmem (.inr ⟨hn, hact⟩) (by omega))).leave_knowledge hn
  ended n p q hn hact _ h hmem above hk hp :=
    (h above hk (hp.opening hmem (.inr ⟨hn, hact⟩) (by omega))).leave_knowledge hn
  given n p q f hn hact _ h hmem above hk hp := by
    have hq := h above hk (hp.opening hmem (.inr ⟨hn, hact⟩) (by omega))
    have hs : r.Nested (n :: above) (q.update (·.onContext (·.set n.info.name (.function f)))) :=
      hq.still rfl rfl rfl fun hc => hc.still rfl rfl
    exact (hs.watch (m := .bound n) rfl).leave_knowledge hn

/-- On the last level no more node is idle if there are no more keys than levels. -/
theorem floor_nested (hl : r.host.KeepsLedger) :
    r.recording.Floor (fun n p x => n ∈ r.model.nodes → ∀ above, above.length + 0 = r.maxDepth →
      r.Nested above p → r.Nested above x.2) where
  stay _ _ _ _ _ _ _ h := h
  blank n p hn _ above _ h := h.still rfl rfl rfl fun hc => hc.report rfl
  tooDeep n p hn hu hb hmem above hk h := by
    have hlt := h.length_lt_keyCount hmem (.inl ⟨hn, hb⟩)
    obtain ⟨hindexed, hkeeps⟩ :=
      (lawful_ledger hl.recording).tooDeep n p _ hn hu hb h.indexed
    refine ⟨h.chained, hindexed, h.tracked, fun k hk hkd => ?_, h.throughout, fun hle => by omega⟩
    have hs := h.begun k hk hkd
    rwa [Ledger.status_eq_of_find? (hkeeps _ (by simp) hs)]
  overrun n p hn hact _ hmem above hk h := by
    have hlt := h.length_lt_keyCount hmem (.inr ⟨hn, hact⟩)
    exact ⟨h.chained, h.indexed, h.tracked, h.begun, h.throughout, fun hle => by omega⟩

theorem nested_visit (hl : r.host.KeepsLedger) (ha : r.host.KeepsActive) (k : Nat) {n : Node L}
    {p : Progress (σ × List (Sighting L))} {above : List (Node L)} (hn : n ∈ r.model.nodes)
    (hk : above.length + k = r.maxDepth) (h : r.Nested above p) :
    r.Nested above (r.recording.visit k n p).2 :=
  visit_of_levels (floor_nested hl) (lifts_nested hl ha) k n p hn above hk h

theorem nested_start (c : Context) (w : σ) : r.Nested [] (r.recording.start c (w, [])) := by
  refine ⟨rfl, r.model.indexed_freshLedger, ⟨⟨by simp, .nil, .nil⟩, rfl, Nat.zero_le _⟩, by simp,
    .nil, fun _ => ⟨fun o ho => ?_, by simp [start, Evaluation.start]⟩⟩
  obtain ⟨d, -, rfl⟩ := r.model.mem_outcomes_freshLedger o ho
  simp [Outcome.new]

theorem Nested.serve {p : Progress (σ × List (Sighting L))} (h : r.Nested [] p)
    (hl : r.host.KeepsLedger) (ha : r.host.KeepsActive) {s : Selection} {e : Errand L}
    (he : e ∈ r.model.errands s) : r.Nested [] (r.recording.serve p e) := by
  cases e with
  | evaluate n =>
    have hm := Model.mem_nodes_of_mem_localDecisions (Model.mem_localDecisions_of_mem_errands he)
    exact nested_visit hl ha r.maxDepth hm (Nat.zero_add _) h
  | miss d =>
    have hd := Model.isDepth_of_mem_errands he
    exact h.still rfl rfl rfl fun hc => hc.report (by simpa using hd)

theorem nested_run (hl : r.host.KeepsLedger) (ha : r.host.KeepsActive) (s : Selection)
    (c : Context) (w : σ) : r.Nested [] (r.recording.run s c (w, [])) :=
  serve_induction (nested_start c w) fun _ _ he h => h.serve hl ha he

end Request

end DecisionGraph
