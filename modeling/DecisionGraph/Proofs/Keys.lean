import DecisionGraph.Proofs.Enrolment
import DecisionGraph.Proofs.Importing
import DecisionGraph.Proofs.Nesting

namespace DecisionGraph

variable {L σ : Type}

section separator

variable {a b c d : String}

/-- Of two cuts of one text at a separator, the later one is the same or has the earlier one before
it. -/
theorem cut_of_append {l : List Char} (hc : c.toList = a.toList ++ l)
    (hb : '#' :: b.toList = l ++ '#' :: d.toList) :
    a = c ∧ b = d ∨ ∃ s, c = a ++ "#" ++ s ∧ b = s ++ "#" ++ d := by
  cases l with
  | nil =>
    refine .inl ⟨?_, ?_⟩
    · exact String.toList_inj.mp (by simpa using hc.symm)
    · exact String.toList_inj.mp (by simpa using hb)
  | cons x l =>
    obtain ⟨rfl, hb⟩ := List.cons.inj hb
    refine .inr ⟨String.ofList l, ?_, ?_⟩
    · exact String.toList_inj.mp (by simpa using hc)
    · exact String.toList_inj.mp (by simpa using hb)

theorem append_hash_eq_iff : a ++ "#" ++ b = c ++ "#" ++ d ↔
    a = c ∧ b = d ∨ (∃ s, a = c ++ "#" ++ s ∧ d = s ++ "#" ++ b) ∨
      ∃ s, c = a ++ "#" ++ s ∧ b = s ++ "#" ++ d := by
  constructor
  · intro h
    have hlist : a.toList ++ '#' :: b.toList = c.toList ++ '#' :: d.toList := by
      simpa using congrArg String.toList h
    rcases List.append_eq_append_iff.mp hlist with ⟨l, hc, hb⟩ | ⟨l, ha, hd⟩
    · exact (cut_of_append hc hb).imp_right .inr
    · exact (cut_of_append ha hd).imp (fun ⟨hac, hdb⟩ => ⟨hac.symm, hdb.symm⟩) .inl
  · rintro (⟨rfl, rfl⟩ | ⟨s, rfl, rfl⟩ | ⟨s, rfl, rfl⟩)
    · rfl
    · simp only [String.append_assoc]
    · simp only [String.append_assoc]

end separator

namespace Model

variable {m : Model L} {x y : NodeInfo}

/-- The node `x` has the key of the foreign node `y`: as its id, if the model owns it, or else
because its namespace begins with that of `y` and goes on as the id of `y` does. -/
def Disguises (m : Model L) (x y : NodeInfo) : Prop :=
  y.ns ≠ m.ns ∧ if x.ns = m.ns then x.id = y.ns ++ "#" ++ y.id
    else ∃ s, x.ns = y.ns ++ "#" ++ s ∧ y.id = s ++ "#" ++ x.id

/-- The nodes are of one identity, or one of them has the key of the other. -/
def Shares (m : Model L) (x y : NodeInfo) : Prop :=
  x.ns = y.ns ∧ x.id = y.id ∨ m.Disguises x y ∨ m.Disguises y x

theorem key_eq_iff : m.key x = m.key y ↔ m.Shares x y := by
  unfold key Shares Disguises
  by_cases hx : x.ns = m.ns
  · by_cases hy : y.ns = m.ns
    · simp [hx, hy]
    · simp [hx, hy, Ne.symm hy]
  · by_cases hy : y.ns = m.ns
    · simp [hx, hy, eq_comm]
    · simp [hx, hy, append_hash_eq_iff]

/-- How the key of the node begins: with its id, if the model owns it, or else with its namespace.
-/
def label (m : Model L) (x : NodeInfo) : String := if x.ns = m.ns then x.id else x.ns

theorem Disguises.hash_mem (h : m.Disguises x y) : '#' ∈ (m.label x).toList := by
  obtain ⟨-, h⟩ := h
  unfold label
  by_cases hx : x.ns = m.ns
  · rw [if_pos hx] at h ⊢
    simp [h]
  · rw [if_neg hx] at h ⊢
    obtain ⟨s, hns, -⟩ := h
    simp [hns]

theorem keysApart_of_plain (h : ∀ n ∈ m.nodes, '#' ∉ (m.label n.info).toList) : m.KeysApart := by
  intro n hn k hk hkey
  rcases key_eq_iff.mp hkey with hsame | hdisguise | hdisguise
  · exact hsame
  · exact absurd hdisguise.hash_mem (h n hn)
  · exact absurd hdisguise.hash_mem (h k hk)

end Model

def Outcome.isRejected (o : Outcome) : Bool := o.messages.any Message.isDepth

theorem Outcome.isRejected_of_isDepth {m : Message} (hm : m.isDepth = true) (o : Outcome)
    (s : Status) : (o.reportFailure m s).isRejected = true := by
  rw [isRejected, reportFailure, List.any_append]
  exact Bool.or_eq_true_iff.mpr (.inr (by simpa using hm))

namespace Ledger

variable {l : Ledger} {k : String} {f : Outcome → Outcome}

def rejects (l : Ledger) (k : String) : Bool := (l.find? k).any Outcome.isRejected

theorem rejects_modify_self (hi : l.Indexed) (hk : (l.find? k).isSome)
    (hf : ∀ o, (f o).isRejected = true) : (l.modify k f).rejects k = true := by
  obtain ⟨o, ho⟩ := Option.isSome_iff_exists.mp hk
  rw [rejects, find?_modify hi, if_pos rfl, ho]
  exact hf o

end Ledger

namespace Request

variable {r : Request L σ}

/-- The ledger at the last sighting of a record, or at the start of the request. -/
def lastLedger (r : Request L σ) (record : List (Sighting L)) : Ledger :=
  (record.getLast?.map fun t => t.evaluation.ledger).getD r.model.freshLedger

@[simp] theorem lastLedger_concat (record : List (Sighting L)) (t : Sighting L) :
    r.lastLedger (record ++ [t]) = t.evaluation.ledger := by
  simp [lastLedger]

/-- The outcomes that differ stand under the keys of decisions of the model: that of the author, and
those of decisions that were rejected at the depth limit. -/
def Authors (r : Request L σ) (author : Option (Node L)) (l l' : Ledger) : Prop :=
  ∀ k, l'.find? k ≠ l.find? k →
    ∃ n ∈ r.model.nodes, n.isDecision ∧ r.key n = k ∧ (author = some n ∨ l'.rejects k)

/-- All changes of the ledger are the work of the decisions that the record tells of, but for
rejections. -/
structure Authored (r : Request L σ) (p : Progress (σ × List (Sighting L))) : Prop where
  indexed : p.ledger.Indexed
  past : Throughout (fun before t =>
    r.Authors (some t.moment.node) (r.lastLedger before) t.evaluation.ledger) p.record
  now : r.Authors none (r.lastLedger p.record) p.ledger

namespace Authored

variable {p q : Progress (σ × List (Sighting L))} {n : Node L} {m : Moment L}

theorem of_eq (h : r.Authored p) (hl : q.ledger = p.ledger) (hr : q.record = p.record) :
    r.Authored q :=
  ⟨hl ▸ h.indexed, hr ▸ h.past, by rw [hl, hr]; exact h.now⟩

theorem exists_rejected (h : r.Authored p) {l : Ledger} {k : String}
    (hl : l.find? k = p.ledger.find? k) (hk : l.find? k ≠ (r.lastLedger p.record).find? k) :
    ∃ n ∈ r.model.nodes, n.isDecision ∧ r.key n = k ∧ l.rejects k := by
  rw [hl] at hk
  obtain ⟨n, hn, hd, hkey, hnone | hrejected⟩ := h.now k hk
  · cases hnone
  · refine ⟨n, hn, hd, hkey, ?_⟩
    rwa [Ledger.rejects, hl]

theorem publish (hi : p.ledger.Indexed)
    (hp : Throughout (fun before t =>
      r.Authors (some t.moment.node) (r.lastLedger before) t.evaluation.ledger) p.record)
    (hm : r.Authors (some m.node) (r.lastLedger p.record) p.ledger) :
    r.Authored (r.recording.watch m p) := by
  refine ⟨hi, ?_, ?_⟩
  · rw [record_watch]
    exact hp.concat hm
  · rw [record_watch, lastLedger_concat]
    exact fun k hk => absurd rfl hk

theorem watch (h : r.Authored p) (hl : q.ledger = p.ledger) (hr : q.record = p.record) :
    r.Authored (r.recording.watch m q) := by
  refine publish (hl ▸ h.indexed) (hr ▸ h.past) ?_
  rw [hl, hr]
  intro k hk
  obtain ⟨n, hn, hd, hkey, hrejected⟩ := h.exists_rejected rfl hk
  exact ⟨n, hn, hd, hkey, .inr hrejected⟩

theorem write (h : r.Authored p) (hn : n ∈ r.model.nodes) (hd : n.isDecision) (hm : m.node = n)
    (hi : q.ledger.Indexed) (hq : ∀ k, r.key n ≠ k → q.ledger.find? k = p.ledger.find? k)
    (hr : q.record = p.record) : r.Authored (r.recording.watch m q) := by
  refine publish hi (hr ▸ h.past) fun k hk => ?_
  by_cases hkey : r.key n = k
  · exact ⟨n, hn, hd, hkey, .inl (congrArg some hm)⟩
  · rw [hr] at hk
    obtain ⟨n', hn', hd', hkey', hrejected⟩ := h.exists_rejected (hq k hkey) hk
    exact ⟨n', hn', hd', hkey', .inr hrejected⟩

theorem modify (h : r.Authored p) (hn : n ∈ r.model.nodes) (hd : n.isDecision) (hm : m.node = n)
    {f : Outcome → Outcome} (hl : q.ledger = p.ledger.modify (r.key n) f)
    (hf : ∀ o, (f o).id = o.id) (hr : q.record = p.record) :
    r.Authored (r.recording.watch m q) := by
  refine h.write hn hd hm (hl ▸ h.indexed.modify _ hf) (fun k hk => ?_) hr
  rw [hl, Ledger.find?_modify h.indexed, if_neg hk]

theorem reportUnresolved (h : r.Authored p) (hn : n ∈ r.model.nodes) (name source : String)
    (d : Diagnostic) : r.Authored (r.recording.reportUnresolved n name source d p) := by
  unfold Request.reportUnresolved
  split
  next hd => exact h.modify hn hd rfl rfl (fun _ => rfl) rfl
  next => exact h.watch rfl rfl

theorem opening (h : r.Authored p) (hn : n ∈ r.model.nodes) :
    r.Authored (r.recording.opening n p) := by
  unfold Request.opening
  split
  next hd =>
    have hensured := h.indexed.ensure (r.key n) n.info.name
    refine h.write hn hd rfl (hensured.modify _ fun _ => rfl) (fun k hk => ?_) rfl
    exact Ledger.find?_modify_ensure_of_ne h.indexed hk ..
  next => exact h.watch (by simp) rfl

theorem lose (h : r.Authored p) (hn : n ∈ r.model.nodes) (hd : n.isDecision) (g : Option Message)
    (s : Status) :
    r.Authored (r.recording.watch (.left n) (p.update (·.lose (r.key n) g s))) := by
  cases g with
  | none => exact h.modify (f := fun o => { o with status := s }) hn hd rfl rfl (fun _ => rfl) rfl
  | some g => exact h.modify hn hd rfl rfl (fun _ => rfl) rfl

theorem reject (h : r.Authored p) (hn : n ∈ r.model.nodes) (hd : n.isDecision) {g : Message}
    (hg : g.isDepth = true) : r.Authored ((p.update (·.onLedger
      (·.ensure (r.key n) n.info.name))).update (·.fail (r.key n) g .failed)) := by
  have hensured := h.indexed.ensure (r.key n) n.info.name
  refine ⟨hensured.modify _ fun _ => rfl, h.past, fun k hk => ?_⟩
  by_cases hkey : r.key n = k
  · subst hkey
    exact ⟨n, hn, hd, rfl, .inr (Ledger.rejects_modify_self hensured
      (Ledger.isSome_find?_ensure h.indexed _ _) (Outcome.isRejected_of_isDepth hg · _))⟩
  · have hsame := Ledger.find?_modify_ensure_of_ne h.indexed hkey n.info.name
      (·.reportFailure g .failed)
    obtain ⟨n', hn', hd', hkey', hrejected⟩ := h.exists_rejected hsame hk
    exact ⟨n', hn', hd', hkey', .inr hrejected⟩

end Authored

/-- The evaluation of a node of the model goes on so that the record tells of all authors. -/
def AuthorsOn (r : Request L σ) (n : Node L) (p q : Progress (σ × List (Sighting L))) : Prop :=
  n ∈ r.model.nodes → r.Authored p → r.Authored q

theorem passes_authors : r.recording.Passes fun n p x => r.AuthorsOn n p x.2 where
  stay _ _ _ _ _ h := h
  blank _ _ _ _ h := h.of_eq rfl rfl

theorem floor_authors : r.recording.Floor fun n p x => r.AuthorsOn n p x.2 where
  toPasses := passes_authors
  tooDeep _ _ hd _ _ hn h := h.reject hn hd (by simp [Diagnostic.isDepth])
  overrun _ _ _ _ _ _ h := h.of_eq rfl rfl

theorem lifts_authors (hk : r.host.KeepsLedger) :
    r.recording.Lifts (fun n p x => r.AuthorsOn n p x.2) (fun n p x => r.AuthorsOn n p x.2)
      (fun n _ p q => r.AuthorsOn n p q) (fun n p q => r.AuthorsOn n p q) where
  toPasses := passes_authors
  refl _ _ _ h := h
  trans h h' hn hp := h' hn (h hn hp)
  unresolved _ name _ source d _ _ _ hn h := h.reportUnresolved hn name source d
  fits _ _ _ _ _ _ _ _ _ h := h.watch rfl rfl
  misfit _ _ _ _ name _ source g _ _ _ _ _ _ hn h := (h.watch rfl rfl).reportUnresolved hn name source g
  report _ _ _ _ _ h := h.of_eq rfl rfl
  notify _ _ _ _ h := h.of_eq rfl rfl
  here _ _ _ _ hd _ _ hx _ h := hx (Model.mem_nodes_of_mem_requirements hd) h
  through _ _ _ _ _ hd _ _ _ hx _ h :=
    (hx (Model.mem_nodes_of_mem_requirements hd) (h.of_eq rfl rfl)).of_eq rfl rfl
  call n logic _ _ _ _ _ _ hres hn h :=
    ((hres hn h).watch (m := .calling n) rfl rfl).of_eq
      (ledger_callLogic hk.recording n logic _) rfl
  complained _ _ _ _ _ hq hn h := (hq hn h).of_eq rfl rfl
  told _ _ _ _ _ hq hn h := (hq hn h).of_eq rfl rfl
  skipped _ _ _ _ _ hd _ _ hq _ _ hn h := (hq hn (h.opening hn)).lose hn hd _ _
  failed _ _ _ _ hd _ _ hq _ _ hn h := (hq hn (h.opening hn)).lose hn hd _ _
  kept n _ q v hd _ _ hq hn h := by
    have hbound : r.Authored (r.recording.watch (.bound n) (q.update fun e =>
        (e.onContext (·.set n.info.name v)).onLedger (·.modify (r.key n) (·.succeed v)))) :=
      (hq hn (h.opening hn)).modify hn hd rfl rfl (fun _ => rfl) rfl
    exact hbound.watch rfl rfl
  heard _ _ _ _ _ hx hn h := hx hn (h.of_eq rfl rfl)
  abandoned _ _ _ _ _ _ _ hq hn h := (hq hn (h.opening hn)).watch rfl rfl
  ended _ _ _ _ _ _ hq hn h := (hq hn (h.opening hn)).watch rfl rfl
  given n _ q f _ _ _ hq hn h := by
    have hbound : r.Authored (r.recording.watch (.bound n)
        (q.update (·.onContext (·.set n.info.name (.function f))))) :=
      (hq hn (h.opening hn)).watch rfl rfl
    exact hbound.watch rfl rfl

theorem authored_run (hk : r.host.KeepsLedger) (s : Selection) (c : Context) (w : σ) :
    r.Authored (r.recording.run s c (w, [])) := by
  refine run_induction ⟨r.model.indexed_freshLedger, .nil, fun k h => absurd rfl h⟩ ?_ ?_
  · intro n p he h
    exact visit_of_level floor_authors (lifts_authors hk) _ n p
      (Model.mem_nodes_of_mem_localDecisions (Model.mem_localDecisions_of_mem_errands he)) h
  · exact fun _ _ h => h.of_eq rfl rfl

def authorAt (record : List (Sighting L)) (i : Nat) : Option (Node L) :=
  record[i]?.map fun t => t.moment.node

/-- In the ledger the decision `n` has written into the outcome of `d`, which has one key with it:
it is the author of the moment, or the outcome says that it was rejected at the depth limit. -/
structure Writes (r : Request L σ) (author : Option (Node L)) (l : Ledger) (n d : Node L) :
    Prop where
  mem : n ∈ r.model.nodes
  isDecision : n.isDecision
  shares : r.model.Shares n.info d.info
  author : author = some n ∨ l.rejects (r.key d)

section states

variable {s : Selection} {c : Context} {w : σ} {i : Nat} {e e' : Evaluation}

theorem ledger_of_states (h : (r.states s c w)[i]? = some e) (hi : i ≤ (r.record s c w).length) :
    e.ledger = r.lastLedger ((r.record s c w).take i) := by
  cases i with
  | zero =>
    obtain rfl := Option.some.inj h
    rfl
  | succ i =>
    rw [states, List.getElem?_cons_succ,
      List.getElem?_append_left (by simpa using Nat.lt_of_succ_le hi), List.getElem?_map,
      List.getElem?_eq_getElem hi] at h
    obtain rfl := Option.some.inj h
    rw [List.take_succ_eq_append_getElem hi, lastLedger_concat]

/-- Between two states the outcomes of the author change, and of those that are rejected. -/
theorem authors_states (hk : r.host.KeepsLedger) (he : (r.states s c w)[i]? = some e)
    (he' : (r.states s c w)[i + 1]? = some e') :
    r.Authors (authorAt (r.record s c w) i) e.ledger e'.ledger := by
  have hrun := r.authored_run hk s c w
  rw [states, List.getElem?_cons_succ] at he'
  by_cases hi : i < (r.record s c w).length
  · rw [List.getElem?_append_left (by simpa using hi), List.getElem?_map,
      List.getElem?_eq_getElem hi] at he'
    obtain rfl := Option.some.inj he'
    rw [ledger_of_states he (Nat.le_of_lt hi), authorAt, List.getElem?_eq_getElem hi]
    exact hrun.past.getElem hi
  · have hlen : (r.record s c w).length ≤ i := Nat.not_lt.mp hi
    rw [List.getElem?_append_right (by simpa using hlen)] at he'
    obtain rfl : i = (r.record s c w).length := by
      have hlast := (List.getElem?_eq_some_iff.mp he').1
      simp at hlast
      omega
    obtain rfl : e' = (r.run s c w).evaluation :=
      List.mem_singleton.mp (List.mem_of_getElem? he')
    rw [ledger_of_states he (Nat.le_refl _), List.take_length, authorAt,
      List.getElem?_eq_none (Nat.le_refl _)]
    have hnow := hrun.now
    rw [← Progress.ledger_eq, ← r.run_recording s c w]
    exact hnow

theorem exists_writes (hk : r.host.KeepsLedger) {d : Node L} (he : (r.states s c w)[i]? = some e)
    (he' : (r.states s c w)[i + 1]? = some e')
    (hne : e'.ledger.find? (r.key d) ≠ e.ledger.find? (r.key d)) :
    ∃ n, r.Writes (authorAt (r.record s c w) i) e'.ledger n d := by
  obtain ⟨n, hn, hd, hkey, hauthor⟩ := authors_states hk he he' _ hne
  exact ⟨n, hn, hd, Model.key_eq_iff.mp hkey, hauthor⟩

/-- No status blocks at first, so one that blocks has been written at some moment since. -/
theorem exists_writes_of_blocks (hk : r.host.KeepsLedger) {d : Node L}
    (he : (r.states s c w)[i]? = some e) (hb : (e.ledger.status (r.key d)).blocksReentry) :
    ∃ j e' n, j < i ∧ (r.states s c w)[j + 1]? = some e' ∧
      r.Writes (authorAt (r.record s c w) j) e'.ledger n d := by
  induction i generalizing e with
  | zero =>
    obtain rfl := Option.some.inj he
    have hfresh : (r.start c w).evaluation.ledger.status (r.key d) = .notEvaluated :=
      r.model.status_freshLedger _
    rw [hfresh] at hb
    cases hb
  | succ i ih =>
    have hlt := (List.getElem?_eq_some_iff.mp he).1
    obtain ⟨e₀, he₀⟩ : ∃ e₀, (r.states s c w)[i]? = some e₀ :=
      ⟨_, List.getElem?_eq_getElem (Nat.lt_of_succ_lt hlt)⟩
    by_cases hsame : e.ledger.find? (r.key d) = e₀.ledger.find? (r.key d)
    · rw [Ledger.status_eq_of_find? hsame] at hb
      obtain ⟨j, e', n, hj, he', hn⟩ := ih he₀ hb
      exact ⟨j, e', n, Nat.lt_succ_of_lt hj, he', hn⟩
    · obtain ⟨n, hn⟩ := exists_writes hk he₀ he hsame
      exact ⟨i, e, n, Nat.lt_succ_self i, he, hn⟩

end states

/-- Two nodes have one key exactly if they are of one identity or one disguises the other, which
takes a separator in the id of an own node or in the namespace of a foreign one. What changes in the
outcome of a decision from one state of a request to the next, and what keeps the decision from
being entered, was written by a decision that has one key with it. A business knowledge model counts
as in progress exactly if one that has one key with it is in progress. -/
theorem interfere_by_key (hl : r.host.KeepsLedger) (ha : r.host.KeepsActive) (s : Selection)
    (c : Context) (w : σ) :
    (∀ n d : Node L, r.key n = r.key d ↔ r.model.Shares n.info d.info) ∧
    ((∀ n ∈ r.model.nodes, '#' ∉ (r.model.label n.info).toList) → r.model.KeysApart) ∧
    (∀ d i e e', (r.states s c w)[i]? = some e → (r.states s c w)[i + 1]? = some e' →
      e'.ledger.find? (r.key d) ≠ e.ledger.find? (r.key d) →
        ∃ n, r.Writes (authorAt (r.record s c w) i) e'.ledger n d) ∧
    (∀ d i e, (r.states s c w)[i]? = some e → (e.ledger.status (r.key d)).blocksReentry →
      ∃ j e' n, j < i ∧ (r.states s c w)[j + 1]? = some e' ∧
        r.Writes (authorAt (r.record s c w) j) e'.ledger n d) ∧
    ∀ d before t after, r.record s c w = before ++ t :: after →
      (t.evaluation.isActive (r.key d) ↔
        ∃ n ∈ chain (before ++ [t]), n.isKnowledge ∧ r.model.Shares n.info d.info) := by
  refine ⟨fun n d => Model.key_eq_iff, Model.keysApart_of_plain,
    fun d i e e' he he' hne => exists_writes hl he he' hne,
    fun d i e he hb => exists_writes_of_blocks hl he hb, fun d before t after hrecord => ?_⟩
  have htracked := (nested_run hl ha s c w).throughout before t after hrecord
  rw [Evaluation.isActive, htracked.active, List.contains_iff_mem, List.mem_reverse, mem_keysOf]
  exact exists_congr fun n => and_congr_right fun _ => and_congr_right fun _ => Model.key_eq_iff

end Request

namespace Formula

def tariffRate : Node Formula :=
  ⟨⟨"1", "rate", "urn:tariff", "tariff", .nil, .empty⟩, .knowledge (some (function "rate"))⟩

def tariff : Model Formula where
  id := "tariff"
  ns := "urn:tariff"
  name := "tariff"
  typeCheck := false
  nodes := #[tariffRate]
  imports := .empty

def faresImports : ImportTable := ⟨[⟨"urn:tariff", "tariff", "t"⟩]⟩

def fare : Node Formula :=
  ⟨⟨"urn:tariff#1", "fare", "urn:fares", "fares", .cons "t.rate" 0 .nil, faresImports⟩,
    .knowledge (some (function "fare"))⟩

def ticket : Node Formula :=
  ⟨⟨"1", "ticket", "urn:fares", "fares", .cons "fare" 1 .nil, faresImports⟩,
    .decision any (some (defined "fare"))⟩

def fares : Model Formula where
  id := "fares"
  ns := "urn:fares"
  name := "fares"
  typeCheck := false
  nodes := #[tariffRate, fare, ticket]
  imports := faresImports

def faresRequest : Request Formula Unit := { pricesRequest with model := fares }

theorem tariff_built : tariff.Built :=
  ⟨((Builder.new "urn:tariff" "tariff").addNode "1" "rate" tariffRate.role).2, "tariff",
    .addNode _ _ _ (.new _ _), Builder.build_eq rfl "tariff"⟩

theorem fares_built : fares.Built := by
  let b (own : List (Node Formula)) : Builder Formula :=
    ⟨none, "urn:fares", "fares", false, (tariff.nodes.toList ++ own).toArray, faresImports,
      Bindings.nil.insert "t" (Builder.ownNames 0 tariff)⟩
  obtain ⟨lib, freshId, hlib, hbuild⟩ := tariff_built
  have himport : (Builder.new "urn:fares" "fares").addImport "t" tariff = .ok (b []) :=
    Builder.addImport_eq rfl tariff
  have hb : (b [bare fare, bare ticket]).Made :=
    .addNode "1" "ticket" ticket.role (.addNode "urn:tariff#1" "fare" fare.role
      (.addImport (.new _ _) hlib hbuild himport))
  have h₁ : (b [bare fare, bare ticket]).dependsOn 1 0 = .ok (b [unlinked fare, bare ticket]) := rfl
  have h₂ : (b [unlinked fare, bare ticket]).dependsOn 2 1 =
    .ok (b [unlinked fare, unlinked ticket]) := rfl
  exact ⟨_, "fares", (hb.dependsOn h₁).dependsOn h₂, Builder.build_eq rfl "fares"⟩

def faresRecord : List (Sighting Formula) := faresRequest.record .all .empty ()

/-- While the fare is in progress the rate counts as in progress too, since both have one key. The
keys of the prices are different. -/
theorem interfere_by_key_fares : fares.Shares tariffRate.info fare.info ∧
    (∃ before t after, faresRecord = before ++ t :: after ∧ t.moment = .entered fare ∧
      t.evaluation.isActive (fares.key tariffRate.info)) ∧
    (∃ e n, (faresRequest.states .all .empty ())[1]? = some e ∧
      faresRequest.Writes (some ticket) e.ledger n ticket) ∧ prices.KeysApart := by
  obtain ⟨hkeys, -, -, hblocked, hmarks⟩ := Request.interfere_by_key (r := faresRequest)
    Host.functions_quiet.keepsLedger Host.functions_quiet.keepsActive .all .empty ()
  obtain ⟨-, hapart, -⟩ := Request.interfere_by_key (r := pricesRequest)
    Host.functions_quiet.keepsLedger Host.functions_quiet.keepsActive .all .empty ()
  have hshares := (hkeys tariffRate fare).mp rfl
  refine ⟨hshares, ?_, ?_, hapart (by decide)⟩
  · have hcut : faresRecord = faresRecord.take 1 ++ faresRecord[1] :: faresRecord.drop 2 := rfl
    refine ⟨_, _, _, hcut, rfl, (hmarks tariffRate _ _ _ hcut).mpr ⟨fare, ?_, rfl, ?_⟩⟩
    · exact List.mem_cons_self
    · exact (hkeys fare tariffRate).mp rfl
  · obtain ⟨j, e, n, hj, he, hwrites⟩ := hblocked ticket 1 _ rfl rfl
    obtain rfl : j = 0 := by omega
    exact ⟨e, n, he, hwrites⟩

/-- The fare cannot get the rate of the tariff, which is said to be in progress and never is. -/
theorem keys_coincide_fares : fares.Built ∧ tariffRate ∈ fares.nodes ∧ fare ∈ fares.nodes ∧
    tariffRate.info.ns ≠ fare.info.ns ∧ fares.key tariffRate.info = fares.key fare.info ∧
    (∃ m ∈ (faresRequest.run .all .empty ()).evaluation.messages, m.code = "BkmDependencyCycle") ∧
    faresRecord.map (fun t => t.moment.node.info.name) =
      ["ticket", "fare", "fare", "fare", "ticket", "ticket", "ticket"] := by
  refine ⟨fares_built, ?_, ?_, by decide, rfl, ?_, rfl⟩
  · exact Array.mem_of_getElem? (i := 0) rfl
  · exact Array.mem_of_getElem? (i := 1) rfl
  · exact ⟨_, List.mem_cons_self, rfl⟩

end Formula

end DecisionGraph
