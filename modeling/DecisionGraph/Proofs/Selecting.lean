import DecisionGraph.Proofs.Chronicle
import DecisionGraph.Proofs.Formulas
import DecisionGraph.Proofs.Growth
import Mathlib.Data.List.Induction

namespace DecisionGraph

variable {L σ τ : Type}

/-- What the keys of a request are. -/
inductive Reference where
  | name
  | id
deriving DecidableEq

namespace Reference

def key : Reference → NodeInfo → String
  | name => NodeInfo.name
  | id => NodeInfo.id

def missing : Reference → String → Diagnostic
  | name => .decisionNotFoundForName
  | id => .decisionNotFoundForId

def selection : Reference → List String → Selection
  | name => .names
  | id => .ids

variable (ref : Reference) (m : Model L)

def decision? (k : String) : Option (Node L) := m.localDecisions.find? fun d => ref.key d.info == k

def known (k : String) : Bool := (ref.decision? m k).isSome

/-- Each known key once, where it occurs first. -/
def distinct (keys : List String) : List String := (keys.filter (ref.known m)).eraseDups

def errand (k : String) : Errand L :=
  match ref.decision? m k with
  | some d => .evaluate d
  | none => .miss (ref.missing k)

/-- What is said for a key that comes after others: the first time, what the evaluation of its
decision says. -/
def turn (said : String → List Message) (earlier : List String) (k : String) : List Message :=
  if ref.known m k then if k ∈ earlier then [] else said k
  else [.of .error (ref.missing k) none none]

/-- What is said for keys that come after others, in the order of the keys. -/
def inTurn (said : String → List Message) : List String → List String → List Message
  | _, [] => []
  | earlier, k :: keys => ref.turn m said earlier k ++ inTurn said (earlier ++ [k]) keys

variable {ref m}

theorem errands_selection (keys : List String) :
    m.errands (ref.selection keys) = keys.map (ref.errand m) := by
  cases ref <;> rfl

theorem of_decision? {k : String} {d : Node L} (h : ref.decision? m k = some d) :
    d ∈ m.localDecisions ∧ ref.key d.info = k := by
  have hkey := List.find?_some h
  exact ⟨List.mem_of_find?_eq_some h, by simpa using hkey⟩

theorem errand_of_known {k : String} (h : ref.known m k) :
    ∃ d ∈ m.localDecisions, ref.decision? m k = some d ∧ ref.errand m k = .evaluate d := by
  obtain ⟨d, hd⟩ := Option.isSome_iff_exists.mp h
  exact ⟨d, (of_decision? hd).1, hd, by rw [errand, hd]⟩

theorem errand_of_unknown {k : String} (h : ref.known m k = false) :
    ref.errand m k = .miss (ref.missing k) := by
  rw [errand, Option.isNone_iff_eq_none.mp (Option.isSome_eq_false_iff.mp h)]

theorem decision?_key (h : (m.localDecisions.map fun d => ref.key d.info).Nodup) {d : Node L}
    (hd : d ∈ m.localDecisions) : ref.decision? m (ref.key d.info) = some d := by
  have hsome : (ref.decision? m (ref.key d.info)).isSome :=
    List.find?_isSome.mpr ⟨d, hd, beq_self_eq_true (ref.key d.info)⟩
  obtain ⟨e, he⟩ := Option.isSome_iff_exists.mp hsome
  obtain ⟨hmem, hkey⟩ := of_decision? he
  rwa [List.inj_on_of_nodup_map h hmem hd hkey] at he

theorem errands_keys (ref : Reference) (h : (m.localDecisions.map fun d => ref.key d.info).Nodup)
    {ds : List (Node L)} (hds : ∀ d ∈ ds, d ∈ m.localDecisions) :
    m.errands (ref.selection (ds.map fun d => ref.key d.info)) = ds.map .evaluate := by
  rw [errands_selection, List.map_map]
  refine List.map_congr_left fun d hd => ?_
  rw [Function.comp, errand, decision?_key h (hds d hd)]

theorem mem_distinct {keys : List String} {k : String} :
    k ∈ ref.distinct m keys ↔ k ∈ keys ∧ ref.known m k := by
  rw [distinct, List.mem_eraseDups, List.mem_filter]

theorem distinct_concat (keys : List String) (k : String) :
    ref.distinct m (keys ++ [k]) =
      ref.distinct m keys ++ if ref.known m k ∧ k ∉ keys then [k] else [] := by
  unfold distinct
  rw [List.filter_append, List.eraseDups_append]
  congr 1
  by_cases hk : ref.known m k
  · by_cases hm : k ∈ keys <;> simp [hk, hm, List.removeAll, List.eraseDups_cons]
  · simp [hk, List.removeAll]

theorem inTurn_concat (said : String → List Message) (earlier keys : List String) (k : String) :
    ref.inTurn m said earlier (keys ++ [k]) =
      ref.inTurn m said earlier keys ++ ref.turn m said (earlier ++ keys) k := by
  induction keys generalizing earlier with
  | nil => simp [inTurn]
  | cons k' keys ih => simp [inTurn, ih]

theorem inTurn_congr {said said' : String → List Message} {earlier keys : List String}
    (h : ∀ k ∈ keys, said' k = said k) :
    ref.inTurn m said' earlier keys = ref.inTurn m said earlier keys := by
  induction keys generalizing earlier with
  | nil => rfl
  | cons k keys ih =>
    have hk : ref.turn m said' earlier k = ref.turn m said earlier k := by
      rw [turn, turn, h k List.mem_cons_self]
    rw [inTurn, inTurn, hk, ih fun k hk => h k (List.mem_cons_of_mem _ hk)]

end Reference

/-- The state of a request but for its messages. -/
def Evaluation.silent (e : Evaluation) : Evaluation := { e with messages := [] }

theorem Evaluation.eq_of_silent {d e : Evaluation} (h : d.silent = e.silent) :
    d.context = e.context ∧ d.ledger = e.ledger ∧ d.active = e.active :=
  ⟨congrArg (·.context) h, congrArg (·.ledger) h, congrArg (·.active) h⟩

/-- Whoever runs logic or listens minds no message: a part of the world is all that counts, and what
becomes of it does not depend on the messages. -/
structure Host.IgnoresMessages (h : Host L σ) (part : σ → τ) : Prop where
  listening : ∀ {w w'}, part w' = part w → h.listening w' = h.listening w
  notify : ∀ e {w w'}, part w' = part w → part (h.notify e w') = part (h.notify e w)
  answer : ∀ m l {e e' : Evaluation} {w w'}, e'.silent = e.silent → part w' = part w →
    (h.answer m l e' w').1 = (h.answer m l e w).1 ∧
      part (h.answer m l e' w').2.2 = part (h.answer m l e w).2.2
  observe : ∀ m {e e' : Evaluation} {w w'}, e'.silent = e.silent → part w' = part w →
    part (h.observe m e' w') = part (h.observe m e w)

theorem Host.ignoresMessages {h : Host L σ} {f : Model L → L → Context → Except EvalError Answer}
    (ha : ∀ m l e w, h.answer m l e w = (f m l e.context, e, w))
    (ho : ∀ m e w, h.observe m e w = w) : h.IgnoresMessages id where
  listening hw := congrArg h.listening hw
  notify e _ _ hw := congrArg (h.notify e) hw
  answer m l e e' w w' he hw := by
    rw [ha, ha, (Evaluation.eq_of_silent he).1]
    exact ⟨rfl, hw⟩
  observe m e e' w w' _ hw := by
    rw [ho, ho]
    exact hw

/-- The chronicle minds no message, as far as the events are concerned. -/
theorem Host.IgnoresMessages.chronicling {h : Host L σ} {part : σ → τ}
    (hi : h.IgnoresMessages part) :
    h.chronicling.IgnoresMessages fun w => (part w.1, w.2.flatMap Entry.events) where
  listening hw := hi.listening (congrArg Prod.fst hw)
  notify e w w' hw := by
    obtain ⟨hpart, hevents⟩ := Prod.mk.inj hw
    simp [Host.chronicling, hi.notify e hpart, hevents, Entry.events]
  answer m l e e' w w' he hw := by
    obtain ⟨hpart, hevents⟩ := Prod.mk.inj hw
    obtain ⟨hanswer, hpart'⟩ := hi.answer m l he hpart
    exact ⟨hanswer, by simp [Host.chronicling, hpart', hevents, Entry.events]⟩
  observe m e e' w w' he hw := by
    obtain ⟨hpart, hevents⟩ := Prod.mk.inj hw
    simp [Host.chronicling, hi.observe m he hpart, hevents, Entry.events, Mark.events]

namespace Request

variable {r : Request L σ} {part : σ → τ} {a b : List Message} {p q : Progress σ} {n d : Node L}

/-- Two requests that differ in the messages before some point only: from there on they say the
same. -/
structure Abreast (part : σ → τ) (a b : List Message) (p q : Progress σ) : Prop where
  silent : q.evaluation.silent = p.evaluation.silent
  world : part q.world = part p.world
  messages : ∃ new, p.evaluation.messages = a ++ new ∧ q.evaluation.messages = b ++ new

namespace Abreast

theorem context (h : Abreast part a b p q) : q.context = p.context :=
  (Evaluation.eq_of_silent h.silent).1

theorem ledger (h : Abreast part a b p q) : q.ledger = p.ledger :=
  (Evaluation.eq_of_silent h.silent).2.1

theorem active (h : Abreast part a b p q) : q.evaluation.active = p.evaluation.active :=
  (Evaluation.eq_of_silent h.silent).2.2

theorem update (h : Abreast part a b p q) {f : Evaluation → Evaluation}
    (hf : ∀ e, (f e).silent = (f e.silent).silent) (hm : ∀ e, (f e).messages = e.messages) :
    Abreast part a b (p.update f) (q.update f) where
  silent := by rw [Progress.evaluation_update, Progress.evaluation_update, hf, hf p.evaluation,
    h.silent]
  world := h.world
  messages := by
    rw [Progress.evaluation_update, Progress.evaluation_update, hm, hm]
    exact h.messages

theorem report (h : Abreast part a b p q) (m : Message) :
    Abreast part a b (p.update (·.report m)) (q.update (·.report m)) where
  silent := h.silent
  world := h.world
  messages := by
    obtain ⟨new, hp, hq⟩ := h.messages
    exact ⟨new ++ [m], by simp [hp], by simp [hq]⟩

theorem watch (hi : r.host.IgnoresMessages part) (h : Abreast part a b p q) (m : Moment L) :
    Abreast part a b (r.watch m p) (r.watch m q) :=
  ⟨h.silent, hi.observe m h.silent h.world, h.messages⟩

end Abreast

theorem inStep_abreast (hq : r.host.Quiet) (hi : r.host.IgnoresMessages part)
    (a b : List Message) : r.InStep r.host (Abreast part a b) where
  context h := h.context
  ledger h := h.ledger
  active h := h.active
  listening h := hi.listening h.world
  report m h := h.report m
  onContext f h := h.update (fun _ => rfl) fun _ => rfl
  onLedger f h := h.update (fun _ => rfl) fun _ => rfl
  enter k h := by
    refine h.update (fun e => ?_) (Evaluation.messages_enter · k)
    unfold Evaluation.enter Evaluation.silent
    split <;> rfl
  leave k h := h.update (fun _ => rfl) fun _ => rfl
  watch m h := h.watch hi m
  notify e h := ⟨h.silent, hi.notify e h.world, h.messages⟩
  callLogic {p q} n l h := by
    have hw := h.watch hi (.calling n)
    obtain ⟨hanswer, hworld⟩ := hi.answer r.model l hw.silent hw.world
    have he (s : Progress σ) := evaluation_callLogic hq n l s
    refine ⟨hanswer, ?_, hworld, ?_⟩
    · exact (congrArg _ (he q)).trans (h.silent.trans (congrArg _ (he p)).symm)
    · obtain ⟨new, hp, hq⟩ := h.messages
      exact ⟨new, (congrArg _ (he p)).trans hp, (congrArg _ (he q)).trans hq⟩

/-- The decision has its value or is barred, so that whoever asks for it gets nothing new. -/
def AtRest (r : Request L σ) (n : Node L) (p : Progress σ) : Prop :=
  r.isDefined p.context n.info n.info = true ∨ (p.ledger.status (r.key n)).blocksReentry = true

theorem AtRest.of_silent (h : r.AtRest n p)
    (hs : q.evaluation.silent = p.evaluation.silent) : r.AtRest n q := by
  obtain ⟨hcontext, hledger, -⟩ := Evaluation.eq_of_silent hs
  unfold AtRest
  rwa [Progress.context_eq, Progress.ledger_eq, hcontext, hledger]

theorem evaluate_of_atRest (hn : n.isDecision) (h : r.AtRest n p) : r.evaluate n p = p := by
  obtain ⟨type, logic, hr⟩ := Node.role_of_isDecision hn
  unfold evaluate
  rw [visit_eq, visitNode_decision hr]
  cases hu : r.isDefined p.context n.info n.info with
  | true => rw [visitDecision_of_defined hu]
  | false => rw [visitDecision_of_blocked hu (h.resolve_left (by rw [hu]; simp))]

/-- A request between two of its errands: no scope is open, and the ledger is in order. -/
structure Between (p : Progress σ) : Prop where
  root : p.context.frames = []
  indexed : p.ledger.Indexed

theorem Between.of_silent (h : Between p) (hs : q.evaluation.silent = p.evaluation.silent) :
    Between q := by
  obtain ⟨hcontext, hledger, -⟩ := Evaluation.eq_of_silent hs
  exact ⟨by rw [Progress.context_eq, hcontext]; exact h.root,
    by rw [Progress.ledger_eq, hledger]; exact h.indexed⟩

theorem Between.here (h : Between p) (hn : n ∈ r.model.localDecisions) :
    n.info.ns = r.model.scopeNs p.context :=
  (Model.ns_of_mem_localDecisions hn).trans (Model.scopeNs_of_root h.root).symm

theorem Between.evaluate (hq : r.host.Quiet) (h : Between p) (hn : n ∈ r.model.localDecisions) :
    Between (r.evaluate n p) :=
  ⟨(grows_visit hq r.maxDepth n p (h.here hn)).frames.trans h.root,
    ((lawful_ledger hq.keepsLedger).visit r.maxDepth n p h.indexed).1⟩

theorem atRest_evaluate (hq : r.host.Quiet) (h : Between p) (hn : n ∈ r.model.localDecisions) :
    r.AtRest n (r.evaluate n p) := by
  have hd := Model.isDecision_of_mem_localDecisions hn
  obtain ⟨type, logic, hr⟩ := Node.role_of_isDecision hd
  have hhere := h.here hn
  cases hu : r.isDefined p.context n.info n.info with
  | true =>
    unfold evaluate
    rw [visit_of_defined hr hu]
    exact .inl hu
  | false =>
    obtain ⟨ok, hres, hc⟩ := concluded_visit r.maxDepth hq.keepsLedger hr h.indexed hu
    cases ok with
    | true =>
      have hget := ((lawful_growth hq).visit r.maxDepth n p hhere).2 hres hd
      have hhere' := (h.evaluate hq hn).here hn
      exact .inl ((isDefined_of_here hhere').trans hget)
    | false => exact .inr hc

theorem AtRest.evaluate (hq : r.host.Quiet) (hp : Between p) (hn : n ∈ r.model.localDecisions)
    (hd : d ∈ r.model.localDecisions) (h : r.AtRest d p) : r.AtRest d (r.evaluate n p) := by
  rcases h with h | h
  · rw [isDefined_of_here (hp.here hd)] at h
    have hget := (grows_visit hq r.maxDepth n p (hp.here hn)).get? h
    exact .inl ((isDefined_of_here ((hp.evaluate hq hn).here hd)).trans hget)
  · have hkeeps := ((lawful_ledger hq.keepsLedger).visit r.maxDepth n p hp.indexed).2
    have hstatus := Ledger.status_eq_of_find? (hkeeps _ (by simp) h)
    exact .inr ((congrArg Status.blocksReentry hstatus).trans h)

section keys

variable {ref : Reference} {c : Context} {w : σ}

/-- What a request for the keys comes to. -/
def ask (r : Request L σ) (ref : Reference) (c : Context) (w : σ) (keys : List String) :
    Progress σ :=
  r.run (ref.selection keys) c w

def told (r : Request L σ) (s : Selection) (c : Context) (w : σ) : List Event :=
  (r.chronicle s c w).flatMap Entry.events

theorem ask_concat (keys : List String) (k : String) :
    r.ask ref c w (keys ++ [k]) = r.serve (r.ask ref c w keys) (ref.errand r.model k) := by
  simp only [ask, run_eq, Reference.errands_selection, List.map_append, List.foldl_append,
    List.map_singleton, List.foldl_cons, List.foldl_nil]

/-- What is said for each of the keys is what a request for the keys up to it says more than one
for the keys before it. -/
def Says (r : Request L σ) (ref : Reference) (c : Context) (w : σ) (said : String → List Message)
    (keys : List String) : Prop :=
  ∀ before k after, keys = before ++ k :: after →
    (r.ask ref c w (before ++ [k])).evaluation.messages =
      (r.ask ref c w before).evaluation.messages ++ said k

theorem Says.congr {said said' : String → List Message} {keys : List String}
    (h : r.Says ref c w said keys) (he : ∀ k ∈ keys, said' k = said k) :
    r.Says ref c w said' keys := by
  intro before k after hl
  rw [h before k after hl, he k (by simp [hl])]

theorem Says.concat {said : String → List Message} {keys : List String} {k : String}
    (h : r.Says ref c w said keys)
    (hk : (r.ask ref c w (keys ++ [k])).evaluation.messages =
      (r.ask ref c w keys).evaluation.messages ++ said k) :
    r.Says ref c w said (keys ++ [k]) := by
  intro before k' after hl
  rcases eq_of_concat hl with ⟨-, rfl, rfl⟩ | ⟨rest, -, hr⟩
  · exact hk
  · exact h before k' rest hr

/-- A request for some keys, and the one for the distinct known ones of them, after the same key. -/
structure Abridged (r : Request L σ) (part : σ → τ) (ref : Reference) (c : Context) (w : σ)
    (said : String → List Message) (keys : List String) : Prop where
  between : Between (r.ask ref c w keys)
  atRest : ∀ k ∈ keys, ∀ d, ref.decision? r.model k = some d → r.AtRest d (r.ask ref c w keys)
  silent : (r.ask ref c w (ref.distinct r.model keys)).evaluation.silent =
    (r.ask ref c w keys).evaluation.silent
  world : part (r.ask ref c w (ref.distinct r.model keys)).world = part (r.ask ref c w keys).world
  saying : r.Says ref c w said (ref.distinct r.model keys)
  short : (r.ask ref c w (ref.distinct r.model keys)).evaluation.messages =
    (ref.distinct r.model keys).flatMap said
  long : (r.ask ref c w keys).evaluation.messages = ref.inTurn r.model said [] keys

namespace Abridged

variable {said : String → List Message} {keys : List String} {k : String}

/-- A key that the short request does without changes nothing in the long one but the messages. -/
theorem skip (h : r.Abridged part ref c w said keys)
    (hd : ref.distinct r.model (keys ++ [k]) = ref.distinct r.model keys)
    (hrest : ∀ d, ref.decision? r.model k = some d → r.AtRest d (r.ask ref c w keys))
    (hsilent : (r.ask ref c w (keys ++ [k])).evaluation.silent =
      (r.ask ref c w keys).evaluation.silent)
    (hworld : (r.ask ref c w (keys ++ [k])).world = (r.ask ref c w keys).world)
    (hlong : (r.ask ref c w (keys ++ [k])).evaluation.messages =
      ref.inTurn r.model said [] (keys ++ [k])) :
    r.Abridged part ref c w said (keys ++ [k]) where
  between := h.between.of_silent hsilent
  atRest k' hk' d hd' := by
    refine AtRest.of_silent ?_ hsilent
    rcases List.mem_append.mp hk' with hk' | hk'
    · exact h.atRest k' hk' d hd'
    · exact hrest d (List.mem_singleton.mp hk' ▸ hd')
  silent := by rw [hd, hsilent, h.silent]
  world := by rw [hd, hworld, h.world]
  saying := hd ▸ h.saying
  short := hd ▸ h.short
  long := hlong

theorem unknown (h : r.Abridged part ref c w said keys) (hk : ref.known r.model k = false) :
    r.Abridged part ref c w said (keys ++ [k]) := by
  have hd : ref.distinct r.model (keys ++ [k]) = ref.distinct r.model keys := by
    rw [Reference.distinct_concat, if_neg (by simp [hk]), List.append_nil]
  have hrun : r.ask ref c w (keys ++ [k]) =
      (r.ask ref c w keys).update (·.report (.of .error (ref.missing k) none none)) := by
    rw [ask_concat, Reference.errand_of_unknown hk, serve]
  refine h.skip hd (fun d hd' => ?_) (by rw [hrun]; rfl) (by rw [hrun]; rfl) ?_
  · simp [Reference.known, hd'] at hk
  · rw [hrun, Reference.inTurn_concat, Reference.turn, hk, ← h.long]
    rfl

/-- A key that comes again finds its decision at rest. -/
theorem again (h : r.Abridged part ref c w said keys) (hk : ref.known r.model k) (hm : k ∈ keys) :
    r.Abridged part ref c w said (keys ++ [k]) := by
  have hd : ref.distinct r.model (keys ++ [k]) = ref.distinct r.model keys := by
    rw [Reference.distinct_concat, if_neg (by simp [hm]), List.append_nil]
  obtain ⟨d, hlocal, hfound, herrand⟩ := Reference.errand_of_known hk
  have hrun : r.ask ref c w (keys ++ [k]) = r.ask ref c w keys := by
    rw [ask_concat, herrand, serve]
    exact evaluate_of_atRest (Model.isDecision_of_mem_localDecisions hlocal)
      (h.atRest k hm d hfound)
  refine h.skip hd (h.atRest k hm) (by rw [hrun]) (by rw [hrun]) ?_
  rw [hrun, Reference.inTurn_concat, Reference.turn, if_pos hk, if_pos (by simpa using hm),
    List.append_nil]
  exact h.long

/-- A key that comes for the first time has its decision evaluated in both requests, side by
side. -/
theorem new (hq : r.host.Quiet) (hi : r.host.IgnoresMessages part)
    (h : r.Abridged part ref c w said keys) (hk : ref.known r.model k) (hm : k ∉ keys) :
    ∃ said', r.Abridged part ref c w said' (keys ++ [k]) := by
  have hd : ref.distinct r.model (keys ++ [k]) = ref.distinct r.model keys ++ [k] := by
    rw [Reference.distinct_concat, if_pos ⟨hk, hm⟩]
  obtain ⟨d, hlocal, hfound, herrand⟩ := Reference.errand_of_known hk
  have hrun (keys : List String) :
      r.ask ref c w (keys ++ [k]) = r.evaluate d (r.ask ref c w keys) := by
    rw [ask_concat, herrand, serve]
  -- What is said now is the same on both sides, and is what is said for the key.
  obtain ⟨-, hsilent, hworld, new, hlong, hshort⟩ := (inStep_abreast hq hi _ _).visit r.maxDepth d
    ⟨h.silent, h.world, [], (List.append_nil _).symm, (List.append_nil _).symm⟩
  let said' := Function.update said k new
  have hsaid (k' : String) (hk' : k' ∈ keys) : said' k' = said k' :=
    Function.update_of_ne (ne_of_mem_of_not_mem hk' hm) ..
  have hsaid' (k' : String) (hk' : k' ∈ ref.distinct r.model keys) : said' k' = said k' :=
    hsaid k' (Reference.mem_distinct.mp hk').1
  have hnew : said' k = new := Function.update_self ..
  refine ⟨said', ?_, ?_, ?_, ?_, ?_, ?_, ?_⟩
  · rw [hrun]
    exact h.between.evaluate hq hlocal
  · intro k' hk' d' hd'
    have hlocal' := (Reference.of_decision? hd').1
    rw [hrun]
    rcases List.mem_append.mp hk' with hk' | hk'
    · exact (h.atRest k' hk' d' hd').evaluate hq h.between hlocal hlocal'
    · obtain rfl := List.mem_singleton.mp hk'
      obtain rfl := Option.some.inj (hfound.symm.trans hd')
      exact atRest_evaluate hq h.between hlocal
  · rw [hd, hrun, hrun]
    exact hsilent
  · rw [hd, hrun, hrun]
    exact hworld
  · rw [hd]
    refine (h.saying.congr hsaid').concat ?_
    rw [hrun, hnew]
    exact hshort
  · rw [hd, hrun, List.flatMap_append, List.flatMap_singleton, hnew,
      List.flatMap_congr hsaid', ← h.short]
    exact hshort
  · rw [hrun, Reference.inTurn_concat, Reference.turn, if_pos hk, if_neg (by simpa using hm), hnew,
      Reference.inTurn_congr hsaid, ← h.long]
    exact hlong

end Abridged

/-- The request for the distinct known keys follows the request for all keys. -/
theorem abridged_ask (hq : r.host.Quiet) (hi : r.host.IgnoresMessages part) (hc : c.frames = [])
    (ref : Reference) (w : σ) (keys : List String) :
    ∃ said, r.Abridged part ref c w said keys := by
  induction keys using List.reverseRecOn with
  | nil =>
    have hstart : r.ask ref c w [] = r.start c w := by cases ref <;> rfl
    have hd : ref.distinct r.model [] = [] := rfl
    refine ⟨fun _ => [], ?_, by simp, by rw [hd], by rw [hd], ?_, ?_, ?_⟩
    · rw [hstart]
      exact ⟨hc, r.model.indexed_freshLedger⟩
    · intro before k after hl
      simp [hd] at hl
    · rw [hd, hstart]
      rfl
    · rw [hstart]
      rfl
  | append_singleton keys k ih =>
    obtain ⟨said, h⟩ := ih
    cases hk : ref.known r.model k with
    | false => exact ⟨said, h.unknown hk⟩
    | true =>
      by_cases hm : k ∈ keys
      · exact ⟨said, h.again hk hm⟩
      · exact h.new hq hi hk hm

/-- A request that asks for a decision again, or for one that is not there, gets the context, the
ledger and the events of the request that asks once for each decision that is there. Its messages
are those of that request, in the order of the keys, and one in its place for each key that stands
for no decision. -/
theorem repeats_unseen (hq : r.host.Quiet) (hi : r.host.IgnoresMessages part) {c : Context}
    (hc : c.frames = []) (ref : Reference) (keys : List String) (w : σ) :
    (r.ask ref c w keys).context = (r.ask ref c w (ref.distinct r.model keys)).context ∧
    (r.ask ref c w keys).ledger = (r.ask ref c w (ref.distinct r.model keys)).ledger ∧
    part (r.ask ref c w keys).world = part (r.ask ref c w (ref.distinct r.model keys)).world ∧
    r.told (ref.selection keys) c w = r.told (ref.selection (ref.distinct r.model keys)) c w ∧
    ∃ said, r.Says ref c w said (ref.distinct r.model keys) ∧
      (r.ask ref c w (ref.distinct r.model keys)).evaluation.messages =
        (ref.distinct r.model keys).flatMap said ∧
      (r.ask ref c w keys).evaluation.messages = ref.inTurn r.model said [] keys := by
  obtain ⟨said, h⟩ := abridged_ask hq hi hc ref w keys
  obtain ⟨hcontext, hledger, -⟩ := Evaluation.eq_of_silent h.silent
  -- The events are part of what the request that keeps its chronicle has in common with the short
  -- one.
  obtain ⟨_, hchronicle⟩ := abridged_ask (r := r.chronicling) hq.chronicling hi.chronicling hc ref
    (w, []) keys
  have htold := congrArg Prod.snd hchronicle.world
  exact ⟨hcontext.symm, hledger.symm, h.world.symm, htold.symm, said, h.saying, h.short, h.long⟩

def marketNames : List String := ["deal", "nope", "offer", "deal", "nope"]

def heardMarket : Request Formula (List Event) :=
  ⟨Formula.market, .telling, true, 2, .alwaysDescend⟩

theorem repeats_unseen_market : Host.telling.Quiet ∧ Host.telling.IgnoresMessages id ∧
    Context.empty.frames = [] ∧
    Reference.name.distinct Formula.market marketNames = ["deal", "offer"] ∧
    (heardMarket.ask .name .empty [] marketNames).ledger =
      (heardMarket.ask .name .empty [] ["deal", "offer"]).ledger ∧
    heardMarket.told (.names marketNames) .empty [] =
      heardMarket.told (.names ["deal", "offer"]) .empty [] ∧
    ∃ deal offer : List Message,
      (heardMarket.ask .name .empty [] ["deal", "offer"]).evaluation.messages = deal ++ offer ∧
      (heardMarket.ask .name .empty [] marketNames).evaluation.messages =
        deal ++ [.of .error (.decisionNotFoundForName "nope") none none] ++ offer ++
          [.of .error (.decisionNotFoundForName "nope") none none] := by
  have hi : Host.telling.IgnoresMessages id :=
    Host.ignoresMessages (f := fun _ g c => g c.bindings) (fun _ _ _ _ => rfl) fun _ _ _ => rfl
  have hd : Reference.name.distinct Formula.market marketNames = ["deal", "offer"] := by decide
  obtain ⟨-, hledger, -, htold, said, -, hshort, hlong⟩ :=
    repeats_unseen (r := heardMarket) (c := .empty) Host.telling_quiet hi rfl .name marketNames []
  have hmarket : heardMarket.model = Formula.market := rfl
  rw [hmarket, hd] at hledger htold hshort
  refine ⟨Host.telling_quiet, hi, rfl, hd, hledger, htold, said "deal", said "offer", ?_, ?_⟩
  · simpa using hshort
  · rw [hlong, hmarket]
    have hturns : Reference.name.inTurn Formula.market said [] marketNames =
        said "deal" ++ ([.of .error (.decisionNotFoundForName "nope") none none] ++
          (said "offer" ++ ([] ++
            ([.of .error (.decisionNotFoundForName "nope") none none] ++ [])))) := rfl
    rw [hturns]
    simp

end keys

theorem run_of_errands {r : Request L σ} {s s' : Selection}
    (h : r.model.errands s' = r.model.errands s) (c : Context) (w : σ) :
    r.run s' c w = r.run s c w ∧ r.told s' c w = r.told s c w := by
  have hrun {ω : Type} {q : Request L ω} (hq : q.model = r.model) (w : ω) :
      q.run s' c w = q.run s c w := by
    rw [run_eq, run_eq, hq, h]
  refine ⟨hrun rfl w, ?_⟩
  unfold told chronicle
  rw [hrun (q := r.chronicling) rfl]

/-- Decisions of the model may be asked for by their names or by their ids, and all of them together
without either. -/
theorem entries_agree {r : Request L σ} (hm : r.model.Built)
    (hids : (r.model.localDecisions.map fun d => d.info.id).Nodup) {ds : List (Node L)}
    (hds : ∀ d ∈ ds, d ∈ r.model.localDecisions) (c : Context) (w : σ) :
    (r.run (.ids (ds.map fun d => d.info.id)) c w =
        r.run (.names (ds.map fun d => d.info.name)) c w ∧
      r.told (.ids (ds.map fun d => d.info.id)) c w =
        r.told (.names (ds.map fun d => d.info.name)) c w) ∧
    (ds = r.model.localDecisions →
      r.run .all c w = r.run (.names (ds.map fun d => d.info.name)) c w ∧
      r.told .all c w = r.told (.names (ds.map fun d => d.info.name)) c w) := by
  have hnames := Reference.errands_keys .name hm.nodup_localDecisions hds
  have hids := Reference.errands_keys .id hids hds
  refine ⟨run_of_errands (hids.trans hnames.symm) c w, fun hall => ?_⟩
  have heach : r.model.errands .all = ds.map .evaluate := by
    rw [hall]
    rfl
  exact run_of_errands (heach.trans hnames.symm) c w

theorem entries_agree_desk : Formula.desk.Built ∧
    Formula.desk.localDecisions = [Formula.early, Formula.late] ∧
    Formula.deskRequest.run (.ids ["2", "1", "2"]) Formula.deskInput () =
      Formula.deskRequest.run (.names ["late", "early", "late"]) Formula.deskInput () ∧
    Formula.deskRequest.run .all Formula.deskInput () =
      Formula.deskRequest.run (.names ["early", "late"]) Formula.deskInput () := by
  have hlocal : Formula.desk.localDecisions = [Formula.early, Formula.late] := rfl
  have hids : (Formula.desk.localDecisions.map fun d => d.info.id).Nodup := by
    rw [hlocal]
    decide
  have hagree {ds : List (Node Formula)} (hds : ∀ d ∈ ds, d ∈ Formula.desk.localDecisions) :=
    entries_agree (r := Formula.deskRequest) Formula.desk_built hids hds Formula.deskInput ()
  have hagain : ∀ d ∈ [Formula.late, Formula.early, Formula.late],
      d ∈ Formula.desk.localDecisions := by simp [hlocal]
  exact ⟨Formula.desk_built, hlocal, (hagree hagain).1.1, ((hagree fun _ hd => hd).2 rfl).1⟩

end Request

end DecisionGraph
