import DecisionGraph.Proofs.Formulas
import DecisionGraph.Proofs.Ledger
import DecisionGraph.Proofs.TypeChecks

namespace DecisionGraph

namespace ValueType

variable {t : ValueType} {x v : Value}

def verdict (t : ValueType) (v : Value) : Except TypeError Bool := t.check (t.declared.unwrap v)

/-- The type of the items of a collection; any other type stands for itself. -/
def element : ValueType → ValueType
  | collection element => element
  | constrained base allowed => if base.isCollection then base.element else constrained base allowed
  | t => t

/-- The allowed values of the constraints that stand on a collection. -/
def narrowings : ValueType → List (List Value)
  | constrained base allowed => if base.isCollection then allowed :: base.narrowings else []
  | _ => []

/-- What a check says of the constraints that stand on a collection, whatever the value. -/
def checkNarrowings : ValueType → Except TypeError Unit
  | constrained base allowed =>
    if base.isCollection then
      (checkAllowed (constrained base allowed).name base.name base.check allowed).bind fun _ =>
        base.checkNarrowings
    else .ok ()
  | _ => .ok ()

/-- Every constraint that stands on a collection allows the value as it is. -/
def passes (t : ValueType) (v : Value) : Bool :=
  t.narrowings.all fun allowed => allowed.any (·.agrees v)

theorem verdict_of_collection (h : t.isCollection = true) (v : Value) : t.verdict v = t.check v := by
  unfold verdict DeclaredType.unwrap
  split
  next x => exact congrArg t.check (if_pos h)
  next => rfl

/-- The two answers that stand for `x`, null apart, which is checked on its own. -/
def StandsFor (v x : Value) : Prop := v = .list [x] ∨ v = x ∧ x.isNull = false

theorem StandsFor.isNull (h : StandsFor v x) : v.isNull = false := by
  obtain rfl | ⟨rfl, h⟩ := h
  · rfl
  · exact h

theorem verdict_of_scalar (h : t.isCollection = false) (hx : x.isList = false)
    (hv : v = .list [x] ∨ v = x) : t.verdict v = t.check x := by
  rcases hv with rfl | rfl
  · exact congrArg t.check (if_neg (Bool.eq_false_iff.mp h))
  · unfold verdict DeclaredType.unwrap
    cases v with
    | list items => cases hx
    | _ => rfl

theorem checkItems_singleton (check : Value → Except TypeError Bool) (x : Value) :
    checkItems check [x] = check x := by
  rw [checkItems]
  split
  next h => exact h.symm
  next => rfl

theorem element_of_scalar (h : t.isCollection = false) : t.element = t ∧ t.narrowings = [] := by
  cases t with
  | collection element => cases h
  | constrained base allowed =>
    have hb : ¬base.isCollection = true := Bool.eq_false_iff.mp h
    exact ⟨if_neg hb, if_neg hb⟩
  | _ => exact ⟨rfl, rfl⟩

theorem checkNarrowings_of_nil (h : t.narrowings = []) : t.checkNarrowings = .ok () := by
  cases t with
  | constrained base allowed =>
    cases hb : base.isCollection with
    | true => simp [narrowings, hb] at h
    | false => exact if_neg (Bool.eq_false_iff.mp hb)
  | _ => rfl

theorem passes_of_nil (h : t.narrowings = []) (v : Value) : t.passes v = true := by
  rw [passes, h, List.all_nil]

theorem map_and_true (fits : Except TypeError Bool) : fits.map (fun b => b && true) = fits := by
  cases fits <;> simp [Except.map]

/-- A collection checks the item, and its constraints the answer as it is. -/
theorem check_of_collection (h : t.isCollection = true) (hx : x.isList = false)
    (hv : StandsFor v x) : t.check v =
      t.checkNarrowings.bind fun _ => (t.element.check x).map fun fits => fits && t.passes v := by
  induction t with
  | collection element =>
    have hitem : (collection element).check v = element.check x := by
      obtain rfl | ⟨rfl, -⟩ := hv
      · rw [check_list, checkItems_singleton]
      · exact check_collection_of_not_list hx
    exact hitem.trans (map_and_true (element.check x)).symm
  | constrained base allowed ih =>
    have hb : base.isCollection = true := h
    have hpasses : (constrained base allowed).passes v =
        (allowed.any (·.agrees v) && base.passes v) := by
      rw [passes, narrowings, if_pos hb]
      rfl
    rw [check_constrained base allowed hv.isNull, ih hb, checkNarrowings, if_pos hb, element,
      if_pos hb, hpasses]
    cases checkAllowed (constrained base allowed).name base.name base.check allowed with
    | error e => rfl
    | ok _ =>
      cases base.checkNarrowings with
      | error e => rfl
      | ok _ =>
        cases base.element.check x with
        | error e => rfl
        | ok fits => simp [Except.bind, Except.map, Bool.and_assoc, Bool.and_comm]
  | _ => cases h

theorem verdict_eq (t : ValueType) (hx : x.isList = false) (hv : StandsFor v x) : t.verdict v =
    t.checkNarrowings.bind fun _ => (t.element.check x).map fun fits => fits && t.passes v := by
  cases h : t.isCollection with
  | true => rw [verdict_of_collection h, check_of_collection h hx hv]
  | false =>
    obtain ⟨helement, hnone⟩ := element_of_scalar h
    rw [verdict_of_scalar h hx (hv.imp_right And.left), checkNarrowings_of_nil hnone,
      passes_of_nil hnone, helement]
    exact (map_and_true (t.check x)).symm

theorem verdict_eq_iff (t : ValueType) (hx : x.isList = false) (hn : x.isNull = false) :
    t.verdict x = t.verdict (.list [x]) ↔ (t.checkNarrowings = .ok () →
      t.element.check x = .ok true → t.passes x = t.passes (.list [x])) := by
  rw [verdict_eq t hx (.inr ⟨rfl, hn⟩), verdict_eq t hx (.inl rfl)]
  cases t.checkNarrowings with
  | error e => simp [Except.bind]
  | ok _ =>
    cases t.element.check x with
    | error e => simp [Except.bind, Except.map]
    | ok fits => cases fits <;> simp [Except.bind, Except.map]

theorem verdict_null_eq_iff (t : ValueType) : t.verdict .null = t.verdict (.list [.null]) ↔
    t.checkNarrowings = .ok () ∧ t.passes (.list [.null]) = true := by
  have hnull : t.verdict .null = .ok true := check_of_isNull t rfl
  rw [hnull, verdict_eq t rfl (.inl rfl), check_of_isNull _ rfl]
  cases t.checkNarrowings with
  | error e => simp [Except.bind]
  | ok _ => exact ⟨fun h => ⟨rfl, (Except.ok.inj h).symm⟩, fun h => congrArg Except.ok h.2.symm⟩

end ValueType

namespace Request

variable {L σ α : Type} {r : Request L σ} {n : Node L} {type : DeclaredType} {v w : Value}

/-- The same answer, and the same status of every decision. -/
def EndsAlike (a b : α × Progress σ) : Prop :=
  a.1 = b.1 ∧ ∀ key, a.2.ledger.status key = b.2.ledger.status key

theorem EndsAlike.refl (a : α × Progress σ) : EndsAlike a a := ⟨rfl, fun _ => rfl⟩

theorem bindResult_endsAlike (h : r.objection? n type v = none ↔ r.objection? n type w = none)
    (p : Progress σ) : EndsAlike (r.bindResult n type v p) (r.bindResult n type w p) := by
  rw [bindResult_eq, bindResult_eq]
  cases hv : r.objection? n type v with
  | none =>
    rw [h.mp hv]
    exact ⟨rfl, p.ledger.status_modify_congr (fun o => by rfl) (r.key n)⟩
  | some m =>
    obtain ⟨m', hw⟩ : ∃ m', r.objection? n type w = some m' :=
      Option.ne_none_iff_exists'.mp fun hw => by simp [h.mpr hw] at hv
    rw [hw]
    exact ⟨rfl, p.ledger.status_modify_congr (fun o => by rfl) (r.key n)⟩

theorem announced_endsAlike {before : Event} {after : Ledger → Event}
    {run run' : Progress σ → Bool × Progress σ} (h : ∀ q, EndsAlike (run q) (run' q))
    (p : Progress σ) :
    EndsAlike (r.announced before after run p) (r.announced before after run' p) := by
  rw [announced_eq, announced_eq]
  split
  · exact h _
  · exact h p

/-- The logic answers `v` wherever it is asked, and `f` is what it does besides. -/
def Answers (r : Request L σ) (logic : L) (v : Value) (f : Evaluation → σ → Evaluation × σ) : Prop :=
  ∀ e w, r.host.answer r.model logic e w = (.ok (.success v), f e w)

section visits

variable {a b : L} {f : Evaluation → σ → Evaluation × σ} {inner : Visit L σ}

theorem callLogic_of_answers (ha : r.Answers a v f) (n : Node L) (p : Progress σ) :
    r.callLogic n a p = (.ok (.success v),
      ⟨(f p.evaluation (r.watch (.calling n) p).world).1,
        (f p.evaluation (r.watch (.calling n) p).world).2⟩) :=
  congrArg (fun x => (x.1, Progress.mk x.2.1 x.2.2))
    (ha p.evaluation (r.watch (.calling n) p).world)

variable (ha : r.Answers a v f) (hb : r.Answers b w f)
  (h : r.objection? n type v = none ↔ r.objection? n type w = none)
include ha hb h

theorem runDecision_endsAlike (p : Progress σ) : EndsAlike
    (r.runDecision inner n type (some a) p) (r.runDecision inner n type (some b) p) := by
  unfold runDecision
  dsimp only
  split
  · exact EndsAlike.refl _
  · rw [callLogic_of_answers ha, callLogic_of_answers hb]
    exact bindResult_endsAlike h _

theorem visitDecision_endsAlike (inner : Option (Visit L σ)) (p : Progress σ) : EndsAlike
    (r.visitDecision inner n type (some a) p) (r.visitDecision inner n type (some b) p) := by
  unfold visitDecision
  dsimp only
  split
  · exact EndsAlike.refl _
  split
  · exact EndsAlike.refl _
  cases inner with
  | none => exact EndsAlike.refl _
  | some inner =>
    let q := r.watch (.entered n) ((p.update (·.onLedger (·.ensure (r.key n) n.info.name))).update
      (·.onLedger (·.setStatus (r.key n) .evaluating)))
    obtain ⟨hok, hstatus⟩ : EndsAlike (r.decide inner n type (some a) q)
        (r.decide inner n type (some b) q) := by
      refine announced_endsAlike (fun q => ?_) q
      exact runDecision_endsAlike ha hb h q
    exact ⟨congrArg Resolution.ofDecision hok, hstatus⟩

end visits

end Request

namespace Formula

def constant (v : Value) : Formula := fun _ => .ok (.success v)

def label : ValueType := .constrained (.collection .string) [.list [.string "new"]]

def labelList : ValueType := .collection (.constrained .string [.string "new"])

def plain : Node Formula :=
  ⟨⟨"1", "plain", "urn:labels", "labels", .nil, .empty⟩,
    .decision label.declared (some (constant (.string "new")))⟩

def listed : Node Formula :=
  ⟨⟨"2", "listed", "urn:labels", "labels", .nil, .empty⟩,
    .decision label.declared (some (constant (.list [.string "new"])))⟩

def labels : Model Formula where
  id := "labels"
  ns := "urn:labels"
  name := "labels"
  typeCheck := true
  nodes := #[plain, listed]
  imports := .empty

def labelsRequest : Request Formula Unit := ⟨labels, .functions, true, 2, .alwaysDescend⟩

theorem labels_built : labels.Built :=
  ⟨((((Builder.new "urn:labels" "labels").setTypeCheck true).addNode "1" "plain"
      plain.role).2.addNode "2" "listed" listed.role).2, "labels",
    .addNode _ _ _ (.addNode _ _ _ (.setTypeCheck _ (.new _ _))), Builder.build_eq rfl "labels"⟩

end Formula

namespace ValueType

open Request in
/-- A value and the list of it get the same verdict unless a constraint on a collection tells them
apart, and a decision ends alike with both if both are accepted or neither is. -/
theorem singletons_agree (t : ValueType) {x : Value} (hx : x.isList = false) :
    (x.isNull = false → (t.verdict x = t.verdict (.list [x]) ↔ (t.checkNarrowings = .ok () →
      t.element.check x = .ok true → t.passes x = t.passes (.list [x])))) ∧
    (x = .null → (t.verdict x = t.verdict (.list [x]) ↔
      t.checkNarrowings = .ok () ∧ t.passes (.list [x]) = true)) ∧
    (t.narrowings = [] → t.verdict x = t.verdict (.list [x])) ∧
    ((t.verdict x = .ok true ↔ t.verdict (.list [x]) = .ok true) →
      ∀ {L σ : Type} {r : Request L σ} {a b : L} {f : Evaluation → σ → Evaluation × σ},
        r.typeCheck = true → r.Answers a x f → r.Answers b (.list [x]) f →
        ∀ (n : Node L) (inner : Option (Visit L σ)) (p : Progress σ),
          EndsAlike (r.visitDecision inner n t.declared (some a) p)
            (r.visitDecision inner n t.declared (some b) p)) := by
  refine ⟨verdict_eq_iff t hx, ?_, fun h => ?_, fun h _ _ _ _ _ _ ht ha hb n inner p => ?_⟩
  · rintro rfl
    exact verdict_null_eq_iff t
  · cases hn : x.isNull with
    | true =>
      cases x with
      | null => exact (verdict_null_eq_iff t).mpr ⟨checkNarrowings_of_nil h, passes_of_nil h _⟩
      | _ => cases hn
    | false =>
      refine (verdict_eq_iff t hx hn).mpr fun _ _ => ?_
      rw [passes_of_nil h, passes_of_nil h]
  · refine visitDecision_endsAlike ha hb ?_ inner p
    rw [objection?_eq_none_iff, objection?_eq_none_iff]
    exact imp_congr_right fun _ => h

/-- The label and the list of it are told apart where there may be one list only, but not where
there may be any list of the one label. -/
theorem singletons_agree_labels : (Value.string "new").isList = false ∧
    Formula.label.verdict (.string "new") ≠ Formula.label.verdict (.list [.string "new"]) ∧
    Formula.labelList.narrowings = [] ∧
    Formula.labelList.verdict (.string "new") = Formula.labelList.verdict (.list [.string "new"]) ∧
    Request.EndsAlike
      (Formula.labelsRequest.visitDecision (some (Formula.labelsRequest.visit 1)) Formula.plain
        Formula.labelList.declared (some (Formula.constant (.string "new")))
        (Formula.labelsRequest.start .empty ()))
      (Formula.labelsRequest.visitDecision (some (Formula.labelsRequest.visit 1)) Formula.plain
        Formula.labelList.declared (some (Formula.constant (.list [.string "new"])))
        (Formula.labelsRequest.start .empty ())) := by
  have hx : (Value.string "new").isList = false := rfl
  obtain ⟨happart, -⟩ := singletons_agree Formula.label hx
  obtain ⟨-, -, hnone, hends⟩ := singletons_agree Formula.labelList hx
  have hpasses : Formula.label.passes (.string "new") ≠
      Formula.label.passes (.list [.string "new"]) := by decide
  have hlist : Formula.labelList.narrowings = [] := rfl
  have hsame := hnone hlist
  exact ⟨hx, fun h => hpasses ((happart rfl).mp h rfl rfl), hlist, hsame,
    hends (by rw [hsame]) (f := Prod.mk) rfl (fun _ _ => rfl) (fun _ _ => rfl) _ _ _⟩

/-- A constraint on a collection tells a value and the list of it apart. -/
theorem singletons_told_apart : Formula.labels.Built ∧ Host.functions.Quiet ∧
    ¬(∀ (t : ValueType) (x : Value), x.isList = false → t.verdict x = t.verdict (.list [x])) ∧
    (Formula.labelsRequest.run .all .empty ()).ledger.status "1" = .failed ∧
    (Formula.labelsRequest.run .all .empty ()).ledger.status "2" = .succeeded := by
  refine ⟨Formula.labels_built, Host.functions_quiet, fun h => ?_, rfl, rfl⟩
  have hplain : Formula.label.verdict (.string "new") = .ok false := rfl
  have hlisted : Formula.label.verdict (.list [.string "new"]) = .ok true := rfl
  cases hplain.symm.trans ((h Formula.label (.string "new") rfl).trans hlisted)

end ValueType

end DecisionGraph
