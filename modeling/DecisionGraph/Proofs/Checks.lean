import DecisionGraph.Proofs.Formulas
import DecisionGraph.Proofs.Unmarked

namespace DecisionGraph

variable {L σ : Type}

/-- The diagnostic is about a value that does not fit its type, or about a broken type. -/
def Diagnostic.isType : Diagnostic → Bool
  | .dependencyWrongType .. => true
  | .resultWrongType .. => true
  | .errorCheckingAllowedValues .. => true
  | _ => false

def Message.isType (m : Message) : Bool :=
  m.code == "DependencyWrongType" || m.code == "ResultWrongType" ||
    m.code == "ErrorCheckingAllowedValues"

@[simp] theorem Message.isType_of (severity : Severity) (d : Diagnostic)
    (source cause : Option String) : (Message.of severity d source cause).isType = d.isType := by
  cases d <;> rfl

/-- Nothing outside takes notice of the checks of inputs. -/
def Host.IgnoresChecks (h : Host L σ) : Prop :=
  ∀ n d v e w, h.observe (.examined n d v) e w = w

namespace Request

variable {r : Request L σ} {n d : Node L} {p : Progress σ}

theorem watch_examined (hi : r.host.IgnoresChecks) (n d : Node L) (v : Value) (p : Progress σ) :
    r.watch (.examined n d v) p = p := by
  unfold watch
  rw [hi]

theorem mem_reportUnresolved (n : Node L) (name source : String) (g : Diagnostic)
    (p : Progress σ) : Message.of .error g (some source) none ∈
      (r.reportUnresolved n name source g p).evaluation.messages := by
  unfold reportUnresolved
  split <;> exact List.mem_append_right _ List.mem_cons_self

theorem not_unmarked_of_type {m : Message} (hm : m.isType = true)
    (h : m ∈ p.evaluation.messages) : ¬p.Unmarked Message.isType := fun hp => by
  have hf := hp m h
  rw [hm] at hf
  cases hf

theorem checkInput_lenient (hi : r.host.IgnoresChecks) {name : String}
    (h : (r.checkInput n d name p).2.Unmarked Message.isType) :
    (r.checking false).checkInput n d name p = r.checkInput n d name p := by
  have hoff : (r.checking false).checkInput n d name p = (true, p) :=
    checkInput_of_not fun hc => by cases hc.1
  rw [hoff]
  by_cases hx : r.typeCheck = true ∧ ∃ type, d.role = .input type
  · obtain ⟨ht, type, hr⟩ := hx
    rw [checkInput_of_input ht hr, watch_examined hi] at h ⊢
    cases hc : type.check (r.found n d p) with
    | error e =>
      rw [hc] at h
      exact absurd h (not_unmarked_of_type (m := .of .error (.errorCheckingAllowedValues
        d.info.identifier e.text) (some d.info.id) (some e.text)) (by simp [Diagnostic.isType])
          (List.mem_append_right _ List.mem_cons_self))
    | ok fits =>
      cases fits with
      | true => rfl
      | false =>
        rw [hc] at h
        exact absurd h (not_unmarked_of_type (by simp [Diagnostic.isType])
          (mem_reportUnresolved ..))
  · rw [checkInput_of_not hx]

theorem isType_of_objection? {type : DeclaredType} {v : Value} {m : Message}
    (h : r.objection? n type v = some m) : m.isType = true := by
  unfold objection? at h
  split at h
  · cases h
  · exact Option.some.inj h ▸ rfl
  · exact Option.some.inj h ▸ rfl

theorem bindResult_lenient {type : DeclaredType} {v : Value}
    (h : (r.bindResult n type v p).2.Unmarked Message.isType) :
    (r.checking false).bindResult n type v p = r.bindResult n type v p := by
  have hoff : (r.checking false).objection? n type v = none :=
    objection?_eq_none_iff.mpr fun hc => by cases hc
  rw [bindResult_eq] at h
  rw [bindResult_eq, bindResult_eq, hoff]
  cases hm : r.objection? n type v with
  | none => rfl
  | some m =>
    rw [hm] at h
    exact absurd h (not_unmarked_of_type (isType_of_objection? hm)
      (List.mem_append_right _ List.mem_cons_self))

theorem lenient_of_ignoresChecks (hi : r.host.IgnoresChecks) : r.Lenient Message.isType false :=
  ⟨fun _ _ _ _ h => checkInput_lenient hi h, fun _ _ _ _ h => bindResult_lenient h⟩

/-- If no check has complained, then the request is the same without checks: it ends with the same
context, outcomes and messages, and has told the listeners the same. -/
theorem checks_only_reject (ha : r.host.Appends) (hi : r.host.IgnoresChecks) (s : Selection)
    (c : Context) (w : σ) (h : ∀ m ∈ (r.run s c w).evaluation.messages, m.isType = false) :
    (r.checking false).run s c w = r.run s c w := by
  rw [run_eq] at h
  rw [run_eq, run_eq]
  refine errands_agree (r := r) ha (fun p e he => ?_) (r.model.errands s) h
  cases e with
  | miss d => rfl
  | evaluate n =>
    exact congrArg Prod.snd (visit_agrees (lenient_of_ignoresChecks hi) ha r.maxDepth n p he)

/-- No check complains of the prices. Without checks there are the same four events. -/
theorem checks_only_reject_prices : Host.telling.Appends ∧ Host.telling.IgnoresChecks ∧
    (Request.mk Formula.prices Host.telling false 4 .alwaysDescend).run .all Formula.pricesInput [] =
      (Request.mk Formula.prices Host.telling true 4 .alwaysDescend).run .all
        Formula.pricesInput [] ∧
    ((Request.mk Formula.prices Host.telling true 4 .alwaysDescend).run .all
      Formula.pricesInput []).world.length = 4 := by
  have hi : Host.telling.IgnoresChecks := fun _ _ _ _ _ => rfl
  have hm : ((Request.mk Formula.prices Host.telling true 4 .alwaysDescend).run .all
      Formula.pricesInput []).evaluation.messages = [] := rfl
  refine ⟨Host.telling_quiet.appends, hi, ?_, rfl⟩
  refine checks_only_reject (r := ⟨Formula.prices, Host.telling, true, 4, .alwaysDescend⟩)
    Host.telling_quiet.appends hi .all Formula.pricesInput [] fun m hmem => ?_
  rw [hm] at hmem
  cases hmem

end Request

end DecisionGraph
