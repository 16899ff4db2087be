import DecisionGraph.ValueType

namespace DecisionGraph

def Value.isList : Value → Bool
  | list _ => true
  | _ => false

namespace ValueType

variable {t element base : ValueType} {allowed : List Value} {v : Value}

/-- Every constraint in the type, at any depth, allows only values that its base type accepts. -/
def WellFormed : ValueType → Prop
  | collection element => element.WellFormed
  | constrained base allowed => base.WellFormed ∧ ∀ v ∈ allowed, base.check v = .ok true
  | _ => True

theorem checkAllowed_eq_ok_iff {typeName baseName : String} {check : Value → Except TypeError Bool}
    {vs : List Value} :
    checkAllowed typeName baseName check vs = .ok () ↔ ∀ v ∈ vs, check v = .ok true := by
  induction vs with
  | nil => simp [checkAllowed]
  | cons v vs ih =>
    rw [List.forall_mem_cons, ← ih, checkAllowed]
    split <;> simp_all

theorem exists_of_checkAllowed_eq_error {typeName baseName : String}
    {check : Value → Except TypeError Bool} {vs : List Value} {e : TypeError}
    (h : checkAllowed typeName baseName check vs = .error e) :
    ∃ v ∈ vs, check v = .error e ∨ check v = .ok false ∧
      e = ⟨typeName, "allowed value '" ++ v.display ++ "' is not a " ++ baseName⟩ := by
  induction vs with
  | nil => cases h
  | cons v vs ih =>
    rw [checkAllowed] at h
    split at h
    next =>
      obtain ⟨w, hw, he⟩ := ih h
      exact ⟨w, List.mem_cons_of_mem _ hw, he⟩
    next hv => exact ⟨v, List.mem_cons_self, .inr ⟨hv, (Except.error.inj h).symm⟩⟩
    next hv => exact ⟨v, List.mem_cons_self, .inl (Except.error.inj h ▸ hv)⟩

theorem exists_of_checkItems_eq_error {check : Value → Except TypeError Bool} {vs : List Value}
    {e : TypeError} (h : checkItems check vs = .error e) : ∃ v, check v = .error e := by
  induction vs with
  | nil => cases h
  | cons v vs ih =>
    rw [checkItems] at h
    split at h
    · exact ih h
    · exact ⟨v, h⟩

theorem check_of_isNull (t : ValueType) (hv : v.isNull = true) : t.check v = .ok true := by
  unfold check
  rw [if_pos hv]

theorem check_list (element : ValueType) (items : List Value) :
    (collection element).check (.list items) = checkItems element.check items := rfl

theorem check_collection_of_not_list (hv : v.isList = false) :
    (collection element).check v = element.check v := by
  cases v with
  | list items => cases hv
  | null => rw [check_of_isNull _ rfl, check_of_isNull _ rfl]
  | _ => rfl

theorem check_constrained (base : ValueType) (allowed : List Value) (hv : v.isNull = false) :
    (constrained base allowed).check v =
      (checkAllowed (constrained base allowed).name base.name base.check allowed).bind fun _ =>
        (base.check v).map fun fits => fits && allowed.any (·.agrees v) := by
  rw [check, hv]
  cases checkAllowed (constrained base allowed).name base.name base.check allowed with
  | error e => rfl
  | ok _ =>
    cases base.check v with
    | error e => rfl
    | ok fits => cases fits <;> rfl

/-- The type itself and the types that it is made of. -/
def parts : ValueType → List ValueType
  | collection element => collection element :: element.parts
  | constrained base allowed => constrained base allowed :: base.parts
  | t => [t]

/-- The error is about a constraint in the type and a value that it allows against its base type. -/
def Blames (t : ValueType) (e : TypeError) : Prop :=
  ∃ base allowed, constrained base allowed ∈ t.parts ∧ ∃ v ∈ allowed, base.check v = .ok false ∧
    e = ⟨(constrained base allowed).name, "allowed value '" ++ v.display ++ "' is not a " ++ base.name⟩

theorem WellFormed.of_mem_parts (h : t.WellFormed) {s : ValueType} (hs : s ∈ t.parts) :
    s.WellFormed := by
  induction t with
  | collection element ih =>
    rcases List.mem_cons.mp hs with rfl | hs
    · exact h
    · exact ih h hs
  | constrained base allowed ih =>
    rcases List.mem_cons.mp hs with rfl | hs
    · exact h
    · exact ih h.1 hs
  | _ => exact List.mem_singleton.mp hs ▸ h

theorem not_blames_of_wellFormed (h : t.WellFormed) (e : TypeError) : ¬t.Blames e := by
  rintro ⟨base, allowed, hs, v, hv, hbad, -⟩
  cases hbad.symm.trans ((h.of_mem_parts hs).2 v hv)

theorem Blames.collection {e : TypeError} (h : element.Blames e) :
    (collection element).Blames e := by
  obtain ⟨base, allowed, hs, hbad⟩ := h
  exact ⟨base, allowed, List.mem_cons_of_mem _ hs, hbad⟩

theorem Blames.constrained {e : TypeError} (h : base.Blames e) (allowed : List Value) :
    (constrained base allowed).Blames e := by
  obtain ⟨base', allowed', hs, hbad⟩ := h
  exact ⟨base', allowed', List.mem_cons_of_mem _ hs, hbad⟩

theorem exists_of_check_collection_eq_error {e : TypeError}
    (h : (collection element).check v = .error e) : ∃ w, element.check w = .error e := by
  cases hl : v.isList with
  | false => exact ⟨v, check_collection_of_not_list hl ▸ h⟩
  | true =>
    cases v with
    | list items => exact exists_of_checkItems_eq_error h
    | _ => cases hl

theorem exists_of_check_constrained_eq_error {e : TypeError}
    (h : (constrained base allowed).check v = .error e) :
    (∃ w, base.check w = .error e) ∨ ∃ w ∈ allowed, base.check w = .ok false ∧
      e = ⟨(constrained base allowed).name,
        "allowed value '" ++ w.display ++ "' is not a " ++ base.name⟩ := by
  cases hn : v.isNull with
  | true => cases (check_of_isNull _ hn).symm.trans h
  | false =>
    rw [check_constrained base allowed hn] at h
    cases hc : checkAllowed (constrained base allowed).name base.name base.check allowed with
    | error e' =>
      rw [hc] at h
      obtain rfl := Except.error.inj h
      obtain ⟨w, hw, herr | hbad⟩ := exists_of_checkAllowed_eq_error hc
      · exact .inl ⟨w, herr⟩
      · exact .inr ⟨w, hw, hbad⟩
    | ok _ =>
      rw [hc] at h
      cases hv : base.check v with
      | error e' =>
        rw [hv] at h
        exact .inl ⟨v, hv.trans h⟩
      | ok fits =>
        rw [hv] at h
        cases h

theorem blames_of_check_eq_error {e : TypeError} (h : t.check v = .error e) : t.Blames e := by
  induction t generalizing v with
  | collection element ih =>
    obtain ⟨w, hw⟩ := exists_of_check_collection_eq_error h
    exact (ih hw).collection
  | constrained base allowed ih =>
    rcases exists_of_check_constrained_eq_error h with ⟨w, hw⟩ | ⟨w, hw, hbad⟩
    · exact (ih hw).constrained allowed
    · exact ⟨base, allowed, List.mem_cons_self, w, hw, hbad⟩
  | _ =>
    rw [check] at h
    split at h <;> cases h

theorem exists_check_eq_ok (h : t.WellFormed) (v : Value) : ∃ fits, t.check v = .ok fits := by
  cases hv : t.check v with
  | ok fits => exact ⟨fits, rfl⟩
  | error e => exact absurd (blames_of_check_eq_error hv) (not_blames_of_wellFormed h e)

/-- What is wrong with a type shows with every value that is neither null nor a list: all checks
that could come to an end before it are those of null and of the empty list. -/
theorem exists_check_eq_error (h : ¬t.WellFormed) (hn : v.isNull = false) (hl : v.isList = false) :
    ∃ e, t.check v = .error e := by
  induction t with
  | collection element ih =>
    rw [check_collection_of_not_list hl]
    exact ih h
  | constrained base allowed ih =>
    rw [check_constrained base allowed hn]
    cases hc : checkAllowed (constrained base allowed).name base.name base.check allowed with
    | error e => exact ⟨e, rfl⟩
    | ok _ =>
      obtain ⟨e, he⟩ := ih fun hb => h ⟨hb, checkAllowed_eq_ok_iff.mp hc⟩
      rw [he]
      exact ⟨e, rfl⟩
  | _ => exact absurd trivial h

theorem wellFormed_iff (hn : v.isNull = false) (hl : v.isList = false) :
    t.WellFormed ↔ ∃ fits, t.check v = .ok fits := by
  refine ⟨fun h => exists_check_eq_ok h v, fun ⟨fits, hv⟩ => Classical.byContradiction fun h => ?_⟩
  obtain ⟨e, he⟩ := exists_check_eq_error h hn hl
  rw [he] at hv
  cases hv

instance : DecidablePred WellFormed := fun t =>
  match h : t.check (.boolean true) with
  | .ok fits => .isTrue ((wellFormed_iff rfl rfl).mpr ⟨fits, h⟩)
  | .error _ => .isFalse fun ht => by
    obtain ⟨_, hok⟩ := exists_check_eq_ok ht (.boolean true)
    cases h.symm.trans hok

/-- A check errs exactly on malformed types, null and lists apart, and its error says where the type
is malformed. -/
theorem check_errs_of_malformed (t : ValueType) :
    (t.WellFormed → ∀ v, ∃ fits, t.check v = .ok fits) ∧
      (¬t.WellFormed → ∀ v, v.isNull = false → v.isList = false →
        ∃ e, t.check v = .error e ∧ t.Blames e) ∧
      ∀ v, v.isNull = false → v.isList = false →
        (t.WellFormed ↔ ∃ fits, t.check v = .ok fits) := by
  refine ⟨exists_check_eq_ok, fun h v hn hl => ?_, fun _ => wellFormed_iff⟩
  obtain ⟨e, he⟩ := exists_check_eq_error h hn hl
  exact ⟨e, he, blames_of_check_eq_error he⟩

/-- A list of such numbers has nothing to err on if it is empty. -/
theorem check_errs_of_malformed_one :
    (¬(collection (constrained number [.string "one"])).WellFormed ∧
      (∃ e, (collection (constrained number [.string "one"])).check (.integer 1) = .error e ∧
        (collection (constrained number [.string "one"])).Blames e) ∧
      (collection (constrained number [.string "one"])).check (.list []) = .ok true) ∧
    (constrained string [.string "A"]).WellFormed ∧
    ∃ fits, (constrained string [.string "A"]).check (.list [.string "A"]) = .ok fits := by
  have hone : ¬(collection (constrained number [.string "one"])).WellFormed := by decide
  have hgrade : (constrained string [.string "A"]).WellFormed := by decide
  exact ⟨⟨hone, (check_errs_of_malformed _).2.1 hone (.integer 1) rfl rfl, rfl⟩,
    hgrade, (check_errs_of_malformed _).1 hgrade _⟩

end ValueType

end DecisionGraph
