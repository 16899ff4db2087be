import DecisionGraph.Ledger
import Mathlib.Tactic.SplitIfs

namespace DecisionGraph.Ledger

/-- Every position of the index holds the outcome whose id is the key. -/
def Indexed (l : Ledger) : Prop :=
  ∀ k i, l.positions.find? k = some i → ∃ o, l.outcomes[i]? = some o ∧ o.id = k

theorem indexed_empty : Indexed empty := by
  intro k i h
  simp [empty, Bindings.find?] at h

def Listed (l : Ledger) : Prop :=
  ∀ i o, l.outcomes[i]? = some o → l.positions.find? o.id = some i

theorem listed_empty : Listed empty := by
  intro i o h
  simp [empty] at h

theorem mem_of_find? {l : Ledger} {k : String} {o : Outcome} (h : l.find? k = some o) :
    o ∈ l.outcomes := by
  obtain ⟨i, -, hi⟩ := Option.bind_eq_some_iff.mp h
  exact List.mem_of_getElem? hi

theorem Listed.find? {l : Ledger} (h : l.Listed) {o : Outcome} (ho : o ∈ l.outcomes) :
    l.find? o.id = some o := by
  obtain ⟨i, hi⟩ := List.mem_iff_getElem?.mp ho
  simp [Ledger.find?, h i o hi, hi]

theorem positions_modify (l : Ledger) (k : String) (f : Outcome → Outcome) :
    (l.modify k f).positions = l.positions := by
  unfold modify
  split <;> rfl

theorem find?_modify {l : Ledger} (hl : l.Indexed) (k key : String) (f : Outcome → Outcome) :
    (l.modify k f).find? key = if k = key then (l.find? key).map f else l.find? key := by
  cases hk : l.positions.find? k with
  | none =>
    have hm : l.modify k f = l := by simp [modify, hk]
    split_ifs with h
    · subst h; simp [hm, find?, hk]
    · rw [hm]
  | some i =>
    have hm : l.modify k f = { l with outcomes := l.outcomes.modify i f } := by simp [modify, hk]
    rw [hm]
    split_ifs with h
    · subst h; simp [find?, hk]
    · cases hj : l.positions.find? key with
      | none => simp [find?, hj]
      | some j =>
        obtain ⟨o, ho, hid⟩ := hl k i hk
        obtain ⟨o', ho', hid'⟩ := hl key j hj
        have hij : i ≠ j := by
          rintro rfl
          rw [ho] at ho'
          exact h (hid.symm.trans ((congrArg Outcome.id (Option.some.inj ho')).trans hid'))
        simp [find?, hj, List.getElem?_modify_ne, hij]

theorem Indexed.modify {l : Ledger} (hl : l.Indexed) (k : String) {f : Outcome → Outcome}
    (hf : ∀ o, (f o).id = o.id) : (l.modify k f).Indexed := by
  intro key j hj
  rw [positions_modify] at hj
  obtain ⟨o, ho, hid⟩ := hl key j hj
  cases hk : l.positions.find? k with
  | none => exact ⟨o, by simpa [Ledger.modify, hk] using ho, hid⟩
  | some i =>
    simp only [Ledger.modify, hk, List.getElem?_modify, ho]
    by_cases hij : i = j
    · exact ⟨f o, by simp [hij], (hf o).trans hid⟩
    · exact ⟨o, by simp [hij], hid⟩

theorem find?_ensure {l : Ledger} (hl : l.Indexed) (k key name : String) :
    (l.ensure k name).find? key =
      if k = key then some ((l.find? key).getD (.new k name)) else l.find? key := by
  cases hk : l.positions.find? k with
  | some i =>
    have he : l.ensure k name = l := by simp [ensure, hk]
    rw [he]
    split_ifs with h
    · subst h
      obtain ⟨o, ho, -⟩ := hl k i hk
      simp [find?, hk, ho]
    · rfl
  | none =>
    have he : l.ensure k name =
        ⟨l.outcomes ++ [.new k name], l.positions.insert k l.outcomes.length⟩ := by
      simp [ensure, hk]
    rw [he]
    split_ifs with h
    · subst h; simp [find?, hk]
    · cases hj : l.positions.find? key with
      | none => simp [find?, Bindings.find?_insert, h, hj]
      | some j =>
        obtain ⟨o, ho, -⟩ := hl key j hj
        have hlt : j < l.outcomes.length := (List.getElem?_eq_some_iff.mp ho).1
        simp [find?, Bindings.find?_insert, h, hj, List.getElem?_append_left hlt]

theorem isSome_find?_ensure {l : Ledger} (hl : l.Indexed) (k name : String) :
    ((l.ensure k name).find? k).isSome := by
  rw [find?_ensure hl, if_pos rfl]
  rfl

theorem ensure_of_isSome {l : Ledger} {k : String} (h : (l.find? k).isSome) (name : String) :
    l.ensure k name = l := by
  unfold ensure
  cases hk : l.positions.find? k with
  | some i => rfl
  | none => simp [find?, hk] at h

theorem Indexed.ensure {l : Ledger} (hl : l.Indexed) (k name : String) :
    (l.ensure k name).Indexed := by
  cases hk : l.positions.find? k with
  | some i => simpa [Ledger.ensure, hk] using hl
  | none =>
    intro key j hj
    simp only [Ledger.ensure, hk, Bindings.find?_insert] at hj ⊢
    split_ifs at hj with h
    · subst h
      obtain rfl := Option.some.inj hj
      exact ⟨.new k name, by simp, rfl⟩
    · obtain ⟨o, ho, hid⟩ := hl key j hj
      have hlt : j < l.outcomes.length := (List.getElem?_eq_some_iff.mp ho).1
      exact ⟨o, by simpa [List.getElem?_append_left hlt] using ho, hid⟩

/-- An outcome that is opened and changed is the only one that changes. -/
theorem find?_modify_ensure_of_ne {l : Ledger} (hl : l.Indexed) {k key : String} (h : k ≠ key)
    (name : String) (f : Outcome → Outcome) :
    ((l.ensure k name).modify k f).find? key = l.find? key := by
  rw [find?_modify (hl.ensure k name), if_neg h, find?_ensure hl, if_neg h]

theorem Indexed.setStatus {l : Ledger} (hl : l.Indexed) (k : String) (s : Status) :
    (l.setStatus k s).Indexed :=
  hl.modify k fun _ => rfl

theorem Listed.modify {l : Ledger} (h : l.Listed) (k : String) {f : Outcome → Outcome}
    (hf : ∀ o, (f o).id = o.id) : (l.modify k f).Listed := by
  intro j o ho
  rw [positions_modify]
  cases hk : l.positions.find? k with
  | none => exact h j o (by simpa [Ledger.modify, hk] using ho)
  | some i =>
    simp only [Ledger.modify, hk, List.getElem?_modify] at ho
    cases hj : l.outcomes[j]? with
    | none => simp [hj] at ho
    | some o' =>
      have hid : o.id = o'.id := by
        by_cases hij : i = j
        · simp only [hj, hij, if_true, Option.map_eq_map, Option.map_some] at ho
          rw [← Option.some.inj ho, hf]
        · simp only [hj, hij, if_false, Option.map_eq_map, Option.map_some] at ho
          rw [← Option.some.inj ho]
      rw [hid]
      exact h j o' hj

theorem Listed.ensure {l : Ledger} (h : l.Listed) (k name : String) :
    (l.ensure k name).Listed := by
  cases hk : l.positions.find? k with
  | some i => simpa [Ledger.ensure, hk] using h
  | none =>
    intro j o ho
    simp only [Ledger.ensure, hk] at ho ⊢
    rw [Bindings.find?_insert]
    rw [List.getElem?_append] at ho
    split_ifs at ho with hj
    · have hp := h j o ho
      have hne : k ≠ o.id := by
        rintro rfl
        rw [hk] at hp
        cases hp
      rwa [if_neg hne]
    · have hj' : j - l.outcomes.length = 0 := by
        have hlt := (List.getElem?_eq_some_iff.mp ho).1
        simpa using hlt
      rw [hj'] at ho
      obtain rfl := Option.some.inj ho
      have hid : k = (Outcome.new k name).id := rfl
      have hlen : l.outcomes.length = j := by omega
      rw [if_pos hid, hlen]

theorem status_of_find? {l : Ledger} {k : String} {o : Outcome} (h : l.find? k = some o) :
    l.status k = o.status := by
  rw [status, h]
  rfl

theorem find?_isSome_of_status {l : Ledger} {k : String} (h : l.status k ≠ .notEvaluated) :
    (l.find? k).isSome := by
  cases hk : l.find? k with
  | none => simp [status, hk] at h
  | some o => rfl

theorem find?_isSome_of_ongoing {l : Ledger} {k : String}
    (h : l.status k = .evaluating ∨ l.status k = .skipped) : (l.find? k).isSome := by
  refine find?_isSome_of_status ?_
  rcases h with h | h <;> rw [h] <;> decide

theorem status_eq_of_find? {l l' : Ledger} {k : String} (h : l'.find? k = l.find? k) :
    l'.status k = l.status k := by
  simp only [status, h]

theorem status_ensure {l : Ledger} (hl : l.Indexed) (k name key : String) :
    (l.ensure k name).status key = l.status key := by
  unfold status
  rw [find?_ensure hl]
  split_ifs with h
  · cases l.find? key <;> rfl
  · rfl

theorem status_modify_self {l : Ledger} (hl : l.Indexed) {k : String} (hk : (l.find? k).isSome)
    {f : Outcome → Outcome} {s : Status} (hf : ∀ o, (f o).status = s) :
    (l.modify k f).status k = s := by
  obtain ⟨o, ho⟩ := Option.isSome_iff_exists.mp hk
  simp [status, find?_modify hl, ho, hf]

theorem status_modify_of_ne {l : Ledger} (hl : l.Indexed) {k key : String} (h : k ≠ key)
    (f : Outcome → Outcome) : (l.modify k f).status key = l.status key :=
  status_eq_of_find? (by rw [find?_modify hl, if_neg h])

theorem status_modify_congr (l : Ledger) {f g : Outcome → Outcome}
    (h : ∀ o, (f o).status = (g o).status) (k key : String) :
    (l.modify k f).status key = (l.modify k g).status key := by
  unfold modify
  cases l.positions.find? k with
  | none => rfl
  | some i =>
    unfold status find?
    cases l.positions.find? key with
    | none => rfl
    | some j =>
      simp only [Option.bind_some, List.getElem?_modify]
      cases l.outcomes[j]? with
      | none => rfl
      | some o => by_cases hij : i = j <;> simp [hij, h]

def result? (l : Ledger) (key : String) : Option Value := (l.find? key).bind Outcome.result

section results

variable {l : Ledger} {k key : String} {f : Outcome → Outcome}

theorem result?_modify_of_ne (hl : l.Indexed) (h : k ≠ key) (f : Outcome → Outcome) :
    (l.modify k f).result? key = l.result? key := by
  rw [result?, find?_modify hl, if_neg h, result?]

theorem result?_modify (hl : l.Indexed) (hf : ∀ o, (f o).result = o.result) (key : String) :
    (l.modify k f).result? key = l.result? key := by
  rw [result?, find?_modify hl]
  split_ifs
  · rw [result?]
    cases l.find? key with
    | none => rfl
    | some o => exact hf o
  · rfl

theorem result?_setStatus (hl : l.Indexed) (k key : String) (s : Status) :
    (l.setStatus k s).result? key = l.result? key :=
  result?_modify (f := fun o => { o with status := s }) hl (fun _ => rfl) key

theorem result?_ensure (hl : l.Indexed) (k name key : String) :
    (l.ensure k name).result? key = l.result? key := by
  rw [result?, find?_ensure hl]
  split_ifs with h
  · subst h
    rw [result?]
    cases l.find? k <;> rfl
  · rfl

theorem result?_succeed (hl : l.Indexed) (hk : (l.find? k).isSome) (v : Value) :
    (l.modify k (·.succeed v)).result? k = some v := by
  obtain ⟨o, ho⟩ := Option.isSome_iff_exists.mp hk
  rw [result?, find?_modify hl, if_pos rfl, ho]
  rfl

end results

theorem mem_outcomes_modify {l : Ledger} {k : String} {f : Outcome → Outcome} {o : Outcome}
    (h : o ∈ (l.modify k f).outcomes) : o ∈ l.outcomes ∨ ∃ o' ∈ l.outcomes, o = f o' := by
  unfold modify at h
  split at h
  next i hi =>
    obtain ⟨j, hj⟩ := List.mem_iff_getElem?.mp h
    rw [List.getElem?_modify] at hj
    cases ho : l.outcomes[j]? with
    | none => simp [ho] at hj
    | some o' =>
      have hm : o' ∈ l.outcomes := List.mem_of_getElem? ho
      by_cases hij : i = j
      · simp only [ho, hij, if_true, Option.map_eq_map, Option.map_some, Option.some.injEq] at hj
        exact .inr ⟨o', hm, hj.symm⟩
      · simp only [ho, hij, if_false, Option.map_eq_map, Option.map_some, Option.some.injEq]
          at hj
        exact .inl (hj ▸ hm)
  next => exact .inl h

theorem mem_outcomes_ensure {l : Ledger} {k name : String} {o : Outcome}
    (h : o ∈ (l.ensure k name).outcomes) : o ∈ l.outcomes ∨ o = .new k name := by
  unfold ensure at h
  split at h
  · exact .inl h
  · exact (List.mem_append.mp h).imp_right List.mem_singleton.mp

/-- What blocks a decision is not changed any more, but for the outcome of the decision that is
itself in progress. -/
def Keeps (own : Option String) (l l' : Ledger) : Prop :=
  ∀ k, own ≠ some k → (l.status k).blocksReentry → l'.find? k = l.find? k

namespace Keeps

variable {own : Option String} {l l' l'' : Ledger} {k : String}

theorem refl (own : Option String) (l : Ledger) : l.Keeps own l := fun _ _ _ => rfl

theorem trans (h : l.Keeps own l') (h' : l'.Keeps own l'') : l.Keeps own l'' := by
  intro k hk hb
  have he := h k hk hb
  have hb' : (l'.status k).blocksReentry := by rwa [status_eq_of_find? he]
  exact (h' k hk hb').trans he

theorem of_none (h : l.Keeps none l') : l.Keeps own l' := fun k _ => h k (by simp)

theorem modify (h : l.Keeps (some k) l') (hl : l'.Indexed) (f : Outcome → Outcome) :
    l.Keeps (some k) (l'.modify k f) := by
  intro key hk hb
  rw [find?_modify hl, if_neg fun he => hk (congrArg some he)]
  exact h key hk hb

theorem ensure (h : l.Keeps (some k) l') (hl : l'.Indexed) (name : String) :
    l.Keeps (some k) (l'.ensure k name) := by
  intro key hk hb
  rw [find?_ensure hl, if_neg fun he => hk (congrArg some he)]
  exact h key hk hb

/-- The exception is none if its own outcome did not block. -/
theorem close (h : l.Keeps (some k) l') (hk : (l.status k).blocksReentry = false) :
    l.Keeps none l' := by
  intro key _ hb
  refine h key ?_ hb
  rintro ⟨⟩
  exact Bool.false_ne_true (hk.symm.trans hb)

end Keeps

end DecisionGraph.Ledger
