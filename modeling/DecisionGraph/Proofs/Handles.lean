import DecisionGraph.Shared

namespace DecisionGraph.Shared

variable {α : Type} {s : Shared α} {handle : String} {family : Nat} {a blank : α}
  {P Q : Nat → α → Prop}

theorem get?_of_find? (h : s.handles.find? handle = some family) :
    s.get? handle = s.states[family]? := by
  rw [get?, h, Option.bind_some]

theorem set_of_find? (h : s.handles.find? handle = some family) (a : α) :
    s.set handle a = ⟨s.handles, s.states.set family a⟩ := by
  rw [set, h]

theorem set_of_find?_eq_none (h : s.handles.find? handle = none) (a : α) : s.set handle a = s := by
  rw [set, h]

theorem handles_set (s : Shared α) (handle : String) (a : α) :
    (s.set handle a).handles = s.handles := by
  unfold set
  split <;> rfl

/-- From `s` to `s'`, the state of the family of the handle becomes `a`, and nothing else changes.
-/
structure Replaces (s s' : Shared α) (handle : String) (a : α) : Prop where
  handles : s'.handles = s.handles
  family : ∀ other, s.handles.find? other = s.handles.find? handle → s'.get? other = some a
  others : ∀ other, s.handles.find? other ≠ s.handles.find? handle → s'.get? other = s.get? other

/-- From `s` to `s'`, `copy` joins the family of the handle, and nothing else changes. -/
structure Joins (s s' : Shared α) (handle copy : String) : Prop where
  family : s'.handles.find? copy = s.handles.find? handle
  get? : s'.get? copy = s.get? handle
  others : ∀ other, other ≠ copy →
    s'.handles.find? other = s.handles.find? other ∧ s'.get? other = s.get? other

theorem replaces_set (h : s.handles.find? handle = some family) (hf : family < s.states.length)
    (a : α) : s.Replaces (s.set handle a) handle a := by
  rw [set_of_find? h]
  refine ⟨rfl, fun other ho => ?_, fun other ho => ?_⟩
  · rw [get?, ho, h, Option.bind_some, List.getElem?_set_self hf]
  · rw [get?, get?]
    cases hother : s.handles.find? other with
    | none => rfl
    | some g =>
      have hne : family ≠ g := fun he => ho (by rw [hother, h, he])
      exact List.getElem?_set_ne hne

theorem joins_share (h : s.handles.find? handle = some family) (copy : String) :
    s.Joins (s.share handle copy) handle copy := by
  rw [share, h]
  refine ⟨?_, ?_, fun other ho => ?_⟩
  · rw [Bindings.find?_insert_self, h]
  · rw [get?, Bindings.find?_insert_self, get?_of_find? h, Option.bind_some]
  · rw [get?, Bindings.find?_insert_of_ne _ _ ho.symm]
    exact ⟨rfl, rfl⟩

/-- Every handle leads to a state, and `P` holds of the state of every family, a family without one
counting as blank. -/
structure Tracks (s : Shared α) (blank : α) (P : Nat → α → Prop) : Prop where
  family : ∀ handle f, s.handles.find? handle = some f → f < s.states.length
  holds : ∀ f, P f (s.states[f]?.getD blank)

namespace Tracks

theorem empty (h : ∀ f, P f blank) : (empty : Shared α).Tracks blank P :=
  ⟨fun _ _ h => (nomatch h), h⟩

theorem get? (h : s.Tracks blank P) (hf : s.handles.find? handle = some family) :
    ∃ a, s.get? handle = some a ∧ P family a := by
  have hget := List.getElem?_eq_getElem (h.family _ _ hf)
  refine ⟨_, (get?_of_find? hf).trans hget, ?_⟩
  simpa only [hget, Option.getD_some] using h.holds family

theorem mono (h : s.Tracks blank P) (hPQ : ∀ f a, P f a → Q f a) : s.Tracks blank Q :=
  ⟨h.family, fun f => hPQ f _ (h.holds f)⟩

theorem set (h : s.Tracks blank P) (hnew : ∀ f, s.handles.find? handle = some f → Q f a)
    (hold : ∀ f b, s.handles.find? handle ≠ some f → P f b → Q f b) :
    (s.set handle a).Tracks blank Q := by
  cases hf : s.handles.find? handle with
  | none =>
    rw [set_of_find?_eq_none hf]
    exact h.mono fun f b => hold f b (by rw [hf]; exact nofun)
  | some f =>
    rw [set_of_find? hf]
    refine ⟨fun other g hg => ?_, fun g => ?_⟩
    · rw [List.length_set]
      exact h.family other g hg
    · by_cases hfg : f = g
      · subst hfg
        rw [List.getElem?_set_self (h.family _ _ hf)]
        exact hnew f hf
      · rw [List.getElem?_set_ne hfg]
        exact hold g _ (by rw [hf]; exact fun he => hfg (Option.some.inj he)) (h.holds g)

theorem share (h : s.Tracks blank P) (handle copy : String) :
    (s.share handle copy).Tracks blank P := by
  rw [Shared.share]
  cases hf : s.handles.find? handle with
  | none => exact h
  | some f =>
    refine ⟨fun other g hg => ?_, h.holds⟩
    rw [Bindings.find?_insert] at hg
    split at hg
    · exact Option.some.inj hg ▸ h.family _ _ hf
    · exact h.family _ _ hg

theorem create (h : s.Tracks blank P) (new : String) : (s.create new blank).Tracks blank P := by
  refine ⟨fun other g hg => ?_, fun g => ?_⟩
  · rw [Shared.create, List.length_append, List.length_singleton]
    rw [Shared.create, Bindings.find?_insert] at hg
    split at hg
    · exact Option.some.inj hg ▸ Nat.lt_succ_self _
    · exact Nat.lt_succ_of_lt (h.family _ _ hg)
  · have hblank : (s.states ++ [blank])[g]?.getD blank = s.states[g]?.getD blank := by
      rw [List.getElem?_append]
      split
      next => rfl
      next hg =>
        rw [List.getElem?_eq_none (l := s.states) (Nat.not_lt.mp hg)]
        cases g - s.states.length <;> rfl
    rw [Shared.create, hblank]
    exact h.holds g

end Tracks

end DecisionGraph.Shared
