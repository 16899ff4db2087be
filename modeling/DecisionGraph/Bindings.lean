namespace DecisionGraph

inductive Bindings (α : Type) where
  | nil
  | cons (name : String) (value : α) (rest : Bindings α)

namespace Bindings

variable {α β : Type}

instance : Inhabited (Bindings α) := ⟨nil⟩

def toList : Bindings α → List (String × α)
  | nil => []
  | cons n v r => (n, v) :: r.toList

def names (b : Bindings α) : List String := b.toList.map Prod.fst

def values (b : Bindings α) : List α := b.toList.map Prod.snd

def size (b : Bindings α) : Nat := b.toList.length

def find? : Bindings α → String → Option α
  | nil, _ => none
  | cons n v r, name => if n = name then some v else r.find? name

def contains (b : Bindings α) (name : String) : Bool := (b.find? name).isSome

def insert : Bindings α → String → α → Bindings α
  | nil, name, value => cons name value nil
  | cons n v r, name, value =>
    if n = name then cons name value r
    else if name < n then cons name value (cons n v r)
    else cons n v (r.insert name value)

def erase : Bindings α → String → Bindings α
  | nil, _ => nil
  | cons n v r, name => if n = name then r else cons n v (r.erase name)

def map (f : α → β) : Bindings α → Bindings β
  | nil => nil
  | cons n v r => cons n (f v) (r.map f)

/-- A later entry of a name replaces an earlier one. -/
def ofList (entries : List (String × α)) : Bindings α :=
  entries.foldl (fun b e => b.insert e.1 e.2) nil

/-- The names ascend strictly, so that each occurs once. -/
def Sorted (b : Bindings α) : Prop := b.names.Pairwise (· < ·)

@[simp] theorem find?_insert_self (b : Bindings α) (n : String) (v : α) :
    (b.insert n v).find? n = some v := by
  induction b with
  | nil => simp [insert, find?]
  | cons m w r ih =>
    by_cases h : m = n
    · simp [insert, find?, h]
    · by_cases hl : n < m <;> simp [insert, find?, h, hl, ih]

theorem find?_insert_of_ne (b : Bindings α) {n k : String} (v : α) (h : n ≠ k) :
    (b.insert n v).find? k = b.find? k := by
  induction b with
  | nil => simp [insert, find?, h]
  | cons m w r ih =>
    by_cases hm : m = n
    · subst hm; simp [insert, find?, h]
    · by_cases hl : n < m
      · simp [insert, find?, hm, hl, h]
      · simp [insert, find?, hm, hl, ih]

theorem find?_insert (b : Bindings α) (n k : String) (v : α) :
    (b.insert n v).find? k = if n = k then some v else b.find? k := by
  by_cases h : n = k
  · subst h; simp
  · simp [h, find?_insert_of_ne b v h]

@[simp] theorem toList_map (f : α → β) (b : Bindings α) :
    (b.map f).toList = b.toList.map fun e => (e.1, f e.2) := by
  induction b with
  | nil => rfl
  | cons m w r ih => simp [map, toList, ih]

theorem mem_toList_insert {b : Bindings α} {n : String} {v : α} {e : String × α}
    (h : e ∈ (b.insert n v).toList) : e = (n, v) ∨ e ∈ b.toList := by
  induction b with
  | nil => simpa [insert, toList] using h
  | cons m w r ih =>
    by_cases hm : m = n
    · rw [insert, if_pos hm] at h
      rcases List.mem_cons.mp h with he | he
      · exact .inl he
      · exact .inr (List.mem_cons_of_mem _ he)
    · by_cases hl : n < m
      · rw [insert, if_neg hm, if_pos hl] at h
        exact List.mem_cons.mp h
      · rw [insert, if_neg hm, if_neg hl] at h
        rcases List.mem_cons.mp h with he | he
        · exact .inr (he ▸ List.mem_cons_self)
        · exact (ih he).imp_right (List.mem_cons_of_mem _)

theorem mem_of_find?_ofList {l : List (String × α)} {n : String} {v : α}
    (h : (ofList l).find? n = some v) : (n, v) ∈ l := by
  have hfold : ∀ (l : List (String × α)) (b : Bindings α),
      (l.foldl (fun b e => b.insert e.1 e.2) b).find? n = some v →
        (n, v) ∈ l ∨ b.find? n = some v := by
    intro l
    induction l with
    | nil => exact fun b h => .inr h
    | cons e l ih =>
      intro b h
      rcases ih _ h with h | h
      · exact .inl (List.mem_cons_of_mem _ h)
      · rw [find?_insert] at h
        split at h
        next he =>
          obtain rfl := Option.some.inj h
          exact .inl (by simp [← he])
        next => exact .inr h
  exact (hfold l nil h).resolve_right nofun

theorem exists_find?_ofList {l : List (String × α)} {n : String} {v : α} (h : (n, v) ∈ l) :
    ∃ w, (n, w) ∈ l ∧ (ofList l).find? n = some w := by
  have hfold : ∀ (l : List (String × α)) (b : Bindings α), (n, v) ∈ l ∨ (b.find? n).isSome →
      ((l.foldl (fun b e => b.insert e.1 e.2) b).find? n).isSome := by
    intro l
    induction l with
    | nil => exact fun b h => h.resolve_left List.not_mem_nil
    | cons e l ih =>
      intro b h
      refine ih _ ?_
      rw [find?_insert]
      rcases h with h | h
      · rcases List.mem_cons.mp h with rfl | h
        · exact .inr (by simp)
        · exact .inl h
      · exact .inr (by split <;> simp [h])
  obtain ⟨w, hw⟩ := Option.isSome_iff_exists.mp (hfold l nil (.inl h))
  exact ⟨w, mem_of_find?_ofList hw, hw⟩

theorem Sorted.insert {b : Bindings α} (h : b.Sorted) (n : String) (v : α) :
    (b.insert n v).Sorted := by
  unfold Sorted names at h ⊢
  induction b with
  | nil => simp [Bindings.insert, toList]
  | cons m w r ih =>
    obtain ⟨hm, hr⟩ := List.pairwise_cons.mp h
    by_cases he : m = n
    · rw [Bindings.insert, if_pos he]
      exact List.pairwise_cons.mpr ⟨he ▸ hm, hr⟩
    · by_cases hl : n < m
      · rw [Bindings.insert, if_neg he, if_pos hl]
        refine List.pairwise_cons.mpr ⟨fun k hk => ?_, h⟩
        rcases List.mem_cons.mp hk with rfl | hk
        · exact hl
        · exact String.lt_trans hl (hm k hk)
      · rw [Bindings.insert, if_neg he, if_neg hl]
        refine List.pairwise_cons.mpr ⟨fun k hk => ?_, ih hr⟩
        obtain ⟨e, hmem, rfl⟩ := List.mem_map.mp hk
        rcases mem_toList_insert hmem with rfl | hmem
        · exact Decidable.byContradiction fun hge =>
            he (String.le_antisymm (String.not_lt.mp hl) (String.not_lt.mp hge))
        · exact hm _ (List.mem_map_of_mem hmem)

theorem Sorted.map {b : Bindings α} (h : b.Sorted) (f : α → β) : (b.map f).Sorted := by
  unfold Sorted names at h ⊢
  rw [toList_map, List.map_map]
  exact h

theorem sorted_ofList (l : List (String × α)) : (ofList l).Sorted :=
  List.foldlRecOn l _ List.Pairwise.nil fun _ hb e _ => hb.insert e.1 e.2

/-- What stands in a sorted map is what is found there. -/
theorem mem_toList_iff {b : Bindings α} (h : b.Sorted) {n : String} {v : α} :
    (n, v) ∈ b.toList ↔ b.find? n = some v := by
  unfold Sorted names at h
  induction b with
  | nil => simp [toList, find?]
  | cons m w r ih =>
    obtain ⟨hm, hr⟩ := List.pairwise_cons.mp h
    rw [toList, List.mem_cons, find?, ih hr]
    by_cases he : m = n
    · subst he
      have hfree : r.find? m ≠ some v := fun hf =>
        String.lt_irrefl m (hm m (List.mem_map_of_mem ((ih hr).mpr hf)))
      simp [hfree, eq_comm]
    · simp [he, Ne.symm he]

end Bindings

end DecisionGraph
