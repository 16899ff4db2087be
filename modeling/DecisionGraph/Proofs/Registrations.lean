import DecisionGraph.Proofs.Handles
import DecisionGraph.Registry.Calls
import Mathlib.Data.List.Find
import Mathlib.Data.List.Nodup

namespace DecisionGraph

variable {L : Type}

def Model.place (m : Model L) : String × String := (m.ns, m.name)

namespace Registry

/-- A model that was taken in, or a place that was freed. -/
inductive Change (L : Type) where
  | registered (m : Model L)
  | unregistered (ns name : String)

namespace Change

def place : Change L → String × String
  | registered m => m.place
  | unregistered ns name => (ns, name)

def frees (place : String × String) : Change L → Bool
  | registered _ => false
  | unregistered ns name => (ns, name) == place

/-- The models whose place was not freed since they were registered, in order of registration. -/
def standing : List (Change L) → List (Model L)
  | [] => []
  | registered m :: later =>
    if later.any (·.frees m.place) then standing later else m :: standing later
  | unregistered .. :: later => standing later

theorem standing_append (H later : List (Change L)) : standing (H ++ later) =
    ((standing H).filter fun m => !later.any (·.frees m.place)) ++ standing later := by
  induction H with
  | nil => rfl
  | cons c H ih =>
    cases c with
    | unregistered ns name => exact ih
    | registered m =>
      rw [List.cons_append, standing, standing, List.any_append, ih]
      cases H.any (·.frees m.place) with
      | true => simp
      | false =>
        cases h : later.any (·.frees m.place) <;> simp [h]

theorem standing_concat_registered (H : List (Change L)) (m : Model L) :
    standing (H ++ [registered m]) = standing H ++ [m] := by
  simp [standing_append, standing, frees]

theorem standing_concat_unregistered (H : List (Change L)) (ns name : String) :
    standing (H ++ [unregistered ns name]) = (standing H).filter fun m => m.place != (ns, name) := by
  simp [standing_append, standing, frees, bne, Bool.beq_comm]

theorem not_any_frees {later : List (Change L)} {place : String × String}
    (h : ∀ c ∈ later, c.frees place = false) : ¬later.any (·.frees place) = true := by
  simpa using h

theorem mem_standing {H : List (Change L)} {m : Model L} : m ∈ standing H ↔
    ∃ before later, H = before ++ registered m :: later ∧ ∀ c ∈ later, c.frees m.place = false := by
  constructor
  · intro h
    induction H with
    | nil => cases h
    | cons c H ih =>
      have hlater (h : m ∈ standing H) : ∃ before later, c :: H = before ++ registered m :: later ∧
          ∀ c ∈ later, c.frees m.place = false := by
        obtain ⟨before, later, rfl, hfree⟩ := ih h
        exact ⟨c :: before, later, rfl, hfree⟩
      cases c with
      | unregistered ns name => exact hlater h
      | registered w =>
        rw [standing] at h
        split at h
        next => exact hlater h
        next hfree =>
          rcases List.mem_cons.mp h with rfl | h
          · exact ⟨[], H, rfl, by simpa using hfree⟩
          · exact hlater h
  · rintro ⟨before, later, rfl, hfree⟩
    rw [standing_append, standing, if_neg (not_any_frees hfree)]
    exact List.mem_append_right _ List.mem_cons_self

theorem place_ne_of_later {before later : List (Change L)} {m : Model L}
    (hunique : ((standing (before ++ registered m :: later)).map Model.place).Nodup)
    (hfree : ∀ c ∈ later, c.frees m.place = false) : ∀ c ∈ later, c.place ≠ m.place := by
  intro c hc hplace
  cases c with
  | unregistered ns name =>
    exact Bool.false_ne_true ((hfree _ hc).symm.trans (beq_iff_eq.mpr hplace))
  | registered w =>
    obtain ⟨b, l, rfl⟩ := List.append_of_mem hc
    have hw : w ∈ standing (b ++ registered w :: l) :=
      mem_standing.mpr ⟨b, l, rfl, fun c hc => by
        rw [show w.place = m.place from hplace]
        exact hfree c (List.mem_append_right _ (List.mem_cons_of_mem _ hc))⟩
    rw [standing_append, standing, if_neg (not_any_frees hfree), List.map_append] at hunique
    have htail := List.nodup_cons.mp (List.nodup_append.mp hunique).2.1
    exact htail.1 (List.mem_map.mpr ⟨w, hw, hplace⟩)

end Change

open Change

theorem inNs_insert (r : Registry L) (ns ns' : String) (l : List (Model L)) :
    (⟨r.byNs.insert ns l⟩ : Registry L).inNs ns' = if ns = ns' then l else r.inNs ns' := by
  rw [inNs, Bindings.find?_insert]
  split <;> rfl

/-- The registry holds these models, in this order within each namespace. -/
structure Holds (r : Registry L) (M : List (Model L)) : Prop where
  sorted : r.byNs.Sorted
  inNs : ∀ ns, r.inNs ns = M.filter (·.ns == ns)
  unique : (M.map Model.place).Nodup

namespace Holds

variable {r : Registry L} {M : List (Model L)} {m : Model L} {ns name : String}

theorem empty : (empty : Registry L).Holds [] := ⟨List.Pairwise.nil, fun _ => rfl, List.nodup_nil⟩

theorem model?_eq_find? (h : r.Holds M) (ns name : String) :
    r.model? ns name = M.find? fun m => m.place == (ns, name) := by
  rw [model?, h.inNs, List.find?_filter]
  exact List.find?_congr fun m _ => Bool.eq_iff_iff.mpr (by simp [Model.place])

theorem modelById?_eq_find? (h : r.Holds M) (ns id : String) :
    r.modelById? ns id = M.find? fun m => m.ns == ns && m.id == id := by
  rw [modelById?, h.inNs, List.find?_filter]
  exact List.find?_congr fun m _ => Bool.eq_iff_iff.mpr (by simp)

theorem model?_eq_some (h : r.Holds M) : r.model? ns name = some m ↔ m ∈ M ∧ m.place = (ns, name) := by
  rw [h.model?_eq_find?]
  constructor
  · intro hm
    exact ⟨List.mem_of_find?_eq_some hm, by simpa using List.find?_some hm⟩
  · rintro ⟨hm, hplace⟩
    obtain ⟨w, hw⟩ := Option.isSome_iff_exists.mp
      (List.find?_isSome (p := fun m => m.place == (ns, name)).mpr ⟨m, hm, by simp [hplace]⟩)
    have hwplace : w.place = (ns, name) := by simpa using List.find?_some hw
    rw [hw, List.inj_on_of_nodup_map h.unique (List.mem_of_find?_eq_some hw) hm
      (hwplace.trans hplace.symm)]

theorem model?_eq_none (h : r.Holds M) :
    r.model? ns name = none ↔ ∀ m ∈ M, m.place ≠ (ns, name) := by
  rw [h.model?_eq_find?, List.find?_eq_none]
  simp

theorem register (h : r.Holds M) (hfree : r.model? m.ns m.name = none) :
    (⟨r.byNs.insert m.ns (r.inNs m.ns ++ [m])⟩ : Registry L).Holds (M ++ [m]) := by
  refine ⟨h.sorted.insert _ _, fun ns => ?_, ?_⟩
  · rw [inNs_insert, List.filter_append, h.inNs, h.inNs]
    by_cases hns : m.ns = ns
    · subst hns
      simp
    · simp [hns]
  · rw [List.map_append]
    refine List.nodup_append.mpr ⟨h.unique, List.nodup_singleton _, ?_⟩
    rintro p hp q hq rfl
    obtain ⟨w, hw, rfl⟩ := List.mem_map.mp hp
    exact h.model?_eq_none.mp hfree w hw (List.mem_singleton.mp hq)

theorem inNs_split (h : r.Holds M) (hm : r.model? ns name = some m) : ∃ earlier later,
    r.inNs ns = earlier ++ m :: later ∧ (∀ w ∈ earlier, w.name ≠ name) ∧ m.name = name ∧
      ∀ w ∈ later, w.name ≠ name := by
  obtain ⟨hname, earlier, later, hsplit, hearlier⟩ := List.find?_eq_some_iff_append.mp hm
  refine ⟨earlier, later, hsplit, fun w hw => by simpa using hearlier w hw, by simpa using hname,
    fun w hw heq => ?_⟩
  rw [h.inNs] at hsplit
  have hns : ∀ w ∈ m :: later, w.ns = ns := fun w hw => by
    have hmem : w ∈ M.filter (·.ns == ns) := hsplit ▸ List.mem_append_right _ hw
    simpa using List.of_mem_filter hmem
  have hplace : w.place = m.place := Prod.ext
    ((hns w (List.mem_cons_of_mem _ hw)).trans (hns m List.mem_cons_self).symm)
    (heq.trans (beq_iff_eq.mp hname).symm)
  have hnodup : ((earlier ++ m :: later).map Model.place).Nodup :=
    hsplit ▸ h.unique.sublist (List.filter_sublist.map _)
  rw [List.map_append] at hnodup
  have htail := List.nodup_cons.mp (List.nodup_append.mp hnodup).2.1
  exact htail.1 (List.mem_map.mpr ⟨w, hw, hplace⟩)

theorem eraseP_inNs (h : r.Holds M) (hm : r.model? ns name = some m) :
    ((r.inNs ns).eraseP fun m => m.name == name) = (r.inNs ns).filter fun m => m.name != name := by
  obtain ⟨earlier, later, hsplit, hearlier, hname, hlater⟩ := h.inNs_split hm
  rw [hsplit, List.eraseP_append_right _ (by simpa using hearlier),
    List.eraseP_cons_of_pos (by simpa using hname), List.filter_append,
    List.filter_eq_self.mpr (by simpa using hearlier),
    List.filter_cons_of_neg (by simpa using hname), List.filter_eq_self.mpr (by simpa using hlater)]

theorem unregister (h : r.Holds M) (hm : r.model? ns name = some m) :
    (⟨r.byNs.insert ns ((r.inNs ns).eraseP fun m => m.name == name)⟩ : Registry L).Holds
      (M.filter fun m => m.place != (ns, name)) := by
  refine ⟨h.sorted.insert _ _, fun ns' => ?_, h.unique.sublist (List.filter_sublist.map _)⟩
  rw [inNs_insert, h.eraseP_inNs hm, List.filter_filter]
  by_cases hns : ns = ns'
  · subst hns
    rw [if_pos rfl, h.inNs, List.filter_filter]
    refine List.filter_congr fun m _ => Bool.eq_iff_iff.mpr ?_
    by_cases hm : m.ns = ns <;> simp [Model.place, hm]
  · rw [if_neg hns, h.inNs]
    refine List.filter_congr fun m _ => ?_
    by_cases hm : m.ns = ns'
    · simp [Model.place, hm, Ne.symm hns]
    · simp [hm]

end Holds

theorem size_eq_length_models (r : Registry L) : r.size = r.models.length := by
  have hfold (l : List (List (Model L))) (n : Nat) :
      l.foldl (fun n models => n + models.length) n = n + l.flatten.length := by
    induction l generalizing n with
    | nil => rfl
    | cons models l ih =>
      rw [List.foldl_cons, ih, List.flatten_cons, List.length_append, Nat.add_assoc]
  exact (hfold r.byNs.values 0).trans (Nat.zero_add _)

/-- A sorted map of namespaces lists the models of each in one piece. -/
theorem filter_flatten_values {b : Bindings (List (Model L))} (hs : b.Sorted)
    (hns : ∀ e ∈ b.toList, ∀ m ∈ e.2, m.ns = e.1) (ns : String) :
    b.values.flatten.filter (·.ns == ns) = (b.find? ns).getD [] := by
  induction b with
  | nil => rfl
  | cons n models rest ih =>
    have hrest := ih (List.pairwise_cons.mp hs).2 fun e he => hns e (List.mem_cons_of_mem _ he)
    have hmodels : ∀ m ∈ models, m.ns = n := hns (n, models) List.mem_cons_self
    rw [Bindings.values, Bindings.toList, List.map_cons, List.flatten_cons, List.filter_append,
      Bindings.find?]
    by_cases h : n = ns
    · subst h
      have hnone : rest.find? n = none := by
        refine Option.eq_none_iff_forall_ne_some.mpr fun l hl => ?_
        have hmem := (Bindings.mem_toList_iff (List.pairwise_cons.mp hs).2).mpr hl
        exact String.lt_irrefl n ((List.pairwise_cons.mp hs).1 n (List.mem_map_of_mem hmem))
      rw [hnone] at hrest
      rw [if_pos rfl, Option.getD_some, List.filter_eq_self.mpr (by simpa using hmodels)]
      exact (congrArg (models ++ ·) hrest).trans (List.append_nil _)
    · rw [if_neg h, List.filter_eq_nil_iff.mpr fun m hm => by simp [hmodels m hm, h]]
      exact hrest

theorem perm_of_filter_ns {l M : List (Model L)}
    (h : ∀ ns, l.filter (·.ns == ns) = M.filter (·.ns == ns)) : l.Perm M := by
  classical
  refine List.perm_iff_count.mpr fun m => ?_
  let inNs (w : Model L) : Bool := w.ns == m.ns
  have hm : inNs m = true := beq_self_eq_true _
  rw [← List.count_filter hm, h m.ns, List.count_filter hm]

theorem Holds.filter_models {r : Registry L} {M : List (Model L)} (h : r.Holds M) (ns : String) :
    r.models.filter (·.ns == ns) = M.filter (·.ns == ns) := by
  rw [models, filter_flatten_values h.sorted ?_ ns]
  · exact h.inNs ns
  · intro e he m hm
    have hfind := (Bindings.mem_toList_iff h.sorted).mp he
    have hinNs : e.2 = M.filter (·.ns == e.1) := by rw [← h.inNs, Registry.inNs, hfind, Option.getD_some]
    rw [hinNs] at hm
    exact beq_iff_eq.mp (List.mem_filter.mp hm).2

/-- What a registry answers and lists, by the history of its changes. -/
structure Reflects (r : Registry L) (H : List (Change L)) : Prop where
  unique : (r.models.map Model.place).Nodup
  /-- The model of a place is the last one registered there, if the place was not freed since. -/
  model? : ∀ ns name m, r.model? ns name = some m ↔ ∃ before later,
    H = before ++ registered m :: later ∧ m.place = (ns, name) ∧ ∀ c ∈ later, c.place ≠ (ns, name)
  modelById? : ∀ ns id, r.modelById? ns id = (standing H).find? fun m => m.ns == ns && m.id == id
  models : r.models.Perm (standing H)
  inOrder : ∀ ns, r.models.filter (·.ns == ns) = (standing H).filter (·.ns == ns)
  size : r.size = r.models.length
  isEmpty : r.isEmpty = true ↔ r.models.length = 0

theorem Holds.reflects {r : Registry L} {H : List (Change L)} (h : r.Holds (standing H)) :
    r.Reflects H where
  unique := ((perm_of_filter_ns h.filter_models).map Model.place).nodup_iff.mpr h.unique
  model? ns name m := by
    rw [h.model?_eq_some, mem_standing]
    constructor
    · rintro ⟨⟨before, later, rfl, hfree⟩, hplace⟩
      exact ⟨before, later, rfl, hplace, hplace ▸ place_ne_of_later h.unique hfree⟩
    · rintro ⟨before, later, hH, hplace, hlater⟩
      refine ⟨⟨before, later, hH, fun c hc => ?_⟩, hplace⟩
      cases c with
      | registered w => rfl
      | unregistered ns' name' => exact beq_eq_false_iff_ne.mpr (hplace ▸ hlater _ hc)
  modelById? := h.modelById?_eq_find?
  models := perm_of_filter_ns h.filter_models
  inOrder := h.filter_models
  size := r.size_eq_length_models
  isEmpty := by rw [Registry.isEmpty, r.size_eq_length_models, beq_iff_eq]

section Calls

variable {s : Shared (Registry L)} {handle ns name : String} {m old : Model L}

theorem perform_register_taken (h : (behind s handle).model? m.ns m.name = some old) :
    perform s handle (.register m) = (.refused (.duplicateModel m.ns m.name), s) := by
  rw [perform, register, h]

theorem perform_register_free (h : (behind s handle).model? m.ns m.name = none) :
    perform s handle (.register m) = (.model (some m), s.set handle
      ⟨(behind s handle).byNs.insert m.ns ((behind s handle).inNs m.ns ++ [m])⟩) := by
  rw [perform, register, h]

theorem perform_unregister_free (h : (behind s handle).model? ns name = none) :
    perform s handle (.unregister ns name) = (.model none, s) := by
  rw [perform, unregister, h, Option.map_none]

theorem perform_unregister_taken (h : (behind s handle).model? ns name = some m) :
    perform s handle (.unregister ns name) = (.model (some m), s.set handle
      ⟨(behind s handle).byNs.insert ns
        (((behind s handle).inNs ns).eraseP fun m => m.name == name)⟩) := by
  rw [perform, unregister, h, Option.map_some]

end Calls

/-- The change that a call has made, by its reply. -/
def Call.change? : Call L → Reply L → Option (Change L)
  | .register m, .model (some _) => some (.registered m)
  | .unregister ns name, .model (some _) => some (.unregistered ns name)
  | _, _ => none

/-- The changes that a call makes to the registry of a family. -/
def changed (family : Nat) (s : Shared (Registry L)) (handle : String) (c : Call L) :
    List (Change L) :=
  if s.handles.find? handle = some family then (c.change? (perform s handle c).1).toList else []

def performAll (s : Shared (Registry L)) : List (String × Call L) → Shared (Registry L)
  | [] => s
  | (handle, c) :: calls => performAll (perform s handle c).2 calls

/-- The changes that calls make to the registry of a family, through whatever handle. -/
def history (family : Nat) (s : Shared (Registry L)) : List (String × Call L) → List (Change L)
  | [] => []
  | (handle, c) :: calls =>
    changed family s handle c ++ history family (perform s handle c).2 calls

/-- Every family has a registry, which holds what stands by the history of the family. -/
def Kept (s : Shared (Registry L)) (H : Nat → List (Change L)) : Prop :=
  s.Tracks .empty fun f r => r.Holds (standing (H f))

namespace Kept

variable {s : Shared (Registry L)} {H : Nat → List (Change L)} {handle : String} {f : Nat}

theorem empty : Kept (.empty : Shared (Registry L)) fun _ => [] :=
  Shared.Tracks.empty fun _ => Holds.empty

theorem behind (h : Kept s H) (hf : s.handles.find? handle = some f) :
    s.get? handle = some (behind s handle) ∧ (behind s handle).Holds (standing (H f)) := by
  obtain ⟨r, hget, hr⟩ := h.get? hf
  rw [Registry.behind, hget]
  exact ⟨rfl, hr⟩

theorem set (h : Kept s H) {r : Registry L} (cs : List (Change L))
    (hr : ∀ f, s.handles.find? handle = some f → r.Holds (standing (H f ++ cs))) :
    Kept (s.set handle r) fun g => H g ++ if s.handles.find? handle = some g then cs else [] := by
  refine Shared.Tracks.set h (fun f hf => ?_) fun f b hf hb => ?_
  · simpa only [if_pos hf] using hr f hf
  · simpa only [if_neg hf, List.append_nil] using hb

theorem unchanged {s' : Shared (Registry L)} (h : Kept s' H) (c : Call L) (reply : Reply L)
    (hreply : c.change? reply = none) : Kept s' fun g =>
      H g ++ if s.handles.find? handle = some g then (c.change? reply).toList else [] := by
  simpa [hreply] using h

theorem perform (h : Kept s H) (handle : String) (c : Call L) :
    Kept (perform s handle c).2 fun g => H g ++ changed g s handle c := by
  unfold changed
  cases c with
  | model ns name => exact h.unchanged _ _ rfl
  | modelById ns id => exact h.unchanged _ _ rfl
  | share copy =>
    exact unchanged (Shared.Tracks.share h handle copy) (.share copy) .nothing rfl
  | create new => exact unchanged (Shared.Tracks.create h new) (.create new) .nothing rfl
  | register m =>
    cases hm : (Registry.behind s handle).model? m.ns m.name with
    | some old =>
      rw [perform_register_taken hm]
      exact h.unchanged _ _ rfl
    | none =>
      rw [perform_register_free hm]
      refine h.set [registered m] fun f hf => ?_
      rw [standing_concat_registered]
      exact (h.behind hf).2.register hm
  | unregister ns name =>
    cases hm : (Registry.behind s handle).model? ns name with
    | none =>
      rw [perform_unregister_free hm]
      exact h.unchanged _ _ rfl
    | some m =>
      rw [perform_unregister_taken hm]
      refine h.set [unregistered ns name] fun f hf => ?_
      rw [standing_concat_unregistered]
      exact (h.behind hf).2.unregister hm

theorem performAll (h : Kept s H) (calls : List (String × Call L)) :
    Kept (performAll s calls) fun g => H g ++ history g s calls := by
  induction calls generalizing s H with
  | nil => simpa [Registry.performAll, history] using h
  | cons c calls ih => simpa [Registry.performAll, history] using ih (h.perform c.1 c.2)

end Kept

/-- What each call does through a handle that leads to `r`. -/
structure Obeys (s : Shared (Registry L)) (handle : String) (r : Registry L) : Prop where
  register_taken : ∀ m, (∃ old ∈ r.models, old.place = m.place) →
    perform s handle (.register m) = (.refused (.duplicateModel m.ns m.name), s)
  register_free : ∀ m, (∀ old ∈ r.models, old.place ≠ m.place) → ∃ s' r',
    perform s handle (.register m) = (.model (some m), s') ∧ s.Replaces s' handle r' ∧
      r'.inNs m.ns = r.inNs m.ns ++ [m] ∧ ∀ ns, ns ≠ m.ns → r'.inNs ns = r.inNs ns
  model : ∀ ns name, perform s handle (.model ns name) = (.model (r.model? ns name), s)
  modelById : ∀ ns id, perform s handle (.modelById ns id) = (.model (r.modelById? ns id), s)
  unregister_free : ∀ ns name, r.model? ns name = none →
    perform s handle (.unregister ns name) = (.model none, s)
  unregister_taken : ∀ ns name m, r.model? ns name = some m → ∃ s' r' earlier later,
    perform s handle (.unregister ns name) = (.model (some m), s') ∧ s.Replaces s' handle r' ∧
      r.inNs ns = earlier ++ m :: later ∧ r'.inNs ns = earlier ++ later ∧
      ∀ ns', ns' ≠ ns → r'.inNs ns' = r.inNs ns'
  share : ∀ copy, ∃ s', perform s handle (.share copy) = (.nothing, s') ∧ s.Joins s' handle copy

theorem obeys_of_kept {s : Shared (Registry L)} {H : Nat → List (Change L)} {handle : String} {f : Nat}
    (h : Kept s H) (hf : s.handles.find? handle = some f) : Obeys s handle (behind s handle) := by
  have hbehind := (h.behind hf).2
  have hfree (m : Model L) : (∀ old ∈ (behind s handle).models, old.place ≠ m.place) ↔
      (behind s handle).model? m.ns m.name = none := by
    rw [hbehind.model?_eq_none]
    exact forall_congr' fun _ => imp_congr_left (perm_of_filter_ns hbehind.filter_models).mem_iff
  refine ⟨fun m hm => ?_, fun m hm => ?_, fun _ _ => rfl, fun _ _ => rfl, fun ns name hm => ?_,
    fun ns name m hm => ?_, fun copy => ?_⟩
  · obtain ⟨old, hold, hplace⟩ := hm
    obtain ⟨w, hw⟩ := Option.ne_none_iff_exists'.mp fun hnone => (hfree m).mpr hnone old hold hplace
    exact perform_register_taken hw
  · refine ⟨_, _, perform_register_free ((hfree m).mp hm),
      Shared.replaces_set hf (h.family _ _ hf) _, ?_, fun ns hns => ?_⟩
    · rw [inNs_insert, if_pos rfl]
    · rw [inNs_insert, if_neg hns.symm]
  · exact perform_unregister_free hm
  · obtain ⟨earlier, later, hsplit, hearlier, hname, -⟩ := hbehind.inNs_split hm
    refine ⟨_, _, earlier, later, perform_unregister_taken hm,
      Shared.replaces_set hf (h.family _ _ hf) _, hsplit, ?_, fun ns' hns => ?_⟩
    · rw [inNs_insert, if_pos rfl, hsplit, List.eraseP_append_right _ (by simpa using hearlier),
        List.eraseP_cons_of_pos (by simpa using hname)]
    · rw [inNs_insert, if_neg hns.symm]
  · exact ⟨_, rfl, Shared.joins_share hf copy⟩

/-- After any calls through any handles, the handles of a family lead to one registry. It is what
the history of the family makes of it, and does what it is asked through each of them. -/
theorem reflects_history (calls : List (String × Call L)) (handle : String) (f : Nat)
    (hf : (performAll .empty calls).handles.find? handle = some f) :
    ∃ r : Registry L, r.Reflects (history f .empty calls) ∧
      ∀ other, (performAll (.empty : Shared (Registry L)) calls).handles.find? other = some f →
        (performAll .empty calls).get? other = some r ∧ Obeys (performAll .empty calls) other r := by
  have h := Kept.empty.performAll calls
  refine ⟨behind (performAll .empty calls) handle, (h.behind hf).2.reflects, fun other ho => ?_⟩
  have hother : behind (performAll .empty calls) other = behind (performAll .empty calls) handle := by
    rw [behind, behind, Shared.get?_of_find? ho, Shared.get?_of_find? hf]
  exact hother ▸ ⟨(h.behind ho).1, obeys_of_kept h ho⟩

def draft (id : String) : Model Empty := ⟨id, "urn:drafts", "draft", false, #[], .empty⟩

/-- The second registration is refused, the third one is made after the place is free again. -/
def revision : List (String × Call Empty) :=
  [("main", .create "main"), ("main", .register (draft "first")), ("main", .share "copy"),
    ("copy", .register (draft "second")), ("main", .unregister "urn:drafts" "draft"),
    ("copy", .register (draft "third"))]

theorem reflects_history_revision :
    (performAll .empty revision).handles.find? "main" = some 0 ∧
      ∃ r : Registry Empty, (performAll .empty revision).get? "main" = some r ∧
        r.models.Perm [draft "third"] := by
  have hf : (performAll .empty revision).handles.find? "main" = some 0 := rfl
  obtain ⟨r, hr, hshared⟩ := reflects_history revision "main" 0 hf
  have hstanding : standing (history 0 .empty revision) = [draft "third"] := rfl
  exact ⟨hf, r, (hshared "main" hf).1, hstanding ▸ hr.models⟩

end Registry

end DecisionGraph
