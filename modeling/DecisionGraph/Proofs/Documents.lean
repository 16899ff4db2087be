import DecisionGraph.Value.Document

namespace DecisionGraph

namespace Bindings

variable {α : Type}

theorem toList_injective {b c : Bindings α} (h : b.toList = c.toList) : b = c := by
  induction b generalizing c with
  | nil => cases c with
    | nil => rfl
    | cons n v r => cases h
  | cons n v r ih => cases c with
    | nil => cases h
    | cons m w s =>
      obtain ⟨he, hrest⟩ := List.cons.inj h
      obtain ⟨rfl, rfl⟩ := Prod.mk.inj he
      rw [ih hrest]

theorem toList_insert_of_lt {b : Bindings α} {n : String} (h : ∀ m ∈ b.names, m < n) (v : α) :
    (b.insert n v).toList = b.toList ++ [(n, v)] := by
  induction b with
  | nil => rfl
  | cons m w r ih =>
    have hm : m < n := h m List.mem_cons_self
    have hne : m ≠ n := fun he => String.lt_irrefl n (he ▸ hm)
    have hge : ¬n < m := fun hl => String.lt_irrefl n (String.lt_trans hl hm)
    rw [insert, if_neg hne, if_neg hge, toList, ih fun k hk => h k (List.mem_cons_of_mem _ hk)]
    rfl

theorem toList_foldl_insert {l : List (String × α)} {b : Bindings α}
    (h : (b.names ++ l.map Prod.fst).Pairwise (· < ·)) :
    (l.foldl (fun b e => b.insert e.1 e.2) b).toList = b.toList ++ l := by
  induction l generalizing b with
  | nil => exact (List.append_nil _).symm
  | cons e l ih =>
    have hb : ∀ m ∈ b.names, m < e.1 := fun m hm =>
      (List.pairwise_append.mp h).2.2 m hm e.1 List.mem_cons_self
    have hnames : (b.insert e.1 e.2).names = b.names ++ [e.1] := by
      rw [names, toList_insert_of_lt hb, List.map_append]
      rfl
    rw [List.foldl_cons, ih (by rw [hnames, List.append_assoc]; exact h), toList_insert_of_lt hb,
      List.append_assoc]
    rfl

theorem ofList_toList {b : Bindings α} (h : b.Sorted) : ofList b.toList = b :=
  toList_injective (toList_foldl_insert (b := nil) h)

end Bindings

namespace Value

mutual
/-- A function occurs in the value, at whatever depth. -/
def hasFunction : Value → Bool
  | list items => itemsHaveFunction items
  | context es => entriesHaveFunction es
  | function _ => true
  | _ => false
def itemsHaveFunction : List Value → Bool
  | [] => false
  | v :: vs => v.hasFunction || itemsHaveFunction vs
def entriesHaveFunction : Bindings Value → Bool
  | .nil => false
  | .cons _ v r => v.hasFunction || entriesHaveFunction r
end

mutual
/-- No float in the value, at whatever depth, is infinite or not a number. -/
def isFinite : Value → Bool
  | float x => !(x.isNaN || x.isInf)
  | list items => itemsAreFinite items
  | context es => entriesAreFinite es
  | _ => true
def itemsAreFinite : List Value → Bool
  | [] => true
  | v :: vs => v.isFinite && itemsAreFinite vs
def entriesAreFinite : Bindings Value → Bool
  | .nil => true
  | .cons _ v r => v.isFinite && entriesAreFinite r
end

mutual
/-- Every context in the value, at whatever depth, lists its names in ascending order. -/
def Ordered : Value → Prop
  | list items => ItemsOrdered items
  | context es => es.Sorted ∧ EntriesOrdered es
  | _ => True
def ItemsOrdered : List Value → Prop
  | [] => True
  | v :: vs => v.Ordered ∧ ItemsOrdered vs
def EntriesOrdered : Bindings Value → Prop
  | .nil => True
  | .cons _ v r => v.Ordered ∧ EntriesOrdered r
end

theorem int64?_toInt (n : Int64) : int64? n.toInt = some n := by
  have hbounds : Int64.minValue.toInt ≤ n.toInt && n.toInt ≤ Int64.maxValue.toInt := by
    rw [Bool.and_eq_true, decide_eq_true_eq, decide_eq_true_eq]
    exact ⟨n.minValue_le_toInt, n.toInt_le⟩
  rw [int64?, if_pos hbounds, Int64.ofInt_toInt]

mutual
theorem isSome_tagged? : ∀ v : Value, v.tagged?.isSome = !v.hasFunction
  | null | boolean _ | integer _ | float _ | string _ => rfl
  | list items => by simp [tagged?, hasFunction, isSome_taggedItems? items]
  | context es => by simp [tagged?, hasFunction, isSome_taggedEntries? es]
  | function _ => rfl
theorem isSome_taggedItems? : ∀ vs, (taggedItems? vs).isSome = !itemsHaveFunction vs
  | [] => rfl
  | v :: vs => by
    have hv := isSome_tagged? v
    have hvs := isSome_taggedItems? vs
    rw [itemsHaveFunction, Bool.not_or, ← hv, ← hvs, taggedItems?]
    cases v.tagged? <;> cases taggedItems? vs <;> rfl
theorem isSome_taggedEntries? : ∀ es, (taggedEntries? es).isSome = !entriesHaveFunction es
  | .nil => rfl
  | .cons n v r => by
    have hv := isSome_tagged? v
    have hr := isSome_taggedEntries? r
    rw [entriesHaveFunction, Bool.not_or, ← hv, ← hr, taggedEntries?]
    cases v.tagged? <;> cases taggedEntries? r <;> rfl
end

/-- A float is read from its form if it is finite; the form of any other reads as nothing. -/
theorem ofTagged?_float (x : Float) :
    ofTagged? (.object [("Float", jsonOfFloat x)]) =
      if isFinite (float x) then some (float x) else none := by
  rw [jsonOfFloat, isFinite]
  cases x.isNaN || x.isInf with
  | false =>
    rw [if_neg Bool.false_ne_true, ofTagged?, if_pos rfl]
    rfl
  | true =>
    rw [if_pos rfl, ofTagged?, if_neg (show ¬"Float" = "Null" by decide)]
    rfl

mutual
theorem ofTagged?_of_tagged? : ∀ (v : Value) (j : Json), v.Ordered → v.tagged? = some j →
    ofTagged? j = if v.isFinite then some v else none
  | null, _, _, rfl | boolean _, _, _, rfl | string _, _, _, rfl => by simp [ofTagged?, isFinite]
  | integer n, _, _, rfl => by simp [ofTagged?, isFinite, int64?_toInt]
  | float x, _, _, rfl => ofTagged?_float x
  | list items, j, ho, h => by
    obtain ⟨js, hjs, rfl⟩ := Option.map_eq_some_iff.mp h
    have hread := ofTaggedItems?_of_taggedItems? items js ho hjs
    rw [ofTagged?, if_pos rfl, hread, isFinite]
    cases itemsAreFinite items <;> rfl
  | context es, j, ho, h => by
    obtain ⟨ms, hms, rfl⟩ := Option.map_eq_some_iff.mp h
    have hread := ofTaggedMembers?_of_taggedEntries? es ms .nil ho.2 hms
    have hes : es.toList.foldl (fun b e => b.insert e.1 e.2) .nil = es := Bindings.ofList_toList ho.1
    rw [ofTagged?, if_pos rfl, hread, hes, isFinite]
    cases entriesAreFinite es <;> rfl
  | function _, _, _, h => nomatch h
theorem ofTaggedItems?_of_taggedItems? : ∀ (vs : List Value) (js : List Json), ItemsOrdered vs →
    taggedItems? vs = some js → ofTaggedItems? js = if itemsAreFinite vs then some vs else none
  | [], _, _, rfl => rfl
  | v :: vs, js, ho, h => by
    obtain ⟨j, hj, hrest⟩ := Option.bind_eq_some_iff.mp h
    obtain ⟨js, hjs, hcons⟩ := Option.bind_eq_some_iff.mp hrest
    obtain rfl := Option.some.inj hcons
    rw [ofTaggedItems?, ofTagged?_of_tagged? v j ho.1 hj, ofTaggedItems?_of_taggedItems? vs js ho.2 hjs,
      itemsAreFinite]
    cases v.isFinite <;> cases itemsAreFinite vs <;> rfl
theorem ofTaggedMembers?_of_taggedEntries? : ∀ (es : Bindings Value) (ms : List (String × Json))
    (found : Bindings Value), EntriesOrdered es → taggedEntries? es = some ms →
    ofTaggedMembers? found ms =
      if entriesAreFinite es then some (es.toList.foldl (fun b e => b.insert e.1 e.2) found) else none
  | .nil, _, _, _, rfl => rfl
  | .cons n v r, ms, found, ho, h => by
    obtain ⟨j, hj, hrest⟩ := Option.bind_eq_some_iff.mp h
    obtain ⟨ms, hms, hcons⟩ := Option.bind_eq_some_iff.mp hrest
    obtain rfl := Option.some.inj hcons
    rw [ofTaggedMembers?, ofTagged?_of_tagged? v j ho.1 hj, entriesAreFinite]
    cases v.isFinite with
    | false => rfl
    | true => exact ofTaggedMembers?_of_taggedEntries? r ms (found.insert n v) ho.2 hms
end

/-- A value that documents can hold: its contexts are in order and no function is in it. -/
def IsDatum (v : Value) : Prop := v.Ordered ∧ v.hasFunction = false

theorem isDatum_of_ite {p : Prop} [Decidable p] {v w : Value}
    (h : (if p then some w else none) = some v) (hw : w.IsDatum) : v.IsDatum := by
  obtain ⟨-, hv⟩ := Option.ite_none_right_eq_some.mp h
  exact Option.some.inj hv ▸ hw

theorem EntriesOrdered.insert {es : Bindings Value} {v : Value} (h : EntriesOrdered es)
    (hv : v.Ordered) (n : String) : EntriesOrdered (es.insert n v) := by
  induction es with
  | nil => exact ⟨hv, trivial⟩
  | cons m w r ih =>
    rw [Bindings.insert]
    split
    · exact ⟨hv, h.2⟩
    split
    · exact ⟨hv, h⟩
    · exact ⟨h.1, ih h.2⟩

theorem entriesHaveFunction_insert {es : Bindings Value} {v : Value}
    (h : entriesHaveFunction es = false) (hv : v.hasFunction = false) (n : String) :
    entriesHaveFunction (es.insert n v) = false := by
  induction es with
  | nil => simp [Bindings.insert, entriesHaveFunction, hv]
  | cons m w r ih =>
    obtain ⟨hw, hr⟩ := Bool.or_eq_false_iff.mp h
    rw [Bindings.insert]
    split
    · simp [entriesHaveFunction, hv, hr]
    split
    · simp [entriesHaveFunction, hv, hw, hr]
    · simp [entriesHaveFunction, hw, ih hr]

mutual
/-- Only such values are read, whatever the document. -/
theorem isDatum_of_ofTagged? : ∀ (j : Json) (v : Value), ofTagged? j = some v → v.IsDatum
  | .string _, _, h | .object [(_, .null)], _, h => isDatum_of_ite h ⟨trivial, rfl⟩
  | .object [(_, .bool _)], _, h => isDatum_of_ite h ⟨trivial, rfl⟩
  | .object [(_, .float _)], _, h => isDatum_of_ite h ⟨trivial, rfl⟩
  | .object [(_, .string _)], _, h => isDatum_of_ite h ⟨trivial, rfl⟩
  | .object [(tag, .integer n)], v, h => by
    rw [ofTagged?] at h
    split at h
    · obtain ⟨m, -, rfl⟩ := Option.map_eq_some_iff.mp h
      exact ⟨trivial, rfl⟩
    · exact isDatum_of_ite h ⟨trivial, rfl⟩
  | .object [(_, .array items)], _, h => by
    obtain ⟨-, hlist⟩ := Option.ite_none_right_eq_some.mp h
    obtain ⟨vs, hvs, rfl⟩ := Option.map_eq_some_iff.mp hlist
    exact isDatum_of_ofTaggedItems? items vs hvs
  | .object [(_, .object members)], _, h => by
    obtain ⟨-, hcontext⟩ := Option.ite_none_right_eq_some.mp h
    obtain ⟨es, hes, rfl⟩ := Option.map_eq_some_iff.mp hcontext
    obtain ⟨hs, ho, hf⟩ := isDatum_of_ofTaggedMembers? members .nil es List.Pairwise.nil trivial rfl hes
    exact ⟨⟨hs, ho⟩, hf⟩
theorem isDatum_of_ofTaggedItems? : ∀ (js : List Json) (vs : List Value),
    ofTaggedItems? js = some vs → ItemsOrdered vs ∧ itemsHaveFunction vs = false
  | [], _, rfl => ⟨trivial, rfl⟩
  | j :: js, vs, h => by
    obtain ⟨v, hv, hrest⟩ := Option.bind_eq_some_iff.mp h
    obtain ⟨vs, hvs, hcons⟩ := Option.bind_eq_some_iff.mp hrest
    obtain rfl := Option.some.inj hcons
    have hhead := isDatum_of_ofTagged? j v hv
    have htail := isDatum_of_ofTaggedItems? js vs hvs
    exact ⟨⟨hhead.1, htail.1⟩, Bool.or_eq_false_iff.mpr ⟨hhead.2, htail.2⟩⟩
theorem isDatum_of_ofTaggedMembers? : ∀ (ms : List (String × Json)) (found es : Bindings Value),
    found.Sorted → EntriesOrdered found → entriesHaveFunction found = false →
    ofTaggedMembers? found ms = some es →
    es.Sorted ∧ EntriesOrdered es ∧ entriesHaveFunction es = false
  | [], _, _, hs, ho, hf, rfl => ⟨hs, ho, hf⟩
  | (n, j) :: ms, found, es, hs, ho, hf, h => by
    obtain ⟨v, hv, hrest⟩ := Option.bind_eq_some_iff.mp h
    have hhead := isDatum_of_ofTagged? j v hv
    exact isDatum_of_ofTaggedMembers? ms (found.insert n v) es (hs.insert n v) (ho.insert hhead.1 n)
      (entriesHaveFunction_insert hf hhead.2 n) hrest
end

/-- Every value, at any depth of lists and contexts: with a function in it there is no form;
without, there is one, and the reader gives back that value if all its numbers are finite and
refuses the form if one is not. The hypothesis is what a map sorted by name always has. Conversely,
whatever document is read, the value has a form. -/
theorem form_reads_back (v : Value) (h : v.Ordered) :
    (v.hasFunction = true → v.tagged? = none) ∧
    (v.hasFunction = false → v.isFinite = true →
      ∃ j, v.tagged? = some j ∧ ofTagged? j = some v) ∧
    (v.hasFunction = false → v.isFinite = false → ∃ j, v.tagged? = some j ∧ ofTagged? j = none) ∧
    ∀ (j : Json) (w : Value), ofTagged? j = some w → w.Ordered ∧ w.tagged?.isSome = true := by
  have hform : v.hasFunction = false → ∃ j, v.tagged? = some j := fun hf =>
    Option.isSome_iff_exists.mp (by rw [isSome_tagged?, hf, Bool.not_false])
  refine ⟨fun hf => ?_, fun hf hfin => ?_, fun hf hinf => ?_, fun j w hw => ?_⟩
  · rw [← Option.not_isSome_iff_eq_none, isSome_tagged?, hf]
    exact Bool.false_ne_true
  · obtain ⟨j, hj⟩ := hform hf
    exact ⟨j, hj, by rw [ofTagged?_of_tagged? v j h hj, if_pos hfin]⟩
  · obtain ⟨j, hj⟩ := hform hf
    exact ⟨j, hj, by rw [ofTagged?_of_tagged? v j h hj, hinf, if_neg Bool.false_ne_true]⟩
  · obtain ⟨ho, hf⟩ := isDatum_of_ofTagged? j w hw
    exact ⟨ho, by rw [isSome_tagged?, hf, Bool.not_false]⟩

def invoices : Value :=
  list [context (.cons "lines" (list [integer 3, string "3", null]) (.cons "paid" (boolean false) .nil))]

theorem form_reads_back_invoices : invoices.Ordered ∧
    ∃ j, invoices.tagged? = some j ∧ ofTagged? j = some invoices := by
  have hsorted : ["lines", "paid"].Pairwise (· < ·) := by decide
  have h : invoices.Ordered :=
    ⟨⟨hsorted, ⟨trivial, trivial, trivial, trivial⟩, trivial, trivial⟩, trivial⟩
  exact ⟨h, (form_reads_back invoices h).2.1 rfl rfl⟩

end Value

end DecisionGraph
