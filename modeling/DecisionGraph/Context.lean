import DecisionGraph.Value.Document

namespace DecisionGraph

namespace Bindings

/-- The bindings at a path of names; missing if a step is unbound or binds no context. -/
def within? : List String → Bindings Value → Option (Bindings Value)
  | [], b => some b
  | n :: path, b => ((b.find? n).bind Value.entries?).bind (within? path)

/-- The value at a path of names that ends in `name`. -/
def lookup? (path : List String) (name : String) (b : Bindings Value) : Option Value :=
  (b.within? path).bind fun inner => inner.find? name

/-- Binds a name below a path and gives the value that it had there before. A step that binds no
context gives way to a new one. -/
def exchangeAt : List String → String → Value → Bindings Value → Option Value × Bindings Value
  | [], name, v, b => (b.find? name, b.insert name v)
  | n :: path, name, v, b =>
    let (old, inner) := exchangeAt path name v (((b.find? n).bind Value.entries?).getD .nil)
    (old, b.insert n (.context inner))

theorem lookup?_nil (name : String) (b : Bindings Value) : b.lookup? [] name = b.find? name := rfl

theorem lookup?_cons (n : String) (path : List String) (name : String) (b : Bindings Value) :
    b.lookup? (n :: path) name = ((b.find? n).bind Value.entries?).bind (lookup? path name) :=
  Option.bind_assoc ..

theorem within?_append (path q : List String) (b : Bindings Value) :
    b.within? (path ++ q) = (b.within? path).bind (within? q) := by
  induction path generalizing b with
  | nil => rfl
  | cons n path ih =>
    simp only [List.cons_append, within?]
    cases (b.find? n).bind Value.entries? with
    | none => rfl
    | some inner => exact ih inner

theorem within?_concat (path : List String) (n : String) (b : Bindings Value) :
    b.within? (path ++ [n]) = (b.lookup? path n).bind Value.entries? := by
  rw [within?_append, lookup?, Option.bind_assoc]
  simp [within?]

theorem lookup?_concat (path : List String) (n name : String) (b : Bindings Value) :
    b.lookup? (path ++ [n]) name =
      ((b.lookup? path n).bind Value.entries?).bind fun inner => inner.find? name := by
  rw [lookup?, within?_concat]

theorem lookup?_exchangeAt_self (path : List String) (name : String) (v : Value)
    (b : Bindings Value) : (b.exchangeAt path name v).2.lookup? path name = some v := by
  induction path generalizing b with
  | nil => simp [exchangeAt, lookup?_nil]
  | cons n path ih => simp [exchangeAt, lookup?_cons, Value.entries?, ih]

theorem lookup?_isSome_step {n : String} {path : List String} {name : String} {b : Bindings Value}
    (h : (b.lookup? (n :: path) name).isSome) :
    ∃ inner, (b.find? n).bind Value.entries? = some inner ∧ (inner.lookup? path name).isSome := by
  rw [lookup?_cons] at h
  cases hb : (b.find? n).bind Value.entries? with
  | none => simp [hb] at h
  | some inner => exact ⟨inner, rfl, by simpa [hb] using h⟩

theorem lookup?_below {path : List String} {name : String} {b : Bindings Value}
    (hfree : b.lookup? path name = none) {q : List String} (hq : path ++ [name] <+: q)
    (x : String) : b.lookup? q x = none := by
  obtain ⟨rest, rfl⟩ := hq
  induction path generalizing b with
  | nil =>
    rw [lookup?_nil] at hfree
    simp [lookup?_cons, hfree]
  | cons n path ih =>
    simp only [List.cons_append, lookup?_cons] at hfree ⊢
    cases hb : (b.find? n).bind Value.entries? with
    | none => rfl
    | some inner => exact ih (by simpa [hb] using hfree)

/-- A binding hides only what is bound below its name: a step of its path that gives way to a new
context was no context, so that nothing was bound below it. -/
theorem isSome_lookup?_exchangeAt {path : List String} {name : String} {b : Bindings Value}
    (v : Value) {q : List String} (hq : ¬path ++ [name] <+: q) {x : String}
    (h : (b.lookup? q x).isSome) : ((b.exchangeAt path name v).2.lookup? q x).isSome := by
  induction path generalizing b q with
  | nil =>
    cases q with
    | nil =>
      by_cases hx : name = x
      · simp [exchangeAt, lookup?_nil, hx]
      · simpa [exchangeAt, lookup?_nil, find?_insert, hx] using h
    | cons m q =>
      have hm : name ≠ m := by
        rintro rfl
        exact hq ⟨q, rfl⟩
      simpa [exchangeAt, lookup?_cons, find?_insert, hm] using h
  | cons n path ih =>
    cases q with
    | nil =>
      by_cases hx : n = x
      · simp [exchangeAt, lookup?_nil, hx]
      · simpa [exchangeAt, lookup?_nil, find?_insert, hx] using h
    | cons m q =>
      by_cases hm : n = m
      · subst hm
        obtain ⟨inner, hb, hi⟩ := lookup?_isSome_step h
        have hq' : ¬path ++ [name] <+: q := fun hp => hq (by simpa using hp)
        simpa [exchangeAt, lookup?_cons, hb, Value.entries?] using ih hq' hi
      · simpa [exchangeAt, lookup?_cons, find?_insert, hm] using h

theorem lookup?_exchangeAt_of_apart {path : List String} {name : String} {b : Bindings Value}
    (v : Value) {q : List String} {x : String} (hway : ¬q ++ [x] <+: path)
    (hbelow : ¬path ++ [name] <+: q ++ [x]) :
    (b.exchangeAt path name v).2.lookup? q x = b.lookup? q x := by
  induction path generalizing b q with
  | nil =>
    cases q with
    | nil =>
      have hx : name ≠ x := by
        rintro rfl
        exact hbelow List.prefix_rfl
      simp [exchangeAt, lookup?_nil, find?_insert, hx]
    | cons m q =>
      have hm : name ≠ m := by
        rintro rfl
        exact hbelow ⟨q ++ [x], rfl⟩
      simp [exchangeAt, lookup?_cons, find?_insert, hm]
  | cons n path ih =>
    cases q with
    | nil =>
      have hx : n ≠ x := by
        rintro rfl
        exact hway ⟨path, rfl⟩
      simp [exchangeAt, lookup?_nil, find?_insert, hx]
    | cons m q =>
      by_cases hm : n = m
      · subst hm
        have hway' : ¬q ++ [x] <+: path := fun hp => hway (by simpa using hp)
        have hbelow' : ¬path ++ [name] <+: q ++ [x] := fun hp => hbelow (by simpa using hp)
        simp only [exchangeAt, lookup?_cons, find?_insert_self, Option.bind_some, Value.entries?]
        rw [ih hway' hbelow']
        cases hb : (b.find? n).bind Value.entries? with
        | none => cases q <;> rfl
        | some inner => rfl
      · simp [exchangeAt, lookup?_cons, find?_insert, hm]

/-- On its way a binding leaves contexts. -/
theorem lookup?_exchangeAt_of_way {path : List String} (name : String) {b : Bindings Value}
    (v : Value) {q : List String} {x : String} (h : q ++ [x] <+: path) :
    ∃ inner, (b.exchangeAt path name v).2.lookup? q x = some (.context inner) := by
  induction path generalizing b q with
  | nil => simp at h
  | cons n path ih =>
    cases q with
    | nil =>
      obtain rfl : x = n := by simpa using h
      exact ⟨_, find?_insert_self b x _⟩
    | cons m q =>
      obtain ⟨rfl, hq⟩ : m = n ∧ q ++ [x] <+: path := by simpa using h
      simp only [exchangeAt, lookup?_cons, find?_insert_self, Option.bind_some, Value.entries?]
      exact ih hq

end Bindings

/-- An open import scope: the name of the import and the namespace it leads into. -/
structure Frame where
  name : String
  ns : String
deriving DecidableEq, Inhabited

/-- Variable bindings for one request. The root scope belongs to the requested model; every open
frame narrows reading and writing to the context bound under the frame's name. -/
structure Context where
  entries : Bindings Value
  /-- From the outermost to the innermost. -/
  frames : List Frame

namespace Context

def empty : Context := ⟨.nil, []⟩

def ofEntries (entries : Bindings Value) : Context := ⟨entries, []⟩

def path (c : Context) : List String := c.frames.map Frame.name

def depth (c : Context) : Nat := c.frames.length

def ns? (c : Context) : Option String := c.frames.getLast?.map Frame.ns

def get? (c : Context) (name : String) : Option Value := c.entries.lookup? c.path name

/-- All that is bound in the current scope. -/
def bindings (c : Context) : Bindings Value := (c.entries.within? c.path).getD .nil

def isDefined (c : Context) (name : String) : Bool := (c.get? name).isSome

/-- Binds a name in the current scope and gives the value that it had before. -/
def exchange (c : Context) (name : String) (v : Value) : Option Value × Context :=
  let (old, entries) := c.entries.exchangeAt c.path name v
  (old, { c with entries })

def set (c : Context) (name : String) (v : Value) : Context := (c.exchange name v).2

def push (c : Context) (f : Frame) : Context := { c with frames := c.frames ++ [f] }

def pop (c : Context) : Context := { c with frames := c.frames.dropLast }

def closeTo (c : Context) (depth : Nat) : Context := { c with frames := c.frames.take depth }

def ofJson (j : Json) : Except EvalError Context :=
  match Value.ofJson j with
  | .context entries => .ok (ofEntries entries)
  | v => .error (.invalidInput
      ("expected a JSON object for the input context, found " ++ v.kind))

@[simp] theorem frames_set (c : Context) (name : String) (v : Value) :
    (c.set name v).frames = c.frames := rfl

theorem entries_set (c : Context) (name : String) (v : Value) :
    (c.set name v).entries = (c.entries.exchangeAt c.path name v).2 := rfl

theorem get?_set_of_root {c : Context} (h : c.frames = []) (name : String) (v : Value)
    (x : String) : (c.set name v).get? x = if name = x then some v else c.get? x := by
  have hp : c.path = [] := by rw [path, h, List.map_nil]
  have hp' : (c.set name v).path = [] := hp
  rw [get?, get?, entries_set, hp', hp]
  exact Bindings.find?_insert c.entries name x v

theorem find?_set_of_ne {c : Context} {name x : String} (v : Value)
    (h : (c.path ++ [name]).head? ≠ some x) :
    (c.set name v).entries.find? x = c.entries.find? x := by
  rw [entries_set]
  cases hp : c.path with
  | nil =>
    rw [hp] at h
    exact Bindings.find?_insert_of_ne _ v (by simpa using h)
  | cons a path =>
    rw [hp] at h
    exact Bindings.find?_insert_of_ne _ _ (by simpa using h)

theorem get?_of_root {c : Context} (h : c.frames = []) (name : String) :
    c.get? name = c.entries.find? name := by
  have hp : c.path = [] := by rw [path, h, List.map_nil]
  rw [get?, hp, Bindings.lookup?_nil]

@[simp] theorem frames_push (c : Context) (f : Frame) : (c.push f).frames = c.frames ++ [f] := rfl

@[simp] theorem entries_push (c : Context) (f : Frame) : (c.push f).entries = c.entries := rfl

@[simp] theorem entries_closeTo (c : Context) (depth : Nat) : (c.closeTo depth).entries = c.entries :=
  rfl

theorem frames_closeTo {c d : Context} {f : Frame} (h : d.frames = (c.push f).frames) :
    (d.closeTo c.depth).frames = c.frames := by
  simp [closeTo, depth, h]

@[simp] theorem closeTo_push (c : Context) (f : Frame) : (c.push f).closeTo c.depth = c := by
  simp [closeTo, push, depth]

@[simp] theorem get?_set_self (c : Context) (name : String) (v : Value) :
    (c.set name v).get? name = some v :=
  Bindings.lookup?_exchangeAt_self c.path name v c.entries

@[simp] theorem find?_bindings (c : Context) (name : String) :
    c.bindings.find? name = c.get? name := by
  unfold bindings get? Bindings.lookup?
  cases c.entries.within? c.path <;> rfl

def same (c d : Context) : Bool :=
  Value.sameEntries c.entries d.entries && c.frames == d.frames

instance : BEq Context := ⟨same⟩

instance : Inhabited Context := ⟨empty⟩

end Context

end DecisionGraph
