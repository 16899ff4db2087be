import DecisionGraph.Session.ContextScript
import Mathlib.Data.List.Infix

namespace DecisionGraph

namespace Bindings

variable {path q : List String} {name x : String} {b : Bindings Value}

theorem fst_exchangeAt (path : List String) (name : String) (v : Value) (b : Bindings Value) :
    (b.exchangeAt path name v).1 = b.lookup? path name := by
  induction path generalizing b with
  | nil => rfl
  | cons n path ih =>
    rw [lookup?_cons]
    simp only [exchangeAt, ih]
    cases (b.find? n).bind Value.entries? with
    | none => cases path <;> rfl
    | some inner => rfl

theorem find?_of_way {v : Value} {inner old : Bindings Value} (hq : q ++ [x] <+: path)
    (hinner : (b.exchangeAt path name v).2.lookup? q x = some (.context inner))
    (hold : b.lookup? q x = some (.context old)) {m : String}
    (hm : ¬(q ++ [x]) ++ [m] <+: path ++ [name]) : inner.find? m = old.find? m := by
  have hbelow : ¬path ++ [name] <+: (q ++ [x]) ++ [m] := by
    intro hp
    rcases List.prefix_concat_iff.mp hp with he | hp
    · exact hm (he ▸ List.prefix_rfl)
    · exact absurd (hp.trans hq).length_le (by simp)
  have hway : ¬(q ++ [x]) ++ [m] <+: path := fun hp => hm (hp.trans (List.prefix_append ..))
  have h := lookup?_exchangeAt_of_apart v hway hbelow (b := b)
  simpa only [lookup?_concat, hinner, hold, Option.bind_some, Value.entries?] using h

theorem lookup?_exchangeAt_behind (path : List String) (name : String) (v : Value)
    (b : Bindings Value) (q : List String) (x : String) :
    (b.exchangeAt path name v).2.lookup? ((path ++ [name]) ++ q) x =
      v.entries?.bind (lookup? q x) := by
  rw [lookup?, within?_append, within?_concat, lookup?_exchangeAt_self, Option.bind_some,
    Option.bind_assoc]
  rfl

theorem within?_of_blocked (hq : q ++ [x] <+: path)
    (h : (b.lookup? q x).bind Value.entries? = none) : b.within? path = none := by
  obtain ⟨rest, rfl⟩ := hq
  rw [within?_append, within?_concat, h, Option.bind_none]

end Bindings

namespace Context

/-- The way from the root through open frames to a name. -/
def address (frames : List Frame) (name : String) : List String := frames.map Frame.name ++ [name]

/-- The same bindings, seen through other frames. -/
def through (c : Context) (frames : List Frame) : Context := { c with frames }

/-- What writing `v` under `name` makes of `c`. -/
structure Written (c d : Context) (name : String) (v : Value) : Prop where
  frames : d.frames = c.frames
  bound : d.get? name = some v ∧ d.isDefined name
  scope : ∀ x, x ≠ name → d.get? x = c.get? x
  /-- Through any frames, what lies neither on the way nor behind it is as before. -/
  beside : ∀ gs x, ¬address gs x <+: address c.frames name →
    ¬address c.frames name <+: address gs x → (d.through gs).get? x = (c.through gs).get? x
  /-- What lies on the way is a context, and one that was there keeps its other entries. -/
  way : ∀ gs x, address gs x <+: address c.frames name → address gs x ≠ address c.frames name →
    ∃ inner, (d.through gs).get? x = some (.context inner) ∧
      ∀ old, (c.through gs).get? x = some (.context old) →
        ∀ m, ¬address gs x ++ [m] <+: address c.frames name → inner.find? m = old.find? m
  /-- Behind the name lies what the value binds. -/
  behind : ∀ gs path x, gs.map Frame.name = address c.frames name ++ path →
    (d.through gs).get? x = v.entries?.bind (Bindings.lookup? path x)

theorem prefix_path_of_way {c : Context} {gs : List Frame} {name x : String}
    (h : address gs x <+: address c.frames name) (hne : address gs x ≠ address c.frames name) :
    address gs x <+: c.path :=
  (List.prefix_concat_iff.mp h).resolve_left hne

theorem eq_of_prefix_address {gs : List Frame} {name x : String}
    (h : address gs x <+: address gs name) : x = name := by
  simpa [address] using h.eq_of_length (by simp [address])

theorem get?_through_set_of_apart {c : Context} {name : String} (v : Value) {gs : List Frame}
    {x : String} (hway : ¬address gs x <+: address c.frames name)
    (hbelow : ¬address c.frames name <+: address gs x) :
    ((c.set name v).through gs).get? x = (c.through gs).get? x :=
  Bindings.lookup?_exchangeAt_of_apart v (fun h => hway (h.trans (List.prefix_append ..))) hbelow

theorem written_set (c : Context) (name : String) (v : Value) : Written c (c.set name v) name v where
  frames := rfl
  bound := by simp [isDefined]
  scope x hx := get?_through_set_of_apart v (fun h => hx (eq_of_prefix_address h))
    fun h => hx (eq_of_prefix_address h).symm
  beside _ _ := get?_through_set_of_apart v
  way gs x h hne := by
    have hway := prefix_path_of_way h hne
    obtain ⟨inner, hinner⟩ := Bindings.lookup?_exchangeAt_of_way name (b := c.entries) v hway
    exact ⟨inner, hinner, fun old hold m hm => Bindings.find?_of_way hway hinner hold hm⟩
  behind gs path x h := by
    have hread := Bindings.lookup?_exchangeAt_behind c.path name v c.entries path x
    rwa [← show gs.map Frame.name = (c.path ++ [name]) ++ path from h] at hread

theorem get?_of_blocked {c : Context} {gs : List Frame} {x : String} (hx : address gs x <+: c.path)
    (h : ((c.through gs).get? x).bind Value.entries? = none) (y : String) : c.get? y = none := by
  have hblocked : c.entries.within? c.path = none := Bindings.within?_of_blocked hx h
  rw [get?, Bindings.lookup?, hblocked, Option.bind_none]

theorem get?_push (c : Context) (f : Frame) (name : String) : (c.push f).get? name =
    ((c.get? f.name).bind Value.entries?).bind fun inner => inner.find? name := by
  have hpath : (c.push f).path = c.path ++ [f.name] := by simp [path]
  rw [get?, hpath, Bindings.lookup?_concat]
  rfl

theorem push_pop_of_frames {c d : Context} {f : Frame} (h : d.frames = c.frames ++ [f]) :
    d.pop.push f = d := by
  rw [push, pop, h, List.dropLast_concat, ← h]

theorem exists_find?_pop_set_push (c : Context) (f : Frame) (name : String) (v : Value) :
    ∃ inner, ((c.push f).set name v).pop.get? f.name = some (.context inner) ∧
      inner.find? name = some v := by
  have h := get?_set_self (c.push f) name v
  rw [← push_pop_of_frames (frames_set (c.push f) name v), get?_push] at h
  obtain ⟨inner, hinner, hv⟩ := Option.bind_eq_some_iff.mp h
  obtain ⟨w, hw, hentries⟩ := Option.bind_eq_some_iff.mp hinner
  exact ⟨inner, Value.entries?_eq_some.mp hentries ▸ hw, hv⟩

/-- A context is a store of values under paths: a write does what it should and gives back the old
value, a read that is blocked on its way changes nothing, and what is written inside a frame lies in
the context under the name of the frame. -/
theorem lawful_store (c : Context) (name : String) (v : Value) :
    (c.exchange name v).1 = c.get? name ∧ Written c (c.set name v) name v ∧
      (∀ gs x, address gs x <+: c.path → ((c.through gs).get? x).bind Value.entries? = none →
        ∀ s : ContextScript, s.current = c → ∀ y,
          s.run (.get y) = (.slot none, s) ∧ s.run (.defined y) = (.truth false, s)) ∧
      ∀ f : Frame, ((c.push f).set name v).pop.frames = c.frames ∧
        ∃ inner, ((c.push f).set name v).pop.get? f.name = some (.context inner) ∧
          inner.find? name = some v := by
  refine ⟨Bindings.fst_exchangeAt .., written_set c name v, ?_, fun f => ⟨?_, ?_⟩⟩
  · rintro gs x hx h s rfl y
    have hnone := get?_of_blocked hx h y
    simp [ContextScript.run, isDefined, hnone]
  · simp [pop]
  · exact exists_find?_pop_set_push c f name v

def rated : Context where
  entries := .ofList [("lib", .context (.ofList [("rate", .integer 1)])), ("net", .integer 2)]
  frames := [⟨"lib", "urn:lib"⟩, ⟨"tax", "urn:tax"⟩]

theorem lawful_store_rated :
    (¬address [] "net" <+: address rated.frames "due" ∧
      ¬address rated.frames "due" <+: address [] "net" ∧
      ((rated.set "due" .null).through []).get? "net" = some (.integer 2)) ∧
    (address [] "lib" <+: address rated.frames "due" ∧
      address [] "lib" ≠ address rated.frames "due" ∧
      ¬address [] "lib" ++ ["rate"] <+: address rated.frames "due" ∧
      ∃ inner, ((rated.set "due" .null).through []).get? "lib" = some (.context inner) ∧
        inner.find? "rate" = some (.integer 1)) ∧
    address [⟨"lib", "urn:lib"⟩] "tax" <+: rated.path ∧
    ((rated.through [⟨"lib", "urn:lib"⟩]).get? "tax").bind Value.entries? = none ∧
    (ContextScript.mk rated .nil).run (.get "due") = (.slot none, ⟨rated, .nil⟩) := by
  obtain ⟨-, hwritten, hblocked, -⟩ := lawful_store rated "due" .null
  have hbeside : ¬address [] "net" <+: address rated.frames "due" := by decide
  have hbeside' : ¬address rated.frames "due" <+: address [] "net" := by decide
  have hway : address [] "lib" <+: address rated.frames "due" := by decide
  have hne : address [] "lib" ≠ address rated.frames "due" := by decide
  have hrate : ¬address [] "lib" ++ ["rate"] <+: address rated.frames "due" := by decide
  have hx : address [⟨"lib", "urn:lib"⟩] "tax" <+: rated.path := by decide
  have hmissing : ((rated.through [⟨"lib", "urn:lib"⟩]).get? "tax").bind Value.entries? = none := rfl
  obtain ⟨inner, hinner, hkept⟩ := hwritten.way [] "lib" hway hne
  exact ⟨⟨hbeside, hbeside', hwritten.beside [] "net" hbeside hbeside'⟩,
    ⟨hway, hne, hrate, inner, hinner, hkept _ rfl "rate" hrate⟩,
    hx, hmissing, (hblocked _ _ hx hmissing _ rfl "due").1⟩

end Context

end DecisionGraph
