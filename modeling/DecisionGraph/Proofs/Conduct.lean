import DecisionGraph.Proofs.Delivery

namespace DecisionGraph

open Incident

variable {β ε μ : Type}

/-- What can be seen of a site. -/
structure View (β ε μ : Type) where
  /-- The family that a handle leads to. -/
  family? : String → Option Nat
  memory : μ
  log : List (Incident β ε)

namespace View

def note (v : View β ε μ) (i : Incident β ε) : View β ε μ := { v with log := v.log ++ [i] }

def registered (v : View β ε μ) (handle : String) : List (Nat × β) :=
  (v.family? handle).elim [] (Incident.registered · v.log)

def lead (v : View β ε μ) (handle : String) (f : Nat) : View β ε μ :=
  { v with family? := fun other => if handle = other then some f else v.family? other }

def share (v : View β ε μ) (handle copy : String) : View β ε μ :=
  (v.family? handle).elim v (v.lead copy)

end View

def Site.view (s : Site β ε μ) : View β ε μ := ⟨s.family?, s.memory, s.log⟩

def Handed (reacts : β → ε → View β ε μ → View β ε μ → Prop) (e : ε) :
    List β → View β ε μ → View β ε μ → Prop
  | [], v, w => w = v
  | b :: rest, v, w => ∃ u, reacts b e v u ∧ Handed reacts e rest u w

namespace Conduct

/-- How a conduct may go by what can be seen. Each of its steps adds its incident to the log, and
the conduct goes on by the answer: an addition gets a number that the log does not show, a removal
succeeds exactly if the number is registered then, and a delivery lets exactly the listeners react
that are registered at its beginning. -/
inductive Plays (reacts : Nat → β → ε → View β ε μ → View β ε μ → Prop) :
    Conduct β ε μ → View β ε μ → View β ε μ → Prop where
  | done {v : View β ε μ} : Plays reacts .done v v
  | add {handle : String} {b : β} {next : Nat → Conduct β ε μ} {n : Nat} {v w : View β ε μ} :
      (∀ i ∈ v.log, i.number? ≠ some n) →
      Plays reacts (next n) (v.note (.added (v.family? handle) n b)) w →
      Plays reacts (.add handle b next) v w
  | remove {handle : String} {n : Nat} {next : Bool → Conduct β ε μ} {found : Bool}
      {v w : View β ε μ} : (found = true ↔ ∃ b, (n, b) ∈ v.registered handle) →
      Plays reacts (next found) (v.note (.removed (v.family? handle) n found)) w →
      Plays reacts (.remove handle n next) v w
  | look {handle : String} {next : Listeners β → Conduct β ε μ} {seen : Listeners β}
      {v w : View β ε μ} : seen.entries.Perm (v.registered handle) →
      Plays reacts (next seen) (v.note (.looked (v.family? handle) seen)) w →
      Plays reacts (.look handle next) v w
  | fire {handle : String} {e : ε} {next : Conduct β ε μ} {k : Nat} {receivers : List β}
      {v u w : View β ε μ} : receivers.Perm ((v.registered handle).map Prod.snd) →
      Handed (reacts k) e receivers (v.note (.began (v.family? handle) k e)) u →
      Plays reacts next (u.note (.ended k)) w →
      Plays reacts (.fire handle e next) v w
  | share {handle copy : String} {next : Conduct β ε μ} {v w : View β ε μ} :
      Plays reacts next (v.share handle copy) w → Plays reacts (.share handle copy next) v w
  | create {handle : String} {next : Conduct β ε μ} {f : Nat} {v w : View β ε μ} :
      (∀ other, v.family? other ≠ some f) → registered f v.log = [] →
      Plays reacts next (v.lead handle f) w → Plays reacts (.create handle next) v w
  | remember {write : μ → μ} {next : μ → Conduct β ε μ} {v w : View β ε μ} :
      Plays reacts (next (write v.memory)) { v with memory := write v.memory } w →
      Plays reacts (.remember write next) v w

/-- A listener is handed the event, and then its hook plays, in a delivery with room for others. -/
def Reacts (hooks : β → ε → Conduct β ε μ) : Nat → Nat → β → ε → View β ε μ → View β ε μ → Prop
  | 0, k, b, e, v, w => w = v.note (.delivered k b e)
  | room + 1, k, b, e, v, w => (hooks b e).Plays (Reacts hooks room) (v.note (.delivered k b e)) w

end Conduct

namespace Site

variable {s : Site β ε μ} {handle : String} {n : Nat}

theorem Sound.entries (h : s.Sound) (handle : String) :
    (s.listeners handle).entries = s.view.registered handle := by
  change _ = (s.family? handle).elim [] (Incident.registered · s.log)
  cases hf : s.family? handle with
  | none =>
    rw [listeners, Shared.get?, show s.sets.handles.find? handle = none from hf]
    rfl
  | some f => exact h.entries_listeners hf

theorem Sound.found_iff (h : s.Sound) :
    (s.remove handle n).1 = true ↔ ∃ b, (n, b) ∈ s.view.registered handle := by
  change (s.listeners handle).contains n = true ↔ _
  rw [Listeners.contains, h.entries, List.any_eq_true]
  constructor
  · rintro ⟨⟨m, b⟩, hmem, hm⟩
    obtain rfl : m = n := beq_iff_eq.mp hm
    exact ⟨b, hmem⟩
  · rintro ⟨b, hmem⟩
    exact ⟨(n, b), hmem, beq_self_eq_true n⟩

theorem view_add (s : Site β ε μ) (handle : String) (b : β) :
    (s.add handle b).view = s.view.note (.added (s.view.family? handle) s.next b) := by
  have hfamily : (s.add handle b).family? = s.family? := by
    funext other
    exact congrArg (·.find? other) (s.sets.handles_set handle _)
  exact congrArg (View.mk · s.memory _) hfamily

theorem view_remove (s : Site β ε μ) (handle : String) (n : Nat) :
    (s.remove handle n).2.view =
      s.view.note (.removed (s.view.family? handle) n (s.remove handle n).1) := by
  have hfamily : (s.remove handle n).2.family? = s.family? := by
    funext other
    exact congrArg (·.find? other) (s.sets.handles_set handle _)
  exact congrArg (View.mk · s.memory _) hfamily

theorem Sound.view_create (h : s.Sound) (handle : String) : ∃ f,
    (∀ other, s.view.family? other ≠ some f) ∧ registered f s.log = [] ∧
      (s.create handle).view = s.view.lead handle f := by
  refine ⟨s.sets.states.length, fun other ho => ?_, ?_, ?_⟩
  · exact Nat.lt_irrefl _ (h.sets.family other _ ho)
  · have hblank := h.sets.holds s.sets.states.length
    rw [List.getElem?_eq_none (Nat.le_refl _), Option.getD_none] at hblank
    exact hblank.symm
  · have hfamily : (s.create handle).family? =
        (s.view.lead handle s.sets.states.length).family? := by
      funext other
      exact Bindings.find?_insert ..
    exact congrArg (View.mk · s.memory s.log) hfamily

theorem view_share (s : Site β ε μ) (handle copy : String) :
    (s.share handle copy).view = s.view.share handle copy := by
  cases hf : s.sets.handles.find? handle with
  | none => simp [view, share, Shared.share, View.share, family?, hf]
  | some f =>
    have hfamily : (s.share handle copy).family? = (s.view.lead copy f).family? := by
      funext other
      rw [family?, share, Shared.share, hf]
      exact Bindings.find?_insert ..
    have hview : s.view.share handle copy = s.view.lead copy f := by
      simp [View.share, view, family?, hf]
    rw [hview]
    exact congrArg (View.mk · s.memory s.log) hfamily

variable {k : Nat} {e : ε} {react : Nat → β → ε → Site β ε μ → Site β ε μ}

theorem foldl_handed {reacts : β → ε → View β ε μ → View β ε μ → Prop}
    (hreact : ∀ b e (s : Site β ε μ), s.Sound → k < s.fires → s.Hands k [(b, e)] (react k b e s))
    (hreacts : ∀ b e (s : Site β ε μ), s.Sound → k < s.fires →
      reacts b e s.view (react k b e s).view)
    (receivers : List β) (hs : s.Sound) (hk : k < s.fires) :
    Handed reacts e receivers s.view (receivers.foldl (fun s b => react k b e s) s).view := by
  induction receivers generalizing s with
  | nil => rfl
  | cons b receivers ih =>
    have hhead := hreact b e s hs hk
    exact ⟨_, hreacts b e s hs hk, ih hhead.1 (hhead.lt_fires hk)⟩

end Site

namespace Conduct

variable {arrange : Arrangement β} (harrange : ∀ t l, (arrange t l).Perm l)

include harrange

theorem perform_plays {react : Nat → β → ε → Site β ε μ → Site β ε μ}
    {reacts : Nat → β → ε → View β ε μ → View β ε μ → Prop}
    (hreact : ∀ k b e (s : Site β ε μ), s.Sound → k < s.fires → s.Hands k [(b, e)] (react k b e s))
    (hreacts : ∀ k b e (s : Site β ε μ), s.Sound → k < s.fires →
      reacts k b e s.view (react k b e s).view)
    (c : Conduct β ε μ) {s : Site β ε μ} (hs : s.Sound) :
    c.Plays reacts s.view (c.perform arrange react s).view := by
  induction c generalizing s with
  | done => exact .done
  | add handle b next ih =>
    refine .add (fun i hi hn => Nat.lt_irrefl _ (hs.numbers i hi s.next hn)) ?_
    rw [← Site.view_add]
    exact ih _ (hs.add handle b)
  | remove handle n next ih =>
    refine .remove hs.found_iff ?_
    rw [← Site.view_remove]
    exact ih _ (hs.remove handle n)
  | look handle next ih =>
    refine .look ?_ (ih _ (hs.look harrange handle))
    rw [← hs.entries]
    exact harrange _ _
  | fire handle e next ih =>
    have hreceivers : (s.listed arrange handle).all.Perm
        ((s.view.registered handle).map Prod.snd) :=
      hs.entries handle ▸ (harrange _ _).map Prod.snd
    have hhanded := Site.foldl_handed (e := e) (hreact s.fires) (hreacts s.fires)
      (s.listed arrange handle).all (hs.begun handle e) (Nat.lt_succ_self s.fires)
    exact .fire hreceivers hhanded (ih (Site.fire_leads harrange hreact hs handle e).1)
  | share handle copy next ih =>
    refine .share ?_
    rw [← Site.view_share]
    exact ih (hs.share handle copy)
  | create handle next ih =>
    obtain ⟨f, hfree, hblank, hview⟩ := hs.view_create handle
    refine .create hfree hblank ?_
    rw [← hview]
    exact ih (hs.create handle)
  | remember write next ih => exact .remember (ih _ (hs.remember (write s.memory)))

theorem react_plays (hooks : β → ε → Conduct β ε μ) (room : Nat) : ∀ k b e (s : Site β ε μ),
    s.Sound → k < s.fires →
      Reacts hooks room k b e s.view (react arrange hooks room k b e s).view := by
  induction room with
  | zero => exact fun k b e s _ _ => rfl
  | succ room ih =>
    intro k b e s hs hk
    exact perform_plays harrange (react_hands harrange hooks room) ih (hooks b e)
      (Site.note_hands hs hk b e).1

end Conduct

/-- Whatever sets are made and shared, whatever listeners are added, removed and reached by events,
and whatever the hooks do meanwhile, every step of every conduct leaves its incident, answers and
takes effect as the log before it says. In particular a delivery hands its event to exactly the
registrations that its family has when it begins, between its beginning and its end and nowhere
else; through every handle of a family one sees what was added to the family and not removed from
it; numbers are fresh; and a number is found for removal exactly if it was added and not removed
before, so once. -/
theorem delivers_to_registered {arrange : Arrangement β} (harrange : ∀ t l, (arrange t l).Perm l)
    (hooks : β → ε → Conduct β ε μ) (room : Nat) (c : Conduct β ε μ) (memory : μ) {s : Site β ε μ}
    (hs : c.perform arrange (Conduct.react arrange hooks room) (.start memory) = s) :
    c.Plays (Conduct.Reacts hooks room) ⟨fun _ => none, memory, []⟩ s.view ∧
    (∀ before after f k e, s.log = before ++ .began (some f) k e :: after → ∃ inside rest,
      after = inside ++ .ended k :: rest ∧
      (deliveries k inside).Perm ((registered f before).map fun r => (r.2, e)) ∧
      deliveries k before = [] ∧ deliveries k rest = []) ∧
    (∀ handle f, s.family? handle = some f →
      ∃ l, s.sets.get? handle = some l ∧ l.entries.Perm (registered f s.log)) ∧
    (∀ before after f seen, s.log = before ++ .looked (some f) seen :: after →
      seen.entries.Perm (registered f before)) ∧
    (∀ before after f n b, s.log = before ++ .added f n b :: after →
      ∀ g b', .added g n b' ∉ before) ∧
    ∀ before after f n found, s.log = before ++ .removed (some f) n found :: after →
      (found = true ↔ (∃ b, .added (some f) n b ∈ before) ∧ .removed (some f) n true ∉ before) := by
  have hstart := Site.Sound.start (β := β) (ε := ε) memory
  have hplays := c.perform_plays harrange (Conduct.react_hands harrange hooks room)
    (Conduct.react_plays harrange hooks room) hstart
  obtain ⟨hsound, part, hpart, hwhole⟩ :=
    hs ▸ c.perform_leads harrange (Conduct.react_hands harrange hooks room) hstart
  refine ⟨hs ▸ hplays, fun before after f k e hcut => ?_, fun handle f hf => ?_,
    fun before after f seen hcut => hsound.right _ _ _ hcut,
    fun before after f n b hcut g b' hmem => ?_,
    fun before after f n found hcut => hsound.right _ _ _ hcut⟩
  · exact hwhole.fires before after f k e (hpart.symm.trans hcut)
  · obtain ⟨l, hget, hl⟩ := hsound.sets.get? hf
    exact ⟨l, hget, .of_eq hl⟩
  · exact hsound.right _ _ _ hcut _ hmem rfl

/-- At the opening the host sends the guest away, lets another in and says hello. -/
def receptionHooks (listener event : String) : Conduct String String Unit :=
  if listener = "host" ∧ event = "opening" then
    .remove "hall" 1 fun _ => .add "door" "latecomer" fun _ => .fire "door" "hello" .done
  else .done

def reception : Conduct String String Unit :=
  .create "hall" <| .add "hall" "host" fun _ => .add "hall" "guest" fun _ =>
    .share "hall" "door" <| .fire "door" "opening" .done

def afterReception : Site String String Unit :=
  reception.perform (fun _ l => l) (Conduct.react (fun _ l => l) receptionHooks 2) (.start ())

/-- Through the door the opening reaches the guest, although the host sends the guest away first,
and not the latecomer. The hello within it reaches the host and the latecomer, and not the guest. -/
theorem delivers_to_registered_reception :
    afterReception.log = [.added (some 0) 0 "host", .added (some 0) 1 "guest",
      .began (some 0) 0 "opening", .delivered 0 "host" "opening", .removed (some 0) 1 true,
      .added (some 0) 2 "latecomer", .began (some 0) 1 "hello", .delivered 1 "host" "hello",
      .delivered 1 "latecomer" "hello", .ended 1, .delivered 0 "guest" "opening", .ended 0] ∧
    reception.Plays (Conduct.Reacts receptionHooks 2) ⟨fun _ => none, (), []⟩ afterReception.view ∧
    (∃ b, .added (some 0) 1 b ∈ afterReception.log.take 4) ∧
    (∃ inside rest, afterReception.log.drop 3 = inside ++ .ended 0 :: rest ∧
      (deliveries 0 inside).Perm [("host", "opening"), ("guest", "opening")]) ∧
    (∃ inside rest, afterReception.log.drop 7 = inside ++ .ended 1 :: rest ∧
      (deliveries 1 inside).Perm [("host", "hello"), ("latecomer", "hello")]) ∧
    ∃ l, afterReception.sets.get? "door" = some l ∧ l.entries.Perm [(0, "host"), (2, "latecomer")] := by
  obtain ⟨hplays, hdelivered, hsets, -, -, hremoved⟩ := delivers_to_registered (fun _ l => .refl l)
    receptionHooks 2 reception () (s := afterReception) rfl
  have hopening : afterReception.log = afterReception.log.take 2 ++
      .began (some 0) 0 "opening" :: afterReception.log.drop 3 := rfl
  have hhello : afterReception.log = afterReception.log.take 6 ++
      .began (some 0) 1 "hello" :: afterReception.log.drop 7 := rfl
  have hsent : afterReception.log = afterReception.log.take 4 ++
      .removed (some 0) 1 true :: afterReception.log.drop 5 := rfl
  obtain ⟨inside, rest, hafter, hperm, -⟩ := hdelivered _ _ 0 0 "opening" hopening
  obtain ⟨inside', rest', hafter', hperm', -⟩ := hdelivered _ _ 0 1 "hello" hhello
  exact ⟨rfl, hplays, ((hremoved _ _ 0 1 true hsent).mp rfl).1, ⟨inside, rest, hafter, hperm⟩,
    ⟨inside', rest', hafter', hperm'⟩, hsets "door" 0 rfl⟩

end DecisionGraph
