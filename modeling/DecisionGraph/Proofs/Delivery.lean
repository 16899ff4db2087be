import DecisionGraph.Listeners.Conduct
import DecisionGraph.Proofs.Handles

namespace DecisionGraph

variable {β ε μ : Type}

namespace Incident

/-- The registration that is made in a family. -/
def addition? (family : Nat) : Incident β ε → Option (Nat × β)
  | added (some f) n b => if f = family then some (n, b) else none
  | _ => none

/-- The registration of a number is taken out of a family. -/
def takesOut (family n : Nat) : Incident β ε → Bool
  | removed (some f) m true => f == family && m == n
  | _ => false

def number? : Incident β ε → Option Nat
  | added _ n _ => some n
  | removed _ n true => some n
  | _ => none

/-- What the delivery of a number hands to whom. -/
def delivery? (number : Nat) : Incident β ε → Option (β × ε)
  | delivered k b e => if k = number then some (b, e) else none
  | _ => none

/-- What was added to a family and not removed from it. -/
def registered (family : Nat) (log : List (Incident β ε)) : List (Nat × β) :=
  (log.filterMap (·.addition? family)).filter fun r => !log.any (·.takesOut family r.1)

def deliveries (number : Nat) (log : List (Incident β ε)) : List (β × ε) :=
  log.filterMap (·.delivery? number)

/-- What an incident says, by the log before it. -/
def Right (before : List (Incident β ε)) : Incident β ε → Prop
  | added _ n _ => ∀ i ∈ before, i.number? ≠ some n
  | removed (some f) n found => found = true ↔
      (∃ b, added (some f) n b ∈ before) ∧ removed (some f) n true ∉ before
  | looked (some f) seen => seen.entries.Perm (registered f before)
  | _ => True

end Incident

open Incident

theorem cut_append {α : Type} {p q before after : List α} {x : α}
    (h : p ++ q = before ++ x :: after) :
    (∃ rest, p = before ++ x :: rest ∧ after = rest ++ q) ∨
      ∃ first, before = p ++ first ∧ q = first ++ x :: after := by
  rcases List.append_eq_append_iff.mp h with ⟨first, hb, hq⟩ | ⟨rest, hp, hx⟩
  · exact .inr ⟨first, hb, hq⟩
  · cases rest with
    | nil => exact .inr ⟨[], by simpa using hp.symm, hx.symm⟩
    | cons y rest =>
      obtain ⟨rfl, hafter⟩ := List.cons.inj hx
      exact .inl ⟨rest, hp, hafter⟩

theorem cut_concat {α : Type} {p before after : List α} {x y : α}
    (h : p ++ [y] = before ++ x :: after) :
    (∃ rest, p = before ++ x :: rest ∧ after = rest ++ [y]) ∨ before = p ∧ x = y := by
  rcases cut_append h with hp | ⟨first, rfl, hy⟩
  · exact .inl hp
  · cases first with
    | nil => exact .inr ⟨List.append_nil p, (List.cons.inj hy).1.symm⟩
    | cons z first => simp at hy

section Registered

variable {log : List (Incident β ε)} {i : Incident β ε} {f n : Nat} {b : β}

theorem takesOut_iff : i.takesOut f n = true ↔ i = removed (some f) n true := by
  rcases i with _ | ⟨_ | g, m, _ | _⟩ | _ | _ | _ | _ <;> simp [takesOut]

theorem mem_registered : (n, b) ∈ registered f log ↔
    added (some f) n b ∈ log ∧ removed (some f) n true ∉ log := by
  have hadded : (n, b) ∈ log.filterMap (·.addition? f) ↔ added (some f) n b ∈ log := by
    rw [List.mem_filterMap]
    constructor
    · rintro ⟨i, hi, heq⟩
      rcases i with ⟨_ | g, m, c⟩ | _ | _ | _ | _ | _ <;> simp [addition?] at heq
      obtain ⟨rfl, rfl, rfl⟩ := heq
      exact hi
    · exact fun h => ⟨_, h, by simp [addition?]⟩
  rw [registered, List.mem_filter, hadded, Bool.not_eq_true', List.any_eq_false]
  exact and_congr_right fun _ => ⟨fun h hmem => h _ hmem (takesOut_iff.mpr rfl),
    fun h i hi htakes => h (takesOut_iff.mp htakes ▸ hi)⟩

theorem registered_concat_quiet (hadd : i.addition? f = none) (hout : ∀ n, i.takesOut f n = false) :
    registered f (log ++ [i]) = registered f log := by
  simp [registered, hadd, hout]

theorem registered_concat_added (hfresh : ∀ i ∈ log, i.number? ≠ some n) :
    registered f (log ++ [added (some f) n b]) = registered f log ++ [(n, b)] := by
  have hout : log.any (·.takesOut f n) = false := by
    rw [List.any_eq_false]
    intro i hi htakes
    exact hfresh i hi (by rw [takesOut_iff.mp htakes, number?])
  have hadd : ([added (some f) n b] : List (Incident β ε)).filterMap (·.addition? f) = [(n, b)] := by
    simp [addition?]
  have hany (m : Nat) : (log ++ [added (some f) n b]).any (·.takesOut f m) =
      log.any (·.takesOut f m) := by
    rw [List.any_append]
    exact Bool.or_false _
  rw [registered, List.filterMap_append, hadd, List.filter_append]
  simp only [hany]
  rw [List.filter_cons_of_pos (by rw [hout, Bool.not_false]), List.filter_nil]
  rfl

theorem registered_concat_removed :
    registered f (log ++ [removed (some f) n true]) = (registered f log).filter (·.1 != n) := by
  have hadd : ([removed (some f) n true] : List (Incident β ε)).filterMap (·.addition? f) = [] := rfl
  have hany (m : Nat) : (log ++ [removed (some f) n true]).any (·.takesOut f m) =
      (log.any (·.takesOut f m) || n == m) := by
    rw [List.any_append]
    simp only [List.any_cons, List.any_nil, takesOut, beq_self_eq_true, Bool.true_and, Bool.or_false]
  rw [registered, registered, List.filterMap_append, hadd, List.append_nil, List.filter_filter]
  refine List.filter_congr fun r _ => ?_
  rw [hany, Bool.not_or, Bool.and_comm, bne, Bool.beq_comm]

end Registered

namespace Site

/-- The sets are what the log says is registered, and the log is right at every incident. -/
structure Sound (s : Site β ε μ) : Prop where
  sets : s.sets.Tracks .empty fun f l => l.entries = registered f s.log
  numbers : ∀ i ∈ s.log, ∀ n, i.number? = some n → n < s.next
  right : ∀ before i after, s.log = before ++ i :: after → i.Right before

namespace Sound

variable {s s' : Site β ε μ} {i : Incident β ε} {handle : String} {f n : Nat}
  {arrange : Arrangement β}

theorem start (memory : μ) : (start memory : Site β ε μ).Sound where
  sets := Shared.Tracks.empty fun _ => rfl
  numbers := nofun
  right before i after h := by simp [Site.start] at h

theorem concat (h : s.Sound) (hlog : s'.log = s.log ++ [i])
    (hsets : s'.sets.Tracks .empty fun f l => l.entries = registered f (s.log ++ [i]))
    (hnext : s.next ≤ s'.next) (hnumber : ∀ n, i.number? = some n → n < s'.next)
    (hright : i.Right s.log) : s'.Sound := by
  refine ⟨hlog ▸ hsets, fun j hj n hn => ?_, fun before j after hcut => ?_⟩
  · rw [hlog] at hj
    rcases List.mem_append.mp hj with hj | hj
    · exact Nat.lt_of_lt_of_le (h.numbers j hj n hn) hnext
    · exact hnumber n (List.mem_singleton.mp hj ▸ hn)
  · rw [hlog] at hcut
    rcases cut_concat hcut with ⟨rest, hs, -⟩ | ⟨rfl, rfl⟩
    · exact h.right before j rest hs
    · exact hright

theorem note (h : s.Sound) (hadd : ∀ f, i.addition? f = none)
    (hout : ∀ f n, i.takesOut f n = false) (hnumber : i.number? = none) (hright : i.Right s.log) :
    (s.note i).Sound := by
  refine h.concat rfl (h.sets.mono fun f l hl => ?_) (Nat.le_refl _) (fun n hn => ?_) hright
  · rw [registered_concat_quiet (hadd f) (hout f)]
    exact hl
  · rw [hnumber] at hn
    cases hn

theorem entries_listeners (h : s.Sound) (hf : s.family? handle = some f) :
    (s.listeners handle).entries = registered f s.log := by
  obtain ⟨l, hget, hl⟩ := h.sets.get? hf
  rw [listeners, hget]
  exact hl

theorem add (h : s.Sound) (handle : String) (b : β) : (s.add handle b).Sound := by
  have hfresh : ∀ i ∈ s.log, i.number? ≠ some s.next := fun i hi hn =>
    Nat.lt_irrefl _ (h.numbers i hi _ hn)
  refine h.concat rfl (h.sets.set (fun f hf => ?_) fun f l hf hl => ?_) (Nat.le_succ _)
    (fun n hn => Option.some.inj hn ▸ Nat.lt_succ_self _) hfresh
  · rw [Listeners.add, h.entries_listeners hf, family?, hf, registered_concat_added hfresh]
  · rw [registered_concat_quiet ?_ fun n => rfl]
    · exact hl
    · cases hg : s.family? handle with
      | none => rfl
      | some g => exact if_neg fun he : g = f => hf (he ▸ hg)

theorem contains_listeners (h : s.Sound) (hf : s.family? handle = some f) :
    (s.listeners handle).contains n = true ↔
      (∃ b, Incident.added (some f) n b ∈ s.log) ∧ Incident.removed (some f) n true ∉ s.log := by
  rw [Listeners.contains, h.entries_listeners hf, List.any_eq_true]
  constructor
  · rintro ⟨⟨m, b⟩, hmem, hm⟩
    obtain rfl : m = n := beq_iff_eq.mp hm
    exact ⟨⟨b, (mem_registered.mp hmem).1⟩, (mem_registered.mp hmem).2⟩
  · rintro ⟨⟨b, hadd⟩, hout⟩
    exact ⟨(n, b), mem_registered.mpr ⟨hadd, hout⟩, beq_self_eq_true n⟩

theorem lt_next_of_contains (h : s.Sound) (hn : (s.listeners handle).contains n = true) :
    n < s.next := by
  cases hf : s.family? handle with
  | none =>
    rw [listeners, Shared.get?, show s.sets.handles.find? handle = none from hf] at hn
    cases hn
  | some f =>
    obtain ⟨⟨b, hadd⟩, -⟩ := (h.contains_listeners hf).mp hn
    exact h.numbers _ hadd n rfl

theorem remove (h : s.Sound) (handle : String) (n : Nat) : (s.remove handle n).2.Sound := by
  refine h.concat rfl (h.sets.set (fun f hf => ?_) fun f l hf hl => ?_) (Nat.le_refl _)
    (fun m hm => ?_) ?_
  · change (s.listeners handle).entries.filter (fun e => e.1 != n) = registered f
      (s.log ++ [.removed (s.family? handle) n ((s.listeners handle).contains n)])
    rw [h.entries_listeners hf, show s.family? handle = some f from hf]
    cases hfound : (s.listeners handle).contains n with
    | true => rw [registered_concat_removed]
    | false =>
      rw [registered_concat_quiet rfl fun _ => rfl, List.filter_eq_self]
      intro e he
      rw [Listeners.contains, h.entries_listeners hf, List.any_eq_false] at hfound
      exact bne_iff_ne.mpr fun hen => hfound e he (beq_iff_eq.mpr hen)
  · rw [registered_concat_quiet rfl fun m => ?_]
    · exact hl
    · rw [Bool.eq_false_iff]
      intro htakes
      exact hf (Incident.removed.inj (takesOut_iff.mp htakes)).1
  · cases hfound : (s.listeners handle).contains n with
    | true =>
      rw [hfound] at hm
      exact Option.some.inj hm ▸ h.lt_next_of_contains hfound
    | false =>
      rw [hfound] at hm
      cases hm
  · cases hf : s.family? handle with
    | none => trivial
    | some f => exact h.contains_listeners hf

theorem look (h : s.Sound) (harrange : ∀ t l, (arrange t l).Perm l) (handle : String) :
    (s.look arrange handle).2.Sound := by
  refine h.note (fun f => rfl) (fun f n => rfl) rfl ?_
  cases hf : s.family? handle with
  | none => trivial
  | some f =>
    change (arrange _ (s.listeners handle).entries).Perm (registered f s.log)
    rw [h.entries_listeners hf]
    exact harrange _ _

theorem begun (h : s.Sound) (handle : String) (e : ε) :
    ({ s.note (.began (s.family? handle) s.fires e) with
      fires := s.fires + 1 } : Site β ε μ).Sound :=
  have hnote := h.note (i := .began (s.family? handle) s.fires e) (fun _ => rfl) (fun _ _ => rfl) rfl
    trivial
  ⟨hnote.sets, hnote.numbers, hnote.right⟩

theorem share (h : s.Sound) (handle copy : String) : (s.share handle copy).Sound :=
  ⟨h.sets.share handle copy, h.numbers, h.right⟩

theorem create (h : s.Sound) (handle : String) : (s.create handle).Sound :=
  ⟨h.sets.create handle, h.numbers, h.right⟩

theorem remember (h : s.Sound) (memory : μ) : ({ s with memory := memory } : Site β ε μ).Sound :=
  ⟨h.sets, h.numbers, h.right⟩

end Sound

end Site

theorem deliveries_append (k : Nat) (p q : List (Incident β ε)) :
    deliveries k (p ++ q) = deliveries k p ++ deliveries k q := List.filterMap_append

theorem deliveries_eq_nil {k : Nat} {p : List (Incident β ε)} (h : ∀ b e, delivered k b e ∉ p) :
    deliveries k p = [] := by
  refine List.filterMap_eq_nil_iff.mpr fun i hi => ?_
  cases i with
  | delivered j b e => exact if_neg fun hj : j = k => h b e (hj ▸ hi)
  | _ => rfl

/-- A part of a log with the deliveries `lo` to `hi`, all of them whole, and perhaps some of a
current delivery around them. -/
structure Whole (past : List (Incident β ε)) (current : Option Nat) (lo hi : Nat)
    (part : List (Incident β ε)) : Prop where
  le : lo ≤ hi
  current_lt : ∀ k, current = some k → k < lo
  began : ∀ f k e, began f k e ∈ part → lo ≤ k ∧ k < hi
  delivered : ∀ k b e, delivered k b e ∈ part → current = some k ∨ lo ≤ k ∧ k < hi
  fires : ∀ before after f k e, part = before ++ .began (some f) k e :: after → ∃ inside rest,
    after = inside ++ .ended k :: rest ∧
    (deliveries k inside).Perm ((registered f (past ++ before)).map fun r => (r.2, e)) ∧
    deliveries k before = [] ∧ deliveries k rest = []

namespace Whole

variable {past p q : List (Incident β ε)} {current : Option Nat} {lo mid hi k : Nat}

theorem nil (h : ∀ k, current = some k → k < lo) : Whole past current lo lo [] where
  le := Nat.le_refl _
  current_lt := h
  began := nofun
  delivered := nofun
  fires before after f k e hcut := by simp at hcut

theorem single {i : Incident β ε} (h : ∀ k, current = some k → k < lo)
    (hbegan : ∀ f k e, i ≠ .began f k e) (hdelivered : ∀ k b e, i = .delivered k b e → current = some k) :
    Whole past current lo lo [i] where
  le := Nat.le_refl _
  current_lt := h
  began f k e hi := absurd (List.mem_singleton.mp hi).symm (hbegan f k e)
  delivered k b e hi := .inl (hdelivered k b e (List.mem_singleton.mp hi).symm)
  fires before after f k e hcut := by
    have hi : Incident.began (some f) k e ∈ [i] := hcut ▸ List.mem_append_right _ List.mem_cons_self
    exact absurd (List.mem_singleton.mp hi).symm (hbegan _ k e)

theorem append (hp : Whole past current lo mid p) (hq : Whole (past ++ p) current mid hi q) :
    Whole past current lo hi (p ++ q) := by
  refine ⟨Nat.le_trans hp.le hq.le, hp.current_lt, fun f k e hi => ?_, fun k b e hi => ?_,
    fun before after f k e hcut => ?_⟩
  · rcases List.mem_append.mp hi with hi | hi
    · exact ⟨(hp.began f k e hi).1, Nat.lt_of_lt_of_le (hp.began f k e hi).2 hq.le⟩
    · exact ⟨Nat.le_trans hp.le (hq.began f k e hi).1, (hq.began f k e hi).2⟩
  · rcases List.mem_append.mp hi with hi | hi
    · exact (hp.delivered k b e hi).imp_right fun h => ⟨h.1, Nat.lt_of_lt_of_le h.2 hq.le⟩
    · exact (hq.delivered k b e hi).imp_right fun h => ⟨Nat.le_trans hp.le h.1, h.2⟩
  · rcases cut_append hcut with ⟨rest, hcutp, rfl⟩ | ⟨first, rfl, hcutq⟩
    · -- Begun in the first part: the second part has later deliveries and the current one only.
      obtain ⟨inside, rest', hrest, hinside, hbefore, hrest'⟩ := hp.fires before rest f k e hcutp
      have hk := hp.began (some f) k e (hcutp ▸ List.mem_append_right _ List.mem_cons_self)
      have hnone : deliveries k q = [] := deliveries_eq_nil fun b e hi => by
        rcases hq.delivered k b e hi with hc | hc
        · exact Nat.not_lt.mpr hk.1 (hp.current_lt k hc)
        · exact Nat.not_lt.mpr hc.1 hk.2
      refine ⟨inside, rest' ++ q, by simp [hrest], hinside, hbefore, ?_⟩
      rw [deliveries_append, hrest', hnone, List.append_nil]
    · -- Begun in the second part: the first part has earlier deliveries and the current one only.
      obtain ⟨inside, rest, hafter, hinside, hbefore, hrest⟩ := hq.fires first after f k e hcutq
      have hk := hq.began (some f) k e (hcutq ▸ List.mem_append_right _ List.mem_cons_self)
      have hnone : deliveries k p = [] := deliveries_eq_nil fun b e hi => by
        rcases hp.delivered k b e hi with hc | hc
        · exact Nat.not_lt.mpr hk.1 (hq.current_lt k hc)
        · exact Nat.not_lt.mpr hk.1 hc.2
      refine ⟨inside, rest, hafter, by rwa [← List.append_assoc], ?_, hrest⟩
      rw [deliveries_append, hnone, hbefore, List.append_nil]

theorem within (h : Whole past none lo hi p) (hk : k < lo) : Whole past (some k) lo hi p where
  le := h.le
  current_lt _ hj := Option.some.inj hj ▸ hk
  began := h.began
  delivered j b e hi := .inr ((h.delivered j b e hi).resolve_left nofun)
  fires := h.fires

/-- A delivery that reaches what is registered in its family makes a whole part. -/
theorem fire {f? : Option Nat} {e : ε} (h : Whole (past ++ [.began f? k e]) (some k) (k + 1) hi p)
    (hreached : ∀ f, f? = some f →
      (deliveries k p).Perm ((registered f past).map fun r => (r.2, e))) :
    Whole past none k hi (.began f? k e :: p ++ [.ended k]) := by
  have hmem {i : Incident β ε} (hi : i ∈ .began f? k e :: p ++ [.ended k]) :
      i = .began f? k e ∨ i ∈ p ∨ i = .ended k := by simpa using hi
  refine ⟨Nat.le_of_succ_le h.le, nofun, fun f j e' hi => ?_, fun j b e' hi => .inr ?_,
    fun before after f j e' hcut => ?_⟩
  · rcases hmem hi with hi | hi | hi
    · obtain ⟨-, rfl, -⟩ := Incident.began.inj hi
      exact ⟨Nat.le_refl _, h.le⟩
    · exact ⟨Nat.le_of_succ_le (h.began f j e' hi).1, (h.began f j e' hi).2⟩
    · cases hi
  · rcases hmem hi with hi | hi | hi
    · cases hi
    · rcases h.delivered j b e' hi with hk | hj
      · exact Option.some.inj hk ▸ ⟨Nat.le_refl _, h.le⟩
      · exact ⟨Nat.le_of_succ_le hj.1, hj.2⟩
    · cases hi
  · cases before with
    | nil =>
      obtain ⟨hbegan, rfl⟩ := List.cons.inj hcut
      obtain ⟨hf, rfl, rfl⟩ := Incident.began.inj hbegan
      exact ⟨p, [], rfl, by simpa using hreached f hf, rfl, rfl⟩
    | cons i before =>
      obtain ⟨rfl, hrest⟩ := List.cons.inj hcut
      rcases cut_concat hrest with ⟨rest, hcutp, rfl⟩ | ⟨-, hended⟩
      · obtain ⟨inside, rest', hrest', hinside, hbefore, hnone⟩ := h.fires before rest f j e' hcutp
        refine ⟨inside, rest' ++ [.ended k], by simp [hrest'], by simpa using hinside, hbefore, ?_⟩
        rw [deliveries_append, hnone]
        rfl
      · cases hended

end Whole

namespace Site

/-- From `s` to a sound `s'`, the log goes on by whole deliveries. -/
def Leads (s s' : Site β ε μ) : Prop :=
  s'.Sound ∧ ∃ part, s'.log = s.log ++ part ∧ Whole s.log none s.fires s'.fires part

/-- The same inside the delivery of a number, which hands out what is listed. -/
def Hands (k : Nat) (handed : List (β × ε)) (s s' : Site β ε μ) : Prop :=
  s'.Sound ∧ ∃ part, s'.log = s.log ++ part ∧ Whole s.log (some k) s.fires s'.fires part ∧
    deliveries k part = handed

variable {s t u : Site β ε μ} {k : Nat} {arrange : Arrangement β}
  {react : Nat → β → ε → Site β ε μ → Site β ε μ}

theorem Leads.of_log (ht : t.Sound) (hlog : t.log = s.log) (hfires : t.fires = s.fires) :
    s.Leads t :=
  ⟨ht, [], by rw [hlog, List.append_nil], hfires ▸ Whole.nil nofun⟩

theorem Leads.of_concat {i : Incident β ε} (ht : t.Sound) (hlog : t.log = s.log ++ [i])
    (hfires : t.fires = s.fires) (hbegan : ∀ f k e, i ≠ .began f k e)
    (hdelivered : ∀ k b e, i ≠ .delivered k b e) : s.Leads t :=
  ⟨ht, [i], hlog, hfires ▸ Whole.single nofun hbegan fun k b e hi => absurd hi (hdelivered k b e)⟩

theorem Leads.trans (h : s.Leads t) (h' : t.Leads u) : s.Leads u := by
  obtain ⟨-, p, hp, hwhole⟩ := h
  obtain ⟨hu, q, hq, hwhole'⟩ := h'
  exact ⟨hu, p ++ q, by rw [hq, hp, List.append_assoc], hwhole.append (hp ▸ hwhole')⟩

theorem Hands.trans {handed handed' : List (β × ε)} (h : s.Hands k handed t)
    (h' : t.Hands k handed' u) : s.Hands k (handed ++ handed') u := by
  obtain ⟨-, p, hp, hwhole, hhanded⟩ := h
  obtain ⟨hu, q, hq, hwhole', hhanded'⟩ := h'
  refine ⟨hu, p ++ q, by rw [hq, hp, List.append_assoc], hwhole.append (hp ▸ hwhole'), ?_⟩
  rw [deliveries_append, hhanded, hhanded']

/-- What a hook does hands out nothing in the delivery around it. -/
theorem Leads.hands (h : s.Leads t) (hk : k < s.fires) : s.Hands k [] t := by
  obtain ⟨ht, p, hp, hwhole⟩ := h
  refine ⟨ht, p, hp, hwhole.within hk, deliveries_eq_nil fun b e hi => ?_⟩
  have hlo := ((hwhole.delivered k b e hi).resolve_left nofun).1
  exact Nat.not_lt.mpr hlo hk

theorem Hands.lt_fires {handed : List (β × ε)} (h : s.Hands k handed t) (hk : k < s.fires) :
    k < t.fires := by
  obtain ⟨-, p, -, hwhole, -⟩ := h
  exact Nat.lt_of_lt_of_le hk hwhole.le

theorem note_hands (h : s.Sound) (hk : k < s.fires) (b : β) (e : ε) :
    s.Hands k [(b, e)] (s.note (.delivered k b e)) := by
  have hlt : ∀ j, some k = some j → j < s.fires := fun j hj => Option.some.inj hj ▸ hk
  refine ⟨h.note (fun _ => rfl) (fun _ _ => rfl) rfl trivial, [.delivered k b e], rfl,
    Whole.single hlt nofun fun j c e' hi => ?_, ?_⟩
  · rw [(Incident.delivered.inj hi).1]
  · simp [deliveries, delivery?]

/-- A delivery hands the event to each of the receivers. -/
theorem foldl_hands {e : ε} (hreact : ∀ b e (s : Site β ε μ), s.Sound → k < s.fires →
      s.Hands k [(b, e)] (react k b e s)) (receivers : List β) (hs : s.Sound) (hk : k < s.fires) :
    s.Hands k (receivers.map (·, e)) (receivers.foldl (fun s b => react k b e s) s) := by
  induction receivers generalizing s with
  | nil => exact (Leads.of_log hs rfl rfl).hands hk
  | cons b receivers ih =>
    have hhead := hreact b e s hs hk
    exact hhead.trans (ih hhead.1 (hhead.lt_fires hk))

theorem fire_leads (harrange : ∀ t l, (arrange t l).Perm l)
    (hreact : ∀ k b e (s : Site β ε μ), s.Sound → k < s.fires → s.Hands k [(b, e)] (react k b e s))
    (hs : s.Sound) (handle : String) (e : ε) : s.Leads (s.fire arrange react handle e) := by
  obtain ⟨hend, p, hp, hwhole, hhanded⟩ := foldl_hands (e := e) (hreact s.fires)
    (s.listed arrange handle).all (hs.begun handle e) (Nat.lt_succ_self s.fires)
  refine ⟨hend.note (fun _ => rfl) (fun _ _ => rfl) rfl trivial, _, ?_,
    hwhole.fire fun f hf => ?_⟩
  · exact (congrArg (· ++ [Incident.ended s.fires]) hp).trans (by simp [note])
  · have hreceivers : (s.listed arrange handle).all.Perm ((registered f s.log).map Prod.snd) :=
      hs.entries_listeners hf ▸ (harrange _ _).map Prod.snd
    rw [hhanded]
    exact (hreceivers.map (·, e)).trans (.of_eq (List.map_map ..))

end Site

theorem Conduct.perform_leads {arrange : Arrangement β} (harrange : ∀ t l, (arrange t l).Perm l)
    {react : Nat → β → ε → Site β ε μ → Site β ε μ}
    (hreact : ∀ k b e (s : Site β ε μ), s.Sound → k < s.fires → s.Hands k [(b, e)] (react k b e s))
    (c : Conduct β ε μ) {s : Site β ε μ} (hs : s.Sound) : s.Leads (c.perform arrange react s) := by
  induction c generalizing s with
  | done => exact .of_log hs rfl rfl
  | add handle b next ih =>
    have h := Site.Leads.of_concat (hs.add handle b) rfl rfl nofun nofun
    exact h.trans (ih _ h.1)
  | remove handle n next ih =>
    have h := Site.Leads.of_concat (hs.remove handle n) rfl rfl nofun nofun
    exact h.trans (ih _ h.1)
  | look handle next ih =>
    have h := Site.Leads.of_concat (hs.look harrange handle) rfl rfl nofun nofun
    exact h.trans (ih _ h.1)
  | fire handle e next ih =>
    have h := Site.fire_leads harrange hreact hs handle e
    exact h.trans (ih h.1)
  | share handle copy next ih =>
    have h : s.Leads (s.share handle copy) := .of_log (hs.share handle copy) rfl rfl
    exact h.trans (ih h.1)
  | create handle next ih =>
    have h : s.Leads (s.create handle) := .of_log (hs.create handle) rfl rfl
    exact h.trans (ih h.1)
  | remember write next ih =>
    have h : s.Leads { s with memory := write s.memory } :=
      .of_log (hs.remember (write s.memory)) rfl rfl
    exact h.trans (ih _ h.1)

/-- Whatever the hooks do, a listener that receives an event is handed it once. -/
theorem Conduct.react_hands {arrange : Arrangement β} (harrange : ∀ t l, (arrange t l).Perm l)
    (hooks : β → ε → Conduct β ε μ) (room : Nat) : ∀ k b e (s : Site β ε μ), s.Sound → k < s.fires →
      s.Hands k [(b, e)] (react arrange hooks room k b e s) := by
  induction room with
  | zero => exact fun k b e s hs hk => Site.note_hands hs hk b e
  | succ room ih =>
    intro k b e s hs hk
    have hnote := Site.note_hands hs hk b e
    have hconduct := perform_leads harrange ih (hooks b e) hnote.1
    exact hnote.trans (hconduct.hands (hnote.lt_fires hk))

end DecisionGraph
