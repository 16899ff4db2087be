import DecisionGraph.Proofs.Unmarked

namespace DecisionGraph

variable {L σ : Type}

namespace Request

variable {r : Request L σ}

theorem lenient_self (r : Request L σ) (marked : Message → Bool) :
    r.Lenient marked r.typeCheck :=
  ⟨fun _ _ _ _ _ => rfl, fun _ _ _ _ _ => rfl⟩

/-- Where nothing is said of the limit, a visit with more room under another limit does the same. -/
theorem visit_agrees_withLimit (ha : r.host.Appends) (limit extra room : Nat) :
    Agrees Message.isDepth (r.visit room) ((r.withLimit limit).visit (room + extra)) := by
  induction room with
  | zero =>
    intro n p h
    refine ((visit_zero_withLimit r limit (0 + extra) n p).resolve_right ?_).symm
    rintro ⟨-, x, hx, hdepth⟩
    exact Bool.false_ne_true ((h x hx).symm.trans hdepth)
  | succ room ih =>
    intro n p h
    rw [Nat.succ_add, visit_succ, visitNode_withLimit]
    exact visitNode_agrees ih (lenient_self r _) ha ((lawful_messages ha).visit room) n p h

theorem serve_withLimit_of_unmarked (ha : r.host.Appends) {limit : Nat}
    (hle : r.maxDepth ≤ limit) (p : Progress σ) (e : Errand L)
    (h : (r.serve p e).Unmarked Message.isDepth) :
    (r.withLimit limit).serve p e = r.serve p e := by
  cases e with
  | miss d => rfl
  | evaluate n =>
    have hv := visit_agrees_withLimit ha limit (limit - r.maxDepth) r.maxDepth n p h
    rw [Nat.add_sub_cancel' hle] at hv
    exact congrArg Prod.snd hv

/-- If no message says that the depth limit was exceeded, then the request is the same under every
higher limit: it ends with the same context, outcomes and messages, and has told the listeners the
same. -/
theorem unreached_limit_unseen (ha : r.host.Appends) (s : Selection) (c : Context) (w : σ)
    (h : ∀ m ∈ (r.run s c w).evaluation.messages, m.isDepth = false) {limit : Nat}
    (hle : r.maxDepth ≤ limit) : (r.withLimit limit).run s c w = r.run s c w := by
  rw [run_eq] at h
  rw [run_eq, run_eq]
  exact errands_agree ha (serve_withLimit_of_unmarked ha hle) (r.model.errands s) h

/-- One level is enough for the prices, though there are two keys: when the total is asked for, the
net price has got its value. A hundred levels give the same four events. -/
theorem unreached_limit_unseen_prices :
    Host.telling.Appends ∧ Formula.prices.keyCount = 2 ∧
    ((Request.mk Formula.prices Host.telling true 1 .alwaysDescend).withLimit 100).run .all
        Formula.pricesInput [] =
      (Request.mk Formula.prices Host.telling true 1 .alwaysDescend).run .all
        Formula.pricesInput [] ∧
    ((Request.mk Formula.prices Host.telling true 1 .alwaysDescend).run .all
      Formula.pricesInput []).world.length = 4 := by
  have hm : ((Request.mk Formula.prices Host.telling true 1 .alwaysDescend).run .all
      Formula.pricesInput []).evaluation.messages = [] := rfl
  refine ⟨Host.telling_quiet.appends, by decide, ?_, rfl⟩
  refine unreached_limit_unseen (r := ⟨Formula.prices, Host.telling, true, 1, .alwaysDescend⟩)
    Host.telling_quiet.appends .all Formula.pricesInput [] (fun m hmem => ?_) (by decide)
  rw [hm] at hmem
  cases hmem

end Request

end DecisionGraph
