import DecisionGraph.Proofs.Law
import DecisionGraph.Proofs.Parallel

namespace DecisionGraph

variable {L σ τ : Type}

/-- What `k` does to the part `f` of its world, `h` does to the whole of its own. -/
structure Host.Projects (f : τ → σ) (k : Host L τ) (h : Host L σ) : Prop where
  listening : ∀ w, k.listening w = h.listening (f w)
  notify : ∀ e w, f (k.notify e w) = h.notify e (f w)
  answer : ∀ m l e w, h.answer m l e (f w) =
    ((k.answer m l e w).1, (k.answer m l e w).2.1, f (k.answer m l e w).2.2)
  observe : ∀ m e w, f (k.observe m e w) = h.observe m e (f w)

def Progress.map (f : τ → σ) (p : Progress τ) : Progress σ := ⟨p.evaluation, f p.world⟩

namespace Request

variable {r : Request L τ} {h : Host L σ} {f : τ → σ}

theorem inStep_map (hf : r.host.Projects f h) : r.InStep h fun p q => q = p.map f where
  context hq := congrArg Progress.context hq
  ledger hq := congrArg Progress.ledger hq
  active hq := congrArg (·.evaluation.active) hq
  listening {p _} hq := by rw [hq, hf.listening p.world]; rfl
  report _ hq := by rw [hq]; rfl
  onContext _ hq := by rw [hq]; rfl
  onLedger _ hq := by rw [hq]; rfl
  enter _ hq := by rw [hq]; rfl
  leave _ hq := by rw [hq]; rfl
  watch m hq := by
    subst hq
    simp only [watch, onHost, Progress.map, hf.observe]
  notify e hq := by
    subst hq
    simp only [notify, onHost, Progress.map, hf.notify]
  callLogic n l hq := by
    subst hq
    unfold Both callLogic watch
    simp only [onHost, Progress.map, ← hf.observe, hf.answer, and_self]

theorem run_map (hf : r.host.Projects f h) (s : Selection) (c : Context) (w : τ) :
    (r.onHost h).run s c (f w) = (r.run s c w).map f :=
  (inStep_map hf).run s rfl

end Request

end DecisionGraph
