import DecisionGraph.Model.Builder.Edit
import DecisionGraph.Proofs.Assembly

namespace DecisionGraph

variable {L : Type}

namespace Edit

variable {α β : Type}

@[simp] theorem apply_pure (a : α) (b : Builder L) : (pure a : Edit L α).apply b = (.ok a, b) := rfl

@[simp] theorem apply_get (b : Builder L) : (get : Edit L (Builder L)).apply b = (.ok b, b) := rfl

@[simp] theorem apply_modify (f : Builder L → Builder L) (b : Builder L) :
    (modify f : Edit L Unit).apply b = (.ok (), f b) := rfl

theorem apply_bind (e : Edit L α) (f : α → Edit L β) (b : Builder L) :
    (e >>= f).apply b = match e.apply b with
      | (.ok a, b') => (f a).apply b'
      | (.error r, b') => (.error r, b') := by
  simp only [apply, ExceptT.run_bind, StateT.run_bind]
  rcases h : e.run.run b with ⟨r, b'⟩
  cases r <;> rfl

theorem apply_bind_ok {e : Edit L α} {b b' : Builder L} {a : α} (h : e.apply b = (.ok a, b'))
    (f : α → Edit L β) : (e >>= f).apply b = (f a).apply b' := by
  rw [apply_bind, h]

theorem apply_bind_error {e : Edit L α} {b b' : Builder L} {r : ModelError}
    (h : e.apply b = (.error r, b')) (f : α → Edit L β) : (e >>= f).apply b = (.error r, b') := by
  rw [apply_bind, h]

theorem apply_node (id : Nat) (b : Builder L) : (node id).apply b = (b.node? id, b) := by
  rw [node, apply_bind_ok (apply_get b), Builder.node?]
  cases b.nodes[id]? <;> rfl

/-- The nodes are copied one after the other, and the positions of those that the model owns are
kept on the way. -/
theorem apply_copyNode (m : Model L) (offset : Nat) (l : List (Node L × Nat))
    (names : Bindings Nat) (b : Builder L) : (l.foldlM (copyNode m offset) names).apply b =
      (.ok (l.foldl (fun names e => if m.owns e.1 then names.insert e.1.info.name e.2 else names)
          names),
        { b with nodes := b.nodes ++ (l.map fun e => Builder.shifted offset e.1).toArray }) := by
  induction l generalizing names b with
  | nil => simp
  | cons e l ih =>
    rw [List.foldlM_cons, copyNode, bind_assoc, apply_bind_ok (apply_modify _ b),
      apply_bind_ok (apply_pure _ _), ih]
    simp

end Edit

namespace Builder

/-- The answer of an operation and the builder after it, which is the old one if it was refused. -/
def answered (b : Builder L) : Except ModelError (Builder L) → Except ModelError Unit × Builder L
  | .ok b' => (.ok (), b')
  | .error e => (.error e, b)

def Operation.edit : Operation L → Edit L Unit
  | .setId id => .setId id
  | .setTypeCheck enabled => .setTypeCheck enabled
  | .addNode id name role => discard (.addNode id name role)
  | .setLogic node logic => .setLogic node logic
  | .setNodeId node id => .setNodeId node id
  | .dependsOn node dependency => .dependsOn node dependency
  | .addImport name m => .addImport name m

variable (b : Builder L)

theorem apply_setLogic (id : Nat) (logic : L) :
    (Edit.setLogic id logic).apply b = b.answered (b.setLogic id logic) := by
  unfold Edit.setLogic setLogic
  cases hn : b.node? id with
  | error e => exact Edit.apply_bind_error (by rw [Edit.apply_node, hn]) _
  | ok n =>
    rw [Edit.apply_bind_ok (by rw [Edit.apply_node, hn])]
    cases hr : n.role <;> simp only [bind, Except.bind, hr] <;> rfl

theorem apply_setNodeId (id : Nat) (newId : String) :
    (Edit.setNodeId id newId).apply b = b.answered (b.setNodeId id newId) := by
  unfold Edit.setNodeId setNodeId
  cases hn : b.node? id with
  | error e => exact Edit.apply_bind_error (by rw [Edit.apply_node, hn]) _
  | ok n =>
    rw [Edit.apply_bind_ok (by rw [Edit.apply_node, hn])]
    rfl

theorem apply_dependsOn (id dependency : Nat) :
    (Edit.dependsOn id dependency).apply b = b.answered (b.dependsOn id dependency) := by
  unfold Edit.dependsOn dependsOn
  cases hd : b.node? dependency with
  | error e => exact Edit.apply_bind_error (by rw [Edit.apply_node, hd]) _
  | ok d =>
    rw [Edit.apply_bind_ok (by rw [Edit.apply_node, hd]), Edit.apply_bind_ok (Edit.apply_get b)]
    cases hn : b.node? id with
    | error e => exact Edit.apply_bind_error (by rw [Edit.apply_node, hn]) _
    | ok n =>
      rw [Edit.apply_bind_ok (by rw [Edit.apply_node, hn])]
      cases hi : n.isInput <;> simp only [bind, Except.bind, hi] <;> rfl

theorem ownNames_eq_foldl (offset : Nat) (m : Model L) :
    ownNames offset m = (m.nodes.toList.zipIdx offset).foldl
      (fun names e => if m.owns e.1 then names.insert e.1.info.name e.2 else names) .nil := by
  rw [ownNames, Bindings.ofList, List.foldl_filterMap]
  congr 1
  funext names e
  cases h : m.owns e.1 <;> simp [h]

theorem apply_addImport (name : String) (m : Model L) :
    (Edit.addImport name m).apply b = b.answered (b.addImport name m) := by
  unfold Edit.addImport addImport
  rw [Edit.apply_bind_ok (Edit.apply_get b)]
  cases hc : b.imported.contains name with
  | true => rfl
  | false =>
    rw [if_neg (by simp), if_neg (by simp), Edit.apply_bind_ok (Edit.apply_get b),
      Edit.apply_bind_ok (Edit.apply_copyNode ..)]
    have hcopies : (m.nodes.toList.zipIdx b.nodes.size).map (fun e => shifted b.nodes.size e.1) =
        m.nodes.toList.map (shifted b.nodes.size) := by
      have hfst := congrArg (List.map (shifted b.nodes.size))
        (List.zipIdx_map_fst b.nodes.size m.nodes.toList)
      rwa [List.map_map] at hfst
    rw [hcopies, ← Array.toList_map, ← ownNames_eq_foldl]
    rfl

theorem apply_edit (op : Operation L) : op.edit.apply b = b.answered (b.perform op) := by
  cases op with
  | setLogic node logic => exact apply_setLogic b node logic
  | setNodeId node id => exact apply_setNodeId b node id
  | dependsOn node dependency => exact apply_dependsOn b node dependency
  | addImport name m => exact apply_addImport b name m
  | _ => rfl

theorem snd_apply_edit (op : Operation L) : (op.edit.apply b).2 = b.after op := by
  rw [apply_edit, after]
  cases b.perform op <;> rfl

/-- A refused operation has changed nothing. -/
theorem eq_of_apply_edit_error {op : Operation L} {e : ModelError} {b b' : Builder L}
    (h : op.edit.apply b = (.error e, b')) : b' = b := by
  rw [apply_edit] at h
  cases hop : b.perform op with
  | ok c =>
    rw [hop] at h
    cases h
  | error r =>
    rw [hop] at h
    exact (congrArg Prod.snd h).symm

end Builder

end DecisionGraph
