import Hipfire.Redline.Plan
/-!
# Order — the topological order and the reachability of a recorder

On a well-formed recorder `topologicalOrder` always succeeds (`topologicalOrder_ok`), and the matrix that `reachability`
fills by node index is the transitive closure of the edges (`reachability_iff`).
-/
namespace Hipfire.Redline

open List
open Relation (TransGen)

variable {order : List NodeId} {r : Recorder}

theorem nodeIds_eq (hr : r.WF) : r.nodes.map Node.id = (range r.nodes.length).map (fun i => ⟨r.owner, i⟩) := by
  refine ext_getElem? (fun i => ?_)
  rw [getElem?_map, getElem?_map]
  cases hn : r.nodes[i]? with
  | none =>
    rw [getElem?_eq_none (by simpa using hn)]
    rfl
  | some n =>
    have hi := (List.getElem?_eq_some_iff.1 hn).1
    rw [getElem?_range hi]
    exact congrArg some (hr.ids i n hn)

theorem nodeIds_nodup (hr : r.WF) : (r.nodes.map Node.id).Nodup := by
  rw [nodeIds_eq hr]
  exact nodup_range.map (fun i j h => (NodeId.mk.inj h).2)

theorem mem_nodeIds (hr : r.WF) (id : NodeId) : id ∈ r.nodes.map Node.id ↔ r.Known id := by
  rw [nodeIds_eq hr, mem_map]
  constructor
  · rintro ⟨i, hi, rfl⟩; exact ⟨rfl, mem_range.1 hi⟩
  · rintro ⟨ho, hi⟩
    exact ⟨id.index, mem_range.2 hi, by rw [← ho]⟩

/-- What `topologicalOrder` gives: every node once, prerequisites first, the smallest node first among the ready ones. -/
structure PlanOrder (r : Recorder) (order : List NodeId) : Prop where
  perm : order.Perm (r.nodes.map Node.id)
  topo : TopoOrder r.edges order
  first : LeastFirst NodeId.lt (r.nodes.map Node.id) r.edges order

/-- **A well-formed recorder has an order**: the cycle error is never returned. -/
theorem topologicalOrder_ok (hr : r.WF) : ∃ order, topologicalOrder r = .ok order ∧ PlanOrder r order := by
  have hV := nodeIds_nodup hr
  have hE : ∀ a b, Arc r.edges a b → a ∈ r.nodes.map Node.id ∧ b ∈ r.nodes.map Node.id := fun a b hab =>
    ⟨(mem_nodeIds hr a).2 (hr.known _ hab).1, (mem_nodeIds hr b).2 (hr.known _ hab).2⟩
  have hperm := kahn_perm totalLt_node hV hE hr.acyclic
  refine ⟨_, ?_, hperm, kahn_topoOrder totalLt_node hV hE hr.acyclic, kahn_leastFirst totalLt_node hV hE⟩
  unfold topologicalOrder
  simp only
  rw [if_pos (by rw [hperm.length_eq, length_map])]

theorem PlanOrder.known (hr : r.WF) (h : PlanOrder r order) (id : NodeId) : id ∈ order ↔ r.Known id := by
  rw [h.perm.mem_iff, mem_nodeIds hr]

theorem PlanOrder.length (h : PlanOrder r order) : order.length = r.nodes.length := by
  rw [h.perm.length_eq, length_map]

/-! ## Reachability -/

/-- A matrix over the nodes of one owner, kept by index. -/
def ByIndex (owner : Nat) (M : Nat → Nat → Bool) (R : NodeId → NodeId → Bool) : Prop :=
  ∀ i j, M i j = R ⟨owner, i⟩ ⟨owner, j⟩

theorem ByIndex.orRow {owner : Nat} {M : Nat → Nat → Bool} {R : NodeId → NodeId → Bool} (h : ByIndex owner M R)
    {v t : NodeId} (hv : v.owner = owner) (ht : t.owner = owner) :
    ByIndex owner (orRow M v.index t.index) (orRow R v t) := by
  intro i j
  obtain ⟨vo, vi⟩ := v
  obtain ⟨so, si⟩ := t
  simp only at hv ht
  subst hv ht
  simp only [Hipfire.orRow, NodeId.mk.injEq, true_and, h _ _]

theorem ByIndex.foldl {owner : Nat} {β : Type} (src dst : β → NodeId) : ∀ (l : List β) {M : Nat → Nat → Bool}
    {R : NodeId → NodeId → Bool}, ByIndex owner M R → (∀ x ∈ l, (src x).owner = owner ∧ (dst x).owner = owner) →
    ByIndex owner (l.foldl (fun M x => Hipfire.orRow M (src x).index (dst x).index) M)
      (l.foldl (fun R x => Hipfire.orRow R (src x) (dst x)) R)
  | [], _, _, h, _ => h
  | x :: l, M, R, h, hl =>
    ByIndex.foldl src dst l (h.orRow (hl x (by simp)).1 (hl x (by simp)).2) (forall_mem_cons.1 hl).2

theorem reachability_byIndex (hr : r.WF) : ∀ (order : List NodeId), (∀ v ∈ order, v.owner = r.owner) →
    ByIndex r.owner (reachability r order) (closeSuccs (succsOf r.edges) order)
  | [], _ => fun _ _ => rfl
  | v :: order, h => by
    have ih := reachability_byIndex hr order (forall_mem_cons.1 h).2
    exact ByIndex.foldl (fun _ => v) (fun t => t) (succsOf r.edges v) ih (fun t ht =>
      ⟨h v (by simp), (hr.known _ (mem_succsOf.1 ht)).2.1⟩)

/-- **The matrix of a recorder is the transitive closure of its edges.** -/
theorem reachability_iff (hr : r.WF) (h : PlanOrder r order) (i j : Nat) :
    reachability r order i j = true ↔ TransGen (Arc r.edges) ⟨r.owner, i⟩ ⟨r.owner, j⟩ := by
  rw [reachability_byIndex hr order (fun v hv => ((h.known hr v).1 hv).1) i j]
  exact closeSuccs_iff h.topo (succsOf r.edges) (fun v t => mem_succsOf) _ _

end Hipfire.Redline
