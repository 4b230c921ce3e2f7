import Hipfire.Base.Lists
import Hipfire.Redline.Hazards
/-!
# Lanes — what a compiled plan keeps

`planLoop` places one dispatch after another (`planLoop_cons`): a dispatch starts when its lane is free and its dependencies
are done.  `PlanOf` collects what an accepted compilation gives, and `compile_ok` proves it of every recorder.
-/
namespace Hipfire.Redline

open List
open Relation (TransGen)

theorem leastSlot_foldl_mem : ∀ (ss : List LaneSlot) (s : LaneSlot),
    ss.foldl (fun best s => if s.before best then s else best) s = s ∨
      ss.foldl (fun best s => if s.before best then s else best) s ∈ ss
  | [], _ => .inl rfl
  | x :: ss, s => by
    rw [foldl_cons]
    rcases leastSlot_foldl_mem ss (if x.before s then x else s) with h | h
    · rw [h]
      split
      · exact .inr (by simp)
      · exact .inl rfl
    · exact .inr (mem_cons_of_mem _ h)

theorem leastSlot_mem (ss : List LaneSlot) (h : ss ≠ []) : ∃ s ∈ ss, leastSlot ss = some s := by
  cases ss with
  | nil => exact absurd rfl h
  | cons s ss =>
    refine ⟨_, ?_, rfl⟩
    rcases leastSlot_foldl_mem ss s with h | h
    · rw [h]; simp
    · exact mem_cons_of_mem _ h

/-! ## One dispatch -/

/-- When the dependencies of a node are done, by the finish times so far. -/
def dependencyFinish (r : Recorder) (nodeFinish : List Nat) (node : NodeId) : Nat :=
  ((predsOf r.edges node).map (fun d => nodeFinish.getD d.index 0)).foldl max 0

/-- A dispatch planned for a recorded node: the node's own launch, accesses and dependencies. -/
structure PlannedFrom (r : Recorder) (d : PlannedDispatch) : Prop where
  entry : ∃ n, r.nodes[d.node.index]? = some n ∧ d.launch = n.launch ∧ d.accesses = n.accesses
  deps : d.dependencies = predsOf r.edges d.node

structure Placed (r : Recorder) (laneAvailable nodeFinish : List Nat) (d : PlannedDispatch) : Prop extends
    PlannedFrom r d where
  lane_lt : d.lane < laneAvailable.length
  start_eq : d.estimatedStart = max (laneAvailable.getD d.lane 0) (dependencyFinish r nodeFinish d.node)
  end_eq : d.estimatedEnd = saturatingAdd64 d.estimatedStart d.launch.estimatedWork

variable {order : List NodeId} {r : Recorder} {laneAvailable : List Nat}

theorem planLoop_cons {node : NodeId} (order : List NodeId)
    (nodeFinish : List Nat) (hn : node.index < r.nodes.length) (hl : 0 < laneAvailable.length) :
    ∃ d : PlannedDispatch, d.node = node ∧
      Placed r laneAvailable nodeFinish d ∧ planLoop r (node :: order) laneAvailable nodeFinish =
        d :: planLoop r order (laneAvailable.set d.lane d.estimatedEnd) (nodeFinish.set node.index d.estimatedEnd) := by
  have hentry : r.nodes[node.index]? = some r.nodes[node.index] := getElem?_eq_getElem hn
  obtain ⟨s, hs, hleast⟩ := leastSlot_mem (laneSlots laneAvailable (dependencyFinish r nodeFinish node)
    r.nodes[node.index].launch.estimatedWork) (by
      unfold laneSlots
      simp only [ne_eq, map_eq_nil_iff, zipIdx_eq_nil_iff]
      exact ne_nil_of_length_pos hl)
  obtain ⟨p, hp, rfl⟩ := mem_map.1 hs
  have hp' := mem_zipIdx_iff_getElem?.1 hp
  refine ⟨_, ?_, ?_, by rw [planLoop, hentry]; simp only; unfold dependencyFinish at hleast; rw [hleast]⟩
  · rfl
  · refine ⟨⟨⟨_, hentry, rfl, rfl⟩, rfl⟩, lt_of_getElem? hp', ?_, rfl⟩
    rw [getD_eq_getElem?_getD, hp']
    rfl

theorem Placed.end_bounds {nodeFinish : List Nat} {d : PlannedDispatch}
    (h : Placed r laneAvailable nodeFinish d) (ha : ∀ x ∈ laneAvailable, x ≤ u64Max)
    (hf : ∀ x ∈ nodeFinish, x ≤ u64Max) : d.estimatedStart ≤ d.estimatedEnd ∧ d.estimatedEnd ≤ u64Max ∧
      (d.estimatedEnd < u64Max → d.estimatedStart < d.estimatedEnd) := by
  have h1 : laneAvailable.getD d.lane 0 ≤ u64Max := getD_le _ ha _
  have h2 : dependencyFinish r nodeFinish d.node ≤ u64Max := foldl_max_le _ _ (Nat.zero_le _) (fun x hx => by
    obtain ⟨p, -, rfl⟩ := mem_map.1 hx
    exact getD_le _ hf _)
  have h3 := h.start_eq
  have h4 := h.end_eq
  have h5 := d.launch.workPos
  unfold saturatingAdd64 at h4
  omega

/-! ## The whole order -/

section loop

variable {r : Recorder}

theorem planLoop_nodes : ∀ (order : List NodeId) (laneAvailable nodeFinish : List Nat),
    (∀ v ∈ order, v.index < r.nodes.length) → 0 < laneAvailable.length →
    (planLoop r order laneAvailable nodeFinish).map PlannedDispatch.node = order
  | [], _, _, _, _ => rfl
  | v :: order, av, fin, ho, hl => by
    obtain ⟨d, hd, -, he⟩ := planLoop_cons order fin (ho v (by simp)) hl
    rw [he, map_cons, hd,
      planLoop_nodes order _ _ (forall_mem_cons.1 ho).2 (by rw [length_set]; exact hl)]

theorem planLoop_from : ∀ (order : List NodeId) (laneAvailable nodeFinish : List Nat),
    (∀ v ∈ order, v.index < r.nodes.length) → 0 < laneAvailable.length →
    ∀ d ∈ planLoop r order laneAvailable nodeFinish, PlannedFrom r d ∧ d.lane < laneAvailable.length
  | [], _, _, _, _ => by simp [planLoop]
  | v :: order, av, fin, ho, hl => by
    obtain ⟨d, -, hp, he⟩ := planLoop_cons order fin (ho v (by simp)) hl
    have ih := planLoop_from order (av.set d.lane d.estimatedEnd) (fin.set v.index d.estimatedEnd)
      (forall_mem_cons.1 ho).2 (by rwa [length_set])
    rw [length_set] at ih
    rw [he]
    exact forall_mem_cons.2 ⟨⟨hp.toPlannedFrom, hp.lane_lt⟩, ih⟩

/-- The lanes and finish times hold `u64`s, and the order only recorded nodes. -/
structure LoopState (r : Recorder) (order : List NodeId) (laneAvailable nodeFinish : List Nat) : Prop where
  known : ∀ v ∈ order, v.index < r.nodes.length
  lanes : 0 < laneAvailable.length
  length : nodeFinish.length = r.nodes.length
  available : ∀ x ∈ laneAvailable, x ≤ u64Max
  finish : ∀ x ∈ nodeFinish, x ≤ u64Max

theorem LoopState.next {v : NodeId} {av fin : List Nat} (h : LoopState r (v :: order) av fin)
    (lane : Nat) {stop : Nat} (hs : stop ≤ u64Max) : LoopState r order (av.set lane stop) (fin.set v.index stop) where
  known u hu := h.known u (mem_cons_of_mem _ hu)
  lanes := by rw [length_set]; exact h.lanes
  length := by rw [length_set]; exact h.length
  available := set_le h.available _ hs
  finish := set_le h.finish _ hs

/-- A lane's dispatches start no earlier than the lane is free. -/
theorem planLoop_available : ∀ (order : List NodeId) (av fin : List Nat), LoopState r order av fin →
    ∀ d ∈ planLoop r order av fin, av.getD d.lane 0 ≤ d.estimatedStart
  | [], _, _, _ => by simp [planLoop]
  | v :: order, av, fin, h => by
    obtain ⟨d, -, hp, he⟩ := planLoop_cons order fin (h.known v (by simp)) h.lanes
    have hb := hp.end_bounds h.available h.finish
    have hst := hp.start_eq
    rw [he]
    refine forall_mem_cons.2 ⟨by omega, fun e hm => ?_⟩
    have := planLoop_available order _ _ (h.next d.lane hb.2.1) e hm
    rw [getD_set] at this
    split at this
    · rename_i hl
      rw [← hl.1]; omega
    · exact this

/-- **Two dispatches of a lane do not overlap**, and the earlier one comes first. -/
theorem planLoop_apart : ∀ (order : List NodeId) (av fin : List Nat), LoopState r order av fin →
    (planLoop r order av fin).Pairwise (fun a b => a.lane = b.lane → a.estimatedEnd ≤ b.estimatedStart)
  | [], _, _, _ => Pairwise.nil
  | v :: order, av, fin, h => by
    obtain ⟨d, -, hp, he⟩ := planLoop_cons order fin (h.known v (by simp)) h.lanes
    have hb := hp.end_bounds h.available h.finish
    rw [he]
    refine Pairwise.cons (fun e hm hlane => ?_) (planLoop_apart order _ _ (h.next d.lane hb.2.1))
    have := planLoop_available order _ _ (h.next d.lane hb.2.1) e hm
    rwa [← hlane, getD_set, if_pos ⟨rfl, hp.lane_lt⟩] at this

/-- A dispatch starts no earlier than its dependencies outside the order were done. -/
theorem planLoop_finish : ∀ (order : List NodeId) (av fin : List Nat), LoopState r order av fin →
    ∀ p : NodeId, p.index ∉ order.map NodeId.index → ∀ d ∈ planLoop r order av fin, p ∈ d.dependencies →
      fin.getD p.index 0 ≤ d.estimatedStart
  | [], _, _, _ => by simp [planLoop]
  | v :: order, av, fin, h => by
    obtain ⟨d, -, hp, he⟩ := planLoop_cons order fin (h.known v (by simp)) h.lanes
    have hb := hp.end_bounds h.available h.finish
    intro p hpo e hm hdep
    rw [map_cons, mem_cons, not_or] at hpo
    rw [he] at hm
    rcases mem_cons.1 hm with rfl | hm
    · have hst := hp.start_eq
      have hle : fin.getD p.index 0 ≤ dependencyFinish r fin e.node :=
        (le_foldl_max _ 0).2 _ (mem_map.2 ⟨p, hp.deps ▸ hdep, rfl⟩)
      omega
    · have := planLoop_finish order _ _ (h.next d.lane hb.2.1) p hpo.2 e hm hdep
      rwa [getD_set, if_neg (fun hv => hpo.1 hv.1.symm)] at this

/-- **A dispatch starts no earlier than the dependencies before it end.** -/
theorem planLoop_after : ∀ (order : List NodeId) (av fin : List Nat), LoopState r order av fin →
    (order.map NodeId.index).Nodup → (planLoop r order av fin).Pairwise (fun a b =>
      a.node ∈ b.dependencies → a.estimatedEnd ≤ b.estimatedStart)
  | [], _, _, _, _ => Pairwise.nil
  | v :: order, av, fin, h, hnd => by
    obtain ⟨d, hd, hp, he⟩ := planLoop_cons order fin (h.known v (by simp)) h.lanes
    have hb := hp.end_bounds h.available h.finish
    obtain ⟨hv, hnd'⟩ := nodup_cons.1 hnd
    rw [he]
    refine Pairwise.cons (fun e hm hdep => ?_) (planLoop_after order _ _ (h.next d.lane hb.2.1) hnd')
    have := planLoop_finish order _ _ (h.next d.lane hb.2.1) d.node (hd ▸ hv) e hm hdep
    rwa [hd, getD_set, if_pos ⟨rfl, by rw [h.length]; exact h.known v (by simp)⟩] at this

theorem planLoop_bounds : ∀ (order : List NodeId) (av fin : List Nat), LoopState r order av fin →
    ∀ d ∈ planLoop r order av fin, d.estimatedStart ≤ d.estimatedEnd ∧
      (d.estimatedEnd < u64Max → d.estimatedStart < d.estimatedEnd)
  | [], _, _, _ => by simp [planLoop]
  | v :: order, av, fin, h => by
    obtain ⟨d, -, hp, he⟩ := planLoop_cons order fin (h.known v (by simp)) h.lanes
    have hb := hp.end_bounds h.available h.finish
    rw [he]
    exact forall_mem_cons.2 ⟨⟨hb.1, hb.2.2⟩, planLoop_bounds order _ _ (h.next d.lane hb.2.1)⟩

end loop

/-! ## An accepted compilation -/

/-- What a plan compiled from a recorder satisfies. -/
structure PlanOf (r : Recorder) (options : CompileOptions) (plan : CompiledPlan) : Prop where
  order : PlanOrder r (plan.dispatches.map PlannedDispatch.node)
  planned : ∀ d ∈ plan.dispatches, PlannedFrom r d ∧ d.lane < plan.laneCount
  lanes : plan.laneCount = options.laneCount
  mode : plan.replayMode = options.replayMode
  terminals : plan.terminals = terminalNodes r
  resources : plan.resources = plannedResources r
  apart : plan.dispatches.Pairwise (fun a b => a.lane = b.lane → a.estimatedEnd ≤ b.estimatedStart)
  after : plan.dispatches.Pairwise (fun a b => a.node ∈ b.dependencies → a.estimatedEnd ≤ b.estimatedStart)
  bounds : ∀ d ∈ plan.dispatches, d.estimatedStart ≤ d.estimatedEnd ∧
    (d.estimatedEnd < u64Max → d.estimatedStart < d.estimatedEnd)
  hazardFree : ∀ c, ¬ UnorderedConflict r c

theorem loopState_init (options : CompileOptions) (order : List NodeId) (hr : r.WF) (ho : PlanOrder r order) :
    LoopState r order (replicate options.laneCount 0) (replicate r.nodes.length 0) where
  known v hv := ((ho.known hr v).1 hv).2
  lanes := by rw [length_replicate]; exact options.lanesPos
  length := length_replicate
  available x hx := by rw [eq_of_mem_replicate hx]; exact Nat.zero_le _
  finish x hx := by rw [eq_of_mem_replicate hx]; exact Nat.zero_le _

theorem PlanOrder.indices_nodup (hr : r.WF) (ho : PlanOrder r order) : (order.map NodeId.index).Nodup := by
  refine ho.topo.nodup.map_on (fun a ha b hb hab => ?_)
  have h1 := ((ho.known hr a).1 ha).1
  have h2 := ((ho.known hr b).1 hb).1
  obtain ⟨ao, ai⟩ := a
  obtain ⟨bo, bi⟩ := b
  simp only at h1 h2 hab
  rw [h1, h2, hab]

/-- **What compiling a well-formed recorder with consistent contracts gives**: the hazards, or a plan. -/
theorem compile_cases (sha256 : List UInt8 → Digest) (hr : r.WF) (options : CompileOptions)
    (hc : validateKernelContracts r = .ok ()) : ∃ order, PlanOrder r order ∧
      (((∃ c, UnorderedConflict r c) ∧
          compile sha256 r options = .error (.unorderedHazards (unorderedHazards r (reachability r order)))) ∨
        ((∀ c, ¬ UnorderedConflict r c) ∧ ∃ plan, compile sha256 r options = .ok plan ∧
          plan = { assemble r options order with fingerprint := sha256 (fingerprintBytes (assemble r options order)) })) := by
  obtain ⟨order, hord, ho⟩ := topologicalOrder_ok hr
  refine ⟨order, ho, ?_⟩
  unfold compile
  rw [hc]
  simp only [hord]
  by_cases hnil : unorderedHazards r (reachability r order) = []
  · rw [if_pos hnil]
    exact .inr ⟨(unorderedHazards_eq_nil hr ho).1 hnil, _, rfl, rfl⟩
  · rw [if_neg hnil]
    refine .inl ⟨?_, rfl⟩
    by_contra hno
    exact hnil ((unorderedHazards_eq_nil hr ho).2 (fun c hcc => hno ⟨c, hcc⟩))

theorem assemble_planOf (hr : r.WF) (options : CompileOptions) (ho : PlanOrder r order)
    (hfree : ∀ c, ¬ UnorderedConflict r c) (fp : Digest) :
    PlanOf r options { assemble r options order with fingerprint := fp } := by
  have hs := loopState_init options order hr ho
  have hnodes := planLoop_nodes order _ (replicate r.nodes.length 0) hs.known hs.lanes
  refine ⟨?_, fun d hd => ?_, rfl, rfl, rfl, rfl, planLoop_apart _ _ _ hs, planLoop_after _ _ _ hs (ho.indices_nodup hr),
    planLoop_bounds _ _ _ hs, hfree⟩
  · exact hnodes.symm ▸ ho
  · have := planLoop_from order _ _ hs.known hs.lanes d hd
    rwa [length_replicate] at this

variable {plan : CompiledPlan} {options : CompileOptions} {sha256 : List UInt8 → Digest}

theorem compile_contracts (h : compile sha256 r options = .ok plan) : validateKernelContracts r = .ok () := by
  unfold compile at h
  split at h
  · cases h
  · assumption

/-- **Every plan that compilation accepts.** -/
theorem compile_ok (hr : r.WF) (h : compile sha256 r options = .ok plan) : PlanOf r options plan := by
  obtain ⟨order, ho, ⟨-, he⟩ | ⟨hfree, plan', he, hplan⟩⟩ := compile_cases sha256 hr options (compile_contracts h)
  · rw [he] at h; cases h
  · cases he.symm.trans h
    rw [hplan]
    exact assemble_planOf hr options ho hfree _

end Hipfire.Redline
