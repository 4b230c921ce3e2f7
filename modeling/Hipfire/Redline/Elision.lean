import Hipfire.Redline.Lanes
import Hipfire.Redline.Visibility
/-!
# Elision — the derived headers order what the plan orders

`Respects` is an execution that keeps only what the derived headers say: packets of a lane start in order, a barrier waits
for the lane, a cross-lane dependency waits for its packet.  A dependency within a lane either sits in the open epoch, and
then its dependent has the barrier bit, or a barrier closed the epoch in between (`walk_closed`); so every execution starts
a dispatch only after everything it reaches back to (`respects_reaches`).
-/
namespace Hipfire.Redline

open List Function
open Relation (TransGen)

/-! ## The plan's closure and lanes -/

theorem dispatchReachability_byIndex {r : Recorder} (hr : r.WF) : ∀ (ds : List PlannedDispatch),
    (∀ d ∈ ds, PlannedFrom r d ∧ d.node.owner = r.owner) →
    ByIndex r.owner (dispatchReachability ds) (closePreds (predsOf r.edges) (ds.map PlannedDispatch.node))
  | [], _ => fun _ _ => rfl
  | d :: ds, h => by
    have ih := dispatchReachability_byIndex hr ds (forall_mem_cons.1 h).2
    obtain ⟨hd, ho⟩ := h d (by simp)
    have hstep : dispatchReachability (d :: ds) = (predsOf r.edges d.node).foldl
        (fun reachable p => orRow reachable p.index d.node.index) (dispatchReachability ds) := by
      rw [← hd.deps]; rfl
    rw [hstep]
    exact ByIndex.foldl (fun p => p) (fun _ => d.node) (predsOf r.edges d.node) ih (fun p hp =>
      ⟨(hr.known _ (mem_predsOf.1 hp)).1.1, ho⟩)

variable {pre post : List PlannedDispatch} {d a b e : PlannedDispatch}

theorem laneByNode_foldl : ∀ (ds : List PlannedDispatch) (lanes : Nat → Nat), (ds.map (fun d => d.node.index)).Nodup →
    (∀ d ∈ ds, ds.foldl (fun lanes d => update lanes d.node.index d.lane) lanes d.node.index = d.lane) ∧
    ∀ i, i ∉ ds.map (fun d => d.node.index) →
      ds.foldl (fun lanes d => update lanes d.node.index d.lane) lanes i = lanes i
  | [], _, _ => ⟨by simp, by simp⟩
  | d :: ds, lanes, h => by
    obtain ⟨hd, hds⟩ := nodup_cons.1 h
    obtain ⟨h1, h2⟩ := laneByNode_foldl ds (update lanes d.node.index d.lane) hds
    refine ⟨fun e he => ?_, fun i hi => ?_⟩
    · rcases mem_cons.1 he with rfl | he
      · rw [foldl_cons, h2 _ hd, update_self]
      · exact h1 e he
    · rw [map_cons, mem_cons, not_or] at hi
      rw [foldl_cons, h2 i hi.2, update_of_ne hi.1]

/-- Two dispatches touch one region and one of them writes it. -/
def PlannedDispatch.Conflicts (a b : PlannedDispatch) : Prop := ∃ x ∈ a.accesses, ∃ y ∈ b.accesses, x.Conflicts y

theorem conflicts_ne_nil (a b : PlannedDispatch) : conflicts a b ≠ [] ↔ a.Conflicts b := by
  constructor
  · intro hne
    obtain ⟨c, hc⟩ := exists_mem_of_ne_nil _ hne
    obtain ⟨x, hx, hc⟩ := mem_flatMap.1 hc
    obtain ⟨y, hy, hxy⟩ := mem_filterMap.1 hc
    exact ⟨x, hx, y, hy, (conflictOf_isSome x y).1 (by rw [hxy]; rfl)⟩
  · rintro ⟨x, hx, y, hy, hxy⟩
    obtain ⟨c, hc⟩ := Option.isSome_iff_exists.1 ((conflictOf_isSome x y).2 hxy)
    exact ne_nil_of_mem (mem_flatMap.2 ⟨x, hx, mem_filterMap.2 ⟨y, hy, hc⟩⟩)

theorem Access.Conflicts.symm {a b : Access} (h : a.Conflicts b) : b.Conflicts a :=
  ⟨by rw [DeviceRegion.overlaps_comm]; exact h.1, h.2.symm⟩

theorem PlannedDispatch.Conflicts.symm (h : a.Conflicts b) : b.Conflicts a := by
  obtain ⟨x, hx, y, hy, hxy⟩ := h
  exact ⟨y, hy, x, hx, hxy.symm⟩

theorem validateOrderedConflicts_ok {reachable : Nat → Nat → Bool} : ∀ (ds : List PlannedDispatch),
    ds.Pairwise (fun a b => a.Conflicts b → reachable a.node.index b.node.index = true) →
    validateOrderedConflicts reachable ds = .ok ()
  | [], _ => rfl
  | d :: ds, h => by
    obtain ⟨h1, h2⟩ := pairwise_cons.1 h
    unfold validateOrderedConflicts
    have : firstError (fun second : PlannedDispatch => firstError (fun c : HazardKind × DeviceRegion =>
        if reachable d.node.index second.node.index then .ok ()
        else .error (VisibilityError.unorderedConflict d.node second.node c.1 c.2)) (conflicts d second)) ds = .ok () := by
      refine (firstError_ok _ ds).2 (fun e he => (firstError_ok _ _).2 (fun c hc => ?_))
      rw [if_pos (h1 e he ((conflicts_ne_nil d e).1 (ne_nil_of_mem hc)))]
    rw [this]
    exact validateOrderedConflicts_ok ds h2

section plan

variable {r : Recorder} {options : CompileOptions} {plan : CompiledPlan} (hr : r.WF) (h : PlanOf r options plan)
include hr h

theorem PlanOf.owner (hd : d ∈ plan.dispatches) : d.node.owner = r.owner :=
  ((h.order.known hr d.node).1 (mem_map_of_mem hd)).1

theorem PlanOf.mk_index (hd : d ∈ plan.dispatches) : (⟨r.owner, d.node.index⟩ : NodeId) = d.node := by
  rw [← h.owner hr hd]

theorem PlanOf.reachable_iff (ha : a ∈ plan.dispatches) (hb : b ∈ plan.dispatches) :
    dispatchReachability plan.dispatches a.node.index b.node.index = true ↔ TransGen (Arc r.edges) a.node b.node := by
  rw [dispatchReachability_byIndex hr plan.dispatches (fun d hd => ⟨(h.planned d hd).1, h.owner hr hd⟩),
    h.mk_index hr ha, h.mk_index hr hb]
  exact closePreds_iff h.order.topo (predsOf r.edges) (fun n d => mem_predsOf) _ _

theorem PlanOf.indices_nodup : (plan.dispatches.map (fun d => d.node.index)).Nodup := by
  have := h.order.indices_nodup hr
  rwa [map_map] at this

theorem PlanOf.laneByNode_eq (hd : d ∈ plan.dispatches) : laneByNode plan.dispatches d.node.index = d.lane :=
  (laneByNode_foldl plan.dispatches _ (h.indices_nodup hr)).1 d hd

theorem PlanOf.eq_of_node (ha : a ∈ plan.dispatches) (hb : b ∈ plan.dispatches) (hn : a.node = b.node) : a = b :=
  inj_on_of_nodup_map (h.indices_nodup hr) ha hb (by simp only [hn])

theorem PlanOf.dispatch_of {n : NodeId} (hn : r.Known n) : ∃ d ∈ plan.dispatches, d.node = n := by
  obtain ⟨d, hd, he⟩ := mem_map.1 ((h.order.known hr n).2 hn)
  exact ⟨d, hd, he⟩

omit hr in
/-- In the plan's list, what a dispatch waits for stands before it. -/
theorem PlanOf.before (he : plan.dispatches = pre ++ d :: post)
    (hm : e ∈ plan.dispatches) (hed : TransGen (Arc r.edges) e.node d.node) : e ∈ pre := by
  have hback := pairwise_map.1 h.order.topo.no_way_back
  have hloop : ¬ TransGen (Arc r.edges) d.node d.node := fun hl => by
    have := h.order.topo.reach_mem hl (pre.map PlannedDispatch.node) (post.map PlannedDispatch.node) (by rw [he]; simp)
    have hnd := h.order.topo.nodup
    rw [he, map_append, map_cons] at hnd
    exact (nodup_cons.1 (nodup_append.1 hnd).2.1).1 this
  rw [he] at hback hm
  rcases mem_append.1 hm with hm | hm
  · exact hm
  · rcases mem_cons.1 hm with rfl | hm
    · exact absurd hed hloop
    · exact absurd hed (rel_of_pairwise_cons (pairwise_append.1 hback).2.1 hm)

/-! ## Conflicts of a plan are ordered -/

/-- **Conflicting dispatches of a compiled plan are ordered one way or the other.** -/
theorem PlanOf.conflicts_ordered (ha : a ∈ plan.dispatches)
    (hb : b ∈ plan.dispatches) (hne : a.node ≠ b.node) (hab : a.Conflicts b) :
    TransGen (Arc r.edges) a.node b.node ∨ TransGen (Arc r.edges) b.node a.node := by
  -- by symmetry, the first dispatch is recorded earlier
  wlog hlt : a.node.index < b.node.index generalizing a b
  · have hne' : a.node.index ≠ b.node.index := fun he => hne (by rw [← h.mk_index hr ha, ← h.mk_index hr hb, he])
    exact (this hb ha hne.symm hab.symm (by omega)).symm
  obtain ⟨x, hx, y, hy, hxy⟩ := hab
  obtain ⟨n, hn, -, hna⟩ := (h.planned a ha).1.entry
  obtain ⟨m, hm, -, hma⟩ := (h.planned b hb).1.entry
  rw [hna] at hx
  rw [hma] at hy
  obtain ⟨p, hp⟩ := getElem?_of_mem hx
  obtain ⟨q, hq⟩ := getElem?_of_mem hy
  by_contra hno
  rw [not_or] at hno
  refine h.hazardFree ⟨a.node.index, p, b.node.index, q⟩ ⟨hlt, ⟨?_, ?_⟩, ((n.id, x), (m.id, y)), ?_, hxy⟩
  · rw [h.mk_index hr ha, h.mk_index hr hb]; exact hno.1
  · rw [h.mk_index hr ha, h.mk_index hr hb]; exact hno.2
  · simp [Recorder.accessesAt, hn, hm, hp, hq]

/-- **The second closure agrees with the first**: a compiled plan has no unordered conflict left. -/
theorem PlanOf.validated :
    validateOrderedConflicts (dispatchReachability plan.dispatches) plan.dispatches = .ok () := by
  refine validateOrderedConflicts_ok _ ?_
  have hback := pairwise_map.1 h.order.topo.no_way_back
  have hnd := pairwise_map.1 h.order.topo.nodup
  refine (hback.and hnd).imp_of_mem (fun {a b} ha hb hab hc => ?_)
  rw [h.reachable_iff hr ha hb]
  exact (h.conflicts_ordered hr ha hb hab.2 hc).resolve_right hab.1

/-- **`derive_aql_visibility` refuses only the empty plan.** -/
theorem PlanOf.derive_ok (boundary : ApiBoundary) :
    (plan.dispatches = [] ∧ deriveAqlVisibility plan boundary = .error .emptyPlan) ∨
      (plan.dispatches ≠ [] ∧ ∃ policy, deriveAqlVisibility plan boundary = .ok policy) := by
  unfold deriveAqlVisibility
  by_cases hd : plan.dispatches = []
  · exact .inl ⟨hd, by rw [if_pos hd]⟩
  · refine .inr ⟨hd, ?_⟩
    rw [if_neg hd]
    simp only [h.validated hr]
    exact ⟨_, rfl⟩

end plan

/-! ## The walk -/

section walk

variable (reachable : Nat → Nat → Bool) (laneOf : Nat → Nat) (entry : EntryBoundary)

/-- Whether the walk gives a dispatch the barrier bit. -/
def needsBarrier (walk : LaneWalk) (d : PlannedDispatch) : Bool := !(orderReasons reachable laneOf walk.epoch d).isEmpty

def walkStep (lanes : Nat → LaneWalk) (d : PlannedDispatch) : Nat → LaneWalk :=
  update lanes d.lane ((lanes d.lane).push (needsBarrier reachable laneOf (lanes d.lane) d) d)

def walkLanes (pre : List PlannedDispatch) : Nat → LaneWalk :=
  pre.foldl (walkStep reachable laneOf) (fun _ => ⟨[], [], none⟩)

/-- The walk over the first dispatches of a plan. -/
abbrev CompiledPlan.walk (plan : CompiledPlan) (pre : List PlannedDispatch) : Nat → LaneWalk :=
  walkLanes (dispatchReachability plan.dispatches) (laneByNode plan.dispatches) pre

/-- The policy of a dispatch between those before and after it. -/
abbrev CompiledPlan.policyAt (plan : CompiledPlan) (pre : List PlannedDispatch) (d : PlannedDispatch)
    (post : List PlannedDispatch) : DerivedDispatchPolicy :=
  dispatchPolicy (dispatchReachability plan.dispatches) (laneByNode plan.dispatches) entry pre post (plan.walk pre d.lane) d

theorem walkLanes_append (pre : List PlannedDispatch) (d : PlannedDispatch) :
    walkLanes reachable laneOf (pre ++ [d]) = walkStep reachable laneOf (walkLanes reachable laneOf pre) d := by
  unfold walkLanes
  rw [foldl_append]
  rfl

theorem deriveLoop_lanes : ∀ (rest earlier : List PlannedDispatch) (lanes : Nat → LaneWalk),
    (deriveLoop reachable laneOf entry earlier rest lanes).2 = rest.foldl (walkStep reachable laneOf) lanes
  | [], _, _ => rfl
  | d :: rest, earlier, _ => deriveLoop_lanes rest (earlier ++ [d]) _

theorem deriveLoop_key : ∀ (rest earlier : List PlannedDispatch) (lanes : Nat → LaneWalk),
    (deriveLoop reachable laneOf entry earlier rest lanes).1.map (fun p => (p.node, p.lane)) =
      rest.map (fun d => (d.node, d.lane))
  | [], _, _ => rfl
  | d :: rest, earlier, _ => congrArg (cons (d.node, d.lane)) (deriveLoop_key rest (earlier ++ [d]) _)

/-- The policy of the dispatch after `pre`, and the policies before it. -/
theorem deriveLoop_split : ∀ (pre earlier : List PlannedDispatch) (d : PlannedDispatch) (post : List PlannedDispatch)
    (lanes : Nat → LaneWalk), ∃ before after,
      (deriveLoop reachable laneOf entry earlier (pre ++ d :: post) lanes).1 = before ++
        dispatchPolicy reachable laneOf entry (earlier ++ pre) post (pre.foldl (walkStep reachable laneOf) lanes d.lane) d ::
          after ∧
      before.map (fun p => (p.node, p.lane)) = pre.map (fun d => (d.node, d.lane))
  | [], earlier, d, post, lanes => ⟨[], _, by rw [append_nil]; rfl, rfl⟩
  | e :: pre, earlier, d, post, lanes => by
    obtain ⟨before, after, h1, h2⟩ := deriveLoop_split pre (earlier ++ [e]) d post (walkStep reachable laneOf lanes e)
    refine ⟨dispatchPolicy reachable laneOf entry earlier (pre ++ d :: post) (lanes e.lane) e :: before, after, ?_, ?_⟩
    · rw [append_assoc] at h1
      exact congrArg (cons _) h1
    · exact congrArg (cons (e.node, e.lane)) h2

theorem walkLanes_nodes : ∀ (pre : List PlannedDispatch) (lane : Nat),
    (walkLanes reachable laneOf pre lane).nodes = (pre.filter (fun d => decide (d.lane = lane))).map PlannedDispatch.node := by
  intro pre
  induction pre using reverseRecOn with
  | nil => exact fun _ => rfl
  | append_singleton pre d ih =>
    intro lane
    rw [walkLanes_append, filter_append, map_append, ← ih lane]
    unfold walkStep
    by_cases hl : d.lane = lane
    · subst hl
      simp [LaneWalk.push]
    · rw [update_of_ne (Ne.symm hl)]
      simp [hl]

theorem mem_foldl_pushUnique {α : Type} [DecidableEq α] (x : α) : ∀ (l acc : List α),
    x ∈ l.foldl pushUnique acc ↔ x ∈ acc ∨ x ∈ l
  | [], acc => by simp
  | y :: l, acc => by
    rw [foldl_cons, mem_foldl_pushUnique x l, mem_cons]
    unfold pushUnique
    split
    · rename_i hy
      refine ⟨fun h => by rcases h with h | h <;> simp [h], fun h => ?_⟩
      rcases h with h | rfl | h
      · exact .inl h
      · exact .inl hy
      · exact .inr h
    · rw [mem_append, mem_singleton, or_assoc]

theorem mem_orderReasons (epoch : List PlannedDispatch) (d : PlannedDispatch) (reason : OrderReason) :
    reason ∈ orderReasons reachable laneOf epoch d ↔ reason ∈ orderCandidates reachable laneOf epoch d := by
  unfold orderReasons
  rw [mem_foldl_pushUnique]
  simp

/-- A dispatch reached from its lane's open epoch gets the barrier bit. -/
theorem needsBarrier_of_epoch {walk : LaneWalk} (he : e ∈ walk.epoch) (h : reachable e.node.index d.node.index = true) :
    needsBarrier reachable laneOf walk d = true := by
  have hmem : OrderReason.orderedAfter e.node ∈ orderReasons reachable laneOf walk.epoch d := by
    rw [mem_orderReasons]
    exact mem_append_right _ (mem_flatMap.2 ⟨e, he, by simp [h]⟩)
  unfold needsBarrier
  cases hr : orderReasons reachable laneOf walk.epoch d with
  | nil => rw [hr] at hmem; cases hmem
  | cons x l => rfl

/-- **A packet placed on a lane is in its open epoch, or some barrier of the lane came after it.** -/
theorem walk_closed : ∀ (pre : List PlannedDispatch), ∀ e ∈ pre, e ∈ (walkLanes reachable laneOf pre e.lane).epoch ∨
      ∃ p1 k p2, pre = p1 ++ k :: p2 ∧ e ∈ p1 ∧ k.lane = e.lane ∧
        needsBarrier reachable laneOf (walkLanes reachable laneOf p1 k.lane) k = true := by
  intro pre
  induction pre using reverseRecOn with
  | nil => simp
  | append_singleton pre d ih =>
    intro e he
    rw [walkLanes_append]
    unfold walkStep
    rcases mem_append.1 he with he | he
    · rcases ih e he with hin | ⟨p1, k, p2, rfl, h1, h2, h3⟩
      · by_cases hl : d.lane = e.lane
        · rw [hl, update_self]
          by_cases hb : needsBarrier reachable laneOf (walkLanes reachable laneOf pre e.lane) d = true
          · exact .inr ⟨pre, d, [], rfl, he, hl, hl ▸ hb⟩
          · exact .inl (by simp [LaneWalk.push, hb, hin])
        · rw [update_of_ne (Ne.symm hl)]
          exact .inl hin
      · exact .inr ⟨p1, k, p2 ++ [d], by simp, h1, h2, h3⟩
    · rw [mem_singleton.1 he, update_self]
      exact .inl (by simp [LaneWalk.push])

end walk

/-! ## Executions -/

/-- An execution that keeps what the policy says and no more. -/
structure Respects {T : Type} [Preorder T] (policy : DerivedVisibilityPlan) (start finish : NodeId → T) : Prop where
  runs : ∀ p ∈ policy.dispatches, start p.node ≤ finish p.node
  laneOrder : policy.dispatches.Pairwise (fun p q => p.lane = q.lane → start p.node ≤ start q.node)
  barrier : policy.dispatches.Pairwise (fun p q => p.lane = q.lane → q.header.barrier = true → finish p.node ≤ start q.node)
  crossLane : ∀ q ∈ policy.dispatches, ∀ d ∈ q.barrier.crossLane, finish d ≤ start q.node

theorem derive_eq {plan : CompiledPlan} {boundary : ApiBoundary} {policy : DerivedVisibilityPlan}
    (h : deriveAqlVisibility plan boundary = .ok policy) :
    policy.dispatches = (deriveLoop (dispatchReachability plan.dispatches) (laneByNode plan.dispatches) boundary.entry []
        plan.dispatches (fun _ => ⟨[], [], none⟩)).1 ∧
      policy.laneConsolidations =
        (range plan.laneCount).filterMap (fun lane => consolidation lane (plan.walk plan.dispatches lane)) ∧
      policy.terminal = ⟨⟨true, .none, exitScope boundary.exit⟩,
        policy.laneConsolidations.map LaneConsolidationPolicy.lane, .exit boundary.exit⟩ := by
  unfold deriveAqlVisibility at h
  split at h
  · cases h
  simp only at h
  split at h
  · cases h
  · cases h
    refine ⟨rfl, ?_, rfl⟩
    rw [deriveLoop_lanes]
    rfl

section executions

theorem mem_before {before : List DerivedDispatchPolicy}
    (h : before.map (fun p => (p.node, p.lane)) = pre.map (fun d => (d.node, d.lane))) (he : e ∈ pre) :
    ∃ q ∈ before, q.node = e.node ∧ q.lane = e.lane := by
  have : (e.node, e.lane) ∈ before.map (fun p => (p.node, p.lane)) := h ▸ mem_map.2 ⟨e, he, rfl⟩
  obtain ⟨q, hq, heq⟩ := mem_map.1 this
  exact ⟨q, hq, (Prod.mk.inj heq).1, (Prod.mk.inj heq).2⟩

variable {plan : CompiledPlan} {boundary : ApiBoundary} {policy : DerivedVisibilityPlan}
  (h : deriveAqlVisibility plan boundary = .ok policy)
include h

theorem policy_split (he : plan.dispatches = pre ++ d :: post) : ∃ before after,
      policy.dispatches = before ++ plan.policyAt boundary.entry pre d post :: after ∧
      before.map (fun p => (p.node, p.lane)) = pre.map (fun d => (d.node, d.lane)) := by
  have h1 := (derive_eq h).1
  obtain ⟨before, after, h2, h3⟩ := deriveLoop_split (dispatchReachability plan.dispatches) (laneByNode plan.dispatches)
    boundary.entry pre [] d post (fun _ => ⟨[], [], none⟩)
  rw [← he, ← h1] at h2
  exact ⟨before, after, h2, h3⟩

variable {T : Type} [Preorder T] {start finish : NodeId → T} (hrun : Respects policy start finish)
include hrun

theorem dispatch_runs (hd : d ∈ plan.dispatches) : start d.node ≤ finish d.node := by
  obtain ⟨pre, post, he⟩ := append_of_mem hd
  obtain ⟨before, after, h1, -⟩ := policy_split h he
  exact hrun.runs _ (h1 ▸ mem_append_right _ mem_cons_self)

theorem lane_rules (he : plan.dispatches = pre ++ d :: post) (hm : e ∈ pre) (hl : e.lane = d.lane) :
    start e.node ≤ start d.node ∧
      (needsBarrier (dispatchReachability plan.dispatches) (laneByNode plan.dispatches) (plan.walk pre d.lane) d = true →
        finish e.node ≤ start d.node) := by
  obtain ⟨before, after, h1, h2⟩ := policy_split h he
  obtain ⟨q, hq, hqn, hql⟩ := mem_before h2 hm
  have ho := hrun.laneOrder
  have hb := hrun.barrier
  rw [h1] at ho hb
  have ho' := (pairwise_append.1 ho).2.2 q hq _ mem_cons_self (hql.trans hl)
  have hb' := (pairwise_append.1 hb).2.2 q hq _ mem_cons_self (hql.trans hl)
  rw [hqn] at ho' hb'
  exact ⟨ho', hb'⟩

variable {r : Recorder} {options : CompileOptions} (hr : r.WF) (hp : PlanOf r options plan)
include hr hp

/-- **A dispatch starts after a packet of its lane that reaches it has finished.** -/
theorem lane_dependency (hd : d ∈ plan.dispatches) (he : e ∈ plan.dispatches) (hl : e.lane = d.lane)
    (hed : TransGen (Arc r.edges) e.node d.node) : finish e.node ≤ start d.node := by
  obtain ⟨pre, post, hsplit⟩ := append_of_mem hd
  have hepre := hp.before hsplit he hed
  rcases walk_closed (dispatchReachability plan.dispatches) (laneByNode plan.dispatches) pre e hepre with
    hin | ⟨p1, k, p2, hpre, he1, hkl, hkb⟩
  · refine (lane_rules h hrun hsplit hepre hl).2 (needsBarrier_of_epoch _ _ (hl ▸ hin) ?_)
    exact (hp.reachable_iff hr he hd).2 hed
  · have hsplit' : plan.dispatches = p1 ++ k :: (p2 ++ d :: post) := by rw [hsplit, hpre]; simp
    have hk := (lane_rules h hrun hsplit' he1 hkl.symm).2 hkb
    have hkd := (lane_rules h hrun hsplit (e := k) (by rw [hpre]; simp) (hkl.trans hl)).1
    exact le_trans hk hkd

/-- A direct dependency on another lane is among the reasons of the dispatch. -/
theorem cross_dependency (hd : d ∈ plan.dispatches) (he : e ∈ plan.dispatches) (hl : e.lane ≠ d.lane)
    (hed : Arc r.edges e.node d.node) : finish e.node ≤ start d.node := by
  obtain ⟨pre, post, hsplit⟩ := append_of_mem hd
  obtain ⟨before, after, h1, -⟩ := policy_split h hsplit
  have hdep : e.node ∈ d.dependencies := by rw [(hp.planned d hd).1.deps]; exact mem_predsOf.2 hed
  have hmem : OrderReason.crossLaneDependency e.node ∈ orderReasons (dispatchReachability plan.dispatches)
      (laneByNode plan.dispatches) (plan.walk pre d.lane).epoch d := by
    rw [mem_orderReasons]
    refine mem_append_left _ (mem_map.2 ⟨e.node, mem_filter.2 ⟨hdep, ?_⟩, rfl⟩)
    rw [hp.laneByNode_eq hr he]
    simpa using hl
  refine hrun.crossLane _ (h1 ▸ mem_append_right _ mem_cons_self) e.node ?_
  simp only [dispatchPolicy]
  rw [if_neg (ne_nil_of_mem hmem)]
  exact mem_filterMap.2 ⟨_, hmem, rfl⟩

/-- **Every execution starts a dispatch only after everything it waits for has finished.** -/
theorem respects_reaches {a b : NodeId} (hab : TransGen (Arc r.edges) a b) : finish a ≤ start b := by
  have direct : ∀ a b, Arc r.edges a b → finish a ≤ start b := by
    intro a b hab
    obtain ⟨e, he, rfl⟩ := hp.dispatch_of hr (hr.known _ hab).1
    obtain ⟨d, hd, rfl⟩ := hp.dispatch_of hr (hr.known _ hab).2
    by_cases hl : e.lane = d.lane
    · exact lane_dependency h hrun hr hp hd he hl (.single hab)
    · exact cross_dependency h hrun hr hp hd he hl hab
  induction hab with
  | single hab => exact direct _ _ hab
  | tail _ hbc ih =>
    obtain ⟨d, hd, rfl⟩ := hp.dispatch_of hr (hr.known _ hbc).1
    exact le_trans ih (le_trans (dispatch_runs h hrun hd) (direct _ _ hbc))

end executions

end Hipfire.Redline
