import Hipfire.Redline.Serial
/-!
# Entry — where the entry acquire of a batch ends up

`derive_aql_visibility` gives the entry acquire to the first dispatch of a lane in plan order; `create_derived` emits a lane's
packets by dependency level.  The first kernel packet of a queue is the first dispatch of its lane that waits for nothing
(`first_kernel`), so the entry acquire reaches it exactly when that is the first dispatch of the lane
(`entry_acquire_iff_first_free`).
-/
namespace Hipfire.Redline

open List
open Relation (TransGen)

def Packet.isKernel : Packet → Bool
  | .kernel _ _ _ => true
  | .barrierAnd _ _ _ => false

/-- The first kernel packet of a queue's stream acquires at the scope of the entry boundary. -/
def AcquiresEntry (boundary : ApiBoundary) (stream : List Emitted) : Prop :=
  ∃ e, stream.find? (fun e => e.packet.isKernel) = some e ∧
    (entryScope boundary.entry).toNat ≤ e.packet.policy.acquire.toNat

/-- The first dispatch of a lane, in plan order. -/
def CompiledPlan.firstOn (plan : CompiledPlan) (lane : Nat) : Option PlannedDispatch :=
  plan.dispatches.find? (fun d => decide (d.lane = lane))

/-! ## The first packet -/

section stream

variable {phases : List TwoQueuePhase} {policies : TwoQueueDerivedPolicies} {tokenCount : Nat}

variable (policies) in
/-- A queue's stream starts with the first dispatch of its first phase. -/
theorem find_kernel_batch (ht : 0 < tokenCount) (hp : 0 < phases.length) (lane : Fin 2) {d : RecordedDispatch}
    {rest : List RecordedDispatch} (hd : (phaseAt phases 0).lane lane = d :: rest) :
    ∃ e, (batch phases policies tokenCount lane).find? (fun e => e.packet.isKernel) = some e ∧
      e.packet.policy = dispatchHeader policies ⟨0, 0, lane, 0⟩ := by
  obtain ⟨t, rfl⟩ : ∃ t, tokenCount = t + 1 := ⟨tokenCount - 1, by omega⟩
  obtain ⟨p, hp'⟩ : ∃ p, phases.length = p + 1 := ⟨phases.length - 1, by omega⟩
  unfold batch
  rw [range_succ_eq_map, flatMap_cons]
  unfold tokenPackets
  rw [if_pos rfl, hp', range_succ_eq_map, flatMap_cons]
  unfold phasePackets phaseBody
  rw [if_pos rfl, hd]
  exact ⟨_, rfl, rfl⟩

variable {nodes : List (TwoLanes NodeId)} {plan : CompiledPlan}

theorem lowerPhases_used {device : Device} {b : ReplayBindings} {kernels : AqlKernelCatalog}
    (h : lowerPhases device plan b kernels = .ok (phases, nodes)) : ∀ phase ∈ phases, ∀ lane, phase.lane lane ≠ [] := by
  unfold lowerPhases at h
  split at h
  · cases h
  split at h
  · cases h
  dsimp only at h
  split at h
  · cases h
  rename_i hnone
  cases h
  intro phase hphase lane
  obtain ⟨p, hp, rfl⟩ := mem_map.1 hphase
  have hused := find?_eq_none.1 hnone p hp
  rw [decide_eq_true_eq, not_or] at hused
  rcases lane_cases lane with rfl | rfl
  · exact hused.1
  · exact hused.2

end stream

/-! ## Headers of nodes -/

variable {header : DerivedDispatchPolicy → HeaderPolicy} {visibility : DerivedVisibilityPlan}

theorem policiesFor_get :
    ∀ {nodes : List NodeId} {headers : List HeaderPolicy}, policiesFor visibility header nodes = .ok headers →
      ∀ {i : Nat} {n : NodeId}, nodes[i]? = some n →
        ∃ p ∈ visibility.dispatches, p.node = n ∧ headers[i]? = some (header p)
  | [], _, _, _, _, hi => by cases hi
  | node :: nodes, headers, h, i, n, hi => by
    unfold policiesFor at h
    split at h
    · cases h
    rename_i policy hfind
    split at h
    · cases h
    rename_i rest hrest
    cases h
    cases i with
    | zero =>
      cases hi
      have hnode := find?_some hfind
      exact ⟨policy, mem_of_find?_eq_some hfind, of_decide_eq_true hnode, rfl⟩
    | succ i => exact policiesFor_get hrest hi

theorem lowerPhasePolicies_get : ∀ {phases : List (TwoLanes NodeId)} {out : List (TwoLanes HeaderPolicy)},
      lowerPhasePolicies visibility header phases = .ok out → ∀ {i : Nat} {lanes : TwoLanes NodeId},
        phases[i]? = some lanes →
          ∃ headers, out[i]? = some headers ∧ ∀ lane, policiesFor visibility header (lanes.lane lane) = .ok (headers.lane lane)
  | [], _, _, _, _, hi => by cases hi
  | phase :: phases, out, h, i, lanes, hi => by
    unfold lowerPhasePolicies at h
    split at h
    · cases h
    rename_i zero hzero
    split at h
    · cases h
    rename_i one hone
    split at h
    · cases h
    rename_i rest hrest
    cases h
    cases i with
    | zero =>
      cases hi
      refine ⟨⟨zero, one⟩, rfl, fun lane => ?_⟩
      rcases lane_cases lane with rfl | rfl
      · exact hzero
      · exact hone
    | succ i => exact lowerPhasePolicies_get hrest hi

/-- On the first token a dispatch carries the header derived for its node. -/
theorem dispatchHeader_first
    {profile : Bool} {policies : TwoQueueDerivedPolicies} (h : lowerPolicies plan nodes visibility profile = .ok policies)
    {phase slot : Nat} {lane : Fin 2} {n : NodeId} (hn : nodeAt nodes ⟨0, phase, lane, slot⟩ = some n) :
    ∃ p ∈ visibility.dispatches, p.node = n ∧ dispatchHeader policies ⟨0, phase, lane, slot⟩ = p.header := by
  unfold lowerPolicies at h
  split at h
  · cases h
  rename_i firstDispatches hfirst
  split at h
  · cases h
  split at h
  · cases h
  cases h
  unfold nodeAt at hn
  split at hn
  · cases hn
  rename_i lanes hlanes
  obtain ⟨headers, hout, hall⟩ := lowerPhasePolicies_get hfirst hlanes
  obtain ⟨p, hp, hpn, hslot⟩ := policiesFor_get (hall lane) hn
  refine ⟨p, hp, hpn, ?_⟩
  unfold dispatchHeader
  dsimp only at hout hslot ⊢
  rw [if_pos rfl, hout]
  dsimp only
  rw [getD_eq_getElem?_getD, hslot]
  rfl

/-! ## Dispatches that wait for nothing -/

section plan

variable {r : Recorder} {options : CompileOptions} {plan : CompiledPlan} {boundary : ApiBoundary}
  {policy : DerivedVisibilityPlan}

variable {d : PlannedDispatch}

theorem level_eq_zero_iff (hr : r.WF) (h : PlanOf r options plan) (hd : d ∈ plan.dispatches) :
    levelsOf plan.dispatches d.node.index = 0 ↔ d.dependencies = [] := by
  constructor
  · intro hlevel
    refine eq_nil_iff_forall_not_mem.2 (fun n hn => ?_)
    rw [(h.planned d hd).1.deps] at hn
    have := level_lt_of_arc hr h (mem_predsOf.1 hn)
    omega
  · intro hdeps
    obtain ⟨pre, post, hsplit⟩ := append_of_mem hd
    rw [(levels_split hr h hsplit).1]
    unfold levelOf
    rw [hdeps]
    rfl

/-- A dispatch that waits for nothing acquires for the entry boundary alone, and only as the first of its lane. -/
theorem free_acquire (hr : r.WF) (h : PlanOf r options plan) (hv : deriveAqlVisibility plan boundary = .ok policy)
    {pre post : List PlannedDispatch} (hsplit : plan.dispatches = pre ++ d :: post)
    (hfree : d.dependencies = []) {p : DerivedDispatchPolicy} (hp : p ∈ policy.dispatches) (hpn : p.node = d.node) :
    (entryScope boundary.entry).toNat ≤ p.header.acquire.toNat ↔ ∀ e ∈ pre, e.lane ≠ d.lane := by
  obtain ⟨pre', d', post', hsplit', hd', rfl⟩ := policy_of_mem hv hp
  obtain rfl := h.eq_of_node hr (mem_of_split hsplit') (mem_of_split hsplit) (hd'.trans hpn)
  obtain rfl : pre' = pre := by
    have hnd := h.order.topo.nodup.of_map
    rw [hsplit, nodup_append, nodup_cons] at hnd
    have hpre : d' ∉ pre := fun hm => hnd.2.2 d' hm d' mem_cons_self rfl
    exact ((append_cons_inj_of_notMem hpre hnd.2.1.1).1 (hsplit.symm.trans hsplit')).1.symm
  have hnone : acquireReasons (dispatchReachability plan.dispatches) pre' d' = [] := by
    refine flatMap_eq_nil_iff.2 (fun w hw => ?_)
    have hunreach : dispatchReachability plan.dispatches w.node.index d'.node.index ≠ true := by
      intro hreach
      have hwm : w ∈ plan.dispatches := hsplit ▸ mem_append_left _ hw
      have hd := mem_of_split hsplit
      obtain ⟨x, -, hx⟩ := TransGen.tail'_iff.1 ((h.reachable_iff hr hwm hd).1 hreach)
      have := mem_predsOf.2 hx
      rw [← (h.planned d' hd).1.deps, hfree] at this
      cases this
    unfold rawConflicts
    rw [if_neg hunreach]
    rfl
  have hnodes : (walkLanes (dispatchReachability plan.dispatches) (laneByNode plan.dispatches) pre' d'.lane).nodes = [] ↔
      ∀ e ∈ pre', e.lane ≠ d'.lane := by
    rw [walkLanes_nodes, map_eq_nil_iff, filter_eq_nil_iff]
    simp only [decide_eq_true_eq, ne_eq]
  have hpos : 0 < (entryScope boundary.entry).toNat := by
    cases boundary.entry <;> decide
  rw [← hnodes]
  simp only [dispatchPolicy, hnone, agentIfAny, if_pos]
  constructor
  · intro hle
    by_contra hne
    rw [if_neg hne] at hle
    have hzero : FenceScope.none.toNat = 0 := rfl
    omega
  · intro hnil
    rw [if_pos hnil]
    exact le_maxScope _ _

end plan

/-! ## The queues -/

section queues

variable {r : Recorder} {options : CompileOptions} {plan : CompiledPlan} {boundary : ApiBoundary}
  {visibility : DerivedVisibilityPlan} {device : Device} {b : ReplayBindings} {kernels : AqlKernelCatalog}
  {lowered : List (PlannedDispatch × RecordedDispatch)} {phases : List TwoQueuePhase} {nodes : List (TwoLanes NodeId)}
  {policies : TwoQueueDerivedPolicies} {profile : Bool} {tokenCount : Nat}

/-- The dispatches of a lane in a phase are those of the plan, in plan order. -/
theorem Lowered.map_selectPhase (h : Lowered device plan b kernels lowered phases nodes) (phase lane : Nat) :
    (selectPhase (levelsOf plan.dispatches) lowered phase lane).map Prod.fst = plan.dispatches.filter (fun d =>
      decide (levelsOf plan.dispatches d.node.index = phase) && decide (d.lane = lane)) := by
  rw [← h.plan_eq, filter_map]
  rfl

/-- **The first kernel packet of a queue is the first dispatch of its lane that waits for nothing**, with the header derived
for it. -/
theorem first_kernel (hr : r.WF) (hplan : PlanOf r options plan) (h : lowerPhases device plan b kernels = .ok (phases, nodes))
    (hpol : lowerPolicies plan nodes visibility profile = .ok policies) (ht : 0 < tokenCount) (lane : Fin 2) :
    ∃ e pre d post, ∃ p ∈ visibility.dispatches,
      (batch phases policies tokenCount lane).find? (fun e => e.packet.isKernel) = some e ∧ e.packet.policy = p.header ∧
      p.node = d.node ∧ plan.dispatches = pre ++ d :: post ∧ d.lane = lane.val ∧ d.dependencies = [] ∧
      ∀ x ∈ pre, x.lane = lane.val → x.dependencies ≠ [] := by
  obtain ⟨lowered, hlow⟩ := lowerPhases_ok h
  have hlen : 0 < phases.length := by rw [hlow.phases_length]; omega
  -- the first phase uses the lane
  obtain ⟨x, rest, hx⟩ : ∃ x rest, selectPhase (levelsOf plan.dispatches) lowered 0 lane.val = x :: rest := by
    have hused := lowerPhases_used h _ (mem_of_getElem? (hlow.phase_get hlen)) lane
    rw [phaseOf_lane, ne_eq, map_eq_nil_iff] at hused
    exact exists_cons_of_ne_nil hused
  obtain ⟨e, he, hpolicy⟩ := find_kernel_batch policies ht hlen lane
    (by rw [hlow.phaseAt_lane hlen lane, hx, map_cons])
  have hnode : nodeAt nodes ⟨0, 0, lane, 0⟩ = some x.1.node := by
    rw [(hlow.job_dispatch hlen).1, hx]
    rfl
  obtain ⟨p, hp, hpn, hheader⟩ := dispatchHeader_first hpol hnode
  have hfilter := hlow.map_selectPhase 0 lane.val
  rw [hx, map_cons] at hfilter
  have hfind : plan.dispatches.find? (fun d =>
      decide (levelsOf plan.dispatches d.node.index = 0) && decide (d.lane = lane.val)) = some x.1 := by
    rw [← head?_filter, ← hfilter]
    rfl
  obtain ⟨hsel, pre, post, hsplit, hbefore⟩ := find?_eq_some_iff_append.1 hfind
  simp only [Bool.and_eq_true, decide_eq_true_eq] at hsel
  refine ⟨e, pre, x.1, post, p, hp, he, hpolicy.trans hheader, hpn, hsplit, hsel.2,
    (level_eq_zero_iff hr hplan (mem_of_split hsplit)).1 hsel.1, fun y hy hlane hfree => ?_⟩
  have hym : y ∈ plan.dispatches := hsplit ▸ mem_append_left _ hy
  have := hbefore y hy
  rw [(level_eq_zero_iff hr hplan hym).2 hfree, hlane] at this
  simp at this

end queues

/-- **The entry acquire reaches the hardware exactly if the first dispatch of each lane waits for nothing.** -/
theorem entry_acquire_iff_first_free (sha256 : List UInt8 → Digest) (owner : Nat) (ops : List RecorderOp)
    (options : CompileOptions) {plan : CompiledPlan} (hc : compile sha256 (build owner ops) options = .ok plan)
    (device : Device) (b : ReplayBindings) (kernels : AqlKernelCatalog) {phases : List TwoQueuePhase}
    {nodes : List (TwoLanes NodeId)} (hl : lowerPhases device plan b kernels = .ok (phases, nodes))
    (boundary : ApiBoundary) {visibility : DerivedVisibilityPlan} (hv : deriveAqlVisibility plan boundary = .ok visibility)
    (profile : Bool) {policies : TwoQueueDerivedPolicies} (hp : lowerPolicies plan nodes visibility profile = .ok policies)
    (capacity tokenCount : Nat) {graph : TwoQueueSerializedBatchGraph}
    (hg : createDerived device capacity tokenCount phases policies = .ok graph) :
    (∀ lane, AcquiresEntry boundary (graph.batches lane)) ↔
      ∀ lane : Fin 2, ∀ d, plan.firstOn lane.val = some d → d.dependencies = [] := by
  have hr := wf_build owner ops
  have hplan := compile_ok hr hc
  obtain ⟨ht, -, -, hbatches, -⟩ := createDerived_ok hg
  refine forall_congr' (fun lane => ?_)
  obtain ⟨e, pre, d, post, p, hpm, he, hpolicy, hpn, hsplit, hlane, hfree, hbefore⟩ :=
    first_kernel hr hplan hl hp ht lane
  have hacquire : AcquiresEntry boundary (graph.batches lane) ↔ ∀ x ∈ pre, x.lane ≠ lane.val := by
    rw [← hlane, ← free_acquire hr hplan hv hsplit hfree hpm hpn, ← hpolicy]
    unfold AcquiresEntry
    rw [hbatches, he]
    constructor
    · rintro ⟨_, ⟨⟩, h⟩
      exact h
    · exact fun h => ⟨e, rfl, h⟩
  have hfind : plan.firstOn lane.val = (pre.find? (fun x => decide (x.lane = lane.val))).or (some d) := by
    unfold CompiledPlan.firstOn
    rw [hsplit, find?_append, find?_cons_of_pos (by simpa using hlane)]
  rw [hacquire, hfind]
  constructor
  · intro hnone first hfirst
    rw [find?_eq_none.2 (fun x hx => by simpa using hnone x hx), Option.none_or] at hfirst
    cases hfirst
    exact hfree
  · intro hfirst x hx hxl
    obtain ⟨y, hy⟩ : ∃ y, pre.find? (fun x => decide (x.lane = lane.val)) = some y := by
      rw [← Option.isSome_iff_exists, find?_isSome]
      exact ⟨x, hx, by simpa using hxl⟩
    have hylane := find?_some hy
    exact hbefore y (mem_of_find?_eq_some hy) (of_decide_eq_true hylane) (hfirst y (by rw [hy, Option.some_or]))

theorem entry_acquire_iff_first_free_crossed : ∃ plan phases nodes visibility policies graph,
    compile (fun _ => []) (build 0 crossedOps) twoLanes = .ok plan ∧
    lowerPhases sampleDevice plan .new sampleKernels = .ok (phases, nodes) ∧
    deriveAqlVisibility plan ⟨.hostToAql, .aqlToHost⟩ = .ok visibility ∧
    lowerPolicies plan nodes visibility false = .ok policies ∧
    createDerived sampleDevice 64 2 phases policies = .ok graph ∧
    ∀ lane, AcquiresEntry ⟨.hostToAql, .aqlToHost⟩ (graph.batches lane) := by
  refine ⟨_, _, _, _, _, _, rfl, rfl, rfl, rfl, rfl, (entry_acquire_iff_first_free (fun _ => []) 0 crossedOps twoLanes rfl
    sampleDevice .new sampleKernels rfl ⟨.hostToAql, .aqlToHost⟩ rfl false rfl 64 2 rfl).2 (fun lane d hd => ?_)⟩
  rcases lane_cases lane with rfl | rfl
  · cases hd
    rfl
  · cases hd
    rfl

/-! The second lane first takes a dispatch that waits, the third node; the first packet of its queue is the fifth. -/

def lateOps : List RecorderOp :=
  [.dispatch (byteLaunch 0) [], .dispatch (byteLaunch 1) [], .dispatch (byteLaunch 2) [], .dispatch (byteLaunch 3) [],
    .dispatch (byteLaunch 4) [], .dependsOn ⟨0, 1⟩ ⟨0, 0⟩, .dependsOn ⟨0, 2⟩ ⟨0, 0⟩]

/-- The acquire scope of the first kernel packet of a queue, for one token. -/
def queueAcquire (ops : List RecorderOp) (lane : Fin 2) : Option FenceScope :=
  (compile (fun _ => []) (build 0 ops) twoLanes).toOption.bind (fun plan =>
    (lowerPhases sampleDevice plan .new sampleKernels).toOption.bind (fun lowered =>
      (deriveAqlVisibility plan ⟨.hostToAql, .aqlToHost⟩).toOption.bind (fun visibility =>
        (lowerPolicies plan lowered.2 visibility false).toOption.bind (fun policies =>
          (createDerived sampleDevice 64 1 lowered.1 policies).toOption.bind (fun graph =>
            ((graph.batches lane).find? (fun e => e.packet.isKernel)).map (fun e => e.packet.policy.acquire))))))

theorem toOption_eq_some {ε α : Type} {x : Except ε α} {a : α} (h : x.toOption = some a) : x = .ok a := by
  cases x with
  | error e => cases h
  | ok y => exact congrArg Except.ok (Option.some.inj h)

theorem entry_acquire_missed_late : ∃ plan phases nodes visibility policies graph,
    compile (fun _ => []) (build 0 lateOps) twoLanes = .ok plan ∧
    lowerPhases sampleDevice plan .new sampleKernels = .ok (phases, nodes) ∧
    deriveAqlVisibility plan ⟨.hostToAql, .aqlToHost⟩ = .ok visibility ∧
    lowerPolicies plan nodes visibility false = .ok policies ∧
    createDerived sampleDevice 64 1 phases policies = .ok graph ∧
    ∃ e, (graph.batches 1).find? (fun e => e.packet.isKernel) = some e ∧ e.packet.policy.acquire = .none := by
  have h : queueAcquire lateOps 1 = some .none := by decide +kernel
  obtain ⟨plan, h1, h⟩ := Option.bind_eq_some_iff.1 h
  obtain ⟨⟨phases, nodes⟩, h2, h⟩ := Option.bind_eq_some_iff.1 h
  obtain ⟨visibility, h3, h⟩ := Option.bind_eq_some_iff.1 h
  obtain ⟨policies, h4, h⟩ := Option.bind_eq_some_iff.1 h
  obtain ⟨graph, h5, h⟩ := Option.bind_eq_some_iff.1 h
  obtain ⟨e, h6, h⟩ := Option.map_eq_some_iff.1 h
  exact ⟨plan, phases, nodes, visibility, policies, graph, toOption_eq_some h1, toOption_eq_some h2, toOption_eq_some h3,
    toOption_eq_some h4, toOption_eq_some h5, e, h6, h⟩

end Hipfire.Redline
