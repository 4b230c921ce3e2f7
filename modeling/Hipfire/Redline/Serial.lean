import Hipfire.Redline.Fences
import Hipfire.Redline.Stages
/-!
# Serial — a two-queue token batch runs its tokens one after another

Dependency levels put a dispatch into a later phase than everything it waits for (`level_lt`), so the order of the stages is
the order that the plan needs: `two_queue_batch_serialises`.
-/
namespace Hipfire.Redline

open List Function
open Relation (TransGen)

/-! ## Levels -/

/-- The levels after some dispatches, from the levels before them. -/
def levelsFrom (levels : Nat → Nat) (ds : List PlannedDispatch) : Nat → Nat :=
  ds.foldl (fun levels d => Function.update levels d.node.index (levelOf levels d)) levels

theorem levelsFrom_of_not_mem : ∀ (ds : List PlannedDispatch) (levels : Nat → Nat) (i : Nat),
    i ∉ ds.map (fun d => d.node.index) → levelsFrom levels ds i = levels i
  | [], _, _, _ => rfl
  | d :: ds, levels, i, h => by
    rw [map_cons, mem_cons, not_or] at h
    exact (levelsFrom_of_not_mem ds (update levels d.node.index (levelOf levels d)) i h.2).trans
      (update_of_ne h.1 _ _)

variable {job : Job} {p : Nat} {d : PlannedDispatch}

section plan

variable {r : Recorder} {options : CompileOptions} {plan : CompiledPlan}

theorem levels_split (hr : r.WF) (h : PlanOf r options plan) {pre post : List PlannedDispatch}
    (hsplit : plan.dispatches = pre ++ d :: post) :
    levelsOf plan.dispatches d.node.index = levelOf (levelsFrom (fun _ => 0) pre) d ∧
      ∀ e ∈ pre, levelsOf plan.dispatches e.node.index = levelsFrom (fun _ => 0) pre e.node.index := by
  have hnd := h.indices_nodup hr
  rw [hsplit, map_append, map_cons, nodup_append] at hnd
  obtain ⟨-, hnd2, hnd3⟩ := hnd
  have hlevels : levelsOf plan.dispatches = levelsFrom (update (levelsFrom (fun _ => 0) pre) d.node.index
      (levelOf (levelsFrom (fun _ => 0) pre) d)) post := by
    unfold levelsOf
    rw [hsplit, foldl_append]
    rfl
  refine ⟨?_, fun e he => ?_⟩
  · rw [hlevels, levelsFrom_of_not_mem post _ _ (nodup_cons.1 hnd2).1, update_self]
  · have hmem : e.node.index ∈ pre.map (fun d => d.node.index) := mem_map_of_mem he
    rw [hlevels, levelsFrom_of_not_mem post _ _ (fun hp => hnd3 _ hmem _ (mem_cons_of_mem _ hp) rfl),
      update_of_ne (fun hp => hnd3 _ hmem _ mem_cons_self hp)]

variable {a b : NodeId}

/-- A dispatch is on a higher level than each of its dependencies. -/
theorem level_lt_of_arc (hr : r.WF) (h : PlanOf r options plan) (hab : Arc r.edges a b) :
    levelsOf plan.dispatches a.index < levelsOf plan.dispatches b.index := by
  obtain ⟨d, hd, rfl⟩ := h.dispatch_of hr (hr.known _ hab).2
  obtain ⟨e, he, rfl⟩ := h.dispatch_of hr (hr.known _ hab).1
  obtain ⟨pre, post, hsplit⟩ := append_of_mem hd
  obtain ⟨hown, hbefore⟩ := levels_split hr h hsplit
  rw [hown, hbefore e (h.before hsplit he (.single hab))]
  have hin : e.node ∈ d.dependencies := by rw [(h.planned d hd).1.deps]; exact mem_predsOf.2 hab
  exact (le_foldl_max _ 0).2 _ (mem_map.2 ⟨e.node, hin, rfl⟩)

/-- **Levels grow along everything a dispatch waits for.** -/
theorem level_lt (hr : r.WF) (h : PlanOf r options plan) (hab : TransGen (Arc r.edges) a b) :
    levelsOf plan.dispatches a.index < levelsOf plan.dispatches b.index := by
  induction hab with
  | single hab => exact level_lt_of_arc hr h hab
  | tail _ hbc ih => exact Nat.lt_trans ih (level_lt_of_arc hr h hbc)

end plan

theorem level_le_max {ds : List PlannedDispatch} (hd : d ∈ ds) : levelsOf ds d.node.index ≤ maxLevel ds :=
  (le_foldl_max _ 0).2 _ (mem_map.2 ⟨d, hd, rfl⟩)

/-! ## Phases -/

theorem lowerAll_ok {device : Device} {kernels : AqlKernelCatalog} {b : ReplayBindings} : ∀ (ds : List PlannedDispatch)
    (address : Nat) (lowered : List (PlannedDispatch × RecordedDispatch)),
    lowerAll device kernels b address ds = .ok lowered →
      lowered.map Prod.fst = ds ∧
        ∀ n x, lowered[n]? = some x → lowerDispatch device kernels b (address + n) x.1 = .ok x.2
  | [], _, lowered, h => by cases h; exact ⟨rfl, nofun⟩
  | d :: ds, address, lowered, h => by
    unfold lowerAll at h
    split at h
    · cases h
    rename_i hd
    split at h
    · cases h
    rename_i rest hds
    cases h
    obtain ⟨hfst, heach⟩ := lowerAll_ok ds (address + 1) rest hds
    refine ⟨by rw [map_cons, hfst], fun n x hx => ?_⟩
    cases n with
    | zero => cases hx; exact hd
    | succ n =>
      have := heach n x hx
      rwa [Nat.add_assoc, Nat.add_comm 1] at this

theorem phaseOf_lane (levels : Nat → Nat) (lowered : List (PlannedDispatch × RecordedDispatch)) (p : Nat) :
    ∀ lane : Fin 2, (phaseOf levels lowered p).lane lane = (selectPhase levels lowered p lane.val).map Prod.snd
  | 0 => rfl
  | 1 => rfl

theorem nodesOf_lane (levels : Nat → Nat) (lowered : List (PlannedDispatch × RecordedDispatch)) (p : Nat) :
    ∀ lane : Fin 2, (nodesOf levels lowered p).lane lane = (selectPhase levels lowered p lane.val).map (fun x => x.1.node)
  | 0 => rfl
  | 1 => rfl

/-- What an accepted lowering is: the plan's dispatches, each lowered, sorted into phases. -/
structure Lowered (device : Device) (plan : CompiledPlan) (b : ReplayBindings) (kernels : AqlKernelCatalog)
    (lowered : List (PlannedDispatch × RecordedDispatch)) (phases : List TwoQueuePhase) (nodes : List (TwoLanes NodeId)) :
    Prop where
  each : lowerAll device kernels b 0 plan.dispatches = .ok lowered
  plan_eq : lowered.map Prod.fst = plan.dispatches
  phases_eq : phases = (range (maxLevel plan.dispatches + 1)).map (phaseOf (levelsOf plan.dispatches) lowered)
  nodes_eq : nodes = (range (maxLevel plan.dispatches + 1)).map (nodesOf (levelsOf plan.dispatches) lowered)

section lowered

variable {device : Device} {plan : CompiledPlan} {b : ReplayBindings} {kernels : AqlKernelCatalog}
  {lowered : List (PlannedDispatch × RecordedDispatch)} {phases : List TwoQueuePhase} {nodes : List (TwoLanes NodeId)}
  {policies : TwoQueueDerivedPolicies} {tokenCount : Nat} {lane : Fin 2}

theorem lowerPhases_ok (h : lowerPhases device plan b kernels = .ok (phases, nodes)) :
    ∃ lowered, Lowered device plan b kernels lowered phases nodes := by
  unfold lowerPhases at h
  split at h
  · cases h
  split at h
  · cases h
  rename_i lowered hl
  dsimp only at h
  split at h
  · cases h
  · cases h
    exact ⟨lowered, hl, (lowerAll_ok _ _ _ hl).1, rfl, rfl⟩

/-- The node that a job runs. -/
def nodeAt (nodes : List (TwoLanes NodeId)) (job : Job) : Option NodeId :=
  match nodes[job.phase]? with
  | none => none
  | some lanes => (lanes.lane job.lane)[job.slot]?

/-- The recorded dispatch that a job runs. -/
def recordedAt (phases : List TwoQueuePhase) (job : Job) : Option RecordedDispatch :=
  match phases[job.phase]? with
  | none => none
  | some lanes => (lanes.lane job.lane)[job.slot]?

section tables

variable (h : Lowered device plan b kernels lowered phases nodes)
include h

theorem Lowered.phases_length : phases.length = maxLevel plan.dispatches + 1 := by
  rw [h.phases_eq, length_map, length_range]

theorem Lowered.phase_get (hp : p < phases.length) :
    phases[p]? = some (phaseOf (levelsOf plan.dispatches) lowered p) := by
  rw [h.phases_length] at hp
  rw [h.phases_eq, getElem?_map, getElem?_range hp]
  rfl

theorem Lowered.nodes_get (hp : p < phases.length) :
    nodes[p]? = some (nodesOf (levelsOf plan.dispatches) lowered p) := by
  rw [h.phases_length] at hp
  rw [h.nodes_eq, getElem?_map, getElem?_range hp]
  rfl

theorem Lowered.job_dispatch
    (hp : job.phase < phases.length) : nodeAt nodes job =
      ((selectPhase (levelsOf plan.dispatches) lowered job.phase job.lane.val)[job.slot]?).map (fun x => x.1.node) ∧
    recordedAt phases job =
      ((selectPhase (levelsOf plan.dispatches) lowered job.phase job.lane.val)[job.slot]?).map Prod.snd := by
  unfold nodeAt recordedAt
  rw [h.nodes_get hp, h.phase_get hp]
  refine ⟨?_, ?_⟩
  · simp only [nodesOf_lane, getElem?_map]
  · simp only [phaseOf_lane, getElem?_map]

variable {x : PlannedDispatch × RecordedDispatch}

theorem Lowered.mem_plan
    (hx : x ∈ lowered) : x.1 ∈ plan.dispatches :=
  h.plan_eq ▸ mem_map_of_mem hx

/-- The place of a dispatch in the plan is the number of its kernarg buffer. -/
theorem Lowered.place (hx : x ∈ lowered) :
    ∃ n, plan.dispatches[n]? = some x.1 ∧ lowerDispatch device kernels b n x.1 = .ok x.2 := by
  obtain ⟨n, hn⟩ := getElem?_of_mem hx
  have hat := (lowerAll_ok _ _ _ h.each).2 n x hn
  rw [Nat.zero_add] at hat
  exact ⟨n, by rw [← h.plan_eq, getElem?_map, hn]; rfl, hat⟩

omit h in
theorem mem_selectPhase {levels : Nat → Nat} {l : Nat} :
    x ∈ selectPhase levels lowered p l ↔ x ∈ lowered ∧ levels x.1.node.index = p ∧ x.1.lane = l := by
  unfold selectPhase
  rw [mem_filter, Bool.and_eq_true, decide_eq_true_eq, decide_eq_true_eq]

/-- The node of a job: its level is the phase, its lane the queue. -/
theorem Lowered.nodeAt_spec {n : NodeId}
    (hp : job.phase < phases.length) (hn : nodeAt nodes job = some n) : ∃ d ∈ plan.dispatches, d.node = n ∧
      levelsOf plan.dispatches n.index = job.phase ∧ d.lane = job.lane.val := by
  rw [(h.job_dispatch hp).1, Option.map_eq_some_iff] at hn
  obtain ⟨x, hx, rfl⟩ := hn
  obtain ⟨hm, hlevel, hlane⟩ := mem_selectPhase.1 (mem_of_getElem? hx)
  exact ⟨x.1, h.mem_plan hm, rfl, hlevel, hlane⟩

end tables

/-! ## Counts -/

theorem checkedSize_ok {n m : Nat} (h : checkedSize n = .ok m) : m = n := by
  unfold checkedSize at h
  split at h
  · cases h; rfl
  · cases h

theorem checkedSum_ok : ∀ (ns : List Nat) (sum m : Nat), checkedSum sum ns = .ok m → m = sum + ns.sum
  | [], sum, m, h => by cases h; simp
  | n :: ns, sum, m, h => by
    obtain ⟨sum', h1, h2⟩ := bind_eq_ok.1 h
    have h1 := checkedSize_ok h1
    have h2 := checkedSum_ok ns sum' m h2
    rw [sum_cons]; omega

theorem packetCount_ok {c : Nat} (h : packetCount phases tokenCount lane = .ok c) :
    c = (phases.map (fun phase => (phase.lane lane).length)).sum * tokenCount + (phases.length - 1) * tokenCount +
      (tokenCount - 1) + (if lane = lane0 then 1 else 0) + phases.length * tokenCount := by
  obtain ⟨base, hbase, h⟩ := bind_eq_ok.1 h
  obtain ⟨consolidations, hcons, h⟩ := bind_eq_ok.1 h
  obtain ⟨phaseBarriers, h1, hbase⟩ := bind_eq_ok.1 hbase
  obtain ⟨perToken, h2, hbase⟩ := bind_eq_ok.1 hbase
  obtain ⟨dispatches, h3, hbase⟩ := bind_eq_ok.1 hbase
  obtain ⟨withPhases, h4, hbase⟩ := bind_eq_ok.1 hbase
  obtain ⟨withTokens, h5, hbase⟩ := bind_eq_ok.1 hbase
  rw [checkedSize_ok h, checkedSize_ok hcons, checkedSize_ok hbase, checkedSize_ok h5, checkedSize_ok h4, checkedSize_ok h3,
    checkedSize_ok h1, checkedSum_ok _ _ _ h2, Nat.zero_add]

theorem sum_later (n : Nat) : ((range n).map (fun k => if k = 0 then 0 else 1)).sum = n - 1 := by
  induction n with
  | zero => rfl
  | succ n ih =>
    rw [range_succ, map_append, sum_append, ih]
    cases n with
    | zero => rfl
    | succ n => simp

theorem length_tokenPackets (phases : List TwoQueuePhase) (policies : TwoQueueDerivedPolicies) (tokenCount : Nat)
    (lane : Fin 2) (token : Nat) : (tokenPackets phases policies tokenCount lane token).length =
      (if token = 0 then 0 else 1) + ((phases.length - 1) + (phases.map (fun phase => (phase.lane lane).length)).sum +
        phases.length) := by
  have hphase : ∀ p, (phasePackets phases policies tokenCount token lane p).length =
      (if p = 0 then 0 else 1) + ((phaseAt phases p).lane lane).length + 1 := fun p => by
    unfold phasePackets phaseBody laneDispatches
    split
    · simp
    · simp; omega
  have hsum : ((range phases.length).map (fun p => ((phaseAt phases p).lane lane).length)).sum =
      (phases.map (fun phase => (phase.lane lane).length)).sum := by
    have := congrArg (fun l => (l.map (fun phase : TwoQueuePhase => (phase.lane lane).length)).sum)
      (map_getD_range phases ⟨[], []⟩)
    rw [map_map] at this
    exact this
  have hall : ((range phases.length).map (fun p => (phasePackets phases policies tokenCount token lane p).length)).sum =
      (phases.length - 1) + (phases.map (fun phase => (phase.lane lane).length)).sum + phases.length := by
    simp only [hphase]
    rw [sum_map_add, sum_map_add, sum_later, hsum]
    simp
  unfold tokenPackets
  rw [length_append, length_flatMap, hall]
  split <;> rfl

/-- **The packets emitted are the packets counted.** -/
theorem length_batch {c : Nat} (h : packetCount phases tokenCount lane = .ok c) :
    (batch phases policies tokenCount lane).length = c := by
  rw [packetCount_ok h]
  unfold batch
  rw [length_append, length_flatMap]
  simp only [length_tokenPackets]
  rw [sum_map_add, sum_later]
  simp only [map_const', length_range, sum_replicate_nat]
  have hlen : (if lane = lane0 then [terminalPacket phases policies tokenCount] else []).length =
      if lane = lane0 then 1 else 0 := by
    split <;> rfl
  rw [hlen, Nat.mul_add, Nat.mul_add, Nat.mul_comm tokenCount, Nat.mul_comm tokenCount, Nat.mul_comm tokenCount]
  omega

/-! ## The batch -/

theorem lowerPolicies_barrier {boundary : ApiBoundary} {visibility : DerivedVisibilityPlan} {profile : Bool}
    (hv : deriveAqlVisibility plan boundary = .ok visibility) (h : lowerPolicies plan nodes visibility profile = .ok policies) :
    policies.consolidation.barrier = true := by
  unfold lowerPolicies at h
  split at h
  · cases h
  split at h
  · cases h
  split at h
  · cases h
  rename_i first hfirst
  cases h
  have hmem := mem_of_head? hfirst
  rw [(derive_eq hv).2.1] at hmem
  obtain ⟨lane, -, hl⟩ := mem_filterMap.1 hmem
  unfold consolidation at hl
  split at hl
  · cases hl
  · cases hl; rfl

theorem createDerived_ok {capacity : Nat} {graph : TwoQueueSerializedBatchGraph}
    (h : createDerived device capacity tokenCount phases policies = .ok graph) :
    0 < tokenCount ∧ 0 < phases.length ∧ graph.phases = phases ∧ graph.batches = batch phases policies tokenCount ∧
      ∀ lane, ∃ c, packetCount phases tokenCount lane = .ok c := by
  unfold createDerived at h
  split at h
  · cases h
  split at h
  · cases h
  rename_i hp ht
  obtain ⟨_, -, h⟩ := bind_eq_ok.1 h
  obtain ⟨_, -, h⟩ := bind_eq_ok.1 h
  obtain ⟨_, -, h⟩ := bind_eq_ok.1 h
  obtain ⟨c0, hc0, h⟩ := bind_eq_ok.1 h
  obtain ⟨c1, hc1, h⟩ := bind_eq_ok.1 h
  obtain ⟨_, -, h⟩ := bind_eq_ok.1 h
  obtain ⟨_, -, h⟩ := bind_eq_ok.1 h
  have hgraph : graph.phases = phases ∧ graph.batches = batch phases policies tokenCount := by
    split at h
    · cases h
    split at h
    · cases h
    split at h
    · cases h
    · cases h; exact ⟨rfl, rfl⟩
  refine ⟨Nat.pos_of_ne_zero ht, length_pos_of_ne_nil hp, hgraph.1, hgraph.2, fun lane => ?_⟩
  rcases lane_cases lane with rfl | rfl
  · exact ⟨c0, hc0⟩
  · exact ⟨c1, hc1⟩

/-- The packet at a place of a queue does a job. -/
def JobAt (batches : Fin 2 → List Emitted) (lane : Fin 2) (i : Nat) (job : Job) : Prop :=
  ∃ e, (batches lane)[i]? = some e ∧ e.job = some job

theorem Lowered.phaseAt_lane (h : Lowered device plan b kernels lowered phases nodes)
    (hp : p < phases.length) (lane : Fin 2) : (phaseAt phases p).lane lane =
      (selectPhase (levelsOf plan.dispatches) lowered p lane.val).map Prod.snd := by
  unfold phaseAt
  rw [getD_eq_getElem?_getD, h.phase_get hp]
  exact phaseOf_lane _ _ _ lane

theorem jobAt_stage (hp : 0 < phases.length) {i : Nat} (h : JobAt (batch phases policies tokenCount) lane i job) :
    job.phase < phases.length ∧ job.token < tokenCount ∧ job.lane = lane ∧
      job.token * phases.length + job.phase < tokenCount * phases.length ∧
      i = stageStart phases policies tokenCount lane (job.token * phases.length + job.phase) +
        (stageFanIn phases policies (job.token * phases.length + job.phase)).length + job.slot ∧
      i + 1 < stageStart phases policies tokenCount lane (job.token * phases.length + job.phase + 1) := by
  obtain ⟨e, he, hj⟩ := h
  obtain ⟨k, hk, ht, hph, hl, hi, hi', -⟩ := job_at phases policies tokenCount hp lane he hj
  have hkeq : job.token * phases.length + job.phase = k := by rw [ht, hph, Nat.mul_comm]; exact Nat.div_add_mod k _
  rw [hkeq]
  exact ⟨hph ▸ Nat.mod_lt _ hp, ht ▸ Nat.div_lt_of_lt_mul (by rwa [Nat.mul_comm] at hk), hl, hk, hi, hi'⟩

theorem jobs_ordered {T : Type} [Preorder T] {start finish : Fin 2 → Nat → T} (hp : 0 < phases.length)
    (hb : policies.consolidation.barrier = true) (hrun : AqlRun (batch phases policies tokenCount) start finish)
    {l l' : Fin 2} {i j : Nat} {x y : Job} (hx : JobAt (batch phases policies tokenCount) l i x)
    (hy : JobAt (batch phases policies tokenCount) l' j y)
    (hlt : x.token * phases.length + x.phase < y.token * phases.length + y.phase) : finish l i ≤ start l' j := by
  obtain ⟨-, -, -, hkx, -, hix⟩ := jobAt_stage hp hx
  obtain ⟨-, -, -, hky, hjy, -⟩ := jobAt_stage hp hy
  obtain ⟨e, he, -⟩ := hy
  refine stage_order hp hb hrun l l' (k := x.token * phases.length + x.phase) (by omega) hix ?_
    (lt_of_getElem? he)
  -- the later job comes after its own fan-in, and so after the one right behind the earlier stage
  have hmono := blockStart_mono (stage phases policies tokenCount l') (Nat.succ_le_of_lt hlt)
  have hfan : (stageFanIn phases policies (y.token * phases.length + y.phase)).length = 1 := by
    unfold stageFanIn
    rw [if_neg (by omega)]
    rfl
  unfold stageStart at hjy ⊢
  rw [Nat.succ_eq_add_one] at hmono
  omega

theorem stage_lt_of_token {n token token' : Nat} (hp : p < n) (h : token < token') : token * n + p < token' * n := by
  have := Nat.mul_le_mul_right n (Nat.succ_le_of_lt h)
  rw [Nat.succ_mul] at this
  omega

/-- **Each dispatch has one packet in each token.** -/
theorem job_unique {r : Recorder} {options : CompileOptions} (hr : r.WF)
    (hplan : PlanOf r options plan) (hlanes : plan.laneCount = 2)
    (h : Lowered device plan b kernels lowered phases nodes) {token : Nat} (ht : token < tokenCount)
    (hd : d ∈ plan.dispatches) :
    ∃! place : Fin 2 × Nat, ∃ job, JobAt (batch phases policies tokenCount) place.1 place.2 job ∧ job.token = token ∧
      nodeAt nodes job = some d.node := by
  have hp : 0 < phases.length := by rw [h.phases_length]; omega
  have hlane : d.lane < 2 := hlanes ▸ (hplan.planned d hd).2
  have hlevel : levelsOf plan.dispatches d.node.index < phases.length := by
    have := level_le_max hd
    rw [h.phases_length]; omega
  obtain ⟨x, hx, hxd⟩ := mem_map.1 (h.plan_eq.symm ▸ hd : d ∈ lowered.map Prod.fst)
  obtain ⟨slot, hslot⟩ := getElem?_of_mem (mem_selectPhase.2 ⟨hx, rfl, rfl⟩ :
    x ∈ selectPhase (levelsOf plan.dispatches) lowered (levelsOf plan.dispatches x.1.node.index) x.1.lane)
  rw [hxd] at hslot
  have hdm : (token * phases.length + levelsOf plan.dispatches d.node.index) / phases.length = token ∧
      (token * phases.length + levelsOf plan.dispatches d.node.index) % phases.length =
        levelsOf plan.dispatches d.node.index := by
    rw [Nat.mul_comm, Nat.mul_add_div hp, Nat.mul_add_mod, Nat.div_eq_of_lt hlevel, Nat.mod_eq_of_lt hlevel]
    exact ⟨rfl, rfl⟩
  obtain ⟨e, he, hj⟩ := job_place phases policies tokenCount hp ⟨d.lane, hlane⟩ _ slot x.2 (stage_lt_of_token hlevel ht)
    (by rw [hdm.2, h.phaseAt_lane hlevel, getElem?_map, hslot]; rfl)
  rw [hdm.1, hdm.2] at hj
  have hnode : nodeAt nodes ⟨token, levelsOf plan.dispatches d.node.index, ⟨d.lane, hlane⟩, slot⟩ = some d.node := by
    rw [(h.job_dispatch hlevel).1, hslot, Option.map_some, hxd]
  refine ⟨(⟨d.lane, hlane⟩, _), ⟨_, ⟨e, he, hj⟩, rfl, hnode⟩, ?_⟩
  rintro ⟨l, i⟩ ⟨job, hjob, hjt, hjn⟩
  obtain ⟨hph, -, hjl, -, hi, -⟩ := jobAt_stage hp hjob
  obtain ⟨d', hd', hdn, hlev, hdl⟩ := h.nodeAt_spec hph hjn
  obtain rfl := hplan.eq_of_node hr hd' hd hdn
  -- the node fixes phase and lane; the slot is its place in a list without repetition
  obtain ⟨jt, jp, jl, js⟩ := job
  simp only at hjt hjl hlev hdl hi hph
  subst hjt hjl hlev
  have hjl : jl = ⟨d'.lane, hlane⟩ := Fin.ext hdl.symm
  subst hjl
  have hnd : ((selectPhase (levelsOf plan.dispatches) lowered (levelsOf plan.dispatches d'.node.index) d'.lane).map
      (fun x => x.1.node)).Nodup := by
    refine (filter_sublist.map _).nodup ?_
    have := hplan.order.topo.nodup
    rwa [← h.plan_eq, map_map] at this
  rw [(h.job_dispatch hph).1] at hjn
  rw [(h.job_dispatch hph).1] at hnode
  have hsame : js = slot := by
    refine (getElem?_inj ?_ hnd).1 (by rw [getElem?_map, getElem?_map, hjn, hnode])
    obtain ⟨y, hy, -⟩ := Option.map_eq_some_iff.1 hjn
    rw [length_map]
    exact lt_of_getElem? hy
  rw [hi, hsame]

/-- The packet of a job launches the recorded dispatch that the job names. -/
theorem Lowered.job_packet (h : Lowered device plan b kernels lowered phases nodes)
    (hp : 0 < phases.length) {l : Fin 2} {i : Nat} {e : Emitted}
    (he : (batch phases policies tokenCount l)[i]? = some e) (hj : e.job = some job) :
    job.token < tokenCount ∧ ∃ x ∈ lowered, ∃ completion policy, nodeAt nodes job = some x.1.node ∧
      recordedAt phases job = some x.2 ∧ e.packet = .kernel x.2.image completion policy := by
  have hjob : JobAt (batch phases policies tokenCount) l i job := ⟨e, he, hj⟩
  obtain ⟨hph, htok, hlane, -⟩ := jobAt_stage hp hjob
  obtain ⟨k, -, -, -, -, -, -, recorded, completion, policy, hrec, hpacket⟩ := job_at phases policies tokenCount hp l he hj
  rw [h.phaseAt_lane hph, getElem?_map, Option.map_eq_some_iff] at hrec
  obtain ⟨x, hx, rfl⟩ := hrec
  rw [← hlane] at hx
  refine ⟨htok, x, (mem_selectPhase.1 (mem_of_getElem? hx)).1, completion, policy, ?_, ?_, hpacket⟩
  · rw [(h.job_dispatch hph).1, hx]; rfl
  · rw [(h.job_dispatch hph).2, hx]; rfl

end lowered

/-- **A two-queue token batch serialises its tokens.**  In every run of the two queues, the dispatches of a token finish
before those of a later token start; within a token a dispatch starts after everything it waits for has finished; every
dispatch occurs once in each token, as the packet of what it was lowered to, with the buffer of its own; the final signal
fires after everything has finished; and each queue holds as many packets as were counted before the queues were created. -/
theorem two_queue_batch_serialises (sha256 : List UInt8 → Digest) (owner : Nat) (ops : List RecorderOp)
    (options : CompileOptions) {plan : CompiledPlan} (hc : compile sha256 (build owner ops) options = .ok plan)
    (hlanes : options.laneCount = 2) (device : Device) (b : ReplayBindings) (kernels : AqlKernelCatalog)
    {phases : List TwoQueuePhase} {nodes : List (TwoLanes NodeId)}
    (hl : lowerPhases device plan b kernels = .ok (phases, nodes)) (boundary : ApiBoundary)
    {visibility : DerivedVisibilityPlan} (hv : deriveAqlVisibility plan boundary = .ok visibility) (profile : Bool)
    {policies : TwoQueueDerivedPolicies} (hpol : lowerPolicies plan nodes visibility profile = .ok policies)
    (capacity tokenCount : Nat) {graph : TwoQueueSerializedBatchGraph}
    (hg : createDerived device capacity tokenCount phases policies = .ok graph)
    {T : Type} [Preorder T] (start finish : Fin 2 → Nat → T) (hrun : AqlRun graph.batches start finish) :
    (∀ l i x l' j y, JobAt graph.batches l i x → JobAt graph.batches l' j y → x.token < y.token → finish l i ≤ start l' j) ∧
    (∀ l i x l' j y n m, JobAt graph.batches l i x → JobAt graph.batches l' j y → x.token = y.token →
      nodeAt nodes x = some n → nodeAt nodes y = some m → TransGen (Arc (build owner ops).edges) n m →
      finish l i ≤ start l' j) ∧
    (∀ token < tokenCount, ∀ d ∈ plan.dispatches, ∃! place : Fin 2 × Nat, ∃ job,
      JobAt graph.batches place.1 place.2 job ∧ job.token = token ∧ nodeAt nodes job = some d.node) ∧
    (∀ l (i : Nat) (e : Emitted) job, (graph.batches l)[i]? = some e → e.job = some job → job.token < tokenCount ∧
      ∃ n d recorded completion policy, plan.dispatches[n]? = some d ∧ nodeAt nodes job = some d.node ∧
        lowerDispatch device kernels b n d = .ok recorded ∧ recordedAt phases job = some recorded ∧
        e.packet = .kernel recorded.image completion policy) ∧
    (∀ l (j : Nat) (e : Emitted), (graph.batches l)[j]? = some e → e.packet.completion = .final →
      ∀ l' i job, JobAt graph.batches l' i job → finish l' i ≤ finish l j) ∧
    (∀ l, packetCount phases tokenCount l = .ok (graph.batches l).length) := by
  have hr := wf_build owner ops
  have hplan := compile_ok hr hc
  obtain ⟨lowered, hlow⟩ := lowerPhases_ok hl
  obtain ⟨ht, hp, -, hbatch, hcount⟩ := createDerived_ok hg
  have hb := lowerPolicies_barrier hv hpol
  rw [hbatch] at hrun ⊢
  refine ⟨fun l i x l' j y hx hy hlt => ?_, fun l i x l' j y n m hx hy hxy hn hm hnm => ?_, fun token htok d hd => ?_,
    fun l i e job he hj => ?_, fun l j e he hf l' i job hjob => ?_, fun l => ?_⟩
  · exact jobs_ordered hp hb hrun hx hy (Nat.lt_add_right _ (stage_lt_of_token (jobAt_stage hp hx).1 hlt))
  · obtain ⟨-, -, -, hlevn, -⟩ := hlow.nodeAt_spec (jobAt_stage hp hx).1 hn
    obtain ⟨-, -, -, hlevm, -⟩ := hlow.nodeAt_spec (jobAt_stage hp hy).1 hm
    have := level_lt hr hplan hnm
    exact jobs_ordered hp hb hrun hx hy (by rw [hxy]; omega)
  · exact job_unique hr hplan (hplan.lanes.trans hlanes) hlow htok hd
  · obtain ⟨htok, x, hx, completion, policy, hnode, hrec, hpacket⟩ := hlow.job_packet hp he hj
    obtain ⟨n, hn, hlowered⟩ := hlow.place hx
    exact ⟨htok, n, x.1, x.2, completion, policy, hn, hnode, hlowered, hrec, hpacket⟩
  · obtain ⟨rfl, hterm⟩ := final_at phases policies tokenCount hp l he hf
    obtain ⟨-, -, -, hk, -, hi⟩ := jobAt_stage hp hjob
    refine stage_before_terminal hp hb hrun l' ht ?_ he hterm
    have hmono := blockStart_mono (stage phases policies tokenCount l') (Nat.succ_le_of_lt hk)
    unfold stageStart at hi ⊢
    rw [Nat.succ_eq_add_one] at hmono
    omega
  · obtain ⟨c, hcl⟩ := hcount l
    rw [hcl, length_batch hcl]

/-! Two producers, each with a consumer recorded before it: the plan lists the nodes as 2, 0, 3, 1, in two phases. -/

def byteField : KernargField := ⟨0, 1, 1, Nat.one_pos, by decide⟩

def byteAbi : KernargAbi where
  segmentSize := 1
  segmentAlignment := 1
  fields := [byteField]
  hash := []
  inside := by decide
  disjoint := by decide

def sampleIdentity : KernelArtifactIdentity := ⟨[], [], 0⟩

def byteLaunch (byte : UInt8) : KernelLaunch :=
  ⟨"k", ⟨1, 1, 1⟩, ⟨1, 1, 1⟩, 0, [.scalar [byte]], some byteAbi, some sampleIdentity, 1, Nat.one_pos⟩

def crossedOps : List RecorderOp :=
  [.dispatch (byteLaunch 0) [], .dispatch (byteLaunch 1) [], .dispatch (byteLaunch 2) [], .dispatch (byteLaunch 3) [],
    .dependsOn ⟨0, 0⟩ ⟨0, 2⟩, .dependsOn ⟨0, 1⟩ ⟨0, 3⟩]

def sampleDevice : Device := ⟨fun _ => .ok (), fun _ => .ok (), fun _ => .ok (), 1, 64⟩

def sampleKernels : AqlKernelCatalog := [("k", ⟨byteAbi, sampleIdentity, 1, by decide⟩)]

/-- Both queues advance together, one packet after the other; every signal must be fired further up. -/
theorem lockstep_run (batches : Fin 2 → List Emitted) (h : ∀ q, ∀ j < (batches q).length, ∀ q', ∀ i < (batches q').length,
    atPlace (batches q) j (fun p => atPlace (batches q') i (fun p' => p.waitsFor p')) = true → i < j) :
    AqlRun batches (fun _ i => 2 * i) (fun _ i => 2 * i + 1) where
  runs q i _ := Nat.le_succ _
  inOrder q j _ i hij := Nat.mul_le_mul_left 2 (Nat.le_of_lt hij)
  barrier q j _ _ i hij := by omega
  signals q j hj q' i hi hw := by have := h q j hj q' i hi hw; omega
  blocks q k _ j hjk _ := by omega

theorem two_queue_batch_serialises_crossed : ∃ plan phases nodes visibility policies graph,
    compile (fun _ => []) (build 0 crossedOps) twoLanes = .ok plan ∧
    lowerPhases sampleDevice plan .new sampleKernels = .ok (phases, nodes) ∧
    deriveAqlVisibility plan ⟨.hostToAql, .aqlToHost⟩ = .ok visibility ∧
    lowerPolicies plan nodes visibility false = .ok policies ∧
    createDerived sampleDevice 64 2 phases policies = .ok graph ∧
    AqlRun graph.batches (fun _ i => 2 * i) (fun _ i => 2 * i + 1) ∧
    ∀ l, packetCount phases 2 l = .ok (graph.batches l).length := by
  have hrun : ∀ plan phases nodes visibility policies graph,
      compile (fun _ => []) (build 0 crossedOps) twoLanes = .ok plan →
      lowerPhases sampleDevice plan .new sampleKernels = .ok (phases, nodes) →
      deriveAqlVisibility plan ⟨.hostToAql, .aqlToHost⟩ = .ok visibility →
      lowerPolicies plan nodes visibility false = .ok policies →
      createDerived sampleDevice 64 2 phases policies = .ok graph →
      AqlRun graph.batches (fun _ i => 2 * i) (fun _ i => 2 * i + 1) := by
    rintro _ _ _ _ _ _ ⟨⟩ ⟨⟩ ⟨⟩ ⟨⟩ ⟨⟩
    exact lockstep_run _ (by decide +kernel)
  exact ⟨_, _, _, _, _, _, rfl, rfl, rfl, rfl, rfl, hrun _ _ _ _ _ _ rfl rfl rfl rfl rfl,
    (two_queue_batch_serialises (fun _ => []) 0 crossedOps twoLanes rfl rfl sampleDevice .new sampleKernels rfl
      ⟨.hostToAql, .aqlToHost⟩ rfl false rfl 64 2 rfl _ _ (hrun _ _ _ _ _ _ rfl rfl rfl rfl rfl)).2.2.2.2.2⟩

end Hipfire.Redline
