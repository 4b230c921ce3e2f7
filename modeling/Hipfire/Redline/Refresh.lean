import Hipfire.Redline.Packs
import Hipfire.Redline.Serial
/-!
# Refresh — which kernargs a refreshed plan holds

A refresh patches every buffer of a prepared plan in place.  It finds the launch to pack by using a node's index as a place
in the plan's dispatch list, which is in topological order; `refresh_holds_own_kernargs_iff` says when the buffers then hold
what their own dispatches pack.
-/
namespace Hipfire.Redline

open List

/-! ## Patching -/

/-- A recorded dispatch with its buffer patched. -/
def RecordedDispatch.patched (patch : List UInt8 → List UInt8 × Except GenericAqlError Unit) (d : RecordedDispatch) :
    RecordedDispatch :=
  { d with kernarg := ⟨d.kernarg.address, (patch d.kernarg.bytes).1⟩ }

/-- The same dispatch but for the bytes in its buffer. -/
structure SameLayout (d d' : RecordedDispatch) : Prop where
  image : d'.image = d.image
  length : d'.kernarg.bytes.length = d.kernarg.bytes.length

/-- The same dispatch, if any. -/
abbrev SameLayout? := Option.Rel SameLayout

theorem SameLayout?.refl : ∀ d : Option RecordedDispatch, SameLayout? d d
  | none => .none
  | some _ => .some ⟨rfl, rfl⟩

theorem SameLayout?.trans : ∀ {a b c : Option RecordedDispatch}, SameLayout? a b → SameLayout? b c → SameLayout? a c
  | _, _, _, .none, .none => .none
  | _, _, _, .some h, .some h' => .some ⟨h'.image.trans h.image, h'.length.trans h.length⟩

section lane

variable (patch : Nat → List UInt8 → List UInt8 × Except GenericAqlError Unit)

theorem patchLane_ok : ∀ (ds : List RecordedDispatch) (slot : Nat),
    ((patchLane patch slot ds).2 = .ok () ↔ ∀ (i : Nat) (d : RecordedDispatch), ds[i]? = some d →
      (patch (slot + i) d.kernarg.bytes).2 = .ok ()) ∧
    ((patchLane patch slot ds).2 = .ok () → ∀ i : Nat,
      (patchLane patch slot ds).1[i]? = (ds[i]?).map (RecordedDispatch.patched (patch (slot + i))))
  | [], slot => by simp [patchLane]
  | d :: ds, slot => by
    obtain ⟨ih1, ih2⟩ := patchLane_ok ds (slot + 1)
    have hshift : ∀ i, slot + 1 + i = slot + (i + 1) := fun i => by omega
    unfold patchLane
    rcases hp : patch slot d.kernarg.bytes with ⟨bytes, _ | u⟩
    · refine ⟨⟨nofun, fun h => ?_⟩, nofun⟩
      have := h 0 d rfl
      rw [Nat.add_zero, hp] at this
      cases this
    · simp only [ih1]
      refine ⟨⟨fun h i e he => ?_, fun h i e he => ?_⟩, fun h i => ?_⟩
      · cases i with
        | zero => cases he; rw [Nat.add_zero, hp]
        | succ i => rw [← hshift]; exact h i e he
      · rw [hshift]; exact h (i + 1) e he
      · cases i with
        | zero => simp [RecordedDispatch.patched, hp]
        | succ i =>
          have hrest := ih2 (ih1.2 h) i
          rw [hshift] at hrest
          exact hrest

theorem patchLane_layout (hp : ∀ slot out, (patch slot out).1.length = out.length) : ∀ (ds : List RecordedDispatch)
    (slot i : Nat), SameLayout? (ds[i]?) ((patchLane patch slot ds).1[i]?)
  | [], _, _ => by simp only [patchLane, getElem?_nil]; exact .none
  | d :: ds, slot, i => by
    have hhead : SameLayout d (d.patched (patch slot)) := ⟨rfl, hp slot _⟩
    have ih := patchLane_layout hp ds (slot + 1)
    unfold patchLane
    unfold RecordedDispatch.patched at hhead
    rcases hpatch : patch slot d.kernarg.bytes with ⟨bytes, _ | u⟩ <;> rw [hpatch] at hhead
    · cases i with
      | zero => exact .some hhead
      | succ i => exact .refl _
    · cases i with
      | zero => exact .some hhead
      | succ i => exact ih i

end lane

variable {kernels : AqlKernelCatalog} {plan : CompiledPlan} {phases : List TwoQueuePhase}

section phases

variable (patch : Nat → Fin 2 → Nat → List UInt8 → List UInt8 × Except GenericAqlError Unit)

/-- Every patch of some phases succeeds, the first of them being phase `k`. -/
def AllPatched (patch : Nat → Fin 2 → Nat → List UInt8 → List UInt8 × Except GenericAqlError Unit) (k : Nat)
    (phases : List TwoQueuePhase) : Prop :=
  ∀ job recorded, recordedAt phases job = some recorded →
    (patch (k + job.phase) job.lane job.slot recorded.kernarg.bytes).2 = .ok ()

theorem allPatched_cons (k : Nat) (lanes : TwoQueuePhase) (phases : List TwoQueuePhase) :
    AllPatched patch k (lanes :: phases) ↔
      (patchLane (patch k 0) 0 lanes.zero).2 = .ok () ∧ (patchLane (patch k 1) 0 lanes.one).2 = .ok () ∧
        AllPatched patch (k + 1) phases := by
  have hshift : ∀ p, k + 1 + p = k + (p + 1) := fun p => by omega
  rw [(patchLane_ok (patch k 0) lanes.zero 0).1, (patchLane_ok (patch k 1) lanes.one 0).1]
  simp only [Nat.zero_add]
  constructor
  · intro h
    refine ⟨fun i d hd => h ⟨0, 0, 0, i⟩ d hd, fun i d hd => h ⟨0, 0, 1, i⟩ d hd, fun job d hd => ?_⟩
    rw [hshift]
    exact h ⟨job.token, job.phase + 1, job.lane, job.slot⟩ d hd
  · rintro ⟨h0, h1, hrest⟩ ⟨token, phase, lane, slot⟩ d hd
    cases phase with
    | zero =>
      rcases lane_cases lane with rfl | rfl
      · exact h0 slot d hd
      · exact h1 slot d hd
    | succ phase =>
      have := hrest ⟨token, phase, lane, slot⟩ d hd
      rwa [hshift] at this

/-- **Patching succeeds if every patch does, and then every buffer is patched.** -/
theorem patchKernargs_ok : ∀ (phases : List TwoQueuePhase) (k : Nat),
    ((patchKernargs patch k phases).2 = .ok () ↔ AllPatched patch k phases) ∧
    ((patchKernargs patch k phases).2 = .ok () → ∀ job, recordedAt (patchKernargs patch k phases).1 job =
      (recordedAt phases job).map (RecordedDispatch.patched (patch (k + job.phase) job.lane job.slot)))
  | [], k => ⟨⟨fun _ job d hd => by simp [recordedAt] at hd, fun _ => rfl⟩, fun _ job => by simp [patchKernargs, recordedAt]⟩
  | lanes :: phases, k => by
    obtain ⟨ih1, ih2⟩ := patchKernargs_ok phases (k + 1)
    have hzero := (patchLane_ok (patch k 0) lanes.zero 0).2
    have hone := (patchLane_ok (patch k 1) lanes.one 0).2
    rw [allPatched_cons patch]
    unfold patchKernargs
    simp only [lane0_eq, lane1_eq]
    rcases hz : patchLane (patch k 0) 0 lanes.zero with ⟨zero, _ | u⟩
    · simp
    rcases ho : patchLane (patch k 1) 0 lanes.one with ⟨one, _ | v⟩
    · simp
    rw [hz] at hzero
    rw [ho] at hone
    simp only [Nat.zero_add, forall_const] at hzero hone
    simp only [true_and]
    refine ⟨ih1, fun h job => ?_⟩
    obtain ⟨token, phase, lane, slot⟩ := job
    cases phase with
    | zero =>
      rcases lane_cases lane with rfl | rfl
      · exact hzero slot
      · exact hone slot
    | succ phase =>
      have := ih2 h ⟨token, phase, lane, slot⟩
      rw [show k + 1 + phase = k + (phase + 1) by omega] at this
      exact this

theorem layout_cons {lanes : TwoQueuePhase} {zero one : List RecordedDispatch} {phases' : List TwoQueuePhase}
    (h0 : ∀ slot : Nat, SameLayout? (lanes.zero[slot]?) (zero[slot]?))
    (h1 : ∀ slot : Nat, SameLayout? (lanes.one[slot]?) (one[slot]?))
    (h : ∀ job, SameLayout? (recordedAt phases job) (recordedAt phases' job)) :
    ∀ job, SameLayout? (recordedAt (lanes :: phases) job) (recordedAt (⟨zero, one⟩ :: phases') job)
  | ⟨_, 0, 0, slot⟩ => h0 slot
  | ⟨_, 0, 1, slot⟩ => h1 slot
  | ⟨token, phase + 1, lane, slot⟩ => h ⟨token, phase, lane, slot⟩

theorem patchKernargs_layout (hp : ∀ phase lane slot out, (patch phase lane slot out).1.length = out.length) :
    ∀ (phases : List TwoQueuePhase) (k : Nat) (job : Job),
      SameLayout? (recordedAt phases job) (recordedAt (patchKernargs patch k phases).1 job)
  | [], _, _ => by simp only [patchKernargs, recordedAt, getElem?_nil]; exact .none
  | lanes :: phases, k, job => by
    have hzero := patchLane_layout (patch k 0) (hp k 0) lanes.zero 0
    have hone := patchLane_layout (patch k 1) (hp k 1) lanes.one 0
    have ih := patchKernargs_layout hp phases (k + 1)
    unfold patchKernargs
    simp only [lane0_eq, lane1_eq]
    rcases hz : patchLane (patch k 0) 0 lanes.zero with ⟨zero, _ | u⟩ <;> rw [hz] at hzero
    · exact layout_cons hzero (fun _ => .refl _) (fun _ => .refl _) job
    rcases ho : patchLane (patch k 1) 0 lanes.one with ⟨one, _ | v⟩ <;> rw [ho] at hone
    · exact layout_cons hzero hone (fun _ => .refl _) job
    · exact layout_cons hzero hone ih job

end phases

/-! ## Prepared plans -/

theorem mapError_eq_ok {α ε ε' : Type} {x : Except ε α} {f : ε → ε'} {a : α} : x.mapError f = .ok a ↔ x = .ok a := by
  cases x with
  | error e | ok y => simp [Except.mapError]

variable {nodes : List (TwoLanes NodeId)} {sha256 : List UInt8 → Digest} {d e : PlannedDispatch}

variable {recorded : RecordedDispatch} {b : ReplayBindings} {device : Device}

/-- A lowered dispatch holds what it packs under its own ABI. -/
theorem lowerDispatch_ok {address : Nat} (h : lowerDispatch device kernels b address d = .ok recorded) :
    ∃ abi, d.launch.kernargAbi = some abi ∧
      packKernarg d.launch.arguments abi b (replicate abi.segmentSize 0) = (recorded.kernarg.bytes, .ok ()) := by
  unfold lowerDispatch at h
  split at h
  · cases h
  rename_i registered hreg
  split at h
  · cases h
  rename_i abi habi
  split at h
  · cases h
  rename_i hsame
  split at h
  · cases h
  split at h
  · cases h
  split at h
  · cases h
  split at h
  · cases h
  rename_i bytes hpack
  split at h
  · cases h
  split at h
  · cases h
  cases h
  have hsize : registered.kernargSize = abi.segmentSize := by
    rw [registered.sizeOk, not_not.1 hsame]
  exact ⟨abi, habi, hsize ▸ hpack⟩

variable {prepared : PreparedAqlPlan}

theorem prepare_ok {tokenCount : Nat} {boundary : ApiBoundary} {profile : Bool}
    (h : prepare sha256 device plan b kernels tokenCount boundary profile = .ok prepared) :
    plan.laneCount = 2 ∧ 0 < tokenCount ∧ ∃ lowered policies,
      Lowered device plan b kernels lowered prepared.graph.phases prepared.phaseNodes ∧
      prepared.graph.batches = batch prepared.graph.phases policies tokenCount := by
  unfold prepare at h
  split at h
  · cases h
  split at h
  · cases h
  rename_i hlanes
  split at h
  · cases h
  obtain ⟨_, -, h⟩ := bind_eq_ok.1 h
  obtain ⟨⟨phases, nodes⟩, hlow, h⟩ := bind_eq_ok.1 h
  obtain ⟨visibility, -, h⟩ := bind_eq_ok.1 h
  obtain ⟨policies, -, h⟩ := bind_eq_ok.1 h
  obtain ⟨_, -, h⟩ := bind_eq_ok.1 h
  obtain ⟨_, -, h⟩ := bind_eq_ok.1 h
  obtain ⟨_, -, h⟩ := bind_eq_ok.1 h
  obtain ⟨_, -, h⟩ := bind_eq_ok.1 h
  obtain ⟨_, -, h⟩ := bind_eq_ok.1 h
  obtain ⟨graph, hg, h⟩ := bind_eq_ok.1 h
  obtain ⟨stamp, -, h⟩ := bind_eq_ok.1 h
  cases h
  obtain ⟨ht, -, hphases, hbatches, -⟩ := createDerived_ok (mapError_eq_ok.1 hg)
  obtain ⟨lowered, hl⟩ := lowerPhases_ok hlow
  rw [hphases]
  exact ⟨not_not.1 hlanes, ht, lowered, policies, hl, hbatches⟩

/-- The prepared plan after some more refreshes, accepted or refused. -/
def refreshAll (sha256 : List UInt8 → Digest) (plan : CompiledPlan) (prepared : PreparedAqlPlan)
    (calls : List (ReplayBindings × AqlKernelCatalog)) : PreparedAqlPlan :=
  calls.foldl (fun prepared call => (refreshBindings sha256 prepared plan call.1 call.2).1) prepared

/-- What refreshing leaves of a prepared plan: all but the stamp and the bytes in the buffers. -/
structure Kept (before after : PreparedAqlPlan) : Prop where
  nodes : after.phaseNodes = before.phaseNodes
  batches : after.graph.batches = before.graph.batches
  layout : ∀ job, Option.Rel SameLayout (recordedAt before.graph.phases job) (recordedAt after.graph.phases job)

theorem Kept.refl (prepared : PreparedAqlPlan) : Kept prepared prepared := ⟨rfl, rfl, fun _ => SameLayout?.refl _⟩

theorem Kept.trans {a b c : PreparedAqlPlan} (h : Kept a b) (h' : Kept b c) : Kept a c where
  nodes := h'.nodes.trans h.nodes
  batches := h'.batches.trans h.batches
  layout job := SameLayout?.trans (h.layout job) (h'.layout job)

theorem length_packLaunch (d : PlannedDispatch) (b : ReplayBindings) (out : List UInt8) :
    (packLaunch d b out).1.length = out.length := by
  unfold packLaunch
  cases d.launch.kernargAbi with
  | none => rfl
  | some abi => exact length_packKernarg _ _ _ _

theorem length_refreshPatch (plan : CompiledPlan) (nodes : List (TwoLanes NodeId)) (b : ReplayBindings) (phase : Nat)
    (lane : Fin 2) (slot : Nat) (out : List UInt8) : (refreshPatch plan nodes b phase lane slot out).1.length = out.length := by
  unfold refreshPatch
  split
  · rfl
  split
  · rfl
  split
  · rfl
  · exact length_packLaunch _ _ _

/-- **One refresh keeps the packets and the buffers' layout**, whatever it answers. -/
theorem kept_refresh (sha256 : List UInt8 → Digest) (prepared : PreparedAqlPlan) (plan : CompiledPlan) (b : ReplayBindings)
    (kernels : AqlKernelCatalog) : Kept prepared (refreshBindings sha256 prepared plan b kernels).1 := by
  have hlayout := patchKernargs_layout _ (length_refreshPatch plan prepared.phaseNodes b) prepared.graph.phases 0
  unfold refreshBindings
  split
  · exact .refl prepared
  split
  · rename_i phases e hpatch
    rw [hpatch] at hlayout
    exact ⟨rfl, rfl, hlayout⟩
  · rename_i phases hpatch
    rw [hpatch] at hlayout
    split
    · exact ⟨rfl, rfl, hlayout⟩
    · exact ⟨rfl, rfl, hlayout⟩

/-- **Every run of refreshes keeps them.** -/
theorem kept_refreshAll (sha256 : List UInt8 → Digest) (plan : CompiledPlan) : ∀ (calls : List (ReplayBindings × AqlKernelCatalog))
    (prepared : PreparedAqlPlan), Kept prepared (refreshAll sha256 plan prepared calls)
  | [], prepared => .refl prepared
  | call :: calls, prepared =>
    (kept_refresh sha256 prepared plan call.1 call.2).trans (kept_refreshAll sha256 plan calls _)

/-! ## Whose kernargs -/

/-- Every dispatch packet launches with a buffer that holds the dispatch's own arguments, packed under its own ABI. -/
def HoldsOwnKernargs (plan : CompiledPlan) (nodes : List (TwoLanes NodeId)) (b : ReplayBindings)
    (graph : TwoQueueSerializedBatchGraph) : Prop :=
  ∀ l (i : Nat) (e : Emitted) job, (graph.batches l)[i]? = some e → e.job = some job →
    ∃ d ∈ plan.dispatches, nodeAt nodes job = some d.node ∧ ∃ recorded completion policy abi,
      recordedAt graph.phases job = some recorded ∧ e.packet = .kernel recorded.image completion policy ∧
      d.launch.kernargAbi = some abi ∧
      packKernarg d.launch.arguments abi b (replicate abi.segmentSize 0) = (recorded.kernarg.bytes, .ok ())

/-- The dispatch that the plan lists at the place of a node's index packs what the node's own dispatch packs. -/
def ListedAlike (plan : CompiledPlan) (b : ReplayBindings) : Prop :=
  ∀ d ∈ plan.dispatches, ∀ e, plan.dispatches[d.node.index]? = some e → ∀ abi, d.launch.kernargAbi = some abi →
    packLaunch e b (replicate abi.segmentSize 0) = packLaunch d b (replicate abi.segmentSize 0)

theorem packLaunch_of_abi {abi : KernargAbi} (h : d.launch.kernargAbi = some abi)
    (b : ReplayBindings) (out : List UInt8) : packLaunch d b out = packKernarg d.launch.arguments abi b out := by
  unfold packLaunch
  rw [h]

theorem packLaunch_length (d : PlannedDispatch) (b : ReplayBindings) {out out' : List UInt8}
    (h : out.length = out'.length) (hok : (packLaunch d b out).2 = .ok ()) : packLaunch d b out = packLaunch d b out' := by
  cases habi : d.launch.kernargAbi with
  | none => unfold packLaunch at hok; simp only [habi] at hok; cases hok
  | some abi =>
    rw [packLaunch_of_abi habi] at hok ⊢
    rw [packLaunch_of_abi habi]
    obtain ⟨h2, h1⟩ := packKernarg_length d.launch.arguments abi b h
    exact Prod.ext (h1 hok) h2

variable {job : Job}

theorem refreshPatch_eq {n : NodeId} (hn : nodeAt nodes job = some n)
    (he : plan.dispatches[n.index]? = some e) (b : ReplayBindings) (out : List UInt8) :
    refreshPatch plan nodes b job.phase job.lane job.slot out = packLaunch e b out := by
  cases hl : nodes[job.phase]? with
  | none => simp [nodeAt, hl] at hn
  | some lanes =>
    simp only [nodeAt, hl] at hn
    simp only [refreshPatch, hl, hn, he]

variable {state : PreparedPlanState}

/-- Bindings that a stamp accepts are valid, and a new stamp can be taken of them. -/
theorem stamp_validate_ok {stamp : PreparedPlanStamp} {artifacts : String → Option KernelArtifactIdentity}
    (h : stamp.validate sha256 plan b artifacts = .ok state) :
    b.validate plan = .ok () ∧ ∃ stamp', PreparedPlanStamp.capture sha256 plan b = .ok stamp' := by
  unfold PreparedPlanStamp.validate at h
  split at h
  · cases h
  split at h
  · cases h
  rename_i hl
  unfold PreparedPlanStamp.capture
  rw [hl]
  refine ⟨?_, _, rfl⟩
  unfold ReplayBindings.layoutFingerprint at hl
  split at hl
  · cases hl
  · assumption

theorem refresh_result (h : prepared.stamp.validate sha256 plan b kernels.artifact = .ok state) :
    ((refreshBindings sha256 prepared plan b kernels).2 = .ok state ↔
      (patchKernargs (refreshPatch plan prepared.phaseNodes b) 0 prepared.graph.phases).2 = .ok ()) ∧
    (refreshBindings sha256 prepared plan b kernels).1.graph.phases =
      (patchKernargs (refreshPatch plan prepared.phaseNodes b) 0 prepared.graph.phases).1 := by
  obtain ⟨-, stamp', hcap⟩ := stamp_validate_ok h
  unfold refreshBindings
  rw [h]
  rcases patchKernargs (refreshPatch plan prepared.phaseNodes b) 0 prepared.graph.phases with ⟨phases, _ | u⟩
  · simp
  · simp [hcap]

section refresh

variable {r : Recorder} {options : CompileOptions} {plan : CompiledPlan} {device : Device} {b0 b : ReplayBindings}
  {kernels : AqlKernelCatalog} {lowered : List (PlannedDispatch × RecordedDispatch)} {prepared p : PreparedAqlPlan}

theorem Lowered.recorded_dispatch (h : Lowered device plan b0 kernels lowered phases nodes)
    (hr : recordedAt phases job = some recorded) :
    ∃ x ∈ lowered, nodeAt nodes job = some x.1.node ∧ recorded = x.2 := by
  have hph : job.phase < phases.length := by
    unfold recordedAt at hr
    split at hr
    · cases hr
    · rename_i hl
      exact lt_of_getElem? hl
  rw [(h.job_dispatch hph).2, Option.map_eq_some_iff] at hr
  obtain ⟨x, hx, rfl⟩ := hr
  exact ⟨x, (mem_selectPhase.1 (mem_of_getElem? hx)).1, by rw [(h.job_dispatch hph).1, hx]; rfl, rfl⟩

theorem PlanOf.listed (h : PlanOf r options plan) (hd : d ∈ plan.dispatches) :
    ∃ e, plan.dispatches[d.node.index]? = some e := by
  obtain ⟨n, hn, -⟩ := (h.planned d hd).1.entry
  have hlen : plan.dispatches.length = r.nodes.length := by rw [← h.order.length, length_map]
  exact ⟨_, getElem?_eq_getElem (hlen ▸ lt_of_getElem? hn)⟩

variable {x : PlannedDispatch × RecordedDispatch}

theorem Lowered.packed (h : Lowered device plan b0 kernels lowered phases nodes) (hx : x ∈ lowered) :
    ∃ abi, x.1.launch.kernargAbi = some abi ∧ x.2.kernarg.bytes.length = abi.segmentSize ∧
      packKernarg x.1.launch.arguments abi b0 (replicate abi.segmentSize 0) = (x.2.kernarg.bytes, .ok ()) := by
  obtain ⟨address, -, ha⟩ := h.place hx
  obtain ⟨abi, habi, hpack⟩ := lowerDispatch_ok ha
  refine ⟨abi, habi, ?_, hpack⟩
  have := length_packKernarg x.1.launch.arguments abi b0 (replicate abi.segmentSize 0)
  rwa [hpack, length_replicate] at this

/-- A buffer after a successful refresh: what the dispatch listed at the node's index packs. -/
theorem refreshed_bytes (h : Lowered device plan b0 kernels lowered prepared.graph.phases prepared.phaseNodes)
    (hkept : Kept prepared p) (hok : (patchKernargs (refreshPatch plan p.phaseNodes b) 0 p.graph.phases).2 = .ok ())
    (hx : x ∈ lowered)
    (hn : nodeAt prepared.phaseNodes job = some x.1.node) (hrec : recordedAt prepared.graph.phases job = some x.2)
    (he : plan.dispatches[x.1.node.index]? = some e) {abi : KernargAbi} (habi : x.1.launch.kernargAbi = some abi) :
    ∃ recorded, recordedAt (patchKernargs (refreshPatch plan p.phaseNodes b) 0 p.graph.phases).1 job = some recorded ∧
      recorded.image = x.2.image ∧
      packLaunch e b (replicate abi.segmentSize 0) = (recorded.kernarg.bytes, .ok ()) := by
  obtain ⟨hall, hbytes⟩ := patchKernargs_ok (refreshPatch plan p.phaseNodes b) p.graph.phases 0
  have hlayout := hkept.layout job
  rw [hrec] at hlayout
  cases hp : recordedAt p.graph.phases job with
  | none => rw [hp] at hlayout; cases hlayout
  | some old =>
    rw [hp] at hlayout
    cases hlayout with
    | some hsame =>
      have hpatch : ∀ out, refreshPatch plan p.phaseNodes b (0 + job.phase) job.lane job.slot out = packLaunch e b out :=
        fun out => by rw [Nat.zero_add]; exact refreshPatch_eq (hkept.nodes.symm ▸ hn) he b out
      have hpok := hall.1 hok job old hp
      rw [hpatch] at hpok
      obtain ⟨abi', habi', hlen, -⟩ := h.packed hx
      cases habi.symm.trans habi'
      refine ⟨old.patched (refreshPatch plan p.phaseNodes b (0 + job.phase) job.lane job.slot),
        by rw [hbytes hok job, hp]; rfl, hsame.image, ?_⟩
      have hold : old.kernarg.bytes.length = (replicate abi.segmentSize (0 : UInt8)).length := by
        rw [hsame.length, hlen, length_replicate]
      rw [← packLaunch_length e b hold hpok]
      exact Prod.ext (by simp only [RecordedDispatch.patched, hpatch]) hpok

/-- If every dependency was recorded before its dependant, the plan lists the nodes as they were recorded. -/
theorem PlanOf.listed_self (hr : r.WF) (h : PlanOf r options plan)
    (hf : ∀ a c, Arc r.edges a c → a.index < c.index) (hd : d ∈ plan.dispatches)
    (he : plan.dispatches[d.node.index]? = some e) : e = d := by
  have hlt : ∀ a ∈ r.nodes.map Node.id, ∀ c ∈ r.nodes.map Node.id, a.lt c = true → a.index < c.index := by
    intro a ha c hc hac
    have howner := ((mem_nodeIds hr a).1 ha).1.trans ((mem_nodeIds hr c).1 hc).1.symm
    rcases (NodeId.lt_iff a c).1 hac with ho | ⟨-, hi⟩
    · exact absurd howner (Nat.ne_of_lt ho)
    · exact hi
  have hsorted := h.order.first.sorted NodeId.index h.order.perm hlt
    (fun a c hac => ⟨(mem_nodeIds hr a).2 (hr.known _ hac).1, hf a c hac⟩) h.order.topo.nodup
  have hindex : (plan.dispatches.map PlannedDispatch.node).map NodeId.index = range r.nodes.length := by
    refine Perm.eq_of_pairwise (fun a c _ _ => Nat.le_antisymm) (pairwise_map.2 hsorted) pairwise_le_range ?_
    have hperm := h.order.perm.map NodeId.index
    rw [nodeIds_eq hr, map_map (f := fun i => NodeId.mk r.owner i)] at hperm
    exact hperm.trans (Perm.of_eq (map_id _))
  have hi := congrArg (fun l => l[d.node.index]?) hindex
  obtain ⟨n, hn, -⟩ := (h.planned d hd).1.entry
  simp only [getElem?_map, he, Option.map_some, getElem?_range (lt_of_getElem? hn)] at hi
  have hem := mem_of_getElem? he
  refine h.eq_of_node hr hem hd ?_
  rw [← h.mk_index hr hem, ← h.mk_index hr hd, Option.some.inj hi]

/-- **Dependencies that all go forward leave nothing to confuse.** -/
theorem listedAlike_of_forward (hr : r.WF) (h : PlanOf r options plan) (hf : ∀ a c, Arc r.edges a c → a.index < c.index) :
    ListedAlike plan b := by
  intro d hd e he abi _
  rw [h.listed_self hr hf hd he]

end refresh

/-- **When a refresh leaves every packet its own kernargs.**  After a preparation and any earlier refreshes, let the stamp
accept some bindings.  The refresh succeeds and every packet's buffer then holds what its own dispatch packs under its own
ABI, exactly if the dispatch that the plan lists at the place of each node's index packs alike. -/
theorem refresh_holds_own_kernargs_iff (sha256 : List UInt8 → Digest) (owner : Nat) (ops : List RecorderOp)
    (options : CompileOptions) {plan : CompiledPlan} (hc : compile sha256 (build owner ops) options = .ok plan)
    (device : Device) (b0 : ReplayBindings) (kernels : AqlKernelCatalog) (tokenCount : Nat) (boundary : ApiBoundary)
    (profile : Bool) {prepared : PreparedAqlPlan}
    (hp : prepare sha256 device plan b0 kernels tokenCount boundary profile = .ok prepared)
    (earlier : List (ReplayBindings × AqlKernelCatalog)) (b : ReplayBindings) (kernels' : AqlKernelCatalog)
    {state : PreparedPlanState}
    (hs : (refreshAll sha256 plan prepared earlier).stamp.validate sha256 plan b kernels'.artifact = .ok state) :
    ((refreshBindings sha256 (refreshAll sha256 plan prepared earlier) plan b kernels').2 = .ok state ∧
      HoldsOwnKernargs plan prepared.phaseNodes b
        (refreshBindings sha256 (refreshAll sha256 plan prepared earlier) plan b kernels').1.graph) ↔
    ListedAlike plan b := by
  have hr := wf_build owner ops
  have hplan := compile_ok hr hc
  have hcontracts := (validateKernelContracts_iff _).1 (compile_contracts hc)
  obtain ⟨hlanes, ht, lowered, policies, hlow, hbatches⟩ := prepare_ok hp
  have hpos : 0 < prepared.graph.phases.length := by rw [hlow.phases_length]; omega
  have hkept := kept_refreshAll sha256 plan earlier prepared
  obtain ⟨hres, hphases⟩ := refresh_result hs
  have hkept' := hkept.trans (kept_refresh sha256 _ plan b kernels')
  rw [hres]
  constructor
  · rintro ⟨hok, hown⟩ d hd e he abi habi
    have hunique : ∃! place : Fin 2 × Nat, ∃ job, JobAt (batch prepared.graph.phases policies tokenCount) place.1 place.2 job ∧
        job.token = 0 ∧ nodeAt prepared.phaseNodes job = some d.node := job_unique hr hplan hlanes hlow ht hd
    obtain ⟨⟨l, i⟩, ⟨job, ⟨packet, hpk, hj⟩, -, hn⟩, -⟩ := hunique
    obtain ⟨-, x, hx, -, -, hxn, hrec, -⟩ := hlow.job_packet hpos hpk hj
    obtain rfl := hplan.eq_of_node hr (hlow.mem_plan hx) hd (Option.some.inj (hxn.symm.trans hn))
    obtain ⟨recorded, hrec', -, hpack⟩ := refreshed_bytes hlow hkept hok hx hxn hrec he habi
    obtain ⟨d', hd', hn', recorded', -, -, abi', hrec'', -, habi', hpack'⟩ :=
      hown l i packet job (by rw [hkept'.batches, hbatches]; exact hpk) hj
    obtain rfl := hplan.eq_of_node hr hd' hd (Option.some.inj (hn'.symm.trans hn))
    cases habi.symm.trans habi'
    rw [hphases, hrec'] at hrec''
    obtain rfl := Option.some.inj hrec''
    rw [hpack, packLaunch_of_abi habi, hpack']
  · intro halike
    -- each dispatch packs under the new bindings, and so does the one listed in its place
    have hown : ∀ x ∈ lowered, ∀ e, plan.dispatches[x.1.node.index]? = some e → ∀ abi, x.1.launch.kernargAbi = some abi →
        (packLaunch e b (replicate abi.segmentSize 0)).2 = .ok () := by
      intro x hx e he abi habi
      obtain ⟨abi', habi', -, hpack⟩ := hlow.packed hx
      cases habi.symm.trans habi'
      rw [halike x.1 (hlow.mem_plan hx) e he abi habi]
      have h0 : (packLaunch x.1 b0 (replicate abi.segmentSize 0)).2 = .ok () := by rw [packLaunch_of_abi habi, hpack]
      exact packLaunch_transfer hcontracts (inBounds_build owner ops) hplan (stamp_validate_ok hs).1 (hlow.mem_plan hx) h0
    have hok : (patchKernargs (refreshPatch plan (refreshAll sha256 plan prepared earlier).phaseNodes b) 0
        (refreshAll sha256 plan prepared earlier).graph.phases).2 = .ok () := by
      refine (patchKernargs_ok _ _ 0).1.2 (fun job old hold => ?_)
      have hlayout := hkept.layout job
      rw [hold] at hlayout
      cases hrec : recordedAt prepared.graph.phases job with
      | none => rw [hrec] at hlayout; cases hlayout
      | some recorded =>
        rw [hrec] at hlayout
        obtain ⟨x, hx, hn, rfl⟩ := hlow.recorded_dispatch hrec
        obtain ⟨e, he⟩ := hplan.listed (hlow.mem_plan hx)
        obtain ⟨abi, habi, hlen, -⟩ := hlow.packed hx
        have hpk := hown x hx e he abi habi
        cases hlayout with
        | some hsame =>
          have hbuffer : (replicate abi.segmentSize (0 : UInt8)).length = old.kernarg.bytes.length := by
            rw [length_replicate, hsame.length, hlen]
          rw [Nat.zero_add, refreshPatch_eq (hkept.nodes.symm ▸ hn) he, ← packLaunch_length e b hbuffer hpk]
          exact hpk
    refine ⟨hok, fun l i packet job hpk hj => ?_⟩
    rw [hkept'.batches, hbatches] at hpk
    obtain ⟨-, x, hx, completion, policy, hn, hrec, hpacket⟩ := hlow.job_packet hpos hpk hj
    obtain ⟨e, he⟩ := hplan.listed (hlow.mem_plan hx)
    obtain ⟨abi, habi, -⟩ := hlow.packed hx
    obtain ⟨recorded, hrec', himage, hpack⟩ := refreshed_bytes hlow hkept hok hx hn hrec he habi
    refine ⟨x.1, hlow.mem_plan hx, hn, recorded, completion, policy, abi, hphases ▸ hrec', himage ▸ hpacket, habi, ?_⟩
    rw [← packLaunch_of_abi habi, ← halike x.1 (hlow.mem_plan hx) e he abi habi, hpack]

/-! Two producers and their consumers, recorded in this order: the plan keeps it. -/

def forwardOps : List RecorderOp :=
  [.dispatch (byteLaunch 0) [], .dispatch (byteLaunch 1) [], .dispatch (byteLaunch 2) [], .dispatch (byteLaunch 3) [],
    .dependsOn ⟨0, 2⟩ ⟨0, 0⟩, .dependsOn ⟨0, 3⟩ ⟨0, 1⟩]

theorem refresh_holds_own_kernargs_forward : ∃ plan prepared state,
    compile (fun _ => []) (build 0 forwardOps) twoLanes = .ok plan ∧
    prepare (fun _ => []) sampleDevice plan .new sampleKernels 1 ⟨.hostToAql, .aqlToHost⟩ false = .ok prepared ∧
    prepared.stamp.validate (fun _ => []) plan .new sampleKernels.artifact = .ok state ∧
    HoldsOwnKernargs plan prepared.phaseNodes .new (refreshBindings (fun _ => []) prepared plan .new sampleKernels).1.graph := by
  have hforward : ∀ a c, Arc (build 0 forwardOps).edges a c → a.index < c.index := fun a c hac => by
    have : ∀ e ∈ (build 0 forwardOps).edges, e.1.index < e.2.index := by decide +kernel
    exact this _ hac
  have halike : ∀ plan, compile (fun _ => []) (build 0 forwardOps) twoLanes = .ok plan → ListedAlike plan .new :=
    fun plan hc => listedAlike_of_forward (wf_build 0 forwardOps) (compile_ok (wf_build 0 forwardOps) hc) hforward
  exact ⟨_, _, _, rfl, rfl, rfl, ((refresh_holds_own_kernargs_iff (fun _ => []) 0 forwardOps twoLanes rfl sampleDevice .new
    sampleKernels 1 ⟨.hostToAql, .aqlToHost⟩ false rfl [] .new sampleKernels rfl).2 (halike _ rfl)).2⟩

/-- Consumers recorded before their producers, refreshed with the bindings they were prepared with: the buffers of nodes 2,
3, 0 and 1 held the bytes 2, 3, 0 and 1, and now hold 3, 1, 2 and 0. -/
theorem refresh_mixes_kernargs_crossed : ∃ plan prepared,
    compile (fun _ => []) (build 0 crossedOps) twoLanes = .ok plan ∧
    prepare (fun _ => []) sampleDevice plan .new sampleKernels 1 ⟨.hostToAql, .aqlToHost⟩ false = .ok prepared ∧
    prepared.stamp.validate (fun _ => []) plan .new sampleKernels.artifact = .ok .current ∧
    (refreshBindings (fun _ => []) prepared plan .new sampleKernels).2 = .ok .current ∧
    prepared.phaseNodes = [⟨[⟨0, 2⟩], [⟨0, 3⟩]⟩, ⟨[⟨0, 0⟩], [⟨0, 1⟩]⟩] ∧
    prepared.graph.phases.map (fun phase => (phase.zero ++ phase.one).map (fun d => d.kernarg.bytes)) =
      [[[2], [3]], [[0], [1]]] ∧
    (refreshBindings (fun _ => []) prepared plan .new sampleKernels).1.graph.phases.map
      (fun phase => (phase.zero ++ phase.one).map (fun d => d.kernarg.bytes)) = [[[3], [1]], [[2], [0]]] ∧
    ¬ HoldsOwnKernargs plan prepared.phaseNodes .new
      (refreshBindings (fun _ => []) prepared plan .new sampleKernels).1.graph := by
  refine ⟨_, _, rfl, rfl, rfl, rfl, rfl, rfl, rfl, fun h => ?_⟩
  obtain ⟨d, hd, hn, recorded, -, -, abi, hrec, -, habi, hpack⟩ := h 0 0 _ ⟨0, 0, 0, 0⟩ rfl rfl
  have hlaunch : d.launch = byteLaunch 2 := by
    have hall : ∀ plan, compile (fun _ => []) (build 0 crossedOps) twoLanes = .ok plan →
        ∀ d ∈ plan.dispatches, (⟨0, 2⟩ : NodeId) = d.node → d.launch = byteLaunch 2 := by
      rintro _ ⟨⟩
      decide +kernel
    exact hall _ rfl d hd (Option.some.inj hn)
  rw [hlaunch] at habi hpack
  obtain rfl := Option.some.inj habi
  have hown : [2] = recorded.kernarg.bytes := congrArg Prod.fst hpack
  have hheld : [3] = recorded.kernarg.bytes := congrArg (fun d => d.kernarg.bytes) (Option.some.inj hrec)
  exact absurd (hown.trans hheld.symm) (by decide)

end Hipfire.Redline
