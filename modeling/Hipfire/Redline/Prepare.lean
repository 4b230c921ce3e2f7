import Hipfire.Redline.Batch
/-!
# Prepare — preparing a plan for direct AQL, and patching new bindings into it (`aql/generic.rs`)

`prepare` lowers a two-lane plan to a packet batch with one kernarg buffer per dispatch.  `refreshBindings` patches the
buffers of a prepared plan in place: for each buffer it looks up the node of its dispatch and packs the launch it finds in
the plan for that node.  Both are given the SHA-256 function.
-/
namespace Hipfire.Redline

structure PreparedAqlPlan where
  graph : TwoQueueSerializedBatchGraph
  stamp : PreparedPlanStamp
  phaseNodes : List (TwoLanes NodeId)
  visibility : DerivedVisibilityPlan

/-- The packets of one queue, as `prepare` counts them to size the queues: a consolidation per phase and token is added to
the base count. -/
def withConsolidations (phases : List TwoQueuePhase) (tokenCount base : Nat) : Except GenericAqlError Nat :=
  let consolidations := phases.length * tokenCount
  if u64Max < consolidations then .error .queueSizeOverflow
  else if u64Max < base + consolidations then .error .queueSizeOverflow
  else .ok (base + consolidations)

/-- `checked_next_power_of_two` on a `u32`: the least power of two not below `n`, if there is one. -/
def nextPowerOfTwo (n : Nat) : Option Nat := ((List.range 32).map (2 ^ ·)).find? (fun power => decide (n ≤ power))

def queueSizeFor (device : Device) (count0 count1 : Nat) : Except GenericAqlError Nat :=
  let required := max count0 count1
  if u32Max < required then .error .queueSizeOverflow
  else match nextPowerOfTwo (max required device.minQueueSize) with
    | none => .error .queueSizeOverflow
    | some requested =>
      if device.maxQueueSize < requested then .error (.queueCapacity required device.maxQueueSize)
      else .ok requested

/-- `prepare_internal`. -/
def prepare (sha256 : List UInt8 → Digest) (device : Device) (plan : CompiledPlan) (b : ReplayBindings)
    (kernels : AqlKernelCatalog) (tokenCount : Nat) (boundary : ApiBoundary) (profileAllDispatches : Bool) :
    Except GenericAqlError PreparedAqlPlan :=
  if plan.replayMode ≠ .tokenLatency then .error (.unsupportedReplayMode plan.replayMode)
  else if plan.laneCount ≠ 2 then .error (.unsupportedLaneCount plan.laneCount)
  else if tokenCount = 0 then .error .emptyTokenBatch
  else do
    (b.validate plan).mapError .bindings
    let lowered ← lowerPhases device plan b kernels
    let visibility ← (deriveAqlVisibility plan boundary).mapError .visibility
    let policies ← lowerPolicies plan lowered.2 visibility profileAllDispatches
    -- both base counts come first: their overflow is reported as a replay error
    let base0 ← (serializedBatchCount lowered.1 tokenCount lane0).mapError .replay
    let base1 ← (serializedBatchCount lowered.1 tokenCount lane1).mapError .replay
    let count0 ← withConsolidations lowered.1 tokenCount base0
    let count1 ← withConsolidations lowered.1 tokenCount base1
    let queueSize ← queueSizeFor device count0 count1
    let graph ← (createDerived device queueSize tokenCount lowered.1 policies).mapError .replay
    let stamp ← (PreparedPlanStamp.capture sha256 plan b).mapError .bindings
    .ok ⟨graph, stamp, lowered.2, visibility⟩

/-! ## Refresh -/

/-- Patch the buffers of one lane of a phase, from some slot on; an error stops it and leaves the rest as it was. -/
def patchLane (patch : Nat → List UInt8 → List UInt8 × Except GenericAqlError Unit) :
    Nat → List RecordedDispatch → List RecordedDispatch × Except GenericAqlError Unit
  | _, [] => ([], .ok ())
  | slot, d :: ds =>
    match patch slot d.kernarg.bytes with
    | (bytes, .error e) => ({ d with kernarg := ⟨d.kernarg.address, bytes⟩ } :: ds, .error e)
    | (bytes, .ok ()) =>
      let (ds', result) := patchLane patch (slot + 1) ds
      ({ d with kernarg := ⟨d.kernarg.address, bytes⟩ } :: ds', result)

/-- `patch_kernargs` of a graph with no batch in flight: phase by phase, lane zero before lane one. -/
def patchKernargs (patch : Nat → Fin 2 → Nat → List UInt8 → List UInt8 × Except GenericAqlError Unit) :
    Nat → List TwoQueuePhase → List TwoQueuePhase × Except GenericAqlError Unit
  | _, [] => ([], .ok ())
  | phase, lanes :: phases =>
    match patchLane (patch phase lane0) 0 lanes.zero with
    | (zero, .error e) => (⟨zero, lanes.one⟩ :: phases, .error e)
    | (zero, .ok ()) =>
      match patchLane (patch phase lane1) 0 lanes.one with
      | (one, .error e) => (⟨zero, one⟩ :: phases, .error e)
      | (one, .ok ()) =>
        let (phases', result) := patchKernargs patch (phase + 1) phases
        (⟨zero, one⟩ :: phases', result)

/-- Pack the arguments of a dispatch under its own ABI. -/
def packLaunch (d : PlannedDispatch) (b : ReplayBindings) (output : List UInt8) : List UInt8 × Except GenericAqlError Unit :=
  match d.launch.kernargAbi with
  | none => (output, .error (.missingKernargAbi d.launch.kernel))
  | some abi => packKernarg d.launch.arguments abi b output

/-- The patch of `refresh_bindings`.  The plan's dispatch list is indexed by the node's index. -/
def refreshPatch (plan : CompiledPlan) (nodes : List (TwoLanes NodeId)) (b : ReplayBindings) (phase : Nat) (lane : Fin 2)
    (slot : Nat) (output : List UInt8) : List UInt8 × Except GenericAqlError Unit :=
  match nodes[phase]? with
  | none => (output, .error .panicked)
  | some lanes =>
    match (lanes.lane lane)[slot]? with
    | none => (output, .error .panicked)
    | some node =>
      match plan.dispatches[node.index]? with
      | none => (output, .error .panicked)
      | some d => packLaunch d b output

/-- `refresh_bindings`: the prepared plan after the call, and its result. -/
def refreshBindings (sha256 : List UInt8 → Digest) (prepared : PreparedAqlPlan) (plan : CompiledPlan) (b : ReplayBindings)
    (kernels : AqlKernelCatalog) : PreparedAqlPlan × Except GenericAqlError PreparedPlanState :=
  match prepared.stamp.validate sha256 plan b kernels.artifact with
  | .error reason => (prepared, .error (.invalidated reason))
  | .ok state =>
    match patchKernargs (refreshPatch plan prepared.phaseNodes b) 0 prepared.graph.phases with
    | (phases, .error e) => ({ prepared with graph := { prepared.graph with phases } }, .error e)
    | (phases, .ok ()) =>
      match PreparedPlanStamp.capture sha256 plan b with
      | .error e => ({ prepared with graph := { prepared.graph with phases } }, .error (.bindings e))
      | .ok stamp => ({ prepared with graph := { prepared.graph with phases }, stamp }, .ok state)

end Hipfire.Redline
