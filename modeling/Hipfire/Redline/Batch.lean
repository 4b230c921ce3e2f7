import Hipfire.Redline.Lower
/-!
# Batch — packet streams of a two-queue token batch (`aql/replay.rs`, `aql/generic.rs`)

`createDerived` emits, per token and phase, a fan-in barrier on each queue (from the second phase on), the lane's
dispatches, and a consolidation barrier whose signal is the phase's tail on that lane; between tokens a fan-in on the last
phase of the token before; at the end a terminal fan-in on queue zero.  Each packet is kept with the job it does, a dispatch
of some token; the packet image itself has no such field.
-/
namespace Hipfire.Redline

/-- The signals of a batch; `none` is the null signal. -/
inductive AqlSignal where
  | none
  | tail (token phase : Nat) (lane : Fin 2)
  | final
  | profile (index : Nat)
deriving DecidableEq

/-- What a kernel packet takes from a recorded dispatch; of the kernargs only the address. -/
structure KernelImage where
  kernel : String
  grid : Dim3
  block : Dim3
  dynamicGroupBytes : Nat
  kernargAddress : Nat
deriving DecidableEq

def RecordedDispatch.image (d : RecordedDispatch) : KernelImage :=
  ⟨d.kernel, d.grid, d.block, d.dynamicGroupBytes, d.kernarg.address⟩

inductive Packet where
  | kernel (image : KernelImage) (completion : AqlSignal) (policy : HeaderPolicy)
  | barrierAnd (dependencies : List AqlSignal) (completion : AqlSignal) (policy : HeaderPolicy)
deriving DecidableEq

def Packet.completion : Packet → AqlSignal
  | .kernel _ completion _ => completion
  | .barrierAnd _ completion _ => completion

def Packet.policy : Packet → HeaderPolicy
  | .kernel _ _ policy => policy
  | .barrierAnd _ _ policy => policy

/-- One dispatch of one token: its phase, its lane and its place there. -/
structure Job where
  token : Nat
  phase : Nat
  lane : Fin 2
  slot : Nat
deriving DecidableEq

structure Emitted where
  packet : Packet
  job : Option Job
deriving DecidableEq

/-- Header policies of a batch, by phase and lane; the first token may carry entry fences. -/
structure TwoQueueDerivedPolicies where
  firstDispatches : List (TwoLanes HeaderPolicy)
  repeatedDispatches : List (TwoLanes HeaderPolicy)
  consolidation : HeaderPolicy
  dependency : HeaderPolicy
  terminal : HeaderPolicy
  profileAllDispatches : Bool

/-! ## Policies -/

def VisibilityReason.isRawConsumer : VisibilityReason → Bool
  | .rawConsumer _ _ => true
  | _ => false

/-- The policy of a node on the tokens after the first: only what the token itself needs. -/
def repeatedHeader (policy : DerivedDispatchPolicy) : HeaderPolicy :=
  { barrier := policy.header.barrier
    acquire := if policy.acquireReasons.any VisibilityReason.isRawConsumer then .agent else .none
    release := policy.header.release }

def policiesFor (visibility : DerivedVisibilityPlan) (header : DerivedDispatchPolicy → HeaderPolicy) :
    List NodeId → Except GenericAqlError (List HeaderPolicy)
  | [] => .ok []
  | node :: nodes =>
    match visibility.dispatches.find? (fun p => decide (p.node = node)) with
    | none => .error (.visibilityNodeMissing node.index)
    | some policy =>
      match policiesFor visibility header nodes with
      | .error e => .error e
      | .ok rest => .ok (header policy :: rest)

def lowerPhasePolicies (visibility : DerivedVisibilityPlan) (header : DerivedDispatchPolicy → HeaderPolicy) :
    List (TwoLanes NodeId) → Except GenericAqlError (List (TwoLanes HeaderPolicy))
  | [] => .ok []
  | phase :: phases =>
    match policiesFor visibility header phase.zero with
    | .error e => .error e
    | .ok zero =>
      match policiesFor visibility header phase.one with
      | .error e => .error e
      | .ok one =>
        match lowerPhasePolicies visibility header phases with
        | .error e => .error e
        | .ok rest => .ok (⟨zero, one⟩ :: rest)

/-- Some access of a dispatch writes into the region. -/
def writesInto (region : DeviceRegion) (d : PlannedDispatch) : Bool :=
  d.accesses.any (fun a => decide (a.mode = .write) && a.region.overlaps region)

/-- A read that may observe the token before: nothing earlier in this token writes it, something in a token does. -/
def hasCrossTokenRaw (plan : CompiledPlan) : Bool :=
  plan.dispatches.zipIdx.any (fun x => x.1.accesses.any (fun read => decide (read.mode = .read) &&
    !(plan.dispatches.take x.2).any (writesInto read.region) && plan.dispatches.any (writesInto read.region)))

def twoQueueDependency : HeaderPolicy := ⟨true, .none, .none⟩

def lowerPolicies (plan : CompiledPlan) (phaseNodes : List (TwoLanes NodeId)) (visibility : DerivedVisibilityPlan)
    (profileAllDispatches : Bool) : Except GenericAqlError TwoQueueDerivedPolicies :=
  match lowerPhasePolicies visibility DerivedDispatchPolicy.header phaseNodes with
  | .error e => .error e
  | .ok firstDispatches =>
    match lowerPhasePolicies visibility repeatedHeader phaseNodes with
    | .error e => .error e
    | .ok repeatedDispatches =>
      match visibility.laneConsolidations.head? with
      | none => .error .missingLaneConsolidation
      | some first =>
        let raw := hasCrossTokenRaw plan
        .ok
          { firstDispatches, repeatedDispatches
            consolidation := { first.header with release := if raw then .agent else first.header.release }
            dependency := { twoQueueDependency with acquire := if raw then .agent else twoQueueDependency.acquire }
            terminal := visibility.terminal.header
            profileAllDispatches }

/-! ## Counts -/

/-- Arithmetic on `usize`; an overflow is the error. -/
def checkedSize (n : Nat) : Except ReplayError Nat := if n ≤ u64Max then .ok n else .error .batchShapeOverflow

def checkedSum : Nat → List Nat → Except ReplayError Nat
  | sum, [] => .ok sum
  | sum, n :: ns => do
    let sum' ← checkedSize (sum + n)
    checkedSum sum' ns

/-- The packets of one queue without the consolidations: `two_queue_serialized_batch_counts`. -/
def serializedBatchCount (phases : List TwoQueuePhase) (tokenCount : Nat) (lane : Fin 2) : Except ReplayError Nat := do
  let phaseBarriers ← checkedSize ((phases.length - 1) * tokenCount)
  let dispatchesPerToken ← checkedSum 0 (phases.map (fun phase => (phase.lane lane).length))
  let dispatches ← checkedSize (dispatchesPerToken * tokenCount)
  let withPhases ← checkedSize (dispatches + phaseBarriers)
  let withTokens ← checkedSize (withPhases + (tokenCount - 1))
  checkedSize (withTokens + if lane = lane0 then 1 else 0)

/-- The packets of one queue, as counted before the queues are created. -/
def packetCount (phases : List TwoQueuePhase) (tokenCount : Nat) (lane : Fin 2) : Except ReplayError Nat := do
  let base ← serializedBatchCount phases tokenCount lane
  let consolidations ← checkedSize (phases.length * tokenCount)
  checkedSize (base + consolidations)

/-! ## Packets -/

def policyShape (label : String) (phases : List TwoQueuePhase) (dispatches : List (TwoLanes HeaderPolicy)) :
    Except ReplayError Unit :=
  if dispatches.length ≠ phases.length then
    .error (.policyShapeMismatch s!"{label} policy has {dispatches.length} phases, graph has {phases.length}")
  else
    firstError (fun x : (TwoQueuePhase × TwoLanes HeaderPolicy) × Nat =>
      firstError (fun lane : Fin 2 =>
        let policies := (x.1.2.lane lane).length
        let expected := (x.1.1.lane lane).length
        if policies = expected then .ok ()
        else .error (.policyShapeMismatch s!"{label} phase {x.2} lane {lane} has {policies} policies, {expected} dispatches"))
        [lane0, lane1])
      (phases.zip dispatches).zipIdx

section emit

variable (phases : List TwoQueuePhase) (policies : TwoQueueDerivedPolicies) (tokenCount : Nat)

def TwoQueueDerivedPolicies.coversBatch : Bool :=
  match policies.repeatedDispatches.getLast? with
  | none => false
  | some last =>
    (match last.zero.getLast? with | some policy => policy.barrier | none => false) &&
      (match last.one.getLast? with | some policy => policy.barrier | none => false)

def Job.isFirst (job : Job) : Bool := decide (job.token = 0) && decide (job.phase = 0) && decide (job.slot = 0)

def Job.isLast (job : Job) (slots : Nat) : Bool :=
  decide (job.token + 1 = tokenCount) && decide (job.phase + 1 = phases.length) && decide (job.slot + 1 = slots)

/-- The dispatches of one phase, both lanes. -/
def phaseSize (phase : TwoQueuePhase) : Nat := phase.zero.length + phase.one.length

/-- The running `full_profile_index` at a job: the dispatches emitted before it on both queues. -/
def profileIndex (job : Job) : Nat :=
  job.token * (phases.map phaseSize).sum + ((phases.take job.phase).map phaseSize).sum +
    (if job.lane = lane0 then 0 else match phases[job.phase]? with | some phase => phase.zero.length | none => 0) + job.slot

def dispatchSignal (job : Job) (slots : Nat) : AqlSignal :=
  if policies.profileAllDispatches then .profile (profileIndex phases job)
  else if policies.coversBatch && job.isFirst then .profile job.lane.val
  else if policies.coversBatch && job.isLast phases tokenCount slots then .profile (2 + job.lane.val)
  else .none

def dispatchHeader (job : Job) : HeaderPolicy :=
  let byPhase := if job.token = 0 then policies.firstDispatches else policies.repeatedDispatches
  match byPhase[job.phase]? with
  | none => twoQueueDependency
  | some lanes => (lanes.lane job.lane).getD job.slot twoQueueDependency

/-- A fan-in on both tails of a phase. -/
def fanIn (token phase : Nat) : Emitted :=
  ⟨.barrierAnd [.tail token phase lane0, .tail token phase lane1] .none policies.dependency, none⟩

def consolidate (token phase : Nat) (lane : Fin 2) : Emitted :=
  ⟨.barrierAnd [] (.tail token phase lane) policies.consolidation, none⟩

def laneDispatches (token phase : Nat) (lane : Fin 2) (dispatches : List RecordedDispatch) : List Emitted :=
  dispatches.zipIdx.map (fun x =>
    let job : Job := ⟨token, phase, lane, x.2⟩
    ⟨.kernel x.1.image (dispatchSignal phases policies tokenCount job dispatches.length) (dispatchHeader policies job), some job⟩)

def phaseAt (phase : Nat) : TwoQueuePhase := phases.getD phase ⟨[], []⟩

/-- The dispatches of one phase on one queue and the consolidation that ends them. -/
def phaseBody (token : Nat) (lane : Fin 2) (phase : Nat) : List Emitted :=
  laneDispatches phases policies tokenCount token phase lane ((phaseAt phases phase).lane lane) ++
    [consolidate policies token phase lane]

/-- One phase on one queue. -/
def phasePackets (token : Nat) (lane : Fin 2) (phase : Nat) : List Emitted :=
  (if phase = 0 then [] else [fanIn policies token (phase - 1)]) ++ phaseBody phases policies tokenCount token lane phase

/-- One token on one queue. -/
def tokenPackets (lane : Fin 2) (token : Nat) : List Emitted :=
  (if token = 0 then [] else [fanIn policies (token - 1) (phases.length - 1)]) ++
    (List.range phases.length).flatMap (phasePackets phases policies tokenCount token lane)

def terminalPacket : Emitted :=
  ⟨.barrierAnd [.tail (tokenCount - 1) (phases.length - 1) lane0, .tail (tokenCount - 1) (phases.length - 1) lane1]
    .final policies.terminal, none⟩

/-- The whole stream of one queue. -/
def batch (lane : Fin 2) : List Emitted :=
  (List.range tokenCount).flatMap (tokenPackets phases policies tokenCount lane) ++
    if lane = lane0 then [terminalPacket phases policies tokenCount] else []

/-- A dispatch that would be both the first and the last of its queue to be profiled. -/
def firstIsLast : Bool :=
  decide (tokenCount = 1) && decide (phases.length = 1) &&
    phases.any (fun phase => decide (phase.zero.length = 1) || decide (phase.one.length = 1))

end emit

/-- The profiling signals to create, if every dispatch has one. -/
def profileCount (phases : List TwoQueuePhase) (policies : TwoQueueDerivedPolicies) (tokenCount : Nat) :
    Except ReplayError Nat :=
  if policies.profileAllDispatches then checkedSize ((phases.map phaseSize).sum * tokenCount) else .ok 0

structure TwoQueueSerializedBatchGraph where
  phases : List TwoQueuePhase
  batches : Fin 2 → List Emitted
  tokenCount : Nat

/-- `create_derived`, given the capacity of the queues. -/
def createDerived (device : Device) (capacity tokenCount : Nat) (phases : List TwoQueuePhase)
    (policies : TwoQueueDerivedPolicies) : Except ReplayError TwoQueueSerializedBatchGraph :=
  if phases = [] then .error .emptyPhaseSet
  else if tokenCount = 0 then .error .emptyTokenBatch
  else do
    device.checkPhases phases
    policyShape "first-token" phases policies.firstDispatches
    policyShape "repeated-token" phases policies.repeatedDispatches
    let _ ← packetCount phases tokenCount lane0
    let _ ← packetCount phases tokenCount lane1
    let _ ← checkedSize (phases.length * tokenCount * 2 + 1)
    let _ ← profileCount phases policies tokenCount
    if firstIsLast phases tokenCount then
      .error (.invalidBatchShape "derived profiling needs distinct first and last dispatches")
    else if capacity < (batch phases policies tokenCount lane0).length then
      .error (.batchExceedsQueue 0 (batch phases policies tokenCount lane0).length capacity)
    else if capacity < (batch phases policies tokenCount lane1).length then
      .error (.batchExceedsQueue 1 (batch phases policies tokenCount lane1).length capacity)
    else .ok ⟨phases, batch phases policies tokenCount, tokenCount⟩

end Hipfire.Redline
