import Hipfire.Base.Bytes
import Hipfire.Base.Kahn
import Hipfire.Redline.Recorder
/-!
# Plan — compiling a recorder to a plan (`plan.rs`)

`compile` checks the kernel contracts, sorts the nodes topologically, closes the edges transitively, refuses unordered
memory hazards, and assigns the nodes in order to logical lanes, each to the lane that would finish it first.
-/
namespace Hipfire.Redline

inductive ReplayMode where
  | tokenLatency
  | throughput (maxTokensInFlight : Nat) (pos : 0 < maxTokensInFlight)

instance : DecidableEq ReplayMode
  | .tokenLatency, .tokenLatency => isTrue rfl
  | .tokenLatency, .throughput _ _ | .throughput _ _, .tokenLatency => isFalse ReplayMode.noConfusion
  | .throughput m _, .throughput n _ => decidable_of_iff (m = n) (ReplayMode.throughput.injEq m _ n _ ▸ Iff.rfl)

structure CompileOptions where
  laneCount : Nat
  lanesPos : 0 < laneCount
  replayMode : ReplayMode

inductive HazardKind where
  | readAfterWrite
  | writeAfterRead
  | writeAfterWrite
deriving DecidableEq, Repr

structure Hazard where
  first : NodeId
  second : NodeId
  kind : HazardKind
  overlap : DeviceRegion
deriving DecidableEq

inductive CompileError where
  | cycle (nodes : List NodeId)
  | unorderedHazards (hazards : List Hazard)
  | invalidKernargAbi (kernel : String) (cause : KernargAbiError)
  | conflictingScalarSlotSize (slot : ScalarSlotId) (first second : Nat)
  | conflictingKernelIdentity (kernel : String)
deriving DecidableEq

structure PlannedResource where
  id : ResourceId
  label : String
  size : Nat
deriving DecidableEq

structure PlannedDispatch where
  node : NodeId
  lane : Nat
  launch : KernelLaunch
  accesses : List Access
  dependencies : List NodeId
  estimatedStart : Nat
  estimatedEnd : Nat
deriving DecidableEq

/-- A validated DAG assigned to logical lanes. -/
structure CompiledPlan where
  resources : List PlannedResource
  dispatches : List PlannedDispatch
  terminals : List NodeId
  laneCount : Nat
  replayMode : ReplayMode
  fingerprint : Digest

/-! ## Kernel contracts -/

/-- The scalar slots of one launch, against the sizes seen so far. -/
def checkSlots : List (ScalarSlotId × Nat) → List KernelArg → Except CompileError (List (ScalarSlotId × Nat))
  | slots, [] => .ok slots
  | slots, .scalarSlot slot size :: arguments =>
    match slots.lookup slot with
    | some previous =>
      if previous = size then checkSlots ((slot, size) :: slots) arguments
      else .error (.conflictingScalarSlotSize slot previous size)
    | none => checkSlots ((slot, size) :: slots) arguments
  | slots, .scalar _ :: arguments => checkSlots slots arguments
  | slots, .resource _ _ :: arguments => checkSlots slots arguments

def checkAbi (launch : KernelLaunch) : Except CompileError Unit :=
  match launch.kernargAbi with
  | none => .ok ()
  | some abi =>
    match abi.validateArguments launch.arguments with
    | .error cause => .error (.invalidKernargAbi launch.kernel cause)
    | .ok () => .ok ()

/-- What a kernel key stands for: the hash of its ABI and its artifact. -/
def KernelLaunch.identity (launch : KernelLaunch) : Option Digest × Option KernelArtifactIdentity :=
  (launch.kernargAbi.map KernargAbi.hash, launch.artifactIdentity)

def checkContracts : List (ScalarSlotId × Nat) → List (String × Option Digest × Option KernelArtifactIdentity) →
    List Node → Except CompileError Unit
  | _, _, [] => .ok ()
  | slots, kernels, node :: nodes =>
    match checkAbi node.launch with
    | .error e => .error e
    | .ok () =>
      match checkSlots slots node.launch.arguments with
      | .error e => .error e
      | .ok slots' =>
        match kernels.lookup node.launch.kernel with
        | some previous =>
          if previous = node.launch.identity then
            checkContracts slots' ((node.launch.kernel, node.launch.identity) :: kernels) nodes
          else .error (.conflictingKernelIdentity node.launch.kernel)
        | none => checkContracts slots' ((node.launch.kernel, node.launch.identity) :: kernels) nodes

def validateKernelContracts (r : Recorder) : Except CompileError Unit := checkContracts [] [] r.nodes

/-! ## Order and hazards -/

/-- Kahn's algorithm, the smallest ready node first; nodes left with an open edge are reported as a cycle. -/
def topologicalOrder (r : Recorder) : Except CompileError (List NodeId) :=
  let (order, indegree) := kahn NodeId.lt (r.nodes.map Node.id) r.edges
  if order.length = r.nodes.length then .ok order
  else .error (.cycle ((r.nodes.filter (fun n => decide (indegree n.id ≠ 0))).map Node.id))

/-- Which node index reaches which, filled from the end of the order. -/
def reachability (r : Recorder) (order : List NodeId) : Nat → Nat → Bool :=
  order.foldr (fun node reachable =>
    (succsOf r.edges node).foldl (fun reachable target => orRow reachable node.index target.index) reachable)
    (fun _ _ => false)

/-- The conflict of two accesses, the first of the earlier dispatch: how they conflict, and where. -/
def conflictOf (first second : Access) : Option (HazardKind × DeviceRegion) :=
  match first.region.intersection second.region with
  | none => none
  | some overlap =>
    match first.mode, second.mode with
    | .read, .read => none
    | .write, .read => some (.readAfterWrite, overlap)
    | .read, .write => some (.writeAfterRead, overlap)
    | .write, .write => some (.writeAfterWrite, overlap)

def hazardsBetween (first second : Node) : List Hazard :=
  first.accesses.flatMap (fun a => second.accesses.filterMap (fun b =>
    (conflictOf a b).map (fun c => ⟨first.id, second.id, c.1, c.2⟩)))

/-- The hazards of two node indices that do not reach each other. -/
def hazardsAt (r : Recorder) (reachable : Nat → Nat → Bool) (first second : Nat) : List Hazard :=
  if reachable first second || reachable second first then []
  else match r.nodes[first]?, r.nodes[second]? with
    | some a, some b => hazardsBetween a b
    | _, _ => []

def unorderedHazards (r : Recorder) (reachable : Nat → Nat → Bool) : List Hazard :=
  (List.range r.nodes.length).flatMap (fun first =>
    (List.range' (first + 1) (r.nodes.length - (first + 1))).flatMap (fun second => hazardsAt r reachable first second))

/-! ## Lanes -/

/-- `saturating_add` on `u64`. -/
def saturatingAdd64 (a b : Nat) : Nat := min (a + b) u64Max

/-- One lane's offer for a dispatch. -/
structure LaneSlot where
  lane : Nat
  start : Nat
  stop : Nat

/-- The order of the keys `(end, start, lane)`. -/
def LaneSlot.before (a b : LaneSlot) : Bool :=
  decide (a.stop < b.stop) || (decide (a.stop = b.stop) && (decide (a.start < b.start) ||
    (decide (a.start = b.start) && decide (a.lane < b.lane))))

def laneSlots (available : List Nat) (dependencyFinish work : Nat) : List LaneSlot :=
  available.zipIdx.map (fun p =>
    ⟨p.2, max p.1 dependencyFinish, saturatingAdd64 (max p.1 dependencyFinish) work⟩)

/-- `min_by_key`; there is at least one lane. -/
def leastSlot : List LaneSlot → Option LaneSlot
  | [] => none
  | s :: ss => some (ss.foldl (fun best s => if s.before best then s else best) s)

/-- Assign the nodes of an order to lanes, given each lane's next free time and the finish times by node index. -/
def planLoop (r : Recorder) : List NodeId → List Nat → List Nat → List PlannedDispatch
  | [], _, _ => []
  | node :: order, laneAvailable, nodeFinish =>
    match r.nodes[node.index]? with
    | none => []
    | some entry =>
      let dependencies := predsOf r.edges node
      let dependencyFinish := (dependencies.map (fun d => nodeFinish.getD d.index 0)).foldl max 0
      match leastSlot (laneSlots laneAvailable dependencyFinish entry.launch.estimatedWork) with
      | none => []
      | some slot =>
        { node, lane := slot.lane, launch := entry.launch, accesses := entry.accesses, dependencies
          estimatedStart := slot.start, estimatedEnd := slot.stop } ::
          planLoop r order (laneAvailable.set slot.lane slot.stop) (nodeFinish.set node.index slot.stop)

/-- The nodes that no edge leaves. -/
def terminalNodes (r : Recorder) : List NodeId :=
  (r.nodes.filter (fun n => !r.edges.any (fun e => decide (e.1 = n.id)))).map Node.id

def plannedResources (r : Recorder) : List PlannedResource :=
  r.resources.zipIdx.map (fun p => ⟨⟨r.owner, p.2⟩, p.1.label, p.1.size⟩)

/-! ## Fingerprint -/

def putU32 (n : Nat) : List UInt8 := leBytes 4 n

def putU64 (n : Nat) : List UInt8 := leBytes 8 n

def putBytes (bytes : List UInt8) : List UInt8 := putU64 bytes.length ++ bytes

def putDim3 (d : Dim3) : List UInt8 := putU32 d.x.toNat ++ putU32 d.y.toNat ++ putU32 d.z.toNat

def putArgument : KernelArg → List UInt8
  | .scalar bytes => 0 :: putBytes bytes
  | .scalarSlot slot size => 1 :: (putU32 slot ++ putU32 size)
  | .resource resource byteOffset => 2 :: (putU32 resource.index ++ putU64 byteOffset)

def putAccess (a : Access) : List UInt8 :=
  (match a.mode with | .read => 0 | .write => 1) ::
    (putU32 a.region.resource.index ++ putU64 a.region.offset ++ putU64 a.region.len)

def putIdentity : Option KernelArtifactIdentity → List UInt8
  | some identity => 1 :: (identity.codeObject ++ identity.symbolText ++ putU64 identity.generation)
  | none => [0]

def putAbi : Option KernargAbi → List UInt8
  | some abi => 1 :: abi.hash
  | none => [0]

def putDispatch (d : PlannedDispatch) : List UInt8 :=
  putU32 d.node.index ++ putU64 d.lane ++ putBytes (textBytes d.launch.kernel) ++ putDim3 d.launch.grid ++
    putDim3 d.launch.block ++ putU32 d.launch.dynamicSharedBytes ++ putU32 d.launch.estimatedWork ++
    putAbi d.launch.kernargAbi ++ putIdentity d.launch.artifactIdentity ++
    putU64 d.launch.arguments.length ++ d.launch.arguments.flatMap putArgument ++
    putU64 d.accesses.length ++ d.accesses.flatMap putAccess ++
    putU64 d.dependencies.length ++ d.dependencies.flatMap (fun n => putU32 n.index)

def putMode : ReplayMode → List UInt8
  | .tokenLatency => [0]
  | .throughput maxTokensInFlight _ => 1 :: putU64 maxTokensInFlight

/-- The bytes whose SHA-256 is a plan's fingerprint. -/
def fingerprintBytes (plan : CompiledPlan) : List UInt8 :=
  textBytes "redline-compiled-plan-v1" ++ [0] ++ putU64 plan.laneCount ++ putMode plan.replayMode ++
    putU64 plan.resources.length ++
    plan.resources.flatMap (fun p => putU32 p.id.index ++ putBytes (textBytes p.label) ++ putU64 p.size) ++
    putU64 plan.dispatches.length ++ plan.dispatches.flatMap putDispatch ++
    putU64 plan.terminals.length ++ plan.terminals.flatMap (fun n => putU32 n.index)

/-! ## Compile -/

/-- The plan of an order, before its fingerprint. -/
def assemble (r : Recorder) (options : CompileOptions) (order : List NodeId) : CompiledPlan where
  resources := plannedResources r
  dispatches := planLoop r order (List.replicate options.laneCount 0) (List.replicate r.nodes.length 0)
  terminals := terminalNodes r
  laneCount := options.laneCount
  replayMode := options.replayMode
  fingerprint := List.replicate 32 0

/-- `CompiledPlan::compile`, given the SHA-256 function. -/
def compile (sha256 : List UInt8 → Digest) (r : Recorder) (options : CompileOptions) : Except CompileError CompiledPlan :=
  match validateKernelContracts r with
  | .error e => .error e
  | .ok () =>
    match topologicalOrder r with
    | .error e => .error e
    | .ok order =>
      let hazards := unorderedHazards r (reachability r order)
      if hazards = [] then
        let plan := assemble r options order
        .ok { plan with fingerprint := sha256 (fingerprintBytes plan) }
      else .error (.unorderedHazards hazards)

end Hipfire.Redline
