import Hipfire.Redline.Bindings
/-!
# Lower — kernarg images and dependency phases (`aql/generic.rs`)

`packKernarg` writes the arguments of a launch into its kernarg buffer.  `lowerPhases` gives every dispatch its own buffer and
puts it into the phase of its dependency level, on its lane; a phase must use both lanes.
-/
namespace Hipfire.Redline

open List

inductive ReplayError where
  | emptyPhaseSet
  | emptyTokenBatch
  | emptyPhaseLane (lane : Nat)
  | policyShapeMismatch (detail : String)
  | batchShapeOverflow
  | invalidBatchShape (detail : String)
  | batchExceedsQueue (lane packets capacity : Nat)
  | device (code : Nat)
deriving DecidableEq

/-- The errors of `generic.rs`; `runtime` stands for what the device and its runtime refuse, `panicked` for a copy between
slices of different lengths. -/
inductive GenericAqlError where
  | emptyKernelKey
  | kernelAlreadyRegistered (kernel : String)
  | kernelNotRegistered (kernel : String)
  | missingKernargAbi (kernel : String)
  | missingArtifactIdentity (kernel : String)
  | registeredAbiChanged (kernel : String)
  | artifactIdentityChanged (kernel : String)
  | loaderAbiMismatch (kernel : String) (loaderSize loaderAlignment recordedSize recordedAlignment : Nat)
  | unsupportedLaneCount (lanes : Nat)
  | unsupportedReplayMode (mode : ReplayMode)
  | emptyPlan
  | emptyTokenBatch
  | emptyPhaseLane (phase : Nat)
  | blockDimensionTooLarge (dimension : Nat)
  | kernargAbi (error : KernargAbiError)
  | kernargBufferSize (expected actual : Nat)
  | resourceArgumentOutOfBounds (resource offset bound : Nat)
  | resourcePointerOverflow (resource : Nat)
  | queueSizeOverflow
  | queueCapacity (required maximum : Nat)
  | visibilityNodeMissing (index : Nat)
  | missingLaneConsolidation
  | bindings (error : ReplayBindingError)
  | runtime (code : Nat)
  | replay (error : ReplayError)
  | visibility (error : VisibilityError)
  | invalidated (reason : PreparedPlanInvalidation)
  | panicked
deriving DecidableEq

/-! ## Kernels -/

/-- A registered kernel: its ABI has the loader's segment size, as `register` checks. -/
structure AqlKernelBinding where
  abi : KernargAbi
  identity : KernelArtifactIdentity
  kernargSize : Nat
  sizeOk : kernargSize = abi.segmentSize

abbrev AqlKernelCatalog := List (String × AqlKernelBinding)

def AqlKernelCatalog.artifact (catalog : AqlKernelCatalog) (key : String) : Option KernelArtifactIdentity :=
  (catalog.lookup key).map AqlKernelBinding.identity

/-! ## Kernargs -/

/-- The bytes of one argument under some bindings. -/
def argumentBytes (b : ReplayBindings) : KernelArg → Except GenericAqlError (List UInt8)
  | .scalar value => .ok value
  | .scalarSlot slot size =>
    match b.scalar slot with
    | none => .error (.bindings (.scalarNotBound slot))
    | some value =>
      if value.length = size then .ok value else .error (.bindings (.scalarSize slot size value.length))
  | .resource resource byteOffset =>
    match b.resource resource with
    | none => .error (.bindings (.resourceNotBound resource))
    | some binding =>
      if binding.size ≤ byteOffset then
        .error (.resourceArgumentOutOfBounds resource.index byteOffset binding.size)
      else if u64Max < binding.base + byteOffset then .error (.resourcePointerOverflow resource.index)
      else .ok (leBytes 8 (binding.base + byteOffset))

def writeAt (bytes : List UInt8) (offset : Nat) (value : List UInt8) : List UInt8 :=
  bytes.take offset ++ value ++ bytes.drop (offset + value.length)

/-- Write the arguments into their fields; an error leaves what is written so far. -/
def packFields (b : ReplayBindings) :
    List (KernelArg × KernargField) → List UInt8 → List UInt8 × Except GenericAqlError Unit
  | [], bytes => (bytes, .ok ())
  | (argument, field) :: rest, bytes =>
    match argumentBytes b argument with
    | .error e => (bytes, .error e)
    | .ok value =>
      if value.length = field.size then packFields b rest (writeAt bytes field.offset value)
      else (bytes, .error .panicked)

/-- `pack_kernarg`: the buffer after the call, and its result. -/
def packKernarg (arguments : List KernelArg) (abi : KernargAbi) (b : ReplayBindings) (output : List UInt8) :
    List UInt8 × Except GenericAqlError Unit :=
  match abi.validateArguments arguments with
  | .error e => (output, .error (.kernargAbi e))
  | .ok () =>
    if output.length = abi.segmentSize then
      packFields b (arguments.zip abi.fields) (replicate output.length 0)
    else (output, .error (.kernargBufferSize abi.segmentSize output.length))

theorem packKernarg_length (arguments : List KernelArg) (abi : KernargAbi) (b : ReplayBindings) {out out' : List UInt8}
    (h : out.length = out'.length) : (packKernarg arguments abi b out).2 = (packKernarg arguments abi b out').2 ∧
      ((packKernarg arguments abi b out).2 = .ok () →
        (packKernarg arguments abi b out).1 = (packKernarg arguments abi b out').1) := by
  unfold packKernarg
  rw [← h]
  cases abi.validateArguments arguments with
  | error e => simp
  | ok u =>
    by_cases hl : out.length = abi.segmentSize
    · simp [hl]
    · simp [hl]

theorem length_writeAt {bytes value : List UInt8} {offset : Nat} (h : offset + value.length ≤ bytes.length) :
    (writeAt bytes offset value).length = bytes.length := by
  unfold writeAt
  simp only [length_append, length_take, length_drop]
  omega

theorem length_packFields (b : ReplayBindings) : ∀ (ps : List (KernelArg × KernargField)) (bytes : List UInt8),
    (∀ p ∈ ps, p.2.stop ≤ bytes.length) → (packFields b ps bytes).1.length = bytes.length
  | [], _, _ => rfl
  | (a, f) :: ps, bytes, h => by
    unfold packFields
    cases argumentBytes b a with
    | error e => rfl
    | ok value =>
      by_cases hv : value.length = f.size
      · have hfit := h (a, f) (by simp)
        simp only [KernargField.stop] at hfit
        have hlen : (writeAt bytes f.offset value).length = bytes.length := length_writeAt (by omega)
        simp only [if_pos hv]
        rw [length_packFields b ps _ (fun p hp => by rw [hlen]; exact h p (mem_cons_of_mem _ hp)), hlen]
      · simp only [if_neg hv]

theorem length_packKernarg (arguments : List KernelArg) (abi : KernargAbi) (b : ReplayBindings) (out : List UInt8) :
    (packKernarg arguments abi b out).1.length = out.length := by
  unfold packKernarg
  cases abi.validateArguments arguments with
  | error e => rfl
  | ok u =>
    by_cases hl : out.length = abi.segmentSize
    · simp only [if_pos hl]
      rw [length_packFields b _ _ (fun p hp => ?_), length_replicate]
      rw [length_replicate, hl]
      exact abi.inside _ (of_mem_zip hp).2
    · simp only [if_neg hl]

/-! ## Phases -/

structure KernargBuffer where
  address : Nat
  bytes : List UInt8
deriving DecidableEq

structure RecordedDispatch where
  lane : Nat
  kernel : String
  grid : Dim3
  block : Dim3
  kernarg : KernargBuffer
  dynamicGroupBytes : Nat
deriving DecidableEq

/-- Two queues' worth of something. -/
structure TwoLanes (α : Type) where
  zero : List α
  one : List α
deriving DecidableEq

def TwoLanes.lane {α : Type} (t : TwoLanes α) : Fin 2 → List α
  | 0 => t.zero
  | 1 => t.one

def lane0 : Fin 2 := ⟨0, Nat.two_pos⟩

def lane1 : Fin 2 := ⟨1, Nat.one_lt_two⟩

@[simp] theorem lane0_eq : lane0 = 0 := rfl

@[simp] theorem lane1_eq : lane1 = 1 := rfl

abbrev TwoQueuePhase := TwoLanes RecordedDispatch

/-- What the device and its runtime decide: whether an allocation succeeds, whether a launch's geometry is valid, whether the
packets of the phases can be encoded, and the range of queue sizes. -/
structure Device where
  allocate : Nat → Except GenericAqlError Unit
  geometry : KernelLaunch → Except GenericAqlError Unit
  checkPhases : List TwoQueuePhase → Except ReplayError Unit
  minQueueSize : Nat
  maxQueueSize : Nat

def u16Max : Nat := 65535

def checkBlock (block : Dim3) : Except GenericAqlError Unit :=
  if u16Max < block.x.toNat then .error (.blockDimensionTooLarge 0)
  else if u16Max < block.y.toNat then .error (.blockDimensionTooLarge 1)
  else if u16Max < block.z.toNat then .error (.blockDimensionTooLarge 2)
  else .ok ()

/-- Lower one dispatch, the `address`-th to get a buffer. -/
def lowerDispatch (device : Device) (kernels : AqlKernelCatalog) (b : ReplayBindings) (address : Nat) (d : PlannedDispatch) :
    Except GenericAqlError RecordedDispatch :=
  match kernels.lookup d.launch.kernel with
  | none => .error (.kernelNotRegistered d.launch.kernel)
  | some registered =>
    match d.launch.kernargAbi with
    | none => .error (.missingKernargAbi d.launch.kernel)
    | some abi =>
      if abi ≠ registered.abi then .error (.registeredAbiChanged d.launch.kernel)
      else match d.launch.artifactIdentity with
        | none => .error (.missingArtifactIdentity d.launch.kernel)
        | some identity =>
          if identity ≠ registered.identity then .error (.artifactIdentityChanged d.launch.kernel)
          else match device.allocate address with
            | .error e => .error e
            | .ok () =>
              match packKernarg d.launch.arguments abi b (replicate registered.kernargSize 0) with
              | (_, .error e) => .error e
              | (bytes, .ok ()) =>
                match checkBlock d.launch.block with
                | .error e => .error e
                | .ok () =>
                  match device.geometry d.launch with
                  | .error e => .error e
                  | .ok () => .ok ⟨d.lane, d.launch.kernel, d.launch.grid, d.launch.block, ⟨address, bytes⟩,
                      d.launch.dynamicSharedBytes⟩

def lowerAll (device : Device) (kernels : AqlKernelCatalog) (b : ReplayBindings) :
    Nat → List PlannedDispatch → Except GenericAqlError (List (PlannedDispatch × RecordedDispatch))
  | _, [] => .ok []
  | address, d :: ds =>
    match lowerDispatch device kernels b address d with
    | .error e => .error e
    | .ok recorded =>
      match lowerAll device kernels b (address + 1) ds with
      | .error e => .error e
      | .ok rest => .ok ((d, recorded) :: rest)

/-- The level of a dispatch: one more than the highest level it depends on. -/
def levelOf (levels : Nat → Nat) (d : PlannedDispatch) : Nat :=
  (d.dependencies.map (fun n => levels n.index + 1)).foldl max 0

def levelsOf (dispatches : List PlannedDispatch) : Nat → Nat :=
  dispatches.foldl (fun levels d => Function.update levels d.node.index (levelOf levels d)) (fun _ => 0)

def maxLevel (dispatches : List PlannedDispatch) : Nat :=
  (dispatches.map (fun d => levelsOf dispatches d.node.index)).foldl max 0

/-- What is pushed to one lane of one phase, in plan order. -/
def selectPhase {α : Type} (levels : Nat → Nat) (lowered : List (PlannedDispatch × α)) (phase lane : Nat) :
    List (PlannedDispatch × α) :=
  lowered.filter (fun x => decide (levels x.1.node.index = phase) && decide (x.1.lane = lane))

def phaseOf (levels : Nat → Nat) (lowered : List (PlannedDispatch × RecordedDispatch)) (phase : Nat) : TwoQueuePhase where
  zero := (selectPhase levels lowered phase 0).map Prod.snd
  one := (selectPhase levels lowered phase 1).map Prod.snd

def nodesOf (levels : Nat → Nat) (lowered : List (PlannedDispatch × RecordedDispatch)) (phase : Nat) : TwoLanes NodeId where
  zero := (selectPhase levels lowered phase 0).map (fun x => x.1.node)
  one := (selectPhase levels lowered phase 1).map (fun x => x.1.node)

/-- `lower_phases` of a two-lane plan: the phases, and the node of each of their dispatches. -/
def lowerPhases (device : Device) (plan : CompiledPlan) (b : ReplayBindings) (kernels : AqlKernelCatalog) :
    Except GenericAqlError (List TwoQueuePhase × List (TwoLanes NodeId)) :=
  if plan.dispatches = [] then .error .emptyPlan
  else match lowerAll device kernels b 0 plan.dispatches with
    | .error e => .error e
    | .ok lowered =>
      let levels := levelsOf plan.dispatches
      let count := maxLevel plan.dispatches + 1
      match (range count).find? (fun p => decide ((phaseOf levels lowered p).zero = [] ∨
          (phaseOf levels lowered p).one = [])) with
      | some phase => .error (.emptyPhaseLane phase)
      | none => .ok ((range count).map (phaseOf levels lowered), (range count).map (nodesOf levels lowered))

end Hipfire.Redline
