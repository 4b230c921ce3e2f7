import Hipfire.Redline.Visibility
/-!
# Bindings — replay-time addresses and scalars, and the stamp of a prepared plan (`bindings.rs`)

`ReplayBindings.validate` checks bindings against a plan; `PreparedPlanStamp` remembers what a plan was prepared with and
says whether later bindings may be patched in.
-/
namespace Hipfire.Redline

inductive AllocationPolicy where
  | hipCoarse
  | hsaCoarse
  | hsaFine
  | uncached
  | external
deriving DecidableEq, Repr

def AllocationPolicy.tag : AllocationPolicy → UInt8
  | .hipCoarse => 0
  | .hsaCoarse => 1
  | .hsaFine => 2
  | .uncached => 3
  | .external => 4

inductive ReplayBindingError where
  | nullResourcePointer
  | emptyResourceBinding
  | resourceAddressOverflow (size : Nat)
  | resourceNotBound (resource : ResourceId)
  | resourceTooSmall (resource : ResourceId) (required bound : Nat)
  | aliasingResources (first second : ResourceId)
  | scalarNotBound (slot : ScalarSlotId)
  | scalarSize (slot : ScalarSlotId) (expected actual : Nat)
deriving DecidableEq

/-- An allocation bound to a resource: not null, not empty, inside the address space. -/
structure ResourceBinding where
  base : Nat
  size : Nat
  revision : Nat
  policy : AllocationPolicy
  nonnull : 0 < base
  nonempty : 0 < size
  fits : base + size ≤ u64Max

structure ReplayBindings where
  resource : ResourceId → Option ResourceBinding
  scalar : ScalarSlotId → Option (List UInt8)

def ReplayBindings.new : ReplayBindings := ⟨fun _ => none, fun _ => none⟩

/-- Insert into a map kept in key order; an old value is replaced. -/
def mapInsert {κ ν : Type} (lt : κ → κ → Bool) (k : κ) (v : ν) : List (κ × ν) → List (κ × ν)
  | [] => [(k, v)]
  | p :: ps => if lt k p.1 then (k, v) :: p :: ps else if lt p.1 k then p :: mapInsert lt k v ps else (k, v) :: ps

/-- `scalar_slots`: the slots of a plan with their sizes, in slot order. -/
def CompiledPlan.scalarSlots (plan : CompiledPlan) : List (ScalarSlotId × Nat) :=
  plan.dispatches.foldl (fun slots d => d.launch.arguments.foldl (fun slots argument =>
    match argument with
    | .scalarSlot slot size => mapInsert (fun a b => decide (a < b)) slot size slots
    | _ => slots) slots) []

/-- `artifact_identities`: the kernels of a plan with their artifacts, in key order. -/
def CompiledPlan.artifactIdentities (plan : CompiledPlan) : List (String × KernelArtifactIdentity) :=
  plan.dispatches.foldl (fun artifacts d =>
    match d.launch.artifactIdentity with
    | some identity => mapInsert (fun a b => decide (a < b)) d.launch.kernel identity artifacts
    | none => artifacts) []

/-! ## Validation -/

def ReplayBindings.checkResource (b : ReplayBindings) (planned : PlannedResource) : Except ReplayBindingError Unit :=
  match b.resource planned.id with
  | none => .error (.resourceNotBound planned.id)
  | some binding =>
    if binding.size < planned.size then .error (.resourceTooSmall planned.id planned.size binding.size) else .ok ()

def ReplayBindings.checkScalar (b : ReplayBindings) (slot : ScalarSlotId × Nat) : Except ReplayBindingError Unit :=
  match b.scalar slot.1 with
  | none => .error (.scalarNotBound slot.1)
  | some bytes => if bytes.length = slot.2 then .ok () else .error (.scalarSize slot.1 slot.2 bytes.length)

def ReplayBindings.checkApart (b : ReplayBindings) (first second : PlannedResource) : Except ReplayBindingError Unit :=
  match b.resource first.id, b.resource second.id with
  | some f, some s =>
    if f.base < s.base + s.size ∧ s.base < f.base + f.size then .error (.aliasingResources first.id second.id) else .ok ()
  | _, _ => .ok ()

def ReplayBindings.checkAliasing (b : ReplayBindings) : List PlannedResource → Except ReplayBindingError Unit
  | [] => .ok ()
  | first :: rest =>
    match firstError (b.checkApart first) rest with
    | .error e => .error e
    | .ok () => b.checkAliasing rest

def ReplayBindings.validate (b : ReplayBindings) (plan : CompiledPlan) : Except ReplayBindingError Unit :=
  match firstError b.checkResource plan.resources with
  | .error e => .error e
  | .ok () =>
    match firstError b.checkScalar plan.scalarSlots with
    | .error e => .error e
    | .ok () => b.checkAliasing plan.resources

/-- `layout_fingerprint`, given the SHA-256 function. -/
def ReplayBindings.layoutFingerprint (sha256 : List UInt8 → Digest) (b : ReplayBindings) (plan : CompiledPlan) :
    Except ReplayBindingError Digest :=
  match b.validate plan with
  | .error e => .error e
  | .ok () => .ok (sha256 (textBytes "redline-binding-layout-v1" ++ [0] ++ putU64 plan.resources.length ++
      plan.resources.flatMap (fun p => putU32 p.id.index ++ putU64 p.size ++
        [match b.resource p.id with | some binding => binding.policy.tag | none => 0]) ++
      plan.scalarSlots.flatMap (fun s => putU32 s.1 ++ putU32 s.2)))

/-! ## Stamps -/

inductive PreparedPlanState where
  | current
  | needsRebind (resources : List ResourceId)
deriving DecidableEq

inductive PreparedPlanInvalidation where
  | planChanged (prepared current : Digest)
  | bindings (error : ReplayBindingError)
  | bindingLayoutChanged (prepared current : Digest)
  | artifactMissing (kernel : String)
  | artifactChanged (kernel : String) (prepared current : KernelArtifactIdentity)
deriving DecidableEq

structure PreparedPlanStamp where
  plan : Digest
  bindingLayout : Digest
  resourceRevisions : List (Nat × Option Nat)
  artifacts : List (String × KernelArtifactIdentity)

def ReplayBindings.revision (b : ReplayBindings) (id : ResourceId) : Option Nat := (b.resource id).map ResourceBinding.revision

def PreparedPlanStamp.capture (sha256 : List UInt8 → Digest) (plan : CompiledPlan) (b : ReplayBindings) :
    Except ReplayBindingError PreparedPlanStamp :=
  match b.layoutFingerprint sha256 plan with
  | .error e => .error e
  | .ok layout => .ok
    { plan := plan.fingerprint
      bindingLayout := layout
      resourceRevisions := plan.resources.map (fun p => (p.id.index, b.revision p.id))
      artifacts := plan.artifactIdentities }

def checkArtifact (artifacts : String → Option KernelArtifactIdentity) (expected : String × KernelArtifactIdentity) :
    Except PreparedPlanInvalidation Unit :=
  match artifacts expected.1 with
  | none => .error (.artifactMissing expected.1)
  | some current => if expected.2 = current then .ok () else .error (.artifactChanged expected.1 expected.2 current)

/-- `PreparedPlanStamp::validate`, against the artifacts registered now. -/
def PreparedPlanStamp.validate (sha256 : List UInt8 → Digest) (stamp : PreparedPlanStamp) (plan : CompiledPlan)
    (b : ReplayBindings) (artifacts : String → Option KernelArtifactIdentity) :
    Except PreparedPlanInvalidation PreparedPlanState :=
  if stamp.plan ≠ plan.fingerprint then .error (.planChanged stamp.plan plan.fingerprint)
  else match b.layoutFingerprint sha256 plan with
    | .error e => .error (.bindings e)
    | .ok layout =>
      if stamp.bindingLayout ≠ layout then .error (.bindingLayoutChanged stamp.bindingLayout layout)
      else match firstError (checkArtifact artifacts) stamp.artifacts with
        | .error e => .error e
        | .ok () =>
          let changed := (plan.resources.filter (fun p =>
            decide (stamp.resourceRevisions.lookup p.id.index ≠ some (b.revision p.id)))).map PlannedResource.id
          if changed = [] then .ok .current else .ok (.needsRebind changed)

end Hipfire.Redline
