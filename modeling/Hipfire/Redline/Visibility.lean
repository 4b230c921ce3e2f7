import Hipfire.Redline.Plan
/-!
# Visibility — packet headers derived from a plan (`visibility.rs`)

`deriveAqlVisibility` walks a plan's dispatches in order.  Per lane it keeps the *open epoch*: the packets that may still
run when the next one launches.  A packet gets the barrier bit if it depends on another lane, or is ordered after or
conflicts with a packet of its lane's open epoch; a barrier closes the epoch.  Fence scopes follow the read-after-write
conflicts and the boundaries.
-/
namespace Hipfire.Redline

inductive FenceScope where
  | none
  | agent
  | system
deriving DecidableEq, Repr

/-- The scope's value in a packet header. -/
def FenceScope.toNat : FenceScope → Nat
  | .none => 0
  | .agent => 1
  | .system => 2

/-- Barrier bit and fence scopes of a packet header (`redline-rocr`'s `packet.rs`). -/
structure HeaderPolicy where
  barrier : Bool
  acquire : FenceScope
  release : FenceScope
deriving DecidableEq, Repr

inductive EntryBoundary where
  | hostToAql
  | hipToAql
  | aqlToAql
deriving DecidableEq, Repr

inductive ExitBoundary where
  | aqlToHost
  | aqlToHip
  | aqlToAql
deriving DecidableEq, Repr

structure ApiBoundary where
  entry : EntryBoundary
  exit : ExitBoundary
deriving DecidableEq, Repr

inductive VisibilityReason where
  | entry (boundary : EntryBoundary)
  | rawProducer (consumer : NodeId) (overlap : DeviceRegion)
  | rawConsumer (producer : NodeId) (overlap : DeviceRegion)
  | exit (boundary : ExitBoundary)
deriving DecidableEq

inductive OrderReason where
  | orderedAfter (node : NodeId)
  | crossLaneDependency (node : NodeId)
  | memoryConflict (other : NodeId) (kind : HazardKind) (overlap : DeviceRegion)
deriving DecidableEq

/-- Why a dispatch does or does not wait for the packets before it in its queue. -/
inductive BarrierDecision where
  | required (reasons : List OrderReason)
  | elided (adjacentPredecessor : Option NodeId) (independentOfOpenEpoch : List NodeId)
deriving DecidableEq

def BarrierDecision.reasons : BarrierDecision → List OrderReason
  | .required reasons => reasons
  | .elided _ _ => []

/-- The dispatches of other lanes that the decision names. -/
def BarrierDecision.crossLane (decision : BarrierDecision) : List NodeId :=
  decision.reasons.filterMap (fun
    | .crossLaneDependency node => some node
    | _ => none)

structure DerivedDispatchPolicy where
  node : NodeId
  lane : Nat
  header : HeaderPolicy
  barrier : BarrierDecision
  acquireReasons : List VisibilityReason
  releaseReasons : List VisibilityReason
deriving DecidableEq

/-- The queue-local completion packet that a lane ends with. -/
structure LaneConsolidationPolicy where
  lane : Nat
  header : HeaderPolicy
  coveredNodes : List NodeId
deriving DecidableEq

structure TerminalVisibilityPolicy where
  header : HeaderPolicy
  lanes : List Nat
  reason : VisibilityReason
deriving DecidableEq

structure DerivedVisibilityPlan where
  boundary : ApiBoundary
  dispatches : List DerivedDispatchPolicy
  laneConsolidations : List LaneConsolidationPolicy
  terminal : TerminalVisibilityPolicy

inductive VisibilityError where
  | emptyPlan
  | unorderedConflict (first second : NodeId) (kind : HazardKind) (overlap : DeviceRegion)
deriving DecidableEq

def entryScope : EntryBoundary → FenceScope
  | .hostToAql | .hipToAql => .system
  | .aqlToAql => .agent

def exitScope : ExitBoundary → FenceScope
  | .aqlToHost | .aqlToHip => .system
  | .aqlToAql => .agent

def maxScope (left right : FenceScope) : FenceScope := if right.toNat ≤ left.toNat then left else right

/-- The plan's own closure: each dispatch, from the last, adds its row to the rows of its dependencies. -/
def dispatchReachability (dispatches : List PlannedDispatch) : Nat → Nat → Bool :=
  dispatches.foldr (fun d reachable =>
    d.dependencies.foldl (fun reachable dependency => orRow reachable dependency.index d.node.index) reachable)
    (fun _ _ => false)

def conflicts (first second : PlannedDispatch) : List (HazardKind × DeviceRegion) :=
  first.accesses.flatMap (fun a => second.accesses.filterMap (conflictOf a))

/-- Every conflict of a dispatch with a later one must be ordered; the first that is not is the error. -/
def validateOrderedConflicts (reachable : Nat → Nat → Bool) : List PlannedDispatch → Except VisibilityError Unit
  | [] => .ok ()
  | first :: rest =>
    match firstError (fun second : PlannedDispatch => firstError (fun c : HazardKind × DeviceRegion =>
        if reachable first.node.index second.node.index then .ok ()
        else .error (.unorderedConflict first.node second.node c.1 c.2)) (conflicts first second)) rest with
    | .error e => .error e
    | .ok () => validateOrderedConflicts reachable rest

/-- The regions that `first` writes and `second` reads, where `second` is ordered after `first`. -/
def rawConflicts (reachable : Nat → Nat → Bool) (first second : PlannedDispatch) : List DeviceRegion :=
  if reachable first.node.index second.node.index then
    (conflicts first second).filterMap (fun c => if c.1 = .readAfterWrite then some c.2 else none)
  else []

def releaseReasons (reachable : Nat → Nat → Bool) (d : PlannedDispatch) (later : List PlannedDispatch) :
    List VisibilityReason :=
  later.flatMap (fun second => (rawConflicts reachable d second).map (.rawProducer second.node))

def acquireReasons (reachable : Nat → Nat → Bool) (earlier : List PlannedDispatch) (d : PlannedDispatch) :
    List VisibilityReason :=
  earlier.flatMap (fun first => (rawConflicts reachable first d).map (.rawConsumer first.node))

/-- What the walk knows of one lane: its open epoch, the nodes placed on it, the last of them. -/
structure LaneWalk where
  epoch : List PlannedDispatch
  nodes : List NodeId
  previous : Option NodeId

def laneByNode (dispatches : List PlannedDispatch) : Nat → Nat :=
  dispatches.foldl (fun lanes d => Function.update lanes d.node.index d.lane) (fun _ => 0)

def pushUnique {α : Type} [DecidableEq α] (values : List α) (value : α) : List α :=
  if value ∈ values then values else values ++ [value]

/-- The reasons a dispatch has to wait, in the order they are pushed. -/
def orderCandidates (reachable : Nat → Nat → Bool) (laneOf : Nat → Nat) (epoch : List PlannedDispatch)
    (d : PlannedDispatch) : List OrderReason :=
  (d.dependencies.filter (fun n => decide (laneOf n.index ≠ d.lane))).map .crossLaneDependency ++
    epoch.flatMap (fun prior =>
      (if reachable prior.node.index d.node.index then [.orderedAfter prior.node] else []) ++
        (conflicts prior d).map (fun c => .memoryConflict prior.node c.1 c.2))

def orderReasons (reachable : Nat → Nat → Bool) (laneOf : Nat → Nat) (epoch : List PlannedDispatch)
    (d : PlannedDispatch) : List OrderReason :=
  (orderCandidates reachable laneOf epoch d).foldl pushUnique []

def agentIfAny (reasons : List VisibilityReason) : FenceScope := if reasons = [] then .none else .agent

/-- The policy of one dispatch. -/
def dispatchPolicy (reachable : Nat → Nat → Bool) (laneOf : Nat → Nat) (entry : EntryBoundary)
    (earlier later : List PlannedDispatch) (walk : LaneWalk) (d : PlannedDispatch) : DerivedDispatchPolicy :=
  let reasons := orderReasons reachable laneOf walk.epoch d
  let acquired := acquireReasons reachable earlier d
  let released := releaseReasons reachable d later
  { node := d.node
    lane := d.lane
    header :=
      { barrier := !reasons.isEmpty
        acquire := if walk.nodes = [] then maxScope (agentIfAny acquired) (entryScope entry) else agentIfAny acquired
        release := agentIfAny released }
    barrier := if reasons = [] then .elided walk.previous (walk.epoch.map PlannedDispatch.node) else .required reasons
    acquireReasons := if walk.nodes = [] then .entry entry :: acquired else acquired
    releaseReasons := released }

def LaneWalk.push (walk : LaneWalk) (barrier : Bool) (d : PlannedDispatch) : LaneWalk where
  epoch := (if barrier then [] else walk.epoch) ++ [d]
  nodes := walk.nodes ++ [d.node]
  previous := some d.node

/-- The walk over the dispatches, with those before and what is known of each lane. -/
def deriveLoop (reachable : Nat → Nat → Bool) (laneOf : Nat → Nat) (entry : EntryBoundary) :
    List PlannedDispatch → List PlannedDispatch → (Nat → LaneWalk) → List DerivedDispatchPolicy × (Nat → LaneWalk)
  | _, [], lanes => ([], lanes)
  | earlier, d :: rest, lanes =>
    let policy := dispatchPolicy reachable laneOf entry earlier rest (lanes d.lane) d
    let (policies, lanes') := deriveLoop reachable laneOf entry (earlier ++ [d]) rest
      (Function.update lanes d.lane ((lanes d.lane).push policy.header.barrier d))
    (policy :: policies, lanes')

def consolidation (lane : Nat) (walk : LaneWalk) : Option LaneConsolidationPolicy :=
  if walk.nodes = [] then none else some ⟨lane, ⟨true, .none, .none⟩, walk.nodes⟩

/-- `derive_aql_visibility`. -/
def deriveAqlVisibility (plan : CompiledPlan) (boundary : ApiBoundary) : Except VisibilityError DerivedVisibilityPlan :=
  if plan.dispatches = [] then .error .emptyPlan
  else
    let reachable := dispatchReachability plan.dispatches
    match validateOrderedConflicts reachable plan.dispatches with
    | .error e => .error e
    | .ok () =>
      let (policies, lanes) := deriveLoop reachable (laneByNode plan.dispatches) boundary.entry [] plan.dispatches
        (fun _ => ⟨[], [], none⟩)
      let consolidations := (List.range plan.laneCount).filterMap (fun lane => consolidation lane (lanes lane))
      .ok
        { boundary
          dispatches := policies
          laneConsolidations := consolidations
          terminal :=
            { header := ⟨true, .none, exitScope boundary.exit⟩
              lanes := consolidations.map LaneConsolidationPolicy.lane
              reason := .exit boundary.exit } }

end Hipfire.Redline
