import Hipfire.Base.Checks
import Hipfire.Base.Graph
import Hipfire.Base.Lists
import Hipfire.Base.OrdSet
import Hipfire.Redline.Ir
/-!
# Recorder — building one dispatch DAG

`Recorder` records resources, dispatches and dependency edges; each call either extends it or refuses and leaves it as it
was.  `Recorder.WF` is what every recorder built by such calls satisfies (`wf_build`): a node's id is its position, every
edge joins recorded nodes, and the edges have no cycle, because `depends_on` refuses an edge whose dependent already
reaches its prerequisite.
-/
namespace Hipfire.Redline

open Relation (TransGen ReflTransGen)

structure Resource where
  label : String
  size : Nat
deriving DecidableEq, Repr

structure Node where
  id : NodeId
  launch : KernelLaunch
  accesses : List Access
deriving DecidableEq

/-- The mutable builder; `edges` are `(prerequisite, dependent)`, kept in order as the source's `BTreeSet` keeps them. -/
structure Recorder where
  owner : Nat
  resources : List Resource
  nodes : List Node
  edges : List (NodeId × NodeId)
deriving DecidableEq

def NodeId.lt (a b : NodeId) : Bool :=
  decide (a.owner < b.owner) || (decide (a.owner = b.owner) && decide (a.index < b.index))

def edgeLt (e f : NodeId × NodeId) : Bool := e.1.lt f.1 || (decide (e.1 = f.1) && e.2.lt f.2)

theorem NodeId.lt_iff (a b : NodeId) : a.lt b = true ↔ a.owner < b.owner ∨ (a.owner = b.owner ∧ a.index < b.index) := by
  simp [NodeId.lt]

theorem totalLt_node : TotalLt NodeId.lt where
  irrefl a := by simp [NodeId.lt]
  trans a b c := by simp only [NodeId.lt_iff]; omega
  tri a b h1 h2 := by
    have h1' : ¬ a.lt b = true := by simp [h1]
    have h2' : ¬ b.lt a = true := by simp [h2]
    rw [NodeId.lt_iff] at h1' h2'
    obtain ⟨bo, bi⟩ := b
    simp only at h1' h2'
    rw [NodeId.mk.injEq]; omega

theorem edgeLt_iff (e f : NodeId × NodeId) : edgeLt e f = true ↔ e.1.lt f.1 = true ∨ (e.1 = f.1 ∧ e.2.lt f.2 = true) := by
  simp [edgeLt]

theorem totalLt_edge : TotalLt edgeLt where
  irrefl e := by simp [edgeLt, totalLt_node.irrefl]
  trans e f g := by
    simp only [edgeLt_iff]
    rintro (h1 | ⟨h1, h1'⟩) (h2 | ⟨h2, h2'⟩)
    · exact .inl (totalLt_node.trans _ _ _ h1 h2)
    · exact .inl (h2 ▸ h1)
    · exact .inl (h1 ▸ h2)
    · exact .inr ⟨h1.trans h2, totalLt_node.trans _ _ _ h1' h2'⟩
  tri e f h1 h2 := by
    have h1' : ¬ edgeLt e f = true := by simp [h1]
    have h2' : ¬ edgeLt f e = true := by simp [h2]
    rw [edgeLt_iff] at h1' h2'
    have hfst : e.1 = f.1 := totalLt_node.tri _ _ (by simpa using fun h => h1' (.inl h)) (by
      simpa using fun h => h2' (.inl h))
    have hsnd : e.2 = f.2 := totalLt_node.tri _ _ (by simpa using fun h => h1' (.inr ⟨hfst, h⟩)) (by
      simpa using fun h => h2' (.inr ⟨hfst.symm, h⟩))
    exact Prod.ext hfst hsnd

/-! ## The calls -/

def Recorder.new (owner : Nat) : Recorder := ⟨owner, [], [], []⟩

/-- `resource`: the recorder with the resource added, and its id. -/
def Recorder.resource (r : Recorder) (label : String) (size : Nat) : Except RecordError (Recorder × ResourceId) :=
  if isBlank label then .error .emptyResourceLabel
  else if size = 0 then .error .emptyResource
  else if u32Max < r.resources.length then .error .tooManyResources
  else .ok ({ r with resources := r.resources ++ [⟨label, size⟩] }, ⟨r.owner, r.resources.length⟩)

def Recorder.resourceEntry (r : Recorder) (resource : ResourceId) : Except RecordError Resource :=
  if resource.owner ≠ r.owner then .error (.foreignResource resource)
  else match r.resources[resource.index]? with
    | some entry => .ok entry
    | none => .error (.unknownResource resource)

def Recorder.validateRegion (r : Recorder) (region : DeviceRegion) : Except RecordError Unit :=
  match r.resourceEntry region.resource with
  | .error e => .error e
  | .ok entry =>
    if entry.size < region.stop then
      .error (.regionOutOfBounds region.resource region.offset region.len entry.size)
    else .ok ()

/-- A resource argument is in bounds and covered by a declared access; a scalar slot is not empty. -/
def Recorder.validateArgument (r : Recorder) (accesses : List Access) : KernelArg → Except RecordError Unit
  | .resource resource byteOffset =>
    match r.resourceEntry resource with
    | .error e => .error e
    | .ok entry =>
      if entry.size ≤ byteOffset then .error (.resourceArgumentOutOfBounds resource byteOffset entry.size)
      else if accesses.any (fun a => decide (a.region.resource = resource) && decide (a.region.offset ≤ byteOffset) &&
          decide (byteOffset < a.region.stop)) then .ok ()
      else .error (.undeclaredResourceArgument resource byteOffset)
  | .scalarSlot slot size => if size = 0 then .error (.emptyScalarSlot slot) else .ok ()
  | .scalar _ => .ok ()

/-- `dispatch`: the recorder with the node added, and its id. -/
def Recorder.dispatch (r : Recorder) (launch : KernelLaunch) (accesses : List Access) :
    Except RecordError (Recorder × NodeId) :=
  match firstError (fun a : Access => r.validateRegion a.region) accesses with
  | .error e => .error e
  | .ok () =>
    match firstError (r.validateArgument accesses) launch.arguments with
    | .error e => .error e
    | .ok () =>
      if u32Max < r.nodes.length then .error .tooManyNodes
      else .ok ({ r with nodes := r.nodes ++ [⟨⟨r.owner, r.nodes.length⟩, launch, accesses⟩] },
        ⟨r.owner, r.nodes.length⟩)

def Recorder.validateNode (r : Recorder) (node : NodeId) : Except RecordError Unit :=
  if node.owner ≠ r.owner then .error (.foreignNode node)
  else if r.nodes.length ≤ node.index then .error (.unknownNode node)
  else .ok ()

/-- `path_exists`: a depth-first search along the recorded edges. -/
def Recorder.pathExists (r : Recorder) (start goal : NodeId) : Bool :=
  dfs r.edges goal (r.edges.length + 1) [start] []

/-- `depends_on`: make `node` wait for `prerequisite`; a cycle is refused. -/
def Recorder.dependsOn (r : Recorder) (node prerequisite : NodeId) : Except RecordError Recorder :=
  match r.validateNode node with
  | .error e => .error e
  | .ok () =>
    match r.validateNode prerequisite with
    | .error e => .error e
    | .ok () =>
      if node = prerequisite ∨ r.pathExists node prerequisite = true then
        .error (.dependencyCycle node prerequisite)
      else .ok { r with edges := ordInsert edgeLt (prerequisite, node) r.edges }

inductive RecorderOp where
  | resource (label : String) (size : Nat)
  | dispatch (launch : KernelLaunch) (accesses : List Access)
  | dependsOn (node prerequisite : NodeId)

/-- One call on a recorder; a refused call leaves it as it was. -/
def Recorder.apply (r : Recorder) : RecorderOp → Recorder
  | .resource label size =>
    match r.resource label size with
    | .ok (r', _) => r'
    | .error _ => r
  | .dispatch launch accesses =>
    match r.dispatch launch accesses with
    | .ok (r', _) => r'
    | .error _ => r
  | .dependsOn node prerequisite =>
    match r.dependsOn node prerequisite with
    | .ok r' => r'
    | .error _ => r

/-- The recorder that a sequence of calls builds. -/
def build (owner : Nat) (ops : List RecorderOp) : Recorder := ops.foldl Recorder.apply (Recorder.new owner)

/-! ## What every built recorder satisfies -/

def Recorder.Known (r : Recorder) (id : NodeId) : Prop := id.owner = r.owner ∧ id.index < r.nodes.length

structure Recorder.WF (r : Recorder) : Prop where
  ids : ∀ (i : Nat) (n : Node), r.nodes[i]? = some n → n.id = ⟨r.owner, i⟩
  known : ∀ e ∈ r.edges, r.Known e.1 ∧ r.Known e.2
  ordered : Increasing edgeLt r.edges
  acyclic : Acyclic r.edges
  few : r.nodes.length ≤ u32Max + 1

theorem wf_new (owner : Nat) : (Recorder.new owner).WF where
  ids i n h := by simp [Recorder.new] at h
  known e h := by simp [Recorder.new] at h
  ordered := List.Pairwise.nil
  acyclic := acyclic_nil
  few := Nat.zero_le _

theorem validateNode_ok {r : Recorder} {node : NodeId} (h : r.validateNode node = .ok ()) : r.Known node := by
  unfold Recorder.validateNode at h
  split at h
  · cases h
  split at h
  · cases h
  rename_i h1 h2
  exact ⟨by simpa using h1, by omega⟩

/-- **What an accepted `depends_on` checked.** -/
theorem dependsOn_ok {r r' : Recorder} {node prerequisite : NodeId} (h : r.dependsOn node prerequisite = .ok r') :
    r.Known node ∧ r.Known prerequisite ∧ ¬ ReflTransGen (Arc r.edges) node prerequisite ∧
      r' = { r with edges := ordInsert edgeLt (prerequisite, node) r.edges } := by
  unfold Recorder.dependsOn at h
  split at h
  · cases h
  rename_i hn
  split at h
  · cases h
  rename_i hp
  split at h
  · cases h
  rename_i hc
  refine ⟨validateNode_ok hn, validateNode_ok hp, fun hr => hc (.inr ?_), (Except.ok.inj h).symm⟩
  exact (dfs_iff r.edges node prerequisite).2 hr

/-- What a call can do to a recorder. -/
inductive Recorder.Applied (r : Recorder) : RecorderOp → Recorder → Prop
  | refused {op : RecorderOp} : r.Applied op r
  | resource {label : String} {size : Nat} (hfew : r.resources.length ≤ u32Max) :
    r.Applied (.resource label size) { r with resources := r.resources ++ [⟨label, size⟩] }
  | dispatch {launch : KernelLaunch} {accesses : List Access}
    (hargs : firstError (r.validateArgument accesses) launch.arguments = .ok ()) (hfew : r.nodes.length ≤ u32Max) :
    r.Applied (.dispatch launch accesses) { r with nodes := r.nodes ++ [⟨⟨r.owner, r.nodes.length⟩, launch, accesses⟩] }
  | dependsOn {node prerequisite : NodeId} (hn : r.Known node) (hp : r.Known prerequisite)
    (hpath : ¬ ReflTransGen (Arc r.edges) node prerequisite) :
    r.Applied (.dependsOn node prerequisite) { r with edges := ordInsert edgeLt (prerequisite, node) r.edges }

theorem Recorder.applied (r : Recorder) : ∀ op, r.Applied op (r.apply op)
  | .resource label size => by
    simp only [Recorder.apply, Recorder.resource]
    split
    · rename_i r' id h
      split at h
      · cases h
      split at h
      · cases h
      split at h
      · cases h
      rename_i hfew
      obtain ⟨rfl, -⟩ := Prod.mk.inj (Except.ok.inj h)
      exact .resource (Nat.le_of_not_lt hfew)
    · exact .refused
  | .dispatch launch accesses => by
    simp only [Recorder.apply, Recorder.dispatch]
    split
    · rename_i r' id h
      split at h
      · cases h
      split at h
      · cases h
      rename_i hargs
      split at h
      · cases h
      rename_i hfew
      obtain ⟨rfl, -⟩ := Prod.mk.inj (Except.ok.inj h)
      exact .dispatch hargs (Nat.le_of_not_lt hfew)
    · exact .refused
  | .dependsOn node prerequisite => by
    simp only [Recorder.apply]
    split
    · rename_i r' h
      obtain ⟨hn, hp, hpath, rfl⟩ := dependsOn_ok h
      exact .dependsOn hn hp hpath
    · exact .refused

theorem wf_apply {r r' : Recorder} {op : RecorderOp} (hr : r.WF) (h : r.Applied op r') : r'.WF := by
  cases h with
  | refused => exact hr
  | resource _ => exact ⟨hr.ids, hr.known, hr.ordered, hr.acyclic, hr.few⟩
  | dispatch _ hfew =>
    refine ⟨fun i n hi => ?_, fun e he => ?_, hr.ordered, hr.acyclic, ?_⟩
    · rcases getElem?_concat hi with hi | ⟨rfl, rfl⟩
      · exact hr.ids i n hi
      · rfl
    · have := hr.known e he
      simp only [Recorder.Known, List.length_append, List.length_singleton] at this ⊢
      omega
    · simp only [List.length_append, List.length_singleton]; omega
  | @dependsOn node prerequisite hn hp hpath =>
    have hmem := fun p => mem_ordInsert totalLt_edge (prerequisite, node) p r.edges
    refine ⟨hr.ids, fun e he => ?_, increasing_ordInsert totalLt_edge _ _ hr.ordered, acyclic_insert hr.acyclic hmem hpath,
      hr.few⟩
    rcases (hmem e).1 he with rfl | he
    · exact ⟨hp, hn⟩
    · exact hr.known e he

/-- **Every recorder built by calls is well formed**, whatever was refused on the way. -/
theorem wf_build (owner : Nat) (ops : List RecorderOp) : (build owner ops).WF :=
  List.foldlRecOn ops Recorder.apply (wf_new owner) fun r hr op _ => wf_apply hr (r.applied op)

end Hipfire.Redline
