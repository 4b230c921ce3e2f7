import Hipfire.Base.Codec
import Hipfire.Redline.Fences
import Hipfire.Redline.Replay
/-!
# Fingerprint — the bytes a plan is known by

The text hashed for a plan's fingerprint determines what a replay of the plan does (`PlanContent`), and is determined by it:
its parts have a fixed width, a tag, or a count before them, so no part runs into the next.  Widths are those of the source's
types, which `Typed` lists.
-/
namespace Hipfire.Redline

open Codec List

/-! ## What a replay depends on -/

inductive ArgumentContent where
  | scalar (bytes : List UInt8)
  | scalarSlot (slot size : Nat)
  | resource (index byteOffset : Nat)
deriving DecidableEq

structure AccessContent where
  mode : AccessMode
  resource : Nat
  offset : Nat
  len : Nat
deriving DecidableEq

/-- A dispatch without the identity of its recorder and without the estimated times. -/
structure DispatchContent where
  node : Nat
  lane : Nat
  kernel : String
  grid : Dim3
  block : Dim3
  dynamicSharedBytes : Nat
  estimatedWork : Nat
  abiHash : Option Digest
  artifactIdentity : Option KernelArtifactIdentity
  arguments : List ArgumentContent
  accesses : List AccessContent
  dependencies : List Nat
deriving DecidableEq

structure PlanContent where
  laneCount : Nat
  replayMode : ReplayMode
  resources : List (String × Nat)
  dispatches : List DispatchContent
  terminals : List Nat
deriving DecidableEq

def KernelArg.content : KernelArg → ArgumentContent
  | .scalar bytes => .scalar bytes
  | .scalarSlot slot size => .scalarSlot slot size
  | .resource target byteOffset => .resource target.index byteOffset

def Access.content (a : Access) : AccessContent := ⟨a.mode, a.region.resource.index, a.region.offset, a.region.len⟩

def PlannedDispatch.content (d : PlannedDispatch) : DispatchContent where
  node := d.node.index
  lane := d.lane
  kernel := d.launch.kernel
  grid := d.launch.grid
  block := d.launch.block
  dynamicSharedBytes := d.launch.dynamicSharedBytes
  estimatedWork := d.launch.estimatedWork
  abiHash := d.launch.kernargAbi.map KernargAbi.hash
  artifactIdentity := d.launch.artifactIdentity
  arguments := d.launch.arguments.map KernelArg.content
  accesses := d.accesses.map Access.content
  dependencies := d.dependencies.map NodeId.index

def CompiledPlan.content (plan : CompiledPlan) : PlanContent where
  laneCount := plan.laneCount
  replayMode := plan.replayMode
  resources := plan.resources.map (fun p => (p.label, p.size))
  dispatches := plan.dispatches.map PlannedDispatch.content
  terminals := plan.terminals.map NodeId.index

/-! ## Widths -/

/-- Bytes of a `String` or a `Vec<u8>`. -/
def TypedBytes (bytes : List UInt8) : Prop := bytes.length ≤ u64Max

def KernelArg.Typed : KernelArg → Prop
  | .scalar bytes => TypedBytes bytes
  | .scalarSlot slot size => slot ≤ u32Max ∧ size ≤ u32Max
  | .resource target byteOffset => target.index ≤ u32Max ∧ byteOffset ≤ u64Max

structure KernelArtifactIdentity.Typed (identity : KernelArtifactIdentity) : Prop where
  codeObject : identity.codeObject.length = 32
  symbolText : identity.symbolText.length = 32
  generation : identity.generation ≤ u64Max

structure KernelLaunch.Typed (launch : KernelLaunch) : Prop where
  kernel : TypedBytes (textBytes launch.kernel)
  dynamicSharedBytes : launch.dynamicSharedBytes ≤ u32Max
  estimatedWork : launch.estimatedWork ≤ u32Max
  abiHash : ∀ abi, launch.kernargAbi = some abi → abi.hash.length = 32
  identity : ∀ identity, launch.artifactIdentity = some identity → identity.Typed
  argumentCount : launch.arguments.length ≤ u64Max
  arguments : ∀ a ∈ launch.arguments, a.Typed

/-- The values of a call's arguments have the widths of their types. -/
def RecorderOp.Typed : RecorderOp → Prop
  | .resource label size => TypedBytes (textBytes label) ∧ size ≤ u64Max
  | .dispatch launch accesses =>
    launch.Typed ∧ accesses.length ≤ u64Max ∧ ∀ a ∈ accesses, a.region.resource.index ≤ u32Max
  | .dependsOn _ _ => True

def ReplayMode.Typed : ReplayMode → Prop
  | .tokenLatency => True
  | .throughput maxTokensInFlight _ => maxTokensInFlight ≤ u64Max

structure CompileOptions.Typed (options : CompileOptions) : Prop where
  laneCount : options.laneCount ≤ u64Max
  replayMode : options.replayMode.Typed

/-! ## The parts of the text -/

theorem tells_putU32 : Tells (· ≤ u32Max) putU32 id :=
  tells_of_length 4 (fun n _ => length_leBytes 4 n) (fun n m hn hm h =>
    leBytes_inj (show n < 4294967296 by unfold u32Max at hn; omega) (show m < 4294967296 by unfold u32Max at hm; omega) h)

theorem tells_putU64 : Tells (· ≤ u64Max) putU64 id :=
  tells_of_length 8 (fun n _ => length_leBytes 8 n) (fun n m hn hm h =>
    leBytes_inj (show n < 18446744073709551616 by unfold u64Max at hn; omega)
      (show m < 18446744073709551616 by unfold u64Max at hm; omega) h)

theorem tells_digest : Tells (fun digest : Digest => digest.length = 32) id id :=
  tells_of_length 32 (fun _ h => h) (fun _ _ _ _ h => h)

theorem tells_putBytes : Tells TypedBytes putBytes id := by
  intro a b s t ha hb h
  obtain ⟨hlen, h⟩ := tells_putU64 _ _ _ _ ha hb h
  exact append_inj h hlen

theorem tells_putText : Tells (fun text => TypedBytes (textBytes text)) (fun text => putBytes (textBytes text)) id :=
  fun _ _ s t ha hb h => (tells_putBytes _ _ s t ha hb h).imp textBytes_inj id

theorem tells_putDim3 : Tells (fun _ => True) putDim3 id := by
  refine tells_of_length 12 (fun d _ => by simp [putDim3, putU32, length_leBytes]) (fun a b _ _ h => ?_)
  have hw : ∀ x : UInt32, x.toNat ≤ u32Max := fun x => Nat.le_of_lt_succ x.toNat_lt
  obtain ⟨hx, h⟩ := tells_putU32 _ _ _ _ (hw a.x) (hw b.x) h
  obtain ⟨hy, h⟩ := tells_putU32 _ _ _ _ (hw a.y) (hw b.y) h
  have hz := tells_putU32.key_eq (hw a.z) (hw b.z) h
  rw [id, id, Dim3.mk.injEq]
  exact ⟨UInt32.toNat_inj.1 hx, UInt32.toNat_inj.1 hy, UInt32.toNat_inj.1 hz⟩

theorem tells_putArgument : Tells KernelArg.Typed putArgument KernelArg.content := by
  intro a b s t ha hb h
  -- arguments of two kinds differ in their tags
  cases a <;> cases b <;> try exact absurd (cons.inj h).1 (by decide)
  case scalar =>
    obtain ⟨h1, h⟩ := tells_putBytes _ _ _ _ ha hb (cons.inj h).2
    exact ⟨congrArg ArgumentContent.scalar h1, h⟩
  case scalarSlot =>
    have h := (cons.inj h).2
    obtain ⟨h1, h⟩ := tells_putU32 _ _ _ _ ha.1 hb.1 h
    obtain ⟨h2, h⟩ := tells_putU32 _ _ _ _ ha.2 hb.2 h
    exact ⟨congrArg₂ ArgumentContent.scalarSlot h1 h2, h⟩
  case resource =>
    have h := (cons.inj h).2
    obtain ⟨h1, h⟩ := tells_putU32 _ _ _ _ ha.1 hb.1 h
    obtain ⟨h2, h⟩ := tells_putU64 _ _ _ _ ha.2 hb.2 h
    exact ⟨congrArg₂ ArgumentContent.resource h1 h2, h⟩

theorem tells_putAccess : Tells (fun a : Access => a.region.resource.index ≤ u32Max) putAccess Access.content := by
  intro a b s t ha hb h
  have hfits : ∀ c : Access, c.region.offset ≤ u64Max ∧ c.region.len ≤ u64Max := fun c => by
    have := c.region.fits
    omega
  obtain ⟨htag, h⟩ := cons.inj h
  have hmode : a.mode = b.mode := by
    cases hma : a.mode <;> cases hmb : b.mode <;> rw [hma, hmb] at htag <;> first | rfl | exact absurd htag (by decide)
  obtain ⟨h1, h⟩ := tells_putU32 _ _ _ _ ha hb h
  obtain ⟨h2, h⟩ := tells_putU64 _ _ _ _ (hfits a).1 (hfits b).1 h
  obtain ⟨h3, h⟩ := tells_putU64 _ _ _ _ (hfits a).2 (hfits b).2 h
  refine ⟨?_, h⟩
  rw [AccessContent.mk.injEq]
  exact ⟨hmode, h1, h2, h3⟩

theorem tells_putAbi : Tells (fun abi : Option KernargAbi => ∀ x, abi = some x → x.hash.length = 32) putAbi
    (Option.map KernargAbi.hash) := by
  intro a b s t ha hb h
  cases a <;> cases b <;> try exact absurd (cons.inj h).1 (by decide)
  case none => exact ⟨rfl, (cons.inj h).2⟩
  case some x y =>
    obtain ⟨h1, h⟩ := tells_digest _ _ _ _ (ha x rfl) (hb y rfl) (cons.inj h).2
    exact ⟨congrArg some h1, h⟩

theorem tells_putIdentity : Tells (fun identity : Option KernelArtifactIdentity => ∀ x, identity = some x → x.Typed)
    putIdentity id := by
  intro a b s t ha hb h
  cases a <;> cases b <;> try exact absurd (cons.inj h).1 (by decide)
  case none => exact ⟨rfl, (cons.inj h).2⟩
  case some x y =>
    have h := (cons.inj h).2
    rw [append_eq, append_eq, append_assoc, append_assoc, append_assoc, append_assoc] at h
    obtain ⟨h1, h⟩ := tells_digest _ _ _ _ (ha x rfl).codeObject (hb y rfl).codeObject h
    obtain ⟨h2, h⟩ := tells_digest _ _ _ _ (ha x rfl).symbolText (hb y rfl).symbolText h
    obtain ⟨h3, h⟩ := tells_putU64 _ _ _ _ (ha x rfl).generation (hb y rfl).generation h
    refine ⟨congrArg some ?_, h⟩
    rw [KernelArtifactIdentity.mk.injEq]
    exact ⟨h1, h2, h3⟩

theorem tells_putMode : Tells ReplayMode.Typed putMode id := by
  intro a b s t ha hb h
  cases a <;> cases b <;> try exact absurd (cons.inj h).1 (by decide)
  case tokenLatency => exact ⟨rfl, (cons.inj h).2⟩
  case throughput =>
    obtain ⟨hn, hs⟩ := tells_putU64 _ _ _ _ ha hb (cons.inj h).2
    cases hn
    exact ⟨rfl, hs⟩

/-! ## The text -/

/-- The numbers of a dispatch have their widths. -/
structure PlannedDispatch.Typed (d : PlannedDispatch) : Prop where
  node : d.node.index ≤ u32Max
  lane : d.lane ≤ u64Max
  launch : d.launch.Typed
  accessCount : d.accesses.length ≤ u64Max
  accesses : ∀ a ∈ d.accesses, a.region.resource.index ≤ u32Max
  dependencyCount : d.dependencies.length ≤ u64Max
  dependencies : ∀ n ∈ d.dependencies, n.index ≤ u32Max

theorem tells_putNode : Tells (fun n : NodeId => n.index ≤ u32Max) (fun n => putU32 n.index) NodeId.index :=
  fun a b s t ha hb h => tells_putU32 a.index b.index s t ha hb h

theorem tells_putDispatch : Tells PlannedDispatch.Typed putDispatch PlannedDispatch.content := by
  intro a b s t ha hb h
  simp only [putDispatch, append_assoc] at h
  obtain ⟨hnode, h⟩ := tells_putU32 _ _ _ _ ha.node hb.node h
  obtain ⟨hlane, h⟩ := tells_putU64 _ _ _ _ ha.lane hb.lane h
  obtain ⟨hkernel, h⟩ := tells_putText _ _ _ _ ha.launch.kernel hb.launch.kernel h
  obtain ⟨hgrid, h⟩ := tells_putDim3 _ _ _ _ trivial trivial h
  obtain ⟨hblock, h⟩ := tells_putDim3 _ _ _ _ trivial trivial h
  obtain ⟨hshared, h⟩ := tells_putU32 _ _ _ _ ha.launch.dynamicSharedBytes hb.launch.dynamicSharedBytes h
  obtain ⟨hwork, h⟩ := tells_putU32 _ _ _ _ ha.launch.estimatedWork hb.launch.estimatedWork h
  obtain ⟨habi, h⟩ := tells_putAbi _ _ _ _ ha.launch.abiHash hb.launch.abiHash h
  obtain ⟨hidentity, h⟩ := tells_putIdentity _ _ _ _ ha.launch.identity hb.launch.identity h
  obtain ⟨hargs, h⟩ := tells_putArgument.counted tells_putU64 ha.launch.argumentCount hb.launch.argumentCount
    ha.launch.arguments hb.launch.arguments h
  obtain ⟨haccesses, h⟩ := tells_putAccess.counted tells_putU64 ha.accessCount hb.accessCount ha.accesses hb.accesses h
  obtain ⟨hdeps, h⟩ := tells_putNode.counted tells_putU64 ha.dependencyCount hb.dependencyCount ha.dependencies
    hb.dependencies h
  refine ⟨?_, h⟩
  rw [DispatchContent.mk.injEq]
  exact ⟨hnode, hlane, hkernel, hgrid, hblock, hshared, hwork, habi, hidentity, hargs, haccesses, hdeps⟩

def putResource (p : PlannedResource) : List UInt8 := putU32 p.id.index ++ putBytes (textBytes p.label) ++ putU64 p.size

structure PlannedResource.Typed (p : PlannedResource) : Prop where
  index : p.id.index ≤ u32Max
  label : TypedBytes (textBytes p.label)
  size : p.size ≤ u64Max

theorem tells_putResource : Tells PlannedResource.Typed putResource (fun p => (p.label, p.size)) := by
  intro a b s t ha hb h
  simp only [putResource, append_assoc] at h
  obtain ⟨-, h⟩ := tells_putU32 _ _ _ _ ha.index hb.index h
  obtain ⟨hlabel, h⟩ := tells_putText _ _ _ _ ha.label hb.label h
  obtain ⟨hsize, h⟩ := tells_putU64 _ _ _ _ ha.size hb.size h
  exact ⟨Prod.ext hlabel hsize, h⟩

/-- The numbers of a plan have their widths, and its resources are numbered in order. -/
structure CompiledPlan.Typed (plan : CompiledPlan) : Prop where
  laneCount : plan.laneCount ≤ u64Max
  replayMode : plan.replayMode.Typed
  resourceCount : plan.resources.length ≤ u64Max
  resources : ∀ p ∈ plan.resources, p.Typed
  numbered : plan.resources.map (fun p => p.id.index) = range plan.resources.length
  dispatchCount : plan.dispatches.length ≤ u64Max
  dispatches : ∀ d ∈ plan.dispatches, d.Typed
  terminalCount : plan.terminals.length ≤ u64Max
  terminals : ∀ n ∈ plan.terminals, n.index ≤ u32Max

/-- **The text of a plan tells its content.** -/
theorem tells_fingerprintBytes : Tells CompiledPlan.Typed fingerprintBytes CompiledPlan.content := by
  intro a b s t ha hb h
  simp only [fingerprintBytes, append_assoc] at h
  replace h := append_cancel_left (append_cancel_left h)
  obtain ⟨hlanes, h⟩ := tells_putU64 _ _ _ _ ha.laneCount hb.laneCount h
  obtain ⟨hmode, h⟩ := tells_putMode _ _ _ _ ha.replayMode hb.replayMode h
  obtain ⟨hresources, h⟩ := tells_putResource.counted tells_putU64 ha.resourceCount hb.resourceCount ha.resources
    hb.resources h
  obtain ⟨hdispatches, h⟩ := tells_putDispatch.counted tells_putU64 ha.dispatchCount hb.dispatchCount ha.dispatches
    hb.dispatches h
  obtain ⟨hterminals, h⟩ := tells_putNode.counted tells_putU64 ha.terminalCount hb.terminalCount ha.terminals hb.terminals h
  refine ⟨?_, h⟩
  rw [PlanContent.mk.injEq]
  exact ⟨hlanes, hmode, hresources, hdispatches, hterminals⟩

/-! ## The content says what the text is -/

theorem putArgument_of_content : ∀ a b : KernelArg, a.content = b.content → putArgument a = putArgument b
  | .scalar _, .scalar _, h => by cases h; rfl
  | .scalarSlot _ _, .scalarSlot _ _, h => by cases h; rfl
  | .resource resource _, .resource resource' _, h => by
    obtain ⟨hindex, rfl⟩ := ArgumentContent.resource.inj h
    change 2 :: (putU32 resource.index ++ _) = 2 :: (putU32 resource'.index ++ _)
    rw [hindex]

theorem putAccess_of_content (a b : Access) (h : a.content = b.content) : putAccess a = putAccess b := by
  obtain ⟨hmode, hresource, hoffset, hlen⟩ := AccessContent.mk.inj h
  unfold putAccess
  rw [hmode, hresource, hoffset, hlen]

theorem putAbi_of_hash : ∀ {a b : Option KernargAbi}, a.map KernargAbi.hash = b.map KernargAbi.hash → putAbi a = putAbi b
  | none, none, _ => rfl
  | some _, some _, h => congrArg (cons 1) (Option.some.inj h)

theorem length_eq_of_map_eq {α β : Type} {f : α → β} {l l' : List α} (h : l.map f = l'.map f) : l.length = l'.length := by
  rw [← length_map f, h, length_map]

theorem putDispatch_of_content (a b : PlannedDispatch) (h : a.content = b.content) : putDispatch a = putDispatch b := by
  obtain ⟨hnode, hlane, hkernel, hgrid, hblock, hshared, hwork, habi, hidentity, hargs, haccesses, hdeps⟩ :=
    DispatchContent.mk.inj h
  unfold putDispatch
  rw [hnode, hlane, hkernel, hgrid, hblock, hshared, hwork, putAbi_of_hash habi, hidentity, length_eq_of_map_eq hargs,
    flatMap_eq_of_map_eq putArgument_of_content hargs, length_eq_of_map_eq haccesses,
    flatMap_eq_of_map_eq putAccess_of_content haccesses, length_eq_of_map_eq hdeps,
    flatMap_eq_of_map_eq (fun a b (hab : a.index = b.index) => congrArg putU32 hab) hdeps]

/-- **Plans of one content have one text.** -/
theorem fingerprintBytes_of_content {a b : CompiledPlan} (ha : a.Typed) (hb : b.Typed) (h : a.content = b.content) :
    fingerprintBytes a = fingerprintBytes b := by
  obtain ⟨hlanes, hmode, hresources, hdispatches, hterminals⟩ := PlanContent.mk.inj h
  have hcount := length_eq_of_map_eq hresources
  -- the numbers of the resources are their places
  have hnumbered : a.resources.map (fun p => (p.id.index, p.label, p.size)) =
      b.resources.map (fun p => (p.id.index, p.label, p.size)) := by
    have hzip : ∀ l : List PlannedResource, l.map (fun p => (p.id.index, p.label, p.size)) =
        (l.map (fun p => p.id.index)).zip (l.map (fun p => (p.label, p.size))) := fun l => zip_map'.symm
    rw [hzip, hzip, ha.numbered, hb.numbered, hcount, hresources]
  have hbytes : a.resources.flatMap putResource = b.resources.flatMap putResource := by
    refine flatMap_eq_of_map_eq (fun p q hpq => ?_) hnumbered
    obtain ⟨hindex, hrest⟩ := Prod.mk.inj hpq
    obtain ⟨hlabel, hsize⟩ := Prod.mk.inj hrest
    unfold putResource
    rw [hindex, hlabel, hsize]
  change _ ++ _ ++ _ ++ _ ++ _ ++ a.resources.flatMap putResource ++ _ ++ _ ++ _ ++ _ =
    _ ++ _ ++ _ ++ _ ++ _ ++ b.resources.flatMap putResource ++ _ ++ _ ++ _ ++ _
  rw [hlanes, hmode, hcount, hbytes, length_eq_of_map_eq hdispatches, flatMap_eq_of_map_eq putDispatch_of_content hdispatches,
    length_eq_of_map_eq hterminals,
    flatMap_eq_of_map_eq (fun a b (hab : a.index = b.index) => congrArg putU32 hab) hterminals]

/-! ## Compiled plans -/

/-- What was recorded has the widths of its types. -/
structure Recorder.Typed (r : Recorder) : Prop where
  launches : ∀ n ∈ r.nodes, n.launch.Typed
  accesses : ∀ n ∈ r.nodes, n.accesses.length ≤ u64Max ∧ ∀ a ∈ n.accesses, a.region.resource.index ≤ u32Max
  resources : ∀ x ∈ r.resources, TypedBytes (textBytes x.label) ∧ x.size ≤ u64Max
  few : r.resources.length ≤ u32Max + 1

theorem Recorder.Typed.apply {r r' : Recorder} {op : RecorderOp} (hr : r.Typed) (hop : op.Typed) (h : r.Applied op r') :
    r'.Typed := by
  cases h with
  | refused => exact hr
  | resource hfew =>
    refine ⟨hr.launches, hr.accesses, forall_mem_append.2 ⟨hr.resources, forall_mem_singleton.2 hop⟩, ?_⟩
    rw [length_append, length_singleton]
    omega
  | dispatch _ _ =>
    exact ⟨forall_mem_append.2 ⟨hr.launches, forall_mem_singleton.2 hop.1⟩,
      forall_mem_append.2 ⟨hr.accesses, forall_mem_singleton.2 hop.2⟩, hr.resources, hr.few⟩
  | dependsOn _ _ _ => exact ⟨hr.launches, hr.accesses, hr.resources, hr.few⟩

theorem typed_build (owner : Nat) {ops : List RecorderOp} (hops : ∀ op ∈ ops, op.Typed) : (build owner ops).Typed :=
  foldlRecOn ops Recorder.apply ⟨nofun, nofun, nofun, Nat.zero_le _⟩ fun r h op hop => h.apply (hops op hop) (r.applied op)

section compiled

variable {r : Recorder} {options : CompileOptions} {plan : CompiledPlan}

/-- A node has at most as many dependencies as there are nodes. -/
theorem length_predsOf_le (hr : r.WF) (v : NodeId) : (predsOf r.edges v).length ≤ r.nodes.length := by
  have hnd : (predsOf r.edges v).Nodup := by
    refine Nodup.map_on (fun x hx y hy hxy => ?_) ((hr.ordered.nodup totalLt_edge).filter _)
    have hx2 : x.2 = v := of_decide_eq_true (mem_filter.1 hx).2
    have hy2 : y.2 = v := of_decide_eq_true (mem_filter.1 hy).2
    exact Prod.ext hxy (hx2.trans hy2.symm)
  have hsub : predsOf r.edges v ⊆ r.nodes.map Node.id := fun n hn =>
    (mem_nodeIds hr n).2 (hr.known _ (mem_predsOf.1 hn)).1
  have := (hnd.subperm hsub).length_le
  rwa [length_map] at this

theorem PlanOf.typed (hr : r.WF) (ht : r.Typed) (ho : options.Typed) (h : PlanOf r options plan) : plan.Typed := by
  have hfew := hr.few
  have hres := ht.few
  have hu : u32Max + 1 ≤ u64Max := by decide
  have hindex : ∀ n, r.Known n → n.index ≤ u32Max := fun n hn => by
    have := hn.2
    omega
  have hnumbered : plan.resources.map (fun p => p.id.index) = range plan.resources.length := by
    rw [h.resources]
    unfold plannedResources
    rw [map_map, length_map, length_zipIdx]
    exact zipIdx_map_snd 0 r.resources ▸ by simp [range_eq_range']
  have hlen : plan.resources.length = r.resources.length := by
    rw [h.resources]
    unfold plannedResources
    rw [length_map, length_zipIdx]
  refine ⟨h.lanes ▸ ho.laneCount, h.mode ▸ ho.replayMode, by omega, fun p hp => ?_, hnumbered, ?_, fun d hd => ?_, ?_,
    fun n hn => ?_⟩
  · rw [h.resources] at hp
    obtain ⟨⟨x, i⟩, hx, rfl⟩ := mem_map.1 hp
    have hget := mem_zipIdx_iff_getElem?.1 hx
    have hlt : i < r.resources.length := lt_of_getElem? hget
    have hx' := ht.resources x (mem_of_getElem? hget)
    exact ⟨by dsimp only; omega, hx'.1, hx'.2⟩
  · rw [h.length_eq]
    omega
  · have hp := (h.planned d hd).1
    obtain ⟨n, hn, hlaunch, haccesses⟩ := hp.entry
    have hmem := mem_of_getElem? hn
    have hlane := (h.planned d hd).2
    have hlanes := h.lanes
    have hlaneCount := ho.laneCount
    refine ⟨hindex _ ((h.order.known hr _).1 (mem_map_of_mem hd)), by omega, hlaunch ▸ ht.launches n hmem,
      haccesses ▸ (ht.accesses n hmem).1, haccesses ▸ (ht.accesses n hmem).2, ?_, fun m hm => ?_⟩
    · rw [hp.deps]
      have := length_predsOf_le hr d.node
      omega
    · rw [hp.deps] at hm
      exact hindex m (hr.known _ (mem_predsOf.1 hm)).1
  · rw [h.terminals]
    unfold terminalNodes
    have := length_filter_le (fun n : Node => !r.edges.any (fun e => decide (e.1 = n.id))) r.nodes
    rw [length_map]
    omega
  · rw [h.terminals] at hn
    exact hindex n (terminalNodes_known hr hn)

end compiled

/-- **The text hashed for a fingerprint is injective on what a replay depends on**, and no plan's text is a proper initial part
of another's. -/
theorem fingerprint_text_injective (sha256 : List UInt8 → Digest) (owner owner' : Nat) (ops ops' : List RecorderOp)
    (options options' : CompileOptions) (hops : ∀ op ∈ ops, op.Typed) (hops' : ∀ op ∈ ops', op.Typed) (ho : options.Typed)
    (ho' : options'.Typed) {plan plan' : CompiledPlan} (hc : compile sha256 (build owner ops) options = .ok plan)
    (hc' : compile sha256 (build owner' ops') options' = .ok plan') :
    (fingerprintBytes plan = fingerprintBytes plan' ↔ plan.content = plan'.content) ∧
      (fingerprintBytes plan <+: fingerprintBytes plan' → fingerprintBytes plan = fingerprintBytes plan') := by
  have ht := (compile_ok (wf_build owner ops) hc).typed (wf_build owner ops) (typed_build owner hops) ho
  have ht' := (compile_ok (wf_build owner' ops') hc').typed (wf_build owner' ops') (typed_build owner' hops') ho'
  exact ⟨⟨tells_fingerprintBytes.key_eq ht ht', fingerprintBytes_of_content ht ht'⟩,
    tells_fingerprintBytes.eq_of_prefix ht ht'⟩

/-! Two resources each; the labels one after the other read the same. -/

def labelOps (first second : String) : List RecorderOp := [.resource first 1, .resource second 1]

theorem fingerprint_text_injective_labels : ∃ plan plan',
    compile (fun _ => []) (build 0 (labelOps "ab" "c")) twoLanes = .ok plan ∧
    compile (fun _ => []) (build 1 (labelOps "a" "bc")) twoLanes = .ok plan' ∧
    fingerprintBytes plan ≠ fingerprintBytes plan' := by
  have htyped : ∀ first second : String, (textBytes first).length ≤ 4 → (textBytes second).length ≤ 4 →
      ∀ op ∈ labelOps first second, op.Typed := by
    intro first second h1 h2 op hop
    have hsmall : 4 ≤ u64Max := by decide
    rcases mem_pair.1 hop with rfl | rfl
    · exact ⟨h1.trans hsmall, by decide⟩
    · exact ⟨h2.trans hsmall, by decide⟩
  have hoptions : twoLanes.Typed := ⟨by decide, trivial⟩
  refine ⟨_, _, rfl, rfl, fun h => ?_⟩
  have := (fingerprint_text_injective (fun _ => []) 0 1 (labelOps "ab" "c") (labelOps "a" "bc") twoLanes twoLanes
    (htyped _ _ (by decide) (by decide)) (htyped _ _ (by decide) (by decide)) hoptions hoptions rfl rfl).1.1 h
  exact absurd this (by decide)

end Hipfire.Redline
