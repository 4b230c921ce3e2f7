import Hipfire.Base.Machine
import Hipfire.Base.Queue
/-!
# Tree — the draft tree of speculative decoding

`build_ddtree_tree_bounded` grows a tree of draft tokens out of per-position top-k tables, `follow_verified_tree` walks it
by the target's answers and `linearize_tree_with_parents` lays it out for one forward pass.  Log-weights are of any type
with the operations the source uses, and the heap is any `Heap`; only the results about the best tree fix an order.

Indices are unbounded: a tree whose indices leave `i32` has a visibility table of 2 ^ 62 entries.  A panic is `none`.
`path` is a ghost of the entries and nodes (ranks from the node up to the root) that no function reads.
-/
namespace Hipfire.Draft

variable {W : Type}

structure DdNode (W : Type) where
  token : Nat
  depth : Nat
  parentIndex : Int
  logw : W
  path : List Nat

/-- `child_maps` by slot and token; a slot that was never given is an empty map. -/
structure DdTree (W : Type) where
  nodes : List (DdNode W)
  visibility : List (List Bool)
  childMaps : Nat → Nat → Option Nat

structure HeapEntry (W : Type) where
  negLogw : W
  pushOrder : Nat
  depth : Nat
  rank : Nat
  parentIndex : Int
  logw : W
  path : List Nat

/-- The heap of the source: the heaviest entry first, the earlier push on ties. -/
def logwHeap [LinearOrder W] : Heap (HeapEntry W) := keyHeap fun e => toLex (e.negLogw, e.pushOrder)

/-- The row-major top-k tables. -/
structure Tables (W : Type) where
  topTokens : List Nat
  topLogProbs : List W
  depth : Nat
  topk : Nat

namespace Tables

/-- `top_tokens[d * topk + rank]`; every read of the builder is inside the table. -/
def token (t : Tables W) (d rank : Nat) : Nat := t.topTokens.getD (d * t.topk + rank) 0

def logProb [Zero W] (t : Tables W) (d rank : Nat) : W := t.topLogProbs.getD (d * t.topk + rank) 0

end Tables

/-- The slot of a parent: the root's is 0, a node's is its index + 1. -/
def parentSlot (parentIndex : Int) : Nat := if parentIndex < 0 then 0 else parentIndex.toNat + 1

structure Build (W : Type) where
  heap : List (HeapEntry W)
  pushCounter : Nat := 0
  nodes : List (DdNode W) := []
  childMaps : Nat → Nat → Option Nat := fun _ _ => none

section Builder

variable [Zero W] [Add W] [Sub W] [Neg W] [LT W] [DecidableLT W]

def Build.push (b : Build W) (depth rank : Nat) (parentIndex : Int) (logw : W) (path : List Nat) : Build W :=
  { b with
    heap := b.heap ++ [⟨-logw, b.pushCounter, depth, rank, parentIndex, logw, path⟩]
    pushCounter := b.pushCounter + 1 }

/-- The new node, registered with its parent by its token. -/
def Build.place (t : Tables W) (b : Build W) (e : HeapEntry W) : Build W :=
  let token := t.token (e.depth - 1) e.rank
  let slot := parentSlot e.parentIndex
  { b with
    nodes := b.nodes ++ [⟨token, e.depth, e.parentIndex, e.logw, e.path⟩]
    childMaps := Function.update b.childMaps slot (Function.update (b.childMaps slot) token (some b.nodes.length)) }

def Build.pushSibling (t : Tables W) (b : Build W) (e : HeapEntry W) : Build W :=
  if e.rank + 1 < t.topk then
    b.push e.depth (e.rank + 1) e.parentIndex
      (e.logw - t.logProb (e.depth - 1) e.rank + t.logProb (e.depth - 1) (e.rank + 1)) ((e.rank + 1) :: e.path.tail)
  else b

def Build.pushChild (t : Tables W) (b : Build W) (e : HeapEntry W) (currentIndex : Nat) : Build W :=
  if e.depth < t.depth then b.push (e.depth + 1) 0 currentIndex (e.logw + t.logProb e.depth 0) (0 :: e.path) else b

/-- What the loop does with a popped entry that it keeps. -/
def Build.expand (t : Tables W) (b : Build W) (e : HeapEntry W) : Build W :=
  ((b.place t e).pushSibling t e).pushChild t e b.nodes.length

/-- `logw < logw_cutoff`; no cutoff is `f32::NEG_INFINITY`. -/
def below (cutoff : Option W) (logw : W) : Bool :=
  match cutoff with
  | none => false
  | some c => decide (logw < c)

/-- The loop, by the nodes the budget still allows. -/
def grow (heap : Heap (HeapEntry W)) (t : Tables W) (minNodes : Nat) (cutoff : Option W) : Nat → Build W → Build W
  | 0, b => b
  | left + 1, b =>
    match heap.pop b.heap with
    | none => b
    | some (e, rest) =>
      if minNodes ≤ b.nodes.length ∧ below cutoff e.logw then b
      else grow heap t minNodes cutoff left ({ b with heap := rest }.expand t e)

/-- The row of the next slot: the parent's row so far, and the slot itself. -/
def visibilityRow (len : Nat) (rows : List (List Bool)) (node : DdNode W) : List Bool :=
  (List.range len).map fun j =>
    if j < rows.length then (rows.getD (parentSlot node.parentIndex) []).getD j false else decide (j = rows.length)

def visibilityRows (len : Nat) (nodes : List (DdNode W)) : List (List Bool) :=
  nodes.foldl (fun rows node => rows ++ [visibilityRow len rows node]) [(List.range len).map fun j => decide (j = 0)]

/-- The heap with the root's best child. -/
def seed (first : W) : Build W := Build.push ⟨[], 0, [], fun _ _ => none⟩ 1 0 (-1) first [0]

def buildDdtreeTreeBounded (heap : Heap (HeapEntry W)) (t : Tables W) (minNodes maxNodes : Nat) (cutoff : Option W) :
    Option (DdTree W) :=
  if maxNodes = 0 ∨ t.depth = 0 then some ⟨[], [[true]], fun _ _ => none⟩
  else if t.topTokens.length ≠ t.depth * t.topk ∨ t.topLogProbs.length ≠ t.depth * t.topk then none
  else
    t.topLogProbs[0]?.map fun first =>
      let b := grow heap t minNodes cutoff maxNodes (seed first)
      ⟨b.nodes, visibilityRows (1 + b.nodes.length) b.nodes, b.childMaps⟩

end Builder

/-! ## Reading the tree -/

/-- The chain of `ancestors_of` up to the root, with the newest in front; `fuel` bounds its length. -/
def ancestorsLoop (nodes : List (DdNode W)) : Nat → Int → List Nat → List Nat
  | 0, _, chain => chain
  | fuel + 1, cur, chain =>
    if cur < 0 then chain
    else
      match nodes[cur.toNat]? with
      | none => chain
      | some node => ancestorsLoop nodes fuel node.parentIndex (cur.toNat :: chain)

def DdTree.ancestorsOf (tree : DdTree W) (nodeIndex : Nat) : List Nat :=
  ancestorsLoop tree.nodes (nodeIndex + 1) nodeIndex []

def DdTree.tokensAt (tree : DdTree W) (indices : List Nat) : List Nat :=
  indices.filterMap fun i => tree.nodes[i]?.map DdNode.token

/-- `none` is also running out of fuel. -/
def followLoop (tree : DdTree W) (posterior : List Nat) : Nat → Nat → Nat → List Nat → Option (List Nat × Nat)
  | 0, _, _, _ => none
  | fuel + 1, currentSlot, nextToken, accepted =>
    match tree.childMaps currentSlot nextToken with
    | none => some (accepted, nextToken)
    | some child =>
      match posterior[child + 1]? with
      | none => some (accepted ++ [child], nextToken)
      | some next => followLoop tree posterior fuel (child + 1) next (accepted ++ [child])

def followVerifiedTree (tree : DdTree W) (posterior : List Nat) : Option (List Nat × Nat) :=
  posterior[0]?.bind fun next => followLoop tree posterior (1 + tree.nodes.length) 0 next []

/-- An entry of the additive mask. -/
inductive Bias
  | zero
  | negInfinity
  deriving Repr, DecidableEq

structure Linearized where
  tokens : List Nat
  positions : List Int
  maskBlock : List Bias
  parentIndices : List Int

/-- `i32` sums wrap. -/
def linearizeTreeWithParents (tree : DdTree W) (seedToken basePos : Nat) : Linearized where
  tokens := seedToken :: tree.nodes.map DdNode.token
  positions := asI32 basePos :: tree.nodes.map fun n => asI32 (asI32 basePos + asI32 n.depth)
  maskBlock := tree.visibility.flatMap fun row => row.map fun v => if v then Bias.zero else Bias.negInfinity
  parentIndices := -1 :: tree.nodes.map fun n => if n.parentIndex < 0 then 0 else n.parentIndex + 1

end Hipfire.Draft
