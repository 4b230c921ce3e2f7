import Hipfire.Base.Writes
/-!
# Layout — the packed geometry of a snapshot

A snapshot holds the fixed parts of the live state whole and, of each append-only row stream, the rows above its parent,
packed at 256 bytes.  `ParkPlan` places the parts at capture; `planChainRestore` finds them again from the stored sizes
and checks that the row segments of a root-first chain tile every stream.
-/
namespace Hipfire.Snap

def partAlign : Nat := 256

/-- `usize::next_multiple_of`. -/
def nextMultipleOf (x k : Nat) : Nat := if x % k = 0 then x else x + (k - x % k)

theorem le_nextMultipleOf (x k : Nat) : x ≤ nextMultipleOf x k := by
  unfold nextMultipleOf
  split
  · exact Nat.le_refl _
  · exact Nat.le_add_right _ _

/-- The loop of `layout`, from the end of what is packed. -/
def layoutFrom : Nat → List Nat → List Nat × Nat
  | done, [] => ([], done)
  | done, bytes :: ps =>
    let offset := nextMultipleOf done partAlign
    let r := layoutFrom (offset + bytes) ps
    (offset :: r.1, r.2)

/-- Offsets of the parts packed at `partAlign`, and the total size. -/
def layout (parts : List Nat) : List Nat × Nat := layoutFrom 0 parts

/-- Rows `[from, to)` of one row stream held by a snapshot. -/
structure Segment where
  rowBytes : Nat
  start : Nat
  stop : Nat
  deriving DecidableEq, Repr

def Segment.bytes (s : Segment) : Nat := (s.stop - s.start) * s.rowBytes

/-- A stored snapshot; a segment's rows never run backwards, which `plan_capture` gives and the disk reader checks. -/
structure StoredSnapshot (κ : Type) where
  parent : Option κ
  fixedBytes : List Nat
  segments : List Segment
  bytes : Nat
  ordered : ∀ s ∈ segments, s.start ≤ s.stop

/-- Byte offsets of the fixed parts, then of the segments. -/
def StoredSnapshot.offsets {κ : Type} (s : StoredSnapshot κ) : List Nat :=
  (layout (s.fixedBytes ++ s.segments.map Segment.bytes)).1

/-- One byte range copied between live state and a packed buffer. -/
structure ParkCopy where
  part : Nat
  liveOffset : Nat
  parkOffset : Nat
  bytes : Nat
  deriving DecidableEq, Repr

structure ParkPlan where
  fixedBytes : List Nat
  segments : List Segment
  offsets : List Nat
  total : Nat

def ParkPlan.ofParts (fixedBytes : List Nat) (segments : List Segment) : ParkPlan :=
  let packed := layout (fixedBytes ++ segments.map Segment.bytes)
  ⟨fixedBytes, segments, packed.1, packed.2⟩

/-- `ParkPlan::delta`: each stream's rows above its parent's segment ends. -/
def ParkPlan.delta (fixedBytes : List Nat) (rows : List (Nat × Nat)) (parentEnds : Option (List Nat)) : ParkPlan :=
  ParkPlan.ofParts fixedBytes
    (rows.zipIdx.map fun r => ⟨r.1.1, (parentEnds.map fun ends => ends.getD r.2 0).getD 0, r.1.2⟩)

/-- The non-empty copies between live state and the packed buffer. -/
def ParkPlan.copies (plan : ParkPlan) (fixedOffsets : List Nat) : List ParkCopy :=
  let fixed := (plan.fixedBytes.zip fixedOffsets).map fun p => (p.2, p.1)
  let rows := plan.segments.map fun s => (s.start * s.rowBytes, s.bytes)
  (((fixed ++ rows).zip plan.offsets).zipIdx.filter fun x => 0 < x.1.1.2).map fun x => ⟨x.2, x.1.1.1, x.1.2, x.1.1.2⟩

/-- `plan_capture`: the deepest ancestor present whose streams line up is the parent. -/
def planCapture {κ : Type} (entry : κ → Option (StoredSnapshot κ)) (ancestors : List κ) (fixedBytes : List Nat)
    (rows : List (Nat × Nat)) : Option κ × ParkPlan :=
  let parent := ancestors.findSome? fun key => do
    let segments := (← entry key).segments
    if segments.length = rows.length ∧ ∀ x ∈ segments.zip rows, x.1.rowBytes = x.2.1 ∧ x.1.stop ≤ x.2.2 then
      some (key, segments.map Segment.stop)
    else none
  (parent.map Prod.fst, ParkPlan.delta fixedBytes rows (parent.map Prod.snd))

/-! ## Restoring a chain -/

/-- One copy of a chain restore, out of link `link`. -/
structure RestoreCopy where
  link : Nat
  copy : ParkCopy
  deriving DecidableEq, Repr

def mismatch : String := "session cache: snapshot layout mismatch"

/-- The leaf's fixed parts. -/
def fixedCopies (leafLink : Nat) (dstFixed : List (Nat × Nat)) (offsets : List Nat) : List RestoreCopy :=
  ((dstFixed.zip offsets).zipIdx.filter fun x => 0 < x.1.1.2).map fun x => ⟨leafLink, ⟨x.2, x.1.1.1, x.1.2, x.1.1.2⟩⟩

/-- The inner loop over one link's segments: `next` holds the row each stream is copied up to. -/
def segmentLoop (fixedCount link storedFixed : Nat) (offsets : List Nat) : Nat → List (Segment × (Nat × Nat)) →
    List Nat × List RestoreCopy → Except String (List Nat × List RestoreCopy)
  | _, [], acc => .ok acc
  | i, (segment, (rowBytes, _)) :: rest, (next, copies) =>
    if segment.rowBytes ≠ rowBytes ∨ segment.start ≠ next.getD i 0 then .error mismatch
    else segmentLoop fixedCount link storedFixed offsets (i + 1) rest (next.set i segment.stop,
      if 0 < segment.bytes then
        copies ++ [⟨link, ⟨fixedCount + i, segment.start * segment.rowBytes, offsets.getD (storedFixed + i) 0, segment.bytes⟩⟩]
      else copies)

def chainLoop {κ : Type} (fixedCount : Nat) (dstRows : List (Nat × Nat)) : Nat → List (StoredSnapshot κ) →
    List Nat × List RestoreCopy → Except String (List Nat × List RestoreCopy)
  | _, [], acc => .ok acc
  | link, snapshot :: rest, acc =>
    if snapshot.segments.length ≠ dstRows.length then .error mismatch
    else do
      let acc ← segmentLoop fixedCount link snapshot.fixedBytes.length snapshot.offsets 0
        (snapshot.segments.zip dstRows) acc
      chainLoop fixedCount dstRows (link + 1) rest acc

/-- `plan_chain_restore`: the leaf's fixed parts, then each link's row segments. -/
def planChainRestore {κ : Type} (chain : List (StoredSnapshot κ)) (dstFixed dstRows : List (Nat × Nat)) :
    Except String (List RestoreCopy) :=
  match chain.getLast? with
  | none => .error mismatch
  | some leaf =>
    if dstFixed.length ≠ leaf.fixedBytes.length ∨ (∃ x ∈ dstFixed.zip leaf.fixedBytes, x.1.2 ≠ x.2) ∨
        dstRows.length ≠ leaf.segments.length then .error mismatch
    else do
      let r ← chainLoop dstFixed.length dstRows 0 chain
        (List.replicate dstRows.length 0, fixedCopies (chain.length - 1) dstFixed leaf.offsets)
      if ∃ x ∈ r.1.zip dstRows, x.1 ≠ x.2.2 then .error mismatch else .ok r.2

end Hipfire.Snap
