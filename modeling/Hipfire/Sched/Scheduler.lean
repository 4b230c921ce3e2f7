import Hipfire.Pages.Meta
/-!
# Scheduler — what goes into one step's `SlotBatch`

`allocateRows` grants rows to slots in three phases (one row for each runnable decode slot, the rotated head's quantum,
the leftover budget by rotation); `nextBatchEligible` then drains the granted prompt tokens, in slot order, into the
flat arrays of a batch.  The source's `f32` embeddings are held as their bit patterns: only their number is read.
-/
namespace Hipfire.Sched

open Pages (pageTokens)

abbrev Token := UInt32

inductive SpecKind where
  | none
  | mtp
  | dflash
deriving DecidableEq, Repr

def SpecKind.active : SpecKind → Bool
  | .none => false
  | _ => true

/-- Visual and M-RoPE data of one slot's request, the fields the batched path reads. -/
structure VlPrefill where
  nVisualTokens : Nat
  embeddings : List UInt32
  visualIdx : Nat
  imagePadId : Token
  mropePositions : List (Int × Int × Int)
  ropeDelta : Int
  base : Nat
deriving DecidableEq, Repr

structure PendingWork where
  slot : Nat
  remainingPrompt : List Token
  nextPos : Nat
  decoding : Bool
  vlPrefill : Option VlPrefill
  spec : SpecKind
  pos3Delta : Int
deriving DecidableEq, Repr

structure Scheduler where
  chunkSize : Nat
  vlSequential : Bool
  prefillCursor : Nat
deriving DecidableEq, Repr

/-- One step's ragged work: counts for each slot, and the rows packed in slot order. -/
structure SlotBatch where
  mPerSlot : List Nat
  tokens : List Token
  positions : List Int
  rowSlot : List Int
  pos3 : List (Int × Int × Int)
  extEmb : List Int
deriving DecidableEq, Repr

def SlotBatch.empty : SlotBatch := ⟨[], [], [], [], [], []⟩

def SlotBatch.append (a b : SlotBatch) : SlotBatch :=
  ⟨a.mPerSlot ++ b.mPerSlot, a.tokens ++ b.tokens, a.positions ++ b.positions, a.rowSlot ++ b.rowSlot,
    a.pos3 ++ b.pos3, a.extEmb ++ b.extEmb⟩

def SlotBatch.totalRows (b : SlotBatch) : Nat := b.tokens.length

/-! ## Runnable predicates -/

def skipEntirely (w : PendingWork) (vlSequential : Bool) : Bool :=
  (w.vlPrefill.isSome && vlSequential) || (w.spec.active && w.decoding)

def vlWaiting (w : PendingWork) : Bool :=
  match w.vlPrefill with
  | none => false
  | some vl => vl.embeddings.isEmpty && decide (0 < vl.nVisualTokens)

def isRunnableDecode (w : PendingWork) (vlSequential : Bool) : Bool :=
  if skipEntirely w vlSequential || vlWaiting w then false
  else w.decoding && !w.remainingPrompt.isEmpty

def isRunnablePrefill (w : PendingWork) (vlSequential : Bool) : Bool :=
  if skipEntirely w vlSequential || vlWaiting w then false
  else !w.decoding && !w.remainingPrompt.isEmpty

/-- `eligible.get(i).copied().unwrap_or(false)`. -/
def eligibleAt (eligible : List Bool) (i : Nat) : Bool := (eligible[i]?).getD false

/-! ## Row allocation -/

/-- A prompt-completing take is trimmed to the last page boundary, unless the operator's quantum is above a page. -/
def pageAlignTake (take takeStartPos remainingInclTake prefillMin : Nat) : Nat :=
  if remainingInclTake ≤ take ∧ 0 < remainingInclTake ∧ prefillMin ≤ pageTokens then
    if (takeStartPos + remainingInclTake) % pageTokens ≠ 0 ∧ pageTokens < takeStartPos + remainingInclTake then
      if takeStartPos < (takeStartPos + remainingInclTake) / pageTokens * pageTokens then
        (takeStartPos + remainingInclTake) / pageTokens * pageTokens - takeStartPos
      else take
    else take
  else take

/-- A slot's quota for one round: `chunk_size` capped to the prompt, floored by the quantum, then page-aligned. -/
def quotaOf (s : Scheduler) (prefillMin : Nat) (w : PendingWork) : Nat :=
  if w.remainingPrompt.length = 0 then 0
  else pageAlignTake
    (max (min s.chunkSize w.remainingPrompt.length) (min prefillMin w.remainingPrompt.length))
    w.nextPos w.remainingPrompt.length prefillMin

structure RowAllocation where
  alloc : List Nat
  nextPrefillCursor : Option Nat
deriving DecidableEq, Repr

/-- Phase 1: one row to each runnable decode slot in slot order, stopping at the first the budget cannot hold. -/
def decodeLoop (runnable : Nat → Bool) (remainingRows : Nat) : List Nat → List Nat × Nat → List Nat × Nat
  | [], st => st
  | i :: is, (alloc, used) =>
    if !runnable i then decodeLoop runnable remainingRows is (alloc, used)
    else if remainingRows < used + 1 then (alloc, used)
    else decodeLoop runnable remainingRows is (alloc.set i 1, used + 1)

/-- The leftover loop's state: the grants, the rows left, and whether the last pass granted any. -/
structure Leftover where
  alloc : List Nat
  avail : Nat
  keepGoing : Bool
deriving DecidableEq, Repr

/-- One pass of the leftover loop over the rotated prefill slots. -/
def leftoverPass (slots : List Nat) (start : Nat) (promptLen quota : Nat → Nat) : List Nat → Leftover → Leftover
  | [], st => st
  | k :: ks, st =>
    if st.avail = 0 then st
    else
      let i := slots.getD ((start + k) % slots.length) 0
      let already := st.alloc.getD i 0
      let take := min (min (quota i - already) (promptLen i - already)) st.avail
      if take = 0 then leftoverPass slots start promptLen quota ks st
      else leftoverPass slots start promptLen quota ks ⟨st.alloc.set i (already + take), st.avail - take, true⟩

/-- `while avail > 0 && keep_going`; a pass that keeps going has used a row, so `avail + 1` passes are enough. -/
def leftoverLoop (slots : List Nat) (start : Nat) (promptLen quota : Nat → Nat) : Nat → Leftover → Leftover
  | 0, st => st
  | fuel + 1, st =>
    if 0 < st.avail ∧ st.keepGoing = true then
      leftoverLoop slots start promptLen quota fuel
        (leftoverPass slots start promptLen quota (List.range slots.length) { st with keepGoing := false })
    else st

def runnableDecodeAt (s : Scheduler) (work : List PendingWork) (eligible : List Bool) (i : Nat) : Bool :=
  match work[i]? with
  | none => false
  | some w => isRunnableDecode w s.vlSequential && eligibleAt eligible i

def runnablePrefillAt (s : Scheduler) (work : List PendingWork) (eligible : List Bool) (i : Nat) : Bool :=
  match work[i]? with
  | none => false
  | some w => isRunnablePrefill w s.vlSequential && eligibleAt eligible i

def promptLenAt (work : List PendingWork) (i : Nat) : Nat :=
  match work[i]? with
  | none => 0
  | some w => w.remainingPrompt.length

def quotaAt (s : Scheduler) (work : List PendingWork) (prefillMin : Nat) (i : Nat) : Nat :=
  match work[i]? with
  | none => 0
  | some w => quotaOf s prefillMin w

/-- Phase 2's first grant: the rotated head's quota, as far as the budget reaches. -/
def headGrant (quota promptLen : Nat → Nat) (head : Nat) (alloc : List Nat) (avail : Nat) : Leftover :=
  if 0 < min (quota head) avail ∧ 0 < promptLen head then
    ⟨alloc.set head (alloc.getD head 0 + min (quota head) avail), avail - min (quota head) avail, true⟩
  else ⟨alloc, avail, true⟩

/-- `allocate_rows`: the grants and the cursor to publish, with no effect on the work. -/
def allocateRows (s : Scheduler) (work : List PendingWork) (remainingRows prefillMin : Nat) (eligible : List Bool) :
    RowAllocation :=
  let n := work.length
  let decoded := decodeLoop (runnableDecodeAt s work eligible) remainingRows (List.range n) (List.replicate n 0, 0)
  let avail := remainingRows - decoded.2
  let slots := (List.range n).filter (runnablePrefillAt s work eligible)
  if avail = 0 ∨ slots = [] then ⟨decoded.1, none⟩
  else
    let start := s.prefillCursor % slots.length
    let st := headGrant (quotaAt s work prefillMin) (promptLenAt work) (slots.getD start 0) decoded.1 avail
    ⟨(leftoverLoop slots start (promptLenAt work) (quotaAt s work prefillMin) (st.avail + 1) st).alloc,
      some ((s.prefillCursor + 1) % slots.length)⟩

/-! ## Building the batch -/

/-- `VlPrefill::pos3`: the prompt table while in range, `pos + rope_delta` beyond it. -/
def VlPrefill.pos3 (vl : VlPrefill) (pos : Nat) : Int × Int × Int :=
  match if vl.base ≤ pos then vl.mropePositions[pos - vl.base]? else none with
  | some p => p
  | none => (asI32 (asI32 pos + vl.ropeDelta), asI32 (asI32 pos + vl.ropeDelta), asI32 (asI32 pos + vl.ropeDelta))

def anyPos3 (s : Scheduler) (work : List PendingWork) : Bool :=
  work.any (fun w => (w.vlPrefill.isSome && !s.vlSequential) || decide (w.pos3Delta ≠ 0))

/-- The phase and embedding columns of one row, and the slot's vision state after it. -/
def rowExtras (delta : Int) (t : Token) (pos : Nat) : Option VlPrefill → (Int × Int × Int) × Int × Option VlPrefill
  | some vl =>
    if t = vl.imagePadId ∧ vl.visualIdx < vl.nVisualTokens then
      (vl.pos3 pos, asI32 vl.visualIdx, some { vl with visualIdx := vl.visualIdx + 1 })
    else (vl.pos3 pos, -1, some vl)
  | none =>
    ((asI32 (asI32 pos + delta), asI32 (asI32 pos + delta), asI32 (asI32 pos + delta)), -1, none)

/-- The rows of one slot's drained tokens, from position `pos` on, and the slot's vision state after them. -/
def rowLoop (extras : Bool) (slot : Nat) (delta : Int) :
    List Token → Nat → Option VlPrefill → SlotBatch × Option VlPrefill
  | [], _, vl => (SlotBatch.empty, vl)
  | t :: ts, pos, vl =>
    if extras then
      let e := rowExtras delta t pos vl
      let r := rowLoop extras slot delta ts (pos + 1) e.2.2
      (SlotBatch.append ⟨[], [t], [asI32 pos], [asI32 slot], [e.1], [e.2.1]⟩ r.1, r.2)
    else
      let r := rowLoop extras slot delta ts (pos + 1) vl
      (SlotBatch.append ⟨[], [t], [asI32 pos], [asI32 slot], [], []⟩ r.1, r.2)

/-- Drain `take` tokens of one slot into rows. -/
def takeRows (extras : Bool) (w : PendingWork) (take : Nat) : PendingWork × SlotBatch :=
  if take = 0 then (w, ⟨[0], [], [], [], [], []⟩)
  else
    let toks := w.remainingPrompt.take take
    let r := rowLoop extras w.slot w.pos3Delta toks w.nextPos w.vlPrefill
    ({ w with remainingPrompt := w.remainingPrompt.drop take, nextPos := w.nextPos + toks.length, vlPrefill := r.2 },
      { r.1 with mPerSlot := [toks.length] })

/-- The slots in order, each drained by its grant; the flat arrays are packed in the same order. -/
def buildBatch (extras : Bool) : List PendingWork → List Nat → List PendingWork × SlotBatch
  | [], _ => ([], SlotBatch.empty)
  | w :: ws, alloc =>
    let r := takeRows extras w (alloc.headD 0)
    let t := buildBatch extras ws alloc.tail
    (r.1 :: t.1, r.2.append t.2)

/-- `next_batch_eligible`: the scheduler after the step, the work left, and the batch. -/
def nextBatchEligible (s : Scheduler) (work : List PendingWork) (remainingRows prefillMin : Nat)
    (eligible : List Bool) : Scheduler × List PendingWork × SlotBatch :=
  let plan := allocateRows s work remainingRows prefillMin eligible
  let s' := match plan.nextPrefillCursor with
    | none => s
    | some c => { s with prefillCursor := c }
  let r := buildBatch (anyPos3 s' work) work plan.alloc
  (s', r.1, r.2)

end Hipfire.Sched
