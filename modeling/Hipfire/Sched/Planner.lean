import Hipfire.Sched.Scheduler
/-!
# Planner — planning a step without draining its work

`BatchPlanner` of `slot_batch.rs`: `planStep` builds a step from the scheduler's allocation and leaves the work alone;
`publish` applies a plan once its step has been committed, `discard` forgets it.
-/
namespace Hipfire.Sched

structure RequestEpoch where
  requestTag : Nat
  ownerGeneration : Nat
deriving DecidableEq, Repr

def RequestEpoch.isAdmitted (e : RequestEpoch) : Bool := decide (e.ownerGeneration ≠ 0)

/-- The derived `Debug` form. -/
def RequestEpoch.debug (e : RequestEpoch) : String :=
  s!"RequestEpoch \x7b request_tag: {e.requestTag}, owner_generation: {e.ownerGeneration} \x7d"

structure RowRange where
  start : Nat
  len : Nat
deriving DecidableEq, Repr

inductive RequestStepKind where
  | ar
  | verify (draftLen : Nat)
  | prefill
  | forced
deriving DecidableEq, Repr

structure RequestRows where
  epoch : RequestEpoch
  rows : RowRange
  kind : RequestStepKind
deriving DecidableEq, Repr

structure BatchStepPlan where
  batch : SlotBatch
  requests : List RequestRows
  decodeRows : Nat
  prefillRows : Nat
  verifyRows : Nat
  forcedRows : Nat
deriving DecidableEq, Repr

def BatchStepPlan.empty : BatchStepPlan := ⟨.empty, [], 0, 0, 0, 0⟩

def BatchStepPlan.append (a b : BatchStepPlan) : BatchStepPlan :=
  ⟨a.batch.append b.batch, a.requests ++ b.requests, a.decodeRows + b.decodeRows, a.prefillRows + b.prefillRows,
    a.verifyRows + b.verifyRows, a.forcedRows + b.forcedRows⟩

structure RequestAdvance where
  epoch : RequestEpoch
  committedIds : List Token
  committedPosition : Nat
  acceptedDrafts : Nat
  verifiedRows : Nat
  finish : Option String
deriving DecidableEq, Repr

structure BatchPlanner where
  scheduler : Scheduler
  mtpDraftLen : Nat
  dflashDraftLen : Nat
  forcedPrefillLen : List (Option Nat)
  pendingCursor : Option Nat
deriving DecidableEq, Repr

namespace BatchPlanner

variable (p : BatchPlanner)

def draftLen : SpecKind → Nat
  | .none => 0
  | .mtp => p.mtpDraftLen
  | .dflash => p.dflashDraftLen

/-- `eligible[i] && epochs[i].is_admitted()`. -/
def admittedMask (epochs : List RequestEpoch) (eligible : List Bool) : List Bool :=
  List.zipWith (fun ok e => ok && e.isAdmitted) eligible epochs

/-! ## Verify lanes -/

/-- The largest quantum that a runnable prefill may ask for. -/
def prefillReserve (work : List PendingWork) (prefillMin : Nat) (admitted : List Bool) : Nat :=
  (((List.range work.length).filter (runnablePrefillAt p.scheduler work admitted)).map
    (fun i => min (max prefillMin 1) (promptLenAt work i))).foldl max 0

/-- What verify may use: not the rows of the decode lanes and of one prefill quantum. -/
def verifyCap (work : List PendingWork) (rowBudget prefillMin : Nat) (admitted : List Bool) : Nat :=
  rowBudget - (((List.range work.length).filter (runnableDecodeAt p.scheduler work admitted)).length
    + p.prefillReserve work prefillMin admitted)

/-- The rows of each verify lane, in slot order, and their sum. -/
def verifyLoop (cap : Nat) : List PendingWork → List Bool → Nat → Except String (List Nat × Nat)
  | [], _, used => .ok ([], used)
  | w :: ws, admitted, used =>
    if !(admitted.headD false) || !(w.spec.active && w.decoding) || vlWaiting w then
      (verifyLoop cap ws admitted.tail used).map (fun r => (0 :: r.1, r.2))
    else if w.remainingPrompt.length ≠ 1 then
      .error s!"plan_step: verify slot {w.slot} must carry exactly one pending seed, has {w.remainingPrompt.length}"
    else
      let rows := p.draftLen w.spec + 1
      if cap < used + rows then (verifyLoop cap ws admitted.tail used).map (fun r => (0 :: r.1, r.2))
      else (verifyLoop cap ws admitted.tail (used + rows)).map (fun r => (rows :: r.1, r.2))

/-! ## Forced prefill lengths -/

/-- The decode rows stay; the rest is taken back.  The grants and the rows left. -/
def keepDecode : List PendingWork → List Nat → Nat → List Nat × Nat
  | [], _, avail => ([], avail)
  | w :: ws, alloc, avail =>
    let a := alloc.headD 0
    if 0 < a ∧ w.decoding = true then
      let r := keepDecode ws alloc.tail (avail - a)
      (a :: r.1, r.2)
    else
      let r := keepDecode ws alloc.tail avail
      (0 :: r.1, r.2)

/-- Each forced request gets its length or nothing, by rotation. -/
def forcedLoop (work : List PendingWork) : List Nat → List Nat → Nat → List Nat
  | [], alloc, _ => alloc
  | i :: is, alloc, avail =>
    match (p.forcedPrefillLen[i]?).join with
    | none => forcedLoop work is alloc avail
    | some w =>
      let want := min w (promptLenAt work i)
      if 0 < want ∧ want ≤ avail then forcedLoop work is (alloc.set i want) (avail - want)
      else forcedLoop work is alloc avail

def forcePrefill (work : List PendingWork) (rows : Nat) (admitted : List Bool) (alloc : RowAllocation) : RowAllocation :=
  if p.forcedPrefillLen = [] then alloc
  else
    let kept := keepDecode work alloc.alloc rows
    let slots := (List.range work.length).filter (runnablePrefillAt p.scheduler work admitted)
    let start := p.scheduler.prefillCursor % slots.length
    let rotated := (List.range slots.length).map (fun k => slots.getD ((start + k) % slots.length) 0)
    ⟨p.forcedLoop work rotated kept.1 kept.2,
      if slots = [] then none else some ((p.scheduler.prefillCursor + 1) % slots.length)⟩

/-! ## The rows of a plan -/

/-- The phase and embedding columns of one planned row, and the next visual index. -/
def planExtras (w : PendingWork) (kind : RequestStepKind) (t : Token) (pos visualIdx : Nat) : (Int × Int × Int) × Int × Nat :=
  match w.vlPrefill with
  | some vl =>
    if kind = .prefill ∧ t = vl.imagePadId ∧ visualIdx < vl.nVisualTokens then (vl.pos3 pos, asI32 visualIdx, visualIdx + 1)
    else (vl.pos3 pos, -1, visualIdx)
  | none =>
    ((asI32 (asI32 pos + w.pos3Delta), asI32 (asI32 pos + w.pos3Delta), asI32 (asI32 pos + w.pos3Delta)), -1, visualIdx)

/-- Rows `j, j + 1, ..` of one request; a row past the seed of a verify lane repeats the seed. -/
def planRows (extras : Bool) (w : PendingWork) (kind : RequestStepKind) : Nat → Nat → Nat → SlotBatch
  | 0, _, _ => .empty
  | n + 1, j, visualIdx =>
    let t := w.remainingPrompt.getD (min j (w.remainingPrompt.length - 1)) 0
    let pos := w.nextPos + j
    if extras then
      let e := planExtras w kind t pos visualIdx
      SlotBatch.append ⟨[], [t], [asI32 pos], [asI32 w.slot], [e.1], [e.2.1]⟩ (planRows extras w kind n (j + 1) e.2.2)
    else
      SlotBatch.append ⟨[], [t], [asI32 pos], [asI32 w.slot], [], []⟩ (planRows extras w kind n (j + 1) visualIdx)

/-- What a request does this step, and in how many rows. -/
def takeAndKind (w : PendingWork) (verify alloc : Nat) : Nat × RequestStepKind :=
  if 0 < verify then (verify, .verify (verify - 1))
  else (alloc, if w.decoding then .ar else .prefill)

/-- The plan of one slot whose rows start at `start`. -/
def planSlot (extras : Bool) (w : PendingWork) (epoch : RequestEpoch) (verify alloc start : Nat) : BatchStepPlan :=
  let (take, kind) := takeAndKind w verify alloc
  if take = 0 then { BatchStepPlan.empty with batch := { SlotBatch.empty with mPerSlot := [0] } }
  else
    let rows := planRows extras w kind take 0 ((w.vlPrefill.map VlPrefill.visualIdx).getD 0)
    { batch := { rows with mPerSlot := [take] }
      requests := [⟨epoch, ⟨start, take⟩, kind⟩]
      decodeRows := if kind = .ar then take else 0
      prefillRows := if kind = .prefill then take else 0
      verifyRows := match kind with | .verify _ => take | _ => 0
      forcedRows := if kind = .forced then take else 0 }

def planLoop (extras : Bool) : List PendingWork → List RequestEpoch → List Nat → List Nat → Nat → BatchStepPlan
  | [], _, _, _, _ => .empty
  | w :: ws, epochs, verify, alloc, start =>
    let plan := planSlot extras w (epochs.headD ⟨0, 0⟩) (verify.headD 0) (alloc.headD 0) start
    plan.append (planLoop extras ws epochs.tail verify.tail alloc.tail (start + plan.batch.tokens.length))

/-- A slot that the sequential vision path owns. -/
def sequentialVl (work : List PendingWork) (admitted : List Bool) : Option PendingWork :=
  ((work.zip admitted).find? (fun e => e.2 && e.1.vlPrefill.isSome && p.scheduler.vlSequential)).map Prod.fst

/-- `plan_step`: the planner with its provisional cursor, and the plan. -/
def planStep (work : List PendingWork) (epochs : List RequestEpoch) (eligible : List Bool) (rowBudget prefillMin : Nat) :
    BatchPlanner × Except String BatchStepPlan :=
  if epochs.length ≠ work.length ∨ eligible.length ≠ work.length then
    (p, .error s!"plan_step: work={work.length} epochs={epochs.length} eligible={eligible.length} must align")
  else
    let admitted := admittedMask epochs eligible
    match p.sequentialVl work admitted with
    | some w => (p, .error s!"plan_step: slot {w.slot} is owned by the sequential VL path")
    | none =>
      match p.verifyLoop (p.verifyCap work rowBudget prefillMin admitted) work admitted 0 with
      | .error e => (p, .error e)
      | .ok (verify, used) =>
        let rows := rowBudget - used
        let alloc := p.forcePrefill work rows admitted (allocateRows p.scheduler work rows prefillMin admitted)
        ({ p with pendingCursor := alloc.nextPrefillCursor },
          .ok (planLoop (anyPos3 p.scheduler work) work epochs verify alloc.alloc 0))

/-! ## Publishing -/

/-- Where an epoch's work is. -/
def positionOf (epochs : List RequestEpoch) (e : RequestEpoch) : Option Nat := epochs.findIdx? (· == e)

def unknownEpoch (e : RequestEpoch) : String := s!"publish: stale or unknown epoch {e.debug}"

def advancesOf (advances : List RequestAdvance) (e : RequestEpoch) : List RequestAdvance := advances.filter (·.epoch == e)

/-- The checks of one planned request. -/
def checkRequest (work : List PendingWork) (epochs : List RequestEpoch) (advances : List RequestAdvance) (rr : RequestRows) :
    Except String Unit :=
  if !rr.epoch.isAdmitted then .error s!"publish: unadmitted epoch {rr.epoch.debug}"
  else match positionOf epochs rr.epoch with
    | none => .error (unknownEpoch rr.epoch)
    | some i =>
      let advs := advancesOf advances rr.epoch
      match rr.kind with
      | .prefill =>
        let left := promptLenAt work i
        if left < rr.rows.len ∨ (if left = rr.rows.len then 1 else 0) < advs.length then
          .error s!"publish: invalid prefill commit for {rr.epoch.debug}"
        else match advs.head? with
          | none => .ok ()
          | some a =>
            let expected := ((work[i]?.map PendingWork.nextPos).getD 0) + rr.rows.len
            if a.committedPosition ≠ expected then
              .error s!"publish: prefill advance position {a.committedPosition} != {expected}"
            else .ok ()
      | _ =>
        if advs.length ≠ 1 then .error s!"publish: {advs.length} advances for {rr.epoch.debug}" else .ok ()

def checkRequests (work : List PendingWork) (epochs : List RequestEpoch) (advances : List RequestAdvance) :
    List RequestRows → Except String Unit
  | [] => .ok ()
  | rr :: rrs =>
    match checkRequest work epochs advances rr with
    | .error e => .error e
    | .ok () => checkRequests work epochs advances rrs

/-- The next pending seed is the last committed id, unless the request has finished. -/
def nextSeed (a : RequestAdvance) : List Token :=
  if a.finish.isNone then a.committedIds.getLast?.toList else []

/-- The image pads that a prefill consumed. -/
def countPads (toks : List Token) (vl : VlPrefill) : VlPrefill :=
  { vl with visualIdx := min (vl.visualIdx + toks.countP (· == vl.imagePadId)) vl.nVisualTokens }

/-- One planned request applied to its slot's work. -/
def applyRequest (w : PendingWork) (rr : RequestRows) (advance : Option RequestAdvance) : Except String PendingWork :=
  match rr.kind with
  | .prefill =>
    if w.remainingPrompt.length < rr.rows.len then .error s!"publish: slot {w.slot} prompt underflow"
    else
      let w := { w with
        vlPrefill := w.vlPrefill.map (countPads (w.remainingPrompt.take rr.rows.len))
        remainingPrompt := w.remainingPrompt.drop rr.rows.len
        nextPos := w.nextPos + rr.rows.len }
      match advance with
      | none => .ok w
      | some a => .ok { w with decoding := true, remainingPrompt := w.remainingPrompt ++ nextSeed a }
  | _ =>
    match advance with
    | none   => .error s!"publish: no advance for {rr.epoch.debug}"
    | some a => .ok { w with nextPos := a.committedPosition, remainingPrompt := nextSeed a }

def applyRequests (epochs : List RequestEpoch) (advances : List RequestAdvance) :
    List RequestRows → List PendingWork → List PendingWork × Except String Unit
  | [], work => (work, .ok ())
  | rr :: rrs, work =>
    match positionOf epochs rr.epoch with
    | none => (work, .error (unknownEpoch rr.epoch))
    | some i =>
      match work[i]? with
      | none => (work, .error (unknownEpoch rr.epoch))
      | some w =>
        match applyRequest w rr (advancesOf advances rr.epoch).head? with
        | .error e => (work, .error e)
        | .ok w => applyRequests epochs advances rrs (work.set i w)

/-- `publish`: everything is checked before anything is applied. -/
def publish (work : List PendingWork) (epochs : List RequestEpoch) (plan : BatchStepPlan) (advances : List RequestAdvance) :
    BatchPlanner × List PendingWork × Except String Unit :=
  if epochs.length ≠ work.length then (p, work, .error "publish: epochs must align with work")
  else match checkRequests work epochs advances plan.requests with
    | .error e => (p, work, .error e)
    | .ok () =>
      match advances.find? (fun a => !plan.requests.any (fun r => r.epoch == a.epoch)) with
      | some a => (p, work, .error s!"publish: advance for unplanned epoch {a.epoch.debug}")
      | none =>
        match applyRequests epochs advances plan.requests work with
        | (work, .error e) => (p, work, .error e)
        | (work, .ok ()) =>
          ({ p with
            scheduler := match p.pendingCursor with
              | none => p.scheduler
              | some c => { p.scheduler with prefillCursor := c }
            pendingCursor := none }, work, .ok ())

def discard : BatchPlanner := { p with pendingCursor := none }

end BatchPlanner
end Hipfire.Sched
