import Hipfire.Base.Machine
/-!
# Queue — the fairness queue of concurrent serve

`FairQueue::select` splits one row budget over decode, prefill, verify and forced rows.  Every number is a `u64`; sums that
the source checks are `checkedAdd`, the calls take `UInt64` arguments (`FairOp`).  The tick is not bounded.
-/
namespace Hipfire.Fair

inductive FairnessError
  | invalidConfig (maxBatchTokens decodeLanes prefillMinTokens : Nat)
  | zeroMinTokens
  | duplicateId (id : Nat)
  | notFound (id : Nat)
  | rowOverflow
  deriving Repr, DecidableEq

inductive Grant
  | decode (id : Nat)
  | prefill (id rows : Nat)
  | verify (id rows : Nat)
  | forced (id rows : Nat)
  deriving Repr, DecidableEq

namespace Grant

def rows : Grant → Nat
  | decode _ => 1
  | prefill _ n | verify _ n | forced _ n => n

def id : Grant → Nat
  | decode i | prefill i _ | verify i _ | forced i _ => i

def isDecode : Grant → Bool
  | decode _ => true
  | _ => false

def isPrefill : Grant → Bool
  | prefill .. => true
  | _ => false

def isVerify : Grant → Bool
  | verify .. => true
  | _ => false

def isForced : Grant → Bool
  | forced .. => true
  | _ => false

/-- The prefill rows a grant gives to a request. -/
def prefillRows (i : Nat) : Grant → Nat
  | prefill j n => if j = i then n else 0
  | _ => 0

end Grant

structure Selection where
  grants : List Grant := []
  starvedOldest : Bool := false
  starvedId : Option Nat := none
  deriving Repr, DecidableEq

structure FairRequest where
  id : Nat
  domainId : String
  admissionTick : Nat
  uncachedPrefillTokens : Nat
  aged : Bool := false
  lastServedTick : Option Nat := none
  wantsDecode : Bool := false
  verifyRows : Nat := 0
  forcedRows : Nat := 0
  deriving Repr, DecidableEq

namespace FairRequest

/-- A verify request does not also count a decode row. -/
def neededRows (r : FairRequest) : Option Nat := do
  let decode := if r.wantsDecode ∧ r.verifyRows = 0 then 1 else 0
  let a ← checkedAdd64 decode r.uncachedPrefillTokens
  let b ← checkedAdd64 a r.verifyRows
  checkedAdd64 b r.forcedRows

def stamped (tick : Nat) (r : FairRequest) : FairRequest := { r with lastServedTick := some tick }

end FairRequest

/-- Aged first, then the oldest admission, then the fewest uncached tokens. -/
def fairnessCmp (a b : FairRequest) : Ordering :=
  match a.aged, b.aged with
  | true, false => .lt
  | false, true => .gt
  | _, _ =>
    match compare a.admissionTick b.admissionTick with
    | .eq => compare a.uncachedPrefillTokens b.uncachedPrefillTokens
    | o => o

/-- A request and its place in the queue. -/
abbrev Placed := FairRequest × Nat

/-- One turn of the source's scans. -/
def better (keep : Placed → Bool) (best : Option Placed) (x : Placed) : Option Placed :=
  if keep x then
    match best with
    | none => some x
    | some b => if fairnessCmp x.1 b.1 = .lt then some x else some b
  else best

/-- The first of the fairness-best entries that are kept. -/
def bestOf (keep : Placed → Bool) (xs : List Placed) : Option Placed := xs.foldl (better keep) none

structure FairQueue where
  maxBatchTokens : Nat
  decodeLanes : Nat
  prefillMinTokens : Nat
  requests : List FairRequest := []
  prefillCursor : Nat := 0
  tick : Nat := 0
  lastRoundTick : Nat := 0
  deriving Repr, DecidableEq

/-- What `select` has decided so far, with the requests and the cursor it has changed. -/
structure Round where
  requests : List FairRequest
  cursor : Nat
  grants : List Grant := []
  used : Nat := 0
  servedIds : List Nat := []

namespace Round

/-- The record of the request at `idx` after a grant: its stamp, and what `f` changes. -/
def stamp (t : Round) (tick idx : Nat) (f : FairRequest → FairRequest) : List FairRequest :=
  t.requests.modify idx fun r => (f r).stamped tick

/-- Phase 1: one row each, as long as lanes and rows last. -/
def decodeLoop (tick remaining : Nat) : Nat → Round → Round
  | 0, t => t
  | lanes + 1, t =>
    if remaining ≤ t.used then t
    else
      match bestOf (fun x => x.1.wantsDecode && x.1.verifyRows == 0 && !t.servedIds.contains x.1.id) t.requests.zipIdx with
      | none => t
      | some (r, idx) =>
        decodeLoop tick remaining lanes
          { t with
            grants := t.grants ++ [.decode r.id], used := t.used + 1, servedIds := t.servedIds ++ [r.id]
            requests := t.stamp tick idx fun r => r }

/-- Phase 2: `picks` is `n - picked`; the scan starts at the cursor. -/
def prefillLoop (tick minTokens quantum remaining n : Nat) : Nat → Round → Round
  | 0, t => t
  | picks + 1, t =>
    if remaining ≤ t.used then t
    else
      let avail := remaining - t.used
      match bestOf (fun x => !(x.1.uncachedPrefillTokens == 0 || t.servedIds.contains x.1.id)
          && !(decide (avail < minTokens) && decide (avail < x.1.uncachedPrefillTokens)))
          (t.requests.zipIdx.rotate (t.cursor % n)) with
      | none => t
      | some (r, idx) =>
        let rows := min (min quantum r.uncachedPrefillTokens) avail
        if rows < minTokens ∧ rows < r.uncachedPrefillTokens then
          prefillLoop tick minTokens quantum remaining n picks { t with cursor := (idx + 1) % n }
        else
          let granted := { t with grants := t.grants ++ [.prefill r.id rows] }
          match checkedAdd64 t.used rows with
          | none => granted
          | some used =>
            -- `uncached.checked_sub(rows)` cannot fail: `rows` is at most `uncached`
            prefillLoop tick minTokens quantum remaining n picks
              { granted with
                used := used, servedIds := t.servedIds ++ [r.id], cursor := (idx + 1) % n
                requests := t.stamp tick idx fun r => { r with uncachedPrefillTokens := r.uncachedPrefillTokens - rows } }

/-- Phases 3 and 4 over their candidates: what does not fit is passed over. -/
def quotaLoop (mk : Nat → Nat → Grant) (rowsOf : FairRequest → Nat) (tick remaining : Nat) : List Placed → Round → Round
  | [], t => t
  | (r, idx) :: rest, t =>
    if remaining < t.used then t
    else if rowsOf r ≤ remaining - t.used then
      let granted := { t with grants := t.grants ++ [mk r.id (rowsOf r)] }
      match checkedAdd64 t.used (rowsOf r) with
      | none => granted
      | some used =>
        quotaLoop mk rowsOf tick remaining rest
          { granted with used := used, servedIds := t.servedIds ++ [r.id], requests := t.stamp tick idx fun r => r }
    else quotaLoop mk rowsOf tick remaining rest t

/-- The candidates of a quota phase, in fairness order; the sort is stable. -/
def candidates (rowsOf : FairRequest → Nat) (t : Round) : List Placed :=
  (t.requests.zipIdx.filter fun x => decide (0 < rowsOf x.1) && !t.servedIds.contains x.1.id).insertionSort
    fun a b => fairnessCmp a.1 b.1 ≠ .gt

def quota (mk : Nat → Nat → Grant) (rowsOf : FairRequest → Nat) (tick remaining : Nat) (t : Round) : Round :=
  quotaLoop mk rowsOf tick remaining (t.candidates rowsOf) t

def verifyPhase : Nat → Nat → Round → Round := quota .verify FairRequest.verifyRows

def forcedPhase : Nat → Nat → Round → Round := quota .forced FairRequest.forcedRows

end Round

/-- The request got a grant of one kind. -/
def got (kind : Grant → Bool) (grants : List Grant) (id : Nat) : Bool := grants.any fun g => kind g && g.id == id

/-- Some kind of need of the request got no grant of that kind. -/
def unserved (grants : List Grant) (r : FairRequest) : Bool :=
  (decide (0 < r.uncachedPrefillTokens) && !got Grant.isPrefill grants r.id)
    || (r.wantsDecode && r.verifyRows == 0 && !got Grant.isDecode grants r.id)
    || (decide (0 < r.verifyRows) && !got Grant.isVerify grants r.id)
    || (decide (0 < r.forcedRows) && !got Grant.isForced grants r.id)

namespace FairQueue

def new (maxBatchTokens decodeLanes prefillMinTokens : Nat) : Except FairnessError FairQueue :=
  if prefillMinTokens = 0 then .error .zeroMinTokens
  else
    match checkedAdd64 decodeLanes prefillMinTokens with
    | none => .error .rowOverflow
    | some minBudget =>
      if maxBatchTokens < minBudget then .error (.invalidConfig maxBatchTokens decodeLanes prefillMinTokens)
      else .ok { maxBatchTokens, decodeLanes, prefillMinTokens }

def get (q : FairQueue) (id : Nat) : Option FairRequest := q.requests.find? fun r => r.id == id

def admitRequest (q : FairQueue) (id : Nat) (domainId : String) (uncached : Nat) : Except FairnessError FairQueue :=
  if q.requests.any fun r => r.id == id then .error (.duplicateId id)
  else
    .ok { q with
      requests := q.requests ++ [{ id, domainId, admissionTick := q.tick, uncachedPrefillTokens := uncached }] }

/-- `requests.iter_mut().find(|r| r.id == id)`, changed by `f`. -/
def update (q : FairQueue) (id : Nat) (f : FairRequest → FairRequest) : Except FairnessError FairQueue :=
  match q.requests.findIdx? fun r => r.id == id with
  | none => .error (.notFound id)
  | some i => .ok { q with requests := q.requests.modify i f }

def setNeeds (q : FairQueue) (id : Nat) (wantsDecode : Bool) (verifyRows forcedRows : Nat) :
    Except FairnessError FairQueue :=
  q.update id fun r => { r with wantsDecode, verifyRows, forcedRows }

def setUncachedPrefill (q : FairQueue) (id tokens : Nat) : Except FairnessError FairQueue :=
  q.update id fun r => { r with uncachedPrefillTokens := tokens }

def remove (q : FairQueue) (id : Nat) : Except FairnessError FairQueue :=
  let kept := q.requests.filter fun r => r.id != id
  if kept.length = q.requests.length then .error (.notFound id)
  else .ok { q with requests := kept, prefillCursor := if kept = [] then 0 else q.prefillCursor % kept.length }

def skipRoundComplete (q : FairQueue) : FairQueue :=
  { q with
    requests := q.requests.map fun r =>
      let notServedSinceRound := match r.lastServedTick with
        | none => true
        | some t => decide (t < q.lastRoundTick)
      { r with aged := notServedSinceRound && decide (r.admissionTick ≤ q.lastRoundTick) }
    lastRoundTick := q.tick }

/-- The four phases. -/
def allocate (q : FairQueue) (maxDecodeLanes prefillQuantum remainingRows : Nat) : Round :=
  let t := Round.decodeLoop q.tick remainingRows maxDecodeLanes { requests := q.requests, cursor := q.prefillCursor }
  let n := q.requests.length
  let t := if 0 < prefillQuantum then
      Round.prefillLoop q.tick q.prefillMinTokens prefillQuantum remainingRows n n t
    else t
  (t.verifyPhase q.tick remainingRows).forcedPhase q.tick remainingRows

/-- The starvation scan, over the requests as the phases left them and the needs as they were before. -/
def bestStarved (q : FairQueue) (t : Round) : Option Placed :=
  let needsSnapshot := q.requests.map FairRequest.neededRows
  bestOf (fun x => unserved t.grants x.1
    && decide ((needsSnapshot.getD x.2 none).getD (2 ^ 64 - 1) ≤ q.maxBatchTokens)) t.requests.zipIdx

def select (q : FairQueue) (maxDecodeLanes prefillQuantum remainingRows : Nat) : FairQueue × Selection :=
  if q.requests = [] then ({ q with tick := q.tick + 1 }, {})
  else
    let t := q.allocate maxDecodeLanes prefillQuantum remainingRows
    let bestStarved := q.bestStarved t
    ({ q with requests := t.requests, prefillCursor := t.cursor, tick := q.tick + 1 },
      { grants := t.grants, starvedOldest := bestStarved.isSome, starvedId := bestStarved.map (·.1.id) })

end FairQueue

/-- A call on the queue. -/
inductive FairOp
  | admitRequest (id : UInt64) (domainId : String) (uncached : UInt64)
  | setNeeds (id : UInt64) (wantsDecode : Bool) (verifyRows forcedRows : UInt64)
  | setUncachedPrefill (id tokens : UInt64)
  | remove (id : UInt64)
  | skipRoundComplete
  | select (maxDecodeLanes prefillQuantum remainingRows : UInt64)

/-- The queue after a call; a refused call leaves it as it was. -/
def FairOp.call : FairOp → FairQueue → FairQueue
  | .admitRequest id domain uncached, q => (q.admitRequest id.toNat domain uncached.toNat).toOption.getD q
  | .setNeeds id d v f, q => (q.setNeeds id.toNat d v.toNat f.toNat).toOption.getD q
  | .setUncachedPrefill id tokens, q => (q.setUncachedPrefill id.toNat tokens.toNat).toOption.getD q
  | .remove id, q => (q.remove id.toNat).toOption.getD q
  | .skipRoundComplete, q => q.skipRoundComplete
  | .select lanes quantum rows, q => (q.select lanes.toNat quantum.toNat rows.toNat).1

end Hipfire.Fair
