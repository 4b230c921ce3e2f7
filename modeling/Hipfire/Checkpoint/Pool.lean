import Hipfire.Base.Maps
import Hipfire.Base.Run
import Hipfire.Pages.Meta
/-!
# Pool — the byte-bounded LRU of checkpoint blobs

`CheckpointPool` over any domain and blob type: blobs have a size and no destructor, so every call hands back the blobs it
displaces.  The entries are a map; its order is not observed, since the LRU stamps of entries differ.
-/
namespace Hipfire.Checkpoint

open Pages (pageTokens)

variable {D B : Type} [DecidableEq D]

/-- `(domain, boundary_p, prefix_fingerprint)`. -/
abbrev CheckpointKey (D : Type) : Type := D × Nat × Nat

structure CheckpointEntry (B : Type) where
  id : Nat
  blob : B
  pins : Nat
  lruStamp : Nat

/-- An entry with its key. -/
abbrev Slot (D B : Type) : Type := Sigma fun _ : CheckpointKey D => CheckpointEntry B

/-- `CheckpointId::NONE`. -/
def noCheckpoint : Nat := 0

structure CheckpointPool (D B : Type) where
  entries : AList fun _ : CheckpointKey D => CheckpointEntry B
  evicted : List (CheckpointKey D)
  totalBytes : Nat
  maxBytes : Nat
  nextId : Nat
  lruClock : Nat

namespace CheckpointPool

def new (maxBytes : Nat) : CheckpointPool D B := ⟨∅, [], 0, maxBytes, 1, 0⟩

/-- `p == 0 || p % PAGE_TOKENS == 0`. -/
def isAligned (p : Nat) : Bool := p == 0 || p % pageTokens == 0

/-- The unpinned entry with the smallest stamp, among some. -/
def oldest : List (Slot D B) → Option (Slot D B)
  | [] => none
  | e :: es =>
    if e.2.pins = 0 then
      match oldest es with
      | none => some e
      | some m => if e.2.lruStamp ≤ m.2.lruStamp then some e else some m
    else oldest es

def findOldestUnpinnedKey (pool : CheckpointPool D B) : Option (CheckpointKey D) :=
  (oldest pool.entries.entries).map Sigma.fst

variable (bytesLen : B → Nat)

/-- `entries.remove(&key)` with the bytes taken off, and the record of evictions that goes with it. -/
def remove (pool : CheckpointPool D B) (key : CheckpointKey D) (e : CheckpointEntry B) (evicted : List (CheckpointKey D)) :
    CheckpointPool D B :=
  { pool with entries := pool.entries.erase key, totalBytes := pool.totalBytes - bytesLen e.blob, evicted := evicted }

def evictInternal (pool : CheckpointPool D B) (key : CheckpointKey D) : CheckpointPool D B × Option B :=
  match pool.entries.lookup key with
  | none => (pool, none)
  | some e => (pool.remove bytesLen key e (key :: pool.evicted), some e.blob)

/-- The eviction loop of an insert: the pool and what was displaced, and whether `bytes` more fit.  Every turn takes an
entry, so their number bounds the turns. -/
def evictLoop (bytes : Nat) : Nat → CheckpointPool D B → List B → CheckpointPool D B × List B × Bool
  | fuel, pool, displaced =>
    if pool.totalBytes + bytes ≤ pool.maxBytes then (pool, displaced, true)
    else
      match pool.findOldestUnpinnedKey with
      | none => (pool, displaced, false)
      | some key =>
        match fuel with
        | 0 => (pool, displaced, false)
        | fuel + 1 =>
          let r := pool.evictInternal bytesLen key
          evictLoop bytes fuel r.1 (displaced ++ r.2.toList)

/-- The head of `insert_unaligned`: the entry at the key goes, its id is kept for the new one. -/
def replaced (pool : CheckpointPool D B) (key : CheckpointKey D) : CheckpointPool D B × List B × Option Nat :=
  match pool.entries.lookup key with
  | none => ({ pool with evicted := pool.evicted.filter (· ≠ key) }, [], none)
  | some e => (pool.remove bytesLen key e (pool.evicted.filter (· ≠ key)), [e.blob], some e.id)

/-- The tail of `insert_unaligned`: the blob is stored under the kept id, or a fresh one. -/
def store (pool : CheckpointPool D B) (key : CheckpointKey D) (blob : B) (reuseId : Option Nat) : CheckpointPool D B × Nat :=
  let id := reuseId.getD pool.nextId
  ({ pool with
      nextId := if reuseId.isSome then pool.nextId else pool.nextId + 1
      lruClock := pool.lruClock + 1
      totalBytes := pool.totalBytes + bytesLen blob
      entries := pool.entries.insert key ⟨id, blob, 0, pool.lruClock + 1⟩ }, id)

/-- `insert_unaligned`: the pool, the id and the displaced blobs. -/
def insertUnaligned (pool : CheckpointPool D B) (key : CheckpointKey D) (blob : B) : CheckpointPool D B × Nat × List B :=
  let (pool, displaced, reuseId) := pool.replaced bytesLen key
  match evictLoop bytesLen (bytesLen blob) pool.entries.keys.length pool displaced with
  | (pool, displaced, false) => (pool, noCheckpoint, displaced ++ [blob])
  | (pool, displaced, true) =>
    let r := pool.store bytesLen key blob reuseId
    (r.1, r.2, displaced)

def insert (pool : CheckpointPool D B) (key : CheckpointKey D) (blob : B) : CheckpointPool D B × Nat × List B :=
  if isAligned key.2.1 then pool.insertUnaligned bytesLen key blob else (pool, noCheckpoint, [blob])

def popLru (pool : CheckpointPool D B) : CheckpointPool D B × Option (CheckpointKey D × B) :=
  match pool.findOldestUnpinnedKey with
  | none => (pool, none)
  | some key =>
    let r := pool.evictInternal bytesLen key
    (r.1, r.2.map fun blob => (key, blob))

def evict (pool : CheckpointPool D B) (key : CheckpointKey D) : CheckpointPool D B × Option B :=
  pool.evictInternal bytesLen key

omit bytesLen

def contains (pool : CheckpointPool D B) (key : CheckpointKey D) : Bool := (pool.entries.lookup key).isSome

/-- `get` refreshes the stamp. -/
def get (pool : CheckpointPool D B) (key : CheckpointKey D) : CheckpointPool D B × Option B :=
  match pool.entries.lookup key with
  | none => (pool, none)
  | some e =>
    ({ pool with
        lruClock := pool.lruClock + 1
        entries := Maps.modify key (fun e => { e with lruStamp := pool.lruClock + 1 }) pool.entries }, some e.blob)

/-- `entry.pins = n`, if there is an entry. -/
def setPins (pool : CheckpointPool D B) (key : CheckpointKey D) (n : Nat) : CheckpointPool D B × Bool :=
  ({ pool with entries := Maps.modify key (fun e => { e with pins := n }) pool.entries }, pool.contains key)

def pin (pool : CheckpointPool D B) (key : CheckpointKey D) : CheckpointPool D B × Bool := pool.setPins key 1

def unpin (pool : CheckpointPool D B) (key : CheckpointKey D) : CheckpointPool D B × Bool := pool.setPins key 0

/-- The stored blobs. -/
def blobs (pool : CheckpointPool D B) : List B := pool.entries.entries.map fun e => e.2.blob

def drainBlobs (pool : CheckpointPool D B) : CheckpointPool D B × List B :=
  ({ pool with totalBytes := 0, entries := ∅ }, pool.blobs)

def wasEvicted (pool : CheckpointPool D B) (domain : D) (maxP : Nat) : Bool :=
  pool.evicted.any fun k => decide (k.1 = domain ∧ k.2.1 ≤ maxP ∧ 0 < k.2.1)

end CheckpointPool

/-! ## Planning a resume -/

inductive DrafterDecision
  | checkpoint
  | reseed
  | ar
  deriving DecidableEq, Repr

inductive LastTokenHandling
  | suffixRecompute
  | earlierBoundary
  deriving DecidableEq, Repr

/-- The reasons `plan_resume` gives. -/
inductive MissReason
  | noCheckpoint
  | evicted
  deriving DecidableEq, Repr

/-- A plan; its bundle is `complete_bundle`, so only the drafter's part of it varies. -/
structure ResumePlan where
  boundary : Nat
  drafter : DrafterDecision
  byteCost : Nat
  lastToken : LastTokenHandling
  deriving DecidableEq, Repr

section Resume

variable (bytesLen : B → Nat) (prefixFingerprint : List Nat → Nat)

/-- The key of the checkpoint of a prefix. -/
def prefixKey (domain : D) (tokens : List Nat) (p : Nat) : CheckpointKey D := (domain, p, prefixFingerprint (tokens.take p))

/-- The largest page-aligned boundary of at most so many pages with a checkpoint of this prompt's prefix. -/
def findLargestPoolCheckpoint (pool : CheckpointPool D B) (domain : D) (tokens : List Nat) : Nat → Option Nat
  | 0 => none
  | n + 1 =>
    let p := (n + 1) * pageTokens
    if decide (p ≤ tokens.length) && pool.contains (prefixKey prefixFingerprint domain tokens p) then some p
    else findLargestPoolCheckpoint pool domain tokens n

def planResumeInner (pool : CheckpointPool D B) (domain : D) (tokens : List Nat) (resumable : Nat)
    (drafter : DrafterDecision) : Except MissReason ResumePlan :=
  let find := findLargestPoolCheckpoint prefixFingerprint pool domain tokens
  let byteCost := fun p =>
    ((pool.entries.lookup (prefixKey prefixFingerprint domain tokens p)).map fun e => bytesLen e.blob).getD 0
  match find (resumable / pageTokens) with
  | some p =>
    if tokens.length = p ∧ 0 < tokens.length then
      -- the whole prompt is cached: an earlier boundary, or the initial state
      let ep := (find ((p - pageTokens) / pageTokens)).getD 0
      .ok ⟨ep, drafter, if ep = 0 then 0 else byteCost ep, .earlierBoundary⟩
    else .ok ⟨p, drafter, byteCost p, .suffixRecompute⟩
  | none =>
    if resumable = 0 ∧ tokens.length = 0 then .ok ⟨0, drafter, 0, .suffixRecompute⟩
    else if pool.wasEvicted domain resumable then .error .evicted
    else .error .noCheckpoint

/-- `plan_resume` pins the chosen boundary's checkpoint. -/
def planResume (pool : CheckpointPool D B) (domain : D) (tokens : List Nat) (resumable : Nat) (drafter : DrafterDecision) :
    CheckpointPool D B × Except MissReason ResumePlan :=
  match planResumeInner bytesLen prefixFingerprint pool domain tokens resumable drafter with
  | .error e => (pool, .error e)
  | .ok plan =>
    (if 0 < plan.boundary ∧ plan.boundary ≤ tokens.length then
      (pool.pin (prefixKey prefixFingerprint domain tokens plan.boundary)).1 else pool, .ok plan)

end Resume

/-! ## Calls -/

inductive PoolOp (D B : Type)
  | insert (key : CheckpointKey D) (blob : B)
  | insertUnaligned (key : CheckpointKey D) (blob : B)
  | get (key : CheckpointKey D)
  | pin (key : CheckpointKey D)
  | unpin (key : CheckpointKey D)
  | evict (key : CheckpointKey D)
  | popLru
  | drainBlobs
  | planResume (domain : D) (tokens : List Nat) (resumable : Nat) (drafter : DrafterDecision)

/-- The blob a call takes. -/
def PoolOp.given : PoolOp D B → List B
  | .insert _ blob => [blob]
  | .insertUnaligned _ blob => [blob]
  | _ => []

/-- A call: the pool after it and the blobs it hands back. -/
def PoolOp.call (bytesLen : B → Nat) (prefixFingerprint : List Nat → Nat) (pool : CheckpointPool D B) :
    PoolOp D B → CheckpointPool D B × List B
  | .insert key blob => let r := pool.insert bytesLen key blob; (r.1, r.2.2)
  | .insertUnaligned key blob => let r := pool.insertUnaligned bytesLen key blob; (r.1, r.2.2)
  | .get key => ((pool.get key).1, [])
  | .pin key => ((pool.pin key).1, [])
  | .unpin key => ((pool.unpin key).1, [])
  | .evict key => let r := pool.evict bytesLen key; (r.1, r.2.toList)
  | .popLru => let r := pool.popLru bytesLen; (r.1, (r.2.map Prod.snd).toList)
  | .drainBlobs => pool.drainBlobs
  | .planResume d ts n dd => ((Checkpoint.planResume bytesLen prefixFingerprint pool d ts n dd).1, [])

end Hipfire.Checkpoint
