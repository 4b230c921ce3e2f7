import Hipfire.Base.Streams
import Hipfire.Serve.SlotPool
/-!
# Snapshot — a slot's state, packed and put back

`snapshot.rs`: `capture_slot` copies a slot's live rows of every arena, page by page or from its slab, and the extra
buffers into one payload; `restore_slot` checks a snapshot against its stamp, then copies the payload to the rows of another
slot.  Device memory is a byte for every buffer and offset; a device copy may fail, which a caller-chosen `fault` says.
-/
namespace Hipfire.Swap

open Pages Serve

inductive SwapError
  | stamp (message : String)
  | corrupt (message : String)
  | io (message : String)
  | gpu (message : String)
  deriving DecidableEq, Repr

/-- An error, or a failed assertion or slice. -/
inductive Failure
  | swap (e : SwapError)
  | panicked
  deriving DecidableEq, Repr

/-- FNV-1a. -/
def checksumOf (bytes : List UInt8) : UInt64 :=
  bytes.foldl (fun h b => (h ^^^ b.toUInt64) * 0x100000001b3) 0xcbf29ce484222325

structure SnapshotStamp where
  modelHash : Nat
  instanceId : Nat
  kvDtypeTag : Nat
  perPosBytes : Nat
  perPosVBytes : Nat
  nFaLayers : Nat
  dnLayoutVersion : Nat
  cap : Nat
  dnBytes : Nat
  deriving DecidableEq, Repr

/-- What `{:?}` prints. -/
def SnapshotStamp.debug (s : SnapshotStamp) : String :=
  s!"SnapshotStamp \x7b model_hash: {s.modelHash}, instance_id: {s.instanceId}, kv_dtype_tag: {s.kvDtypeTag}, " ++
  s!"per_pos_bytes: {s.perPosBytes}, per_pos_v_bytes: {s.perPosVBytes}, n_fa_layers: {s.nFaLayers}, " ++
  s!"dn_layout_version: {s.dnLayoutVersion}, cap: {s.cap}, dn_bytes: {s.dnBytes} \x7d"

/-- What `{:#x}` prints. -/
def hex (x : UInt64) : String := "0x" ++ String.ofList (Nat.toDigits 16 x.toNat)

structure SlotSnapshot where
  stamp : SnapshotStamp
  seqLen : Nat
  tokens : List Nat
  payload : List UInt8
  checksum : UInt64
  deriving DecidableEq, Repr

namespace SlotSnapshot

variable (snap : SlotSnapshot)

def expectedLen : Nat :=
  snap.stamp.nFaLayers * snap.seqLen * (snap.stamp.perPosBytes + snap.stamp.perPosVBytes) + snap.stamp.dnBytes

/-- Stamp, then length, then checksum. -/
def validate (expect : SnapshotStamp) : Except SwapError Unit :=
  if snap.stamp ≠ expect then .error (.stamp s!"snapshot {snap.stamp.debug} != expected {expect.debug}")
  else
    let want := snap.expectedLen
    if snap.payload.length ≠ want then .error (.corrupt s!"payload is {snap.payload.length} bytes, expected {want}")
    else
      let got := checksumOf snap.payload
      if got ≠ snap.checksum then .error (.corrupt s!"checksum {hex got} != recorded {hex snap.checksum}") else .ok ()

end SlotSnapshot

/-! ## Device memory -/

/-- A byte for every buffer and offset. -/
abbrev Mem := Nat × Nat → UInt8

/-- A device buffer, in bytes. -/
structure Tensor where
  buf : Nat
  size : Nat
  deriving DecidableEq, Repr

/-- One copy between a view of a device buffer and the payload. -/
structure Copy where
  tensor : Tensor
  offset : Nat
  bytes : Nat
  deriving DecidableEq, Repr

def Copy.cells (c : Copy) : List (Nat × Nat) := (List.range c.bytes).map fun j => (c.tensor.buf, c.offset + j)

/-- The copies from the device, in order, into a payload with `room` bytes left; these stay zero where no copy comes. -/
def gather (fault : Nat → Option String) (mem : Mem) : Nat → Nat → List Copy → Except Failure (List UInt8)
  | _, room, [] => .ok (List.replicate room 0)
  | k, room, c :: copies =>
    if c.tensor.size < c.offset + c.bytes ∨ room < c.bytes then .error .panicked
    else match fault k with
      | some e => .error (.swap (.gpu e))
      | none => (gather fault mem (k + 1) (room - c.bytes) copies).map (c.cells.map mem ++ ·)

/-- The copies to the device, in order, from the rest of the payload. -/
def scatter (fault : Nat → Option String) : Nat → List Copy → List UInt8 → Mem → Mem × Except Failure Unit
  | _, [], _, mem => (mem, .ok ())
  | k, c :: copies, payload, mem =>
    if c.tensor.size < c.offset + c.bytes ∨ payload.length < c.bytes then (mem, .error .panicked)
    else match fault k with
      | some e => (mem, .error (.swap (.gpu e)))
      | none => scatter fault (k + 1) copies (payload.drop c.bytes) (writeAll (c.cells.zip (payload.take c.bytes)) mem)

/-! ## The spans of a slot -/

/-- A slot's live rows in a paged arena: the full pages, then the rows of the partial last page. -/
def pagedSpans (table : BlockTable) (seqLen perPos : Nat) : List (Nat × Nat) :=
  let pageBytes := pageTokens * perPos
  let nFullPages := seqLen / pageTokens
  let lastPageTokens := seqLen % pageTokens
  (table.pages.take nFullPages).map (fun phys => (phys * pageBytes, pageBytes)) ++
    if 0 < lastPageTokens then
      (table.physical nFullPages).toList.map (fun phys => (phys * pageBytes, lastPageTokens * perPos))
    else []

def slabSpans (base span : Nat) : List (Nat × Nat) := if 0 < span then [(base, span)] else []

/-- The device buffers of a rig: K and V arenas by layer, and the extra buffers of one slot. -/
structure Buffers where
  kArenas : List Tensor
  vArenas : List Tensor
  extra : List Tensor

def Buffers.dnTotal (bufs : Buffers) : Nat := (bufs.extra.map Tensor.size).sum

/-- The payload's size for some spans. -/
def Buffers.total (bufs : Buffers) (spanK spanV : Nat) : Nat := bufs.kArenas.length * (spanK + spanV) + bufs.dnTotal

def arenaCopies (arenas : List Tensor) (spans : List (Nat × Nat)) : List Copy :=
  arenas.flatMap fun arena => spans.map fun s => ⟨arena, s.1, s.2⟩

def neededPages (seqLen : Nat) : Nat := seqLen / pageTokens + if 0 < seqLen % pageTokens then 1 else 0

/-- Every copy of a slot: K arenas, V arenas, extra buffers.  `verb` and `act` are the two callers' words. -/
def slotCopies (verb act : String) (pool : SlotPool) (slot : Nat) (bufs : Buffers) (seqLen perPosK perPosV : Nat) :
    Except Failure (List Copy) :=
  let extra := bufs.extra.map fun t => (⟨t, 0, t.size⟩ : Copy)
  match pool.descs[slot]? with
  | none => .error .panicked
  | some desc =>
    if pool.pagePool.isSome then
      match pool.blockTable slot with
      | none => .error (.swap (.gpu s!"{verb}: slot has no block table"))
      | some table =>
        if table.pages.length < neededPages seqLen then
          .error (.swap (.corrupt (s!"{verb}: block table holds {table.pages.length} pages but seq_len {seqLen} needs " ++
            s!"{neededPages seqLen} — refusing to {act} past the table")))
        else .ok (arenaCopies bufs.kArenas (pagedSpans table seqLen perPosK) ++
          arenaCopies bufs.vArenas (pagedSpans table seqLen perPosV) ++ extra)
    else .ok (arenaCopies bufs.kArenas (slabSpans desc.legacyKBase (seqLen * perPosK)) ++
      arenaCopies bufs.vArenas (slabSpans desc.legacyVBase (seqLen * perPosV)) ++ extra)

/-- The live length of a slot: the block table's in paged mode, the descriptor's otherwise. -/
def liveLength (pool : SlotPool) (slot : Nat) : Except Failure Nat :=
  match pool.descs[slot]? with
  | none => .error .panicked
  | some desc =>
    if pool.pagePool.isSome then
      match pool.blockTable slot with
      | none => .error (.swap (.gpu "capture: slot has no block table"))
      | some table => .ok table.liveTokens
    else .ok desc.seqLen

def captureSlot (fault : Nat → Option String) (pool : SlotPool) (slot : Nat) (bufs : Buffers) (tokens : List Nat)
    (stamp : SnapshotStamp) (mem : Mem) : Except Failure SlotSnapshot := do
  let seqLen ← liveLength pool slot
  let total := bufs.total (seqLen * stamp.perPosBytes) (seqLen * stamp.perPosVBytes)
  let copies ← slotCopies "capture" "read" pool slot bufs seqLen stamp.perPosBytes stamp.perPosVBytes
  let payload ← gather fault mem 0 total copies
  return ⟨stamp, seqLen, tokens, payload, checksumOf payload⟩

/-- The length is published last.  `cap` is the pool's `cap_tokens`. -/
def restoreSlot (fault : Nat → Option String) (cap : Nat) (pool : SlotPool) (slot : Nat) (bufs : Buffers)
    (snap : SlotSnapshot) (expect : SnapshotStamp) (mem : Mem) : (SlotPool × Mem) × Except Failure Unit :=
  match snap.validate expect with
  | .error e => ((pool, mem), .error (.swap e))
  | .ok () =>
    if bufs.total (snap.seqLen * snap.stamp.perPosBytes) (snap.seqLen * snap.stamp.perPosVBytes) ≠ snap.payload.length then
      ((pool, mem), .error (.swap (.corrupt "payload does not match this rig's arena and state sizes")))
    else
      let (pool, provisioned) :=
        if pool.pagePool.isSome then pool.provisionPagesFor cap slot snap.seqLen else (pool, .ok ())
      match provisioned with
      | .error e => ((pool, mem), .error (.swap (.gpu e)))
      | .ok () =>
        match slotCopies "restore" "write" pool slot bufs snap.seqLen snap.stamp.perPosBytes snap.stamp.perPosVBytes with
        | .error e => ((pool, mem), .error e)
        | .ok copies =>
          match scatter fault 0 copies snap.payload mem with
          | (mem, .error e) => ((pool, mem), .error e)
          | (mem, .ok ()) =>
            match pool.setSeqLen cap slot snap.seqLen with
            | (pool, .error e) => ((pool, mem), .error (.swap (.gpu e)))
            | (pool, .ok ()) => ((pool, mem), .ok ())

end Hipfire.Swap
