import Hipfire.Pages.Pool
/-!
# SlotPool — the slots that sessions run in

`slot_pool.rs`: a descriptor, a use bit, a block table and a generation for every slot.  In paged mode a slot's pages come
from a shared page pool and go back to it when the slot is released.
-/
namespace Hipfire.Serve

open Pages

structure KvSlotDesc where
  blockTable : Nat
  legacyKBase : Nat
  legacyVBase : Nat
  seqLen : Nat
  pageTokens : Nat
deriving DecidableEq, Repr

structure SlotPool where
  descs : List KvSlotDesc
  inUse : List Bool
  dirty : Bool
  pagePool : Option PagePool
  blockTables : List (Option BlockTable)
  blockTablesDirty : List Bool
  slotGenerations : List Nat

namespace SlotPool

/-- `new_paged_with_strides`: the same slots over a shared pool of pages. -/
def newPagedWithStrides (nSlots kPerPosBytes vPerPosBytes nPages : Nat) : SlotPool where
  descs := List.replicate nSlots ⟨0, 0, 0, 0, 0⟩
  inUse := List.replicate nSlots false
  dirty := true
  pagePool := some (.new nPages kPerPosBytes vPerPosBytes)
  blockTables := List.replicate nSlots none
  blockTablesDirty := List.replicate nSlots false
  slotGenerations := List.replicate nSlots 0

variable (pool : SlotPool)

/-- `seq_len = 0`, noted as a change when it was not zero. -/
def zeroLength (id : Nat) : SlotPool :=
  if (pool.descs[id]?.map KvSlotDesc.seqLen).getD 0 ≠ 0 then
    { pool with descs := pool.descs.modify id (fun desc => { desc with seqLen := 0 }), dirty := true }
  else pool

/-- The pages of a slot's table go back. -/
def truncateTable (pages : PagePool) (id : Nat) : SlotPool :=
  match pool.blockTables[id]?.join with
  | none => pool
  | some table =>
    if 0 < table.pages.length then
      let (pages, table, _) := pages.releaseTable table
      { pool with
        pagePool := some pages
        blockTables := pool.blockTables.set id (some table)
        blockTablesDirty := pool.blockTablesDirty.set id true }
    else pool

def legacyDesc (id : Nat) : SlotPool := { pool with descs := pool.descs.modify id (fun desc => ⟨0, 0, 0, desc.seqLen, 0⟩) }

/-- Zero a slot's length; in paged mode its pages go back and its descriptor to legacy mode. -/
def reset (id : Nat) : SlotPool :=
  match (pool.zeroLength id).pagePool with
  | none => pool.zeroLength id
  | some pages => ((pool.zeroLength id).truncateTable pages id).legacyDesc id

/-- Take the first free slot. -/
def acquire : SlotPool × Option Nat :=
  match pool.inUse.findIdx? (fun used => !used) with
  | none => (pool, none)
  | some i =>
    let pool := { pool with inUse := pool.inUse.set i true }.reset i
    if pool.pagePool.isSome then
      ({ pool with
        blockTables := pool.blockTables.set i (some .new)
        blockTablesDirty := pool.blockTablesDirty.set i true }, some i)
    else (pool, some i)

/-- In paged mode, free the pages of a slot's table and drop the table. -/
def dropTable (id : Nat) : SlotPool :=
  match pool.pagePool with
  | none => pool
  | some pages =>
    { pool with
      pagePool := some (match pool.blockTables[id]?.join with
        | some table => (pages.releaseTable table).1
        | none => pages)
      blockTables := pool.blockTables.set id none
      blockTablesDirty := pool.blockTablesDirty.set id false }

/-- Give a slot back, with its pages, under a new generation. -/
def release (id : Nat) : SlotPool :=
  let pool := (pool.reset id).dropTable id
  { pool with
    slotGenerations := pool.slotGenerations.modify id wrappingInc
    inUse := pool.inUse.set id false }

/-! ## Lengths -/

def i32Max : Nat := 2147483647

/-- The block table of a slot, in paged mode. -/
def blockTable (slot : Nat) : Option BlockTable := pool.blockTables[slot]?.join

/-- `provision_pages_for`: the pages for a length that is not published yet.  `cap` is the pool's `cap_tokens`. -/
def provisionPagesFor (cap id seqLen : Nat) : SlotPool × Except String Unit :=
  if cap < seqLen then (pool, .error s!"SlotPool: slot {id} seq_len {seqLen} exceeds cap {cap}")
  else if i32Max < seqLen then (pool, .error s!"SlotPool: slot {id} seq_len {seqLen} exceeds the i32 descriptor ABI")
  else match pool.pagePool with
    | none => (pool, .ok ())
    | some pages =>
      match pool.blockTable id with
      | none => (pool, .error s!"SlotPool: slot {id} has no block table")
      | some table =>
        match pages.ensureCapacity table seqLen with
        | (pages, table, .error e) =>
          ({ pool with pagePool := some pages, blockTables := pool.blockTables.set id (some table) }, .error e)
        | (pages, table, .ok _) =>
          ({ pool with
            pagePool := some pages
            blockTables := pool.blockTables.set id (some table)
            blockTablesDirty := pool.blockTablesDirty.set id true }, .ok ())

def publishLength (id seqLen : Nat) : SlotPool :=
  if pool.descs[id]?.map KvSlotDesc.seqLen ≠ some seqLen then
    { pool with descs := pool.descs.modify id (fun desc => { desc with seqLen }), dirty := true }
  else pool

/-- `set_seq_len`: the same checks and pages, and the length for the readers. -/
def setSeqLen (cap id seqLen : Nat) : SlotPool × Except String Unit :=
  match pool.provisionPagesFor cap id seqLen with
  | (pool, .error e) => (pool, .error e)
  | (pool, .ok ()) => (pool.publishLength id seqLen, .ok ())

/-! ## The use bits -/

variable (id : Nat)

theorem inUse_zeroLength : (pool.zeroLength id).inUse = pool.inUse := by
  unfold zeroLength
  split <;> rfl

theorem inUse_truncateTable (pages : PagePool) (id : Nat) : (pool.truncateTable pages id).inUse = pool.inUse := by
  unfold truncateTable
  split
  · rfl
  · split <;> rfl

theorem inUse_reset : (pool.reset id).inUse = pool.inUse := by
  unfold reset
  split
  · exact pool.inUse_zeroLength id
  · show ((pool.zeroLength id).truncateTable _ id).inUse = pool.inUse
    rw [inUse_truncateTable, inUse_zeroLength]

theorem inUse_dropTable : (pool.dropTable id).inUse = pool.inUse := by
  unfold dropTable
  split <;> rfl

theorem inUse_release : (pool.release id).inUse = pool.inUse.set id false := by
  show ((pool.reset id).dropTable id).inUse.set id false = _
  rw [inUse_dropTable, inUse_reset]

/-- **What `acquire` does to the use bits**: the first free one is set. -/
theorem acquire_cases : (pool.acquire = (pool, none) ∧ ∀ b ∈ pool.inUse, b = true) ∨
      ∃ i, pool.acquire.2 = some i ∧ pool.inUse[i]? = some false ∧ pool.acquire.1.inUse = pool.inUse.set i true := by
  unfold acquire
  cases h : pool.inUse.findIdx? (fun used => !used) with
  | none =>
    refine Or.inl ⟨rfl, fun b hb => ?_⟩
    have := List.findIdx?_eq_none_iff.1 h b hb
    simpa using this
  | some i =>
    refine Or.inr ⟨i, ?_, ?_, ?_⟩
    · dsimp only
      split <;> rfl
    · obtain ⟨hlt, hi, -⟩ := List.findIdx?_eq_some_iff_getElem.1 h
      rw [List.getElem?_eq_getElem hlt]
      simpa using hi
    · dsimp only
      split
      · exact inUse_reset _ i
      · exact inUse_reset _ i

end SlotPool
end Hipfire.Serve
