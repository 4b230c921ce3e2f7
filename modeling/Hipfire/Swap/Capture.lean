import Hipfire.Pages.Loops
import Hipfire.Swap.Spans
/-!
# Capture — the copies of a slot as byte streams, and the slot they are put back into

A slot's copies list the bytes of its streams: its rows in every K arena, in every V arena, and the extra buffers.
`capture_slot` packs these bytes.  A fresh slot is provisioned with free pages and its length is published without another.
-/
namespace Hipfire.Swap

open Pages Serve List

variable {cap slot n perPos : Nat} {pool pool' : SlotPool} {bufs bufs' : Buffers} {stamp : SnapshotStamp}

/-- No device copy fails. -/
def noFault : Nat → Option String := fun _ => none

/-! ## The copies as one list of bytes -/

theorem Copy.length_cells (c : Copy) : c.cells.length = c.bytes := by
  simp [Copy.cells]

theorem length_flatMap_cells (copies : List Copy) : (copies.flatMap Copy.cells).length = (copies.map Copy.bytes).sum := by
  rw [length_flatMap]
  exact congrArg sum (map_congr_left fun c _ => c.length_cells)

theorem gather_ok (mem : Mem) : ∀ (copies : List Copy) (k room : Nat),
    (∀ c ∈ copies, c.offset + c.bytes ≤ c.tensor.size) → (copies.map Copy.bytes).sum = room →
    gather noFault mem k room copies = .ok ((copies.flatMap Copy.cells).map mem)
  | [], _, room, _, hroom => by
    rw [← hroom]
    rfl
  | c :: copies, k, room, hfit, hroom => by
    rw [map_cons, sum_cons] at hroom
    have hc := hfit c mem_cons_self
    have hrest := gather_ok mem copies (k + 1) (room - c.bytes) (forall_mem_cons.1 hfit).2
      (by omega)
    rw [gather, if_neg (by omega)]
    rw [hrest, flatMap_cons, map_append]
    rfl

theorem zip_append_payload {α β : Type} (xs ys : List α) (payload : List β) (h : xs.length ≤ payload.length) :
    (xs ++ ys).zip payload = xs.zip (payload.take xs.length) ++ ys.zip (payload.drop xs.length) := by
  conv_lhs => rw [← take_append_drop xs.length payload]
  refine zip_append ?_
  rw [length_take, Nat.min_eq_left h]

theorem scatter_ok : ∀ (copies : List Copy) (k : Nat) (payload : List UInt8) (mem : Mem),
    (∀ c ∈ copies, c.offset + c.bytes ≤ c.tensor.size) → (copies.map Copy.bytes).sum = payload.length →
    scatter noFault k copies payload mem = (writeAll ((copies.flatMap Copy.cells).zip payload) mem, .ok ())
  | [], _, _, _, _, _ => rfl
  | c :: copies, k, payload, mem, hfit, hlen => by
    rw [map_cons, sum_cons] at hlen
    have hc := hfit c mem_cons_self
    have hle : c.cells.length ≤ payload.length := by
      rw [c.length_cells]
      omega
    have hrest := scatter_ok copies (k + 1) (payload.drop c.bytes) (writeAll (c.cells.zip (payload.take c.bytes)) mem)
      (forall_mem_cons.1 hfit).2 (by rw [length_drop]; omega)
    rw [scatter, if_neg (by omega)]
    simp only [noFault] at hrest ⊢
    rw [hrest, flatMap_cons, zip_append_payload _ _ _ hle, writeAll_append, c.length_cells]

/-- **Whatever copies fail, only bytes of the copies change.** -/
theorem scatter_frame (fault : Nat → Option String) {a : Nat × Nat} : ∀ (copies : List Copy) (k : Nat)
    (payload : List UInt8) (mem : Mem), a ∉ copies.flatMap Copy.cells → (scatter fault k copies payload mem).1 a = mem a
  | [], _, _, _, _ => rfl
  | c :: copies, k, payload, mem, h => by
    rw [flatMap_cons, mem_append, not_or] at h
    rw [scatter]
    split
    · rfl
    split
    · rfl
    · rw [scatter_frame fault copies (k + 1) _ _ h.2]
      refine writeAll_of_not_mem fun hmem => h.1 ?_
      obtain ⟨w, hw, rfl⟩ := mem_map.1 hmem
      exact (of_mem_zip hw).1

/-! ## The copies as streams -/

/-- The bytes of a slot: its rows in the K arenas and the V arenas, and the extra buffers. -/
def slotStreams (pool : SlotPool) (slot : Nat) (bufs : Buffers) (n perPosK perPosV : Nat) : List (Stream Nat) :=
  bufs.kArenas.map (fun t => ⟨t.buf, n * perPosK, slotAddr pool slot KvSlotDesc.legacyKBase perPosK⟩) ++
    bufs.vArenas.map (fun t => ⟨t.buf, n * perPosV, slotAddr pool slot KvSlotDesc.legacyVBase perPosV⟩) ++
    bufs.extra.map fun t => ⟨t.buf, t.size, id⟩

def copyList (pool : SlotPool) (slot : Nat) (bufs : Buffers) (n perPosK perPosV : Nat) : List Copy :=
  arenaCopies bufs.kArenas (slotSpans pool slot KvSlotDesc.legacyKBase perPosK n) ++
    arenaCopies bufs.vArenas (slotSpans pool slot KvSlotDesc.legacyVBase perPosV n) ++
    bufs.extra.map fun t => ⟨t, 0, t.size⟩

theorem slotCopies_ok (h : Rows cap pool slot n) (verb act : String) (bufs : Buffers) (perPosK perPosV : Nat) :
    slotCopies verb act pool slot bufs n perPosK perPosV = .ok (copyList pool slot bufs n perPosK perPosV) := by
  cases h with
  | paged desc pages table hdesc hpool htable hroom hin =>
    have hneeded : ¬ table.pages.length < neededPages n := Nat.not_lt.2 (neededPages_le hroom)
    simp [slotCopies, copyList, slotSpans, hdesc, hpool, htable, hneeded]
  | legacy desc hdesc hpool hcap => simp [slotCopies, copyList, slotSpans, hdesc, hpool]

theorem flatMap_cells_arenaCopies {spans : List (Nat × Nat)} {len : Nat} {addr : Nat → Nat}
    (h : spanOffsets spans = (range len).map addr) : ∀ (arenas : List Tensor),
    (arenaCopies arenas spans).flatMap Copy.cells =
      (arenas.map fun t => (⟨t.buf, len, addr⟩ : Stream Nat)).flatMap Stream.cells
  | [] => rfl
  | t :: arenas => by
    have hone : (spans.map fun s => (⟨t, s.1, s.2⟩ : Copy)).flatMap Copy.cells = (spanOffsets spans).map (t.buf, ·) := by
      rw [spanOffsets, map_flatMap, flatMap_map]
      refine congrArg (flatMap · spans) (funext fun s => ?_)
      simp [Copy.cells]
    have hrest := flatMap_cells_arenaCopies h arenas
    unfold arenaCopies at hrest ⊢
    rw [flatMap_cons, flatMap_append, hone, hrest, h, map_map, map_cons, flatMap_cons]
    rfl

/-- **The copies of a slot are its streams.** -/
theorem flatMap_cells_copyList (h : Rows cap pool slot n) (bufs : Buffers) (perPosK perPosV : Nat) :
    (copyList pool slot bufs n perPosK perPosV).flatMap Copy.cells =
      (slotStreams pool slot bufs n perPosK perPosV).flatMap Stream.cells := by
  unfold copyList slotStreams
  rw [flatMap_append, flatMap_append, flatMap_append, flatMap_append,
    flatMap_cells_arenaCopies (spanOffsets_slotSpans h _ perPosK),
    flatMap_cells_arenaCopies (spanOffsets_slotSpans h _ perPosV)]
  congr 1
  rw [flatMap_map, flatMap_map]
  simp [Copy.cells, Stream.cells]

/-- The stamp and the buffers are those of the pool. -/
structure Fits (cap : Nat) (pool : SlotPool) (bufs : Buffers) (stamp : SnapshotStamp) : Prop where
  layers : bufs.kArenas.length = stamp.nFaLayers
  layersV : bufs.vArenas.length = stamp.nFaLayers
  kSize : ∀ t ∈ bufs.kArenas, arenaBytes cap pool stamp.perPosBytes ≤ t.size
  vSize : ∀ t ∈ bufs.vArenas, arenaBytes cap pool stamp.perPosVBytes ≤ t.size
  kSlabs : Slabs cap pool KvSlotDesc.legacyKBase stamp.perPosBytes
  vSlabs : Slabs cap pool KvSlotDesc.legacyVBase stamp.perPosVBytes
  dn : bufs.dnTotal = stamp.dnBytes
  distinct : ((bufs.kArenas ++ bufs.vArenas ++ bufs.extra).map Tensor.buf).Nodup

theorem Fits.within (hfit : Fits cap pool bufs stamp) (h : Rows cap pool slot n) {c : Copy}
    (hc : c ∈ copyList pool slot bufs n stamp.perPosBytes stamp.perPosVBytes) : c.offset + c.bytes ≤ c.tensor.size := by
  rcases mem_append.1 hc with hc | hc
  · rcases mem_append.1 hc with hc | hc
    · obtain ⟨t, ht, hc⟩ := mem_flatMap.1 hc
      obtain ⟨s, hs, rfl⟩ := mem_map.1 hc
      exact Nat.le_trans (slotSpans_within h hfit.kSlabs hs) (hfit.kSize t ht)
    · obtain ⟨t, ht, hc⟩ := mem_flatMap.1 hc
      obtain ⟨s, hs, rfl⟩ := mem_map.1 hc
      exact Nat.le_trans (slotSpans_within h hfit.vSlabs hs) (hfit.vSize t ht)
  · obtain ⟨t, -, rfl⟩ := mem_map.1 hc
    exact Nat.le_of_eq (Nat.zero_add _)

theorem map_len_slotStreams (pool : SlotPool) (slot : Nat) (bufs : Buffers) (n perPosK perPosV : Nat) :
    (slotStreams pool slot bufs n perPosK perPosV).map Stream.len =
      replicate bufs.kArenas.length (n * perPosK) ++ replicate bufs.vArenas.length (n * perPosV) ++
        bufs.extra.map Tensor.size := by
  simp [slotStreams, Function.comp_def]

/-- The copies fill the payload that `capture_slot` sizes. -/
theorem Fits.sum_bytes (hfit : Fits cap pool bufs stamp) (h : Rows cap pool slot n) :
    ((copyList pool slot bufs n stamp.perPosBytes stamp.perPosVBytes).map Copy.bytes).sum =
      bufs.total (n * stamp.perPosBytes) (n * stamp.perPosVBytes) := by
  rw [← length_flatMap_cells, flatMap_cells_copyList h, Stream.length_flatMap_cells, map_len_slotStreams]
  simp only [sum_append, sum_replicate_nat, Buffers.total, Buffers.dnTotal]
  rw [hfit.layers, hfit.layersV]
  ring

/-! ## Capture -/

/-- What `capture_slot` packs: the bytes of the slot's streams. -/
def packed (pool : SlotPool) (slot : Nat) (bufs : Buffers) (n : Nat) (stamp : SnapshotStamp) (mem : Mem) : List UInt8 :=
  ((slotStreams pool slot bufs n stamp.perPosBytes stamp.perPosVBytes).flatMap Stream.cells).map mem

/-- The snapshot of a capture. -/
def captured (pool : SlotPool) (slot : Nat) (bufs : Buffers) (n : Nat) (tokens : List Nat) (stamp : SnapshotStamp)
    (mem : Mem) : SlotSnapshot :=
  ⟨stamp, n, tokens, packed pool slot bufs n stamp mem, checksumOf (packed pool slot bufs n stamp mem)⟩

theorem captureSlot_ok (hfit : Fits cap pool bufs stamp) (h : Rows cap pool slot n) (hlive : liveLength pool slot = .ok n)
    (tokens : List Nat) (mem : Mem) :
    captureSlot noFault pool slot bufs tokens stamp mem = .ok (captured pool slot bufs n tokens stamp mem) := by
  have hgather := gather_ok mem (copyList pool slot bufs n stamp.perPosBytes stamp.perPosVBytes) 0
    (bufs.total (n * stamp.perPosBytes) (n * stamp.perPosVBytes)) (fun c hc => hfit.within h hc) (hfit.sum_bytes h)
  rw [flatMap_cells_copyList h] at hgather
  unfold captureSlot
  rw [hlive]
  simp only [bind, Except.bind, slotCopies_ok h]
  rw [hgather]
  rfl

theorem length_packed (hfit : Fits cap pool bufs stamp) (h : Rows cap pool slot n) (mem : Mem) :
    (packed pool slot bufs n stamp mem).length = bufs.total (n * stamp.perPosBytes) (n * stamp.perPosVBytes) := by
  rw [packed, length_map, ← flatMap_cells_copyList h, length_flatMap_cells, hfit.sum_bytes h]

theorem validate_captured (hfit : Fits cap pool bufs stamp) (h : Rows cap pool slot n) (tokens : List Nat) (mem : Mem) :
    (captured pool slot bufs n tokens stamp mem).validate stamp = .ok () := by
  have hlen : bufs.total (n * stamp.perPosBytes) (n * stamp.perPosVBytes) =
      stamp.nFaLayers * n * (stamp.perPosBytes + stamp.perPosVBytes) + stamp.dnBytes := by
    unfold Buffers.total
    rw [hfit.layers, hfit.dn]
    ring
  simp [captured, SlotSnapshot.validate, SlotSnapshot.expectedLen, length_packed hfit h, hlen]

/-! ## A fresh slot and its pages -/

/-- A slot as `acquire` leaves it, in a pool that has the pages for `n` rows. -/
inductive Fresh (pool : SlotPool) (slot n : Nat) : Prop
  | paged (desc : KvSlotDesc) (pages : PagePool) {table cache inflight : Nat → Nat} (hdesc : pool.descs[slot]? = some desc)
      (hpool : pool.pagePool = some pages) (htable : pool.blockTable slot = some .new)
      (htally : Tally pages.nPages pages table cache inflight) (hfree : neededPages n ≤ pages.freePages.length)
  | legacy (desc : KvSlotDesc) (hdesc : pool.descs[slot]? = some desc) (hpool : pool.pagePool = none)

/-- The slot of `pool'` has room for `n` rows, in pages that were free in `pool`. -/
structure Provisioned (cap : Nat) (pool pool' : SlotPool) (slot n : Nat) : Prop where
  rows : Rows cap pool' slot n
  nodup : pool'.pagePool.isSome → ∀ table, pool'.blockTable slot = some table → table.pages.Nodup
  live : pool'.pagePool.isSome → ∀ table, pool'.blockTable slot = some table → table.liveTokens = n
  descs : pool'.descs = pool.descs
  size : pool'.pagePool.map PagePool.nPages = pool.pagePool.map PagePool.nPages
  free : ∀ pages, pool.pagePool = some pages → ∀ table, pool'.blockTable slot = some table → ∀ p ∈ table.pages,
    p ∈ pages.freePages

theorem ensureCapacity_new {pages : PagePool} {table cache inflight : Nat → Nat}
    (htally : Tally pages.nPages pages table cache inflight) (hfree : neededPages n ≤ pages.freePages.length) :
    ∃ pages' allocated, pages.ensureCapacity .new n = (pages', ⟨pages.freePages.take (neededPages n), n⟩, .ok allocated) ∧
      pages'.nPages = pages.nPages := by
  unfold PagePool.ensureCapacity
  dsimp only [BlockTable.new, length_nil]
  rw [neededPages_eq, Nat.sub_zero]
  by_cases hzero : neededPages n ≤ 0
  · rw [if_pos hzero, Nat.eq_zero_of_le_zero hzero]
    exact ⟨pages, 0, rfl, rfl⟩
  rw [if_neg hzero, if_neg (Nat.not_lt.2 hfree)]
  obtain ⟨ps, htable, hps, -, htally'⟩ := tally_allocLoop (neededPages n) pages ⟨[], 0⟩ table htally
  refine ⟨_, neededPages n, ?_, htally'.size⟩
  unfold PagePool.allocPages
  rw [Nat.min_eq_left hfree]
  rw [htable, hps]
  rfl

theorem blockTable_set {table : BlockTable} (h : pool.blockTable slot = some table) (table' : BlockTable) :
    (pool.blockTables.set slot (some table'))[slot]?.join = some table' := by
  have hlt : slot < pool.blockTables.length := by
    unfold SlotPool.blockTable at h
    by_contra hge
    rw [getElem?_eq_none (Nat.not_lt.1 hge)] at h
    cases h
  rw [getElem?_set_self hlt]
  rfl

/-- **Provisioning gives a fresh slot free pages**, all different. -/
theorem Fresh.provisioned (h : Fresh pool slot n) (hcap : n ≤ cap) (hi32 : n ≤ SlotPool.i32Max) :
    ∃ pool', (if pool.pagePool.isSome then pool.provisionPagesFor cap slot n else (pool, .ok ())) = (pool', .ok ()) ∧
      Provisioned cap pool pool' slot n := by
  cases h with
  | paged desc pages hdesc hpool htable htally hfree =>
    obtain ⟨pages', allocated, hensure, hsize⟩ := ensureCapacity_new htally hfree
    have htable' := blockTable_set htable ⟨pages.freePages.take (neededPages n), n⟩
    have hin : ∀ p ∈ pages.freePages, p < pages.nPages := fun p hp => ((htally.free_iff p).1 hp).1
    have hlen : (pages.freePages.take (neededPages n)).length = neededPages n := by
      rw [length_take, Nat.min_eq_left hfree]
    unfold SlotPool.provisionPagesFor
    rw [if_neg (Nat.not_lt.2 hcap), if_neg (Nat.not_lt.2 hi32), hpool]
    simp only [htable, hensure]
    refine ⟨_, rfl, ⟨.paged desc pages' _ hdesc rfl htable' ?_ fun p hp => ?_, fun _ table ht => ?_, fun _ table ht => ?_,
      rfl, ?_, fun pages₀ hpages table ht p hp => ?_⟩⟩
    · rw [hlen]
      exact le_neededPages n
    · rw [hsize]
      exact hin p (mem_of_mem_take hp)
    · cases htable'.symm.trans ht
      exact (take_sublist ..).nodup htally.free_nodup
    · cases htable'.symm.trans ht
      rfl
    · simp [hpool, hsize]
    · cases htable'.symm.trans ht
      cases hpool.symm.trans hpages
      exact mem_of_mem_take hp
  | legacy desc hdesc hpool =>
    have hnot : ¬ pool.pagePool.isSome = true := by simp [hpool]
    rw [if_neg hnot]
    refine ⟨pool, rfl, .legacy desc hdesc hpool hcap, fun hs => absurd hs hnot, fun hs => absurd hs hnot, rfl, rfl,
      fun pages hpages => ?_⟩
    cases hpool.symm.trans hpages

theorem Provisioned.fits (h : Provisioned cap pool pool' slot n) (hfit : Fits cap pool bufs stamp) :
    Fits cap pool' bufs stamp := by
  have hbytes : ∀ perPos, arenaBytes cap pool' perPos = arenaBytes cap pool perPos := fun perPos => by
    have hsize := h.size
    unfold arenaBytes
    rw [h.descs]
    cases hp : pool.pagePool <;> cases hp' : pool'.pagePool <;> simp [hp, hp'] at hsize ⊢
    exact .inl hsize
  have hslabs : ∀ base perPos, Slabs cap pool base perPos → Slabs cap pool' base perPos := fun base perPos hs hnone => by
    have hnone' : pool.pagePool = none := by
      have hsize := h.size
      rw [hnone] at hsize
      exact Option.map_eq_none_iff.1 hsize.symm
    rw [h.descs]
    exact hs hnone'
  refine ⟨hfit.layers, hfit.layersV, fun t ht => ?_, fun t ht => ?_, hslabs _ _ hfit.kSlabs, hslabs _ _ hfit.vSlabs, hfit.dn,
    hfit.distinct⟩
  · rw [hbytes]
    exact hfit.kSize t ht
  · rw [hbytes]
    exact hfit.vSize t ht

/-! ## Publishing the length -/

/-- The slot's rows are where they were. -/
structure Keeps (pool pool' : SlotPool) (slot : Nat) : Prop where
  pages : pool'.pagePool = pool.pagePool
  table : pool'.blockTable slot = pool.blockTable slot
  kBase : pool'.descs[slot]?.map KvSlotDesc.legacyKBase = pool.descs[slot]?.map KvSlotDesc.legacyKBase
  vBase : pool'.descs[slot]?.map KvSlotDesc.legacyVBase = pool.descs[slot]?.map KvSlotDesc.legacyVBase

theorem slotAddr_keeps (hpages : pool'.pagePool = pool.pagePool) (htable : pool'.blockTable slot = pool.blockTable slot)
    {base : KvSlotDesc → Nat} (hbase : pool'.descs[slot]?.map base = pool.descs[slot]?.map base) (perPos : Nat) :
    slotAddr pool' slot base perPos = slotAddr pool slot base perPos := by
  unfold slotAddr
  rw [hpages, htable, hbase]

theorem Keeps.rows (hk : Keeps pool pool' slot) (h : Rows cap pool slot n) : Rows cap pool' slot n := by
  have hdesc : ∀ desc, pool.descs[slot]? = some desc → ∃ desc', pool'.descs[slot]? = some desc' := fun desc hd => by
    have hbase := hk.kBase
    rw [hd] at hbase
    obtain ⟨desc', hd', -⟩ := Option.map_eq_some_iff.1 hbase
    exact ⟨desc', hd'⟩
  cases h with
  | paged desc pages table hd hpool htable hroom hin =>
    obtain ⟨desc', hd'⟩ := hdesc desc hd
    exact .paged desc' pages table hd' (hk.pages.trans hpool) (hk.table.trans htable) hroom hin
  | legacy desc hd hpool hcap =>
    obtain ⟨desc', hd'⟩ := hdesc desc hd
    exact .legacy desc' hd' (hk.pages.trans hpool) hcap

theorem publishLength_keeps {desc : KvSlotDesc} (hdesc : pool.descs[slot]? = some desc) :
    Keeps pool (pool.publishLength slot n) slot ∧
      (pool.publishLength slot n).descs[slot]?.map KvSlotDesc.seqLen = some n := by
  unfold SlotPool.publishLength
  split
  · refine ⟨⟨rfl, rfl, ?_, ?_⟩, ?_⟩
    all_goals
      rw [getElem?_modify_eq, hdesc]
      rfl
  · rename_i hsame
    exact ⟨⟨rfl, rfl, rfl, rfl⟩, not_not.1 hsame⟩

/-- **The length of a provisioned slot is published without another page.** -/
theorem Provisioned.setSeqLen (h : Provisioned cap pool pool' slot n) (hcap : n ≤ cap) (hi32 : n ≤ SlotPool.i32Max) :
    ∃ pool'', pool'.setSeqLen cap slot n = (pool'', .ok ()) ∧ Keeps pool' pool'' slot ∧
      pool''.descs[slot]?.map KvSlotDesc.seqLen = some n := by
  unfold SlotPool.setSeqLen SlotPool.provisionPagesFor
  rw [if_neg (Nat.not_lt.2 hcap), if_neg (Nat.not_lt.2 hi32)]
  cases h.rows with
  | legacy desc hdesc hpool _ =>
    rw [hpool]
    obtain ⟨hkeeps, hlen⟩ := publishLength_keeps (n := n) hdesc
    exact ⟨_, rfl, hkeeps, hlen⟩
  | paged desc pages table hdesc hpool htable hroom hin =>
    have hlive : table.liveTokens = n := h.live (by rw [hpool]; rfl) table htable
    have hensure : pages.ensureCapacity table n = (pages, table, .ok 0) := by
      unfold PagePool.ensureCapacity
      rw [neededPages_eq, if_pos (neededPages_le hroom), ← hlive]
    rw [hpool]
    simp only [htable, hensure]
    have hdesc' : ({ pool' with
        pagePool := some pages
        blockTables := pool'.blockTables.set slot (some table)
        blockTablesDirty := pool'.blockTablesDirty.set slot true } : SlotPool).descs[slot]? = some desc := hdesc
    obtain ⟨hkeeps, hlen⟩ := publishLength_keeps (n := n) hdesc'
    refine ⟨_, rfl, ⟨hkeeps.pages.trans hpool.symm, ?_, hkeeps.kBase, hkeeps.vBase⟩, hlen⟩
    rw [hkeeps.table, htable]
    exact blockTable_set htable table

end Hipfire.Swap
