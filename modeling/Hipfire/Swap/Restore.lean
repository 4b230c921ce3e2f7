import Hipfire.Swap.Capture
/-!
# Restore — swapping a session out and in is invisible

The streams of the source and of the target have the same lengths in the same order, and the target's bytes all differ; so
what `capture_slot` packs, `restore_slot` puts at the same rows of the target and nowhere else.
-/
namespace Hipfire.Swap

open Pages Serve List

variable {cap slot n perPos : Nat} {pool pool' : SlotPool} {bufs bufs' : Buffers} {stamp : SnapshotStamp}

/-! ## The target's bytes -/

/-- The bytes a slot owns: its pages or its slab in every arena, and the extra buffers. -/
def Owned (cap : Nat) (pool : SlotPool) (slot : Nat) (bufs : Buffers) (stamp : SnapshotStamp) (a : Nat × Nat) : Prop :=
  (∃ t ∈ bufs.kArenas, a.1 = t.buf ∧ InSlot cap pool slot KvSlotDesc.legacyKBase stamp.perPosBytes a.2) ∨
    (∃ t ∈ bufs.vArenas, a.1 = t.buf ∧ InSlot cap pool slot KvSlotDesc.legacyVBase stamp.perPosVBytes a.2) ∨
    ∃ t ∈ bufs.extra, a.1 = t.buf ∧ a.2 < t.size

theorem owned_of_mem_cells (h : Rows cap pool slot n) {a : Nat × Nat}
    (ha : a ∈ (slotStreams pool slot bufs n stamp.perPosBytes stamp.perPosVBytes).flatMap Stream.cells) :
    Owned cap pool slot bufs stamp a := by
  obtain ⟨s, hs, ha⟩ := mem_flatMap.1 ha
  obtain ⟨x, hx, rfl⟩ := Stream.mem_cells.1 ha
  rcases mem_append.1 hs with hs | hs
  · rcases mem_append.1 hs with hs | hs
    · obtain ⟨t, ht, rfl⟩ := mem_map.1 hs
      exact .inl ⟨t, ht, rfl, inSlot_slotAddr h _ hx⟩
    · obtain ⟨t, ht, rfl⟩ := mem_map.1 hs
      exact .inr (.inl ⟨t, ht, rfl, inSlot_slotAddr h _ hx⟩)
  · obtain ⟨t, ht, rfl⟩ := mem_map.1 hs
    exact .inr (.inr ⟨t, ht, rfl, hx⟩)

theorem Provisioned.nodup_cells (h : Provisioned cap pool pool' slot n) (hfit : Fits cap pool bufs stamp) :
    ((slotStreams pool' slot bufs n stamp.perPosBytes stamp.perPosVBytes).flatMap Stream.cells).Nodup := by
  refine Stream.nodup_flatMap_cells ?_ fun s hs => ?_
  · have hbufs : (slotStreams pool' slot bufs n stamp.perPosBytes stamp.perPosVBytes).map Stream.buf =
        (bufs.kArenas ++ bufs.vArenas ++ bufs.extra).map Tensor.buf := by
      simp [slotStreams, Function.comp_def]
    rw [hbufs]
    exact hfit.distinct
  · rcases mem_append.1 hs with hs | hs
    · rcases mem_append.1 hs with hs | hs
      · obtain ⟨t, -, rfl⟩ := mem_map.1 hs
        exact fun x y hx hy hxy => slotAddr_injective h.rows h.nodup _ hx hy hxy
      · obtain ⟨t, -, rfl⟩ := mem_map.1 hs
        exact fun x y hx hy hxy => slotAddr_injective h.rows h.nodup _ hx hy hxy
    · obtain ⟨t, -, rfl⟩ := mem_map.1 hs
      exact fun x y _ _ hxy => hxy

/-- The rows of the arenas at the two slots are the same bytes. -/
def SameRows (arenas arenas' : List Tensor) (base : KvSlotDesc → Nat) (perPos n : Nat) (pool : SlotPool) (slot : Nat)
    (mem : Mem) (pool' : SlotPool) (slot' : Nat) (mem' : Mem) : Prop :=
  ∀ (i : Nat) (t t' : Tensor), arenas[i]? = some t → arenas'[i]? = some t' → ∀ r < n, ∃ a a',
    rowAddr pool slot base perPos r = some a ∧ rowAddr pool' slot' base perPos r = some a' ∧
      ∀ j < perPos, mem' (t'.buf, a' + j) = mem (t.buf, a + j)

theorem sameRows_of_streams {arenas arenas' : List Tensor} {base : KvSlotDesc → Nat} {slot' : Nat} {mem mem' : Mem}
    (h : Rows cap pool slot n) (h' : Rows cap pool' slot' n)
    (hbytes : ∀ (i : Nat) (t t' : Tensor), arenas[i]? = some t → arenas'[i]? = some t' → ∀ x < n * perPos,
      mem' (t'.buf, slotAddr pool' slot' base perPos x) = mem (t.buf, slotAddr pool slot base perPos x)) :
    SameRows arenas arenas' base perPos n pool slot mem pool' slot' mem' := by
  intro i t t' ht ht' r hr
  obtain ⟨a, ha, haddr⟩ := rowAddr_eq h base perPos hr
  obtain ⟨a', ha', haddr'⟩ := rowAddr_eq h' base perPos hr
  refine ⟨a, a', ha, ha', fun j hj => ?_⟩
  have hx : r * perPos + j < n * perPos := by
    calc r * perPos + j < r * perPos + perPos := Nat.add_lt_add_left hj _
      _ = (r + 1) * perPos := (Nat.succ_mul _ _).symm
      _ ≤ n * perPos := Nat.mul_le_mul_right _ hr
  have := hbytes i t t' ht ht' _ hx
  rwa [haddr j hj, haddr' j hj] at this

/-! ## The streams by index -/

variable {t : Tensor} {i : Nat}

theorem slotStreams_k (pool : SlotPool) (slot n : Nat) (ht : bufs.kArenas[i]? = some t) (perPosK perPosV : Nat) :
    (slotStreams pool slot bufs n perPosK perPosV)[i]? =
      some ⟨t.buf, n * perPosK, slotAddr pool slot KvSlotDesc.legacyKBase perPosK⟩ := by
  have hi : i < bufs.kArenas.length := lt_of_getElem? ht
  unfold slotStreams
  rw [getElem?_append_left (by simp; omega), getElem?_append_left (by simpa using hi), getElem?_map, ht]
  rfl

theorem slotStreams_v (pool : SlotPool) (slot n : Nat) (ht : bufs.vArenas[i]? = some t) (perPosK perPosV : Nat) :
    (slotStreams pool slot bufs n perPosK perPosV)[bufs.kArenas.length + i]? =
      some ⟨t.buf, n * perPosV, slotAddr pool slot KvSlotDesc.legacyVBase perPosV⟩ := by
  have hi : i < bufs.vArenas.length := lt_of_getElem? ht
  unfold slotStreams
  rw [getElem?_append_left (by simp; omega), getElem?_append_right (by simp)]
  simp [ht]

theorem slotStreams_extra (pool : SlotPool) (slot n : Nat) (ht : bufs.extra[i]? = some t) (perPosK perPosV : Nat) :
    (slotStreams pool slot bufs n perPosK perPosV)[bufs.kArenas.length + bufs.vArenas.length + i]? =
      some ⟨t.buf, t.size, id⟩ := by
  unfold slotStreams
  rw [getElem?_append_right (by simp)]
  simp [ht]

/-! ## Out and in again -/

section restored

variable {slot' : Nat} {pool₀ : SlotPool} {mem mem' : Mem}

/-- The memory after every copy of the restore. -/
def restored (pool : SlotPool) (slot : Nat) (bufs : Buffers) (mem : Mem) (pool' : SlotPool) (slot' : Nat) (bufs' : Buffers)
    (mem' : Mem) (n : Nat) (stamp : SnapshotStamp) : Mem :=
  writeAll (((slotStreams pool' slot' bufs' n stamp.perPosBytes stamp.perPosVBytes).flatMap Stream.cells).zip
    (packed pool slot bufs n stamp mem)) mem'

/-- Every byte of the target's streams is the source's byte. -/
theorem restored_cell (hfit : Fits cap pool bufs stamp) (hfit' : Fits cap pool₀ bufs' stamp)
    (hprov : Provisioned cap pool₀ pool' slot' n) (hextra : bufs'.extra.map Tensor.size = bufs.extra.map Tensor.size)
    {x : Nat} {s t : Stream Nat} (hs : (slotStreams pool slot bufs n stamp.perPosBytes stamp.perPosVBytes)[i]? = some s)
    (ht : (slotStreams pool' slot' bufs' n stamp.perPosBytes stamp.perPosVBytes)[i]? = some t) (hx : x < t.len) :
    restored pool slot bufs mem pool' slot' bufs' mem' n stamp (t.buf, t.addr x) = mem (s.buf, s.addr x) := by
  refine Stream.writeAll_cells ?_ (hprov.nodup_cells hfit') hs ht hx
  rw [map_len_slotStreams, map_len_slotStreams, hfit.layers, hfit.layersV, hfit'.layers, hfit'.layersV, hextra]

end restored

variable {expect : SnapshotStamp}

/-- The restore, once the snapshot has passed its checks and the slot has its pages. -/
theorem restoreSlot_eq {snap : SlotSnapshot} (hvalid : snap.validate expect = .ok ())
    (hlen : bufs.total (snap.seqLen * snap.stamp.perPosBytes) (snap.seqLen * snap.stamp.perPosVBytes) = snap.payload.length)
    (hprov : (if pool.pagePool.isSome then pool.provisionPagesFor cap slot snap.seqLen else (pool, .ok ())) = (pool', .ok ()))
    (hrows : Rows cap pool' slot snap.seqLen) (fault : Nat → Option String) (mem : Mem) :
    restoreSlot fault cap pool slot bufs snap expect mem =
      match scatter fault 0 (copyList pool' slot bufs snap.seqLen snap.stamp.perPosBytes snap.stamp.perPosVBytes)
        snap.payload mem with
      | (mem, .error e) => ((pool', mem), .error e)
      | (mem, .ok ()) =>
        match pool'.setSeqLen cap slot snap.seqLen with
        | (pool, .error e) => ((pool, mem), .error (.swap (.gpu e)))
        | (pool, .ok ()) => ((pool, mem), .ok ()) := by
  unfold restoreSlot
  rw [hvalid]
  rw [if_neg (not_not.2 hlen), hprov]
  dsimp only
  have hcopies := slotCopies_ok hrows "restore" "write" bufs snap.stamp.perPosBytes snap.stamp.perPosVBytes
  generalize slotCopies "restore" "write" pool' slot bufs snap.seqLen snap.stamp.perPosBytes snap.stamp.perPosVBytes = copies
    at hcopies ⊢
  subst hcopies
  rfl

theorem slotStreams_keeps (hk : Keeps pool pool' slot) (bufs : Buffers) (n perPosK perPosV : Nat) :
    slotStreams pool' slot bufs n perPosK perPosV = slotStreams pool slot bufs n perPosK perPosV := by
  unfold slotStreams
  rw [slotAddr_keeps hk.pages hk.table hk.kBase, slotAddr_keeps hk.pages hk.table hk.vBase]

section outcome

variable {slot' : Nat} {pool₀ : SlotPool} {mem : Mem}

theorem total_captured (hfit : Fits cap pool bufs stamp) (hrows : Rows cap pool slot n) (hfit' : Fits cap pool₀ bufs' stamp)
    (mem : Mem) : bufs'.total (n * stamp.perPosBytes) (n * stamp.perPosVBytes) =
      (packed pool slot bufs n stamp mem).length := by
  rw [length_packed hfit hrows]
  unfold Buffers.total
  rw [hfit.layers, hfit'.layers, hfit.dn, hfit'.dn]

/-- **However the restore of a captured snapshot ends**, the slot's rows are those it was provisioned with and only they and
the extra buffers have changed. -/
theorem restoreSlot_outcome (hfit : Fits cap pool bufs stamp) (hrows : Rows cap pool slot n)
    (hfit' : Fits cap pool₀ bufs' stamp)
    (heq : (if pool₀.pagePool.isSome then pool₀.provisionPagesFor cap slot' n else (pool₀, .ok ())) = (pool', .ok ()))
    (hprov : Provisioned cap pool₀ pool' slot' n) (hcap : n ≤ cap) (hi32 : n ≤ SlotPool.i32Max) (tokens : List Nat)
    (hvalid : (captured pool slot bufs n tokens stamp mem).validate expect = .ok ())
    (fault : Nat → Option String) (mem' : Mem) :
    Keeps pool' (restoreSlot fault cap pool₀ slot' bufs' (captured pool slot bufs n tokens stamp mem) expect mem').1.1 slot' ∧
      (restoreSlot fault cap pool₀ slot' bufs' (captured pool slot bufs n tokens stamp mem) expect mem').1.2 =
        (scatter fault 0 (copyList pool' slot' bufs' n stamp.perPosBytes stamp.perPosVBytes)
          (packed pool slot bufs n stamp mem) mem').1 := by
  obtain ⟨pool₁, hset, hkeeps, -⟩ := hprov.setSeqLen hcap hi32
  rw [restoreSlot_eq hvalid (total_captured hfit hrows hfit' mem) heq hprov.rows]
  cases hs : scatter fault 0 (copyList pool' slot' bufs' n stamp.perPosBytes stamp.perPosVBytes)
      (packed pool slot bufs n stamp mem) mem' with
  | mk mem₁ result =>
    dsimp only [captured]
    rw [hs]
    cases result with
    | error e => exact ⟨⟨rfl, rfl, rfl, rfl⟩, rfl⟩
    | ok =>
      rw [hset]
      exact ⟨hkeeps, rfl⟩

/-- **Swapping a session out and in is invisible.**  A captured snapshot is restored into any fresh slot of a pool of the same
shape; every row and every extra buffer read there is the source's at capture.  However a restore ends, it changes only bytes
of the slot's slab or of pages that were free, and extra buffers; a snapshot that fails its check changes nothing. -/
theorem swap_invisible (tokens : List Nat) (mem mem' : Mem) (hfit : Fits cap pool bufs stamp) (hrows : Rows cap pool slot n)
    (hlive : liveLength pool slot = .ok n) (hfit' : Fits cap pool₀ bufs' stamp) (hfresh : Fresh pool₀ slot' n)
    (hextra : bufs'.extra.map Tensor.size = bufs.extra.map Tensor.size) (hcap : n ≤ cap) (hi32 : n ≤ SlotPool.i32Max) :
    ∃ snap, captureSlot noFault pool slot bufs tokens stamp mem = .ok snap ∧
      (∃ pool₁ mem₁, restoreSlot noFault cap pool₀ slot' bufs' snap stamp mem' = ((pool₁, mem₁), .ok ()) ∧
        pool₁.descs[slot']?.map KvSlotDesc.seqLen = some n ∧
        SameRows bufs.kArenas bufs'.kArenas KvSlotDesc.legacyKBase stamp.perPosBytes n pool slot mem pool₁ slot' mem₁ ∧
        SameRows bufs.vArenas bufs'.vArenas KvSlotDesc.legacyVBase stamp.perPosVBytes n pool slot mem pool₁ slot' mem₁ ∧
        ∀ (i : Nat) (t t' : Tensor), bufs.extra[i]? = some t → bufs'.extra[i]? = some t' → ∀ j < t'.size,
          mem₁ (t'.buf, j) = mem (t.buf, j)) ∧
      (∀ fault expect,
        (∀ a, (restoreSlot fault cap pool₀ slot' bufs' snap expect mem').1.2 a ≠ mem' a →
          Owned cap (restoreSlot fault cap pool₀ slot' bufs' snap expect mem').1.1 slot' bufs' stamp a) ∧
        ∀ pages table, pool₀.pagePool = some pages →
          (restoreSlot fault cap pool₀ slot' bufs' snap expect mem').1.1.blockTable slot' = some table →
            ∀ p ∈ table.pages, p ∈ pages.freePages) ∧
      ∀ other fault expect e, other.validate expect = .error e →
        restoreSlot fault cap pool₀ slot' bufs' other expect mem' = ((pool₀, mem'), .error (.swap e)) := by
  obtain ⟨pool', heq, hprov⟩ := hfresh.provisioned hcap hi32
  refine ⟨captured pool slot bufs n tokens stamp mem, captureSlot_ok hfit hrows hlive tokens mem, ?_, fun fault expect => ?_,
    fun other fault expect e he => ?_⟩
  · obtain ⟨pool₁, hset, hkeeps, hlen⟩ := hprov.setSeqLen hcap hi32
    have hscatter := scatter_ok (copyList pool' slot' bufs' n stamp.perPosBytes stamp.perPosVBytes) 0
      (packed pool slot bufs n stamp mem) mem' (fun c hc => (hprov.fits hfit').within hprov.rows hc)
      (((hprov.fits hfit').sum_bytes hprov.rows).trans (total_captured hfit hrows hfit' mem))
    rw [flatMap_cells_copyList hprov.rows] at hscatter
    have hresult : restoreSlot noFault cap pool₀ slot' bufs' (captured pool slot bufs n tokens stamp mem) stamp mem' =
        ((pool₁, restored pool slot bufs mem pool' slot' bufs' mem' n stamp), .ok ()) := by
      rw [restoreSlot_eq (validate_captured hfit hrows tokens mem) (total_captured hfit hrows hfit' mem) heq hprov.rows]
      dsimp only [captured]
      rw [hscatter]
      rw [hset]
      rfl
    refine ⟨pool₁, _, hresult, hlen, ?_, ?_, fun i t t' ht ht' j hj => ?_⟩
    · refine sameRows_of_streams hrows (hkeeps.rows hprov.rows) fun i t t' ht ht' x hx => ?_
      rw [slotAddr_keeps hkeeps.pages hkeeps.table hkeeps.kBase]
      exact restored_cell hfit hfit' hprov hextra (slotStreams_k _ _ _ ht _ _) (slotStreams_k _ _ _ ht' _ _) hx
    · refine sameRows_of_streams hrows (hkeeps.rows hprov.rows) fun i t t' ht ht' x hx => ?_
      rw [slotAddr_keeps hkeeps.pages hkeeps.table hkeeps.vBase]
      have hs := slotStreams_v pool slot n ht stamp.perPosBytes stamp.perPosVBytes
      rw [hfit.layers] at hs
      have hs' := slotStreams_v pool' slot' n ht' stamp.perPosBytes stamp.perPosVBytes
      rw [hfit'.layers] at hs'
      exact restored_cell hfit hfit' hprov hextra hs hs' hx
    · have hs := slotStreams_extra pool slot n ht stamp.perPosBytes stamp.perPosVBytes
      rw [hfit.layers, hfit.layersV] at hs
      have hs' := slotStreams_extra pool' slot' n ht' stamp.perPosBytes stamp.perPosVBytes
      rw [hfit'.layers, hfit'.layersV] at hs'
      exact restored_cell hfit hfit' hprov hextra hs hs' hj
  · cases hvalid : (captured pool slot bufs n tokens stamp mem).validate expect with
    | error e =>
      have hsame : restoreSlot fault cap pool₀ slot' bufs' (captured pool slot bufs n tokens stamp mem) expect mem' =
          ((pool₀, mem'), .error (.swap e)) := by
        unfold restoreSlot
        rw [hvalid]
      rw [hsame]
      refine ⟨fun a ha => absurd rfl ha, fun pages table hpages ht p hp => ?_⟩
      cases hfresh with
      | paged desc pages₀ hdesc hpool htable htally hfree =>
        cases htable.symm.trans ht
        cases hp
      | legacy desc hdesc hpool =>
        cases hpool.symm.trans hpages
    | ok =>
      obtain ⟨hkeeps, hmem⟩ := restoreSlot_outcome hfit hrows hfit' heq hprov hcap hi32 tokens hvalid fault mem'
      refine ⟨fun a ha => ?_, fun pages table hpages ht => hprov.free pages hpages table (hkeeps.table.symm.trans ht)⟩
      refine owned_of_mem_cells (hkeeps.rows hprov.rows) ?_
      rw [slotStreams_keeps hkeeps]
      rw [hmem] at ha
      by_contra hout
      rw [← flatMap_cells_copyList hprov.rows] at hout
      exact ha (scatter_frame fault _ _ _ _ hout)
  · unfold restoreSlot
    rw [he]

end outcome

/-- A slot with 130 rows in pages 2 and 0 of an arena of four. -/
def parkedPool : SlotPool where
  descs := [⟨0, 0, 0, 130, 0⟩]
  inUse := [true]
  dirty := true
  pagePool := some (.new 4 1 2)
  blockTables := [some ⟨[2, 0], 130⟩]
  blockTablesDirty := [true]
  slotGenerations := [0]

def oneLayer : Buffers := ⟨[⟨0, 512⟩], [⟨1, 1024⟩], [⟨2, 8⟩]⟩

def oneLayerStamp : SnapshotStamp := ⟨1, 1, 1, 1, 2, 1, 1, 256, 8⟩

def rampMem : Mem := fun a => UInt8.ofNat (a.1 + a.2)

/-- The rows of pages 2 and 0 move to pages 0 and 1 of a fresh slot of another pool. -/
theorem swap_invisible_partial_page : ∃ snap pool₁ mem₁,
    captureSlot noFault parkedPool 0 oneLayer [7] oneLayerStamp rampMem = .ok snap ∧
      restoreSlot noFault 256 (SlotPool.newPagedWithStrides 1 1 2 4).acquire.1 0 oneLayer snap oneLayerStamp (fun _ => 0) =
        ((pool₁, mem₁), .ok ()) ∧
      SameRows oneLayer.kArenas oneLayer.kArenas KvSlotDesc.legacyKBase 1 130 parkedPool 0 rampMem pool₁ 0 mem₁ := by
  have hfit : Fits 256 parkedPool oneLayer oneLayerStamp :=
    ⟨rfl, rfl, by decide, by decide, nofun, nofun, rfl, by decide⟩
  have hfit' : Fits 256 (SlotPool.newPagedWithStrides 1 1 2 4).acquire.1 oneLayer oneLayerStamp :=
    ⟨rfl, rfl, by decide, by decide, nofun, nofun, rfl, by decide⟩
  have hrows : Rows 256 parkedPool 0 130 := .paged _ _ ⟨[2, 0], 130⟩ rfl rfl rfl (by decide) (by decide)
  have hfresh : Fresh (SlotPool.newPagedWithStrides 1 1 2 4).acquire.1 0 130 :=
    .paged _ (.new 4 1 2) rfl rfl rfl (tally_new 4 1 2) (by decide)
  obtain ⟨snap, hsnap, ⟨pool₁, mem₁, hrestore, -, hk, -⟩, -⟩ :=
    swap_invisible [7] rampMem (fun _ => 0) hfit hrows rfl hfit' hfresh rfl (by decide) (by decide)
  exact ⟨snap, pool₁, mem₁, hsnap, hrestore, hk⟩

end Hipfire.Swap
