import Hipfire.Base.Lists
import Hipfire.Swap.Snapshot
/-!
# Spans — the bytes a slot's copies touch

Byte `x` of a slot's rows in an arena is byte `x % pageBytes` of page `x / pageBytes`, or byte `x` of its slab.  The spans
that `capture_slot` and `restore_slot` copy list exactly these bytes in order, row by row.
-/
namespace Hipfire.Swap

open Pages Serve List

/-- Where row `r` of a slot begins in an arena; `base` is the slab's begin in legacy mode. -/
def rowAddr (pool : SlotPool) (slot : Nat) (base : KvSlotDesc → Nat) (perPos r : Nat) : Option Nat :=
  if pool.pagePool.isSome then
    (pool.blockTable slot).bind fun table =>
      (table.physical (r / pageTokens)).map fun phys => phys * (pageTokens * perPos) + r % pageTokens * perPos
  else pool.descs[slot]?.map fun desc => base desc + r * perPos

def pagedAddr (pages : List Nat) (pageBytes x : Nat) : Nat := pages.getD (x / pageBytes) 0 * pageBytes + x % pageBytes

/-- The address of byte `x` of a slot's rows. -/
def slotAddr (pool : SlotPool) (slot : Nat) (base : KvSlotDesc → Nat) (perPos x : Nat) : Nat :=
  if pool.pagePool.isSome then pagedAddr ((pool.blockTable slot).getD .new).pages (pageTokens * perPos) x
  else (pool.descs[slot]?.map base).getD 0 + x

def slotSpans (pool : SlotPool) (slot : Nat) (base : KvSlotDesc → Nat) (perPos n : Nat) : List (Nat × Nat) :=
  if pool.pagePool.isSome then pagedSpans ((pool.blockTable slot).getD .new) n perPos
  else slabSpans ((pool.descs[slot]?.map base).getD 0) (n * perPos)

def spanOffsets (spans : List (Nat × Nat)) : List Nat := spans.flatMap fun s => (range s.2).map (s.1 + ·)

theorem spanOffsets_append (ss ts : List (Nat × Nat)) : spanOffsets (ss ++ ts) = spanOffsets ss ++ spanOffsets ts := by
  simp [spanOffsets]

/-! ## Pages -/

theorem pagedAddr_block (pages : List Nat) {pageBytes x : Nat} (k : Nat) (hx : x < pageBytes) :
    pagedAddr pages pageBytes (k * pageBytes + x) = pages.getD k 0 * pageBytes + x := by
  have hpos : 0 < pageBytes := Nat.zero_lt_of_lt hx
  unfold pagedAddr
  rw [Nat.add_comm (k * pageBytes), Nat.add_mul_div_right _ _ hpos, Nat.div_eq_of_lt hx, Nat.zero_add,
    Nat.add_mul_mod_self_right, Nat.mod_eq_of_lt hx]

theorem spanOffsets_pages (pages : List Nat) (pageBytes : Nat) : ∀ (k : Nat), k ≤ pages.length →
    spanOffsets ((pages.take k).map fun phys => (phys * pageBytes, pageBytes)) =
      (range (k * pageBytes)).map (pagedAddr pages pageBytes)
  | 0, _ => by simp [spanOffsets]
  | k + 1, hk => by
    have hlt : k < pages.length := hk
    rw [take_add_one, getElem?_eq_getElem hlt, Option.toList_some, map_append, spanOffsets_append,
      spanOffsets_pages pages pageBytes k (Nat.le_of_lt hlt), Nat.succ_mul, range_add, map_append, map_map]
    congr 1
    simp only [spanOffsets, map_cons, map_nil, flatMap_cons, flatMap_nil, append_nil]
    refine map_congr_left fun x hx => ?_
    rw [Function.comp_apply, pagedAddr_block pages k (mem_range.1 hx), getD_eq_getElem _ _ hlt]

theorem neededPages_le {n k : Nat} (h : n ≤ k * pageTokens) : neededPages n ≤ k := by
  unfold neededPages pageTokens at *
  split <;> omega

theorem neededPages_eq (n : Nat) : (n + (pageTokens - 1)) / pageTokens = neededPages n := by
  unfold neededPages pageTokens
  split <;> omega

theorem le_neededPages (n : Nat) : n ≤ neededPages n * pageTokens := by
  unfold neededPages pageTokens
  split <;> omega

theorem mul_eq_pages (n perPos : Nat) :
    n * perPos = n / pageTokens * (pageTokens * perPos) + n % pageTokens * perPos := by
  conv_lhs => rw [← Nat.div_add_mod n pageTokens]
  ring

theorem page_lt {n perPos k x : Nat} (hroom : n ≤ k * pageTokens) (hx : x < n * perPos) :
    0 < pageTokens * perPos ∧ x / (pageTokens * perPos) < k := by
  have hpos : 0 < pageTokens * perPos := by
    refine Nat.mul_pos (by decide) (Nat.pos_of_ne_zero fun h0 => ?_)
    rw [h0, Nat.mul_zero] at hx
    exact Nat.not_lt_zero _ hx
  refine ⟨hpos, ?_⟩
  rw [Nat.div_lt_iff_lt_mul hpos, ← Nat.mul_assoc]
  exact Nat.lt_of_lt_of_le hx (Nat.mul_le_mul_right _ hroom)

/-- **The spans of a paged slot are its bytes in order**, the partial last page included. -/
theorem spanOffsets_pagedSpans {table : BlockTable} {n : Nat} (perPos : Nat) (h : n ≤ table.pages.length * pageTokens) :
    spanOffsets (pagedSpans table n perPos) =
      (range (n * perPos)).map (pagedAddr table.pages (pageTokens * perPos)) := by
  have hfull : n / pageTokens ≤ table.pages.length := by
    unfold pageTokens at *
    omega
  unfold pagedSpans
  rw [spanOffsets_append, spanOffsets_pages _ _ _ hfull, mul_eq_pages n perPos, range_add, map_append, map_map]
  congr 1
  by_cases hlast : 0 < n % pageTokens
  · have hlt : n / pageTokens < table.pages.length := by
      unfold pageTokens at *
      omega
    rw [if_pos hlast, BlockTable.physical, getElem?_eq_getElem hlt]
    simp only [spanOffsets, Option.toList_some, map_cons, map_nil, flatMap_cons, flatMap_nil,
      append_nil]
    refine map_congr_left fun x hx => ?_
    have hpage : n % pageTokens * perPos ≤ pageTokens * perPos :=
      Nat.mul_le_mul_right _ (Nat.le_of_lt (Nat.mod_lt _ (by decide)))
    rw [Function.comp_apply, pagedAddr_block _ _ (Nat.lt_of_lt_of_le (mem_range.1 hx) hpage),
      getD_eq_getElem _ _ hlt]
  · have hzero : n % pageTokens = 0 := Nat.eq_zero_of_not_pos hlast
    rw [if_neg hlast, hzero, Nat.zero_mul]
    rfl

theorem spanOffsets_slabSpans (base span : Nat) : spanOffsets (slabSpans base span) = (range span).map (base + ·) := by
  unfold slabSpans
  split
  · simp [spanOffsets]
  · rename_i h
    have hzero : span = 0 := Nat.eq_zero_of_not_pos h
    rw [hzero]
    rfl

/-! ## Slots -/

/-- The bytes of an arena of the pool. -/
def arenaBytes (cap : Nat) (pool : SlotPool) (perPos : Nat) : Nat :=
  match pool.pagePool with
  | some pages => pages.nPages * (pageTokens * perPos)
  | none => pool.descs.length * (cap * perPos)

/-- A slot has room for `n` rows: enough pages of the arena, or a slab. -/
inductive Rows (cap : Nat) (pool : SlotPool) (slot n : Nat) : Prop
  | paged (desc : KvSlotDesc) (pages : PagePool) (table : BlockTable) (hdesc : pool.descs[slot]? = some desc)
      (hpool : pool.pagePool = some pages) (htable : pool.blockTable slot = some table)
      (hroom : n ≤ table.pages.length * pageTokens) (hin : ∀ p ∈ table.pages, p < pages.nPages)
  | legacy (desc : KvSlotDesc) (hdesc : pool.descs[slot]? = some desc) (hpool : pool.pagePool = none) (hcap : n ≤ cap)

/-- In legacy mode the slots' slabs lie one behind the other. -/
def Slabs (cap : Nat) (pool : SlotPool) (base : KvSlotDesc → Nat) (perPos : Nat) : Prop :=
  pool.pagePool = none → ∀ slot desc, pool.descs[slot]? = some desc → base desc = slot * (cap * perPos)

variable {cap slot n perPos : Nat} {pool : SlotPool} {base : KvSlotDesc → Nat}

theorem spanOffsets_slotSpans (h : Rows cap pool slot n) (base : KvSlotDesc → Nat) (perPos : Nat) :
    spanOffsets (slotSpans pool slot base perPos n) = (range (n * perPos)).map (slotAddr pool slot base perPos) := by
  cases h with
  | paged desc pages table hdesc hpool htable hroom hin =>
    simp only [slotSpans, hpool, htable, Option.isSome_some, if_true, Option.getD_some]
    rw [spanOffsets_pagedSpans perPos hroom]
    simp [slotAddr, hpool, htable]
  | legacy desc hdesc hpool hcap =>
    simp only [slotSpans, hpool, hdesc, Option.isSome_none, Bool.false_eq_true, if_false, Option.map_some, Option.getD_some]
    rw [spanOffsets_slabSpans]
    simp [slotAddr, hpool, hdesc]

/-- **A row's bytes are the slot's bytes from `r * perPos` on.** -/
theorem rowAddr_eq (h : Rows cap pool slot n) (base : KvSlotDesc → Nat) (perPos : Nat) {r : Nat} (hr : r < n) :
    ∃ a, rowAddr pool slot base perPos r = some a ∧ ∀ j < perPos, slotAddr pool slot base perPos (r * perPos + j) = a + j := by
  cases h with
  | paged desc pages table hdesc hpool htable hroom hin =>
    have hlt : r / pageTokens < table.pages.length := by
      unfold pageTokens at *
      omega
    refine ⟨(table.pages.get ⟨_, hlt⟩) * (pageTokens * perPos) + r % pageTokens * perPos, ?_, fun j hj => ?_⟩
    · simp [rowAddr, hpool, htable, BlockTable.physical, getElem?_eq_getElem hlt]
    have hin : r % pageTokens * perPos + j < pageTokens * perPos := by
      calc r % pageTokens * perPos + j < r % pageTokens * perPos + perPos := Nat.add_lt_add_left hj _
        _ = (r % pageTokens + 1) * perPos := (Nat.succ_mul _ _).symm
        _ ≤ pageTokens * perPos := Nat.mul_le_mul_right _ (Nat.mod_lt r (by decide))
    have hx : r * perPos + j = r / pageTokens * (pageTokens * perPos) + (r % pageTokens * perPos + j) := by
      rw [mul_eq_pages r perPos, Nat.add_assoc]
    simp only [slotAddr, hpool, htable, Option.isSome_some, if_true, Option.getD_some]
    rw [hx, pagedAddr_block _ _ hin, getD_eq_getElem _ _ hlt, Nat.add_assoc]
    rfl
  | legacy desc hdesc hpool hcap =>
    refine ⟨base desc + r * perPos, by simp [rowAddr, hpool, hdesc], fun j _ => ?_⟩
    simp [slotAddr, hpool, hdesc, Nat.add_assoc]

theorem slotSpans_within (h : Rows cap pool slot n) (hslabs : Slabs cap pool base perPos) {s : Nat × Nat}
    (hs : s ∈ slotSpans pool slot base perPos n) : s.1 + s.2 ≤ arenaBytes cap pool perPos := by
  cases h with
  | paged desc pages table hdesc hpool htable hroom hin =>
    simp only [slotSpans, hpool, htable, Option.isSome_some, if_true, Option.getD_some, pagedSpans] at hs
    simp only [arenaBytes, hpool]
    have hpage : ∀ p ∈ table.pages, ∀ b ≤ pageTokens * perPos,
        p * (pageTokens * perPos) + b ≤ pages.nPages * (pageTokens * perPos) := by
      intro p hp b hb
      calc p * (pageTokens * perPos) + b ≤ p * (pageTokens * perPos) + pageTokens * perPos := Nat.add_le_add_left hb _
        _ = (p + 1) * (pageTokens * perPos) := (Nat.succ_mul _ _).symm
        _ ≤ pages.nPages * (pageTokens * perPos) := Nat.mul_le_mul_right _ (hin p hp)
    rcases mem_append.1 hs with hs | hs
    · obtain ⟨p, hp, rfl⟩ := mem_map.1 hs
      exact hpage p (mem_of_mem_take hp) _ le_rfl
    split at hs
    · obtain ⟨p, hp, rfl⟩ := mem_map.1 hs
      have hmem : p ∈ table.pages := mem_of_getElem? (Option.mem_toList.1 hp)
      exact hpage p hmem _ (Nat.mul_le_mul_right _ (Nat.le_of_lt (Nat.mod_lt _ (by decide))))
    · cases hs
  | legacy desc hdesc hpool hcap =>
    simp only [slotSpans, hpool, hdesc, Option.isSome_none, Bool.false_eq_true, if_false, Option.map_some,
      Option.getD_some, slabSpans] at hs
    split at hs
    · rw [mem_singleton.1 hs]
      have hslot : slot < pool.descs.length := lt_of_getElem? hdesc
      simp only [arenaBytes, hpool, hslabs hpool slot desc hdesc]
      calc slot * (cap * perPos) + n * perPos ≤ slot * (cap * perPos) + cap * perPos :=
            Nat.add_le_add_left (Nat.mul_le_mul_right _ hcap) _
        _ = (slot + 1) * (cap * perPos) := (Nat.succ_mul _ _).symm
        _ ≤ pool.descs.length * (cap * perPos) := Nat.mul_le_mul_right _ hslot
    · cases hs

/-- The slot's own bytes of an arena: those of its pages, or of its slab. -/
def InSlot (cap : Nat) (pool : SlotPool) (slot : Nat) (base : KvSlotDesc → Nat) (perPos o : Nat) : Prop :=
  if pool.pagePool.isSome then
    ∃ table, pool.blockTable slot = some table ∧ ∃ p ∈ table.pages, p * (pageTokens * perPos) ≤ o ∧
      o < (p + 1) * (pageTokens * perPos)
  else ∃ desc, pool.descs[slot]? = some desc ∧ base desc ≤ o ∧ o < base desc + cap * perPos

/-- **The bytes of the rows are the slot's own.** -/
theorem inSlot_slotAddr (h : Rows cap pool slot n) (base : KvSlotDesc → Nat) {x : Nat} (hx : x < n * perPos) :
    InSlot cap pool slot base perPos (slotAddr pool slot base perPos x) := by
  cases h with
  | paged desc pages table hdesc hpool htable hroom hin =>
    obtain ⟨hpos, hlt⟩ := page_lt hroom hx
    simp only [InSlot, slotAddr, hpool, htable, Option.isSome_some, if_true, Option.getD_some, pagedAddr]
    rw [getD_eq_getElem _ _ hlt]
    refine ⟨table, rfl, _, getElem_mem hlt, Nat.le_add_right _ _, ?_⟩
    rw [Nat.succ_mul]
    exact Nat.add_lt_add_left (Nat.mod_lt _ hpos) _
  | legacy desc hdesc hpool hcap =>
    simp only [InSlot, slotAddr, hpool, hdesc, Option.isSome_none, Bool.false_eq_true, if_false, Option.map_some,
      Option.getD_some]
    exact ⟨desc, rfl, Nat.le_add_right _ _,
      Nat.add_lt_add_left (Nat.lt_of_lt_of_le hx (Nat.mul_le_mul_right _ hcap)) _⟩

theorem slotAddr_injective (h : Rows cap pool slot n)
    (hnodup : pool.pagePool.isSome → ∀ table, pool.blockTable slot = some table → table.pages.Nodup)
    (base : KvSlotDesc → Nat) {x y : Nat} (hx : x < n * perPos) (hy : y < n * perPos)
    (hxy : slotAddr pool slot base perPos x = slotAddr pool slot base perPos y) :
    x = y := by
  cases h with
  | paged desc pages table hdesc hpool htable hroom hin =>
    obtain ⟨hpos, hltx⟩ := page_lt hroom hx
    have hlty := (page_lt hroom hy).2
    simp only [slotAddr, hpool, htable, Option.isSome_some, if_true, Option.getD_some, pagedAddr] at hxy
    rw [getD_eq_getElem _ _ hltx, getD_eq_getElem _ _ hlty] at hxy
    have hmod : x % (pageTokens * perPos) = y % (pageTokens * perPos) := by
      have := congrArg (· % (pageTokens * perPos)) hxy
      simpa [Nat.mul_add_mod'] using this
    rw [hmod] at hxy
    have hpage := Nat.eq_of_mul_eq_mul_right hpos (Nat.add_right_cancel hxy)
    have hdiv := (hnodup (by rw [hpool]; rfl) table htable).getElem_inj_iff.1 hpage
    rw [← Nat.div_add_mod x (pageTokens * perPos), ← Nat.div_add_mod y (pageTokens * perPos), hmod, hdiv]
  | legacy desc hdesc hpool hcap =>
    simp only [slotAddr, hpool, hdesc, Option.isSome_none, Bool.false_eq_true, if_false, Option.map_some,
      Option.getD_some] at hxy
    exact Nat.add_left_cancel hxy

end Hipfire.Swap
