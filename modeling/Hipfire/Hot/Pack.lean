import Hipfire.Base.Lists
/-!
# Pack — where the hot-row pack keeps its rows

`build_tier_index`, `tier_bases` and `pack_offset` of `ple_hot_store.rs`: the place of a row from the counts before its block
of rows and a scan of the block.
-/
namespace Hipfire.Hot

open List Function

def blockRows : Nat := 512

def noTier : Nat := 255

structure PleHotPackHeader where
  group : Nat
  kept : Nat
  dataOffset : Nat
  rowBytes : Nat

def tierCount (p : PleHotPackHeader) : Nat := (p.kept + p.group - 1) / p.group

structure TierIndex where
  tierCount : Nat
  tierOf : Nat → Nat
  prefixes : Nat → List Nat
  tierRows : List Nat

/-- `chunks` of a slice. -/
def chunks (n : Nat) (xs : List UInt8) : List (List UInt8) :=
  (range ((xs.length + n - 1) / n)).map fun k => (xs.drop (k * n)).take n

def countRow (tierOf : Nat → Nat) (counts : Nat → Nat) (b : UInt8) : Nat → Nat :=
  update counts (tierOf b.toNat) ((counts (tierOf b.toNat) + 1) % 2 ^ 32)

/-- The columns of the index and the counts, one block on. -/
def countBlock (tierOf : Nat → Nat) (s : (Nat → List Nat) × (Nat → Nat)) (block : List UInt8) :
    (Nat → List Nat) × (Nat → Nat) :=
  (fun tier => s.1 tier ++ [s.2 tier], block.foldl (countRow tierOf) s.2)

def tierOf (p : PleHotPackHeader) (bucket : Nat) : Nat := if bucket < p.kept then bucket / p.group % 256 else noTier

def buildTierIndex (buckets : List UInt8) (p : PleHotPackHeader) : TierIndex :=
  let s := (chunks blockRows buckets).foldl (countBlock (tierOf p)) (fun _ => [], fun _ => 0)
  ⟨tierCount p, tierOf p, s.1, (range (tierCount p)).map s.2⟩

def tierBases (rowBytes : Nat) : Nat → List Nat → List Nat
  | _, [] => []
  | base, rows :: tierRows => base :: tierBases rowBytes (base + rows * rowBytes) tierRows

structure HotRowStore where
  bucket : List UInt8
  header : PleHotPackHeader
  tierOf : Nat → Nat
  prefixes : Nat → List Nat
  tierBase : List Nat

/-- The store over a pack whose header passed its checks. -/
def opened (buckets : List UInt8) (p : PleHotPackHeader) : HotRowStore :=
  let index := buildTierIndex buckets p
  ⟨buckets, p, index.tierOf, index.prefixes, tierBases p.rowBytes p.dataOffset index.tierRows⟩

def HotRowStore.slot (s : HotRowStore) (row tier : Nat) : Nat :=
  let block := row / blockRows
  let lo := tier * s.header.group % 2 ^ 16
  let hi := min ((tier + 1) * s.header.group) s.header.kept % 2 ^ 16
  let before := ((s.bucket.take row).drop (block * blockRows)).countP fun b => lo ≤ b.toNat ∧ b.toNat < hi
  (s.prefixes tier).getD block 0 + before

/-- The bucket of a row. -/
def bucketAt (buckets : List UInt8) (row : Nat) : Nat := (buckets.getD row 0).toNat

def HotRowStore.packOffset (s : HotRowStore) (serving : Bool) (row : Nat) : Option Nat :=
  if row ≥ s.bucket.length ∨ serving = false then none
  else
    let tier := s.tierOf (bucketAt s.bucket row)
    if tier = noTier then none else some (s.tierBase.getD tier 0 + s.slot row tier * s.header.rowBytes)

/-! ## The counts -/

variable {buckets : List UInt8} {p : PleHotPackHeader} {tier row : Nat}

theorem foldl_countRow (f : Nat → Nat) (tier : Nat) : ∀ (xs : List UInt8) (counts : Nat → Nat),
    (xs.foldl (countRow f) fun t => counts t % 2 ^ 32) tier = (counts tier + xs.countP (f ·.toNat = tier)) % 2 ^ 32
  | [], _ => rfl
  | b :: xs, counts => by
    have hrow : countRow f (fun t => counts t % 2 ^ 32) b = fun t => (counts t + if f b.toNat = t then 1 else 0) % 2 ^ 32 := by
      funext t
      unfold countRow
      by_cases ht : t = f b.toNat
      · subst ht
        simp
      · simp [update_of_ne ht, Ne.symm ht]
    rw [foldl_cons, hrow, foldl_countRow f tier xs, countP_cons, Nat.add_assoc, Nat.add_comm (ite ..)]
    simp only [decide_eq_true_eq]

/-- The rows of a tier before a row. -/
def rowsBefore (buckets : List UInt8) (f : Nat → Nat) (tier row : Nat) : Nat := (buckets.take row).countP (f ·.toNat = tier)

theorem foldl_countBlock (f : Nat → Nat) : ∀ k,
    ((range k).map fun k => (buckets.drop (k * blockRows)).take blockRows).foldl (countBlock f) (fun _ => [], fun _ => 0) =
      (fun tier => (range k).map fun k => rowsBefore buckets f tier (k * blockRows) % 2 ^ 32,
        fun tier => rowsBefore buckets f tier (k * blockRows) % 2 ^ 32)
  | 0 => by simp [rowsBefore]
  | k + 1 => by
    rw [range_succ, map_append, foldl_append, foldl_countBlock f k]
    refine Prod.ext (funext fun tier => Eq.symm map_append) (funext fun tier => ?_)
    refine (foldl_countRow f tier _ fun tier => rowsBefore buckets f tier (k * blockRows)).trans ?_
    simp only [rowsBefore, Nat.succ_mul, take_add, countP_append]

theorem rowsBefore_lt (h : buckets.length < 2 ^ 32) (f : Nat → Nat) (tier row : Nat) :
    rowsBefore buckets f tier row % 2 ^ 32 = rowsBefore buckets f tier row := by
  have hle := countP_le_length (p := fun b : UInt8 => decide (f b.toNat = tier)) (l := buckets.take row)
  rw [length_take] at hle
  exact Nat.mod_eq_of_lt (by unfold rowsBefore; omega)

theorem buildTierIndex_eq (h : buckets.length < 2 ^ 32) :
    (buildTierIndex buckets p).prefixes = (fun tier => (range ((buckets.length + blockRows - 1) / blockRows)).map fun k =>
      rowsBefore buckets (tierOf p) tier (k * blockRows)) ∧
    (buildTierIndex buckets p).tierRows =
      (range (tierCount p)).map fun tier => rowsBefore buckets (tierOf p) tier buckets.length := by
  have hall : ∀ tier, rowsBefore buckets (tierOf p) tier ((buckets.length + blockRows - 1) / blockRows * blockRows) =
      rowsBefore buckets (tierOf p) tier buckets.length := fun tier => by
    unfold rowsBefore blockRows
    rw [take_of_length_le (by omega), take_of_length_le (Nat.le_refl _)]
  unfold buildTierIndex chunks
  simp only [foldl_countBlock, rowsBefore_lt h, hall, and_self]

/-! ## The place of a row -/

theorem getElem?_tierBases (rowBytes : Nat) : ∀ (rows : List Nat) (base tier : Nat), tier < rows.length →
    (tierBases rowBytes base rows)[tier]? = some (base + (rows.take tier).sum * rowBytes)
  | _ :: _, _, 0, _ => by simp [tierBases]
  | n :: rows, base, tier + 1, h => by
    rw [tierBases, getElem?_cons_succ, getElem?_tierBases rowBytes rows _ tier (Nat.lt_of_succ_lt_succ h), take_succ_cons,
      sum_cons, Nat.add_mul, Nat.add_assoc]

/-- The order of the pack: by tier, in a tier by id. -/
def Before (buckets : List UInt8) (group a b : Nat) : Prop :=
  bucketAt buckets a / group < bucketAt buckets b / group ∨
    bucketAt buckets a / group = bucketAt buckets b / group ∧ a < b

/-- The rows of a tier, in ascending order. -/
def tierIds (buckets : List UInt8) (f : Nat → Nat) (tier : Nat) : List Nat :=
  (range buckets.length).filter fun row => f (bucketAt buckets row) = tier

theorem length_filter_range (f : Nat → Nat) (tier : Nat) (h : row ≤ buckets.length) :
    ((range row).filter fun row => f (bucketAt buckets row) = tier).length = rowsBefore buckets f tier row := by
  have htake := congrArg (take row) (map_getD_range buckets 0)
  rw [← map_take, take_range, Nat.min_eq_left h] at htake
  rw [← countP_eq_length_filter, rowsBefore, ← htake, countP_map]
  rfl

/-- **The index of a row in its tier** is the number of rows of the tier before it. -/
theorem getElem?_tierIds {f : Nat → Nat} {m : Nat} (hm : (tierIds buckets f tier)[m]? = some row) :
    row < buckets.length ∧ f (bucketAt buckets row) = tier ∧ m = rowsBefore buckets f tier row := by
  obtain ⟨hrow, htier⟩ := mem_filter.1 (mem_of_getElem? hm)
  rw [mem_range] at hrow
  obtain ⟨j, hj⟩ := Nat.exists_eq_add_of_lt hrow
  refine ⟨hrow, of_decide_eq_true htier, ?_⟩
  have hlen := length_filter_range f tier (Nat.le_of_lt hrow)
  have hat : (tierIds buckets f tier)[rowsBefore buckets f tier row]? = some row := by
    unfold tierIds
    rw [hj, Nat.add_right_comm, range_add, filter_append, range_succ, filter_append, append_assoc,
      getElem?_append_right (Nat.le_of_eq hlen), hlen, Nat.sub_self, filter_cons_of_pos (by exact htier)]
    rfl
  exact (getElem?_inj (lt_of_getElem? hm) (nodup_range.filter _)).1 (hm.trans hat.symm)

theorem packOffset_eq : (opened buckets p).packOffset true row =
    if row ≥ buckets.length ∨ true = false then none
    else if tierOf p (bucketAt buckets row) = noTier then none
    else some ((tierBases p.rowBytes p.dataOffset (buildTierIndex buckets p).tierRows).getD (tierOf p (bucketAt buckets row)) 0 +
      (opened buckets p).slot row (tierOf p (bucketAt buckets row)) * p.rowBytes) := rfl

/-- The pack has fewer than `2 ^ 32` rows, its header a group and a count that its checks let through. -/
structure Fits (buckets : List UInt8) (p : PleHotPackHeader) : Prop where
  rows : buckets.length < 2 ^ 32
  group : 2 ≤ p.group
  kept : p.kept ≤ 256

variable (h : Fits buckets p)
include h

theorem lt_tierCount_iff : tier < tierCount p ↔ tier * p.group < p.kept := by
  have := h.group
  rw [tierCount, ← Nat.succ_le_iff, Nat.le_div_iff_mul_le (by omega), Nat.succ_mul]
  omega

theorem tierOf_eq_iff (htier : tier < tierCount p) (bucket : Nat) :
    tierOf p bucket = tier ↔ bucket < p.kept ∧ bucket / p.group = tier := by
  have hlt := (lt_tierCount_iff h).1 htier
  have hkept := h.kept
  have hsmall := Nat.mul_le_mul_left tier h.group
  have hdiv : bucket / p.group ≤ bucket / 2 := Nat.div_le_div_left h.group (by decide)
  unfold tierOf noTier
  generalize bucket / p.group = q at hdiv ⊢
  split <;> omega

/-- The buckets of a tier are those that the scan of a block counts. -/
theorem scanned_iff (htier : tier < tierCount p) (bucket : Nat) :
    tier * p.group % 2 ^ 16 ≤ bucket ∧ bucket < min ((tier + 1) * p.group) p.kept % 2 ^ 16 ↔ tierOf p bucket = tier := by
  have hlt := (lt_tierCount_iff h).1 htier
  have hkept := h.kept
  have hgroup := h.group
  rw [tierOf_eq_iff h htier, Nat.mod_eq_of_lt (by omega), Nat.mod_eq_of_lt (by omega), Nat.div_eq_iff (by omega), Nat.add_mul]
  omega

theorem slot_opened (htier : tier < tierCount p) (hrow : row < buckets.length) :
    (opened buckets p).slot row tier = rowsBefore buckets (tierOf p) tier row := by
  have hblock : row / blockRows < (buckets.length + blockRows - 1) / blockRows := by
    unfold blockRows
    omega
  have hstart := Nat.min_eq_left (Nat.div_mul_le_self row blockRows)
  unfold HotRowStore.slot opened
  simp only [(buildTierIndex_eq h.rows).1, scanned_iff h htier]
  rw [getD_eq_getElem?_getD, getElem?_map, getElem?_range hblock, Option.map_some, Option.getD_some]
  unfold rowsBefore
  rw [← hstart, ← take_take, hstart, ← countP_append, take_append_drop]

theorem packOffset_opened (htier : tier < tierCount p) (hrow : row < buckets.length)
    (hat : tierOf p (bucketAt buckets row) = tier) : (opened buckets p).packOffset true row =
      some (p.dataOffset + (blockStart (tierIds buckets (tierOf p)) tier + rowsBefore buckets (tierOf p) tier row) *
        p.rowBytes) := by
  have hlt := (lt_tierCount_iff h).1 htier
  have hkept := h.kept
  have hsmall := Nat.mul_le_mul_left tier h.group
  have hrows := (buildTierIndex_eq (p := p) h.rows).2
  have hbase := getElem?_tierBases p.rowBytes (buildTierIndex buckets p).tierRows p.dataOffset tier
    (by rw [hrows, length_map, length_range]; exact htier)
  have hsum : ((buildTierIndex buckets p).tierRows.take tier).sum = blockStart (tierIds buckets (tierOf p)) tier := by
    rw [hrows, ← map_take, take_range, Nat.min_eq_left (Nat.le_of_lt htier), blockStart, length_flatMap]
    exact congrArg sum (map_congr_left fun tier _ => (length_filter_range _ tier (Nat.le_refl _)).symm)
  rw [packOffset_eq, if_neg (by simpa using hrow), hat, if_neg (by unfold noTier; omega), slot_opened h htier hrow,
    getD_eq_getElem?_getD, hbase, hsum, Option.getD_some, Nat.add_mul, Nat.add_assoc]

/-- **The pack is a dense layout of the kept rows**, in its order; no other row has a place, and the index counts the rows of
every tier. -/
theorem pack_rows_dense : ∃ rows : List Nat,
    rows.Perm ((range buckets.length).filter fun row => bucketAt buckets row < p.kept) ∧
    rows.Pairwise (Before buckets p.group) ∧
    (∀ k row, rows[k]? = some row → (opened buckets p).packOffset true row = some (p.dataOffset + k * p.rowBytes)) ∧
    (∀ row, ((opened buckets p).packOffset true row).isSome ↔ row < buckets.length ∧ bucketAt buckets row < p.kept) ∧
    (buildTierIndex buckets p).tierRows = (range (tierCount p)).map fun tier =>
      ((range buckets.length).filter fun row => bucketAt buckets row < p.kept ∧ bucketAt buckets row / p.group = tier).length := by
  have htier := fun {tier} (ht : tier ∈ range (tierCount p)) => tierOf_eq_iff h (mem_range.1 ht)
  have hids : ∀ {tier}, tier ∈ range (tierCount p) → ∀ {row}, row ∈ tierIds buckets (tierOf p) tier →
      row < buckets.length ∧ bucketAt buckets row < p.kept ∧ bucketAt buckets row / p.group = tier := fun ht _ hrow => by
    rw [tierIds, mem_filter, mem_range, decide_eq_true_eq, htier ht] at hrow
    exact hrow
  have hsorted : ((range (tierCount p)).flatMap (tierIds buckets (tierOf p))).Pairwise (Before buckets p.group) := by
    refine pairwise_flatMap.2 ⟨fun tier ht => ?_, pairwise_lt_range.imp_of_mem fun ha hb hab => ?_⟩
    · refine (pairwise_lt_range.filter _).imp_of_mem fun ha hb hab => .inr ⟨?_, hab⟩
      rw [(hids ht ha).2.2, (hids ht hb).2.2]
    · intro x hx y hy
      refine .inl ?_
      rw [(hids ha hx).2.2, (hids hb hy).2.2]
      exact hab
  have hkeeps : ∀ {row}, row < buckets.length → bucketAt buckets row < p.kept →
      ∃ tier ∈ range (tierCount p), tierOf p (bucketAt buckets row) = tier := fun hrow hlt => by
    have ht := mem_range.2 ((lt_tierCount_iff h).2 (Nat.lt_of_le_of_lt (Nat.div_mul_le_self _ _) hlt))
    exact ⟨_, ht, (htier ht _).2 ⟨hlt, rfl⟩⟩
  refine ⟨_, ?_, hsorted, fun k row hk => ?_, fun row => ⟨fun hsome => ?_, fun ⟨hrow, hlt⟩ => ?_⟩, ?_⟩
  · refine (perm_ext_iff_of_nodup (hsorted.imp fun hab heq => ?_) (nodup_range.filter _)).2 fun row => ?_
    · subst heq
      unfold Before at hab
      omega
    · rw [mem_flatMap, mem_filter, mem_range, decide_eq_true_eq]
      refine ⟨fun ⟨tier, ht, hrow⟩ => ⟨(hids ht hrow).1, (hids ht hrow).2.1⟩, fun ⟨hrow, hlt⟩ => ?_⟩
      obtain ⟨tier, ht, hat⟩ := hkeeps hrow hlt
      exact ⟨tier, ht, mem_filter.2 ⟨mem_range.2 hrow, decide_eq_true hat⟩⟩
  · obtain ⟨tier, ht, m, hm, rfl⟩ := exists_block _ _ k (lt_of_getElem? hk)
    rw [getElem?_flatMap_range _ ht hm] at hk
    obtain ⟨hrow, hat, rfl⟩ := getElem?_tierIds hk
    exact packOffset_opened h ht hrow hat
  · by_contra hno
    rw [packOffset_eq] at hsome
    unfold tierOf at hsome
    grind
  · obtain ⟨tier, ht, hat⟩ := hkeeps hrow hlt
    rw [packOffset_opened h (mem_range.1 ht) hrow hat]
    rfl
  · rw [(buildTierIndex_eq h.rows).2]
    refine map_congr_left fun tier ht => ?_
    simp only [← htier ht]
    exact (length_filter_range _ _ (Nat.le_refl _)).symm

/-- A block of rows that are not kept, and four rows of the next one, in two tiers. -/
def twoBlocks : List UInt8 := replicate 512 9 ++ [3, 0, 9, 1]

omit h in
theorem pack_rows_dense_twoBlocks : ∃ rows : List Nat,
    rows.Perm ((range twoBlocks.length).filter fun row => bucketAt twoBlocks row < 4) ∧ rows.Pairwise (Before twoBlocks 2) ∧
    (∀ k row, rows[k]? = some row → (opened twoBlocks ⟨2, 4, 4096, 64⟩).packOffset true row = some (4096 + k * 64)) ∧
    ((opened twoBlocks ⟨2, 4, 4096, 64⟩).packOffset true 515).isSome :=
  have ⟨rows, hperm, hsorted, hplace, hsome, _⟩ := @pack_rows_dense twoBlocks ⟨2, 4, 4096, 64⟩
    ⟨by decide +kernel, by decide, by decide⟩
  ⟨rows, hperm, hsorted, hplace, (hsome 515).2 (by decide +kernel)⟩

end Hipfire.Hot
