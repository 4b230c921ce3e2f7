import Hipfire.Snap.Tiling
/-!
# Copies — which bytes the planned copies touch

Fixed parts and row segments are the same thing to a copy list: a live offset, a size and a place in the packed buffer,
for one part after another.  `partCopies` is that list without the zips; what it writes is counted byte by byte, and a
chain's row segments, which tile, write each row byte once.
-/
namespace Hipfire.Snap

open List

/-- The copies of consecutive parts `((liveOffset, bytes), parkOffset)`, from part `base` on. -/
def partCopies : Nat → List ((Nat × Nat) × Nat) → List ParkCopy
  | _, [] => []
  | base, ((live, b), park) :: xs => (if 0 < b then [⟨base, live, park, b⟩] else []) ++ partCopies (base + 1) xs

theorem filter_zipIdx_eq : ∀ (xs : List ((Nat × Nat) × Nat)) (base : Nat),
    ((xs.zipIdx base).filter fun x => 0 < x.1.1.2).map (fun x => (⟨x.2, x.1.1.1, x.1.2, x.1.1.2⟩ : ParkCopy)) =
      partCopies base xs
  | [], _ => rfl
  | ((live, b), park) :: xs, base => by
    have ih := filter_zipIdx_eq xs (base + 1)
    by_cases hb : 0 < b <;> simp [zipIdx_cons, partCopies, hb, ih]

theorem copies_eq (plan : ParkPlan) (fixedOffsets : List Nat) :
    plan.copies fixedOffsets = partCopies 0 ((((plan.fixedBytes.zip fixedOffsets).map fun p => (p.2, p.1)) ++
      plan.segments.map fun s => (s.start * s.rowBytes, s.bytes)).zip plan.offsets) := filter_zipIdx_eq _ 0

theorem fixedCopies_eq (link : Nat) (dstFixed : List (Nat × Nat)) (offsets : List Nat) :
    fixedCopies link dstFixed offsets = (partCopies 0 (dstFixed.zip offsets)).map (RestoreCopy.mk link) := by
  rw [← filter_zipIdx_eq, fixedCopies, map_map]
  rfl

/-- The segments of a snapshot with their places. -/
def placedSegments {κ : Type} (s : StoredSnapshot κ) : List ((Nat × Nat) × Nat) :=
  (s.segments.map fun seg => (seg.start * seg.rowBytes, seg.bytes)).zip (s.offsets.drop s.fixedBytes.length)

theorem segmentCopies_eq (fixedCount link storedFixed : Nat) (offsets : List Nat) : ∀ (segs : List Segment) (i : Nat),
    storedFixed + i + segs.length = offsets.length → segmentCopies fixedCount link storedFixed offsets i segs =
      (partCopies (fixedCount + i) ((segs.map fun seg => (seg.start * seg.rowBytes, seg.bytes)).zip
        (offsets.drop (storedFixed + i)))).map (RestoreCopy.mk link)
  | [], _, _ => rfl
  | seg :: segs, i, h => by
    have hlt : storedFixed + i < offsets.length := by simp at h; omega
    have ih := segmentCopies_eq fixedCount link storedFixed offsets segs (i + 1) (by simp at h; omega)
    rw [drop_eq_getElem_cons hlt, map_cons, zip_cons_cons, partCopies, map_append,
      Nat.add_assoc fixedCount i 1, Nat.add_assoc storedFixed i 1, ← ih]
    simp only [segmentCopies, zipIdx_cons, filterMap_cons]
    by_cases hb : 0 < seg.bytes
    · simp [hb, getElem?_eq_getElem hlt]
    · simp [hb]

/-! ## The bytes written -/

/-- The live bytes a copy covers, as `(part, offset)`. -/
def targets (c : ParkCopy) : List (Nat × Nat) := (range c.bytes).map fun t => (c.part, c.liveOffset + t)

/-- Whether byte `o` lies in a part of this range. -/
def inRange (r : Option (Nat × Nat)) (o : Nat) : Bool := r.any fun r => decide (r.1 ≤ o ∧ o < r.1 + r.2)

theorem count_targets (c : ParkCopy) (p o : Nat) :
    (targets c).count (p, o) = if p = c.part ∧ inRange (some (c.liveOffset, c.bytes)) o then 1 else 0 := by
  have hnd : (targets c).Nodup := by
    refine Nodup.map (fun t t' h => ?_) nodup_range
    simpa using h
  rw [Nodup.count hnd]
  refine if_congr ?_ rfl rfl
  simp only [targets, mem_map, mem_range, Prod.mk.injEq, inRange, Option.any_some, decide_eq_true_eq]
  constructor
  · rintro ⟨t, ht, rfl, rfl⟩
    exact ⟨rfl, by omega, by omega⟩
  · rintro ⟨rfl, h1, h2⟩
    exact ⟨o - c.liveOffset, by omega, rfl, by omega⟩

/-- **Consecutive parts write each byte of each part once.** -/
theorem count_partCopies (p o : Nat) : ∀ (xs : List ((Nat × Nat) × Nat)) (base : Nat),
    ((partCopies base xs).flatMap targets).count (p, o) =
      if base ≤ p ∧ inRange ((xs.map Prod.fst)[p - base]?) o then 1 else 0
  | [], base => by simp [partCopies, inRange]
  | ((live, b), park) :: xs, base => by
    rw [partCopies, flatMap_append, count_append, count_partCopies p o xs (base + 1)]
    have hhead : ((if 0 < b then [(⟨base, live, park, b⟩ : ParkCopy)] else []).flatMap targets).count (p, o) =
        if p = base ∧ inRange (some (live, b)) o then 1 else 0 := by
      by_cases hb : 0 < b
      · rw [if_pos hb, flatMap_singleton, count_targets]
      · have : ¬ inRange (some (live, b)) o = true := by
          simp only [inRange, Option.any_some, decide_eq_true_eq]
          omega
        simp [hb, this]
    rw [hhead]
    rcases Nat.lt_trichotomy p base with hlt | rfl | hgt
    · simp [show ¬ p = base by omega, show ¬ base + 1 ≤ p by omega, show ¬ base ≤ p by omega]
    · simp [show ¬ p + 1 ≤ p by omega]
    · obtain ⟨k, rfl⟩ : ∃ k, p = base + 1 + k := ⟨p - base - 1, by omega⟩
      simp [show ¬ base + 1 + k = base by omega, show base + 1 + k - base = k + 1 by omega, show base ≤ base + 1 + k by omega]

theorem mem_partCopies {c : ParkCopy} : ∀ {xs : List ((Nat × Nat) × Nat)} {base : Nat}, c ∈ partCopies base xs →
    ∃ j, xs[j]? = some ((c.liveOffset, c.bytes), c.parkOffset) ∧ c.part = base + j
  | ((live, b), park) :: xs, base, h => by
    rw [partCopies, mem_append] at h
    rcases h with h | h
    · refine ⟨0, ?_⟩
      split at h
      · rw [mem_singleton] at h
        subst h
        exact ⟨rfl, rfl⟩
      · cases h
    · obtain ⟨j, hj, hpart⟩ := mem_partCopies h
      exact ⟨j + 1, by simpa using hj, by omega⟩

/-! ## A chain's copies -/

variable {κ : Type}

theorem length_offsets (s : StoredSnapshot κ) : s.offsets.length = s.fixedBytes.length + s.segments.length := by
  simp [StoredSnapshot.offsets, length_layout]

theorem map_fst_placedSegments (s : StoredSnapshot κ) :
    (placedSegments s).map Prod.fst = s.segments.map fun seg => (seg.start * seg.rowBytes, seg.bytes) :=
  map_fst_zip (by simp [length_offsets])

theorem linkCopies_eq (fixedCount link : Nat) (s : StoredSnapshot κ) :
    segmentCopies fixedCount link s.fixedBytes.length s.offsets 0 s.segments =
      (partCopies fixedCount (placedSegments s)).map (RestoreCopy.mk link) :=
  segmentCopies_eq fixedCount link _ _ s.segments 0 (length_offsets s).symm

/-- The live bytes a list of restore copies writes, in order. -/
def written (copies : List RestoreCopy) : List (Nat × Nat) := copies.flatMap fun c => targets c.copy

theorem written_map (link : Nat) (cs : List ParkCopy) : written (cs.map (RestoreCopy.mk link)) = cs.flatMap targets := by
  simp [written, flatMap_map]

theorem written_append (cs ds : List RestoreCopy) : written (cs ++ ds) = written cs ++ written ds := by
  simp [written]

theorem Tiles.le {i : Nat} : ∀ {chain : List (StoredSnapshot κ)} {row rows : Nat}, Tiles i row chain rows → row ≤ rows
  | [], _, _, h => Nat.le_of_eq h
  | s :: _, _, _, ⟨seg, hseg, hstart, h⟩ => hstart ▸ Nat.le_trans (s.ordered seg (mem_of_getElem? hseg)) h.le

/-- **Tiling segments write each row byte once**, from the rows covered before the chain to those covered after it. -/
theorem count_chainCopies {widths : List Nat} (fixedCount o : Nat) {i width : Nat} (hw : widths[i]? = some width) :
    ∀ {chain : List (StoredSnapshot κ)} {next ends : List Nat} {row rows : Nat} (link : Nat),
      ChainFits widths next chain ends → next[i]? = some row → ends[i]? = some rows →
      (written (chainCopies fixedCount link chain)).count (fixedCount + i, o) =
        if row * width ≤ o ∧ o < rows * width then 1 else 0
  | [], _, _, row, rows, _, h, hrow, hrows => by
    rw [show _ = _ from h, hrows] at hrow
    cases hrow
    rw [if_neg (by omega)]
    rfl
  | s :: rest, _, _, row, rows, link, h, hrow, hrows => by
    rw [← h.1.2, getElem?_map, Option.map_eq_some_iff] at hrow
    obtain ⟨seg, hseg, rfl⟩ := hrow
    have hwidth : seg.rowBytes = width := by
      rw [← h.1.1, getElem?_map, hseg] at hw
      exact Option.some.inj hw
    have hstop : (s.segments.map Segment.stop)[i]? = some seg.stop := by rw [getElem?_map, hseg]; rfl
    have hord := s.ordered seg (mem_of_getElem? hseg)
    have hle := (h.2.tiles hstop hrows).le
    rw [chainCopies, written_append, count_append, linkCopies_eq, written_map, count_partCopies,
      count_chainCopies fixedCount o hw (link + 1) h.2 hstop hrows, map_fst_placedSegments, Nat.add_sub_cancel_left,
      getElem?_map, hseg]
    have hend : seg.start * width + seg.bytes = seg.stop * width := by
      rw [Segment.bytes, hwidth, ← Nat.add_mul, Nat.add_sub_cancel' hord]
    have h2 : seg.stop * width ≤ rows * width := Nat.mul_le_mul_right _ hle
    simp only [Option.map_some, inRange, Option.any_some, decide_eq_true_eq, hwidth, hend, Nat.le_add_right, true_and]
    split <;> split <;> split <;> omega

theorem count_chainCopies_fixed (fixedCount o : Nat) {p : Nat} (hp : p < fixedCount) :
    ∀ (chain : List (StoredSnapshot κ)) (link : Nat), (written (chainCopies fixedCount link chain)).count (p, o) = 0
  | [], _ => rfl
  | s :: rest, link => by
    rw [chainCopies, written_append, count_append, linkCopies_eq, written_map, count_partCopies,
      count_chainCopies_fixed fixedCount o hp rest, if_neg (by omega)]

theorem count_chainCopies_above {widths : List Nat} (fixedCount o : Nat) {i : Nat} (hi : widths.length ≤ i) :
    ∀ {chain : List (StoredSnapshot κ)} {next ends : List Nat} (link : Nat), ChainFits widths next chain ends →
      (written (chainCopies fixedCount link chain)).count (fixedCount + i, o) = 0
  | [], _, _, _, _ => rfl
  | s :: rest, _, _, link, h => by
    have hnone : s.segments[i]? = none := getElem?_eq_none (by rw [h.1.length]; exact hi)
    rw [chainCopies, written_append, count_append, linkCopies_eq, written_map, count_partCopies,
      count_chainCopies_above fixedCount o hi (link + 1) h.2, map_fst_placedSegments, Nat.add_sub_cancel_left,
      getElem?_map, hnone]
    simp [inRange]

/-- Whether byte `a` is one of a live state of this geometry: in a fixed part's range, or in the rows of a stream. -/
def inState (fixed rows : List (Nat × Nat)) (a : Nat × Nat) : Bool :=
  if a.1 < fixed.length then inRange fixed[a.1]? a.2
  else (rows[a.1 - fixed.length]?).any fun r => decide (a.2 < r.1 * r.2)

/-- **An accepted chain's copies write each byte of the state once**, and nothing else. -/
theorem count_restoreCopies {chain : List (StoredSnapshot κ)} {leaf : StoredSnapshot κ} {dstFixed dstRows : List (Nat × Nat)}
    (h : Accepts chain leaf dstFixed dstRows) (a : Nat × Nat) :
    (written (restoreCopies chain leaf dstFixed)).count a = if inState dstFixed dstRows a then 1 else 0 := by
  obtain ⟨p, o⟩ := a
  have hfst : (dstFixed.zip leaf.offsets).map Prod.fst = dstFixed := by
    refine map_fst_zip ?_
    rw [length_offsets, ← h.fixed, length_map]
    exact Nat.le_add_right _ _
  rw [restoreCopies, written_append, count_append, fixedCopies_eq, written_map, count_partCopies, hfst, Nat.sub_zero]
  unfold inState
  by_cases hp : p < dstFixed.length
  · rw [count_chainCopies_fixed _ _ hp, Nat.add_zero]
    simp [hp]
  obtain ⟨i, rfl⟩ : ∃ i, p = dstFixed.length + i := ⟨p - dstFixed.length, by omega⟩
  have hnone : dstFixed[dstFixed.length + i]? = none := getElem?_eq_none (by omega)
  rw [hnone, if_neg (by simp [inRange]), Nat.zero_add]
  rw [if_neg hp, Nat.add_sub_cancel_left]
  by_cases hi : i < dstRows.length
  · obtain ⟨r, hr⟩ : ∃ r, dstRows[i]? = some r := ⟨_, getElem?_eq_getElem hi⟩
    rw [count_chainCopies dstFixed.length o (by rw [getElem?_map, hr]; rfl) 0 h.rows
      (show _ = some 0 by simp [hi]) (by rw [getElem?_map, hr]; rfl), hr]
    simp [Nat.mul_comm]
  · rw [count_chainCopies_above dstFixed.length o (by simpa using hi) 0 h.rows, getElem?_eq_none (by omega)]
    rfl

end Hipfire.Snap
