import Hipfire.Snap.Copies
/-!
# Packing — planned captures, and where the captured bytes lie

What `plan_capture` picks as parent and the rows it starts from; then the bytes: a packed buffer holds every part at its
place, which is all a restore needs, for a delta snapshot as for a parked conversation.
-/
namespace Hipfire.Snap

open List

variable {κ V : Type}

/-! ## Planning a capture -/

variable (fixedBytes : List Nat) (rows fixed : List (Nat × Nat)) (segments : List Segment)

theorem delta_segments (ends : Option (List Nat)) :
    (ParkPlan.delta fixedBytes rows ends).segments.map Segment.rowBytes = rows.map Prod.fst ∧
    (ParkPlan.delta fixedBytes rows ends).segments.map Segment.stop = rows.map Prod.snd := by
  constructor <;> refine ext_getElem? fun i => ?_
  all_goals
    simp only [ParkPlan.delta, ParkPlan.ofParts, map_map, getElem?_map, getElem?_zipIdx]
    cases rows[i]? <;> rfl

theorem delta_starts_none :
    (ParkPlan.delta fixedBytes rows none).segments.map Segment.start = replicate rows.length 0 := by
  refine ext_getElem? fun i => ?_
  simp only [ParkPlan.delta, ParkPlan.ofParts, map_map, getElem?_map, getElem?_zipIdx, getElem?_replicate]
  by_cases hi : i < rows.length
  · simp [hi]
  · simp [hi]

theorem delta_starts_some {ends : List Nat} (h : ends.length = rows.length) :
    (ParkPlan.delta fixedBytes rows (some ends)).segments.map Segment.start = ends := by
  refine ext_getElem? fun i => ?_
  simp only [ParkPlan.delta, ParkPlan.ofParts, map_map, getElem?_map, getElem?_zipIdx]
  by_cases hi : i < rows.length
  · simp [hi, h]
  · simp [getElem?_eq_none (Nat.le_of_not_lt hi), getElem?_eq_none (show ends.length ≤ i by omega)]

/-- **What `plan_capture` picks**: no parent and rows from 0, or a parent that lines up and rows from its ends. -/
theorem planCapture_cases (entry : κ → Option (StoredSnapshot κ)) (ancestors : List κ) (fixedBytes : List Nat)
    (rows : List (Nat × Nat)) :
    (planCapture entry ancestors fixedBytes rows = (none, ParkPlan.delta fixedBytes rows none)) ∨
    ∃ key s, key ∈ ancestors ∧ entry key = some s ∧ s.segments.map Segment.rowBytes = rows.map Prod.fst ∧
      (∀ x ∈ s.segments.zip rows, x.1.stop ≤ x.2.2) ∧
      planCapture entry ancestors fixedBytes rows =
        (some key, ParkPlan.delta fixedBytes rows (some (s.segments.map Segment.stop))) := by
  unfold planCapture
  dsimp only
  generalize hfind : ancestors.findSome? _ = found
  cases found with
  | none => exact .inl rfl
  | some picked =>
    obtain ⟨key, hmem, hkey⟩ := exists_of_findSome?_eq_some hfind
    rw [Option.bind_eq_bind, Option.bind_eq_some_iff] at hkey
    obtain ⟨s, hs, hpick⟩ := hkey
    split at hpick
    · rename_i hfits
      cases hpick
      refine .inr ⟨key, s, hmem, hs, ?_, fun x hx => (hfits.2 x hx).2, rfl⟩
      exact (zip_all_eq Segment.rowBytes Prod.fst hfits.1).1 fun x hx => (hfits.2 x hx).1
    · cases hpick

theorem planCapture_ordered (entry : κ → Option (StoredSnapshot κ)) (ancestors : List κ) (fixedBytes : List Nat)
    (rows : List (Nat × Nat)) :
    ∀ seg ∈ (planCapture entry ancestors fixedBytes rows).2.segments, seg.start ≤ seg.stop := by
  intro seg hseg
  obtain ⟨i, hi⟩ := mem_iff_getElem?.1 hseg
  rcases planCapture_cases entry ancestors fixedBytes rows with h | ⟨key, s, -, -, hwidth, hle, h⟩
  · rw [h] at hi
    have := delta_starts_none fixedBytes rows
    have hget := congrArg (·[i]?) this
    simp only [getElem?_map, hi, Option.map_some, getElem?_replicate] at hget
    split at hget
    · rw [Option.some.inj hget]
      exact Nat.zero_le _
    · cases hget
  · rw [h] at hi
    have hlen : (s.segments.map Segment.stop).length = rows.length := by simpa using congrArg length hwidth
    have hstart := congrArg (·[i]?) (delta_starts_some fixedBytes rows hlen)
    have hstop := congrArg (·[i]?) (delta_segments fixedBytes rows (some (s.segments.map Segment.stop))).2
    simp only [getElem?_map, hi, Option.map_some] at hstart hstop
    obtain ⟨seg', hseg', hstart⟩ := Option.map_eq_some_iff.1 hstart.symm
    obtain ⟨r, hr, hstop⟩ := Option.map_eq_some_iff.1 hstop.symm
    have := hle (seg', r) (mem_of_getElem? (by rw [getElem?_zip_eq_some]; exact ⟨hseg', hr⟩))
    rwa [← hstart, ← hstop]

/-! ## Packed bytes -/

/-- The bytes of the live state: the fixed parts' buffers and the row streams'. -/
structure LiveBytes (V : Type) where
  fixed : Nat → Nat → V
  rows : Nat → Nat → V

/-- `live_buf`: the buffer of a copy's part, fixed parts first. -/
def LiveBytes.buf (live : LiveBytes V) (fixedCount : Nat) (a : Nat × Nat) : V :=
  if a.1 < fixedCount then live.fixed a.1 a.2 else live.rows (a.1 - fixedCount) a.2

/-- `save_to_store`: the single writes of the capture's copies. -/
def saveWrites (copies : List ParkCopy) (live : LiveBytes V) (fixedCount : Nat) : List (Nat × V) :=
  copies.flatMap fun c => (range c.bytes).map fun t => (c.parkOffset + t, live.buf fixedCount (c.part, c.liveOffset + t))

/-- The parts of a packed store with their places: the fixed ranges, then the segments. -/
def placedParts (fixed : List (Nat × Nat)) (segments : List Segment) : List ((Nat × Nat) × Nat) :=
  (fixed ++ segments.map fun seg => (seg.start * seg.rowBytes, seg.bytes)).zip
    (layout (fixed.map Prod.snd ++ segments.map Segment.bytes)).1

theorem placedParts_pairwise : (placedParts fixed segments).Pairwise (fun x y => x.2 + x.1.2 ≤ y.2) := by
  have hpair := (layoutFrom_spec (fixed.map Prod.snd ++ segments.map Segment.bytes) 0).2.2.2
  have hmap : fixed.map Prod.snd ++ segments.map Segment.bytes =
      (fixed ++ segments.map fun seg => (seg.start * seg.rowBytes, seg.bytes)).map Prod.snd := by simp
  rw [placedParts, layout]
  rw [hmap, zip_map_left, pairwise_map] at hpair
  rwa [hmap]

variable {xs : List ((Nat × Nat) × Nat)} {base : Nat}

theorem mem_partCopies_park {bound o : Nat} (hxs : ∀ x ∈ xs, bound ≤ x.2)
    (h : o ∈ (partCopies base xs).flatMap fun c => (range c.bytes).map (c.parkOffset + ·)) : bound ≤ o := by
  obtain ⟨c, hc, ho⟩ := mem_flatMap.1 h
  obtain ⟨t, -, rfl⟩ := mem_map.1 ho
  obtain ⟨j, hj, -⟩ := mem_partCopies hc
  exact Nat.le_trans (hxs _ (mem_of_getElem? hj)) (Nat.le_add_right _ _)

theorem nodup_partCopies_park : ∀ {xs : List ((Nat × Nat) × Nat)} (base : Nat),
    xs.Pairwise (fun x y => x.2 + x.1.2 ≤ y.2) →
    ((partCopies base xs).flatMap fun c => (range c.bytes).map (c.parkOffset + ·)).Nodup
  | [], _, _ => nodup_nil
  | ((live, b), park) :: xs, base, h => by
    rw [pairwise_cons] at h
    rw [partCopies, flatMap_append, nodup_append]
    refine ⟨?_, nodup_partCopies_park (base + 1) h.2, fun o ho o' ho' => ?_⟩
    · split
      · rw [flatMap_singleton]
        exact Nodup.map (fun _ _ h => Nat.add_left_cancel h) nodup_range
      · exact nodup_nil
    · have hlt : o < park + b := by
        split at ho
        · rw [flatMap_singleton, mem_map] at ho
          obtain ⟨t, ht, rfl⟩ := ho
          exact Nat.add_lt_add_left (mem_range.1 ht) _
        · cases ho
      have hle : park + b ≤ o' := mem_partCopies_park h.1 ho'
      omega

variable {j lo b po : Nat}

theorem mem_partCopies_of (h : xs[j]? = some ((lo, b), po))
    (hb : 0 < b) : ⟨base + j, lo, po, b⟩ ∈ partCopies base xs := by
  induction xs generalizing base j with
  | nil => cases h
  | cons x xs ih =>
    rw [partCopies, mem_append]
    cases j with
    | zero =>
      cases h
      exact .inl (by simp [hb])
    | succ j => exact .inr (by simpa [Nat.add_assoc, Nat.add_comm 1] using @ih (base + 1) j h)

theorem copies_ofParts :
    (ParkPlan.ofParts (fixed.map Prod.snd) segments).copies (fixed.map Prod.fst) = partCopies 0 (placedParts fixed segments) := by
  rw [copies_eq, placedParts]
  simp [ParkPlan.ofParts, zip_map', Function.comp_def]

/-- **Every part lies in the buffer where the layout puts it.** -/
theorem save_packed (live : LiveBytes V) (fresh : Nat → V)
    (hj : (placedParts fixed segments)[j]? = some ((lo, b), po)) {t : Nat} (ht : t < b) :
    writeAll (saveWrites (partCopies 0 (placedParts fixed segments)) live fixed.length) fresh (po + t) =
      live.buf fixed.length (j, lo + t) := by
  refine writeAll_of_nodup ?_ ?_
  · have := nodup_partCopies_park 0 (placedParts_pairwise fixed segments)
    simpa [saveWrites, map_flatMap, Function.comp_def] using this
  · refine mem_flatMap.2 ⟨⟨0 + j, lo, po, b⟩, mem_partCopies_of hj (by omega), ?_⟩
    exact mem_map.2 ⟨t, mem_range.2 ht, by rw [Nat.zero_add]⟩

end Hipfire.Snap
