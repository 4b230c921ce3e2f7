import Hipfire.Snap.Layout
import Hipfire.Base.Checks
/-!
# Tiling — what `plan_chain_restore` accepts, and the copies it plans

A chain is accepted exactly when the leaf's fixed sizes are the destination's and the links' segments tile every stream
from row 0 to its row count.  The copies of an accepted chain are then listed without the loop: the leaf's fixed parts
and, link by link, the non-empty segments.
-/
namespace Hipfire.Snap

open List

/-! ## Packing -/

/-- **Packed parts do not overlap and stay below the total.** -/
theorem layoutFrom_spec : ∀ (parts : List Nat) (done : Nat),
    (layoutFrom done parts).1.length = parts.length ∧ done ≤ (layoutFrom done parts).2 ∧
    (∀ x ∈ parts.zip (layoutFrom done parts).1, done ≤ x.2 ∧ x.2 + x.1 ≤ (layoutFrom done parts).2) ∧
    (parts.zip (layoutFrom done parts).1).Pairwise (fun x y => x.2 + x.1 ≤ y.2)
  | [], done => by simp [layoutFrom]
  | bytes :: parts, done => by
    obtain ⟨hlen, hdone, hin, hpair⟩ := layoutFrom_spec parts (nextMultipleOf done partAlign + bytes)
    have hle := le_nextMultipleOf done partAlign
    simp only [layoutFrom, length_cons, zip_cons_cons, mem_cons, pairwise_cons]
    refine ⟨by omega, by omega, ?_, ?_, hpair⟩
    · rintro x (rfl | hx)
      · exact ⟨hle, hdone⟩
      · have := hin x hx
        exact ⟨by omega, this.2⟩
    · intro x hx
      exact (hin x hx).1

theorem length_layout (parts : List Nat) : (layout parts).1.length = parts.length := (layoutFrom_spec parts 0).1

theorem layout_within {parts : List Nat} {i bytes offset : Nat} (hb : parts[i]? = some bytes)
    (ho : (layout parts).1[i]? = some offset) : offset + bytes ≤ (layout parts).2 := by
  refine ((layoutFrom_spec parts 0).2.2.1 (bytes, offset) ?_).2
  exact mem_of_getElem? (by rw [getElem?_zip_eq_some]; exact ⟨hb, ho⟩)

/-! ## Accepted chains -/

variable {κ : Type}

/-- One link over streams of these row widths, of which `next` rows are already covered. -/
def LinkFits (widths next : List Nat) (s : StoredSnapshot κ) : Prop :=
  s.segments.map Segment.rowBytes = widths ∧ s.segments.map Segment.start = next

instance (widths next : List Nat) (s : StoredSnapshot κ) : Decidable (LinkFits widths next s) :=
  inferInstanceAs (Decidable (_ ∧ _))

/-- The non-empty segments of one link. -/
def segmentCopies (fixedCount link storedFixed : Nat) (offsets : List Nat) (i : Nat) (segments : List Segment) :
    List RestoreCopy :=
  (segments.zipIdx i).filterMap fun x =>
    if 0 < x.1.bytes then
      some ⟨link, ⟨fixedCount + x.2, x.1.start * x.1.rowBytes, offsets.getD (storedFixed + x.2) 0, x.1.bytes⟩⟩
    else none

theorem segmentLoop_eq (fixedCount link storedFixed : Nat) (offsets : List Nat) :
    ∀ (segs : List Segment) (dst : List (Nat × Nat)) (done todo : List Nat) (copies : List RestoreCopy),
      segs.length = dst.length → segs.length = todo.length →
      segmentLoop fixedCount link storedFixed offsets done.length (segs.zip dst) (done ++ todo, copies) =
        if segs.map Segment.rowBytes = dst.map Prod.fst ∧ segs.map Segment.start = todo then
          .ok (done ++ segs.map Segment.stop,
            copies ++ segmentCopies fixedCount link storedFixed offsets done.length segs)
        else .error mismatch
  | [], [], done, [], copies, _, _ => by simp [segmentLoop, segmentCopies]
  | seg :: segs, (rowBytes, rows) :: dst, done, n :: todo, copies, hdst, htodo => by
    have ih := segmentLoop_eq fixedCount link storedFixed offsets segs dst (done ++ [seg.stop]) todo
      (if 0 < seg.bytes then copies ++ [⟨link, ⟨fixedCount + done.length, seg.start * seg.rowBytes,
        offsets.getD (storedFixed + done.length) 0, seg.bytes⟩⟩] else copies) (by simpa using hdst) (by simpa using htodo)
    have hget : (done ++ n :: todo).getD done.length 0 = n := by simp [getD]
    have hset : (done ++ n :: todo).set done.length seg.stop = (done ++ [seg.stop]) ++ todo := by simp
    rw [zip_cons_cons, segmentLoop, hget, hset]
    simp only [map_cons, cons.injEq]
    by_cases hb : seg.rowBytes = rowBytes ∧ seg.start = n
    · have hlen : done.length + 1 = (done ++ [seg.stop]).length := by simp
      rw [if_neg (by simp [hb.1, hb.2]), hlen, ih]
      refine if_congr (by simp [hb.1, hb.2]) ?_ rfl
      simp only [segmentCopies, zipIdx_cons, filterMap_cons, length_append, length_singleton]
      by_cases hpos : 0 < seg.bytes <;> simp [hpos]
    · rw [if_pos (by tauto), if_neg (by tauto)]

theorem chainLoop_cons (fixedCount : Nat) (dstRows : List (Nat × Nat)) (link : Nat) (s : StoredSnapshot κ)
    (rest : List (StoredSnapshot κ)) (next : List Nat) (copies : List RestoreCopy) (hnext : next.length = dstRows.length) :
    chainLoop fixedCount dstRows link (s :: rest) (next, copies) =
      if LinkFits (dstRows.map Prod.fst) next s then
        chainLoop fixedCount dstRows (link + 1) rest (s.segments.map Segment.stop,
          copies ++ segmentCopies fixedCount link s.fixedBytes.length s.offsets 0 s.segments)
      else .error mismatch := by
  rw [chainLoop]
  by_cases hlen : s.segments.length = dstRows.length
  · rw [if_neg (by simpa using hlen)]
    have := segmentLoop_eq fixedCount link s.fixedBytes.length s.offsets s.segments dstRows [] next copies hlen
      (by omega)
    rw [nil_append, length_nil] at this
    by_cases hfits : LinkFits (dstRows.map Prod.fst) next s
    · rw [if_pos hfits, this, if_pos (show _ ∧ _ from hfits)]
      rfl
    · rw [if_neg hfits, this, if_neg (show ¬ (_ ∧ _) from hfits)]
      rfl
  · rw [if_pos hlen, if_neg]
    rintro ⟨hrows, -⟩
    have := congrArg length hrows
    simp only [length_map] at this
    exact hlen this

/-- The links cover the streams from rows `next` to rows `ends`, one after the other. -/
def ChainFits (widths : List Nat) : List Nat → List (StoredSnapshot κ) → List Nat → Prop
  | next, [], ends => next = ends
  | next, s :: rest, ends => LinkFits widths next s ∧ ChainFits widths (s.segments.map Segment.stop) rest ends

/-- The row copies of a chain, root first. -/
def chainCopies (fixedCount : Nat) : Nat → List (StoredSnapshot κ) → List RestoreCopy
  | _, [] => []
  | link, s :: rest =>
    segmentCopies fixedCount link s.fixedBytes.length s.offsets 0 s.segments ++ chainCopies fixedCount (link + 1) rest

variable {widths : List Nat}

theorem LinkFits.length {next : List Nat} {s : StoredSnapshot κ} (h : LinkFits widths next s) :
    s.segments.length = widths.length := by
  simpa using congrArg List.length h.1

theorem chainLoop_eq_ok (fixedCount : Nat) (dstRows : List (Nat × Nat)) : ∀ (chain : List (StoredSnapshot κ)) (link : Nat)
    (next : List Nat) (copies : List RestoreCopy) {ends : List Nat} {out : List RestoreCopy},
    next.length = dstRows.length → (chainLoop fixedCount dstRows link chain (next, copies) = .ok (ends, out) ↔
      ChainFits (dstRows.map Prod.fst) next chain ends ∧ out = copies ++ chainCopies fixedCount link chain)
  | [], link, next, copies, ends, out, _ => by
    simp only [chainLoop, Except.ok.injEq, Prod.mk.injEq, ChainFits, chainCopies, append_nil]
    exact and_congr_right fun _ => eq_comm
  | s :: rest, link, next, copies, ends, out, hnext => by
    rw [chainLoop_cons _ _ _ _ _ _ _ hnext]
    by_cases hfits : LinkFits (dstRows.map Prod.fst) next s
    · rw [if_pos hfits, chainLoop_eq_ok fixedCount dstRows rest (link + 1) _ _ (by simpa using hfits.length)]
      simp only [ChainFits, chainCopies, append_assoc]
      exact and_congr_left fun _ => (and_iff_right hfits).symm
    · simp [ChainFits, hfits]

theorem chainLoop_error (fixedCount : Nat) (dstRows : List (Nat × Nat)) : ∀ (chain : List (StoredSnapshot κ)) (link : Nat)
    (next : List Nat) (copies : List RestoreCopy), next.length = dstRows.length →
    (∃ r, chainLoop fixedCount dstRows link chain (next, copies) = .ok r) ∨
      chainLoop fixedCount dstRows link chain (next, copies) = .error mismatch
  | [], _, _, _, _ => .inl ⟨_, rfl⟩
  | s :: rest, link, next, copies, hnext => by
    rw [chainLoop_cons _ _ _ _ _ _ _ hnext]
    by_cases hfits : LinkFits (dstRows.map Prod.fst) next s
    · rw [if_pos hfits]
      exact chainLoop_error fixedCount dstRows rest (link + 1) _ _ (by simpa using hfits.length)
    · exact .inr (if_neg hfits)

/-- The copies of an accepted chain. -/
def restoreCopies (chain : List (StoredSnapshot κ)) (leaf : StoredSnapshot κ) (dstFixed : List (Nat × Nat)) :
    List RestoreCopy :=
  fixedCopies (chain.length - 1) dstFixed leaf.offsets ++ chainCopies dstFixed.length 0 chain

/-- What the planner asks of a chain. -/
structure Accepts (chain : List (StoredSnapshot κ)) (leaf : StoredSnapshot κ) (dstFixed dstRows : List (Nat × Nat)) :
    Prop where
  last : chain.getLast? = some leaf
  fixed : dstFixed.map Prod.snd = leaf.fixedBytes
  rows : ChainFits (dstRows.map Prod.fst) (replicate dstRows.length 0) chain (dstRows.map Prod.snd)

theorem zip_all_eq {α β γ : Type} (f : α → γ) (g : β → γ) : ∀ {xs : List α} {ys : List β}, xs.length = ys.length →
    ((∀ x ∈ xs.zip ys, f x.1 = g x.2) ↔ xs.map f = ys.map g)
  | [], [], _ => by simp
  | x :: xs, y :: ys, h => by
    simp only [zip_cons_cons, forall_mem_cons, map_cons, cons.injEq]
    exact and_congr_right fun _ => zip_all_eq f g (by simpa using h)

theorem ChainFits.length_ends : ∀ {chain : List (StoredSnapshot κ)} {next ends : List Nat},
    next.length = widths.length → ChainFits widths next chain ends → ends.length = widths.length
  | [], _, _, hnext, h => h ▸ hnext
  | _ :: _, _, _, _, h => ChainFits.length_ends (by simpa using h.1.length) h.2

theorem ChainFits.last_stop : ∀ {chain : List (StoredSnapshot κ)} {next ends : List Nat}
    {leaf : StoredSnapshot κ}, ChainFits widths next chain ends → chain.getLast? = some leaf →
    leaf.segments.map Segment.stop = ends ∧ leaf.segments.length = widths.length
  | [_], _, _, _, h, hlast => by
    cases hlast
    exact ⟨h.2, h.1.length⟩
  | _ :: s :: rest, _, _, _, h, hlast => ChainFits.last_stop h.2 (by rwa [getLast?_cons_cons] at hlast)

/-- **The planner returns its copies exactly for the chains it accepts**, and fails with one message otherwise. -/
theorem planChainRestore_cases (chain : List (StoredSnapshot κ)) (dstFixed dstRows : List (Nat × Nat)) :
    (∃ leaf, Accepts chain leaf dstFixed dstRows ∧
      planChainRestore chain dstFixed dstRows = .ok (restoreCopies chain leaf dstFixed)) ∨
    ((∀ leaf, ¬ Accepts chain leaf dstFixed dstRows) ∧ planChainRestore chain dstFixed dstRows = .error mismatch) := by
  unfold planChainRestore
  cases hlast : chain.getLast? with
  | none =>
    refine .inr ⟨fun leaf hacc => ?_, rfl⟩
    cases hacc.last.symm.trans hlast
  | some leaf =>
    have hleaf : ∀ {leaf'}, Accepts chain leaf' dstFixed dstRows → leaf' = leaf := fun hacc =>
      Option.some.inj (hacc.last.symm.trans hlast)
    by_cases hbad : dstFixed.length ≠ leaf.fixedBytes.length ∨ (∃ x ∈ dstFixed.zip leaf.fixedBytes, x.1.2 ≠ x.2) ∨
        dstRows.length ≠ leaf.segments.length
    · refine .inr ⟨fun leaf' hacc => ?_, if_pos hbad⟩
      obtain rfl := hleaf hacc
      have hlen : dstFixed.length = leaf'.fixedBytes.length := by simpa using congrArg length hacc.fixed
      rcases hbad with hbad | ⟨x, hx, hne⟩ | hbad
      · exact hbad hlen
      · exact hne ((zip_all_eq Prod.snd id hlen).2 (by simpa using hacc.fixed) x hx)
      · exact hbad (by simpa using (hacc.rows.last_stop hlast).2.symm)
    · dsimp only
      rw [if_neg hbad]
      simp only [not_or, not_not, not_exists, not_and] at hbad
      obtain ⟨hlen, hall, -⟩ := hbad
      have hfixed : dstFixed.map Prod.snd = leaf.fixedBytes := by simpa using (zip_all_eq Prod.snd id hlen).1 hall
      rcases chainLoop_error dstFixed.length dstRows chain 0 (replicate dstRows.length 0)
        (fixedCopies (chain.length - 1) dstFixed leaf.offsets) (by simp) with ⟨⟨ends, out⟩, hr⟩ | hr
      · obtain ⟨hfits, rfl⟩ := (chainLoop_eq_ok _ _ _ _ _ _ (by simp)).1 hr
        have hends : (∀ x ∈ ends.zip dstRows, x.1 = x.2.2) ↔ ends = dstRows.map Prod.snd := by
          simpa using zip_all_eq id Prod.snd (by simpa using hfits.length_ends (by simp))
        rw [hr]
        by_cases hx : ∃ x ∈ ends.zip dstRows, x.1 ≠ x.2.2
        · refine .inr ⟨fun leaf' hacc => ?_, if_pos hx⟩
          obtain ⟨x, hmem, hne⟩ := hx
          rw [(chainLoop_eq_ok _ _ _ _ _ _ (by simp)).2 ⟨hacc.rows, rfl⟩] at hr
          cases hr
          exact hne (hends.2 rfl x hmem)
        · refine .inl ⟨leaf, ⟨hlast, hfixed, ?_⟩, if_neg hx⟩
          simp only [not_exists, not_and, not_not] at hx
          rwa [← hends.1 hx]
      · refine .inr ⟨fun leaf' hacc => ?_, by rw [hr]; rfl⟩
        rw [(chainLoop_eq_ok _ _ _ _ _ _ (by simp)).2 ⟨hacc.rows, rfl⟩] at hr
        cases hr

/-- The segments of stream `i` cover its rows from `row` to `rows`, link after link. -/
def Tiles (i : Nat) : Nat → List (StoredSnapshot κ) → Nat → Prop
  | row, [], rows => row = rows
  | row, s :: rest, rows => ∃ seg, s.segments[i]? = some seg ∧ seg.start = row ∧ Tiles i seg.stop rest rows

theorem ChainFits.tiles {i : Nat} : ∀ {chain : List (StoredSnapshot κ)} {next ends : List Nat} {row rows : Nat},
    ChainFits widths next chain ends → next[i]? = some row → ends[i]? = some rows → Tiles i row chain rows
  | [], _, _, _, _, h, hrow, hrows => by
    rw [show _ = _ from h, hrows] at hrow
    exact (Option.some.inj hrow).symm
  | s :: rest, _, _, row, rows, h, hrow, hrows => by
    rw [← h.1.2, getElem?_map, Option.map_eq_some_iff] at hrow
    obtain ⟨seg, hseg, rfl⟩ := hrow
    exact ⟨seg, hseg, rfl, h.2.tiles (by rw [getElem?_map, hseg]; rfl) hrows⟩

/-- **A chain that leaves a stream untiled is refused.** -/
theorem planChainRestore_of_not_tiles {chain : List (StoredSnapshot κ)} {dstFixed dstRows : List (Nat × Nat)}
    (h : ∃ i r, dstRows[i]? = some r ∧ ¬ Tiles i 0 chain r.2) :
    planChainRestore chain dstFixed dstRows = .error mismatch := by
  rcases planChainRestore_cases chain dstFixed dstRows with ⟨leaf, hacc, -⟩ | ⟨-, herr⟩
  · obtain ⟨i, r, hr, hnot⟩ := h
    have hi : i < dstRows.length := (List.getElem?_eq_some_iff.1 hr).1
    refine absurd (hacc.rows.tiles (i := i) ?_ ?_) hnot
    · simp [hi]
    · rw [getElem?_map, hr]
      rfl
  · exact herr

end Hipfire.Snap
