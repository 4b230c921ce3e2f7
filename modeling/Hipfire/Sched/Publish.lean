import Hipfire.Sched.TwoPhase
/-!
# Publish — plans within their budget, and their publication

A plan's rows are those of its verify lanes and of the scheduler's grants, and both come out of one budget: the verify lanes
leave the rows that the decode lanes and one prefill quantum need, and what is granted afterwards is bounded by what they
left.  Publication checks all requests before it applies the first; the checks say all that the application needs, since no
two requests of a plan meet at a slot.
-/
namespace Hipfire.Sched

open BatchPlanner List

/-! ## Ranges -/

/-- Non-empty ranges, one after the other, from `start` to `stop`. -/
def Tiled : Nat → List RowRange → Nat → Prop
  | start, [], stop => start = stop
  | start, r :: rs, stop => r.start = start ∧ 0 < r.len ∧ Tiled (start + r.len) rs stop

namespace Tiled

theorem le : ∀ {rs : List RowRange} {start stop : Nat}, Tiled start rs stop → start ≤ stop
  | [], _, _, h => Nat.le_of_eq h
  | _ :: _, _, _, ⟨_, _, h⟩ => Nat.le_trans (Nat.le_add_right ..) h.le

theorem append : ∀ {rs qs : List RowRange} {start mid stop : Nat}, Tiled start rs mid → Tiled mid qs stop →
    Tiled start (rs ++ qs) stop
  | [], _, _, _, _, h, hq => by
    obtain rfl : _ = _ := h
    exact hq
  | _ :: _, _, _, _, _, ⟨h1, h2, h⟩, hq => ⟨h1, h2, h.append hq⟩

/-- The rows between the ends are those of the ranges. -/
theorem covers : ∀ {rs : List RowRange} {start stop : Nat}, Tiled start rs stop → ∀ row,
    start ≤ row ∧ row < stop ↔ ∃ r ∈ rs, r.start ≤ row ∧ row < r.start + r.len
  | [], start, stop, h, row => by
    obtain rfl : start = stop := h
    simp only [not_mem_nil, false_and, exists_false, iff_false]
    omega
  | r :: rs, start, stop, ⟨h1, _, h⟩, row => by
    rw [exists_mem_cons_iff, ← h.covers row, h1]
    have := h.le
    omega

theorem ordered : ∀ {rs : List RowRange} {start stop : Nat}, Tiled start rs stop →
    rs.Pairwise fun a b => a.start + a.len ≤ b.start
  | [], _, _, _ => Pairwise.nil
  | r :: rs, start, stop, ⟨h1, _, h⟩ => by
    refine pairwise_cons.2 ⟨fun b hb => ?_, h.ordered⟩
    rw [h1]
    exact first_le h b hb
where
  first_le : ∀ {rs : List RowRange} {start stop : Nat}, Tiled start rs stop → ∀ b ∈ rs, start ≤ b.start
    | _ :: _, _, _, ⟨h1, _, h⟩, b, hb => by
      rcases mem_cons.1 hb with rfl | hb
      · exact Nat.le_of_eq h1.symm
      · exact Nat.le_trans (Nat.le_add_right ..) (first_le h b hb)

end Tiled

/-! ## The rows of a plan -/

/-- What a part of a plan, whose rows begin at `start`, makes of the rows granted to it. -/
structure Uses (plan : BatchStepPlan) (start verify alloc : Nat) : Prop where
  counts : plan.decodeRows + plan.prefillRows + plan.verifyRows = plan.batch.tokens.length
  rows : plan.batch.tokens.length ≤ verify + alloc
  verified : plan.verifyRows ≤ verify
  packed : Tiled start (plan.requests.map RequestRows.rows) (start + plan.batch.tokens.length)

theorem Uses.append {a b : BatchStepPlan} {start v v' n n' : Nat} (ha : Uses a start v n)
    (hb : Uses b (start + a.batch.tokens.length) v' n') : Uses (a.append b) start (v + v') (n + n') := by
  have hlen : (a.append b).batch.tokens.length = a.batch.tokens.length + b.batch.tokens.length := length_append
  obtain ⟨ha1, ha2, ha3, ha4⟩ := ha
  obtain ⟨hb1, hb2, hb3, hb4⟩ := hb
  refine ⟨?_, ?_, ?_, ?_⟩
  · rw [hlen, ← ha1, ← hb1]
    simp only [BatchStepPlan.append]
    omega
  · omega
  · simp only [BatchStepPlan.append]
    omega
  · rw [hlen, ← Nat.add_assoc]
    simp only [BatchStepPlan.append, map_append]
    exact ha4.append hb4

theorem length_planRows (extras : Bool) (w : PendingWork) (kind : RequestStepKind) : ∀ (n j v : Nat),
    (planRows extras w kind n j v).tokens.length = n
  | 0, _, _ => rfl
  | n + 1, j, v => by
    unfold planRows
    split <;> exact (length_append).trans (by rw [length_planRows extras w kind n]; exact Nat.add_comm 1 n)

theorem uses_planSlot (extras : Bool) (w : PendingWork) (e : RequestEpoch) (verify alloc start : Nat) :
    Uses (planSlot extras w e verify alloc start) start verify alloc := by
  unfold planSlot takeAndKind
  by_cases hv : 0 < verify
  · rw [if_pos hv]
    dsimp only
    rw [if_neg (by omega)]
    refine ⟨?_, ?_, Nat.le_refl verify, ?_⟩ <;> dsimp only <;> rw [length_planRows]
    · simp
    · omega
    · exact ⟨rfl, hv, rfl⟩
  · rw [if_neg hv]
    dsimp only
    split
    · exact ⟨rfl, Nat.zero_le _, Nat.zero_le _, rfl⟩
    rename_i ha
    cases w.decoding with
    | true | false =>
      refine ⟨?_, ?_, Nat.zero_le _, ?_⟩ <;> dsimp only <;> rw [length_planRows]
      · simp
      · omega
      · exact ⟨rfl, Nat.pos_of_ne_zero ha, rfl⟩

theorem headD_add_sum_tail (l : List Nat) : l.headD 0 + l.tail.sum = l.sum := by
  cases l with
  | nil => rfl
  | cons a l => exact sum_cons.symm

/-- **The rows of a plan are packed**, and no more than its lanes were granted. -/
theorem uses_planLoop (extras : Bool) : ∀ (work : List PendingWork) (epochs : List RequestEpoch) (verify alloc : List Nat)
    (start : Nat), Uses (planLoop extras work epochs verify alloc start) start verify.sum alloc.sum
  | [], _, _, _, _ => ⟨rfl, Nat.zero_le _, Nat.zero_le _, rfl⟩
  | w :: ws, epochs, verify, alloc, start => by
    have hslot := uses_planSlot extras w (epochs.headD ⟨0, 0⟩) (verify.headD 0) (alloc.headD 0) start
    have hloop := hslot.append (uses_planLoop extras ws epochs.tail verify.tail alloc.tail _)
    rwa [headD_add_sum_tail, headD_add_sum_tail] at hloop

/-! ## The budget -/

/-- **The verify lanes stay within their cap.** -/
theorem verifyLoop_sum (p : BatchPlanner) (cap : Nat) : ∀ (work : List PendingWork) (admitted : List Bool) (used : Nat)
    {verify : List Nat} {used' : Nat}, used ≤ cap → p.verifyLoop cap work admitted used = .ok (verify, used') →
    verify.sum + used = used' ∧ used' ≤ cap
  | [], _, used, verify, used', hle, h => by
    obtain ⟨rfl, rfl⟩ := Prod.mk.inj (Except.ok.inj h)
    exact ⟨Nat.zero_add used, hle⟩
  | w :: ws, admitted, used, verify, used', hle, h => by
    -- a lane with no rows leaves the sum to the others
    have hskip : ∀ {r : Except String (List Nat × Nat)}, r = p.verifyLoop cap ws admitted.tail used →
        r.map (fun r => (0 :: r.1, r.2)) = .ok (verify, used') → verify.sum + used = used' ∧ used' ≤ cap := by
      rintro (e | ⟨vs, u⟩) hr hmap
      · cases hmap
      · obtain ⟨rfl, rfl⟩ := Prod.mk.inj (Except.ok.inj hmap)
        have ih := verifyLoop_sum p cap ws admitted.tail used hle hr.symm
        rw [sum_cons, Nat.zero_add]
        exact ih
    unfold verifyLoop at h
    split at h
    · exact hskip rfl h
    split at h
    · cases h
    dsimp only at h
    split at h
    · exact hskip rfl h
    rcases hr : p.verifyLoop cap ws admitted.tail (used + (p.draftLen w.spec + 1)) with e | ⟨vs, u⟩
    · rw [hr] at h
      cases h
    rw [hr] at h
    obtain ⟨rfl, rfl⟩ := Prod.mk.inj (Except.ok.inj h)
    obtain ⟨ih1, ih2⟩ := verifyLoop_sum p cap ws admitted.tail _ (by omega) hr
    dsimp only
    rw [sum_cons]
    exact ⟨by omega, ih2⟩

theorem keepDecode_sum : ∀ (work : List PendingWork) (alloc : List Nat) (avail : Nat), alloc.sum ≤ avail →
    (keepDecode work alloc avail).1.sum + (keepDecode work alloc avail).2 ≤ avail
  | [], _, _, _ => Nat.le_of_eq (Nat.zero_add _)
  | w :: ws, alloc, avail, h => by
    have hsum := headD_add_sum_tail alloc
    unfold keepDecode
    dsimp only
    split
    · have ih := keepDecode_sum ws alloc.tail (avail - alloc.headD 0) (by omega)
      rw [sum_cons]
      omega
    · have ih := keepDecode_sum ws alloc.tail avail (by omega)
      rw [sum_cons]
      omega

theorem forcedLoop_sum (p : BatchPlanner) (work : List PendingWork) : ∀ (is alloc : List Nat) (avail : Nat),
    (p.forcedLoop work is alloc avail).sum ≤ alloc.sum + avail
  | [], _, _ => Nat.le_add_right ..
  | i :: is, alloc, avail => by
    unfold forcedLoop
    split
    · exact forcedLoop_sum p work is alloc avail
    rename_i w _
    dsimp only
    split
    · have ih := forcedLoop_sum p work is (alloc.set i (min w (promptLenAt work i))) (avail - min w (promptLenAt work i))
      have hset := sum_set_le alloc i (min w (promptLenAt work i))
      omega
    · exact forcedLoop_sum p work is alloc avail

/-- **Forcing prefill lengths stays within the rows.** -/
theorem forcePrefill_sum (p : BatchPlanner) (work : List PendingWork) (rows : Nat) (admitted : List Bool)
    {alloc : RowAllocation} (h : alloc.alloc.sum ≤ rows) : (p.forcePrefill work rows admitted alloc).alloc.sum ≤ rows := by
  unfold forcePrefill
  split
  · exact h
  · exact Nat.le_trans (forcedLoop_sum p work _ _ _) (keepDecode_sum work alloc.alloc rows h)

variable {epochs : List RequestEpoch}

theorem planStep_ok {p p' : BatchPlanner} {work : List PendingWork} {eligible : List Bool}
    {rowBudget prefillMin : Nat} {plan : BatchStepPlan}
    (h : p.planStep work epochs eligible rowBudget prefillMin = (p', .ok plan)) :
    epochs.length = work.length ∧ ∃ verify alloc,
      plan = planLoop (anyPos3 p.scheduler work) work epochs verify alloc 0 ∧
      verify.sum ≤ p.verifyCap work rowBudget prefillMin (admittedMask epochs eligible) ∧
      alloc.sum ≤ rowBudget - verify.sum := by
  unfold planStep at h
  split at h
  · cases h
  rename_i hlen
  dsimp only at h
  split at h
  · cases h
  split at h
  · cases h
  rename_i verify used hv
  obtain ⟨hsum, hcap⟩ := verifyLoop_sum p _ work _ 0 (Nat.zero_le _) hv
  obtain rfl : verify.sum = used := hsum
  have hgrant := (allocateRows_granted p.scheduler work (rowBudget - verify.sum) prefillMin
    (admittedMask epochs eligible)).1
  exact ⟨Decidable.not_not.1 (not_or.1 hlen).1, verify, _, (Except.ok.inj (Prod.mk.inj h).2).symm, hcap,
    forcePrefill_sum p work _ _ hgrant⟩

/-! ## Publication -/

/-- **A publication is refused and changes nothing, or it commits every request.** -/
theorem publish_whole (q : BatchPlanner) (work : List PendingWork) (epochs : List RequestEpoch) (plan : BatchStepPlan)
    (advances : List RequestAdvance) (hd : (plan.requests.map RequestRows.epoch).Nodup) :
    (∃ e, q.publish work epochs plan advances = (q, work, .error e)) ∨
    ∃ work', q.publish work epochs plan advances = (published q q.pendingCursor, work', .ok ()) ∧
      Committed work epochs plan.requests advances work' := by
  unfold publish
  split
  · exact .inl ⟨_, rfl⟩
  rename_i hlen
  split
  · exact .inl ⟨_, rfl⟩
  rename_i hcheck
  split
  · exact .inl ⟨_, rfl⟩
  obtain ⟨work', hrun, hcommit⟩ := applyRequests_committed (Decidable.not_not.1 hlen) hd (checkRequests_iff.1 hcheck)
  exact .inr ⟨work', by rw [hrun]; rfl, hcommit⟩

/-- **Plans stay within their budget and are published as a whole.**  The rows of a plan are its decode, prefill and verify
rows, in order and without gaps, and no more than the budget; the verify rows leave what the decode lanes and the largest
prefill quantum need, as far as the budget has it; and whatever has become of the work in the meantime, a publication is
refused and changes nothing, or commits each planned request once. -/
theorem plan_within_budget_published_whole (p p' : BatchPlanner) (work : List PendingWork) (epochs : List RequestEpoch)
    (eligible : List Bool) (rowBudget prefillMin : Nat) (plan : BatchStepPlan) (hd : epochs.Nodup)
    (hplan : p.planStep work epochs eligible rowBudget prefillMin = (p', .ok plan)) :
    (plan.decodeRows + plan.prefillRows + plan.verifyRows = plan.batch.totalRows ∧ plan.batch.totalRows ≤ rowBudget) ∧
    (plan.requests.Pairwise (fun a b => a.rows.start + a.rows.len ≤ b.rows.start) ∧
      ∀ row, row < plan.batch.totalRows ↔ ∃ rr ∈ plan.requests, rr.rows.start ≤ row ∧ row < rr.rows.start + rr.rows.len) ∧
    min rowBudget
      (((range work.length).filter (runnableDecodeAt p.scheduler work (admittedMask epochs eligible))).length +
        p.prefillReserve work prefillMin (admittedMask epochs eligible)) ≤ rowBudget - plan.verifyRows ∧
    ∀ (q : BatchPlanner) (work₁ : List PendingWork) (epochs₁ : List RequestEpoch) (advances : List RequestAdvance),
      (∃ e, q.publish work₁ epochs₁ plan advances = (q, work₁, .error e)) ∨
      ∃ work₂, q.publish work₁ epochs₁ plan advances = (published q q.pendingCursor, work₂, .ok ()) ∧
        Committed work₁ epochs₁ plan.requests advances work₂ := by
  obtain ⟨hlen, verify, alloc, rfl, hverify, halloc⟩ := planStep_ok hplan
  have huses := uses_planLoop (anyPos3 p.scheduler work) work epochs verify alloc 0
  have hsub := planLoop_epochs (anyPos3 p.scheduler work) work epochs verify alloc 0 hlen
  unfold verifyCap at hverify
  have hrows := huses.rows
  have hverified := huses.verified
  refine ⟨⟨huses.counts, ?_⟩, ⟨pairwise_map.1 huses.packed.ordered, fun row => ?_⟩, by omega,
    fun q work₁ epochs₁ advances => publish_whole q work₁ epochs₁ _ advances (hd.sublist hsub)⟩
  · unfold SlotBatch.totalRows
    omega
  · have hcovers := huses.packed.covers row
    rw [Nat.zero_add] at hcovers
    simp only [Nat.zero_le, true_and, mem_map, exists_exists_and_eq_and] at hcovers
    exact hcovers

/-- A decode row and a prefill quantum. -/
theorem plan_within_budget_published_whole_mixed : mixedEpochs.Nodup ∧
    mixedPlanner.planStep mixedWork mixedEpochs [true, true, false] 4 2 =
      ({ mixedPlanner with pendingCursor := some 0 }, .ok mixedPlan) ∧
    mixedPlan.batch.totalRows ≤ 4 := by
  have hd : mixedEpochs.Nodup := by decide
  have heval : mixedPlanner.planStep mixedWork mixedEpochs [true, true, false] 4 2 =
      ({ mixedPlanner with pendingCursor := some 0 }, .ok mixedPlan) := by decide +kernel
  exact ⟨hd, heval, (plan_within_budget_published_whole mixedPlanner _ mixedWork mixedEpochs _ 4 2 mixedPlan hd heval).1.2⟩

end Hipfire.Sched
