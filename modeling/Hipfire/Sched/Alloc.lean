import Hipfire.Base.Lists
import Hipfire.Sched.Scheduler
/-!
# Alloc — what `allocate_rows` grants

Every phase keeps two facts about the grants so far (`Granted`): with the rows still available they fit the step's
budget, and no slot holds more than its cap (one row for a runnable decode slot, its quota for a runnable prefill slot,
none otherwise).
-/
namespace Hipfire.Sched

open Pages (pageTokens)

/-- The grants and the rows left fit the budget, and every slot's grant is within its cap. -/
structure Granted (cap : Nat → Nat) (budget : Nat) (alloc : List Nat) (avail : Nat) : Prop where
  sum_le : alloc.sum + avail ≤ budget
  le_cap : ∀ i, alloc.getD i 0 ≤ cap i

/-- The most rows one slot can be granted in a step. -/
def capAt (s : Scheduler) (work : List PendingWork) (prefillMin : Nat) (eligible : List Bool) (i : Nat) : Nat :=
  if runnableDecodeAt s work eligible i then 1
  else if runnablePrefillAt s work eligible i then quotaAt s work prefillMin i
  else 0

/-- Adding `t` rows to one slot within its cap, out of the rows available. -/
theorem Granted.add {cap : Nat → Nat} {budget : Nat} {alloc : List Nat} {avail : Nat} (h : Granted cap budget alloc avail)
    (i t : Nat) (ht : t ≤ avail) (hc : alloc.getD i 0 + t ≤ cap i) :
    Granted cap budget (alloc.set i (alloc.getD i 0 + t)) (avail - t) := by
  refine ⟨?_, fun j => ?_⟩
  · have := sum_set_add_le alloc i t
    have := h.sum_le
    omega
  · rw [getD_set]
    split
    · rename_i hij
      rw [← hij.1]; exact hc
    · exact h.le_cap j

theorem decodeLoop_granted (runnable : Nat → Bool) (cap : Nat → Nat) (budget : Nat)
    (hcap : ∀ i, runnable i = true → 1 ≤ cap i) :
    ∀ (is : List Nat) (alloc : List Nat) (used : Nat), used ≤ budget → Granted cap budget alloc (budget - used) →
      (decodeLoop runnable budget is (alloc, used)).2 ≤ budget ∧
        Granted cap budget (decodeLoop runnable budget is (alloc, used)).1
          (budget - (decodeLoop runnable budget is (alloc, used)).2)
  | [], alloc, used, hu, h => ⟨hu, h⟩
  | i :: is, alloc, used, hu, h => by
    unfold decodeLoop
    by_cases hr : runnable i = true
    · simp only [hr, Bool.not_true, Bool.false_eq_true, if_false]
      by_cases hb : budget < used + 1
      · rw [if_pos hb]; exact ⟨hu, h⟩
      rw [if_neg hb]
      refine decodeLoop_granted runnable cap budget hcap is _ _ (by omega) ⟨?_, fun j => ?_⟩
      · have := sum_set_le alloc i 1
        have := h.sum_le
        omega
      · rw [getD_set]
        split
        · rename_i hij
          rw [← hij.1]; exact hcap i hr
        · exact h.le_cap j
    · have hr' : runnable i = false := by simpa using hr
      simp only [hr', Bool.not_false, if_true]
      exact decodeLoop_granted runnable cap budget hcap is alloc used hu h

variable (slots : List Nat) (start : Nat) (promptLen quota cap : Nat → Nat) (budget : Nat)

theorem leftoverPass_granted (hcap : ∀ i ∈ slots, quota i ≤ cap i) :
    ∀ (ks : List Nat) (st : Leftover), slots ≠ [] → Granted cap budget st.alloc st.avail →
      Granted cap budget (leftoverPass slots start promptLen quota ks st).alloc
        (leftoverPass slots start promptLen quota ks st).avail
  | [], _, _, h => h
  | k :: ks, st, hne, h => by
    unfold leftoverPass
    simp only
    generalize hi : slots.getD ((start + k) % slots.length) 0 = i
    generalize ht : min (min (quota i - st.alloc.getD i 0) (promptLen i - st.alloc.getD i 0)) st.avail = take
    split
    · exact h
    split
    · exact leftoverPass_granted hcap ks st hne h
    rename_i htake
    have hlt : (start + k) % slots.length < slots.length := Nat.mod_lt _ (List.length_pos_iff.2 hne)
    have himem : i ∈ slots := by rw [← hi]; exact getD_mem slots _ 0 hlt
    refine leftoverPass_granted hcap ks _ hne (h.add i take (by omega) ?_)
    have := hcap i himem
    omega

theorem leftoverLoop_granted (hcap : ∀ i ∈ slots, quota i ≤ cap i) (hne : slots ≠ []) :
    ∀ (fuel : Nat) (st : Leftover), Granted cap budget st.alloc st.avail →
      Granted cap budget (leftoverLoop slots start promptLen quota fuel st).alloc
        (leftoverLoop slots start promptLen quota fuel st).avail
  | 0, _, h => h
  | fuel + 1, st, h => by
    unfold leftoverLoop
    split
    · exact leftoverLoop_granted hcap hne fuel _
        (leftoverPass_granted slots start promptLen quota cap budget hcap _ _ hne h)
    · exact h

/-- A pass that keeps going has used at least one row. -/
theorem leftoverPass_progress : ∀ (ks : List Nat) (st : Leftover),
      (leftoverPass slots start promptLen quota ks st).avail ≤ st.avail ∧
      ((leftoverPass slots start promptLen quota ks st).keepGoing = true → st.keepGoing = false →
        (leftoverPass slots start promptLen quota ks st).avail < st.avail)
  | [], st => by simp [leftoverPass]
  | k :: ks, st => by
    unfold leftoverPass
    simp only
    generalize slots.getD ((start + k) % slots.length) 0 = i
    generalize ht : min (min (quota i - st.alloc.getD i 0) (promptLen i - st.alloc.getD i 0)) st.avail = take
    split
    · simp
    split
    · exact leftoverPass_progress ks st
    · have h := (leftoverPass_progress ks ⟨st.alloc.set i (st.alloc.getD i 0 + take), st.avail - take, true⟩).1
      simp only at h
      exact ⟨by omega, fun _ _ => by omega⟩

/-- **The fuel of the leftover loop is enough**: it ends as the source's `while` does, with no row left or after a pass
that granted none. -/
theorem leftoverLoop_done : ∀ (fuel : Nat) (st : Leftover), st.avail < fuel →
      (leftoverLoop slots start promptLen quota fuel st).avail = 0 ∨
        (leftoverLoop slots start promptLen quota fuel st).keepGoing = false
  | 0, _, h => absurd h (Nat.not_lt_zero _)
  | fuel + 1, st, h => by
    unfold leftoverLoop
    split
    · obtain ⟨hle, hlt⟩ := leftoverPass_progress slots start promptLen quota (List.range slots.length)
        { st with keepGoing := false }
      simp only at hle hlt
      generalize leftoverPass slots start promptLen quota (List.range slots.length) { st with keepGoing := false } = st'
        at hle hlt ⊢
      by_cases hk : st'.keepGoing = true
      · exact leftoverLoop_done fuel st' (by have := hlt hk trivial; omega)
      have hk' : st'.keepGoing = false := by simpa using hk
      right
      cases fuel with
      | zero => exact hk'
      | succ fuel => unfold leftoverLoop; simp [hk']
    · rename_i hc
      by_cases ha : st.avail = 0
      · exact .inl ha
      · right
        cases hk : st.keepGoing with
        | false => rfl
        | true => exact absurd ⟨by omega, hk⟩ hc

/-! ## Quotas -/

theorem pageAlignTake_le (take pos remaining prefillMin : Nat) : pageAlignTake take pos remaining prefillMin ≤ take := by
  unfold pageAlignTake
  split
  · split
    · split
      · have := Nat.div_mul_le_self (pos + remaining) pageTokens
        omega
      · exact Nat.le_refl _
    · exact Nat.le_refl _
  · exact Nat.le_refl _

variable (s : Scheduler)

theorem quotaOf_le (prefillMin : Nat) (w : PendingWork) :
    quotaOf s prefillMin w ≤ max s.chunkSize prefillMin ∧ quotaOf s prefillMin w ≤ w.remainingPrompt.length := by
  unfold quotaOf
  split
  · exact ⟨Nat.zero_le _, Nat.zero_le _⟩
  · have := pageAlignTake_le (max (min s.chunkSize w.remainingPrompt.length) (min prefillMin w.remainingPrompt.length))
      w.nextPos w.remainingPrompt.length prefillMin
    omega

/-! ## The whole allocation -/

theorem decode_not_prefill (work : List PendingWork) (eligible : List Bool) (i : Nat)
    (h : runnablePrefillAt s work eligible i = true) : runnableDecodeAt s work eligible i = false := by
  unfold runnablePrefillAt at h
  unfold runnableDecodeAt
  cases hw : work[i]? with
  | none => rfl
  | some w =>
    rw [hw] at h
    simp only [isRunnablePrefill, isRunnableDecode] at h ⊢
    cases hs : (skipEntirely w s.vlSequential || vlWaiting w) with
    | true => simp
    | false =>
      rw [hs] at h
      have hd : w.decoding = false := by
        simp only [Bool.false_eq_true, if_false, Bool.and_eq_true, Bool.not_eq_true'] at h
        exact h.1.1
      simp [hd]

theorem headGrant_granted (head : Nat) (alloc : List Nat) (avail : Nat) (h : Granted cap budget alloc avail)
    (hz : alloc.getD head 0 = 0) (hcap : quota head ≤ cap head) :
    Granted cap budget (headGrant quota promptLen head alloc avail).alloc
      (headGrant quota promptLen head alloc avail).avail := by
  unfold headGrant
  split
  · exact h.add head _ (Nat.min_le_right _ _) (by omega)
  · exact h

/-- **The grants fit the budget and every slot's cap.** -/
theorem allocateRows_granted (work : List PendingWork) (budget prefillMin : Nat) (eligible : List Bool) :
    (allocateRows s work budget prefillMin eligible).alloc.sum ≤ budget ∧
      ∀ i, (allocateRows s work budget prefillMin eligible).alloc.getD i 0 ≤ capAt s work prefillMin eligible i := by
  -- phase 1 grants decode slots only, so a prefill slot enters phase 2 with no rows
  let dcap : Nat → Nat := fun i => if runnableDecodeAt s work eligible i then 1 else 0
  obtain ⟨hu, hd⟩ := decodeLoop_granted (runnableDecodeAt s work eligible) dcap budget (fun i hi => by simp [dcap, hi])
    (List.range work.length) (List.replicate work.length 0) 0 (Nat.zero_le _)
    ⟨by simp, fun i => by simp⟩
  have hle : ∀ i, dcap i ≤ capAt s work prefillMin eligible i := fun i => by
    unfold capAt; simp only [dcap]; split
    · exact Nat.le_refl _
    · exact Nat.zero_le _
  have hg : Granted (capAt s work prefillMin eligible) budget _ _ := ⟨hd.sum_le, fun i => Nat.le_trans (hd.le_cap i) (hle i)⟩
  unfold allocateRows
  simp only
  generalize decodeLoop (runnableDecodeAt s work eligible) budget (List.range work.length)
    (List.replicate work.length 0, 0) = decoded at hu hd hg ⊢
  split
  · exact ⟨Nat.le_trans (Nat.le_add_right _ _) hg.sum_le, hg.le_cap⟩
  rename_i hne
  have hslots : (List.range work.length).filter (runnablePrefillAt s work eligible) ≠ [] := fun h => hne (.inr h)
  generalize hsl : (List.range work.length).filter (runnablePrefillAt s work eligible) = slots at hslots ⊢
  have hpre : ∀ i ∈ slots, runnablePrefillAt s work eligible i = true := fun i hi => by
    rw [← hsl] at hi; exact (List.mem_filter.1 hi).2
  have hquota : ∀ i ∈ slots, quotaAt s work prefillMin i ≤ capAt s work prefillMin eligible i := fun i hi => by
    unfold capAt
    rw [decode_not_prefill s work eligible i (hpre i hi), hpre i hi]
    simp
  have hlt : s.prefillCursor % slots.length < slots.length := Nat.mod_lt _ (List.length_pos_iff.2 hslots)
  have hhead : slots.getD (s.prefillCursor % slots.length) 0 ∈ slots := getD_mem slots _ 0 hlt
  have hzero : decoded.1.getD (slots.getD (s.prefillCursor % slots.length) 0) 0 = 0 := by
    have := hd.le_cap (slots.getD (s.prefillCursor % slots.length) 0)
    simp only [dcap, decode_not_prefill s work eligible _ (hpre _ hhead), Bool.false_eq_true, if_false] at this
    omega
  have hh := headGrant_granted (promptLenAt work) (quotaAt s work prefillMin) (capAt s work prefillMin eligible) budget
    (slots.getD (s.prefillCursor % slots.length) 0) decoded.1 (budget - decoded.2) hg hzero (hquota _ hhead)
  have hl := leftoverLoop_granted slots (s.prefillCursor % slots.length) (promptLenAt work) (quotaAt s work prefillMin)
    (capAt s work prefillMin eligible) budget hquota hslots
    ((headGrant (quotaAt s work prefillMin) (promptLenAt work) (slots.getD (s.prefillCursor % slots.length) 0) decoded.1
      (budget - decoded.2)).avail + 1) _ hh
  exact ⟨Nat.le_trans (Nat.le_add_right _ _) hl.sum_le, hl.le_cap⟩

end Hipfire.Sched
