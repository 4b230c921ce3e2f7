import Hipfire.Sched.Emit
/-!
# Boundary — does a prompt's prefill stop at its last page boundary?

A round that would complete a prompt is trimmed to the last page boundary of the prompt, so that a checkpoint can be captured
there.  A round that does not complete it is not: when a chunk ends between the boundary and the end of the prompt, the
boundary is passed over.
-/
namespace Hipfire.Sched

open List
open Pages (pageTokens)

/-- `floor(e / PAGE_TOKENS) * PAGE_TOKENS`. -/
def lastBoundary (e : Nat) : Nat := e / pageTokens * pageTokens

/-- Where a slot's prompt ends. -/
def PendingWork.promptEnd (w : PendingWork) : Nat := w.nextPos + w.remainingPrompt.length

/-- The slot had rows in the step, and they ended at a position. -/
def StepRecord.EndsAt (r : StepRecord) (i pos : Nat) : Prop :=
  0 < r.batch.rowsOf i ∧ ∃ w, r.after[i]? = some w ∧ w.nextPos = pos

theorem lastBoundary_add (e : Nat) : lastBoundary e + e % pageTokens = e := by
  unfold lastBoundary
  rw [Nat.mul_comm]
  exact Nat.div_add_mod e pageTokens

/-! ## A slot that prefills -/

/-- The batched scheduler owns the slot's prefill. -/
structure Prefilling (w : PendingWork) (vlSequential : Bool) : Prop where
  decoding : w.decoding = false
  skip : skipEntirely w vlSequential = false
  waiting : vlWaiting w = false

variable {i prefillMin : Nat} {w : PendingWork} {s : Scheduler} {st : Scheduler × List PendingWork} {vlSequential : Bool}

theorem isRunnablePrefill_iff :
    isRunnablePrefill w vlSequential = true ↔ Prefilling w vlSequential ∧ w.remainingPrompt ≠ [] := by
  unfold isRunnablePrefill
  constructor
  · intro h
    split at h
    · cases h
    · rename_i hn
      rw [Bool.or_eq_true, not_or, Bool.not_eq_true, Bool.not_eq_true] at hn
      rw [Bool.and_eq_true, Bool.not_eq_true', Bool.not_eq_true', isEmpty_eq_false_iff] at h
      exact ⟨⟨h.1, hn.1, hn.2⟩, h.2⟩
  · rintro ⟨⟨hd, hs, hv⟩, hne⟩
    rw [hs, hv, Bool.or_self, if_neg Bool.false_ne_true, hd, isEmpty_eq_false_iff.2 hne]
    rfl

theorem rowLoop_vision (extras : Bool) (slot : Nat) (delta : Int) : ∀ (toks : List Token) (pos : Nat) (vl : Option VlPrefill),
    (rowLoop extras slot delta toks pos vl).2.map (fun v => (v.embeddings, v.nVisualTokens)) =
      vl.map fun v => (v.embeddings, v.nVisualTokens)
  | [], _, _ => rfl
  | t :: ts, pos, vl => by
    have hrow : (rowExtras delta t pos vl).2.2.map (fun v => (v.embeddings, v.nVisualTokens)) =
        vl.map fun v => (v.embeddings, v.nVisualTokens) := by
      cases vl with
      | none => rfl
      | some v =>
        unfold rowExtras
        dsimp only
        split <;> rfl
    cases extras with
    | true => exact (rowLoop_vision true slot delta ts (pos + 1) _).trans hrow
    | false => exact rowLoop_vision false slot delta ts (pos + 1) vl

theorem Prefilling.takeRows (h : Prefilling w vlSequential) (extras : Bool) (n : Nat) :
    Prefilling (takeRows extras w n).1 vlSequential := by
  unfold Sched.takeRows
  split
  · exact h
  have hv := rowLoop_vision extras w.slot w.pos3Delta (w.remainingPrompt.take n) w.nextPos w.vlPrefill
  dsimp only
  generalize (rowLoop extras w.slot w.pos3Delta (w.remainingPrompt.take n) w.nextPos w.vlPrefill).2 = vl at hv
  obtain ⟨hd, hs, hw⟩ := h
  unfold skipEntirely at hs
  unfold vlWaiting at hw
  refine ⟨hd, ?_, ?_⟩
  · unfold skipEntirely
    rw [← hs]
    have : vl.isSome = w.vlPrefill.isSome := by
      have := congrArg Option.isSome hv
      rwa [Option.isSome_map, Option.isSome_map] at this
    rw [this]
  · unfold vlWaiting
    dsimp only
    cases hvl : vl with
    | none => rfl
    | some v =>
      rw [hvl] at hv
      obtain ⟨v', hv', heq⟩ := Option.map_eq_some_iff.1 hv.symm
      obtain ⟨he, hn⟩ := Prod.mk.inj heq
      rw [hv'] at hw
      dsimp only at hw ⊢
      rw [← he, ← hn, hw]

/-! ## One step -/

/-- The rows a slot is granted in a step. -/
def grantOf (st : Scheduler × List PendingWork) (c : Call) (i : Nat) : Nat :=
  (allocateRows st.1 st.2 c.remainingRows c.prefillMin c.eligible).alloc.getD i 0

/-- **What a step does to one slot.** -/
theorem batchStep_slot (st : Scheduler × List PendingWork) (c : Call) (hw : st.2[i]? = some w) :
    (batchStep st c).2.after = (batchStep st c).1.2 ∧ (batchStep st c).2.batch.rowsOf i = grantOf st c i ∧
    grantOf st c i ≤ capAt st.1 st.2 c.prefillMin c.eligible i ∧ grantOf st c i ≤ w.remainingPrompt.length ∧
    ∃ extras, (batchStep st c).1.2[i]? = some (takeRows extras w (grantOf st c i)).1 := by
  obtain ⟨-, hcap⟩ := allocateRows_granted st.1 st.2 c.remainingRows c.prefillMin c.eligible
  have hdrain : ∀ i w, st.2[i]? = some w → grantOf st c i ≤ w.remainingPrompt.length := fun i w hw =>
    Nat.le_trans (hcap i) (capAt_le_prompt st.1 st.2 c.prefillMin c.eligible i w hw)
  obtain ⟨hafter, hrows, -⟩ := buildBatch_slot _ st.2 _ hdrain i w hw
  exact ⟨rfl, hrows, hcap i, hdrain i w hw, _, hafter⟩

theorem batchStep_scheduler (st : Scheduler × List PendingWork) (c : Call) :
    (batchStep st c).1.1.chunkSize = st.1.chunkSize ∧ (batchStep st c).1.1.vlSequential = st.1.vlSequential := by
  simp only [batchStep, nextBatchEligible]
  split <;> exact ⟨rfl, rfl⟩

theorem grantOf_le_quota {c : Call} (hw : st.2[i]? = some w) (hd : w.decoding = false) :
    grantOf st c i ≤ quotaOf st.1 c.prefillMin w := by
  obtain ⟨-, -, hcap, -⟩ := batchStep_slot st c hw
  exact Nat.le_trans hcap (capAt_le_quota st.1 st.2 c.prefillMin c.eligible i w hw hd)

theorem promptEnd_takeRows {n : Nat} (extras : Bool) (hn : n ≤ w.remainingPrompt.length) :
    (takeRows extras w n).1.promptEnd = w.promptEnd := by
  obtain ⟨hd, -⟩ := takeRows_ok extras w n hn
  unfold PendingWork.promptEnd
  rw [hd.pos, hd.prompt, length_drop]
  omega

/-! ## When the boundary is reached -/

/-- The prompt ends at the boundary or one past it, or a round is a single row, or a chunk holds the whole prompt. -/
def StopsAtBoundary (chunk start e : Nat) : Prop := e % pageTokens ≤ 1 ∨ chunk ≤ 1 ∨ e ≤ start + chunk

instance (chunk start e : Nat) : Decidable (StopsAtBoundary chunk start e) := by
  unfold StopsAtBoundary
  infer_instance

/-- **Then no quota passes the boundary.** -/
theorem quotaOf_le_boundary {start : Nat} (hp : prefillMin ≤ pageTokens)
    (he : pageTokens < w.promptEnd) (hstart : start ≤ w.nextPos) (hlt : w.nextPos < lastBoundary w.promptEnd)
    (hc : StopsAtBoundary (max s.chunkSize prefillMin) start w.promptEnd) :
    w.nextPos + quotaOf s prefillMin w ≤ lastBoundary w.promptEnd := by
  have hadd := lastBoundary_add w.promptEnd
  have hle := (quotaOf_le s prefillMin w).2
  unfold StopsAtBoundary at hc
  have hend : w.promptEnd = w.nextPos + w.remainingPrompt.length := rfl
  -- a prompt that ends at the boundary is not passed
  by_cases hmod : w.promptEnd % pageTokens = 0
  · omega
  unfold quotaOf at hle ⊢
  split
  · omega
  rename_i hne
  unfold pageAlignTake at hle ⊢
  rw [← hend] at hle ⊢
  by_cases hfull : w.remainingPrompt.length ≤
      max (min s.chunkSize w.remainingPrompt.length) (min prefillMin w.remainingPrompt.length)
  · -- the round would complete the prompt, and is trimmed
    rw [if_pos ⟨hfull, Nat.pos_of_ne_zero hne, hp⟩, if_pos ⟨hmod, he⟩]
    unfold lastBoundary at hlt ⊢
    rw [if_pos hlt]
    omega
  · rw [if_neg fun h => hfull h.1]
    omega

theorem boundary_of_drained {start : Nat} (hp : prefillMin ≤ pageTokens) :
    ∀ (calls : List Call) (st : Scheduler × List PendingWork) (w : PendingWork), (∀ c ∈ calls, c.prefillMin = prefillMin) →
      st.2[i]? = some w → w.decoding = false → pageTokens < w.promptEnd → start ≤ w.nextPos →
      w.nextPos < lastBoundary w.promptEnd → StopsAtBoundary (max st.1.chunkSize prefillMin) start w.promptEnd →
      (∃ w', (runSteps batchStep st calls).1.2[i]? = some w' ∧ w'.remainingPrompt = []) →
      ∃ r ∈ (runSteps batchStep st calls).2, r.EndsAt i (lastBoundary w.promptEnd)
  | [], st, w, _, hw, _, _, _, hlt, _, ⟨w', hw', hnil⟩ => by
    -- a drained prompt is past its boundary
    have hadd := lastBoundary_add w.promptEnd
    cases hw.symm.trans hw'
    have hend : w.promptEnd = w.nextPos + w.remainingPrompt.length := rfl
    rw [hnil, length_nil] at hend
    omega
  | c :: calls, st, w, hmin, hw, hd, he, hstart, hlt, hc, hdone => by
    obtain ⟨hafter, hrows, -, hle, extras, hget⟩ := batchStep_slot st c hw
    have hquota := grantOf_le_quota (c := c) hw hd
    rw [hmin c mem_cons_self] at hquota
    have hbound := quotaOf_le_boundary hp he hstart hlt hc
    have hpos := (takeRows_ok extras w _ hle).1.pos
    have hpe := promptEnd_takeRows extras hle
    by_cases hat : w.nextPos + grantOf st c i = lastBoundary w.promptEnd
    · refine ⟨_, mem_cons_self, ?_, _, by rw [hafter]; exact hget, by rw [hpos, hat]⟩
      omega
    rw [← hpe] at he hlt hc ⊢
    have hstart' : start ≤ (takeRows extras w (grantOf st c i)).1.nextPos := by rw [hpos]; omega
    obtain ⟨r, hr, hends⟩ := boundary_of_drained hp calls (batchStep st c).1 _
      (forall_mem_cons.1 hmin).2 hget
      (by unfold takeRows; split <;> exact hd) he hstart' (by rw [hpos, hpe]; omega)
      (by rw [(batchStep_scheduler st c).1]; exact hc) hdone
    exact ⟨r, mem_cons_of_mem _ hr, hends⟩

/-! ## Steps of one slot alone -/

/-- The mask that admits one slot. -/
def onlySlot (i : Nat) : List Bool := replicate i false ++ [true]

def soloCall (rows prefillMin i : Nat) : Call := ⟨rows, prefillMin, onlySlot i⟩

theorem eligibleAt_onlySlot (i j : Nat) : eligibleAt (onlySlot i) j = decide (j = i) := by
  unfold eligibleAt onlySlot
  rcases Nat.lt_trichotomy j i with h | h | h
  · rw [getElem?_append_left (by rw [length_replicate]; exact h), getElem?_replicate, if_pos h,
      decide_eq_false (Nat.ne_of_lt h)]
    rfl
  · rw [getElem?_append_right (by rw [length_replicate, h]), length_replicate, h, Nat.sub_self,
      decide_eq_true rfl]
    rfl
  · rw [getElem?_eq_none (by rw [length_append, length_replicate]; exact h),
      decide_eq_false (Nat.ne_of_gt h)]
    rfl

theorem decodeLoop_of_none {runnable : Nat → Bool} (h : ∀ j, runnable j = false) (rows : Nat) :
    ∀ (is : List Nat) (st : List Nat × Nat), decodeLoop runnable rows is st = st
  | [], _ => rfl
  | i :: is, st => by
    rw [decodeLoop, h i]
    exact decodeLoop_of_none h rows is st

theorem filter_range_eq {n : Nat} (hi : i < n) {p : Nat → Bool} (hp : ∀ j, p j = decide (j = i)) :
    (range n).filter p = [i] := by
  rw [show p = fun j => decide (j = i) from funext hp, filter_eq,
    count_eq_one_of_mem nodup_range (mem_range.2 hi)]
  rfl

theorem leftoverLoop_solo {promptLen quota : Nat → Nat} (fuel : Nat) (st : Leftover)
    (h : st.avail = 0 ∨ quota i ≤ st.alloc.getD i 0) :
    (leftoverLoop [i] 0 promptLen quota fuel st).alloc = st.alloc := by
  have hpass : (leftoverPass [i] 0 promptLen quota [0] { st with keepGoing := false }) = { st with keepGoing := false } := by
    rw [leftoverPass]
    split
    · rfl
    · have hzero : min (min (quota i - st.alloc.getD i 0) (promptLen i - st.alloc.getD i 0)) st.avail = 0 := by omega
      rw [show ([i] : List Nat).getD ((0 + 0) % [i].length) 0 = i from rfl, if_pos hzero]
      rfl
  cases fuel with
  | zero => rfl
  | succ fuel =>
    rw [leftoverLoop]
    split
    · rw [show range [i].length = [0] from rfl, hpass]
      cases fuel with
      | zero => rfl
      | succ fuel =>
        rw [leftoverLoop, if_neg fun h => Bool.false_ne_true h.2]
    · rfl

/-- **A slot that is alone is granted its quota, as far as the budget reaches.** -/
theorem grantOf_solo {rows : Nat} (hw : st.2[i]? = some w) (hp : Prefilling w st.1.vlSequential)
    (hne : w.remainingPrompt ≠ []) :
    grantOf st (soloCall rows prefillMin i) i = min (quotaOf st.1 prefillMin w) rows := by
  have hi : i < st.2.length := lt_of_getElem? hw
  have hrun : isRunnablePrefill w st.1.vlSequential = true := isRunnablePrefill_iff.2 ⟨hp, hne⟩
  have hdec : ∀ j, runnableDecodeAt st.1 st.2 (onlySlot i) j = false := fun j => by
    unfold runnableDecodeAt
    rw [eligibleAt_onlySlot]
    by_cases hj : j = i
    · rw [hj, hw]
      dsimp only
      unfold isRunnableDecode
      rw [hp.decoding]
      simp
    · rw [decide_eq_false hj]
      cases st.2[j]? <;> simp
  have hpre : ∀ j, runnablePrefillAt st.1 st.2 (onlySlot i) j = decide (j = i) := fun j => by
    unfold runnablePrefillAt
    rw [eligibleAt_onlySlot]
    by_cases hj : j = i
    · rw [hj, hw]
      dsimp only
      rw [hrun]
      rfl
    · rw [decide_eq_false hj]
      cases st.2[j]? <;> simp
  have hquota : quotaAt st.1 st.2 prefillMin i = quotaOf st.1 prefillMin w := by
    unfold quotaAt
    rw [hw]
  have hlen : 0 < promptLenAt st.2 i := by
    unfold promptLenAt
    rw [hw]
    exact length_pos_of_ne_nil hne
  have hzero : (replicate st.2.length 0).getD i 0 = 0 := by simp
  unfold grantOf soloCall allocateRows
  dsimp only
  rw [decodeLoop_of_none hdec, filter_range_eq hi hpre]
  rw [Nat.sub_zero]
  by_cases hrows : rows = 0
  · rw [if_pos (.inl hrows), hzero, hrows, Nat.min_zero]
  rw [if_neg (by rintro (h | h); exacts [hrows h, absurd h (cons_ne_nil _ _)])]
  rw [show st.1.prefillCursor % [i].length = 0 from Nat.mod_one _, show ([i] : List Nat).getD 0 0 = i from rfl]
  unfold headGrant
  rw [hquota, hzero, Nat.zero_add]
  split
  · have hset : ((replicate st.2.length 0).set i (min (quotaOf st.1 prefillMin w) rows)).getD i 0 =
        min (quotaOf st.1 prefillMin w) rows := by
      rw [getD_set, if_pos ⟨rfl, by rw [length_replicate]; exact hi⟩]
    rw [leftoverLoop_solo _ _ (by
      dsimp only
      omega), hset]
  · rename_i hnot
    have hmin : min (quotaOf st.1 prefillMin w) rows = 0 := by
      by_contra h
      exact hnot ⟨Nat.pos_of_ne_zero h, hlen⟩
    rw [leftoverLoop_solo _ _ (by
      omega), hzero, hmin]

/-- A slot of a state, prefilling, with what the run does not change. -/
structure Holding (s : Scheduler) (st : Scheduler × List PendingWork) (i : Nat) (w : PendingWork) : Prop where
  chunkSize : st.1.chunkSize = s.chunkSize
  vlSequential : st.1.vlSequential = s.vlSequential
  work : st.2[i]? = some w
  prefilling : Prefilling w s.vlSequential

/-- **A step of a slot alone.** -/
theorem Holding.solo (h : Holding s st i w) (rows prefillMin : Nat) (hne : w.remainingPrompt ≠ []) :
    ∃ w', Holding s (batchStep st (soloCall rows prefillMin i)).1 i w' ∧
      Drained w w' (min (quotaOf st.1 prefillMin w) rows) ∧
      ∀ pos, (batchStep st (soloCall rows prefillMin i)).2.EndsAt i pos →
        pos = w.nextPos + min (quotaOf st.1 prefillMin w) rows := by
  have hp : Prefilling w st.1.vlSequential := by rw [h.vlSequential]; exact h.prefilling
  obtain ⟨hafter, -, -, hle, extras, hget⟩ := batchStep_slot st (soloCall rows prefillMin i) h.work
  rw [grantOf_solo h.work hp hne] at hle hget
  obtain ⟨hcs, hvs⟩ := batchStep_scheduler st (soloCall rows prefillMin i)
  have hd := (takeRows_ok extras w _ hle).1
  refine ⟨_, ⟨hcs.trans h.chunkSize, hvs.trans h.vlSequential, hget, h.prefilling.takeRows extras _⟩, hd, ?_⟩
  rintro pos ⟨-, w', hw', rfl⟩
  cases hget.symm.trans (hafter ▸ hw')
  exact hd.pos

theorem quotaOf_pos (prefillMin : Nat) (hc : 1 ≤ s.chunkSize) (hne : w.remainingPrompt ≠ []) :
    1 ≤ quotaOf s prefillMin w := by
  have hpos := length_pos_of_ne_nil hne
  unfold quotaOf pageAlignTake
  rw [if_neg (Nat.ne_of_gt hpos)]
  repeat' split
  all_goals omega

/-- **Row by row**: as many steps of one row as wanted. -/
theorem Holding.ones (prefillMin : Nat) (hc : 1 ≤ s.chunkSize) : ∀ (n : Nat)
    {st : Scheduler × List PendingWork} {w : PendingWork}, Holding s st i w → n ≤ w.remainingPrompt.length →
    ∃ w', Holding s (runSteps batchStep st (replicate n (soloCall 1 prefillMin i))).1 i w' ∧ Drained w w' n ∧
      ∀ r ∈ (runSteps batchStep st (replicate n (soloCall 1 prefillMin i))).2, ∀ pos, r.EndsAt i pos →
        w.nextPos < pos ∧ pos ≤ w.nextPos + n
  | 0, st, w, h, _ => ⟨w, h, Drained.refl w, nofun⟩
  | n + 1, st, w, h, hn => by
    have hne : w.remainingPrompt ≠ [] := ne_nil_of_length_pos (by omega)
    obtain ⟨w₁, h₁, hd₁, hpos₁⟩ := h.solo 1 prefillMin hne
    have hq := quotaOf_pos prefillMin (by rw [h.chunkSize]; exact hc) hne
    rw [Nat.min_eq_right hq] at hd₁ hpos₁
    have hlen : w₁.remainingPrompt.length = w.remainingPrompt.length - 1 := by rw [hd₁.prompt, length_drop]
    obtain ⟨w', h', hd', hpos'⟩ := Holding.ones prefillMin hc n h₁ (by omega)
    refine ⟨w', h', ?_, forall_mem_cons.2 ⟨fun pos hends => ?_, fun r hr pos hends => ?_⟩⟩
    · rw [Nat.add_comm]
      exact hd₁.trans hd'
    · have := hpos₁ pos hends
      omega
    · have := hpos' r hr pos hends
      rw [hd₁.pos] at this
      omega

/-! ## When it is passed over -/

/-- The position from which a chunk ends past the boundary and before the end of the prompt. -/
def missFrom (chunk e : Nat) : Nat := min (lastBoundary e - 1) (e - chunk - 1)

theorem missFrom_spec {chunk start e : Nat} (hlt : start < lastBoundary e) (hc : ¬ StopsAtBoundary chunk start e) :
    start ≤ missFrom chunk e ∧ missFrom chunk e < lastBoundary e ∧ lastBoundary e < missFrom chunk e + chunk ∧
      missFrom chunk e + chunk < e := by
  have hadd := lastBoundary_add e
  unfold StopsAtBoundary at hc
  unfold missFrom
  omega

theorem quotaOf_of_lt (h : max s.chunkSize prefillMin < w.remainingPrompt.length) :
    quotaOf s prefillMin w = max s.chunkSize prefillMin := by
  unfold quotaOf pageAlignTake
  rw [if_neg (by omega), if_neg (by omega)]
  omega

/-- **Some steps drain the prompt and pass the boundary over.** -/
theorem exists_missing {work : List PendingWork} (hw : work[i]? = some w)
    (hp : Prefilling w s.vlSequential) (hchunk : 1 ≤ s.chunkSize) (hlt : w.nextPos < lastBoundary w.promptEnd)
    (hc : ¬ StopsAtBoundary (max s.chunkSize prefillMin) w.nextPos w.promptEnd) :
    ∃ calls : List Call, (∀ c ∈ calls, c.prefillMin = prefillMin) ∧
      (∃ w', (runBatches s work calls).1.2[i]? = some w' ∧ w'.remainingPrompt = []) ∧
      ∀ r ∈ (runBatches s work calls).2, ¬ r.EndsAt i (lastBoundary w.promptEnd) := by
  obtain ⟨hge, hbelow, hover, hend⟩ := missFrom_spec hlt hc
  generalize missFrom (max s.chunkSize prefillMin) w.promptEnd = place at hge hbelow hover hend
  have hlen : w.promptEnd = w.nextPos + w.remainingPrompt.length := rfl
  -- row by row to a place from which a chunk passes the boundary, the chunk, and row by row to the end
  have h₀ : Holding s (s, work) i w := ⟨rfl, rfl, hw, hp⟩
  obtain ⟨w₁, h₁, hd₁, hpos₁⟩ := h₀.ones prefillMin hchunk (place - w.nextPos) (by omega)
  have hlen₁ : w₁.remainingPrompt.length = w.remainingPrompt.length - (place - w.nextPos) := by
    rw [hd₁.prompt, length_drop]
  obtain ⟨w₂, h₂, hd₂, hpos₂⟩ := h₁.solo (max s.chunkSize prefillMin) prefillMin
    (ne_nil_of_length_pos (by omega))
  have hquota : ∀ s' : Scheduler, s'.chunkSize = s.chunkSize → quotaOf s' prefillMin w₁ = max s.chunkSize prefillMin :=
    fun s' hs' => by rw [quotaOf_of_lt (by rw [hs']; omega), hs']
  rw [hquota _ h₁.chunkSize, Nat.min_self] at hd₂ hpos₂
  obtain ⟨w₃, h₃, hd₃, hpos₃⟩ := h₂.ones prefillMin hchunk w₂.remainingPrompt.length le_rfl
  refine ⟨replicate (place - w.nextPos) (soloCall 1 prefillMin i) ++ soloCall (max s.chunkSize prefillMin) prefillMin i ::
    replicate w₂.remainingPrompt.length (soloCall 1 prefillMin i), forall_mem_append.2 ⟨forall_mem_replicate.2 (.inr rfl),
    forall_mem_cons.2 ⟨rfl, forall_mem_replicate.2 (.inr rfl)⟩⟩, ?_⟩
  unfold runBatches
  rw [runSteps_append, runSteps_cons]
  have hp₁ := hd₁.pos
  have hp₂ := hd₂.pos
  refine ⟨⟨w₃, h₃.work, by rw [hd₃.prompt, drop_length]⟩,
    forall_mem_append.2 ⟨fun r hr hends => ?_, forall_mem_cons.2 ⟨fun hends => ?_, fun r hr hends => ?_⟩⟩⟩
  · have := hpos₁ r hr _ hends
    omega
  · have := hpos₂ _ hends
    omega
  · have := hpos₃ r hr _ hends
    omega

/-- **When every prompt gets its resumable boundary.**  A prefilling slot reaches the last page boundary of its prompt under
every sequence of budgets and masks that drains it exactly when the prompt ends at the boundary or one past it, or a round is
one row, or a chunk holds the whole prompt. -/
theorem boundary_reached_iff (s : Scheduler) (work : List PendingWork) (i prefillMin : Nat) (w : PendingWork)
    (hw : work[i]? = some w) (hrun : isRunnablePrefill w s.vlSequential = true) (hchunk : 1 ≤ s.chunkSize)
    (hmin : prefillMin ≤ pageTokens) (hlong : pageTokens < w.promptEnd) (hstart : w.nextPos < lastBoundary w.promptEnd) :
    (∀ calls : List Call, (∀ c ∈ calls, c.prefillMin = prefillMin) →
      (∃ w', (runBatches s work calls).1.2[i]? = some w' ∧ w'.remainingPrompt = []) →
      ∃ r ∈ (runBatches s work calls).2, r.EndsAt i (lastBoundary w.promptEnd)) ↔
    StopsAtBoundary (max s.chunkSize prefillMin) w.nextPos w.promptEnd := by
  obtain ⟨hp, -⟩ := isRunnablePrefill_iff.1 hrun
  constructor
  · intro hall
    by_contra hc
    obtain ⟨calls, hcalls, hdone, hmiss⟩ := exists_missing hw hp hchunk hstart hc
    obtain ⟨r, hr, hends⟩ := hall calls hcalls hdone
    exact hmiss r hr hends
  · intro hc calls hcalls hdone
    exact boundary_of_drained hmin calls (s, work) w hcalls hw hp.decoding hlong le_rfl hstart hc hdone

/-- A prompt of 270 tokens from position 10 on, in chunks of 256. -/
def midPageWork : List PendingWork := [⟨0, replicate 270 7, 10, false, none, .none, 0⟩]

/-- The first round ends at 266 and the second at 280; the boundary is at 256. -/
theorem mid_page_start_misses : ((runBatches ⟨256, false, 0⟩ midPageWork [⟨4096, 1, [true]⟩, ⟨4096, 1, [true]⟩]).1.2.map
      fun w => (w.nextPos, w.remainingPrompt)) = [(280, [])] ∧
    ((runBatches ⟨256, false, 0⟩ midPageWork [⟨4096, 1, [true]⟩, ⟨4096, 1, [true]⟩]).2.map
      fun r => r.after.map PendingWork.nextPos) = [[266], [280]] ∧ lastBoundary 280 = 256 := by
  decide +kernel

/-- A prompt that fits a chunk. -/
def shortWork : PendingWork := ⟨0, replicate 130 7, 0, false, none, .none, 0⟩

theorem boundary_reached_iff_one_chunk : StopsAtBoundary 1024 0 130 ∧
    ∀ calls : List Call, (∀ c ∈ calls, c.prefillMin = 1) →
      (∃ w', (runBatches ⟨1024, false, 0⟩ [shortWork] calls).1.2[0]? = some w' ∧ w'.remainingPrompt = []) →
      ∃ r ∈ (runBatches ⟨1024, false, 0⟩ [shortWork] calls).2, r.EndsAt 0 128 := by
  have hc : StopsAtBoundary 1024 0 130 := by decide
  have hend : shortWork.promptEnd = 130 := by decide +kernel
  have hlast : lastBoundary 130 = 128 := by decide
  have h := boundary_reached_iff ⟨1024, false, 0⟩ [shortWork] 0 1 shortWork rfl (by decide +kernel) (by decide) (by decide)
  rw [hend, hlast] at h
  exact ⟨hc, (h (by decide) (by decide)).2 hc⟩

end Hipfire.Sched
