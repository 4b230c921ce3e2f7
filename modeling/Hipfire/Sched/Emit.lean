import Hipfire.Base.Run
import Hipfire.Sched.Alloc
/-!
# Emit — the rows of a step, and of a run of steps

One step drains a prefix of every granted slot's prompt into consecutive rows (`nextBatchEligible_ok`); over a run the
rows of each slot, step after step, are a prefix of the prompt it started with, at consecutive positions
(`runBatches_emits_prompt_prefixes`).
-/
namespace Hipfire.Sched

open List

/-- The position column of `n` rows from `pos` on, as the batch's `i32`s. -/
def positionsFrom (pos n : Nat) : List Int := (range' pos n).map (fun p : Nat => asI32 p)

theorem positionsFrom_append (pos a b : Nat) : positionsFrom pos a ++ positionsFrom (pos + a) b = positionsFrom pos (a + b) := by
  unfold positionsFrom
  rw [← map_append, range'_append_1]

/-- Below `2^31` the position column holds the absolute positions themselves. -/
theorem positionsFrom_of_le (pos n : Nat) (h : pos + n ≤ 2147483648) :
    positionsFrom pos n = (range' pos n).map Int.ofNat := by
  refine map_congr_left fun p hp => asI32_of_lt ?_
  have := mem_range'_1.1 hp
  omega

theorem length_positionsFrom (pos n : Nat) : (positionsFrom pos n).length = n := by simp [positionsFrom]

/-- One slot after `n` of its rows were emitted: the prompt drained, the position advanced, the identity kept. -/
structure Drained (w w' : PendingWork) (n : Nat) : Prop where
  le_prompt : n ≤ w.remainingPrompt.length
  prompt : w'.remainingPrompt = w.remainingPrompt.drop n
  pos : w'.nextPos = w.nextPos + n
  slot : w'.slot = w.slot

theorem Drained.refl (w : PendingWork) : Drained w w 0 := ⟨Nat.zero_le _, rfl, rfl, rfl⟩

theorem Drained.trans {w₀ w₁ w₂ : PendingWork} {m n : Nat} (h : Drained w₀ w₁ m) (h' : Drained w₁ w₂ n) :
    Drained w₀ w₂ (m + n) := by
  have hle := h'.le_prompt
  rw [h.prompt, length_drop] at hle
  refine ⟨by have := h.le_prompt; omega, ?_, ?_, by rw [h'.slot, h.slot]⟩
  · rw [h'.prompt, h.prompt, drop_drop]
  · rw [h'.pos, h.pos]; omega

/-! ## One slot's rows -/

theorem rowLoop_columns (extras : Bool) (slot : Nat) (delta : Int) :
    ∀ (toks : List Token) (pos : Nat) (vl : Option VlPrefill),
      (rowLoop extras slot delta toks pos vl).1.tokens = toks ∧
      (rowLoop extras slot delta toks pos vl).1.positions = positionsFrom pos toks.length ∧
      (rowLoop extras slot delta toks pos vl).1.rowSlot = replicate toks.length (asI32 slot)
  | [], pos, vl => ⟨rfl, rfl, rfl⟩
  | t :: ts, pos, vl => by
    have hp : positionsFrom pos (t :: ts).length = asI32 pos :: positionsFrom (pos + 1) ts.length := by
      simp [positionsFrom, range'_succ]
    unfold rowLoop
    cases extras with
    | true =>
      obtain ⟨h1, h2, h3⟩ := rowLoop_columns true slot delta ts (pos + 1) (rowExtras delta t pos vl).2.2
      simp only [if_true, SlotBatch.append, h1, h2, h3, hp]
      exact ⟨rfl, rfl, rfl⟩
    | false =>
      obtain ⟨h1, h2, h3⟩ := rowLoop_columns false slot delta ts (pos + 1) vl
      simp only [Bool.false_eq_true, if_false, SlotBatch.append, h1, h2, h3, hp]
      exact ⟨rfl, rfl, rfl⟩

/-- **What draining `n` tokens of one slot emits.** -/
structure Rows (w : PendingWork) (n : Nat) (b : SlotBatch) : Prop where
  count : b.mPerSlot = [n]
  tokens : b.tokens = w.remainingPrompt.take n
  positions : b.positions = positionsFrom w.nextPos n
  rowSlot : b.rowSlot = replicate n (asI32 w.slot)

variable {w : PendingWork}

theorem Rows.length {n : Nat} {b : SlotBatch} (h : Rows w n b) (hn : n ≤ w.remainingPrompt.length) :
    b.tokens.length = n := by
  rw [h.tokens, length_take]; omega

theorem takeRows_ok (extras : Bool) (w : PendingWork) (n : Nat) (hn : n ≤ w.remainingPrompt.length) :
    Drained w (takeRows extras w n).1 n ∧ Rows w n (takeRows extras w n).2 := by
  unfold takeRows
  split
  · rename_i h0
    subst h0
    exact ⟨Drained.refl w, ⟨rfl, rfl, rfl, rfl⟩⟩
  · have hlen : (w.remainingPrompt.take n).length = n := by rw [length_take]; omega
    obtain ⟨h1, h2, h3⟩ := rowLoop_columns extras w.slot w.pos3Delta (w.remainingPrompt.take n) w.nextPos w.vlPrefill
    simp only [hlen] at h2 h3 ⊢
    exact ⟨⟨hn, rfl, rfl, rfl⟩, ⟨rfl, h1, h2, h3⟩⟩

/-! ## All slots -/

def SlotBatch.slotTokens (b : SlotBatch) (i : Nat) : List Token := segment b.mPerSlot b.tokens i
def SlotBatch.slotPositions (b : SlotBatch) (i : Nat) : List Int := segment b.mPerSlot b.positions i
def SlotBatch.slotRowSlots (b : SlotBatch) (i : Nat) : List Int := segment b.mPerSlot b.rowSlot i
def SlotBatch.rowsOf (b : SlotBatch) (i : Nat) : Nat := b.mPerSlot.getD i 0

/-- The flat arrays of a batch over `n` slots are cut by `m_per_slot`. -/
structure Packed (n : Nat) (b : SlotBatch) : Prop where
  slots : b.mPerSlot.length = n
  tokens : b.mPerSlot.sum = b.tokens.length
  positions : b.mPerSlot.sum = b.positions.length
  rowSlot : b.mPerSlot.sum = b.rowSlot.length

/-- No slot is granted more rows than its prompt has. -/
def Fits (work : List PendingWork) (alloc : List Nat) : Prop :=
  ∀ i w, work[i]? = some w → alloc.getD i 0 ≤ w.remainingPrompt.length

variable {alloc : List Nat} {ws : List PendingWork}

theorem Fits.head (h : Fits (w :: ws) alloc) : alloc.headD 0 ≤ w.remainingPrompt.length := by
  have := h 0 w rfl
  cases alloc <;> exact this

theorem getD_tail (alloc : List Nat) (i : Nat) : alloc.tail.getD i 0 = alloc.getD (i + 1) 0 := by
  cases alloc <;> simp

theorem Fits.tail (h : Fits (w :: ws) alloc) :
    Fits ws alloc.tail := fun i w' hw => by rw [getD_tail]; exact h (i + 1) w' hw

theorem buildBatch_packed (extras : Bool) : ∀ (work : List PendingWork) (alloc : List Nat), Fits work alloc →
    Packed work.length (buildBatch extras work alloc).2
  | [], alloc, _ => ⟨rfl, rfl, rfl, rfl⟩
  | w :: ws, alloc, h => by
    have hr := (takeRows_ok extras w (alloc.headD 0) h.head).2
    have ht := buildBatch_packed extras ws alloc.tail h.tail
    have hlen := hr.length h.head
    unfold buildBatch
    simp only [SlotBatch.append, hr.count]
    refine ⟨?_, ?_, ?_, ?_⟩
    · rw [length_append, ht.slots]; simp [Nat.add_comm]
    · rw [sum_append, length_append, ht.tokens, hlen]; simp
    · rw [sum_append, length_append, ht.positions, hr.positions, length_positionsFrom]; simp
    · rw [sum_append, length_append, ht.rowSlot, hr.rowSlot, length_replicate]; simp

/-- **Every slot's segment is its own drained prefix.** -/
theorem buildBatch_slot (extras : Bool) : ∀ (work : List PendingWork) (alloc : List Nat), Fits work alloc →
      ∀ i w, work[i]? = some w →
        (buildBatch extras work alloc).1[i]? = some (takeRows extras w (alloc.getD i 0)).1 ∧
        (buildBatch extras work alloc).2.rowsOf i = alloc.getD i 0 ∧
        (buildBatch extras work alloc).2.slotTokens i = w.remainingPrompt.take (alloc.getD i 0) ∧
        (buildBatch extras work alloc).2.slotPositions i = positionsFrom w.nextPos (alloc.getD i 0) ∧
        (buildBatch extras work alloc).2.slotRowSlots i = replicate (alloc.getD i 0) (asI32 w.slot)
  | [], alloc, _, i, w, hw => by simp at hw
  | w₀ :: ws, alloc, h, i, w, hw => by
    have hd : alloc.getD 0 0 = alloc.headD 0 := by cases alloc <;> rfl
    have hr := (takeRows_ok extras w₀ (alloc.headD 0) h.head).2
    have hlen := hr.length h.head
    unfold buildBatch SlotBatch.rowsOf SlotBatch.slotTokens SlotBatch.slotPositions SlotBatch.slotRowSlots
    simp only [SlotBatch.append, hr.count, singleton_append]
    have hpos : (takeRows extras w₀ (alloc.headD 0)).2.positions.length = alloc.headD 0 := by
      rw [hr.positions, length_positionsFrom]
    have hrow : (takeRows extras w₀ (alloc.headD 0)).2.rowSlot.length = alloc.headD 0 := by
      rw [hr.rowSlot, length_replicate]
    cases i with
    | zero =>
      simp only [getElem?_cons_zero, Option.some.injEq] at hw
      subst hw
      rw [hd, segment_zero _ _ _ _ hlen, segment_zero _ _ _ _ hpos, segment_zero _ _ _ _ hrow]
      exact ⟨rfl, rfl, hr.tokens, hr.positions, hr.rowSlot⟩
    | succ j =>
      rw [segment_succ _ _ _ _ _ hlen, segment_succ _ _ _ _ _ hpos, segment_succ _ _ _ _ _ hrow, ← getD_tail]
      exact buildBatch_slot extras ws alloc.tail h.tail j w hw

/-! ## One step -/

/-- The arguments of one `next_batch_eligible` call. -/
structure Call where
  remainingRows : Nat
  prefillMin : Nat
  eligible : List Bool

/-- A slot this step must not touch: ungranted, waiting on its vision tower, or owned by a speculative decode. -/
def leftAlone (c : Call) (i : Nat) (w : PendingWork) : Prop :=
  eligibleAt c.eligible i = false ∨ vlWaiting w = true ∨ (w.spec.active = true ∧ w.decoding = true)

/-- **What one step promises**: within the budget, packed in slot order, each slot drained from the front at consecutive
positions, the excluded slots untouched, no prefill slot above its maximum. -/
structure StepOk (chunkSize : Nat) (work : List PendingWork) (c : Call) (work' : List PendingWork) (b : SlotBatch) :
    Prop where
  budget : b.totalRows ≤ c.remainingRows
  length : work'.length = work.length
  packed : Packed work.length b
  tokensInOrder : (range work.length).flatMap b.slotTokens = b.tokens
  positionsInOrder : (range work.length).flatMap b.slotPositions = b.positions
  rowSlotInOrder : (range work.length).flatMap b.slotRowSlots = b.rowSlot
  slot : ∀ i w, work[i]? = some w → ∃ w', work'[i]? = some w' ∧ Drained w w' (b.rowsOf i) ∧
    b.slotTokens i = w.remainingPrompt.take (b.rowsOf i) ∧ b.slotPositions i = positionsFrom w.nextPos (b.rowsOf i) ∧
    b.slotRowSlots i = replicate (b.rowsOf i) (asI32 w.slot)
  untouched : ∀ i w, work[i]? = some w → leftAlone c i w → work'[i]? = some w ∧ b.rowsOf i = 0
  quota : ∀ i w, work[i]? = some w → w.decoding = false → b.rowsOf i ≤ max chunkSize c.prefillMin

variable (s : Scheduler) (work : List PendingWork)

theorem capAt_le_prompt (prefillMin : Nat) (eligible : List Bool) (i : Nat) (w : PendingWork)
    (hw : work[i]? = some w) : capAt s work prefillMin eligible i ≤ w.remainingPrompt.length := by
  unfold capAt
  split
  · rename_i hd
    simp only [runnableDecodeAt, hw, isRunnableDecode] at hd
    cases hp : w.remainingPrompt with
    | nil => simp [hp] at hd
    | cons t ts => simp
  · split
    · simp only [quotaAt, hw]; exact (quotaOf_le s prefillMin w).2
    · exact Nat.zero_le _

theorem capAt_leftAlone (c : Call) (i : Nat) (w : PendingWork) (hw : work[i]? = some w)
    (h : leftAlone c i w) : capAt s work c.prefillMin c.eligible i = 0 := by
  simp only [capAt, runnableDecodeAt, runnablePrefillAt, hw, isRunnableDecode, isRunnablePrefill, skipEntirely]
  rcases h with h | h | ⟨h1, h2⟩
  · simp [h]
  · simp [h]
  · simp [h1, h2]

theorem capAt_le_quota (prefillMin : Nat) (eligible : List Bool) (i : Nat) (w : PendingWork)
    (hw : work[i]? = some w) (hd : w.decoding = false) :
    capAt s work prefillMin eligible i ≤ quotaOf s prefillMin w := by
  unfold capAt
  have hnd : runnableDecodeAt s work eligible i = false := by simp [runnableDecodeAt, hw, isRunnableDecode, hd]
  rw [hnd]
  simp only [Bool.false_eq_true, if_false]
  split
  · simp only [quotaAt, hw]; exact le_rfl
  · exact Nat.zero_le _

theorem length_buildBatch (extras : Bool) : ∀ (work : List PendingWork) (alloc : List Nat),
    (buildBatch extras work alloc).1.length = work.length
  | [], _ => rfl
  | w :: ws, alloc => by simp [buildBatch, length_buildBatch extras ws]

theorem sum_mPerSlot_le (extras : Bool) : ∀ (work : List PendingWork) (alloc : List Nat), Fits work alloc →
    (buildBatch extras work alloc).2.mPerSlot.sum ≤ alloc.sum
  | [], alloc, _ => by simp [buildBatch, SlotBatch.empty]
  | w :: ws, alloc, h => by
    have ht := sum_mPerSlot_le extras ws alloc.tail h.tail
    have hsum : alloc.sum = alloc.headD 0 + alloc.tail.sum := by cases alloc <;> simp
    simp only [buildBatch, SlotBatch.append, (takeRows_ok extras w _ h.head).2.count, sum_append, sum_singleton]
    omega

theorem nextBatchEligible_ok (c : Call) :
    StepOk s.chunkSize work c (nextBatchEligible s work c.remainingRows c.prefillMin c.eligible).2.1
      (nextBatchEligible s work c.remainingRows c.prefillMin c.eligible).2.2 := by
  obtain ⟨hsum, hcap⟩ := allocateRows_granted s work c.remainingRows c.prefillMin c.eligible
  unfold nextBatchEligible
  simp only
  generalize (allocateRows s work c.remainingRows c.prefillMin c.eligible).alloc = alloc at hsum hcap
  generalize anyPos3 _ work = extras
  have hdrain : Fits work alloc := fun i w hw =>
    Nat.le_trans (hcap i) (capAt_le_prompt s work c.prefillMin c.eligible i w hw)
  have hpack := buildBatch_packed extras work alloc hdrain
  have hslot := buildBatch_slot extras work alloc hdrain
  have hle := sum_mPerSlot_le extras work alloc hdrain
  refine ⟨?_, length_buildBatch extras work alloc, hpack, ?_, ?_, ?_, fun i w hw => ?_, fun i w hw ha => ?_, fun i w hw hd => ?_⟩
  · unfold SlotBatch.totalRows
    rw [← hpack.tokens]; omega
  · rw [← hpack.slots]; exact flatMap_segment _ _ hpack.tokens
  · rw [← hpack.slots]; exact flatMap_segment _ _ hpack.positions
  · rw [← hpack.slots]; exact flatMap_segment _ _ hpack.rowSlot
  · obtain ⟨h1, h2, h3, h4, h5⟩ := hslot i w hw
    rw [h2]
    exact ⟨_, h1, (takeRows_ok extras w _ (hdrain i w hw)).1, h3, h4, h5⟩
  · obtain ⟨h1, h2, -⟩ := hslot i w hw
    have h0 : alloc.getD i 0 = 0 := by
      have := hcap i
      rw [capAt_leftAlone s work c i w hw ha] at this
      omega
    rw [h0] at h1 h2
    exact ⟨h1, h2⟩
  · rw [(hslot i w hw).2.1]
    have := capAt_le_quota s work c.prefillMin c.eligible i w hw hd
    have := (quotaOf_le s c.prefillMin w).1
    have := hcap i
    omega

/-! ## A run -/

/-- One step of a run, with what it started from and what it left. -/
structure StepRecord where
  work : List PendingWork
  call : Call
  after : List PendingWork
  batch : SlotBatch

def batchStep (st : Scheduler × List PendingWork) (c : Call) : (Scheduler × List PendingWork) × StepRecord :=
  let r := nextBatchEligible st.1 st.2 c.remainingRows c.prefillMin c.eligible
  ((r.1, r.2.1), ⟨st.2, c, r.2.1, r.2.2⟩)

/-- Every step of a sequence of `next_batch_eligible` calls, and the scheduler and work it ends in. -/
def runBatches (s : Scheduler) (work : List PendingWork) (calls : List Call) :
    (Scheduler × List PendingWork) × List StepRecord :=
  runSteps batchStep (s, work) calls

theorem chunkSize_batchStep (st : Scheduler × List PendingWork) (c : Call) :
    (batchStep st c).1.1.chunkSize = st.1.chunkSize := by
  simp only [batchStep, nextBatchEligible]
  split <;> rfl

/-- **The rows of one slot over a run are a drained prefix of its prompt**: the step lemma, chained. -/
theorem runBatches_slot : ∀ (calls : List Call) (s : Scheduler) (work : List PendingWork) (i : Nat) (w : PendingWork),
    work[i]? = some w → ∃ n w', (runBatches s work calls).1.2[i]? = some w' ∧ Drained w w' n ∧
      (runBatches s work calls).2.flatMap (fun r => r.batch.slotTokens i) = w.remainingPrompt.take n ∧
      (runBatches s work calls).2.flatMap (fun r => r.batch.slotPositions i) = positionsFrom w.nextPos n
  | [], _, _, _, w, hw => ⟨0, w, hw, Drained.refl w, by simp [runBatches, runSteps], by
      simp [runBatches, runSteps, positionsFrom]⟩
  | c :: calls, s, work, i, w, hw => by
    have hok := nextBatchEligible_ok s work c
    generalize hr : nextBatchEligible s work c.remainingRows c.prefillMin c.eligible = r at hok
    obtain ⟨w₁, hw₁, hd₁, ht₁, hp₁, -⟩ := hok.slot i w hw
    obtain ⟨n, w', hw', hd', ht', hp'⟩ := runBatches_slot calls r.1 r.2.1 i w₁ hw₁
    have hrun : runBatches s work (c :: calls) =
        ((runBatches r.1 r.2.1 calls).1, ⟨work, c, r.2.1, r.2.2⟩ :: (runBatches r.1 r.2.1 calls).2) := by
      unfold runBatches
      rw [runSteps_cons]
      simp only [batchStep, hr]
    rw [hrun]
    refine ⟨r.2.2.rowsOf i + n, w', hw', hd₁.trans hd', ?_, ?_⟩
    · rw [flatMap_cons, ht₁, ht', hd₁.prompt, ← take_add]
    · rw [flatMap_cons, hp₁, hp', hd₁.pos, positionsFrom_append]

/-- **Step scheduling loses, duplicates and reorders no token.**  In every run of `next_batch_eligible` calls, with
arbitrary budgets, minimums and eligibility masks, every step keeps its promises (`StepOk`), and the rows each slot
emitted, concatenated in step order, are a prefix of the prompt it started with, at the consecutive positions from the
one it started at (the batch holds a position as an `i32`, which is the position itself below `2^31`). -/
theorem runBatches_emits_prompt_prefixes (s : Scheduler) (work : List PendingWork) (calls : List Call) :
    (∀ r ∈ (runBatches s work calls).2, StepOk s.chunkSize r.work r.call r.after r.batch) ∧ ∀ i w, work[i]? = some w →
      (runBatches s work calls).2.flatMap (fun r => r.batch.slotTokens i) <+: w.remainingPrompt ∧
      ∃ n w', (runBatches s work calls).1.2[i]? = some w' ∧ Drained w w' n ∧
        (runBatches s work calls).2.flatMap (fun r => r.batch.slotTokens i) = w.remainingPrompt.take n ∧
        (runBatches s work calls).2.flatMap (fun r => r.batch.slotPositions i) = positionsFrom w.nextPos n ∧
        (w.nextPos + n ≤ 2147483648 →
          (runBatches s work calls).2.flatMap (fun r => r.batch.slotPositions i) =
            (range' w.nextPos n).map Int.ofNat) := by
  constructor
  · refine runSteps_outputs batchStep (fun st => st.1.chunkSize = s.chunkSize)
      (fun r => StepOk s.chunkSize r.work r.call r.after r.batch) (fun st c h => ?_) (fun st c h => ?_) calls (s, work) rfl
    · rw [chunkSize_batchStep, h]
    · rw [← h]; exact nextBatchEligible_ok st.1 st.2 c
  · intro i w hw
    obtain ⟨n, w', hw', hd, ht, hp⟩ := runBatches_slot calls s work i w hw
    exact ⟨by rw [ht]; exact List.take_prefix n _, n, w', hw', hd, ht, hp, fun hn => by
      rw [hp, positionsFrom_of_le _ _ hn]⟩

end Hipfire.Sched
