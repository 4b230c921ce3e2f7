import Hipfire.Sched.Emit
import Hipfire.Sched.Planner
/-!
# TwoPhase — planning and publishing a step does what scheduling it at once does

On text-only work `planStep` builds the batch of `nextBatchEligible`, and publishing that plan moves the cursor and the work
as `nextBatchEligible` does.  The two row-building loops are compared slot by slot; the requests of a plan are described by
the slot each comes from, so that publishing can be followed one request at a time.
-/
namespace Hipfire.Sched

open BatchPlanner List

/-- Work without speculation and vision, every slot under an admitted epoch of its own, every decoding slot with its seed. -/
structure TextOnly (work : List PendingWork) (epochs : List RequestEpoch) : Prop where
  spec : ∀ w ∈ work, w.spec = .none
  vision : ∀ w ∈ work, w.vlPrefill = none
  seed : ∀ w ∈ work, w.decoding = true → w.remainingPrompt.length = 1
  aligned : epochs.length = work.length
  admitted : ∀ e ∈ epochs, e.isAdmitted = true
  distinct : epochs.Nodup

/-! ## Nothing but the scheduler's allocation -/

theorem verifyLoop_of_no_spec (p : BatchPlanner) (cap : Nat) : ∀ (work : List PendingWork) (admitted : List Bool) (used : Nat),
    (∀ w ∈ work, w.spec = .none) → p.verifyLoop cap work admitted used = .ok (replicate work.length 0, used)
  | [], _, _, _ => rfl
  | w :: ws, admitted, used, h => by
    have hw : w.spec.active = false := by rw [h w (by simp)]; rfl
    unfold verifyLoop
    rw [hw, if_pos (by simp), verifyLoop_of_no_spec p cap ws admitted.tail used (forall_mem_cons.1 h).2]
    rfl

variable {work : List PendingWork} {epochs : List RequestEpoch}

theorem sequentialVl_of_no_vision (p : BatchPlanner) (h : ∀ w ∈ work, w.vlPrefill = none)
    (admitted : List Bool) : p.sequentialVl work admitted = none := by
  unfold sequentialVl
  rw [Option.map_eq_none_iff, find?_eq_none]
  intro e he
  have hv := h e.1 (of_mem_zip he).1
  simp [hv]

theorem admittedMask_eq : ∀ (epochs : List RequestEpoch) (eligible : List Bool), eligible.length = epochs.length →
    (∀ e ∈ epochs, e.isAdmitted = true) → admittedMask epochs eligible = eligible
  | [], [], _, _ => rfl
  | [], _ :: _, h, _ => by simp at h
  | _ :: _, [], h, _ => by simp at h
  | e :: es, b :: bs, h, ha => by
    have ih := admittedMask_eq es bs (by simpa using h) (forall_mem_cons.1 ha).2
    unfold admittedMask at ih ⊢
    rw [zipWith_cons_cons, ih, ha e (by simp), Bool.and_true]

/-! ## The same rows -/

/-- The rows that a plan gives a text slot are those that draining it gives. -/
theorem planRows_eq (extras : Bool) (w : PendingWork) (hv : w.vlPrefill = none) (kind : RequestStepKind) :
    ∀ (n j v : Nat), j + n ≤ w.remainingPrompt.length →
      planRows extras w kind n j v =
        (rowLoop extras w.slot w.pos3Delta ((w.remainingPrompt.drop j).take n) (w.nextPos + j) none).1
  | 0, j, v, _ => by rw [take_zero]; rfl
  | n + 1, j, v, h => by
    have hj : j < w.remainingPrompt.length := by omega
    have hcons : (w.remainingPrompt.drop j).take (n + 1) =
        w.remainingPrompt.getD j 0 :: ((w.remainingPrompt.drop (j + 1)).take n) := by
      rw [drop_eq_getElem_cons hj, take_succ_cons, getD_eq_getElem?_getD, getElem?_eq_getElem hj]
      rfl
    have hmin : min j (w.remainingPrompt.length - 1) = j := by omega
    unfold planRows
    rw [hcons, hmin]
    unfold rowLoop
    cases extras with
    | true =>
      simp only [if_true]
      rw [planRows_eq true w hv kind n (j + 1) _ (by omega)]
      unfold planExtras rowExtras
      rw [hv]
      rfl
    | false =>
      rw [planRows_eq false w hv kind n (j + 1) _ (by omega)]
      rfl

theorem planSlot_batch (extras : Bool) (w : PendingWork) (hv : w.vlPrefill = none) (e : RequestEpoch) (alloc start : Nat)
    (h : alloc ≤ w.remainingPrompt.length) : (planSlot extras w e 0 alloc start).batch = (takeRows extras w alloc).2 := by
  unfold planSlot takeAndKind takeRows
  by_cases h0 : alloc = 0
  · subst h0; rfl
  · have hlen : (w.remainingPrompt.take alloc).length = alloc := by rw [length_take]; omega
    simp only [Nat.lt_irrefl, if_false, h0]
    rw [planRows_eq extras w hv _ alloc 0 _ (by omega), hlen, hv]
    rfl

theorem planLoop_batch (extras : Bool) : ∀ (work : List PendingWork) (epochs : List RequestEpoch) (alloc : List Nat) (start : Nat),
    (∀ w ∈ work, w.vlPrefill = none) → Fits work alloc →
      (planLoop extras work epochs (replicate work.length 0) alloc start).batch = (buildBatch extras work alloc).2
  | [], _, _, _, _, _ => rfl
  | w :: ws, epochs, alloc, start, hv, h => by
    have hslot := planSlot_batch extras w (hv w (by simp)) (epochs.headD ⟨0, 0⟩) (alloc.headD 0) start h.head
    have ih := planLoop_batch extras ws epochs.tail alloc.tail
      (start + (planSlot extras w (epochs.headD ⟨0, 0⟩) 0 (alloc.headD 0) start).batch.tokens.length)
      (forall_mem_cons.1 hv).2 h.tail
    unfold planLoop buildBatch
    rw [length_cons, replicate_succ]
    simp only [headD_cons, tail_cons, BatchStepPlan.append]
    rw [ih, hslot]

/-! ## The requests of a plan -/

theorem planLoop_epochs (extras : Bool) : ∀ (work : List PendingWork) (epochs : List RequestEpoch) (verify alloc : List Nat)
    (start : Nat), epochs.length = work.length →
    ((planLoop extras work epochs verify alloc start).requests.map RequestRows.epoch).Sublist epochs
  | [], _, _, _, _, _ => nil_sublist _
  | w :: ws, e :: es, verify, alloc, start, h => by
    have ih := planLoop_epochs extras ws es verify.tail alloc.tail
      (start + (planSlot extras w e (verify.headD 0) (alloc.headD 0) start).batch.tokens.length) (Nat.succ.inj h)
    have hslot : ((planSlot extras w e (verify.headD 0) (alloc.headD 0) start).requests.map RequestRows.epoch).Sublist [e] := by
      unfold planSlot
      dsimp only
      split
      · exact nil_sublist _
      · exact Sublist.refl _
    simp only [planLoop, BatchStepPlan.append, map_append]
    exact hslot.append ih

/-- A planned request comes from slot `i`. -/
structure FromSlot (work : List PendingWork) (epochs : List RequestEpoch) (alloc : List Nat) (rr : RequestRows) (i : Nat)
    (w : PendingWork) : Prop where
  work : work[i]? = some w
  epoch : epochs[i]? = some rr.epoch
  len : rr.rows.len = alloc.getD i 0
  pos : 0 < rr.rows.len
  kind : rr.kind = if w.decoding then .ar else .prefill

theorem planLoop_requests (extras : Bool) : ∀ (work : List PendingWork) (epochs : List RequestEpoch) (alloc : List Nat)
    (start : Nat), epochs.length = work.length →
      (∀ rr ∈ (planLoop extras work epochs (replicate work.length 0) alloc start).requests,
        ∃ i w, FromSlot work epochs alloc rr i w) ∧
      ∀ (i : Nat) (e : RequestEpoch), epochs[i]? = some e → 0 < alloc.getD i 0 →
        ∃ rr ∈ (planLoop extras work epochs (replicate work.length 0) alloc start).requests, rr.epoch = e
  | [], epochs, alloc, start, h => by
    have : epochs = [] := length_eq_zero_iff.1 h
    subst this
    exact ⟨nofun, fun i e he => (by simp at he)⟩
  | w :: ws, [], alloc, start, h => by simp at h
  | w :: ws, e :: es, alloc, start, h => by
    have hd : alloc.getD 0 0 = alloc.headD 0 := by cases alloc <;> rfl
    obtain ⟨ih1, ih2⟩ := planLoop_requests extras ws es alloc.tail
      (start + (planSlot extras w e 0 (alloc.headD 0) start).batch.tokens.length) (by simpa using h)
    have hreq : (planLoop extras (w :: ws) (e :: es) (replicate (w :: ws).length 0) alloc start).requests =
        (planSlot extras w e 0 (alloc.headD 0) start).requests ++
          (planLoop extras ws es (replicate ws.length 0) alloc.tail
            (start + (planSlot extras w e 0 (alloc.headD 0) start).batch.tokens.length)).requests := rfl
    -- the slot's own request, if it has rows
    have hown : (planSlot extras w e 0 (alloc.headD 0) start).requests =
        if alloc.headD 0 = 0 then [] else [⟨e, ⟨start, alloc.headD 0⟩, if w.decoding then .ar else .prefill⟩] := by
      unfold planSlot takeAndKind
      by_cases h0 : alloc.headD 0 = 0
      · simp only [Nat.lt_irrefl, if_false, h0, if_true]; rfl
      · simp only [Nat.lt_irrefl, if_false, h0]
    rw [hreq, hown]
    refine ⟨fun rr hrr => ?_, fun i e' he' ha => ?_⟩
    · rcases mem_append.1 hrr with hrr | hrr
      · by_cases h0 : alloc.headD 0 = 0
        · rw [if_pos h0] at hrr; cases hrr
        · rw [if_neg h0, mem_singleton] at hrr
          subst hrr
          exact ⟨0, w, rfl, rfl, hd.symm, Nat.pos_of_ne_zero h0, rfl⟩
      · obtain ⟨i, w', hi⟩ := ih1 rr hrr
        exact ⟨i + 1, w', hi.work, hi.epoch, by rw [hi.len, getD_tail], hi.pos, hi.kind⟩
    · cases i with
      | zero =>
        rw [getElem?_cons_zero, Option.some.injEq] at he'
        rw [hd] at ha
        rw [if_neg (Nat.pos_iff_ne_zero.1 ha)]
        exact ⟨_, mem_append_left _ (mem_singleton.2 rfl), he'⟩
      | succ i =>
        rw [← getD_tail] at ha
        obtain ⟨rr, hrr, hre⟩ := ih2 i e' he' ha
        exact ⟨rr, mem_append_right _ hrr, hre⟩

/-! ## Publishing -/

variable {e : RequestEpoch} {i : Nat}

theorem positionOf_eq (hd : epochs.Nodup) (h : epochs[i]? = some e) : positionOf epochs e = some i := by
  obtain ⟨hlt, hi⟩ := List.getElem?_eq_some_iff.1 h
  unfold positionOf
  rw [findIdx?_eq_some_iff_getElem]
  refine ⟨hlt, by simp [hi], fun j hj => ?_⟩
  have hne : epochs[j] ≠ e := fun he => by
    have := hd.getElem_inj_iff.1 (he.trans hi.symm)
    omega
  simpa using hne

theorem getElem?_of_positionOf (h : positionOf epochs e = some i) : epochs[i]? = some e := by
  obtain ⟨hlt, hi, -⟩ := findIdx?_eq_some_iff_getElem.1 h
  rw [getElem?_eq_getElem hlt]
  simpa using hi

/-- A request has a slot, and can be applied to it. -/
def Applies (work : List PendingWork) (epochs : List RequestEpoch) (advances : List RequestAdvance) (rr : RequestRows) : Prop :=
  ∃ (i : Nat) (w w' : PendingWork), positionOf epochs rr.epoch = some i ∧ work[i]? = some w ∧
    applyRequest w rr (advancesOf advances rr.epoch).head? = .ok w'

/-- **Applying the requests of a plan** changes each of their slots by its own request, and no other slot. -/
theorem applyRequests_ok (epochs : List RequestEpoch) (advances : List RequestAdvance) :
    ∀ (rrs : List RequestRows) (work : List PendingWork), (rrs.map RequestRows.epoch).Nodup →
      (∀ rr ∈ rrs, Applies work epochs advances rr) → ∃ work', applyRequests epochs advances rrs work = (work', .ok ()) ∧
        work'.length = work.length ∧ ∀ (i : Nat) (w : PendingWork), work[i]? = some w →
          (∀ rr ∈ rrs, positionOf epochs rr.epoch = some i →
            ∃ w', applyRequest w rr (advancesOf advances rr.epoch).head? = .ok w' ∧ work'[i]? = some w') ∧
          ((∀ rr ∈ rrs, positionOf epochs rr.epoch ≠ some i) → work'[i]? = some w)
  | [], work, _, _ => ⟨work, rfl, rfl, fun i w hw => ⟨nofun, fun _ => hw⟩⟩
  | rr :: rrs, work, hnd, h => by
    rw [map_cons, nodup_cons] at hnd
    obtain ⟨i, w, w', hi, hw, ha⟩ := h rr (by simp)
    have hlt : i < work.length := lt_of_getElem? hw
    have hset : ∀ j, (work.set i w')[j]? = if i = j then some w' else work[j]? := by
      simp [getElem?_set, hlt]
    -- the other requests have other slots
    have hother : ∀ rr' ∈ rrs, ∀ j, positionOf epochs rr'.epoch = some j → i ≠ j := by
      rintro rr' hrr' j hj rfl
      have hsame := (getElem?_of_positionOf hi).symm.trans (getElem?_of_positionOf hj)
      exact hnd.1 (Option.some.inj hsame ▸ mem_map_of_mem hrr')
    obtain ⟨work', happ, hlen, hslots⟩ := applyRequests_ok epochs advances rrs (work.set i w') hnd.2 (fun rr' hrr' => by
      obtain ⟨j, v, v', hj, hv, ha'⟩ := h rr' (by simp [hrr'])
      exact ⟨j, v, v', hj, by rw [hset, if_neg (hother rr' hrr' j hj)]; exact hv, ha'⟩)
    refine ⟨work', ?_, by rw [hlen, length_set], fun j v hv => ⟨fun rr' hrr' hj => ?_, fun hnone => ?_⟩⟩
    · unfold applyRequests
      rw [hi]
      dsimp only
      rw [hw]
      dsimp only
      rw [ha]
      exact happ
    · rcases mem_cons.1 hrr' with rfl | hrr'
      · cases hi.symm.trans hj
        cases hw.symm.trans hv
        exact ⟨w', ha, (hslots i w' (by rw [hset, if_pos rfl])).2 fun rr' hrr' hj' => hother rr' hrr' i hj' rfl⟩
      · have hij : i ≠ j := hother rr' hrr' j hj
        exact (hslots j v (by rw [hset, if_neg hij]; exact hv)).1 rr' hrr' hj
    · have hij : i ≠ j := by
        rintro rfl
        exact hnone rr (by simp) hi
      exact (hslots j v (by rw [hset, if_neg hij]; exact hv)).2 (forall_mem_cons.1 hnone).2

variable {advances : List RequestAdvance}

theorem checkRequests_iff : ∀ {rrs : List RequestRows}, checkRequests work epochs advances rrs = .ok () ↔
    ∀ rr ∈ rrs, checkRequest work epochs advances rr = .ok ()
  | [] => ⟨nofun, fun _ => rfl⟩
  | rr :: rrs => by
    rw [forall_mem_cons, ← checkRequests_iff, checkRequests]
    split
    · rename_i hfirst
      exact ⟨nofun, fun h => by rw [h.1] at hfirst; cases hfirst⟩
    · rename_i hfirst
      exact ⟨fun h => ⟨hfirst, h⟩, And.right⟩

theorem checkRequest_applies {rr : RequestRows} (hlen : epochs.length = work.length)
    (h : checkRequest work epochs advances rr = .ok ()) : Applies work epochs advances rr := by
  unfold checkRequest at h
  split at h
  · cases h
  split at h
  · cases h
  rename_i i hi
  have hlt : i < work.length := hlen ▸ lt_of_getElem? (getElem?_of_positionOf hi)
  have hw : work[i]? = some work[i] := getElem?_eq_getElem hlt
  refine ⟨i, work[i], ?_⟩
  -- a request that is no prefill has its advance
  have hadvance : ∀ {e : String}, (if (advancesOf advances rr.epoch).length ≠ 1 then .error e else Except.ok ()) = .ok () →
      ∃ a, (advancesOf advances rr.epoch).head? = some a := fun {e} hone => by
    split at hone
    · cases hone
    · rename_i hlen1
      obtain ⟨a, ha⟩ := length_eq_one_iff.1 (Decidable.not_not.1 hlen1)
      exact ⟨a, by rw [ha]; rfl⟩
  unfold applyRequest
  cases hk : rr.kind with
  | prefill =>
    rw [hk] at h
    dsimp only at h ⊢
    have hprompt : promptLenAt work i = work[i].remainingPrompt.length := by
      unfold promptLenAt
      rw [hw]
    by_cases hshort : promptLenAt work i < rr.rows.len
    · rw [if_pos (.inl hshort)] at h
      cases h
    · rw [if_neg (hprompt ▸ hshort)]
      cases (advancesOf advances rr.epoch).head? with
      | none | some a => exact ⟨_, hi, hw, rfl⟩
  | ar | verify _ | forced =>
    rw [hk] at h
    obtain ⟨a, ha⟩ := hadvance h
    rw [ha]
    exact ⟨_, hi, hw, rfl⟩

/-- Each request is committed once, to a slot of its own, and the other slots are as before. -/
structure Committed (work : List PendingWork) (epochs : List RequestEpoch) (rrs : List RequestRows)
    (advances : List RequestAdvance) (work' : List PendingWork) : Prop where
  length : work'.length = work.length
  each : ∀ rr ∈ rrs, ∃ (i : Nat) (w w' : PendingWork), positionOf epochs rr.epoch = some i ∧ work[i]? = some w ∧
    applyRequest w rr (advancesOf advances rr.epoch).head? = .ok w' ∧ work'[i]? = some w'
  apart : rrs.Pairwise fun a b => positionOf epochs a.epoch ≠ positionOf epochs b.epoch
  others : ∀ i, (∀ rr ∈ rrs, positionOf epochs rr.epoch ≠ some i) → work'[i]? = work[i]?

variable {rrs : List RequestRows}

/-- Requests of distinct epochs are at distinct places. -/
theorem pairwise_positionOf (hd : (rrs.map RequestRows.epoch).Nodup)
    (hfound : ∀ rr ∈ rrs, ∃ i, positionOf epochs rr.epoch = some i) :
    rrs.Pairwise fun a b => positionOf epochs a.epoch ≠ positionOf epochs b.epoch := by
  refine (pairwise_map.1 hd).imp_of_mem fun {a b} ha _ hne hsame => ?_
  obtain ⟨i, hi⟩ := hfound a ha
  have hb := getElem?_of_positionOf (hsame ▸ hi)
  exact hne (Option.some.inj ((getElem?_of_positionOf hi).symm.trans hb))

/-- **Requests that pass their checks are all committed.** -/
theorem applyRequests_committed (hlen : epochs.length = work.length)
    (hd : (rrs.map RequestRows.epoch).Nodup) (hcheck : ∀ rr ∈ rrs, checkRequest work epochs advances rr = .ok ()) :
    ∃ work', applyRequests epochs advances rrs work = (work', .ok ()) ∧ Committed work epochs rrs advances work' := by
  have happly := fun rr hrr => checkRequest_applies hlen (hcheck rr hrr)
  obtain ⟨work', hrun, hlength, hslots⟩ := applyRequests_ok epochs advances rrs work hd happly
  refine ⟨work', hrun, hlength, fun rr hrr => ?_, pairwise_positionOf hd fun rr hrr => ?_, fun i hi => ?_⟩
  · obtain ⟨i, w, -, hpos, hw, -⟩ := happly rr hrr
    obtain ⟨w', happ, hget⟩ := (hslots i w hw).1 rr hrr hpos
    exact ⟨i, w, w', hpos, hw, happ, hget⟩
  · obtain ⟨i, -, -, hpos, -⟩ := happly rr hrr
    exact ⟨i, hpos⟩
  · cases hw : work[i]? with
    | some w => exact (hslots i w hw).2 hi
    | none =>
      rw [getElem?_eq_none_iff] at hw ⊢
      rw [hlength]
      exact hw

/-- **One advance for each decode row, one position on; none for anything else.** -/
structure OneEach (work : List PendingWork) (epochs : List RequestEpoch) (plan : BatchStepPlan) (advances : List RequestAdvance) :
    Prop where
  planned : ∀ a ∈ advances, ∃ rr ∈ plan.requests, rr.epoch = a.epoch
  decode : ∀ rr ∈ plan.requests, rr.kind = .ar → (advancesOf advances rr.epoch).length = 1
  prefill : ∀ rr ∈ plan.requests, rr.kind ≠ .ar → advancesOf advances rr.epoch = []
  position : ∀ a ∈ advances, ∀ (i : Nat) (w : PendingWork), epochs[i]? = some a.epoch → work[i]? = some w →
    a.committedPosition = w.nextPos + 1

variable {plan : BatchStepPlan} {alloc : List Nat}

theorem applyRequest_ok
    (ht : TextOnly work epochs) (hone : OneEach work epochs plan advances) (halloc : Fits work alloc)
    {rr : RequestRows} (hrr : rr ∈ plan.requests) {w : PendingWork} (hi : FromSlot work epochs alloc rr i w) :
    checkRequest work epochs advances rr = .ok () ∧
      ∃ w', applyRequest w rr (advancesOf advances rr.epoch).head? = .ok w' ∧ w'.nextPos = w.nextPos + alloc.getD i 0 ∧
        (w.decoding = false → w'.remainingPrompt = w.remainingPrompt.drop (alloc.getD i 0)) := by
  have hle := halloc i w hi.work
  have hpos := positionOf_eq ht.distinct hi.epoch
  have hadm : rr.epoch.isAdmitted = true := ht.admitted _ (mem_of_getElem? hi.epoch)
  have hkind := hi.kind
  cases hdec : w.decoding with
  | true =>
    rw [hdec, if_pos rfl] at hkind
    have hadv := hone.decode rr hrr hkind
    obtain ⟨a, ha⟩ : ∃ a, advancesOf advances rr.epoch = [a] := length_eq_one_iff.1 hadv
    have hmem : a ∈ advances ∧ a.epoch = rr.epoch := by
      have : a ∈ advancesOf advances rr.epoch := by rw [ha]; simp
      simpa [advancesOf] using this
    -- a decoding slot holds one seed, so it has one row
    have hlen : alloc.getD i 0 = 1 := by
      have h1 := ht.seed w (mem_of_getElem? hi.work) hdec
      have h2 := hi.pos
      rw [hi.len] at h2
      omega
    constructor
    · unfold checkRequest
      rw [hadm, hpos, hkind, ha]
      rfl
    · unfold applyRequest
      rw [hkind, ha, hlen]
      refine ⟨_, rfl, ?_, fun h => by cases h⟩
      exact hone.position a hmem.1 i w (by rw [hmem.2]; exact hi.epoch) hi.work
  | false =>
    rw [hdec, if_neg (by simp)] at hkind
    have hadv := hone.prefill rr hrr (by rw [hkind]; exact RequestStepKind.noConfusion)
    have hfit : ¬ w.remainingPrompt.length < rr.rows.len := by rw [hi.len]; omega
    constructor
    · have hleft : promptLenAt work i = w.remainingPrompt.length := by unfold promptLenAt; rw [hi.work]
      unfold checkRequest
      rw [hadm, hpos, hkind, hadv]
      dsimp only
      rw [if_neg (by simp), hleft, if_neg]
      · rfl
      · rw [not_or]
        exact ⟨hfit, by simp⟩
    · unfold applyRequest
      rw [hkind, hadv, if_neg hfit]
      exact ⟨_, rfl, by rw [hi.len], fun _ => by rw [hi.len]⟩

/-- The planner after publishing: the provisional cursor has become the scheduler's. -/
def published (p : BatchPlanner) (cursor : Option Nat) : BatchPlanner :=
  { p with
    scheduler := match cursor with
      | none => p.scheduler
      | some c => { p.scheduler with prefillCursor := c }
    pendingCursor := none }

theorem publish_ok {p : BatchPlanner} (ht : TextOnly work epochs)
    (halloc : Fits work alloc) (hfrom : ∀ rr ∈ plan.requests, ∃ i w, FromSlot work epochs alloc rr i w)
    (hall : ∀ (i : Nat) (e : RequestEpoch), epochs[i]? = some e → 0 < alloc.getD i 0 → ∃ rr ∈ plan.requests, rr.epoch = e)
    (hsub : (plan.requests.map RequestRows.epoch).Sublist epochs) (hone : OneEach work epochs plan advances) :
    ∃ work', p.publish work epochs plan advances = (published p p.pendingCursor, work', .ok ()) ∧
      work'.length = work.length ∧ ∀ (i : Nat) (w : PendingWork), work[i]? = some w → ∃ w', work'[i]? = some w' ∧
        w'.nextPos = w.nextPos + alloc.getD i 0 ∧
        (w.decoding = false → w'.remainingPrompt = w.remainingPrompt.drop (alloc.getD i 0)) := by
  have hcheck : ∀ rr ∈ plan.requests, checkRequest work epochs advances rr = .ok () := fun rr hrr => by
    obtain ⟨i, w, hi⟩ := hfrom rr hrr
    exact (applyRequest_ok ht hone halloc hrr hi).1
  obtain ⟨work', hrun, hcommit⟩ := applyRequests_committed ht.aligned (ht.distinct.sublist hsub) hcheck
  have hplanned : advances.find? (fun a => !plan.requests.any (fun r => r.epoch == a.epoch)) = none := by
    rw [find?_eq_none]
    intro a ha
    obtain ⟨rr, hrr, hre⟩ := hone.planned a ha
    have : plan.requests.any (fun r => r.epoch == a.epoch) = true := any_eq_true.2 ⟨rr, hrr, by simpa using hre⟩
    simp [this]
  refine ⟨work', ?_, hcommit.length, fun i w hw => ?_⟩
  · unfold publish
    rw [if_neg (by rw [ht.aligned]; simp), checkRequests_iff.2 hcheck]
    rw [hplanned, hrun]
    rfl
  · have hlt : i < epochs.length := by rw [ht.aligned]; exact lt_of_getElem? hw
    have he : epochs[i]? = some epochs[i] := getElem?_eq_getElem hlt
    rcases Nat.eq_zero_or_pos (alloc.getD i 0) with h0 | hpos
    · -- no request for the slot: it would have rows
      have hnone : ∀ rr ∈ plan.requests, positionOf epochs rr.epoch ≠ some i := by
        intro rr hrr hpos
        obtain ⟨j, v, hj⟩ := hfrom rr hrr
        cases hpos.symm.trans (positionOf_eq ht.distinct hj.epoch)
        have h1 := hj.pos
        rw [hj.len] at h1
        omega
      exact ⟨w, (hcommit.others i hnone).trans hw, by rw [h0]; rfl, fun _ => by rw [h0]; rfl⟩
    · obtain ⟨rr, hrr, hre⟩ := hall i _ he hpos
      have hplace := positionOf_eq ht.distinct he
      rw [← hre] at hplace
      obtain ⟨j, v, w', hpos, hv, hw', hget⟩ := hcommit.each rr hrr
      cases hplace.symm.trans hpos
      cases hw.symm.trans hv
      obtain ⟨j, v, hj⟩ := hfrom rr hrr
      cases hplace.symm.trans (positionOf_eq ht.distinct hj.epoch)
      cases hw.symm.trans hj.work
      obtain ⟨-, w'', hw'', hnext, hprompt⟩ := applyRequest_ok ht hone halloc hrr hj
      cases hw'.symm.trans hw''
      exact ⟨w', hget, hnext, hprompt⟩

/-! ## The two phases together -/

/-- **Two-phase planning refines direct scheduling.**  On text-only work, for every mask, budget and prefill minimum,
`plan_step` gives the batch of `next_batch_eligible`; publishing the plan with one advance for each decode row leaves the
scheduler, every slot's position and every prefilling slot's prompt as `next_batch_eligible` does; discarding it leaves the
planner as it was, but for the provisional cursor. -/
theorem plan_then_publish_refines (p : BatchPlanner) (work : List PendingWork) (epochs : List RequestEpoch)
    (eligible : List Bool) (rowBudget prefillMin : Nat) (ht : TextOnly work epochs) (hmask : eligible.length = work.length)
    (hforced : p.forcedPrefillLen = []) :
    ∃ p' plan, p.planStep work epochs eligible rowBudget prefillMin = (p', .ok plan) ∧
      plan.batch = (nextBatchEligible p.scheduler work rowBudget prefillMin eligible).2.2 ∧
      (∀ advances, OneEach work epochs plan advances → ∃ p'' work', p'.publish work epochs plan advances = (p'', work', .ok ()) ∧
        p''.scheduler = (nextBatchEligible p.scheduler work rowBudget prefillMin eligible).1 ∧
        work'.length = work.length ∧ ∀ (i : Nat) (w v w' : PendingWork), work[i]? = some w →
          (nextBatchEligible p.scheduler work rowBudget prefillMin eligible).2.1[i]? = some v → work'[i]? = some w' →
            w'.nextPos = v.nextPos ∧ (w.decoding = false → w'.remainingPrompt = v.remainingPrompt)) ∧
      p'.discard = { p with pendingCursor := none } := by
  obtain ⟨-, hcap⟩ := allocateRows_granted p.scheduler work rowBudget prefillMin eligible
  let grants := allocateRows p.scheduler work rowBudget prefillMin eligible
  have halloc : Fits work grants.alloc := fun i w hw =>
    Nat.le_trans (hcap i) (capAt_le_prompt p.scheduler work prefillMin eligible i w hw)
  have hplan : p.planStep work epochs eligible rowBudget prefillMin =
      ({ p with pendingCursor := grants.nextPrefillCursor },
        .ok (planLoop (anyPos3 p.scheduler work) work epochs (replicate work.length 0) grants.alloc 0)) := by
    unfold planStep
    rw [if_neg (by rw [ht.aligned, hmask]; simp), admittedMask_eq epochs eligible (by rw [hmask, ht.aligned]) ht.admitted]
    dsimp only
    rw [sequentialVl_of_no_vision p ht.vision, verifyLoop_of_no_spec p _ work eligible 0 ht.spec]
    dsimp only
    unfold forcePrefill
    rw [if_pos hforced, Nat.sub_zero]
  have hbatch := planLoop_batch (anyPos3 p.scheduler work) work epochs grants.alloc 0 ht.vision halloc
  obtain ⟨hfrom, hall⟩ := planLoop_requests (anyPos3 p.scheduler work) work epochs grants.alloc 0 ht.aligned
  have hsub := planLoop_epochs (anyPos3 p.scheduler work) work epochs (replicate work.length 0) grants.alloc 0 ht.aligned
  have hnext : nextBatchEligible p.scheduler work rowBudget prefillMin eligible =
      ((published p grants.nextPrefillCursor).scheduler, buildBatch (anyPos3 p.scheduler work) work grants.alloc) := by
    unfold nextBatchEligible published
    dsimp only
    cases grants.nextPrefillCursor <;> rfl
  rw [hnext]
  refine ⟨_, _, hplan, hbatch, fun advances hone => ?_, rfl⟩
  obtain ⟨work', hpub, hlen, hslots⟩ := publish_ok (p := { p with pendingCursor := grants.nextPrefillCursor })
    ht halloc hfrom hall hsub hone
  refine ⟨_, work', hpub, rfl, hlen, fun i w v w' hw hv hw' => ?_⟩
  obtain ⟨w'', hget, hnextPos, hprompt⟩ := hslots i w hw
  cases hw'.symm.trans hget
  have hv' := (buildBatch_slot (anyPos3 p.scheduler work) work _ halloc i w hw).1
  rw [hv', Option.some.injEq] at hv
  have hdrained := (takeRows_ok (anyPos3 p.scheduler work) w _ (halloc i w hw)).1
  rw [hv] at hdrained
  exact ⟨by rw [hnextPos, hdrained.pos], fun hd => by rw [hprompt hd, hdrained.prompt]⟩

/-- A slot that decodes, one that prefills, and one that is not eligible. -/
def mixedWork : List PendingWork :=
  [⟨0, [7], 130, true, none, .none, 0⟩, ⟨1, [1, 2, 3, 4, 5], 0, false, none, .none, 0⟩, ⟨2, [9, 9], 3, false, none, .none, 0⟩]

def mixedEpochs : List RequestEpoch := [⟨10, 1⟩, ⟨11, 4⟩, ⟨12, 1⟩]

def mixedPlanner : BatchPlanner := ⟨⟨3, false, 0⟩, 2, 4, [], some 7⟩

def mixedAdvances : List RequestAdvance := [⟨⟨10, 1⟩, [42], 131, 0, 0, none⟩]

def mixedPlan : BatchStepPlan :=
  ⟨⟨[1, 3, 0], [7, 1, 2, 3], [130, 0, 1, 2], [0, 1, 1, 1], [], []⟩,
    [⟨⟨10, 1⟩, ⟨0, 1⟩, .ar⟩, ⟨⟨11, 4⟩, ⟨1, 3⟩, .prefill⟩], 1, 3, 0, 0⟩

theorem mixedWork_textOnly : TextOnly mixedWork mixedEpochs :=
  ⟨by decide, by decide, by decide, by decide, by decide, by decide⟩

theorem mixedAdvances_oneEach : OneEach mixedWork mixedEpochs mixedPlan mixedAdvances := by
  refine ⟨by decide, by decide, by decide, fun a ha i w hi hw => ?_⟩
  rw [mixedAdvances, mem_singleton] at ha
  subst ha
  match i, hi, hw with
  | 0, _, hw =>
    simp only [mixedWork, getElem?_cons_zero, Option.some.injEq] at hw
    rw [← hw]
  | 1, hi, _ | 2, hi, _ => exact absurd hi (by decide)
  | _ + 3, hi, _ => exact absurd hi (by simp [mixedEpochs])

theorem plan_then_publish_refines_mixed :
    mixedPlan.batch = (nextBatchEligible mixedPlanner.scheduler mixedWork 4 2 [true, true, false]).2.2 ∧
      ∃ p'' work', ({ mixedPlanner with pendingCursor := some 0 } : BatchPlanner).publish mixedWork mixedEpochs mixedPlan
        mixedAdvances = (p'', work', .ok ()) ∧
        p''.scheduler = (nextBatchEligible mixedPlanner.scheduler mixedWork 4 2 [true, true, false]).1 := by
  obtain ⟨p', plan, hplan, hbatch, hpub, -⟩ := plan_then_publish_refines mixedPlanner mixedWork mixedEpochs
    [true, true, false] 4 2 mixedWork_textOnly (by decide) (by decide)
  obtain ⟨rfl, hok⟩ := Prod.mk.inj hplan
  cases hok
  obtain ⟨p'', work', h1, h2, -⟩ := hpub mixedAdvances mixedAdvances_oneEach
  exact ⟨hbatch, p'', work', h1, h2⟩

end Hipfire.Sched
