import Hipfire.Fair.Queue
import Hipfire.Base.Run
/-!
# Sound — what the four phases may grant

Each phase grants to a request that no earlier grant named, so the requests of a round are the queue's own with the grants
taken off (`Sound.requests`), and a request that is not served yet stands in the round as in the queue (`Sound.placed`).
`Sound.grant` is the one rule every phase uses.
-/
namespace Hipfire.Fair

open List

/-! ## The order and its scans -/

/-- The fairness order as a key: the smaller is served first. -/
def FairRequest.key (r : FairRequest) : Bool ×ₗ Nat ×ₗ Nat :=
  toLex (!r.aged, toLex (r.admissionTick, r.uncachedPrefillTokens))

variable {r : FairRequest} {g : Grant} {gs : List Grant} (a b : FairRequest)

theorem fairnessCmp_key : fairnessCmp a b = compare a.key b.key := by
  show _ = (compare (!a.aged) (!b.aged)).then
    ((compare a.admissionTick b.admissionTick).then (compare a.uncachedPrefillTokens b.uncachedPrefillTokens))
  unfold fairnessCmp
  cases a.aged <;> cases b.aged <;> cases compare a.admissionTick b.admissionTick <;> rfl

theorem fairnessCmp_lt : fairnessCmp a b = .lt ↔ a.key < b.key := by
  rw [fairnessCmp_key, compare_lt_iff_lt]

theorem fairnessCmp_eq : fairnessCmp a b = .eq ↔ a.key = b.key := by
  rw [fairnessCmp_key, compare_eq_iff_eq]

/-- What a scan has found among the entries it has seen: the first of the best ones it keeps. -/
def IsBest (keep : Placed → Bool) (seen : List Placed) : Option Placed → Prop
  | none => ∀ x ∈ seen, ¬ keep x
  | some b => keep b ∧ ∃ front back, seen = front ++ b :: back ∧
      (∀ x ∈ front, keep x → b.1.key < x.1.key) ∧ ∀ x ∈ back, keep x → b.1.key ≤ x.1.key

variable {keep : Placed → Bool}

theorem IsBest.better {seen : List Placed} {best : Option Placed} (h : IsBest keep seen best)
    (x : Placed) : IsBest keep (seen ++ [x]) (better keep best x) := by
  unfold Fair.better
  by_cases hk : keep x
  · rw [if_pos hk]
    cases best with
    | none => exact ⟨hk, seen, [], rfl, fun y hy hky => absurd hky (h y hy), nofun⟩
    | some b =>
      obtain ⟨hb, front, back, rfl, hfront, hback⟩ := h
      dsimp only
      by_cases hlt : fairnessCmp x.1 b.1 = .lt
      · rw [if_pos hlt]
        rw [fairnessCmp_lt] at hlt
        exact ⟨hk, _, [], rfl, forall_mem_append.2 ⟨fun y hy hky => hlt.trans (hfront y hy hky),
          forall_mem_cons.2 ⟨fun _ => hlt, fun y hy hky => lt_of_lt_of_le hlt (hback y hy hky)⟩⟩, nofun⟩
      · rw [if_neg hlt]
        rw [fairnessCmp_lt, not_lt] at hlt
        exact ⟨hb, front, back ++ [x], by simp, hfront, forall_mem_append.2 ⟨hback, forall_mem_singleton.2 fun _ => hlt⟩⟩
  · rw [if_neg hk]
    cases best with
    | none => exact forall_mem_append.2 ⟨h, forall_mem_singleton.2 hk⟩
    | some b =>
      obtain ⟨hb, front, back, rfl, hfront, hback⟩ := h
      exact ⟨hb, front, back ++ [x], by simp, hfront, forall_mem_append.2 ⟨hback, forall_mem_singleton.2 fun hky =>
        absurd hky hk⟩⟩

/-- **A scan answers the first of the best entries it keeps.** -/
theorem bestOf_isBest (keep : Placed → Bool) (xs : List Placed) : IsBest keep xs (bestOf keep xs) := by
  have hloop : ∀ (xs seen : List Placed) (best : Option Placed), IsBest keep seen best →
      IsBest keep (seen ++ xs) (xs.foldl (better keep) best) := by
    intro xs
    induction xs with
    | nil => exact fun seen best h => (append_nil seen).symm ▸ h
    | cons x xs ih =>
      intro seen best h
      rw [append_cons]
      exact ih _ _ (h.better x)
  exact hloop xs [] none nofun

theorem bestOf_mem {xs : List Placed} {b : Placed} (h : bestOf keep xs = some b) : b ∈ xs ∧ keep b := by
  have hbest := bestOf_isBest keep xs
  rw [h] at hbest
  obtain ⟨hb, front, back, rfl, -⟩ := hbest
  exact ⟨by simp, hb⟩

/-! ## A round against the queue it started from -/

/-- A request as the grants leave it. -/
def FairRequest.after (tick : Nat) (gs : List Grant) (r : FairRequest) : FairRequest :=
  { r with
    uncachedPrefillTokens := r.uncachedPrefillTokens - (gs.map (Grant.prefillRows r.id)).sum
    lastServedTick := if r.id ∈ gs.map Grant.id then some tick else r.lastServedTick }

theorem prefillRows_of_ne {i : Nat} (h : g.id ≠ i) : g.prefillRows i = 0 := by
  cases g <;> first | rfl | exact if_neg h

theorem sum_prefillRows_of_no {i : Nat} (h : ∀ n, Grant.prefill i n ∉ gs) : (gs.map (Grant.prefillRows i)).sum = 0 := by
  rw [List.sum_eq_zero_iff_forall_eq_nat]
  intro n hn
  obtain ⟨g, hg, rfl⟩ := mem_map.1 hn
  cases g with
  | prefill j m =>
    refine if_neg fun he => ?_
    subst he
    exact h m hg
  | decode _ | verify _ _ | forced _ _ => rfl

theorem sum_prefillRows_of_not_mem {i : Nat} (h : i ∉ gs.map Grant.id) : (gs.map (Grant.prefillRows i)).sum = 0 :=
  sum_prefillRows_of_no fun _ hg => h (mem_map.2 ⟨_, hg, rfl⟩)

theorem FairRequest.after_of_not_mem {tick : Nat} (h : r.id ∉ gs.map Grant.id) : r.after tick gs = r := by
  unfold after
  rw [sum_prefillRows_of_not_mem h, if_neg h, Nat.sub_zero]

/-- What a request must be like to be given the grant. -/
def Earned (minTokens : Nat) (r : FairRequest) : Grant → Prop
  | .decode _ => r.wantsDecode ∧ r.verifyRows = 0
  | .prefill _ n => n ≤ r.uncachedPrefillTokens ∧ (minTokens ≤ n ∨ n = r.uncachedPrefillTokens) ∧
      0 < r.uncachedPrefillTokens
  | .verify _ n => n = r.verifyRows ∧ 0 < n
  | .forced _ n => n = r.forcedRows ∧ 0 < n

/-- A round that has only given what it may, to requests that had nothing yet. -/
structure Sound (q : FairQueue) (lanes remaining : Nat) (t : Round) : Prop where
  used : t.used = (t.grants.map Grant.rows).sum
  fits : t.used ≤ remaining
  served : t.servedIds = t.grants.map Grant.id
  once : t.servedIds.Nodup
  lanes : t.grants.countP Grant.isDecode ≤ lanes
  earned : ∀ g ∈ t.grants, ∃ r ∈ q.requests, r.id = g.id ∧ Earned q.prefillMinTokens r g
  requests : t.requests = q.requests.map (FairRequest.after q.tick t.grants)

/-- No two requests of the queue have one id. -/
def Distinct (q : FairQueue) : Prop := (q.requests.map FairRequest.id).Nodup

section Rounds

variable {q : FairQueue} {lanes remaining : Nat} {t : Round}

/-- **A request without a grant stands in the round as in the queue.** -/
theorem Sound.placed (h : Sound q lanes remaining t) {x : Placed} (hx : x ∈ t.requests.zipIdx)
    (hnew : x.1.id ∉ t.servedIds) : q.requests[x.2]? = some x.1 := by
  rw [mem_zipIdx_iff_getElem?, h.requests, getElem?_map] at hx
  obtain ⟨r, hr, hrx⟩ := Option.map_eq_some_iff.1 hx
  rw [h.served, ← hrx] at hnew
  rw [hr, ← hrx, FairRequest.after_of_not_mem (r := r) hnew]

theorem Sound.stamp (h : Sound q lanes remaining t) (hq : Distinct q) {idx : Nat}
    (hr : q.requests[idx]? = some r) (hnew : r.id ∉ t.servedIds) (hg : g.id = r.id) (f : FairRequest → FairRequest)
    (hf : f r = { r with uncachedPrefillTokens := r.uncachedPrefillTokens - g.prefillRows r.id }) :
    t.stamp q.tick idx f = q.requests.map (FairRequest.after q.tick (t.grants ++ [g])) := by
  apply ext_getElem?
  intro j
  unfold Round.stamp
  rw [getElem?_modify, h.requests, getElem?_map, getElem?_map]
  cases hj : q.requests[j]? with
  | none => rfl
  | some s =>
    show some (if idx = j then _ else _) = some _
    by_cases hij : idx = j
    · subst hij
      rw [hr, Option.some.injEq] at hj
      subst hj
      rw [h.served] at hnew
      rw [if_pos rfl, FairRequest.after_of_not_mem hnew, hf]
      unfold FairRequest.after FairRequest.stamped
      rw [map_append, sum_append, sum_prefillRows_of_not_mem hnew, if_pos (by simp [hg])]
      simp
    · rw [if_neg hij]
      have hne : g.id ≠ s.id := by
        intro he
        have hlen : idx < (q.requests.map FairRequest.id).length := by
          rw [length_map]
          exact (List.getElem?_eq_some_iff.1 hr).1
        refine hij ((getElem?_inj hlen hq).1 ?_)
        rw [getElem?_map, getElem?_map, hr, hj]
        exact congrArg some (hg.symm.trans he)
      unfold FairRequest.after
      simp [prefillRows_of_ne hne, Ne.symm hne]

/-- **The rule of every phase**: an earned grant that fits, for a request that had none. -/
theorem Sound.grant (h : Sound q lanes remaining t) (hq : Distinct q) {idx : Nat} (cursor : Nat)
    (hr : q.requests[idx]? = some r) (hnew : r.id ∉ t.servedIds) (hg : g.id = r.id)
    (he : Earned q.prefillMinTokens r g) (hfit : t.used + g.rows ≤ remaining)
    (hlane : (t.grants ++ [g]).countP Grant.isDecode ≤ lanes) (f : FairRequest → FairRequest)
    (hf : f r = { r with uncachedPrefillTokens := r.uncachedPrefillTokens - g.prefillRows r.id }) :
    Sound q lanes remaining
      ⟨t.stamp q.tick idx f, cursor, t.grants ++ [g], t.used + g.rows, t.servedIds ++ [r.id]⟩ where
  used := by
    show t.used + g.rows = _
    rw [map_append, sum_append, ← h.used]
    simp
  fits := hfit
  served := by
    show t.servedIds ++ [r.id] = _
    rw [map_append, ← h.served, ← hg]
    rfl
  once := nodup_append.2 ⟨h.once, nodup_singleton _, fun a ha b hb hab => hnew
    (mem_singleton.1 hb ▸ hab ▸ ha)⟩
  lanes := hlane
  earned := forall_mem_append.2 ⟨h.earned, forall_mem_singleton.2 ⟨r, mem_of_getElem? hr, hg.symm, he⟩⟩
  requests := h.stamp hq hr hnew hg f hf

/-! ## The phases -/

theorem Sound.decodeLoop (hq : Distinct q) : ∀ (k : Nat) {t : Round}, Sound q lanes remaining t →
    t.grants.countP Grant.isDecode + k ≤ lanes → Sound q lanes remaining (Round.decodeLoop q.tick remaining k t)
  | 0, _, h, _ => h
  | k + 1, t, h, hk => by
    unfold Round.decodeLoop
    split
    · exact h
    split
    · exact h
    rename_i r idx hbest
    obtain ⟨hmem, hkeep⟩ := bestOf_mem hbest
    simp only [Bool.and_eq_true, beq_iff_eq, Bool.not_eq_true', contains_eq_mem, decide_eq_false_iff_not] at hkeep
    have hcount : (t.grants ++ [Grant.decode r.id]).countP Grant.isDecode = t.grants.countP Grant.isDecode + 1 := by
      rw [countP_append]; rfl
    have hr : q.requests[idx]? = some r := h.placed hmem hkeep.2
    refine Sound.decodeLoop hq k (h.grant hq t.cursor hr hkeep.2 (g := .decode r.id) rfl hkeep.1 ?_ ?_
      (fun r => r) rfl) ?_
    · show t.used + 1 ≤ remaining
      omega
    · omega
    · show countP _ (t.grants ++ [Grant.decode r.id]) + k ≤ lanes
      omega

theorem countP_append_of_not (hg : g.isDecode = false) (h : gs.countP Grant.isDecode ≤ lanes) :
    (gs ++ [g]).countP Grant.isDecode ≤ lanes := by
  rw [countP_append, countP_singleton, hg]
  exact h

theorem Sound.prefillLoop (hq : Distinct q) (hrows : remaining < 2 ^ 64) (quantum n : Nat) : ∀ (k : Nat) {t : Round},
    Sound q lanes remaining t →
    Sound q lanes remaining (Round.prefillLoop q.tick q.prefillMinTokens quantum remaining n k t)
  | 0, _, h => h
  | k + 1, t, h => by
    unfold Round.prefillLoop
    split
    · exact h
    dsimp only
    split
    · exact h
    rename_i r idx hbest
    obtain ⟨hmem, hkeep⟩ := bestOf_mem hbest
    rw [mem_rotate] at hmem
    simp only [Bool.and_eq_true, Bool.not_eq_true', Bool.or_eq_false_iff, contains_eq_mem,
      decide_eq_false_iff_not] at hkeep
    generalize hrows' : min (min quantum r.uncachedPrefillTokens) (remaining - t.used) = rows
    split
    · exact Sound.prefillLoop hq hrows quantum n k ⟨h.used, h.fits, h.served, h.once, h.lanes, h.earned, h.requests⟩
    have hadd : checkedAdd64 t.used rows = some (t.used + rows) := if_pos (by omega)
    rw [hadd]
    have hr : q.requests[idx]? = some r := h.placed hmem hkeep.1.2
    refine Sound.prefillLoop hq hrows quantum n k
      (h.grant hq ((idx + 1) % n) hr hkeep.1.2 (g := .prefill r.id rows) rfl ⟨?_, ?_, ?_⟩ ?_
        (countP_append_of_not rfl h.lanes) _ ?_)
    · omega
    · omega
    · exact Nat.pos_of_ne_zero (beq_eq_false_iff_ne.1 hkeep.1.1)
    · show t.used + rows ≤ remaining
      omega
    · simp [Grant.prefillRows]

/-- The candidates of a quota phase that are still to come. -/
structure Waiting (q : FairQueue) (rowsOf : FairRequest → Nat) (t : Round) (xs : List Placed) : Prop where
  placed : ∀ x ∈ xs, q.requests[x.2]? = some x.1
  unserved : ∀ x ∈ xs, x.1.id ∉ t.servedIds
  needs : ∀ x ∈ xs, 0 < rowsOf x.1
  distinct : (xs.map (·.1.id)).Nodup

section quota

variable (hq : Distinct q) (hrows : remaining < 2 ^ 64) {mk : Nat → Nat → Grant} {rowsOf : FairRequest → Nat}
  (hid : ∀ i n, (mk i n).id = i) (hrowsOf : ∀ i n, (mk i n).rows = n) (hmk : ∀ i n, (mk i n).isDecode = false)
  (hpre : ∀ i n, (mk i n).prefillRows i = 0) (hearn : ∀ m r, 0 < rowsOf r → Earned m r (mk r.id (rowsOf r)))
include hq hrows hid hrowsOf hmk hpre hearn

theorem Sound.quotaLoop : ∀ {xs : List Placed} {t : Round}, Sound q lanes remaining t → Waiting q rowsOf t xs →
    Sound q lanes remaining (Round.quotaLoop mk rowsOf q.tick remaining xs t)
  | [], _, h, _ => h
  | (r, idx) :: rest, t, h, hw => by
    obtain ⟨hne, hdist⟩ := nodup_cons.1 hw.distinct
    unfold Round.quotaLoop
    split
    · exact h
    split
    · rename_i hused hfit
      have hadd : checkedAdd64 t.used (rowsOf r) = some (t.used + rowsOf r) := if_pos (by omega)
      rw [hadd]
      have hsound := h.grant hq t.cursor (hw.placed _ mem_cons_self) (hw.unserved _ mem_cons_self)
        (hid r.id (rowsOf r)) (hearn _ r (hw.needs _ mem_cons_self)) (by rw [hrowsOf]; omega)
        (countP_append_of_not (hmk _ _) h.lanes) (fun r => r) (by rw [hpre]; rfl)
      rw [hrowsOf] at hsound
      refine Sound.quotaLoop hsound
        ⟨(forall_mem_cons.1 hw.placed).2, fun x hx hin => ?_, (forall_mem_cons.1 hw.needs).2, hdist⟩
      rcases mem_append.1 hin with hin | hin
      · exact hw.unserved x (mem_cons_of_mem _ hx) hin
      · exact hne (mem_map.2 ⟨x, hx, mem_singleton.1 hin⟩)
    · exact Sound.quotaLoop h
        ⟨(forall_mem_cons.1 hw.placed).2, (forall_mem_cons.1 hw.unserved).2, (forall_mem_cons.1 hw.needs).2, hdist⟩

theorem Sound.quota (h : Sound q lanes remaining t) : Sound q lanes remaining (t.quota mk rowsOf q.tick remaining) := by
  have hperm := perm_insertionSort (fun a b : Placed => fairnessCmp a.1 b.1 ≠ .gt)
    (t.requests.zipIdx.filter fun x => decide (0 < rowsOf x.1) && !t.servedIds.contains x.1.id)
  have hmem : ∀ x ∈ t.candidates rowsOf, 
      x ∈ t.requests.zipIdx ∧ 0 < rowsOf x.1 ∧ x.1.id ∉ t.servedIds := by
    intro x hx
    obtain ⟨hx, hkeep⟩ := mem_filter.1 (hperm.mem_iff.1 hx)
    simp only [Bool.and_eq_true, Bool.not_eq_true', contains_eq_mem, decide_eq_false_iff_not, decide_eq_true_eq] at hkeep
    exact ⟨hx, hkeep⟩
  have hids : t.requests.map FairRequest.id = q.requests.map FairRequest.id := by
    rw [h.requests, map_map]
    rfl
  refine Sound.quotaLoop hq hrows hid hrowsOf hmk hpre hearn h
    ⟨fun x hx => h.placed (hmem x hx).1 (hmem x hx).2.2, fun x hx => (hmem x hx).2.2, fun x hx => (hmem x hx).2.1,
      (hperm.map _).nodup_iff.2 ?_⟩
  have hall : (t.requests.zipIdx.map (·.1.id)).Nodup := by
    rw [show (fun x : Placed => x.1.id) = FairRequest.id ∘ Prod.fst from rfl, ← map_map, zipIdx_map_fst, hids]
    exact hq
  exact hall.sublist (filter_sublist.map _)

end quota

/-- **The four phases together are sound.** -/
theorem allocate_sound (hq : Distinct q) (lanes quantum : Nat) (hrows : remaining < 2 ^ 64) :
    Sound q lanes remaining (q.allocate lanes quantum remaining) := by
  have hstart : Sound q lanes remaining { requests := q.requests, cursor := q.prefillCursor } :=
    { used := rfl
      fits := Nat.zero_le _
      served := rfl
      once := nodup_nil
      lanes := Nat.zero_le _
      earned := nofun
      requests := by
        show q.requests = _
        rw [map_congr_left fun r _ => FairRequest.after_of_not_mem not_mem_nil, map_id'] }
  have hdecode := hstart.decodeLoop hq lanes (by simp)
  refine Sound.quota hq hrows (fun _ _ => rfl) (fun _ _ => rfl) (fun _ _ => rfl) (fun _ _ => rfl) (fun _ _ => .intro rfl)
    (Sound.quota hq hrows (fun _ _ => rfl) (fun _ _ => rfl) (fun _ _ => rfl) (fun _ _ => rfl) (fun _ _ => .intro rfl) ?_)
  split
  · exact hdecode.prefillLoop hq hrows quantum _ _
  · exact hdecode

end Rounds

/-! ## Every call keeps the ids apart -/

variable {f : FairRequest → FairRequest}

theorem map_id_modify (hf : ∀ r, (f r).id = r.id) (rs : List FairRequest) (i : Nat) :
    (rs.modify i f).map FairRequest.id = rs.map FairRequest.id := by
  apply ext_getElem?
  intro j
  rw [getElem?_map, getElem?_map, getElem?_modify]
  cases rs[j]? with
  | none => rfl
  | some r =>
    show some (if i = j then f r else r).id = some r.id
    split
    · rw [hf]
    · rfl

variable {q : FairQueue}

theorem distinct_select (hq : Distinct q) (lanes quantum rows : UInt64) :
    Distinct (q.select lanes.toNat quantum.toNat rows.toNat).1 := by
  unfold FairQueue.select
  split
  · exact hq
  · unfold Distinct
    dsimp only
    rw [(allocate_sound hq _ _ rows.toNat_lt).requests, map_map]
    exact hq

theorem distinct_toOption (hq : Distinct q) {r : Except FairnessError FairQueue}
    (h : ∀ q', r = .ok q' → Distinct q') : Distinct (r.toOption.getD q) := by
  cases r with
  | error _ => exact hq
  | ok q' => exact h q' rfl

theorem distinct_update (hq : Distinct q) (id : Nat)
    (hf : ∀ r, (f r).id = r.id) : Distinct ((q.update id f).toOption.getD q) := by
  refine distinct_toOption hq fun q' h => ?_
  unfold FairQueue.update at h
  split at h
  · cases h
  · cases h
    unfold Distinct
    rw [map_id_modify hf]
    exact hq

theorem distinct_call (hq : Distinct q) : ∀ op : FairOp, Distinct (op.call q)
  | .admitRequest id domain uncached => by
    refine distinct_toOption hq fun q' h => ?_
    unfold FairQueue.admitRequest at h
    split at h
    · cases h
    rename_i hno
    cases h
    unfold Distinct
    rw [map_append, nodup_append]
    refine ⟨hq, nodup_singleton _, fun a ha b hb hab => hno ?_⟩
    obtain ⟨r, hr, hra⟩ := mem_map.1 ha
    rw [any_eq_true]
    exact ⟨r, hr, beq_iff_eq.2 (hra.trans (hab.trans (mem_singleton.1 hb)))⟩
  | .setNeeds id d v f => distinct_update hq _ fun _ => rfl
  | .setUncachedPrefill id tokens => distinct_update hq _ fun _ => rfl
  | .remove id => by
    refine distinct_toOption hq fun q' h => ?_
    unfold FairQueue.remove at h
    dsimp only at h
    split at h
    · cases h
    · cases h
      exact hq.sublist (filter_sublist.map _)
  | .skipRoundComplete => by
    unfold FairOp.call FairQueue.skipRoundComplete Distinct
    rw [map_map]
    exact hq
  | .select lanes quantum rows => distinct_select hq lanes quantum rows

theorem distinct_run {m l p : UInt64} (h : FairQueue.new m.toNat l.toNat p.toNat = .ok q)
    (ops : List FairOp) : Distinct (runAll FairOp.call ops q) := by
  have hnew : Distinct q := by
    unfold FairQueue.new at h
    split at h
    · cases h
    split at h
    · cases h
    · split at h
      · cases h
      · cases h
        exact nodup_nil
  exact runAll_history (P := fun _ q => Distinct q) hnew (fun _ op h => distinct_call h op) ops

/-! ## What a selection gives -/

theorem get_eq_some (hq : Distinct q) (hr : r ∈ q.requests) : q.get r.id = some r := by
  unfold FairQueue.get
  cases hfind : q.requests.find? fun s => s.id == r.id with
  | none => exact absurd (find?_eq_none.1 hfind r hr) (by simp)
  | some s =>
    rw [inj_on_of_nodup_map hq (mem_of_find?_eq_some hfind) hr (beq_iff_eq.1 (find?_some hfind :))]

/-- What a selection gives and what it leaves of the queue. -/
structure SoundSelection (q : FairQueue) (maxDecodeLanes remainingRows : Nat) (q' : FairQueue) (sel : Selection) : Prop where
  rows : (sel.grants.map Grant.rows).sum ≤ remainingRows
  once : (sel.grants.map Grant.id).Nodup
  decode : ∀ id, .decode id ∈ sel.grants → ∃ r, q.get id = some r ∧ r.verifyRows = 0
  lanes : sel.grants.countP Grant.isDecode ≤ maxDecodeLanes
  prefill : ∀ id n, .prefill id n ∈ sel.grants →
    ∃ r, q.get id = some r ∧ (q.prefillMinTokens ≤ n ∨ n = r.uncachedPrefillTokens)
  uncached : ∀ id r, q.get id = some r → ∃ r', q'.get id = some r' ∧
    (∀ n, .prefill id n ∈ sel.grants → r'.uncachedPrefillTokens + n = r.uncachedPrefillTokens) ∧
    ((∀ n, .prefill id n ∉ sel.grants) → r'.uncachedPrefillTokens = r.uncachedPrefillTokens)

theorem sum_prefillRows_of_mem : ∀ {gs : List Grant} {i n : Nat}, (gs.map Grant.id).Nodup → .prefill i n ∈ gs →
    (gs.map (Grant.prefillRows i)).sum = n
  | g :: gs, i, n, hnd, hmem => by
    obtain ⟨hg, hnd⟩ := nodup_cons.1 hnd
    rw [map_cons, sum_cons]
    rcases mem_cons.1 hmem with rfl | hmem
    · rw [sum_prefillRows_of_not_mem (i := i) hg]
      exact (Nat.add_zero _).trans (if_pos rfl)
    · have hne : g.id ≠ i := fun he => hg (he ▸ mem_map.2 ⟨_, hmem, rfl⟩)
      rw [prefillRows_of_ne hne, Nat.zero_add, sum_prefillRows_of_mem hnd hmem]

theorem soundSelection_of_sound {q' : FairQueue} {lanes remaining : Nat} {t : Round} {sel : Selection} (hq : Distinct q)
    (h : Sound q lanes remaining t) (hgrants : sel.grants = t.grants) (hreqs : q'.requests = t.requests) :
    SoundSelection q lanes remaining q' sel := by
  have hnd : (t.grants.map Grant.id).Nodup := h.served ▸ h.once
  have hq' : Distinct q' := by
    unfold Distinct
    rw [hreqs, h.requests, map_map]
    exact hq
  refine ⟨?_, ?_, ?_, ?_, ?_, ?_⟩
  · rw [hgrants, ← h.used]
    exact h.fits
  · rw [hgrants]
    exact hnd
  · intro id hid
    obtain ⟨r, hr, rfl, he⟩ := h.earned _ (hgrants ▸ hid)
    exact ⟨r, get_eq_some hq hr, he.2⟩
  · rw [hgrants]
    exact h.lanes
  · intro id n hid
    obtain ⟨r, hr, rfl, he⟩ := h.earned _ (hgrants ▸ hid)
    exact ⟨r, get_eq_some hq hr, he.2.1⟩
  · intro id r hget
    have hr : r ∈ q.requests := mem_of_find?_eq_some hget
    obtain rfl : r.id = id := beq_iff_eq.1 (find?_some hget :)
    have hafter : r.after q.tick t.grants ∈ q'.requests := by
      rw [hreqs, h.requests]
      exact mem_map_of_mem hr
    refine ⟨r.after q.tick t.grants, get_eq_some (r := r.after q.tick t.grants) hq' hafter, fun n hn => ?_, fun hno => ?_⟩
    · rw [hgrants] at hn
      obtain ⟨s, hs, hid, he⟩ := h.earned _ hn
      obtain rfl := inj_on_of_nodup_map hq hs hr hid
      have hsum := sum_prefillRows_of_mem hnd hn
      show s.uncachedPrefillTokens - _ + n = _
      rw [hsum]
      exact Nat.sub_add_cancel he.1
    · rw [hgrants] at hno
      show r.uncachedPrefillTokens - _ = _
      rw [sum_prefillRows_of_no hno]
      rfl

/-- **Every selection is sound**, whatever calls the queue has seen. -/
theorem select_is_sound {m l p : UInt64} {q₀ : FairQueue} (h : FairQueue.new m.toNat l.toNat p.toNat = .ok q₀)
    (ops : List FairOp) (lanes quantum rows : UInt64) :
    SoundSelection (runAll FairOp.call ops q₀) lanes.toNat rows.toNat
      ((runAll FairOp.call ops q₀).select lanes.toNat quantum.toNat rows.toNat).1
      ((runAll FairOp.call ops q₀).select lanes.toNat quantum.toNat rows.toNat).2 := by
  have hq := distinct_run h ops
  generalize runAll FairOp.call ops q₀ = q at hq ⊢
  have hsound := allocate_sound hq lanes.toNat quantum.toNat rows.toNat_lt
  unfold FairQueue.select
  split
  · rename_i hempty
    have hnone : ∀ id, q.get id = none := fun id => by rw [FairQueue.get, hempty]; rfl
    exact ⟨Nat.zero_le _, nodup_nil, nofun, Nat.zero_le _, nofun,
      fun id r hr => (nomatch (hnone id).symm.trans hr)⟩
  · exact soundSelection_of_sound hq hsound rfl rfl

/-- Two decoding requests, a prompt, a verify and a forced request. -/
def allKinds : List FairOp :=
  [.admitRequest 7 "s" 0, .setNeeds 7 true 0 0, .admitRequest 8 "s" 5, .admitRequest 9 "s" 0, .setNeeds 9 false 3 0,
    .admitRequest 10 "s" 0, .setNeeds 10 false 0 2, .admitRequest 11 "s" 0, .setNeeds 11 true 0 0]

theorem select_is_sound_allKinds : FairQueue.new 100 2 1 = .ok ⟨100, 2, 1, [], 0, 0, 0⟩ ∧
    ((runAll FairOp.call allKinds ⟨100, 2, 1, [], 0, 0, 0⟩).select 1 4 10).2.grants =
      [.decode 7, .prefill 8 4, .verify 9 3, .forced 10 2] ∧
    SoundSelection (runAll FairOp.call allKinds ⟨100, 2, 1, [], 0, 0, 0⟩) 1 10
      ((runAll FairOp.call allKinds ⟨100, 2, 1, [], 0, 0, 0⟩).select 1 4 10).1
      ((runAll FairOp.call allKinds ⟨100, 2, 1, [], 0, 0, 0⟩).select 1 4 10).2 :=
  ⟨by decide, by decide, select_is_sound (m := 100) (l := 2) (p := 1) (by decide) allKinds 1 4 10⟩

end Hipfire.Fair
