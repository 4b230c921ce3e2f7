import Hipfire.Fair.Sound
/-!
# Starved — which request the starvation signal names

The scan at the end of `select` asks for each kind of need whether it got a grant of that kind.  But a request is served at
most once a step, so a request with two kinds of need keeps one unserved even when it got its rows (`Miscounted`); it is
then named although it received something.  `namesStarved_select_iff` says when the signal is right, in terms of the grants;
`starved_named` says for which queues it is right whatever the budget.
-/
namespace Hipfire.Fair

open List

/-- A request that got nothing, needs something and fits the batch on its own. -/
structure Starved (q : FairQueue) (gs : List Grant) (r : FairRequest) : Prop where
  member : r ∈ q.requests
  nothing : ∀ g ∈ gs, g.id ≠ r.id
  need : unserved gs r = true
  feasible : ∃ n, r.neededRows = some n ∧ n ≤ q.maxBatchTokens

/-- The signal names the fairness-best request that got nothing, and is off only when there is none. -/
def NamesStarved (q : FairQueue) (sel : Selection) : Prop :=
  (∀ id, sel.starvedId = some id → ∃ r, Starved q sel.grants r ∧ r.id = id ∧
    ∀ r', Starved q sel.grants r' → fairnessCmp r' r ≠ .lt) ∧
  (sel.starvedId = none → ∀ r, ¬ Starved q sel.grants r)

/-- The scan counts the request: a kind of its needs got no grant, and it is taken to fit the batch. -/
structure Counted (q : FairQueue) (gs : List Grant) (r : FairRequest) : Prop where
  member : r ∈ q.requests
  need : unserved gs r = true
  fits : r.neededRows.getD (2 ^ 64 - 1) ≤ q.maxBatchTokens

/-- Counted, although it got a grant for another need or its needs exceed every `u64`. -/
structure Miscounted (q : FairQueue) (gs : List Grant) (r : FairRequest) : Prop extends Counted q gs r where
  why : (∃ g ∈ gs, g.id = r.id) ∨ r.neededRows = none

/-- The request has at most one kind of need. -/
def FairRequest.OneNeed (r : FairRequest) : Prop :=
  [decide (0 < r.uncachedPrefillTokens), r.wantsDecode && r.verifyRows == 0, decide (0 < r.verifyRows),
    decide (0 < r.forcedRows)].count true ≤ 1

/-- The order of the scan: fairness after the grants, then the place in the queue. -/
def Precedes (q : FairQueue) (gs : List Grant) (r' r : FairRequest) : Prop :=
  fairnessCmp r' (r.after q.tick gs) = .lt ∨ fairnessCmp r' (r.after q.tick gs) = .eq ∧ [r', r].Sublist q.requests

section

variable {q : FairQueue} {gs : List Grant} {r : FairRequest}

theorem Starved.counted (h : Starved q gs r) : Counted q gs r := by
  obtain ⟨n, hn, hle⟩ := h.feasible
  exact ⟨h.member, h.need, by rw [hn]; exact hle⟩

theorem Starved.after (h : Starved q gs r) (tick : Nat) : r.after tick gs = r := by
  refine FairRequest.after_of_not_mem fun hmem => ?_
  obtain ⟨g, hg, he⟩ := mem_map.1 hmem
  exact h.nothing g hg he

theorem Starved.not_miscounted (h : Starved q gs r) : ¬ Miscounted q gs r := by
  intro hm
  rcases hm.why with ⟨g, hg, he⟩ | hnone
  · exact h.nothing g hg he
  · obtain ⟨n, hn, -⟩ := h.feasible
    cases hnone.symm.trans hn

theorem Counted.cases (h : Counted q gs r) : Starved q gs r ∨ Miscounted q gs r := by
  by_cases hgot : ∃ g ∈ gs, g.id = r.id
  · exact .inr ⟨h, .inl hgot⟩
  cases hn : r.neededRows with
  | none => exact .inr ⟨h, .inr hn⟩
  | some n =>
    have hfits := h.fits
    rw [hn] at hfits
    exact .inl ⟨h.member, fun g hg he => hgot ⟨g, hg, he⟩, h.need, n, hn, hfits⟩

/-- A prefill grant is what changes the tokens left, so the scan reads the same needs before and after. -/
theorem unserved_after (tick : Nat) : unserved gs (r.after tick gs) = unserved gs r := by
  unfold unserved
  by_cases hno : ∀ n, Grant.prefill r.id n ∉ gs
  · have huncached : (r.after tick gs).uncachedPrefillTokens = r.uncachedPrefillTokens := by
      show r.uncachedPrefillTokens - _ = _
      rw [sum_prefillRows_of_no hno, Nat.sub_zero]
    rw [huncached]
    rfl
  · push Not at hno
    obtain ⟨n, hn⟩ := hno
    have hgot : got Grant.isPrefill gs r.id = true :=
      any_eq_true.2 ⟨_, hn, by simp [Grant.isPrefill, Grant.id]⟩
    simp [FairRequest.after, hgot]

theorem not_sublist_swap {a b : FairRequest} : ∀ {l : List FairRequest}, l.Nodup → [a, b].Sublist l → ¬ [b, a].Sublist l
  | [], _, hab, _ => by cases hab
  | x :: l, hnd, hab, hba => by
    obtain ⟨hx, hnd⟩ := nodup_cons.1 hnd
    cases hab with
    | cons _ hab =>
      cases hba with
      | cons _ hba => exact not_sublist_swap hnd hab hba
      | cons_cons _ hba => exact hx (hab.subset (by simp))
    | cons_cons _ hab =>
      cases hba with
      | cons _ hba => exact hx (hba.subset (by simp))
      | cons_cons _ hba => exact hx (hab.subset (by simp))

/-- **A request with one kind of need is served by any grant.** -/
theorem FairRequest.OneNeed.served {g : Grant} {minTokens : Nat} (h : r.OneNeed) (hg : g ∈ gs) (hid : r.id = g.id)
    (he : Earned minTokens r g) : unserved gs r = false := by
  have hgot : ∀ kind : Grant → Bool, kind g = true → got kind gs r.id = true := fun kind hk =>
    any_eq_true.2 ⟨g, hg, by simp [hk, hid]⟩
  unfold OneNeed at h
  unfold unserved
  cases g with
  | decode => rw [hgot Grant.isDecode rfl]; grind [Earned]
  | prefill => rw [hgot Grant.isPrefill rfl]; grind [Earned]
  | verify => rw [hgot Grant.isVerify rfl]; grind [Earned]
  | forced => rw [hgot Grant.isForced rfl]; grind [Earned]

/-! ## The scan over the queue's own requests -/

variable {t : Round}

/-- What the scan keeps, in terms of the queue before the call. -/
theorem keep_iff {i : Nat} (hr : q.requests[i]? = some r) : (unserved t.grants (r.after q.tick t.grants)
      && decide (((q.requests.map FairRequest.neededRows).getD i none).getD (2 ^ 64 - 1) ≤ q.maxBatchTokens)) = true ↔
    Counted q t.grants r := by
  have hneed : (q.requests.map FairRequest.neededRows).getD i none = r.neededRows := by
    rw [getD_eq_getElem?_getD, getElem?_map, hr]
    rfl
  rw [hneed, unserved_after, Bool.and_eq_true, decide_eq_true_eq]
  exact ⟨fun h => ⟨mem_of_getElem? hr, h.1, h.2⟩, fun h => ⟨h.need, h.fits⟩⟩

/-- The scan's answer: the first of the fairness-best among those that count. -/
structure Answer (q : FairQueue) (gs : List Grant) (r : FairRequest) : Prop extends Counted q gs r where
  least : ∀ r', Counted q gs r' → (r.after q.tick gs).key ≤ (r'.after q.tick gs).key
  first : ∀ r', Counted q gs r' → (r.after q.tick gs).key = (r'.after q.tick gs).key → r' = r ∨ [r, r'].Sublist q.requests

variable {lanes remaining : Nat}

theorem bestStarved_spec (h : Sound q lanes remaining t) : match q.bestStarved t with
    | none => ∀ r, ¬ Counted q t.grants r
    | some x => ∃ r, x.1 = r.after q.tick t.grants ∧ Answer q t.grants r := by
  have hbest : IsBest _ _ (q.bestStarved t) := bestOf_isBest _ _
  have hplaced : t.requests.zipIdx = q.requests.zipIdx.map (Prod.map (FairRequest.after q.tick t.grants) id) := by
    rw [h.requests, zipIdx_map]
  have hkeep : ∀ x ∈ q.requests.zipIdx, _ := fun x hx => keep_iff (t := t) (mem_zipIdx_iff_getElem?.1 hx)
  rw [hplaced] at hbest
  cases hx : q.bestStarved t with
  | none =>
    rw [hx] at hbest
    intro r hr
    obtain ⟨i, hi⟩ := mem_iff_getElem?.1 hr.member
    have hmem : (r, i) ∈ q.requests.zipIdx := mem_zipIdx_iff_getElem?.2 hi
    exact hbest _ (mem_map_of_mem hmem) ((hkeep _ hmem).2 hr)
  | some x =>
    rw [hx] at hbest
    obtain ⟨hk, front, back, hsplit, hfront, hback⟩ := hbest
    -- the split of the round's requests is a split of the queue's
    obtain ⟨front', rest, hq, rfl, hrest⟩ := map_eq_append_iff.1 hsplit
    obtain ⟨y, back', rfl, rfl, rfl⟩ := map_eq_cons_iff.1 hrest
    have hreqs := congrArg (map Prod.fst) hq
    rw [zipIdx_map_fst, map_append, map_cons] at hreqs
    have hin : ∀ z, z ∈ front' ∨ z ∈ y :: back' → z ∈ q.requests.zipIdx := fun z hz => hq ▸ mem_append.2 hz
    have hside : ∀ r', Counted q t.grants r' → (y.1.after q.tick t.grants).key < (r'.after q.tick t.grants).key ∨
        (y.1.after q.tick t.grants).key ≤ (r'.after q.tick t.grants).key ∧ (r' = y.1 ∨ [y.1, r'].Sublist q.requests) := by
      intro r' hc
      have hmem := hc.member
      rw [hreqs, mem_append, mem_cons] at hmem
      rcases hmem with hmem | rfl | hmem
      · obtain ⟨z, hz, rfl⟩ := mem_map.1 hmem
        exact .inl (hfront _ (mem_map_of_mem hz) ((hkeep z (hin z (.inl hz))).2 hc))
      · exact .inr ⟨le_rfl, .inl rfl⟩
      · refine .inr ⟨?_, .inr ?_⟩
        · obtain ⟨z, hz, rfl⟩ := mem_map.1 hmem
          exact hback _ (mem_map_of_mem hz) ((hkeep z (hin z (.inr (mem_cons_of_mem _ hz)))).2 hc)
        · rw [hreqs]
          exact sublist_append_of_sublist_right ((singleton_sublist.2 hmem).cons_cons y.1)
    refine ⟨y.1, rfl, (hkeep y (hin y (.inr mem_cons_self))).1 hk, fun r' hc => ?_, fun r' hc heq => ?_⟩
    · exact (hside r' hc).elim le_of_lt And.left
    · exact (hside r' hc).elim (fun hlt => absurd heq hlt.ne) And.right

/-- The answer got nothing exactly when every miscounted request comes after one that did not. -/
theorem Answer.starved_iff (h : Answer q gs r) (hq : q.requests.Nodup) :
    Starved q gs r ↔ ∀ r₂, Miscounted q gs r₂ → ∃ r', Starved q gs r' ∧ Precedes q gs r' r₂ := by
  constructor
  · intro hr r₂ hr₂
    have hle := h.least r₂ hr₂.toCounted
    have hfirst := h.first r₂ hr₂.toCounted
    rw [hr.after] at hle hfirst
    refine ⟨r, hr, (lt_or_eq_of_le hle).imp (fairnessCmp_lt ..).2 fun heq => ⟨(fairnessCmp_eq ..).2 heq, ?_⟩⟩
    rcases hfirst heq with rfl | hsub
    · exact absurd hr₂ hr.not_miscounted
    · exact hsub
  · intro hall
    refine h.toCounted.cases.resolve_right fun hmis => ?_
    obtain ⟨r', hr', hprec⟩ := hall r hmis
    have hle := h.least r' hr'.counted
    have hfirst := h.first r' hr'.counted
    rw [hr'.after] at hle hfirst
    rcases hprec with hlt | ⟨heq, hsub⟩
    · exact absurd ((fairnessCmp_lt ..).1 hlt) (not_lt.2 hle)
    · rcases hfirst ((fairnessCmp_eq ..).1 heq).symm with rfl | hsub'
      · exact hr'.not_miscounted hmis
      · exact not_sublist_swap hq hsub hsub'

theorem namesStarved_iff {sel : Selection} (hq : Distinct q)
    (h : Sound q lanes remaining t) (hgrants : sel.grants = t.grants)
    (hid : sel.starvedId = (q.bestStarved t).map (·.1.id)) :
    NamesStarved q sel ↔ ∀ r, Miscounted q sel.grants r → ∃ r', Starved q sel.grants r' ∧ Precedes q sel.grants r' r := by
  have hspec := bestStarved_spec h
  unfold NamesStarved
  rw [hgrants, hid]
  cases hx : q.bestStarved t with
  | none =>
    rw [hx] at hspec
    exact ⟨fun _ r hr => absurd hr.toCounted (hspec r),
      fun _ => ⟨nofun, fun _ r hr => hspec r hr.counted⟩⟩
  | some x =>
    rw [hx] at hspec
    obtain ⟨r, hxr, hr⟩ := hspec
    have hxid : x.1.id = r.id := by rw [hxr]; rfl
    rw [← hr.starved_iff (Nodup.of_map _ hq)]
    constructor
    · rintro ⟨hnamed, -⟩
      obtain ⟨r₁, hr₁, hid₁, -⟩ := hnamed _ rfl
      rw [← inj_on_of_nodup_map hq hr₁.member hr.member (hid₁.trans hxid)]
      exact hr₁
    · intro hstarved
      refine ⟨fun id hid => ⟨r, hstarved, hxid.symm.trans (Option.some.inj hid), fun r' hr' hlt => ?_⟩,
        nofun⟩
      have hle := hr.least r' hr'.counted
      rw [hstarved.after, hr'.after] at hle
      exact absurd ((fairnessCmp_lt ..).1 hlt) (not_lt.2 hle)

end

/-- **When the starvation signal is right**: every request that the scan counts although it got a grant (or although its
needs overflow) comes after one that got nothing. -/
theorem namesStarved_select_iff {q : FairQueue} (hq : Distinct q) (lanes quantum : Nat) {rows : Nat} (hrows : rows < 2 ^ 64) :
    NamesStarved q (q.select lanes quantum rows).2 ↔ ∀ r, Miscounted q (q.select lanes quantum rows).2.grants r →
      ∃ r', Starved q (q.select lanes quantum rows).2.grants r' ∧ Precedes q (q.select lanes quantum rows).2.grants r' r := by
  by_cases hempty : q.requests = []
  · have hno : ∀ r, r ∉ q.requests := fun r => hempty ▸ not_mem_nil
    unfold FairQueue.select
    rw [if_pos hempty]
    exact ⟨fun _ r hr => absurd hr.member (hno r),
      fun _ => ⟨nofun, fun _ r hr => absurd hr.member (hno r)⟩⟩
  · unfold FairQueue.select
    rw [if_neg hempty]
    exact namesStarved_iff hq (allocate_sound hq lanes quantum hrows) rfl rfl

/-- **For which queues the signal is right**: before the call, every request whose rows the scan takes to fit the batch has at
most one kind of need, and its rows do not overflow. -/
theorem starved_named {m l p : UInt64} {q₀ : FairQueue} (h : FairQueue.new m.toNat l.toNat p.toNat = .ok q₀)
    (ops : List FairOp) (hneeds : ∀ r ∈ (runAll FairOp.call ops q₀).requests,
      r.neededRows.getD (2 ^ 64 - 1) ≤ (runAll FairOp.call ops q₀).maxBatchTokens → r.OneNeed ∧ r.neededRows ≠ none)
    (lanes quantum rows : UInt64) : NamesStarved (runAll FairOp.call ops q₀)
      ((runAll FairOp.call ops q₀).select lanes.toNat quantum.toNat rows.toNat).2 := by
  have hq := distinct_run h ops
  generalize runAll FairOp.call ops q₀ = q at hq hneeds ⊢
  refine (namesStarved_select_iff hq lanes.toNat quantum.toNat rows.toNat_lt).2 fun r hr => ?_
  obtain ⟨hone, hsome⟩ := hneeds r hr.member hr.fits
  obtain ⟨g, hg, hid⟩ := hr.why.resolve_right hsome
  -- the grant was for the one need there is, so the scan does not count the request
  have hgs : g ∈ (q.allocate lanes.toNat quantum.toNat rows.toNat).grants := by
    unfold FairQueue.select at hg
    rw [if_neg (ne_nil_of_mem hr.member)] at hg
    exact hg
  obtain ⟨s, hs, hsid, he⟩ := (allocate_sound hq lanes.toNat quantum.toNat rows.toNat_lt).earned g hgs
  obtain rfl := inj_on_of_nodup_map hq hs hr.member (hsid.trans hid)
  cases (hone.served hg hsid he).symm.trans hr.need

/-- With one kind of need each, the second decoding request of five is the one that is named. -/
theorem starved_named_allKinds : ((runAll FairOp.call allKinds ⟨100, 2, 1, [], 0, 0, 0⟩).select 1 4 10).2.starvedId = some 11 ∧
    NamesStarved (runAll FairOp.call allKinds ⟨100, 2, 1, [], 0, 0, 0⟩)
      ((runAll FairOp.call allKinds ⟨100, 2, 1, [], 0, 0, 0⟩).select 1 4 10).2 :=
  ⟨by decide, starved_named (m := 100) (l := 2) (p := 1) (by decide) allKinds (by unfold FairRequest.OneNeed; decide) 1 4 10⟩

/-- A decoding request that also has a prompt left, over a budget of ten rows. -/
def decodingPrompt : List FairOp := [.admitRequest 7 "s" 5, .setNeeds 7 true 0 0]

/-- The decoding request with a prompt left gets its decode row, and is named as starved. -/
theorem decodingPrompt_named_though_served : FairQueue.new 100 2 1 = .ok ⟨100, 2, 1, [], 0, 0, 0⟩ ∧
    ((runAll FairOp.call decodingPrompt ⟨100, 2, 1, [], 0, 0, 0⟩).select 2 8 10).2
      = { grants := [.decode 7], starvedOldest := true, starvedId := some 7 } ∧
    ¬ NamesStarved (runAll FairOp.call decodingPrompt ⟨100, 2, 1, [], 0, 0, 0⟩)
      ((runAll FairOp.call decodingPrompt ⟨100, 2, 1, [], 0, 0, 0⟩).select 2 8 10).2 := by
  have hsel : ((runAll FairOp.call decodingPrompt ⟨100, 2, 1, [], 0, 0, 0⟩).select 2 8 10).2
      = { grants := [.decode 7], starvedOldest := true, starvedId := some 7 } := by decide
  refine ⟨by decide, hsel, fun hnames => ?_⟩
  obtain ⟨r, hr, hid, -⟩ := hnames.1 7 rfl
  exact hr.nothing (.decode 7) (mem_singleton.2 rfl) hid.symm

end Hipfire.Fair
