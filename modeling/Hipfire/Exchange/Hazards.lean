import Hipfire.Base.Lists
import Hipfire.Exchange.Moves
/-!
# Hazards — the exchange has no cross-rank hazard

Two host barriers for each exchange keep the ranks so close that a wait always finds the record of its own exchange in the
event's slot.  A pull is then ordered behind everything its owner wrote before the exchange, and before everything the owner
writes after it.
-/
namespace Hipfire.Exchange

open List Function

variable {ranks rank r q : Nat} {xs : List Layout} {stream : List Work} {h h' : Host} {s : State}

/-! ## One stream -/

/-- The work of a rank is sorted by exchange, and each piece has before it what it needs. -/
structure StreamOk (ranks rank : Nat) (xs : List Layout) (level : Nat) (stream : List Work) : Prop where
  sorted : stream.Pairwise fun v w => v.key ≤ w.key
  below : ∀ w ∈ stream, w.key ≤ level
  preceded : ∀ (i : Nat) (w : Work), stream[i]? = some w → Preceded ranks rank xs (stream.take i) w

theorem StreamOk.mono {level level' : Nat} (ok : StreamOk ranks rank xs level stream) (hle : level ≤ level') :
    StreamOk ranks rank xs level' stream :=
  ⟨ok.sorted, fun w hw => Nat.le_trans (ok.below w hw) hle, ok.preceded⟩

theorem StreamOk.append {level level' : Nat} {w : Work} (ok : StreamOk ranks rank xs level stream) (hlow : level ≤ w.key)
    (hhigh : w.key ≤ level') (hbefore : Preceded ranks rank xs stream w) : StreamOk ranks rank xs level' (stream ++ [w]) := by
  refine ⟨?_, ?_, fun i v hi => ?_⟩
  · exact pairwise_append.2 ⟨ok.sorted, pairwise_singleton _ _, fun v hv =>
      forall_mem_singleton.2 (Nat.le_trans (ok.below v hv) hlow)⟩
  · exact forall_mem_append.2 ⟨fun v hv => Nat.le_trans (ok.below v hv) (Nat.le_trans hlow hhigh),
      forall_mem_singleton.2 hhigh⟩
  · rcases getElem?_concat hi with hi | ⟨rfl, rfl⟩
    · have hlt : i < stream.length := lt_of_getElem? hi
      rw [take_append_of_le_length (Nat.le_of_lt hlt)]
      exact ok.preceded i v hi
    · rw [take_left]
      exact hbefore

/-- Work of an earlier exchange stands earlier. -/
theorem StreamOk.lt_of_key {level i j : Nat} {v w : Work} (ok : StreamOk ranks rank xs level stream)
    (hi : stream[i]? = some v) (hj : stream[j]? = some w) (hkey : v.key < w.key) : i < j := by
  by_contra hge
  obtain ⟨hilt, hiv⟩ := List.getElem?_eq_some_iff.1 hi
  obtain ⟨hjlt, hjw⟩ := List.getElem?_eq_some_iff.1 hj
  rcases Nat.lt_or_eq_of_le (Nat.not_lt.1 hge) with hji | rfl
  · have := pairwise_iff_getElem.1 ok.sorted j i hjlt hilt hji
    rw [hiv, hjw] at this
    exact absurd hkey (Nat.not_lt.2 this)
  · cases hi.symm.trans hj
    exact Nat.lt_irrefl _ hkey

/-! ## All ranks -/

theorem mem_peers : q ∈ peers ranks rank ↔ q < ranks ∧ q ≠ rank := by
  simp [peers]

/-- What holds of the ranks together. -/
structure Inv (ranks : Nat) (xs : List Layout) (s : State) : Prop where
  host : ∀ r < ranks, HostOk ranks r xs (s.hosts r) (s.streams r)
  stream : ∀ r < ranks, StreamOk ranks r xs (s.hosts r).level (s.streams r)
  barrier : ∀ r < ranks, ∀ q < ranks, (s.hosts r).passes ≤ (s.hosts q).arrivals
  /-- The last two records of each event pair are in its slots. -/
  slot : ∀ r < ranks, ∀ (kind : Kind) (j : Nat), j < (s.hosts r).records kind → (s.hosts r).records kind ≤ j + 2 →
    ∃ m, s.slots r kind (parity j) = some m ∧ (s.streams r)[m]? = some (.record kind j)
  bound : ∀ r < ranks, ∀ (q : Nat) (kind : Kind) (k : Nat) (b : Option Nat), .wait q kind k b ∈ s.streams r →
    ∃ m, b = some m ∧ (s.streams q)[m]? = some (.record kind k)

theorem records_ready {k : Nat} (harr : 2 * k + 1 ≤ h.arrivals) (hpass : h.passes ≤ 2 * k + 1) :
    h.records .ready = k + 1 := by
  obtain ⟨calls, phase, e, w, a⟩ := h
  cases phase <;> simp only [Host.arrivals, Host.passes, Host.records] at * <;> omega

theorem records_done {k : Nat} (harr : 2 * k + 2 ≤ h.arrivals) (hpass : h.passes ≤ 2 * k + 2) :
    h.records .done = k + 1 := by
  obtain ⟨calls, phase, e, w, a⟩ := h
  cases phase <;> simp only [Host.arrivals, Host.passes, Host.records] at * <;> omega

variable {kind : Kind}

/-- **A wait finds the record of its own exchange**: the barriers keep its peer within one record of it. -/
theorem Inv.wait_bound (inv : Inv ranks xs s) (hr : r < ranks) (hq : q < ranks) {passed : Bool}
    {slot k : Nat} (m : Move ranks r passed (s.hosts r) h' (some (.wait q kind slot k))) :
    ∃ m, s.slots q kind slot = some m ∧ (s.streams q)[m]? = some (.record kind k) := by
  obtain ⟨rfl, hcount⟩ := m.wait
  have hto := inv.barrier r hr q hq
  have hfrom := inv.barrier q hq r hr
  have hrecords : (s.hosts q).records kind = k + 1 := by
    rcases hcount with ⟨rfl, harr, hpass⟩ | ⟨rfl, harr, hpass⟩
    · exact records_ready (hpass ▸ hto) (harr ▸ hfrom)
    · exact records_done (hpass ▸ hto) (harr ▸ hfrom)
  exact inv.slot q hq kind k (by omega) (by omega)

theorem Inv.barrier_step (inv : Inv ranks xs s) (hr : r < ranks) {effect : Option Effect}
    (m : Move ranks r (s.allArrived ranks r) (s.hosts r) h' effect) : ∀ p < ranks, ∀ q < ranks,
      (update s.hosts r h' p).passes ≤ (update s.hosts r h' q).arrivals := by
  intro p hp q hq
  have harr : (s.hosts q).arrivals ≤ (update s.hosts r h' q).arrivals := by
    by_cases hqr : q = r
    · subst hqr
      rw [update_self]
      exact m.arrivals_le
    · exact Nat.le_of_eq (by rw [update_of_ne hqr])
  by_cases hpr : p = r
  · subst hpr
    rw [update_self]
    rcases m.passes with hsame | ⟨hall, hnew⟩
    · exact Nat.le_trans (hsame ▸ inv.barrier p hp q hq) harr
    have hq' : (s.hosts p).arrived ≤ (s.hosts q).arrived := by
      have := all_eq_true.1 hall q (mem_range.2 hq)
      exact of_decide_eq_true this
    rw [(inv.host p hp).arrived, (inv.host q hq).arrived] at hq'
    exact hnew ▸ Nat.le_trans hq' harr
  · rw [update_of_ne hpr]
    exact Nat.le_trans (inv.barrier p hp q hq) harr

theorem parity_ne_pred {j k : Nat} (h : j + 1 = k) : parity j ≠ parity k := by
  unfold parity
  omega

theorem Inv.slot_step (inv : Inv ranks xs s) (hr : r < ranks) {passed : Bool} {eff : Effect}
    (m : Move ranks r passed (s.hosts r) h' (some eff)) (kind : Kind) (j : Nat) (hj : j < h'.records kind)
    (hj2 : h'.records kind ≤ j + 2) : ∃ m, eff.slots r s r kind (parity j) = some m ∧
      (s.streams r ++ [eff.work s])[m]? = some (.record kind j) := by
  rcases m.records with ⟨kind', heff, hnew, hother⟩ | ⟨hnone, hsame⟩
  · cases heff
    by_cases hk : kind = kind'
    · subst hk
      by_cases hlast : j = (s.hosts r).records kind
      · subst hlast
        exact ⟨(s.streams r).length, if_pos ⟨rfl, rfl, rfl⟩, by simp [Effect.work]⟩
      · obtain ⟨m, hslot, hrec⟩ := inv.slot r hr kind j (by omega) (by omega)
        refine ⟨m, (if_neg fun hp => ?_).trans hslot, getElem?_append_of_some hrec _⟩
        exact parity_ne_pred (by omega) hp.2.2
    · rw [hother kind hk] at hj hj2
      obtain ⟨m, hslot, hrec⟩ := inv.slot r hr kind j hj hj2
      exact ⟨m, (if_neg fun hp => hk hp.2.1).trans hslot, getElem?_append_of_some hrec _⟩
  · rw [hsame] at hj hj2
    obtain ⟨m, hslot, hrec⟩ := inv.slot r hr kind j hj hj2
    refine ⟨m, Eq.trans ?_ hslot, getElem?_append_of_some hrec _⟩
    cases eff with
    | record kind' slot k => exact absurd rfl (hnone kind' slot k)
    | _ => rfl

theorem slots_of_ne {eff : Effect} (hqr : q ≠ r) (kind : Kind) (p : Nat) : eff.slots r s q kind p = s.slots q kind p := by
  cases eff with
  | record kind' slot k => exact if_neg fun h => hqr h.1
  | _ => rfl

/-- **One host step keeps the ranks together.** -/
theorem Inv.step (inv : Inv ranks xs s) (hr : r < ranks) : Inv ranks xs (Exchange.step ranks r s) := by
  have m := advance_move ranks r (s.allArrived ranks r) (s.hosts r)
  unfold Exchange.step
  generalize advance ranks r (s.allArrived ranks r) (s.hosts r) = result at m
  obtain ⟨h', effect⟩ := result
  cases effect with
  | none =>
    obtain ⟨hhost, hlevel⟩ := (inv.host r hr).move_none m
    have hrec : h'.records = (s.hosts r).records := by
      rcases m.records with ⟨_, heff, -⟩ | ⟨-, hsame⟩
      · cases heff
      · exact hsame
    refine ⟨fun q hq => ?_, fun q hq => ?_, inv.barrier_step hr m, fun q hq kind j => ?_, inv.bound⟩
    · by_cases hqr : q = r
      · subst hqr
        simpa only [update_self] using hhost
      · simpa only [update_of_ne hqr] using inv.host q hq
    · by_cases hqr : q = r
      · subst hqr
        simpa only [update_self] using (inv.stream q hq).mono hlevel
      · simpa only [update_of_ne hqr] using inv.stream q hq
    · by_cases hqr : q = r
      · subst hqr
        simpa only [update_self, hrec] using inv.slot q hq kind j
      · simpa only [update_of_ne hqr] using inv.slot q hq kind j
  | some eff =>
    obtain ⟨hhost, hlow, hhigh, hbefore⟩ := (inv.host r hr).move_some m s
    have hgrow : ∀ (q i : Nat) (w : Work), (s.streams q)[i]? = some w →
        (update s.streams r (s.streams r ++ [eff.work s]) q)[i]? = some w := by
      intro q i w hw
      by_cases hqr : q = r
      · subst hqr
        rw [update_self]
        exact getElem?_append_of_some hw _
      · rwa [update_of_ne hqr]
    refine ⟨fun q hq => ?_, fun q hq => ?_, inv.barrier_step hr m, fun q hq kind j => ?_, fun q hq p kind k b hw => ?_⟩
    · by_cases hqr : q = r
      · subst hqr
        simpa only [update_self] using hhost
      · simpa only [update_of_ne hqr] using inv.host q hq
    · by_cases hqr : q = r
      · subst hqr
        simpa only [update_self] using (inv.stream q hq).append hlow hhigh hbefore
      · simpa only [update_of_ne hqr] using inv.stream q hq
    · by_cases hqr : q = r
      · subst hqr
        simpa only [update_self] using inv.slot_step hq m kind j
      · simpa only [update_of_ne hqr, slots_of_ne hqr] using inv.slot q hq kind j
    · have hbound : ∃ m, b = some m ∧ (s.streams p)[m]? = some (.record kind k) := by
        dsimp only at hw
        by_cases hqr : q = r
        · subst hqr
          rw [update_self] at hw
          rcases mem_append.1 hw with hw | hw
          · exact inv.bound q hq p kind k b hw
          have hnew := mem_singleton.1 hw
          cases eff with
          | wait p' kind' slot k' =>
            cases hnew
            exact inv.wait_bound hq (mem_peers.1 hbefore).1 m
          | _ => cases hnew
        · rw [update_of_ne hqr] at hw
          exact inv.bound q hq p kind k b hw
      obtain ⟨m, hb, hrec⟩ := hbound
      exact ⟨m, hb, hgrow p m _ hrec⟩

theorem inv_init {programs : Nat → List Call} (hsame : ∀ r < ranks, layouts (programs r) = xs)
    (hcontract : ∀ r < ranks, Contract false (programs r)) : Inv ranks xs (init programs) where
  host r hr := ⟨rfl, Nat.le_refl _, hsame r hr, hcontract r hr, fun _ he => absurd rfl he⟩
  stream r hr := ⟨.nil, nofun, nofun⟩
  barrier r hr q hq := Nat.le_refl _
  slot r hr kind j hj := by cases kind <;> exact absurd hj (Nat.not_lt_zero _)
  bound r hr q kind k b hw := by cases hw

theorem inv_run {schedule : List Nat} (hsched : ∀ r ∈ schedule, r < ranks) (inv : Inv ranks xs s) :
    Inv ranks xs (run ranks schedule s) := by
  induction schedule generalizing s with
  | nil => exact inv
  | cons r schedule ih =>
    exact ih (forall_mem_cons.1 hsched).2 (inv.step (hsched r mem_cons_self))

/-! ## The order of pulls and writes -/

theorem Waits.position {i k : Nat} (h : Waits (stream.take i) q kind k) :
    ∃ j < i, ∃ b, stream[j]? = some (.wait q kind k b) := by
  obtain ⟨b, hb⟩ := h
  obtain ⟨j, hj⟩ := mem_iff_getElem?.1 hb
  rw [getElem?_take] at hj
  split at hj
  · rename_i hlt
    exact ⟨j, hlt, b, hj⟩
  · cases hj

section times

variable {τ : Type} [Preorder τ] {start finish : Nat → Nat → τ}

/-- **Work before a peer's record is done before the work behind the wait for it.** -/
theorem Inv.ordered (inv : Inv ranks xs s) (ht : Respects s.streams Work.bound start finish) (hr : r < ranks)
    (hq : q < ranks) {i j k : Nat} {v w : Work} (hw : (s.streams r)[i]? = some w)
    (hwait : Waits ((s.streams r).take i) q kind k) (hv : (s.streams q)[j]? = some v)
    (hkey : v.key < (Work.record kind k).key) : finish q j ≤ start r i := by
  obtain ⟨i', hi', b, hop⟩ := hwait.position
  obtain ⟨m, rfl, hrec⟩ := inv.bound r hr q kind k b (mem_of_getElem? hop)
  have hjm : j < m := (inv.stream q hq).lt_of_key hv hrec hkey
  exact ht.through hjm (lt_of_getElem? hrec) hop rfl hi' (lt_of_getElem? hw)

/-- What an owner writes of the row before the exchange is written before the pull; what it writes after, after it. -/
theorem Inv.pull_ordered (inv : Inv ranks xs s) (ht : Respects s.streams Work.bound start finish) (hr : r < ranks)
    (hq : q < ranks) (hne : q ≠ r) {i j k row : Nat} {x : Layout} {w : Work}
    (hpull : (s.streams r)[i]? = some (.pull x k)) (hown : x.rowOwner row = some q) (hw : (s.streams q)[j]? = some w)
    (hwrites : w.writes ranks q row) :
    (w.epoch ≤ k → finish q j ≤ start r i) ∧ (k < w.epoch → finish r i ≤ start q j) := by
  obtain ⟨hx, hwaits⟩ := (inv.stream r hr).preceded i _ hpull
  have hready := hwaits q (mem_peers.2 ⟨hq, hne⟩)
  have hpeer : r ∈ peers ranks q := mem_peers.2 ⟨hr, hne.symm⟩
  have hbefore := (inv.stream q hq).preceded j w hw
  cases w with
  | write rows epoch =>
    refine ⟨fun hle => inv.ordered ht hr hq hpull hready hw ?_, fun hlt => ?_⟩
    · simp only [Work.key, Work.epoch] at hle ⊢
      omega
    cases epoch with
    | zero => exact absurd hlt (Nat.not_lt_zero k)
    | succ epoch =>
      refine inv.ordered ht hq hr hw (hbefore r hpeer) hpull ?_
      simp only [Work.key, Work.epoch] at hlt ⊢
      omega
  | pull x' k' =>
    obtain ⟨hx', hwaits'⟩ := hbefore
    have hkk : k' ≠ k := by
      rintro rfl
      cases hx.symm.trans hx'
      obtain ⟨_, owner, howner, hother, -⟩ := hwrites
      cases hown.symm.trans howner
      exact hother rfl
    refine ⟨fun hle => inv.ordered ht hr hq hpull hready hw ?_,
      fun hlt => inv.ordered ht hq hr hw (hwaits' r hpeer) hpull ?_⟩
    · simp only [Work.key, Work.epoch] at hle ⊢
      omega
    · simp only [Work.key, Work.epoch] at hlt ⊢
      omega
  | record kind k' | wait p kind k' b => cases hwrites

end times

theorem owner_mem {x : Layout} {row owner : Nat} (h : x.rowOwner row = some owner) : owner ∈ x.ownerTable := by
  unfold Layout.rowOwner Layout.tileOwner at h
  split at h
  · split at h
    · split at h
      · exact mem_of_getElem? h
      · cases h
    · cases h
  · cases h

/-- With a valid owner table the source slot is the owner's, also in the two-rank kernel. -/
theorem sourceSlot_eq {owner : Nat} (hr : rank < ranks) (ho : owner < ranks) (hne : owner ≠ rank) :
    sourceSlot ranks rank owner = owner := by
  unfold sourceSlot
  split
  · have hcases : rank = 0 ∧ owner = 1 ∨ rank = 1 ∧ owner = 0 := by omega
    rcases hcases with ⟨rfl, rfl⟩ | ⟨rfl, rfl⟩ <;> rfl
  · rfl

/-- **The expert-tile exchange has no cross-rank hazard.**  In every interleaving every wait is bound to the record of its
exchange by its peer; every pulled row comes from its owner's buffer after all the owner wrote before that exchange, and
before anything the owner writes to the row after it; and no pull writes a row its rank owns. -/
theorem exchange_no_hazard {programs : Nat → List Call}
    (hsame : ∀ r < ranks, layouts (programs r) = xs) (hcontract : ∀ r < ranks, Contract false (programs r))
    (howners : ∀ x ∈ xs, ∀ o ∈ x.ownerTable, o < ranks) {schedule : List Nat} (hsched : ∀ r ∈ schedule, r < ranks) :
    (∀ r < ranks, ∀ (q : Nat) (kind : Kind) (k : Nat) (b : Option Nat),
      .wait q kind k b ∈ (run ranks schedule (init programs)).streams r → q < ranks ∧ q ≠ r ∧
        ∃ m, b = some m ∧ ((run ranks schedule (init programs)).streams q)[m]? = some (.record kind k)) ∧
    (∀ (τ : Type) [Preorder τ] (start finish : Nat → Nat → τ),
      Respects (run ranks schedule (init programs)).streams Work.bound start finish →
      ∀ r < ranks, ∀ (i : Nat) (x : Layout) (k : Nat),
        ((run ranks schedule (init programs)).streams r)[i]? = some (.pull x k) →
        ∀ row o, pulls ranks r x row o → x.rowOwner row = some o ∧ o < ranks ∧ o ≠ r ∧
          ∀ (j : Nat) (w : Work), ((run ranks schedule (init programs)).streams o)[j]? = some w → w.writes ranks o row →
            (w.epoch ≤ k → finish o j ≤ start r i) ∧ (k < w.epoch → finish r i ≤ start o j)) ∧
    ∀ r < ranks, ∀ (x : Layout) (k : Nat), .pull x k ∈ (run ranks schedule (init programs)).streams r →
      xs[k]? = some x ∧ ∀ row, x.rowOwner row = some r → ¬ (Work.pull x k).writes ranks r row := by
  have inv := inv_run hsched (inv_init hsame hcontract)
  refine ⟨fun r hr q kind k b hw => ?_, fun τ _ start finish ht r hr i x k hpull row o hrow => ?_,
    fun r hr x k hpull => ?_⟩
  · obtain ⟨i, hi⟩ := mem_iff_getElem?.1 hw
    have hpeer : q ∈ peers ranks r := (inv.stream r hr).preceded i _ hi
    obtain ⟨hq, hne⟩ := mem_peers.1 hpeer
    exact ⟨hq, hne, inv.bound r hr q kind k b hw⟩
  · obtain ⟨owner, hown, hne, rfl⟩ := hrow
    have hx : xs[k]? = some x := ((inv.stream r hr).preceded i _ hpull).1
    have ho : owner < ranks := howners x (mem_of_getElem? hx) owner (owner_mem hown)
    rw [sourceSlot_eq hr ho hne]
    exact ⟨hown, ho, hne, fun j w hw hwrites => inv.pull_ordered ht hr ho hne hpull hown hw hwrites⟩
  · obtain ⟨i, hi⟩ := mem_iff_getElem?.1 hpull
    refine ⟨((inv.stream r hr).preceded i _ hi).1, fun row hown => ?_⟩
    rintro ⟨_, owner, howner, hother, -⟩
    cases hown.symm.trans howner
    exact hother rfl

/-- Two tiles, the first of an expert of rank 0 and the second of rank 1. -/
def twoTiles : Layout := ⟨[0, 1], [0, 1], 2⟩

/-- Each rank writes its tile, exchanges, and writes the tile again. -/
def twoRanks (r : Nat) : List Call := [.write [16 * r], .exchange twoTiles, .beforeDown, .write [16 * r]]

def inTurn : List Nat := (replicate 14 [0, 1]).flatten

theorem exchange_no_hazard_two_ranks : .pull twoTiles 0 ∈ (run 2 inTurn (init twoRanks)).streams 0 ∧
    .write [16] 1 ∈ (run 2 inTurn (init twoRanks)).streams 1 ∧ ∀ (τ : Type) [Preorder τ] (start finish : Nat → Nat → τ),
      Respects (run 2 inTurn (init twoRanks)).streams Work.bound start finish →
      ∀ i, ((run 2 inTurn (init twoRanks)).streams 0)[i]? = some (.pull twoTiles 0) →
        ∀ j, ((run 2 inTurn (init twoRanks)).streams 1)[j]? = some (.write [16] 1) → finish 0 i ≤ start 1 j := by
  refine ⟨by decide +kernel, by decide +kernel, fun τ _ start finish ht i hi j hj => ?_⟩
  have hsame : ∀ r < 2, layouts (twoRanks r) = [twoTiles] := fun r _ => rfl
  have hcontract : ∀ r < 2, Contract false (twoRanks r) := fun r _ => ⟨rfl, rfl, trivial⟩
  have howners : ∀ x ∈ [twoTiles], ∀ o ∈ x.ownerTable, o < 2 := by decide
  have hsched : ∀ r ∈ inTurn, r < 2 := by decide
  have h := exchange_no_hazard hsame hcontract howners hsched
  exact ((h.2.1 τ start finish ht 0 (by decide) i twoTiles 0 hi 16 1 ⟨1, rfl, by decide, rfl⟩).2.2.2 j _ hj
    (mem_singleton_self _)).2 Nat.zero_lt_one

end Hipfire.Exchange
