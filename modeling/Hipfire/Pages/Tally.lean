import Hipfire.Pages.Moves
/-!
# Tally — a pool against the references its users hold

`Tally n pool table cache inflight` says that the pool of `n` pages counts the given references and that every page is where
its counts put it.  Each function that moves one page keeps a tally, with the count of that page changed
(`tally_decTableRef` and so on); all of them are one change of one page (`Tally.change`).
-/
namespace Hipfire.Pages

open PagePool List Function

structure Tally (n : Nat) (pool : PagePool) (table cache inflight : Nat → Nat) : Prop where
  size : pool.nPages = n
  tables : ∀ p, (pool.pageMeta p).tableRefs = table p
  caches : ∀ p, (pool.pageMeta p).cacheRefs = cache p
  inflights : ∀ p, (pool.pageMeta p).inflightRefs = inflight p
  consistent : ∀ p, (pool.pageMeta p).Consistent
  outside : ∀ p, pool.nPages ≤ p → (pool.pageMeta p).state = .free
  free_iff : ∀ p, p ∈ pool.freePages ↔ p < pool.nPages ∧ (pool.pageMeta p).state = .free
  pending_iff : ∀ p, p ∈ pool.reclaimPending ↔ (pool.pageMeta p).state = .reclaimPending
  free_nodup : pool.freePages.Nodup
  pending_nodup : pool.reclaimPending.Nodup

variable {n : Nat} {pool : PagePool} {table cache inflight : Nat → Nat}

theorem tally_new (nPages k v : Nat) : Tally nPages (PagePool.new nPages k v) (fun _ => 0) (fun _ => 0) (fun _ => 0) where
  size := rfl
  tables _ := rfl
  caches _ := rfl
  inflights _ := rfl
  consistent _ := ⟨fun _ => ⟨rfl, rfl, rfl⟩, fun _ => ⟨rfl, rfl⟩, nofun, nofun⟩
  outside _ _ := rfl
  free_iff p := by simp [PagePool.new, PageMeta.fresh]
  pending_iff p := by simp [PagePool.new, PageMeta.fresh]
  free_nodup := nodup_range
  pending_nodup := nodup_nil

section tally

variable (h : Tally n pool table cache inflight)
include h

variable {p : Nat}

/-- **One page changes.**  What remains to be shown is that the lists follow its state. -/
theorem Tally.change (hp : p < pool.nPages) (m : PageMeta) (hm : m.Consistent) (free pending : List Nat)
    (hfree : ∀ q, q ∈ free ↔ if q = p then m.state = .free else q ∈ pool.freePages) (hfn : free.Nodup)
    (hpend : ∀ q, q ∈ pending ↔ if q = p then m.state = .reclaimPending else q ∈ pool.reclaimPending) (hpn : pending.Nodup) :
    Tally n { pool.setMeta p m with freePages := free, reclaimPending := pending } (update table p m.tableRefs)
      (update cache p m.cacheRefs) (update inflight p m.inflightRefs) := by
  have hmeta : ∀ q, (pool.setMeta p m).pageMeta q = if q = p then m else pool.pageMeta q := fun q => by
    simp [setMeta, update_apply]
  refine ⟨h.size, fun q => ?_, fun q => ?_, fun q => ?_, fun q => ?_, fun q hq => ?_, fun q => ?_, fun q => ?_, hfn, hpn⟩
  · show ((pool.setMeta p m).pageMeta q).tableRefs = _
    rw [hmeta, update_apply]
    split
    · rfl
    · exact h.tables q
  · show ((pool.setMeta p m).pageMeta q).cacheRefs = _
    rw [hmeta, update_apply]
    split
    · rfl
    · exact h.caches q
  · show ((pool.setMeta p m).pageMeta q).inflightRefs = _
    rw [hmeta, update_apply]
    split
    · rfl
    · exact h.inflights q
  · show ((pool.setMeta p m).pageMeta q).Consistent
    rw [hmeta]
    split
    · exact hm
    · exact h.consistent q
  · show ((pool.setMeta p m).pageMeta q).state = .free
    have hq : pool.nPages ≤ q := hq
    rw [hmeta, if_neg (by omega)]
    exact h.outside q hq
  · show q ∈ free ↔ q < pool.nPages ∧ ((pool.setMeta p m).pageMeta q).state = .free
    rw [hmeta, hfree]
    by_cases hqp : q = p
    · subst hqp; simp [hp]
    · simp [hqp, h.free_iff]
  · show q ∈ pending ↔ ((pool.setMeta p m).pageMeta q).state = .reclaimPending
    rw [hmeta, hpend]
    by_cases hqp : q = p
    · subst hqp; simp
    · simp [hqp, h.pending_iff]

theorem Tally.not_free (hp : (pool.pageMeta p).state ≠ .free) : p < pool.nPages ∧ p ∉ pool.freePages := by
  refine ⟨?_, fun hm => hp ((h.free_iff p).1 hm).2⟩
  rcases Nat.lt_or_ge p pool.nPages with hlt | hge
  · exact hlt
  · exact absurd (h.outside p hge) hp

theorem Tally.resident (hp : 0 < table p + cache p) : (pool.pageMeta p).state.resident = true := by
  rw [← h.tables, ← h.caches] at hp
  have hidle := (h.consistent p).idle
  have hwait := (h.consistent p).waiting
  cases hs : (pool.pageMeta p).state with
  | free => have := hidle hs; omega
  | reclaimPending => have := hwait hs; omega
  | priv | sealed | cacheOnly => rfl

end tally

theorem mem_kept {l : List Nat} {P : Prop} (h : P ↔ p ∈ l) (q : Nat) : q ∈ l ↔ if q = p then P else q ∈ l := by
  split
  · rename_i hq
    rw [h, hq]
  · rfl

theorem mem_entered {l l' : List Nat} {P : Prop} (h : P) (hmem : ∀ q, q ∈ l' ↔ q = p ∨ q ∈ l) (q : Nat) :
    q ∈ l' ↔ if q = p then P else q ∈ l := by
  rw [hmem]
  split
  · rename_i hq
    exact iff_of_true (.inl hq) h
  · rename_i hq
    exact or_iff_right hq

section moves

variable (h : Tally n pool table cache inflight)
include h

theorem Tally.set (hp : (pool.pageMeta p).state ≠ .free) {m : PageMeta} (hm : m.Consistent) (hf : m.state ≠ .free)
    (hw : m.state = .reclaimPending ↔ (pool.pageMeta p).state = .reclaimPending) :
    Tally n (pool.setMeta p m) (update table p m.tableRefs) (update cache p m.cacheRefs)
      (update inflight p m.inflightRefs) := by
  obtain ⟨hlt, hnf⟩ := h.not_free hp
  exact h.change hlt m hm _ _ (mem_kept (iff_of_false hf hnf)) h.free_nodup
    (mem_kept (hw.trans (h.pending_iff p).symm)) h.pending_nodup

/-- **A resident page moves.** -/
theorem Tally.placed (hp : (pool.pageMeta p).state.resident = true) {m : PageMeta} {pool' : PagePool}
    (hpl : Placed pool p m pool') (hm : m.Consistent) :
    Tally n pool' (update table p m.tableRefs) (update cache p m.cacheRefs)
      (update inflight p m.inflightRefs) := by
  obtain ⟨h1, h2⟩ := ne_free_of_resident hp
  obtain ⟨hlt, hnf⟩ := h.not_free h1
  have hnp : p ∉ pool.reclaimPending := fun hmem => h2 ((h.pending_iff p).1 hmem)
  cases hpl with
  | stay hs =>
    have hr : m.state.resident = true := hs.elim id fun he => he ▸ hp
    obtain ⟨h3, h4⟩ := ne_free_of_resident hr
    exact h.set h1 hm h3 (iff_of_false h4 h2)
  | free hs =>
    exact h.change hlt m hm _ _ (mem_entered hs fun _ => mem_cons) (nodup_cons.2 ⟨hnf, h.free_nodup⟩)
      (mem_kept (iff_of_false (by rw [hs]; nofun) hnp)) h.pending_nodup
  | queue hs =>
    exact h.change hlt m hm _ _ (mem_kept (iff_of_false (by rw [hs]; nofun) hnf)) h.free_nodup
      (mem_entered hs fun q => by rw [mem_append, mem_singleton, or_comm])
      (nodup_append.2 ⟨h.pending_nodup, pairwise_singleton _ _,
        fun a ha b hb hab => hnp (mem_singleton.1 hb ▸ hab ▸ ha)⟩)

/-- **A call on one page** is refused, or the pool counts what it moved. -/
theorem Tally.act {R : PageMeta → PageMeta → Prop} {stop go : Prop} {t c i : Nat} {r : PagePool × Except String Unit}
    (ha : Act R pool p stop go (t, c, i) r) (hgo : go → (pool.pageMeta p).state.resident = true)
    (hR : ∀ m, R (pool.pageMeta p) m → m.Consistent) :
    (∃ e, r = (pool, .error e) ∧ stop) ∨ ∃ pool', r = (pool', .ok ()) ∧
      Tally n pool' (update table p t) (update cache p c) (update inflight p i) := by
  rcases ha with he | ⟨hg, m, pool', hok, hm, hrefs, hpl⟩
  · exact .inl he
  · cases hrefs
    exact .inr ⟨pool', hok, h.placed (hgo hg) hpl (hR m hm)⟩

end moves

/-! ## The functions that move one page -/

theorem update_eq {f : Nat → Nat} {x : Nat} (hx : x = f p) : update f p x = f := by
  rw [hx, update_eq_self]

theorem Tally.congr {table' cache' inflight' : Nat → Nat}
    (h : Tally n pool table cache inflight) (ht : table = table') (hc : cache = cache') (hi : inflight = inflight') :
    Tally n pool table' cache' inflight' := ht ▸ hc ▸ hi ▸ h

section functions

variable (h : Tally n pool table cache inflight)
include h

theorem Tally.outside_zero (hp : ¬ p < pool.nPages) : table p = 0 ∧ cache p = 0 ∧ inflight p = 0 := by
  rw [← h.tables, ← h.caches, ← h.inflights]
  exact (h.consistent p).idle (h.outside p (Nat.le_of_not_lt hp))

/-- **Dropping a table reference that is held.** -/
theorem tally_decTableRef (hp : 0 < table p) : ∃ pool', pool.decTableRef p = (pool', .ok ()) ∧
    Tally n pool' (update table p (table p - 1)) cache inflight := by
  have hact := h.act (act_decTableRef False pool p) (fun _ => h.resident (by omega))
    fun m hm => hm.consistent (h.consistent p)
  simp only [h.tables, h.caches, h.inflights, update_eq_self] at hact
  refine hact.resolve_left fun ⟨_, _, hz⟩ => ?_
  by_cases hlt : p < pool.nPages
  · exact absurd (hz hlt) (Nat.ne_of_gt hp)
  · exact absurd (h.outside_zero hlt).1 (Nat.ne_of_gt hp)

/-- **Giving a reserved page back**, if nobody else refers to it. -/
theorem tally_releaseReserved (ha : (pool.pageMeta p).Alone) :
    Tally n (pool.releaseReserved p) (update table p 0) cache inflight := by
  have hres := h.resident (p := p) (by rw [← h.tables, ha.1]; omega)
  have hm := (Sink.giveBack ha : Sink False _ _).consistent (h.consistent p)
  exact (h.placed hres (.free rfl) hm).congr rfl (update_eq (h.caches p)) (update_eq (h.inflights p))

/-- **Taking a free page**: nobody refers to it before. -/
theorem tally_takePage {pool' : PagePool} (ht : pool.takePage = some (pool', p)) :
    table p = 0 ∧ cache p = 0 ∧ inflight p = 0 ∧ pool.freePages = p :: pool'.freePages ∧
      Tally n pool' (update table p 1) cache inflight := by
  unfold takePage at ht
  split at ht
  · cases ht
  rename_i page rest hf
  obtain ⟨rfl, rfl⟩ := Prod.mk.inj (Option.some.inj ht)
  have hmem : page ∈ pool.freePages := by rw [hf]; exact mem_cons_self
  obtain ⟨hlt, hstate⟩ := (h.free_iff page).1 hmem
  obtain ⟨h1, h2, h3⟩ := (h.consistent page).idle hstate
  have hnd := h.free_nodup
  rw [hf, nodup_cons] at hnd
  have hnp : page ∉ pool.reclaimPending := fun hm => by rw [(h.pending_iff page).1 hm] at hstate; cases hstate
  refine ⟨(h.tables page).symm.trans h1, (h.caches page).symm.trans h2, (h.inflights page).symm.trans h3, hf, ?_⟩
  have hm := (Grow.take hstate : Grow False _ _).consistent (h.consistent page)
  refine (h.change hlt _ hm rest pool.reclaimPending (fun q => ?_) hnd.2 (mem_kept (iff_of_false nofun hnp))
    h.pending_nodup).congr rfl
    (update_eq (h.caches page)) (update_eq (h.inflights page))
  by_cases hq : q = page
  · subst hq; simp [hnd.1]
  · simp [hq, hf]

/-- **One more table reference**, or a refusal that changes nothing. -/
theorem tally_refcountInc (p : Nat) : (∃ e, pool.refcountInc p = (pool, .error e)) ∨
    ∃ pool', pool.refcountInc p = (pool', .ok ()) ∧
      Tally n pool' (update table p (table p + 1)) cache inflight := by
  simpa [h.tables, h.caches, h.inflights] using
    h.act (act_refcountInc pool p) id fun m hm => hm.consistent (h.consistent p)

theorem tally_share {refs : Nat} (hp : 0 < table p) (hrefs : checkedInc (pool.pageMeta p).tableRefs = some refs) :
    Tally n (pool.setMeta p { pool.pageMeta p with tableRefs := refs, state := .sealed })
      (update table p (table p + 1)) cache inflight := by
  obtain ⟨-, rfl⟩ := checkedInc_eq_some.1 hrefs
  have hm := (Grow.share ((h.tables p).symm ▸ hp) : Grow False _ _).consistent (h.consistent p)
  exact (h.placed (h.resident (by omega)) (.stay (.inl rfl)) hm).congr (congrArg _ (congrArg (· + 1) (h.tables p)))
    (update_eq (h.caches p)) (update_eq (h.inflights p))

theorem tally_sealPage (p : Nat) : (∃ e, pool.sealPage p = (pool, .error e)) ∨
    ((pool.sealPage p).2 = .ok () ∧ Tally n (pool.sealPage p).1 table cache inflight) := by
  unfold sealPage
  split
  · exact .inl ⟨_, rfl⟩
  simp only
  split
  · rename_i hs
    have hm := (Grow.close hs : Grow False _ _).consistent (h.consistent p)
    exact .inr ⟨rfl, (h.placed (by rw [hs]; rfl) (.stay (.inl rfl)) hm).congr (update_eq (h.tables p))
      (update_eq (h.caches p)) (update_eq (h.inflights p))⟩
  · exact .inr ⟨rfl, h⟩
  · exact .inl ⟨_, rfl⟩

/-- **One more in-flight lease**, or a refusal that changes nothing. -/
theorem tally_addInflightRef (p : Nat) : (∃ e, pool.addInflightRef p = (pool, .error e)) ∨
    ∃ pool', pool.addInflightRef p = (pool', .ok ()) ∧
      Tally n pool' table cache (update inflight p (inflight p + 1)) := by
  simpa [h.tables, h.caches, h.inflights] using
    h.act (act_addInflightRef False pool p) id fun m hm => hm.consistent (h.consistent p)

/-- **One more cache lease**, or a refusal that changes nothing. -/
theorem tally_addCacheRef (p : Nat) : (∃ e, pool.addCacheRef p = (pool, .error e)) ∨
    ∃ pool', pool.addCacheRef p = (pool', .ok ()) ∧
      Tally n pool' table (update cache p (cache p + 1)) inflight := by
  simpa [h.tables, h.caches, h.inflights] using
    h.act (act_addCacheRef False pool p) id fun m hm => hm.consistent (h.consistent p)

/-- **Releasing a cache lease**, which is refused where none is held. -/
theorem tally_releaseCacheRef (p : Nat) : (∃ e, pool.releaseCacheRef p = (pool, .error e) ∧ cache p = 0) ∨
    ∃ pool', pool.releaseCacheRef p = (pool', .ok ()) ∧
      Tally n pool' table (update cache p (cache p - 1)) inflight := by
  have hact := h.act (act_releaseCacheRef False pool p) (fun hc => h.resident (by rw [h.caches] at hc; omega))
    fun m hm => hm.consistent (h.consistent p)
  simp only [h.tables, h.caches, h.inflights, update_eq_self] at hact
  refine hact.imp_left fun ⟨e, he, hz⟩ => ⟨e, he, ?_⟩
  by_cases hlt : p < pool.nPages
  · exact hz hlt
  · exact (h.outside_zero hlt).2.1

/-- **Releasing an in-flight lease**: the page stays where it is. -/
theorem tally_releaseInflightRef (p : Nat) : (∃ e, pool.releaseInflightRef p = (pool, .error e) ∧ inflight p = 0) ∨
    ∃ pool', pool.releaseInflightRef p = (pool', .ok ()) ∧
      Tally n pool' table cache (update inflight p (inflight p - 1)) := by
  rcases releaseInflightRef_cases pool p with ⟨e, he, hz⟩ | ⟨hpos, hok⟩
  · refine .inl ⟨e, he, ?_⟩
    by_cases hlt : p < pool.nPages
    · exact (h.inflights p).symm.trans (hz hlt)
    · exact (h.outside_zero hlt).2.2
  · have hnf : (pool.pageMeta p).state ≠ .free := fun hs => by
      have := (h.consistent p).idle hs
      omega
    have hm := (Sink.unlease hpos : Sink False _ _).consistent (h.consistent p)
    refine .inr ⟨_, hok, (h.set hnf hm hnf Iff.rfl).congr (update_eq (h.tables p)) (update_eq (h.caches p)) ?_⟩
    rw [h.inflights]

end functions

/-! ## Draining -/

theorem Tally.perm {queue queue' : List Nat}
    (h : Tally n { pool with reclaimPending := queue } table cache inflight) (hperm : queue.Perm queue') :
    Tally n { pool with reclaimPending := queue' } table cache inflight where
  size := h.size
  tables := h.tables
  caches := h.caches
  inflights := h.inflights
  consistent := h.consistent
  outside := h.outside
  free_iff := h.free_iff
  pending_iff q := hperm.mem_iff.symm.trans (h.pending_iff q)
  free_nodup := h.free_nodup
  pending_nodup := hperm.nodup_iff.1 h.pending_nodup

theorem Tally.drainOne {phys : Nat} {queue : List Nat}
    (h : Tally n { pool with reclaimPending := phys :: queue } table cache inflight)
    (hm : (pool.pageMeta phys).inflightRefs = 0 ∧ (pool.pageMeta phys).tableRefs = 0 ∧ (pool.pageMeta phys).cacheRefs = 0) :
    Tally n { pool.free phys (pool.pageMeta phys) with reclaimPending := queue } table cache inflight := by
  have hs : (pool.pageMeta phys).state = .reclaimPending := (h.pending_iff phys).1 mem_cons_self
  obtain ⟨hlt, hnf⟩ := h.not_free (p := phys) (by simp only; rw [hs]; nofun)
  obtain ⟨hni, hnd⟩ := nodup_cons.1 h.pending_nodup
  refine (h.change hlt { pool.pageMeta phys with
      state := .free, generation := wrappingInc (pool.pageMeta phys).generation }
    ⟨fun _ => ⟨hm.2.1, hm.2.2, hm.1⟩, nofun, nofun, nofun⟩ (phys :: pool.freePages) queue
    (mem_entered rfl fun _ => mem_cons) (nodup_cons.2 ⟨hnf, h.free_nodup⟩) (fun q => ?_) hnd).congr
    (update_eq (h.tables phys)) (update_eq (h.caches phys)) (update_eq (h.inflights phys))
  by_cases hq : q = phys
  · subst hq; simp [hni]
  · simp [hq]

theorem tally_drainLoop {n : Nat} {table cache inflight : Nat → Nat} : ∀ (queue : List Nat) (pool : PagePool) (kept : List Nat),
    Tally n { pool with reclaimPending := queue ++ kept } table cache inflight →
    Tally n { (drainLoop queue pool).1 with reclaimPending := (drainLoop queue pool).2.2 ++ kept }
      table cache inflight
  | [], _, _, h => h
  | phys :: queue, pool, kept, h => by
    unfold drainLoop
    by_cases hm : (pool.pageMeta phys).inflightRefs = 0 ∧ (pool.pageMeta phys).tableRefs = 0 ∧
        (pool.pageMeta phys).cacheRefs = 0
    · rw [if_pos hm]
      exact tally_drainLoop queue _ kept (h.drainOne hm)
    · rw [if_neg hm]
      -- the page is kept: it moves behind the pages still to be looked at
      have hmoved := tally_drainLoop queue pool (phys :: kept) (h.perm perm_middle.symm)
      exact hmoved.perm perm_middle

/-- **Draining changes no reference.** -/
theorem tally_drainCompleted (h : Tally n pool table cache inflight) : Tally n pool.drainCompleted.1 table cache inflight := by
  have hdrain := tally_drainLoop pool.reclaimPending pool [] (by rw [append_nil]; exact h)
  rw [append_nil] at hdrain
  exact hdrain

end Hipfire.Pages
