import Hipfire.Pages.Life
/-!
# Reclaim — leases, states and the pages that plans give back

A plan's reserved pages are ordinary private pages: they can be attached, cached and leased while the plan is pending.  An
abort and a refused commit free them without looking at any count.  As long as a plan that is given back holds its pages
alone, the counts are those of the users (`Counted`), no leased page is on the free list (`leased_never_free`), and a page of
the cache alone is known by its state, until it is mapped again (`cacheOnly_tracks`).
-/
namespace Hipfire.Pages

open World PagePool List

variable {n k : Nat}

/-! ## What a call gives back -/

/-- The reserved pages that a call frees: those of a plan that is aborted, or whose commit is refused. -/
def World.givesBack (w : World k) : PoolOp k → List Nat
  | .abortCow i => ((w.plans[i]?).map CowPlan.reserved).getD []
  | .commitCow t i =>
    match w.plans[i]? with
    | none => []
    | some plan =>
      match firstError (w.pool.checkCopy (w.tables t)) plan.copies with
      | .error _ => plan.reserved
      | .ok () => []
  | _ => []

/-- Nobody else refers to the pages given back. -/
def World.ReturnsAlone (w : World k) (op : PoolOp k) : Prop := ∀ p ∈ w.givesBack op, (w.pool.pageMeta p).Alone

instance (w : World k) (op : PoolOp k) : Decidable (w.ReturnsAlone op) := by
  unfold World.ReturnsAlone
  infer_instance

variable {plan : CowPlan} {op : PoolOp k} {fence : Prop} {i : Nat} {w : World k}

theorem World.ReturnsAlone.abort (h : w.ReturnsAlone (.abortCow i))
    (hi : w.plans[i]? = some plan) : ∀ p ∈ plan.reserved, (w.pool.pageMeta p).Alone := by
  simp only [ReturnsAlone, givesBack, hi] at h
  exact h

theorem World.ReturnsAlone.commit {t : Fin k} {e : String}
    (h : w.ReturnsAlone (.commitCow t i)) (hi : w.plans[i]? = some plan)
    (hcheck : firstError (w.pool.checkCopy (w.tables t)) plan.copies = .error e) :
    ∀ p ∈ plan.reserved, (w.pool.pageMeta p).Alone := by
  simp only [ReturnsAlone, givesBack, hi, hcheck] at h
  exact h

/-- A page that only the cache owned is mapped again. -/
def World.MapsAgain (w : World k) : PoolOp k → Prop
  | .attach _ phys => (w.pool.pageMeta phys).state = .cacheOnly
  | _ => False

instance (w : World k) : (op : PoolOp k) → Decidable (w.MapsAgain op)
  | .attach _ phys => inferInstanceAs (Decidable ((w.pool.pageMeta phys).state = .cacheOnly))
  | .allocPages .. | .allocPagesChecked .. | .ensureCapacity .. | .sharePrefix .. | .freePagesFromTail .. | .releaseTable ..
  | .sealPage .. | .planCow .. | .commitCow .. | .abortCow .. | .addCacheRef .. | .releaseCacheRef .. | .addInflightRef ..
  | .releaseInflightRef .. | .drainCompleted => inferInstanceAs (Decidable False)

/-! ## The counts -/

section steps

variable {w : World k} (h : Counted n w)
include h

theorem Counted.alone (hi : w.plans[i]? = some plan)
    (ha : ∀ p ∈ plan.reserved, (w.pool.pageMeta p).Alone) : plan.reserved.Nodup ∧
    ∀ p ∈ plan.reserved, w.mapped p + w.reserved p = 1 ∧ w.cacheLeases p = 0 ∧ w.inflightLeases p = 0 := by
  have hone : ∀ p ∈ plan.reserved, w.mapped p + w.reserved p = 1 := fun p hp => (h.tally.tables p).symm.trans (ha p hp).1
  refine ⟨nodup_iff_count_le_one.2 fun p => ?_, fun p hp => ⟨hone p hp, ?_, ?_⟩⟩
  · by_cases hp : p ∈ plan.reserved
    · have h1 := hone p hp
      have h2 := reserved_eraseIdx hi p
      unfold reserved at h1
      omega
    · rw [count_eq_zero.2 hp]
      exact Nat.zero_le 1
  · exact (h.tally.caches p).symm.trans (ha p hp).2.1
  · exact (h.tally.inflights p).symm.trans (ha p hp).2.2

theorem Counted.giveBack_alone (hi : w.plans[i]? = some plan) (ha : ∀ p ∈ plan.reserved, (w.pool.pageMeta p).Alone) :
    Counted n { w with pool := releaseAll plan.reserved w.pool, plans := w.plans.eraseIdx i } := by
  obtain ⟨hnd, halone⟩ := h.alone hi ha
  exact h.giveBack hi hnd halone

/-! ## Every call keeps the counts -/

theorem counted_sharePrefix (src dst : Fin k) (m : Nat) : Counted n (w.step (.sharePrefix src dst m)).1 := by
  have hsame : Counted n (w.setTable dst w.pool (w.tables dst)) := by
    rw [setTable_self]
    exact h
  simp only [step, sharePrefix]
  split
  · exact hsame
  split
  · exact hsame
  split
  · exact hsame
  obtain ⟨done, hpages, htally, -⟩ := tally_shareLoop ((w.tables src).pages.take m) w.pool (w.tables dst) _ h.tally
    (fun p hp => Nat.lt_of_lt_of_le (mapped_pos_of_mem (mem_of_mem_take hp)) (Nat.le_add_right ..))
  exact h.append dst done htally (by rw [hpages])

theorem counted_attach (t : Fin k) (phys : Nat) : Counted n (w.step (.attach t phys)).1 := by
  rcases attach_outcomes h t phys with ⟨e, he⟩ | ⟨pool, hok, htally⟩
  · rw [he]
    exact h
  · rw [hok]
    exact h.append t [phys] htally rfl

theorem counted_freePagesFromTail (t : Fin k) (m : Nat) : Counted n (w.step (.freePagesFromTail t m)).1 := by
  simp only [step, freePagesFromTail]
  split
  · rw [setTable_self]
    exact h
  · refine (h.drop t ((w.tables t).truncate ((w.tables t).pages.length - m)) _ fun p => ?_).2
    rw [BlockTable.truncate, ← count_append, take_append_drop]

theorem counted_releaseTable (t : Fin k) : Counted n (w.step (.releaseTable t)).1 := by
  obtain ⟨hok, hc⟩ := h.drop t .new (w.tables t).pages (fun p => by simp [BlockTable.new])
  simp only [step, releaseTable, decEach_eq _ _ hok]
  exact hc

theorem counted_planCow (t : Fin k) (s e : Nat) : Counted n (w.step (.planCow t s e)).1 := by
  rcases planCow_outcomes h t s e with ⟨pool, msg, herr, htally⟩ | ⟨pool, plan, hok, hdist, -, -, -, htally⟩
  · simp only [step, herr]
    exact ⟨htally, h.distinct⟩
  · simp only [step, hok]
    exact h.addPlan hdist htally

theorem counted_commit (t : Fin k) (i : Nat) (ha : w.ReturnsAlone (.commitCow t i)) :
    Counted n (w.step (.commitCow t i)).1 := by
  cases hi : w.plans[i]? with
  | none =>
    simp only [step, hi]
    exact h
  | some plan =>
    cases hcheck : firstError (w.pool.checkCopy (w.tables t)) plan.copies with
    | error e =>
      rw [step_commitCow_refused t hi hcheck]
      exact h.giveBack_alone hi (ha.commit hi hcheck)
    | ok u => exact counted_commitCow h t hi hcheck

theorem counted_abortCow (i : Nat) (ha : w.ReturnsAlone (.abortCow i)) : Counted n (w.step (.abortCow i)).1 := by
  simp only [step]
  cases hi : w.plans[i]? with
  | none => exact h
  | some plan => exact h.giveBack_alone hi (ha.abort hi)

theorem counted_sealPage (phys : Nat) : Counted n (w.step (.sealPage phys)).1 := by
  rcases sealPage_outcomes h phys with ⟨e, he⟩ | ⟨pool, hok, htally⟩
  · rw [he]
    exact h
  · rw [hok]
    exact ⟨htally, h.distinct⟩

theorem counted_leased {phys : Nat}
    (ho : (∃ e, w.step op = (w, .error e)) ∨ ∃ w', w.step op = (w', .ok ()) ∧ Leased n w phys w') :
    Counted n (w.step op).1 := by
  rcases ho with ⟨e, he⟩ | ⟨w', hok, hl⟩
  · rw [he]
    exact h
  · rw [hok]
    exact hl.counted

theorem counted_ensureCapacity (t : Fin k) (m : Nat) : Counted n (w.step (.ensureCapacity t m)).1 := by
  simp only [step, ensureCapacity]
  split
  · exact h.setTable t h.tally fun p => rfl
  · split
    · simp only [setTable_self]
      exact h
    · exact counted_alloc h t _ _

theorem counted_allocPagesChecked (t : Fin k) (m : Nat) : Counted n (w.step (.allocPagesChecked t m)).1 := by
  simp only [step, allocPagesChecked]
  split
  · simp only [setTable_self]
    exact h
  · exact counted_alloc h t _ _

/-- **A call keeps the counts, if what it gives back was held alone.** -/
theorem counted_step (ha : w.ReturnsAlone op) : Counted n (w.step op).1 := by
  cases op with
  | allocPages t m => exact counted_alloc h t _ _
  | allocPagesChecked t m => exact counted_allocPagesChecked h t m
  | ensureCapacity t m => exact counted_ensureCapacity h t m
  | sharePrefix src dst m => exact counted_sharePrefix h src dst m
  | attach t phys => exact counted_attach h t phys
  | freePagesFromTail t m => exact counted_freePagesFromTail h t m
  | releaseTable t => exact counted_releaseTable h t
  | sealPage phys => exact counted_sealPage h phys
  | planCow t s e => exact counted_planCow h t s e
  | commitCow t i => exact counted_commit h t i ha
  | abortCow i => exact counted_abortCow h i ha
  | addCacheRef phys => exact counted_leased h (addCacheRef_outcomes h phys)
  | releaseCacheRef phys => exact counted_leased h ((releaseCacheRef_outcomes h phys).imp_left And.right)
  | addInflightRef phys => exact counted_leased h (addInflightRef_outcomes h phys)
  | releaseInflightRef phys => exact counted_leased h ((releaseInflightRef_outcomes h phys).imp_left And.right)
  | drainCompleted => exact ⟨tally_drainCompleted h.tally, h.distinct⟩

end steps

/-! ## Every call moves the pages along their life -/

variable (w : World k)

theorem pool_step_attach (t : Fin k) (phys : Nat) : (w.step (.attach t phys)).1.pool = (w.pool.refcountInc phys).1 := by
  simp only [step]
  split
  · rename_i hr
    rw [hr]
  · rename_i hr
    rw [hr]
    rfl

theorem pool_step_addCacheRef (phys : Nat) : (w.step (.addCacheRef phys)).1.pool = (w.pool.addCacheRef phys).1 := by
  simp only [step]
  split <;> (rename_i hr; rw [hr])

theorem pool_step_releaseCacheRef (phys : Nat) :
    (w.step (.releaseCacheRef phys)).1.pool = (w.pool.releaseCacheRef phys).1 := by
  simp only [step]
  split <;> (rename_i hr; rw [hr])

theorem pool_step_addInflightRef (phys : Nat) :
    (w.step (.addInflightRef phys)).1.pool = (w.pool.addInflightRef phys).1 := by
  simp only [step]
  split <;> (rename_i hr; rw [hr])

theorem pool_step_releaseInflightRef (phys : Nat) :
    (w.step (.releaseInflightRef phys)).1.pool = (w.pool.releaseInflightRef phys).1 := by
  simp only [step]
  split <;> (rename_i hr; rw [hr])

section moves

variable {w : World k} (h : Counted n w)
include h

variable {again : Prop}

theorem lives_planCow (t : Fin k) (s e p : Nat) :
    Lives again fence (w.pool.pageMeta p) ((w.step (.planCow t s e)).1.pool.pageMeta p) := by
  simp only [step, planCow]
  by_cases h1 : e < s
  · simp only [if_pos h1]
    exact (Grows.refl _ w.pool).lives p
  by_cases h2 : e = s
  · simp only [if_neg h1, if_pos h2]
    exact (Grows.refl _ w.pool).lives p
  simp only [if_neg h1, if_neg h2]
  have hlives : ∃ mid, Grows again w.pool mid ∧
      Sinks fence mid (planLoop (w.tables t) s (touchedPages s e) [] w.pool).1 :=
    lives_planLoop (w.tables t) s (touchedPages s e) [] w.pool _ h.tally nodup_nil (forall_mem_nil _)
  obtain ⟨mid, hgrow, hsink⟩ := hlives
  rcases hl : planLoop (w.tables t) s (touchedPages s e) [] w.pool with ⟨pool, msg | copies⟩
  · rw [hl] at hsink
    exact ⟨_, hgrow p, hsink p⟩
  · rw [hl] at hsink
    exact ⟨_, hgrow p, hsink p⟩

theorem sinks_commitCow (t : Fin k) (i : Nat) (ha : w.ReturnsAlone (.commitCow t i)) :
    Sinks fence w.pool (w.step (.commitCow t i)).1.pool := by
  simp only [step]
  cases hi : w.plans[i]? with
  | none => exact .refl _ w.pool
  | some plan =>
    simp only [commitCow]
    cases hcheck : firstError (w.pool.checkCopy (w.tables t)) plan.copies with
    | error e =>
      have halone := ha.commit hi hcheck
      exact sinks_releaseAll _ w.pool (h.alone hi halone).1 halone
    | ok u => exact sinks_commitLoop plan.copies w.pool (w.tables t)

theorem sinks_abortCow (i : Nat) (ha : w.ReturnsAlone (.abortCow i)) :
    Sinks fence w.pool (w.step (.abortCow i)).1.pool := by
  simp only [step]
  cases hi : w.plans[i]? with
  | none => exact .refl _ w.pool
  | some plan => exact sinks_releaseAll _ w.pool (h.alone hi (ha.abort hi)).1 (ha.abort hi)

theorem grows_sharePrefix (src dst : Fin k) (m : Nat) :
    Grows again w.pool (w.step (.sharePrefix src dst m)).1.pool := by
  simp only [step, sharePrefix]
  split
  · exact .refl _ w.pool
  split
  · exact .refl _ w.pool
  split
  · exact .refl _ w.pool
  refine grows_shareLoop _ w.pool (w.tables dst) fun q hq => ?_
  rw [h.tally.tables]
  exact Nat.lt_of_lt_of_le (mapped_pos_of_mem (mem_of_mem_take hq)) (Nat.le_add_right ..)

/-- **A call lets every page grow and then sink.**  Only an attachment maps a page of the cache again, and only a drain frees
queued pages. -/
theorem step_moves (ha : w.ReturnsAlone op) (p : Nat) :
    Lives (w.MapsAgain op) (op = .drainCompleted) (w.pool.pageMeta p) ((w.step op).1.pool.pageMeta p) := by
  cases op with
  | allocPages t m => exact (grows_allocLoop _ w.pool (w.tables t) _ h.tally).lives p
  | allocPagesChecked t m =>
    simp only [step, allocPagesChecked]
    split
    · exact (Grows.refl _ w.pool).lives p
    · exact (grows_allocLoop _ w.pool (w.tables t) _ h.tally).lives p
  | ensureCapacity t m =>
    simp only [step, ensureCapacity]
    split
    · exact (Grows.refl _ w.pool).lives p
    · split
      · exact (Grows.refl _ w.pool).lives p
      · exact (grows_allocLoop _ w.pool (w.tables t) _ h.tally).lives p
  | sharePrefix src dst m => exact (grows_sharePrefix h src dst m).lives p
  | attach t phys =>
    rw [pool_step_attach]
    exact Grows.lives (act_refcountInc w.pool phys).moved p
  | freePagesFromTail t m =>
    simp only [step, freePagesFromTail]
    split
    · exact (Grows.refl _ w.pool).lives p
    · exact (sinks_decAll _ w.pool).lives p
  | releaseTable t => exact (sinks_decEach _ w.pool).lives p
  | sealPage phys => exact (grows_sealPage w.pool phys).lives p
  | planCow t s e => exact lives_planCow h t s e p
  | commitCow t i => exact (sinks_commitCow h t i ha).lives p
  | abortCow i => exact (sinks_abortCow h i ha).lives p
  | addCacheRef phys =>
    rw [pool_step_addCacheRef]
    exact Grows.lives (act_addCacheRef _ w.pool phys).moved p
  | releaseCacheRef phys =>
    rw [pool_step_releaseCacheRef]
    exact Sinks.lives (act_releaseCacheRef _ w.pool phys).moved p
  | addInflightRef phys =>
    rw [pool_step_addInflightRef]
    exact Grows.lives (act_addInflightRef _ w.pool phys).moved p
  | releaseInflightRef phys =>
    rw [pool_step_releaseInflightRef]
    exact (sinks_releaseInflightRef w.pool phys).lives p
  | drainCompleted =>
    have hfence : ((PoolOp.drainCompleted : PoolOp k) = .drainCompleted) = True := eq_self _
    rw [hfence]
    exact (sinks_drainLoop w.pool.reclaimPending w.pool).lives p

end moves

/-! ## Leases -/

/-- The pages that a call takes from the free list for its caller. -/
def World.handsOut (w : World k) : PoolOp k → List Nat
  | .allocPages t m => ((w.pool.allocPages (w.tables t) m).2.1.pages).drop (w.tables t).pages.length
  | .allocPagesChecked t m => ((w.pool.allocPagesChecked (w.tables t) m).2.1.pages).drop (w.tables t).pages.length
  | .ensureCapacity t m => ((w.pool.ensureCapacity (w.tables t) m).2.1.pages).drop (w.tables t).pages.length
  | .planCow t s e =>
    match (w.pool.planCow (w.tables t) s e).2 with
    | .ok plan => plan.reserved
    | .error _ => []
  | _ => []

variable {m m' : PageMeta}

/-- A queued page that no fence passes stays queued. -/
theorem Lives.pending (h : Lives again False m m') (hm : m.Consistent)
    (hs : m.state = .reclaimPending) : m'.state = .reclaimPending := by
  refine (Lives.keeps (P := fun m => m.state = .reclaimPending) (fun a b hab ha hp => ?_) (fun a b hab ha hp => ?_) h hm hs).2
  · -- nothing gains an owner
    obtain ⟨ht, -⟩ := ha.waiting hp
    cases hab with
    | take hf =>
      cases hp.symm.trans hf
    | share h0 => omega
    | close hpriv =>
      cases hp.symm.trans hpriv
    | attach hr _ | lease hr | cache hr =>
      rw [hp] at hr
      cases hr
  · obtain ⟨ht, hc⟩ := ha.waiting hp
    cases hab with
    | giveBack h0 => exact absurd (ht.symm.trans h0.1) (by decide)
    | dropLeased h0 _ | uncacheLeased h0 _ => rfl
    | drop h0 | dropCached h0 _ | uncache h0 _ | evict h0 _ _ => omega
    | unlease _ => exact hp
    | drain hf _ => exact hf.elim

theorem counted_run : ∀ (ops : List (PoolOp k)) {w : World k}, Counted n w → RunOf ReturnsAlone w ops → Counted n (w.run ops)
  | [], _, h, _ => h
  | _ :: ops, _, h, hrun => counted_run ops (counted_step h hrun.1) hrun.2

section leases

variable {w : World k} (h : Counted n w)
include h

theorem alloc_unleased (t : Fin k) (m : Nat) :
    ∀ p ∈ (allocLoop m w.pool (w.tables t)).2.1.pages.drop (w.tables t).pages.length, w.inflightLeases p = 0 := by
  obtain ⟨ps, hpages, -, hfresh, -⟩ := tally_allocLoop m w.pool (w.tables t) _ h.tally
  rw [hpages]
  rw [drop_left]
  exact fun p hp => (hfresh p hp).2.2

/-- **What a call hands out is not leased.** -/
theorem Counted.handsOut (op : PoolOp k) : ∀ p ∈ w.handsOut op, w.inflightLeases p = 0 := by
  cases op with
  | allocPages t m => exact alloc_unleased h t _
  | allocPagesChecked t m =>
    simp only [World.handsOut, allocPagesChecked]
    split
    · rw [drop_length]
      exact forall_mem_nil _
    · exact alloc_unleased h t m
  | ensureCapacity t m =>
    simp only [World.handsOut, ensureCapacity]
    split
    · rw [drop_length]
      exact forall_mem_nil _
    · split
      · rw [drop_length]
        exact forall_mem_nil _
      · exact alloc_unleased h t _
  | planCow t s e =>
    rcases planCow_outcomes h t s e with ⟨_, _, herr, -⟩ | ⟨_, plan, hok, -, -, -, hfresh, -⟩
    · simp only [World.handsOut, herr]
      exact forall_mem_nil _
    · simp only [World.handsOut, hok]
      exact fun p hp => (hfresh p hp).2.2
  | _ => exact forall_mem_nil _

/-- **A queued page stays queued until a drain finds it without leases.** -/
theorem Counted.queued (ha : w.ReturnsAlone op) {p : Nat} (hp : p ∈ w.pool.reclaimPending) :
    p ∈ (w.step op).1.pool.reclaimPending ∨ op = .drainCompleted ∧ (w.pool.pageMeta p).inflightRefs = 0 := by
  have hs := (h.tally.pending_iff p).1 hp
  have h' := counted_step h ha
  rw [h'.tally.pending_iff]
  by_cases hop : op = .drainCompleted
  · by_cases hs' : ((w.step op).1.pool.pageMeta p).state = .reclaimPending
    · exact .inl hs'
    · -- a page that a drain let go is free, and its leases are those from before
      refine .inr ⟨hop, ?_⟩
      have hcons := h'.tally.consistent p
      have hleases : (w.step op).1.inflightLeases = w.inflightLeases := by rw [hop]; rfl
      have htable : (w.step op).1.mapped p + (w.step op).1.reserved p = w.mapped p + w.reserved p := by rw [hop]; rfl
      have hcache : (w.step op).1.cacheLeases = w.cacheLeases := by rw [hop]; rfl
      have hidle : ((w.step op).1.pool.pageMeta p).inflightRefs = 0 := by
        cases hst : ((w.step op).1.pool.pageMeta p).state with
        | free => exact (hcons.idle hst).2.2
        | reclaimPending => exact absurd hst hs'
        | priv | sealed | cacheOnly =>
          -- it has no owner
          have howned := hcons.owned (by rw [hst]; rfl)
          have hw := (h.tally.consistent p).waiting hs
          rw [h'.tally.tables, h'.tally.caches, htable, hcache, ← h.tally.tables, ← h.tally.caches] at howned
          omega
      rw [h.tally.inflights, ← hleases, ← h'.tally.inflights]
      exact hidle
  · have hmoves := step_moves h ha p
    rw [eq_false hop] at hmoves
    exact .inl (hmoves.pending (h.tally.consistent p) hs)

end leases

/-- **Deferred reclaim.**  If every plan that is given back holds its pages alone, a leased page is never on the free list and
never handed out, and a page queued for reclaim waits for a drain after its last lease. -/
theorem leased_never_free (nPages kb vb k : Nat) (ops : List (PoolOp k))
    (hrun : RunOf ReturnsAlone (World.new nPages kb vb k) ops) :
    (∀ p, 0 < (((World.new nPages kb vb k).run ops).pool.pageMeta p).inflightRefs →
      p ∉ ((World.new nPages kb vb k).run ops).pool.freePages) ∧
    (∀ op, ∀ p ∈ ((World.new nPages kb vb k).run ops).handsOut op,
      (((World.new nPages kb vb k).run ops).pool.pageMeta p).inflightRefs = 0) ∧
    ∀ op, ((World.new nPages kb vb k).run ops).ReturnsAlone op →
      ∀ p ∈ ((World.new nPages kb vb k).run ops).pool.reclaimPending,
        p ∈ (((World.new nPages kb vb k).run ops).step op).1.pool.reclaimPending ∨
        op = .drainCompleted ∧ (((World.new nPages kb vb k).run ops).pool.pageMeta p).inflightRefs = 0 := by
  have h := counted_run ops (counted_new nPages kb vb k) hrun
  refine ⟨fun p hpos hmem => ?_, fun op p hp => ?_, fun op ha p hp => h.queued ha hp⟩
  · have hidle := (h.tally.consistent p).idle ((h.tally.free_iff p).1 hmem).2
    omega
  · exact (h.tally.inflights p).trans (h.handsOut op p hp)

/-- A page is leased, released by its table and its lease, and drained. -/
def leasedRelease : List (PoolOp 1) :=
  [.ensureCapacity 0 128, .addInflightRef 0, .releaseTable 0, .allocPages 0 1, .releaseInflightRef 0, .drainCompleted]

theorem leased_never_free_release : RunOf ReturnsAlone (World.new 2 1 1 1) leasedRelease ∧
    ∀ p, 0 < (((World.new 2 1 1 1).run leasedRelease).pool.pageMeta p).inflightRefs →
      p ∉ ((World.new 2 1 1 1).run leasedRelease).pool.freePages := by
  have hrun : RunOf ReturnsAlone (World.new 2 1 1 1) leasedRelease := by
    simp only [leasedRelease, RunOf, and_true]
    decide +kernel
  exact ⟨hrun, (leased_never_free 2 1 1 1 leasedRelease hrun).1⟩

/-- A page that a plan reserves is leased, and the plan is aborted. -/
def leasedReservation : List (PoolOp 1) :=
  [.ensureCapacity 0 128, .sealPage 0, .planCow 0 0 1, .addInflightRef 1, .abortCow 0]

/-- **A leased page is freed.** -/
theorem leased_reservation_is_freed : (((World.new 4 1 1 1).run leasedReservation).pool.pageMeta 1).inflightRefs = 1 ∧
    1 ∈ ((World.new 4 1 1 1).run leasedReservation).pool.freePages ∧
    ((World.new 4 1 1 1).run leasedReservation).handsOut (.allocPages 0 1) = [1] := by
  decide +kernel

/-! ## States -/

/-- The state says whether only the cache owns the page. -/
def PageMeta.Tracked (m : PageMeta) : Prop := m.state = .cacheOnly ↔ m.tableRefs = 0 ∧ 0 < m.cacheRefs

instance (m : PageMeta) : Decidable m.Tracked := by
  unfold PageMeta.Tracked
  infer_instance

theorem PageMeta.Tracked.mapped (h : m.Tracked) (hm : m.Consistent) (hr : m.state.resident = true)
    (hc : m.state ≠ .cacheOnly) : 0 < m.tableRefs := by
  have howned := hm.owned hr
  by_contra hz
  exact hc (h.2 ⟨by omega, by omega⟩)

theorem Grow.tracked (h : Grow False m m') (hm : m.Consistent) (ht : m.Tracked) : m'.Tracked := by
  cases h with
  | take hf => exact ⟨nofun, fun hz => absurd hz.1 Nat.one_ne_zero⟩
  | attach hr hc =>
    refine ⟨fun hs => ?_, fun hz => absurd hz.1 (Nat.succ_ne_zero _)⟩
    split at hs
    · cases hs
    · exact (hc hs).elim
  | share hz => exact ⟨nofun, fun hz' => absurd hz'.1 (Nat.succ_ne_zero _)⟩
  | close hs =>
    refine ⟨nofun, fun hz => ?_⟩
    have := (hm.exclusive hs).1
    have := hz.1
    dsimp only at this
    omega
  | lease hr => exact ht
  | cache hr =>
    constructor
    · intro hs
      split at hs
      · cases hs
      · exact ⟨(ht.1 hs).1, Nat.succ_pos _⟩
    · intro hz
      have hco : m.state = .cacheOnly := by
        by_contra hne
        exact absurd hz.1 (Nat.ne_of_gt (ht.mapped hm hr hne))
      rw [if_neg (by rw [hco]; nofun), hco]

theorem Sink.tracked (h : Sink fence m m') (ht : m.Tracked) : m'.Tracked := by
  cases h with
  | drop h1 =>
    refine ⟨fun hs => ?_, fun hz => ?_⟩
    · have := (ht.1 hs).1
      omega
    · have := hz.1
      dsimp only at this
      omega
  | dropCached h1 hc => exact ⟨fun _ => ⟨rfl, hc⟩, fun _ => rfl⟩
  | dropLeased h1 hc =>
    refine ⟨nofun, fun hz => ?_⟩
    have := hz.2
    dsimp only at this
    omega
  | giveBack ha =>
    refine ⟨nofun, fun hz => ?_⟩
    have hpos := hz.2
    dsimp only at hpos
    have := ha.2.1
    omega
  | uncache hc hs =>
    refine ⟨fun hst => ?_, fun hz => ?_⟩
    · have hown := ht.1 hst
      exact ⟨hown.1, by dsimp only; omega⟩
    · exact ht.2 ⟨hz.1, hc⟩
  | uncacheLeased hc hz | evict hc hz hi => exact ⟨nofun, fun hz' => absurd hz'.2 (Nat.lt_irrefl 0)⟩
  | unlease hi => exact ht
  | drain hf hz =>
    refine ⟨nofun, fun hz' => ?_⟩
    have := hz'.2
    dsimp only at this
    omega

/-- Plans hold alone what they give back, and no page of the cache alone is mapped again. -/
def World.KeepsTrack (w : World k) (op : PoolOp k) : Prop := w.ReturnsAlone op ∧ ¬ w.MapsAgain op

theorem tracked_run : ∀ (ops : List (PoolOp k)) {w : World k}, Counted n w → (∀ p, (w.pool.pageMeta p).Tracked) →
    RunOf KeepsTrack w ops → Counted n (w.run ops) ∧ ∀ p, ((w.run ops).pool.pageMeta p).Tracked
  | [], _, h, ht, _ => ⟨h, ht⟩
  | op :: ops, w, h, ht, hrun => by
    obtain ⟨⟨ha, hmaps⟩, hrest⟩ := hrun
    refine tracked_run ops (counted_step h ha) (fun p => ?_) hrest
    have hmoves := step_moves h ha p
    rw [eq_false hmaps] at hmoves
    exact (hmoves.keeps (fun _ _ hab hm hp => hab.tracked hm hp) (fun _ _ hab _ hp => hab.tracked hp)
      (h.tally.consistent p) (ht p)).2

/-- **The state tracks ownership** as long as no page of the cache alone is mapped again: `CacheOnly` then says just that the
cache alone owns the page, and a mapped page that the cache has let go can be sealed.  Mapping a `CacheOnly` page breaks
this at once. -/
theorem cacheOnly_tracks (nPages kb vb k : Nat) (ops : List (PoolOp k))
    (hrun : RunOf KeepsTrack (World.new nPages kb vb k) ops) :
    (∀ p, (((World.new nPages kb vb k).run ops).pool.pageMeta p).Tracked) ∧
    (∀ p, 0 < ((World.new nPages kb vb k).run ops).mapped p →
      (((World.new nPages kb vb k).run ops).pool.pageMeta p).cacheRefs = 0 →
      (((World.new nPages kb vb k).run ops).pool.sealPage p).2 = .ok ()) ∧
    ∀ t phys, ((World.new nPages kb vb k).run ops).MapsAgain (.attach t phys) →
      (((World.new nPages kb vb k).run ops).step (.attach t phys)).2 = .ok () →
      ¬ ((((World.new nPages kb vb k).run ops).step (.attach t phys)).1.pool.pageMeta phys).Tracked := by
  obtain ⟨h, ht⟩ := tracked_run ops (counted_new nPages kb vb k) (fun p => ⟨nofun, fun hz => absurd hz.2 (Nat.lt_irrefl 0)⟩) hrun
  generalize (World.new nPages kb vb k).run ops = w at h ht
  refine ⟨ht, fun p hmap hc => ?_, fun t phys hs hok => ?_⟩
  · have hres := h.tally.resident (p := p) (by omega)
    have hlt := (h.tally.not_free (ne_free_of_resident hres).1).1
    unfold PagePool.sealPage
    rw [checkPhys_ok hlt]
    dsimp only
    cases hst : (w.pool.pageMeta p).state with
    | priv | sealed => rfl
    | cacheOnly =>
      have := ((ht p).1 hst).2
      omega
    | free | reclaimPending => rw [hst] at hres; cases hres
  · rw [pool_step_attach]
    have hok' : (w.pool.refcountInc phys).2 = .ok () := by
      simp only [World.step] at hok
      rcases hr : w.pool.refcountInc phys with ⟨pool, e | u⟩
      · rw [hr] at hok
        cases hok
      · rfl
    unfold PagePool.refcountInc at hok' ⊢
    split at hok'
    · cases hok'
    dsimp only at hok' ⊢
    split at hok'
    · cases hok'
    rename_i refs hrefs
    obtain ⟨-, rfl⟩ := checkedInc_eq_some.1 hrefs
    intro htr
    rw [pageMeta_setMeta, if_pos rfl] at htr
    have := htr.1 (by dsimp only; rw [if_neg (by rw [hs]; decide), hs])
    exact absurd this.1 (Nat.succ_ne_zero _)

/-- A page that the cache takes over and gives up. -/
def cachedPage : List (PoolOp 1) := [.ensureCapacity 0 128, .addCacheRef 0, .releaseCacheRef 0]

theorem cacheOnly_tracks_cached : RunOf KeepsTrack (World.new 2 1 1 1) cachedPage ∧
    (((World.new 2 1 1 1).run cachedPage).pool.sealPage 0).2 = .ok () := by
  have hrun : RunOf KeepsTrack (World.new 2 1 1 1) cachedPage := by
    simp only [cachedPage, RunOf, KeepsTrack, and_true]
    decide +kernel
  exact ⟨hrun, (cacheOnly_tracks 2 1 1 1 cachedPage hrun).2.1 0 (by decide +kernel) (by decide +kernel)⟩

/-- A cached page is mapped again, and then evicted. -/
def mappedAgain : List (PoolOp 2) :=
  [.ensureCapacity tableA 128, .addCacheRef 0, .releaseTable tableA, .attach tableB 0, .releaseCacheRef 0]

/-- **A mapped page without cache leases stays `CacheOnly`** and cannot be sealed. -/
theorem mapped_again_stays_cacheOnly : ((World.new 2 1 1 2).run mappedAgain).mapped 0 = 1 ∧
    ((World.new 2 1 1 2).run mappedAgain).pool.pageMeta 0 = ⟨.cacheOnly, 1, 1, 0, 0⟩ ∧
    (((World.new 2 1 1 2).run mappedAgain).pool.sealPage 0).2 = .error "seal: phys 0 is CacheOnly, cannot seal" := by
  decide +kernel

end Hipfire.Pages
