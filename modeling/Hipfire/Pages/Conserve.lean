import Hipfire.Pages.Accounted
/-!
# Conserve — no page is lost, duplicated or freed under a user

`step_spec` collects what every call does; `page_conservation` is what it says of every run.
-/
namespace Hipfire.Pages

open World List

variable {k n : Nat}

/-! ## Every call, every run -/

/-- What a refused call leaves. -/
def Refused (w : World k) (op : PoolOp k) (e : String) (w' : World k) : Prop :=
  match op with
  | .sharePrefix src dst m => Unchanged w w' ∨ PartShared w src dst m e w'
  | .commitCow _ i => ReservationsDropped w i w'
  | _ => Unchanged w w'

theorem step_spec {w : World k} (h : Accounted n w) {op : PoolOp k} (hop : w.Allowed op) :
    Accounted n (w.step op).1 ∧ ∀ e, (w.step op).2 = .error e → Refused w op e (w.step op).1 := by
  cases op with
  | allocPages t m => exact ⟨accounted_alloc h t (min m w.pool.freePages.length), nofun⟩
  | allocPagesChecked t m => exact step_allocPagesChecked h t m
  | ensureCapacity t m => exact step_ensureCapacity h t m
  | sharePrefix src dst m => exact step_sharePrefix h src dst m
  | attach t phys => exact step_attach h t phys hop.2
  | freePagesFromTail t m => exact accepted (step_freePagesFromTail h t m)
  | releaseTable t => exact accepted (step_releaseTable h t)
  | sealPage phys => exact step_sealPage h phys
  | planCow t s e => exact step_planCow h t s e
  | commitCow t i => exact step_commitCow h t i
  | abortCow i => exact accepted (step_abortCow h i)
  | addCacheRef phys => exact step_addCacheRef h phys hop.1
  | releaseCacheRef phys => exact accepted (step_releaseCacheRef h phys hop.1)
  | addInflightRef phys => exact step_addInflightRef h phys hop.1
  | releaseInflightRef phys => exact accepted (step_releaseInflightRef h phys hop.1)
  | drainCompleted => exact ⟨h.setPool (tally_drainCompleted h.tally), nofun⟩
where
  /-- A call that is never refused. -/
  accepted {w' : World k} {r : Except String Unit} {Q : String → Prop} (h : Accounted n w' ∧ r = .ok ()) :
      Accounted n w' ∧ ∀ e, r = .error e → Q e := ⟨h.1, fun e he => by rw [h.2] at he; cases he⟩

theorem accounted_run : ∀ (ops : List (PoolOp k)) {w : World k}, Accounted n w → RunOf Allowed w ops →
    Accounted n (w.run ops)
  | [], _, h, _ => h
  | _ :: ops, _, h, hrun => accounted_run ops (step_spec h hrun.1).1 hrun.2

/-- The armed plans that reserve a page. -/
def World.reservers (w : World k) (p : Nat) : Nat := w.plans.countP (fun plan => plan.armed && plan.reserved.contains p)

theorem count_reserved_eq (p : Nat) : ∀ {plans : List CowPlan}, (∀ plan ∈ plans, plan.copies ≠ [] → plan.armed = true) →
    (plans.flatMap CowPlan.reserved).count p ≤ 1 →
    (plans.flatMap CowPlan.reserved).count p = plans.countP (fun plan => plan.armed && plan.reserved.contains p)
  | [], _, _ => rfl
  | plan :: plans, harmed, hle => by
    rw [flatMap_cons, count_append] at hle ⊢
    have ih := count_reserved_eq p (forall_mem_cons.1 harmed).2 (by omega)
    rw [countP_cons, ← ih, Nat.add_comm]
    by_cases hmem : p ∈ plan.reserved
    · have harm := harmed plan mem_cons_self (fun hnil => by
        rw [CowPlan.reserved, hnil] at hmem
        cases hmem)
      have hpos := count_pos_iff.2 hmem
      rw [harm, if_pos (by simpa using hmem)]
      omega
    · rw [count_eq_zero.2 hmem, if_neg (by simp [hmem])]

/-- The accounting of a pool of `n` pages against its users. -/
structure Conserved (n : Nat) (w : World k) : Prop where
  one_place : ∀ p < n,
    (p ∈ w.pool.freePages ∧ p ∉ w.pool.reclaimPending ∧ (w.pool.pageMeta p).state.resident = false) ∨
    (p ∉ w.pool.freePages ∧ p ∈ w.pool.reclaimPending ∧ (w.pool.pageMeta p).state.resident = false) ∨
    (p ∉ w.pool.freePages ∧ p ∉ w.pool.reclaimPending ∧ (w.pool.pageMeta p).state.resident = true)
  free_lt : ∀ p ∈ w.pool.freePages, p < n
  pending_lt : ∀ p ∈ w.pool.reclaimPending, p < n
  free_nodup : w.pool.freePages.Nodup
  pending_nodup : w.pool.reclaimPending.Nodup
  table_refs : ∀ p, (w.pool.pageMeta p).tableRefs = w.mapped p + w.reservers p
  cache_refs : ∀ p, (w.pool.pageMeta p).cacheRefs = w.cacheLeases p
  inflight_refs : ∀ p, (w.pool.pageMeta p).inflightRefs = w.inflightLeases p
  free_unreferenced : ∀ p, (w.pool.pageMeta p).state = .free →
    (w.pool.pageMeta p).tableRefs = 0 ∧ (w.pool.pageMeta p).cacheRefs = 0 ∧ (w.pool.pageMeta p).inflightRefs = 0

theorem Accounted.conserved {w : World k} (h : Accounted n w) : Conserved n w where
  one_place p hp := by
    have hfree := h.tally.free_iff p
    have hpend := h.tally.pending_iff p
    rw [h.tally.size] at hfree
    cases hs : (w.pool.pageMeta p).state <;> simp [hfree, hpend, hs, hp, PageState.resident]
  free_lt p hp := h.tally.size ▸ ((h.tally.free_iff p).1 hp).1
  pending_lt p hp := by
    have hs := (h.tally.pending_iff p).1 hp
    by_contra hge
    cases hs.symm.trans (h.tally.outside p (by rw [h.tally.size]; omega))
  free_nodup := h.tally.free_nodup
  pending_nodup := h.tally.pending_nodup
  table_refs p := by
    rw [h.tally.tables]
    congr 1
    refine count_reserved_eq p h.armed ?_
    rcases Nat.eq_zero_or_pos (w.reserved p) with hz | hpos
    · exact Nat.le_trans (Nat.le_of_eq hz) (Nat.zero_le 1)
    · exact Nat.le_of_eq (h.apart p hpos).1
  cache_refs := h.tally.caches
  inflight_refs := h.tally.inflights
  free_unreferenced p := (h.tally.consistent p).idle

/-- **Page conservation.**  After any calls made on held pages and by lease holders, every page is in one place, the counts are
the references that are out, and a further call that is refused leaves what `Refused` says. -/
theorem page_conservation (nPages kb vb k : Nat) (ops : List (PoolOp k))
    (hrun : RunOf Allowed (World.new nPages kb vb k) ops) : Conserved nPages ((World.new nPages kb vb k).run ops) ∧
    ∀ op e, ((World.new nPages kb vb k).run ops).Allowed op →
      (((World.new nPages kb vb k).run ops).step op).2 = .error e →
      Refused ((World.new nPages kb vb k).run ops) op e (((World.new nPages kb vb k).run ops).step op).1 := by
  have hacc := accounted_run ops (accounted_new nPages kb vb k) hrun
  exact ⟨hacc.conserved, fun op e hop => (step_spec hacc hop).2 e⟩

/-- A write to a shared page, with leases taken and released around it. -/
def sharedWrite : List (PoolOp 2) :=
  [.ensureCapacity tableA 200, .sealPage 0, .addCacheRef 0, .attach tableB 0, .planCow tableB 0 5, .commitCow tableB 0,
   .releaseTable tableA, .addInflightRef 0, .releaseCacheRef 0, .drainCompleted]

theorem page_conservation_shared_write :
    RunOf Allowed (World.new 6 1 1 2) sharedWrite ∧ Conserved 6 ((World.new 6 1 1 2).run sharedWrite) := by
  have hrun : RunOf Allowed (World.new 6 1 1 2) sharedWrite := by
    simp only [sharedWrite, RunOf, Allowed, LeasesKept, Held, and_true, true_and]
    decide +kernel
  exact ⟨hrun, (page_conservation 6 1 1 2 sharedWrite hrun).1⟩

/-- The page that a pending plan reserves is attached to a second table, and the plan is aborted. -/
def attachedReservation : List (PoolOp 2) :=
  [.ensureCapacity tableA 128, .sealPage 0, .planCow tableA 0 1, .attach tableB 1, .abortCow 0]

/-- **A reserved page may be attached.**  `refcount_inc` accepts a page that only a pending plan holds; aborting the plan
then frees the page under the table that maps it. -/
theorem attached_reservation_is_freed : RunOf LeasesKept (World.new 4 1 1 2) attachedReservation ∧
    ((World.new 4 1 1 2).run attachedReservation).mapped 1 = 1 ∧
    (((World.new 4 1 1 2).run attachedReservation).pool.pageMeta 1).tableRefs = 0 ∧
    1 ∈ ((World.new 4 1 1 2).run attachedReservation).pool.freePages := by
  refine ⟨?_, ?_, ?_, ?_⟩
  · simp only [attachedReservation, RunOf, LeasesKept, and_true]
  · decide +kernel
  · decide +kernel
  · decide +kernel

/-! ## Draining -/

theorem drainLoop_still {p : Nat} : ∀ (queue : List Nat) (pool : PagePool), p ∈ (PagePool.drainLoop queue pool).2.2 →
    ¬((pool.pageMeta p).inflightRefs = 0 ∧ (pool.pageMeta p).tableRefs = 0 ∧ (pool.pageMeta p).cacheRefs = 0)
  | phys :: queue, pool, h => by
    unfold PagePool.drainLoop at h
    by_cases hm : (pool.pageMeta phys).inflightRefs = 0 ∧ (pool.pageMeta phys).tableRefs = 0 ∧
        (pool.pageMeta phys).cacheRefs = 0
    · rw [if_pos hm] at h
      have ih := drainLoop_still queue _ h
      by_cases hp : p = phys <;> simpa [PagePool.free, PagePool.setMeta, hp] using ih
    · rw [if_neg hm] at h
      rcases mem_cons.1 h with rfl | h
      · exact hm
      · exact drainLoop_still queue pool h

/-- **A drain frees exactly what nothing refers to.**  After any calls made on held pages and by lease holders, a drain leaves
on the free list the pages that no table maps, no plan reserves and no lease holds. -/
theorem drained_free_iff (nPages kb vb k : Nat) (ops : List (PoolOp k))
    (hrun : RunOf Allowed (World.new nPages kb vb k) ops) : ∃ w, (World.new nPages kb vb k).run ops = w ∧
    ∀ p, p ∈ w.pool.drainCompleted.1.freePages ↔
      p < nPages ∧ w.mapped p = 0 ∧ w.reserved p = 0 ∧ w.cacheLeases p = 0 ∧ w.inflightLeases p = 0 := by
  refine ⟨_, rfl, fun p => ?_⟩
  have h := (accounted_run ops (accounted_new nPages kb vb k) hrun).tally
  generalize (World.new nPages kb vb k).run ops = w at h ⊢
  have hd := tally_drainCompleted h
  have ht := hd.tables p
  have hc := hd.caches p
  have hi := hd.inflights p
  rw [hd.free_iff, hd.size]
  constructor
  · rintro ⟨hp, hs⟩
    have hidle := (hd.consistent p).idle hs
    omega
  · rintro ⟨hp, hrefs⟩
    refine ⟨hp, ?_⟩
    cases hs : (w.pool.drainCompleted.1.pageMeta p).state with
    | free => rfl
    | reclaimPending =>
      have hstill := drainLoop_still _ _ ((hd.pending_iff p).2 hs)
      rw [h.tables, h.caches, h.inflights] at hstill
      omega
    | priv | sealed | cacheOnly =>
      have howned := (hd.consistent p).owned (by rw [hs]; rfl)
      omega

theorem drained_free_iff_shared_write : 5 ∈ ((World.new 6 1 1 2).run sharedWrite).pool.drainCompleted.1.freePages := by
  obtain ⟨_, rfl, hfree⟩ := drained_free_iff 6 1 1 2 sharedWrite (by
    simp only [sharedWrite, RunOf, Allowed, LeasesKept, Held, and_true, true_and]
    decide +kernel)
  exact (hfree 5).2 (by decide +kernel)

end Hipfire.Pages
