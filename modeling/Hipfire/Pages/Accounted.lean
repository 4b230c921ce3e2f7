import Hipfire.Pages.Counted
/-!
# Accounted — the pool counts exactly the references of its users

`Accounted` also says that a page reserved by a plan has no other user.  Each call keeps it, so long as leases and attachments
are made on held pages only, and leaves a known world when it is refused (`step_planCow` and so on).
-/
namespace Hipfire.Pages

open World PagePool List

variable {k n : Nat}

/-! ## The invariant -/

structure Accounted (n : Nat) (w : World k) : Prop where
  tally : Tally n w.pool (fun p => w.mapped p + w.reserved p) w.cacheLeases w.inflightLeases
  apart : ∀ p, 0 < w.reserved p →
    w.reserved p = 1 ∧ w.mapped p = 0 ∧ w.cacheLeases p = 0 ∧ w.inflightLeases p = 0
  distinct : ∀ plan ∈ w.plans, (plan.copies.map CowCopy.logicalPage).Nodup
  armed : ∀ plan ∈ w.plans, plan.copies ≠ [] → plan.armed = true

theorem accounted_new (nPages kb vb k : Nat) : Accounted nPages (World.new nPages kb vb k) where
  tally := (counted_new nPages kb vb k).tally
  apart p hp := by simp [reserved, World.new] at hp
  distinct plan hp := by cases hp
  armed plan hp := by cases hp

variable {w : World k}

theorem Accounted.counted (h : Accounted n w) : Counted n w := ⟨h.tally, h.distinct⟩

theorem Accounted.keep {w' : World k} (h : Accounted n w) (hc : Counted n w') (hplans : w'.plans = w.plans)
    (hapart : ∀ p, 0 < w.reserved p → w'.mapped p = 0 ∧ w'.cacheLeases p = 0 ∧ w'.inflightLeases p = 0) :
    Accounted n w' where
  tally := hc.tally
  apart p hp := by
    have hres : w'.reserved p = w.reserved p := by unfold reserved; rw [hplans]
    rw [hres] at hp ⊢
    exact ⟨(h.apart p hp).1, hapart p hp⟩
  distinct := hc.distinct
  armed := by
    rw [hplans]
    exact h.armed

variable {pool : PagePool} {bt : BlockTable}

theorem Accounted.setTable (h : Accounted n w) (t : Fin k)
    {table : Nat → Nat} (htally : Tally n pool table w.cacheLeases w.inflightLeases)
    (hcount : ∀ p, table p + (w.tables t).pages.count p = w.mapped p + w.reserved p + bt.pages.count p)
    (hapart : ∀ p, 0 < w.reserved p → bt.pages.count p = 0) : Accounted n (w.setTable t pool bt) :=
  h.keep (h.counted.setTable t htally hcount) rfl fun p hp => by
    obtain ⟨-, h2, h3⟩ := h.apart p hp
    have h4 := mapped_setTable w t pool bt p
    have h5 := hapart p hp
    exact ⟨by omega, h3⟩

theorem Accounted.setPool (h : Accounted n w)
    (htally : Tally n pool (fun p => w.mapped p + w.reserved p) w.cacheLeases w.inflightLeases) :
    Accounted n { w with pool := pool } :=
  ⟨htally, h.apart, h.distinct, h.armed⟩

/-- What a refused call leaves as it was: the tables and the reference counts. -/
structure Unchanged (w w' : World k) : Prop where
  tables : w'.tables = w.tables
  tableRefs : ∀ p, (w'.pool.pageMeta p).tableRefs = (w.pool.pageMeta p).tableRefs
  cacheRefs : ∀ p, (w'.pool.pageMeta p).cacheRefs = (w.pool.pageMeta p).cacheRefs
  inflightRefs : ∀ p, (w'.pool.pageMeta p).inflightRefs = (w.pool.pageMeta p).inflightRefs

theorem Unchanged.refl (w : World k) : Unchanged w w := ⟨rfl, fun _ => rfl, fun _ => rfl, fun _ => rfl⟩

section steps

variable {w : World k} (h : Accounted n w)
include h

/-! ## Allocation -/

variable (t : Fin k) (phys : Nat)

theorem Accounted.append (ps : List Nat)
    (htally : Tally n pool (plus (fun p => w.mapped p + w.reserved p) ps) w.cacheLeases w.inflightLeases)
    (hpages : bt.pages = (w.tables t).pages ++ ps) (hfree : ∀ p ∈ ps, w.reserved p = 0) :
    Accounted n (w.setTable t pool bt) := by
  refine h.keep (h.counted.append t ps htally hpages) rfl fun p hp => ?_
  obtain ⟨-, hm, hrest⟩ := h.apart p hp
  have hps : p ∉ ps := fun hmem => by have := hfree p hmem; omega
  have hset := mapped_setTable w t pool bt p
  rw [hpages, count_append, count_eq_zero.2 hps] at hset
  exact ⟨by omega, hrest⟩

variable (m : Nat)

theorem accounted_alloc : Accounted n (w.setTable t (allocLoop m w.pool (w.tables t)).1
    (allocLoop m w.pool (w.tables t)).2.1) := by
  obtain ⟨ps, hpages, -, hfresh, htally⟩ := tally_allocLoop m w.pool (w.tables t) _ h.tally
  exact h.append t ps htally (by rw [hpages]) (fun p hp => Nat.eq_zero_of_add_eq_zero_left (hfresh p hp).1)

theorem step_allocPagesChecked : Accounted n (w.step (.allocPagesChecked t m)).1 ∧
    ∀ e, (w.step (.allocPagesChecked t m)).2 = .error e → Unchanged w (w.step (.allocPagesChecked t m)).1 := by
  simp only [step, allocPagesChecked]
  by_cases hf : w.pool.freePages.length < m
  · simp only [if_pos hf, setTable_self]
    exact ⟨h, fun _ _ => .refl w⟩
  · simp only [if_neg hf]
    exact ⟨accounted_alloc h t m, fun _ he => by cases he⟩

theorem step_ensureCapacity : Accounted n (w.step (.ensureCapacity t m)).1 ∧
    ∀ e, (w.step (.ensureCapacity t m)).2 = .error e → Unchanged w (w.step (.ensureCapacity t m)).1 := by
  simp only [step, ensureCapacity]
  split
  · refine ⟨h.setTable t h.tally (fun p => ?_) (fun p hp => ?_), fun _ he => by cases he⟩
    · rfl
    · have := (h.apart p hp).2.1
      have := count_le_mapped w t p
      simp only; omega
  · split
    · simp only [setTable_self]
      exact ⟨h, fun _ _ => .refl w⟩
    · refine ⟨?_, fun _ he => by cases he⟩
      obtain ⟨ps, hpages, -, hfresh, htally⟩ := tally_allocLoop _ w.pool (w.tables t) _ h.tally
      exact h.append t ps htally (by simp only [allocPages]; rw [hpages])
        (fun p hp => Nat.eq_zero_of_add_eq_zero_left (hfresh p hp).1)

/-! ## Sharing -/

/-- A reserved page is not held. -/
theorem Accounted.unreserved {p : Nat} (hheld : w.Held p) : w.reserved p = 0 := by
  by_contra hne
  obtain ⟨-, hm, hc, -⟩ := h.apart p (Nat.pos_of_ne_zero hne)
  rcases hheld with h1 | h1
  · omega
  · omega

/-- What a `share_prefix` refused on overflow leaves: the pages before the one that would overflow are shared. -/
def PartShared (w : World k) (src dst : Fin k) (m : Nat) (e : String) (w' : World k) : Prop :=
  ∃ done phys rest, (w.tables src).pages.take m = done ++ phys :: rest ∧
    e = s!"share_prefix: refcount overflow for phys {phys}" ∧
    w'.tables = Function.update w.tables dst { w.tables dst with pages := (w.tables dst).pages ++ done } ∧
    u32Max ≤ (w'.pool.pageMeta phys).tableRefs ∧
    ∀ p, (w'.pool.pageMeta p).tableRefs = (w.pool.pageMeta p).tableRefs + done.count p ∧
      (w'.pool.pageMeta p).cacheRefs = (w.pool.pageMeta p).cacheRefs ∧
      (w'.pool.pageMeta p).inflightRefs = (w.pool.pageMeta p).inflightRefs

theorem step_sharePrefix (src dst : Fin k) (m : Nat) : Accounted n (w.step (.sharePrefix src dst m)).1 ∧
    ∀ e, (w.step (.sharePrefix src dst m)).2 = .error e →
      Unchanged w (w.step (.sharePrefix src dst m)).1 ∨ PartShared w src dst m e (w.step (.sharePrefix src dst m)).1 := by
  have hrefuse : ∀ e : String, Accounted n (w.setTable dst w.pool (w.tables dst)) ∧
      ∀ e', (Except.error e : Except String Unit) = .error e' → Unchanged w (w.setTable dst w.pool (w.tables dst)) ∨
        PartShared w src dst m e' (w.setTable dst w.pool (w.tables dst)) := fun e => by
    rw [setTable_self]
    exact ⟨h, fun _ _ => .inl (.refl w)⟩
  simp only [step, sharePrefix]
  split
  · exact hrefuse _
  split
  · exact hrefuse _
  split
  · exact hrefuse _
  have hmapped : ∀ p ∈ (w.tables src).pages.take m, 0 < w.mapped p := fun p hp => mapped_pos_of_mem (mem_of_mem_take hp)
  obtain ⟨done, hpages, htally, hres⟩ := tally_shareLoop ((w.tables src).pages.take m) w.pool (w.tables dst) _ h.tally
    (fun p hp => Nat.lt_of_lt_of_le (hmapped p hp) (Nat.le_add_right ..))
  have hdone : ∀ p ∈ done, w.reserved p = 0 := fun p hp => by
    rcases hres with ⟨-, rfl⟩ | ⟨phys, rest, hsplit, -⟩
    · exact h.unreserved (.inl (hmapped p hp))
    · exact h.unreserved (.inl (hmapped p (by rw [hsplit]; exact mem_append_left _ hp)))
  refine ⟨h.append dst done htally (by rw [hpages]) hdone, fun e he => .inr ?_⟩
  rcases hres with ⟨hok, -⟩ | ⟨phys, rest, hsplit, hmax, herr⟩
  · rw [hok] at he; cases he
  rw [herr] at he
  refine ⟨done, phys, rest, hsplit, (Except.error.inj he).symm, ?_, ?_, fun p => ⟨?_, ?_, ?_⟩⟩
  · rw [← hpages]; rfl
  · exact Nat.le_trans hmax (Nat.le_of_eq (htally.tables phys).symm)
  · exact (htally.tables p).trans (by rw [plus, ← h.tally.tables p])
  · exact (htally.caches p).trans (h.tally.caches p).symm
  · exact (htally.inflights p).trans (h.tally.inflights p).symm

theorem step_attach (hheld : w.Held phys) : Accounted n (w.step (.attach t phys)).1 ∧
    ∀ e, (w.step (.attach t phys)).2 = .error e → Unchanged w (w.step (.attach t phys)).1 := by
  rcases attach_outcomes h.counted t phys with ⟨e, he⟩ | ⟨pool, hok, htally⟩
  · rw [he]
    exact ⟨h, fun _ _ => .refl w⟩
  · rw [hok]
    exact ⟨h.append t [phys] htally rfl (fun p hp => mem_singleton.1 hp ▸ h.unreserved hheld), nofun⟩

/-! ## Release -/

theorem Accounted.drop (bt : BlockTable) (ps : List Nat)
    (hpages : ∀ p, bt.pages.count p + ps.count p = (w.tables t).pages.count p) :
    (decAll ps w.pool).2 = .ok () ∧ Accounted n (w.setTable t (decAll ps w.pool).1 bt) := by
  obtain ⟨hok, hc⟩ := h.counted.drop t bt ps hpages
  refine ⟨hok, h.keep hc rfl fun p hp => ?_⟩
  obtain ⟨-, hm, hrest⟩ := h.apart p hp
  have hset := mapped_setTable w t (decAll ps w.pool).1 bt p
  have := hpages p
  exact ⟨by omega, hrest⟩

theorem step_freePagesFromTail : Accounted n (w.step (.freePagesFromTail t m)).1 ∧
    (w.step (.freePagesFromTail t m)).2 = .ok () := by
  have hcheck : firstError w.pool.checkTail ((w.tables t).pages.drop ((w.tables t).pages.length - m)) = .ok () := by
    refine (firstError_ok _ _).2 (fun p hp => ?_)
    have hpos := mapped_pos_of_mem (mem_of_mem_drop hp)
    have hrefs := h.tally.tables p
    unfold checkTail
    rw [if_neg (by omega)]
  obtain ⟨hok, hacc⟩ := h.drop t ((w.tables t).truncate ((w.tables t).pages.length - m))
    ((w.tables t).pages.drop ((w.tables t).pages.length - m)) (fun p => by
      rw [BlockTable.truncate, ← count_append, take_append_drop])
  simp only [step, freePagesFromTail, hcheck]
  exact ⟨hacc, hok⟩

theorem step_releaseTable : Accounted n (w.step (.releaseTable t)).1 ∧ (w.step (.releaseTable t)).2 = .ok () := by
  obtain ⟨hok, hacc⟩ := h.drop t .new (w.tables t).pages (fun p => by simp [BlockTable.new])
  simp only [step, releaseTable, decEach_eq _ _ hok]
  exact ⟨hacc, rfl⟩

/-! ## Copy-on-write -/

theorem step_planCow (s e : Nat) : Accounted n (w.step (.planCow t s e)).1 ∧
    ∀ msg, (w.step (.planCow t s e)).2 = .error msg → Unchanged w (w.step (.planCow t s e)).1 := by
  rcases planCow_outcomes h.counted t s e with
    ⟨pool, msg, herr, htally⟩ | ⟨pool, plan, hok, hdist, hnd, harmed, hfresh, htally⟩
  · simp only [step, herr]
    refine ⟨h.setPool htally, fun _ _ => ⟨rfl, fun p => ?_, fun p => ?_, fun p => ?_⟩⟩
    · exact (htally.tables p).trans (h.tally.tables p).symm
    · exact (htally.caches p).trans (h.tally.caches p).symm
    · exact (htally.inflights p).trans (h.tally.inflights p).symm
  · simp only [step, hok]
    have hc := h.counted.addPlan hdist htally
    refine ⟨⟨hc.tally, fun p hp => ?_, hc.distinct,
      forall_mem_append.2 ⟨h.armed, forall_mem_singleton.2 harmed⟩⟩, fun _ he => by cases he⟩
    · have hres : reserved { w with pool := pool, plans := w.plans ++ [plan] } p =
          w.reserved p + plan.reserved.count p := by simp [reserved]
      rw [hres] at hp ⊢
      by_cases hmem : p ∈ plan.reserved
      · obtain ⟨hz, hrest⟩ := hfresh p hmem
        rw [count_eq_one_of_mem hnd hmem]
        exact ⟨by omega, (by omega : w.mapped p = 0), hrest⟩
      · rw [count_eq_zero.2 hmem] at hp ⊢
        exact h.apart p hp

/-- A pending plan: its pages are reserved once, by it alone. -/
theorem Accounted.plan {i : Nat} {plan : CowPlan} (hi : w.plans[i]? = some plan) : plan.reserved.Nodup ∧
    ∀ p ∈ plan.reserved, w.mapped p + w.reserved p = 1 ∧ w.cacheLeases p = 0 ∧ w.inflightLeases p = 0 := by
  have hle : ∀ p, plan.reserved.count p ≤ w.reserved p := fun p => by
    have := reserved_eraseIdx hi p
    unfold reserved
    omega
  refine ⟨nodup_iff_count_le_one.2 (fun p => ?_), fun p hp => ?_⟩
  · rcases Nat.eq_zero_or_pos (w.reserved p) with hz | hpos
    · have := hle p; omega
    · have := hle p
      have := (h.apart p hpos).1
      omega
  · have hpos : 0 < w.reserved p := Nat.lt_of_lt_of_le (count_pos_iff.2 hp) (hle p)
    obtain ⟨h1, h2, h3, h4⟩ := h.apart p hpos
    exact ⟨by omega, h3, h4⟩

theorem Accounted.usePlan {i : Nat} {plan : CowPlan} (hi : w.plans[i]? = some plan) {tables : Fin k → BlockTable}
    (hc : Counted n { w with pool := pool, tables := tables, plans := w.plans.eraseIdx i })
    (hapart : ∀ p, 0 < w.reserved p → p ∉ plan.reserved → mapped { w with tables := tables } p = 0) :
    Accounted n { w with pool := pool, tables := tables, plans := w.plans.eraseIdx i } := by
  refine ⟨hc.tally, fun p hp => ?_, hc.distinct, fun q hq => h.armed q (mem_of_mem_eraseIdx hq)⟩
  have h1 : reserved { w with pool := pool, tables := tables, plans := w.plans.eraseIdx i } p +
    plan.reserved.count p = w.reserved p := reserved_eraseIdx hi p
  have hpos : 0 < w.reserved p := by omega
  obtain ⟨hone, -, h3⟩ := h.apart p hpos
  have hni : p ∉ plan.reserved := count_eq_zero.1 (by omega)
  exact ⟨by omega, hapart p hpos hni, h3⟩

theorem Accounted.giveBack {i : Nat} {plan : CowPlan} (hi : w.plans[i]? = some plan) :
    Accounted n { w with pool := releaseAll plan.reserved w.pool, plans := w.plans.eraseIdx i } := by
  obtain ⟨hnd, halone⟩ := h.plan hi
  exact h.usePlan hi (h.counted.giveBack hi hnd halone) (fun p hp _ => (h.apart p hp).2.1)

theorem step_abortCow (i : Nat) : Accounted n (w.step (.abortCow i)).1 ∧ (w.step (.abortCow i)).2 = .ok () := by
  simp only [step]
  cases hi : w.plans[i]? with
  | none => exact ⟨h, rfl⟩
  | some plan => exact ⟨h.giveBack hi, rfl⟩

/-- What a refused `commit_cow` leaves: the tables as they were, the plan gone and exactly its reservations dropped. -/
def ReservationsDropped (w : World k) (i : Nat) (w' : World k) : Prop :=
  ∃ plan, w.plans[i]? = some plan ∧ w'.tables = w.tables ∧ w'.plans = w.plans.eraseIdx i ∧
    ∀ p, (w'.pool.pageMeta p).tableRefs + plan.reserved.count p = (w.pool.pageMeta p).tableRefs ∧
      (w'.pool.pageMeta p).cacheRefs = (w.pool.pageMeta p).cacheRefs ∧
      (w'.pool.pageMeta p).inflightRefs = (w.pool.pageMeta p).inflightRefs

theorem step_commitCow (i : Nat) : Accounted n (w.step (.commitCow t i)).1 ∧
    ∀ e, (w.step (.commitCow t i)).2 = .error e → ReservationsDropped w i (w.step (.commitCow t i)).1 := by
  cases hi : w.plans[i]? with
  | none =>
    simp only [step, hi]
    exact ⟨h, fun _ he => by cases he⟩
  | some plan =>
    cases hcheck : firstError (w.pool.checkCopy (w.tables t)) plan.copies with
    | error e =>
      rw [step_commitCow_refused t hi hcheck]
      have hgive := h.giveBack hi
      refine ⟨hgive, fun _ _ => ⟨plan, hi, rfl, rfl, fun p => ⟨?_, ?_, ?_⟩⟩⟩
      · have herase := reserved_eraseIdx hi p
        rw [hgive.tally.tables, h.tally.tables]
        show w.mapped p + ((w.plans.eraseIdx i).flatMap CowPlan.reserved).count p + plan.reserved.count p =
          w.mapped p + (w.plans.flatMap CowPlan.reserved).count p
        omega
      · exact (hgive.tally.caches p).trans (h.tally.caches p).symm
      · exact (hgive.tally.inflights p).trans (h.tally.inflights p).symm
    | ok u =>
      have hc := counted_commitCow h.counted t hi hcheck
      obtain ⟨hre, hok, -, -⟩ := commitLoop_checked h.tally (h.distinct plan (mem_of_getElem? hi)) hcheck
      simp only [step, hi, commitCow, hcheck] at hc ⊢
      refine ⟨h.usePlan hi hc fun p hp hni => ?_, fun e he => by rw [hok] at he; cases he⟩
      have h1 := hre.mapped (commitLoop plan.copies w.pool (w.tables t)).1 p
      have h2 := (h.apart p hp).2.1
      have h3 : (plan.copies.map CowCopy.dstPhys).count p = 0 := count_eq_zero.2 hni
      show (w.setTable t (commitLoop plan.copies w.pool (w.tables t)).1
          (commitLoop plan.copies w.pool (w.tables t)).2.1).mapped p = 0
      omega

/-! ## Leases -/

theorem Accounted.leased {phys : Nat} {w' : World k} (hl : Leased n w phys w') (hres : w.reserved phys = 0) :
    Accounted n w' := by
  refine h.keep hl.counted hl.plans fun p hp => ?_
  have hne : p ≠ phys := fun heq => by
    subst heq
    omega
  have hmapped : w'.mapped p = w.mapped p := by unfold mapped; rw [hl.tables]
  rw [hmapped, hl.cache p hne, hl.inflight p hne]
  exact (h.apart p hp).2

theorem Accounted.step_lease {op : PoolOp k} {phys : Nat}
    (ho : (∃ e, w.step op = (w, .error e)) ∨ ∃ w', w.step op = (w', .ok ()) ∧ Leased n w phys w')
    (hres : w.reserved phys = 0) : Accounted n (w.step op).1 ∧ ∀ e, (w.step op).2 = .error e → Unchanged w (w.step op).1 := by
  rcases ho with ⟨e, he⟩ | ⟨w', hok, hl⟩
  · rw [he]
    exact ⟨h, fun _ _ => .refl w⟩
  · rw [hok]
    exact ⟨h.leased hl hres, nofun⟩

theorem step_addCacheRef (hheld : w.Held phys) : Accounted n (w.step (.addCacheRef phys)).1 ∧
    ∀ e, (w.step (.addCacheRef phys)).2 = .error e → Unchanged w (w.step (.addCacheRef phys)).1 :=
  h.step_lease (addCacheRef_outcomes h.counted phys) (h.unreserved hheld)

theorem step_releaseCacheRef (hheld : 0 < w.cacheLeases phys) :
    Accounted n (w.step (.releaseCacheRef phys)).1 ∧ (w.step (.releaseCacheRef phys)).2 = .ok () := by
  rcases releaseCacheRef_outcomes h.counted phys with ⟨hz, -⟩ | ⟨w', hok, hl⟩
  · omega
  · rw [hok]
    exact ⟨h.leased hl (h.unreserved (.inr hheld)), rfl⟩

theorem step_addInflightRef (hheld : w.Held phys) : Accounted n (w.step (.addInflightRef phys)).1 ∧
    ∀ e, (w.step (.addInflightRef phys)).2 = .error e → Unchanged w (w.step (.addInflightRef phys)).1 :=
  h.step_lease (addInflightRef_outcomes h.counted phys) (h.unreserved hheld)

theorem step_releaseInflightRef (hheld : 0 < w.inflightLeases phys) :
    Accounted n (w.step (.releaseInflightRef phys)).1 ∧ (w.step (.releaseInflightRef phys)).2 = .ok () := by
  have hres : w.reserved phys = 0 := by
    by_contra hne
    have := (h.apart phys (Nat.pos_of_ne_zero hne)).2.2.2
    omega
  rcases releaseInflightRef_outcomes h.counted phys with ⟨hz, -⟩ | ⟨w', hok, hl⟩
  · omega
  · rw [hok]
    exact ⟨h.leased hl hres, rfl⟩

theorem step_sealPage : Accounted n (w.step (.sealPage phys)).1 ∧
    ∀ e, (w.step (.sealPage phys)).2 = .error e → Unchanged w (w.step (.sealPage phys)).1 := by
  rcases sealPage_outcomes h.counted phys with ⟨e, he⟩ | ⟨pool, hok, htally⟩
  · rw [he]
    exact ⟨h, fun _ _ => .refl w⟩
  · rw [hok]
    exact ⟨h.setPool htally, nofun⟩

end steps

end Hipfire.Pages
