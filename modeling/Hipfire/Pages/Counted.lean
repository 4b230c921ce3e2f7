import Hipfire.Pages.Plans
import Hipfire.Pages.World
/-!
# Counted — the pool counts the references that are out

Every call keeps the counts of the pool equal to the references of the tables, the plans, the cache and the leases.  A plan
that is given back must have held its reserved pages alone (`Counted.giveBack`); the other calls ask for nothing.
-/
namespace Hipfire.Pages

open World PagePool List Function

variable {k n : Nat}

/-! ## Counting -/

section mapped

variable (w : World k) (t : Fin k)

theorem mapped_eq (p : Nat) :
    w.mapped p = (w.tables t).pages.count p + ∑ s ∈ Finset.univ.erase t, (w.tables s).pages.count p :=
  (Finset.add_sum_erase _ _ (Finset.mem_univ t)).symm

theorem mapped_setTable (pool : PagePool) (bt : BlockTable) (p : Nat) :
    (w.setTable t pool bt).mapped p + (w.tables t).pages.count p = w.mapped p + bt.pages.count p := by
  have hnew : (w.setTable t pool bt).mapped p =
      bt.pages.count p + ∑ s ∈ Finset.univ.erase t, (w.tables s).pages.count p := by
    rw [mapped_eq _ t]
    congr 1
    · simp [setTable]
    · refine Finset.sum_congr rfl (fun s hs => ?_)
      simp [setTable, update_of_ne (Finset.ne_of_mem_erase hs)]
  have hold := mapped_eq w t p
  omega

theorem count_le_mapped (p : Nat) : (w.tables t).pages.count p ≤ w.mapped p := by
  rw [mapped_eq w t]
  exact Nat.le_add_right ..

theorem count_add_count_le_mapped {t u : Fin k} (h : t ≠ u) (p : Nat) :
    (w.tables u).pages.count p + (w.tables t).pages.count p ≤ w.mapped p := by
  rw [mapped_eq w u, ← Finset.add_sum_erase _ _ (Finset.mem_erase.2 ⟨h, Finset.mem_univ t⟩)]
  omega

theorem setTable_self : w.setTable t w.pool (w.tables t) = w := by
  simp [setTable]

end mapped

variable {w : World k} {bt : BlockTable} {plan : CowPlan} {i : Nat} {pool : PagePool}

section mapped

variable {t : Fin k}

theorem mapped_pos_of_mem {p : Nat} (h : p ∈ (w.tables t).pages) : 0 < w.mapped p :=
  Nat.lt_of_lt_of_le (count_pos_iff.2 h) (count_le_mapped w t p)

theorem Remapped.mapped {copies : List CowCopy} (hre : Remapped (w.tables t) copies bt) (pool : PagePool) (p : Nat) :
    (w.setTable t pool bt).mapped p + (copies.map CowCopy.srcPhys).count p =
      w.mapped p + (copies.map CowCopy.dstPhys).count p := by
  have h1 := mapped_setTable w t pool bt p
  have h2 := hre.count p
  omega

theorem reserved_eraseIdx {plans : List CowPlan} (h : plans[i]? = some plan) (p : Nat) :
    ((plans.eraseIdx i).flatMap CowPlan.reserved).count p + plan.reserved.count p =
      (plans.flatMap CowPlan.reserved).count p := by
  obtain ⟨hi, rfl⟩ := List.getElem?_eq_some_iff.1 h
  have hperm := getElem_cons_eraseIdx_perm hi
  have := (hperm.flatMap_right CowPlan.reserved).count_eq p
  rw [flatMap_cons, count_append] at this
  omega

theorem commitLoop_checked (h : Tally n w.pool (fun p => w.mapped p + w.reserved p) w.cacheLeases w.inflightLeases)
    (hnd : (plan.copies.map CowCopy.logicalPage).Nodup)
    (hcheck : firstError (w.pool.checkCopy (w.tables t)) plan.copies = .ok ()) :
    Remapped (w.tables t) plan.copies (commitLoop plan.copies w.pool (w.tables t)).2.1 ∧
    (commitLoop plan.copies w.pool (w.tables t)).2.2 = .ok () ∧
    Tally n (commitLoop plan.copies w.pool (w.tables t)).1
      (less (fun p => w.mapped p + w.reserved p) (plan.copies.map CowCopy.srcPhys)) w.cacheLeases w.inflightLeases ∧
    ∀ p, (plan.copies.map CowCopy.srcPhys).count p ≤ w.mapped p := by
  have hpl := planned_of_checked hnd hcheck
  have hsrc : ∀ p, (plan.copies.map CowCopy.srcPhys).count p ≤ w.mapped p := fun p =>
    Nat.le_trans (hpl.sources_le p) (count_le_mapped w t p)
  obtain ⟨hok, htally⟩ := tally_commitLoop plan.copies w.pool (w.tables t) _ h hpl (fun p =>
    Nat.le_trans (hsrc p) (Nat.le_add_right ..))
  exact ⟨commitLoop_remaps plan.copies w.pool (w.tables t) hpl hok, hok, htally, hsrc⟩

end mapped

/-! ## The invariant -/

/-- The pool counts the references that are out. -/
structure Counted (n : Nat) (w : World k) : Prop where
  tally : Tally n w.pool (fun p => w.mapped p + w.reserved p) w.cacheLeases w.inflightLeases
  distinct : ∀ plan ∈ w.plans, (plan.copies.map CowCopy.logicalPage).Nodup

theorem counted_new (nPages kb vb k : Nat) : Counted nPages (World.new nPages kb vb k) where
  tally := (tally_new nPages kb vb).congr (by
    simp [mapped, reserved, World.new, BlockTable.new]) rfl rfl
  distinct plan hp := by cases hp

section steps

variable (h : Counted n w)
include h

variable (t : Fin k) (phys : Nat) {table : Nat → Nat}

theorem Counted.setTable (htally : Tally n pool table w.cacheLeases w.inflightLeases)
    (hcount : ∀ p, table p + (w.tables t).pages.count p = w.mapped p + w.reserved p + bt.pages.count p) :
    Counted n (w.setTable t pool bt) where
  tally := htally.congr (by
    funext p
    have h1 := hcount p
    have h2 := mapped_setTable w t pool bt p
    show table p = (w.setTable t pool bt).mapped p + w.reserved p
    omega) rfl rfl
  distinct := h.distinct

theorem Counted.append (ps : List Nat)
    (htally : Tally n pool (plus (fun p => w.mapped p + w.reserved p) ps) w.cacheLeases w.inflightLeases)
    (hpages : bt.pages = (w.tables t).pages ++ ps) : Counted n (w.setTable t pool bt) :=
  h.setTable t htally fun p => by
    rw [plus, hpages, count_append]
    omega

theorem counted_alloc (m live : Nat) : Counted n (w.setTable t (allocLoop m w.pool (w.tables t)).1
    { (allocLoop m w.pool (w.tables t)).2.1 with liveTokens := live }) := by
  obtain ⟨ps, hpages, -, -, htally⟩ := tally_allocLoop m w.pool (w.tables t) _ h.tally
  exact h.append t ps htally (by rw [hpages])

theorem Counted.drop (bt : BlockTable) (ps : List Nat)
    (hpages : ∀ p, bt.pages.count p + ps.count p = (w.tables t).pages.count p) :
    (decAll ps w.pool).2 = .ok () ∧ Counted n (w.setTable t (decAll ps w.pool).1 bt) := by
  have hle : ∀ p, ps.count p ≤ w.mapped p + w.reserved p := fun p => by
    have := hpages p
    have := count_le_mapped w t p
    omega
  obtain ⟨hok, htally⟩ := tally_decAll ps w.pool _ h.tally hle
  refine ⟨hok, h.setTable t htally fun p => ?_⟩
  have := hpages p
  have := hle p
  rw [less]
  omega

theorem Counted.erasePlan (hi : w.plans[i]? = some plan) (tables : Fin k → BlockTable)
    (htally : Tally n pool table w.cacheLeases w.inflightLeases)
    (hcount : ∀ p, table p + plan.reserved.count p = mapped { w with tables := tables } p + w.reserved p) :
    Counted n { w with pool := pool, tables := tables, plans := w.plans.eraseIdx i } where
  tally := htally.congr (by
    funext p
    have h1 := hcount p
    have h2 := reserved_eraseIdx hi p
    show table p = mapped { w with tables := tables } p + ((w.plans.eraseIdx i).flatMap CowPlan.reserved).count p
    unfold reserved at h1
    omega) rfl rfl
  distinct := fun q hq => h.distinct q (mem_of_mem_eraseIdx hq)

theorem Counted.giveBack (hi : w.plans[i]? = some plan) (hnd : plan.reserved.Nodup)
    (halone : ∀ p ∈ plan.reserved, w.mapped p + w.reserved p = 1 ∧ w.cacheLeases p = 0 ∧ w.inflightLeases p = 0) :
    Counted n { w with pool := releaseAll plan.reserved w.pool, plans := w.plans.eraseIdx i } := by
  refine h.erasePlan hi w.tables (tally_releaseAll plan.reserved w.pool _ h.tally hnd halone) fun p => ?_
  have hle := reserved_eraseIdx hi p
  show w.mapped p + w.reserved p - plan.reserved.count p + plan.reserved.count p = w.mapped p + w.reserved p
  unfold reserved
  omega

theorem Counted.addPlan (hnd : (plan.copies.map CowCopy.logicalPage).Nodup)
    (htally : Tally n pool (plus (fun p => w.mapped p + w.reserved p) plan.reserved) w.cacheLeases w.inflightLeases) :
    Counted n { w with pool := pool, plans := w.plans ++ [plan] } := by
  refine ⟨htally.congr (funext fun p => ?_) rfl rfl,
    forall_mem_append.2 ⟨h.distinct, forall_mem_singleton.2 hnd⟩⟩
  show w.mapped p + w.reserved p + plan.reserved.count p =
    w.mapped p + ((w.plans ++ [plan]).flatMap CowPlan.reserved).count p
  rw [flatMap_append, count_append, flatMap_singleton, Nat.add_assoc]
  rfl

/-! ## The calls -/

theorem attach_outcomes : (∃ e, w.step (.attach t phys) = (w, .error e)) ∨ ∃ pool, w.step (.attach t phys) =
      (w.setTable t pool { w.tables t with pages := (w.tables t).pages ++ [phys] }, .ok ()) ∧
      Tally n pool (plus (fun p => w.mapped p + w.reserved p) [phys]) w.cacheLeases w.inflightLeases := by
  simp only [step]
  rcases tally_refcountInc h.tally phys with ⟨e, he⟩ | ⟨pool, hok, htally⟩
  · rw [he]
    exact .inl ⟨e, rfl⟩
  · rw [hok]
    refine .inr ⟨pool, rfl, ?_⟩
    rw [← plus_cons, plus_nil]
    exact htally

/-- A `plan_cow` leaves the counts alone, or adds a plan on pages that were free. -/
theorem planCow_outcomes (s e : Nat) : (∃ pool msg, w.pool.planCow (w.tables t) s e = (pool, .error msg) ∧
      Tally n pool (fun p => w.mapped p + w.reserved p) w.cacheLeases w.inflightLeases) ∨
    ∃ pool plan, w.pool.planCow (w.tables t) s e = (pool, .ok plan) ∧
      (plan.copies.map CowCopy.logicalPage).Nodup ∧ plan.reserved.Nodup ∧ (plan.copies ≠ [] → plan.armed = true) ∧
      (∀ p ∈ plan.reserved, w.mapped p + w.reserved p = 0 ∧ w.cacheLeases p = 0 ∧ w.inflightLeases p = 0) ∧
      Tally n pool (plus (fun p => w.mapped p + w.reserved p) plan.reserved) w.cacheLeases w.inflightLeases := by
  simp only [planCow]
  by_cases h1 : e < s
  · simp only [if_pos h1]
    exact .inl ⟨_, _, rfl, h.tally⟩
  by_cases h2 : e = s
  · simp only [if_neg h1, if_pos h2]
    exact .inr ⟨_, ⟨[], false⟩, rfl, nodup_nil, nodup_nil, fun hne => absurd rfl hne, nofun,
      h.tally⟩
  simp only [if_neg h1, if_neg h2]
  have hplan := tally_planLoop (w.tables t) s (touchedPages s e) [] w.pool
    (by rw [map_nil, plus_nil]; exact h.tally) ⟨nodup_nil, by simp⟩ nodup_range' (by simp) nodup_nil
    (by simp)
  rcases hl : planLoop (w.tables t) s (touchedPages s e) [] w.pool with ⟨pool, msg | copies⟩
  · rw [hl] at hplan
    rcases hplan with ⟨-, -, htally⟩ | ⟨_, hok, -⟩
    · exact .inl ⟨pool, msg, rfl, htally⟩
    · cases hok
  · rw [hl] at hplan
    rcases hplan with ⟨_, herr, -⟩ | ⟨copies', hok, hpl, hnd, hfresh, htally⟩
    · cases herr
    · obtain rfl := Except.ok.inj hok
      refine .inr ⟨pool, ⟨copies, true⟩, rfl, hpl.nodup, hnd, fun _ => rfl, fun p hp => ?_, htally⟩
      obtain ⟨c, hc, rfl⟩ := mem_map.1 hp
      exact hfresh c hc

theorem counted_commitCow (hi : w.plans[i]? = some plan)
    (hcheck : firstError (w.pool.checkCopy (w.tables t)) plan.copies = .ok ()) :
    Counted n (w.step (.commitCow t i)).1 := by
  simp only [step, hi, commitCow, hcheck]
  obtain ⟨hre, -, htally, hsrc⟩ := commitLoop_checked h.tally (h.distinct plan (mem_of_getElem? hi)) hcheck
  refine h.erasePlan hi (update w.tables t (commitLoop plan.copies w.pool (w.tables t)).2.1) htally
    fun p => ?_
  have h1 := hre.mapped (commitLoop plan.copies w.pool (w.tables t)).1 p
  have h2 := hsrc p
  show w.mapped p + w.reserved p - (plan.copies.map CowCopy.srcPhys).count p + (plan.copies.map CowCopy.dstPhys).count p =
    (w.setTable t (commitLoop plan.copies w.pool (w.tables t)).1
      (commitLoop plan.copies w.pool (w.tables t)).2.1).mapped p + w.reserved p
  omega

omit h in
theorem step_commitCow_refused {e : String} (hi : w.plans[i]? = some plan)
    (hcheck : firstError (w.pool.checkCopy (w.tables t)) plan.copies = .error e) : w.step (.commitCow t i) =
      ({ w with pool := releaseAll plan.reserved w.pool, plans := w.plans.eraseIdx i }, .error e) := by
  have htables : update w.tables t (w.tables t) = w.tables := update_eq_self t w.tables
  simp only [step, hi, commitCow, hcheck, setTable, htables]

theorem sealPage_outcomes : (∃ e, w.step (.sealPage phys) = (w, .error e)) ∨
    ∃ pool, w.step (.sealPage phys) = ({ w with pool := pool }, .ok ()) ∧
      Tally n pool (fun p => w.mapped p + w.reserved p) w.cacheLeases w.inflightLeases := by
  simp only [step]
  rcases tally_sealPage h.tally phys with ⟨e, he⟩ | ⟨hok, htally⟩
  · rw [he]
    exact .inl ⟨e, rfl⟩
  · exact .inr ⟨_, Prod.ext rfl hok, htally⟩

/-- A lease on one page was taken or given back. -/
structure Leased (n : Nat) (w : World k) (phys : Nat) (w' : World k) : Prop where
  counted : Counted n w'
  tables : w'.tables = w.tables
  plans : w'.plans = w.plans
  cache : ∀ p, p ≠ phys → w'.cacheLeases p = w.cacheLeases p
  inflight : ∀ p, p ≠ phys → w'.inflightLeases p = w.inflightLeases p

theorem addCacheRef_outcomes : (∃ e, w.step (.addCacheRef phys) = (w, .error e)) ∨
    ∃ w', w.step (.addCacheRef phys) = (w', .ok ()) ∧ Leased n w phys w' := by
  simp only [step]
  rcases tally_addCacheRef h.tally phys with ⟨e, he⟩ | ⟨pool, hok, htally⟩
  · rw [he]
    exact .inl ⟨e, rfl⟩
  · rw [hok]
    exact .inr ⟨_, rfl, ⟨htally, h.distinct⟩, rfl, rfl, fun p hp => update_of_ne hp .., fun _ _ => rfl⟩

theorem addInflightRef_outcomes : (∃ e, w.step (.addInflightRef phys) = (w, .error e)) ∨
    ∃ w', w.step (.addInflightRef phys) = (w', .ok ()) ∧ Leased n w phys w' := by
  simp only [step]
  rcases tally_addInflightRef h.tally phys with ⟨e, he⟩ | ⟨pool, hok, htally⟩
  · rw [he]
    exact .inl ⟨e, rfl⟩
  · rw [hok]
    exact .inr ⟨_, rfl, ⟨htally, h.distinct⟩, rfl, rfl, fun _ _ => rfl, fun p hp => update_of_ne hp ..⟩

theorem releaseCacheRef_outcomes : (w.cacheLeases phys = 0 ∧ ∃ e, w.step (.releaseCacheRef phys) = (w, .error e)) ∨
    ∃ w', w.step (.releaseCacheRef phys) = (w', .ok ()) ∧ Leased n w phys w' := by
  simp only [step]
  rcases tally_releaseCacheRef h.tally phys with ⟨e, he, hz⟩ | ⟨pool, hok, htally⟩
  · rw [he]
    exact .inl ⟨hz, e, rfl⟩
  · rw [hok]
    exact .inr ⟨_, rfl, ⟨htally, h.distinct⟩, rfl, rfl, fun p hp => update_of_ne hp .., fun _ _ => rfl⟩

theorem releaseInflightRef_outcomes :
    (w.inflightLeases phys = 0 ∧ ∃ e, w.step (.releaseInflightRef phys) = (w, .error e)) ∨
    ∃ w', w.step (.releaseInflightRef phys) = (w', .ok ()) ∧ Leased n w phys w' := by
  simp only [step]
  rcases tally_releaseInflightRef h.tally phys with ⟨e, he, hz⟩ | ⟨pool, hok, htally⟩
  · rw [he]
    exact .inl ⟨hz, e, rfl⟩
  · rw [hok]
    exact .inr ⟨_, rfl, ⟨htally, h.distinct⟩, rfl, rfl, fun _ _ => rfl, fun p hp => update_of_ne hp ..⟩

end steps

end Hipfire.Pages
