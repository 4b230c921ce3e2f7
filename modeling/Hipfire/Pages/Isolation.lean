import Hipfire.Pages.Refines
/-!
# Isolation — copy-on-write gives every session an array of its own

The steps of a write: planning, copying, committing or aborting, storing.  Each keeps the pool guarded and is followed by the
private arrays, so the arrays follow every run (`cow_isolation`).
-/
namespace Hipfire.Pages

open World PagePool List Function

variable {V : Type} {k n : Nat}

/-! ## Plans -/

variable {t : Fin k} {p j : Nat} {plan : CowPlan} {pool : PagePool} {w : World k}

/-- **What a plan leaves to be stored in place** belongs to the table alone; what it copies is immutable. -/
theorem planCow_lists (h : Accounted n w) {s e : Nat}
    (hplan : w.pool.planCow (w.tables t) s e = (pool, .ok plan)) :
    (∀ c ∈ plan.copies, (∃ i, s ≤ i ∧ i < e ∧ i / pageTokens = c.logicalPage) ∧
      (w.tables t).physical c.logicalPage = some c.srcPhys ∧ (w.pool.pageMeta c.srcPhys).state.Immutable ∧
      c.validPrefixTokens = min (s - c.logicalPage * pageTokens) pageTokens) ∧
    ∀ i, s ≤ i → i < e → i / pageTokens ∉ plan.copies.map CowCopy.logicalPage →
      ∀ p, (w.tables t).physical (i / pageTokens) = some p → w.mapped p = 1 ∧ w.cacheLeases p = 0 := by
  unfold planCow at hplan
  split at hplan
  · cases hplan
  split at hplan
  · cases hplan
    exact ⟨nofun, fun i hs he => absurd he (by omega)⟩
  have hresident : ∀ lp p, (w.tables t).physical lp = some p → (w.pool.pageMeta p).state.resident = true := fun lp p hp => by
    have := mapped_pos_of_mem (w := w) (t := t) (mem_of_getElem? hp)
    exact h.tally.resident (by omega)
  rcases hl : planLoop (w.tables t) s (touchedPages s e) [] w.pool with ⟨pool', err | copies⟩
  · rw [hl] at hplan; cases hplan
  rw [hl] at hplan
  cases hplan
  obtain ⟨new, hnew, hlisted, hall⟩ := planLoop_lists (w.tables t) s (touchedPages s e) [] copies w.pool
    (fun lp _ p hp => (h.tally.not_free (ne_free_of_resident (hresident lp p hp)).1).2) (by rw [hl])
  subst hnew
  refine ⟨fun c hc => ?_, fun i hs he hni p hp => ?_⟩
  · obtain ⟨hlp, hrest⟩ := hlisted c hc
    exact ⟨(mem_touchedPages (by omega) _).1 hlp, hrest⟩
  have hmut : ¬ (w.pool.pageMeta p).state.Immutable := fun him =>
    hni (hall _ ((mem_touchedPages (by omega) _).2 ⟨i, hs, he, rfl⟩) p hp him)
  have hpriv : (w.pool.pageMeta p).state = .priv := by
    have hres := hresident _ p hp
    cases hst : (w.pool.pageMeta p).state with
    | priv => rfl
    | sealed => exact absurd (.inl hst) hmut
    | cacheOnly => exact absurd (.inr hst) hmut
    | free | reclaimPending => rw [hst] at hres; cases hres
  obtain ⟨h3, h4⟩ := (h.tally.consistent p).exclusive hpriv
  rw [h.tally.tables] at h3
  rw [h.tally.caches] at h4
  have hpos := mapped_pos_of_mem (w := w) (t := t) (mem_of_getElem? hp)
  exact ⟨by omega, h4⟩

variable {i : Nat} {wr : Write k}

/-- No live position follows the end of a write on a page that it copies. -/
theorem tail_of_tailKept {e lp src : Nat} (hkept : w.TailKept t e)
    (htouched : ∃ i, i < e ∧ i / pageTokens = lp) (hsrc : (w.tables t).physical lp = some src)
    (him : (w.pool.pageMeta src).state.Immutable) (he : e ≤ i) (hi : i / pageTokens = lp) :
    (w.tables t).liveTokens ≤ i := by
  obtain ⟨i₀, hlt, hi₀⟩ := htouched
  rcases hkept with hlive | halign | ⟨p, hp, hpriv⟩
  · omega
  · unfold pageTokens at halign hi hi₀
    omega
  · have hpage : e / pageTokens = lp := by unfold pageTokens at hi hi₀ ⊢; omega
    rw [hpage, hsrc] at hp
    cases hp
    rw [hpriv] at him
    exact absurd him (by rintro (h | h) <;> cases h)

/-! ## Lists and memories -/

variable {copies : List CowCopy}

theorem copyAll_of_not_mem (hp : p ∉ copies.map CowCopy.dstPhys) (j : Nat) :
    ∀ memory : Nat × Nat → V, copyAll copies memory (p, j) = memory (p, j) := by
  induction copies with
  | nil => exact fun _ => rfl
  | cons c copies ih =>
    intro memory
    rw [map_cons, mem_cons, not_or] at hp
    refine (ih hp.2 (copyPrefix c memory)).trans ?_
    exact if_neg (fun hc => hp.1 hc.1)

/-- **A finished copy** holds the valid prefix of its source. -/
theorem copyAll_valid (hnd : (copies.map CowCopy.dstPhys).Nodup)
    (hsrc : ∀ c ∈ copies, c.srcPhys ∉ copies.map CowCopy.dstPhys) : ∀ memory : Nat × Nat → V, ∀ c ∈ copies,
    ∀ j < c.validPrefixTokens, copyAll copies memory (c.dstPhys, j) = memory (c.srcPhys, j) := by
  induction copies with
  | nil => exact fun _ => nofun
  | cons d copies ih =>
    intro memory c hc j hj
    obtain ⟨hni, hnd'⟩ := nodup_cons.1 hnd
    have hsrc' : ∀ c ∈ copies, c.srcPhys ∉ copies.map CowCopy.dstPhys := fun c hc hm =>
      hsrc c (mem_cons_of_mem _ hc) (mem_cons_of_mem _ hm)
    rcases mem_cons.1 hc with rfl | hc
    · exact (copyAll_of_not_mem hni j _).trans (if_pos ⟨rfl, hj⟩)
    · refine (ih hnd' hsrc' _ c hc j hj).trans (if_neg (fun hd => ?_))
      exact hsrc c (mem_cons_of_mem _ hc) (hd.1 ▸ mem_cons_self)

theorem mem_pages_of_addr {bt : BlockTable} (h : bt.addr i = some (p, j)) :
    bt.physical (i / pageTokens) = some p ∧ i % pageTokens = j ∧ p ∈ bt.pages := by
  obtain ⟨q, hq, heq⟩ := Option.map_eq_some_iff.1 h
  obtain ⟨rfl, rfl⟩ := Prod.mk.inj heq
  exact ⟨hq, rfl, mem_of_getElem? hq⟩

/-- A memory that differs on pages of no table only is read alike. -/
theorem read_congr {σ : Sessions V k} {memory : Nat × Nat → V}
    (h : ∀ p ∈ (σ.world.tables t).pages, memory (p, i % pageTokens) = σ.memory (p, i % pageTokens)) :
    ((σ.world.tables t).addr i).map memory = σ.read t i := by
  unfold Sessions.read
  cases ha : (σ.world.tables t).addr i with
  | none => rfl
  | some c =>
    obtain ⟨p, j⟩ := c
    obtain ⟨-, rfl, hp⟩ := mem_pages_of_addr ha
    exact congrArg some (h p hp)

variable {wr' : Write k}

theorem getElem?_set_copied {planned : List (Write k)} (hi : planned[i]? = some wr)
    (hj : (planned.set i { wr with copied := true })[j]? = some wr') :
    ∃ wr₀, planned[j]? = some wr₀ ∧
    wr'.table = wr₀.table ∧ wr'.start = wr₀.start ∧ wr'.stop = wr₀.stop ∧ (j ≠ i → wr' = wr₀) := by
  by_cases hji : j = i
  · subst hji
    rw [getElem?_set_self (lt_of_getElem? hi)] at hj
    obtain rfl := Option.some.inj hj
    exact ⟨wr, hi, rfl, rfl, rfl, fun hne => absurd rfl hne⟩
  · rw [getElem?_set_ne (Ne.symm hji)] at hj
    exact ⟨wr', hj, rfl, rfl, rfl, fun _ => rfl⟩

theorem map_table_set {planned : List (Write k)} (hi : planned[i]? = some wr) :
    (planned.set i { wr with copied := true }).map Write.table = planned.map Write.table := by
  obtain ⟨hlt, rfl⟩ := List.getElem?_eq_some_iff.1 hi
  rw [map_set]
  exact (map_set (a := planned[i])).symm.trans (congrArg _ (set_getElem_self hlt))

/-- The entries left at one place of two aligned lists without their entries at `i`. -/
theorem getElem?_eraseIdx_both {α β : Type} {xs : List α} {ys : List β} {x : α} {y : β}
    (hx : (xs.eraseIdx i)[j]? = some x) (hy : (ys.eraseIdx i)[j]? = some y) :
    ∃ j', j' ≠ i ∧ xs[j']? = some x ∧ ys[j']? = some y := by
  rw [getElem?_eraseIdx] at hx hy
  by_cases hj : j < i
  · rw [if_pos hj] at hx hy
    exact ⟨j, by omega, hx, hy⟩
  · rw [if_neg hj] at hx hy
    exact ⟨j + 1, by omega, hx, hy⟩

/-! ## Planning -/

section steps

variable {σ : Sessions V k} {a : Arrays V k} (h : Guarded n σ) (hr : Refines σ a)
include h

theorem Guarded.planned {s e : Nat}
    (hplan : σ.world.pool.planCow (σ.world.tables t) s e = (pool, .ok plan))
    (hacc : Accounted n { σ.world with pool := pool, plans := σ.world.plans ++ [plan] })
    (hbusy : ¬ σ.Busy t) (hcap : e ≤ (σ.world.tables t).liveTokens) (hkept : σ.world.TailKept t e) :
    Guarded n { σ with
      world := { σ.world with pool := pool, plans := σ.world.plans ++ [plan] }
      planned := σ.planned ++ [⟨t, s, e, false⟩] } := by
  obtain ⟨hlists, hprivate⟩ := planCow_lists h.accounted hplan
  -- the entries at one place of the two lists: old ones, or the new one and its plan
  have hsplit : ∀ (i : Nat) (wr : Write k) (plan' : CowPlan), (σ.planned ++ [⟨t, s, e, false⟩])[i]? = some wr →
      (σ.world.plans ++ [plan])[i]? = some plan' →
      (σ.planned[i]? = some wr ∧ σ.world.plans[i]? = some plan') ∨ (wr = ⟨t, s, e, false⟩ ∧ plan' = plan) := by
    intro i wr plan' hwr hplan'
    have haligned := h.aligned
    rcases getElem?_concat hwr with hwr | ⟨hi, rfl⟩ <;> rcases getElem?_concat hplan' with hplan' | ⟨hi', rfl⟩
    · exact .inl ⟨hwr, hplan'⟩
    · have := lt_of_getElem? hwr
      omega
    · have := lt_of_getElem? hplan'
      omega
    · exact .inr ⟨rfl, rfl⟩
  refine ⟨hacc, h.live_le, ?_, ?_, fun wr hwr => ?_, fun i wr plan' hwr hplan' => ?_, fun p hp => ?_⟩
  · simp only [length_append, h.aligned, length_singleton]
  · simp only [map_append, map_cons, map_nil]
    rw [append_assoc, singleton_append]
    rw [nodup_middle, nodup_cons]
    exact ⟨fun hm => hbusy (mem_append.1 hm), h.owners⟩
  · simp only [append_assoc, mem_append, mem_singleton] at hwr
    rcases hwr with hwr | rfl | hwr
    · exact h.stop_le wr (mem_append_left _ hwr)
    · exact hcap
    · exact h.stop_le wr (mem_append_right _ hwr)
  · rcases hsplit i wr plan' hwr hplan' with ⟨h1, h2⟩ | ⟨rfl, rfl⟩
    · exact h.plans i wr plan' h1 h2
    · refine ⟨fun c hc => (hlists c hc).2.1, fun c hc => (hlists c hc).2.2.2, fun c hc i he hi => ?_, nofun⟩
      obtain ⟨⟨i₀, -, hlt, hi₀⟩, hsrc, him, -⟩ := hlists c hc
      show (σ.world.tables t).liveTokens ≤ i
      exact tail_of_tailKept hkept ⟨i₀, hlt, hi₀⟩ hsrc him he hi
  · rcases mem_inPlace.1 hp with ⟨i, wr, plan', hwr, hplan', hs⟩ | hco
    · rcases hsplit i wr plan' hwr hplan' with ⟨h1, h2⟩ | ⟨rfl, rfl⟩
      · exact h.exclusive p (mem_inPlace.2 (.inl ⟨i, wr, plan', h1, h2, hs⟩))
      · obtain ⟨i, h1, h2, h3, h4⟩ := mem_stored.1 hs
        exact hprivate i h1 h2 h3 p h4
    · exact h.exclusive p (mem_inPlace.2 (.inr hco))

include hr in
theorem simulated_plan (t : Fin k) (s e : Nat) (hbusy : ¬ σ.Busy t) (hcap : e ≤ (σ.world.tables t).liveTokens)
    (hkept : σ.world.TailKept t e) : Simulated n σ a (.plan t s e) := by
  have hacc := (step_planCow h.accounted t s e).1
  unfold Simulated
  simp only [Sessions.step, step] at hacc ⊢
  rcases hplan : σ.world.pool.planCow (σ.world.tables t) s e with ⟨pool, err | plan⟩
  · rw [hplan] at hacc
    exact ⟨a, rfl, h.repool hacc rfl rfl (fun p hp => (h.exclusive p hp).2), hr.repool rfl (fun _ => id)⟩
  · rw [hplan] at hacc
    exact ⟨a, rfl, h.planned hplan hacc hbusy hcap hkept, hr.agrees, hr.pages, hr.cache⟩

/-! ## Copying -/

theorem Guarded.planOf (ht : t ∈ σ.planned.map Write.table) : ∃ (i : Nat) (wr : Write k) (plan : CowPlan),
    σ.planOf t = some i ∧ σ.planned[i]? = some wr ∧ wr.table = t ∧ σ.world.plans[i]? = some plan := by
  cases hi : σ.planOf t with
  | none =>
    obtain ⟨wr, hwr, heq⟩ := mem_map.1 ht
    have := findIdx?_eq_none_iff.1 hi wr hwr
    simp only [heq, decide_true] at this
    cases this
  | some i =>
    obtain ⟨hlt, htable, -⟩ := findIdx?_eq_some_iff_getElem.1 hi
    have hlt' : i < σ.world.plans.length := h.aligned ▸ hlt
    exact ⟨i, _, _, rfl, getElem?_eq_getElem hlt, by simpa using htable, getElem?_eq_getElem hlt'⟩

/-- The pages a plan has reserved are nobody else's. -/
theorem Guarded.reserved (hi : σ.world.plans[i]? = some plan) (hp : p ∈ plan.reserved) :
    σ.world.mapped p = 0 ∧ σ.world.cacheLeases p = 0 ∧
      ∀ j plan', σ.world.plans[j]? = some plan' → j ≠ i → p ∉ plan'.reserved := by
  have hcount := reserved_eraseIdx hi p
  have hpos := count_pos_iff.2 hp
  have hres : 0 < σ.world.reserved p := by unfold World.reserved; omega
  obtain ⟨hone, hm, hc, -⟩ := h.accounted.apart p hres
  refine ⟨hm, hc, fun j plan' hj hne hp' => ?_⟩
  have hmem : p ∈ (σ.world.plans.eraseIdx i).flatMap CowPlan.reserved :=
    mem_flatMap.2 ⟨plan', mem_eraseIdx_iff_getElem?.2 ⟨j, hne, hj⟩, hp'⟩
  have hpos' := count_pos_iff.2 hmem
  unfold World.reserved at hone
  omega

include hr in
theorem simulated_copy (t : Fin k) (ht : t ∈ σ.planned.map Write.table) : Simulated n σ a (.copy t) := by
  obtain ⟨i, wr, plan, hof, hwr, hwt, hplan⟩ := h.planOf ht
  have hres := fun p hp => h.reserved hplan (p := p) hp
  have hnd := (h.accounted.plan hplan).1
  have hwell := h.plans i wr plan hwr hplan
  -- the sources are mapped, the destinations are not
  have hsrc : ∀ c ∈ plan.copies, c.srcPhys ∉ plan.copies.map CowCopy.dstPhys := fun c hc hm => by
    have hpos := mapped_pos_of_mem (w := σ.world) (mem_of_getElem? (hwell.maps c hc))
    have hzero := (hres _ hm).1
    omega
  have hkeep : ∀ p, 0 < σ.world.mapped p ∨ 0 < σ.world.cacheLeases p → ∀ j,
      copyAll plan.copies σ.memory (p, j) = σ.memory (p, j) := fun p hp j => by
    refine copyAll_of_not_mem (fun hm => ?_) j σ.memory
    obtain ⟨h1, h2, -⟩ := hres p hm
    omega
  unfold Simulated
  simp only [Sessions.step, hof, hwr, hplan]
  refine ⟨a, rfl, ⟨h.accounted, h.live_le, ?_, ?_, fun wr' hwr' => ?_, fun j wr' plan' hj hj' => ?_, fun p hp => ?_⟩,
    fun u => ⟨(hr.agrees u).1, fun x hx hnot => ?_⟩, hr.pages, fun p hp => ?_⟩
  · rw [length_set]; exact h.aligned
  · rw [map_table_set hwr]; exact h.owners
  · rcases mem_append.1 hwr' with hm | hm
    · obtain ⟨j, hj⟩ := mem_iff_getElem?.1 hm
      obtain ⟨wr₀, hj₀, h1, -, h2, -⟩ := getElem?_set_copied hwr hj
      have := h.stop_le wr₀ (mem_append_left _ (mem_of_getElem? hj₀))
      rw [h1, h2]
      exact this
    · exact h.stop_le wr' (mem_append_right _ hm)
  · obtain ⟨wr₀, hj₀, h1, h2, h3, h4⟩ := getElem?_set_copied hwr hj
    have hwell' := h.plans j wr₀ plan' hj₀ hj'
    simp only [h1]
    refine ⟨hwell'.maps, h2 ▸ hwell'.valid, h3 ▸ hwell'.tail, fun hcop c hc x hx => ?_⟩
    by_cases hji : j = i
    · subst hji
      obtain rfl : plan = plan' := Option.some.inj (hplan.symm.trans hj')
      rw [copyAll_valid hnd hsrc σ.memory c hc x hx]
      exact (hkeep _ (.inl (mapped_pos_of_mem (mem_of_getElem? (hwell.maps c hc)))) x).symm
    · -- another plan: neither its sources nor its destinations are copied to
      rw [hkeep _ (.inl (mapped_pos_of_mem (mem_of_getElem? (hwell'.maps c hc)))) x,
        copyAll_of_not_mem (fun hm => (hres _ hm).2.2 j plan' hj' hji (mem_map_of_mem hc)) x σ.memory]
      exact hwell'.prefixes (h4 hji ▸ hcop) c hc x hx
  · rcases mem_inPlace.1 hp with ⟨j, wr', plan', hj, hj', hs⟩ | hco
    · obtain ⟨wr₀, hj₀, h1, h2, h3, -⟩ := getElem?_set_copied hwr hj
      refine h.exclusive p (mem_inPlace.2 (.inl ⟨j, wr₀, plan', hj₀, hj', ?_⟩))
      rw [mem_stored] at hs ⊢
      rw [h1, h2, h3] at hs
      exact hs
    · exact h.exclusive p (mem_inPlace.2 (.inr hco))
  · exact (read_congr (fun p hp => hkeep p (.inl (mapped_pos_of_mem hp)) _)).trans ((hr.agrees u).2 x hx hnot)
  · rw [hr.cache p hp]
    exact map_congr_left (fun j _ => (hkeep p (.inr hp) j).symm)

/-! ## Committing and aborting -/

/-- Another planned write is of another table. -/
theorem Guarded.other_table (hi : σ.planned[i]? = some wr)
    (hj : σ.planned[j]? = some wr') (hne : j ≠ i) : wr'.table ≠ wr.table := by
  intro heq
  have hnd := (nodup_append.1 h.owners).1
  have hlt : j < (σ.planned.map Write.table).length := by
    rw [length_map]; exact lt_of_getElem? hj
  refine hne ((getElem?_inj hlt hnd).1 ?_)
  rw [getElem?_map, getElem?_map, hi, hj]
  exact congrArg some heq

/-- And so is a committed one. -/
theorem Guarded.committed_table (hi : σ.planned[i]? = some wr) (hm : wr' ∈ σ.committed) :
    wr'.table ≠ wr.table := fun heq =>
  (nodup_append.1 h.owners).2.2 _ (mem_map_of_mem (mem_of_getElem? hi)) _ (mem_map_of_mem hm) heq.symm

theorem Guarded.unplan {w' : World k} (i : Nat) (hacc : Accounted n w') (htables : w'.tables = σ.world.tables)
    (hplans : w'.plans = σ.world.plans.eraseIdx i) (hcache : w'.cacheLeases = σ.world.cacheLeases) :
    Guarded n { σ with world := w', planned := σ.planned.eraseIdx i } := by
  have hsub := eraseIdx_sublist σ.planned i
  refine ⟨hacc, ?_, ?_, ?_, ?_, fun j wr plan hj hj' => ?_, fun p hp => ?_⟩
  · simp only [htables]; exact h.live_le
  · simp only [hplans, length_eraseIdx, h.aligned]
  · exact h.owners.sublist ((hsub.map Write.table).append_right _)
  · simp only [htables]
    exact fun wr hwr => h.stop_le wr ((hsub.append_right _).subset hwr)
  · simp only [hplans] at hj'
    obtain ⟨j', -, h1, h2⟩ := getElem?_eraseIdx_both hj hj'
    simp only [htables]
    exact h.plans j' wr plan h1 h2
  · have hin : p ∈ σ.inPlace := by
      rcases mem_inPlace.1 hp with ⟨j, wr, plan, hj, hj', hs⟩ | ⟨wr, hwr, hs⟩
      · simp only [hplans] at hj'
        obtain ⟨j', -, h1, h2⟩ := getElem?_eraseIdx_both hj hj'
        exact mem_inPlace.2 (.inl ⟨j', wr, plan, h1, h2, htables ▸ hs⟩)
      · exact mem_inPlace.2 (.inr ⟨wr, hwr, htables ▸ hs⟩)
    obtain ⟨h1, h2⟩ := h.exclusive p hin
    have hmap : w'.mapped p = σ.world.mapped p := by unfold mapped; rw [htables]
    exact ⟨hmap.trans h1, (congrFun hcache p).trans h2⟩

include hr in
theorem simulated_abort (t : Fin k) (ht : t ∈ σ.planned.map Write.table) : Simulated n σ a (.abort t) := by
  obtain ⟨i, wr, plan, hof, -, -, hplan⟩ := h.planOf ht
  have hacc := (step_abortCow h.accounted i).1
  unfold Simulated
  simp only [Sessions.step, step, hof, hplan] at hacc ⊢
  exact ⟨a, rfl, h.unplan i hacc rfl rfl rfl, hr.agrees, hr.pages, hr.cache⟩

section commit

variable {i : Nat} {wr : Write k} {plan : CowPlan} (hwr : σ.planned[i]? = some wr) (hplan : σ.world.plans[i]? = some plan)
  {bt : BlockTable} (hre : Remapped (σ.world.tables wr.table) plan.copies bt) (pool : PagePool)
include hwr hplan hre

omit hwr in
/-- A page in place that is no source stays mapped once. -/
theorem Guarded.commit_kept (hp : p ∈ σ.inPlace) (hns : p ∉ plan.copies.map CowCopy.srcPhys) :
    (σ.world.setTable wr.table pool bt).mapped p = 1 ∧ σ.world.cacheLeases p = 0 := by
  obtain ⟨hone, hc⟩ := h.exclusive p hp
  have hnd : p ∉ plan.copies.map CowCopy.dstPhys := fun hm => by
    have := (h.reserved hplan hm).1
    omega
  have hcount := hre.mapped (w := σ.world) pool p
  rw [count_eq_zero.2 hns, count_eq_zero.2 hnd] at hcount
  exact ⟨by omega, hc⟩

/-- The pages of the other writes are no sources. -/
theorem Guarded.commit_other {u : Fin k} (hu : u ≠ wr.table) (hp : p ∈ σ.inPlace) (hpu : p ∈ (σ.world.tables u).pages) :
    (σ.world.setTable wr.table pool bt).mapped p = 1 ∧ σ.world.cacheLeases p = 0 := by
  refine h.commit_kept hplan hre pool hp (fun hm => ?_)
  obtain ⟨c, hc, rfl⟩ := mem_map.1 hm
  have h1 := count_pos_iff.2 (mem_of_getElem? ((h.plans i wr plan hwr hplan).maps c hc))
  have h2 := count_pos_iff.2 hpu
  have h3 := count_add_count_le_mapped σ.world hu c.srcPhys
  have h4 := (h.exclusive _ hp).1
  omega

/-- **A commit makes the pages of its write all its own**: those it copied and those it left in place. -/
theorem Guarded.commit_own (hp : p ∈ wr.stored bt []) :
    (σ.world.setTable wr.table pool bt).mapped p = 1 ∧ σ.world.cacheLeases p = 0 := by
  have hwell := h.plans i wr plan hwr hplan
  obtain ⟨x, h1, h2, -, h4⟩ := mem_stored.1 hp
  by_cases hx : x / pageTokens ∈ plan.copies.map CowCopy.logicalPage
  · obtain ⟨c, hc, hlp⟩ := mem_map.1 hx
    rw [← hlp, hre.copied c hc] at h4
    obtain rfl := Option.some.inj h4
    have hmem : c.dstPhys ∈ plan.reserved := mem_map_of_mem hc
    obtain ⟨hz, hcz, -⟩ := h.reserved hplan hmem
    -- a destination is mapped by nobody before, so it is no source
    have hns : c.dstPhys ∉ plan.copies.map CowCopy.srcPhys := fun hm => by
      obtain ⟨d, hd, hds⟩ := mem_map.1 hm
      have hpos := mapped_pos_of_mem (w := σ.world) (mem_of_getElem? (hwell.maps d hd))
      rw [hds] at hpos
      omega
    have hone := count_eq_one_of_mem (h.accounted.plan hplan).1 hmem
    unfold CowPlan.reserved at hone
    have hcount := hre.mapped (w := σ.world) pool c.dstPhys
    rw [count_eq_zero.2 hns, hone] at hcount
    exact ⟨by omega, hcz⟩
  · rw [hre.others _ hx] at h4
    have hin : p ∈ σ.inPlace := mem_inPlace.2 (.inl ⟨i, wr, plan, hwr, hplan, mem_stored.2 ⟨x, h1, h2, hx, h4⟩⟩)
    refine h.commit_kept hplan hre pool hin (fun hm => ?_)
    obtain ⟨c, hc, hcs⟩ := mem_map.1 hm
    have hne : c.logicalPage ≠ x / pageTokens := fun heq => hx (heq ▸ mem_map_of_mem hc)
    have htwo := two_le_count hne (hcs ▸ hwell.maps c hc) h4
    have hle := count_le_mapped σ.world wr.table p
    have hone := (h.exclusive p hin).1
    omega

theorem Guarded.commit (hacc : Accounted n { σ.world.setTable wr.table pool bt with plans := σ.world.plans.eraseIdx i }) :
    Guarded n { σ with
      world := { σ.world.setTable wr.table pool bt with plans := σ.world.plans.eraseIdx i }
      planned := σ.planned.eraseIdx i
      committed := σ.committed ++ [wr] } := by
  have hoff : ∀ u, u ≠ wr.table → (σ.world.setTable wr.table pool bt).tables u = σ.world.tables u := fun u hu =>
    update_of_ne hu ..
  have hat : (σ.world.setTable wr.table pool bt).tables wr.table = bt := update_self ..
  refine ⟨hacc, fun u => ?_, ?_, ?_, fun wr' hm => ?_, fun j wr' plan' hj hj' => ?_, fun p hp => ?_⟩
  · by_cases hu : u = wr.table
    · subst hu
      simp only [hat, hre.live, hre.length]
      exact h.live_le _
    · simp only [hoff u hu]
      exact h.live_le u
  · simp only [length_eraseIdx, h.aligned]
  · have hperm := getElem_cons_eraseIdx_perm (lt_of_getElem? hwr)
    rw [(List.getElem?_eq_some_iff.1 hwr).2] at hperm
    have hperm' := (hperm.map Write.table).append_right (σ.committed.map Write.table)
    rw [map_append, map_cons, map_nil, ← append_assoc]
    exact (perm_append_singleton ..).nodup_iff.2 (hperm'.nodup_iff.2 h.owners)
  · simp only [mem_append, mem_singleton] at hm
    have hlive : ((σ.world.setTable wr.table pool bt).tables wr'.table).liveTokens =
        (σ.world.tables wr'.table).liveTokens := by
      by_cases hu : wr'.table = wr.table
      · rw [hu, hat, hre.live]
      · rw [hoff _ hu]
    refine Nat.le_trans (h.stop_le wr' (mem_append.2 ?_)) (Nat.le_of_eq hlive.symm)
    rcases hm with hm | hm | rfl
    · exact .inl (mem_of_mem_eraseIdx hm)
    · exact .inr hm
    · exact .inl (mem_of_getElem? hwr)
  · obtain ⟨j', hne, h1, h2⟩ := getElem?_eraseIdx_both hj hj'
    simp only [hoff _ (h.other_table hwr h1 hne)]
    exact h.plans j' wr' plan' h1 h2
  · rcases mem_inPlace.1 hp with ⟨j, wr', plan', hj, hj', hs⟩ | ⟨wr', hm, hs⟩
    · obtain ⟨j', hne, h1, h2⟩ := getElem?_eraseIdx_both hj hj'
      have hu := h.other_table hwr h1 hne
      simp only [hoff _ hu] at hs
      have hin := mem_inPlace.2 (.inl ⟨j', wr', plan', h1, h2, hs⟩)
      exact h.commit_other hwr hplan hre pool hu hin (mem_pages_of_stored hs)
    · rcases mem_append.1 hm with hm | hm
      · have hu := h.committed_table hwr hm
        simp only [hoff _ hu] at hs
        have hin := mem_inPlace.2 (.inr ⟨wr', hm, hs⟩)
        exact h.commit_other hwr hplan hre pool hu hin (mem_pages_of_stored hs)
      · obtain rfl := mem_singleton.1 hm
        simp only [hat] at hs
        exact h.commit_own hwr hplan hre pool hs

variable {x : Nat}

/-- **A commit changes no live position outside the write.** -/
theorem Guarded.commit_reads (hcopied : wr.copied = true) (hx : x < (σ.world.tables wr.table).liveTokens)
    (hout : ¬ (wr.start ≤ x ∧ x < wr.stop)) : (bt.addr x).map σ.memory = σ.read wr.table x := by
  have hwell := h.plans i wr plan hwr hplan
  unfold Sessions.read BlockTable.addr
  by_cases hlp : x / pageTokens ∈ plan.copies.map CowCopy.logicalPage
  · obtain ⟨c, hc, heq⟩ := mem_map.1 hlp
    -- the position is before the write: past it, the page has no live position
    have hbefore : x < wr.start := by
      by_contra hge
      have htail := hwell.tail c hc x (by omega) heq.symm
      omega
    have hvalid : x % pageTokens < c.validPrefixTokens := by
      rw [hwell.valid c hc, heq]
      unfold pageTokens
      omega
    rw [← heq, hre.copied c hc, hwell.maps c hc]
    exact congrArg some (hwell.prefixes hcopied c hc _ hvalid)
  · rw [hre.others _ hlp]

end commit

include hr in
theorem simulated_commit (t : Fin k) (ht : ∃ wr ∈ σ.planned, wr.table = t ∧ wr.copied = true) :
    Simulated n σ a (.commit t) := by
  obtain ⟨wr₀, hwr₀, hwt₀, hcopied⟩ := ht
  obtain ⟨i, wr, plan, hof, hwr, hwt, hplan⟩ := h.planOf (mem_map.2 ⟨wr₀, hwr₀, hwt₀⟩)
  -- the table has one planned write
  obtain rfl : wr = wr₀ := by
    obtain ⟨j, hj⟩ := mem_iff_getElem?.1 hwr₀
    by_cases hji : j = i
    · subst hji; exact Option.some.inj (hwr.symm.trans hj)
    · exact absurd (hwt₀.trans hwt.symm) (h.other_table hwr hj hji)
  subst hwt
  have hacc := (step_commitCow h.accounted wr.table i).1
  unfold Simulated
  simp only [Sessions.step, step, hof, hplan, hwr, commitCow] at hacc ⊢
  cases hcheck : firstError (σ.world.pool.checkCopy (σ.world.tables wr.table)) plan.copies with
  | error e =>
    rw [hcheck] at hacc
    have hsame : (σ.world.setTable wr.table (releaseAll plan.reserved σ.world.pool) (σ.world.tables wr.table)).tables =
        σ.world.tables := update_eq_self ..
    have hr' := hr.repool hsame (fun _ => id)
    exact ⟨a, rfl, h.unplan i hacc hsame rfl rfl, hr'.agrees, hr'.pages, hr'.cache⟩
  | ok u =>
    obtain ⟨hre, hok, -⟩ := commitLoop_checked h.accounted.tally (h.accounted.distinct plan (mem_of_getElem? hplan)) hcheck
    rw [hcheck] at hacc
    rcases hloop : commitLoop plan.copies σ.world.pool (σ.world.tables wr.table) with ⟨pool, bt, e | u⟩
    · rw [hloop] at hok; cases hok
    simp only [hloop] at hacc hre ⊢
    refine ⟨a, rfl, h.commit hwr hplan hre pool hacc, fun u => ?_, fun u => ?_, hr.cache⟩
    · by_cases hu : u = wr.table
      · subst hu
        simp only [setTable, update_self, Sessions.read, hre.live]
        refine ⟨(hr.agrees _).1, fun x hx hnot => ?_⟩
        rw [h.commit_reads hwr hplan hre hcopied hx (fun hin =>
          hnot ⟨wr, mem_append_right _ (mem_singleton_self wr), rfl, hin⟩)]
        refine (hr.agrees _).2 x hx ?_
        rintro ⟨wr', hwr', ht', -⟩
        exact h.committed_table hwr hwr' ht'
      · simp only [setTable, update_of_ne hu, Sessions.read]
        refine ⟨(hr.agrees u).1, fun x hx hnot => (hr.agrees u).2 x hx ?_⟩
        rintro ⟨wr', hwr', hin⟩
        exact hnot ⟨wr', mem_append_left _ hwr', hin⟩
    · rw [hr.pages u]
      by_cases hu : u = wr.table
      · subst hu
        simp only [setTable, update_self, hre.length]
      · simp only [setTable, update_of_ne hu]

end steps

/-! ## Storing -/

theorem length_overwrite {cells values : List V} {start : Nat} (h : start + values.length ≤ cells.length) :
    (overwrite cells start values).length = cells.length := by
  unfold overwrite
  simp only [length_append, length_take, length_drop]
  omega

theorem getElem?_overwrite {cells values : List V} {start : Nat} (h : start + values.length ≤ cells.length) (x : Nat) :
    (overwrite cells start values)[x]? =
      if start ≤ x ∧ x < start + values.length then values[x - start]? else cells[x]? := by
  have htake : (cells.take start).length = start := by rw [length_take]; omega
  unfold overwrite
  by_cases hlow : x < start
  · rw [if_neg (by omega), append_assoc, getElem?_append_left (by omega), getElem?_take_of_lt hlow]
  by_cases hmid : x < start + values.length
  · rw [if_pos ⟨by omega, hmid⟩, getElem?_append_left (by rw [length_append]; omega),
      getElem?_append_right (by omega), htake]
  · rw [if_neg (by omega), getElem?_append_right (by rw [length_append]; omega), getElem?_drop,
      length_append, htake]
    congr 1
    omega

/-- A page mapped once is at one logical page of one table. -/
theorem addr_inj {y : Nat} (hone : w.mapped p = 1)
    (hx : (w.tables t).addr x = some (p, j)) (hy : (w.tables t).addr y = some (p, j)) : x = y := by
  obtain ⟨hx, hxj, -⟩ := mem_pages_of_addr hx
  obtain ⟨hy, hyj, -⟩ := mem_pages_of_addr hy
  have hpage : x / pageTokens = y / pageTokens := by
    by_contra hne
    have htwo := two_le_count hne hx hy
    have hle := count_le_mapped w t p
    omega
  rw [← Nat.div_add_mod x pageTokens, ← Nat.div_add_mod y pageTokens, hpage, hxj, hyj]

section store

variable {σ : Sessions V k} {a : Arrays V k} (h : Guarded n σ) {wr : Write k} (hwr : wr ∈ σ.committed) {values : List V}
  (hstop : wr.stop = wr.start + values.length)
include h hwr hstop

theorem Guarded.hit (hle : wr.start ≤ x) (hlt : x < wr.start + values.length)
    (hx : (σ.world.tables wr.table).addr x = some (p, j)) : p ∈ σ.inPlace ∧ σ.world.mapped p = 1 := by
  have hin : p ∈ σ.inPlace := mem_inPlace.2 (.inr ⟨wr, hwr, mem_stored.2 ⟨x, hle, by omega, nofun, (mem_pages_of_addr hx).1⟩⟩)
  exact ⟨hin, (h.exclusive p hin).1⟩

/-- **A store changes no page** but those its write has for itself. -/
theorem Guarded.store_miss (hp : p ∈ σ.inPlace → p ∉ (σ.world.tables wr.table).pages) (j : Nat) :
    storeRun (σ.world.tables wr.table).addr wr.start values σ.memory (p, j) = σ.memory (p, j) :=
  storeRun_of_not_hit (fun _ hle hlt hx => hp (h.hit hwr hstop hle hlt hx).1 (mem_pages_of_addr hx).2.2)

omit hwr hstop in
/-- The pages of the other tables are not stored to. -/
theorem Guarded.not_own {u : Fin k} (hu : u ≠ wr.table) (hp : p ∈ (σ.world.tables u).pages) (hin : p ∈ σ.inPlace) :
    p ∉ (σ.world.tables wr.table).pages := fun hm => by
  have h1 := count_pos_iff.2 hp
  have h2 := count_pos_iff.2 hm
  have h3 := count_add_count_le_mapped σ.world hu p
  have h4 := (h.exclusive p hin).1
  omega

/-- **What the session reads after its store**: the values, and what it read before elsewhere. -/
theorem Guarded.store_reads (hx : x < (σ.world.tables wr.table).liveTokens) :
    ((σ.world.tables wr.table).addr x).map (storeRun (σ.world.tables wr.table).addr wr.start values σ.memory) =
      if wr.start ≤ x ∧ x < wr.start + values.length then values[x - wr.start]? else σ.read wr.table x := by
  obtain ⟨⟨p, j⟩, haddr⟩ := exists_addr (σ.world.tables wr.table) (Nat.lt_of_lt_of_le hx (h.live_le wr.table))
  unfold Sessions.read
  rw [haddr]
  by_cases hin : wr.start ≤ x ∧ x < wr.start + values.length
  · have hone := (h.hit hwr hstop hin.1 hin.2 haddr).2
    rw [if_pos hin, storeRun_of_hit haddr hin.1 hin.2 (fun y _ _ hy => addr_inj hone hy haddr)]
    rfl
  · rw [if_neg hin]
    refine congrArg some (storeRun_of_not_hit (fun y hle hlt hy => ?_))
    have hone := (h.hit hwr hstop hle hlt hy).2
    exact hin (addr_inj hone hy haddr ▸ ⟨hle, hlt⟩)

theorem Guarded.store : Guarded n { σ with
    memory := storeRun (σ.world.tables wr.table).addr wr.start values σ.memory
    committed := σ.committed.filter (fun wr' => wr'.table ≠ wr.table) } := by
  have hsub := filter_sublist (p := fun wr' => decide (wr'.table ≠ wr.table)) (l := σ.committed)
  refine ⟨h.accounted, h.live_le, h.aligned, h.owners.sublist ((hsub.map Write.table).append_left _), fun wr' hm => ?_,
    fun i wr' plan hi hplan => ?_, fun p hp => ?_⟩
  · exact h.stop_le wr' ((hsub.append_left _).subset hm)
  · have hwell := h.plans i wr' plan hi hplan
    refine ⟨hwell.maps, hwell.valid, hwell.tail, fun hcop c hc j hj => ?_⟩
    -- neither the destination, which nobody maps, nor the source, which another table maps, is stored to
    have hdst := h.store_miss hwr hstop (p := c.dstPhys) (fun hin => absurd (h.exclusive _ hin).1 (by
      rw [(h.reserved hplan (mem_map_of_mem hc)).1]; decide)) j
    have hsrc := h.store_miss hwr hstop
      (h.not_own (Ne.symm (h.committed_table hi hwr)) (mem_of_getElem? (hwell.maps c hc))) j
    exact hdst.trans ((hwell.prefixes hcop c hc j hj).trans hsrc.symm)
  · refine h.exclusive p (mem_inPlace.2 ((mem_inPlace.1 hp).imp id ?_))
    rintro ⟨wr', hm, hs⟩
    exact ⟨wr', hsub.subset hm, hs⟩

theorem simulated_store (hr : Refines σ a) : Simulated n σ a (.store wr.table wr.start values) := by
  have hfits : wr.start + values.length ≤ (a.sessions wr.table).cells.length := by
    rw [(hr.agrees wr.table).1, ← hstop]
    exact h.stop_le wr (mem_append_right _ hwr)
  refine ⟨_, rfl, h.store hwr hstop, fun u => ?_, fun u => ?_, fun p hp => ?_⟩
  · by_cases hu : u = wr.table
    · subst hu
      simp only [Sessions.step, Arrays.set, update_self]
      refine ⟨(length_overwrite hfits).trans (hr.agrees _).1, fun x hx _ => ?_⟩
      refine (h.store_reads hwr hstop hx).trans ?_
      rw [getElem?_overwrite hfits]
      by_cases hin : wr.start ≤ x ∧ x < wr.start + values.length
      · rw [if_pos hin, if_pos hin]
      rw [if_neg hin, if_neg hin]
      -- the write is the only one of its table
      refine (hr.agrees _).2 x hx ?_
      rintro ⟨wr', hwr', ht, hx'⟩
      refine hin ?_
      have hnd := (nodup_append.1 h.owners).2.1
      obtain rfl := inj_on_of_nodup_map hnd hwr' hwr ht
      rwa [← hstop]
    · simp only [Sessions.step, Arrays.set, update_of_ne hu]
      refine ⟨(hr.agrees u).1, fun x hx hnot => ?_⟩
      refine (read_congr (fun p hp => h.store_miss hwr hstop (h.not_own hu hp) _)).trans
        ((hr.agrees u).2 x hx ?_)
      rintro ⟨wr', hwr', ht, hx'⟩
      exact hnot ⟨wr', mem_filter.2 ⟨hwr', by simpa [ht] using hu⟩, ht, hx'⟩
  · by_cases hu : u = wr.table
    · subst hu
      simp only [Sessions.step, Arrays.set, update_self]
      exact hr.pages _
    · simp only [Sessions.step, Arrays.set, update_of_ne hu]
      exact hr.pages u
  · refine (hr.cache p hp).trans (map_congr_left (fun j _ => (h.store_miss hwr hstop (fun hin => ?_) j).symm))
    have hz := (h.exclusive p hin).2
    simp only [Sessions.step] at hp
    omega

end store

/-! ## Every step, every run -/

theorem simulated_step {σ : Sessions V k} {a : Arrays V k} (h : Guarded n σ) (hr : Refines σ a) {op : SessionOp V k}
    (hop : σ.Guarding op) : Simulated n σ a op := by
  obtain ⟨hord, hguard⟩ := hop
  cases op with
  | call op => exact simulated_call h hr op hord
  | sharePrefix src dst m => exact simulated_sharePrefix h hr src dst m hord hguard
  | attach t phys => exact simulated_attach h hr t phys hord.1 hord.2.1 hord.2.2
  | publish t lp phys => exact simulated_publish h hr t lp phys hord hguard
  | plan t s e => exact simulated_plan h hr t s e hord.1 hord.2 hguard
  | copy t => exact simulated_copy h hr t hord
  | commit t => exact simulated_commit h hr t hord
  | abort t => exact simulated_abort h hr t hord
  | store t start values =>
    obtain ⟨wr, hwr, rfl, rfl, hstop⟩ := hord
    exact simulated_store h hwr hstop hr

theorem follows_run : ∀ (ops : List (SessionOp V k)) {σ : Sessions V k} {a : Arrays V k}, Guarded n σ → Refines σ a →
    Sessions.RunOf Sessions.Guarding σ ops → Follows σ a ops
  | [], _, _, _, hr, _ => hr.agrees
  | _ :: ops, _, _, h, hr, hrun => by
    obtain ⟨b, hstep, h', hr'⟩ := simulated_step h hr hrun.1
    exact ⟨hr.agrees, b, hstep, follows_run ops h' hr' hrun.2⟩

theorem refines_new (nPages kb vb k : Nat) (memory : Nat × Nat → V) :
    Refines (Sessions.new nPages kb vb k memory) (Arrays.new k) where
  agrees _ := ⟨rfl, nofun⟩
  pages _ := rfl
  cache _ hp := absurd hp (Nat.lt_irrefl 0)

/-- **Copy-on-write isolation.**  In every run in which the pages under a write are left to it, private arrays follow the
sessions: each session reads its own array at every live position, but for those that a committed write is about to store. -/
theorem cow_isolation (nPages kb vb k : Nat) (memory : Nat × Nat → V) (ops : List (SessionOp V k))
    (hrun : Sessions.RunOf Sessions.Guarding (Sessions.new nPages kb vb k memory) ops) :
    Follows (Sessions.new nPages kb vb k memory) (Arrays.new k) ops :=
  follows_run ops (guarded_new nPages kb vb k memory) (refines_new nPages kb vb k memory) hrun

/-- A session writes, shares its page and the other session writes to it. -/
def forkedWrite : List (SessionOp Nat 2) :=
  [.call (.ensureCapacity tableA 128), .plan tableA 0 1, .copy tableA, .commit tableA, .store tableA 0 [7],
   .sharePrefix tableA tableB 1, .call (.ensureCapacity tableB 1), .plan tableB 0 1, .copy tableB, .commit tableB,
   .store tableB 0 [9]]

theorem cow_isolation_forkedWrite : Sessions.RunOf Sessions.Guarding (Sessions.new 4 1 1 2 (fun _ => 0)) forkedWrite ∧
    Follows (Sessions.new 4 1 1 2 (fun _ => 0)) (Arrays.new 2) forkedWrite ∧
    ((Sessions.new 4 1 1 2 (fun _ => 0)).run forkedWrite).read 0 0 = some 7 ∧
    ((Sessions.new 4 1 1 2 (fun _ => 0)).run forkedWrite).read 1 0 = some 9 := by
  have hrun : Sessions.RunOf Sessions.Guarding (Sessions.new 4 1 1 2 (fun _ => 0)) forkedWrite := by
    simp only [forkedWrite, Sessions.RunOf, Sessions.Guarding, Sessions.Ordered, World.TailKept, Option.mem_def, and_true]
    decide +kernel
  exact ⟨hrun, cow_isolation 4 1 1 2 _ forkedWrite hrun, by decide +kernel, by decide +kernel⟩

/-- Without `TailKept`: the live tail of a sealed page is not copied, and the session reads what the new page held. -/
example :
    let σ : Sessions Nat 1 := (Sessions.new 4 1 1 1 Prod.fst).run [.call (.ensureCapacity 0 128), .call (.sealPage 0)]
    σ.read 0 5 = some 0 ∧ (σ.run [.plan 0 0 1, .copy 0, .commit 0, .store 0 0 [7]]).read 0 5 = some 1 := by
  decide +kernel

/-- While a write of session 0 is planned, its page is published and attached to session 1. -/
def publishedUnderWrite : List (SessionOp Nat 2) :=
  [.call (.ensureCapacity tableA 1), .plan tableA 0 1, .publish tableA 0 0, .attach tableB 0, .copy tableA,
   .commit tableA, .store tableA 0 [7]]

/-- **A page can be published under a write.**  The plan found the page private and copies nothing; it is published and
attached before the commit, which does not look at it again, and the store is read by both sessions. -/
theorem published_under_write_leaks :
    Sessions.RunOf Sessions.Ordered (Sessions.new 4 1 1 2 (fun _ => 0)) publishedUnderWrite ∧
    ¬ Follows (Sessions.new 4 1 1 2 (fun _ => 0)) (Arrays.new 2) publishedUnderWrite := by
  refine ⟨?_, ?_⟩
  · simp only [publishedUnderWrite, Sessions.RunOf, Sessions.Ordered, and_true]
    decide +kernel
  rintro ⟨-, b₁, -, -, b₂, -, -, b₃, -, -, b₄, -, hbefore, b₅, rfl, -, b₆, rfl, -, b₇, rfl, hafter⟩
  -- session 1 owns one array before and after the steps of session 0
  have hread := (hbefore 1).2 0 (by decide +kernel) (by unfold Sessions.Overwriting; decide +kernel)
  have hread' := (hafter 1).2 0 (by decide +kernel) (by unfold Sessions.Overwriting; decide +kernel)
  exact absurd (hread'.trans hread.symm) (by decide +kernel)

end Hipfire.Pages
