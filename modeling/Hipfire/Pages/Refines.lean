import Hipfire.Pages.Arrays
import Hipfire.Pages.Guard
/-!
# Refines — guarded sessions and their private arrays

`Refines` relates the sessions of a guarded pool to private arrays.  The arrays follow every call that is not part of a write
(`simulated_call`, `simulated_sharePrefix`, `simulated_attach`, `simulated_publish`).
-/
namespace Hipfire.Pages

open World BlockTable List Function

variable {V : Type} {k n : Nat}

structure Refines (σ : Sessions V k) (a : Arrays V k) : Prop where
  agrees : Agrees σ a
  pages : ∀ t, (a.sessions t).pages = (σ.world.tables t).pages.length
  cache : ∀ p, 0 < σ.world.cacheLeases p → a.cache p = (range pageTokens).map (fun j => σ.memory (p, j))

/-- The arrays follow one step. -/
def Simulated (n : Nat) (σ : Sessions V k) (a : Arrays V k) (op : SessionOp V k) : Prop :=
  ∃ b, a.Step op (σ.step op).2.isOk b ∧ Guarded n (σ.step op).1 ∧ Refines (σ.step op).1 b

variable {t : Fin k}

theorem not_overwriting {σ : Sessions V k} (h : ¬ σ.Busy t) (i : Nat) : ¬ σ.Overwriting t i := by
  rintro ⟨wr, hwr, rfl, -⟩
  exact h (.inr (mem_map_of_mem hwr))

section relation

variable {σ : Sessions V k} {a : Arrays V k} (hr : Refines σ a)
include hr

theorem Refines.retable {w' : World k} (t : Fin k) (bt : BlockTable) (session : Session V)
    (htables : w'.tables = update σ.world.tables t bt) (hcache : w'.cacheLeases = σ.world.cacheLeases)
    (hpages : session.pages = bt.pages.length) (hlen : session.cells.length = bt.liveTokens)
    (hcells : ∀ i < bt.liveTokens, (bt.addr i).map σ.memory = session.cells[i]?) :
    Refines { σ with world := w' } (a.set t session) := by
  have hat : w'.tables t = bt := by rw [htables, update_self]
  have hoff : ∀ u, u ≠ t → w'.tables u = σ.world.tables u := fun u hu => by rw [htables, update_of_ne hu]
  refine ⟨fun u => ?_, fun u => ?_, fun p hp => hr.cache p (hcache ▸ hp)⟩
  · by_cases hu : u = t
    · subst hu
      simp only [Arrays.set, update_self, Sessions.read, hat]
      exact ⟨hlen, fun i hi _ => hcells i hi⟩
    · simp only [Arrays.set, update_of_ne hu, Sessions.read, hoff u hu]
      exact hr.agrees u
  · by_cases hu : u = t
    · subst hu
      simp only [Arrays.set, update_self, hat]
      exact hpages
    · simp only [Arrays.set, update_of_ne hu, hoff u hu]
      exact hr.pages u

theorem Refines.repool {w' : World k} (htables : w'.tables = σ.world.tables)
    (hcache : ∀ p, 0 < w'.cacheLeases p → 0 < σ.world.cacheLeases p) : Refines { σ with world := w' } a := by
  refine ⟨fun u => ?_, fun u => ?_, fun p hp => hr.cache p (hcache p hp)⟩
  · simp only [Sessions.read, htables]
    exact hr.agrees u
  · simp only [htables]
    exact hr.pages u

end relation

/-! ## Growing, trimming, releasing -/

variable {bt : BlockTable} {w : World k} {i : Nat}

theorem addr_append {ps : List Nat} {live : Nat} (h : i < bt.pages.length * pageTokens) :
    addr ⟨bt.pages ++ ps, live⟩ i = bt.addr i := by
  unfold addr physical
  rw [getElem?_append_left (by unfold pageTokens at h ⊢; omega)]

theorem exists_addr (bt : BlockTable) (h : i < bt.pages.length * pageTokens) : ∃ c, bt.addr i = some c := by
  unfold addr physical
  rw [getElem?_eq_getElem (by unfold pageTokens at h ⊢; omega)]
  exact ⟨_, rfl⟩

theorem ensureCapacity_table (h : Accounted n w) (t : Fin k) (m : Nat) :
    ((w.step (.ensureCapacity t m)).2.isOk = false ∧ (w.step (.ensureCapacity t m)).1 = w) ∨
    ((w.step (.ensureCapacity t m)).2.isOk = true ∧ ∃ ps, (∀ p ∈ ps, w.mapped p = 0) ∧
      ((w.tables t).pages ++ ps).length = max (w.tables t).pages.length ((m + (pageTokens - 1)) / pageTokens) ∧
      (w.step (.ensureCapacity t m)).1.tables = update w.tables t ⟨(w.tables t).pages ++ ps, m⟩) := by
  simp only [step, PagePool.ensureCapacity]
  split
  · rename_i hfit
    refine .inr ⟨rfl, [], forall_mem_nil _, ?_, by rw [append_nil]; rfl⟩
    rw [append_nil, Nat.max_eq_left hfit]
  · split
    · exact .inl ⟨rfl, setTable_self w t⟩
    obtain ⟨ps, hpages, hps, hfresh, -⟩ := tally_allocLoop
      (min ((m + (pageTokens - 1)) / pageTokens - (w.tables t).pages.length) w.pool.freePages.length) w.pool (w.tables t) _ h.tally
    refine .inr ⟨rfl, ps, fun p hp => by have := (hfresh p hp).1; omega, ?_, ?_⟩
    · rw [length_append, hps, length_take]
      omega
    · simp only [PagePool.allocPages, setTable]
      rw [hpages]

theorem freePagesFromTail_table (h : Accounted n w) (t : Fin k) (m : Nat) : (w.step (.freePagesFromTail t m)).1.tables =
      update w.tables t ((w.tables t).truncate ((w.tables t).pages.length - m)) := by
  have hok := (step_freePagesFromTail h t m).2
  simp only [step, PagePool.freePagesFromTail] at hok ⊢
  cases hcheck : firstError w.pool.checkTail ((w.tables t).pages.drop ((w.tables t).pages.length - m)) with
  | error e => rw [hcheck] at hok; cases hok
  | ok u => rfl

theorem addr_truncate {m : Nat} (h : i < m * pageTokens) : (bt.truncate m).addr i = bt.addr i := by
  unfold addr physical truncate
  rw [getElem?_take_of_lt (by unfold pageTokens at h ⊢; omega)]

section tables

variable {σ : Sessions V k} {a : Arrays V k} (h : Guarded n σ) (hr : Refines σ a)
include h hr

theorem simulated_ensureCapacity (t : Fin k) (m : Nat) (hbusy : ¬ σ.Busy t) :
    Simulated n σ a (.call (.ensureCapacity t m)) := by
  have hacc := (step_ensureCapacity h.accounted t m).1
  unfold Simulated
  simp only [Sessions.step]
  rcases ensureCapacity_table h.accounted t m with ⟨hbad, hsame⟩ | ⟨hok, ps, hfresh, hlen, htables⟩
  · rw [hbad, hsame]
    exact ⟨a, rfl, h, hr⟩
  rw [hok]
  have hfit : m ≤ ((σ.world.tables t).pages ++ ps).length * pageTokens := by
    rw [hlen]
    unfold pageTokens
    omega
  obtain ⟨hcells, hread⟩ := hr.agrees t
  have hlive := h.live_le t
  -- the positions that become live hold what their pages hold
  refine ⟨a.set t ⟨max (a.sessions t).pages ((m + (pageTokens - 1)) / pageTokens), (a.sessions t).cells.take m ++
    (range' (a.sessions t).cells.length (m - (a.sessions t).cells.length)).map (fun i =>
      (((mk ((σ.world.tables t).pages ++ ps) m).addr i).map σ.memory).getD (σ.memory (0, 0)))⟩,
    ⟨_, ?_, rfl⟩, ?_, ?_⟩
  · simp only [length_append, length_take, length_map, length_range']
    omega
  · refine h.retable hacc t _ htables rfl rfl hbusy (fun p hp => ?_) hfit
    rcases mem_append.1 hp with hp | hp
    · exact .inl hp
    · exact .inr (fun hin => by
        have := (h.exclusive p hin).1
        have := hfresh p hp
        omega)
  · refine hr.retable t _ _ htables rfl (by simp only; rw [hlen, hr.pages t]) ?_ (fun i hi => ?_)
    · simp only [length_append, length_take, length_map, length_range']
      omega
    · simp only at hi ⊢
      by_cases hold : i < (σ.world.tables t).liveTokens
      · have hi' := hread i hold (not_overwriting hbusy i)
        rw [addr_append (by omega), getElem?_append_left (by rw [length_take]; omega),
          getElem?_take_of_lt hi]
        exact hi'
      · obtain ⟨p, hp⟩ := exists_addr ⟨(σ.world.tables t).pages ++ ps, m⟩ (Nat.lt_of_lt_of_le hi hfit)
        rw [getElem?_append_right (by rw [length_take]; omega), getElem?_map, getElem?_range' (by
          rw [length_take]; omega), length_take]
        simp only [Option.map_some]
        have hidx : (a.sessions t).cells.length + 1 * (i - min m (a.sessions t).cells.length) = i := by omega
        rw [hidx, hp]
        rfl

theorem simulated_freePagesFromTail (t : Fin k) (m : Nat) (hbusy : ¬ σ.Busy t) :
    Simulated n σ a (.call (.freePagesFromTail t m)) := by
  obtain ⟨hacc, hok⟩ := step_freePagesFromTail h.accounted t m
  have htables := freePagesFromTail_table h.accounted t m
  have hlive := h.live_le t
  obtain ⟨hcells, hread⟩ := hr.agrees t
  have hpages := hr.pages t
  unfold Simulated
  simp only [Sessions.step, hok]
  refine ⟨_, rfl, h.retable hacc t _ htables rfl rfl hbusy (fun p hp => .inl (mem_of_mem_take hp)) ?_,
    hr.retable t _ _ htables rfl ?_ ?_ (fun i hi => ?_)⟩
  · simp only [truncate, length_take]
    unfold pageTokens at hlive ⊢
    omega
  · simp only [truncate, length_take]
    omega
  · simp only [truncate, length_take, hpages, hcells]
    exact Nat.min_comm ..
  · simp only [truncate] at hi
    have hi' : i < ((σ.world.tables t).pages.length - m) * pageTokens := by omega
    rw [addr_truncate hi', hpages]
    rw [getElem?_take_of_lt hi']
    exact hread i (by omega) (not_overwriting hbusy i)

theorem simulated_releaseTable (t : Fin k) (hbusy : ¬ σ.Busy t) : Simulated n σ a (.call (.releaseTable t)) := by
  obtain ⟨hacc, hok⟩ := step_releaseTable h.accounted t
  have htables : (σ.world.step (.releaseTable t)).1.tables = update σ.world.tables t .new := rfl
  unfold Simulated
  simp only [Sessions.step, hok]
  exact ⟨_, rfl, h.retable hacc t _ htables rfl rfl hbusy nofun (Nat.zero_le _), hr.retable t _ _ htables rfl rfl rfl nofun⟩

end tables

/-! ## Sharing -/

theorem sharePrefix_table (h : Accounted n w) {src dst : Fin k} {m : Nat}
    (hok : (w.step (.sharePrefix src dst m)).2 = .ok ()) :
    (w.tables dst).pages = [] ∧ m ≤ (w.tables src).pages.length ∧ m * pageTokens ≤ (w.tables src).liveTokens ∧
      (w.step (.sharePrefix src dst m)).1.tables =
        update w.tables dst { w.tables dst with pages := (w.tables src).pages.take m } := by
  simp only [step, PagePool.sharePrefix] at hok ⊢
  split at hok
  · cases hok
  split at hok
  · cases hok
  split at hok
  · cases hok
  rename_i h1 h2 h3
  rw [if_neg h1, if_neg h2, if_neg h3]
  have hempty : (w.tables dst).pages = [] := length_eq_zero_iff.1 (Decidable.not_not.1 h3)
  obtain ⟨done, hpages, -, hres⟩ := tally_shareLoop ((w.tables src).pages.take m) w.pool (w.tables dst) _ h.tally
    (fun p hp => Nat.lt_of_lt_of_le (mapped_pos_of_mem (mem_of_mem_take hp)) (Nat.le_add_right ..))
  rcases hres with ⟨-, rfl⟩ | ⟨phys, rest, -, -, herr⟩
  · refine ⟨hempty, by omega, by omega, ?_⟩
    simp only [setTable]
    rw [hpages, hempty, nil_append]
  · rw [herr] at hok; cases hok

theorem Accounted.setLive (h : Accounted n w) (t : Fin k) (m : Nat) : Accounted n (w.setLive t m) :=
  h.setTable t h.tally (fun _ => rfl) (fun p hp => by
    have := (h.apart p hp).2.1
    have := count_le_mapped w t p
    simp only
    omega)

theorem setLive_tables {tables : Fin k → BlockTable} (m : Nat) (h : w.tables = update tables t bt) :
    (w.setLive t m).tables = update tables t { bt with liveTokens := m } := by
  unfold setLive setTable
  simp only [h, update_self, update_idem]

theorem pos_of_update {f : Nat → Nat} {phys x : Nat} (hphys : 0 < f phys) (p : Nat) (hp : 0 < update f phys x p) :
    0 < f p := by
  by_cases hpp : p = phys
  · subst hpp; exact hphys
  · rwa [update_of_ne hpp] at hp

section sharing

variable {σ : Sessions V k} {a : Arrays V k} (h : Guarded n σ) (hr : Refines σ a)
include h hr

/-- A live position whose page no write under way stores to. -/
theorem read_off_writes (hi : i < (σ.world.tables t).liveTokens)
    (hfree : ∀ p, (σ.world.tables t).physical (i / pageTokens) = some p → p ∉ σ.inPlace) :
    σ.read t i = (a.sessions t).cells[i]? := by
  refine (hr.agrees t).2 i hi (fun ⟨wr, hwr, ht, h1, h2⟩ => ?_)
  obtain ⟨c, hc⟩ := exists_addr (σ.world.tables t) (Nat.lt_of_lt_of_le hi (h.live_le t))
  obtain ⟨p, hp, -⟩ := Option.map_eq_some_iff.1 hc
  exact hfree p hp (mem_inPlace.2 (.inr ⟨wr, hwr, mem_stored.2 ⟨i, h1, h2, nofun, ht ▸ hp⟩⟩))

theorem simulated_sharePrefix (src dst : Fin k) (m : Nat) (hbusy : ¬ σ.Busy dst)
    (hfree : ∀ p ∈ (σ.world.tables src).pages.take m, p ∉ σ.inPlace) : Simulated n σ a (.sharePrefix src dst m) := by
  obtain ⟨hacc, hrefused⟩ := step_sharePrefix h.accounted src dst m
  have hplans : (σ.world.step (.sharePrefix src dst m)).1.plans = σ.world.plans := rfl
  have hcache : (σ.world.step (.sharePrefix src dst m)).1.cacheLeases = σ.world.cacheLeases := rfl
  unfold Simulated
  simp only [Sessions.step]
  rcases hstep : σ.world.step (.sharePrefix src dst m) with ⟨w', e | u⟩
  · rw [hstep] at hacc hplans hcache hrefused
    rcases hrefused e rfl with hsame | ⟨done, phys, rest, hsplit, -, htables, -⟩
    · refine ⟨a, ⟨(a.sessions dst).pages, ?_⟩, h.repool hacc hsame.tables hplans (fun p hp => ?_), hr.repool hsame.tables ?_⟩
      · exact (by rw [Arrays.set, update_eq_self])
      · rw [hcache]; exact (h.exclusive p hp).2
      · intro p hp; rwa [hcache] at hp
    · have hlive := h.live_le dst
      obtain ⟨hcells, hread⟩ := hr.agrees dst
      refine ⟨_, ⟨((σ.world.tables dst).pages ++ done).length, rfl⟩,
        h.retable hacc dst _ htables hplans hcache hbusy (fun p hp => ?_) ?_, hr.retable dst _ _ htables hcache rfl hcells
        (fun i hi => ?_)⟩
      · rcases mem_append.1 hp with hp | hp
        · exact .inl hp
        · exact .inr (hfree p (by rw [hsplit]; exact mem_append_left _ hp))
      · simp only [length_append]
        exact Nat.le_trans hlive (Nat.mul_le_mul_right _ (Nat.le_add_right ..))
      · rw [addr_append (Nat.lt_of_lt_of_le hi hlive)]
        exact hread i hi (not_overwriting hbusy i)
  · obtain ⟨hempty, hle, hfull, htables⟩ := sharePrefix_table h.accounted (by rw [hstep])
    rw [hstep] at hacc hplans hcache htables
    have htables' := setLive_tables (m * pageTokens) htables
    obtain ⟨hcells, hread⟩ := hr.agrees src
    refine ⟨_, rfl, h.retable (hacc.setLive dst _) dst _ htables' hplans hcache hbusy (fun p hp => .inr (hfree p hp)) ?_,
      hr.retable dst _ _ htables' hcache ?_ ?_ (fun i hi => ?_)⟩
    · simp only [length_take]
      rw [Nat.min_eq_left hle]
    · simp only [length_take]
      exact (Nat.min_eq_left hle).symm
    · simp only [length_take]
      omega
    · simp only at hi ⊢
      have hpos : i / pageTokens < m := by unfold pageTokens at hi ⊢; omega
      have hread' := read_off_writes h hr (t := src) (by omega) (fun p hp =>
        hfree p (mem_of_getElem? ((getElem?_take_of_lt hpos).trans hp)))
      rw [getElem?_take_of_lt hi, ← hread']
      unfold Sessions.read addr physical
      rw [getElem?_take_of_lt hpos]

theorem simulated_attach (t : Fin k) (phys : Nat) (hbusy : ¬ σ.Busy t) (hcached : 0 < σ.world.cacheLeases phys)
    (hfull : (σ.world.tables t).liveTokens = (σ.world.tables t).pages.length * pageTokens) :
    Simulated n σ a (.attach t phys) := by
  have hacc := (step_attach h.accounted t phys (.inr hcached)).1
  have hfree : phys ∉ σ.inPlace := fun hin => by
    have := (h.exclusive phys hin).2
    omega
  unfold Simulated
  simp only [Sessions.step, step] at hacc ⊢
  rcases hinc : σ.world.pool.refcountInc phys with ⟨pool, e | u⟩
  · rw [hinc] at hacc
    exact ⟨a, rfl, h.repool hacc rfl rfl (fun p hp => (h.exclusive p hp).2), hr.repool rfl (fun _ => id)⟩
  rw [hinc] at hacc
  have htables : (σ.world.setTable t pool ((σ.world.tables t).pushPage phys)).tables =
    update σ.world.tables t ((σ.world.tables t).pushPage phys) := rfl
  have hat : ((σ.world.setTable t pool ((σ.world.tables t).pushPage phys)).tables t).pages.length =
      (σ.world.tables t).pages.length + 1 := by
    rw [htables, update_self]
    exact length_append
  have htables' := setLive_tables (((σ.world.tables t).pages.length + 1) * pageTokens) htables
  obtain ⟨hcells, hread⟩ := hr.agrees t
  have hblock := hr.cache phys hcached
  simp only [hat]
  refine ⟨_, rfl, h.retable (hacc.setLive t _) t _ htables' rfl rfl hbusy
      (forall_mem_append.2 ⟨fun _ => .inl, forall_mem_singleton.2 (.inr hfree)⟩) ?_,
    hr.retable t _ _ htables' rfl ?_ ?_ (fun i hi => ?_)⟩
  · simp only [pushPage, length_append, length_singleton]
    exact le_rfl
  · simp only [pushPage, length_append, length_singleton, hr.pages t]
  · simp only [length_append, hblock, length_map, length_range, hcells, hfull]
    exact (Nat.succ_mul ..).symm
  · simp only [pushPage] at hi ⊢
    by_cases hold : i < (σ.world.tables t).pages.length * pageTokens
    · rw [addr_append hold, getElem?_append_left (by omega)]
      exact hread i (by omega) (not_overwriting hbusy i)
    -- a position on the attached page
    have hpage : i / pageTokens = (σ.world.tables t).pages.length := by unfold pageTokens at hi hold ⊢; omega
    have hoff : i - (σ.world.tables t).pages.length * pageTokens = i % pageTokens := by
      unfold pageTokens at hi hold ⊢; omega
    rw [getElem?_append_right (by omega), hblock, getElem?_map, hcells, hfull, hoff,
      getElem?_range (Nat.mod_lt i (by decide))]
    unfold addr physical
    rw [hpage, getElem?_append_right le_rfl, Nat.sub_self]
    rfl

/-- Publishing a page that no write under way stores to. -/
theorem simulated_publish (t : Fin k) (lp phys : Nat) (hphys : (σ.world.tables t).physical lp = some phys)
    (hfree : phys ∉ σ.inPlace) : Simulated n σ a (.publish t lp phys) := by
  have hacc := (step_addCacheRef h.accounted phys (.inl (mapped_pos_of_mem (mem_of_getElem? hphys)))).1
  unfold Simulated
  simp only [Sessions.step, step] at hacc ⊢
  rcases hadd : σ.world.pool.addCacheRef phys with ⟨pool, e | u⟩
  · rw [hadd] at hacc
    exact ⟨a, rfl, h.repool hacc rfl rfl (fun p hp => (h.exclusive p hp).2), hr.repool rfl (fun _ => id)⟩
  rw [hadd] at hacc
  have hcells := (hr.agrees t).1
  refine ⟨_, ⟨(range pageTokens).map (fun j => σ.memory (phys, j)), by simp, ?_, rfl⟩,
    h.repool hacc rfl rfl (fun p hp => ?_), ⟨hr.agrees, hr.pages, fun p hp => ?_⟩⟩
  · rw [prefix_iff_getElem?]
    intro j hj
    rw [length_take, length_drop, hcells] at hj
    have hpage : (lp * pageTokens + j) / pageTokens = lp := by unfold pageTokens at hj ⊢; omega
    have hoff : (lp * pageTokens + j) % pageTokens = j := by unfold pageTokens at hj ⊢; omega
    have hread := read_off_writes h hr (t := t) (i := lp * pageTokens + j) (by omega) (fun p hp => by
      rw [hpage, hphys] at hp
      exact Option.some.inj hp ▸ hfree)
    have hmem : σ.read t (lp * pageTokens + j) = some (σ.memory (phys, j)) := by
      unfold Sessions.read addr
      rw [hpage, hoff, hphys]
      rfl
    rw [getElem?_map, getElem?_range (by omega), ← getElem?_eq_getElem, getElem?_take_of_lt (by omega),
      getElem?_drop, ← hread, hmem]
    rfl
  · have hne : p ≠ phys := fun heq => hfree (heq ▸ hp)
    exact (update_of_ne hne ..).trans (h.exclusive p hp).2
  · by_cases hne : p = phys
    · subst hne
      exact update_self ..
    · simp only [update_of_ne hne] at hp ⊢
      exact hr.cache p hp

/-- A call that touches no table, no plan and no page that is not cached already. -/
theorem simulated_quiet {op : PoolOp k} (hstep : ∀ accepted, a.Step (.call op) accepted a)
    (hacc : Accounted n (σ.world.step op).1)
    (hframe : (σ.world.step op).1.tables = σ.world.tables ∧ (σ.world.step op).1.plans = σ.world.plans ∧
      ∀ p, 0 < (σ.world.step op).1.cacheLeases p → 0 < σ.world.cacheLeases p) : Simulated n σ a (.call op) := by
  obtain ⟨htables, hplans, hcache⟩ := hframe
  refine ⟨a, hstep _, h.repool hacc htables hplans (fun p hp => ?_), hr.repool htables hcache⟩
  exact Nat.eq_zero_of_not_pos (fun hpos => absurd (hcache p hpos) (Nat.not_lt.2 (Nat.le_of_eq (h.exclusive p hp).2)))

theorem simulated_call (op : PoolOp k) (hop : σ.Ordered (.call op)) : Simulated n σ a (.call op) := by
  cases op with
  | ensureCapacity t m => exact simulated_ensureCapacity h hr t m hop
  | freePagesFromTail t m => exact simulated_freePagesFromTail h hr t m hop
  | releaseTable t => exact simulated_releaseTable h hr t hop
  | sealPage phys =>
    exact simulated_quiet h hr (fun _ => rfl) (step_sealPage h.accounted phys).1 ⟨rfl, rfl, fun _ => id⟩
  | drainCompleted =>
    exact simulated_quiet h hr (fun _ => rfl) (h.accounted.setPool (tally_drainCompleted h.accounted.tally))
      ⟨rfl, rfl, fun _ => id⟩
  | addCacheRef phys =>
    refine simulated_quiet h hr (fun _ => rfl) (step_addCacheRef h.accounted phys (.inr hop)).1 ?_
    simp only [step]
    rcases σ.world.pool.addCacheRef phys with ⟨pool, e | u⟩
    · exact ⟨rfl, rfl, fun _ => id⟩
    · exact ⟨rfl, rfl, pos_of_update hop⟩
  | releaseCacheRef phys =>
    refine simulated_quiet h hr (fun _ => rfl) (step_releaseCacheRef h.accounted phys hop).1 ?_
    simp only [step]
    rcases σ.world.pool.releaseCacheRef phys with ⟨pool, e | u⟩
    · exact ⟨rfl, rfl, fun _ => id⟩
    · exact ⟨rfl, rfl, pos_of_update hop⟩
  | addInflightRef phys =>
    refine simulated_quiet h hr (fun _ => rfl) (step_addInflightRef h.accounted phys hop).1 ?_
    simp only [step]
    rcases σ.world.pool.addInflightRef phys with ⟨pool, e | u⟩
    · exact ⟨rfl, rfl, fun _ => id⟩
    · exact ⟨rfl, rfl, fun _ => id⟩
  | releaseInflightRef phys =>
    refine simulated_quiet h hr (fun _ => rfl) (step_releaseInflightRef h.accounted phys hop).1 ?_
    simp only [step]
    rcases σ.world.pool.releaseInflightRef phys with ⟨pool, e | u⟩
    · exact ⟨rfl, rfl, fun _ => id⟩
    · exact ⟨rfl, rfl, fun _ => id⟩
  | _ => exact hop.elim

end sharing

end Hipfire.Pages
