import Hipfire.Pages.Accounted
import Hipfire.Pages.Sessions
/-!
# Guard — the pages under a write belong to its session alone

`Guarded` ties every write under way to the pool: the table still maps what was planned, a finished copy holds the valid
prefix, and a page that is to be stored in place is mapped once and not cached.  The lemmas here keep it through the calls that
are not part of a write.
-/
namespace Hipfire.Pages

open World List

variable {V : Type} {k n : Nat}

/-! ## The pages of a write -/

variable {p : Nat} {copied : List Nat} {bt : BlockTable} {wr : Write k}

theorem mem_stored : p ∈ wr.stored bt copied ↔
    ∃ i, wr.start ≤ i ∧ i < wr.stop ∧ i / pageTokens ∉ copied ∧ bt.physical (i / pageTokens) = some p := by
  unfold Write.stored
  rw [mem_filterMap]
  constructor
  · rintro ⟨i, hi, hp⟩
    rw [mem_range'_1] at hi
    split at hp
    · cases hp
    · rename_i hc
      exact ⟨i, hi.1, by omega, hc, hp⟩
  · rintro ⟨i, h1, h2, hc, hp⟩
    exact ⟨i, mem_range'_1.2 ⟨h1, by omega⟩, by rw [if_neg hc]; exact hp⟩

theorem mem_pages_of_stored (h : p ∈ wr.stored bt copied) : p ∈ bt.pages := by
  obtain ⟨i, -, -, -, hp⟩ := mem_stored.1 h
  exact mem_of_getElem? hp

theorem mem_inPlace {σ : Sessions V k} : p ∈ σ.inPlace ↔
    (∃ (i : Nat) (wr : Write k) (plan : CowPlan), σ.planned[i]? = some wr ∧ σ.world.plans[i]? = some plan ∧
      p ∈ wr.stored (σ.world.tables wr.table) (plan.copies.map CowCopy.logicalPage)) ∨
    ∃ wr ∈ σ.committed, p ∈ wr.stored (σ.world.tables wr.table) [] := by
  unfold Sessions.inPlace
  rw [mem_append, mem_flatMap, mem_flatMap]
  refine or_congr ⟨?_, ?_⟩ Iff.rfl
  · rintro ⟨⟨wr, plan⟩, hmem, hp⟩
    obtain ⟨i, hi⟩ := mem_iff_getElem?.1 hmem
    obtain ⟨h1, h2⟩ := getElem?_zip_eq_some.1 hi
    exact ⟨i, wr, plan, h1, h2, hp⟩
  · rintro ⟨i, wr, plan, h1, h2, hp⟩
    exact ⟨(wr, plan), mem_of_getElem? (getElem?_zip_eq_some.2 ⟨h1, h2⟩), hp⟩

/-! ## The invariant -/

/-- A planned write against the table it was planned for. -/
structure WellPlanned (bt : BlockTable) (memory : Nat × Nat → V) (wr : Write k) (plan : CowPlan) : Prop where
  maps : ∀ c ∈ plan.copies, bt.physical c.logicalPage = some c.srcPhys
  valid : ∀ c ∈ plan.copies, c.validPrefixTokens = min (wr.start - c.logicalPage * pageTokens) pageTokens
  tail : ∀ c ∈ plan.copies, ∀ i, wr.stop ≤ i → i / pageTokens = c.logicalPage → bt.liveTokens ≤ i
  prefixes : wr.copied = true → ∀ c ∈ plan.copies, ∀ j < c.validPrefixTokens, memory (c.dstPhys, j) = memory (c.srcPhys, j)

structure Guarded (n : Nat) (σ : Sessions V k) : Prop where
  accounted : Accounted n σ.world
  live_le : ∀ t, (σ.world.tables t).liveTokens ≤ (σ.world.tables t).pages.length * pageTokens
  aligned : σ.planned.length = σ.world.plans.length
  owners : (σ.planned.map Write.table ++ σ.committed.map Write.table).Nodup
  stop_le : ∀ wr ∈ σ.planned ++ σ.committed, wr.stop ≤ (σ.world.tables wr.table).liveTokens
  plans : ∀ (i : Nat) (wr : Write k) (plan : CowPlan), σ.planned[i]? = some wr → σ.world.plans[i]? = some plan →
    WellPlanned (σ.world.tables wr.table) σ.memory wr plan
  exclusive : ∀ p ∈ σ.inPlace, σ.world.mapped p = 1 ∧ σ.world.cacheLeases p = 0

theorem guarded_new (nPages kb vb k : Nat) (memory : Nat × Nat → V) :
    Guarded nPages (Sessions.new nPages kb vb k memory) where
  accounted := accounted_new nPages kb vb k
  live_le _ := Nat.zero_le _
  aligned := rfl
  owners := nodup_nil
  stop_le _ h := by cases h
  plans _ _ _ h := by cases h
  exclusive _ h := by cases h

section keeps

variable {σ : Sessions V k} (h : Guarded n σ)
include h

/-- A page stored in place is mapped by the table of its write only. -/
theorem Guarded.not_mem_pages (hp : p ∈ σ.inPlace) {t : Fin k} (ht : ¬ σ.Busy t) : p ∉ (σ.world.tables t).pages := by
  have howner : ∃ u, σ.Busy u ∧ p ∈ (σ.world.tables u).pages := by
    rcases mem_inPlace.1 hp with ⟨i, wr, plan, hi, -, hs⟩ | ⟨wr, hwr, hs⟩
    · exact ⟨wr.table, .inl (mem_map_of_mem (mem_of_getElem? hi)), mem_pages_of_stored hs⟩
    · exact ⟨wr.table, .inr (mem_map_of_mem hwr), mem_pages_of_stored hs⟩
  obtain ⟨u, hu, hmem⟩ := howner
  have hne : u ≠ t := fun heq => ht (heq ▸ hu)
  intro hpt
  have hone := (h.exclusive p hp).1
  have h1 := count_pos_iff.2 hmem
  have h2 := count_pos_iff.2 hpt
  have h3 := count_add_count_le_mapped σ.world hne p
  omega

theorem Guarded.retable {w' : World k} (hacc : Accounted n w') (t : Fin k) (bt : BlockTable)
    (htables : w'.tables = Function.update σ.world.tables t bt) (hplans : w'.plans = σ.world.plans)
    (hcache : w'.cacheLeases = σ.world.cacheLeases) (hbusy : ¬ σ.Busy t)
    (hnew : ∀ p ∈ bt.pages, p ∈ (σ.world.tables t).pages ∨ p ∉ σ.inPlace)
    (hlive : bt.liveTokens ≤ bt.pages.length * pageTokens) : Guarded n { σ with world := w' } := by
  have hsame : ∀ u, σ.Busy u → w'.tables u = σ.world.tables u := fun u hu => by
    rw [htables]
    exact Function.update_of_ne (fun heq : u = t => hbusy (heq ▸ hu)) ..
  have hpl : ∀ (i : Nat) (wr : Write k), σ.planned[i]? = some wr → w'.tables wr.table = σ.world.tables wr.table := fun i wr hi =>
    hsame _ (.inl (mem_map_of_mem (mem_of_getElem? hi)))
  have hco : ∀ wr ∈ σ.committed, w'.tables wr.table = σ.world.tables wr.table := fun wr hwr =>
    hsame _ (.inr (mem_map_of_mem hwr))
  have hin : ∀ p, p ∈ Sessions.inPlace { σ with world := w' } → p ∈ σ.inPlace := fun p hp => by
    rcases mem_inPlace.1 hp with ⟨i, wr, plan, hi, hplan, hs⟩ | ⟨wr, hwr, hs⟩
    · exact mem_inPlace.2 (.inl ⟨i, wr, plan, hi, hplans ▸ hplan, hpl i wr hi ▸ hs⟩)
    · exact mem_inPlace.2 (.inr ⟨wr, hwr, hco wr hwr ▸ hs⟩)
  refine ⟨hacc, fun u => ?_, by rw [hplans]; exact h.aligned, h.owners, fun wr hwr => ?_, fun i wr plan hi hplan => ?_,
    fun p hp => ?_⟩
  · show (w'.tables u).liveTokens ≤ (w'.tables u).pages.length * pageTokens
    rw [htables, Function.update_apply]
    split
    · exact hlive
    · exact h.live_le u
  · show wr.stop ≤ (w'.tables wr.table).liveTokens
    rcases mem_append.1 hwr with hm | hm
    · obtain ⟨i, hi⟩ := mem_iff_getElem?.1 hm
      rw [hpl i wr hi]
      exact h.stop_le wr hwr
    · rw [hco wr hm]
      exact h.stop_le wr hwr
  · show WellPlanned (w'.tables wr.table) σ.memory wr plan
    rw [hpl i wr hi]
    exact h.plans i wr plan hi (hplans ▸ hplan)
  · obtain ⟨h1, h2⟩ := h.exclusive p (hin p hp)
    have hold := h.not_mem_pages (hin p hp) hbusy
    have hbt : p ∉ bt.pages := fun hm => (hnew p hm).elim hold (fun hn => hn (hin p hp))
    refine ⟨?_, by show w'.cacheLeases p = 0; rw [hcache]; exact h2⟩
    have hset := mapped_setTable σ.world t σ.world.pool bt p
    rw [count_eq_zero.2 hold, count_eq_zero.2 hbt] at hset
    have hmap : w'.mapped p = (σ.world.setTable t σ.world.pool bt).mapped p := by
      unfold World.mapped
      rw [htables]
      rfl
    show w'.mapped p = 1
    omega

theorem Guarded.repool {w' : World k} (hacc : Accounted n w') (htables : w'.tables = σ.world.tables)
    (hplans : w'.plans = σ.world.plans) (hcache : ∀ p ∈ σ.inPlace, w'.cacheLeases p = 0) :
    Guarded n { σ with world := w' } := by
  have hin : Sessions.inPlace { σ with world := w' } = σ.inPlace := by
    unfold Sessions.inPlace
    rw [htables, hplans]
  refine ⟨hacc, ?_, by rw [hplans]; exact h.aligned, h.owners, ?_, ?_, fun p hp => ?_⟩
  · simp only [htables]; exact h.live_le
  · simp only [htables]; exact h.stop_le
  · simp only [htables, hplans]; exact h.plans
  · rw [hin] at hp
    refine ⟨?_, hcache p hp⟩
    show w'.mapped p = 1
    unfold World.mapped
    rw [htables]
    exact (h.exclusive p hp).1

end keeps

end Hipfire.Pages
