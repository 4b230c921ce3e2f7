import Hipfire.Pages.World
import Hipfire.Pages.Plans
import Hipfire.Pages.Accounted
/-!
# Life — how the loops of the pool move its pages

`Moves` says what happens to one page.  Every call on the pool moves every page by some growing and then some
sinking (`step_moves`), as long as a plan that is given back held its reserved pages alone.  Under the same condition
the counts stay those of the users (`Counted`), whatever pages were attached or leased in between.
-/
namespace Hipfire.Pages

open World PagePool List

variable {n k : Nat}

/-! ## One page -/

variable {again fence : Prop} {m m' : PageMeta}

/-- **A page that is not free grows at its generation.** -/
theorem Grow.generation (h : Grow again m m') (hs : m.state ≠ .free) :
    m'.state ≠ .free ∧ m'.generation = m.generation := by
  cases h with
  | take hf => exact absurd hf hs
  | share ht | close hp => exact ⟨nofun, rfl⟩
  | lease hr => exact ⟨hs, rfl⟩
  | attach hr hc | cache hr => exact ⟨(ne_free_of_resident (sealed_of_priv hr).1).1, rfl⟩

/-- **A page that is not free after sinking was not before, and keeps its generation.** -/
theorem Sink.generation (h : Sink fence m m') (hm : m.Consistent) (hs : m'.state ≠ .free) :
    m.state ≠ .free ∧ m'.generation = m.generation := by
  have hidle := hm.idle
  cases h with
  | dropCached ht hc | dropLeased ht hc | uncacheLeased hc ht => exact ⟨fun hf => by have := hidle hf; omega, rfl⟩
  | drop ht | uncache hc ht | unlease hi => exact ⟨hs, rfl⟩
  | giveBack ha | evict hc ht hi | drain _ hz => exact absurd rfl hs

/-- Some growing, then some sinking. -/
def Lives (again fence : Prop) (m m' : PageMeta) : Prop :=
  ∃ mid, Relation.ReflTransGen (Grow again) m mid ∧ Relation.ReflTransGen (Sink fence) mid m'

variable {R : PageMeta → PageMeta → Prop} {P : PageMeta → Prop}

theorem chain_keeps (hR : ∀ m m', R m m' → P m → P m') (h : Relation.ReflTransGen R m m') (hp : P m) : P m' := by
  induction h with
  | refl => exact hp
  | tail _ hstep ih => exact hR _ _ hstep ih

/-- **What the life of a page keeps.** -/
theorem Lives.keeps (hg : ∀ m m', Grow again m m' → m.Consistent → P m → P m')
    (hs : ∀ m m', Sink fence m m' → m.Consistent → P m → P m') (h : Lives again fence m m') (hm : m.Consistent) (hp : P m) :
    m'.Consistent ∧ P m' := by
  obtain ⟨mid, hgrow, hsink⟩ := h
  have hmid : mid.Consistent ∧ P mid :=
    chain_keeps (P := fun m => m.Consistent ∧ P m) (fun _ _ h hp => ⟨h.consistent hp.1, hg _ _ h hp.1 hp.2⟩) hgrow ⟨hm, hp⟩
  exact chain_keeps (P := fun m => m.Consistent ∧ P m) (fun _ _ h hp => ⟨h.consistent hp.1, hs _ _ h hp.1 hp.2⟩) hsink hmid

/-- **A page that is free neither before nor after keeps its generation.** -/
theorem Lives.generation (h : Lives again fence m m') (hm : m.Consistent) (hs : m.state ≠ .free) (hs' : m'.state ≠ .free) :
    m'.generation = m.generation := by
  obtain ⟨mid, hgrow, hsink⟩ := h
  have hmid : mid.Consistent ∧ mid.state ≠ .free ∧ mid.generation = m.generation := by
    refine chain_keeps (P := fun x => x.Consistent ∧ x.state ≠ .free ∧ x.generation = m.generation)
      (fun a b hab hp => ?_) hgrow ⟨hm, hs, rfl⟩
    obtain ⟨hn, hgen⟩ := hab.generation hp.2.1
    exact ⟨hab.consistent hp.1, hn, hgen.trans hp.2.2⟩
  have hlast : m'.Consistent ∧ (m'.state ≠ .free → m'.generation = m.generation) := by
    refine chain_keeps (P := fun x => x.Consistent ∧ (x.state ≠ .free → x.generation = m.generation))
      (fun a b hab hp => ?_) hsink ⟨hmid.1, fun _ => hmid.2.2⟩
    refine ⟨hab.consistent hp.1, fun hn => ?_⟩
    obtain ⟨hb, hgen⟩ := hab.generation hp.1 hn
    exact hgen.trans (hp.2 hb)
  exact hlast.2 hs'

/-! ## All pages of a pool -/

/-- Every page grows, or stays. -/
def Grows (again : Prop) (pool pool' : PagePool) : Prop :=
  ∀ p, Relation.ReflTransGen (Grow again) (pool.pageMeta p) (pool'.pageMeta p)

/-- Every page sinks, or stays. -/
def Sinks (fence : Prop) (pool pool' : PagePool) : Prop :=
  ∀ p, Relation.ReflTransGen (Sink fence) (pool.pageMeta p) (pool'.pageMeta p)

theorem Grows.refl (again : Prop) (pool : PagePool) : Grows again pool pool := fun _ => .refl

theorem Sinks.refl (fence : Prop) (pool : PagePool) : Sinks fence pool pool := fun _ => .refl

theorem Grows.trans {a b c : PagePool} (h : Grows again a b) (h' : Grows again b c) : Grows again a c :=
  fun p => (h p).trans (h' p)

theorem Sinks.trans {a b c : PagePool} (h : Sinks fence a b) (h' : Sinks fence b c) : Sinks fence a c :=
  fun p => (h p).trans (h' p)

variable {pool' : PagePool} (pool : PagePool) (phys : Nat)

theorem Grows.lives {pool : PagePool} (h : Grows again pool pool') (p : Nat) :
    Lives again fence (pool.pageMeta p) (pool'.pageMeta p) := ⟨_, h p, .refl⟩

theorem Sinks.lives {pool : PagePool} (h : Sinks fence pool pool') (p : Nat) :
    Lives again fence (pool.pageMeta p) (pool'.pageMeta p) := ⟨_, .refl, h p⟩

theorem pageMeta_setMeta (m : PageMeta) (p : Nat) :
    (pool.setMeta phys m).pageMeta p = if p = phys then m else pool.pageMeta p := Function.update_apply ..

theorem moved_one {pool : PagePool} {phys : Nat} {m : PageMeta} (h : R (pool.pageMeta phys) m)
    (hmeta : pool'.pageMeta = (pool.setMeta phys m).pageMeta) (p : Nat) :
    Relation.ReflTransGen R (pool.pageMeta p) (pool'.pageMeta p) := by
  rw [hmeta, pageMeta_setMeta]
  split
  · rename_i hp
    rw [hp]
    exact .single h
  · exact .refl

theorem Act.moved {pool : PagePool} {phys : Nat} {stop go : Prop} {refs : Nat × Nat × Nat}
    {r : PagePool × Except String Unit} (h : Act R pool phys stop go refs r) (p : Nat) :
    Relation.ReflTransGen R (pool.pageMeta p) (r.1.pageMeta p) := by
  rcases h with ⟨e, rfl, -⟩ | ⟨-, m, pool', rfl, hm, -, hpl⟩
  · exact .refl
  · refine moved_one hm ?_ p
    cases hpl with
    | stay | free | queue => rfl

/-! ## The functions that move one page -/

theorem sinks_decTableRef : Sinks fence pool (pool.decTableRef phys).1 := (act_decTableRef fence pool phys).moved

theorem sinks_releaseReserved {pool : PagePool} {phys : Nat} (h : (pool.pageMeta phys).Alone) :
    Sinks fence pool (pool.releaseReserved phys) := moved_one (.giveBack h) rfl

theorem sinks_releaseInflightRef : Sinks fence pool (pool.releaseInflightRef phys).1 := by
  rcases releaseInflightRef_cases pool phys with ⟨e, he, -⟩ | ⟨hpos, hok⟩
  · rw [he]
    exact .refl _ pool
  · rw [hok]
    exact moved_one (.unlease hpos) rfl

theorem grows_sealPage : Grows again pool (pool.sealPage phys).1 := by
  unfold sealPage
  split
  · exact .refl _ pool
  dsimp only
  split
  · rename_i hs
    exact moved_one (.close hs) rfl
  · exact .refl _ pool
  · exact .refl _ pool

theorem grows_takePage {table cache inflight : Nat → Nat} {pool : PagePool} {page : Nat}
    (h : Tally n pool table cache inflight) (ht : pool.takePage = some (pool', page)) : Grows again pool pool' := by
  unfold takePage at ht
  split at ht
  · cases ht
  rename_i p rest hf
  obtain ⟨rfl, rfl⟩ := Prod.mk.inj (Option.some.inj ht)
  have hmem : p ∈ pool.freePages := by
    rw [hf]
    exact mem_cons_self
  exact moved_one (.take ((h.free_iff p).1 hmem).2) rfl

/-! ## The loops -/

theorem sinks_decAll : ∀ (ps : List Nat) (pool : PagePool), Sinks fence pool (decAll ps pool).1
  | [], pool => .refl _ pool
  | phys :: ps, pool => by
    have hone : Sinks fence pool (pool.decTableRef phys).1 := sinks_decTableRef pool phys
    unfold decAll
    rcases hd : pool.decTableRef phys with ⟨pool', _ | u⟩
    · rw [hd] at hone
      exact hone
    · rw [hd] at hone
      exact hone.trans (sinks_decAll ps pool')

theorem sinks_decEach : ∀ (ps : List Nat) (pool : PagePool), Sinks fence pool (decEach ps pool).1
  | [], pool => .refl _ pool
  | phys :: ps, pool => (sinks_decTableRef pool phys).trans (sinks_decEach ps _)

theorem sinks_commitLoop : ∀ (copies : List CowCopy) (pool : PagePool) (bt : BlockTable),
    Sinks fence pool (commitLoop copies pool bt).1
  | [], pool, _ => .refl _ pool
  | c :: copies, pool, bt => by
    have hone : Sinks fence pool (pool.decTableRef c.srcPhys).1 := sinks_decTableRef pool c.srcPhys
    unfold commitLoop
    rcases hd : pool.decTableRef c.srcPhys with ⟨pool', _ | u⟩
    · rw [hd] at hone
      exact hone
    · rw [hd] at hone
      exact hone.trans (sinks_commitLoop copies pool' _)

theorem sinks_drainLoop : ∀ (queue : List Nat) (pool : PagePool), Sinks True pool (drainLoop queue pool).1
  | [], pool => .refl _ pool
  | phys :: queue, pool => by
    unfold drainLoop
    dsimp only
    split
    · rename_i hz
      have hone : Sinks True pool (pool.free phys (pool.pageMeta phys)) :=
        moved_one (.drain trivial ⟨hz.2.1, hz.2.2, hz.1⟩) rfl
      exact hone.trans (sinks_drainLoop queue _)
    · exact sinks_drainLoop queue pool

/-- Distinct pages, each held by nobody else. -/
theorem sinks_releaseAll : ∀ (ps : List Nat) (pool : PagePool), ps.Nodup → (∀ p ∈ ps, (pool.pageMeta p).Alone) →
    Sinks fence pool (releaseAll ps pool)
  | [], pool, _, _ => .refl _ pool
  | phys :: ps, pool, hnd, hps => by
    obtain ⟨hni, hnd⟩ := nodup_cons.1 hnd
    refine (sinks_releaseReserved (hps phys mem_cons_self)).trans (sinks_releaseAll ps _ hnd fun p hp => ?_)
    have hne : p ≠ phys := fun heq => hni (heq ▸ hp)
    show ((pool.setMeta phys _).pageMeta p).Alone
    rw [pageMeta_setMeta, if_neg hne]
    exact hps p (mem_cons_of_mem _ hp)

variable {cache inflight : Nat → Nat}

theorem grows_allocLoop : ∀ (i : Nat) (pool : PagePool) (bt : BlockTable) (table : Nat → Nat),
    Tally n pool table cache inflight → Grows again pool (allocLoop i pool bt).1
  | 0, pool, _, _, _ => .refl _ pool
  | i + 1, pool, bt, table, h => by
    unfold allocLoop
    cases ht : pool.takePage with
    | none => exact .refl _ pool
    | some r =>
      obtain ⟨pool', page⟩ := r
      obtain ⟨-, -, -, -, htally⟩ := tally_takePage h ht
      exact (grows_takePage h ht).trans (grows_allocLoop i pool' _ _ htally)

theorem grows_shareLoop : ∀ (ps : List Nat) (pool : PagePool) (bt : BlockTable), (∀ p ∈ ps, 0 < (pool.pageMeta p).tableRefs) →
    Grows again pool (shareLoop ps pool bt).1
  | [], pool, _, _ => .refl _ pool
  | phys :: ps, pool, bt, hps => by
    unfold shareLoop
    split
    · exact .refl _ pool
    dsimp only
    split
    · exact .refl _ pool
    rename_i refs hrefs
    obtain ⟨-, rfl⟩ := checkedInc_eq_some.1 hrefs
    have hone : Grows again pool (pool.setMeta phys { pool.pageMeta phys with
        tableRefs := (pool.pageMeta phys).tableRefs + 1, state := .sealed }) :=
      moved_one (.share (hps phys mem_cons_self)) rfl
    refine hone.trans (grows_shareLoop ps _ _ fun p hp => ?_)
    rw [pageMeta_setMeta]
    split
    · exact Nat.succ_pos _
    · exact hps p (mem_cons_of_mem _ hp)

/-- **Planning takes pages, and gives back those it took.** -/
theorem lives_planLoop (bt : BlockTable) (writeStart : Nat) : ∀ (lps : List Nat) (copies : List CowCopy) (pool : PagePool)
    (table : Nat → Nat), Tally n pool table cache inflight → (copies.map CowCopy.dstPhys).Nodup →
    (∀ p ∈ copies.map CowCopy.dstPhys, (pool.pageMeta p).Alone) →
    ∃ mid, Grows again pool mid ∧ Sinks fence mid (planLoop bt writeStart lps copies pool).1
  | [], _, pool, _, _, _, _ => ⟨pool, .refl _ pool, .refl _ pool⟩
  | lp :: lps, copies, pool, table, h, hnd, halone => by
    obtain ⟨heq, -⟩ | ⟨e, heq⟩ | ⟨pool', c, ht, -, -, -, -, heq⟩ := planLoop_cons bt writeStart lp lps copies pool
    · rw [heq]
      exact lives_planLoop bt writeStart lps copies pool table h hnd halone
    · rw [heq]
      exact ⟨pool, .refl _ pool, sinks_releaseAll _ pool hnd halone⟩
    · obtain ⟨h1, h2, h3, -, htally⟩ := tally_takePage h ht
      have hnew : (pool'.pageMeta c.dstPhys).Alone :=
        ⟨(htally.tables _).trans (Function.update_self ..), (htally.caches _).trans h2, (htally.inflights _).trans h3⟩
      have hold : ∀ p ∈ copies.map CowCopy.dstPhys, p ≠ c.dstPhys ∧ (pool'.pageMeta p).Alone := fun p hp => by
        have ha := halone p hp
        have hne : p ≠ c.dstPhys := fun heq => by
          have := (h.tables c.dstPhys).trans h1
          rw [heq] at ha
          exact absurd (ha.1.symm.trans this) Nat.one_ne_zero
        refine ⟨hne, ?_, ?_, ?_⟩
        · rw [htally.tables, Function.update_of_ne hne, ← h.tables]
          exact ha.1
        · rw [htally.caches, ← h.caches]
          exact ha.2.1
        · rw [htally.inflights, ← h.inflights]
          exact ha.2.2
      rw [heq]
      obtain ⟨mid, hgrow, hsink⟩ := lives_planLoop bt writeStart lps (copies ++ [c]) pool' _ htally
        (by rw [map_append, map_singleton, ← concat_eq_append, nodup_concat]; exact ⟨fun hm => (hold _ hm).1 rfl, hnd⟩)
        (by rw [map_append]; exact forall_mem_append.2 ⟨fun p hp => (hold p hp).2, forall_mem_singleton.2 hnew⟩)
      exact ⟨mid, (grows_takePage h ht).trans hgrow, hsink⟩

end Hipfire.Pages
