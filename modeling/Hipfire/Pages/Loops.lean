import Hipfire.Pages.Tally
/-!
# Loops — what the loops of the pool do to a tally

Each loop adds or drops the references of a list of pages; its lemma says which list.
-/
namespace Hipfire.Pages

open PagePool List Function

/-- The counts with one more reference to each page of a list. -/
def plus (f : Nat → Nat) (ps : List Nat) : Nat → Nat := fun p => f p + ps.count p

/-- The counts with one reference less to each page of a list. -/
def less (f : Nat → Nat) (ps : List Nat) : Nat → Nat := fun p => f p - ps.count p

variable {bt : BlockTable} (f : Nat → Nat) (ps : List Nat)

theorem plus_nil : plus f [] = f := rfl

theorem plus_cons (p : Nat) (ps : List Nat) : plus (update f p (f p + 1)) ps = plus f (p :: ps) := by
  funext q
  unfold plus
  rw [count_cons, update_apply]
  by_cases hq : q = p
  · subst hq; simp; omega
  · have : (p == q) = false := by simpa using Ne.symm hq
    simp [hq, this]

theorem less_cons (p : Nat) (ps : List Nat) : less (update f p (f p - 1)) ps = less f (p :: ps) := by
  funext q
  unfold less
  rw [count_cons, update_apply]
  by_cases hq : q = p
  · subst hq; simp; omega
  · have : (p == q) = false := by simpa using Ne.symm hq
    simp [hq, this]

/-- One of several references is dropped, and the others are still held. -/
theorem count_le_less {f : Nat → Nat} {p : Nat} {ps : List Nat} (h : ∀ q, (p :: ps).count q ≤ f q) :
    0 < f p ∧ ∀ q, ps.count q ≤ update f p (f p - 1) q := by
  have hp := h p
  rw [count_cons_self] at hp
  refine ⟨by omega, fun q => ?_⟩
  rw [update_apply]
  split
  · rename_i hq
    rw [hq]
    omega
  · exact Nat.le_trans count_le_count_cons (h q)

theorem plus_append (qs : List Nat) : plus (plus f ps) qs = plus f (ps ++ qs) := by
  funext q
  unfold plus
  rw [count_append, Nat.add_assoc]

theorem less_plus : less (plus f ps) ps = f := by
  funext q
  exact Nat.add_sub_cancel ..

variable {n : Nat} {cache inflight : Nat → Nat}

/-- **Allocation** appends pages that nobody referred to, as many as asked for and available. -/
theorem tally_allocLoop : ∀ (m : Nat) (pool : PagePool) (bt : BlockTable) (table : Nat → Nat), Tally n pool table cache inflight →
    ∃ ps, (allocLoop m pool bt).2.1 = { bt with pages := bt.pages ++ ps } ∧
      ps = pool.freePages.take m ∧ (∀ p ∈ ps, table p = 0 ∧ cache p = 0 ∧ inflight p = 0) ∧
      Tally n (allocLoop m pool bt).1 (plus table ps) cache inflight
  | 0, pool, bt, table, h => ⟨[], by simp [allocLoop], rfl, by simp, h⟩
  | m + 1, pool, bt, table, h => by
    unfold allocLoop
    cases ht : pool.takePage with
    | none =>
      have hf : pool.freePages = [] := by
        unfold takePage at ht
        split at ht
        · assumption
        · cases ht
      exact ⟨[], by simp, by simp [hf], by simp, h⟩
    | some r =>
      obtain ⟨pool', page⟩ := r
      obtain ⟨h1, h2, h3, hf, htally⟩ := tally_takePage h ht
      obtain ⟨ps, hpages, hps, hfresh, hrest⟩ := tally_allocLoop m pool' (bt.pushPage page) _ htally
      have hone : update table page 1 = update table page (table page + 1) := by rw [h1]
      refine ⟨page :: ps, ?_, by rw [hf, take_succ_cons, hps], ?_, by rwa [hone, plus_cons] at hrest⟩
      · rw [hpages]
        simp [BlockTable.pushPage]
      intro p hp
      rcases mem_cons.1 hp with rfl | hp
      · exact ⟨h1, h2, h3⟩
      obtain ⟨ht0, hrest0⟩ := hfresh p hp
      rw [update_apply] at ht0
      split at ht0
      · cases ht0
      · exact ⟨ht0, hrest0⟩

/-- **Sharing** appends the listed pages, or those before the one whose count would overflow. -/
theorem tally_shareLoop : ∀ (ps : List Nat) (pool : PagePool) (bt : BlockTable) (table : Nat → Nat),
    Tally n pool table cache inflight → (∀ p ∈ ps, 0 < table p) →
    ∃ done, (shareLoop ps pool bt).2.1 = { bt with pages := bt.pages ++ done } ∧
      Tally n (shareLoop ps pool bt).1 (plus table done) cache inflight ∧
      (((shareLoop ps pool bt).2.2 = .ok () ∧ done = ps) ∨
        ∃ phys rest, ps = done ++ phys :: rest ∧ u32Max ≤ plus table done phys ∧
          (shareLoop ps pool bt).2.2 = .error s!"share_prefix: refcount overflow for phys {phys}")
  | [], pool, bt, table, h, _ => ⟨[], by simp [shareLoop], h, .inl ⟨rfl, rfl⟩⟩
  | phys :: ps, pool, bt, table, h, hps => by
    have hp := hps phys mem_cons_self
    have hlt := (h.not_free (ne_free_of_resident (h.resident (p := phys) (by omega))).1).1
    unfold shareLoop
    rw [checkPhys_ok hlt]
    simp only
    cases hrefs : checkedInc (pool.pageMeta phys).tableRefs with
    | none =>
      refine ⟨[], by simp, h, .inr ⟨phys, ps, rfl, ?_, rfl⟩⟩
      rw [plus_nil, ← h.tables]
      unfold checkedInc at hrefs
      split at hrefs
      · cases hrefs
      · omega
    | some refs =>
      obtain ⟨done, hpages, htally, hres⟩ := tally_shareLoop ps _ (bt.pushPage phys) _ (tally_share h hp hrefs)
        (fun p hm => by
          have := hps p (mem_cons_of_mem _ hm)
          rw [update_apply]
          split
          · omega
          · exact this)
      rw [plus_cons] at htally hres
      refine ⟨phys :: done, by rw [hpages]; simp [BlockTable.pushPage], htally, ?_⟩
      rcases hres with ⟨hok, rfl⟩ | ⟨q, rest, hq, hmax, herr⟩
      · exact .inl ⟨hok, rfl⟩
      · exact .inr ⟨q, rest, by rw [hq]; rfl, hmax, herr⟩

/-- **Dropping** references that are held. -/
theorem tally_decAll : ∀ (ps : List Nat) (pool : PagePool) (table : Nat → Nat), Tally n pool table cache inflight →
    (∀ p, ps.count p ≤ table p) → (decAll ps pool).2 = .ok () ∧
      Tally n (decAll ps pool).1 (less table ps) cache inflight
  | [], pool, table, h, _ => ⟨rfl, h⟩
  | phys :: ps, pool, table, h, hps => by
    obtain ⟨hp, hrest⟩ := count_le_less hps
    obtain ⟨pool', hok, htally⟩ := tally_decTableRef h hp
    unfold decAll
    rw [hok, ← less_cons]
    exact tally_decAll ps pool' _ htally hrest

/-- The other loop over references does the same and reports no failure. -/
theorem decEach_eq : ∀ (ps : List Nat) (pool : PagePool), (decAll ps pool).2 = .ok () →
    decEach ps pool = ((decAll ps pool).1, false)
  | [], _, _ => rfl
  | phys :: ps, pool, h => by
    unfold decAll at h ⊢
    unfold decEach
    rcases hd : pool.decTableRef phys with ⟨pool', _ | u⟩
    · rw [hd] at h; cases h
    · rw [hd] at h
      simp only [decEach_eq ps pool' h, Bool.or_false]

/-- **Giving back** pages that only a plan refers to. -/
theorem tally_releaseAll : ∀ (ps : List Nat) (pool : PagePool) (table : Nat → Nat), Tally n pool table cache inflight →
    ps.Nodup → (∀ p ∈ ps, table p = 1 ∧ cache p = 0 ∧ inflight p = 0) →
      Tally n (releaseAll ps pool) (less table ps) cache inflight
  | [], pool, table, h, _, _ => h
  | phys :: ps, pool, table, h, hnd, hps => by
    obtain ⟨hni, hnd⟩ := nodup_cons.1 hnd
    obtain ⟨h1, h2, h3⟩ := hps phys mem_cons_self
    have hrel := tally_releaseReserved h ⟨(h.tables phys).trans h1, (h.caches phys).trans h2, (h.inflights phys).trans h3⟩
    have hzero : update table phys 0 = update table phys (table phys - 1) := by rw [h1]
    rw [hzero] at hrel
    rw [← less_cons]
    refine tally_releaseAll ps _ _ hrel hnd (fun p hp => ?_)
    have hne : p ≠ phys := fun he => hni (he ▸ hp)
    rw [update_of_ne hne]
    exact hps p (mem_cons_of_mem _ hp)

/-! ## Copy-on-write -/

/-- The copies of a plan, against the table they were planned for: distinct logical pages, each mapped to its source. -/
structure Planned (bt : BlockTable) (copies : List CowCopy) : Prop where
  nodup : (copies.map CowCopy.logicalPage).Nodup
  maps : ∀ c ∈ copies, bt.physical c.logicalPage = some c.srcPhys

/-- The check of a commit. -/
theorem planned_of_checked {pool : PagePool} {copies : List CowCopy} (hnd : (copies.map CowCopy.logicalPage).Nodup)
    (h : firstError (pool.checkCopy bt) copies = .ok ()) : Planned bt copies := by
  refine ⟨hnd, fun c hc => ?_⟩
  have hc := (firstError_ok _ _).1 h c hc
  unfold checkCopy at hc
  split at hc
  · assumption
  · cases hc

/-- The state of a page that has to be copied before it is written. -/
def PageState.Immutable (s : PageState) : Prop := s = .sealed ∨ s = .cacheOnly

/-- **One page of a plan** is passed over, or has a page reserved for it, or all are given back. -/
theorem planLoop_cons (bt : BlockTable) (s lp : Nat) (lps : List Nat) (copies : List CowCopy) (pool : PagePool) :
    (planLoop bt s (lp :: lps) copies pool = planLoop bt s lps copies pool ∧
      ∀ p ∈ bt.physical lp, ¬(pool.pageMeta p).state.Immutable) ∨
    (∃ e, planLoop bt s (lp :: lps) copies pool =
      (releaseAll (copies.map CowCopy.dstPhys) pool, .error e)) ∨
    ∃ pool' c, pool.takePage = some (pool', c.dstPhys) ∧ c.logicalPage = lp ∧ bt.physical lp = some c.srcPhys ∧
      (pool.pageMeta c.srcPhys).state.Immutable ∧ c.validPrefixTokens = min (s - lp * pageTokens) pageTokens ∧
      planLoop bt s (lp :: lps) copies pool = planLoop bt s lps (copies ++ [c]) pool' := by
  rw [planLoop]
  cases hphys : bt.physical lp with
  | none => exact .inl ⟨rfl, nofun⟩
  | some phys =>
    dsimp only
    split
    · rename_i him
      cases ht : pool.takePage with
      | none => exact .inr (.inl ⟨_, rfl⟩)
      | some r => exact .inr (.inr ⟨r.1, ⟨lp, phys, r.2, _, _, _⟩, rfl, rfl, rfl, him, rfl, rfl⟩)
    · rename_i him
      exact .inl ⟨rfl, fun p hp => by cases hp; exact him⟩

/-- **Planning** reserves pages that nobody referred to, one for each copy; without a free page nothing is reserved. -/
theorem tally_planLoop (bt : BlockTable) (writeStart : Nat) {table : Nat → Nat} : ∀ (lps : List Nat) (copies : List CowCopy)
    (pool : PagePool), Tally n pool (plus table (copies.map CowCopy.dstPhys)) cache inflight → Planned bt copies →
    lps.Nodup → (∀ c ∈ copies, c.logicalPage ∉ lps) → (copies.map CowCopy.dstPhys).Nodup →
    (∀ c ∈ copies, table c.dstPhys = 0 ∧ cache c.dstPhys = 0 ∧ inflight c.dstPhys = 0) →
    (∃ e, (planLoop bt writeStart lps copies pool).2 = .error e ∧
      Tally n (planLoop bt writeStart lps copies pool).1 table cache inflight) ∨
    (∃ copies', (planLoop bt writeStart lps copies pool).2 = .ok copies' ∧ Planned bt copies' ∧
      (copies'.map CowCopy.dstPhys).Nodup ∧
      (∀ c ∈ copies', table c.dstPhys = 0 ∧ cache c.dstPhys = 0 ∧ inflight c.dstPhys = 0) ∧
      Tally n (planLoop bt writeStart lps copies pool).1 (plus table (copies'.map CowCopy.dstPhys)) cache inflight)
  | [], copies, pool, h, hplan, _, _, hnd, hfresh => .inr ⟨copies, rfl, hplan, hnd, hfresh, h⟩
  | lp :: lps, copies, pool, h, hplan, hlps, hout, hnd, hfresh => by
    obtain ⟨hlp, hlps'⟩ := nodup_cons.1 hlps
    have hout' : ∀ c ∈ copies, c.logicalPage ∉ lps := fun c hc hm => hout c hc (mem_cons_of_mem _ hm)
    obtain ⟨heq, -⟩ | ⟨e, heq⟩ | ⟨pool', c, ht, rfl, hphys, -, -, heq⟩ := planLoop_cons bt writeStart lp lps copies pool
    · rw [heq]
      exact tally_planLoop bt writeStart lps copies pool h hplan hlps' hout' hnd hfresh
    · rw [heq]
      refine .inl ⟨e, rfl, ?_⟩
      have hrel := tally_releaseAll (copies.map CowCopy.dstPhys) pool _ h hnd (fun p hp => ?_)
      · rwa [less_plus] at hrel
      · obtain ⟨c, hc, rfl⟩ := mem_map.1 hp
        obtain ⟨h1, h2, h3⟩ := hfresh c hc
        refine ⟨?_, h2, h3⟩
        rw [plus, h1, hnd.count, if_pos hp]
    · obtain ⟨h1, h2, h3, -, htally⟩ := tally_takePage h ht
      -- the page taken is none of those reserved before
      have hdst : table c.dstPhys = 0 ∧ c.dstPhys ∉ copies.map CowCopy.dstPhys := by
        unfold plus at h1
        exact ⟨by omega, count_eq_zero.1 (by omega)⟩
      have hone : update (plus table (copies.map CowCopy.dstPhys)) c.dstPhys 1 =
          plus table ((copies ++ [c]).map CowCopy.dstPhys) := by
        rw [map_append, ← plus_append, map_singleton, ← plus_cons, plus_nil, h1]
      rw [heq]
      refine tally_planLoop bt writeStart lps _ pool' (hone ▸ htally) ⟨?_, ?_⟩ hlps' ?_ ?_ ?_
      · rw [map_append, map_singleton, ← concat_eq_append, nodup_concat]
        refine ⟨fun hm => ?_, hplan.nodup⟩
        obtain ⟨c', hc', heq'⟩ := mem_map.1 hm
        exact hout c' hc' (heq' ▸ mem_cons_self)
      · exact forall_mem_append.2 ⟨hplan.maps, forall_mem_singleton.2 hphys⟩
      · exact forall_mem_append.2 ⟨hout', forall_mem_singleton.2 hlp⟩
      · rw [map_append, map_singleton, ← concat_eq_append, nodup_concat]
        exact ⟨hdst.2, hnd⟩
      · exact forall_mem_append.2 ⟨hfresh, forall_mem_singleton.2 ⟨hdst.1, h2, h3⟩⟩

theorem Planned.tail {c : CowCopy} {copies : List CowCopy} (h : Planned bt (c :: copies)) (page : Nat) :
    Planned (bt.setPage c.logicalPage page) copies := by
  obtain ⟨hni, hnd⟩ := nodup_cons.1 h.nodup
  refine ⟨hnd, fun d hd => ?_⟩
  have hne : c.logicalPage ≠ d.logicalPage := fun he => hni (mem_map.2 ⟨d, hd, he.symm⟩)
  unfold BlockTable.physical BlockTable.setPage
  rw [getElem?_set_ne hne]
  exact h.maps d (mem_cons_of_mem _ hd)

theorem count_setPage {lp src : Nat} (h : bt.physical lp = some src) (dst p : Nat) :
    (bt.setPage lp dst).pages.count p + [src].count p = bt.pages.count p + [dst].count p := by
  obtain ⟨hlt, hget⟩ := List.getElem?_eq_some_iff.1 h
  unfold BlockTable.setPage
  rw [count_set hlt, hget]
  have hmem : src ∈ bt.pages := hget ▸ getElem_mem hlt
  have hpos := count_pos_iff.2 hmem
  simp only [count_singleton]
  by_cases hs : src = p
  · subst hs; simp; omega
  · have : (src == p) = false := by simpa using hs
    simp [this]

/-- The sources of planned copies are mapped, each as often as it is a source. -/
theorem Planned.sources_le (p : Nat) : ∀ {copies : List CowCopy} {bt : BlockTable}, Planned bt copies →
    (copies.map CowCopy.srcPhys).count p ≤ bt.pages.count p
  | [], _, _ => Nat.zero_le _
  | c :: copies, bt, h => by
    -- remap the copy's logical page to some other page: this takes one mapping of its source away
    have hrest := Planned.sources_le p (h.tail (p + 1))
    have hset := count_setPage (h.maps c mem_cons_self) (p + 1) p
    simp only [map_cons, count_cons, count_nil, beq_iff_eq] at hset ⊢
    rw [if_neg (by omega : ¬ p + 1 = p)] at hset
    omega

/-- **Committing** drops a reference of every source. -/
theorem tally_commitLoop : ∀ (copies : List CowCopy) (pool : PagePool) (bt : BlockTable) (table : Nat → Nat),
    Tally n pool table cache inflight → Planned bt copies → (∀ p, (copies.map CowCopy.srcPhys).count p ≤ table p) →
    (commitLoop copies pool bt).2.2 = .ok () ∧
    Tally n (commitLoop copies pool bt).1 (less table (copies.map CowCopy.srcPhys)) cache inflight
  | [], pool, bt, table, h, _, _ => ⟨rfl, h⟩
  | c :: copies, pool, bt, table, h, hplan, hle => by
    obtain ⟨hp, hrest⟩ := count_le_less hle
    obtain ⟨pool', hok, htally⟩ := tally_decTableRef h hp
    unfold commitLoop
    rw [hok, map_cons, ← less_cons]
    exact tally_commitLoop copies pool' (bt.setPage c.logicalPage c.dstPhys) _ htally (hplan.tail _) hrest

end Hipfire.Pages
