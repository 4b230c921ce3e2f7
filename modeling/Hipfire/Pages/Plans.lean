import Hipfire.Pages.Loops
/-!
# Plans — what a plan lists and what its commit remaps

`planLoop_lists` and `commitLoop_remaps` say what the two loops of copy-on-write do to the table; the counts of the pool are
in `Loops`.
-/
namespace Hipfire.Pages

open List

theorem mem_touchedPages {s e : Nat} (h : s < e) (lp : Nat) :
    lp ∈ PagePool.touchedPages s e ↔ ∃ i, s ≤ i ∧ i < e ∧ i / pageTokens = lp := by
  unfold PagePool.touchedPages pageTokens
  rw [mem_range'_1]
  constructor
  · rintro ⟨h1, h2⟩
    rcases Nat.lt_or_ge (lp * 128) s with hlt | hge
    · exact ⟨s, Nat.le_refl s, h, by omega⟩
    · exact ⟨lp * 128, hge, by omega, by omega⟩
  · omega

/-- Taking a page leaves every page that was not free. -/
theorem takePage_keeps {pool pool' : PagePool} {dst p : Nat} (ht : pool.takePage = some (pool', dst)) (hp : p ∉ pool.freePages) :
    p ∉ pool'.freePages ∧ pool'.pageMeta p = pool.pageMeta p := by
  unfold PagePool.takePage at ht
  split at ht
  · cases ht
  rename_i page rest hf
  obtain ⟨rfl, rfl⟩ := Prod.mk.inj (Option.some.inj ht)
  rw [hf, mem_cons, not_or] at hp
  exact ⟨hp.2, Function.update_of_ne hp.1 ..⟩

/-- **What a plan lists**: a copy with the valid prefix for every immutable page among those looked at. -/
theorem planLoop_lists (bt : BlockTable) (s : Nat) : ∀ (lps : List Nat) (copies copies' : List CowCopy) (pool : PagePool),
    (∀ lp ∈ lps, ∀ p ∈ bt.physical lp, p ∉ pool.freePages) → (PagePool.planLoop bt s lps copies pool).2 = .ok copies' →
    ∃ new, copies' = copies ++ new ∧
      (∀ c ∈ new, c.logicalPage ∈ lps ∧ bt.physical c.logicalPage = some c.srcPhys ∧
        (pool.pageMeta c.srcPhys).state.Immutable ∧ c.validPrefixTokens = min (s - c.logicalPage * pageTokens) pageTokens) ∧
      ∀ lp ∈ lps, ∀ p ∈ bt.physical lp, (pool.pageMeta p).state.Immutable → lp ∈ new.map CowCopy.logicalPage
  | [], copies, copies', pool, _, h => ⟨[], by rw [append_nil]; exact (Except.ok.inj h).symm, nofun, nofun⟩
  | lp :: lps, copies, copies', pool, hfree, h => by
    rw [forall_mem_cons] at hfree
    obtain ⟨heq, hno⟩ | ⟨e, heq⟩ | ⟨pool', c, ht, rfl, hphys, him, hvalid, heq⟩ := planLoop_cons bt s lp lps copies pool
    · rw [heq] at h
      obtain ⟨new, hnew, hlisted, hall⟩ := planLoop_lists bt s lps copies copies' pool hfree.2 h
      refine ⟨new, hnew, fun c hc => ⟨mem_cons_of_mem _ (hlisted c hc).1, (hlisted c hc).2⟩, forall_mem_cons.2 ⟨?_, hall⟩⟩
      exact fun p hp him => absurd him (hno p hp)
    · rw [heq] at h
      cases h
    · rw [heq] at h
      have hkeep : ∀ q ∈ lps, ∀ p ∈ bt.physical q, p ∉ pool'.freePages ∧ pool'.pageMeta p = pool.pageMeta p :=
        fun q hq p hp => takePage_keeps ht (hfree.2 q hq p hp)
      obtain ⟨new, rfl, hlisted, hall⟩ := planLoop_lists bt s lps _ copies' pool' (fun q hq p hp => (hkeep q hq p hp).1) h
      refine ⟨c :: new, append_assoc .., forall_mem_cons.2 ⟨⟨mem_cons_self, hphys, him, hvalid⟩, fun d hd => ?_⟩,
        forall_mem_cons.2 ⟨fun _ _ _ => mem_cons_self, fun q hq p hp himp => ?_⟩⟩
      · obtain ⟨h1, h2, h3, h4⟩ := hlisted d hd
        rw [(hkeep _ h1 _ h2).2] at h3
        exact ⟨mem_cons_of_mem _ h1, h2, h3, h4⟩
      · exact mem_cons_of_mem _ (hall q hq p hp (by rw [(hkeep q hq p hp).2]; exact himp))

/-- A table with the logical pages of some copies remapped to their destinations. -/
structure Remapped (bt : BlockTable) (copies : List CowCopy) (bt' : BlockTable) : Prop where
  copied : ∀ c ∈ copies, bt'.physical c.logicalPage = some c.dstPhys
  others : ∀ lp, lp ∉ copies.map CowCopy.logicalPage → bt'.physical lp = bt.physical lp
  length : bt'.pages.length = bt.pages.length
  live : bt'.liveTokens = bt.liveTokens
  count : ∀ p, bt'.pages.count p + (copies.map CowCopy.srcPhys).count p =
    bt.pages.count p + (copies.map CowCopy.dstPhys).count p

variable {bt : BlockTable}

theorem physical_setPage_self {lp src : Nat} (h : bt.physical lp = some src) (dst : Nat) :
    (bt.setPage lp dst).physical lp = some dst := by
  obtain ⟨hlt, -⟩ := List.getElem?_eq_some_iff.1 h
  exact getElem?_set_self hlt

theorem physical_setPage_ne {lp q : Nat} (h : lp ≠ q) (dst : Nat) :
    (bt.setPage lp dst).physical q = bt.physical q := getElem?_set_ne h

/-- Two logical pages that map one page. -/
theorem two_le_count {lp lp' p : Nat} (hne : lp ≠ lp') (h : bt.physical lp = some p)
    (h' : bt.physical lp' = some p) : 2 ≤ bt.pages.count p := by
  -- remap the first: the second still maps the page
  have hset := count_setPage h (p + 1) p
  have hmem : p ∈ (bt.setPage lp (p + 1)).pages := mem_of_getElem? ((physical_setPage_ne hne _).trans h')
  have hpos := count_pos_iff.2 hmem
  simp only [count_cons_self, count_nil, count_cons, beq_iff_eq] at hset
  rw [if_neg (by omega : ¬ p + 1 = p)] at hset
  omega

/-- **What a commit remaps.** -/
theorem commitLoop_remaps : ∀ (copies : List CowCopy) (pool : PagePool) (bt : BlockTable), Planned bt copies →
    (PagePool.commitLoop copies pool bt).2.2 = .ok () → Remapped bt copies (PagePool.commitLoop copies pool bt).2.1
  | [], _, _, _, _ => ⟨nofun, fun _ _ => rfl, rfl, rfl, fun _ => rfl⟩
  | c :: copies, pool, bt, hplan, h => by
    obtain ⟨hni, -⟩ := nodup_cons.1 hplan.nodup
    have hsrc := hplan.maps c mem_cons_self
    unfold PagePool.commitLoop at h ⊢
    rcases hd : pool.decTableRef c.srcPhys with ⟨pool', _ | u⟩
    · rw [hd] at h; cases h
    rw [hd] at h
    have hrest := commitLoop_remaps copies pool' (bt.setPage c.logicalPage c.dstPhys) (hplan.tail _) h
    refine ⟨fun d hd' => ?_, fun lp hlp => ?_, ?_, hrest.live, fun p => ?_⟩
    · rcases mem_cons.1 hd' with rfl | hd'
      · exact (hrest.others _ hni).trans (physical_setPage_self hsrc _)
      · exact hrest.copied d hd'
    · rw [map_cons, mem_cons, not_or] at hlp
      exact (hrest.others lp hlp.2).trans (physical_setPage_ne (Ne.symm hlp.1) _)
    · exact hrest.length.trans (length_set ..)
    · have hset := count_setPage hsrc c.dstPhys p
      have := hrest.count p
      simp only [map_cons, count_cons, count_nil] at hset this ⊢
      omega

end Hipfire.Pages
