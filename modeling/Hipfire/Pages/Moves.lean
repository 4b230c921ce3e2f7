import Hipfire.Pages.Pool
/-!
# Moves — what a call can do to one page

The life cycle of one page as a relation on its metadata: a page grows when it gains an owner or a lease (`Grow`), and sinks
when it loses one (`Sink`).  A function that works on one page refuses and changes nothing, or moves the page and puts it
where its state says (`Act`); the counts of the pool and the life of its pages are read off this.
-/
namespace Hipfire.Pages

/-! ## One page -/

/-- A page's state against its own counts. -/
structure PageMeta.Consistent (m : PageMeta) : Prop where
  idle : m.state = .free → m.tableRefs = 0 ∧ m.cacheRefs = 0 ∧ m.inflightRefs = 0
  waiting : m.state = .reclaimPending → m.tableRefs = 0 ∧ m.cacheRefs = 0
  owned : m.state.resident = true → 0 < m.tableRefs + m.cacheRefs
  exclusive : m.state = .priv → m.tableRefs = 1 ∧ m.cacheRefs = 0

theorem ne_free_of_resident {s : PageState} (h : s.resident = true) : s ≠ .free ∧ s ≠ .reclaimPending := by
  cases s with
  | free | reclaimPending => cases h
  | priv | sealed | cacheOnly => exact ⟨nofun, nofun⟩

theorem checkOwned_resident {pool : PagePool} {name free pending : String} {p : Nat}
    (hp : pool.checkOwned name free pending p = .ok ()) : (pool.pageMeta p).state.resident = true := by
  unfold PagePool.checkOwned at hp
  split at hp
  · cases hp
  simp only at hp
  split at hp
  · cases hp
  split at hp
  · cases hp
  rename_i h1 h2
  cases hs : (pool.pageMeta p).state with
  | free => exact absurd hs h1
  | reclaimPending => exact absurd hs h2
  | priv | sealed | cacheOnly => rfl

theorem sealed_of_priv {s : PageState} (h : s.resident = true) :
    (if s = .priv then PageState.sealed else s).resident = true ∧ (if s = .priv then PageState.sealed else s) ≠ .priv := by
  split
  · exact ⟨rfl, nofun⟩
  · rename_i hs
    exact ⟨h, hs⟩

theorem checkPhys_ok {pool : PagePool} {p : Nat} (hp : p < pool.nPages) : pool.checkPhys p = .ok () := if_pos hp

/-- Only one table, or one plan, refers to the page. -/
def PageMeta.Alone (m : PageMeta) : Prop := m.tableRefs = 1 ∧ m.cacheRefs = 0 ∧ m.inflightRefs = 0

instance (m : PageMeta) : Decidable m.Alone := by
  unfold PageMeta.Alone
  infer_instance

/-- A page gains an owner or a lease.  `again` says whether a page of the cache alone may be mapped again. -/
inductive Grow (again : Prop) (m : PageMeta) : PageMeta → Prop where
  | take (h : m.state = .free) :
    Grow again m { m with state := .priv, generation := wrappingInc m.generation, tableRefs := 1 }
  | attach (h : m.state.resident = true) (hc : m.state = .cacheOnly → again) :
    Grow again m { m with tableRefs := m.tableRefs + 1, state := if m.state = .priv then .sealed else m.state }
  | share (h : 0 < m.tableRefs) : Grow again m { m with tableRefs := m.tableRefs + 1, state := .sealed }
  | close (h : m.state = .priv) : Grow again m { m with state := .sealed }
  | lease (h : m.state.resident = true) : Grow again m { m with inflightRefs := m.inflightRefs + 1 }
  | cache (h : m.state.resident = true) :
    Grow again m { m with cacheRefs := m.cacheRefs + 1, state := if m.state = .priv then .sealed else m.state }

/-- A page loses an owner or a lease.  `fence` says whether queued pages may be freed. -/
inductive Sink (fence : Prop) (m : PageMeta) : PageMeta → Prop where
  | drop (h : 1 < m.tableRefs) : Sink fence m { m with tableRefs := m.tableRefs - 1 }
  | dropCached (h : m.tableRefs = 1) (hc : 0 < m.cacheRefs) : Sink fence m { m with tableRefs := 0, state := .cacheOnly }
  | dropLeased (h : m.tableRefs = 1) (hc : m.cacheRefs = 0) : Sink fence m { m with tableRefs := 0, state := .reclaimPending }
  | giveBack (h : m.Alone) : Sink fence m { m with tableRefs := 0, state := .free, generation := wrappingInc m.generation }
  | uncache (h : 0 < m.cacheRefs) (hs : 0 < m.tableRefs ∨ 1 < m.cacheRefs) : Sink fence m { m with cacheRefs := m.cacheRefs - 1 }
  | uncacheLeased (h : m.cacheRefs = 1) (ht : m.tableRefs = 0) : Sink fence m { m with cacheRefs := 0, state := .reclaimPending }
  | evict (h : m.cacheRefs = 1) (ht : m.tableRefs = 0) (hi : m.inflightRefs = 0) :
    Sink fence m { m with cacheRefs := 0, state := .free, generation := wrappingInc m.generation }
  | unlease (h : 0 < m.inflightRefs) : Sink fence m { m with inflightRefs := m.inflightRefs - 1 }
  | drain (hf : fence) (h : m.tableRefs = 0 ∧ m.cacheRefs = 0 ∧ m.inflightRefs = 0) :
    Sink fence m { m with state := .free, generation := wrappingInc m.generation }

variable {again fence : Prop} {m m' : PageMeta}

/-- A resident page has no counts that a free page has. -/
theorem Grow.consistent (h : Grow again m m') (hm : m.Consistent) : m'.Consistent := by
  obtain ⟨idle, waiting, owned, exclusive⟩ := hm
  cases h with
  | take hs =>
    obtain ⟨-, hc, -⟩ := idle hs
    exact ⟨nofun, nofun, fun _ => Nat.lt_of_lt_of_le Nat.one_pos (Nat.le_add_right _ _), fun _ => ⟨rfl, hc⟩⟩
  | share hs => exact ⟨nofun, nofun, fun _ => by dsimp only; omega, nofun⟩
  | close hs =>
    obtain ⟨ht, -⟩ := exclusive hs
    exact ⟨nofun, nofun, fun _ => by dsimp only; omega, nofun⟩
  | lease hs =>
    obtain ⟨hf, hw⟩ := ne_free_of_resident hs
    exact ⟨fun h => absurd h hf, fun h => absurd h hw, owned, exclusive⟩
  | attach hs hc | cache hs =>
    obtain ⟨hr, hp⟩ := sealed_of_priv hs
    obtain ⟨hf, hw⟩ := ne_free_of_resident hr
    exact ⟨fun h => absurd h hf, fun h => absurd h hw, fun _ => by dsimp only; omega, fun h => absurd h hp⟩

theorem Sink.consistent (h : Sink fence m m') (hm : m.Consistent) : m'.Consistent := by
  obtain ⟨idle, waiting, owned, exclusive⟩ := hm
  cases h with
  | dropCached ht hc => exact ⟨nofun, nofun, fun _ => by dsimp only; omega, nofun⟩
  | dropLeased ht hc => exact ⟨nofun, fun _ => ⟨rfl, hc⟩, nofun, nofun⟩
  | giveBack ha => exact ⟨fun _ => ⟨rfl, ha.2⟩, nofun, nofun, nofun⟩
  | drop ht | uncache hc hs =>
    refine ⟨fun h => ?_, fun h => ?_, fun h => ?_, fun h => ?_⟩
    · have := idle h
      omega
    · have := waiting h
      omega
    · dsimp only
      omega
    · have := exclusive h
      omega
  | uncacheLeased hc ht => exact ⟨nofun, fun _ => ⟨ht, rfl⟩, nofun, nofun⟩
  | evict hc ht hi => exact ⟨fun _ => ⟨ht, rfl, hi⟩, nofun, nofun, nofun⟩
  | unlease hi =>
    refine ⟨fun h => ?_, waiting, owned, exclusive⟩
    have := idle h
    omega
  | drain _ hz => exact ⟨fun _ => hz, nofun, nofun, nofun⟩

/-! ## The functions that move one page -/

/-- The counts of a page. -/
def PageMeta.refs (m : PageMeta) : Nat × Nat × Nat := (m.tableRefs, m.cacheRefs, m.inflightRefs)

/-- A page's metadata replaced, and the page put on the list that its new state names. -/
inductive Placed (pool : PagePool) (p : Nat) (m : PageMeta) : PagePool → Prop where
  | stay (h : m.state.resident = true ∨ m.state = (pool.pageMeta p).state) : Placed pool p m (pool.setMeta p m)
  | free (h : m.state = .free) : Placed pool p m { pool.setMeta p m with freePages := p :: pool.freePages }
  | queue (h : m.state = .reclaimPending) :
    Placed pool p m { pool.setMeta p m with reclaimPending := pool.reclaimPending ++ [p] }

/-- A call on one page is refused, where `stop` holds, or moves the page, where `go` does, to the given counts. -/
def Act (R : PageMeta → PageMeta → Prop) (pool : PagePool) (p : Nat) (stop go : Prop) (refs : Nat × Nat × Nat)
    (r : PagePool × Except String Unit) : Prop :=
  (∃ e, r = (pool, .error e) ∧ stop) ∨
    go ∧ ∃ m pool', r = (pool', .ok ()) ∧ R (pool.pageMeta p) m ∧ m.refs = refs ∧ Placed pool p m pool'

variable (again fence : Prop) (pool : PagePool) (p : Nat)

theorem act_decTableRef : Act (Sink fence) pool p (p < pool.nPages → (pool.pageMeta p).tableRefs = 0)
    (0 < (pool.pageMeta p).tableRefs)
    ((pool.pageMeta p).tableRefs - 1, (pool.pageMeta p).cacheRefs, (pool.pageMeta p).inflightRefs)
    (pool.decTableRef p) := by
  unfold PagePool.decTableRef
  split
  · rename_i e he
    exact .inl ⟨e, rfl, fun hlt => (nomatch (checkPhys_ok hlt).symm.trans he)⟩
  dsimp only
  split
  · rename_i hz
    exact .inl ⟨_, rfl, fun _ => hz⟩
  rename_i hne
  refine .inr ⟨Nat.pos_of_ne_zero hne, ?_⟩
  split
  · rename_i hone
    have ht : (pool.pageMeta p).tableRefs = 1 := by omega
    rw [hone]
    split
    · rename_i hc
      exact ⟨_, _, rfl, .dropCached ht hc, rfl, .stay (.inl rfl)⟩
    · have hc : (pool.pageMeta p).cacheRefs = 0 := by omega
      split
      · exact ⟨_, _, rfl, .dropLeased ht hc, rfl, .queue rfl⟩
      · exact ⟨_, _, rfl, .giveBack ⟨ht, hc, by omega⟩, rfl, .free rfl⟩
  · exact ⟨_, _, rfl, .drop (by omega), rfl, .stay (.inr rfl)⟩

theorem act_releaseCacheRef : Act (Sink fence) pool p (p < pool.nPages → (pool.pageMeta p).cacheRefs = 0)
    (0 < (pool.pageMeta p).cacheRefs)
    ((pool.pageMeta p).tableRefs, (pool.pageMeta p).cacheRefs - 1, (pool.pageMeta p).inflightRefs)
    (pool.releaseCacheRef p) := by
  unfold PagePool.releaseCacheRef
  split
  · rename_i e he
    exact .inl ⟨e, rfl, fun hlt => (nomatch (checkPhys_ok hlt).symm.trans he)⟩
  dsimp only
  split
  · rename_i hz
    exact .inl ⟨_, rfl, fun _ => hz⟩
  rename_i hne
  refine .inr ⟨Nat.pos_of_ne_zero hne, ?_⟩
  split
  · rename_i hz
    have hc : (pool.pageMeta p).cacheRefs = 1 := by omega
    rw [hz.2]
    split
    · exact ⟨_, _, rfl, .uncacheLeased hc hz.1, rfl, .queue rfl⟩
    · exact ⟨_, _, rfl, .evict hc hz.1 (by omega), rfl, .free rfl⟩
  · exact ⟨_, _, rfl, .uncache (by omega) (by omega), rfl, .stay (.inr rfl)⟩

theorem releaseInflightRef_cases :
    (∃ e, pool.releaseInflightRef p = (pool, .error e) ∧ (p < pool.nPages → (pool.pageMeta p).inflightRefs = 0)) ∨
    0 < (pool.pageMeta p).inflightRefs ∧ pool.releaseInflightRef p =
      (pool.setMeta p { pool.pageMeta p with inflightRefs := (pool.pageMeta p).inflightRefs - 1 }, .ok ()) := by
  unfold PagePool.releaseInflightRef
  split
  · rename_i e he
    exact .inl ⟨e, rfl, fun hlt => (nomatch (checkPhys_ok hlt).symm.trans he)⟩
  dsimp only
  split
  · rename_i hz
    exact .inl ⟨_, rfl, fun _ => hz⟩
  · rename_i hne
    exact .inr ⟨Nat.pos_of_ne_zero hne, rfl⟩

theorem act_refcountInc : Act (Grow ((pool.pageMeta p).state = .cacheOnly)) pool p True
    ((pool.pageMeta p).state.resident = true)
    ((pool.pageMeta p).tableRefs + 1, (pool.pageMeta p).cacheRefs, (pool.pageMeta p).inflightRefs)
    (pool.refcountInc p) := by
  unfold PagePool.refcountInc
  split
  · exact .inl ⟨_, rfl, trivial⟩
  rename_i hown
  have hres := checkOwned_resident hown
  dsimp only
  split
  · exact .inl ⟨_, rfl, trivial⟩
  · rename_i refs hrefs
    obtain ⟨-, rfl⟩ := checkedInc_eq_some.1 hrefs
    exact .inr ⟨hres, _, _, rfl, .attach hres id, rfl, .stay (.inl (sealed_of_priv hres).1)⟩

theorem act_addInflightRef : Act (Grow again) pool p True ((pool.pageMeta p).state.resident = true)
    ((pool.pageMeta p).tableRefs, (pool.pageMeta p).cacheRefs, (pool.pageMeta p).inflightRefs + 1)
    (pool.addInflightRef p) := by
  unfold PagePool.addInflightRef
  split
  · exact .inl ⟨_, rfl, trivial⟩
  rename_i hown
  have hres := checkOwned_resident hown
  dsimp only
  split
  · exact .inl ⟨_, rfl, trivial⟩
  · rename_i refs hrefs
    obtain ⟨-, rfl⟩ := checkedInc_eq_some.1 hrefs
    exact .inr ⟨hres, _, _, rfl, .lease hres, rfl, .stay (.inr rfl)⟩

theorem act_addCacheRef : Act (Grow again) pool p True ((pool.pageMeta p).state.resident = true)
    ((pool.pageMeta p).tableRefs, (pool.pageMeta p).cacheRefs + 1, (pool.pageMeta p).inflightRefs)
    (pool.addCacheRef p) := by
  unfold PagePool.addCacheRef
  split
  · exact .inl ⟨_, rfl, trivial⟩
  rename_i hown
  have hres := checkOwned_resident hown
  dsimp only
  split
  · exact .inl ⟨_, rfl, trivial⟩
  · rename_i refs hrefs
    obtain ⟨-, rfl⟩ := checkedInc_eq_some.1 hrefs
    exact .inr ⟨hres, _, _, rfl, .cache hres, rfl, .stay (.inl (sealed_of_priv hres).1)⟩

end Hipfire.Pages
