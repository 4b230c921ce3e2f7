import Hipfire.Checkpoint.Pool
/-!
# Conserve — every blob is stored or handed back, within the ceiling

`Sound` is what every call keeps: the byte count, the ceiling, and ids and stamps that are each one entry's.  `Thinned` says
what evictions may do: take unpinned entries out, and hand their blobs back.
-/
namespace Hipfire.Checkpoint

open CheckpointPool Maps List

variable {D B : Type} [DecidableEq D] {bytesLen : B → Nat} {maxBytes : Nat}
variable {pool pool' pool'' : CheckpointPool D B} {key : CheckpointKey D} {e : CheckpointEntry B} {gone gone' : List B}

structure Sound (bytesLen : B → Nat) (maxBytes : Nat) (pool : CheckpointPool D B) : Prop where
  bytes : pool.totalBytes = Maps.total (fun e => bytesLen e.blob) pool.entries
  limit : pool.maxBytes = maxBytes
  ceiling : pool.totalBytes ≤ maxBytes
  fresh : 0 < pool.nextId
  ids : ∀ {k e}, pool.entries.lookup k = some e → 0 < e.id ∧ e.id < pool.nextId
  distinct : ∀ {k k' e e'}, pool.entries.lookup k = some e → pool.entries.lookup k' = some e' → e.id = e'.id → k = k'
  stamps : ∀ {k e}, pool.entries.lookup k = some e → e.lruStamp ≤ pool.lruClock
  order : ∀ {k k' e e'}, pool.entries.lookup k = some e → pool.entries.lookup k' = some e' →
    e.lruStamp = e'.lruStamp → k = k'

section Remove

variable (bytesLen) {evicted : List (CheckpointKey D)}

theorem lookup_remove (k : CheckpointKey D) :
    (pool.remove bytesLen key e evicted).entries.lookup k = if k = key then none else pool.entries.lookup k :=
  lookup_erase pool.entries key k

variable {k : CheckpointKey D}

theorem lookup_of_remove {e' : CheckpointEntry B}
    (h : (pool.remove bytesLen key e evicted).entries.lookup k = some e') : pool.entries.lookup k = some e' := by
  rw [lookup_remove] at h
  split at h
  · cases h
  · exact h

theorem blobs_remove (hk : pool.entries.lookup key = some e) :
    pool.blobs.Perm (e.blob :: (pool.remove bytesLen key e evicted).blobs) :=
  (perm_erase hk).map fun e : Slot D B => e.2.blob

end Remove

theorem Sound.remove (h : Sound bytesLen maxBytes pool) (hk : pool.entries.lookup key = some e)
    (evicted : List (CheckpointKey D)) : Sound bytesLen maxBytes (pool.remove bytesLen key e evicted) where
  bytes := by
    have herase := total_erase (fun e => bytesLen e.blob) hk
    have hbytes := h.bytes
    show pool.totalBytes - bytesLen e.blob = total (fun e => bytesLen e.blob) (pool.entries.erase key)
    omega
  limit := h.limit
  ceiling := Nat.le_trans (Nat.sub_le _ _) h.ceiling
  fresh := h.fresh
  ids hl := h.ids (lookup_of_remove bytesLen hl)
  distinct hl hl' := h.distinct (lookup_of_remove bytesLen hl) (lookup_of_remove bytesLen hl')
  stamps hl := h.stamps (lookup_of_remove bytesLen hl)
  order hl hl' := h.order (lookup_of_remove bytesLen hl) (lookup_of_remove bytesLen hl')

/-- **Evictions**: what is stored was stored, what was pinned is, and the other blobs are handed back. -/
structure Thinned (pool pool' : CheckpointPool D B) (gone : List B) : Prop where
  perm : pool.blobs.Perm (gone ++ pool'.blobs)
  sub : ∀ {k e}, pool'.entries.lookup k = some e → pool.entries.lookup k = some e
  kept : ∀ {k e}, pool.entries.lookup k = some e → 0 < e.pins → pool'.entries.lookup k = some e
  nextId : pool'.nextId = pool.nextId
  lruClock : pool'.lruClock = pool.lruClock

theorem Thinned.refl (pool : CheckpointPool D B) : Thinned pool pool [] := ⟨Perm.refl _, id, fun h _ => h, rfl, rfl⟩

theorem Thinned.trans (h : Thinned pool pool' gone) (h' : Thinned pool' pool'' gone') :
    Thinned pool pool'' (gone ++ gone') where
  perm := by
    rw [append_assoc]
    exact h.perm.trans (h'.perm.append_left gone)
  sub hl := h.sub (h'.sub hl)
  kept hl hp := h'.kept (h.kept hl hp) hp
  nextId := h'.nextId.trans h.nextId
  lruClock := h'.lruClock.trans h.lruClock

/-! ## The oldest unpinned entry -/

omit [DecidableEq D] in
theorem oldest_none : ∀ {es : List (Slot D B)}, oldest es = none → ∀ e ∈ es, 0 < e.2.pins
  | [], _ => nofun
  | e :: es, h => by
    unfold oldest at h
    split at h
    · split at h
      · cases h
      · split at h <;> cases h
    · rename_i hp
      exact forall_mem_cons.2 ⟨Nat.pos_of_ne_zero hp, oldest_none h⟩

omit [DecidableEq D] in
theorem oldest_some : ∀ {es : List (Slot D B)} {m}, oldest es = some m →
    m ∈ es ∧ m.2.pins = 0 ∧ ∀ e ∈ es, e.2.pins = 0 → m.2.lruStamp ≤ e.2.lruStamp
  | [], _, h => by cases h
  | e :: es, m, h => by
    unfold oldest at h
    split at h
    · rename_i hp
      split at h
      · rename_i hnone
        cases h
        exact ⟨mem_cons_self, hp, forall_mem_cons.2 ⟨fun _ => le_rfl, fun e' he' hp' =>
          absurd hp' (Nat.ne_of_gt (oldest_none hnone e' he'))⟩⟩
      · rename_i m' hsome
        obtain ⟨hmem, hpin, hleast⟩ := oldest_some hsome
        split at h
        · rename_i hle
          cases h
          exact ⟨mem_cons_self, hp, forall_mem_cons.2 ⟨fun _ => le_rfl, fun e' he' hp' =>
            Nat.le_trans hle (hleast e' he' hp')⟩⟩
        · rename_i hle
          cases h
          exact ⟨mem_cons_of_mem _ hmem, hpin, forall_mem_cons.2 ⟨fun _ => Nat.le_of_not_le hle, hleast⟩⟩
    · rename_i hp
      obtain ⟨hmem, hpin, hleast⟩ := oldest_some h
      exact ⟨mem_cons_of_mem _ hmem, hpin, forall_mem_cons.2 ⟨fun hp' => absurd hp' hp, hleast⟩⟩

theorem findOldest_some (h : pool.findOldestUnpinnedKey = some key) :
    ∃ e, pool.entries.lookup key = some e ∧ e.pins = 0 ∧
      ∀ k e', pool.entries.lookup k = some e' → e'.pins = 0 → e.lruStamp ≤ e'.lruStamp := by
  obtain ⟨⟨k, e⟩, hold, rfl⟩ := Option.map_eq_some_iff.1 h
  obtain ⟨hmem, hpin, hleast⟩ := oldest_some hold
  exact ⟨e, AList.mem_lookup_iff.2 hmem, hpin, fun k' e' hl => hleast ⟨k', e'⟩ (AList.mem_lookup_iff.1 hl)⟩

theorem findOldest_none (h : pool.findOldestUnpinnedKey = none) {e : CheckpointEntry B}
    (hl : pool.entries.lookup k = some e) : 0 < e.pins :=
  oldest_none (Option.map_eq_none_iff.1 h) ⟨k, e⟩ (AList.mem_lookup_iff.1 hl)

/-! ## Evictions -/

theorem evictInternal_eq (bytesLen : B → Nat) (hk : pool.entries.lookup key = some e) :
    pool.evictInternal bytesLen key = (pool.remove bytesLen key e (key :: pool.evicted), some e.blob) := by
  unfold evictInternal
  rw [hk]

theorem evictInternal_thinned (bytesLen : B → Nat) (hk : pool.entries.lookup key = some e) (hp : e.pins = 0) :
    Thinned pool (pool.evictInternal bytesLen key).1 [e.blob] := by
  rw [evictInternal_eq bytesLen hk]
  refine ⟨blobs_remove bytesLen hk, lookup_of_remove bytesLen, fun {k} {e'} hl hp' => ?_, rfl, rfl⟩
  rw [lookup_remove, if_neg, hl]
  rintro rfl
  rw [hk, Option.some.injEq] at hl
  rw [← hl, hp] at hp'
  exact Nat.lt_irrefl _ hp'

theorem Sound.evictInternal (h : Sound bytesLen maxBytes pool) (key : CheckpointKey D) :
    Sound bytesLen maxBytes (pool.evictInternal bytesLen key).1 := by
  unfold CheckpointPool.evictInternal
  split
  · exact h
  · rename_i e hk
    exact h.remove hk _

/-- **The eviction loop**: it takes unpinned entries out, and it gives up only when none is left. -/
theorem evictLoop_spec (bytesLen : B → Nat) (bytes : Nat) : ∀ {fuel : Nat} {pool : CheckpointPool D B} (displaced : List B),
    pool.blobs.length ≤ fuel → ∃ pool' gone fits,
      evictLoop bytesLen bytes fuel pool displaced = (pool', displaced ++ gone, fits) ∧ Thinned pool pool' gone ∧
      (∀ {maxBytes}, Sound bytesLen maxBytes pool → Sound bytesLen maxBytes pool') ∧
      (fits = true → pool'.totalBytes + bytes ≤ pool'.maxBytes) ∧
      (fits = false → ∀ k e, pool'.entries.lookup k = some e → 0 < e.pins)
  | fuel, pool, displaced, hfuel => by
    unfold evictLoop
    split
    · rename_i hfit
      exact ⟨pool, [], true, by rw [append_nil], Thinned.refl pool, id, fun _ => hfit, nofun⟩
    split
    · rename_i hnone
      exact ⟨pool, [], false, by rw [append_nil], Thinned.refl pool, id, nofun, fun _ _ _ => findOldest_none hnone⟩
    rename_i key hkey
    obtain ⟨e, hk, hp, -⟩ := findOldest_some hkey
    have hthin := evictInternal_thinned bytesLen hk hp
    have hlen := hthin.perm.length_eq
    rw [length_append, length_singleton] at hlen
    cases fuel with
    | zero => omega
    | succ fuel =>
      have hfewer : (pool.evictInternal bytesLen key).1.blobs.length ≤ fuel := by omega
      obtain ⟨pool', gone, fits, hloop, hrest, hsound, hfits, hrefused⟩ :=
        evictLoop_spec bytesLen bytes (displaced ++ [e.blob]) hfewer
      have hout : (pool.evictInternal bytesLen key).2.toList = [e.blob] := by rw [evictInternal_eq bytesLen hk]; rfl
      refine ⟨pool', e.blob :: gone, fits, ?_, hthin.trans hrest, fun h => hsound (h.evictInternal key), hfits, hrefused⟩
      dsimp only
      rw [hout, hloop, append_assoc]
      rfl

/-! ## Inserts -/

/-- What is left when the entry at the key has gone, with the id kept for the new one. -/
structure Vacated (pool pool' : CheckpointPool D B) (key : CheckpointKey D) (gone : List B) (reuseId : Option Nat) :
    Prop where
  perm : pool.blobs.Perm (gone ++ pool'.blobs)
  vacant : pool'.entries.lookup key = none
  sub : ∀ {k e}, pool'.entries.lookup k = some e → pool.entries.lookup k = some e
  kept : ∀ {k e}, k ≠ key → pool.entries.lookup k = some e → pool'.entries.lookup k = some e
  reused : reuseId = (pool.entries.lookup key).map CheckpointEntry.id
  nextId : pool'.nextId = pool.nextId
  lruClock : pool'.lruClock = pool.lruClock

theorem replaced_spec (bytesLen : B → Nat) (pool : CheckpointPool D B) (key : CheckpointKey D) :
    ∃ pool' gone reuseId, pool.replaced bytesLen key = (pool', gone, reuseId) ∧ Vacated pool pool' key gone reuseId ∧
      ∀ {maxBytes}, Sound bytesLen maxBytes pool → Sound bytesLen maxBytes pool' := by
  unfold replaced
  cases hk : pool.entries.lookup key with
  | none =>
    exact ⟨_, _, _, rfl, ⟨Perm.refl _, hk, id, fun _ h => h, by rw [hk]; rfl, rfl, rfl⟩,
      fun h => ⟨h.bytes, h.limit, h.ceiling, h.fresh, h.ids, h.distinct, h.stamps, h.order⟩⟩
  | some e =>
    refine ⟨_, _, _, rfl, ⟨blobs_remove bytesLen hk, ?_, lookup_of_remove bytesLen, fun {k} {e'} hne hl => ?_,
      by rw [hk]; rfl, rfl, rfl⟩, fun h => h.remove hk _⟩
    · rw [lookup_remove, if_pos rfl]
    · rw [lookup_remove, if_neg hne, hl]

theorem lookup_store (blob : B) (reuseId : Option Nat) (k : CheckpointKey D) :
    (pool.store bytesLen key blob reuseId).1.entries.lookup k =
      if k = key then some ⟨reuseId.getD pool.nextId, blob, 0, pool.lruClock + 1⟩ else pool.entries.lookup k :=
  lookup_insert ..

theorem blobs_store (hk : pool.entries.lookup key = none) (blob : B) (reuseId : Option Nat) :
    (pool.store bytesLen key blob reuseId).1.blobs = blob :: pool.blobs := by
  unfold blobs store
  rw [AList.entries_insert_of_notMem (AList.lookup_eq_none.1 hk)]
  rfl

theorem Sound.store (h : Sound bytesLen maxBytes pool) (hk : pool.entries.lookup key = none) {blob : B}
    (hfits : pool.totalBytes + bytesLen blob ≤ pool.maxBytes) {reuseId : Option Nat}
    (hreuse : ∀ i ∈ reuseId, 0 < i ∧ i < pool.nextId ∧ ∀ k e, pool.entries.lookup k = some e → e.id ≠ i) :
    Sound bytesLen maxBytes (pool.store bytesLen key blob reuseId).1 := by
  have hid : ∀ k e, pool.entries.lookup k = some e → e.id ≠ reuseId.getD pool.nextId := fun k e hl => by
    cases reuseId with
    | none => exact Nat.ne_of_lt (h.ids hl).2
    | some i => exact (hreuse i rfl).2.2 k e hl
  have hnext : pool.nextId ≤ (pool.store bytesLen key blob reuseId).1.nextId := by
    show pool.nextId ≤ if reuseId.isSome then pool.nextId else pool.nextId + 1
    split <;> omega
  refine ⟨?_, h.limit, Nat.le_trans hfits (Nat.le_of_eq h.limit), Nat.lt_of_lt_of_le h.fresh hnext, fun {k} {e} hl => ?_,
    fun {k} {k'} {e} {e'} hl hl' heq => ?_, fun {k} {e} hl => ?_, fun {k} {k'} {e} {e'} hl hl' heq => ?_⟩
  · show pool.totalBytes + bytesLen blob = total (fun e => bytesLen e.blob) (pool.entries.insert key _)
    rw [total_insert_new _ hk, h.bytes]
  · rw [lookup_store] at hl
    split at hl
    · cases hl
      cases reuseId with
      | none => exact ⟨h.fresh, Nat.lt_succ_self _⟩
      | some i => exact ⟨(hreuse i rfl).1, (hreuse i rfl).2.1⟩
    · exact ⟨(h.ids hl).1, Nat.lt_of_lt_of_le (h.ids hl).2 hnext⟩
  · rw [lookup_store] at hl hl'
    split at hl <;> split at hl'
    · rename_i hk1 hk2
      rw [hk1, hk2]
    · cases hl
      exact absurd heq.symm (hid k' e' hl')
    · cases hl'
      exact absurd heq (hid k e hl)
    · exact h.distinct hl hl' heq
  · show e.lruStamp ≤ pool.lruClock + 1
    rw [lookup_store] at hl
    split at hl
    · cases hl
      exact le_rfl
    · exact Nat.le_succ_of_le (h.stamps hl)
  · rw [lookup_store] at hl hl'
    split at hl <;> split at hl'
    · rename_i hk1 hk2
      rw [hk1, hk2]
    · cases hl
      have := h.stamps hl'
      dsimp only at heq
      omega
    · cases hl'
      have := h.stamps hl
      dsimp only at heq
      omega
    · exact h.order hl hl' heq

/-- What an insert does, stored or refused. -/
structure Inserted (pool : CheckpointPool D B) (key : CheckpointKey D) (blob : B) (pool' : CheckpointPool D B) (id : Nat)
    (gone : List B) : Prop where
  perm : (blob :: pool.blobs).Perm (gone ++ pool'.blobs)
  kept : ∀ {k e}, k ≠ key → pool.entries.lookup k = some e → 0 < e.pins → pool'.entries.lookup k = some e
  outcome : id = noCheckpoint ∧ blob ∈ gone ∧ pool'.entries.lookup key = none ∨
    id = ((pool.entries.lookup key).map CheckpointEntry.id).getD pool.nextId ∧
      ∃ e, pool'.entries.lookup key = some e ∧ e.id = id ∧ e.blob = blob ∧ e.pins = 0

/-- **An insert**: the entry at the key goes, unpinned ones go until the blob fits, and the blob is stored or handed back. -/
theorem insertUnaligned_spec (bytesLen : B → Nat) (pool : CheckpointPool D B) (key : CheckpointKey D) (blob : B) :
    ∃ pool' id gone, pool.insertUnaligned bytesLen key blob = (pool', id, gone) ∧ Inserted pool key blob pool' id gone ∧
      ∀ {maxBytes}, Sound bytesLen maxBytes pool → Sound bytesLen maxBytes pool' := by
  obtain ⟨pool₁, gone₁, reuseId, hreplaced, hv, hsound₁⟩ := replaced_spec bytesLen pool key
  have hfuel : pool₁.blobs.length ≤ pool₁.entries.keys.length := by
    rw [blobs, AList.keys, keys, length_map, length_map]
  obtain ⟨pool₂, gone₂, fits, hloop, hthin, hsound₂, hfits, -⟩ :=
    evictLoop_spec bytesLen (bytesLen blob) gone₁ hfuel
  have hperm : pool.blobs.Perm (gone₁ ++ gone₂ ++ pool₂.blobs) := by
    rw [append_assoc]
    exact hv.perm.trans (hthin.perm.append_left gone₁)
  have hvacant : pool₂.entries.lookup key = none := Option.eq_none_iff_forall_ne_some.2 fun e he => by
    have := hthin.sub he
    cases hv.vacant.symm.trans this
  unfold insertUnaligned
  rw [hreplaced]
  dsimp only
  rw [hloop]
  cases fits with
  | false =>
    refine ⟨_, _, _, rfl, ⟨?_, fun hne hl hp => hthin.kept (hv.kept hne hl) hp, .inl ⟨rfl, ?_, hvacant⟩⟩, fun h =>
      hsound₂ (hsound₁ h)⟩
    · rw [append_assoc, singleton_append]
      exact (hperm.cons blob).trans perm_middle.symm
    · exact mem_append_right _ (mem_singleton.2 rfl)
  | true =>
    have hnext : pool₂.nextId = pool.nextId := hthin.nextId.trans hv.nextId
    have hid : reuseId.getD pool₂.nextId = ((pool.entries.lookup key).map CheckpointEntry.id).getD pool.nextId := by
      rw [hv.reused, hnext]
    refine ⟨_, _, _, rfl, ⟨?_, fun {k} {e} hne hl hp => ?_,
      .inr ⟨hid, _, (lookup_store ..).trans (if_pos rfl), rfl, rfl, rfl⟩⟩, fun h => ?_⟩
    · rw [blobs_store hvacant]
      exact (hperm.cons blob).trans perm_middle.symm
    · rw [lookup_store, if_neg hne]
      exact hthin.kept (hv.kept hne hl) hp
    · refine (hsound₂ (hsound₁ h)).store hvacant (hfits rfl) fun i hi => ?_
      rw [hv.reused, Option.mem_def] at hi
      obtain ⟨e, he, rfl⟩ := Option.map_eq_some_iff.1 hi
      rw [hnext]
      refine ⟨(h.ids he).1, (h.ids he).2, fun k e' hl heq => ?_⟩
      have hk := h.distinct (hv.sub (hthin.sub hl)) he heq
      rw [hk, hvacant] at hl
      cases hl

/-! ## Calls -/

theorem lookup_modify_some {g : CheckpointEntry B → CheckpointEntry B}
    {s : AList fun _ : CheckpointKey D => CheckpointEntry B}
    (h : (Maps.modify key g s).lookup k = some e) : ∃ e', s.lookup k = some e' ∧ (e = e' ∨ k = key ∧ e = g e') := by
  rw [lookup_modify] at h
  split at h
  · rename_i hk
    obtain ⟨e', he', rfl⟩ := Option.map_eq_some_iff.1 h
    exact ⟨e', hk ▸ he', .inr ⟨hk, rfl⟩⟩
  · exact ⟨e, h, .inl rfl⟩

/-- **An entry changed in place**: its pins, or its stamp to a new one. -/
theorem Sound.modify (h : Sound bytesLen maxBytes pool) (key : CheckpointKey D) (g : CheckpointEntry B → CheckpointEntry B)
    (hid : ∀ e, (g e).id = e.id) (hblob : ∀ e, (g e).blob = e.blob) {clock : Nat} (hclock : pool.lruClock ≤ clock)
    (hstamp : ∀ e, (g e).lruStamp = e.lruStamp ∨ (g e).lruStamp = clock ∧ pool.lruClock < clock) :
    Sound bytesLen maxBytes { pool with entries := Maps.modify key g pool.entries, lruClock := clock } := by
  have hold : ∀ {k e}, (Maps.modify key g pool.entries).lookup k = some e → ∃ e', pool.entries.lookup k = some e' ∧
      e.id = e'.id ∧ (e.lruStamp = e'.lruStamp ∨ k = key ∧ e.lruStamp = clock ∧ pool.lruClock < clock) := by
    intro k e hl
    obtain ⟨e', he', heq⟩ := lookup_modify_some hl
    rcases heq with rfl | ⟨hk, rfl⟩
    · exact ⟨_, he', rfl, .inl rfl⟩
    · exact ⟨e', he', hid e', (hstamp e').imp_right fun hs => ⟨hk, hs⟩⟩
  refine ⟨?_, h.limit, h.ceiling, h.fresh, fun hl => ?_, fun hl hl' heq => ?_, fun {k} {e} hl => ?_,
    fun {k} {k'} {e} {e'} hl hl' heq => ?_⟩
  · refine h.bytes.trans (total_modify _ fun e => ?_).symm
    rw [hblob]
  · obtain ⟨e', he', hid', -⟩ := hold hl
    rw [hid']
    exact h.ids he'
  · obtain ⟨e₁, he₁, hid₁, -⟩ := hold hl
    obtain ⟨e₂, he₂, hid₂, -⟩ := hold hl'
    exact h.distinct he₁ he₂ (hid₁ ▸ hid₂ ▸ heq)
  · obtain ⟨e', he', -, hs⟩ := hold hl
    have := h.stamps he'
    show e.lruStamp ≤ clock
    omega
  · obtain ⟨e₁, he₁, -, hs₁⟩ := hold hl
    obtain ⟨e₂, he₂, -, hs₂⟩ := hold hl'
    have h₁ := h.stamps he₁
    have h₂ := h.stamps he₂
    rcases hs₁ with hs₁ | ⟨hk₁, hs₁⟩ <;> rcases hs₂ with hs₂ | ⟨hk₂, hs₂⟩
    · exact h.order he₁ he₂ (hs₁ ▸ hs₂ ▸ heq)
    · omega
    · omega
    · rw [hk₁, hk₂]

/-- What a call keeps: every blob it had or was given is stored or handed back, and the pool stays sound. -/
structure Kept (bytesLen : B → Nat) (maxBytes : Nat) (pool : CheckpointPool D B) (given : List B)
    (pool' : CheckpointPool D B) (back : List B) : Prop where
  perm : (given ++ pool.blobs).Perm (back ++ pool'.blobs)
  sound : Sound bytesLen maxBytes pool'

/-- Planning leaves the pool as it is, or pins a key. -/
theorem planResume_pool {P : CheckpointPool D B → Prop} (h : P pool) (hpin : ∀ key, P (pool.pin key).1) (bytesLen : B → Nat)
    (prefixFingerprint : List Nat → Nat) (domain : D) (tokens : List Nat) (resumable : Nat) (drafter : DrafterDecision) :
    P (planResume bytesLen prefixFingerprint pool domain tokens resumable drafter).1 := by
  unfold planResume
  split
  · exact h
  · split
    · exact hpin _
    · exact h

/-- A pool with the blobs its calls were given and handed back so far. -/
structure Ledger (D B : Type) where
  pool : CheckpointPool D B
  passed : List B
  returned : List B

def Ledger.step (bytesLen : B → Nat) (prefixFingerprint : List Nat → Nat) (op : PoolOp D B) (s : Ledger D B) : Ledger D B :=
  let r := op.call bytesLen prefixFingerprint s.pool
  ⟨r.1, s.passed ++ op.given, s.returned ++ r.2⟩

def Ledger.run (bytesLen : B → Nat) (prefixFingerprint : List Nat → Nat) (maxBytes : Nat) (ops : List (PoolOp D B)) :
    Ledger D B :=
  runAll (Ledger.step bytesLen prefixFingerprint) ops ⟨new maxBytes, [], []⟩

/-- A pool of 100 bytes with one blob of 10; blobs are their sizes. -/
def oneStored : CheckpointPool Unit Nat := ((new 100).insert id ((), 128, 7) 10).1

end Hipfire.Checkpoint
