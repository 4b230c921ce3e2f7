import Hipfire.Checkpoint.Conserve
/-!
# Pins — what becomes of a pinned checkpoint

Evictions pass over pinned entries, but an insert at a pinned entry's own key takes the entry out before it asks whether the
new blob fits: stored, the new entry is not pinned; refused, there is no entry at all.
-/
namespace Hipfire.Checkpoint

open CheckpointPool List

variable {D B : Type} [DecidableEq D] {bytesLen : B → Nat} {prefixFingerprint : List Nat → Nat}
variable {pool : CheckpointPool D B} {key : CheckpointKey D} {blob : B}

/-- The key is stored with this blob, and pinned. -/
def PinnedAt (pool : CheckpointPool D B) (key : CheckpointKey D) (blob : B) : Prop :=
  ∃ e, pool.entries.lookup key = some e ∧ e.blob = blob ∧ 0 < e.pins

/-- Calls that may end a pin: `unpin` and `evict` of the key, and `drain_blobs`. -/
def PoolOp.Releases (key : CheckpointKey D) : PoolOp D B → Prop
  | .unpin k => k = key
  | .evict k => k = key
  | .drainBlobs => True
  | _ => False

/-- Captures at the key that are not turned away for their alignment. -/
def PoolOp.Recaptures (key : CheckpointKey D) : PoolOp D B → Prop
  | .insert k _ => k = key ∧ isAligned k.2.1 = true
  | .insertUnaligned k _ => k = key
  | _ => False

/-! ## Getting pinned -/

theorem lookup_setPins (k : CheckpointKey D) (n : Nat) : (pool.setPins key n).1.entries.lookup k =
    if k = key then (pool.entries.lookup key).map fun e => { e with pins := n } else pool.entries.lookup k :=
  Maps.lookup_modify ..

theorem pinnedAt_pin {e : CheckpointEntry B} (h : pool.entries.lookup key = some e) : PinnedAt (pool.pin key).1 key e.blob :=
  ⟨{ e with pins := 1 }, by rw [pin, lookup_setPins, if_pos rfl, h]; rfl, rfl, Nat.one_pos⟩

variable {tokens : List Nat} {domain : D}

theorem findLargestPoolCheckpoint_some {p : Nat} : ∀ {n : Nat},
    findLargestPoolCheckpoint prefixFingerprint pool domain tokens n = some p →
    p ≤ tokens.length ∧ pool.contains (prefixKey prefixFingerprint domain tokens p) = true
  | 0, h => by cases h
  | n + 1, h => by
    unfold findLargestPoolCheckpoint at h
    dsimp only at h
    split at h
    · rename_i hfound
      cases h
      rw [Bool.and_eq_true, decide_eq_true_eq] at hfound
      exact hfound
    · exact findLargestPoolCheckpoint_some h

/-- **A plan with a boundary leaves the boundary's checkpoint pinned.** -/
theorem pinnedAt_planResume {resumable : Nat} {drafter : DrafterDecision}
    {plan : ResumePlan} (h : (planResume bytesLen prefixFingerprint pool domain tokens resumable drafter).2 = .ok plan)
    (hb : 0 < plan.boundary) :
    ∃ blob, PinnedAt (planResume bytesLen prefixFingerprint pool domain tokens resumable drafter).1
      (prefixKey prefixFingerprint domain tokens plan.boundary) blob := by
  have hinner : planResumeInner bytesLen prefixFingerprint pool domain tokens resumable drafter = .ok plan := by
    unfold planResume at h
    split at h
    · cases h
    · rename_i hok
      cases h
      exact hok
  have hfound : plan.boundary ≤ tokens.length ∧
      pool.contains (prefixKey prefixFingerprint domain tokens plan.boundary) = true := by
    unfold planResumeInner at hinner
    dsimp only at hinner
    split at hinner
    · rename_i p hp
      split at hinner
      · cases hinner
        cases hearlier : findLargestPoolCheckpoint prefixFingerprint pool domain tokens
          ((p - Pages.pageTokens) / Pages.pageTokens) with
        | none =>
          rw [hearlier] at hb
          exact absurd hb (Nat.lt_irrefl 0)
        | some ep => exact findLargestPoolCheckpoint_some hearlier
      · cases hinner
        exact findLargestPoolCheckpoint_some hp
    · split at hinner
      · cases hinner
        exact absurd hb (Nat.lt_irrefl 0)
      · split at hinner <;> cases hinner
  obtain ⟨e, he⟩ := Option.isSome_iff_exists.1 hfound.2
  refine ⟨e.blob, ?_⟩
  unfold planResume
  rw [hinner]
  dsimp only
  rw [if_pos ⟨hb, hfound.1⟩]
  exact pinnedAt_pin he

/-! ## Staying pinned -/

/-- Calls that leave the key alone, or change its entry but for the blob and the pin. -/
theorem PinnedAt.of_kept {pool' : CheckpointPool D B} (h : PinnedAt pool key blob)
    (hkept : ∀ e, pool.entries.lookup key = some e → 0 < e.pins →
      ∃ e', pool'.entries.lookup key = some e' ∧ e'.blob = e.blob ∧ 0 < e'.pins) : PinnedAt pool' key blob := by
  obtain ⟨e, hl, rfl, hp⟩ := h
  obtain ⟨e', hl', hblob, hp'⟩ := hkept e hl hp
  exact ⟨e', hl', hblob, hp'⟩

theorem PinnedAt.pin (h : PinnedAt pool key blob) (k : CheckpointKey D) : PinnedAt (pool.pin k).1 key blob :=
  h.of_kept fun e hl hp => by
    by_cases hk : key = k
    · subst hk
      exact ⟨{ e with pins := 1 }, by rw [CheckpointPool.pin, lookup_setPins, if_pos rfl, hl]; rfl, rfl, Nat.one_pos⟩
    · exact ⟨e, by rw [CheckpointPool.pin, lookup_setPins, if_neg hk, hl], rfl, hp⟩

variable {k : CheckpointKey D}

theorem PinnedAt.evictInternal (h : PinnedAt pool key blob)
    (hk : k ≠ key ∨ ∃ e, pool.entries.lookup k = some e ∧ e.pins = 0) :
    PinnedAt (pool.evictInternal bytesLen k).1 key blob :=
  h.of_kept fun e hl hp => by
    have hne : key ≠ k := by
      rintro rfl
      rcases hk with hk | ⟨e', hl', hp'⟩
      · exact hk rfl
      · rw [hl, Option.some.injEq] at hl'
        rw [hl', hp'] at hp
        exact Nat.lt_irrefl _ hp
    refine ⟨e, ?_, rfl, hp⟩
    unfold CheckpointPool.evictInternal
    split
    · exact hl
    · rw [lookup_remove, if_neg hne, hl]

theorem PinnedAt.insertUnaligned (h : PinnedAt pool key blob) (hk : k ≠ key) (b : B) :
    PinnedAt (pool.insertUnaligned bytesLen k b).1 key blob := by
  obtain ⟨pool', id, gone, hins, hspec, -⟩ := insertUnaligned_spec bytesLen pool k b
  rw [hins]
  exact h.of_kept fun e hl hp => ⟨e, hspec.kept hk.symm hl hp, rfl, hp⟩

theorem insertUnaligned_unpins (pool : CheckpointPool D B) (key : CheckpointKey D) (b blob : B) :
    ¬PinnedAt (pool.insertUnaligned bytesLen key b).1 key blob := by
  obtain ⟨pool', id, gone, hins, hspec, -⟩ := insertUnaligned_spec bytesLen pool key b
  rw [hins]
  rintro ⟨e, hl, -, hp⟩
  rcases hspec.outcome with ⟨-, -, hnone⟩ | ⟨-, e', hl', -, -, hp'⟩
  · cases hnone.symm.trans hl
  · rw [hl, Option.some.injEq] at hl'
    rw [hl', hp'] at hp
    exact Nat.lt_irrefl _ hp

/-- **One call**: a pin that is not released stays exactly if the call is no capture at the key. -/
theorem call_pinned_iff (bytesLen : B → Nat) (prefixFingerprint : List Nat → Nat) (h : PinnedAt pool key blob)
    {op : PoolOp D B} (hop : ¬op.Releases key) :
    PinnedAt (op.call bytesLen prefixFingerprint pool).1 key blob ↔ ¬op.Recaptures key := by
  cases op with
  | insert k b =>
    show PinnedAt (pool.insert bytesLen k b).1 key blob ↔ ¬(k = key ∧ isAligned k.2.1 = true)
    unfold CheckpointPool.insert
    split
    · rename_i haligned
      by_cases hk : k = key
      · subst hk
        exact iff_of_false (insertUnaligned_unpins pool k b blob) fun hno => hno ⟨rfl, haligned⟩
      · exact iff_of_true (h.insertUnaligned hk b) fun hc => hk hc.1
    · rename_i haligned
      exact iff_of_true h fun hc => haligned hc.2
  | insertUnaligned k b =>
    by_cases hk : k = key
    · subst hk
      exact iff_of_false (insertUnaligned_unpins pool k b blob) fun hno => hno rfl
    · exact iff_of_true (h.insertUnaligned hk b) hk
  | get k =>
    refine iff_of_true ?_ id
    show PinnedAt (pool.get k).1 key blob
    unfold CheckpointPool.get
    split
    · exact h
    refine h.of_kept fun e hl hp => ?_
    rw [Maps.lookup_modify]
    split
    · rename_i hk
      subst hk
      rw [hl]
      exact ⟨_, rfl, rfl, hp⟩
    · exact ⟨e, hl, rfl, hp⟩
  | pin k => exact iff_of_true (h.pin k) id
  | unpin k =>
    refine iff_of_true (h.of_kept fun e hl hp => ⟨e, ?_, rfl, hp⟩) id
    show (pool.setPins k 0).1.entries.lookup key = some e
    rw [lookup_setPins, if_neg (fun hk => hop hk.symm), hl]
  | evict k => exact iff_of_true (h.evictInternal (.inl hop)) id
  | popLru =>
    refine iff_of_true ?_ id
    show PinnedAt (pool.popLru bytesLen).1 key blob
    unfold CheckpointPool.popLru
    split
    · exact h
    · rename_i k hk
      obtain ⟨e, hl, hp, -⟩ := findOldest_some hk
      exact h.evictInternal (.inr ⟨e, hl, hp⟩)
  | drainBlobs => exact absurd trivial hop
  | planResume => exact iff_of_true (planResume_pool (P := fun pool => PinnedAt pool key blob) h h.pin ..) id

/-- The pool after some calls. -/
def afterCalls (bytesLen : B → Nat) (prefixFingerprint : List Nat → Nat) (ops : List (PoolOp D B))
    (pool : CheckpointPool D B) : CheckpointPool D B :=
  runAll (fun op pool => (op.call bytesLen prefixFingerprint pool).1) ops pool

/-- **A pinned checkpoint survives exactly the runs without a capture at its key**: from any pool in which the key is stored
and pinned, and along any calls that do not release it, the key is at every point stored with the same blob and pinned if and
only if none of the calls captures at the key. -/
theorem pinned_survives_iff (h : PinnedAt pool key blob) (ops : List (PoolOp D B)) (hops : ∀ op ∈ ops, ¬op.Releases key) :
    (∀ done, done <+: ops → PinnedAt (afterCalls bytesLen prefixFingerprint done pool) key blob) ↔
      ∀ op ∈ ops, ¬op.Recaptures key := by
  induction ops generalizing pool with
  | nil =>
    refine iff_of_true (fun done hdone => ?_) nofun
    rw [prefix_nil.1 hdone]
    exact h
  | cons op ops ih =>
    have hstep := call_pinned_iff bytesLen prefixFingerprint h (hops op mem_cons_self)
    have hrest : ∀ op' ∈ ops, ¬op'.Releases key := (forall_mem_cons.1 hops).2
    rw [forall_mem_cons]
    constructor
    · intro hall
      have hone := hall [op] ⟨ops, rfl⟩
      refine ⟨hstep.1 hone, (ih hone hrest).1 fun done hdone => ?_⟩
      exact hall (op :: done) (cons_prefix_cons.2 ⟨rfl, hdone⟩)
    · rintro ⟨hop, htail⟩ done hdone
      cases done with
      | nil => exact h
      | cons op' done =>
        obtain ⟨rfl, hmore⟩ := cons_prefix_cons.1 hdone
        exact (ih (hstep.2 hop) hrest).2 htail done hmore

def onePinned : CheckpointPool Unit Nat := (oneStored.pin ((), 128, 7)).1

/-- The pin survives a capture that is refused for lack of space and a pop. -/
theorem pinned_survives_iff_refused :
    PinnedAt (afterCalls id sum [.insert ((), 256, 9) 95, .popLru] onePinned) ((), 128, 7) 10 :=
  have hpinned : PinnedAt onePinned ((), 128, 7) 10 := ⟨_, rfl, rfl, Nat.one_pos⟩
  (pinned_survives_iff hpinned [.insert ((), 256, 9) 95, .popLru] (by simp [PoolOp.Releases])).2
    (by simp [PoolOp.Recaptures]) _ prefix_rfl

/-- **A capture at a pinned key takes the pinned entry away**: one that fits leaves an entry without a pin, and one that is
refused for lack of space leaves none. -/
theorem recapture_drops_pinned : PinnedAt onePinned ((), 128, 7) 10 ∧
      (onePinned.insert id ((), 128, 7) 20).1.entries.lookup ((), 128, 7) = some ⟨1, 20, 0, 2⟩ ∧
      (onePinned.insert id ((), 128, 7) 200).2 = (noCheckpoint, [10, 200]) ∧
      (onePinned.insert id ((), 128, 7) 200).1.entries.lookup ((), 128, 7) = none :=
  ⟨⟨_, rfl, rfl, Nat.one_pos⟩, rfl, rfl, rfl⟩

end Hipfire.Checkpoint
