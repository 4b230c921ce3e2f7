import Hipfire.Checkpoint.Pins
/-!
# Resume — what a resume restores

A stored blob is the one the last capture at its key passed in (`stored_last`); so is the one `plan_resume` pins.
-/
namespace Hipfire.Checkpoint

open CheckpointPool List

variable {D B : Type} [DecidableEq D] {bytesLen : B → Nat} {hash : List Nat → Nat}
variable {pool pool' : CheckpointPool D B} {key k : CheckpointKey D} {blob : B} {e : CheckpointEntry B}

/-- The blob a call captures at the key. -/
def PoolOp.captured (key : CheckpointKey D) : PoolOp D B → Option B
  | .insert k blob => if k = key ∧ isAligned k.2.1 = true then some blob else none
  | .insertUnaligned k blob => if k = key then some blob else none
  | _ => none

def lastCaptured (key : CheckpointKey D) (ops : List (PoolOp D B)) : Option B := ops.reverse.findSome? (PoolOp.captured key)

/-- What is stored at `k` was there before, but for pins and stamps. -/
def OldAt (pool pool' : CheckpointPool D B) (k : CheckpointKey D) : Prop :=
  ∀ e, pool'.entries.lookup k = some e → ∃ e', pool.entries.lookup k = some e' ∧ e'.blob = e.blob

theorem oldAt_modify {g : CheckpointEntry B → CheckpointEntry B} (h : pool'.entries = Maps.modify key g pool.entries)
    (hg : ∀ e, (g e).blob = e.blob) : OldAt pool pool' k := fun e hl => by
  rw [h] at hl
  obtain ⟨e', hl', rfl | ⟨-, rfl⟩⟩ := lookup_modify_some hl
  · exact ⟨e, hl', rfl⟩
  · exact ⟨e', hl', (hg e').symm⟩

theorem oldAt_planResume (bytesLen : B → Nat) (hash : List Nat → Nat) (pool : CheckpointPool D B) (k : CheckpointKey D)
    (domain : D) (tokens : List Nat) (resumable : Nat) (drafter : DrafterDecision) :
    OldAt pool (planResume bytesLen hash pool domain tokens resumable drafter).1 k :=
  planResume_pool (P := fun pool' => OldAt pool pool' k) (fun e h => ⟨e, h, rfl⟩)
    (fun _ => oldAt_modify rfl fun _ => by rfl) _ _ _ _ _ _

theorem oldAt_evictInternal : OldAt pool (pool.evictInternal bytesLen key).1 k := fun e hl => by
  refine ⟨e, ?_, rfl⟩
  unfold CheckpointPool.evictInternal at hl
  split at hl
  · exact hl
  · exact lookup_of_remove bytesLen hl

theorem insertUnaligned_stored (h : (pool.insertUnaligned bytesLen key blob).1.entries.lookup k = some e) :
    key = k ∧ blob = e.blob ∨ key ≠ k ∧ pool.entries.lookup k = some e := by
  obtain ⟨pool₁, gone₁, reuseId, hreplaced, hv, -⟩ := replaced_spec bytesLen pool key
  have hfuel : pool₁.blobs.length ≤ pool₁.entries.keys.length := by rw [blobs, AList.keys, keys, length_map, length_map]
  obtain ⟨pool₂, gone₂, fits, hloop, hthin, -⟩ := evictLoop_spec bytesLen (bytesLen blob) gone₁ hfuel
  have hrest : pool₂.entries.lookup k = some e → key ≠ k ∧ pool.entries.lookup k = some e := fun hl =>
    ⟨fun hk => Option.some_ne_none e ((hk ▸ hthin.sub hl).symm.trans hv.vacant), hv.sub (hthin.sub hl)⟩
  unfold CheckpointPool.insertUnaligned at h
  rw [hreplaced] at h
  dsimp only at h
  rw [hloop] at h
  cases fits with
  | false => exact .inr (hrest h)
  | true =>
    dsimp only at h
    rw [lookup_store] at h
    split at h
    · rename_i hk
      cases h
      exact .inl ⟨hk.symm, rfl⟩
    · exact .inr (hrest h)

/-- **One call**: what is stored after it was captured by it, or stored before and not captured anew. -/
theorem call_stored {op : PoolOp D B} (h : (op.call bytesLen hash pool).1.entries.lookup k = some e) :
    op.captured k = some e.blob ∨ op.captured k = none ∧ ∃ e', pool.entries.lookup k = some e' ∧ e'.blob = e.blob := by
  cases op with
  | insert key blob =>
    simp only [PoolOp.call, CheckpointPool.insert, PoolOp.captured] at h ⊢
    split at h
    · rename_i ha
      rcases insertUnaligned_stored h with ⟨rfl, rfl⟩ | ⟨hk, hl⟩
      · exact .inl (if_pos ⟨rfl, ha⟩)
      · exact .inr ⟨if_neg (fun hc => hk hc.1), e, hl, rfl⟩
    · rename_i ha
      exact .inr ⟨if_neg (fun hc => ha hc.2), e, h, rfl⟩
  | insertUnaligned key blob =>
    rcases insertUnaligned_stored h with ⟨rfl, rfl⟩ | ⟨hk, hl⟩
    · exact .inl (if_pos rfl)
    · exact .inr ⟨if_neg hk, e, hl, rfl⟩
  | get key =>
    refine .inr ⟨rfl, ?_⟩
    simp only [PoolOp.call, CheckpointPool.get] at h
    split at h
    · exact ⟨e, h, rfl⟩
    · exact oldAt_modify rfl (fun _ => by rfl) e h
  | pin key => exact .inr ⟨rfl, oldAt_modify rfl (fun _ => by rfl) e h⟩
  | unpin key => exact .inr ⟨rfl, oldAt_modify rfl (fun _ => by rfl) e h⟩
  | evict key => exact .inr ⟨rfl, oldAt_evictInternal e h⟩
  | popLru =>
    refine .inr ⟨rfl, ?_⟩
    simp only [PoolOp.call, CheckpointPool.popLru] at h
    split at h
    · exact ⟨e, h, rfl⟩
    · exact oldAt_evictInternal e h
  | drainBlobs => cases h
  | planResume => exact .inr ⟨rfl, oldAt_planResume _ _ _ _ _ _ _ _ e h⟩

/-- **A stored blob is the last one captured at its key.** -/
theorem stored_last (maxBytes : Nat) (ops : List (PoolOp D B)) : ∀ k e,
    (afterCalls bytesLen hash ops (new maxBytes)).entries.lookup k = some e →
    lastCaptured k ops = some e.blob := by
  refine runAll_history (s := new maxBytes)
    (P := fun ops pool => ∀ k e, pool.entries.lookup k = some e → lastCaptured k ops = some e.blob) (fun k e h => by cases h)
    (fun ops op ih k e h => ?_) ops
  unfold lastCaptured
  rw [reverse_concat, findSome?_cons]
  rcases call_stored h with hc | ⟨hc, e', hl, hb⟩
  · rw [hc]
  · rw [hc, ← hb]
    exact ih k e' hl

/-- **A resume restores what was last captured for its prefix.**  After any calls, the checkpoint at the boundary that
`plan_resume` names is left pinned, with the blob that the last capture for this domain and these first tokens passed in. -/
theorem resume_pins_last_capture (bytesLen : B → Nat) (hash : List Nat → Nat) (maxBytes : Nat) (ops : List (PoolOp D B))
    (domain : D) (tokens : List Nat) (resumable : Nat) (drafter : DrafterDecision)
    {plan : ResumePlan}
    (hr : planResume bytesLen hash (afterCalls bytesLen hash ops (new maxBytes)) domain tokens resumable drafter = r)
    (h : r.2 = .ok plan) (hb : 0 < plan.boundary) : ∃ blob,
      PinnedAt r.1 (prefixKey hash domain tokens plan.boundary) blob ∧
      lastCaptured (prefixKey hash domain tokens plan.boundary) ops = some blob := by
  subst hr
  obtain ⟨blob, hpinned⟩ := pinnedAt_planResume h hb
  have hold := oldAt_planResume bytesLen hash (afterCalls bytesLen hash ops (new maxBytes))
    (prefixKey hash domain tokens plan.boundary) domain tokens resumable drafter
  refine ⟨blob, hpinned, ?_⟩
  obtain ⟨e, hl, rfl, -⟩ := hpinned
  obtain ⟨e', hl', hb'⟩ := hold e hl
  rw [← hb']
  exact stored_last maxBytes ops _ e' hl'

/-- Two captures for one prefix, then a plan; blobs are their sizes. -/
def capturedTwice : CheckpointPool Unit Nat × Except MissReason ResumePlan :=
  planResume id (fun _ => 0) (afterCalls id (fun _ => 0) [.insert ((), 128, 0) 10, .insert ((), 128, 0) 20] (new 100)) ()
    (replicate 130 0) 128 .ar

theorem resume_pins_last_capture_second : capturedTwice.2 = .ok ⟨128, .ar, 20, .suffixRecompute⟩ ∧
    PinnedAt capturedTwice.1 ((), 128, 0) 20 := by
  have hplan : capturedTwice.2 = .ok ⟨128, .ar, 20, .suffixRecompute⟩ := by decide +kernel
  obtain ⟨blob, hpinned, hlast⟩ := resume_pins_last_capture id (fun _ => 0) 100
    [.insert ((), 128, 0) 10, .insert ((), 128, 0) 20] () (replicate 130 0) 128 .ar rfl hplan (by decide)
  cases hlast
  exact ⟨hplan, hpinned⟩

end Hipfire.Checkpoint
