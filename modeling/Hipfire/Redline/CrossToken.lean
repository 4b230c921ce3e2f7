import Hipfire.Redline.Batch
import Hipfire.Redline.Fences
/-!
# CrossToken — reads of what the token before wrote

In a repeated token a read sees the preceding token's write of a byte if some dispatch writes the byte and none before the
reader does.  `has_cross_token_raw` decides by whole regions: a read any earlier write overlaps is passed over, even if that
write leaves part of the region alone.  It finds the reads no byte of which is produced earlier (`hasCrossTokenRaw_iff`).
-/
namespace Hipfire.Redline

open List

/-- A byte of a logical allocation. -/
structure DeviceByte where
  resource : ResourceId
  offset : Nat
deriving DecidableEq

def DeviceRegion.Has (region : DeviceRegion) (byte : DeviceByte) : Prop :=
  region.resource = byte.resource ∧ region.offset ≤ byte.offset ∧ byte.offset < region.stop

def PlannedDispatch.WritesByte (d : PlannedDispatch) (byte : DeviceByte) : Prop :=
  ∃ a ∈ d.accesses, a.mode = .write ∧ a.region.Has byte

instance (region : DeviceRegion) (byte : DeviceByte) : Decidable (region.Has byte) := inferInstanceAs (Decidable (_ ∧ _ ∧ _))

instance (d : PlannedDispatch) (byte : DeviceByte) : Decidable (d.WritesByte byte) :=
  inferInstanceAs (Decidable (∃ a ∈ d.accesses, _))

/-- A dispatch of the plan with these dispatches before it declares the read. -/
def CompiledPlan.ReadsAfter (plan : CompiledPlan) (pre : List PlannedDispatch) (read : Access) : Prop :=
  ∃ d post, plan.dispatches = pre ++ d :: post ∧ read ∈ d.accesses ∧ read.mode = .read

/-- A byte of the region that the plan writes, but not before the reader. -/
def CompiledPlan.SeesLastToken (plan : CompiledPlan) (pre : List PlannedDispatch) (read : Access) : Prop :=
  ∃ byte, read.region.Has byte ∧ (∃ w ∈ plan.dispatches, w.WritesByte byte) ∧ ∀ e ∈ pre, ¬ e.WritesByte byte

/-- Some read observes a write of the preceding token. -/
def CompiledPlan.ReadsLastToken (plan : CompiledPlan) : Prop :=
  ∃ pre read, plan.ReadsAfter pre read ∧ plan.SeesLastToken pre read

/-- No byte of the region is written before the reader. -/
def Unproduced (pre : List PlannedDispatch) (read : Access) : Prop :=
  ∀ e ∈ pre, ∀ byte, read.region.Has byte → ¬ e.WritesByte byte

theorem DeviceRegion.overlaps_iff_byte (a b : DeviceRegion) : a.overlaps b = true ↔ ∃ byte, a.Has byte ∧ b.Has byte := by
  rw [DeviceRegion.overlaps_iff]
  have ha := a.nonempty
  have hb := b.nonempty
  constructor
  · rintro ⟨hres, h1, h2⟩
    -- the later of the two starts lies in both
    refine ⟨⟨a.resource, max a.offset b.offset⟩, ⟨rfl, le_max_left _ _, ?_⟩, hres.symm, le_max_right _ _, ?_⟩
    · dsimp only
      unfold DeviceRegion.stop at h2 ⊢
      omega
    · dsimp only
      unfold DeviceRegion.stop at h1 ⊢
      omega
  · rintro ⟨byte, ⟨hra, h1, h2⟩, hrb, h3, h4⟩
    exact ⟨hra.trans hrb.symm, by omega, by omega⟩

theorem writesInto_iff (region : DeviceRegion) (d : PlannedDispatch) :
    writesInto region d = true ↔ ∃ byte, region.Has byte ∧ d.WritesByte byte := by
  unfold writesInto PlannedDispatch.WritesByte
  simp only [any_eq_true, Bool.and_eq_true, decide_eq_true_eq, DeviceRegion.overlaps_iff_byte]
  constructor
  · rintro ⟨a, ha, hmode, byte, h1, h2⟩
    exact ⟨byte, h2, a, ha, hmode, h1⟩
  · rintro ⟨byte, h2, a, ha, hmode, h1⟩
    exact ⟨a, ha, hmode, byte, h1, h2⟩

/-- The places of a list, as splits of it. -/
theorem any_zipIdx_take {α : Type} {f : α → List α → Bool} (l : List α) :
    l.zipIdx.any (fun x => f x.1 (l.take x.2)) = true ↔ ∃ pre d post, l = pre ++ d :: post ∧ f d pre = true := by
  rw [any_eq_true]
  constructor
  · rintro ⟨⟨d, i⟩, hx, hf⟩
    have hi : l[i]? = some d := mem_zipIdx_iff_getElem?.1 hx
    obtain ⟨hlt, rfl⟩ := List.getElem?_eq_some_iff.1 hi
    exact ⟨l.take i, l[i], l.drop (i + 1), by rw [← drop_eq_getElem_cons hlt, take_append_drop], hf⟩
  · rintro ⟨pre, d, post, rfl, hf⟩
    refine ⟨(d, pre.length), mem_zipIdx_iff_getElem?.2 (by simp), ?_⟩
    rwa [take_left]

/-- **What the plan's check finds**: a read no byte of which is written before, of a region some dispatch writes into. -/
theorem hasCrossTokenRaw_iff (plan : CompiledPlan) : hasCrossTokenRaw plan = true ↔
    ∃ pre read, plan.ReadsAfter pre read ∧ plan.SeesLastToken pre read ∧ Unproduced pre read := by
  refine (any_zipIdx_take (f := fun d pre => d.accesses.any (fun read => decide (read.mode = .read) &&
    !pre.any (writesInto read.region) && plan.dispatches.any (writesInto read.region))) plan.dispatches).trans ?_
  simp only [any_eq_true, Bool.and_eq_true, Bool.not_eq_true', any_eq_false, decide_eq_true_eq, writesInto_iff]
  constructor
  · rintro ⟨pre, d, post, hsplit, read, hread, ⟨hmode, hpre⟩, w, hw, byte, hbyte, hwrites⟩
    have hun : Unproduced pre read := fun e he byte hb hw => hpre e he ⟨byte, hb, hw⟩
    exact ⟨pre, read, ⟨d, post, hsplit, hread, hmode⟩,
      ⟨byte, hbyte, ⟨w, hw, hwrites⟩, fun e he => hun e he byte hbyte⟩, hun⟩
  · rintro ⟨pre, read, ⟨d, post, hsplit, hread, hmode⟩, ⟨byte, hbyte, ⟨w, hw, hwrites⟩, -⟩, hun⟩
    exact ⟨pre, d, post, hsplit, read, hread, ⟨hmode, fun e he ⟨byte, hb, hwb⟩ => hun e he byte hb hwb⟩, w, hw, byte, hbyte,
      hwrites⟩

/-- The fences between tokens are raised to the agent scope. -/
def RaisesFences (plan : CompiledPlan) : Prop :=
  ∀ nodes visibility profile policies, lowerPolicies plan nodes visibility profile = .ok policies →
    policies.consolidation.release = .agent ∧ policies.dependency.acquire = .agent

theorem raisesFences_of_raw {plan : CompiledPlan} (h : hasCrossTokenRaw plan = true) : RaisesFences plan := by
  intro nodes visibility profile policies hp
  unfold lowerPolicies at hp
  split at hp
  · cases hp
  split at hp
  · cases hp
  split at hp
  · cases hp
  cases hp
  simp only [h, if_true, and_self]

/-- **Cross-token visibility is found exactly if one of the reads that need it is produced nowhere before its reader.** -/
theorem cross_token_raw_found_iff (plan : CompiledPlan) :
    (plan.ReadsLastToken → hasCrossTokenRaw plan = true ∧ RaisesFences plan) ↔
      (plan.ReadsLastToken → ∃ pre read, plan.ReadsAfter pre read ∧ plan.SeesLastToken pre read ∧ Unproduced pre read) := by
  refine forall_congr' (fun _ => ?_)
  rw [← hasCrossTokenRaw_iff]
  exact ⟨fun h => h.1, fun h => ⟨h, raisesFences_of_raw h⟩⟩

/-! A read of two bytes; the first is written before it, the second after it. -/

def wholeRegion : DeviceRegion := ⟨⟨0, 0⟩, 0, 2, Nat.two_pos, by decide⟩

def halfProducedOps : List RecorderOp :=
  [.resource "state" 2, .dispatch sampleLaunch [⟨firstByte, .write⟩], .dispatch sampleLaunch [⟨wholeRegion, .read⟩],
    .dispatch sampleLaunch [⟨secondByte, .write⟩], .dependsOn ⟨0, 1⟩ ⟨0, 0⟩, .dependsOn ⟨0, 2⟩ ⟨0, 1⟩]

/-- The second byte comes from the preceding token, but the first write hides the read. -/
theorem cross_token_raw_missed_half : ∃ plan, compile (fun _ => []) (build 0 halfProducedOps) twoLanes = .ok plan ∧
    plan.ReadsLastToken ∧ hasCrossTokenRaw plan = false := by
  refine ⟨_, rfl, ⟨_, ⟨wholeRegion, .read⟩, ⟨_, _, singleton_append.symm, mem_singleton.2 rfl, rfl⟩, ⟨⟨0, 0⟩, 1⟩, ?_, ?_, ?_⟩, rfl⟩
  · decide
  · decide
  · decide

end Hipfire.Redline
