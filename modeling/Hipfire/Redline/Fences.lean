import Hipfire.Redline.Elision
/-!
# Fences — cache visibility, and the soundness of the derived policy

A packet whose write is read by a later one releases, the reader acquires, and the first packet of a lane acquires what
came before the plan.  `derived_policy_sound` puts this together with the order that every execution keeps.
-/
namespace Hipfire.Redline

open List
open Relation (TransGen)

/-- `w` writes something that `q` reads. -/
def PlannedDispatch.WritesFor (w q : PlannedDispatch) : Prop :=
  ∃ x ∈ w.accesses, ∃ y ∈ q.accesses, x.mode = .write ∧ y.mode = .read ∧ x.region.overlaps y.region = true

theorem conflictOf_write_read {x y : Access} (hx : x.mode = .write) (hy : y.mode = .read)
    (ho : x.region.overlaps y.region = true) : ∃ o, conflictOf x y = some (.readAfterWrite, o) := by
  have : (x.region.intersection y.region).isSome := by rw [DeviceRegion.intersection_isSome]; exact ho
  obtain ⟨o, hi⟩ := Option.isSome_iff_exists.1 this
  exact ⟨o, by simp [conflictOf, hi, hx, hy]⟩

variable {p : DerivedDispatchPolicy} {w q : PlannedDispatch}

theorem rawConflicts_ne_nil {reachable : Nat → Nat → Bool}
    (hr : reachable w.node.index q.node.index = true) (h : w.WritesFor q) : rawConflicts reachable w q ≠ [] := by
  obtain ⟨x, hx, y, hy, hxw, hyr, ho⟩ := h
  obtain ⟨o, hc⟩ := conflictOf_write_read hxw hyr ho
  unfold rawConflicts
  rw [if_pos hr]
  refine ne_nil_of_mem (a := o) (mem_filterMap.2 ⟨(.readAfterWrite, o), ?_, by simp⟩)
  exact mem_flatMap.2 ⟨x, hx, mem_filterMap.2 ⟨y, hy, hc⟩⟩

theorem flatMap_ne_nil {α β : Type} {f : α → List β} {l : List α} {x : α} (hx : x ∈ l) (h : f x ≠ []) : l.flatMap f ≠ [] := by
  obtain ⟨y, hy⟩ := exists_mem_of_ne_nil _ h
  exact ne_nil_of_mem (mem_flatMap.2 ⟨x, hx, hy⟩)

section policies

variable {r : Recorder} {options : CompileOptions} {plan : CompiledPlan} {boundary : ApiBoundary}
  {policy : DerivedVisibilityPlan}

theorem policy_keys (h : deriveAqlVisibility plan boundary = .ok policy) :
    policy.dispatches.map (fun p => (p.node, p.lane)) = plan.dispatches.map (fun d => (d.node, d.lane)) := by
  rw [(derive_eq h).1, deriveLoop_key]

theorem policy_at (h : deriveAqlVisibility plan boundary = .ok policy)
    {before after : List DerivedDispatchPolicy} (hp : policy.dispatches = before ++ p :: after) : ∃ pre d post,
      plan.dispatches = pre ++ d :: post ∧ before.map (fun p => (p.node, p.lane)) = pre.map (fun d => (d.node, d.lane)) ∧
      p = plan.policyAt boundary.entry pre d post := by
  have hlen : before.length < plan.dispatches.length := by
    have := congrArg length (policy_keys h)
    rw [length_map, length_map, hp, length_append, length_cons] at this
    omega
  have hsplit : plan.dispatches = plan.dispatches.take before.length ++ plan.dispatches[before.length] ::
      plan.dispatches.drop (before.length + 1) := by
    rw [← drop_eq_getElem_cons hlen, take_append_drop]
  obtain ⟨before', after', h1, h2⟩ := policy_split h hsplit
  have hl : before.length = before'.length := by
    have := congrArg length h2
    rw [length_map, length_map, length_take] at this
    omega
  obtain ⟨e1, e2⟩ := append_inj (hp.symm.trans h1) hl
  exact ⟨_, _, _, hsplit, e1 ▸ h2, (cons.inj e2).1⟩

theorem policy_of_mem (h : deriveAqlVisibility plan boundary = .ok policy) (hp : p ∈ policy.dispatches) :
    ∃ pre d post, plan.dispatches = pre ++ d :: post ∧ d.node = p.node ∧
      p = plan.policyAt boundary.entry pre d post := by
  obtain ⟨before, after, he⟩ := append_of_mem hp
  obtain ⟨pre, d, post, h1, -, h2⟩ := policy_at h he
  exact ⟨pre, d, post, h1, by rw [h2]; rfl, h2⟩

theorem mem_of_split {α : Type} {l pre post : List α} {d : α} (h : l = pre ++ d :: post) : d ∈ l := by
  rw [h]; simp

section transfer

-- a write and a read ordered after it
variable (hr : r.WF) (hp : PlanOf r options plan) (h : deriveAqlVisibility plan boundary = .ok policy)
  (hw : w ∈ plan.dispatches) (hq : q ∈ plan.dispatches) (hwq : TransGen (Arc r.edges) w.node q.node) (hraw : w.WritesFor q)
  (hm : p ∈ policy.dispatches)
include hr hp h hw hq hwq hraw hm

/-- **A writer releases for the readers ordered after it.** -/
theorem writer_releases (hn : p.node = w.node) : p.header.release = .agent := by
  obtain ⟨pre, d, post, hsplit, hd, hpol⟩ := policy_of_mem h hm
  obtain rfl := hp.eq_of_node hr (mem_of_split hsplit) hw (hd.trans hn)
  have hqpost : q ∈ post := by
    have hqm := hq
    rw [hsplit, mem_append, mem_cons] at hqm
    have hback := pairwise_map.1 hp.order.topo.no_way_back
    rw [hsplit] at hback
    rcases hqm with hqm | rfl | hqm
    · exact absurd hwq ((pairwise_append.1 hback).2.2 q hqm d (by simp))
    · exact absurd hwq (hr.acyclic _)
    · exact hqm
  have hne : releaseReasons (dispatchReachability plan.dispatches) d post ≠ [] :=
    flatMap_ne_nil hqpost (by
      rw [ne_eq, map_eq_nil_iff]
      exact rawConflicts_ne_nil ((hp.reachable_iff hr hw hq).2 hwq) hraw)
  rw [hpol]
  simp only [dispatchPolicy, agentIfAny, if_neg hne]

/-- **A reader acquires from the writers ordered before it.** -/
theorem reader_acquires (hn : p.node = q.node) : p.header.acquire = .agent ∨ p.header.acquire = .system := by
  obtain ⟨pre, d, post, hsplit, hd, hpol⟩ := policy_of_mem h hm
  obtain rfl := hp.eq_of_node hr (mem_of_split hsplit) hq (hd.trans hn)
  have hne : acquireReasons (dispatchReachability plan.dispatches) pre d ≠ [] :=
    flatMap_ne_nil (hp.before hsplit hw hwq) (by
      rw [ne_eq, map_eq_nil_iff]
      exact rawConflicts_ne_nil ((hp.reachable_iff hr hw hq).2 hwq) hraw)
  rw [hpol]
  simp only [dispatchPolicy, agentIfAny, if_neg hne]
  split
  · cases boundary.entry <;> simp [maxScope, entryScope, FenceScope.toNat]
  · exact .inl rfl

end transfer

theorem le_maxScope (a b : FenceScope) : b.toNat ≤ (maxScope a b).toNat := by
  unfold maxScope
  split
  · assumption
  · exact le_rfl

/-- **The first packet of a lane acquires at the scope of the entry boundary.** -/
theorem first_acquires (h : deriveAqlVisibility plan boundary = .ok policy)
    {before after : List DerivedDispatchPolicy} (hp : policy.dispatches = before ++ p :: after)
    (hfirst : ∀ q ∈ before, q.lane ≠ p.lane) : (entryScope boundary.entry).toNat ≤ p.header.acquire.toNat := by
  obtain ⟨pre, d, post, -, hkeys, hpol⟩ := policy_at h hp
  have hnone : (plan.walk pre d.lane).nodes = [] := by
    rw [walkLanes_nodes, map_eq_nil_iff, filter_eq_nil_iff]
    intro e he hl
    obtain ⟨q, hq, -, hql⟩ := mem_before hkeys he
    refine hfirst q hq (hql.trans ?_)
    rw [hpol]
    exact of_decide_eq_true hl
  rw [hpol]
  simp only [dispatchPolicy, if_pos hnone]
  exact le_maxScope _ _

/-- **Every dispatch is covered by the consolidation packet of its lane, which the terminal waits for.** -/
theorem consolidated (hp : PlanOf r options plan) (h : deriveAqlVisibility plan boundary = .ok policy) {d : PlannedDispatch}
    (hd : d ∈ plan.dispatches) : ∃ c ∈ policy.laneConsolidations, c.lane = d.lane ∧ c.header.barrier = true ∧
      c.coveredNodes = (plan.dispatches.filter (fun e => decide (e.lane = d.lane))).map PlannedDispatch.node ∧
      d.node ∈ c.coveredNodes ∧ d.lane ∈ policy.terminal.lanes := by
  obtain ⟨-, hcons, hterm⟩ := derive_eq h
  have hnodes := walkLanes_nodes (dispatchReachability plan.dispatches) (laneByNode plan.dispatches) plan.dispatches d.lane
  have hmem : d.node ∈ (plan.dispatches.filter (fun e => decide (e.lane = d.lane))).map PlannedDispatch.node :=
    mem_map.2 ⟨d, mem_filter.2 ⟨hd, by simp⟩, rfl⟩
  have hc : (⟨d.lane, ⟨true, .none, .none⟩,
      (plan.dispatches.filter (fun e => decide (e.lane = d.lane))).map PlannedDispatch.node⟩ : LaneConsolidationPolicy) ∈
        policy.laneConsolidations := by
    rw [hcons]
    refine mem_filterMap.2 ⟨d.lane, mem_range.2 (hp.planned d hd).2, ?_⟩
    unfold consolidation
    rw [hnodes, if_neg (ne_nil_of_mem hmem)]
  refine ⟨_, hc, rfl, rfl, rfl, hmem, ?_⟩
  rw [hterm]
  exact mem_map.2 ⟨_, hc, rfl⟩

end policies

/-- **The derived policy is sound.**  In every execution that keeps only what the derived headers say, a dispatch starts
after everything it waits for has finished and conflicting dispatches do not overlap; writers release and readers acquire;
the first packet of a lane acquires at the entry scope, and every dispatch is covered by a lane's consolidation packet
before the terminal releases at the exit scope. -/
theorem derived_policy_sound (sha256 : List UInt8 → Digest) (owner : Nat) (ops : List RecorderOp) (options : CompileOptions)
    (boundary : ApiBoundary) {plan : CompiledPlan} {policy : DerivedVisibilityPlan}
    (hc : compile sha256 (build owner ops) options = .ok plan) (hd : deriveAqlVisibility plan boundary = .ok policy)
    {T : Type} [Preorder T] (start finish : NodeId → T) (hrun : Respects policy start finish) :
    (∀ a b, TransGen (Arc (build owner ops).edges) a b → finish a ≤ start b) ∧
    (∀ a ∈ plan.dispatches, ∀ b ∈ plan.dispatches, a.node ≠ b.node → a.Conflicts b →
      finish a.node ≤ start b.node ∨ finish b.node ≤ start a.node) ∧
    (∀ w ∈ plan.dispatches, ∀ q ∈ plan.dispatches, TransGen (Arc (build owner ops).edges) w.node q.node → w.WritesFor q →
      ∀ pw ∈ policy.dispatches, ∀ pq ∈ policy.dispatches, pw.node = w.node → pq.node = q.node →
        pw.header.release = .agent ∧ (pq.header.acquire = .agent ∨ pq.header.acquire = .system)) ∧
    (∀ before p after, policy.dispatches = before ++ p :: after → (∀ q ∈ before, q.lane ≠ p.lane) →
      (entryScope boundary.entry).toNat ≤ p.header.acquire.toNat) ∧
    (∀ d ∈ plan.dispatches, ∃ c ∈ policy.laneConsolidations, c.lane = d.lane ∧ c.header.barrier = true ∧
      d.node ∈ c.coveredNodes ∧ d.lane ∈ policy.terminal.lanes) ∧
    policy.terminal.header = ⟨true, .none, exitScope boundary.exit⟩ := by
  have hr := wf_build owner ops
  have hp := compile_ok hr hc
  refine ⟨fun a b hab => respects_reaches hd hrun hr hp hab, fun a ha b hb hne hab => ?_,
    fun w hw q hq hwq hraw pw hpw pq hpq hnw hnq =>
      ⟨writer_releases hr hp hd hw hq hwq hraw hpw hnw, reader_acquires hr hp hd hw hq hwq hraw hpq hnq⟩,
    fun before p after he hfirst => first_acquires hd he hfirst, fun d hdm => ?_, ?_⟩
  · rcases hp.conflicts_ordered hr ha hb hne hab with h | h
    · exact .inl (respects_reaches hd hrun hr hp h)
    · exact .inr (respects_reaches hd hrun hr hp h)
  · obtain ⟨c, hcm, h1, h2, -, h3, h4⟩ := consolidated hp hd hdm
    exact ⟨c, hcm, h1, h2, h3, h4⟩
  · rw [(derive_eq hd).2.2]

/-! Two writers on two lanes, and a reader of both that waits for both. -/

def sampleLaunch : KernelLaunch := ⟨"k", ⟨1, 1, 1⟩, ⟨1, 1, 1⟩, 0, [], none, none, 1, Nat.one_pos⟩

def firstByte : DeviceRegion := ⟨⟨0, 0⟩, 0, 1, Nat.one_pos, by decide⟩

def secondByte : DeviceRegion := ⟨⟨0, 0⟩, 1, 1, Nat.one_pos, by decide⟩

def writersThenReader : List RecorderOp :=
  [.resource "state" 2, .dispatch sampleLaunch [⟨firstByte, .write⟩], .dispatch sampleLaunch [⟨secondByte, .write⟩],
    .dispatch sampleLaunch [⟨firstByte, .read⟩, ⟨secondByte, .read⟩], .dependsOn ⟨0, 2⟩ ⟨0, 0⟩, .dependsOn ⟨0, 2⟩ ⟨0, 1⟩]

def twoLanes : CompileOptions := ⟨2, Nat.two_pos, .tokenLatency⟩

theorem derived_policy_sound_writersThenReader : ∃ plan policy,
    compile (fun _ => []) (build 0 writersThenReader) twoLanes = .ok plan ∧
    deriveAqlVisibility plan ⟨.hostToAql, .aqlToHost⟩ = .ok policy ∧
    Respects policy (fun n => n.index / 2) (fun n => n.index / 2 + 1) ∧
    (∀ a b, TransGen (Arc (build 0 writersThenReader).edges) a b → a.index / 2 + 1 ≤ b.index / 2) := by
  have hrun : ∀ plan policy, compile (fun _ => []) (build 0 writersThenReader) twoLanes = .ok plan →
      deriveAqlVisibility plan ⟨.hostToAql, .aqlToHost⟩ = .ok policy →
      Respects policy (fun n => n.index / 2) (fun n => n.index / 2 + 1) := by
    rintro _ _ ⟨⟩ ⟨⟩
    exact ⟨fun p _ => Nat.le_succ _, by decide, by decide, by decide⟩
  exact ⟨_, _, rfl, rfl, hrun _ _ rfl rfl, (derived_policy_sound (fun _ => []) 0 writersThenReader twoLanes
    ⟨.hostToAql, .aqlToHost⟩ rfl rfl (fun n => n.index / 2) (fun n => n.index / 2 + 1) (hrun _ _ rfl rfl)).1⟩

end Hipfire.Redline
