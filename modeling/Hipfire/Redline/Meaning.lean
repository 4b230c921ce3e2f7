import Hipfire.Base.Run
import Hipfire.Redline.CrossToken
/-!
# Meaning — what a plan computes

A kernel is a list of steps on the device memory that stay within the accesses its dispatch declares.  Steps of dispatches
without a conflict commute (`Within.commute`) and conflicting dispatches do not overlap in time, so every interleaving the
derived headers allow ends in the memory of the plan's dispatches run one after the other (`interleavings_agree`).
-/
namespace Hipfire.Redline

open List
open Relation (TransGen)

variable {V : Type} {a b d : PlannedDispatch}

abbrev Memory (V : Type) := DeviceByte → V

def PlannedDispatch.TouchesByte (d : PlannedDispatch) (byte : DeviceByte) : Prop := ∃ x ∈ d.accesses, x.region.Has byte

/-- A step that writes only what the dispatch declares as written, from what the dispatch declares. -/
structure Within (d : PlannedDispatch) (f : Memory V → Memory V) : Prop where
  frame : ∀ m byte, ¬ d.WritesByte byte → f m byte = m byte
  reads : ∀ m m', (∀ byte, d.TouchesByte byte → m byte = m' byte) → ∀ byte, d.WritesByte byte → f m byte = f m' byte

theorem not_touches (h : ¬ a.Conflicts b) {byte : DeviceByte} (ha : a.WritesByte byte) : ¬ b.TouchesByte byte := by
  rintro ⟨y, hy, hyb⟩
  obtain ⟨x, hx, hmode, hxb⟩ := ha
  exact h ⟨x, hx, y, hy, (DeviceRegion.overlaps_iff_byte _ _).2 ⟨byte, hxb, hyb⟩, .inl hmode⟩

theorem PlannedDispatch.WritesByte.touches {byte : DeviceByte} : d.WritesByte byte → d.TouchesByte byte
  | ⟨x, hx, _, hb⟩ => ⟨x, hx, hb⟩

/-- What a step writes is not changed by a step of a dispatch without a conflict before or after it. -/
theorem Within.apart {f g : Memory V → Memory V} (hf : Within a f) (hg : Within b g) (h : ¬ a.Conflicts b) (m : Memory V)
    {byte : DeviceByte} (ha : a.WritesByte byte) : f (g m) byte = g (f m) byte := by
  rw [hg.frame (f m) byte (fun hb => not_touches h ha hb.touches)]
  exact hf.reads _ _ (fun _ ht => hg.frame m _ (fun hb => not_touches (fun hc => h hc.symm) hb ht)) byte ha

theorem Within.commute {f g : Memory V → Memory V} (hf : Within a f) (hg : Within b g) (h : ¬ a.Conflicts b)
    (m : Memory V) : f (g m) = g (f m) := by
  funext byte
  by_cases ha : a.WritesByte byte
  · exact hf.apart hg h m ha
  by_cases hb : b.WritesByte byte
  · exact (hg.apart hf (fun hc => h hc.symm) m hb).symm
  · rw [hf.frame _ _ ha, hg.frame _ _ hb, hg.frame _ _ hb, hf.frame _ _ ha]

/-- One step of a dispatch's kernel, at its place in the kernel. -/
structure KernelStep (V : Type) where
  dispatch : PlannedDispatch
  effect : Memory V → Memory V
  place : Nat

def KernelStep.apply (s : KernelStep V) (m : Memory V) : Memory V := s.effect m

section interleavings

variable (kernel : PlannedDispatch → List (Memory V → Memory V)) (plan : CompiledPlan)

def kernelSteps (d : PlannedDispatch) : List (KernelStep V) := (kernel d).zipIdx.map (fun x => ⟨d, x.1, x.2⟩)

/-- The dispatches one after the other, in the plan's order. -/
def serialSteps : List (KernelStep V) := plan.dispatches.flatMap (kernelSteps kernel)

/-- The steps of all kernels in some order: each kernel keeps its own, and what has finished before a dispatch starts
stands before it. -/
structure Interleaves {T : Type} [Preorder T] (start finish : NodeId → T) (steps : List (KernelStep V)) : Prop where
  perm : steps.Perm (serialSteps kernel plan)
  program : steps.Pairwise (fun s t => s.dispatch.node = t.dispatch.node → s.place < t.place)
  times : steps.Pairwise (fun s t => s.dispatch.node ≠ t.dispatch.node → ¬ finish t.dispatch.node ≤ start s.dispatch.node)

end interleavings

variable {kernel : PlannedDispatch → List (Memory V → Memory V)} {plan : CompiledPlan} {s t : KernelStep V}

theorem mem_kernelSteps (h : s ∈ kernelSteps kernel d) : s.dispatch = d ∧ s.effect ∈ kernel d := by
  obtain ⟨x, hx, rfl⟩ := mem_map.1 h
  exact ⟨rfl, fst_mem_of_mem_zipIdx hx⟩

theorem mem_serialSteps (h : s ∈ serialSteps kernel plan) :
    s.dispatch ∈ plan.dispatches ∧ s.effect ∈ kernel s.dispatch := by
  obtain ⟨d, hd, hs⟩ := mem_flatMap.1 h
  obtain ⟨rfl, he⟩ := mem_kernelSteps hs
  exact ⟨hd, he⟩

theorem kernelSteps_program : (kernelSteps kernel d).Pairwise (fun s t => s.place < t.place) := by
  have h := pairwise_lt_range' (s := 0) (n := (kernel d).length) 1
  rw [← zipIdx_map_snd, pairwise_map] at h
  exact pairwise_map.2 h

/-- In the plan's order each kernel keeps its own, and no dispatch stands before one it waits for. -/
theorem serialSteps_order {r : Recorder} {options : CompileOptions} (hr : r.WF) (h : PlanOf r options plan) :
    (serialSteps kernel plan).Pairwise (fun s t => (s.dispatch.node = t.dispatch.node → s.place < t.place) ∧
      ¬ TransGen (Arc r.edges) t.dispatch.node s.dispatch.node) := by
  refine pairwise_flatMap.2 ⟨fun d _ => kernelSteps_program.imp_of_mem (fun hs ht hlt => ⟨fun _ => hlt, ?_⟩), ?_⟩
  · rw [(mem_kernelSteps hs).1, (mem_kernelSteps ht).1]
    exact hr.acyclic _
  · refine ((pairwise_map.1 h.order.topo.nodup).and (pairwise_map.1 h.order.topo.no_way_back)).imp ?_
    rintro d e ⟨hne, hback⟩ s hs t ht
    rw [(mem_kernelSteps hs).1, (mem_kernelSteps ht).1]
    exact ⟨fun he => absurd he hne, hback⟩

/-- **A plan means one thing.**  Whatever the kernels do within their declared accesses, every interleaving of their steps
that the derived headers allow ends in the memory of the dispatches run one after the other. -/
theorem interleavings_agree (sha256 : List UInt8 → Digest) (owner : Nat) (ops : List RecorderOp) (options : CompileOptions)
    (boundary : ApiBoundary) {plan : CompiledPlan} {policy : DerivedVisibilityPlan}
    (hc : compile sha256 (build owner ops) options = .ok plan) (hd : deriveAqlVisibility plan boundary = .ok policy)
    {T : Type} [Preorder T] (start finish : NodeId → T) (hrun : Respects policy start finish)
    (kernel : PlannedDispatch → List (Memory V → Memory V)) (hk : ∀ d ∈ plan.dispatches, ∀ f ∈ kernel d, Within d f)
    (steps : List (KernelStep V)) (hs : Interleaves kernel plan start finish steps) (m : Memory V) :
    runAll KernelStep.apply steps m = runAll KernelStep.apply (serialSteps kernel plan) m := by
  have hr := wf_build owner ops
  have hp := compile_ok hr hc
  refine runAll_reorder _ _ hs.perm (fun s t hst hts m => ?_) m
  have hprogram := pairwise_pair.1 (hs.program.sublist hst)
  have htimes := pairwise_pair.1 (hs.times.sublist hst)
  obtain ⟨hserial, hback⟩ := pairwise_pair.1 ((serialSteps_order hr hp).sublist hts)
  -- two steps of one kernel stand the same way in both orders
  by_cases hn : s.dispatch.node = t.dispatch.node
  · exact absurd (hprogram hn) (Nat.lt_asymm (hserial hn.symm))
  obtain ⟨hsm, hsk⟩ := mem_serialSteps (hts.subset (by simp : s ∈ [t, s]))
  obtain ⟨htm, htk⟩ := mem_serialSteps (hts.subset (by simp : t ∈ [t, s]))
  refine (hk _ hsm _ hsk).commute (hk _ htm _ htk) (fun hconf => ?_) m
  rcases hp.conflicts_ordered hr hsm htm hn hconf with hab | hba
  · exact hback hab
  · exact htimes hn (respects_reaches hd hrun hr hp hba)

/-- Every byte a dispatch writes becomes its number. -/
def storeNumber (d : PlannedDispatch) : List (Memory Nat → Memory Nat) :=
  [fun m byte => if d.WritesByte byte then d.node.index + 1 else m byte]

theorem within_storeNumber (f : Memory Nat → Memory Nat) (h : f ∈ storeNumber d) : Within d f := by
  cases mem_singleton.1 h
  exact ⟨fun m byte hb => if_neg hb, fun m m' _ byte hb => (if_pos hb).trans (if_pos hb).symm⟩

theorem interleavings_agree_writersSwapped : ∃ plan policy steps,
    compile (fun _ => []) (build 0 writersThenReader) twoLanes = .ok plan ∧
    deriveAqlVisibility plan ⟨.hostToAql, .aqlToHost⟩ = .ok policy ∧
    Interleaves storeNumber plan (fun n => n.index / 2) (fun n => n.index / 2 + 1) steps ∧
    steps.map (fun s => s.dispatch.node.index) = [1, 0, 2] ∧
    ∀ m, runAll KernelStep.apply steps m = runAll KernelStep.apply (serialSteps storeNumber plan) m := by
  have hex : ∀ plan policy, compile (fun _ => []) (build 0 writersThenReader) twoLanes = .ok plan →
      deriveAqlVisibility plan ⟨.hostToAql, .aqlToHost⟩ = .ok policy →
      Respects policy (fun n => n.index / 2) (fun n => n.index / 2 + 1) ∧ ∃ steps,
        Interleaves storeNumber plan (fun n => n.index / 2) (fun n => n.index / 2 + 1) steps ∧
        steps.map (fun s => s.dispatch.node.index) = [1, 0, 2] := by
    rintro _ _ ⟨⟩ ⟨⟩
    exact ⟨⟨fun p _ => Nat.le_succ _, by decide, by decide, by decide⟩, _, ⟨Perm.swap _ _ _, by decide, by decide⟩, rfl⟩
  obtain ⟨hrun, steps, hi, ho⟩ := hex _ _ rfl rfl
  exact ⟨_, _, steps, rfl, rfl, hi, ho, interleavings_agree (fun _ => []) 0 writersThenReader twoLanes
    ⟨.hostToAql, .aqlToHost⟩ rfl rfl _ _ hrun storeNumber (fun _ _ => within_storeNumber) steps hi⟩

end Hipfire.Redline
