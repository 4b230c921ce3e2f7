import Hipfire.Redline.Fences
import Hipfire.Redline.Replay
/-!
# Accept — compilation accepts exactly the hazard-free recordings

`validateKernelContracts` accepts exactly the recorders whose launches agree (`validateKernelContracts_iff`).  Of these,
compilation refuses exactly the ones with an unordered conflict, and what it accepts can be replayed and lowered
(`compile_accepts_exactly`).
-/
namespace Hipfire.Redline

open List
open Relation (TransGen)

/-! ## Contracts -/

/-- An association list that gives a key one value. -/
def Functional {κ ν : Type} (l : List (κ × ν)) : Prop := ∀ k v v', (k, v) ∈ l → (k, v') ∈ l → v = v'

theorem Functional.mono {κ ν : Type} {l l' : List (κ × ν)} (h : Functional l') (hs : ∀ p ∈ l, p ∈ l') : Functional l :=
  fun k v v' hv hv' => h k v v' (hs _ hv) (hs _ hv')

/-- A map insertion that finds no other value keeps the map functional, and only such a one. -/
theorem functional_cons {κ ν : Type} [BEq κ] [LawfulBEq κ] {l : List (κ × ν)} (h : Functional l) (k : κ) (v : ν) :
    Functional ((k, v) :: l) ↔ l.lookup k = none ∨ l.lookup k = some v := by
  constructor
  · intro hf
    cases hl : l.lookup k with
    | none => exact .inl rfl
    | some w =>
      obtain ⟨l1, l2, hsplit, -⟩ := lookup_eq_some_iff.1 hl
      exact .inr (congrArg some (hf k w v (by rw [hsplit]; simp) (by simp)))
  · rintro hl k' w w' hw hw'
    have hkey : ∀ u, (k, u) ∈ l → u = v := fun u hu => by
      rcases hl with hl | hl
      · exact absurd (lookup_eq_none_iff.1 hl (k, u) hu) (by simp)
      · obtain ⟨l1, l2, hsplit, -⟩ := lookup_eq_some_iff.1 hl
        exact h k u v hu (by rw [hsplit]; simp)
    rcases mem_cons.1 hw with he | hm
    · obtain ⟨rfl, rfl⟩ := Prod.mk.inj he
      rcases mem_cons.1 hw' with he' | hm'
      · exact (Prod.mk.inj he').2.symm
      · exact (hkey w' hm').symm
    · rcases mem_cons.1 hw' with he' | hm'
      · obtain ⟨rfl, rfl⟩ := Prod.mk.inj he'
        exact hkey w hm
      · exact h k' w w' hm hm'

/-- The scalar slots of a launch. -/
def slotsOf (arguments : List KernelArg) : List (ScalarSlotId × Nat) :=
  arguments.filterMap (fun
    | .scalarSlot slot size => some (slot, size)
    | _ => none)

theorem checkSlots_spec : ∀ (arguments : List KernelArg) (slots : List (ScalarSlotId × Nat)), Functional slots →
    (∃ e, checkSlots slots arguments = .error e ∧ ¬ Functional ((slotsOf arguments).reverse ++ slots)) ∨
    (checkSlots slots arguments = .ok ((slotsOf arguments).reverse ++ slots) ∧
      Functional ((slotsOf arguments).reverse ++ slots))
  | [], slots, h => .inr ⟨rfl, h⟩
  | .scalar _ :: arguments, slots, h => checkSlots_spec arguments slots h
  | .resource _ _ :: arguments, slots, h => checkSlots_spec arguments slots h
  | .scalarSlot slot size :: arguments, slots, h => by
    have hstep : (slotsOf (.scalarSlot slot size :: arguments)).reverse ++ slots
        = (slotsOf arguments).reverse ++ ((slot, size) :: slots) := by
      simp [slotsOf]
    rw [hstep]
    have hiff := functional_cons h slot size
    unfold checkSlots
    cases hl : slots.lookup slot with
    | none => exact checkSlots_spec arguments _ (hiff.2 (.inl hl))
    | some previous =>
      by_cases hp : previous = size
      · simp only [if_pos hp]
        exact checkSlots_spec arguments _ (hiff.2 (.inr (by rw [hl, hp])))
      simp only [if_neg hp]
      refine .inl ⟨_, rfl, fun hf => ?_⟩
      rcases hiff.1 (hf.mono (fun p hm => mem_append_right _ hm)) with hn | hs
      · rw [hl] at hn; cases hn
      · rw [hl] at hs; exact hp (Option.some.inj hs)

/-- What the launches of a recorder agree on: each fits its ABI, a scalar slot has one size, a kernel key one identity. -/
structure ConsistentContracts (r : Recorder) : Prop where
  abi : ∀ n ∈ r.nodes, ∀ abi, n.launch.kernargAbi = some abi → abi.validateArguments n.launch.arguments = .ok ()
  slots : ∀ n ∈ r.nodes, ∀ m ∈ r.nodes, ∀ slot size size', KernelArg.scalarSlot slot size ∈ n.launch.arguments →
    KernelArg.scalarSlot slot size' ∈ m.launch.arguments → size = size'
  kernels : ∀ n ∈ r.nodes, ∀ m ∈ r.nodes, n.launch.kernel = m.launch.kernel → n.launch.identity = m.launch.identity

theorem checkAbi_ok (launch : KernelLaunch) : checkAbi launch = .ok () ↔
    ∀ abi, launch.kernargAbi = some abi → abi.validateArguments launch.arguments = .ok () := by
  unfold checkAbi
  cases launch.kernargAbi with
  | none => simp
  | some abi =>
    cases hv : abi.validateArguments launch.arguments with
    | error e | ok u => simp [hv]

/-- The slots and the kernel keys of some nodes, in the order they are met. -/
def nodeSlots (nodes : List Node) : List (ScalarSlotId × Nat) := nodes.flatMap (fun n => slotsOf n.launch.arguments)

def nodeKernels (nodes : List Node) : List (String × Option Digest × Option KernelArtifactIdentity) :=
  nodes.map (fun n => (n.launch.kernel, n.launch.identity))

theorem checkContracts_iff : ∀ (nodes : List Node) (slots : List (ScalarSlotId × Nat))
    (kernels : List (String × Option Digest × Option KernelArtifactIdentity)), Functional slots → Functional kernels →
    (checkContracts slots kernels nodes = .ok () ↔ (∀ n ∈ nodes, checkAbi n.launch = .ok ()) ∧
      Functional ((nodeSlots nodes).reverse ++ slots) ∧ Functional ((nodeKernels nodes).reverse ++ kernels))
  | [], slots, kernels, hs, hk => by
    simp only [checkContracts, true_iff]
    exact ⟨by simp, hs, hk⟩
  | n :: nodes, slots, kernels, hs, hk => by
    have h1 : (nodeSlots (n :: nodes)).reverse ++ slots =
        (nodeSlots nodes).reverse ++ ((slotsOf n.launch.arguments).reverse ++ slots) := by simp [nodeSlots]
    have h2 : (nodeKernels (n :: nodes)).reverse ++ kernels =
        (nodeKernels nodes).reverse ++ ((n.launch.kernel, n.launch.identity) :: kernels) := by simp [nodeKernels]
    rw [h1, h2, forall_mem_cons]
    unfold checkContracts
    cases habi : checkAbi n.launch with
    | error e => simp
    | ok u =>
      simp only [true_and]
      rcases checkSlots_spec n.launch.arguments slots hs with ⟨e, he, hno⟩ | ⟨hok, hf⟩
      · rw [he]
        simp only [reduceCtorEq, false_iff, not_and]
        exact fun _ hf _ => hno (hf.mono (fun p hm => mem_append_right _ hm))
      · rw [hok]
        have hiff := functional_cons hk n.launch.kernel n.launch.identity
        cases hl : kernels.lookup n.launch.kernel with
        | none => exact checkContracts_iff nodes _ _ hf (hiff.2 (.inl hl))
        | some previous =>
          by_cases hp : previous = n.launch.identity
          · simp only [if_pos hp]
            exact checkContracts_iff nodes _ _ hf (hiff.2 (.inr (by rw [hl, hp])))
          simp only [if_neg hp, reduceCtorEq, false_iff, not_and]
          intro _ _ hfk
          rcases hiff.1 (hfk.mono (fun p hm => mem_append_right _ hm)) with hn | hs
          · rw [hl] at hn; cases hn
          · rw [hl] at hs; exact hp (Option.some.inj hs)

variable {size : Nat} {slot : ScalarSlotId}

theorem mem_slotsOf {arguments : List KernelArg} :
    (slot, size) ∈ slotsOf arguments ↔ KernelArg.scalarSlot slot size ∈ arguments := by
  unfold slotsOf
  rw [mem_filterMap]
  constructor
  · rintro ⟨a, ha, he⟩
    cases a with
    | scalarSlot s k =>
      obtain ⟨rfl, rfl⟩ := Prod.mk.inj (Option.some.inj he)
      exact ha
    | scalar bytes | resource resource offset => cases he
  · exact fun ha => ⟨_, ha, rfl⟩

theorem mem_nodeSlots {nodes : List Node} :
    (slot, size) ∈ nodeSlots nodes ↔ ∃ n ∈ nodes, KernelArg.scalarSlot slot size ∈ n.launch.arguments := by
  unfold nodeSlots
  simp only [mem_flatMap, mem_slotsOf]

/-- **The contract check accepts exactly the recorders whose launches agree.** -/
theorem validateKernelContracts_iff (r : Recorder) : validateKernelContracts r = .ok () ↔ ConsistentContracts r := by
  unfold validateKernelContracts
  rw [checkContracts_iff r.nodes [] [] (by simp [Functional]) (by simp [Functional]), append_nil, append_nil]
  constructor
  · rintro ⟨h1, h2, h3⟩
    refine ⟨fun n hn => (checkAbi_ok _).1 (h1 n hn), fun n hn m hm slot size size' hs hs' => ?_, fun n hn m hm he => ?_⟩
    · exact h2 slot size size' (mem_reverse.2 (mem_nodeSlots.2 ⟨n, hn, hs⟩))
        (mem_reverse.2 (mem_nodeSlots.2 ⟨m, hm, hs'⟩))
    · exact h3 n.launch.kernel _ _ (mem_reverse.2 (mem_map.2 ⟨n, hn, rfl⟩))
        (mem_reverse.2 (mem_map.2 ⟨m, hm, by rw [he]⟩))
  · intro h
    refine ⟨fun n hn => (checkAbi_ok _).2 (h.abi n hn), fun slot size size' hs hs' => ?_, fun key v v' hv hv' => ?_⟩
    · obtain ⟨n, hn, ha⟩ := mem_nodeSlots.1 (mem_reverse.1 hs)
      obtain ⟨m, hm, hb⟩ := mem_nodeSlots.1 (mem_reverse.1 hs')
      exact h.slots n hn m hm slot size size' ha hb
    · obtain ⟨n, hn, he⟩ := mem_map.1 (mem_reverse.1 hv)
      obtain ⟨m, hm, he'⟩ := mem_map.1 (mem_reverse.1 hv')
      obtain ⟨rfl, rfl⟩ := Prod.mk.inj he
      obtain ⟨hkey, rfl⟩ := Prod.mk.inj he'
      exact h.kernels n hn m hm hkey.symm

/-! ## Acceptance -/

/-- A dispatch is estimated to start once its dependencies end, wherever these stand. -/
theorem PlanOf.after_all {r : Recorder} {options : CompileOptions} {plan : CompiledPlan} (h : PlanOf r options plan)
    {a b : PlannedDispatch} (ha : a ∈ plan.dispatches) (hb : b ∈ plan.dispatches) (hab : a.node ∈ b.dependencies) :
    a.estimatedEnd ≤ b.estimatedStart := by
  obtain ⟨pre, post, he⟩ := append_of_mem hb
  have harc : Arc r.edges a.node b.node := by
    rw [(h.planned b hb).1.deps] at hab
    exact mem_predsOf.1 hab
  have hafter := h.after
  rw [he] at hafter
  exact (pairwise_append.1 hafter).2.2 a (h.before he ha (.single harc)) b (by simp) hab

/-- **Compilation accepts exactly the hazard-free recordings.**  With consistent contracts it never reports a cycle, and
reports hazards exactly if two conflicting accesses are unordered, each such pair once; otherwise the plan lists every node
once, prerequisites first and the smallest ready node first, keeps lanes and estimates apart, replays on any backend without
panicking, and is lowered without an unordered conflict. -/
theorem compile_accepts_exactly (sha256 : List UInt8 → Digest) (owner : Nat) (ops : List RecorderOp) (options : CompileOptions)
    (hcontracts : ConsistentContracts (build owner ops)) :
    (∀ nodes, compile sha256 (build owner ops) options ≠ .error (.cycle nodes)) ∧
    ((∃ hazards, compile sha256 (build owner ops) options = .error (.unorderedHazards hazards)) ↔
      ∃ c, UnorderedConflict (build owner ops) c) ∧
    (∀ hazards, compile sha256 (build owner ops) options = .error (.unorderedHazards hazards) →
      ∃ places : List ConflictAt, places.Nodup ∧ (∀ c, c ∈ places ↔ UnorderedConflict (build owner ops) c) ∧
        hazards.map some = places.map (hazardOf (build owner ops))) ∧
    ((∀ c, ¬ UnorderedConflict (build owner ops) c) → ∃ plan, compile sha256 (build owner ops) options = .ok plan) ∧
    ∀ plan, compile sha256 (build owner ops) options = .ok plan →
      (plan.dispatches.map PlannedDispatch.node).Perm ((build owner ops).nodes.map Node.id) ∧
      (∀ d ∈ plan.dispatches, d.dependencies = predsOf (build owner ops).edges d.node) ∧
      LeastFirst NodeId.lt ((build owner ops).nodes.map Node.id) (build owner ops).edges
        (plan.dispatches.map PlannedDispatch.node) ∧
      (∀ d ∈ plan.dispatches, d.lane < options.laneCount) ∧
      plan.dispatches.Pairwise (fun a b => a.lane = b.lane → a.estimatedEnd ≤ b.estimatedStart) ∧
      (∀ d ∈ plan.dispatches, d.estimatedEnd < u64Max → d.estimatedStart < d.estimatedEnd) ∧
      (∀ a ∈ plan.dispatches, ∀ b ∈ plan.dispatches, a.node ∈ b.dependencies → a.estimatedEnd ≤ b.estimatedStart) ∧
      (∀ (σ Signal Completion Error : Type) (backend : Backend σ Signal Completion Error) (token : Nat) (s : σ),
        (replay backend plan token s).2 ≠ .panicked ∧
        ((∀ request s, ∃ s' signal, backend.dispatch request s = (s', .ok signal)) →
          (∃ s', backend.beginReplay ⟨token, plan.replayMode, plan.laneCount⟩ s = (s', .ok ())) →
          ∃ sig : NodeId → Option Signal, entries (replay backend.logged plan token (s, [])).1.2 =
            plan.dispatches.map (submission token sig))) ∧
      (∀ boundary first second kind overlap,
        deriveAqlVisibility plan boundary ≠ .error (.unorderedConflict first second kind overlap)) := by
  have hr := wf_build owner ops
  obtain ⟨order, ho, hcases⟩ := compile_cases sha256 hr options ((validateKernelContracts_iff _).2 hcontracts)
  refine ⟨fun nodes hc => ?_, ⟨fun ⟨hazards, hc⟩ => ?_, fun hex => ?_⟩, fun hazards hc => ?_, fun hfree => ?_, fun plan hc => ?_⟩
  · rcases hcases with ⟨-, he⟩ | ⟨-, plan, he, -⟩ <;> rw [he] at hc <;> cases hc
  · rcases hcases with ⟨hex, -⟩ | ⟨-, plan, he, -⟩
    · exact hex
    · rw [he] at hc; cases hc
  · rcases hcases with ⟨-, he⟩ | ⟨hfree, -⟩
    · exact ⟨_, he⟩
    · obtain ⟨c, hcc⟩ := hex; exact absurd hcc (hfree c)
  · rcases hcases with ⟨-, he⟩ | ⟨-, plan, he, -⟩
    · cases he.symm.trans hc
      exact unorderedHazards_spec hr ho
    · rw [he] at hc; cases hc
  · rcases hcases with ⟨⟨c, hcc⟩, -⟩ | ⟨-, plan, he, -⟩
    · exact absurd hcc (hfree c)
    · exact ⟨plan, he⟩
  · have hp := compile_ok hr hc
    refine ⟨hp.order.perm, fun d hd => (hp.planned d hd).1.deps, hp.order.first, fun d hd => hp.lanes ▸ (hp.planned d hd).2,
      hp.apart, fun d hd => (hp.bounds d hd).2, fun a ha b hb hab => hp.after_all ha hb hab,
      fun σ Signal Completion Error backend token s => ⟨?_, ?_⟩, fun boundary first second kind overlap he => ?_⟩
    · obtain ⟨log, hlog⟩ := replay_logged_eq backend plan token s []
      intro hpanic
      rcases hp.replay_spec hr backend token s with ⟨e, he, -⟩ | ⟨sig, -, s', terminalSignals, -, he⟩
      · rw [hlog, hpanic] at he; cases he
      · rw [hlog, hpanic] at he
        split at he <;> cases he
    · intro hacc hbegin
      rcases hp.replay_spec hr backend token s with ⟨e, -, hb | ⟨request, s₁, s₂, hd⟩⟩ | ⟨sig, hsig, -⟩
      · obtain ⟨s', hs'⟩ := hbegin
        rw [hs'] at hb; cases hb
      · obtain ⟨s', signal, hs'⟩ := hacc request s₁
        rw [hs'] at hd; cases hd
      · exact ⟨sig, hsig⟩
    · rcases hp.derive_ok hr boundary with ⟨-, h⟩ | ⟨-, policy, h⟩ <;> rw [h] at he <;> cases he

theorem compile_accepts_exactly_writersThenReader : ConsistentContracts (build 0 writersThenReader) ∧
    ∃ plan, compile (fun _ => []) (build 0 writersThenReader) twoLanes = .ok plan ∧
      (plan.dispatches.map PlannedDispatch.node).Perm [⟨0, 0⟩, ⟨0, 1⟩, ⟨0, 2⟩] := by
  have hc : ConsistentContracts (build 0 writersThenReader) := (validateKernelContracts_iff _).1 rfl
  exact ⟨hc, _, rfl, ((compile_accepts_exactly (fun _ => []) 0 writersThenReader twoLanes hc).2.2.2.2 _ rfl).1⟩

end Hipfire.Redline
