import Hipfire.Redline.Elision
/-!
# Replay — driving a backend with a compiled plan

`replay` submits a plan's dispatches in order, each with the signals of its dependencies; an `expect` that fails is the
outcome `panicked`.  The backend is arbitrary.  `Backend.logged` is the same backend with its accepted submissions written
down, so that what `replay` submits can be read off the log (`replay_logged`).
-/
namespace Hipfire.Redline

open List

structure BeginReplay where
  token : Nat
  mode : ReplayMode
  laneCount : Nat

structure DispatchRequest (Signal : Type) where
  token : Nat
  node : NodeId
  lane : Nat
  launch : KernelLaunch
  accesses : List Access
  dependencySignals : List Signal

structure EndReplay (Signal : Type) where
  token : Nat
  mode : ReplayMode
  terminalSignals : List Signal

/-- A queue implementation: its three calls, on a state of its own. -/
structure Backend (σ Signal Completion Error : Type) where
  beginReplay : BeginReplay → σ → σ × Except Error Unit
  dispatch : DispatchRequest Signal → σ → σ × Except Error Signal
  endReplay : EndReplay Signal → σ → σ × Except Error Completion

/-- How a replay ends: `panicked` is an `expect` or an index that failed. -/
inductive Outcome (Error α : Type) where
  | done (value : α)
  | failed (error : Error)
  | panicked

variable {σ Signal Completion Error : Type}

/-- The signals of some nodes; none if one was not submitted. -/
def signalsFor (signals : List (Option Signal)) : List NodeId → Option (List Signal)
  | [] => some []
  | node :: nodes =>
    match signals.getD node.index none with
    | none => none
    | some signal =>
      match signalsFor signals nodes with
      | none => none
      | some rest => some (signal :: rest)

def submitAll (backend : Backend σ Signal Completion Error) (token : Nat) :
    List PlannedDispatch → List (Option Signal) → σ → σ × Outcome Error (List (Option Signal))
  | [], signals, s => (s, .done signals)
  | d :: ds, signals, s =>
    match signalsFor signals d.dependencies with
    | none => (s, .panicked)
    | some dependencySignals =>
      match backend.dispatch ⟨token, d.node, d.lane, d.launch, d.accesses, dependencySignals⟩ s with
      | (s', .error e) => (s', .failed e)
      | (s', .ok signal) =>
        if d.node.index < signals.length then submitAll backend token ds (signals.set d.node.index (some signal)) s'
        else (s', .panicked)

def replay (backend : Backend σ Signal Completion Error) (plan : CompiledPlan) (token : Nat) (s : σ) :
    σ × Outcome Error Completion :=
  match backend.beginReplay ⟨token, plan.replayMode, plan.laneCount⟩ s with
  | (s₁, .error e) => (s₁, .failed e)
  | (s₁, .ok ()) =>
    match submitAll backend token plan.dispatches (replicate plan.dispatches.length none) s₁ with
    | (s₂, .failed e) => (s₂, .failed e)
    | (s₂, .panicked) => (s₂, .panicked)
    | (s₂, .done signals) =>
      match signalsFor signals plan.terminals with
      | none => (s₂, .panicked)
      | some terminalSignals =>
        match backend.endReplay ⟨token, plan.replayMode, terminalSignals⟩ s₂ with
        | (s₃, .error e) => (s₃, .failed e)
        | (s₃, .ok completion) => (s₃, .done completion)

/-! ## The log -/

abbrev Log (Signal : Type) := List (DispatchRequest Signal × Signal)

/-- The same backend, writing down each submission it accepts and the signal it gave. -/
def Backend.logged (backend : Backend σ Signal Completion Error) : Backend (σ × Log Signal) Signal Completion Error where
  beginReplay b s := (((backend.beginReplay b s.1).1, s.2), (backend.beginReplay b s.1).2)
  dispatch request s :=
    match backend.dispatch request s.1 with
    | (s', .ok signal) => ((s', s.2 ++ [(request, signal)]), .ok signal)
    | (s', .error e) => ((s', s.2), .error e)
  endReplay b s := (((backend.endReplay b s.1).1, s.2), (backend.endReplay b s.1).2)

@[simp] theorem logged_beginReplay (backend : Backend σ Signal Completion Error) (b : BeginReplay) (s : σ) (log : Log Signal) :
    backend.logged.beginReplay b (s, log) = (((backend.beginReplay b s).1, log), (backend.beginReplay b s).2) := rfl

@[simp] theorem logged_endReplay (backend : Backend σ Signal Completion Error) (b : EndReplay Signal) (s : σ)
    (log : Log Signal) :
    backend.logged.endReplay b (s, log) = (((backend.endReplay b s).1, log), (backend.endReplay b s).2) := rfl

variable {s s' : σ} {request : DispatchRequest Signal} {backend : Backend σ Signal Completion Error}

theorem logged_dispatch_ok {signal : Signal} (h : backend.dispatch request s = (s', .ok signal)) (log : Log Signal) :
    backend.logged.dispatch request (s, log) = ((s', log ++ [(request, signal)]), .ok signal) := by
  simp only [Backend.logged, h]

theorem logged_dispatch_error {e : Error} (h : backend.dispatch request s = (s', .error e)) (log : Log Signal) :
    backend.logged.dispatch request (s, log) = ((s', log), .error e) := by
  simp only [Backend.logged, h]

theorem submitAll_logged (backend : Backend σ Signal Completion Error) (token : Nat) : ∀ (ds : List PlannedDispatch)
    (signals : List (Option Signal)) (s : σ) (log : Log Signal), ∃ log',
    submitAll backend.logged token ds signals (s, log) =
      (((submitAll backend token ds signals s).1, log'), (submitAll backend token ds signals s).2)
  | [], _, _, log => ⟨log, rfl⟩
  | d :: ds, signals, s, log => by
    unfold submitAll
    cases hsig : signalsFor signals d.dependencies with
    | none => exact ⟨log, rfl⟩
    | some deps =>
      simp only
      rcases hb : backend.dispatch ⟨token, d.node, d.lane, d.launch, d.accesses, deps⟩ s with ⟨s', e | signal⟩
      · exact ⟨log, by rw [logged_dispatch_error hb]⟩
      rw [logged_dispatch_ok hb]
      simp only
      split
      · exact submitAll_logged backend token ds _ s' _
      · exact ⟨_, rfl⟩

/-- **Logging changes nothing**: state and outcome are those of the backend itself. -/
theorem replay_logged_eq (backend : Backend σ Signal Completion Error) (plan : CompiledPlan) (token : Nat) (s : σ)
    (log : Log Signal) : ∃ log', replay backend.logged plan token (s, log) =
      (((replay backend plan token s).1, log'), (replay backend plan token s).2) := by
  unfold replay
  rw [logged_beginReplay]
  rcases backend.beginReplay ⟨token, plan.replayMode, plan.laneCount⟩ s with ⟨s₁, e | u⟩
  · exact ⟨log, rfl⟩
  obtain ⟨log', hsub⟩ := submitAll_logged backend token plan.dispatches (replicate plan.dispatches.length none) s₁ log
  simp only [hsub]
  rcases submitAll backend token plan.dispatches (replicate plan.dispatches.length none) s₁ with ⟨s₂, signals | e | _⟩
  · simp only
    cases signalsFor signals plan.terminals with
    | none => exact ⟨log', rfl⟩
    | some terminalSignals =>
      simp only [logged_endReplay]
      rcases backend.endReplay ⟨token, plan.replayMode, terminalSignals⟩ s₂ with ⟨s₃, e | c⟩
      · exact ⟨log', rfl⟩
      · exact ⟨log', rfl⟩
  · exact ⟨log', rfl⟩
  · exact ⟨log', rfl⟩

/-! ## What is submitted -/

def DispatchRequest.map {α β : Type} (f : α → β) (request : DispatchRequest α) : DispatchRequest β :=
  { request with dependencySignals := request.dependencySignals.map f }

/-- The submission of a dispatch and its answer, given the signal that each node's submission was answered with. -/
def submission (token : Nat) (sig : NodeId → Option Signal) (d : PlannedDispatch) :
    DispatchRequest (Option Signal) × Option Signal :=
  (⟨token, d.node, d.lane, d.launch, d.accesses, d.dependencies.map sig⟩, sig d.node)

/-- The entries of a log, to be compared with submissions. -/
def entries (log : Log Signal) : List (DispatchRequest (Option Signal) × Option Signal) :=
  log.map (fun e => (e.1.map some, some e.2))

/-- The signal table, read by node. -/
def tableOf (signals : List (Option Signal)) (node : NodeId) : Option Signal := signals.getD node.index none

theorem signalsFor_spec (signals : List (Option Signal)) : ∀ (nodes : List NodeId),
    (∀ n ∈ nodes, (tableOf signals n).isSome) →
    ∃ out, signalsFor signals nodes = some out ∧ out.map some = nodes.map (tableOf signals)
  | [], _ => ⟨[], rfl, rfl⟩
  | n :: nodes, h => by
    obtain ⟨signal, hs⟩ := Option.isSome_iff_exists.1 (h n (by simp))
    obtain ⟨out, h3, h4⟩ := signalsFor_spec signals nodes (forall_mem_cons.1 h).2
    refine ⟨signal :: out, ?_, by rw [map_cons, map_cons, h4, hs]⟩
    unfold signalsFor
    unfold tableOf at hs
    rw [hs, h3]

/-- Dispatches that can be submitted from a signal table: their slots exist and are their own, and what a dispatch depends on
is in the table or submitted before it. -/
structure Submittable (signals : List (Option Signal)) (ds : List PlannedDispatch) : Prop where
  slots : ∀ d ∈ ds, d.node.index < signals.length
  nodup : (ds.map (fun d => d.node.index)).Nodup
  deps : ∀ p1 d p2, ds = p1 ++ d :: p2 → ∀ n ∈ d.dependencies, (∃ e ∈ p1, e.node = n) ∨
    ((tableOf signals n).isSome ∧ n.index ∉ ds.map (fun d => d.node.index))

variable {signals : List (Option Signal)}

theorem tableOf_set {i : Nat} (hi : i < signals.length) (v : Option Signal) (n : NodeId) :
    tableOf (signals.set i v) n = if i = n.index then v else tableOf signals n := by
  unfold tableOf
  rw [getD_set]
  simp [hi]

theorem Submittable.next {d : PlannedDispatch} {ds : List PlannedDispatch}
    (h : Submittable signals (d :: ds)) (signal : Signal) : Submittable (signals.set d.node.index (some signal)) ds := by
  obtain ⟨hd, hnd⟩ := nodup_cons.1 h.nodup
  have hidx := h.slots d (by simp)
  refine ⟨fun e he => by rw [length_set]; exact h.slots e (mem_cons_of_mem _ he), hnd, fun p1 e p2 he n hn => ?_⟩
  rcases h.deps (d :: p1) e p2 (by rw [he]; rfl) n hn with ⟨e', he', rfl⟩ | ⟨hs, hni⟩
  · rcases mem_cons.1 he' with rfl | he'
    · exact .inr ⟨by rw [tableOf_set hidx, if_pos rfl]; rfl, hd⟩
    · exact .inl ⟨e', he', rfl⟩
  · rw [map_cons, mem_cons, not_or] at hni
    refine .inr ⟨?_, hni.2⟩
    rw [tableOf_set hidx, if_neg (Ne.symm hni.1)]
    exact hs

/-- **Submitting what can be submitted** never panics, fails only where the backend's `dispatch` does, and otherwise logs
each dispatch once, with the signals its dependencies were answered with. -/
theorem submitAll_spec (backend : Backend σ Signal Completion Error) (token : Nat) : ∀ (ds : List PlannedDispatch)
    (signals : List (Option Signal)) (s : σ) (log : Log Signal), Submittable signals ds →
    (∃ e, (submitAll backend.logged token ds signals (s, log)).2 = .failed e ∧
      ∃ request s₁ s₂, backend.dispatch request s₁ = (s₂, .error e)) ∨
    ∃ signals' s' sent, submitAll backend.logged token ds signals (s, log) = ((s', log ++ sent), .done signals') ∧
      (∀ n : NodeId, n.index ∉ ds.map (fun d => d.node.index) → tableOf signals' n = tableOf signals n) ∧
      entries sent = ds.map (submission token (tableOf signals'))
  | [], signals, s, log, _ => .inr ⟨signals, s, [], by rw [append_nil]; rfl, fun _ _ => rfl, rfl⟩
  | d :: ds, signals, s, log, h => by
    obtain ⟨hd, -⟩ := nodup_cons.1 h.nodup
    have hidx := h.slots d (by simp)
    have hdeps : ∀ n ∈ d.dependencies, (tableOf signals n).isSome ∧ n.index ∉ (d :: ds).map (fun d => d.node.index) :=
      fun n hn => by
        rcases h.deps [] d ds rfl n hn with ⟨e, he, -⟩ | hs
        · cases he
        · exact hs
    obtain ⟨deps, hsig, hmap⟩ := signalsFor_spec signals d.dependencies (fun n hn => (hdeps n hn).1)
    unfold submitAll
    simp only [hsig]
    rcases hb : backend.dispatch ⟨token, d.node, d.lane, d.launch, d.accesses, deps⟩ s with ⟨s', e | signal⟩
    · rw [logged_dispatch_error hb]
      exact .inl ⟨e, rfl, _, _, _, hb⟩
    rw [logged_dispatch_ok hb]
    simp only [if_pos hidx]
    rcases submitAll_spec backend token ds _ s' (log ++ [(⟨token, d.node, d.lane, d.launch, d.accesses, deps⟩, signal)])
      (h.next signal) with hf | ⟨signals', s'', sent, h1, h2, h3⟩
    · exact .inl hf
    · -- the slots of the dependencies and of the dispatch itself are not written again
      have hown : tableOf signals' d.node = some signal := by
        rw [h2 d.node hd, tableOf_set hidx, if_pos rfl]
      have hkept : ∀ n : NodeId, n.index ∉ (d :: ds).map (fun d => d.node.index) → tableOf signals' n = tableOf signals n := by
        intro n hn
        rw [map_cons, mem_cons, not_or] at hn
        rw [h2 n hn.2, tableOf_set hidx, if_neg (Ne.symm hn.1)]
      refine .inr ⟨signals', s'', (⟨token, d.node, d.lane, d.launch, d.accesses, deps⟩, signal) :: sent,
        by rw [h1, append_assoc]; rfl, hkept, ?_⟩
      have hcongr : d.dependencies.map (tableOf signals) = d.dependencies.map (tableOf signals') :=
        map_congr_left (fun n hn => (hkept n (hdeps n hn).2).symm)
      unfold entries at h3 ⊢
      rw [map_cons, map_cons, h3]
      simp only [submission, DispatchRequest.map, hmap, hcongr, hown]

section plan

variable {r : Recorder} {options : CompileOptions} {plan : CompiledPlan}

theorem PlanOf.length_eq (h : PlanOf r options plan) : plan.dispatches.length = r.nodes.length := by
  rw [← h.order.length, length_map]

theorem PlanOf.submittable (hr : r.WF) (h : PlanOf r options plan) :
    Submittable (replicate plan.dispatches.length (none : Option Signal)) plan.dispatches where
  slots d hd := by
    rw [length_replicate, h.length_eq]
    exact ((h.order.known hr d.node).1 (mem_map_of_mem hd)).2
  nodup := h.indices_nodup hr
  deps p1 d p2 he n hn := by
    have hd : d ∈ plan.dispatches := by rw [he]; simp
    rw [(h.planned d hd).1.deps, mem_predsOf] at hn
    obtain ⟨e, hem, rfl⟩ := h.dispatch_of hr (hr.known _ hn).1
    exact .inl ⟨e, h.before he hem (.single hn), rfl⟩

theorem terminalNodes_known (hr : r.WF) {n : NodeId} (hn : n ∈ terminalNodes r) : r.Known n := by
  obtain ⟨m, hm, rfl⟩ := mem_map.1 hn
  exact (mem_nodeIds hr _).1 (mem_map_of_mem (mem_filter.1 hm).1)

/-- **A compiled plan is replayed as planned.**  On any backend a replay never panics; if it is not stopped by the backend's
`begin_replay` or `dispatch`, every dispatch was submitted once, in the plan's order, with the signals of its dependencies. -/
theorem PlanOf.replay_spec (hr : r.WF) (h : PlanOf r options plan) (backend : Backend σ Signal Completion Error) (token : Nat)
    (s : σ) : (∃ e, (replay backend.logged plan token (s, [])).2 = .failed e ∧
      ((backend.beginReplay ⟨token, plan.replayMode, plan.laneCount⟩ s).2 = .error e ∨
        ∃ request s₁ s₂, backend.dispatch request s₁ = (s₂, .error e))) ∨
    ∃ sig : NodeId → Option Signal,
      entries (replay backend.logged plan token (s, [])).1.2 = plan.dispatches.map (submission token sig) ∧
      ∃ s' terminalSignals, terminalSignals.map some = plan.terminals.map sig ∧
        (replay backend.logged plan token (s, [])).2 =
          match (backend.endReplay ⟨token, plan.replayMode, terminalSignals⟩ s').2 with
          | .error e => .failed e
          | .ok completion => .done completion := by
  unfold replay
  rw [logged_beginReplay]
  rcases hb : backend.beginReplay ⟨token, plan.replayMode, plan.laneCount⟩ s with ⟨s₁, e | u⟩
  · exact .inl ⟨e, rfl, .inl rfl⟩
  simp only
  rcases submitAll_spec backend token plan.dispatches _ s₁ [] (h.submittable hr) with
    ⟨e, hf, hd⟩ | ⟨signals', s', sent, h1, h2, h3⟩
  · split <;> simp_all
  · have hterm : ∀ n ∈ plan.terminals, (tableOf signals' n).isSome := fun n hn => by
      rw [h.terminals] at hn
      obtain ⟨d, hd, rfl⟩ := h.dispatch_of hr (terminalNodes_known hr hn)
      have : submission token (tableOf signals') d ∈ entries sent := h3 ▸ mem_map_of_mem hd
      obtain ⟨x, -, hx⟩ := mem_map.1 this
      have := congrArg (fun p => p.2) hx
      simp only [submission] at this
      rw [← this]; rfl
    obtain ⟨out, ho1, ho2⟩ := signalsFor_spec signals' plan.terminals hterm
    refine .inr ⟨tableOf signals', ?_, s', out, ho2, ?_⟩
    · simp only [h1, ho1, nil_append, logged_endReplay]
      rcases backend.endReplay ⟨token, plan.replayMode, out⟩ s' with ⟨s₃, e | c⟩
      · exact h3
      · exact h3
    · simp only [h1, ho1, nil_append, logged_endReplay]
      rcases backend.endReplay ⟨token, plan.replayMode, out⟩ s' with ⟨s₃, e | c⟩
      · rfl
      · rfl

end plan

end Hipfire.Redline
